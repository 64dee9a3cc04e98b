import Mathlib.Data.List.Chain
import GridCss.Proofs.Printing

/-!
# Reading printed values

Readers of every kind take one character after the other, so that printed text is followed from
state to state, and a reader goes along with one inside it. Printed arguments, values and
declarations lead to the states that have just these read.
-/

namespace GridCss

namespace Text

theorem dropWhile_isBlank_eq_self {cs : List Char} (h : ∀ c ∈ cs.head?, isBlank c = false) :
    cs.dropWhile isBlank = cs := by
  cases cs with
  | nil => rfl
  | cons c cs => exact List.dropWhile_cons_of_neg (by simp [h c rfl])

theorem trimStart_eq_self {s : String} (h : ∀ c ∈ s.toList.head?, isBlank c = false) :
    trimStart s = s := by
  rw [trimStart, dropWhile_isBlank_eq_self h, String.ofList_toList]

theorem dropEndWhile_isBlank_eq_self {cs : List Char} (h : ∀ c ∈ cs.getLast?, isBlank c = false) :
    dropEndWhile isBlank cs = cs := by
  rw [← List.head?_reverse] at h
  rw [dropEndWhile, dropWhile_isBlank_eq_self h, List.reverse_reverse]

theorem trimEnd_eq_self {s : String} (h : ∀ c ∈ s.toList.getLast?, isBlank c = false) :
    trimEnd s = s := by
  rw [trimEnd, dropEndWhile_isBlank_eq_self h, String.ofList_toList]

theorem trim_eq_self {s : String} (h : ∀ c ∈ s.toList.head?, isBlank c = false)
    (h' : ∀ c ∈ s.toList.getLast?, isBlank c = false) : trim s = s := by
  rw [trim, dropWhile_isBlank_eq_self h, dropEndWhile_isBlank_eq_self h', String.ofList_toList]

theorem IsValueText.of_append {cs ds : List Char} (h : IsValueText (cs ++ ds)) :
    IsValueText cs where
  chars c hc := h.chars c (List.mem_append_left ds hc)
  spaces := h.spaces.left_of_append
  noCall := by
    rintro ⟨before, name, after, hne, hname, rfl⟩
    exact h.noCall ⟨before, name, after ++ ds, hne, hname, by simp⟩

end Text

namespace Source

@[simp] theorem textOf_nil : textOf [] = "" := rfl

@[simp] theorem textOf_reverse_toList (s : String) : textOf s.toList.reverse = s := by
  simp [textOf]

variable {σ τ α : Type}

/-- The state to go on with, if a step neither ends nor fails. -/
def Step.ongoing? : Except SourceError (Step σ α) → Option σ
  | .ok (.more s) => some s
  | _ => none

@[simp] theorem Step.ongoing?_eq_some {x : Except SourceError (Step σ α)} {s : σ} :
    ongoing? x = some s ↔ x = .ok (.more s) := by
  unfold ongoing?
  split <;> simp_all

def ongoing? : Except SourceError (σ ⊕ α) → Option σ
  | .ok (.inl s) => some s
  | _ => none

@[simp] theorem ongoing?_eq_some {x : Except SourceError (σ ⊕ α)} {s : σ} :
    ongoing? x = some s ↔ x = .ok (.inl s) := by
  unfold ongoing?
  split <;> simp_all

/-- The state after a text that starts at `p`. -/
def follow (next : σ → Position → Char → Option σ) (s : σ) (p : Position) : List Char → Option σ
  | [] => some s
  | c :: cs => (next s p c).bind fun s' => follow next s' (p.advance c) cs

/-- A text leads from one state to another, wherever it stands. -/
def Leads (next : σ → Position → Char → Option σ) (s : σ) (cs : List Char) (s' : σ) : Prop :=
  ∀ p, follow next s p cs = some s'

theorem follow_append (next : σ → Position → Char → Option σ) (s : σ) (p : Position)
    (cs ds : List Char) :
    follow next s p (cs ++ ds) =
      (follow next s p cs).bind fun s' => follow next s' (p.advanceAll cs) ds := by
  induction cs generalizing s p with
  | nil => rfl
  | cons c cs ih =>
    simp only [List.cons_append, follow, Option.bind_assoc]
    exact Option.bind_congr fun s' _ => ih s' _

namespace Leads

variable {next : σ → Position → Char → Option σ} {s s' s'' : σ} {c : Char} {cs ds : List Char}

theorem refl : Leads next s [] s := fun _ => rfl

theorem cons (h : ∀ p, next s p c = some s') (h' : Leads next s' cs s'') :
    Leads next s (c :: cs) s'' := by
  intro p
  rw [follow, h p]
  exact h' _

theorem single (h : ∀ p, next s p c = some s') : Leads next s [c] s' := cons h refl

theorem append (h : Leads next s cs s') (h' : Leads next s' ds s'') :
    Leads next s (cs ++ ds) s'' := by
  intro p
  rw [follow_append, h p]
  exact h' _

/-- A reader goes along with one inside it. -/
theorem lift {next' : τ → Position → Char → Option τ} (g : σ → τ)
    (hg : ∀ s p c s', next s p c = some s' → next' (g s) p c = some (g s'))
    (h : Leads next s cs s') : Leads next' (g s) cs (g s') := by
  intro p
  have hs := h p
  clear h
  induction cs generalizing s p with
  | nil => exact congrArg (Option.map g) hs
  | cons c cs ih =>
    rw [follow, Option.bind_eq_some_iff] at hs
    obtain ⟨s₁, hnext, hs⟩ := hs
    rw [follow, hg s p c s₁ hnext]
    exact ih _ hs

/-- Characters are collected latest first. -/
theorem collect {P : Char → Prop} (g : List Char → σ)
    (hg : ∀ read p c, P c → next (g read) p c = some (g (c :: read)))
    (h : ∀ c ∈ cs, P c) (read : List Char) : Leads next (g read) cs (g (cs.reverse ++ read)) := by
  induction cs generalizing read with
  | nil => exact refl
  | cons c cs ih =>
    rw [List.forall_mem_cons] at h
    rw [List.reverse_cons, List.append_assoc]
    exact cons (fun p => hg read p c h.1) (ih h.2 (c :: read))

end Leads

def ArgumentReader.next (r : ArgumentReader) (_ : Position) (c : Char) : Option ArgumentReader :=
  (r.step c).getLeft?

/-- The draft of an argument with some pieces read, the last of which may go on if it is text. -/
def ArgumentDraft.ofPieces (groups : List (List Argument)) (pieces : List Argument) :
    ArgumentDraft :=
  match pieces.getLast? with
  | some (.text s) => { groups := groups, group := pieces.dropLast, literal := s.toList.reverse }
  | _ => { groups := groups, group := pieces }

namespace ArgumentDraft

theorem ofPieces_text (groups : List (List Argument)) (pieces : List Argument) (s : String) :
    ofPieces groups (pieces ++ [.text s]) =
      { groups := groups, group := pieces, literal := s.toList.reverse } := by
  simp [ofPieces]

theorem ofPieces_eq {groups : List (List Argument)} {pieces : List Argument}
    (h : ∀ s, pieces.getLast? ≠ some (.text s)) :
    ofPieces groups pieces = { groups := groups, group := pieces } := by
  unfold ofPieces
  split
  · next s hs => exact absurd hs (h s)
  · rfl

/-- In front of a call, the pieces stay as they are although more may follow. -/
theorem cut_ofPieces (groups : List (List Argument)) {pieces rest : List Argument}
    (h : Text.Separated ((pieces ++ rest).map Argument.text?)) :
    (ofPieces groups pieces).cut = { groups := groups, group := pieces } := by
  by_cases hlast : ∃ s, pieces.getLast? = some (.text s)
  · obtain ⟨s, hs⟩ := hlast
    obtain ⟨front, rfl⟩ := List.getLast?_eq_some_iff.mp hs
    have hs' : s ≠ "" := by
      have hpiece := h.nonempty (some s) (by simp [Argument.text?])
      simpa using hpiece
    rw [ofPieces_text]
    cases front with
    | nil =>
      have htrim : Text.trimStart s = s := Text.trimStart_eq_self (h.start s rfl)
      simp [cut, htrim, hs']
    | cons a front => simp [cut, hs']
  · rw [ofPieces_eq fun s hs => hlast ⟨s, hs⟩]
    cases pieces <;> rfl

theorem finished_empty (groups : List (List Argument)) :
    ({ groups := groups } : ArgumentDraft).finished = [] := by
  have htrim : Text.trim "" = "" := by decide
  have hnumber : parseNumber "" = none := by
    rw [parseNumber, htrim]
    rfl
  simp [finished, htrim, hnumber]

theorem finished_ofPieces (groups : List (List Argument)) {pieces : List Argument}
    (h : Argument.IsGroup pieces) : (ofPieces groups pieces).finished = pieces := by
  obtain ⟨hseparated, hnumber⟩ := h
  by_cases hlast : ∃ s, pieces.getLast? = some (.text s)
  · obtain ⟨s, hs⟩ := hlast
    obtain ⟨front, rfl⟩ := List.getLast?_eq_some_iff.mp hs
    have hs' : s ≠ "" := by
      have hpiece := hseparated.nonempty (some s) (by simp [Argument.text?])
      simpa using hpiece
    have hfinish : ∀ c ∈ s.toList.getLast?, Text.isBlank c = false :=
      hseparated.finish s (by simp [Argument.text?])
    rw [ofPieces_text]
    cases front with
    | nil =>
      have htrim : Text.trim s = s := Text.trim_eq_self (hseparated.start s rfl) hfinish
      simp [finished, htrim, hnumber s rfl, hs']
    | cons a front => simp [finished, Text.trimEnd_eq_self hfinish, hs']
  · rw [ofPieces_eq fun s hs => hlast ⟨s, hs⟩]
    cases pieces with
    | nil => exact finished_empty groups
    | cons a rest => rfl

theorem groups_ofPieces (groups : List (List Argument)) (pieces : List Argument) :
    (ofPieces groups pieces).groups = groups := by
  unfold ofPieces
  split <;> rfl

/-- The draft after one more piece. -/
def take (d : ArgumentDraft) : Argument → ArgumentDraft
  | .text s => { d with literal := s.toList.reverse ++ d.literal }
  | .number x => { d with literal := (Number.text x).toList.reverse ++ d.literal }
  | .call name arguments => d.cut.addCall name arguments

theorem take_ofPieces (groups : List (List Argument)) {pieces rest : List Argument} {a : Argument}
    (ha : a.WellFormed) (h : Text.Separated ((pieces ++ a :: rest).map Argument.text?)) :
    (ofPieces groups pieces).take a = ofPieces groups (pieces ++ [a]) := by
  cases a with
  | number x => exact ha.elim
  | text s =>
    have hlast : ∀ t, pieces.getLast? ≠ some (.text t) := by
      intro t ht
      have hchain := h.apart
      rw [List.map_append, List.isChain_append] at hchain
      have ht' : some t ∈ (pieces.map Argument.text?).getLast? := by
        simp [List.getLast?_map, ht, Argument.text?]
      have hnone := hchain.2.2 (some t) ht' (some s) rfl
      simp at hnone
    rw [ofPieces_text, ofPieces_eq hlast, take, List.append_nil]
  | call name arguments =>
    have hlast : ∀ t, (pieces ++ [Argument.call name arguments]).getLast? ≠ some (.text t) := by
      simp
    rw [ofPieces_eq hlast, take, cut_ofPieces groups h]
    rfl

theorem foldl_take_ofPieces (groups : List (List Argument)) {pieces rest : List Argument}
    (hrest : Argument.WellFormedPieces rest)
    (h : Text.Separated ((pieces ++ rest).map Argument.text?)) :
    rest.foldl take (ofPieces groups pieces) = ofPieces groups (pieces ++ rest) := by
  induction rest generalizing pieces with
  | nil => rw [List.append_nil, List.foldl_nil]
  | cons a rest ih =>
    have hnext : pieces ++ a :: rest = (pieces ++ [a]) ++ rest := by simp
    rw [List.foldl_cons, take_ofPieces groups hrest.1 h, hnext]
    exact ih hrest.2 (hnext ▸ h)

/-- The draft after more arguments, each behind a comma. -/
def takeMore (d : ArgumentDraft) (groups : List (List Argument)) : ArgumentDraft :=
  groups.foldl (fun d group => group.foldl take d.comma) d

theorem foldl_take_group (groups : List (List Argument)) {group : List Argument}
    (h : Argument.IsGroup group) (hgroup : Argument.WellFormedPieces group) :
    (group.foldl take { groups := groups }).groups = groups ∧
      (group.foldl take { groups := groups }).finished = group := by
  have hfold : group.foldl take { groups := groups } = ofPieces groups group :=
    @foldl_take_ofPieces groups [] group hgroup h.1
  rw [hfold]
  exact ⟨groups_ofPieces groups group, finished_ofPieces groups h⟩

theorem takeMore_groups (d : ArgumentDraft) {rest : List (List Argument)}
    (h : Argument.WellFormedGroups rest) :
    (d.takeMore rest).groups ++ [(d.takeMore rest).finished] =
      d.groups ++ [d.finished] ++ rest := by
  induction rest generalizing d with
  | nil => rw [List.append_nil]; rfl
  | cons group rest ih =>
    obtain ⟨hgroup, hpieces, hrest⟩ := h
    obtain ⟨hgroups, hfinished⟩ := foldl_take_group (d.groups ++ [d.finished]) hgroup hpieces
    have hmore := ih (group.foldl take d.comma) hrest
    rw [comma, hgroups, hfinished] at hmore
    rw [List.append_cons (d.groups ++ [d.finished]), ← hmore]
    rfl

theorem close_eq {d : ArgumentDraft} (h : d.groups ++ [d.finished] ≠ [[]]) :
    d.close = d.groups ++ [d.finished] := by
  rw [close]
  refine if_neg ?_
  simp only [Bool.and_eq_true, List.isEmpty_iff]
  rintro ⟨hgroups, hfinished⟩
  exact h (by rw [hgroups, hfinished]; rfl)

/-- The draft behind printed arguments. -/
def ofGroups : List (List Argument) → ArgumentDraft
  | [] => {}
  | group :: rest => (group.foldl take {}).takeMore rest

theorem close_ofGroups {arguments : List (List Argument)} (hne : arguments ≠ [[]])
    (h : Argument.WellFormedGroups arguments) : (ofGroups arguments).close = arguments := by
  cases arguments with
  | nil => simp [ofGroups, close, finished_empty]
  | cons group rest =>
    obtain ⟨hgroup, hpieces, hrest⟩ := h
    obtain ⟨hgroups, hfinished⟩ := foldl_take_group [] hgroup hpieces
    have hmore := takeMore_groups (group.foldl take {}) hrest
    rw [hgroups, hfinished] at hmore
    have hall : (ofGroups (group :: rest)).groups ++ [(ofGroups (group :: rest)).finished] =
        group :: rest := hmore
    rw [← hall] at hne
    exact (close_eq hne).trans hall

end ArgumentDraft

namespace ArgumentReader

variable (d : ArgumentDraft) (callers : List (String × ArgumentDraft))

theorem quoteChar_leads (c : Char) :
    Leads next ⟨.plain, d, callers⟩ (Text.quoteChar c) ⟨.plain, d.push c, callers⟩ := by
  unfold Text.quoteChar
  split_ifs with hbackslash hquote
  · subst hbackslash
    exact .single fun _ => rfl
  · subst hquote
    exact fun _ => rfl
  · have hinside : ∀ p, next ⟨.quote '\'' false, d, callers⟩ p c =
        some ⟨.quote '\'' false, d.push c, callers⟩ := by
      intro p
      simp [next, step, hbackslash, hquote, push]
    exact .cons (fun _ => rfl) (.cons hinside (.single fun _ => rfl))

theorem text_leads (cs : List Char) :
    Leads next ⟨.plain, d, callers⟩ (cs.flatMap Text.quoteChar)
      ⟨.plain, { d with literal := cs.reverse ++ d.literal }, callers⟩ := by
  induction cs generalizing d with
  | nil => exact .refl
  | cons c cs ih =>
    have hrest := ih (d.push c)
    rw [List.flatMap_cons, List.reverse_cons, List.append_assoc]
    exact (quoteChar_leads d callers c).append hrest

theorem openCall_leads {name : String} (h : Text.IsName name) :
    Leads next ⟨.plain, d, callers⟩ ('@' :: name.toList ++ ['('])
      ⟨.plain, {}, (name, d.cut) :: callers⟩ := by
  have hread : Leads next ⟨.sign [], d, callers⟩ name.toList
      ⟨.sign (name.toList.reverse ++ []), d, callers⟩ :=
    .collect (fun read => (⟨.sign read, d, callers⟩ : ArgumentReader))
      (fun _ _ _ hc => by simp [next, step, hc]) h.2 []
  have hopen : ∀ p, next ⟨.sign (name.toList.reverse ++ []), d, callers⟩ p '(' =
      some ⟨.plain, {}, (name, d.cut) :: callers⟩ := by
    intro p
    have hparen : Text.isNameChar '(' = false := by decide
    simp [next, step, hparen, h.1, openCall]
  exact .cons (fun _ => rfl) (hread.append (.single hopen))

mutual

theorem print_leads : ∀ (a : Argument), a.WellFormed → ∀ d callers,
    Leads next ⟨.plain, d, callers⟩ a.print ⟨.plain, d.take a, callers⟩
  | .text s, _, d, callers => text_leads d callers s.toList
  | .number _, h, _, _ => h.elim
  | .call name arguments, ⟨hname, hne, hgroups⟩, d, callers => by
    have hclose : ∀ p, next ⟨.plain, .ofGroups arguments, (name, d.cut) :: callers⟩ p ')' =
        some ⟨.plain, d.cut.addCall name arguments, callers⟩ := by
      intro p
      have hstep : next ⟨.plain, .ofGroups arguments, (name, d.cut) :: callers⟩ p ')' =
          some ⟨.plain, d.cut.addCall name (ArgumentDraft.ofGroups arguments).close, callers⟩ := rfl
      rw [hstep, ArgumentDraft.close_ofGroups hne hgroups]
    have hgroups := groups_leads arguments hgroups ((name, d.cut) :: callers)
    have hcall := ((openCall_leads d callers hname).append hgroups).append (.single hclose)
    simpa [Argument.print, ArgumentDraft.take] using hcall

theorem pieces_leads : ∀ (pieces : List Argument), Argument.WellFormedPieces pieces →
    ∀ d callers, Leads next ⟨.plain, d, callers⟩ (Argument.printPieces pieces)
      ⟨.plain, pieces.foldl .take d, callers⟩
  | [], _, _, _ => .refl
  | a :: rest, ⟨ha, hrest⟩, d, callers =>
    (print_leads a ha d callers).append (pieces_leads rest hrest (d.take a) callers)

theorem groups_leads : ∀ (groups : List (List Argument)), Argument.WellFormedGroups groups →
    ∀ callers, Leads next ⟨.plain, {}, callers⟩ (Argument.printGroups groups)
      ⟨.plain, .ofGroups groups, callers⟩
  | [], _, _ => .refl
  | group :: rest, ⟨_, hpieces, hrest⟩, callers =>
    (pieces_leads group hpieces {} callers).append (more_leads rest hrest _ callers)

theorem more_leads : ∀ (groups : List (List Argument)), Argument.WellFormedGroups groups →
    ∀ d callers, Leads next ⟨.plain, d, callers⟩ (Argument.printMore groups)
      ⟨.plain, d.takeMore groups, callers⟩
  | [], _, _, _ => .refl
  | group :: rest, ⟨_, hpieces, hrest⟩, d, callers =>
    .cons (fun _ => rfl) ((pieces_leads group hpieces d.comma callers).append
      (more_leads rest hrest _ callers))

end

end ArgumentReader

/-- A reader goes along with the one of printed arguments inside it, up to the parenthesis at their
end. -/
theorem Leads.arguments {next : σ → Position → Char → Option σ} {s : σ}
    {arguments : List (List Argument)} (hne : arguments ≠ [[]])
    (h : Argument.WellFormedGroups arguments) (g : ArgumentReader → σ)
    (hg : ∀ r p c r', r.next p c = some r' → next (g r) p c = some (g r'))
    (hend : ∀ r p, ArgumentReader.step r ')' = .inr arguments → next (g r) p ')' = some s) :
    Leads next (g {}) (Argument.printGroups arguments ++ [')']) s := by
  have hgroups := (ArgumentReader.groups_leads arguments h []).lift g hg
  have hstep : ArgumentReader.step ⟨.plain, .ofGroups arguments, []⟩ ')' = .inr arguments :=
    congrArg Sum.inr (ArgumentDraft.close_ofGroups hne h)
  exact hgroups.append (single fun p => hend _ p hstep)

namespace ValueReader

def next (r : ValueReader) (p : Position) (c : Char) : Option ValueReader :=
  Step.ongoing? (r.step p c)

/-- The reader has nodes and, behind them, a text with its latest character first, at the end of
which a call may start. -/
inductive AtText (nodes : List Node) (text : List Char) : ValueReader → Prop
  | plain : AtText nodes text ⟨.plain, nodes, text⟩
  | sign {name before : List Char} (hname : ∀ c ∈ name, Text.isNameChar c = true)
    (htext : text = name ++ '@' :: before) : AtText nodes text ⟨.sign name, nodes, before⟩

variable {nodes : List Node} {text : List Char} {r : ValueReader}

theorem AtText.eq_plain (h : AtText nodes [] r) : r = ⟨.plain, nodes, []⟩ := by
  cases h with
  | plain => rfl
  | sign hname htext => simp at htext

theorem step_sign {name before : List Char} {c : Char} (hname : Text.isNameChar c = false)
    (hparen : c = '(' → name = []) (p : Position) :
    step ⟨.sign name, nodes, before⟩ p c =
      stepPlain ⟨.plain, nodes, name ++ '@' :: before⟩ p c := by
  have hopen : ¬ (decide (c = '(') && !name.isEmpty) = true := by simpa using hparen
  simp only [step, hname, hopen]
  rfl

theorem AtText.step_eq (h : AtText nodes text r) {c : Char} (hname : Text.isNameChar c = false)
    (hparen : c ≠ '(') (p : Position) : r.step p c = stepPlain ⟨.plain, nodes, text⟩ p c := by
  cases h with
  | plain => rfl
  | sign hchars htext =>
    subst htext
    exact step_sign hname (fun hc => absurd hc hparen) p

theorem next_of_stepPlain (nodes : List Node) {c : Char}
    (htext : Text.IsValueText (text.reverse ++ [c])) :
    ∃ r, AtText nodes (c :: text) r ∧ ∀ p, stepPlain ⟨.plain, nodes, text⟩ p c = .ok (.more r) := by
  obtain ⟨hsemicolon, hbrace, hcolon, hblank⟩ := htext.chars c (by simp)
  by_cases hat : c = '@'
  · subst hat
    exact ⟨_, @AtText.sign nodes _ [] text (by simp) rfl, fun _ => rfl⟩
  refine ⟨⟨.plain, nodes, c :: text⟩, .plain, fun p => ?_⟩
  by_cases hc : Text.isBlank c = true
  · obtain rfl : c = ' ' := hblank hc
    have hspaces := htext.spaces
    rw [List.isChain_append] at hspaces
    have hpush : pushBlank ⟨.plain, nodes, text⟩ = ⟨.plain, nodes, ' ' :: text⟩ := by
      cases text with
      | nil => rfl
      | cons d text =>
        have hd : d ≠ ' ' := by
          have hpair := hspaces.2.2 d (by simp) ' ' rfl
          simpa using hpair
        unfold pushBlank
        split
        · next heq => exact absurd (List.cons.inj heq).1 hd
        · rfl
    simp [stepPlain, hc, hpush]
  · simp [stepPlain, hsemicolon, hbrace, hat, hcolon, hc]

theorem AtText.next (h : AtText nodes text r) {c : Char}
    (htext : Text.IsValueText (text.reverse ++ [c])) :
    ∃ r', AtText nodes (c :: text) r' ∧ ∀ p, r.next p c = some r' := by
  obtain ⟨r', hr', hstep⟩ := next_of_stepPlain nodes htext
  cases h with
  | plain => exact ⟨r', hr', fun p => by simp [ValueReader.next, step, hstep p]⟩
  | sign hname hsign =>
    rename_i name before
    by_cases hc : Text.isNameChar c = true
    · refine ⟨⟨.sign (c :: name), nodes, before⟩, .sign ?_ (by rw [hsign]; rfl), fun p => ?_⟩
      · simpa [hc] using hname
      · simp [ValueReader.next, step, hc]
    · -- A parenthesis here would open a call, unless there is no name.
      have hparen : c = '(' → name = [] := by
        rintro rfl
        by_contra hne
        refine htext.noCall ⟨before.reverse, name.reverse, [], by simpa using hne, ?_, ?_⟩
        · simpa using hname
        · simp [hsign]
      subst hsign
      refine ⟨r', hr', fun p => ?_⟩
      rw [ValueReader.next, Step.ongoing?_eq_some, step_sign (by simpa using hc) hparen, hstep p]

theorem text_leads (nodes : List Node) {cs : List Char} (h : Text.IsValueText cs) :
    ∃ r, AtText nodes cs.reverse r ∧ Leads next ⟨.plain, nodes, []⟩ cs r := by
  induction cs using List.reverseRecOn with
  | nil => exact ⟨_, .plain, .refl⟩
  | append_singleton cs c ih =>
    obtain ⟨r, hr, hleads⟩ := ih h.of_append
    obtain ⟨r', hr', hnext⟩ := hr.next (c := c) (by rwa [List.reverse_reverse])
    exact ⟨r', by rwa [List.reverse_append], hleads.append (.single hnext)⟩

theorem openCall_leads (h : AtText nodes text r) {name : String} (hname : Text.IsName name) :
    Leads next r ('@' :: name.toList ++ ['('])
      ⟨.call name {}, flush ⟨.plain, nodes, text⟩, []⟩ := by
  have hat : ∀ p, r.next p '@' = some ⟨.sign [], nodes, text⟩ := by
    intro p
    rw [next, h.step_eq (by decide) (by decide)]
    rfl
  have hread : Leads next ⟨.sign [], nodes, text⟩ name.toList
      ⟨.sign (name.toList.reverse ++ []), nodes, text⟩ :=
    .collect (fun read => (⟨.sign read, nodes, text⟩ : ValueReader))
      (fun _ _ _ hc => by simp [next, step, hc]) hname.2 []
  have hopen : ∀ p, next ⟨.sign (name.toList.reverse ++ []), nodes, text⟩ p '(' =
      some ⟨.call name {}, flush ⟨.plain, nodes, text⟩, []⟩ := by
    intro p
    have hparen : Text.isNameChar '(' = false := by decide
    simp [next, step, hparen, hname.1]
    rfl
  exact .cons hat (hread.append (.single hopen))

theorem next_call {name : String} {arguments arguments' : ArgumentReader} {p : Position} {c : Char}
    (h : arguments.next p c = some arguments') :
    next ⟨.call name arguments, nodes, text⟩ p c = some ⟨.call name arguments', nodes, text⟩ := by
  rw [ArgumentReader.next, Sum.getLeft?_eq_some_iff] at h
  simp [next, step, h]

theorem call_leads (h : AtText nodes text r) {name : String} {arguments : List (List Argument)}
    (hcall : (Node.call name arguments).WellFormed) :
    Leads next r (Node.call name arguments).print
      ⟨.plain, flush ⟨.plain, nodes, text⟩ ++ [.call name arguments], []⟩ := by
  obtain ⟨hname, hne, hgroups⟩ := hcall
  have harguments : Leads next ⟨.call name {}, flush ⟨.plain, nodes, text⟩, []⟩
      (Argument.printGroups arguments ++ [')'])
      ⟨.plain, flush ⟨.plain, nodes, text⟩ ++ [.call name arguments], []⟩ :=
    .arguments hne hgroups
      (fun a => (⟨.call name a, flush ⟨.plain, nodes, text⟩, []⟩ : ValueReader))
      (fun _ _ _ _ => next_call) fun r p hr => by simp [next, step, hr]
  simpa [Node.print, Argument.print] using (openCall_leads h hname).append harguments

/-- Behind printed nodes, the reader has all of them, and only a last text can still go on. -/
theorem nodes_leads {value : List Node} (hwf : ∀ node ∈ value, node.WellFormed)
    (hne : ∀ piece ∈ value.map Node.text?, piece ≠ some "")
    (hapart : (value.map Node.text?).IsChain fun a b => a = none ∨ b = none) :
    ∃ nodes text r, AtText nodes text r ∧ Leads next {} (value.flatMap Node.print) r ∧
      flush ⟨.plain, nodes, text⟩ = value ∧
      ((value.map Node.text?).getLast?.join = none → text = []) := by
  induction value using List.reverseRecOn with
  | nil => exact ⟨[], [], {}, .plain, .refl, rfl, fun _ => rfl⟩
  | append_singleton value node ih =>
    simp only [List.mem_append, List.mem_singleton, or_imp, forall_and, forall_eq,
      List.map_append, List.map_cons, List.map_nil, List.isChain_append] at hwf hne hapart
    obtain ⟨nodes, text, r, hr, hleads, hflush, hlast⟩ := ih hwf.1 hne.1 hapart.1
    rw [List.flatMap_append, List.flatMap_singleton]
    cases node with
    | call name arguments =>
      have hcall := call_leads hr hwf.2
      rw [hflush] at hcall
      exact ⟨_, [], _, .plain, hleads.append hcall, rfl, fun _ => rfl⟩
    | text s =>
      -- There is no text in front of this one, so that it starts where the nodes end.
      have hempty : text = [] := by
        apply hlast
        cases hpiece : (value.map Node.text?).getLast? with
        | none => rfl
        | some piece =>
          have hnone := hapart.2.2 piece hpiece (some s) rfl
          simpa using hnone
      subst hempty
      obtain rfl := hr.eq_plain
      obtain rfl : nodes = value := hflush
      obtain ⟨r', hr', htext⟩ := text_leads nodes hwf.2
      refine ⟨nodes, _, r', hr', hleads.append htext, ?_, by simp [Node.text?]⟩
      have hs : s ≠ "" := by simpa [Node.text?] using hne.2
      simp [flush, hs]

theorem trimFirst_eq_self {value : List Node}
    (h : ∀ s ∈ (value.map Node.text?).head?.join, ∀ c ∈ s.toList.head?, Text.isBlank c = false) :
    trimFirst value = value := by
  unfold trimFirst
  split
  · next s nodes => rw [Text.trimStart_eq_self (h s rfl)]
  · rfl

theorem trimLast_eq_self {value : List Node}
    (h : ∀ s ∈ (value.map Node.text?).getLast?.join,
      ∀ c ∈ s.toList.getLast?, Text.isBlank c = false) : trimLast value = value := by
  fun_induction trimLast value with
  | case1 => rfl
  | case2 s => rw [Text.trimEnd_eq_self (h s rfl)]
  | case3 node nodes hsingle ih =>
    cases nodes with
    | nil => rfl
    | cons node' nodes =>
      rw [ih]
      simpa using h

theorem value_of_separated {value : List Node} (h : Text.Separated (value.map Node.text?))
    (hflush : flush ⟨.plain, nodes, text⟩ = value) :
    ValueReader.value ⟨.plain, nodes, text⟩ = value := by
  rw [ValueReader.value, hflush, trimFirst_eq_self h.start, trimLast_eq_self h.finish]
  refine List.filter_eq_self.mpr fun node hnode => ?_
  cases node with
  | call name arguments => rfl
  | text s =>
    have hs := h.nonempty (some s) (List.mem_map.mpr ⟨_, hnode, rfl⟩)
    simpa [Node.isEmptyText] using hs

end ValueReader

namespace DeclarationReader

def next (r : DeclarationReader) (p : Position) (c : Char) : Option DeclarationReader :=
  Step.ongoing? (r.step p c)

theorem next_value {name : String} {r r' : ValueReader} {p : Position} {c : Char}
    (h : r.next p c = some r') : next (.value name r) p c = some (.value name r') := by
  rw [ValueReader.next, Step.ongoing?_eq_some] at h
  rw [next, Step.ongoing?_eq_some, step, h]

/-- Behind its first character and up to the semicolon, a printed declaration leads to where the
semicolon ends it. -/
theorem print_leads {d : Declaration} (h : d.WellFormed) :
    ∃ c cs r, d.print = c :: cs ++ [';'] ∧ Text.isNameChar c = true ∧
      Leads next (.property [c]) cs r ∧ ∀ p, r.step p ';' = .ok (.done d) := by
  obtain ⟨hne, hchars⟩ := h.property
  obtain ⟨c, rest, hproperty⟩ : ∃ c rest, d.property.toList = c :: rest :=
    List.exists_cons_of_ne_nil (by simpa using hne)
  rw [hproperty, List.forall_mem_cons] at hchars
  obtain ⟨nodes, text, r, hr, hvalue, hflush, -⟩ :=
    ValueReader.nodes_leads h.nodes h.separated.nonempty h.separated.apart
  have hrest : Leads next (.property [c]) rest (.property (rest.reverse ++ [c])) := by
    refine .collect (fun read => DeclarationReader.property read) ?_ hchars.2 [c]
    intro read p c hc
    have hne : c ≠ ':' := Text.ne_of_isNameChar hc (by decide)
    simp [next, step, hne, Text.isBlank_of_isNameChar hc, hc]
  have hcolon : ∀ p, next (.property (rest.reverse ++ [c])) p ':' =
      some (.value d.property {}) := by
    intro p
    have hname : textOf (rest.reverse ++ [c]) = d.property := by
      rw [← List.reverse_cons, ← hproperty, textOf_reverse_toList]
    simp [next, step, hname]
  refine ⟨c, rest ++ ':' :: d.value.flatMap Node.print, .value d.property r, ?_, hchars.1,
    hrest.append (.cons hcolon (hvalue.lift _ fun _ _ _ _ => next_value)), fun p => ?_⟩
  · simp [Declaration.print, hproperty]
  · have hstep : r.step p ';' = .ok (.done d.value) := by
      rw [hr.step_eq (by decide) (by decide)]
      exact congrArg (fun value => Except.ok (Step.done value))
        (ValueReader.value_of_separated h.separated hflush)
    simp [step, hstep]

end DeclarationReader

/-- A reader goes along with the one of a declaration inside it, up to the semicolon at its end. -/
theorem Leads.declaration {next : σ → Position → Char → Option σ} {s s' : σ} {d : Declaration}
    (h : d.WellFormed) (g : DeclarationReader → σ)
    (hstart : ∀ p c, Text.isNameChar c = true → next s p c = some (g (.property [c])))
    (hg : ∀ r p c r', r.next p c = some r' → next (g r) p c = some (g r'))
    (hend : ∀ r p, DeclarationReader.step r p ';' = .ok (.done d) → next (g r) p ';' = some s') :
    Leads next s d.print s' := by
  obtain ⟨c, cs, r, hprint, hc, hleads, hdone⟩ := DeclarationReader.print_leads h
  rw [hprint]
  exact (cons (fun p => hstart p c hc) (hleads.lift g hg)).append
    (single fun p => hend r p (hdone p))

end Source
end GridCss
