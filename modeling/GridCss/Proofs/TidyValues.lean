import Mathlib.Data.List.DropRight
import GridCss.Proofs.PrintedValues

/-!
# Values as they are read

Whatever a declaration is read from, what comes of it is tidy: names are names, texts are trimmed,
not empty and never side by side, numeric text has become a number, and no call is left in a text.
Each reader keeps what it has read so far in such a state that its result is tidy wherever it ends.
-/

namespace GridCss

namespace Text

theorem head_dropWhile_isBlank (cs : List Char) :
    ∀ c ∈ (cs.dropWhile isBlank).head?, isBlank c = false := by
  intro c hc
  have hnot := List.head?_dropWhile_not isBlank cs
  rwa [Option.mem_def.mp hc] at hnot

theorem head_of_isPrefix {cs ds : List Char} (h : cs <+: ds)
    (hds : ∀ c ∈ ds.head?, isBlank c = false) : ∀ c ∈ cs.head?, isBlank c = false := by
  obtain ⟨rest, rfl⟩ := h
  intro c hc
  exact hds c (by rw [List.head?_append, Option.mem_def.mp hc]; rfl)

theorem trimStart_isSuffix (s : String) : (trimStart s).toList <:+ s.toList := by
  rw [trimStart, String.toList_ofList]
  exact List.dropWhile_suffix isBlank

theorem trimEnd_isPrefix (s : String) : (trimEnd s).toList <+: s.toList := by
  rw [trimEnd, String.toList_ofList]
  exact List.rdropWhile_prefix isBlank _

theorem head_trimStart (s : String) : ∀ c ∈ (trimStart s).toList.head?, isBlank c = false := by
  rw [trimStart, String.toList_ofList]
  exact head_dropWhile_isBlank s.toList

theorem last_trimEnd (s : String) : ∀ c ∈ (trimEnd s).toList.getLast?, isBlank c = false := by
  rw [trimEnd, String.toList_ofList, dropEndWhile, List.getLast?_reverse]
  exact head_dropWhile_isBlank s.toList.reverse

theorem trim_eq (s : String) : trim s = trimEnd (trimStart s) := by
  rw [trim, trimEnd, trimStart, String.toList_ofList]

theorem head_trim (s : String) : ∀ c ∈ (trim s).toList.head?, isBlank c = false := by
  rw [trim_eq]
  exact head_of_isPrefix (trimEnd_isPrefix _) (head_trimStart s)

theorem last_trim (s : String) : ∀ c ∈ (trim s).toList.getLast?, isBlank c = false := by
  rw [trim_eq]
  exact last_trimEnd _

/-- What is put behind pieces must not be a text if they end in one. -/
theorem isChain_concat {pieces : List (Option String)} {piece : Option String}
    (h : pieces.IsChain fun a b => a = none ∨ b = none)
    (hpiece : pieces.getLast?.join = none ∨ piece = none) :
    (pieces ++ [piece]).IsChain fun a b => a = none ∨ b = none := by
  rw [List.isChain_append]
  refine ⟨h, List.isChain_singleton piece, fun a ha b hb => ?_⟩
  obtain rfl : piece = b := by simpa using hb
  rw [Option.mem_def.mp ha] at hpiece
  exact hpiece

/-- Where an empty text is left out at the front, what comes there is no text. -/
theorem head_filter_nonempty {pieces : List (Option String)}
    (h : pieces.IsChain fun a b => a = none ∨ b = none) :
    (pieces.filter (· != some "")).head? = pieces.head? ∨
      (pieces.filter (· != some "")).head?.join = none := by
  match pieces with
  | [] => exact .inl rfl
  | a :: rest =>
    by_cases ha : a = some ""
    · subst ha
      rw [List.filter_cons_of_neg (by simp)]
      match rest with
      | [] => exact .inr rfl
      | b :: rest =>
        obtain rfl : b = none := by simpa using (List.isChain_cons_cons.mp h).1
        exact .inr rfl
    · rw [List.filter_cons_of_pos (by simpa using ha)]
      exact .inl rfl

theorem isChain_filter_nonempty {pieces : List (Option String)}
    (h : pieces.IsChain fun a b => a = none ∨ b = none) :
    (pieces.filter (· != some "")).IsChain fun a b => a = none ∨ b = none := by
  induction pieces with
  | nil => exact .nil
  | cons a rest ih =>
    rw [List.isChain_cons] at h
    by_cases ha : a = some ""
    · rw [List.filter_cons_of_neg (by simp [ha])]
      exact ih h.2
    · rw [List.filter_cons_of_pos (by simpa using ha), List.isChain_cons]
      refine ⟨fun b hb => ?_, ih h.2⟩
      rcases head_filter_nonempty h.2 with hhead | hnone
      · exact h.1 b (hhead ▸ hb)
      · rw [Option.mem_def.mp hb] at hnone
        exact .inr hnone

/-- Pieces that are apart are separated when empty texts, such as come of trimming, are left out. -/
theorem separated_filter {pieces : List (Option String)}
    (hapart : pieces.IsChain fun a b => a = none ∨ b = none)
    (hstart : ∀ s ∈ pieces.head?.join, ∀ c ∈ s.toList.head?, isBlank c = false)
    (hfinish : ∀ s ∈ pieces.getLast?.join, ∀ c ∈ s.toList.getLast?, isBlank c = false) :
    Separated (pieces.filter (· != some "")) where
  nonempty piece hpiece := by simpa using (List.mem_filter.mp hpiece).2
  apart := isChain_filter_nonempty hapart
  start s hs := by
    rcases head_filter_nonempty hapart with hhead | hnone
    · exact hstart s (hhead ▸ hs)
    · rw [hnone] at hs
      cases hs
  finish s hs := by
    have hreverse : pieces.reverse.IsChain fun a b => a = none ∨ b = none := by
      rw [List.isChain_reverse]
      exact hapart.imp fun _ _ => Or.symm
    rw [← List.head?_reverse, ← List.filter_reverse] at hs
    rcases head_filter_nonempty hreverse with hhead | hnone
    · rw [hhead, List.head?_reverse] at hs
      exact hfinish s hs
    · rw [hnone] at hs
      cases hs

theorem IsValueText.of_part {cs ds : List Char} (h : IsValueText ds) (hpart : cs <:+: ds) :
    IsValueText cs := by
  obtain ⟨before, after, rfl⟩ := hpart
  refine ⟨fun c hc => h.chars c (by simp [hc]), h.spaces.left_of_append.right_of_append, ?_⟩
  rintro ⟨start, name, rest, hne, hname, rfl⟩
  exact h.noCall ⟨before ++ start, name, rest ++ after, hne, hname, by simp⟩

/-- A text, latest character first, ends with an at sign and name characters, if any. -/
def EndsInSign (text : List Char) : Prop := (text.dropWhile isNameChar).head? = some '@'

theorem not_endsInSign_cons {text : List Char} {c : Char} (hat : c ≠ '@')
    (h : isNameChar c = true → ¬ EndsInSign text) : ¬ EndsInSign (c :: text) := by
  unfold EndsInSign at *
  cases hc : isNameChar c with
  | true => simpa [List.dropWhile_cons, hc] using h hc
  | false => simpa [List.dropWhile_cons, hc] using hat

theorem not_endsInSign_space (text : List Char) : ¬ EndsInSign (' ' :: text) :=
  not_endsInSign_cons (by decide) (fun h => absurd h (by decide))

/-- The last character of a text with a call is behind the call, or it is its parenthesis. -/
theorem HoldsCall.of_concat {cs : List Char} {c : Char} (h : HoldsCall (cs ++ [c])) :
    HoldsCall cs ∨ c = '(' ∧ ∃ before name, name ≠ [] ∧ (∀ d ∈ name, isNameChar d = true) ∧
      cs = before ++ '@' :: name := by
  obtain ⟨before, name, after, hne, hname, heq⟩ := h
  rcases List.eq_nil_or_concat' after with rfl | ⟨after, d, rfl⟩
  · obtain ⟨hcs, hparen⟩ := List.append_inj' heq rfl
    exact .inr ⟨by simpa using hparen, before, name, hne, hname, hcs⟩
  · rw [← List.cons_append, ← List.append_assoc] at heq
    exact .inl ⟨before, name, after, hne, hname, (List.append_inj' heq rfl).1⟩

theorem endsInSign_of_name {before name : List Char} (hname : ∀ c ∈ name, isNameChar c = true) :
    EndsInSign (before ++ '@' :: name).reverse := by
  rw [EndsInSign, List.reverse_append, List.reverse_cons, List.append_assoc,
    List.dropWhile_append_of_pos (by simpa using hname)]
  rfl

/-- One more character of a text. A parenthesis must not make a call of what is there. -/
theorem IsValueText.cons {text : List Char} {c : Char} (h : IsValueText text.reverse)
    (hc : c ≠ ';' ∧ c ≠ '}' ∧ c ≠ ':' ∧ (isBlank c = true → c = ' '))
    (hspace : c = ' ' → text.head? ≠ some ' ')
    (hcall : c = '(' → ¬ EndsInSign text ∨ text.head? = some '@') :
    IsValueText (c :: text).reverse := by
  rw [List.reverse_cons]
  refine ⟨?_, ?_, fun hholds => ?_⟩
  · rw [List.forall_mem_append, List.forall_mem_singleton]
    exact ⟨h.chars, hc⟩
  · rw [List.isChain_append]
    refine ⟨h.spaces, List.isChain_singleton c, fun a ha b hb => ?_⟩
    obtain rfl : c = b := by simpa using hb
    rw [List.getLast?_reverse] at ha
    by_cases hblank : c = ' '
    · have hne := hspace hblank
      rw [Option.mem_def.mp ha] at hne
      exact .inl (by simpa using hne)
    · exact .inr hblank
  · rcases hholds.of_concat with hholds | ⟨hparen, before, name, hne, hname, htext⟩
    · exact h.noCall hholds
    · obtain rfl : text = (before ++ '@' :: name).reverse := List.reverse_eq_iff.mp htext
      rcases hcall hparen with hsign | hat
      · exact hsign (endsInSign_of_name hname)
      · -- The text ends with the name, which has no at sign.
        obtain ⟨name, n, rfl⟩ := (List.eq_nil_or_concat' name).resolve_left hne
        obtain rfl : n = '@' := by simpa using hat
        exact absurd (hname '@' (by simp)) (by decide)

end Text

namespace Argument

/-- A number stands alone in its argument, text that could be one does not. -/
structure IsTidyGroup (pieces : List Argument) : Prop where
  isGroup : IsGroup pieces
  number : ∀ x, .number x ∈ pieces → pieces = [.number x]

theorem isTidyGroup_number (x : Float) : IsTidyGroup [.number x] where
  isGroup := by
    refine ⟨⟨?_, List.isChain_singleton _, ?_, ?_⟩, ?_⟩
    all_goals simp [text?]
  number y hy := by
    obtain rfl : y = x := by simpa using hy
    rfl

/-- Every call in an argument has a name and tidy arguments, which are never a single empty one. -/
inductive Tidy : Argument → Prop
  | text (s : String) : Tidy (.text s)
  | number (x : Float) : Tidy (.number x)
  | call {name : String} {arguments : List (List Argument)} (hname : Text.IsName name)
      (hne : arguments ≠ [[]]) (hgroups : ∀ group ∈ arguments, IsTidyGroup group)
      (hpieces : ∀ group ∈ arguments, ∀ a ∈ group, Tidy a) : Tidy (.call name arguments)

structure AreTidy (arguments : List (List Argument)) : Prop where
  ne : arguments ≠ [[]]
  groups : ∀ group ∈ arguments, IsTidyGroup group ∧ ∀ a ∈ group, a.Tidy

theorem AreTidy.nil : AreTidy [] := ⟨by simp, by simp⟩

theorem AreTidy.call {name : String} {arguments : List (List Argument)} (h : AreTidy arguments)
    (hname : Text.IsName name) : Tidy (.call name arguments) :=
  .call hname h.ne (fun group hgroup => (h.groups group hgroup).1)
    (fun group hgroup => (h.groups group hgroup).2)

end Argument

def Node.Tidy : Node → Prop
  | .text s => Text.IsValueText s.toList
  | .call name arguments => (Argument.call name arguments).Tidy

structure Node.AreTidy (value : List Node) : Prop where
  separated : Text.Separated (value.map Node.text?)
  nodes : ∀ node ∈ value, node.Tidy

structure Declaration.Tidy (d : Declaration) : Prop where
  property : Text.IsName d.property
  value : Node.AreTidy d.value

namespace Source

theorem toList_textOf (read : List Char) : (textOf read).toList = read.reverse :=
  String.toList_ofList

theorem textOf_ne_empty {read : List Char} (h : read ≠ []) : textOf read ≠ "" := by
  intro hempty
  simpa [toList_textOf, h] using congrArg String.toList hempty

theorem isName_textOf {name : List Char} (hne : name ≠ [])
    (hname : ∀ c ∈ name, Text.isNameChar c = true) : Text.IsName (textOf name) := by
  refine ⟨textOf_ne_empty hne, ?_⟩
  simpa [toList_textOf] using hname

/-- Pieces of an argument behind which there may be more. -/
structure ArePieces (pieces : List Argument) : Prop where
  tidy : ∀ a ∈ pieces, a.Tidy ∧ a.text? ≠ some "" ∧ ∀ x, a ≠ .number x
  apart : (pieces.map Argument.text?).IsChain fun a b => a = none ∨ b = none
  start : ∀ s ∈ (pieces.map Argument.text?).head?.join, ∀ c ∈ s.toList.head?,
    Text.isBlank c = false

namespace ArePieces

variable {pieces : List Argument}

theorem nil : ArePieces [] := ⟨by simp, .nil, by simp⟩

/-- One more piece. If it is a text, no text may stand in front of it, and blanks at its start need
a call there. -/
theorem concat (h : ArePieces pieces) {a : Argument}
    (ha : a.Tidy ∧ a.text? ≠ some "" ∧ ∀ x, a ≠ .number x)
    (hapart : (pieces.map Argument.text?).getLast?.join = none ∨ a.text? = none)
    (hstart : pieces = [] → ∀ s ∈ a.text?, ∀ c ∈ s.toList.head?, Text.isBlank c = false) :
    ArePieces (pieces ++ [a]) where
  tidy := by
    rw [List.forall_mem_append, List.forall_mem_singleton]
    exact ⟨h.tidy, ha⟩
  apart := by
    rw [List.map_append]
    exact Text.isChain_concat h.apart hapart
  start := by
    rw [List.map_append]
    match pieces with
    | [] => exact hstart rfl
    | _ :: _ => exact h.start

theorem isTidyGroup (h : ArePieces pieces)
    (hfinish : ∀ s ∈ (pieces.map Argument.text?).getLast?.join, ∀ c ∈ s.toList.getLast?,
      Text.isBlank c = false)
    (hlone : ∀ s, pieces = [.text s] → parseNumber s = none) :
    Argument.IsTidyGroup pieces ∧ ∀ a ∈ pieces, a.Tidy := by
  refine ⟨⟨⟨⟨?_, h.apart, h.start, hfinish⟩, hlone⟩, ?_⟩, fun a ha => (h.tidy a ha).1⟩
  · rw [List.forall_mem_map]
    exact fun a ha => (h.tidy a ha).2.1
  · intro x hx
    exact absurd rfl ((h.tidy _ hx).2.2 x)

end ArePieces

namespace ArgumentDraft

/-- In front of a call: the pieces read may end in a text. -/
structure Cut (d : ArgumentDraft) : Prop where
  groups : ∀ group ∈ d.groups, Argument.IsTidyGroup group ∧ ∀ a ∈ group, a.Tidy
  pieces : ArePieces d.group

/-- In text: the pieces read end in a call, if there are any. -/
structure Tidy (d : ArgumentDraft) : Prop extends d.Cut where
  last : (d.group.map Argument.text?).getLast?.join = none

variable {d : ArgumentDraft}

theorem tidy_nil {groups : List (List Argument)} {literal : List Char}
    (h : ∀ group ∈ groups, Argument.IsTidyGroup group ∧ ∀ a ∈ group, a.Tidy) :
    Tidy ⟨groups, [], literal⟩ :=
  ⟨⟨h, .nil⟩, rfl⟩

theorem Tidy.of_literal (h : d.Tidy) (literal : List Char) : Tidy { d with literal := literal } :=
  ⟨⟨h.groups, h.pieces⟩, h.last⟩

theorem Tidy.finished (h : d.Tidy) :
    Argument.IsTidyGroup d.finished ∧ ∀ a ∈ d.finished, a.Tidy := by
  have hnil := ArePieces.nil
  unfold ArgumentDraft.finished
  split
  · -- No call stands in front of the text.
    have hstart := Text.head_trim (textOf d.literal)
    have hfinish := Text.last_trim (textOf d.literal)
    generalize Text.trim (textOf d.literal) = trimmed at hstart hfinish ⊢
    dsimp only
    split
    · next x _ => exact ⟨Argument.isTidyGroup_number x, by simp [Argument.Tidy.number]⟩
    · next hnone =>
      split
      · exact hnil.isTidyGroup (by simp) (by simp)
      · next hne =>
        have htext : ArePieces ([] ++ [.text trimmed]) :=
          hnil.concat ⟨.text _, by simpa [Argument.text?] using hne, by simp⟩ (.inl rfl)
            (by simpa [Argument.text?] using hstart)
        exact htext.isTidyGroup (by simpa [Argument.text?] using hfinish) (by simpa using hnone)
  · next hgroup =>
    have hfinish := Text.last_trimEnd (textOf d.literal)
    have hgroup : d.group ≠ [] := by simpa using hgroup
    generalize Text.trimEnd (textOf d.literal) = trimmed at hfinish ⊢
    dsimp only
    split
    · apply h.pieces.isTidyGroup
      · simp only [h.last, Option.not_mem_none, false_implies, implies_true]
      · intro s hs
        simpa [hs, Argument.text?] using h.last
    · next hne =>
      have htext : ArePieces (d.group ++ [.text trimmed]) :=
        h.pieces.concat ⟨.text _, by simpa [Argument.text?] using hne, by simp⟩ (.inl h.last)
          (fun hnil => absurd hnil hgroup)
      apply htext.isTidyGroup
      · simpa [Argument.text?] using hfinish
      · intro s hs
        simp [List.append_eq_singleton_iff, hgroup] at hs

theorem Tidy.comma (h : d.Tidy) : d.comma.Tidy := by
  apply tidy_nil
  rw [List.forall_mem_append, List.forall_mem_singleton]
  exact ⟨h.groups, h.finished⟩

theorem Tidy.close (h : d.Tidy) : Argument.AreTidy d.close := by
  unfold ArgumentDraft.close
  dsimp only
  split
  · exact .nil
  · next hne =>
    refine ⟨fun hone => hne ?_, ?_⟩
    · have hparts : d.groups = [] ∧ d.finished = [] := by
        simpa [List.append_eq_singleton_iff] using hone
      rw [hparts.1, hparts.2]
      rfl
    · rw [List.forall_mem_append, List.forall_mem_singleton]
      exact ⟨h.groups, h.finished⟩

theorem Tidy.cut (h : d.Tidy) : d.cut.Cut := by
  refine ⟨h.groups, ?_⟩
  unfold ArgumentDraft.cut
  dsimp only
  generalize htext : (if d.group.isEmpty then Text.trimStart (textOf d.literal)
    else textOf d.literal) = text
  split
  · exact h.pieces
  · next hne =>
    apply h.pieces.concat ⟨.text _, by simpa [Argument.text?] using hne, by simp⟩ (.inl h.last)
    intro hnil
    rw [hnil, List.isEmpty_nil, if_pos rfl] at htext
    rw [← htext]
    simpa [Argument.text?] using Text.head_trimStart (textOf d.literal)

theorem Cut.addCall {name : String} {arguments : List (List Argument)} (h : d.Cut)
    (hname : Text.IsName name) (harguments : Argument.AreTidy arguments) :
    (d.addCall name arguments).Tidy := by
  refine ⟨⟨h.groups, ?_⟩, ?_⟩
  · exact h.pieces.concat ⟨harguments.call hname, by simp [Argument.text?], by simp⟩ (.inr rfl)
      (by simp [Argument.text?])
  · simp [ArgumentDraft.addCall, Argument.text?]

end ArgumentDraft

namespace ArgumentReader

/-- The lists that calls interrupt were cut in front of them. -/
structure Tidy (r : ArgumentReader) : Prop where
  draft : r.draft.Tidy
  callers : ∀ caller ∈ r.callers, Text.IsName caller.1 ∧ caller.2.Cut
  sign : ∀ name, r.mode = .sign name → ∀ c ∈ name, Text.isNameChar c = true

variable {r : ArgumentReader}

theorem tidy_start : Tidy {} := ⟨ArgumentDraft.tidy_nil (by simp), by simp, by simp⟩

theorem Tidy.push (h : r.Tidy) (c : Char) : (r.push c).Tidy :=
  ⟨h.draft.of_literal _, h.callers, h.sign⟩

/-- No other mode keeps anything of the list. -/
theorem Tidy.of_mode (h : r.Tidy) {mode : ArgumentMode}
    (hmode : ∀ name, mode = .sign name → ∀ c ∈ name, Text.isNameChar c = true) :
    Tidy { r with mode := mode } :=
  ⟨h.draft, h.callers, hmode⟩

theorem Tidy.openCall (h : r.Tidy) {name : String} (hname : Text.IsName name) :
    (r.openCall name).Tidy := by
  refine ⟨ArgumentDraft.tidy_nil (by simp), ?_, fun _ hmode => by cases hmode⟩
  rw [ArgumentReader.openCall, List.forall_mem_cons]
  exact ⟨⟨hname, h.draft.cut⟩, h.callers⟩

theorem Tidy.closeCall (h : r.Tidy) : r.closeCall.elim Tidy Argument.AreTidy := by
  unfold ArgumentReader.closeCall
  split
  · exact h.draft.close
  · next name draft callers hcallers =>
    have hall := h.callers
    rw [hcallers, List.forall_mem_cons] at hall
    obtain ⟨⟨hname, hdraft⟩, hrest⟩ := hall
    exact ⟨hdraft.addCall hname h.draft.close, hrest, fun _ hmode => by cases hmode⟩

theorem Tidy.stepPlain (h : r.Tidy) (c : Char) : (r.stepPlain c).elim Tidy Argument.AreTidy := by
  unfold ArgumentReader.stepPlain
  split
  · exact (h.push c).of_mode (by simp)
  · split_ifs
    · exact h.of_mode (by simp)
    · exact h.of_mode (by simp)
    · exact ⟨h.draft.comma, h.callers, h.sign⟩
    · exact h.closeCall
    · exact h.push c

theorem Tidy.step (h : r.Tidy) (c : Char) : (r.step c).elim Tidy Argument.AreTidy := by
  unfold ArgumentReader.step
  split
  · exact h.stepPlain c
  · next name hmode =>
    have hname := h.sign name hmode
    split_ifs with hc hcall
    · apply h.of_mode
      rintro _ ⟨⟩
      rw [List.forall_mem_cons]
      exact ⟨hc, hname⟩
    · exact h.openCall (isName_textOf (by simp_all) hname)
    · have hplain : Tidy { r with
          mode := .plain, draft := { r.draft with literal := name ++ '@' :: r.draft.literal } } :=
        ⟨h.draft.of_literal _, h.callers, by simp⟩
      exact hplain.stepPlain c
  · next close outer hmode =>
    have hpush := h.push c
    dsimp only
    split
    · split
      · exact hpush.of_mode (by simp)
      · exact hpush.of_mode (by simp)
    · split
      · exact hpush.of_mode (by simp)
      · exact hpush
  · split
    · exact h.of_mode (by simp)
    · exact (h.push c).of_mode (by simp)

end ArgumentReader

variable {σ α : Type}

def Step.elim (P : σ → Prop) (Q : α → Prop) : Step σ α → Prop
  | .more s => P s
  | .done a | .closed a => Q a

/-- Nodes of a value before the blanks at its ends are dropped. -/
structure AreNodes (nodes : List Node) : Prop where
  tidy : ∀ node ∈ nodes, node.Tidy
  apart : (nodes.map Node.text?).IsChain fun a b => a = none ∨ b = none

namespace AreNodes

variable {nodes : List Node}

theorem nil : AreNodes [] := ⟨by simp, .nil⟩

theorem concat (h : AreNodes nodes) {node : Node} (hnode : node.Tidy)
    (hapart : (nodes.map Node.text?).getLast?.join = none ∨ node.text? = none) :
    AreNodes (nodes ++ [node]) where
  tidy := by
    rw [List.forall_mem_append, List.forall_mem_singleton]
    exact ⟨h.tidy, hnode⟩
  apart := by
    rw [List.map_append]
    exact Text.isChain_concat h.apart hapart

/-- A part of a text may stand in its place. -/
theorem of_part {before after : List Node} {s t : String}
    (h : AreNodes (before ++ .text s :: after)) (hpart : t.toList <:+: s.toList) :
    AreNodes (before ++ .text t :: after) where
  tidy := by
    have htidy := h.tidy
    rw [List.forall_mem_append, List.forall_mem_cons] at htidy ⊢
    exact ⟨htidy.1, htidy.2.1.of_part hpart, htidy.2.2⟩
  apart := by
    have hapart := h.apart
    simp only [List.map_append, List.map_cons, List.isChain_append, List.isChain_cons,
      Node.text?] at hapart ⊢
    simpa using hapart

end AreNodes

theorem trimLast_concat (nodes : List Node) (s : String) :
    trimLast (nodes ++ [.text s]) = nodes ++ [.text (Text.trimEnd s)] := by
  induction nodes with
  | nil => rfl
  | cons node nodes ih =>
    rw [List.cons_append, trimLast, ih, List.cons_append]
    simp

/-- At the end there is a text to trim, or nothing changes. -/
theorem trimLast_cases (nodes : List Node) :
    (∃ before s, nodes = before ++ [.text s]) ∨
      (nodes.map Node.text?).getLast?.join = none ∧ trimLast nodes = nodes := by
  rcases List.eq_nil_or_concat' nodes with rfl | ⟨before, node, rfl⟩
  · exact .inr ⟨rfl, rfl⟩
  · cases node with
    | text s => exact .inl ⟨before, s, rfl⟩
    | call name arguments =>
      exact .inr ⟨by simp [Node.text?], ValueReader.trimLast_eq_self (by simp [Node.text?])⟩

namespace AreNodes

variable {nodes : List Node}

theorem trimFirst (h : AreNodes nodes) :
    AreNodes (trimFirst nodes) ∧
      ∀ s ∈ ((trimFirst nodes).map Node.text?).head?.join, ∀ c ∈ s.toList.head?,
        Text.isBlank c = false := by
  match nodes with
  | [] => exact ⟨h, by simp [Source.trimFirst]⟩
  | .call name arguments :: nodes => exact ⟨h, by simp [Source.trimFirst, Node.text?]⟩
  | .text s :: nodes =>
    have hpart := (Text.trimStart_isSuffix s).isInfix
    refine ⟨@of_part [] nodes s _ h hpart, ?_⟩
    simpa [Source.trimFirst, Node.text?] using Text.head_trimStart s

theorem trimLast (h : AreNodes nodes)
    (hstart : ∀ s ∈ (nodes.map Node.text?).head?.join, ∀ c ∈ s.toList.head?,
      Text.isBlank c = false) :
    AreNodes (trimLast nodes) ∧
      (∀ s ∈ ((trimLast nodes).map Node.text?).head?.join, ∀ c ∈ s.toList.head?,
        Text.isBlank c = false) ∧
      ∀ s ∈ ((trimLast nodes).map Node.text?).getLast?.join, ∀ c ∈ s.toList.getLast?,
        Text.isBlank c = false := by
  rcases trimLast_cases nodes with ⟨before, s, rfl⟩ | ⟨hlast, heq⟩
  · rw [trimLast_concat]
    have hpart := Text.trimEnd_isPrefix s
    refine ⟨h.of_part hpart.isInfix, ?_, ?_⟩
    · cases before with
      | nil => simpa [Node.text?] using Text.head_of_isPrefix hpart (hstart s rfl)
      | cons node before => exact hstart
    · simpa [Node.text?] using Text.last_trimEnd s
  · rw [heq]
    exact ⟨h, hstart, by simp only [hlast, Option.not_mem_none, false_implies, implies_true]⟩

end AreNodes

theorem map_text_filter (nodes : List Node) :
    (nodes.filter (! Node.isEmptyText ·)).map Node.text? =
      (nodes.map Node.text?).filter (· != some "") := by
  rw [List.filter_map]
  congr 2
  funext node
  cases node with
  | text s =>
    rw [Bool.eq_iff_iff]
    simp [Node.isEmptyText, Node.text?]
  | call name arguments => rfl

namespace ValueReader

variable {r : ValueReader}

/-- What was read of a value stays apart; text behind an at sign and a name is not yet taken in. -/
inductive Tidy : ValueReader → Prop
  | plain {nodes : List Node} {text : List Char} (hnodes : AreNodes nodes)
      (hlast : (nodes.map Node.text?).getLast?.join = none)
      (htext : Text.IsValueText text.reverse) (hsign : ¬ Text.EndsInSign text) :
      Tidy ⟨.plain, nodes, text⟩
  | sign {name : List Char} {nodes : List Node} {text : List Char} (hnodes : AreNodes nodes)
      (hlast : (nodes.map Node.text?).getLast?.join = none)
      (hname : ∀ c ∈ name, Text.isNameChar c = true)
      (htext : Text.IsValueText (name ++ '@' :: text).reverse) : Tidy ⟨.sign name, nodes, text⟩
  | call {name : String} {arguments : ArgumentReader} {nodes : List Node} {text : List Char}
      (hnodes : AreNodes nodes) (hname : Text.IsName name) (harguments : arguments.Tidy) :
      Tidy ⟨.call name arguments, nodes, text⟩

/-- With no text read since the last node. -/
theorem tidy_behind {nodes : List Node} (hnodes : AreNodes nodes)
    (hlast : (nodes.map Node.text?).getLast?.join = none) : Tidy { nodes := nodes } := by
  refine .plain hnodes hlast ⟨by simp, .nil, ?_⟩ (by simp [Text.EndsInSign])
  rintro ⟨before, name, after, -, -, heq⟩
  simp at heq

theorem areNodes_flush {mode : ValueMode} {nodes : List Node} {text : List Char}
    (hnodes : AreNodes nodes) (hlast : (nodes.map Node.text?).getLast?.join = none)
    (htext : Text.IsValueText text.reverse) : AreNodes (flush ⟨mode, nodes, text⟩) := by
  unfold flush
  split
  · exact hnodes
  · refine hnodes.concat ?_ (.inl hlast)
    rwa [Node.Tidy, toList_textOf]

/-- The value, if it ends here. -/
theorem areTidy_value (h : AreNodes r.flush) : Node.AreTidy r.value := by
  obtain ⟨hfirst, hstart⟩ := h.trimFirst
  obtain ⟨hlast, hstart, hfinish⟩ := hfirst.trimLast hstart
  refine ⟨?_, fun node hnode => hlast.tidy node (List.mem_of_mem_filter hnode)⟩
  rw [value, map_text_filter]
  exact Text.separated_filter hlast.apart hstart hfinish

/-- A character of text. It may follow an at sign and a name if it is part of neither, and then it
is no parenthesis. -/
theorem ensures_stepPlain {nodes : List Node} {text : List Char} (hnodes : AreNodes nodes)
    (hlast : (nodes.map Node.text?).getLast?.join = none)
    (htext : Text.IsValueText text.reverse) {c : Char}
    (hname : Text.isNameChar c = true → ¬ Text.EndsInSign text)
    (hcall : c = '(' → ¬ Text.EndsInSign text ∨ text.head? = some '@') (p : Position) :
    Ensures (Step.elim Tidy Node.AreTidy) (stepPlain ⟨.plain, nodes, text⟩ p c) := by
  have hvalue : Node.AreTidy (value ⟨.plain, nodes, text⟩) :=
    areTidy_value (areNodes_flush hnodes hlast htext)
  unfold stepPlain
  split_ifs with hbrace hsemicolon hat hcolon hblank
  · exact hvalue
  · exact hvalue
  · subst hat
    exact .sign hnodes hlast (by simp) (htext.cons (by decide) (by simp) (by simp))
  · trivial
  · unfold pushBlank
    split
    · next heq =>
      obtain rfl : text = _ := heq
      exact .plain hnodes hlast htext (Text.not_endsInSign_space _)
    · next hspace =>
      refine .plain hnodes hlast (htext.cons (by decide) ?_ (by simp)) (Text.not_endsInSign_space _)
      intro _ hhead
      obtain ⟨tail, rfl⟩ := List.head?_eq_some_iff.mp hhead
      exact hspace tail rfl
  · refine .plain hnodes hlast (htext.cons ⟨hsemicolon, hbrace, hcolon, ?_⟩ ?_ hcall) ?_
    · exact fun h => absurd h hblank
    · rintro rfl
      exact absurd rfl hblank
    · exact Text.not_endsInSign_cons hat hname

theorem Tidy.step (h : r.Tidy) (p : Position) (c : Char) :
    Ensures (Step.elim Tidy Node.AreTidy) (r.step p c) := by
  unfold ValueReader.step
  cases h with
  | plain hnodes hlast htext hsign =>
    exact ensures_stepPlain hnodes hlast htext (fun _ => hsign) (fun _ => .inl hsign) p
  | @sign name nodes text hnodes hlast hname htext =>
    dsimp only
    split_ifs with hc hcall
    · refine .sign hnodes hlast (List.forall_mem_cons.mpr ⟨hc, hname⟩) (htext.cons ?_ ?_ ?_)
      · exact ⟨Text.ne_of_isNameChar hc (by decide), Text.ne_of_isNameChar hc (by decide),
          Text.ne_of_isNameChar hc (by decide), by simp [Text.isBlank_of_isNameChar hc]⟩
      · exact fun h => absurd h (Text.ne_of_isNameChar hc (by decide))
      · exact fun h => absurd h (Text.ne_of_isNameChar hc (by decide))
    · have hpart : Text.IsValueText text.reverse :=
        htext.of_part ⟨[], '@' :: name.reverse, by simp⟩
      exact .call (areNodes_flush hnodes hlast hpart) (isName_textOf (by simp_all) hname)
        ArgumentReader.tidy_start
    · refine ensures_stepPlain hnodes hlast htext (fun h => absurd h hc) ?_ p
      rintro rfl
      obtain rfl : name = [] := by simpa using hcall
      exact .inr rfl
  | @call name arguments nodes text hnodes hname harguments =>
    have hstep := harguments.step c
    dsimp only
    generalize arguments.step c = result at hstep ⊢
    cases result with
    | inl arguments => exact .call hnodes hname hstep
    | inr groups =>
      have hcall : Node.Tidy (.call name groups) := hstep.call hname
      exact tidy_behind (hnodes.concat hcall (.inr rfl)) (by simp [Node.text?])

theorem Tidy.finish (h : r.Tidy) : ∀ value ∈ r.finish, Node.AreTidy value := by
  cases h with
  | plain hnodes hlast htext hsign =>
    rintro _ ⟨⟩
    exact areTidy_value (areNodes_flush hnodes hlast htext)
  | sign hnodes hlast hname htext =>
    rintro _ ⟨⟩
    exact areTidy_value (areNodes_flush hnodes hlast htext)
  | call => rintro _ ⟨⟩

end ValueReader

namespace DeclarationReader

def Tidy : DeclarationReader → Prop
  | .property name | .gap name _ => name ≠ [] ∧ ∀ c ∈ name, Text.isNameChar c = true
  | .value name reader => Text.IsName name ∧ reader.Tidy

variable {r : DeclarationReader}

theorem tidy_of_start {p : Position} {c : Char} (h : start p c = .ok r) : r.Tidy := by
  unfold start at h
  split at h
  · next hc =>
    cases h
    exact ⟨by simp, by simpa using hc⟩
  · cases h

theorem tidy_colon {name : List Char} (hne : name ≠ [])
    (hname : ∀ c ∈ name, Text.isNameChar c = true) : Tidy (.value (textOf name) {}) :=
  ⟨isName_textOf hne hname, ValueReader.tidy_behind .nil rfl⟩

theorem Tidy.step (h : r.Tidy) (p : Position) (c : Char) :
    Ensures (Step.elim Tidy Declaration.Tidy) (r.step p c) := by
  unfold DeclarationReader.step
  cases r with
  | property name =>
    dsimp only
    split_ifs with hcolon hblank hc
    · exact tidy_colon h.1 h.2
    · exact h
    · exact ⟨by simp, List.forall_mem_cons.mpr ⟨hc, h.2⟩⟩
    · trivial
  | gap name since =>
    dsimp only
    split_ifs
    · exact tidy_colon h.1 h.2
    · exact h
    · trivial
    · trivial
  | value name reader =>
    obtain ⟨hname, hreader⟩ := h
    have hstep := hreader.step p c
    dsimp only
    generalize reader.step p c = result at hstep ⊢
    match result with
    | .error _ => trivial
    | .ok (.more _) => exact ⟨hname, hstep⟩
    | .ok (.done _) | .ok (.closed _) => exact ⟨hname, hstep⟩

theorem Tidy.finish (h : r.Tidy) : ∀ d ∈ r.finish, d.Tidy := by
  cases r with
  | property name => rintro _ ⟨⟩
  | gap name since => rintro _ ⟨⟩
  | value name reader =>
    intro d hd
    obtain ⟨nodes, hnodes, rfl⟩ := Option.map_eq_some_iff.mp hd
    exact ⟨h.1, h.2.finish nodes hnodes⟩

end DeclarationReader

end Source

end GridCss
