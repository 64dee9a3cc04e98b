import Mathlib.Data.List.Induction
import GridCss.Proofs.Completions

/-!
# Quoted arguments

In quotes a reader of arguments looks at one character in front of a quotation mark, and the mark
closes the quotes unless that character is a backslash. A text in which every mark stands behind a
backslash is therefore read up to the mark behind it, and that mark closes the quotes just if no
backslash ends the text. How many backslashes there are makes no difference: where two of them
end the text, the reader stays in the quotes.
-/

namespace GridCss

namespace Text

/-- A text for single quotes, with a backslash in front of each backslash and each single quote. -/
def escapeSingle (cs : List Char) : List Char :=
  cs.flatMap fun c => if c = '\\' ∨ c = '\'' then ['\\', c] else [c]

/-- How many backslashes a text ends in. -/
def backslashes (cs : List Char) : Nat := (cs.reverse.takeWhile (· == '\\')).length

/-- Every mark in a text stands behind a backslash. -/
def IsQuoteBody (mark : Char) (cs : List Char) : Prop :=
  ∀ before after, cs = before ++ mark :: after → backslashes before ≠ 0

@[simp] theorem backslashes_nil : backslashes [] = 0 := rfl

@[simp] theorem backslashes_concat (cs : List Char) (c : Char) :
    backslashes (cs ++ [c]) = if c = '\\' then backslashes cs + 1 else 0 := by
  by_cases hc : c = '\\' <;> simp [backslashes, hc]

theorem isQuoteBody_nil (mark : Char) : IsQuoteBody mark [] := by
  intro before after h
  simp at h

theorem isQuoteBody_concat {mark c : Char} {cs : List Char} :
    IsQuoteBody mark (cs ++ [c]) ↔ IsQuoteBody mark cs ∧ (c = mark → backslashes cs ≠ 0) := by
  constructor
  · intro h
    refine ⟨fun before after hcs => h before (after ++ [c]) (by simp [hcs]), ?_⟩
    rintro rfl
    exact h cs [] rfl
  · rintro ⟨hcs, hc⟩ before after h
    -- The mark is the last character, or it stands in the text in front of that.
    rcases List.eq_nil_or_concat' after with rfl | ⟨after, d, rfl⟩
    · obtain ⟨rfl, hlast⟩ := List.append_inj' h rfl
      exact hc (List.cons.inj hlast).1
    · rw [← List.cons_append, ← List.append_assoc] at h
      exact hcs before after (List.append_inj' h rfl).1

@[simp] theorem escapeSingle_concat (cs : List Char) (c : Char) :
    escapeSingle (cs ++ [c]) =
      escapeSingle cs ++ if c = '\\' ∨ c = '\'' then ['\\', c] else [c] := by
  simp [escapeSingle]

theorem isQuoteBody_escapeSingle (cs : List Char) : IsQuoteBody '\'' (escapeSingle cs) := by
  induction cs using List.reverseRecOn with
  | nil => exact isQuoteBody_nil _
  | append_singleton cs c ih =>
    rw [escapeSingle_concat]
    split_ifs with hc
    · rw [← List.singleton_append, ← List.append_assoc, isQuoteBody_concat, isQuoteBody_concat]
      simp [ih]
    · rw [isQuoteBody_concat]
      exact ⟨ih, fun hmark => absurd (.inr hmark) hc⟩

theorem backslashes_escapeSingle {cs : List Char} :
    backslashes (escapeSingle cs) = 0 ↔ cs.getLast? ≠ some '\\' := by
  rcases List.eq_nil_or_concat' cs with rfl | ⟨cs, c, rfl⟩
  · simp [escapeSingle]
  rw [escapeSingle_concat]
  split_ifs with hc
  · rw [← List.singleton_append, ← List.append_assoc, backslashes_concat]
    simp
  · rw [backslashes_concat]
    simp

end Text

namespace Source

open Text

namespace ArgumentReader

/-- An at sign and a name that have not become a call, latest character first. -/
def pending (a : ArgumentReader) : List Char :=
  match a.mode with
  | .sign name => name ++ ['@']
  | _ => []

/-- The argument goes on with a text, just as the text is. -/
def contribute (a : ArgumentReader) (cs : List Char) : ArgumentReader :=
  { a with
    mode := .plain
    draft := { a.draft with literal := cs.reverse ++ (a.pending ++ a.draft.literal) } }

/-- In quotes that have been read up to the end of a text. -/
def inQuotes (a : ArgumentReader) (mark : Char) (cs : List Char) : ArgumentReader :=
  { a.contribute cs with mode := .quote mark (backslashes cs != 0) }

variable {a : ArgumentReader} {mark : Char} {cs : List Char}

theorem next_openQuotes (h : a.mode.closing = []) (hmark : mark = '\'' ∨ mark = '"')
    (p : Position) : a.next p mark = some (a.inQuotes mark []) := by
  obtain ⟨mode, draft, callers⟩ := a
  cases mode with
  | plain => rcases hmark with rfl | rfl <;> rfl
  | sign name =>
    have hsign : inQuotes ⟨.sign name, draft, callers⟩ mark [] =
        ⟨.quote mark false, { draft with literal := name ++ '@' :: draft.literal }, callers⟩ := by
      simp [inQuotes, contribute, pending]
    rw [hsign]
    rcases hmark with rfl | rfl <;> rfl
  | bracket close outer => cases h
  | quote mark escaped => cases escaped <;> cases h

theorem next_inQuotes {c : Char} (h : c = mark → backslashes cs ≠ 0) (p : Position) :
    (a.inQuotes mark cs).next p c = some (a.inQuotes mark (cs ++ [c])) := by
  have hclose : ¬ (decide (c = mark) && !(backslashes cs != 0)) = true := by simpa using h
  have hescaped : (c == '\\') = (backslashes (cs ++ [c]) != 0) := by
    by_cases hc : c = '\\' <;> simp [hc]
  simp only [next, step, inQuotes, hclose, hescaped]
  simp [contribute, push, ArgumentDraft.push]

theorem next_mark (p : Position) :
    (a.inQuotes mark cs).next p mark =
      some (if backslashes cs = 0 then a.contribute cs else a.inQuotes mark (cs ++ [mark])) := by
  split_ifs with h
  · simp [next, step, inQuotes, contribute, h]
  · exact next_inQuotes (fun _ => h) p

/-- Inside quotes the text is collected, whatever it is made of besides unguarded marks. -/
theorem quoteBody_leads (h : a.mode.closing = []) (hmark : mark = '\'' ∨ mark = '"')
    (hcs : IsQuoteBody mark cs) : Leads next a (mark :: cs) (a.inQuotes mark cs) := by
  induction cs using List.reverseRecOn with
  | nil => exact .single (next_openQuotes h hmark)
  | append_singleton cs c ih =>
    obtain ⟨hbody, hlast⟩ := isQuoteBody_concat.mp hcs
    exact (ih hbody).append (.single (next_inQuotes hlast))

theorem quoted_leads (h : a.mode.closing = []) (hmark : mark = '\'' ∨ mark = '"')
    (hcs : IsQuoteBody mark cs) :
    Leads next a (mark :: cs ++ [mark])
      (if backslashes cs = 0 then a.contribute cs else a.inQuotes mark (cs ++ [mark])) :=
  (quoteBody_leads h hmark hcs).append (.single next_mark)

end ArgumentReader

namespace Reader

/-- Where in a source an argument list stands: behind the name of a conditional, or in a call in
the value of a declaration, which may be one of a pseudo block or of a keyframes step. -/
inductive AroundArguments : (ArgumentReader → Reader) → Prop
  | conditional (r : Reader) (name : String) :
    AroundArguments fun a => r.enter (.arguments name a)
  | declaration (r : Reader) (property name : String) (nodes : List Node) (text : List Char) :
    AroundArguments fun a => r.enter (.declaration (.value property ⟨.call name a, nodes, text⟩))
  | pseudo (r : Reader) (id : Nat) (selector : String) (declarations : List Declaration)
    (property name : String) (nodes : List Node) (text : List Char) :
    AroundArguments fun a => r.enter (.pseudo id selector
      ⟨.declaration (.value property ⟨.call name a, nodes, text⟩), declarations⟩)
  | keyframes (r : Reader) (keyframes : String) (steps : List KeyframeStep) (selector : String)
    (declarations : List Declaration) (property name : String) (nodes : List Node)
    (text : List Char) :
    AroundArguments fun a => r.enter (.keyframes keyframes ⟨.block selector
      ⟨.declaration (.value property ⟨.call name a, nodes, text⟩), declarations⟩, steps⟩)

variable {g : ArgumentReader → Reader}

theorem AroundArguments.next (hg : AroundArguments g) {a a' : ArgumentReader} {p : Position}
    {c : Char} (h : a.next p c = some a') : (g a).next p c = some (g a') := by
  cases hg with
  | conditional r name => exact next_arguments h
  | declaration r property name nodes text =>
    exact next_declaration (DeclarationReader.next_value (ValueReader.next_call h))
  | pseudo r id selector declarations property name nodes text =>
    exact next_pseudo (BlockReader.next_declaration
      (DeclarationReader.next_value (ValueReader.next_call h)))
  | keyframes r keyframes steps selector declarations property name nodes text =>
    exact next_keyframes (StepsReader.next_block (BlockReader.next_declaration
      (DeclarationReader.next_value (ValueReader.next_call h))))

theorem AroundArguments.feed (hg : AroundArguments g) {a a' : ArgumentReader} {cs : List Char}
    (h : Leads ArgumentReader.next a cs a') (p : Position) (rest : List Char) :
    (g a).feed p (cs ++ rest) = (g a').feed (p.advanceAll cs) rest := by
  rw [feed_append, feed_of_leads (h.lift g fun _ _ _ _ => hg.next) p]

theorem AroundArguments.feed_quoteBody (hg : AroundArguments g) {a : ArgumentReader}
    (ha : a.mode.closing = []) (p : Position) {mark : Char} (hmark : mark = '\'' ∨ mark = '"')
    {cs : List Char} (hcs : IsQuoteBody mark cs) (rest : List Char) :
    (g a).feed p (mark :: cs ++ mark :: rest) =
      (g (if backslashes cs = 0 then a.contribute cs else a.inQuotes mark (cs ++ [mark]))).feed
        (p.advanceAll (mark :: cs ++ [mark])) rest := by
  rw [← hg.feed (ArgumentReader.quoted_leads ha hmark hcs) p rest, List.append_assoc,
    List.singleton_append]

/-- In an argument list, outside brackets and quotes. A text with its backslashes and single quotes
escaped is taken as it stands between single quotes, whatever follows, if its last character is no
backslash; otherwise the quotes stay open. In general, of the marks in quotes the first one that
has no backslash in front of it closes them, and one behind backslashes does not, be their number
odd or even. -/
theorem feed_quoted (hg : AroundArguments g) {a : ArgumentReader} (ha : a.mode.closing = [])
    (p : Position) :
    (∀ x rest, (g a).feed p ('\'' :: escapeSingle x ++ '\'' :: rest) =
      (g (if x.getLast? = some '\\' then a.inQuotes '\'' (escapeSingle x ++ ['\''])
        else a.contribute (escapeSingle x))).feed
          (p.advanceAll ('\'' :: escapeSingle x ++ ['\''])) rest) ∧
    ∀ mark, mark = '\'' ∨ mark = '"' → ∀ cs, IsQuoteBody mark cs → ∀ rest,
      (g a).feed p (mark :: cs ++ mark :: rest) =
        (g (if backslashes cs = 0 then a.contribute cs else a.inQuotes mark (cs ++ [mark]))).feed
          (p.advanceAll (mark :: cs ++ [mark])) rest := by
  refine ⟨fun x rest => ?_, fun mark hmark cs hcs rest => hg.feed_quoteBody ha p hmark hcs rest⟩
  rw [hg.feed_quoteBody ha p (.inl rfl) (isQuoteBody_escapeSingle x) rest]
  simp only [backslashes_escapeSingle, ne_eq, ite_not]

/-- Single quotes behind an at sign and a name that are no call, and then double quotes, of which
the second is escaped. -/
theorem feed_quoted_sign :
    feed {} {} "a:@f(@x".toList =
      .ok ⟨.declaration (.value "a" ⟨.call "f" ⟨.sign ['x'], {}, []⟩, [], []⟩), [], [], 0⟩ ∧
    feed ⟨.declaration (.value "a" ⟨.call "f" ⟨.sign ['x'], {}, []⟩, [], []⟩), [], [], 0⟩
        ⟨1, 8⟩ "'it\\'s',".toList =
      .ok ⟨.declaration (.value "a" ⟨.call "f" ⟨.plain, ⟨[[.text "@xit\\'s"]], [], []⟩, []⟩,
        [], []⟩), [], [], 0⟩ ∧
    IsQuoteBody '"' ['\\', '"'] ∧
    feed ⟨.declaration (.value "a" ⟨.call "f" ⟨.plain, {}, []⟩, [], []⟩), [], [], 0⟩ ⟨1, 6⟩
        "\"\\\"\"".toList =
      .ok ⟨.declaration (.value "a" ⟨.call "f" ⟨.plain, ⟨[], [], ['"', '\\']⟩, []⟩, [], []⟩),
        [], [], 0⟩ := by
  have hbody : IsQuoteBody '"' ['\\', '"'] :=
    isQuoteBody_concat.mpr
      ⟨isQuoteBody_concat.mpr ⟨isQuoteBody_nil _, by decide⟩, fun _ => by decide⟩
  have hsingle := (feed_quoted (.declaration {} "a" "f" [] []) (a := ⟨.sign ['x'], {}, []⟩) rfl
    ⟨1, 8⟩).1 "it's".toList [',']
  have hdouble := (feed_quoted (.declaration {} "a" "f" [] []) (a := {}) rfl ⟨1, 6⟩).2 '"'
    (.inr rfl) _ hbody []
  exact ⟨rfl, hsingle.trans rfl, hbody, hdouble.trans rfl⟩

end Reader
end Source

open Source

/-- A backslash in quotes and escaped: the second of the two takes the closing mark with it, and the
source ends in the quotes. -/
theorem parse_escaped_backslash :
    Text.escapeSingle ['\\'] = "\\\\".toList ∧
    parse "a: @f('\\\\');" = .error ⟨.unexpectedEnd, ⟨1, 13⟩⟩ ∧
    parse "a: @f('\\\\');" ≠ .ok [.declaration ⟨"a", [.call "f" [[.text "\\\\"]]]⟩] := by
  have h : parse "a: @f('\\\\');" = .error ⟨.unexpectedEnd, ⟨1, 13⟩⟩ := rfl
  refine ⟨by decide, h, ?_⟩
  rw [h]
  exact nofun

end GridCss
