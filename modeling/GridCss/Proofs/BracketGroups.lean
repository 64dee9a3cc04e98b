import Mathlib.Logic.Function.Iterate
import GridCss.Proofs.QuotedArguments

/-!
# Groups in brackets

A group is an opening bracket with everything up to the bracket that closes it. In it stand further
groups, and other characters; closing brackets of another kind are among the latter. A reader of
arguments keeps the brackets that are open and what closes each of them. One character at a time, it
asks of the rest of the text just what makes the whole a group. So it comes out of the brackets
behind the one group that the text begins with, and has copied it; if there is none, the source ends
in the brackets.
-/

namespace GridCss
namespace Source

mutual

/-- An opening bracket, a body and the bracket that closes it. -/
inductive IsGroup : List Char → Prop
  | enclose {first last : Char} {body : List Char} (hfirst : closer? first = some last)
    (hbody : IsGroupBody last body) : IsGroup (first :: body ++ [last])

/-- A sequence of groups and of characters that neither open a bracket nor are the one that closes
the group around them. -/
inductive IsGroupBody : Char → List Char → Prop
  | nil {last : Char} : IsGroupBody last []
  | char {last c : Char} {cs : List Char} (hopen : closer? c = none) (hlast : c ≠ last)
    (hcs : IsGroupBody last cs) : IsGroupBody last (c :: cs)
  | group {last : Char} {t cs : List Char} (ht : IsGroup t) (hcs : IsGroupBody last cs) :
    IsGroupBody last (t ++ cs)

end

/-- What brackets that are open ask of the text behind them. They are given by the characters that
close them, innermost first. -/
def Closes : List Char → List Char → Prop
  | [], cs => cs = []
  | last :: outer, cs =>
    ∃ body rest, IsGroupBody last body ∧ Closes outer rest ∧ cs = body ++ last :: rest

/-- The brackets that are open behind a character in brackets. -/
def openBehind (last : Char) (outer : List Char) (c : Char) : List Char :=
  if c = last then outer else (closer? c).toList ++ last :: outer

/-- Characters that close brackets open none. -/
def AreClosers (stack : List Char) : Prop := ∀ c ∈ stack, closer? c = none

theorem closer?_isSome_iff {c : Char} :
    (closer? c).isSome ↔ c = '(' ∨ c = '[' ∨ c = '{' := by
  unfold closer?
  split <;> simp_all

theorem closer?_of_closer? {c d : Char} (h : closer? c = some d) : closer? d = none := by
  rcases closer?_isSome_iff.mp (Option.isSome_of_eq_some h) with rfl | rfl | rfl <;>
    (cases h; rfl)

theorem areClosers_singleton {c d : Char} (h : closer? c = some d) : AreClosers [d] := by
  simp [AreClosers, closer?_of_closer? h]

theorem areClosers_openBehind {last c : Char} {outer : List Char}
    (h : AreClosers (last :: outer)) : AreClosers (openBehind last outer c) := by
  unfold openBehind
  split
  · exact fun d hd => h d (List.mem_cons_of_mem _ hd)
  · intro d hd
    rcases List.mem_append.mp hd with hd | hd
    · exact closer?_of_closer? (Option.mem_toList.mp hd)
    · exact h d hd

theorem isGroup_cons {c : Char} {cs : List Char} :
    IsGroup (c :: cs) ↔ ∃ last, closer? c = some last ∧ Closes [last] cs := by
  constructor
  · intro h
    cases h with
    | enclose hfirst hbody => exact ⟨_, hfirst, _, [], hbody, rfl, rfl⟩
  · rintro ⟨last, hfirst, body, rest, hbody, rfl, rfl⟩
    exact .enclose hfirst hbody

theorem isGroupBody_cons {last c : Char} {cs : List Char} :
    IsGroupBody last (c :: cs) ↔
      (closer? c = none ∧ c ≠ last ∧ IsGroupBody last cs) ∨
      ∃ inner, closer? c = some inner ∧ ∃ body rest,
        IsGroupBody inner body ∧ IsGroupBody last rest ∧ cs = body ++ inner :: rest := by
  constructor
  · intro h
    generalize hcs : c :: cs = ds at h
    cases h with
    | nil => cases hcs
    | char hopen hlast hrest =>
      cases hcs
      exact .inl ⟨hopen, hlast, hrest⟩
    | group ht hrest =>
      cases ht with
      | enclose hfirst hbody =>
        obtain ⟨rfl, rfl⟩ := List.cons.inj hcs
        exact .inr ⟨_, hfirst, _, _, hbody, hrest, by simp⟩
  · rintro (⟨hopen, hlast, hcs⟩ | ⟨inner, hfirst, body, rest, hbody, hrest, rfl⟩)
    · exact .char hopen hlast hcs
    · have hgroup := IsGroupBody.group (.enclose hfirst hbody) hrest
      simpa using hgroup

theorem not_closes_nil {last : Char} {outer : List Char} : ¬ Closes (last :: outer) [] := by
  rintro ⟨body, rest, -, -, h⟩
  simp at h

/-- One character at a time: the text closes what is open if its rest closes what is open behind its
first character. -/
theorem closes_cons {last c : Char} {outer cs : List Char} (hlast : closer? last = none) :
    Closes (last :: outer) (c :: cs) ↔ Closes (openBehind last outer c) cs := by
  constructor
  · rintro ⟨body, rest, hbody, hrest, h⟩
    cases body with
    | nil =>
      obtain ⟨rfl, rfl⟩ := List.cons.inj h
      simpa [openBehind] using hrest
    | cons d body =>
      obtain ⟨rfl, rfl⟩ := List.cons.inj h
      -- A group at the start of the body is split: its own rest closes one bracket more.
      rcases isGroupBody_cons.mp hbody with
        ⟨hopen, hne, hbody⟩ | ⟨inner, hopen, t, body', ht, hbody', rfl⟩
      · simpa [openBehind, hne, hopen] using ⟨body, rest, hbody, hrest, rfl⟩
      · have hne : c ≠ last := by
          rintro rfl
          simp [hlast] at hopen
        have hcloses : Closes (inner :: last :: outer) (t ++ inner :: (body' ++ last :: rest)) :=
          ⟨t, _, ht, ⟨body', rest, hbody', hrest, rfl⟩, rfl⟩
        simpa [openBehind, hne, hopen] using hcloses
  · intro h
    by_cases hc : c = last
    · subst hc
      rw [openBehind, if_pos rfl] at h
      exact ⟨[], cs, .nil, h, rfl⟩
    · rw [openBehind, if_neg hc] at h
      cases hopen : closer? c with
      | none =>
        rw [hopen] at h
        obtain ⟨body, rest, hbody, hrest, rfl⟩ := h
        exact ⟨c :: body, rest, .char hopen hc hbody, hrest, rfl⟩
      | some inner =>
        rw [hopen] at h
        obtain ⟨t, _, ht, ⟨body, rest, hbody, hrest, rfl⟩, rfl⟩ := h
        refine ⟨c :: (t ++ inner :: body), rest, ?_, hrest, by simp⟩
        exact isGroupBody_cons.mpr (.inr ⟨inner, hopen, t, body, ht, hbody, rfl⟩)

/-- No text that closes the open brackets goes on with another one. -/
theorem Closes.eq_of_isPrefix {stack t t' : List Char} (hstack : AreClosers stack)
    (ht : Closes stack t) (ht' : Closes stack t') (h : t <+: t') : t = t' := by
  induction t generalizing stack t' with
  | nil =>
    cases stack with
    | nil => exact ht'.symm
    | cons last outer => exact absurd ht not_closes_nil
  | cons c t ih =>
    cases stack with
    | nil => cases ht
    | cons last outer =>
      obtain ⟨rest, rfl⟩ := h
      rw [List.cons_append] at ht'
      rw [closes_cons (hstack last List.mem_cons_self)] at ht ht'
      rw [List.cons_append, ← ih (areClosers_openBehind hstack) ht ht' (List.prefix_append t rest)]

/-- A text begins with one group at most. -/
theorem IsGroup.eq_of_isPrefix {t t' cs : List Char} (ht : IsGroup t) (ht' : IsGroup t')
    (h : t <+: cs) (h' : t' <+: cs) : t = t' := by
  -- Of two beginnings of one text, the shorter is a beginning of the longer.
  have hle : ∀ {t t' : List Char}, IsGroup t → IsGroup t' → t <+: cs → t' <+: cs →
      t.length ≤ t'.length → t = t' := by
    intro t t' ht ht' h h' hlength
    obtain ⟨rest, rfl⟩ := List.prefix_of_prefix_length_le h h' hlength
    cases ht with
    | @enclose first last body hfirst hbody =>
      obtain ⟨last', hfirst', hcloses'⟩ := isGroup_cons.mp ht'
      obtain rfl : last = last' := Option.some.inj (hfirst.symm.trans hfirst')
      have hcloses : Closes [last] (body ++ [last]) := ⟨body, [], hbody, rfl, rfl⟩
      exact congrArg (first :: ·) (hcloses.eq_of_isPrefix (areClosers_singleton hfirst) hcloses'
        (List.prefix_append _ rest))
  rcases Nat.le_total t.length t'.length with hlength | hlength
  · exact hle ht ht' h h' hlength
  · exact (hle ht' ht h' h hlength).symm

namespace ArgumentReader

/-- A parenthesis behind an at sign and a name opens the list of a call. -/
def OpensCall (a : ArgumentReader) (c : Char) : Prop :=
  c = '(' ∧ ∃ name, name ≠ [] ∧ a.mode = .sign name

/-- In brackets, or behind them if none is open, with a text read since the first of them. -/
def inBrackets (a : ArgumentReader) (cs : List Char) : List Char → ArgumentReader
  | [] => a.contribute cs
  | last :: outer => { a.contribute cs with mode := .bracket last outer }

/-- Reads a text that starts at `p`: one character of it, and on until no brackets are open. The
source must not end before. -/
def untilClosed (a : ArgumentReader) (p : Position) :
    List Char → Except SourceError (ArgumentReader × Cursor)
  | [] => .error ⟨.unexpectedEnd, p⟩
  | c :: cs =>
    match a.step c with
    | .inl b =>
      if b.mode.closing = [] then .ok (b, ⟨some c, cs, p.advance c⟩)
      else b.untilClosed (p.advance c) cs
    -- In brackets the list does not end.
    | .inr _ => .error ⟨.unexpectedEnd, p⟩

variable {a : ArgumentReader} {c first last : Char} {cs outer : List Char}

theorem not_opensCall_empty (c : Char) : ¬ OpensCall {} c := by
  rintro ⟨-, name, -, hmode⟩
  cases hmode

theorem closing_inBrackets (stack : List Char) : (a.inBrackets cs stack).mode.closing = stack := by
  cases stack <;> rfl

theorem step_openBracket (ha : a.mode.closing = []) (hfirst : closer? first = some last)
    (hcall : ¬ a.OpensCall first) : a.step first = .inl (a.inBrackets [first] [last]) := by
  obtain ⟨mode, draft, callers⟩ := a
  have hplain : ∀ draft, stepPlain ⟨.plain, draft, callers⟩ first =
      .inl ⟨.bracket last [], draft.push first, callers⟩ := by
    intro draft
    simp [stepPlain, hfirst, push]
  cases mode with
  | plain => exact hplain draft
  | sign name =>
    have hname : Text.isNameChar first = false := by
      rcases closer?_isSome_iff.mp (Option.isSome_of_eq_some hfirst) with rfl | rfl | rfl <;> decide
    have hlist : (first = '(' && !name.isEmpty) = false := by
      by_contra hopens
      exact hcall (by simpa [OpensCall] using hopens)
    simp [step, hname, hlist, hplain, inBrackets, contribute, pending, ArgumentDraft.push]
  | bracket close outer => cases ha
  | quote mark escaped => cases escaped <;> cases ha

theorem step_inBrackets :
    (a.inBrackets cs (last :: outer)).step c =
      .inl (a.inBrackets (cs ++ [c]) (openBehind last outer c)) := by
  by_cases hc : c = last
  · cases outer <;> simp [step, inBrackets, openBehind, hc, contribute, push, ArgumentDraft.push]
  · cases hopen : closer? c <;>
      simp [step, inBrackets, openBehind, hc, hopen, contribute, push, ArgumentDraft.push]

theorem untilClosed_cons {b : ArgumentReader} (h : a.step c = .inl b) (p : Position) :
    a.untilClosed p (c :: cs) =
      if b.mode.closing = [] then .ok (b, ⟨some c, cs, p.advance c⟩)
      else b.untilClosed (p.advance c) cs := by
  rw [untilClosed, h]

/-- In brackets, the text that closes them is copied. -/
theorem untilClosed_of_closes (hstack : AreClosers (last :: outer)) {t : List Char}
    (ht : Closes (last :: outer) t) (rest : List Char) (prev : Option Char) (p : Position) :
    (a.inBrackets cs (last :: outer)).untilClosed p (t ++ rest) =
      .ok (a.contribute (cs ++ t), Cursor.next^[t.length] ⟨prev, t ++ rest, p⟩) := by
  induction t generalizing last outer cs prev p with
  | nil => exact absurd ht not_closes_nil
  | cons c t ih =>
    rw [closes_cons (hstack last List.mem_cons_self)] at ht
    rw [List.cons_append, untilClosed_cons step_inBrackets, closing_inBrackets]
    cases hopen : openBehind last outer c with
    | nil =>
      rw [hopen] at ht
      obtain rfl : t = [] := ht
      rfl
    | cons last' outer' =>
      have hstack' := @areClosers_openBehind last c outer hstack
      rw [hopen] at ht hstack'
      rw [if_neg (List.cons_ne_nil _ _), ih hstack' ht (some c), List.append_assoc]
      rfl

/-- In brackets that are not closed, the source ends. -/
theorem untilClosed_of_not_closes (hstack : AreClosers (last :: outer)) {rest : List Char}
    (h : ∀ t, t <+: rest → ¬ Closes (last :: outer) t) (p : Position) :
    (a.inBrackets cs (last :: outer)).untilClosed p rest =
      .error ⟨.unexpectedEnd, p.advanceAll rest⟩ := by
  induction rest generalizing last outer cs p with
  | nil => rfl
  | cons c rest ih =>
    have hrest : ∀ t, t <+: rest → ¬ Closes (openBehind last outer c) t := by
      intro t ht hcloses
      refine h (c :: t) ((List.prefix_cons_inj c).mpr ht) ?_
      exact (closes_cons (hstack last List.mem_cons_self)).mpr hcloses
    rw [untilClosed_cons step_inBrackets, closing_inBrackets]
    cases hopen : openBehind last outer c with
    | nil =>
      rw [hopen] at hrest
      exact absurd rfl (hrest [] List.nil_prefix)
    | cons last' outer' =>
      have hstack' := @areClosers_openBehind last c outer hstack
      rw [hopen] at hrest hstack'
      rw [if_neg (List.cons_ne_nil _ _), ih hstack' hrest, Position.advanceAll_cons]

theorem untilClosed_bracket (ha : a.mode.closing = []) (hfirst : closer? first = some last)
    (hcall : ¬ a.OpensCall first) (p : Position) :
    a.untilClosed p (first :: cs) =
      (a.inBrackets [first] [last]).untilClosed (p.advance first) cs := by
  rw [untilClosed_cons (step_openBracket ha hfirst hcall), closing_inBrackets,
    if_neg (List.cons_ne_nil _ _)]

section

variable {k : Cursor}

/-- In front of a group, the group is copied. -/
theorem untilClosed_of_isGroup (hk : k.peek = some first) (ha : a.mode.closing = [])
    (hcall : ¬ a.OpensCall first) {t : List Char} (ht : t <+: k.rest) (h : IsGroup t) :
    a.untilClosed k.position k.rest = .ok (a.contribute t, Cursor.next^[t.length] k) := by
  cases h with
  | @enclose first' last body hfirst hbody =>
    obtain ⟨prev, _, p⟩ := k
    obtain ⟨rest, rfl⟩ := ht
    obtain rfl : first' = first := Option.some.inj hk
    have hcloses : Closes [last] (body ++ [last]) := ⟨body, [], hbody, rfl, rfl⟩
    exact (untilClosed_bracket ha hfirst hcall p).trans
      (untilClosed_of_closes (areClosers_singleton hfirst) hcloses rest (some first') _)

/-- At a bracket with which no group begins, the source ends in brackets. -/
theorem untilClosed_of_not_isGroup (hk : k.peek = some first) (ha : a.mode.closing = [])
    (hfirst : closer? first = some last) (hcall : ¬ a.OpensCall first)
    (h : ∀ t, t <+: k.rest → ¬ IsGroup t) :
    a.untilClosed k.position k.rest =
      .error ⟨.unexpectedEnd, k.position.advanceAll k.rest⟩ := by
  obtain ⟨prev, _, p⟩ := k
  obtain ⟨rest, rfl⟩ := List.head?_eq_some_iff.mp hk
  have hcloses : ∀ t, t <+: rest → ¬ Closes [last] t := by
    intro t ht hcloses
    refine h (first :: t) ((List.prefix_cons_inj first).mpr ht) ?_
    exact isGroup_cons.mpr ⟨last, hfirst, hcloses⟩
  rw [untilClosed_bracket ha hfirst hcall,
    untilClosed_of_not_closes (areClosers_singleton hfirst) hcloses, Position.advanceAll_cons]

end

end ArgumentReader

namespace Reader

variable {g : ArgumentReader → Reader} {a : ArgumentReader} {p : Position}

theorem AroundArguments.finish (hg : AroundArguments g) :
    (g a).finish p = .error ⟨.unexpectedEnd, p⟩ := by
  cases hg <;> rfl

theorem AroundArguments.read_cons (hg : AroundArguments g) {a' : ArgumentReader} {c : Char}
    (h : a.step c = .inl a') (cs : List Char) :
    (g a).read p (c :: cs) = (g a').read (p.advance c) cs := by
  have hnext : a.next p c = some a' := by rw [ArgumentReader.next, h, Sum.getLeft?_inl]
  have hstep : (g a).step p c = .ok (g a') := next_eq_some.mp (hg.next hnext)
  simp only [read, Reader.feed, hstep, Position.advanceAll_cons]

/-- In brackets, the source is read up to where they are closed, and then on. -/
theorem AroundArguments.read_inBrackets (hg : AroundArguments g) (cs : List Char) (last : Char)
    (outer rest : List Char) :
    (g (a.inBrackets cs (last :: outer))).read p rest =
      (a.inBrackets cs (last :: outer)).untilClosed p rest >>= fun x =>
        (g x.1).read x.2.position x.2.rest := by
  induction rest generalizing cs last outer p with
  | nil => exact hg.finish
  | cons c rest ih =>
    rw [hg.read_cons ArgumentReader.step_inBrackets,
      ArgumentReader.untilClosed_cons ArgumentReader.step_inBrackets,
      ArgumentReader.closing_inBrackets]
    cases openBehind last outer c with
    | nil => rfl
    | cons last' outer' => exact ih _ _ _

end Reader

/-- Copies a group, from a cursor in front of it: the text of the group, and the cursor behind. -/
def bracketed (k : Cursor) : Except SourceError (String × Cursor) :=
  (ArgumentReader.untilClosed {} k.position k.rest).map fun x => (textOf x.1.draft.literal, x.2)

section

open ArgumentReader

variable {k : Cursor} {c last : Char}

theorem bracketed_of_isGroup (hk : k.peek = some c) {t : List Char} (ht : t <+: k.rest)
    (h : IsGroup t) : bracketed k = .ok (String.ofList t, Cursor.next^[t.length] k) := by
  rw [bracketed, untilClosed_of_isGroup hk rfl (not_opensCall_empty c) ht h]
  simp [Except.map, textOf, contribute, pending]

theorem bracketed_of_not_isGroup (hk : k.peek = some c) (hc : closer? c = some last)
    (h : ∀ t, t <+: k.rest → ¬ IsGroup t) :
    bracketed k = .error ⟨.unexpectedEnd, k.position.advanceAll k.rest⟩ := by
  rw [bracketed, untilClosed_of_not_isGroup hk rfl hc (not_opensCall_empty c) h]
  rfl

/-- At a bracket in an argument list, reading a source is copying a group to the argument and
reading on behind it. -/
theorem Reader.AroundArguments.read_bracketed {g : ArgumentReader → Reader}
    (hg : AroundArguments g) {a : ArgumentReader} (ha : a.mode.closing = [])
    (hk : k.peek = some c) (hc : closer? c = some last) (hcall : ¬ a.OpensCall c) :
    (g a).read k.position k.rest =
      bracketed k >>= fun x => (g (a.contribute x.1.toList)).read x.2.position x.2.rest := by
  have hread : (g a).read k.position k.rest =
      a.untilClosed k.position k.rest >>= fun x => (g x.1).read x.2.position x.2.rest := by
    obtain ⟨rest, hrest⟩ := List.head?_eq_some_iff.mp hk
    rw [hrest, untilClosed_bracket ha hc hcall, hg.read_cons (step_openBracket ha hc hcall)]
    exact hg.read_inBrackets [c] last [] rest
  rw [hread]
  by_cases h : ∃ t, t <+: k.rest ∧ IsGroup t
  · obtain ⟨t, ht, hgroup⟩ := h
    rw [bracketed_of_isGroup hk ht hgroup, untilClosed_of_isGroup hk ha hcall ht hgroup]
    simp only [bind, Except.bind, String.toList_ofList]
  · have hnone : ∀ t, t <+: k.rest → ¬ IsGroup t := fun t ht hgroup => h ⟨t, ht, hgroup⟩
    rw [bracketed_of_not_isGroup hk hc hnone, untilClosed_of_not_isGroup hk ha hc hcall hnone]
    rfl

end

/-- At an opening bracket, copying succeeds just if the text begins with a group. There is only one
such group; it is copied as it stands, and the cursor is moved by its length. Otherwise the source
ends unexpectedly, at its end. This is what happens at the brackets of all argument lists in a
source, apart from the parenthesis that opens the list of a call. -/
theorem bracketed_copies_group (k : Cursor) {c : Char} (hk : k.peek = some c)
    (hc : c = '(' ∨ c = '[' ∨ c = '{') :
    ((∃ text k', bracketed k = .ok (text, k')) ↔ ∃ t, t <+: k.rest ∧ IsGroup t) ∧
    (∀ t, t <+: k.rest → IsGroup t →
      (∀ t', t' <+: k.rest → IsGroup t' → t' = t) ∧
      bracketed k = .ok (String.ofList t, Cursor.next^[t.length] k)) ∧
    ((¬ ∃ t, t <+: k.rest ∧ IsGroup t) →
      bracketed k = .error ⟨.unexpectedEnd, k.position.advanceAll k.rest⟩) ∧
    ∀ g, Reader.AroundArguments g → ∀ a : ArgumentReader, a.mode.closing = [] →
      ¬ a.OpensCall c →
      (g a).read k.position k.rest =
        bracketed k >>= fun x => (g (a.contribute x.1.toList)).read x.2.position x.2.rest := by
  obtain ⟨last, hlast⟩ := Option.isSome_iff_exists.mp (closer?_isSome_iff.mpr hc)
  have hgroup : ∀ t, t <+: k.rest → IsGroup t →
      bracketed k = .ok (String.ofList t, Cursor.next^[t.length] k) :=
    fun t => bracketed_of_isGroup hk
  have hnone : (¬ ∃ t, t <+: k.rest ∧ IsGroup t) →
      bracketed k = .error ⟨.unexpectedEnd, k.position.advanceAll k.rest⟩ :=
    fun h => bracketed_of_not_isGroup hk hlast fun t ht ht' => h ⟨t, ht, ht'⟩
  refine ⟨⟨?_, ?_⟩, ?_, hnone, fun g hg a ha hcall => hg.read_bracketed ha hk hlast hcall⟩
  · rintro ⟨text, k', hok⟩
    by_contra h
    rw [hnone h] at hok
    cases hok
  · rintro ⟨t, ht, ht'⟩
    exact ⟨_, _, hgroup t ht ht'⟩
  · intro t ht ht'
    exact ⟨fun t' h h' => h'.eq_of_isPrefix ht' h ht, hgroup t ht ht'⟩

/-- A group with others in it and with closing brackets that close nothing, behind an at sign and a
name that are no call; and a parenthesis that is not closed, since another bracket is open. -/
theorem bracketed_copies_group_nested :
    let k : Cursor := ⟨some 'x', "[a(b]c)\x7b)\x7dd])".toList, ⟨1, 8⟩⟩
    let k' : Cursor := { rest := "(a[)".toList }
    let a : ArgumentReader := ⟨.sign ['x'], {}, []⟩
    k.peek = some '[' ∧ IsGroup "[a(b]c)\x7b)\x7dd]".toList ∧
    bracketed k = .ok ("[a(b]c)\x7b)\x7dd]", ⟨some ']', [')'], ⟨1, 20⟩⟩) ∧
    Reader.feed {} {} "a:@f(@x".toList =
      .ok ⟨.declaration (.value "a" ⟨.call "f" a, [], []⟩), [], [], 0⟩ ∧
    a.mode.closing = [] ∧ ¬ a.OpensCall '[' ∧
    Reader.read ⟨.declaration (.value "a" ⟨.call "f" a, [], []⟩), [], [], 0⟩ k.position k.rest =
      Reader.read ⟨.declaration (.value "a" ⟨.call "f" ⟨.plain,
        ⟨[], [], "@x[a(b]c)\x7b)\x7dd]".toList.reverse⟩, []⟩, [], []⟩), [], [], 0⟩ ⟨1, 20⟩ [')'] ∧
    k'.peek = some '(' ∧ (¬ ∃ t, t <+: k'.rest ∧ IsGroup t) ∧
    bracketed k' = .error ⟨.unexpectedEnd, ⟨1, 5⟩⟩ := by
  intro k k' a
  have hround : IsGroup ['(', 'b', ']', 'c', ')'] :=
    .enclose rfl (.char rfl (by decide) (.char rfl (by decide) (.char rfl (by decide) .nil)))
  have hcurly : IsGroup ['{', ')', '}'] := .enclose rfl (.char rfl (by decide) .nil)
  have hgroup : IsGroup "[a(b]c)\x7b)\x7dd]".toList :=
    .enclose rfl (.char rfl (by decide)
      (.group hround (.group hcurly (.char rfl (by decide) .nil))))
  obtain ⟨-, hcopy, -, hread⟩ := bracketed_copies_group k (c := '[') rfl (.inr (.inl rfl))
  have hok : bracketed k = .ok ("[a(b]c)\x7b)\x7dd]", ⟨some ']', [')'], ⟨1, 20⟩⟩) :=
    (hcopy _ ⟨[')'], rfl⟩ hgroup).2.trans rfl
  have hcall : ¬ a.OpensCall '[' := fun h => absurd h.1 (by decide)
  have hdeclaration := hread _ (.declaration {} "a" "f" [] []) a rfl hcall
  rw [hok] at hdeclaration
  obtain ⟨hiff, -, hend, -⟩ := bracketed_copies_group k' (c := '(') rfl (.inl rfl)
  have hnone : ¬ ∃ t, t <+: k'.rest ∧ IsGroup t := by
    intro h
    obtain ⟨text, cursor, hok'⟩ := hiff.mpr h
    cases hok'
  exact ⟨rfl, hgroup, hok, rfl, rfl, hcall, hdeclaration, rfl, hnone, hend hnone⟩

end Source
end GridCss
