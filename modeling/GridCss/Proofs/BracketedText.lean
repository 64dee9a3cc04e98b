import Mathlib.Algebra.Order.Ring.Nat
import Mathlib.Data.List.Basic
import GridCss.Text.Split

/-!
# Text with brackets

Text is read with the number of brackets that are open. Separators count where no bracket is open,
so that what stands in brackets stays together. Splitting at these separators and then each piece at
all separators is splitting at all of them, and there is no difference exactly if no separator
stands in brackets. Of a text in which all brackets are closed, all pieces are such texts again.
-/

namespace GridCss

/-- The characters that open brackets and those that close them. -/
structure Brackets where
  opens : Char → Bool
  closes : Char → Bool

namespace Brackets

def round : Brackets where
  opens c := c == '('
  closes c := c == ')'

variable (b : Brackets)

/-- The number of open brackets behind a character. One that closes nothing does not count. -/
def step (depth : Nat) (c : Char) : Nat :=
  if b.opens c then depth + 1 else if b.closes c then depth - 1 else depth

/-- The number of open brackets behind a text. -/
def depthFrom (depth : Nat) (cs : List Char) : Nat := cs.foldl b.step depth

/-- Every bracket that is opened is closed, as in all text where brackets are balanced. -/
def Closed (cs : List Char) : Prop := b.depthFrom 0 cs = 0

instance decidableClosed (cs : List Char) : Decidable (b.Closed cs) :=
  inferInstanceAs (Decidable (_ = 0))

def isBracket (c : Char) : Bool := b.opens c || b.closes c

/-- The pieces between the characters that satisfy `p` where no bracket is open. -/
def split (p : Char → Bool) : Nat → List Char → List (List Char)
  | _, [] => [[]]
  | depth, c :: cs =>
    if depth = 0 ∧ p c = true then [] :: split p 0 cs
    else (split p (b.step depth c) cs).modifyHead (c :: ·)

variable {b} {p : Char → Bool} {depth : Nat} {cs : List Char}

@[simp] theorem depthFrom_nil : b.depthFrom depth [] = depth := rfl

@[simp] theorem depthFrom_cons (c : Char) :
    b.depthFrom depth (c :: cs) = b.depthFrom (b.step depth c) cs := rfl

theorem depthFrom_append (cs ds : List Char) :
    b.depthFrom depth (cs ++ ds) = b.depthFrom (b.depthFrom depth cs) ds := List.foldl_append

theorem step_of_isBracket {c : Char} (h : b.isBracket c = false) : b.step depth c = depth := by
  rw [isBracket, Bool.or_eq_false_iff] at h
  simp [step, h.1, h.2]

/-- Nothing is opened or closed without brackets. -/
theorem depthFrom_of_isBracket (h : ∀ c ∈ cs, b.isBracket c = false) :
    b.depthFrom depth cs = depth := by
  induction cs with
  | nil => rfl
  | cons c cs ih =>
    rw [List.forall_mem_cons] at h
    rw [depthFrom_cons, step_of_isBracket h.1]
    exact ih h.2

/-- What is no bracket does not count. -/
theorem depthFrom_filter {q : Char → Bool} (hq : ∀ c, q c = false → b.isBracket c = false) :
    b.depthFrom depth (cs.filter q) = b.depthFrom depth cs := by
  induction cs generalizing depth with
  | nil => rfl
  | cons c cs ih =>
    by_cases hc : q c = true
    · rw [List.filter_cons_of_pos hc, depthFrom_cons, depthFrom_cons, ih]
    · rw [List.filter_cons_of_neg hc, depthFrom_cons, ih,
        step_of_isBracket (hq c (by simpa using hc))]

theorem split_ne_nil : b.split p depth cs ≠ [] := by
  induction cs generalizing depth with
  | nil => simp [split]
  | cons c cs ih =>
    unfold split
    split
    · simp
    · simpa [List.modifyHead_eq_nil_iff] using ih

theorem exists_split (b : Brackets) (p : Char → Bool) (depth : Nat) (cs : List Char) :
    ∃ first rest, b.split p depth cs = first :: rest :=
  List.exists_cons_of_ne_nil split_ne_nil

theorem split_cons_separator {c : Char} (h : depth = 0 ∧ p c = true) :
    b.split p depth (c :: cs) = [] :: b.split p 0 cs := by
  simp [split, h]

theorem split_cons {c : Char} (h : ¬ (depth = 0 ∧ p c = true)) :
    b.split p depth (c :: cs) = (b.split p (b.step depth c) cs).modifyHead (c :: ·) := by
  simp only [split, h, if_false]

/-- Text without separators goes to the first piece. -/
theorem split_append {front : List Char} (h : ∀ c ∈ front, p c = false) (cs : List Char) :
    b.split p depth (front ++ cs) =
      (b.split p (b.depthFrom depth front) cs).modifyHead (front ++ ·) := by
  induction front generalizing depth with
  | nil =>
    obtain ⟨first, rest, hsplit⟩ := exists_split b p depth cs
    simp [hsplit]
  | cons c front ih =>
    rw [List.forall_mem_cons] at h
    obtain ⟨first, rest, hsplit⟩ := exists_split b p (b.depthFrom (b.step depth c) front) cs
    rw [List.cons_append, split_cons (by simp [h.1]), ih h.2, depthFrom_cons, hsplit]
    rfl

/-- Splitting outside of brackets first makes no difference to splitting everywhere. -/
theorem splitOnP_eq_flatMap_split (b : Brackets) (p : Char → Bool) (depth : Nat) (cs : List Char) :
    cs.splitOnP p = (b.split p depth cs).flatMap (List.splitOnP p) := by
  induction cs generalizing depth with
  | nil => simp [split]
  | cons c cs ih =>
    by_cases hc : depth = 0 ∧ p c = true
    · rw [split_cons_separator hc, List.splitOnP_cons_eq_if_modifyHead, if_pos hc.2, ih 0]
      simp
    · rw [split_cons hc, List.splitOnP_cons_eq_if_modifyHead, ih (b.step depth c)]
      obtain ⟨first, rest, hsplit⟩ := exists_split b p (b.step depth c) cs
      obtain ⟨f, fs, hfirst⟩ := List.exists_cons_of_ne_nil (List.splitOnP_ne_nil p first)
      rw [hsplit, List.modifyHead_cons, List.flatMap_cons, List.flatMap_cons,
        List.splitOnP_cons_eq_if_modifyHead, hfirst]
      split <;> rfl

/-- Splitting loses nothing but separators. -/
theorem length_split (b : Brackets) (depth : Nat) (cs : List Char) {q : Char → Bool}
    (hq : ∀ c, p c = true → q c = true) :
    ((b.split p depth cs).map fun piece => (piece.filter q).length).sum +
        (b.split p depth cs).length = (cs.filter q).length + 1 := by
  induction cs generalizing depth with
  | nil => simp [split]
  | cons c cs ih =>
    by_cases hc : depth = 0 ∧ p c = true
    · have hrest := ih 0
      rw [split_cons_separator hc, List.filter_cons_of_pos (hq c hc.2)]
      simp only [List.map_cons, List.sum_cons, List.filter_nil, List.length_nil, List.length_cons]
      omega
    · have hrest := ih (b.step depth c)
      obtain ⟨first, rest, hsplit⟩ := exists_split b p (b.step depth c) cs
      rw [split_cons hc]
      rw [hsplit] at hrest ⊢
      simp only [List.modifyHead_cons, List.map_cons, List.sum_cons, List.length_cons] at hrest ⊢
      by_cases hqc : q c = true
      · simp only [List.filter_cons_of_pos hqc, List.length_cons]
        omega
      · simp only [List.filter_cons_of_neg hqc]
        omega

/-- All separators stand where the number of open brackets satisfies `Q`. -/
def SeparatorsAt (b : Brackets) (p : Char → Bool) (Q : Nat → Prop) (depth : Nat)
    (cs : List Char) : Prop :=
  ∀ x c y, cs = x ++ c :: y → p c = true → Q (b.depthFrom depth x)

/-- All separators stand in brackets. -/
def Encloses (b : Brackets) (p : Char → Bool) : Nat → List Char → Prop := b.SeparatorsAt p (· ≠ 0)

/-- No separator stands in brackets. -/
def Separates (b : Brackets) (p : Char → Bool) : Nat → List Char → Prop := b.SeparatorsAt p (· = 0)

theorem separatorsAt_nil {Q : Nat → Prop} : b.SeparatorsAt p Q depth [] := by
  intro x c y heq
  simp at heq

theorem separatorsAt_cons {Q : Nat → Prop} {c : Char} :
    b.SeparatorsAt p Q depth (c :: cs) ↔
      (p c = true → Q depth) ∧ b.SeparatorsAt p Q (b.step depth c) cs := by
  constructor
  · intro h
    refine ⟨h [] c cs rfl, fun x d y hcs hd => ?_⟩
    exact h (c :: x) d y (by rw [hcs, List.cons_append]) hd
  · rintro ⟨hc, hcs⟩ x d y heq hd
    rcases List.cons_eq_append_iff.mp heq with ⟨rfl, hy⟩ | ⟨x, rfl, hx⟩
    · cases hy
      exact hc hd
    · exact hcs x d y hx hd

/-- What is left of the separators in a piece is enclosed. -/
theorem encloses_split {first : List Char} {rest : List (List Char)}
    (h : b.split p depth cs = first :: rest) :
    b.Encloses p depth first ∧ ∀ piece ∈ rest, b.Encloses p 0 piece := by
  induction cs generalizing depth first rest with
  | nil =>
    obtain ⟨rfl, rfl⟩ : [] = first ∧ [] = rest := by simpa [split] using h
    exact ⟨separatorsAt_nil, fun piece hpiece => absurd hpiece List.not_mem_nil⟩
  | cons c cs ih =>
    by_cases hc : depth = 0 ∧ p c = true
    · obtain ⟨second, more, hsplit⟩ := exists_split b p 0 cs
      rw [split_cons_separator hc, hsplit] at h
      obtain ⟨rfl, rfl⟩ := List.cons.inj h
      exact ⟨separatorsAt_nil, List.forall_mem_cons.mpr (ih hsplit)⟩
    · obtain ⟨first', rest', hsplit⟩ := exists_split b p (b.step depth c) cs
      rw [split_cons hc, hsplit, List.modifyHead_cons] at h
      obtain ⟨rfl, rfl⟩ := List.cons.inj h
      obtain ⟨hfirst, hrest⟩ := ih hsplit
      exact ⟨separatorsAt_cons.mpr ⟨fun hpc hdepth => hc ⟨hdepth, hpc⟩, hfirst⟩, hrest⟩

theorem encloses_of_mem_split {piece : List Char} (h : piece ∈ b.split p 0 cs) :
    b.Encloses p 0 piece := by
  obtain ⟨first, rest, hsplit⟩ := exists_split b p 0 cs
  rw [hsplit] at h
  exact List.forall_mem_cons.mpr (encloses_split hsplit) piece h

section

variable (hp : ∀ c, p c = true → b.isBracket c = false)
include hp

theorem closed_split {first : List Char} {rest : List (List Char)}
    (hsplit : b.split p depth cs = first :: rest) (h : b.depthFrom depth cs = 0) :
    b.depthFrom depth first = 0 ∧ ∀ piece ∈ rest, b.Closed piece := by
  induction cs generalizing depth first rest with
  | nil =>
    obtain ⟨rfl, rfl⟩ : [] = first ∧ [] = rest := by simpa [split] using hsplit
    exact ⟨h, fun piece hpiece => absurd hpiece List.not_mem_nil⟩
  | cons c cs ih =>
    by_cases hc : depth = 0 ∧ p c = true
    · obtain ⟨second, more, hmore⟩ := exists_split b p 0 cs
      rw [split_cons_separator hc, hmore] at hsplit
      obtain ⟨rfl, rfl⟩ := List.cons.inj hsplit
      rw [depthFrom_cons, step_of_isBracket (hp c hc.2), hc.1] at h
      exact ⟨hc.1, List.forall_mem_cons.mpr (ih hmore h)⟩
    · obtain ⟨first', rest', hmore⟩ := exists_split b p (b.step depth c) cs
      rw [split_cons hc, hmore, List.modifyHead_cons] at hsplit
      obtain ⟨rfl, rfl⟩ := List.cons.inj hsplit
      obtain ⟨hfirst, hrest⟩ := ih hmore h
      exact ⟨hfirst, hrest⟩

theorem closed_of_mem_split (h : b.Closed cs) {piece : List Char}
    (hpiece : piece ∈ b.split p 0 cs) : b.Closed piece := by
  obtain ⟨first, rest, hsplit⟩ := exists_split b p 0 cs
  rw [hsplit] at hpiece
  exact List.forall_mem_cons.mpr (closed_split hp hsplit h) piece hpiece

/-- The pieces are free of separators exactly if none of these stands in brackets. -/
theorem split_free_iff :
    (∀ piece ∈ b.split p depth cs, ∀ c ∈ piece, p c = false) ↔ b.Separates p depth cs := by
  induction cs generalizing depth with
  | nil =>
    have hnil : b.Separates p depth [] := separatorsAt_nil
    simp [split, hnil]
  | cons c cs ih =>
    rw [Separates, separatorsAt_cons, ← Separates]
    by_cases hc : depth = 0 ∧ p c = true
    · rw [split_cons_separator hc, step_of_isBracket (hp c hc.2), hc.1, ← ih]
      simp
    · obtain ⟨first, rest, hsplit⟩ := exists_split b p (b.step depth c) cs
      have hpc : (p c = true → depth = 0) ↔ p c = false := by
        cases hvalue : p c with
        | false => simp
        | true => simpa [hvalue] using hc
      rw [split_cons hc, ← ih, hsplit, List.modifyHead_cons, hpc]
      simp only [List.forall_mem_cons, and_assoc]

end

/-- Where no separator stands in brackets, the brackets make no difference. -/
theorem split_eq_splitOnP (h : ∀ piece ∈ b.split p depth cs, ∀ c ∈ piece, p c = false) :
    b.split p depth cs = cs.splitOnP p := by
  have hsingle : ∀ piece ∈ b.split p depth cs, piece.splitOnP p = [piece] := fun piece hpiece =>
    List.splitOnP_eq_singleton (h piece hpiece)
  rw [splitOnP_eq_flatMap_split b p depth cs, List.flatMap_congr hsingle]
  simp

/-- No brackets at all. -/
def none : Brackets where
  opens _ := false
  closes _ := false

theorem split_none (p : Char → Bool) (cs : List Char) : none.split p 0 cs = cs.splitOnP p := by
  apply split_eq_splitOnP
  rw [split_free_iff fun _ _ => rfl]
  intro x c y _ _
  exact depthFrom_of_isBracket fun _ _ => rfl

variable (b) in
/-- The pieces of a text between the characters that satisfy `p` and do not stand in brackets. -/
def pieces (p : Char → Bool) (s : String) : List String := (b.split p 0 s.toList).map String.ofList

variable (b) in
/-- The words of a text, which may hold blanks in brackets. -/
def words (s : String) : List String := (b.pieces Text.isBlank s).filter (! ·.isEmpty)

/-- Closed texts that were joined with a separator and a gap behind it come apart again. -/
theorem pieces_intercalate {separator gap : String} {c : Char}
    (hseparator : separator.toList = c :: gap.toList) (hc : p c = true)
    (hgap : ∀ c ∈ gap.toList, p c = false ∧ b.isBracket c = false) {t : String} {ts : List String}
    (h : ∀ u ∈ t :: ts, b.Closed u.toList ∧ ∀ c ∈ u.toList, p c = false) :
    b.pieces p (separator.intercalate (t :: ts)) = t :: ts.map (gap ++ ·) := by
  have hsplit : ∀ u : String, b.Closed u.toList ∧ (∀ c ∈ u.toList, p c = false) → ∀ ds,
      b.split p 0 (u.toList ++ ds) = (b.split p 0 ds).modifyHead (u.toList ++ ·) := by
    intro u hu ds
    rw [split_append hu.2, hu.1]
  induction ts generalizing t with
  | nil =>
    rw [List.forall_mem_singleton] at h
    have hone := hsplit t h []
    rw [List.append_nil] at hone
    simp [pieces, hone, split]
  | cons u ts ih =>
    have hrest : ∀ v ∈ (gap ++ u) :: ts, b.Closed v.toList ∧ ∀ c ∈ v.toList, p c = false := by
      rw [List.forall_mem_cons, List.forall_mem_cons] at h
      refine List.forall_mem_cons.mpr ⟨⟨?_, ?_⟩, h.2.2⟩
      · rw [String.toList_append, Closed, depthFrom_append,
          depthFrom_of_isBracket fun c hc => (hgap c hc).2]
        exact h.2.1.1
      · rw [String.toList_append, List.forall_mem_append]
        exact ⟨fun c hc => (hgap c hc).1, h.2.1.2⟩
    have hjoin : (separator.intercalate (t :: u :: ts)).toList =
        t.toList ++ c :: (separator.intercalate ((gap ++ u) :: ts)).toList := by
      rw [String.intercalate_cons_cons, String.intercalate_cons_append]
      simp only [String.toList_append, hseparator, List.append_assoc, List.cons_append]
    rw [List.map_cons, ← ih hrest]
    simp only [pieces, hjoin]
    rw [hsplit t (h t List.mem_cons_self), split_cons_separator ⟨rfl, hc⟩]
    simp

end Brackets

end GridCss
