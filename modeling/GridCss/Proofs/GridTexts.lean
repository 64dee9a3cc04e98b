import Mathlib.Data.List.Induction
import Mathlib.Tactic.Positivity
import Mathlib.Tactic.Ring
import GridCss.Grid
import GridCss.Proofs.LiteralTexts

/-!
# Grids as text

The text of a grid is read as the first two numbers in it, whatever else stands there. A number
counts by its whole part, and its fraction plays no part unless it comes so near to the next whole
number that this is the nearest floating-point number. With fewer than sixteen digits no fraction
does.
-/

namespace GridCss

namespace Number.Binary

/-- The least power of two above a number. -/
def powerAbove (n : Nat) : Nat := if n = 0 then 1 else 2 ^ (n.log2 + 1)

theorem powerAbove_le {n : Nat} (h : n < 16) : powerAbove n ≤ 16 := by
  unfold powerAbove
  split
  · decide
  · next hne =>
    have hlog : n.log2 < 4 := (Nat.log2_lt hne).mpr h
    exact Nat.pow_le_pow_right Nat.two_pos (by omega : n.log2 + 1 ≤ 4)

theorem divideEven_eq (n d : Nat) :
    divideEven n d =
      if d < 2 * (n % d) ∨ d = 2 * (n % d) ∧ n / d % 2 = 1 then n / d + 1 else n / d := by
  simp [divideEven]

theorem le_divideEven (n d : Nat) : n / d ≤ divideEven n d := by
  rw [divideEven_eq]
  split
  · exact Nat.le_succ _
  · exact Nat.le_refl _

/-- What is missing to the next multiple of `d`, in parts, against the remainder in parts. -/
theorem quotient_add_gap {n d P : Nat} (hd : 0 < d) :
    d * (n * P / d) + n * P % d + ((n / d + 1) * d - n) * P = (n / d + 1) * P * d := by
  have hlt : n < (n / d + 1) * d := by
    rw [Nat.mul_comm]
    exact Nat.lt_mul_div_succ n hd
  rw [Nat.div_add_mod, ← Nat.add_mul, Nat.add_sub_cancel' (Nat.le_of_lt hlt)]
  ring

/-- The nearest multiple of `1 / 2 ^ s` has the same whole part, unless it is the next whole number
itself. A half counts for the latter, as its numerator is even. -/
theorem divideEven_shift_div {n d s : Nat} (hd : 0 < d) (hs : 0 < s) :
    divideEven (n * 2 ^ s) d / 2 ^ s =
      if ((n / d + 1) * d - n) * 2 ^ (s + 1) ≤ d then n / d + 1 else n / d := by
  have hP : 0 < 2 ^ s := Nat.two_pow_pos s
  have hsum := @quotient_add_gap n d (2 ^ s) hd
  have hr : n * 2 ^ s % d < d := Nat.mod_lt _ hd
  have hwhole : n * 2 ^ s / d / 2 ^ s = n / d := by
    rw [Nat.div_div_eq_div_mul, Nat.mul_div_mul_right _ _ hP]
  have hlow : n / d * 2 ^ s ≤ n * 2 ^ s / d := by
    rw [← hwhole]
    exact Nat.div_mul_le_self _ _
  have hhigh : n * 2 ^ s / d < (n / d + 1) * 2 ^ s := by
    rw [← Nat.div_lt_iff_lt_mul hP, hwhole]
    exact Nat.lt_succ_self _
  have hodd : (n / d + 1) * 2 ^ s % 2 = 0 := by
    obtain ⟨t, rfl⟩ := Nat.exists_eq_succ_of_ne_zero (Nat.ne_of_gt hs)
    rw [Nat.pow_succ, ← Nat.mul_assoc]
    exact Nat.mul_mod_left _ _
  rw [divideEven_eq, Nat.pow_succ, ← Nat.mul_assoc]
  generalize ((n / d + 1) * d - n) * 2 ^ s = gap at hsum ⊢
  generalize n * 2 ^ s % d = r at hsum hr ⊢
  generalize n * 2 ^ s / d = q at hsum hwhole hlow hhigh ⊢
  generalize hnext : (n / d + 1) * 2 ^ s = next at hsum hhigh hodd
  by_cases hlast : q + 1 = next
  · -- The last multiple before the next whole number; the rest decides.
    have hgap : r + gap = d := by
      subst hlast
      rw [Nat.add_mul, Nat.one_mul, Nat.mul_comm q] at hsum
      omega
    by_cases hup : gap * 2 ≤ d
    · rw [if_pos hup, if_pos (by omega), hlast, ← hnext, Nat.mul_div_cancel _ hP]
    · rw [if_neg hup, if_neg (by omega), hwhole]
  · have hgap : d < gap := by
      have hmul : (q + 2) * d ≤ next * d := Nat.mul_le_mul_right d (by omega)
      rw [Nat.add_mul, Nat.mul_comm q] at hmul
      omega
    have hno : ¬ gap * 2 ≤ d := by omega
    rw [if_neg hno]
    refine Nat.div_eq_of_lt_le ?_ ?_
    · split <;> omega
    · rw [hnext]
      split <;> omega

/-- The whole part of the number nearest to a ratio, if its last place is behind the point. -/
theorem scaledTo_nearest_of_place {n d s : Nat} (hd : 0 < d) (hs : 0 < s)
    (h : max (leadingPlace n d - 52) (-1074) = -(s : Int)) :
    (nearest n d).scaledTo 0 =
      if ((n / d + 1) * d - n) * 2 ^ (s + 1) ≤ d then n / d + 1 else n / d := by
  have hnearest : nearest n d = ⟨false, divideEven (n * 2 ^ s) d, -(s : Int)⟩ := by
    simp [nearest, h, Nat.shiftLeft_eq]
  have hscaled : (nearest n d).scaledTo 0 = divideEven (n * 2 ^ s) d / 2 ^ s := by
    simp [hnearest, scaledTo, Nat.shiftRight_eq_div_pow, Nat.ne_of_gt hs]
  rw [hscaled, divideEven_shift_div hd hs]

theorem leadingPlace_of_le {n d : Nat} (h : d ≤ n) : leadingPlace n d = (n / d).log2 := if_pos h

/-- From one on the last place is fifty-two places behind the leading one. -/
theorem exists_place_of_le {n d : Nat} (h : d ≤ n) (hlog : (n / d).log2 < 52) :
    ∃ s : Nat, 0 < s ∧ s + (n / d).log2 = 52 ∧
      max (leadingPlace n d - 52) (-1074) = -(s : Int) := by
  refine ⟨52 - (n / d).log2, by omega, by omega, ?_⟩
  rw [leadingPlace_of_le h]
  omega

/-- Below one the last place is that of numbers from a half on, or the ratio is less than a half. -/
theorem exists_place_of_lt {n d : Nat} (h : n < d) :
    ∃ s : Nat, max (leadingPlace n d - 52) (-1074) = -(s : Int) ∧
      (s = 53 ∨ 53 < s ∧ 2 * n < d) := by
  have hplace : leadingPlace n d = -((((d - 1) / n).log2 : Int) + 1) := if_neg (Nat.not_le.mpr h)
  by_cases hlog : ((d - 1) / n).log2 = 0
  · refine ⟨53, ?_, .inl rfl⟩
    rw [hplace, hlog]
    decide
  · have hne : (d - 1) / n ≠ 0 := fun h0 => hlog (by rw [h0]; decide)
    have htwo : 2 ≤ (d - 1) / n := (Nat.le_log2 hne).mp (Nat.one_le_iff_ne_zero.mpr hlog)
    have hmul : 2 * n ≤ (d - 1) / n * n := Nat.mul_le_mul_right n htwo
    have hdiv : (d - 1) / n * n ≤ d - 1 := Nat.div_mul_le_self _ _
    refine ⟨min (((d - 1) / n).log2 + 53) 1074, ?_, .inr ⟨by omega, by omega⟩⟩
    omega

/-- The whole part of the number nearest to a ratio below sixteen. -/
theorem scaledTo_nearest {n d : Nat} (hd : 0 < d) (hw : n / d < 16) :
    (nearest n d).scaledTo 0 =
      if ((n / d + 1) * d - n) * 2 ^ 54 ≤ d * powerAbove (n / d) then n / d + 1 else n / d := by
  by_cases hle : d ≤ n
  · have hne : n / d ≠ 0 := Nat.ne_of_gt (Nat.div_pos hle hd)
    have hlog : (n / d).log2 < 4 := (Nat.log2_lt hne).mpr hw
    obtain ⟨s, hpos, hs, hplace⟩ := exists_place_of_le hle (by omega)
    have hpower : 2 ^ 54 = 2 ^ (s + 1) * 2 ^ ((n / d).log2 + 1) := by
      rw [← Nat.pow_add]
      congr 1
      omega
    rw [scaledTo_nearest_of_place hd hpos hplace, powerAbove, if_neg hne, hpower, ← Nat.mul_assoc]
    simp only [Nat.mul_le_mul_right_iff (Nat.two_pow_pos ((n / d).log2 + 1))]
  · rw [Nat.not_le] at hle
    obtain ⟨s, hplace, hs⟩ := exists_place_of_lt hle
    rw [scaledTo_nearest_of_place hd (by omega) hplace, Nat.div_eq_of_lt hle, powerAbove,
      if_pos rfl, Nat.zero_add, Nat.one_mul, Nat.mul_one]
    rcases hs with rfl | ⟨hs, hhalf⟩
    · rfl
    · have hfar : ∀ t, 1 ≤ t → ¬ (d - n) * 2 ^ t ≤ d := by
        intro t ht
        have hpow : 2 ^ 1 ≤ 2 ^ t := Nat.pow_le_pow_right Nat.two_pos ht
        have hmul := Nat.mul_le_mul_left (d - n) hpow
        omega
      rw [if_neg (hfar _ (by omega)), if_neg (hfar _ (by omega))]

/-- From sixteen on the whole part stays there. -/
theorem le_scaledTo_nearest {n d : Nat} (hd : 0 < d) (hw : 16 ≤ n / d) :
    16 ≤ (nearest n d).scaledTo 0 := by
  have hle : d ≤ n := (Nat.div_pos_iff.mp (by omega)).2
  have hne : n / d ≠ 0 := by omega
  by_cases hlog : (n / d).log2 < 52
  · obtain ⟨s, hpos, -, hplace⟩ := exists_place_of_le hle hlog
    rw [scaledTo_nearest_of_place hd hpos hplace]
    split <;> omega
  · obtain ⟨s, hs⟩ : ∃ s, (n / d).log2 = s + 52 := ⟨(n / d).log2 - 52, by omega⟩
    have hplace : max (leadingPlace n d - 52) (-1074) = (s : Int) := by
      rw [leadingPlace_of_le hle]
      omega
    have hquotient : 2 ^ 52 ≤ n / (d * 2 ^ s) := by
      rw [← Nat.div_div_eq_div_mul, Nat.le_div_iff_mul_le (Nat.two_pow_pos s), ← Nat.pow_add,
        Nat.add_comm, ← hs]
      exact Nat.log2_self_le hne
    have hmantissa := hquotient.trans (le_divideEven n (d * 2 ^ s))
    have hvalue : (nearest n d).scaledTo 0 = divideEven n (d * 2 ^ s) * 2 ^ s := by
      simp [nearest, hplace, scaledTo, Nat.shiftLeft_eq]
    rw [hvalue]
    calc 16 ≤ 2 ^ 52 * 1 := by decide
      _ ≤ divideEven n (d * 2 ^ s) * 2 ^ s := Nat.mul_le_mul hmantissa (Nat.two_pow_pos s)

end Number.Binary

namespace Literal

theorem natOfDigits_append (cs ds : List Char) :
    natOfDigits (cs ++ ds) = natOfDigits cs * 10 ^ ds.length + natOfDigits ds := by
  induction ds using List.reverseRecOn with
  | nil => simp [natOfDigits]
  | append_singleton ds d ih =>
    have hlast : ∀ cs, natOfDigits (cs ++ [d]) = 10 * natOfDigits cs + digitValue d := by
      intro cs
      rw [natOfDigits, List.foldl_append]
      rfl
    rw [← List.append_assoc, hlast, hlast, ih, List.length_append, List.length_singleton]
    ring

theorem digitValue_le {c : Char} (h : isDigit c = true) : digitValue c ≤ 9 := by
  simp only [isDigit, Char.isDigit, Bool.and_eq_true, decide_eq_true_eq, ge_iff_le,
    UInt32.le_iff_toNat_le] at h
  have hnine : '9'.val.toNat = 57 := rfl
  have hzero : '0'.toNat = 48 := rfl
  have hvalue : c.toNat = c.val.toNat := rfl
  rw [digitValue, hzero, hvalue]
  omega

theorem natOfDigits_lt {ds : List Char} (h : AreDigits ds) : natOfDigits ds < 10 ^ ds.length := by
  induction ds using List.reverseRecOn with
  | nil => decide
  | append_singleton ds d ih =>
    have hd := digitValue_le (h d (by simp))
    have hrest := ih fun c hc => h c (List.mem_append_left _ hc)
    have hlast : natOfDigits [d] = digitValue d := by simp [natOfDigits]
    rw [natOfDigits_append, hlast, List.length_append, List.length_singleton, Nat.pow_succ]
    omega

/-- Whether the fraction comes so near to the next whole number that the nearest floating-point
number is that number: the distance is at most `2 ^ (k - 54)` for the least power `2 ^ k` above the
whole part. -/
def roundsUp (l : Literal) : Bool :=
  (10 ^ l.fraction.length - natOfDigits l.fraction) * 2 ^ 54 ≤
    10 ^ l.fraction.length * Number.Binary.powerAbove (natOfDigits l.whole)

/-- The whole number that a literal without exponent counts as. -/
def wholePart (l : Literal) : Nat :=
  if l.roundsUp then natOfDigits l.whole + 1 else natOfDigits l.whole

/-- With a fraction of at most fifteen digits, only numbers from sixteen on may round up. -/
theorem le_of_roundsUp {l : Literal} (hfraction : AreDigits l.fraction)
    (hshort : l.fraction.length ≤ 15) (h : l.roundsUp = true) : 16 ≤ natOfDigits l.whole := by
  refine Nat.not_lt.mp fun hsmall => ?_
  have hscale : 10 ^ l.fraction.length ≤ 10 ^ 15 := Nat.pow_le_pow_right (by decide) hshort
  have hpower := Number.Binary.powerAbove_le hsmall
  have hbound : 10 ^ l.fraction.length * Number.Binary.powerAbove (natOfDigits l.whole) ≤
      10 ^ 15 * 16 := Nat.mul_le_mul hscale hpower
  have hgap := natOfDigits_lt hfraction
  rw [roundsUp, decide_eq_true_eq] at h
  omega

theorem mantissa_div {l : Literal} (h : AreDigits l.fraction) :
    l.mantissa / 10 ^ l.fraction.length = natOfDigits l.whole := by
  rw [mantissa, natOfDigits_append, Nat.add_comm, Nat.add_mul_div_right _ _ (by positivity),
    Nat.div_eq_of_lt (natOfDigits_lt h), Nat.zero_add]

end Literal

namespace Grid

open Literal Number

/-- An extent in bounds, or one that stands in for zero. -/
def axis (n fallback : Nat) : Nat := if n = 0 then fallback else min n 16

/-- A number asks for its whole part, up to sixteen. -/
theorem extent?_eq {l : Literal} (h : AreDigits l.fraction) :
    extent? l = if l.wholePart = 0 then none else some (min l.wholePart 16) := by
  have hscale : 0 < 10 ^ l.fraction.length := by positivity
  have hdiv := mantissa_div h
  by_cases hsmall : natOfDigits l.whole < 16
  · have hgap : (natOfDigits l.whole + 1) * 10 ^ l.fraction.length - l.mantissa =
        10 ^ l.fraction.length - natOfDigits l.fraction := by
      rw [mantissa, natOfDigits_append, Nat.add_mul, Nat.one_mul, Nat.add_sub_add_left]
    have hwhole : (Binary.nearest l.mantissa (10 ^ l.fraction.length)).scaledTo 0 =
        l.wholePart := by
      rw [Binary.scaledTo_nearest hscale (hdiv.symm ▸ hsmall), hdiv, hgap, wholePart, roundsUp]
      simp only [decide_eq_true_eq]
    rw [extent?, Nat.pow_eq, hwhole]
  · have hlarge : 16 ≤ l.wholePart := by
      unfold wholePart
      split <;> omega
    have hnearest := Binary.le_scaledTo_nearest hscale (hdiv.symm ▸ Nat.not_lt.mp hsmall)
    rw [extent?, Nat.pow_eq, if_neg (by omega), if_neg (by omega), Nat.min_eq_right hnearest,
      Nat.min_eq_right hlarge]

/-- The digits behind a point at the head of a text. -/
def fractionAt : List Char → List Char
  | '.' :: rest => rest.takeWhile isDigit
  | _ => []

theorem numbers_append {cs : List Char} (h : ∀ c ∈ cs, isDigit c = false) (rest : List Char) :
    numbers (cs ++ rest) = numbers rest := by
  induction cs with
  | nil => rfl
  | cons c cs ih =>
    rw [List.forall_mem_cons] at h
    rw [List.cons_append, numbers, if_neg (by simp [h.1])]
    exact ih h.2

theorem numbers_eq_nil {cs : List Char} (h : ∀ c ∈ cs, isDigit c = false) : numbers cs = [] := by
  have hnone := numbers_append h []
  rw [List.append_nil] at hnone
  rw [hnone, numbers]

theorem numbers_of_scanMantissa {c : Char} {cs rest : List Char} {l : Literal}
    (hc : isDigit c = true) (h : scanMantissa (c :: cs) = some (l, rest)) :
    numbers (c :: cs) = l :: numbers rest := by
  rw [numbers, if_pos hc]
  split
  · next l' rest' h' =>
    obtain ⟨rfl, rfl⟩ := Prod.mk.inj (Option.some.inj (h.symm.trans h'))
    rfl
  · next hnone => exact absurd (h.symm.trans hnone) (by simp)

theorem fractionAt_eq_nil {cs : List Char} (h : ∀ rest, cs ≠ '.' :: rest) : fractionAt cs = [] := by
  unfold fractionAt
  split
  · next rest => exact absurd rfl (h rest)
  · rfl

/-- Digits and the fraction behind them are one number. -/
theorem numbers_digits {ds : List Char} (h : AreDigits ds) (hne : ds ≠ []) {rest : List Char}
    (hrest : ∀ c ∈ rest.head?, isDigit c = false) :
    ∃ after, numbers (ds ++ rest) = ⟨ds, fractionAt rest, 0⟩ :: numbers after ∧
      (rest.head? ≠ some '.' → after = rest) := by
  have hdrop : rest.dropWhile isDigit = rest := by
    cases rest with
    | nil => rfl
    | cons c cs => exact List.dropWhile_cons_of_neg (by simp [hrest c rfl])
  have htake : (ds ++ rest).takeWhile isDigit = ds := by
    rw [List.takeWhile_append_of_pos h, takeWhile_digits_of_dropWhile hdrop, List.append_nil]
  have hafter : (ds ++ rest).dropWhile isDigit = rest := by
    rw [List.dropWhile_append_of_pos h, hdrop]
  have hscan : ∃ after, scanMantissa (ds ++ rest) = some (⟨ds, fractionAt rest, 0⟩, after) ∧
      (rest.head? ≠ some '.' → after = rest) := by
    by_cases hpoint : ∃ fraction, rest = '.' :: fraction
    · obtain ⟨fraction, rfl⟩ := hpoint
      refine ⟨fraction.dropWhile isDigit, ?_, fun hno => absurd rfl hno⟩
      rw [scanMantissa_of_point hafter (.inl (htake.symm ▸ hne)), htake, fractionAt]
    · rw [not_exists] at hpoint
      refine ⟨rest, ?_, fun _ => rfl⟩
      rw [scanMantissa_of_whole (hafter.symm ▸ hpoint) (htake.symm ▸ hne), htake, hafter,
        fractionAt_eq_nil hpoint]
  obtain ⟨after, hfound, heq⟩ := hscan
  obtain ⟨c, cs, rfl⟩ := List.exists_cons_of_ne_nil hne
  exact ⟨after, numbers_of_scanMantissa (h c List.mem_cons_self) hfound, heq⟩

/-- The first number ends at a character that is neither a digit nor a point. -/
theorem numbers_first {before ds rest : List Char} (hbefore : ∀ c ∈ before, isDigit c = false)
    (hds : AreDigits ds) (hne : ds ≠ []) (hrest : ∀ c ∈ rest.head?, isDigit c = false)
    (hpoint : rest.head? ≠ some '.') :
    numbers (before ++ (ds ++ rest)) = ⟨ds, [], 0⟩ :: numbers rest := by
  obtain ⟨after, heq, hafter⟩ := numbers_digits hds hne hrest
  have hfraction : fractionAt rest = [] :=
    fractionAt_eq_nil fun fraction h => hpoint (by rw [h]; rfl)
  rw [numbers_append hbefore, heq, hafter hpoint, hfraction]

theorem areDigits_fractionAt (cs : List Char) : AreDigits (fractionAt cs) := by
  unfold fractionAt
  split
  · exact areDigits_takeWhile _
  · exact List.forall_mem_nil _

theorem clampExtent_extent? {l : Literal} (h : AreDigits l.fraction) :
    clampExtent ((extent? l).getD 1) = axis l.wholePart 1 := by
  rw [extent?_eq h, clampExtent, axis]
  split
  · rfl
  · rw [Option.getD_some]
    omega

/-- A grid with one number has its extent on both axes. -/
theorem parse_of_number {text : String} {l : Literal} (h : numbers text.toList = [l])
    (hl : AreDigits l.fraction) :
    (parse text).rows = axis l.wholePart 1 ∧ (parse text).cols = axis l.wholePart 1 := by
  have hparse : parse text = ofExtents ((extent? l).getD 1) ((extent? l).getD 1) := by
    simp only [parse, h]
  rw [hparse]
  exact ⟨clampExtent_extent? hl, clampExtent_extent? hl⟩

/-- The first number gives the rows and the second one the columns; one stands in for zero rows, and
the rows for zero columns. -/
theorem parse_of_numbers {text : String} {l l' : Literal} {more : List Literal}
    (h : numbers text.toList = l :: l' :: more) (hl : AreDigits l.fraction)
    (hl' : AreDigits l'.fraction) :
    (parse text).rows = axis l.wholePart 1 ∧
      (parse text).cols = axis l'.wholePart (axis l.wholePart 1) := by
  have hparse : parse text =
      ofExtents ((extent? l).getD 1) (((extent? l').or (extent? l)).getD 1) := by
    simp only [parse, h]
  have hrows : clampExtent ((extent? l).getD 1) = axis l.wholePart 1 := clampExtent_extent? hl
  refine ⟨by rw [hparse]; exact hrows, ?_⟩
  have hcols : clampExtent (((extent? l').or (extent? l)).getD 1) =
      axis l'.wholePart (axis l.wholePart 1) := by
    rw [extent?_eq hl', axis]
    split
    · rw [Option.none_or, hrows]
    · rw [Option.some_or, Option.getD_some, clampExtent]
      omega
  rw [hparse]
  exact hcols

/-- Rounding up shows exactly if the next whole number is another extent. -/
theorem axis_wholePart_iff (l : Literal) (fallback : Nat) :
    axis l.wholePart fallback = axis (natOfDigits l.whole) fallback ↔
      (l.roundsUp = true → 16 ≤ natOfDigits l.whole ∨ natOfDigits l.whole = 0 ∧ fallback = 1) := by
  unfold wholePart axis
  cases l.roundsUp with
  | false => simp
  | true =>
    simp only [if_true, forall_const, Nat.add_eq_zero_iff, Nat.one_ne_zero, and_false, if_false]
    split <;> omega

theorem axis_wholePart_of_short {l : Literal} (hfraction : AreDigits l.fraction)
    (hshort : l.fraction.length ≤ 15) (fallback : Nat) :
    axis l.wholePart fallback = axis (natOfDigits l.whole) fallback :=
  (axis_wholePart_iff l fallback).mpr fun hup => .inl (le_of_roundsUp hfraction hshort hup)

/-- The first two numbers in a text are the rows and the columns, whatever stands before, between
and behind them, and however many digits they have. The rows, and the columns of a text with one
number, are given by the digits. The columns are given by the digits too, if the fraction behind
them does not round up to the next whole number or this does not show; it never does with fewer than
sixteen digits. -/
theorem parse_first_numbers (pre ds₁ mid ds₂ post : String)
    (hpre : ∀ c ∈ pre.toList, isDigit c = false)
    (hds₁ : AreDigits ds₁.toList) (hne₁ : ds₁ ≠ "")
    (hmid : ∀ c ∈ mid.toList, isDigit c = false) (hne : mid ≠ "")
    (hpoint : mid.toList.head? ≠ some '.')
    (hds₂ : AreDigits ds₂.toList) (hne₂ : ds₂ ≠ "")
    (hpost : ∀ c ∈ post.toList.head?, isDigit c = false) :
    let v₁ := natOfDigits ds₁.toList
    let v₂ := natOfDigits ds₂.toList
    let number : Literal := ⟨ds₂.toList, fractionAt post.toList, 0⟩
    let rows := axis v₁ 1
    let grid := parse (pre ++ ds₁ ++ mid ++ ds₂ ++ post)
    grid.rows = rows ∧ grid.cols = axis number.wholePart rows ∧
    (grid.cols = axis v₂ rows ↔ (number.roundsUp = true → 16 ≤ v₂ ∨ v₂ = 0 ∧ rows = 1)) ∧
    ((fractionAt post.toList).length ≤ 15 → grid.cols = axis v₂ rows) ∧
    (parse (pre ++ ds₁ ++ mid)).rows = rows ∧ (parse (pre ++ ds₁ ++ mid)).cols = rows ∧
    (parse (pre ++ ds₁)).rows = rows ∧ (parse (pre ++ ds₁)).cols = rows := by
  intro v₁ v₂ number rows grid
  have hds₁' : ds₁.toList ≠ [] := by simpa using hne₁
  have hds₂' : ds₂.toList ≠ [] := by simpa using hne₂
  obtain ⟨c, cs, hcs⟩ := List.exists_cons_of_ne_nil (by simpa using hne : mid.toList ≠ [])
  have hhead : ∀ rest, (mid.toList ++ rest).head? = mid.toList.head? := by
    intro rest
    rw [hcs]
    rfl
  have hdigit : ∀ c ∈ mid.toList.head?, isDigit c = false :=
    fun c hc => hmid c (List.mem_of_mem_head? hc)
  -- Two numbers, one with text behind it, and one alone.
  obtain ⟨after, hsecond, -⟩ := numbers_digits hds₂ hds₂' hpost
  have htwo : numbers (pre ++ ds₁ ++ mid ++ ds₂ ++ post).toList =
      ⟨ds₁.toList, [], 0⟩ :: number :: numbers after := by
    simp only [String.toList_append, List.append_assoc]
    rw [numbers_first hpre hds₁ hds₁' (hhead _ ▸ hdigit) (hhead _ ▸ hpoint), numbers_append hmid,
      hsecond]
  have hone : numbers (pre ++ ds₁ ++ mid).toList = [⟨ds₁.toList, [], 0⟩] := by
    simp only [String.toList_append, List.append_assoc]
    rw [numbers_first hpre hds₁ hds₁' hdigit hpoint, numbers_eq_nil hmid]
  have halone : numbers (pre ++ ds₁).toList = [⟨ds₁.toList, [], 0⟩] := by
    have hend := @numbers_first _ _ [] hpre hds₁ hds₁' (by simp) (by simp)
    rwa [List.append_nil, numbers, ← String.toList_append] at hend
  have hnone : AreDigits ([] : List Char) := List.forall_mem_nil _
  have hfraction := areDigits_fractionAt post.toList
  have haxis : axis (wholePart ⟨ds₁.toList, [], 0⟩) 1 = rows :=
    axis_wholePart_of_short hnone (Nat.zero_le _) 1
  obtain ⟨hrows, hcols⟩ := parse_of_numbers htwo hnone hfraction
  have hmid' := parse_of_number hone hnone
  have halone' := parse_of_number halone hnone
  rw [haxis] at hrows hcols hmid' halone'
  refine ⟨hrows, hcols, ?_, fun hshort => ?_, hmid'.1, hmid'.2, halone'⟩
  · rw [hcols]
    exact axis_wholePart_iff number rows
  · rw [hcols]
    exact axis_wholePart_of_short hfraction hshort rows

/-- A number beyond sixteen, one with leading zeros and a fraction, and another one behind them. -/
theorem parse_first_numbers_fraction :
    let grid := parse ("~" ++ "40" ++ " × " ++ "03" ++ ".75/9")
    grid.rows = 16 ∧ grid.cols = 3 ∧
    (parse ("~" ++ "40" ++ " × ")).cols = 16 ∧ (parse ("~" ++ "40")).cols = 16 := by
  intro grid
  obtain ⟨hrows, -, -, hshort, -, hmid, -, halone⟩ :=
    parse_first_numbers "~" "40" " × " "03" ".75/9" (by simp [isDigit])
      (by simp [AreDigits, isDigit]) (by decide) (by simp [isDigit]) (by decide) (by decide)
      (by simp [AreDigits, isDigit]) (by decide) (by simp [isDigit])
  exact ⟨hrows, hshort (by decide), hmid, halone⟩

/-- The fraction of the columns is not cut off: they are four, not three. -/
theorem parse_rounds_up :
    (parse ("" ++ "2" ++ "x" ++ "3" ++ ".99999999999999999999")).cols = 4 ∧
      axis (natOfDigits "3".toList) (axis (natOfDigits "2".toList) 1) = 3 := by
  decide +kernel

end Grid

end GridCss
