import Mathlib
import GridCss.Number.Binary

/-!
# Exact remainders

A finite floating-point number is unpacked into a sign, a mantissa and an exponent, and these are
the parts that are read off its bits. Conversely, parts with at most 53 digits are those of a
number, up to a shift that leaves the value alone. The remainder of two numbers has no more digits
than one of them, so that it is a number itself and nothing is rounded.
-/

namespace GridCss.Number

open Float.Model

namespace Binary

def sign (b : Binary) : UnpackedFloat.Sign := if b.negative then .negative else .positive

def unpacked (b : Binary) : UnpackedFloat :=
  if h : b.mantissa = 0 then .zero b.sign
  else .finite b.sign b.mantissa b.exponent (Nat.pos_of_ne_zero h)

/-- Parts that bits can hold: the leading one of 53 digits is set, or the exponent is the least. -/
structure Stored (b : Binary) : Prop where
  mantissa : b.mantissa < 2 ^ 53
  least : -1074 ≤ b.exponent
  greatest : b.exponent ≤ 971
  leading : 2 ^ 52 ≤ b.mantissa ∨ b.exponent = -1074

theorem leadingBit_eq : leadingBit = 2 ^ 52 := rfl

section

variable (bits : Nat)

theorem negative_ofBits : (ofBits bits).negative = (bits / 2 ^ 63 == 1) := by
  unfold ofBits
  rw [leadingBit_eq]
  dsimp only
  split_ifs <;> simp [Nat.div_div_eq_div_mul]

theorem mantissa_ofBits : (ofBits bits).mantissa =
    if bits / 2 ^ 52 % 2048 = 0 then bits % 2 ^ 52 else bits % 2 ^ 52 + 2 ^ 52 := by
  unfold ofBits
  rw [leadingBit_eq]
  dsimp only
  split_ifs <;> rfl

theorem exponent_ofBits : (ofBits bits).exponent =
    if bits / 2 ^ 52 % 2048 = 0 then -1074 else ((bits / 2 ^ 52 % 2048 : Nat) : Int) - 1075 := by
  unfold ofBits
  rw [leadingBit_eq]
  dsimp only
  split_ifs <;> rfl

end

theorem stored_ofBits {bits : Nat} (h : bits / 2 ^ 52 % 2048 ≠ 2047) : (ofBits bits).Stored := by
  constructor
  all_goals
    simp only [mantissa_ofBits, exponent_ofBits]
    split_ifs <;> omega

section

variable (b : BitVec 64)

theorem toNat_unpackMantissa :
    (@UnpackedFloat.unpackMantissa Format.binary64 b).toNat = b.toNat % 2 ^ 52 := by
  simp [UnpackedFloat.unpackMantissa]

theorem toNat_unpackExponent :
    (@UnpackedFloat.unpackExponent Format.binary64 b).toNat = b.toNat / 2 ^ 52 % 2048 := by
  simp [UnpackedFloat.unpackExponent, Nat.shiftRight_eq_div_pow]

theorem unpackExponent_eq_iff : @UnpackedFloat.unpackExponent Format.binary64 b = -1#11 ↔
    b.toNat / 2 ^ 52 % 2048 = 2047 := by
  rw [← BitVec.toNat_inj, toNat_unpackExponent]
  rfl

theorem ofBitVec_unpackSign :
    UnpackedFloat.Sign.ofBitVec (@UnpackedFloat.unpackSign Format.binary64 b) =
      (ofBits b.toNat).sign := by
  have hsign : (@UnpackedFloat.unpackSign Format.binary64 b).toNat = b.toNat / 2 ^ 63 := by
    have hb := b.isLt
    simp [UnpackedFloat.unpackSign, Nat.shiftRight_eq_div_pow]
    omega
  have hzero : @UnpackedFloat.unpackSign Format.binary64 b = 0#1 ↔ b.toNat / 2 ^ 63 = 0 := by
    rw [← BitVec.toNat_inj, hsign]
    rfl
  have hb := b.isLt
  simp only [sign, negative_ofBits, UnpackedFloat.Sign.ofBitVec, hzero, beq_iff_eq]
  split_ifs
  · omega
  · rfl
  · rfl
  · omega

end

theorem finite_congr {s s' : UnpackedFloat.Sign} {m m' : Nat} {e e' : Int} {h : 0 < m} {h' : 0 < m'}
    (hs : s = s') (hm : m = m') (he : e = e') :
    UnpackedFloat.finite s m e h = UnpackedFloat.finite s' m' e' h' := by
  subst hs hm he
  rfl

/-- The parts are those that the number is unpacked into. -/
theorem unpack_eq {b : BitVec 64} (h : b.toNat / 2 ^ 52 % 2048 ≠ 2047) :
    UnpackedFloat.unpack Format.binary64 b = (ofBits b.toNat).unpacked := by
  have hm := toNat_unpackMantissa b
  have he := toNat_unpackExponent b
  have hs := ofBitVec_unpackSign b
  have hexp := mt (unpackExponent_eq_iff b).mp h
  have h0 : @UnpackedFloat.unpackExponent Format.binary64 b = 0#11 ↔
      b.toNat / 2 ^ 52 % 2048 = 0 := by
    rw [← BitVec.toNat_inj, he, BitVec.toNat_ofNat, Nat.zero_mod]
  have hm0 : @UnpackedFloat.unpackMantissa Format.binary64 b = 0#52 ↔ b.toNat % 2 ^ 52 = 0 := by
    rw [← BitVec.toNat_inj, hm, BitVec.toNat_ofNat, Nat.zero_mod]
  have hlead : (1#1 ++ @UnpackedFloat.unpackMantissa Format.binary64 b).toNat =
      b.toNat % 2 ^ 52 + 2 ^ 52 := by
    rw [BitVec.toNat_append, ← Nat.shiftLeft_add_eq_or_of_lt (BitVec.isLt _), hm, Nat.add_comm]
    rfl
  have hmantissa := mantissa_ofBits b.toNat
  have hexponent := exponent_ofBits b.toNat
  unfold UnpackedFloat.unpack unpacked
  dsimp only
  rw [if_neg hexp, hs]
  by_cases hsub : b.toNat / 2 ^ 52 % 2048 = 0
  · rw [if_pos hsub] at hmantissa hexponent
    rw [if_pos (h0.mpr hsub)]
    by_cases hzero : b.toNat % 2 ^ 52 = 0
    · rw [dif_pos (hm0.mpr hzero), dif_pos (hmantissa.trans hzero)]
    · rw [dif_neg (mt hm0.mp hzero), dif_neg (hmantissa ▸ hzero)]
      refine finite_congr rfl (hm.trans hmantissa.symm) ?_
      rw [hexponent, he, hsub]
      rfl
  · rw [if_neg hsub] at hmantissa hexponent
    rw [if_neg (mt h0.mp hsub), dif_neg (by omega)]
    refine finite_congr rfl (hlead.trans hmantissa.symm) ?_
    rw [hexponent, he]
    rfl

/-- The bits of a number that can be stored. -/
def word (b : Binary) : Nat :=
  (if b.negative then 2 ^ 63 else 0) +
    if b.mantissa < 2 ^ 52 then b.mantissa
    else (b.exponent + 1075).toNat * 2 ^ 52 + (b.mantissa - 2 ^ 52)

variable {b : Binary}

theorem Stored.exponent_word (hb : b.Stored) : b.word / 2 ^ 52 % 2048 =
    if b.mantissa < 2 ^ 52 then 0 else (b.exponent + 1075).toNat := by
  obtain ⟨hmantissa, hleast, hgreatest, hleading⟩ := hb
  unfold word
  split_ifs <;> omega

/-- The leading bit of the mantissa adds to the stored exponent. -/
theorem Stored.min_eq_word (hb : b.Stored) (hnegative : b.negative = false) :
    min ((b.exponent + 1074).toNat * leadingBit + b.mantissa) (2047 * leadingBit) = b.word := by
  obtain ⟨hmantissa, hleast, hgreatest, hleading⟩ := hb
  rw [leadingBit_eq, Nat.min_eq_left (by omega), word, hnegative]
  simp only [Bool.false_eq_true, if_false]
  split_ifs <;> omega

theorem Stored.ofBits_word (hb : b.Stored) : ofBits b.word = b := by
  have hexponent := hb.exponent_word
  obtain ⟨hmantissa, hleast, hgreatest, hleading⟩ := hb
  have hnegative' : (b.word / 2 ^ 63 == 1) = b.negative := by
    unfold word
    cases b.negative <;> simp <;> split_ifs <;> omega
  have hfraction : b.word % 2 ^ 52 =
      if b.mantissa < 2 ^ 52 then b.mantissa else b.mantissa - 2 ^ 52 := by
    unfold word
    split_ifs <;> omega
  have hparts : ∀ b' : Binary, b'.negative = b.negative → b'.mantissa = b.mantissa →
      b'.exponent = b.exponent → b' = b := by
    rintro ⟨_, _, _⟩ rfl rfl rfl
    rfl
  refine hparts _ ((negative_ofBits _).trans hnegative') ?_ ?_
  · rw [mantissa_ofBits, hexponent, hfraction]
    split_ifs <;> omega
  · rw [exponent_ofBits, hexponent]
    split_ifs <;> omega

theorem Stored.exponent_word_ne (hb : b.Stored) : b.word / 2 ^ 52 % 2048 ≠ 2047 := by
  have hgreatest := hb.greatest
  rw [hb.exponent_word]
  split_ifs <;> omega

theorem Stored.word_lt (hb : b.Stored) : b.word < 2 ^ 64 := by
  obtain ⟨hmantissa, hleast, hgreatest, hleading⟩ := hb
  unfold word
  split_ifs <;> omega

/-- What can be stored is stored as it is. -/
theorem Stored.unpack_pack (hb : b.Stored) : (pack b.unpacked).unpack = b.unpacked := by
  have htoNat : (BitVec.ofNat 64 b.word).toNat = b.word := Nat.mod_eq_of_lt hb.word_lt
  have hfield := htoNat.symm ▸ hb.exponent_word_ne
  have hunpack := unpack_eq hfield
  rw [htoNat, hb.ofBits_word] at hunpack
  have hpack : UnpackedFloat.pack Format.binary64 b.unpacked = BitVec.ofNat 64 b.word := by
    rw [← hunpack, UnpackedFloat.pack_unpack _ (by decide), if_neg]
    intro hnan
    exact mt (unpackExponent_eq_iff _).mp hfield (of_decide_eq_true hnan).1
  exact (congrArg (UnpackedFloat.unpack Format.binary64) hpack).trans hunpack

theorem unpack_ofBits {u : UInt64} (h : u.toNat / 2 ^ 52 % 2048 ≠ 2047) :
    (Float.ofBits u).toModel.unpack = (ofBits u.toNat).unpacked := by
  have hunpack : (Float.ofBits u).toModel = pack (ofBits u.toNat).unpacked :=
    congrArg pack (unpack_eq h)
  rw [hunpack]
  exact (stored_ofBits h).unpack_pack

theorem Stored.unpack_ofBits_word (hb : b.Stored) :
    (Float.ofBits (UInt64.ofNat b.word)).toModel.unpack = b.unpacked := by
  have htoNat : (UInt64.ofNat b.word).toNat = b.word := UInt64.toNat_ofNat_of_lt hb.word_lt
  have hunpack := @unpack_ofBits (UInt64.ofNat b.word) (htoNat.symm ▸ hb.exponent_word_ne)
  rwa [htoNat, hb.ofBits_word] at hunpack

/-- A finite number is unpacked into its parts. -/
theorem unpack_of_isFinite {x : Float} (h : x.isFinite = true) :
    x.toModel.unpack = (ofFloat x).unpacked ∧ (ofFloat x).Stored := by
  have hexponent : x.toBits.toNat / 2 ^ 52 % 2048 ≠ 2047 := by
    intro hfield
    have hall := (unpackExponent_eq_iff x.toModel.toBits.toBitVec).mpr hfield
    have hinfinite : x.toModel.unpack.isFinite = false := by
      unfold unpack UnpackedFloat.unpack
      dsimp only
      rw [if_pos hall]
      split_ifs <;> rfl
    exact absurd (h.symm.trans hinfinite) (by decide)
  exact ⟨unpack_eq hexponent, stored_ofBits hexponent⟩

theorem unpack_neg {x : Float} (hb : b.Stored) (hx : x.toModel.unpack = b.unpacked) :
    (-x).toModel.unpack = Binary.unpacked { b with negative := !b.negative } := by
  have hneg : b.unpacked.neg = Binary.unpacked { b with negative := !b.negative } := by
    obtain ⟨negative, mantissa, exponent⟩ := b
    unfold unpacked
    dsimp only
    split_ifs <;> cases negative <;> rfl
  have hmodel : (-x).toModel = pack (Binary.unpacked { b with negative := !b.negative }) := by
    rw [← hneg, ← hx]
    rfl
  rw [hmodel]
  exact Stored.unpack_pack ⟨hb.mantissa, hb.least, hb.greatest, hb.leading⟩

/-- The exact magnitude, in units of the least positive number. -/
def magnitude (b : Binary) : Nat := b.mantissa * 2 ^ (b.exponent + 1074).toNat

theorem stored_zero (negative : Bool) : Stored ⟨negative, 0, -1074⟩ := by
  constructor <;> simp

/-- The same number with the leading one of 53 digits set, or with the least exponent. -/
def shifted (b : Binary) : Binary :=
  let place := max (b.exponent + b.mantissa.log2 - 52) (-1074)
  ⟨b.negative, b.mantissa <<< (b.exponent - place).toNat, place⟩

theorem log2_mantissa_le (hzero : b.mantissa ≠ 0) (hmantissa : b.mantissa < 2 ^ 53) :
    b.mantissa.log2 ≤ 52 :=
  Nat.le_of_lt_succ ((Nat.log2_lt hzero).mpr hmantissa)

theorem stored_shifted (hzero : b.mantissa ≠ 0) (hmantissa : b.mantissa < 2 ^ 53)
    (hgreatest : b.exponent ≤ 971) : b.shifted.Stored := by
  have hlog := log2_mantissa_le hzero hmantissa
  have hlow := Nat.log2_self_le hzero
  have hhigh : b.mantissa < 2 ^ (b.mantissa.log2 + 1) := Nat.lt_log2_self
  unfold shifted
  generalize b.mantissa.log2 = k at hlog hlow hhigh ⊢
  dsimp only
  rw [Nat.shiftLeft_eq]
  by_cases hplace : -1074 ≤ b.exponent + k - 52
  · have hshift : (b.exponent - (b.exponent + k - 52)).toNat = 52 - k := by omega
    have hlow' : 2 ^ k * 2 ^ (52 - k) = 2 ^ 52 := by
      rw [← Nat.pow_add, Nat.add_sub_of_le hlog]
    have hhigh' : 2 ^ (k + 1) * 2 ^ (52 - k) = 2 ^ 53 := by
      rw [Nat.pow_succ, Nat.mul_right_comm, hlow', ← Nat.pow_succ]
    rw [max_eq_left hplace, hshift]
    refine ⟨?_, hplace, by dsimp only; omega, .inl ?_⟩
    · exact hhigh' ▸ Nat.mul_lt_mul_of_pos_right hhigh (Nat.two_pow_pos _)
    · exact hlow' ▸ Nat.mul_le_mul_right _ hlow
  · rw [max_eq_right (by omega)]
    refine ⟨?_, le_refl _, by dsimp only; omega, .inr rfl⟩
    calc b.mantissa * 2 ^ (b.exponent - -1074).toNat
        < 2 ^ (k + 1) * 2 ^ (b.exponent - -1074).toNat :=
          Nat.mul_lt_mul_of_pos_right hhigh (Nat.two_pow_pos _)
      _ = 2 ^ (k + 1 + (b.exponent - -1074).toNat) := (Nat.pow_add ..).symm
      _ ≤ 2 ^ 53 := Nat.pow_le_pow_right (by decide) (by omega)

theorem magnitude_shifted (hzero : b.mantissa ≠ 0) (hmantissa : b.mantissa < 2 ^ 53)
    (hleast : -1074 ≤ b.exponent) : b.shifted.magnitude = b.magnitude := by
  have hlog := log2_mantissa_le hzero hmantissa
  unfold shifted magnitude
  dsimp only
  rw [Nat.shiftLeft_eq, Nat.mul_assoc, ← Nat.pow_add]
  congr 2
  omega

theorem unpack_toFloat_of_ne (hzero : b.mantissa ≠ 0) (hmantissa : b.mantissa < 2 ^ 53)
    (hleast : -1074 ≤ b.exponent) (hgreatest : b.exponent ≤ 971) :
    b.toFloat.toModel.unpack = b.shifted.unpacked := by
  have hlog := log2_mantissa_le hzero hmantissa
  have hstored := stored_shifted hzero hmantissa hgreatest
  -- the same number without its sign
  let p : Binary := { b.shifted with negative := false }
  have hp : p.Stored := ⟨hstored.mantissa, hstored.least, hstored.greatest, hstored.leading⟩
  have hpositive := hp.unpack_ofBits_word
  have hplace : max (b.exponent + b.mantissa.log2 - 52) (-1074) ≤ b.exponent := by omega
  have htoFloat : b.toFloat =
      if b.negative then -Float.ofBits (UInt64.ofNat p.word)
      else Float.ofBits (UInt64.ofNat p.word) := by
    rw [← hp.min_eq_word rfl]
    unfold toFloat
    dsimp only
    rw [if_neg hzero, if_pos hplace]
    rfl
  have hsign : b.shifted = { p with negative := b.negative } := rfl
  rw [htoFloat, hsign]
  cases b.negative with
  | false => exact hpositive
  | true => exact unpack_neg hp hpositive

/-- Parts with few digits are those of a number, up to a shift. -/
theorem unpack_toFloat (hmantissa : b.mantissa < 2 ^ 53) (hleast : -1074 ≤ b.exponent)
    (hgreatest : b.exponent ≤ 971) :
    ∃ c : Binary, c.Stored ∧ c.negative = b.negative ∧ c.magnitude = b.magnitude ∧
      b.toFloat.toModel.unpack = c.unpacked := by
  by_cases hzero : b.mantissa = 0
  · refine ⟨⟨b.negative, 0, -1074⟩, stored_zero _, rfl, ?_, ?_⟩
    · simp [magnitude, hzero]
    · have hpositive : (0 : Float).toModel.unpack = Binary.unpacked ⟨false, 0, -1074⟩ := rfl
      unfold toFloat
      dsimp only
      rw [if_pos hzero]
      cases b.negative with
      | false => exact hpositive
      | true => exact unpack_neg (stored_zero _) hpositive
  · exact ⟨b.shifted, stored_shifted hzero hmantissa hgreatest, rfl,
      magnitude_shifted hzero hmantissa hleast,
      unpack_toFloat_of_ne hzero hmantissa hleast hgreatest⟩

def signed (b : Binary) : Int := if b.negative then -(b.magnitude : Int) else b.magnitude

theorem natAbs_signed (b : Binary) : b.signed.natAbs = b.magnitude := by
  unfold signed
  split_ifs <;> simp

theorem scaledTo_of_le {e : Int} (h : e ≤ b.exponent) :
    b.scaledTo e = b.mantissa * 2 ^ (b.exponent - e).toNat := by
  rw [scaledTo, if_pos h, Nat.shiftLeft_eq]

theorem magnitude_eq {e : Int} (hleast : -1074 ≤ e) (h : e ≤ b.exponent) :
    b.magnitude = b.scaledTo e * 2 ^ (e + 1074).toNat := by
  rw [scaledTo_of_le h, Nat.mul_assoc, ← Nat.pow_add, magnitude]
  congr 2
  omega

/-- A division of magnitudes, with the sign of the remainder that of the dividend. -/
theorem exists_quotient {a b c : Binary} {m n u : Nat} (ha : a.magnitude = m * u)
    (hb : b.magnitude = n * u) (hc : c.magnitude = m % n * u) (hsign : c.negative = a.negative) :
    ∃ q : Int, a.signed = q * b.signed + c.signed := by
  have hdivision : m = n * (m / n) + m % n := (Nat.div_add_mod m n).symm
  refine ⟨if a.negative = b.negative then (m / n : Nat) else -(m / n : Nat), ?_⟩
  rw [signed, signed, signed, hsign, ha, hb, hc]
  generalize m / n = q at hdivision ⊢
  generalize m % n = r at hdivision ⊢
  subst hdivision
  push_cast
  cases a.negative <;> cases b.negative <;> simp <;> ring

end Binary

/-- The exact value of a finite number, in units of the least positive one. -/
def units (x : Float) : Int :=
  match x.toModel.unpack with
  | .finite .positive mantissa exponent _ => mantissa * 2 ^ (exponent + 1074).toNat
  | .finite .negative mantissa exponent _ => -(mantissa * 2 ^ (exponent + 1074).toNat)
  | .zero _ | .infinity _ | .notANumber => 0

/-- Zeros have a sign as well. -/
def isNegative (x : Float) : Bool :=
  match x.toModel.unpack with
  | .finite .negative .. | .zero .negative | .infinity .negative => true
  | _ => false

/-- One number is the remainder of another in a division that cuts off toward zero: it has the sign
of the dividend, is less than the divisor and differs from the dividend by a multiple of the
divisor. All of this is exact. -/
structure IsRemainder (x y r : Float) : Prop where
  invalid : x.isNaN ∨ y.isNaN ∨ x.isInf ∨ y == 0 → r.isNaN
  infinite : x.isFinite → y.isInf → r = x
  finite : x.isFinite → y.isFinite → (y == 0) = false →
    r.isFinite ∧ isNegative r = isNegative x ∧ (units r).natAbs < (units y).natAbs ∧
      ∃ q : Int, units x = q * units y + units r

section

variable {x y : Float} {b : Binary}

theorem units_eq (h : x.toModel.unpack = b.unpacked) : units x = b.signed := by
  obtain ⟨negative, mantissa, exponent⟩ := b
  unfold units
  rw [h, Binary.unpacked, Binary.signed, Binary.magnitude]
  by_cases hzero : mantissa = 0
  · subst hzero
    cases negative <;> simp
  · rw [dif_neg hzero]
    cases negative <;> simp [Binary.sign]

theorem isNegative_eq (h : x.toModel.unpack = b.unpacked) : isNegative x = b.negative := by
  obtain ⟨negative, mantissa, exponent⟩ := b
  unfold isNegative
  rw [h, Binary.unpacked]
  dsimp only
  split_ifs <;> cases negative <;> rfl

theorem isFinite_of_unpack (h : x.toModel.unpack = b.unpacked) : x.isFinite = true := by
  have hfinite : b.unpacked.isFinite = true := by
    unfold Binary.unpacked
    split_ifs <;> rfl
  rw [← h] at hfinite
  exact hfinite

theorem isNaN_of_isFinite (h : x.isFinite = true) : x.isNaN = false ∧ x.isInf = false := by
  have hcases : ∀ u : UnpackedFloat, u.isFinite = true → u.isNaN = false ∧ u.isInf = false := by
    intro u hu
    cases u with
    | notANumber => cases hu
    | infinity => cases hu
    | zero | finite => exact ⟨rfl, rfl⟩
  exact hcases _ h

theorem isNaN_of_isInf (h : x.isInf = true) : x.isNaN = false ∧ (x == 0) = false := by
  have hcases : ∀ u : UnpackedFloat, u.isInf = true →
      u.isNaN = false ∧ u.beq (.zero .positive) = false := by
    intro u hu
    cases u with
    | infinity s => cases s <;> exact ⟨rfl, rfl⟩
    | notANumber | zero | finite => cases hu
  exact hcases _ h

theorem mantissa_ne_zero (hy : y.isFinite = true) (h : (y == 0) = false) :
    (Binary.ofFloat y).mantissa ≠ 0 := by
  intro hzero
  have hunpack := (Binary.unpack_of_isFinite hy).1
  rw [Binary.unpacked, dif_pos hzero] at hunpack
  have hbeq : (y == 0) = y.toModel.unpack.beq (.zero .positive) := rfl
  rw [hbeq, hunpack] at h
  cases h

/-- The remainder has no more digits than one of the two numbers. -/
theorem remainder_digits {a b : Binary} (ha : a.mantissa < 2 ^ 53) (hb : b.mantissa < 2 ^ 53)
    (hne : b.mantissa ≠ 0) :
    a.scaledTo (min a.exponent b.exponent) % b.scaledTo (min a.exponent b.exponent) < 2 ^ 53 := by
  rcases Int.le_total a.exponent b.exponent with hle | hle
  · have hscaled : a.scaledTo a.exponent = a.mantissa := by simp [Binary.scaledTo]
    rw [min_eq_left hle, hscaled]
    exact Nat.lt_of_le_of_lt (Nat.mod_le ..) ha
  · have hscaled : b.scaledTo b.exponent = b.mantissa := by simp [Binary.scaledTo]
    rw [min_eq_right hle, hscaled]
    exact Nat.lt_trans (Nat.mod_lt _ (Nat.pos_of_ne_zero hne)) hb

theorem remainder_of_isFinite (hx : x.isFinite = true) (hy : y.isFinite = true)
    (hne : (y == 0) = false) :
    let a := Binary.ofFloat x
    let b := Binary.ofFloat y
    let e := min a.exponent b.exponent
    remainder x y = Binary.toFloat ⟨a.negative, a.scaledTo e % b.scaledTo e, e⟩ := by
  intro a b e
  obtain ⟨hnan, hinf⟩ := isNaN_of_isFinite hx
  obtain ⟨hnan', hinf'⟩ := isNaN_of_isFinite hy
  simp only [remainder, hnan, hnan', hinf, hinf', hne, Bool.or_self, Bool.false_eq_true, if_false,
    a, b, e]

/-- The remainder of finite numbers is exact. -/
theorem finite_remainder (hx : x.isFinite = true) (hy : y.isFinite = true)
    (hne : (y == 0) = false) :
    (remainder x y).isFinite ∧ isNegative (remainder x y) = isNegative x ∧
      (units (remainder x y)).natAbs < (units y).natAbs ∧
      ∃ q : Int, units x = q * units y + units (remainder x y) := by
  obtain ⟨hunpack, hstored⟩ := Binary.unpack_of_isFinite hx
  obtain ⟨hunpack', hstored'⟩ := Binary.unpack_of_isFinite hy
  have hmantissa := mantissa_ne_zero hy hne
  rw [remainder_of_isFinite hx hy hne, units_eq hunpack, units_eq hunpack', isNegative_eq hunpack]
  generalize Binary.ofFloat x = a at *
  generalize Binary.ofFloat y = b at *
  have hdigits : (⟨a.negative, _, min a.exponent b.exponent⟩ : Binary).mantissa < 2 ^ 53 :=
    remainder_digits hstored.mantissa hstored'.mantissa hmantissa
  have hleast : -1074 ≤ min a.exponent b.exponent := le_min hstored.least hstored'.least
  have hgreatest : min a.exponent b.exponent ≤ 971 := min_le_of_left_le hstored.greatest
  have ha := Binary.magnitude_eq hleast (min_le_left a.exponent b.exponent)
  have hb := Binary.magnitude_eq hleast (min_le_right a.exponent b.exponent)
  have hpos : 0 < b.scaledTo (min a.exponent b.exponent) := by
    rw [Binary.scaledTo_of_le (min_le_right ..)]
    exact Nat.mul_pos (Nat.pos_of_ne_zero hmantissa) (Nat.two_pow_pos _)
  obtain ⟨c, -, hnegative, hc, hunpackc⟩ := Binary.unpack_toFloat hdigits hleast hgreatest
  refine ⟨isFinite_of_unpack hunpackc, (isNegative_eq hunpackc).trans hnegative, ?_, ?_⟩
  · rw [units_eq hunpackc, Binary.natAbs_signed, Binary.natAbs_signed, hc, hb]
    exact Nat.mul_lt_mul_of_pos_right (Nat.mod_lt _ hpos) (Nat.two_pow_pos _)
  · rw [units_eq hunpackc]
    exact Binary.exists_quotient ha hb hc hnegative

theorem isRemainder_remainder (x y : Float) : IsRemainder x y (remainder x y) where
  invalid h := by
    have hnan : remainder x y = nan := by
      rw [remainder, if_pos]
      simpa [or_assoc] using h
    rw [hnan]
    decide +kernel
  infinite hx hy := by
    obtain ⟨hnan, hinf⟩ := isNaN_of_isFinite hx
    obtain ⟨hnan', hne⟩ := isNaN_of_isInf hy
    simp only [remainder, hnan, hnan', hinf, hy, hne, Bool.or_self, Bool.false_eq_true, if_false,
      if_true]
  finite hx hy hne := finite_remainder hx hy hne

end

end GridCss.Number
