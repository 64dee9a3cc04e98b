/-!
# Decimal literals

A literal has whole digits, fraction digits and an exponent, as in `12`, `1.5`, `.5`, `2.` or
`1e-3`. Scanning takes the longest literal at the head of a text; reading takes the nearest
floating-point number.
-/

namespace GridCss

structure Literal where
  whole : List Char
  fraction : List Char
  exponent : Int := 0
  deriving DecidableEq, Repr

namespace Literal

def isDigit (c : Char) : Bool := c.isDigit

def digitValue (c : Char) : Nat := c.toNat - '0'.toNat

def natOfDigits (ds : List Char) : Nat :=
  ds.foldl (fun n c => 10 * n + digitValue c) 0

/-- `12`, `12.`, `12.5` or `.5` at the head of a text, and what follows. -/
def scanMantissa (cs : List Char) : Option (Literal × List Char) :=
  let whole := cs.takeWhile isDigit
  match cs.dropWhile isDigit with
  | '.' :: rest =>
    let fraction := rest.takeWhile isDigit
    if whole.isEmpty && fraction.isEmpty then none
    else some (⟨whole, fraction, 0⟩, rest.dropWhile isDigit)
  | rest => if whole.isEmpty then none else some (⟨whole, [], 0⟩, rest)

private theorem dropWhile_length_le (p : Char → Bool) (cs : List Char) :
    (cs.dropWhile p).length ≤ cs.length :=
  (List.dropWhile_sublist p).length_le

theorem scanMantissa_length_lt {cs rest : List Char} {l : Literal}
    (h : scanMantissa cs = some (l, rest)) : rest.length < cs.length := by
  have split : (cs.takeWhile isDigit).length + (cs.dropWhile isDigit).length = cs.length := by
    rw [← List.length_append, List.takeWhile_append_dropWhile]
  unfold scanMantissa at h
  dsimp only at h
  split at h
  · next after eq =>
    split at h
    · simp at h
    · simp only [Option.some.injEq, Prod.mk.injEq] at h
      have shorter := dropWhile_length_le isDigit after
      rw [eq] at split
      simp only [List.length_cons] at split
      rw [← h.2]
      omega
  · split at h
    · simp at h
    · next nonempty =>
      simp only [Option.some.injEq, Prod.mk.injEq] at h
      have : 0 < (cs.takeWhile isDigit).length := by
        rw [List.length_pos_iff]
        simpa using nonempty
      rw [← h.2]
      omega

/-- The digits of an exponent, at least one, and what follows. -/
def scanExponentDigits (cs : List Char) : Option (Nat × List Char) :=
  let digits := cs.takeWhile isDigit
  if digits.isEmpty then none else some (natOfDigits digits, cs.dropWhile isDigit)

/-- `e3`, `E+3` or `e-3` at the head of a text, and what follows. -/
def scanExponent : List Char → Option (Int × List Char)
  | c :: rest =>
    if c = 'e' || c = 'E' then
      match rest with
      | '+' :: rest => (scanExponentDigits rest).map fun (n, rest) => (Int.ofNat n, rest)
      | '-' :: rest => (scanExponentDigits rest).map fun (n, rest) => (-Int.ofNat n, rest)
      | _ => (scanExponentDigits rest).map fun (n, rest) => (Int.ofNat n, rest)
    else none
  | [] => none

/-- The longest literal at the head of a text, and what follows. -/
def scan (cs : List Char) : Option (Literal × List Char) :=
  (scanMantissa cs).map fun (l, rest) =>
    match scanExponent rest with
    | some (e, rest) => ({ l with exponent := e }, rest)
    | none => (l, rest)

private theorem scanExponentDigits_length_le {cs rest : List Char} {n : Nat}
    (h : scanExponentDigits cs = some (n, rest)) : rest.length ≤ cs.length := by
  unfold scanExponentDigits at h
  dsimp only at h
  split at h
  · simp at h
  · simp only [Option.some.injEq, Prod.mk.injEq] at h
    rw [← h.2]
    exact dropWhile_length_le isDigit cs

private theorem scanExponent_length_le {cs rest : List Char} {e : Int}
    (h : scanExponent cs = some (e, rest)) : rest.length ≤ cs.length := by
  unfold scanExponent at h
  split at h
  · split at h
    · split at h <;>
      · obtain ⟨⟨n, after⟩, found, eq⟩ := Option.map_eq_some_iff.1 h
        have := scanExponentDigits_length_le found
        simp only [Prod.mk.injEq] at eq
        rw [← eq.2]
        simp only [List.length_cons]
        omega
    · simp at h
  · simp at h

theorem scan_length_lt {cs rest : List Char} {l : Literal} (h : scan cs = some (l, rest)) :
    rest.length < cs.length := by
  obtain ⟨⟨m, after⟩, found, eq⟩ := Option.map_eq_some_iff.1 h
  have shorter := scanMantissa_length_lt found
  dsimp only at eq
  split at eq
  · next found =>
    have := scanExponent_length_le found
    simp only [Prod.mk.injEq] at eq
    rw [← eq.2]
    omega
  · simp only [Prod.mk.injEq] at eq
    rw [← eq.2]
    exact shorter

/-- All digits, whole and fraction, as one number. -/
def mantissa (l : Literal) : Nat := natOfDigits (l.whole ++ l.fraction)

/-- The power of ten that scales the mantissa. -/
def scale (l : Literal) : Int := l.exponent - l.fraction.length

/-- The nearest floating-point number. Literals of `10 ^ 310` and more are infinite and those
below `10 ^ (-330)` are zero, whatever their digits. -/
def toFloat (l : Literal) : Float :=
  let m := l.mantissa
  let size : Int := (Nat.toDigits 10 m).length + l.scale
  if m = 0 then 0
  else if size > 310 then 1 / 0
  else if size < -330 then 0
  else Float.ofScientific m (l.scale < 0) l.scale.natAbs

end Literal

/-- A literal with an optional sign at the head of a text: its value and what follows. -/
def Literal.scanSigned : List Char → Option (Float × List Char)
  | '+' :: cs => (scan cs).map fun (l, rest) => (l.toFloat, rest)
  | '-' :: cs => (scan cs).map fun (l, rest) => (-l.toFloat, rest)
  | cs => (scan cs).map fun (l, rest) => (l.toFloat, rest)

end GridCss
