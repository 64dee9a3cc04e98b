/-!
# Blank characters and name characters

Blank is the Unicode property `White_Space`. Names of properties, calls and conditions are words
over ASCII letters, digits, hyphen and underscore.
-/

namespace GridCss.Text

/-- The code points with the property `White_Space`, as closed intervals in increasing order. -/
def blankRanges : List (Nat × Nat) :=
  [(0x09, 0x0D), (0x20, 0x20), (0x85, 0x85), (0xA0, 0xA0), (0x1680, 0x1680), (0x2000, 0x200A),
    (0x2028, 0x2029), (0x202F, 0x202F), (0x205F, 0x205F), (0x3000, 0x3000)]

def isBlank (c : Char) : Bool :=
  blankRanges.any fun r => r.1 ≤ c.toNat && c.toNat ≤ r.2

def isNameChar (c : Char) : Bool :=
  c.isAlphanum || c == '-' || c == '_'

theorem isBlank_of_isNameChar {c : Char} (h : isNameChar c = true) : isBlank c = false := by
  have hbounds : ∀ a b : UInt32, a ≤ c.val ∧ c.val ≤ b → 48 ≤ a.toNat → b.toNat ≤ 122 →
      48 ≤ c.toNat ∧ c.toNat ≤ 122 := by
    intro a b hab ha hb
    exact ⟨Nat.le_trans ha (UInt32.le_iff_toNat_le.mp hab.1),
      Nat.le_trans (UInt32.le_iff_toNat_le.mp hab.2) hb⟩
  have hrange : c.toNat = 45 ∨ 48 ≤ c.toNat ∧ c.toNat ≤ 122 := by
    rw [isNameChar, Bool.or_eq_true, Bool.or_eq_true, beq_iff_eq, beq_iff_eq] at h
    obtain (h | rfl) | rfl := h
    · have hclass : (c.isUpper = true ∨ c.isLower = true) ∨ c.isDigit = true := by
        rw [← Bool.or_eq_true, ← Bool.or_eq_true]
        exact h
      right
      obtain (hupper | hlower) | hdigit := hclass
      · exact hbounds _ _ (of_decide_eq_true hupper) (by decide) (by decide)
      · exact hbounds 'a'.val 'z'.val (by simpa using Bool.and_eq_true_iff.mp hlower) (by decide)
          (by decide)
      · exact hbounds '0'.val '9'.val (by simpa using Bool.and_eq_true_iff.mp hdigit) (by decide)
          (by decide)
    · exact .inl rfl
    · exact .inr (by decide)
  simp only [isBlank, blankRanges, List.any_cons, List.any_nil, Bool.or_false, Bool.or_eq_false_iff,
    Bool.and_eq_false_imp, decide_eq_true_eq, decide_eq_false_iff_not]
  omega

end GridCss.Text
