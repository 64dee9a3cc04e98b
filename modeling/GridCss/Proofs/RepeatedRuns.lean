import GridCss.Proofs.Memoization

/-!
# Compiling the same items again

What a memo holds after a compilation is what the same compilation finds when it is repeated. The
repeated run recalls what the first run has stored, and computes anew what the first run had no room
to store, so that both get the same results although keys may stand for several calls. It draws the
same words and stores nothing more.
-/

namespace GridCss

namespace Memo

/-- Calls can turn the first memo into the second. -/
def GrowsInto (m final : Memo) : Prop := ∃ calls, m.after calls = final

theorem GrowsInto.refl (m : Memo) : m.GrowsInto m := ⟨[], rfl⟩

theorem GrowsInto.of_remember {m final : Memo} {k : Key} {compute : Unit → List Value}
    (h : (m.remember k compute).2.GrowsInto final) : m.GrowsInto final := by
  obtain ⟨calls, hcalls⟩ := h
  exact ⟨(k, compute ()) :: calls, hcalls⟩

theorem GrowsInto.get? {m final : Memo} (h : m.GrowsInto final) {k : Key} {stored : List Value}
    (hk : m.get? k = some stored) : final.get? k = some stored := by
  obtain ⟨calls, rfl⟩ := h
  exact get?_after_of_get? hk calls

theorem remember_of_isFull {m : Memo} (h : m.isFull = true) (k : Key)
    (compute : Unit → List Value) : (m.remember k compute).2 = m := by
  cases hk : m.get? k with
  | some stored => rw [remember_of_get? hk]
  | none => simp [remember_of_get?_none hk, insert, h]

theorem GrowsInto.eq_of_isFull {m final : Memo} (hgrows : m.GrowsInto final)
    (h : m.isFull = true) : final = m := by
  obtain ⟨calls, rfl⟩ := hgrows
  induction calls with
  | nil => rfl
  | cons call calls ih =>
    have hstep : (m.remember call.1 fun _ => call.2).2 = m := remember_of_isFull h _ _
    show (m.remember call.1 fun _ => call.2).2.after calls = m
    rw [hstep]
    exact ih

/-- A memo that a call leads to gives the same result to that call and keeps as it is. -/
theorem remember_of_growsInto {m final : Memo} {k : Key} {compute : Unit → List Value}
    (h : (m.remember k compute).2.GrowsInto final) :
    final.remember k compute = ((m.remember k compute).1, final) := by
  cases hk : m.get? k with
  | some stored =>
    have hfinal : final.get? k = some stored := h.of_remember.get? hk
    rw [remember_of_get? hk, remember_of_get? hfinal]
  | none =>
    cases hfull : m.isFull with
    | true =>
      -- There was no room for the result, nor for any after it.
      have hfinal : final = m := h.of_remember.eq_of_isFull hfull
      have hsame : (m.remember k compute).2 = m := remember_of_isFull hfull k compute
      subst hfinal
      exact Prod.ext rfl hsame
    | false =>
      have hstored := get?_remember_self hfull k (compute ())
      have hfinal := h.get? hstored
      exact remember_of_get? hfinal compute

end Memo

namespace Coupling

/-- A run that has the final memo of another run from the start, beside that other run, which has
strayed once its memo cannot become the final one any more. -/
def withFinalMemo (final : Memo) : Coupling Scope Scope where
  related := fun s t => s.words = t.words ∧ s.memo = final
  strayed := fun t => ¬ t.memo.GrowsInto final

theorem withFinalMemo_keepsWords (final : Memo) : (withFinalMemo final).KeepsWords where
  words := fun _ _ h => h.1
  related := fun _ _ _ h => ⟨rfl, h.2⟩
  strayed := fun _ _ h => h

theorem withFinalMemo_recall (final : Memo) (family : String) (arguments : List Value)
    (compute : Unit → List Value) :
    (withFinalMemo final).Matches Eq (Generative.remember family arguments compute)
      (Generative.remember family arguments compute) where
  strays := fun _ ht hgrows => ht hgrows.of_remember
  step := by
    rintro s t ⟨hwords, hmemo⟩
    let key := Memo.Key.ofCall family arguments
    by_cases hgrows : (t.memo.remember key compute).2.GrowsInto final
    · have hcall : s.memo.remember key compute = ((t.memo.remember key compute).1, final) := by
        rw [hmemo]
        exact Memo.remember_of_growsInto hgrows
      have hresult : (s.memo.remember key compute).1 = (t.memo.remember key compute).1 := by
        rw [hcall]
      have hkept : (s.memo.remember key compute).2 = final := by rw [hcall]
      exact .inr ⟨hresult, hwords, hkept⟩
    · exact .inl hgrows

end Coupling

namespace Compilation

/-- A compilation that starts with the memo that it would leave gives the same and leaves that
memo. -/
theorem run_with_final_memo (grid : Grid) (items : List Item) (memo : Memo) (words : Words) :
    let first := run Registry.builtin grid items ⟨memo, words⟩
    let again := run Registry.builtin grid items ⟨first.2.memo, words⟩
    again.1 = first.1 ∧ again.2.memo = first.2.memo := by
  intro first again
  have hruns := (Coupling.withFinalMemo_keepsWords first.2.memo).builtinBy
    (Coupling.withFinalMemo_recall first.2.memo)
  rw [Registry.builtinBy_remember] at hruns
  rcases (hruns.run grid items).step ⟨first.2.memo, words⟩ ⟨memo, words⟩ ⟨rfl, rfl⟩ with
    hstrayed | ⟨hresult, -, hmemo⟩
  · exact absurd (Memo.GrowsInto.refl first.2.memo) hstrayed
  · exact ⟨hresult, hmemo⟩

end Compilation

namespace Compiler

/-- Whatever a compiler has in its memo, compiling the same items for the same grid once more gives
the same output and leaves the compiler, its memo included, as it is. -/
theorem generate_again (seed : UInt64) (cellSelector : String) (memo : Memo) (items : List Item)
    (grid : Grid) :
    let first := generate { seed := seed, cellSelector := cellSelector, memo := memo } items grid
    first.2.generate items grid = (first.1, first.2) := by
  intro first
  obtain ⟨hresult, hmemo⟩ :=
    Compilation.run_with_final_memo grid items memo (Words.ofSeed seed)
  have houtput : (first.2.generate items grid).1 = first.1 :=
    congrArg (Compilation.output · cellSelector) hresult
  have hcompiler : (first.2.generate items grid).2 = first.2 :=
    congrArg (fun m => ({ seed := seed, cellSelector := cellSelector, memo := m } : Compiler)) hmemo
  exact Prod.ext houtput hcompiler

end Compiler

end GridCss
