import Mathlib.Data.List.Induction
import Mathlib.Data.List.Nodup
import GridCss.Proofs.FiledRules
import GridCss.Proofs.RepeatedRuns

/-!
# Memos as bounded maps

Whatever is asked of a new memo, it holds the keys that were called for first since it was last
cleared, as many as there is room for, each with the result of its first call. So it never grows
beyond its capacity, stored results stay until it is cleared, and once it is full nothing changes
before that.
-/

namespace GridCss.Memo

/-- What can be asked of a memo. -/
inductive Operation where
  | get (k : Key)
  | remember (k : Key) (compute : Unit → List Value)
  | clear

/-- The memo after an operation. -/
def perform (m : Memo) : Operation → Memo
  | .get _ => m
  | .remember k compute => (m.remember k compute).2
  | .clear => m.clear

def performAll (m : Memo) (operations : List Operation) : Memo := operations.foldl perform m

/-- The calls since the last clearing, given those before an operation. -/
def Operation.addTo (calls : List (Key × List Value)) : Operation → List (Key × List Value)
  | .get _ => calls
  | .remember k compute => calls ++ [(k, compute ())]
  | .clear => []

/-- The calls put to a new memo since it was last cleared, each with what it would compute. -/
def callsOf (operations : List Operation) : List (Key × List Value) :=
  operations.foldl Operation.addTo []

def keys (m : Memo) : List Key := m.entries.map Prod.fst

/-- As much of a list as there is room for. -/
def upTo {α : Type} : Option Nat → List α → List α
  | none, l => l
  | some n, l => l.take n

/-- A computation that counts how often it runs. -/
def counted (compute : Unit → List Value) : Unit → StateM Nat (List Value) := fun _ => do
  modify (· + 1)
  return compute ()

theorem get?_eq_none_iff {m : Memo} {k : Key} : m.get? k = none ↔ k ∉ m.keys := by
  simp only [get?, keys, Option.map_eq_none_iff, List.find?_eq_none, List.mem_map, beq_iff_eq]
  constructor
  · rintro h ⟨e, he, hk⟩
    exact h e he hk
  · intro h e he hk
    exact h ⟨e, he, hk⟩

theorem exists_get?_of_mem_keys {m : Memo} {k : Key} (h : k ∈ m.keys) :
    ∃ result, m.get? k = some result := by
  cases hk : m.get? k with
  | some result => exact ⟨result, rfl⟩
  | none => exact absurd h (get?_eq_none_iff.mp hk)

theorem isFull_iff {m : Memo} : m.isFull = true ↔ ∃ n ∈ m.capacity, n ≤ m.size := by
  unfold isFull
  cases m.capacity <;> simp

/-- A call brings in at most its own key, at the end. -/
theorem keys_remember (m : Memo) (k : Key) (compute : Unit → List Value) :
    (m.remember k compute).2.keys =
      if k ∈ m.keys ∨ m.isFull = true then m.keys else m.keys ++ [k] := by
  cases hk : m.get? k with
  | some result =>
    have hmem : k ∈ m.keys := List.mem_map_of_mem (mem_of_get? hk)
    rw [remember_of_get? hk, if_pos (.inl hmem)]
  | none =>
    have hmem := get?_eq_none_iff.mp hk
    rw [remember_of_get?_none hk, insert]
    split
    · next hfull => rw [if_pos (.inr hfull)]
    · next hfull =>
      rw [if_neg (not_or.mpr ⟨hmem, hfull⟩)]
      simp [keys]

/-- The computation of a call runs once if nothing is stored, and not at all otherwise. -/
theorem rememberM_counted (m : Memo) (k : Key) (compute : Unit → List Value) (runs : Nat) :
    (m.rememberM k (counted compute)).run runs =
      (m.remember k compute, if k ∈ m.keys then runs else runs + 1) := by
  cases hk : m.get? k with
  | some result =>
    have hmem : k ∈ m.keys := List.mem_map_of_mem (mem_of_get? hk)
    rw [if_pos hmem, remember_of_get? hk]
    simp only [rememberM, hk]
    rfl
  | none =>
    rw [if_neg (get?_eq_none_iff.mp hk), remember_of_get?_none hk]
    simp only [rememberM, hk]
    rfl

/-- What a call computes is stored if there is room. Under other keys nothing changes. -/
theorem get?_remember_of_get?_none {m : Memo} {k : Key} (hk : m.get? k = none)
    (compute : Unit → List Value) (l : Key) :
    (m.remember k compute).2.get? l =
      if l = k ∧ m.isFull = false then some (compute ()) else m.get? l := by
  rw [remember_of_get?_none hk]
  cases hfull : m.isFull with
  | true =>
    rw [insert, if_pos hfull]
    simp
  | false =>
    rw [get?_insert m k l _ hfull]
    by_cases hl : l = k
    · simp [hl, hk]
    · simp [hl, Ne.symm hl]

theorem get?_perform_of_get? {m : Memo} {k : Key} {result : List Value}
    (h : m.get? k = some result) {o : Operation} (ho : o ≠ .clear) :
    (m.perform o).get? k = some result := by
  cases o with
  | get l => exact h
  | remember l compute => exact get?_remember_of_get? h l (compute ())
  | clear => exact absurd rfl ho

theorem get?_performAll_of_get? {m : Memo} {k : Key} {result : List Value}
    (h : m.get? k = some result) {operations : List Operation} (ho : .clear ∉ operations) :
    (m.performAll operations).get? k = some result := by
  induction operations generalizing m with
  | nil => exact h
  | cons o operations ih =>
    rw [List.mem_cons, not_or] at ho
    exact ih (get?_perform_of_get? h (Ne.symm ho.1)) ho.2

/-- Keys that are stored stay stored, in their order. -/
theorem keys_prefix_performAll (m : Memo) {operations : List Operation}
    (ho : .clear ∉ operations) : m.keys <+: (m.performAll operations).keys := by
  induction operations generalizing m with
  | nil => exact List.prefix_refl _
  | cons o operations ih =>
    rw [List.mem_cons, not_or] at ho
    refine List.IsPrefix.trans ?_ (ih (m.perform o) ho.2)
    cases o with
    | get k => exact List.prefix_refl _
    | clear => exact absurd rfl ho.1
    | remember k compute =>
      rw [perform, keys_remember]
      split
      · exact List.prefix_refl _
      · exact List.prefix_append _ _

theorem performAll_of_isFull {m : Memo} (h : m.isFull = true) {operations : List Operation}
    (ho : .clear ∉ operations) : m.performAll operations = m := by
  induction operations with
  | nil => rfl
  | cons o operations ih =>
    rw [List.mem_cons, not_or] at ho
    have hstep : m.perform o = m := by
      cases o with
      | get k => rfl
      | remember k compute => exact remember_of_isFull h k compute
      | clear => exact absurd rfl ho.1
    rw [performAll, List.foldl_cons, hstep]
    exact ih ho.2

theorem clear_after (capacity : Option Nat) (calls : List (Key × List Value)) :
    (after { capacity := capacity } calls).clear = { capacity := capacity } := by
  rw [clear, capacity_after]

/-- A memo is as if only the calls since its last clearing had been put to it. -/
theorem performAll_eq_after (capacity : Option Nat) (operations : List Operation) :
    performAll { capacity := capacity } operations =
      after { capacity := capacity } (callsOf operations) := by
  induction operations using List.reverseRecOn with
  | nil => rfl
  | append_singleton operations o ih =>
    rw [performAll, callsOf, List.foldl_concat, List.foldl_concat, ← performAll, ← callsOf, ih]
    cases o with
    | get k => rfl
    | remember k compute => exact (after_append _ _ [(k, compute ())]).symm
    | clear => exact clear_after capacity _

/-- With one more element there is one more to keep, unless there was no room before. -/
theorem upTo_concat {α : Type} (capacity : Option Nat) (l : List α) (a : α) :
    upTo capacity (l ++ [a]) =
      if capacity.any (· ≤ (upTo capacity l).length) then upTo capacity l else l ++ [a] := by
  cases capacity with
  | none => rfl
  | some n =>
    simp only [upTo, Option.any_some, List.length_take, decide_eq_true_eq]
    split
    · next hfull => exact List.take_append_of_le_length (by omega)
    · next hroom =>
      refine List.take_of_length_le ?_
      rw [List.length_append, List.length_singleton]
      omega

theorem upTo_eq_self {α : Type} {capacity : Option Nat} {l : List α}
    (h : ¬ capacity.any (· ≤ (upTo capacity l).length) = true) : upTo capacity l = l := by
  cases capacity with
  | none => rfl
  | some n =>
    simp only [upTo, Option.any_some, List.length_take, decide_eq_true_eq] at h
    exact List.take_of_length_le (by omega)

theorem isFull_after (capacity : Option Nat) (calls : List (Key × List Value)) :
    (after { capacity := capacity } calls).isFull =
      capacity.any (· ≤ (after { capacity := capacity } calls).keys.length) := by
  rw [isFull, capacity_after, size, keys, List.length_map]

/-- The keys that were called for first are stored, as many as there is room for. -/
theorem keys_after (capacity : Option Nat) (calls : List (Key × List Value)) :
    (after { capacity := capacity } calls).keys = upTo capacity (calls.map Prod.fst).eraseDups := by
  induction calls using List.reverseRecOn with
  | nil => cases capacity <;> simp [after, keys, upTo]
  | append_singleton calls call ih =>
    have hstep := keys_remember (after { capacity := capacity } calls) call.1 fun _ => call.2
    rw [isFull_after, ih] at hstep
    rw [after_append, List.map_append, List.map_singleton, eraseDups_concat]
    refine hstep.trans ?_
    by_cases hfull :
        capacity.any (· ≤ (upTo capacity (calls.map Prod.fst).eraseDups).length) = true
    · -- The key is not stored, whether it was called for before or not.
      rw [if_pos (.inr hfull)]
      split
      · rfl
      · rw [upTo_concat, if_pos hfull]
    · have hall := upTo_eq_self hfull
      by_cases hmem : call.1 ∈ calls.map Prod.fst
      · rw [if_pos hmem, if_pos (.inl (hall.symm ▸ List.mem_eraseDups.mpr hmem))]
      · have hnew : call.1 ∉ upTo capacity (calls.map Prod.fst).eraseDups := by
          rwa [hall, List.mem_eraseDups]
        rw [if_neg hmem, if_neg (not_or.mpr ⟨hnew, hfull⟩), upTo_concat, if_neg hfull, hall]

/-- A memo with room left holds all keys that were called for. -/
theorem mem_keys_after_of_isFull {capacity : Option Nat} {calls : List (Key × List Value)}
    (h : (after { capacity := capacity } calls).isFull = false) {k : Key}
    (hk : k ∈ calls.map Prod.fst) : k ∈ (after { capacity := capacity } calls).keys := by
  rw [isFull_after, keys_after] at h
  rw [keys_after, upTo_eq_self (by simp [h]), List.mem_eraseDups]
  exact hk

/-- Every stored key has the result of its first call. -/
theorem get?_after_eq_lookup (capacity : Option Nat) (calls : List (Key × List Value)) {k : Key}
    (h : k ∈ (after { capacity := capacity } calls).keys) :
    (after { capacity := capacity } calls).get? k = calls.lookup k := by
  induction calls using List.reverseRecOn with
  | nil => exact absurd h List.not_mem_nil
  | append_singleton calls call ih =>
    let m := after { capacity := capacity } calls
    have hstep : after { capacity := capacity } (calls ++ [call]) =
        (m.remember call.1 fun _ => call.2).2 := after_append _ calls [call]
    rw [hstep] at h ⊢
    rw [List.lookup_append]
    by_cases hk : k ∈ m.keys
    · obtain ⟨result, hresult⟩ := exists_get?_of_mem_keys hk
      rw [← ih hk, hresult, Option.some_or]
      exact get?_remember_of_get? hresult call.1 call.2
    · -- The key came in with the last call, and no call before it had the key.
      rw [keys_remember] at h
      split at h
      · exact absurd h hk
      · next hnew =>
        rw [not_or, Bool.not_eq_true] at hnew
        obtain rfl : k = call.1 := by simpa [hk] using h
        have hfirst : calls.lookup call.1 = none := by
          rw [List.lookup_eq_none_iff]
          intro earlier hearlier
          rw [bne_iff_ne]
          intro heq
          exact hk (mem_keys_after_of_isFull hnew.2 (heq ▸ List.mem_map_of_mem hearlier))
        rw [get?_remember_of_get?_none (get?_eq_none_iff.mpr hk), if_pos ⟨rfl, hnew.2⟩, hfirst,
          Option.none_or]
        exact List.lookup_cons_self.symm

theorem nodup_keys_after (capacity : Option Nat) (calls : List (Key × List Value)) :
    (after { capacity := capacity } calls).keys.Nodup := by
  induction calls using List.reverseRecOn with
  | nil => exact List.nodup_nil
  | append_singleton calls call ih =>
    have hstep := keys_remember (after { capacity := capacity } calls) call.1 fun _ => call.2
    rw [after_append]
    refine hstep ▸ ?_
    split
    · exact ih
    · next hnew => exact List.concat_eq_append ▸ List.Nodup.concat (not_or.mp hnew).1 ih

theorem size_after_le {n : Nat} (calls : List (Key × List Value)) :
    (after { capacity := some n } calls).size ≤ n := by
  have hkeys := keys_after (some n) calls
  rw [size, ← List.length_map Prod.fst]
  show (after { capacity := some n } calls).keys.length ≤ n
  rw [hkeys]
  exact List.length_take_le n _

/-- After any operations on a new memo of any capacity, or without one: there is never more stored
than there is room for, and nothing twice; stored are the keys called for first since the last
clearing, each with the result of its first call. A call finds the stored result, and nothing
changes, or it computes one, which is stored exactly if there is room; only then does the
computation run. Up to the next clearing keys are only added, what is stored stays, and a full memo
stays as it is. -/
theorem performAll_firstWriteWins (capacity : Option Nat) (operations : List Operation) :
    let m := performAll { capacity := capacity } operations
    let calls := callsOf operations
    (∀ n ∈ capacity, m.size ≤ n) ∧ m.keys.Nodup ∧
    m.keys = upTo capacity (calls.map Prod.fst).eraseDups ∧
    (∀ k, m.get? k = if k ∈ m.keys then calls.lookup k else none) ∧
    (∀ k compute,
      (∀ runs, (m.rememberM k (counted compute)).run runs =
        (m.remember k compute, if k ∈ m.keys then runs else runs + 1)) ∧
      (k ∈ m.keys → some (m.remember k compute).1 = m.get? k ∧ (m.remember k compute).2 = m) ∧
      (k ∉ m.keys → (m.remember k compute).1 = compute () ∧
        ((∀ n ∈ capacity, m.size < n) → (m.remember k compute).2.get? k = some (compute ())) ∧
        ((∃ n ∈ capacity, n ≤ m.size) → (m.remember k compute).2 = m) ∧
        ∀ l, l ≠ k → (m.remember k compute).2.get? l = m.get? l)) ∧
    ∀ more, .clear ∉ more →
      m.keys <+: (m.performAll more).keys ∧
      (∀ k ∈ m.keys, (m.performAll more).get? k = m.get? k) ∧
      ((∃ n ∈ capacity, n ≤ m.size) → m.performAll more = m) := by
  intro m calls
  have hm : m = after { capacity := capacity } calls := performAll_eq_after capacity operations
  have hcapacity : m.capacity = capacity := by rw [hm, capacity_after]
  have hfull : m.isFull = true ↔ ∃ n ∈ capacity, n ≤ m.size := by rw [isFull_iff, hcapacity]
  refine ⟨?_, hm ▸ nodup_keys_after capacity calls, hm ▸ keys_after capacity calls, ?_, ?_, ?_⟩
  · rintro n ⟨⟩
    rw [hm]
    exact size_after_le calls
  · intro k
    split
    · next hk =>
      rw [hm] at hk ⊢
      exact get?_after_eq_lookup capacity calls hk
    · next hk => exact get?_eq_none_iff.mpr hk
  · intro k compute
    refine ⟨rememberM_counted m k compute, fun hk => ?_, fun hk => ?_⟩
    · obtain ⟨result, hresult⟩ := exists_get?_of_mem_keys hk
      rw [remember_of_get? hresult]
      exact ⟨hresult.symm, rfl⟩
    · have hnone := get?_eq_none_iff.mpr hk
      have hget := get?_remember_of_get?_none hnone compute
      refine ⟨by rw [remember_of_get?_none hnone], fun hroom => ?_,
        fun hno => remember_of_isFull (hfull.mpr hno) k compute, fun l hl => ?_⟩
      · have hnotFull : m.isFull = false := by
          rw [← Bool.not_eq_true, hfull]
          rintro ⟨n, hn, hle⟩
          exact absurd (hroom n hn) (Nat.not_lt.mpr hle)
        rw [hget k, if_pos ⟨rfl, hnotFull⟩]
      · rw [hget l, if_neg fun h => hl h.1]
  · intro more hmore
    refine ⟨keys_prefix_performAll m hmore, fun k hk => ?_,
      fun hno => performAll_of_isFull (hfull.mpr hno) hmore⟩
    obtain ⟨result, hresult⟩ := exists_get?_of_mem_keys hk
    rw [hresult]
    exact get?_performAll_of_get? hresult hmore

end GridCss.Memo
