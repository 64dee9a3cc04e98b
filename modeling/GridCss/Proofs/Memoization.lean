import GridCss.Compiler
import GridCss.Proofs.BuiltinFunctions

/-!
# Recalling results and computing them anew

A session puts one request after another to a compiler. The reference is a compiler that computes
every result anew and, where others recall, notes the key of the call and its result. The memo is
transparent for a session if, put to a memo one after another, these calls all get their own results
back. Without a capacity that is so exactly if calls with the same key never differ in their result.
Keys join the arguments by hyphens, so that this can fail: `@shape(circle, x)` and
`@shape(circle-x)` have one key.
-/

namespace GridCss

namespace Memo

/-- The memo after calls with the given keys and results. -/
def after (m : Memo) (calls : List (Key × List Value)) : Memo :=
  calls.foldl (fun m call => (m.remember call.1 fun _ => call.2).2) m

/-- Every one of the calls, put to the memo one after another, gets its own result. -/
def Faithful (m : Memo) : List (Key × List Value) → Prop
  | [] => True
  | (k, result) :: calls =>
    (m.remember k fun _ => result).1 = result ∧ (m.remember k fun _ => result).2.Faithful calls

/-- Calls with the same key have the same result. -/
def Agreeing (calls : List (Key × List Value)) : Prop :=
  ∀ k result result', (k, result) ∈ calls → (k, result') ∈ calls → result = result'

theorem after_append (m : Memo) (calls more : List (Key × List Value)) :
    m.after (calls ++ more) = (m.after calls).after more := List.foldl_append

theorem faithful_append (m : Memo) (calls more : List (Key × List Value)) :
    m.Faithful (calls ++ more) ↔ m.Faithful calls ∧ (m.after calls).Faithful more := by
  induction calls generalizing m with
  | nil => simp [Faithful, after]
  | cons call calls ih =>
    obtain ⟨k, result⟩ := call
    simp only [List.cons_append, Faithful, ih, and_assoc]
    rfl

theorem mem_of_get? {m : Memo} {k : Key} {result : List Value} (h : m.get? k = some result) :
    (k, result) ∈ m.entries := by
  obtain ⟨e, he, rfl⟩ := Option.map_eq_some_iff.mp h
  have hk : e.1 = k := by simpa using List.find?_some he
  rw [← hk]
  exact List.mem_of_find?_eq_some he

theorem remember_of_get? {m : Memo} {k : Key} {result : List Value} (h : m.get? k = some result)
    (compute : Unit → List Value) : m.remember k compute = (result, m) := by
  simp [remember, rememberM, h]

theorem remember_of_get?_none {m : Memo} {k : Key} (h : m.get? k = none)
    (compute : Unit → List Value) :
    m.remember k compute = (compute (), m.insert k (compute ())) := by
  simp only [remember, rememberM, h]
  rfl

theorem get?_insert (m : Memo) (k l : Key) (result : List Value) (h : m.isFull = false) :
    (m.insert k result).get? l = (m.get? l).or (if k = l then some result else none) := by
  simp only [insert, h, get?, Bool.false_eq_true, if_false, List.find?_append, Option.map_or]
  congr 1
  by_cases hkl : k = l <;> simp [hkl]

theorem remember_entries_subset (m : Memo) (k : Key) (result : List Value) :
    (m.remember k fun _ => result).2.entries ⊆ (k, result) :: m.entries := by
  intro e he
  cases h : m.get? k with
  | some stored =>
    rw [remember_of_get? h] at he
    exact List.mem_cons_of_mem _ he
  | none =>
    rw [remember_of_get?_none h] at he
    unfold insert at he
    split at he
    · exact List.mem_cons_of_mem _ he
    · simpa [or_comm] using he

/-- A memo is faithful to calls that agree with one another and with what it holds. -/
theorem faithful_of_agreeing {m : Memo} {calls known : List (Key × List Value)}
    (h : Agreeing known) (hm : m.entries ⊆ known) (hcalls : calls ⊆ known) : m.Faithful calls := by
  -- The memo changes with every call, but holds nothing that is not known.
  induction calls generalizing m with
  | nil => trivial
  | cons call calls ih =>
    obtain ⟨k, result⟩ := call
    have hcall : (k, result) ∈ known := hcalls List.mem_cons_self
    refine ⟨?_, ih ?_ fun e he => hcalls (List.mem_cons_of_mem _ he)⟩
    · cases hk : m.get? k with
      | some stored =>
        rw [remember_of_get? hk]
        exact h k _ _ (hm (mem_of_get? hk)) hcall
      | none => rw [remember_of_get?_none hk]
    · intro e he
      rcases List.mem_cons.mp (remember_entries_subset m k result he) with rfl | he
      · exact hcall
      · exact hm he

theorem get?_remember_of_get? {m : Memo} {k : Key} {stored : List Value}
    (h : m.get? k = some stored) (l : Key) (result : List Value) :
    (m.remember l fun _ => result).2.get? k = some stored := by
  cases hl : m.get? l with
  | some r =>
    rw [remember_of_get? hl]
    exact h
  | none =>
    rw [remember_of_get?_none hl]
    cases hfull : m.isFull with
    | true => simpa [insert, hfull] using h
    | false => simp [get?_insert m l k result hfull, h]

theorem get?_after_of_get? {m : Memo} {k : Key} {stored : List Value}
    (h : m.get? k = some stored) (calls : List (Key × List Value)) :
    (m.after calls).get? k = some stored := by
  induction calls generalizing m with
  | nil => exact h
  | cons call calls ih => exact ih (get?_remember_of_get? h call.1 call.2)

theorem capacity_remember (m : Memo) (k : Key) (compute : Unit → List Value) :
    (m.remember k compute).2.capacity = m.capacity := by
  cases h : m.get? k with
  | some result => rw [remember_of_get? h]
  | none =>
    rw [remember_of_get?_none h]
    unfold insert
    split <;> rfl

theorem capacity_after (m : Memo) (calls : List (Key × List Value)) :
    (m.after calls).capacity = m.capacity := by
  induction calls generalizing m with
  | nil => rfl
  | cons call calls ih => exact (ih _).trans (capacity_remember m _ _)

theorem get?_remember_self {m : Memo} (hm : m.isFull = false) (k : Key) (result : List Value) :
    (m.remember k fun _ => result).2.get? k = some (m.remember k fun _ => result).1 := by
  cases hk : m.get? k with
  | some stored => rw [remember_of_get? hk, hk]
  | none => simp [remember_of_get?_none hk, get?_insert m k k result hm, hk]

/-- Without a capacity all results that were given are stored in the end. -/
theorem get?_after_of_faithful {m : Memo} (hm : m.capacity = none)
    {calls : List (Key × List Value)} (h : m.Faithful calls) :
    ∀ call ∈ calls, (m.after calls).get? call.1 = some call.2 := by
  induction calls generalizing m with
  | nil => simp
  | cons call calls ih =>
    obtain ⟨k, result⟩ := call
    obtain ⟨hown, hrest⟩ := h
    rw [List.forall_mem_cons]
    refine ⟨get?_after_of_get? ?_ calls, ih (by rw [capacity_remember, hm]) hrest⟩
    rw [get?_remember_self (by simp [isFull, hm]), hown]

/-- Without a capacity a memo is faithful exactly to calls that agree with one another. -/
theorem faithful_empty_iff (calls : List (Key × List Value)) :
    ({} : Memo).Faithful calls ↔ Agreeing calls := by
  constructor
  · intro h k result result' hr hr'
    have hstored := get?_after_of_faithful rfl h
    exact Option.some.inj ((hstored _ hr).symm.trans (hstored _ hr'))
  · exact fun h => faithful_of_agreeing h (List.nil_subset _) (List.Subset.refl _)

theorem after_closed (calls : List (Key × List Value)) :
    Memo.after { capacity := some 0 } calls = { capacity := some 0 } := by
  induction calls with
  | nil => rfl
  | cons call calls ih => exact ih

theorem faithful_closed (calls : List (Key × List Value)) :
    Memo.Faithful { capacity := some 0 } calls := by
  induction calls with
  | nil => trivial
  | cons call calls ih => exact ⟨rfl, ih⟩

end Memo

namespace Generative

/-- A way to come by the results of a family of calls. -/
abbrev Recall := String → List Value → (Unit → List Value) → StateM Scope (List Value)

def randBy (ask : Recall) : Function := fun cell arguments => do
  let values ← ask "range" arguments fun _ => unitRange arguments
  any cell values

def shapeBy (ask : Recall) : Function := fun _ arguments => do
  match arguments with
  | [] => return none
  | name :: rest =>
    let shapes ← ask "shape" arguments fun _ =>
      ((Shape.generate name.display rest).map Value.text).toList
    return shapes.head?

def tableBy (ask : Recall) : FunctionTable :=
  [("index", index), ("row", row), ("col", col), ("any", any), ("pick", any),
    ("rand", randBy ask), ("shape", shapeBy ask)]

/-- Computes every result anew; the memo only takes note of the call. -/
def note : Recall := fun family arguments compute scope =>
  let call := (Memo.Key.ofCall family arguments, compute ())
  (compute (), { scope with memo := { scope.memo with entries := scope.memo.entries ++ [call] } })

end Generative

/-- The built-in functions with another way to come by costly results. -/
def Registry.builtinBy (ask : Generative.Recall) : Registry :=
  { builtin with functions := Generative.tableBy ask }

theorem Registry.builtinBy_remember : builtinBy Generative.remember = builtin := rfl

namespace Coupling

variable {c : Coupling Scope Scope}

/-- Ways to recall that keep to a coupling give registries that do. -/
theorem KeepsWords.builtinBy (hc : c.KeepsWords) {ask ask' : Generative.Recall}
    (h : ∀ family arguments compute,
      c.Matches Eq (ask family arguments compute) (ask' family arguments compute)) :
    c.Registries (fun _ => True) (Registry.builtinBy ask) (Registry.builtinBy ask') := by
  have hany : c.Functions Generative.any Generative.any := hc.functions_of_isDrawing ⟨_, rfl⟩
  have hrand : c.Functions (Generative.randBy ask) (Generative.randBy ask') :=
    fun cell arguments => (h "range" arguments _).bind_eq fun values => hany cell values
  have hshape : c.Functions (Generative.shapeBy ask) (Generative.shapeBy ask') := by
    intro cell arguments
    cases arguments with
    | nil => exact .pure rfl
    | cons name rest => exact (h "shape" (name :: rest) _).bind_eq fun shapes => .pure rfl
  refine .of_tables tables_predicates ?_ hc.tables_math
  refine .cons ⟨rfl, functions_of_isPure ⟨_, rfl⟩⟩ ?_
  refine .cons ⟨rfl, functions_of_isPure ⟨_, rfl⟩⟩ ?_
  refine .cons ⟨rfl, functions_of_isPure ⟨_, rfl⟩⟩ ?_
  exact .cons ⟨rfl, hany⟩ (.cons ⟨rfl, hany⟩ (.cons ⟨rfl, hrand⟩ (.cons ⟨rfl, hshape⟩ .nil)))

/-- A memo of some capacity beside notes of all calls: it is what the calls leave in it. The notes
have strayed once the memo is not faithful to them. -/
def memoAndNotes (capacity : Option Nat) : Coupling Scope Scope where
  related := fun s t => s.words = t.words ∧
    s.memo = Memo.after { capacity := capacity } t.memo.entries
  strayed := fun t => ¬ Memo.Faithful { capacity := capacity } t.memo.entries

theorem memoAndNotes_keepsWords (capacity : Option Nat) : (memoAndNotes capacity).KeepsWords where
  words := fun _ _ h => h.1
  related := fun _ _ _ h => ⟨rfl, h.2⟩
  strayed := fun _ _ h => h

theorem memoAndNotes_recall (capacity : Option Nat) (family : String) (arguments : List Value)
    (compute : Unit → List Value) :
    (memoAndNotes capacity).Matches Eq (Generative.remember family arguments compute)
      (Generative.note family arguments compute) where
  strays := by
    intro t ht hfaithful
    exact ht ((Memo.faithful_append _ _ _).mp hfaithful).1
  step := by
    rintro s t ⟨hwords, hmemo⟩
    let key := Memo.Key.ofCall family arguments
    -- The two part exactly where the memo has another result than the call itself.
    by_cases hown : (s.memo.remember key compute).1 = compute ()
    · refine .inr ⟨hown, hwords, ?_⟩
      show (s.memo.remember key compute).2 =
        Memo.after _ (t.memo.entries ++ [(key, compute ())])
      rw [Memo.after_append, ← hmemo]
      rfl
    · refine .inl fun hfaithful => hown ?_
      have hlast := ((Memo.faithful_append _ _ _).mp hfaithful).2
      rw [← hmemo] at hlast
      exact hlast.1

end Coupling

namespace Compiler

inductive Request where
  | compile (source : String) (grid : Grid)
  | generate (items : List Item) (grid : Grid)
  | clear

/-- What a compiler answers to a request, and the compiler after it. -/
def answer (c : Compiler) : Request → Option (Except SourceError Output) × Compiler
  | .compile source grid => ((c.compile source grid).1, (c.compile source grid).2)
  | .generate items grid => (some (.ok (c.generate items grid).1), (c.generate items grid).2)
  | .clear => (none, c.clearMemo)

def session (c : Compiler) : List Request → List (Option (Except SourceError Output))
  | [] => []
  | r :: rs => (c.answer r).1 :: (c.answer r).2.session rs

def after (c : Compiler) (rs : List Request) : Compiler := rs.foldl (fun c r => (c.answer r).2) c

/-- A new compiler with the built-in functions. -/
def ofSeed (seed : UInt64) (capacity : Option Nat) (cellSelector : String) : Compiler :=
  { seed := seed, cellSelector := cellSelector, memo := { capacity := capacity } }

/-- A new compiler that computes everything anew and notes the calls. -/
def noting (seed : UInt64) (cellSelector : String) : Compiler :=
  { seed := seed, cellSelector := cellSelector, registry := Registry.builtinBy Generative.note }

/-- The keys and results of all calls to recalling functions, since the memo was last cleared, when
everything is computed anew. -/
def calls (seed : UInt64) (cellSelector : String) (rs : List Request) :
    List (Memo.Key × List Value) :=
  ((noting seed cellSelector).after rs).memo.entries

/-- A compiler with a memo of some capacity beside one that notes the calls. -/
structure Follows (capacity : Option Nat) (c d : Compiler) : Prop where
  seed : c.seed = d.seed
  cellSelector : c.cellSelector = d.cellSelector
  registry : c.registry = Registry.builtin
  registry' : d.registry = Registry.builtinBy Generative.note
  memo : c.memo = Memo.after { capacity := capacity } d.memo.entries

theorem generate_eq (c : Compiler) (items : List Item) (grid : Grid) :
    c.generate items grid =
      let run := Compilation.run c.registry grid items ⟨c.memo, Words.ofSeed c.seed⟩
      (run.1.output c.cellSelector, { c with memo := run.2.memo }) := rfl

variable {capacity : Option Nat} {c d : Compiler}

theorem Follows.generate (h : Follows capacity c d) (items : List Item) (grid : Grid)
    (hf : Memo.Faithful { capacity := capacity } (d.generate items grid).2.memo.entries) :
    (c.generate items grid).1 = (d.generate items grid).1 ∧
      Follows capacity (c.generate items grid).2 (d.generate items grid).2 := by
  have hruns := (Coupling.memoAndNotes_keepsWords capacity).builtinBy
    (Coupling.memoAndNotes_recall capacity)
  have hrun := (hruns.run grid items).step ⟨c.memo, Words.ofSeed c.seed⟩
    ⟨d.memo, Words.ofSeed d.seed⟩ ⟨congrArg Words.ofSeed h.seed, h.memo⟩
  rw [Registry.builtinBy_remember, ← h.registry, ← h.registry'] at hrun
  rcases hrun with hstrayed | ⟨hresult, -, hmemo⟩
  · exact absurd hf hstrayed
  · refine ⟨?_, ⟨h.seed, h.cellSelector, h.registry, h.registry', hmemo⟩⟩
    simp only [generate_eq, hresult, h.cellSelector]

/-- As long as the memo is faithful to the calls, both compilers answer alike. -/
theorem Follows.answer (h : Follows capacity c d) (r : Request)
    (hf : Memo.Faithful { capacity := capacity } (d.answer r).2.memo.entries) :
    (c.answer r).1 = (d.answer r).1 ∧ Follows capacity (c.answer r).2 (d.answer r).2 := by
  cases r with
  | generate items grid =>
    obtain ⟨houtput, hfollows⟩ := h.generate items grid hf
    exact ⟨congrArg (fun o => some (Except.ok o)) houtput, hfollows⟩
  | compile source grid =>
    cases hparse : parse source with
    | error e =>
      simpa only [Compiler.answer, Compiler.compile, hparse, true_and] using h
    | ok items =>
      simp only [Compiler.answer, Compiler.compile, hparse] at hf ⊢
      obtain ⟨houtput, hfollows⟩ := h.generate items grid hf
      exact ⟨congrArg (fun o => some (Except.ok o)) houtput, hfollows⟩
  | clear =>
    refine ⟨rfl, h.seed, h.cellSelector, h.registry, h.registry', ?_⟩
    show c.memo.clear = { capacity := capacity }
    rw [h.memo, Memo.clear, Memo.capacity_after]

/-- As long as the memo is faithful to the calls, both compilers answer a whole session alike. -/
theorem Follows.session (h : Follows capacity c d) (rs : List Request)
    (hf : ∀ rs', rs' <+: rs → Memo.Faithful { capacity := capacity } (d.after rs').memo.entries) :
    c.session rs = d.session rs := by
  induction rs generalizing c d with
  | nil => rfl
  | cons r rs ih =>
    obtain ⟨hanswer, hnext⟩ := h.answer r (hf [r] ⟨rs, rfl⟩)
    simp only [Compiler.session, hanswer]
    congr 1
    exact ih hnext fun rs' hrs' => hf (r :: rs') (List.cons_prefix_cons.mpr ⟨rfl, hrs'⟩)

theorem follows_noting (seed : UInt64) (capacity : Option Nat) (cellSelector : String) :
    Follows capacity (ofSeed seed capacity cellSelector) (noting seed cellSelector) :=
  ⟨rfl, rfl, rfl, rfl, rfl⟩

theorem answer_snd (c : Compiler) (r : Request) :
    ∃ memo, (c.answer r).2 = { c with memo := memo } := by
  cases r with
  | generate items grid => exact ⟨_, rfl⟩
  | compile source grid =>
    simp only [answer, compile]
    cases parse source with
    | error e => exact ⟨c.memo, rfl⟩
    | ok items => exact ⟨_, rfl⟩
  | clear => exact ⟨_, rfl⟩

/-- Notes are never recalled: a compiler that takes them answers every request as a new one does. -/
theorem session_noting (seed : UInt64) (cellSelector : String) (memo : Memo) (rs : List Request) :
    Compiler.session { noting seed cellSelector with memo := memo } rs =
      rs.map fun r => ((ofSeed seed (some 0) cellSelector).answer r).1 := by
  induction rs generalizing memo with
  | nil => rfl
  | cons r rs ih =>
    -- A memo without room is faithful to any calls, so that earlier notes play no part.
    have hfollows : Follows (some 0) (ofSeed seed (some 0) cellSelector)
        { noting seed cellSelector with memo := memo } :=
      ⟨rfl, rfl, rfl, rfl, (Memo.after_closed _).symm⟩
    have hanswer := (hfollows.answer r (Memo.faithful_closed _)).1
    obtain ⟨memo', hmemo'⟩ := answer_snd { noting seed cellSelector with memo := memo } r
    simp only [session, List.map_cons, hanswer, hmemo']
    congr 1
    exact ih memo'

/-- A memo that is faithful to the calls of a session is transparent for it: every answer is that of
a new compiler without a memo. Memos of all capacities are faithful to the calls exactly if calls
with the same key, made between two clearings, have the same result. -/
theorem session_transparent (seed : UInt64) (cellSelector : String) (rs : List Request) :
    (∀ capacity,
      (∀ rs', rs' <+: rs → Memo.Faithful { capacity := capacity } (calls seed cellSelector rs')) →
        (ofSeed seed capacity cellSelector).session rs =
          rs.map fun r => ((ofSeed seed (some 0) cellSelector).answer r).1) ∧
    ((∀ capacity rs', rs' <+: rs →
        Memo.Faithful { capacity := capacity } (calls seed cellSelector rs')) ↔
      ∀ rs', rs' <+: rs → Memo.Agreeing (calls seed cellSelector rs')) := by
  refine ⟨fun capacity hf => ?_, ?_, ?_⟩
  · have hsession := (follows_noting seed capacity cellSelector).session rs hf
    exact hsession.trans (session_noting seed cellSelector {} rs)
  · exact fun hf rs' hrs' => (Memo.faithful_empty_iff _).mp (hf none rs' hrs')
  · exact fun hagree capacity rs' hrs' =>
      Memo.faithful_of_agreeing (hagree rs' hrs') (List.nil_subset _) (List.Subset.refl _)

/-- Two rounds of one shape: the memo answers the second, and nothing tells. -/
theorem session_transparent_circle :
    let circle : Request := .generate
      [.declaration ⟨"clip-path", [.call "shape" [[.text "circle"]]]⟩] (Grid.ofExtents 1 2)
    (∀ rs', rs' <+: [circle, circle] → Memo.Agreeing (calls 0 ".cell" rs')) ∧
    ∀ capacity, (ofSeed 0 capacity ".cell").session [circle, circle] =
      [circle, circle].map fun r => ((ofSeed 0 (some 0) ".cell").answer r).1 := by
  intro circle
  have hcalls : ∀ rs', rs' <+: [circle, circle] → ∀ x ∈ calls 0 ".cell" rs',
      x = (⟨"shape", "circle"⟩, [.text "circle(49%)"]) := by
    intro rs' hrs'
    simp only [List.prefix_cons_iff, List.prefix_nil] at hrs'
    rcases hrs' with rfl | ⟨_, rfl, rfl | ⟨_, rfl, rfl⟩⟩
    · exact fun x hx => absurd hx List.not_mem_nil
    · exact fun x hx => List.eq_of_mem_replicate (n := 2) hx
    · exact fun x hx => List.eq_of_mem_replicate (n := 4) hx
  have hagree : ∀ rs', rs' <+: [circle, circle] → Memo.Agreeing (calls 0 ".cell" rs') := by
    intro rs' hrs' key result result' hmem hmem'
    have hresult := congrArg Prod.snd (hcalls rs' hrs' _ hmem)
    exact hresult.trans (congrArg Prod.snd (hcalls rs' hrs' _ hmem')).symm
  have hfaithful := (session_transparent 0 ".cell" [circle, circle]).2.mpr hagree
  exact ⟨hagree, fun capacity => (session_transparent 0 ".cell" _).1 capacity (hfaithful capacity)⟩

/-- Two calls with one key: the second is given the shape of the first, where there is none. -/
theorem session_not_transparent :
    (ofSeed 0 none ".cell").session
        [.compile "a: @shape(circle, x); b: @shape(circle-x);" .single] ≠
      [Request.compile "a: @shape(circle, x); b: @shape(circle-x);" .single].map
        fun r => ((ofSeed 0 (some 0) ".cell").answer r).1 := by
  decide +kernel

end Compiler

end GridCss
