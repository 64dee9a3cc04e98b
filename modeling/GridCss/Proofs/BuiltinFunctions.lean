import GridCss.Function.Builtin
import GridCss.Proofs.CoupledRuns

/-!
# What the built-in functions touch

Five built-in functions draw random words or recall results; all others are pure, and so are all
predicates. Tables that agree name by name up to a coupling look alike from outside.
-/

namespace GridCss

/-- The built-in functions that draw random words or recall results. -/
def Generative.statefulNames : List String := ["any", "pick", "rand", "random", "shape"]

def Generative.AreStateless (names : List String) : Prop := ∀ name ∈ names, name ∉ statefulNames

instance Generative.decidableAreStateless (names : List String) : Decidable (AreStateless names) :=
  inferInstanceAs (Decidable (∀ name ∈ names, name ∉ statefulNames))

theorem Generative.areStateless_append {names names' : List String} :
    AreStateless (names ++ names') ↔ AreStateless names ∧ AreStateless names' :=
  List.forall_mem_append

def Function.IsPure (f : Function) : Prop := ∃ g, f = Function.pure g

def Function.IsDrawing (f : Function) : Prop := ∃ g, f = Function.drawing g

theorem Predicate.table_isPure : ∀ e ∈ Predicate.table, e.2.IsPure := by
  simp only [Predicate.table, List.forall_mem_cons]
  refine ⟨⟨_, rfl⟩, ⟨_, rfl⟩, ⟨_, rfl⟩, ⟨_, rfl⟩, ⟨_, rfl⟩, ⟨_, rfl⟩, ?_⟩
  exact List.forall_mem_nil _

theorem Math.exists_constant : ∀ e ∈ Math.constants, ∃ x, e.2 = Math.constant x := by
  simp only [Math.constants, List.forall_mem_cons]
  refine ⟨⟨_, rfl⟩, ⟨_, rfl⟩, ⟨_, rfl⟩, ⟨_, rfl⟩, ⟨_, rfl⟩, ⟨_, rfl⟩, ⟨_, rfl⟩, ⟨_, rfl⟩, ?_⟩
  exact List.forall_mem_nil _

theorem Math.exists_unary : ∀ e ∈ Math.unaries, ∃ f, e.2 = Math.unary f := by
  simp only [Math.unaries, List.forall_mem_cons]
  repeat' apply And.intro
  all_goals first | exact ⟨_, rfl⟩ | exact List.forall_mem_nil _

theorem Math.random_isDrawing : Math.random.IsDrawing := ⟨_, rfl⟩

/-- Of the mathematical functions only `random` is not pure; it draws. -/
theorem Math.table_cases : ∀ e ∈ Math.table, e.2.IsPure ∨ (e.1 = "random" ∧ e.2.IsDrawing) := by
  intro e he
  simp only [Math.table, List.mem_append, List.mem_cons, List.not_mem_nil, or_false] at he
  rcases he with (he | he) | rfl | rfl | rfl | rfl | rfl | rfl | rfl
  · obtain ⟨x, hx⟩ := Math.exists_constant e he
    exact .inl ⟨_, hx⟩
  · obtain ⟨f, hf⟩ := Math.exists_unary e he
    exact .inl ⟨_, hf⟩
  iterate 6 exact .inl ⟨_, rfl⟩
  exact .inr ⟨rfl, Math.random_isDrawing⟩

theorem FunctionTable.mem_of_get? {t : FunctionTable} {name : String} {f : Function}
    (h : t.get? name = some f) : (name, f) ∈ t := by
  obtain ⟨before, after, rfl, -⟩ := List.lookup_eq_some_iff.mp h
  simp

/-- A built-in function of any other name is pure. -/
theorem Registry.builtin_function_isPure {name : String} {f : Function}
    (h : builtin.function? name = some f) (hname : name ∉ Generative.statefulNames) :
    f.IsPure := by
  simp only [Generative.statefulNames, List.mem_cons, List.not_mem_nil, or_false, not_or] at hname
  rcases Option.or_eq_some_iff.mp h with h | ⟨-, h⟩
  · have hmem := FunctionTable.mem_of_get? h
    simp only [builtin, Generative.table, List.mem_cons, Prod.mk.injEq, List.not_mem_nil,
      or_false] at hmem
    rcases hmem with h | h | h | h | h | h | h
    · exact ⟨_, h.2⟩
    · exact ⟨_, h.2⟩
    · exact ⟨_, h.2⟩
    all_goals simp_all
  · rcases Math.table_cases _ (FunctionTable.mem_of_get? h) with h | h
    · exact h
    · exact absurd h.1 hname.2.2.2.1

theorem Registry.builtin_predicate_isPure {name : String} {f : Function}
    (h : builtin.predicate? name = some f) : f.IsPure :=
  Predicate.table_isPure _ (FunctionTable.mem_of_get? h)

namespace Coupling

variable {c : Coupling Scope Scope}

theorem functions_of_isPure {f : Function} (h : f.IsPure) : c.Functions f f := by
  obtain ⟨g, rfl⟩ := h
  exact fun _ _ => .pure rfl

/-- Scopes that belong together hold the same random words, and belong together again after the same
change to them. -/
structure KeepsWords (c : Coupling Scope Scope) : Prop where
  words : ∀ s t, c.related s t → s.words = t.words
  related : ∀ s t w, c.related s t → c.related { s with words := w } { t with words := w }
  strayed : ∀ t w, c.strayed t → c.strayed { t with words := w }

theorem KeepsWords.functions_of_isDrawing (hc : c.KeepsWords) {f : Function} (h : f.IsDrawing) :
    c.Functions f f := by
  obtain ⟨g, rfl⟩ := h
  intro cell arguments
  refine ⟨fun t ht => hc.strayed t _ ht, fun s t hst => .inr ?_⟩
  have hwords := hc.words s t hst
  exact ⟨congrArg (fun w => (g arguments w).1) hwords, by
    show c.related { s with words := (g arguments s.words).2 } _
    rw [hwords]
    exact hc.related s t _ hst⟩

/-- Two tables with the same names in the same order, whose functions keep to a coupling. -/
def Tables (c : Coupling Scope Scope) (t t' : FunctionTable) : Prop :=
  List.Forall₂ (fun e e' => e.1 = e'.1 ∧ c.Functions e.2 e'.2) t t'

theorem Tables.get? {t t' : FunctionTable} (h : c.Tables t t') (name : String) :
    Option.Rel c.Functions (t.get? name) (t'.get? name) := by
  induction h with
  | nil => exact .none
  | @cons e e' t t' he _ ih =>
    obtain ⟨n, f⟩ := e
    obtain ⟨n', f'⟩ := e'
    obtain ⟨rfl, hf⟩ : n = n' ∧ c.Functions f f' := he
    simp only [FunctionTable.get?, List.lookup_cons]
    split
    · exact .some hf
    · exact ih

theorem Tables.refl {t : FunctionTable} (h : ∀ e ∈ t, c.Functions e.2 e.2) : c.Tables t t :=
  List.forall₂_same.mpr fun e he => ⟨rfl, h e he⟩

theorem rel_or {R : Function → Function → Prop} {a a' b b' : Option Function}
    (ha : Option.Rel R a a') (hb : Option.Rel R b b') : Option.Rel R (a.or b) (a'.or b') := by
  cases ha with
  | some h => exact .some h
  | none => exact hb

/-- Registries with coupled tables are coupled in all names. -/
theorem Registries.of_tables {r r' : Registry} (hp : c.Tables r.predicates r'.predicates)
    (hf : c.Tables r.functions r'.functions) (hm : c.Tables r.math r'.math) :
    c.Registries (fun _ => True) r r' where
  function := fun name _ => rel_or (hf.get? name) (hm.get? name)
  predicate := fun name => hp.get? name

theorem tables_predicates : c.Tables Predicate.table Predicate.table :=
  .refl fun e he => functions_of_isPure (Predicate.table_isPure e he)

theorem KeepsWords.tables_math (hc : c.KeepsWords) : c.Tables Math.table Math.table := by
  refine .refl fun e he => ?_
  rcases Math.table_cases e he with h | h
  · exact functions_of_isPure h
  · exact hc.functions_of_isDrawing h.2

end Coupling

end GridCss
