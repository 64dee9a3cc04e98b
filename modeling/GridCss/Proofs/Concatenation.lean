import Mathlib.Data.List.Induction
import GridCss.Proofs.BlockNumbers

/-!
# Sources one behind the other

A reader that has come to the end of an item is in the state of a new one, apart from what it has
read: items in front, lines and columns passed, and numbers given to pseudo blocks. These displace
what is read from there on and change nothing else. Two sources joined at a semicolon are thus read
as one after the other, with the second one's numbers and positions moved on.
-/

namespace GridCss

mutual

/-- An item with higher numbers of its pseudo blocks. -/
def Item.renumber (n : Nat) : Item → Item
  | .declaration d => .declaration d
  | .pseudo b => .pseudo { b with id := b.id + n }
  | .conditional name arguments items => .conditional name arguments (Item.renumberAll n items)
  | .keyframes k => .keyframes k
  | .comment text => .comment text

def Item.renumberAll (n : Nat) : List Item → List Item
  | [] => []
  | item :: rest => item.renumber n :: Item.renumberAll n rest

end

theorem Item.renumberAll_append (n : Nat) (items more : List Item) :
    renumberAll n (items ++ more) = renumberAll n items ++ renumberAll n more := by
  induction items with
  | nil => rfl
  | cons item rest ih => simp [renumberAll, ih]

namespace Source

def Step.map {σ τ α : Type} (g : σ → τ) : Step σ α → Step τ α
  | .more state => .more (g state)
  | .done result => .done result
  | .closed result => .closed result

/-- What stands in front of a text: its items, the line breaks in it, the columns behind the last of
them, the number of its pseudo blocks, and the conditionals that it leaves open. -/
structure Front where
  items : List Item := []
  lines : Nat
  columns : Nat
  blocks : Nat := 0
  outer : List OpenConditional := []

namespace Front

variable (f : Front)

/-- Only positions on the first line change their column. -/
def position (p : Position) : Position :=
  ⟨p.line + f.lines, if p.line = 1 then p.column + f.columns else p.column⟩

def error (e : SourceError) : SourceError := { e with position := f.position e.position }

def result {α β : Type} (g : α → β) : Except SourceError α → Except SourceError β
  | .error e => .error (f.error e)
  | .ok a => .ok (g a)

def declaration : DeclarationReader → DeclarationReader
  | .property name => .property name
  | .gap name since => .gap name (f.position since)
  | .value name reader => .value name reader

def blockMode : BlockMode → BlockMode
  | .idle => .idle
  | .slash first => .slash (f.position first)
  | .comment comment => .comment comment
  | .declaration declaration => .declaration (f.declaration declaration)

def block (r : BlockReader) : BlockReader := { r with mode := f.blockMode r.mode }

def stepsMode : StepsMode → StepsMode
  | .idle => .idle
  | .slash => .slash
  | .comment comment => .comment comment
  | .selector text => .selector text
  | .block selector block => .block selector (f.block block)

def steps (r : StepsReader) : StepsReader := { r with mode := f.stepsMode r.mode }

def mode : Mode → Mode
  | .idle => .idle
  | .slash first => .slash (f.position first)
  | .comment comment => .comment comment
  | .declaration declaration => .declaration (f.declaration declaration)
  | .selector id text => .selector (id + f.blocks) text
  | .pseudo id selector block => .pseudo (id + f.blocks) selector (f.block block)
  | .word name => .word name
  | .header name arguments => .header name arguments
  | .arguments name arguments => .arguments name arguments
  | .keyframesName name => .keyframesName name
  | .keyframesHeader name => .keyframesHeader name
  | .keyframes name steps => .keyframes name (f.steps steps)

/-- The items of the outermost list come behind those in front. -/
def itemsIn (enclosing : List OpenConditional) (items : List Item) : List Item :=
  (if enclosing.isEmpty then f.items else []) ++ Item.renumberAll f.blocks items

def enclosing : List OpenConditional → List OpenConditional
  | [] => f.outer
  | o :: outer => { o with before := f.itemsIn outer o.before } :: enclosing outer

def reader (r : Reader) : Reader :=
  { mode := f.mode r.mode
    items := f.itemsIn r.enclosing r.items
    enclosing := f.enclosing r.enclosing
    nextId := r.nextId + f.blocks }

theorem value_stepPlain (r : ValueReader) (p : Position) (c : Char) :
    r.stepPlain (f.position p) c = f.result id (r.stepPlain p c) := by
  unfold ValueReader.stepPlain
  split_ifs <;> rfl

theorem value_step (r : ValueReader) (p : Position) (c : Char) :
    r.step (f.position p) c = f.result id (r.step p c) := by
  unfold ValueReader.step
  cases r.mode with
  | plain => exact f.value_stepPlain r p c
  | sign name =>
    dsimp only
    split_ifs
    · rfl
    · rfl
    · exact f.value_stepPlain _ p c
  | call name arguments =>
    dsimp only
    cases arguments.step c <;> rfl

theorem declaration_start (p : Position) (c : Char) :
    DeclarationReader.start (f.position p) c =
      f.result f.declaration (DeclarationReader.start p c) := by
  unfold DeclarationReader.start
  split_ifs <;> rfl

theorem declaration_step (r : DeclarationReader) (p : Position) (c : Char) :
    (f.declaration r).step (f.position p) c =
      f.result (Step.map f.declaration) (r.step p c) := by
  cases r with
  | property name =>
    simp only [declaration, DeclarationReader.step]
    split_ifs <;> rfl
  | gap name since =>
    simp only [declaration, DeclarationReader.step]
    split_ifs <;> rfl
  | value name reader =>
    simp only [declaration, DeclarationReader.step, f.value_step]
    cases reader.step p c with
    | error e => rfl
    | ok step => cases step <;> rfl

theorem block_stepIdle (r : BlockReader) (p : Position) (c : Char) :
    (f.block r).stepIdle (f.position p) c = f.result (Sum.map f.block id) (r.stepIdle p c) := by
  unfold BlockReader.stepIdle
  split_ifs
  · rfl
  · rfl
  · rfl
  · rfl
  · rw [f.declaration_start]
    cases DeclarationReader.start p c <;> rfl

theorem block_step (r : BlockReader) (p : Position) (c : Char) :
    (f.block r).step (f.position p) c = f.result (Sum.map f.block id) (r.step p c) := by
  obtain ⟨mode, declarations⟩ := r
  cases mode with
  | idle => exact f.block_stepIdle ⟨.idle, declarations⟩ p c
  | slash first =>
    simp only [block, blockMode, BlockReader.step]
    cases CommentReader.behindSlash? c <;> rfl
  | comment comment =>
    simp only [block, blockMode, BlockReader.step]
    cases comment.step c <;> rfl
  | declaration declaration =>
    simp only [block, blockMode, BlockReader.step, f.declaration_step]
    cases declaration.step p c with
    | error e => rfl
    | ok step => cases step <;> rfl

theorem block_endFault (r : BlockReader) (p : Position) :
    (f.block r).endFault (f.position p) = f.error (r.endFault p) := by
  obtain ⟨mode, declarations⟩ := r
  cases mode <;> rfl

theorem steps_step (r : StepsReader) (p : Position) (c : Char) :
    (f.steps r).step (f.position p) c = f.result (Sum.map f.steps id) (r.step p c) := by
  have hselector : ∀ text, (f.steps r).stepSelector text c = f.steps (r.stepSelector text c) := by
    intro text
    unfold StepsReader.stepSelector
    split_ifs <;> rfl
  obtain ⟨mode, steps⟩ := r
  cases mode with
  | idle =>
    simp only [Front.steps, stepsMode, StepsReader.step]
    split_ifs
    · rfl
    · rfl
    · rfl
    · rfl
    · exact congrArg (fun r => Except.ok (Sum.inl r)) (hselector [])
  | slash =>
    simp only [Front.steps, stepsMode, StepsReader.step]
    cases CommentReader.behindSlash? c with
    | some comment => rfl
    | none => exact congrArg (fun r => Except.ok (Sum.inl r)) (hselector ['/'])
  | comment comment =>
    simp only [Front.steps, stepsMode, StepsReader.step]
    cases comment.step c <;> rfl
  | selector text => exact congrArg (fun r => Except.ok (Sum.inl r)) (hselector text)
  | block selector block =>
    simp only [Front.steps, stepsMode, StepsReader.step, f.block_step]
    cases block.step p c with
    | error e => rfl
    | ok result => cases result <;> rfl

theorem steps_endFault (r : StepsReader) (p : Position) :
    (f.steps r).endFault (f.position p) = f.error (r.endFault p) := by
  obtain ⟨mode, steps⟩ := r
  cases mode with
  | block selector block => exact f.block_endFault block p
  | idle | slash | comment | selector => rfl

theorem reader_mode (r : Reader) : (f.reader r).mode = f.mode r.mode := rfl

theorem reader_add (r : Reader) (item : Item) :
    (f.reader r).add (item.renumber f.blocks) = f.reader (r.add item) := by
  simp [reader, Reader.add, itemsIn, Item.renumberAll_append, Item.renumberAll, mode]

theorem result_number (r : Reader) :
    .ok { f.reader r with
      mode := .selector (f.reader r).nextId [':'], nextId := (f.reader r).nextId + 1 } =
      f.result f.reader
        (.ok { r with mode := .selector r.nextId [':'], nextId := r.nextId + 1 }) := by
  simp [result, reader, mode, Nat.add_right_comm]

theorem result_add (r : Reader) (item : Item) :
    .ok ((f.reader r).add (item.renumber f.blocks)) = f.result f.reader (.ok (r.add item)) := by
  rw [reader_add]
  rfl

theorem result_openBlock (r : Reader) (name : String) (arguments : List (List Argument)) :
    .ok ((f.reader r).openBlock name arguments) =
      f.result f.reader (.ok (r.openBlock name arguments)) := by
  simp [result, reader, Reader.openBlock, itemsIn, enclosing, Item.renumberAll, mode]

theorem reader_closeBlock? {r r' : Reader} (h : r.closeBlock? = some r') :
    (f.reader r).closeBlock? = some (f.reader r') := by
  obtain ⟨m, items, outer, nextId⟩ := r
  cases outer with
  | nil => cases h
  | cons o outer =>
    cases h
    simp [reader, Reader.closeBlock?, itemsIn, enclosing, Item.renumberAll_append,
      Item.renumberAll, Item.renumber, mode]

theorem reader_closeBlock?_none (houter : f.outer = []) {r : Reader} (h : r.closeBlock? = none) :
    (f.reader r).closeBlock? = none := by
  obtain ⟨m, items, outer, nextId⟩ := r
  cases outer with
  | nil => simp [reader, Reader.closeBlock?, enclosing, houter]
  | cons o outer => cases h

/-- What stands in front displaces each step. Only a brace that closes nothing may close a
conditional that is open in front. -/
theorem reader_takes {r : Reader} {p : Position} {c : Char} {m : Mode}
    {result : Except SourceError Reader} (h : r.Takes p c m result)
    (houter : f.outer = [] ∨ ∃ r', result = .ok r') :
    (f.reader r).Takes (f.position p) c (f.mode m) (f.result f.reader result) := by
  have hclosed : ∀ {e : SourceError},
      (f.outer = [] ∨ ∃ r' : Reader, Except.error e = .ok r') → f.outer = [] := by
    rintro e (h | ⟨_, ⟨⟩⟩)
    exact h
  have hadd : ∀ d, (f.reader r).add (.declaration d) = f.reader (r.add (.declaration d)) :=
    fun d => f.reader_add r (.declaration d)
  have hdeclaration : ∀ {d : DeclarationReader} {x}, d.step p c = x →
      (f.declaration d).step (f.position p) c = f.result (Step.map f.declaration) x := by
    rintro d _ rfl
    exact f.declaration_step d p c
  have hblock : ∀ {b : BlockReader} {x}, b.step p c = x →
      (f.block b).step (f.position p) c = f.result (Sum.map f.block id) x := by
    rintro b _ rfl
    exact f.block_step b p c
  have hsteps : ∀ {b : StepsReader} {x}, b.step p c = x →
      (f.steps b).step (f.position p) c = f.result (Sum.map f.steps id) x := by
    rintro b _ rfl
    exact f.steps_step b p c
  induction h with
  | skip hc => exact .skip hc
  | hash hc => exact .hash hc
  | slash hc => exact .slash hc
  | colon hc => exact f.result_number r ▸ .colon hc
  | sign hc => exact .sign hc
  | close hc hclose => exact .close hc (f.reader_closeBlock? hclose)
  | property hc => exact .property hc
  | noItem hblank hname hc hclose =>
    exact .noItem hblank hname hc fun hbrace =>
      f.reader_closeBlock?_none (hclosed houter) (hclose hbrace)
  | startComment h => exact .startComment h
  | noComment h => exact .noComment h
  | commentMore h => exact .commentMore h
  | commentEnd h => exact f.result_add r _ ▸ .commentEnd h
  | declarationFault h => exact .declarationFault (hdeclaration h)
  | declarationMore h => exact .declarationMore (hdeclaration h)
  | declarationEnd h => exact f.result_add r _ ▸ .declarationEnd (hdeclaration h)
  | declarationClose h hclose =>
    exact .declarationClose (hdeclaration h) (hadd _ ▸ f.reader_closeBlock? hclose)
  | declarationUnclosed h hclose =>
    exact .declarationUnclosed (hdeclaration h)
      (hadd _ ▸ f.reader_closeBlock?_none (hclosed houter) hclose)
  | selectorOpen hc => exact .selectorOpen hc
  | selectorBlank hblank => exact .selectorBlank hblank
  | selectorMore hblank hc => exact .selectorMore hblank hc
  | pseudoFault h => exact .pseudoFault (hblock h)
  | pseudoMore h => exact .pseudoMore (hblock h)
  | pseudoEnd h => exact f.result_add r _ ▸ .pseudoEnd (hblock h)
  | wordMore hc => exact .wordMore hc
  | wordKeyframes hc hname _ ih => exact .wordKeyframes hc hname (ih houter)
  | wordHeader hc hname _ ih => exact .wordHeader hc hname (ih houter)
  | headerBlank hblank => exact .headerBlank hblank
  | headerOpen hc => exact f.result_openBlock r _ _ ▸ .headerOpen hc
  | headerArguments hc => exact .headerArguments hc
  | headerFault hblank hc harguments => exact .headerFault hblank hc harguments
  | argumentsMore h => exact .argumentsMore h
  | argumentsEnd h => exact .argumentsEnd h
  | nameSkip hblank => exact .nameSkip hblank
  | nameEnd hname hblank => exact .nameEnd hname hblank
  | nameMissing hc => exact .nameMissing hc
  | nameOpen hname hc => exact .nameOpen hname hc
  | nameMore hblank hc => exact .nameMore hblank hc
  | keyframesBlank hblank => exact .keyframesBlank hblank
  | keyframesOpen hc => exact .keyframesOpen hc
  | keyframesNoBlock hblank hc => exact .keyframesNoBlock hblank hc
  | keyframesFault h => exact .keyframesFault (hsteps h)
  | keyframesMore h => exact .keyframesMore (hsteps h)
  | keyframesEnd h => exact f.result_add r _ ▸ .keyframesEnd (hsteps h)

theorem reader_step {r : Reader} {p : Position} {c : Char}
    (houter : f.outer = [] ∨ ∃ r', r.step p c = .ok r') :
    (f.reader r).step (f.position p) c = f.result f.reader (r.step p c) :=
  (f.reader_takes (r.takes_step p c) houter).step_eq

theorem reader_finishIdle (houter : f.outer = []) (r : Reader) (p : Position) :
    (f.reader r).finishIdle (f.position p) =
      f.result (fun items => f.items ++ Item.renumberAll f.blocks items) (r.finishIdle p) := by
  obtain ⟨m, items, outer, nextId⟩ := r
  cases outer with
  | nil => simp [reader, Reader.finishIdle, enclosing, houter, result, itemsIn]
  | cons o outer => rfl

theorem reader_finish (houter : f.outer = []) (r : Reader) (p : Position) :
    (f.reader r).finish (f.position p) =
      f.result (fun items => f.items ++ Item.renumberAll f.blocks items) (r.finish p) := by
  cases hmode : r.mode with
  | idle =>
    simp only [Reader.finish, reader_mode, hmode, mode]
    exact f.reader_finishIdle houter r p
  | comment comment =>
    have hadd : (f.reader r).add (.comment comment.text) =
        f.reader (r.add (.comment comment.text)) := f.reader_add r (.comment comment.text)
    simp only [Reader.finish, reader_mode, hmode, mode, hadd]
    exact f.reader_finishIdle houter _ p
  | declaration declaration =>
    have hfinish : (f.declaration declaration).finish = declaration.finish := by
      cases declaration <;> rfl
    simp only [Reader.finish, reader_mode, hmode, mode, hfinish]
    cases declaration.finish with
    | none => rfl
    | some d =>
      have hadd : (f.reader r).add (.declaration d) = f.reader (r.add (.declaration d)) :=
        f.reader_add r (.declaration d)
      simp only [hadd]
      exact f.reader_finishIdle houter _ p
  | pseudo id selector block =>
    simp only [Reader.finish, reader_mode, hmode, mode, f.block_endFault]
    rfl
  | keyframes name steps =>
    simp only [Reader.finish, reader_mode, hmode, mode, f.steps_endFault]
    rfl
  | word name =>
    simp only [Reader.finish, reader_mode, hmode, mode]
    split_ifs <;> rfl
  | keyframesName name =>
    simp only [Reader.finish, reader_mode, hmode, mode]
    split_ifs <;> rfl
  | slash | selector | header | arguments | keyframesHeader =>
    simp only [Reader.finish, reader_mode, hmode, mode]
    rfl

theorem position_advance {p : Position} (hp : 1 ≤ p.line) (c : Char) :
    (f.position p).advance c = f.position (p.advance c) := by
  unfold Position.advance
  split_ifs with hc
  · have hline : p.line + 1 ≠ 1 := by omega
    simp only [position, if_neg hline, Nat.add_right_comm]
  · unfold position
    split_ifs
    · simp [Nat.add_right_comm]
    · rfl

theorem one_le_line_advance {p : Position} (hp : 1 ≤ p.line) (c : Char) :
    1 ≤ (p.advance c).line := by
  unfold Position.advance
  split_ifs
  · exact Nat.le_add_left 1 p.line
  · exact hp

/-- What stands in front displaces what is read, and nothing else. -/
theorem reader_feed {r : Reader} {p : Position} (hp : 1 ≤ p.line) {cs : List Char}
    (houter : f.outer = [] ∨ ∃ r', r.feed p cs = .ok r') :
    (f.reader r).feed (f.position p) cs = f.result f.reader (r.feed p cs) := by
  induction cs generalizing r p with
  | nil => rfl
  | cons c cs ih =>
    unfold Reader.feed at houter ⊢
    cases hstep : r.step p c with
    | error e =>
      rw [hstep] at houter
      rw [f.reader_step (hstep ▸ houter), hstep]
      rfl
    | ok r' =>
      rw [hstep] at houter
      rw [f.reader_step (.inr ⟨r', hstep⟩), hstep]
      simp only [result, f.position_advance hp]
      exact ih (one_le_line_advance hp c) houter

theorem position_advanceAll {p : Position} (hp : 1 ≤ p.line) (cs : List Char) :
    (f.position p).advanceAll cs = f.position (p.advanceAll cs) := by
  induction cs generalizing p with
  | nil => rfl
  | cons c cs ih =>
    rw [Position.advanceAll_cons, Position.advanceAll_cons, f.position_advance hp]
    exact ih (one_le_line_advance hp c)

theorem reader_read (houter : f.outer = []) (r : Reader) {p : Position} (hp : 1 ≤ p.line)
    (cs : List Char) :
    (f.reader r).read (f.position p) cs =
      f.result (fun items => f.items ++ Item.renumberAll f.blocks items) (r.read p cs) := by
  simp only [Reader.read, f.reader_feed hp (.inl houter), f.position_advanceAll hp]
  cases r.feed p cs with
  | error e => rfl
  | ok r => exact f.reader_finish houter r _

end Front

theorem ArgumentReader.eq_paren_of_inr {r : ArgumentReader} {c : Char}
    {groups : List (List Argument)} (h : r.step c = .inr groups) : c = ')' := by
  have hplain : ∀ r' : ArgumentReader, r'.stepPlain c = .inr groups → c = ')' := by
    intro r' h'
    by_contra hc
    unfold stepPlain at h'
    split at h'
    · cases h'
    · simp only [hc, if_false] at h'
      split_ifs at h'
  unfold step at h
  split at h
  · exact hplain _ h
  · split at h
    · cases h
    split at h
    · cases h
    · exact hplain _ h
  · dsimp only at h
    split at h
    · split at h <;> cases h
    · split at h <;> cases h
  · split at h <;> cases h

/-- A declaration that a semicolon does not end is in the middle of a call. -/
theorem DeclarationReader.finish_after_semicolon {r r' : DeclarationReader} {p : Position}
    (h : r.step p ';' = .ok (.more r')) : r'.finish = none := by
  cases r with
  | property name => cases h
  | gap name since => cases h
  | value name reader =>
    obtain ⟨mode, nodes, text⟩ := reader
    cases mode with
    | plain => cases h
    | sign sign => cases h
    | call call arguments =>
      simp only [step, ValueReader.step] at h
      cases hstep : arguments.step ';' with
      | inl arguments =>
        rw [hstep] at h
        cases h
        rfl
      | inr groups => exact absurd (ArgumentReader.eq_paren_of_inr hstep) (by decide)

namespace Reader

/-- Behind a semicolon, a declaration that is still being read could not end. -/
theorem Takes.semicolon {r : Reader} {p : Position} {mode : Mode}
    {result : Except SourceError Reader} (h : r.Takes p ';' mode result) :
    Ensures (fun r' => ∀ d, r'.mode = .declaration d → d.finish = none) result := by
  induction h with
  | declarationMore h =>
    rintro _ ⟨⟩
    exact DeclarationReader.finish_after_semicolon h
  | property hc => exact absurd hc (by decide)
  | close hc => exact absurd hc (by decide)
  | declarationClose h => exact absurd (DeclarationReader.eq_brace_of_closed h) (by decide)
  | wordKeyframes _ _ _ ih => exact ih
  | wordHeader _ _ _ ih => exact ih
  | noItem | noComment | declarationFault | declarationUnclosed | pseudoFault | headerFault
    | nameMissing | keyframesNoBlock | keyframesFault => trivial
  -- All other steps end in no declaration.
  | _ => rintro _ ⟨⟩

/-- A reader that has just read a semicolon and could end there stands between two items, unless it
is in a comment. -/
theorem mode_after_semicolon {r r' : Reader} {p q : Position} {items : List Item}
    (h : r.step p ';' = .ok r') (hfinish : r'.finish q = .ok items)
    (hlast : ∀ text, items.getLast? ≠ some (.comment text)) :
    r'.mode = .idle ∧ r'.enclosing = [] ∧ r'.items = items := by
  obtain ⟨henclosing, hcases⟩ := finish_eq_ok hfinish
  rcases hcases with ⟨hmode, rfl⟩ | ⟨comment, hmode, rfl⟩ | ⟨declaration, d, hmode, hd, rfl⟩
  · exact ⟨hmode, henclosing, rfl⟩
  · exact absurd (List.getLast?_concat ..) (hlast comment.text)
  · have hopen := (r.takes_step p ';').semicolon.of_eq h
    rw [hopen declaration hmode] at hd
    cases hd

theorem exists_last_step {r r' : Reader} {p : Position} {cs : List Char} {c : Char}
    (h : r.feed p (cs ++ [c]) = .ok r') :
    ∃ (r₀ : Reader) (p₀ : Position), r₀.step p₀ c = .ok r' := by
  rw [feed_append] at h
  split at h
  · cases h
  · next r₀ hfeed =>
    simp only [feed] at h
    split at h
    · cases h
    · next hstep =>
      cases h
      exact ⟨r₀, _, hstep⟩

theorem read_append {r r' : Reader} {p : Position} {cs : List Char} (h : r.feed p cs = .ok r')
    (ds : List Char) : r.read p (cs ++ ds) = r'.read (p.advanceAll cs) ds := by
  simp only [read, feed_append, h, Position.advanceAll_append]

end Reader
end Source

/-- The line breaks in a text and the characters behind the last of them lead from its start to its
end. -/
theorem Position.advanceAll_start (cs : List Char) :
    Position.advanceAll {} cs =
      ⟨1 + cs.count '\n', 1 + (cs.reverse.takeWhile (· != '\n')).length⟩ := by
  induction cs using List.reverseRecOn with
  | nil => rfl
  | append_singleton cs c ih =>
    rw [Position.advanceAll_append, ih, Position.advanceAll_cons, Position.advanceAll_nil,
      List.count_append, List.reverse_append, List.reverse_singleton, List.singleton_append]
    unfold Position.advance
    by_cases hc : c = '\n'
    · simp [hc, Nat.add_assoc]
    · simp [hc, Nat.add_assoc]

open Source

/-- Reading two sources, the first of which ends with a semicolon that is not in a comment, is
reading one and then the other. The pseudo blocks of the second are numbered on from those of the
first, and its faults are found where the first source has moved them. -/
theorem parse_append {s₁ : String} {items₁ : List Item} (hend : s₁.toList.getLast? = some ';')
    (hparse : parse s₁ = .ok items₁) (hlast : ∀ text, items₁.getLast? ≠ some (.comment text))
    (s₂ : String) :
    let blocks := (Item.blocksAll items₁).length
    let lines := s₁.toList.count '\n'
    let columns := (s₁.toList.reverse.takeWhile (· != '\n')).length
    parse (s₁ ++ s₂) =
      match parse s₂ with
      | .ok items₂ => .ok (items₁ ++ Item.renumberAll blocks items₂)
      | .error ⟨fault, ⟨line, column⟩⟩ =>
        .error ⟨fault, ⟨line + lines, if line = 1 then column + columns else column⟩⟩ := by
  intro blocks lines columns
  let f : Front := ⟨items₁, lines, columns, blocks, []⟩
  obtain ⟨r, hfeed, hfinish⟩ := parse_eq_ok hparse
  have hnext : r.nextId = blocks := by
    have hids := (Reader.numbered_empty.feed hfeed).finish hfinish
    rw [Item.blockIds_of_parse hparse] at hids
    simpa using (congrArg List.length hids).symm
  obtain ⟨cs, hcs⟩ := List.getLast?_eq_some_iff.mp hend
  obtain ⟨r₀, p, hstep⟩ := Reader.exists_last_step (hcs ▸ hfeed)
  obtain ⟨hmode, henclosing, hitems⟩ := Reader.mode_after_semicolon hstep hfinish hlast
  -- The reader that the first source leaves is a new one, displaced by what stands in front.
  have hreader : r = f.reader {} := by
    obtain ⟨m, items, enclosing, nextId⟩ := r
    dsimp only at hmode henclosing hitems hnext
    simp [f, hmode, henclosing, hitems, hnext, Front.reader, Front.mode, Front.itemsIn,
      Front.enclosing, Item.renumberAll]
  have hposition : Position.advanceAll {} s₁.toList = f.position {} := by
    rw [Position.advanceAll_start]
    rfl
  have hsecond := @Front.reader_read f rfl {} {} (by decide) s₂.toList
  rw [parse, String.toList_append, Reader.read_append hfeed, hreader, hposition, hsecond]
  unfold parse
  cases Reader.read {} {} s₂.toList with
  | error e => rfl
  | ok items₂ => rfl

/-- A nested block in front of another block, and of a property name in two words. -/
theorem parse_append_nested :
    let items₁ : List Item :=
      [.conditional "odd" [] [.pseudo ⟨0, ":a", [⟨"b", [.text "c"]⟩]⟩],
        .declaration ⟨"x", [.text "1"]⟩]
    "@odd\x7b:a\x7bb:c\x7d\x7d\n x:1;".toList.getLast? = some ';' ∧
    parse "@odd\x7b:a\x7bb:c\x7d\x7d\n x:1;" = .ok items₁ ∧
    (∀ text, items₁.getLast? ≠ some (.comment text)) ∧
    parse ("@odd\x7b:a\x7bb:c\x7d\x7d\n x:1;" ++ ":d\x7be:f\x7d") =
      .ok (items₁ ++ [.pseudo ⟨1, ":d", [⟨"e", [.text "f"]⟩]⟩]) ∧
    parse ("@odd\x7b:a\x7bb:c\x7d\x7d\n x:1;" ++ "y z:2") = .error ⟨.badPropertyName, ⟨2, 7⟩⟩ := by
  intro items₁
  have hend : "@odd\x7b:a\x7bb:c\x7d\x7d\n x:1;".toList.getLast? = some ';' := by decide
  have hparse : parse "@odd\x7b:a\x7bb:c\x7d\x7d\n x:1;" = .ok items₁ := rfl
  have hlast : ∀ text, items₁.getLast? ≠ some (.comment text) := by simp [items₁]
  have hblock : parse ":d\x7be:f\x7d" = .ok [.pseudo ⟨0, ":d", [⟨"e", [.text "f"]⟩]⟩] := rfl
  have hfault : parse "y z:2" = .error ⟨.badPropertyName, ⟨1, 2⟩⟩ := rfl
  refine ⟨hend, hparse, hlast, ?_, ?_⟩
  · rw [parse_append hend hparse hlast, hblock]
    rfl
  · rw [parse_append hend hparse hlast, hfault]
    rfl

end GridCss
