import Mathlib.Tactic.ByContra
import Mathlib.Tactic.SplitIfs
import GridCss.Source.Reader

/-!
# The steps of a reader

At each character a reader takes one of few steps, and which one depends on its mode and on the
character alone, except that a brace closes a conditional only where one is open. The steps are
listed here once, each with what is known of the character that leads to it. What holds of all
readers is then shown step by step, without a look at how the steps are chosen.
-/

namespace GridCss

theorem Text.ne_of_isNameChar {c d : Char} (hc : isNameChar c = true) (hd : isNameChar d = false) :
    c ≠ d := by
  rintro rfl
  rw [hc] at hd
  cases hd

namespace Source

/-- What is true of the result of reading, unless it fails. -/
def Ensures {σ : Type} (P : σ → Prop) : Except SourceError σ → Prop
  | .ok s => P s
  | .error _ => True

theorem Ensures.of_eq {σ : Type} {P : σ → Prop} {x : Except SourceError σ} {s : σ}
    (h : Ensures P x) (hx : x = .ok s) : P s := by
  subst hx
  exact h

/-- A value ends at a brace that also closes what is around it, and at no other such character. -/
theorem ValueReader.eq_brace_of_closed {r : ValueReader} {p : Position} {c : Char}
    {nodes : List Node} (h : r.step p c = .ok (.closed nodes)) : c = '}' := by
  have hplain : ∀ r' : ValueReader, r'.stepPlain p c = .ok (.closed nodes) → c = '}' := by
    intro r' h'
    by_contra hc
    simp only [stepPlain, hc, if_false] at h'
    split_ifs at h' <;> cases h'
  unfold step at h
  split at h
  · exact hplain _ h
  · split_ifs at h
    · cases h
    · cases h
    · exact hplain _ h
  · split at h <;> cases h

theorem DeclarationReader.eq_brace_of_closed {r : DeclarationReader} {p : Position} {c : Char}
    {d : Declaration} (h : r.step p c = .ok (.closed d)) : c = '}' := by
  cases r with
  | property name =>
    simp only [step] at h
    split_ifs at h <;> cases h
  | gap name since =>
    simp only [step] at h
    split_ifs at h <;> cases h
  | value name reader =>
    simp only [step] at h
    split at h
    · cases h
    · cases h
    · cases h
    · next hclosed => exact ValueReader.eq_brace_of_closed hclosed

namespace Reader

section

variable (r : Reader) (mode : Mode)

@[simp] theorem mode_enter : (r.enter mode).mode = mode := rfl

@[simp] theorem enter_enter (mode' : Mode) : (r.enter mode).enter mode' = r.enter mode' := rfl

@[simp] theorem add_enter (item : Item) : (r.enter mode).add item = r.add item := rfl

@[simp] theorem openBlock_enter (name : String) (arguments : List (List Argument)) :
    (r.enter mode).openBlock name arguments = r.openBlock name arguments := rfl

@[simp] theorem closeBlock?_enter : (r.enter mode).closeBlock? = r.closeBlock? := rfl

end

/-- The step that a reader takes in a mode at a character, and where it leads. The mode that `r`
itself has does not matter. -/
inductive Takes (r : Reader) (p : Position) (c : Char) : Mode → Except SourceError Reader → Prop
  -- between two items
  | skip (hc : Text.isBlank c = true ∨ c = ';') : Takes r p c .idle (.ok (r.enter .idle))
  | hash (hc : c = '#') : Takes r p c .idle (.ok (r.enter (.comment (.line []))))
  | slash (hc : c = '/') : Takes r p c .idle (.ok (r.enter (.slash p)))
  | colon (hc : c = ':') :
    Takes r p c .idle (.ok { r with mode := .selector r.nextId [':'], nextId := r.nextId + 1 })
  | sign (hc : c = '@') : Takes r p c .idle (.ok (r.enter (.word [])))
  | close {r' : Reader} (hc : c = '}') (hclose : r.closeBlock? = some r') :
    Takes r p c .idle (.ok r')
  | property (hc : Text.isNameChar c = true) :
    Takes r p c .idle (.ok (r.enter (.declaration (.property [c]))))
  | noItem (hblank : Text.isBlank c = false) (hname : Text.isNameChar c = false)
    (hc : c ∉ [';', '#', '/', ':', '@']) (hclose : c = '}' → r.closeBlock? = none) :
    Takes r p c .idle (.error ⟨.badPropertyName, p⟩)
  -- in a comment
  | startComment {first : Position} {comment : CommentReader}
    (h : CommentReader.behindSlash? c = some comment) :
    Takes r p c (.slash first) (.ok (r.enter (.comment comment)))
  | noComment {first : Position} (h : CommentReader.behindSlash? c = none) :
    Takes r p c (.slash first) (.error ⟨.badPropertyName, first⟩)
  | commentMore {comment comment' : CommentReader} (h : comment.step c = .inl comment') :
    Takes r p c (.comment comment) (.ok (r.enter (.comment comment')))
  | commentEnd {comment : CommentReader} {text : String} (h : comment.step c = .inr text) :
    Takes r p c (.comment comment) (.ok (r.add (.comment text)))
  -- in a declaration, whose end may be the brace of a conditional
  | declarationFault {declaration : DeclarationReader} {e : SourceError}
    (h : declaration.step p c = .error e) : Takes r p c (.declaration declaration) (.error e)
  | declarationMore {declaration declaration' : DeclarationReader}
    (h : declaration.step p c = .ok (.more declaration')) :
    Takes r p c (.declaration declaration) (.ok (r.enter (.declaration declaration')))
  | declarationEnd {declaration : DeclarationReader} {d : Declaration}
    (h : declaration.step p c = .ok (.done d)) :
    Takes r p c (.declaration declaration) (.ok (r.add (.declaration d)))
  | declarationClose {declaration : DeclarationReader} {d : Declaration} {r' : Reader}
    (h : declaration.step p c = .ok (.closed d))
    (hclose : (r.add (.declaration d)).closeBlock? = some r') :
    Takes r p c (.declaration declaration) (.ok r')
  | declarationUnclosed {declaration : DeclarationReader} {d : Declaration}
    (h : declaration.step p c = .ok (.closed d))
    (hclose : (r.add (.declaration d)).closeBlock? = none) :
    Takes r p c (.declaration declaration) (.error ⟨.badPropertyName, p⟩)
  -- in a pseudo block
  | selectorOpen {id : Nat} {text : List Char} (hc : c = '{') :
    Takes r p c (.selector id text) (.ok (r.enter (.pseudo id (textOf text) {})))
  | selectorBlank {id : Nat} {text : List Char} (hblank : Text.isBlank c = true) :
    Takes r p c (.selector id text) (.ok (r.enter (.selector id text)))
  | selectorMore {id : Nat} {text : List Char} (hblank : Text.isBlank c = false) (hc : c ≠ '{') :
    Takes r p c (.selector id text) (.ok (r.enter (.selector id (c :: text))))
  | pseudoFault {id : Nat} {selector : String} {block : BlockReader} {e : SourceError}
    (h : block.step p c = .error e) : Takes r p c (.pseudo id selector block) (.error e)
  | pseudoMore {id : Nat} {selector : String} {block block' : BlockReader}
    (h : block.step p c = .ok (.inl block')) :
    Takes r p c (.pseudo id selector block) (.ok (r.enter (.pseudo id selector block')))
  | pseudoEnd {id : Nat} {selector : String} {block : BlockReader} {declarations : List Declaration}
    (h : block.step p c = .ok (.inr declarations)) :
    Takes r p c (.pseudo id selector block) (.ok (r.add (.pseudo ⟨id, selector, declarations⟩)))
  -- behind an at sign
  | wordMore {name : List Char} (hc : Text.isNameChar c = true) :
    Takes r p c (.word name) (.ok (r.enter (.word (c :: name))))
  | wordKeyframes {name : List Char} {result : Except SourceError Reader}
    (hc : Text.isNameChar c = false) (hname : textOf name = "keyframes")
    (h : Takes r p c (.keyframesName []) result) : Takes r p c (.word name) result
  | wordHeader {name : List Char} {result : Except SourceError Reader}
    (hc : Text.isNameChar c = false) (hname : textOf name ≠ "keyframes")
    (h : Takes r p c (.header (textOf name) none) result) : Takes r p c (.word name) result
  -- in front of a conditional
  | headerBlank {name : String} {arguments : Option (List (List Argument))}
    (hblank : Text.isBlank c = true) :
    Takes r p c (.header name arguments) (.ok (r.enter (.header name arguments)))
  | headerOpen {name : String} {arguments : Option (List (List Argument))} (hc : c = '{') :
    Takes r p c (.header name arguments) (.ok (r.openBlock name (arguments.getD [])))
  | headerArguments {name : String} (hc : c = '(') :
    Takes r p c (.header name none) (.ok (r.enter (.arguments name {})))
  | headerFault {name : String} {arguments : Option (List (List Argument))}
    (hblank : Text.isBlank c = false) (hc : c ≠ '{') (harguments : c = '(' → arguments ≠ none) :
    Takes r p c (.header name arguments) (.error ⟨.expectedBlock, p⟩)
  | argumentsMore {name : String} {arguments arguments' : ArgumentReader}
    (h : arguments.step c = .inl arguments') :
    Takes r p c (.arguments name arguments) (.ok (r.enter (.arguments name arguments')))
  | argumentsEnd {name : String} {arguments : ArgumentReader} {groups : List (List Argument)}
    (h : arguments.step c = .inr groups) :
    Takes r p c (.arguments name arguments) (.ok (r.enter (.header name (some groups))))
  -- in keyframes
  | nameSkip (hblank : Text.isBlank c = true) :
    Takes r p c (.keyframesName []) (.ok (r.enter (.keyframesName [])))
  | nameEnd {name : List Char} (hname : name ≠ []) (hblank : Text.isBlank c = true) :
    Takes r p c (.keyframesName name) (.ok (r.enter (.keyframesHeader (textOf name))))
  | nameMissing (hc : c = '{') :
    Takes r p c (.keyframesName []) (.error ⟨.missingKeyframesName, p⟩)
  | nameOpen {name : List Char} (hname : name ≠ []) (hc : c = '{') :
    Takes r p c (.keyframesName name) (.ok (r.enter (.keyframes (textOf name) {})))
  | nameMore {name : List Char} (hblank : Text.isBlank c = false) (hc : c ≠ '{') :
    Takes r p c (.keyframesName name) (.ok (r.enter (.keyframesName (c :: name))))
  | keyframesBlank {name : String} (hblank : Text.isBlank c = true) :
    Takes r p c (.keyframesHeader name) (.ok (r.enter (.keyframesHeader name)))
  | keyframesOpen {name : String} (hc : c = '{') :
    Takes r p c (.keyframesHeader name) (.ok (r.enter (.keyframes name {})))
  | keyframesNoBlock {name : String} (hblank : Text.isBlank c = false) (hc : c ≠ '{') :
    Takes r p c (.keyframesHeader name) (.error ⟨.expectedBlock, p⟩)
  | keyframesFault {name : String} {steps : StepsReader} {e : SourceError}
    (h : steps.step p c = .error e) : Takes r p c (.keyframes name steps) (.error e)
  | keyframesMore {name : String} {steps steps' : StepsReader}
    (h : steps.step p c = .ok (.inl steps')) :
    Takes r p c (.keyframes name steps) (.ok (r.enter (.keyframes name steps')))
  | keyframesEnd {name : String} {steps : StepsReader} {done : List KeyframeStep}
    (h : steps.step p c = .ok (.inr done)) :
    Takes r p c (.keyframes name steps) (.ok (r.add (.keyframes ⟨name, done⟩)))

theorem mode_of_closeBlock? {r r' : Reader} (h : r.closeBlock? = some r') : r'.mode = .idle := by
  unfold closeBlock? at h
  split at h <;> cases h
  rfl

section

variable (r : Reader) (p : Position) (c : Char)

theorem takes_stepIdle (hmode : r.mode = .idle) : r.Takes p c .idle (r.stepIdle p c) := by
  have hstay : r.enter .idle = r := by
    rw [← hmode]
    rfl
  unfold stepIdle
  split_ifs with hskip hhash hslash hcolon hsign hbrace
  · have htakes : r.Takes p c .idle (.ok (r.enter .idle)) := .skip (by simpa using hskip)
    rwa [hstay] at htakes
  · exact .hash hhash
  · exact .slash hslash
  · exact .colon hcolon
  · exact .sign hsign
  · cases hclose : r.closeBlock? with
    | some r' => exact .close hbrace hclose
    | none =>
      subst hbrace
      exact .noItem (by decide) (by decide) (by decide) fun _ => hclose
  · dsimp only [DeclarationReader.start]
    split_ifs with hname
    · exact .property hname
    · rw [Bool.or_eq_true, decide_eq_true_eq, not_or] at hskip
      exact .noItem (by simpa using hskip.1) (by simpa using hname)
        (by simp [hskip.2, hhash, hslash, hcolon, hsign]) fun h => absurd h hbrace

theorem takes_stepHeader (name : String) (arguments : Option (List (List Argument))) :
    r.Takes p c (.header name arguments) (r.stepHeader name arguments p c) := by
  unfold stepHeader
  split_ifs with hblank hbrace hparen
  · exact .headerBlank hblank
  · exact .headerOpen hbrace
  · rw [Bool.and_eq_true, decide_eq_true_eq, Option.isNone_iff_eq_none] at hparen
    obtain ⟨hparen, rfl⟩ := hparen
    exact .headerArguments hparen
  · exact .headerFault (by simpa using hblank) hbrace (by simpa using hparen)

theorem takes_stepKeyframesName (name : List Char) :
    r.Takes p c (.keyframesName name) (r.stepKeyframesName name p c) := by
  unfold stepKeyframesName
  split_ifs with hblank hempty hbrace hempty
  · cases List.isEmpty_iff.mp hempty
    exact .nameSkip hblank
  · exact .nameEnd (by simpa using hempty) hblank
  · cases List.isEmpty_iff.mp hempty
    exact .nameMissing hbrace
  · exact .nameOpen (by simpa using hempty) hbrace
  · exact .nameMore (by simpa using hblank) hbrace

/-- Every character leads to one of the steps. -/
theorem takes_step : r.Takes p c r.mode (r.step p c) := by
  obtain ⟨mode, items, enclosing, nextId⟩ := r
  cases mode with
  | idle => exact takes_stepIdle _ p c rfl
  | slash first =>
    simp only [step]
    split
    · next h => exact .startComment h
    · next h => exact .noComment h
  | comment comment =>
    simp only [step]
    split
    · next h => exact .commentMore h
    · next h => exact .commentEnd h
  | declaration declaration =>
    simp only [step]
    split
    · next h => exact .declarationFault h
    · next h => exact .declarationMore h
    · next h => exact .declarationEnd h
    · next d h =>
      cases DeclarationReader.eq_brace_of_closed h
      have hidle := takes_stepIdle
        (add ⟨.declaration declaration, items, enclosing, nextId⟩ (.declaration d)) p '}' rfl
      generalize stepIdle _ p '}' = result at hidle ⊢
      cases hidle with
      | close _ hclose => exact .declarationClose h hclose
      | noItem _ _ _ hclose => exact .declarationUnclosed h (hclose rfl)
      | skip hc => exact absurd hc (by decide)
      | property hc => exact absurd hc (by decide)
      | hash hc | slash hc | colon hc | sign hc => cases hc
  | selector id text =>
    simp only [step]
    split_ifs with hbrace hblank
    · exact .selectorOpen hbrace
    · exact .selectorBlank hblank
    · exact .selectorMore (by simpa using hblank) hbrace
  | pseudo id selector block =>
    simp only [step]
    split
    · next h => exact .pseudoFault h
    · next h => exact .pseudoMore h
    · next h => exact .pseudoEnd h
  | word name =>
    simp only [step]
    split_ifs with hc hname
    · exact .wordMore hc
    · exact .wordKeyframes (by simpa using hc) hname (takes_stepKeyframesName _ p c [])
    · exact .wordHeader (by simpa using hc) hname (takes_stepHeader _ p c _ none)
  | header name arguments => exact takes_stepHeader _ p c name arguments
  | arguments name arguments =>
    simp only [step]
    split
    · next h => exact .argumentsMore h
    · next h => exact .argumentsEnd h
  | keyframesName name => exact takes_stepKeyframesName _ p c name
  | keyframesHeader name =>
    simp only [step]
    split_ifs with hblank hbrace
    · exact .keyframesBlank hblank
    · exact .keyframesOpen hbrace
    · exact .keyframesNoBlock (by simpa using hblank) hbrace
  | keyframes name steps =>
    simp only [step]
    split
    · next h => exact .keyframesFault h
    · next h => exact .keyframesMore h
    · next h => exact .keyframesEnd h

end

variable {r : Reader} {p : Position} {c : Char}

/-- A step that is listed is the one that is taken. -/
theorem Takes.step_eq {mode : Mode} {result : Except SourceError Reader}
    (h : r.Takes p c mode result) : (r.enter mode).step p c = result := by
  have hbrace : Text.isBlank '}' = false ∧ Text.isBlank '{' = false := by decide
  induction h with
  | skip hc => simp [step, stepIdle, hc]
  | hash hc | slash hc | colon hc | sign hc =>
    subst hc
    rfl
  | close hc hclose =>
    subst hc
    simp [step, stepIdle, hbrace, hclose]
  | property hc =>
    have hne : ∀ d, Text.isNameChar d = false → c ≠ d := fun d => Text.ne_of_isNameChar hc
    simp [step, stepIdle, DeclarationReader.start, Text.isBlank_of_isNameChar hc, hc,
      hne ';' (by decide), hne '#' (by decide), hne '/' (by decide), hne ':' (by decide),
      hne '@' (by decide), hne '}' (by decide)]
  | noItem hblank hname hc hclose =>
    simp only [List.mem_cons, List.not_mem_nil, or_false, not_or] at hc
    have hnone : (if c = '}' then r.closeBlock? else none) = none := by
      split_ifs with hclosing
      · exact hclose hclosing
      · rfl
    simp [step, stepIdle, DeclarationReader.start, hblank, hname, hc, hnone]
  | startComment h | noComment h | commentMore h | commentEnd h | declarationFault h
    | declarationMore h | declarationEnd h | pseudoFault h | pseudoMore h | pseudoEnd h
    | argumentsMore h | argumentsEnd h | keyframesFault h | keyframesMore h | keyframesEnd h =>
    simp [step, h]
  | declarationClose h hclose =>
    cases DeclarationReader.eq_brace_of_closed h
    simp [step, h, stepIdle, hbrace, hclose]
  | declarationUnclosed h hclose =>
    cases DeclarationReader.eq_brace_of_closed h
    simp [step, h, stepIdle, hbrace, hclose]
    rfl
  | selectorOpen hc => simp [step, hc]
  | selectorBlank hblank =>
    have hc : c ≠ '{' := by
      rintro rfl
      cases hblank
    simp [step, hblank, hc]
  | selectorMore hblank hc => simp [step, hblank, hc]
  | wordMore hc => simp [step, hc]
  | wordKeyframes hc hname h ih =>
    rw [← ih]
    simp [step, hc, hname, stepKeyframesName]
  | wordHeader hc hname h ih =>
    rw [← ih]
    simp [step, hc, hname, stepHeader]
  | headerBlank hblank => simp [step, stepHeader, hblank]
  | headerOpen hc => simp [step, stepHeader, hc, hbrace]
  | headerArguments hc =>
    subst hc
    rfl
  | headerFault hblank hc harguments =>
    simpa [step, stepHeader, hblank, hc] using harguments
  | nameSkip hblank => simp [step, stepKeyframesName, hblank]
  | nameEnd hname hblank => simp [step, stepKeyframesName, hblank, hname]
  | nameMissing hc =>
    subst hc
    rfl
  | nameOpen hname hc => simp [step, stepKeyframesName, hc, hbrace, hname]
  | nameMore hblank hc => simp [step, stepKeyframesName, hblank, hc]
  | keyframesBlank hblank => simp [step, hblank]
  | keyframesOpen hc =>
    subst hc
    rfl
  | keyframesNoBlock hblank hc => simp [step, hblank, hc]

/-- What every step preserves is preserved by reading a text. -/
theorem ensures_feed {P : Reader → Prop} (hstep : ∀ r p c, P r → Ensures P (r.step p c))
    (hr : P r) (p : Position) (cs : List Char) : Ensures P (r.feed p cs) := by
  induction cs generalizing r p with
  | nil => exact hr
  | cons c cs ih =>
    have hnext := hstep r p c hr
    unfold feed
    generalize r.step p c = result at hnext ⊢
    cases result with
    | error e => trivial
    | ok r' => exact ih hnext (p.advance c)

end Reader
end Source
end GridCss
