import GridCss.Proofs.FinalFaults
import GridCss.Proofs.ReadBack

/-!
# Sources cut short

Whatever a reader is in the middle of can be brought to its end, from the inside out: quotes and
brackets, calls, the declaration, the block and the conditionals around it. A source in which no
character is at fault is therefore the beginning of one that can be read. A reader finds the end
unexpected only where it has come to the end of such a source.
-/

namespace GridCss
namespace Source

variable {σ : Type}

/-- What closes the brackets or quotes that a reader of arguments is in. -/
def ArgumentMode.closing : ArgumentMode → List Char
  | .plain | .sign _ => []
  | .bracket close outer => close :: outer
  -- A backslash takes the next character with it.
  | .quote mark escaped => if escaped then [' ', mark] else [mark]

namespace ArgumentReader

/-- What closes an argument list and the lists of the calls around it. -/
def closing (r : ArgumentReader) : List Char :=
  r.mode.closing ++ List.replicate r.callers.length ')' ++ [')']

variable {draft : ArgumentDraft} {callers : List (String × ArgumentDraft)}

theorem brackets_lead (close : Char) (outer : List Char) (draft : ArgumentDraft) :
    ∃ draft', Leads next ⟨.bracket close outer, draft, callers⟩ (close :: outer)
      ⟨.plain, draft', callers⟩ := by
  induction outer generalizing close draft with
  | nil =>
    refine ⟨draft.push close, .single fun p => ?_⟩
    simp [next, step, push]
  | cons close' outer ih =>
    obtain ⟨draft', hrest⟩ := ih close' (draft.push close)
    refine ⟨draft', .cons (fun p => ?_) hrest⟩
    simp [next, step, push]

theorem quote_leads (mark : Char) (escaped : Bool) (draft : ArgumentDraft) :
    ∃ draft', Leads next ⟨.quote mark escaped, draft, callers⟩
      (ArgumentMode.quote mark escaped).closing ⟨.plain, draft', callers⟩ := by
  have hmark : ∀ draft p, next ⟨.quote mark false, draft, callers⟩ p mark =
      some ⟨.plain, draft, callers⟩ := by
    intro draft p
    simp [next, step]
  cases escaped with
  | false => exact ⟨draft, .single (hmark draft)⟩
  | true =>
    have hblank : ∀ p, next ⟨.quote mark true, draft, callers⟩ p ' ' =
        some ⟨.quote mark false, draft.push ' ', callers⟩ := by
      intro p
      simp [next, step, push]
    exact ⟨draft.push ' ', .cons hblank (.single (hmark _))⟩

/-- Behind brackets and quotes a parenthesis closes the innermost list. -/
theorem mode_leads (r : ArgumentReader) :
    ∃ r' draft, Leads next r r.mode.closing r' ∧
      r'.step ')' = closeCall ⟨.plain, draft, r.callers⟩ := by
  obtain ⟨mode, draft, callers⟩ := r
  cases mode with
  | plain => exact ⟨_, draft, .refl, rfl⟩
  -- The at sign starts no call, and the parenthesis is read as behind any other text.
  | sign name => exact ⟨_, _, .refl, rfl⟩
  | bracket close outer =>
    obtain ⟨draft', h⟩ := @brackets_lead callers close outer draft
    exact ⟨_, draft', h, rfl⟩
  | quote mark escaped =>
    obtain ⟨draft', h⟩ := @quote_leads callers mark escaped draft
    exact ⟨_, draft', h, rfl⟩

theorem callers_lead {r : ArgumentReader}
    (h : r.step ')' = closeCall ⟨.plain, draft, callers⟩) :
    ∃ r' groups, Leads next r (List.replicate callers.length ')') r' ∧
      r'.step ')' = .inr groups := by
  induction callers generalizing r draft with
  | nil => exact ⟨r, draft.close, .refl, h⟩
  | cons caller callers ih =>
    obtain ⟨name, outer⟩ := caller
    obtain ⟨r', groups, hrest, hend⟩ :=
      @ih (outer.addCall name draft.close) ⟨.plain, outer.addCall name draft.close, callers⟩ rfl
    refine ⟨r', groups, .cons (fun p => ?_) hrest, hend⟩
    rw [next, h]
    rfl

end ArgumentReader

/-- A reader goes along with the one of arguments inside it, up to the parenthesis at their end. -/
theorem Leads.closeArguments {next : σ → Position → Char → Option σ} (g : ArgumentReader → σ)
    (after : List (List Argument) → σ)
    (hg : ∀ r p c r', r.next p c = some r' → next (g r) p c = some (g r'))
    (hend : ∀ r p groups, ArgumentReader.step r ')' = .inr groups →
      next (g r) p ')' = some (after groups))
    (r : ArgumentReader) : ∃ groups, Leads next (g r) r.closing (after groups) := by
  obtain ⟨r₁, draft, hmode, hparen⟩ := r.mode_leads
  obtain ⟨r₂, groups, hcallers, hlast⟩ := ArgumentReader.callers_lead hparen
  have hinside := (hmode.append hcallers).lift g hg
  exact ⟨groups, hinside.append (single fun p => hend r₂ p groups hlast)⟩

namespace ValueReader

/-- What closes the call that a reader of a value is in. -/
def closing (r : ValueReader) : List Char :=
  match r.mode with
  | .plain | .sign _ => []
  | .call _ arguments => arguments.closing

theorem closing_leads (r : ValueReader) :
    ∃ r' nodes, Leads next r r.closing r' ∧ ∀ p, r'.step p ';' = .ok (.done nodes) := by
  obtain ⟨mode, nodes, text⟩ := r
  cases mode with
  | plain => exact ⟨_, _, .refl, fun _ => rfl⟩
  | sign name => exact ⟨_, _, .refl, fun _ => rfl⟩
  | call name arguments =>
    obtain ⟨groups, h⟩ := Leads.closeArguments
      (fun arguments => (⟨.call name arguments, nodes, text⟩ : ValueReader))
      (fun groups => ⟨.plain, nodes ++ [.call name groups], []⟩) (fun _ _ _ _ => next_call)
      (fun r p groups hr => by simp [next, step, hr]) arguments
    exact ⟨_, _, h, fun _ => rfl⟩

end ValueReader

/-- What ends a declaration. -/
def DeclarationReader.closing : DeclarationReader → List Char
  | .property _ | .gap .. => [':', ';']
  | .value _ reader => reader.closing ++ [';']

theorem Leads.closeDeclaration {next : σ → Position → Char → Option σ} (g : DeclarationReader → σ)
    (after : Declaration → σ)
    (hg : ∀ r p c r', r.next p c = some r' → next (g r) p c = some (g r'))
    (hend : ∀ r p d, DeclarationReader.step r p ';' = .ok (.done d) →
      next (g r) p ';' = some (after d))
    (r : DeclarationReader) : ∃ d, Leads next (g r) r.closing (after d) := by
  cases r with
  | property name =>
    exact ⟨_, cons (fun p => hg _ p _ _ rfl) (single fun p => hend _ p _ rfl)⟩
  | gap name since =>
    exact ⟨_, cons (fun p => hg _ p _ _ rfl) (single fun p => hend _ p _ rfl)⟩
  | value name reader =>
    obtain ⟨r', nodes, hleads, hdone⟩ := reader.closing_leads
    have hvalue := (hleads.lift (DeclarationReader.value name) fun _ _ _ _ =>
      DeclarationReader.next_value).lift g hg
    refine ⟨⟨name, nodes⟩, hvalue.append (single fun p => hend _ p _ ?_)⟩
    simp [DeclarationReader.step, hdone]

/-- What ends a comment. -/
def CommentReader.closing : CommentReader → List Char
  | .line _ => ['\n']
  | .block _ => ['*', '/']

theorem Leads.closeComment {next : σ → Position → Char → Option σ} (g : CommentReader → σ)
    (after : String → σ)
    (hg : ∀ r p c r', r.next p c = some r' → next (g r) p c = some (g r'))
    (hend : ∀ r p c text, CommentReader.step r c = .inr text → next (g r) p c = some (after text))
    (r : CommentReader) : ∃ text, Leads next (g r) r.closing (after text) := by
  cases r with
  | line text => exact ⟨textOf text, single fun p => hend _ p _ _ rfl⟩
  | block text =>
    exact ⟨textOf text, cons (fun p => hg _ p _ _ rfl) (single fun p => hend _ p _ _ rfl)⟩

/-- What leads back to between two declarations. -/
def BlockMode.closing : BlockMode → List Char
  | .idle => []
  | .slash _ => ['/', '\n']
  | .comment r => r.closing
  | .declaration r => r.closing

namespace BlockReader

/-- What ends a declaration block. -/
def closing (r : BlockReader) : List Char := r.mode.closing ++ ['}']

theorem next_comment {declarations : List Declaration} {comment comment' : CommentReader}
    {p : Position} {c : Char} (h : comment.next p c = some comment') :
    next ⟨.comment comment, declarations⟩ p c = some ⟨.comment comment', declarations⟩ := by
  rw [CommentReader.next, Sum.getLeft?_eq_some_iff] at h
  simp [next, step, h]

theorem mode_leads (r : BlockReader) :
    ∃ declarations, Leads next r r.mode.closing ⟨.idle, declarations⟩ := by
  obtain ⟨mode, declarations⟩ := r
  cases mode with
  | idle => exact ⟨declarations, .refl⟩
  | slash first => exact ⟨declarations, fun _ => rfl⟩
  | comment comment =>
    obtain ⟨text, h⟩ := Leads.closeComment
      (fun comment => (⟨.comment comment, declarations⟩ : BlockReader))
      (fun _ => ⟨.idle, declarations⟩) (fun _ _ _ _ => next_comment)
      (fun r p c text hr => by simp [next, step, hr]) comment
    exact ⟨declarations, h⟩
  | declaration declaration =>
    obtain ⟨d, h⟩ := Leads.closeDeclaration
      (fun declaration => (⟨.declaration declaration, declarations⟩ : BlockReader))
      (fun d => ⟨.idle, declarations ++ [d]⟩) (fun _ _ _ _ => next_declaration)
      (fun r p d hr => by simp [next, step, hr]) declaration
    exact ⟨declarations ++ [d], h⟩

end BlockReader

theorem Leads.closeBlock {next : σ → Position → Char → Option σ} (g : BlockReader → σ)
    (after : List Declaration → σ)
    (hg : ∀ r p c r', r.next p c = some r' → next (g r) p c = some (g r'))
    (hend : ∀ r p declarations, BlockReader.step r p '}' = .ok (.inr declarations) →
      next (g r) p '}' = some (after declarations))
    (r : BlockReader) : ∃ declarations, Leads next (g r) r.closing (after declarations) := by
  obtain ⟨declarations, h⟩ := r.mode_leads
  exact ⟨declarations, (h.lift g hg).append (single fun p => hend _ p _ rfl)⟩

/-- What leads back to between two steps. -/
def StepsMode.closing : StepsMode → List Char
  | .idle => []
  | .slash => ['/', '\n']
  | .comment r => r.closing
  | .selector _ => ['{', '}']
  | .block _ r => r.closing

namespace StepsReader

/-- What ends a keyframes body. -/
def closing (r : StepsReader) : List Char := r.mode.closing ++ ['}']

theorem next_comment {steps : List KeyframeStep} {comment comment' : CommentReader}
    {p : Position} {c : Char} (h : comment.next p c = some comment') :
    next ⟨.comment comment, steps⟩ p c = some ⟨.comment comment', steps⟩ := by
  rw [CommentReader.next, Sum.getLeft?_eq_some_iff] at h
  simp [next, step, h]

theorem mode_leads (r : StepsReader) : ∃ steps, Leads next r r.mode.closing ⟨.idle, steps⟩ := by
  obtain ⟨mode, steps⟩ := r
  cases mode with
  | idle => exact ⟨steps, .refl⟩
  | slash => exact ⟨steps, fun _ => rfl⟩
  | comment comment =>
    obtain ⟨text, h⟩ := Leads.closeComment
      (fun comment => (⟨.comment comment, steps⟩ : StepsReader))
      (fun _ => ⟨.idle, steps⟩) (fun _ _ _ _ => next_comment)
      (fun r p c text hr => by simp [next, step, hr]) comment
    exact ⟨steps, h⟩
  | selector text => exact ⟨_, fun _ => rfl⟩
  | block selector block =>
    obtain ⟨declarations, h⟩ := Leads.closeBlock
      (fun block => (⟨.block selector block, steps⟩ : StepsReader))
      (fun declarations => ⟨.idle, steps ++ [⟨selector, declarations⟩]⟩) (fun _ _ _ _ => next_block)
      (fun r p declarations hr => by simp [next, step, hr]) block
    exact ⟨_, h⟩

end StepsReader

/-- What leads back to between two items. A name is made up for keyframes without one. -/
def Mode.closing : Mode → List Char
  | .idle => []
  | .slash _ => ['/', '\n']
  | .comment r => r.closing
  | .declaration r => r.closing
  | .selector .. | .header .. | .keyframesHeader _ => ['{', '}']
  | .pseudo _ _ r => r.closing
  | .word name => if textOf name = "keyframes" then [' ', 'a', '{', '}'] else ['{', '}']
  | .arguments _ r => r.closing ++ ['{', '}']
  | .keyframesName name => if name.isEmpty then ['a', '{', '}'] else ['{', '}']
  | .keyframes _ r => r.closing

namespace Reader

variable {items : List Item} {enclosing : List OpenConditional} {id : Nat}

/-- What brings a source to its end from here. -/
def completion (r : Reader) : List Char :=
  r.mode.closing ++ List.replicate r.enclosing.length '}'

theorem next_declaration {declaration declaration' : DeclarationReader} {p : Position} {c : Char}
    (h : declaration.next p c = some declaration') :
    next ⟨.declaration declaration, items, enclosing, id⟩ p c =
      some ⟨.declaration declaration', items, enclosing, id⟩ :=
  Takes.next_eq (.declarationMore (Step.ongoing?_eq_some.mp h))

theorem next_pseudo {number : Nat} {selector : String} {block block' : BlockReader} {p : Position}
    {c : Char} (h : block.next p c = some block') :
    next ⟨.pseudo number selector block, items, enclosing, id⟩ p c =
      some ⟨.pseudo number selector block', items, enclosing, id⟩ :=
  Takes.next_eq (.pseudoMore (ongoing?_eq_some.mp h))

/-- An empty conditional. -/
theorem header_closes (name : String) (arguments : Option (List (List Argument))) :
    Leads next ⟨.header name arguments, items, enclosing, id⟩ ['{', '}']
      ⟨.idle, items ++ [.conditional name (arguments.getD []) []], enclosing, id⟩ := fun _ => rfl

/-- Keyframes without steps. -/
theorem keyframesName_closes {name : List Char} (h : name ≠ []) :
    Leads next ⟨.keyframesName name, items, enclosing, id⟩ ['{', '}']
      ⟨.idle, items ++ [.keyframes ⟨textOf name, []⟩], enclosing, id⟩ := by
  have hopen : ∀ p, next ⟨.keyframesName name, items, enclosing, id⟩ p '{' =
      some ⟨.keyframes (textOf name) {}, items, enclosing, id⟩ :=
    fun _ => Takes.next_eq (.nameOpen h rfl)
  exact .cons hopen (.single fun _ => rfl)

theorem word_closes (name : List Char) :
    ∃ item, Leads next ⟨.word name, items, enclosing, id⟩ (Mode.word name).closing
      ⟨.idle, items ++ [item], enclosing, id⟩ := by
  by_cases hname : textOf name = "keyframes"
  · have hspace : ∀ p, next ⟨.word name, items, enclosing, id⟩ p ' ' =
        some ⟨.keyframesName [], items, enclosing, id⟩ :=
      fun _ => Takes.next_eq (.wordKeyframes (by decide) hname (.nameSkip (by decide)))
    refine ⟨.keyframes ⟨"a", []⟩, ?_⟩
    rw [Mode.closing, if_pos hname]
    exact .cons hspace (.cons (fun _ => rfl) (keyframesName_closes (List.cons_ne_nil 'a' [])))
  · have hopen : ∀ p, next ⟨.word name, items, enclosing, id⟩ p '{' =
        some ⟨.idle, [], ⟨textOf name, [], items⟩ :: enclosing, id⟩ :=
      fun _ => Takes.next_eq (.wordHeader (by decide) hname (.headerOpen rfl))
    refine ⟨.conditional (textOf name) [] [], ?_⟩
    rw [Mode.closing, if_neg hname]
    exact .cons hopen (.single fun _ => rfl)

/-- Whatever a reader is in, it can be ended there. -/
theorem mode_leads (mode : Mode) :
    ∃ more, Leads next ⟨mode, items, enclosing, id⟩ mode.closing
      ⟨.idle, items ++ more, enclosing, id⟩ := by
  cases mode with
  | idle =>
    refine ⟨[], ?_⟩
    rw [List.append_nil]
    exact .refl
  | slash first => exact ⟨_, fun _ => rfl⟩
  | comment comment =>
    obtain ⟨text, h⟩ := Leads.closeComment
      (fun comment => (⟨.comment comment, items, enclosing, id⟩ : Reader))
      (fun text => ⟨.idle, items ++ [.comment text], enclosing, id⟩) (fun _ _ _ _ => next_comment)
      (fun _ _ _ _ hr => Takes.next_eq (.commentEnd hr)) comment
    exact ⟨_, h⟩
  | declaration declaration =>
    obtain ⟨d, h⟩ := Leads.closeDeclaration
      (fun declaration => (⟨.declaration declaration, items, enclosing, id⟩ : Reader))
      (fun d => ⟨.idle, items ++ [.declaration d], enclosing, id⟩)
      (fun _ _ _ _ => next_declaration)
      (fun _ _ _ hr => Takes.next_eq (.declarationEnd hr)) declaration
    exact ⟨_, h⟩
  | selector number text => exact ⟨_, fun _ => rfl⟩
  | pseudo number selector block =>
    obtain ⟨declarations, h⟩ := Leads.closeBlock
      (fun block => (⟨.pseudo number selector block, items, enclosing, id⟩ : Reader))
      (fun declarations =>
        ⟨.idle, items ++ [.pseudo ⟨number, selector, declarations⟩], enclosing, id⟩)
      (fun _ _ _ _ => next_pseudo)
      (fun _ _ _ hr => Takes.next_eq (.pseudoEnd hr)) block
    exact ⟨_, h⟩
  | word name =>
    obtain ⟨item, h⟩ := @word_closes items enclosing id name
    exact ⟨[item], h⟩
  | header name arguments => exact ⟨_, header_closes name arguments⟩
  | arguments name arguments =>
    obtain ⟨groups, h⟩ := Leads.closeArguments
      (fun arguments => (⟨.arguments name arguments, items, enclosing, id⟩ : Reader))
      (fun groups => ⟨.header name (some groups), items, enclosing, id⟩)
      (fun _ _ _ _ => next_arguments)
      (fun _ _ _ hr => Takes.next_eq (.argumentsEnd hr)) arguments
    exact ⟨_, h.append (header_closes name (some groups))⟩
  | keyframesName name =>
    by_cases hname : name = []
    · subst hname
      exact ⟨_, .cons (fun _ => rfl) (keyframesName_closes (List.cons_ne_nil 'a' []))⟩
    · rw [Mode.closing, if_neg (by simpa using hname)]
      exact ⟨_, keyframesName_closes hname⟩
  | keyframesHeader name => exact ⟨_, fun _ => rfl⟩
  | keyframes name steps =>
    obtain ⟨done, h⟩ := steps.mode_leads
    have hbody := h.lift (fun steps => (⟨.keyframes name steps, items, enclosing, id⟩ : Reader))
      fun _ _ _ _ => next_keyframes
    exact ⟨[.keyframes ⟨name, done⟩], hbody.append (.single fun _ => rfl)⟩

/-- Every conditional that is open is closed by a brace. -/
theorem enclosing_leads (items : List Item) (enclosing : List OpenConditional) :
    ∃ items', Leads next ⟨.idle, items, enclosing, id⟩ (List.replicate enclosing.length '}')
      ⟨.idle, items', [], id⟩ := by
  induction enclosing generalizing items with
  | nil => exact ⟨items, .refl⟩
  | cons o enclosing ih =>
    obtain ⟨items', h⟩ := ih (o.before ++ [.conditional o.name o.arguments items])
    exact ⟨items', .cons (fun _ => rfl) h⟩

theorem completion_leads (r : Reader) :
    ∃ items, Leads next r r.completion ⟨.idle, items, [], r.nextId⟩ := by
  obtain ⟨mode, items, enclosing, id⟩ := r
  obtain ⟨more, hmode⟩ := @mode_leads items enclosing id mode
  obtain ⟨items', henclosing⟩ := @enclosing_leads id (items ++ more) enclosing
  exact ⟨items', hmode.append henclosing⟩

/-- A reader that has come to the end of a text can be brought to the end of a source. -/
theorem read_completion {r r' : Reader} {p : Position} {cs : List Char} (h : r.feed p cs = .ok r') :
    ∃ items, r.read p (cs ++ r'.completion) = .ok items := by
  obtain ⟨items, hleads⟩ := r'.completion_leads
  refine ⟨items, ?_⟩
  rw [read_append h, read, feed_of_leads hleads]
  rfl

variable {r : Reader} {p : Position} {e : SourceError}

/-- No character is at fault for an end: its fault would have to be where the text ends, however the
text goes on. -/
theorem fault_of_feed {cs : List Char} (h : Reader.feed {} {} cs = .error e) :
    e.fault ≠ .unexpectedEnd := by
  intro hfault
  have hend : ∀ more, e.position = Position.advanceAll {} (cs ++ more) := by
    intro more
    obtain ⟨before, after, htext, hposition, hpoints⟩ :=
      (accounts_feed (cs ++ more)).of_error (feed_append_error h more)
    rw [hfault] at hpoints
    cases hpoints
    rw [hposition, htext, List.append_nil]
  have hsame := (hend []).symm.trans (hend [' '])
  rw [List.append_nil] at hsame
  exact Position.advanceAll_ne cs ' ' [] {} hsame

/-- A slash that is no comment yet is at fault itself. -/
theorem finish_of_slash? {first : Position} (h : r.mode.slash? = some first) :
    r.finish p = .error ⟨.badPropertyName, first⟩ := by
  have hblock : ∀ b : BlockReader, b.mode.slash? = some first →
      b.endFault p = ⟨.badPropertyName, first⟩ := by
    rintro ⟨mode, declarations⟩ hb
    cases mode <;> cases hb
    rfl
  cases hmode : r.mode with
  | slash first' =>
    rw [hmode] at h
    cases h
    simp only [finish, hmode]
  | pseudo id selector block =>
    rw [hmode] at h
    simp only [finish, hmode, hblock block h]
  | keyframes name steps =>
    rw [hmode] at h
    obtain ⟨mode, done⟩ := steps
    cases mode with
    | block selector block => simp only [finish, hmode, StepsReader.endFault, hblock block h]
    | idle | slash | comment | selector => cases h
  | idle | comment | declaration | selector | word | header | arguments | keyframesName
    | keyframesHeader =>
    rw [hmode] at h
    cases h

end Reader

end Source

open Source

/-- Where a source ends unexpectedly, nothing in it is at fault: the end is what is reported, and
with some text behind it the source can be read. -/
theorem parse_unexpectedEnd {source : String} {p : Position}
    (h : parse source = .error ⟨.unexpectedEnd, p⟩) :
    p = ⟨1 + source.toList.count '\n',
        1 + (source.toList.reverse.takeWhile (· != '\n')).length⟩ ∧
      ∃ more items, parse (source ++ more) = .ok items := by
  unfold parse Reader.read at h
  cases hfeed : Reader.feed {} {} source.toList with
  | error e =>
    rw [hfeed] at h
    cases h
    exact absurd rfl (Reader.fault_of_feed hfeed)
  | ok r =>
    -- The reader came to the end, so that its state there can be completed.
    rw [hfeed] at h
    dsimp only at h
    constructor
    · rw [← Position.advanceAll_start]
      have hposition := Reader.position_of_finish h
      cases hslash : r.mode.slash? with
      | none => rwa [hslash] at hposition
      | some first =>
        rw [Reader.finish_of_slash? hslash] at h
        cases h
    · obtain ⟨items, hread⟩ := Reader.read_completion hfeed
      refine ⟨String.ofList r.completion, items, ?_⟩
      rw [parse, String.toList_append, String.toList_ofList]
      exact hread

/-- The end comes behind a backslash, in quotes, in a call, in a block, in a conditional. -/
theorem parse_unexpectedEnd_quote :
    parse "@nth(2)\x7b\n:hover\x7ba:@pick([x],'y\\" = .error ⟨.unexpectedEnd, ⟨2, 23⟩⟩ ∧
    ∃ more items, parse ("@nth(2)\x7b\n:hover\x7ba:@pick([x],'y\\" ++ more) = .ok items := by
  have h : parse "@nth(2)\x7b\n:hover\x7ba:@pick([x],'y\\" = .error ⟨.unexpectedEnd, ⟨2, 23⟩⟩ :=
    rfl
  exact ⟨h, (parse_unexpectedEnd h).2⟩

end GridCss
