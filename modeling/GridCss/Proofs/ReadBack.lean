import GridCss.Proofs.PrintedValues

/-!
# Printed items are read back

A printed item takes an idle reader to an idle one that has the item, in whatever list it stands.
Blocks, steps and items are followed in turn, each by what is known of the readers inside them, so
that the source of well-formed items is read as just these items.
-/

namespace GridCss
namespace Source

namespace BlockReader

def next (r : BlockReader) (p : Position) (c : Char) : Option BlockReader :=
  ongoing? (r.step p c)

theorem next_declaration {declarations : List Declaration} {d d' : DeclarationReader}
    {p : Position} {c : Char} (h : d.next p c = some d') :
    next ⟨.declaration d, declarations⟩ p c = some ⟨.declaration d', declarations⟩ := by
  rw [DeclarationReader.next, Step.ongoing?_eq_some] at h
  simp [next, step, h]

theorem declaration_leads {d : Declaration} (h : d.WellFormed) (declarations : List Declaration) :
    Leads next ⟨.idle, declarations⟩ d.print ⟨.idle, declarations ++ [d]⟩ := by
  refine .declaration h (fun d => (⟨.declaration d, declarations⟩ : BlockReader)) ?_
    (fun _ _ _ _ => next_declaration) fun r p hr => by simp [next, step, hr]
  intro p c hc
  have hne : ∀ d, Text.isNameChar d = false → c ≠ d := fun d => Text.ne_of_isNameChar hc
  simp [next, step, stepIdle, DeclarationReader.start, Text.isBlank_of_isNameChar hc, hc,
    hne ';' (by decide), hne '}' (by decide), hne '#' (by decide), hne '/' (by decide)]

theorem declarations_leads {more : List Declaration} (h : ∀ d ∈ more, d.WellFormed)
    (declarations : List Declaration) :
    Leads next ⟨.idle, declarations⟩ (more.flatMap Declaration.print)
      ⟨.idle, declarations ++ more⟩ := by
  induction more generalizing declarations with
  | nil => simpa using Leads.refl
  | cons d more ih =>
    rw [List.forall_mem_cons] at h
    have hmore := ih h.2 (declarations ++ [d])
    rw [List.append_assoc] at hmore
    exact (declaration_leads h.1 declarations).append hmore

end BlockReader

/-- A reader goes along with the one of a declaration block inside it, up to the closing brace. -/
theorem Leads.block {σ : Type} {next : σ → Position → Char → Option σ} {s : σ}
    {declarations : List Declaration} (h : ∀ d ∈ declarations, d.WellFormed) (g : BlockReader → σ)
    (hg : ∀ r p c r', r.next p c = some r' → next (g r) p c = some (g r'))
    (hend : ∀ r p, BlockReader.step r p '}' = .ok (.inr declarations) → next (g r) p '}' = some s) :
    Leads next (g {}) (declarations.flatMap Declaration.print ++ ['}']) s :=
  ((BlockReader.declarations_leads h []).lift g hg).append (.single fun p => hend _ p rfl)

namespace StepsReader

variable {steps : List KeyframeStep}

def next (r : StepsReader) (p : Position) (c : Char) : Option StepsReader :=
  ongoing? (r.step p c)

theorem next_block {selector : String} {block block' : BlockReader} {p : Position} {c : Char}
    (h : block.next p c = some block') :
    next ⟨.block selector block, steps⟩ p c = some ⟨.block selector block', steps⟩ := by
  rw [BlockReader.next, ongoing?_eq_some] at h
  simp [next, step, h]

theorem selector_leads (steps : List KeyframeStep) {cs : List Char}
    (h : ∀ c ∈ cs, Text.isBlank c = false ∧ c ≠ '{') (read : List Char) :
    Leads next ⟨.selector read, steps⟩ (cs ++ ['{'])
      ⟨.block (textOf (cs.reverse ++ read)) {}, steps⟩ := by
  have hread : Leads next ⟨.selector read, steps⟩ cs ⟨.selector (cs.reverse ++ read), steps⟩ :=
    .collect (fun read => (⟨.selector read, steps⟩ : StepsReader))
      (fun _ _ _ hc => by simp [next, step, stepSelector, hc.1, hc.2]) h read
  exact hread.append (.single fun _ => rfl)

/-- A slash at the start of a selector is part of it if no comment starts there. -/
theorem slash_leads (steps : List KeyframeStep) {cs : List Char}
    (h : ∀ c ∈ cs, Text.isBlank c = false ∧ c ≠ '{') (hstar : cs.head? ≠ some '*')
    (hslash : cs.head? ≠ some '/') :
    Leads next ⟨.slash, steps⟩ (cs ++ ['{']) ⟨.block (textOf (cs.reverse ++ ['/'])) {}, steps⟩ := by
  cases cs with
  | nil => exact .single fun _ => rfl
  | cons c cs =>
    rw [List.forall_mem_cons] at h
    have hcomment : CommentReader.behindSlash? c = none := by
      unfold CommentReader.behindSlash?
      split <;> simp_all
    have hnext : ∀ p, next ⟨.slash, steps⟩ p c = some ⟨.selector [c, '/'], steps⟩ := by
      intro p
      simp [next, step, hcomment, stepSelector, h.1.1, h.1.2]
    have hrest := selector_leads steps h.2 [c, '/']
    rw [List.reverse_cons, List.append_assoc]
    exact .cons hnext hrest

theorem openStep_leads (steps : List KeyframeStep) {cs : List Char}
    (h : ∀ c ∈ cs, Text.isBlank c = false ∧ c ≠ '{')
    (hstart : ∀ t ∈ ["\x7d", ";", "#", "/*", "//"], ¬ t.toList <+: cs) :
    Leads next ⟨.idle, steps⟩ (cs ++ ['{']) ⟨.block (textOf cs.reverse) {}, steps⟩ := by
  cases cs with
  | nil => exact .single fun _ => rfl
  | cons c cs =>
    rw [List.forall_mem_cons] at h
    rw [List.reverse_cons]
    by_cases hc : c = '/'
    · subst hc
      refine .cons (fun _ => rfl) (slash_leads steps h.2 ?_ ?_)
      · intro hstar
        obtain ⟨rest, rfl⟩ := List.head?_eq_some_iff.mp hstar
        exact hstart "/*" (by simp) ⟨rest, rfl⟩
      · intro hslash
        obtain ⟨rest, rfl⟩ := List.head?_eq_some_iff.mp hslash
        exact hstart "//" (by simp) ⟨rest, rfl⟩
    · have hbrace : c ≠ '}' := by
        rintro rfl
        exact hstart "\x7d" (by simp) ⟨cs, rfl⟩
      have hsemicolon : c ≠ ';' := by
        rintro rfl
        exact hstart ";" (by simp) ⟨cs, rfl⟩
      have hhash : c ≠ '#' := by
        rintro rfl
        exact hstart "#" (by simp) ⟨cs, rfl⟩
      have hnext : ∀ p, next ⟨.idle, steps⟩ p c = some ⟨.selector [c], steps⟩ := by
        intro p
        simp [next, step, stepSelector, h.1.1, h.1.2, hc, hbrace, hsemicolon, hhash]
      exact .cons hnext (selector_leads steps h.2 [c])

theorem step_leads {step : KeyframeStep} (h : step.WellFormed) (steps : List KeyframeStep) :
    Leads next ⟨.idle, steps⟩ step.print ⟨.idle, steps ++ [step]⟩ := by
  have hopen := openStep_leads steps h.selector h.start
  rw [textOf_reverse_toList] at hopen
  have hblock : Leads next ⟨.block step.selector {}, steps⟩
      (step.declarations.flatMap Declaration.print ++ ['}']) ⟨.idle, steps ++ [step]⟩ :=
    .block h.declarations (fun block => (⟨.block step.selector block, steps⟩ : StepsReader))
      (fun _ _ _ _ => next_block) fun r p hr => by simp [next, StepsReader.step, hr]
  simpa [KeyframeStep.print, Declaration.printBlock] using hopen.append hblock

theorem steps_leads {more : List KeyframeStep} (h : ∀ step ∈ more, step.WellFormed)
    (steps : List KeyframeStep) :
    Leads next ⟨.idle, steps⟩ (more.flatMap KeyframeStep.print) ⟨.idle, steps ++ more⟩ := by
  induction more generalizing steps with
  | nil => simpa using Leads.refl
  | cons step more ih =>
    rw [List.forall_mem_cons] at h
    have hmore := ih h.2 (steps ++ [step])
    rw [List.append_assoc] at hmore
    exact (step_leads h.1 steps).append hmore

end StepsReader

namespace CommentReader

def next (r : CommentReader) (_ : Position) (c : Char) : Option CommentReader :=
  (r.step c).getLeft?

theorem text_leads {cs : List Char} (read : List Char) (h : ¬ ['*', '/'] <:+: read.reverse ++ cs) :
    Leads next (.block read) cs (.block (cs.reverse ++ read)) := by
  induction cs generalizing read with
  | nil => exact .refl
  | cons c cs ih =>
    have hnext : ∀ p, next (.block read) p c = some (.block (c :: read)) := by
      intro p
      simp only [next, step]
      split
      · next text => exact absurd ⟨text.reverse, cs, by simp⟩ h
      · rfl
    rw [List.reverse_cons, List.append_assoc]
    exact .cons hnext (ih (c :: read) (by simpa using h))

end CommentReader

namespace Reader

variable {items : List Item} {enclosing : List OpenConditional} {id : Nat}

def next (r : Reader) (p : Position) (c : Char) : Option Reader := (r.step p c).toOption

theorem next_eq_some {r r' : Reader} {p : Position} {c : Char} :
    r.next p c = some r' ↔ r.step p c = .ok r' := by
  unfold next
  cases r.step p c <;> simp [Except.toOption]

theorem Takes.next_eq {mode : Mode} {r : Reader} {p : Position} {c : Char}
    (h : Takes ⟨mode, items, enclosing, id⟩ p c mode (.ok r)) :
    next ⟨mode, items, enclosing, id⟩ p c = some r :=
  next_eq_some.mpr h.step_eq

theorem feed_of_leads {r r' : Reader} {cs : List Char} (h : Leads next r cs r') (p : Position) :
    r.feed p cs = .ok r' := by
  have hs := h p
  clear h
  induction cs generalizing r p with
  | nil => exact congrArg Except.ok (Option.some.inj hs)
  | cons c cs ih =>
    rw [follow, Option.bind_eq_some_iff] at hs
    obtain ⟨r₁, hnext, hs⟩ := hs
    rw [feed, next_eq_some.mp hnext]
    exact ih _ hs

theorem declaration_leads {d : Declaration} (h : d.WellFormed) :
    Leads next ⟨.idle, items, enclosing, id⟩ d.print
      ⟨.idle, items ++ [.declaration d], enclosing, id⟩ := by
  refine .declaration h (fun d => (⟨.declaration d, items, enclosing, id⟩ : Reader)) ?_ ?_ ?_
  · intro p c hc
    exact Takes.next_eq (.property hc)
  · intro r p c r' hr
    exact Takes.next_eq (.declarationMore (Step.ongoing?_eq_some.mp hr))
  · intro r p hr
    exact Takes.next_eq (.declarationEnd hr)

theorem pseudo_leads {b : PseudoBlock} (h : (Item.pseudo b).WellFormed) (hid : b.id = id) :
    Leads next ⟨.idle, items, enclosing, id⟩ (Item.pseudo b).print
      ⟨.idle, items ++ [.pseudo b], enclosing, id + 1⟩ := by
  obtain ⟨hchars, ⟨rest, hrest⟩, hdeclarations⟩ := h
  unfold Text.IsSelector at hchars
  rw [← hrest, List.cons_append, List.forall_mem_cons, List.nil_append] at hchars
  have hread : Leads next ⟨.selector id [':'], items, enclosing, id + 1⟩ rest
      ⟨.selector id (rest.reverse ++ [':']), items, enclosing, id + 1⟩ :=
    .collect (fun read => (⟨.selector id read, items, enclosing, id + 1⟩ : Reader))
      (fun _ _ _ hc => Takes.next_eq (.selectorMore hc.1 hc.2)) hchars.2 [':']
  have htext : textOf (rest.reverse ++ [':']) = b.selector := by
    rw [← List.reverse_cons, ← textOf_reverse_toList b.selector, ← hrest]
    rfl
  have hblock : Leads next ⟨.pseudo id b.selector {}, items, enclosing, id + 1⟩
      (b.declarations.flatMap Declaration.print ++ ['}'])
      ⟨.idle, items ++ [.pseudo b], enclosing, id + 1⟩ := by
    refine .block hdeclarations
      (fun block => (⟨.pseudo id b.selector block, items, enclosing, id + 1⟩ : Reader)) ?_ ?_
    · intro r p c r' hr
      exact Takes.next_eq (.pseudoMore (ongoing?_eq_some.mp hr))
    · intro r p hr
      subst hid
      exact Takes.next_eq (.pseudoEnd hr)
  have hopen : ∀ p, next ⟨.selector id (rest.reverse ++ [':']), items, enclosing, id + 1⟩ p '{' =
      some ⟨.pseudo id b.selector {}, items, enclosing, id + 1⟩ := by
    intro p
    rw [← htext]
    exact Takes.next_eq (.selectorOpen rfl)
  have hcolon : ∀ p, next ⟨.idle, items, enclosing, id⟩ p ':' =
      some ⟨.selector id [':'], items, enclosing, id + 1⟩ := fun _ => rfl
  have hprint := Leads.cons hcolon (hread.append (.cons hopen hblock))
  simpa [Item.print, Declaration.printBlock, ← hrest] using hprint

theorem next_comment {comment comment' : CommentReader} {p : Position} {c : Char}
    (h : comment.next p c = some comment') :
    next ⟨.comment comment, items, enclosing, id⟩ p c =
      some ⟨.comment comment', items, enclosing, id⟩ :=
  Takes.next_eq (.commentMore (Sum.getLeft?_eq_some_iff.mp h))

theorem comment_leads {text : String} (h : (Item.comment text).WellFormed) :
    Leads next ⟨.idle, items, enclosing, id⟩ (Item.comment text).print
      ⟨.idle, items ++ [.comment text], enclosing, id⟩ := by
  have hopen : Leads next ⟨.idle, items, enclosing, id⟩ ['/', '*']
      ⟨.comment (.block []), items, enclosing, id⟩ := fun _ => rfl
  have htext := (@CommentReader.text_leads text.toList [] h).lift
    (fun comment => (⟨.comment comment, items, enclosing, id⟩ : Reader))
    fun _ _ _ _ => next_comment
  have hclose : Leads next ⟨.comment (.block text.toList.reverse), items, enclosing, id⟩ ['*', '/']
      ⟨.idle, items ++ [.comment text], enclosing, id⟩ := by
    have hstep : CommentReader.step (.block ('*' :: text.toList.reverse)) '/' = .inr text :=
      congrArg Sum.inr (textOf_reverse_toList text)
    have hend : ∀ p,
        next ⟨.comment (.block ('*' :: text.toList.reverse)), items, enclosing, id⟩ p '/' =
          some ⟨.idle, items ++ [.comment text], enclosing, id⟩ :=
      fun _ => Takes.next_eq (.commentEnd hstep)
    exact .cons (fun _ => rfl) (.single hend)
  rw [List.append_nil] at htext
  exact hopen.append (htext.append hclose)

theorem word_leads {name : String} (h : ∀ c ∈ name.toList, Text.isNameChar c = true) :
    Leads next ⟨.idle, items, enclosing, id⟩ ('@' :: name.toList)
      ⟨.word name.toList.reverse, items, enclosing, id⟩ := by
  have hread : Leads next ⟨.word [], items, enclosing, id⟩ name.toList
      ⟨.word (name.toList.reverse ++ []), items, enclosing, id⟩ :=
    .collect (fun read => (⟨.word read, items, enclosing, id⟩ : Reader))
      (fun _ _ _ hc => Takes.next_eq (.wordMore hc)) h []
  rw [List.append_nil] at hread
  exact .cons (fun _ => rfl) hread

theorem Takes.ofWord {r : Reader} {p : Position} {c : Char} {result : Except SourceError Reader}
    {name : String} (hc : Text.isNameChar c = false) (hkeyframes : name ≠ "keyframes")
    (h : r.Takes p c (.header name none) result) :
    r.Takes p c (.word name.toList.reverse) result := by
  have htext : textOf name.toList.reverse = name := textOf_reverse_toList name
  exact .wordHeader hc (by rwa [htext]) (by rwa [htext])

theorem next_keyframes {name : String} {steps steps' : StepsReader} {p : Position} {c : Char}
    (h : steps.next p c = some steps') :
    next ⟨.keyframes name steps, items, enclosing, id⟩ p c =
      some ⟨.keyframes name steps', items, enclosing, id⟩ :=
  Takes.next_eq (.keyframesMore (ongoing?_eq_some.mp h))

theorem keyframesWord_leads : Leads next ⟨.idle, items, enclosing, id⟩ "@keyframes ".toList
    ⟨.keyframesName [], items, enclosing, id⟩ := by
  have hsplit : "@keyframes ".toList = '@' :: "keyframes".toList ++ [' '] := by decide
  have hword : Leads next ⟨.idle, items, enclosing, id⟩ ('@' :: "keyframes".toList)
      ⟨.word "keyframes".toList.reverse, items, enclosing, id⟩ :=
    word_leads (List.all_eq_true.mp (by decide))
  have hblank : ∀ p, next ⟨.word "keyframes".toList.reverse, items, enclosing, id⟩ p ' ' =
      some ⟨.keyframesName [], items, enclosing, id⟩ := by
    intro p
    refine Takes.next_eq (.wordKeyframes (by decide) (textOf_reverse_toList _) ?_)
    exact .nameSkip (by decide)
  rw [hsplit]
  exact hword.append (.single hblank)

theorem keyframes_leads {k : Keyframes} (h : (Item.keyframes k).WellFormed) :
    Leads next ⟨.idle, items, enclosing, id⟩ (Item.keyframes k).print
      ⟨.idle, items ++ [.keyframes k], enclosing, id⟩ := by
  obtain ⟨hne, hchars, hsteps⟩ := h
  have hname : Leads next ⟨.keyframesName [], items, enclosing, id⟩ k.name.toList
      ⟨.keyframesName (k.name.toList.reverse ++ []), items, enclosing, id⟩ :=
    .collect (fun read => (⟨.keyframesName read, items, enclosing, id⟩ : Reader))
      (fun _ _ _ hc => Takes.next_eq (.nameMore hc.1 hc.2)) hchars []
  have hopen : ∀ p,
      next ⟨.keyframesName (k.name.toList.reverse ++ []), items, enclosing, id⟩ p '{' =
        some ⟨.keyframes k.name {}, items, enclosing, id⟩ := by
    intro p
    have hname : k.name.toList.reverse ≠ [] := by simpa using hne
    have hopen := @Takes.nameOpen ⟨.keyframesName k.name.toList.reverse, items, enclosing, id⟩ p '{'
      _ hname rfl
    rw [textOf_reverse_toList] at hopen
    rw [List.append_nil]
    exact hopen.next_eq
  have hbody := (StepsReader.steps_leads hsteps []).lift
    (fun steps => (⟨.keyframes k.name steps, items, enclosing, id⟩ : Reader))
    fun _ _ _ _ => next_keyframes
  have hclose : ∀ p, next ⟨.keyframes k.name ⟨.idle, [] ++ k.steps⟩, items, enclosing, id⟩ p '}' =
      some ⟨.idle, items ++ [.keyframes k], enclosing, id⟩ := fun _ => rfl
  have hprint : (Item.keyframes k).print = "@keyframes ".toList ++
      (k.name.toList ++ '{' :: (k.steps.flatMap KeyframeStep.print ++ ['}'])) := by
    unfold Item.print Keyframes.print
    generalize "@keyframes ".toList = word
    simp
  rw [hprint]
  exact keyframesWord_leads.append (hname.append (.cons hopen (hbody.append (.single hclose))))

theorem next_arguments {name : String} {arguments arguments' : ArgumentReader} {p : Position}
    {c : Char} (h : arguments.next p c = some arguments') :
    next ⟨.arguments name arguments, items, enclosing, id⟩ p c =
      some ⟨.arguments name arguments', items, enclosing, id⟩ :=
  Takes.next_eq (.argumentsMore (Sum.getLeft?_eq_some_iff.mp h))

theorem header_leads {name : String} {arguments : List (List Argument)}
    (hname : ∀ c ∈ name.toList, Text.isNameChar c = true) (hkeyframes : name ≠ "keyframes")
    (hne : arguments ≠ [[]]) (hgroups : Argument.WellFormedGroups arguments) :
    Leads next ⟨.idle, items, enclosing, id⟩
      ('@' :: name.toList ++ '(' :: Argument.printGroups arguments ++ [')', '{'])
      ⟨.idle, [], ⟨name, arguments, items⟩ :: enclosing, id⟩ := by
  have hopen : ∀ p, next ⟨.word name.toList.reverse, items, enclosing, id⟩ p '(' =
      some ⟨.arguments name {}, items, enclosing, id⟩ :=
    fun _ => Takes.next_eq (.ofWord (by decide) hkeyframes (.headerArguments rfl))
  have harguments : Leads next ⟨.arguments name {}, items, enclosing, id⟩
      (Argument.printGroups arguments ++ [')'])
      ⟨.header name (some arguments), items, enclosing, id⟩ :=
    .arguments hne hgroups (fun a => (⟨.arguments name a, items, enclosing, id⟩ : Reader))
      (fun _ _ _ _ => next_arguments) fun r p hr => Takes.next_eq (.argumentsEnd hr)
  have hbrace : ∀ p, next ⟨.header name (some arguments), items, enclosing, id⟩ p '{' =
      some ⟨.idle, [], ⟨name, arguments, items⟩ :: enclosing, id⟩ := fun _ => rfl
  have hprint := (word_leads hname).append (.cons hopen (harguments.append (.single hbrace)))
  simpa using hprint

/-- Numbers of two lists of blocks that count on from one to the other. -/
theorem ids_append {blocks more : List PseudoBlock}
    (h : (blocks ++ more).map PseudoBlock.id = List.range' id (blocks ++ more).length) :
    blocks.map PseudoBlock.id = List.range' id blocks.length ∧
      more.map PseudoBlock.id = List.range' (id + blocks.length) more.length := by
  rw [List.map_append, List.length_append, ← List.range'_append_1] at h
  exact List.append_inj h (by simp)

mutual

theorem item_leads : ∀ (item : Item), item.WellFormed → ∀ items enclosing id,
    item.blocks.map PseudoBlock.id = List.range' id item.blocks.length →
    Leads next ⟨.idle, items, enclosing, id⟩ item.print
      ⟨.idle, items ++ [item], enclosing, id + item.blocks.length⟩
  | .declaration _, h, _, _, _, _ => declaration_leads h
  | .pseudo _, h, _, _, _, hid => pseudo_leads h (List.cons.inj hid).1
  | .keyframes _, h, _, _, _, _ => keyframes_leads h
  | .comment _, h, _, _, _, _ => comment_leads h
  | .conditional name arguments inner, ⟨hname, hkeyframes, hne, hgroups, hinner⟩, items, enclosing,
      id, hid => by
    have hhead := @header_leads items enclosing id name arguments hname hkeyframes hne hgroups
    have hbody := items_leads inner hinner [] (⟨name, arguments, items⟩ :: enclosing) id hid
    have hclose : ∀ p, next ⟨.idle, [] ++ inner, ⟨name, arguments, items⟩ :: enclosing,
        id + (Item.blocksAll inner).length⟩ p '}' =
          some ⟨.idle, items ++ [.conditional name arguments inner], enclosing,
            id + (Item.blocksAll inner).length⟩ := fun _ => rfl
    have hprint := hhead.append (hbody.append (.single hclose))
    simpa [Item.print, Item.blocks] using hprint

theorem items_leads : ∀ (more : List Item), Item.WellFormedAll more → ∀ items enclosing id,
    (Item.blocksAll more).map PseudoBlock.id = List.range' id (Item.blocksAll more).length →
    Leads next ⟨.idle, items, enclosing, id⟩ (Item.printAll more)
      ⟨.idle, items ++ more, enclosing, id + (Item.blocksAll more).length⟩
  | [], _, items, _, _, _ => by
    rw [List.append_nil]
    exact .refl
  | item :: rest, ⟨hitem, hrest⟩, items, enclosing, id, hids => by
    obtain ⟨hid, hids⟩ := ids_append hids
    have hfirst := item_leads item hitem items enclosing id hid
    have hmore := items_leads rest hrest (items ++ [item]) enclosing _ hids
    rw [List.append_assoc, Nat.add_assoc, ← List.length_append] at hmore
    exact hfirst.append hmore

end

end Reader

end Source

theorem Item.parse_of_wellFormedAll {items : List Item} (h : WellFormedAll items)
    (hids : blockIds items = List.range (blocksAll items).length) :
    parse (source items) = .ok items := by
  rw [List.range_eq_range'] at hids
  have hleads := Source.Reader.items_leads items h [] [] 0 hids
  have hfeed := Source.Reader.feed_of_leads hleads {}
  rw [parse, source, String.toList_ofList, Source.Reader.read, hfeed]
  rfl

/-- Well-formed items are read back from their source if and only if their pseudo blocks are
numbered in document order. -/
theorem parse_source {items : List Item} (h : Item.WellFormedAll items) :
    parse (Item.source items) = .ok items ↔
      Item.blockIds items = List.range (Item.blocksAll items).length := by
  constructor
  · intro hparse
    exact Item.blockIds_of_parse hparse
  · intro hids
    exact Item.parse_of_wellFormedAll h hids

/-- A hover block in a condition, with an at sign that starts no call, quotes and an empty argument,
and a keyframes step that starts with a slash. -/
theorem parse_source_hover :
    let value : List Node :=
      [.text "a@b ", .call "pick" [[.text "it's"], [], [.call "i" [], .text " px"]], .text "!"]
    let items : List Item :=
      [.conditional "nth" [[.text "2n"]] [.pseudo ⟨0, ":hover", [⟨"content", value⟩]⟩],
        .comment "* /", .keyframes ⟨"spin", [⟨"/x", [⟨"top", []⟩]⟩]⟩]
    Item.WellFormedAll items ∧ Item.blockIds items = List.range (Item.blocksAll items).length ∧
      parse (Item.source items) = .ok items := by
  intro value items
  have hwf : Item.WellFormedAll items := by decide +kernel
  have hids : Item.blockIds items = List.range (Item.blocksAll items).length := rfl
  exact ⟨hwf, hids, (parse_source hwf).mpr hids⟩

end GridCss
