import GridCss.Proofs.ReaderSteps

/-!
# The numbers of pseudo blocks

At a character a reader goes on within an item, gives the next number to a pseudo block, adds an
item, opens a conditional or closes one. All of this keeps the pseudo blocks read so far, in
document order and with the one being read behind them, numbered from zero. The number of a block in
a source is thus its place among all blocks, and no two blocks have the same.
-/

namespace GridCss

mutual

/-- The pseudo blocks in an item, nested ones included, in document order. -/
def Item.blocks : Item → List PseudoBlock
  | .pseudo b => [b]
  | .conditional _ _ items => Item.blocksAll items
  | .declaration _ | .keyframes _ | .comment _ => []

def Item.blocksAll : List Item → List PseudoBlock
  | [] => []
  | item :: rest => item.blocks ++ Item.blocksAll rest

end

def Item.blockIds (items : List Item) : List Nat := (Item.blocksAll items).map PseudoBlock.id

theorem Item.blocksAll_append (items more : List Item) :
    blocksAll (items ++ more) = blocksAll items ++ blocksAll more := by
  induction items with
  | nil => rfl
  | cons item rest ih => simp [blocksAll, ih]

theorem Item.blockIds_append (items more : List Item) :
    blockIds (items ++ more) = blockIds items ++ blockIds more := by
  simp [blockIds, blocksAll_append]

theorem Item.blockIds_singleton (item : Item) :
    blockIds [item] = item.blocks.map PseudoBlock.id := by
  simp [blockIds, blocksAll]

namespace Source

/-- The number of the pseudo block that is being read. -/
def Mode.pendingIds : Mode → List Nat
  | .selector id _ | .pseudo id _ _ => [id]
  | _ => []

namespace Reader

variable {r r' : Reader} {mode : Mode} {p : Position} {c : Char}

/-- The numbers of the blocks in front of the innermost list of items. -/
def idsBefore : List OpenConditional → List Nat
  | [] => []
  | o :: enclosing => idsBefore enclosing ++ Item.blockIds o.before

/-- The numbers of all blocks read so far and of the one being read. -/
def blockIds (r : Reader) : List Nat :=
  idsBefore r.enclosing ++ Item.blockIds r.items ++ r.mode.pendingIds

def Numbered (r : Reader) : Prop := r.blockIds = List.range r.nextId

theorem Numbered.add {item : Item} (h : (r.enter mode).Numbered)
    (hitem : Item.blockIds [item] = mode.pendingIds) : (r.add item).Numbered := by
  unfold Numbered at h ⊢
  simpa [blockIds, Reader.enter, Reader.add, Item.blockIds_append, hitem, Mode.pendingIds] using h

theorem Numbered.openBlock (h : (r.enter mode).Numbered) (hmode : mode.pendingIds = [])
    (name : String) (arguments : List (List Argument)) : (r.openBlock name arguments).Numbered := by
  unfold Numbered blockIds at h ⊢
  rw [mode_enter, hmode] at h
  simpa [Reader.enter, Reader.openBlock, idsBefore, Mode.pendingIds, Item.blockIds,
    Item.blocksAll] using h

theorem Numbered.closeBlock? (h : (r.enter .idle).Numbered) (hclose : r.closeBlock? = some r') :
    r'.Numbered := by
  unfold Reader.closeBlock? at hclose
  split at hclose
  · cases hclose
  · next name arguments before enclosing henclosing =>
    cases hclose
    have hitem : Item.blockIds [.conditional name arguments r.items] = Item.blockIds r.items :=
      Item.blockIds_singleton _
    unfold Numbered at h ⊢
    simpa [blockIds, Reader.enter, henclosing, idsBefore, Item.blockIds_append, hitem] using h

/-- Each step leaves the blocks numbered. -/
theorem Numbered.takes {result : Except SourceError Reader} (h : (r.enter mode).Numbered)
    (htakes : r.Takes p c mode result) : Ensures Numbered result := by
  induction htakes with
  | skip | hash | slash | sign | property | startComment | commentMore | declarationMore
    | selectorOpen | selectorBlank | selectorMore | pseudoMore | wordMore | headerBlank
    | headerArguments | argumentsMore | argumentsEnd | nameSkip | nameEnd | nameOpen | nameMore
    | keyframesBlank | keyframesOpen | keyframesMore => exact h
  | noItem | noComment | declarationFault | declarationUnclosed | pseudoFault | headerFault
    | nameMissing | keyframesNoBlock | keyframesFault => trivial
  | commentEnd | declarationEnd | pseudoEnd | keyframesEnd => exact h.add rfl
  | colon =>
    have hids : (r.enter .idle).blockIds = List.range r.nextId := h
    simp [Ensures, Numbered, blockIds, List.range_succ, ← hids, Mode.pendingIds, Reader.enter]
  | close _ hclose => exact h.closeBlock? hclose
  | declarationClose _ hclose =>
    refine Numbered.closeBlock? ?_ hclose
    exact h.add rfl
  | headerOpen => exact h.openBlock rfl _ _
  | wordKeyframes _ _ _ ih => exact ih h
  | wordHeader _ _ _ ih => exact ih h

theorem Numbered.feed {cs : List Char} (hr : r.Numbered) (h : r.feed p cs = .ok r') :
    r'.Numbered :=
  (ensures_feed (fun r p c hr => Numbered.takes hr (r.takes_step p c)) hr p cs).of_eq h

theorem numbered_empty : ({} : Reader).Numbered := rfl

/-- A source may end between two items, in a comment or in a value, in no conditional. -/
theorem finish_eq_ok {items : List Item} (h : r.finish p = .ok items) :
    r.enclosing = [] ∧
      (r.mode = .idle ∧ items = r.items ∨
        (∃ comment, r.mode = .comment comment ∧ items = r.items ++ [.comment comment.text]) ∨
        ∃ declaration d, r.mode = .declaration declaration ∧ declaration.finish = some d ∧
          items = r.items ++ [.declaration d]) := by
  have hidle : ∀ {r' : Reader}, r'.finishIdle p = .ok items →
      r'.enclosing = [] ∧ items = r'.items := by
    intro r' h'
    unfold finishIdle at h'
    split at h'
    · next hempty =>
      cases h'
      exact ⟨List.isEmpty_iff.mp hempty, rfl⟩
    · cases h'
  unfold finish at h
  split at h
  · next hmode => exact ⟨(hidle h).1, .inl ⟨hmode, (hidle h).2⟩⟩
  · cases h
  · next comment hmode => exact ⟨(hidle h).1, .inr (.inl ⟨comment, hmode, (hidle h).2⟩)⟩
  · next declaration hmode =>
    split at h
    · next d hd => exact ⟨(hidle h).1, .inr (.inr ⟨declaration, d, hmode, hd, (hidle h).2⟩)⟩
    · cases h
  · cases h
  · split at h <;> cases h
  · split at h <;> cases h
  all_goals cases h

theorem Numbered.finish {items : List Item} (hr : r.Numbered) (h : r.finish p = .ok items) :
    Item.blockIds items = List.range r.nextId := by
  obtain ⟨henclosing, hcases⟩ := finish_eq_ok h
  unfold Numbered at hr
  rw [← hr]
  rcases hcases with ⟨hmode, rfl⟩ | ⟨comment, hmode, rfl⟩ | ⟨declaration, d, hmode, -, rfl⟩
  · simp [blockIds, henclosing, idsBefore, hmode, Mode.pendingIds]
  · simp [blockIds, henclosing, idsBefore, hmode, Mode.pendingIds, Item.blockIds_append,
      Item.blockIds_singleton, Item.blocks]
  · simp [blockIds, henclosing, idsBefore, hmode, Mode.pendingIds, Item.blockIds_append,
      Item.blockIds_singleton, Item.blocks]

end Reader
end Source

open Source

/-- Reading a source is feeding it to a new reader and finishing there. -/
theorem parse_eq_ok {source : String} {items : List Item} (h : parse source = .ok items) :
    ∃ r : Reader, Reader.feed {} {} source.toList = .ok r ∧
      r.finish (Position.advanceAll {} source.toList) = .ok items := by
  unfold parse Reader.read at h
  split at h
  · cases h
  · next r hfeed => exact ⟨r, hfeed, h⟩

/-- The blocks of a source are numbered in document order. -/
theorem Item.blockIds_of_parse {source : String} {items : List Item}
    (h : parse source = .ok items) :
    blockIds items = List.range (blocksAll items).length := by
  obtain ⟨r, hfeed, hfinish⟩ := parse_eq_ok h
  have hids : blockIds items = List.range r.nextId :=
    (Reader.numbered_empty.feed hfeed).finish hfinish
  have hlength := congrArg List.length hids
  rw [blockIds, List.length_map, List.length_range] at hlength
  rw [hids, hlength]

theorem Item.blocksAll_pairwise {items : List Item}
    (h : blockIds items = List.range (blocksAll items).length) :
    (blocksAll items).Pairwise fun b b' => b.id < b'.id := by
  have hpairwise : (blockIds items).Pairwise (· < ·) := h ▸ List.pairwise_lt_range
  exact List.pairwise_map.mp hpairwise

/-- A block is found by its number. -/
theorem Item.getElem?_of_blockIds {items : List Item}
    (h : blockIds items = List.range (blocksAll items).length) {b : PseudoBlock}
    (hb : b ∈ blocksAll items) : (blocksAll items)[b.id]? = some b := by
  obtain ⟨i, hi, rfl⟩ := List.getElem_of_mem hb
  have hid : (blocksAll items)[i].id = i := by
    have hget := congrArg (·[i]?) h
    simpa [blockIds, hi] using hget
  rw [hid]
  exact List.getElem?_eq_getElem hi

end GridCss
