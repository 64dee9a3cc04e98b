import GridCss.Compiler
import GridCss.Proofs.BlockNumbers
import GridCss.Proofs.CellStyles

/-!
# Host blocks

A pseudo block for the host is compiled for the first cell that reaches it and for no other. Since
the blocks of a source are numbered by their places, the numbers that a pass has noted are the
blocks that it has compiled. The styles of the host are thus those of the host blocks that are
reached, in the order of the first cells that reach them and, for one cell, in document order.
-/

namespace GridCss

/-- A host block, a cell that reaches it and the scope in which it does. -/
structure HostVisit where
  cell : Cell
  block : PseudoBlock
  scope : Scope

namespace HostVisit

def rules (k : Context) (h : HostVisit) : List Rule :=
  (h.block.declarations.mapM (Declaration.compile k h.cell) h.scope).1

/-- The rules of the block for the cell that reaches it, to be filed for the host. -/
def filing (k : Context) (h : HostVisit) : Filing :=
  (Selector.resolve h.block.selector, (h.rules k).map Rule.text)

/-- The first visit of every block whose number is not among those seen. -/
def firsts : List Nat → List HostVisit → List HostVisit
  | _, [] => []
  | seen, h :: rest =>
    if h.block.id ∈ seen then firsts seen rest else h :: firsts (h.block.id :: seen) rest

theorem firsts_sublist (seen : List Nat) (visits : List HostVisit) :
    (firsts seen visits).Sublist visits := by
  induction visits generalizing seen with
  | nil => exact .slnil
  | cons h rest ih =>
    unfold firsts
    split
    · exact (ih seen).cons h
    · exact (ih _).cons_cons h

theorem mem_firsts_of_split {seen : List Nat} {before after : List HostVisit} {h : HostVisit}
    (hseen : h.block.id ∉ seen) (hbefore : ∀ u ∈ before, u.block.id ≠ h.block.id) :
    h ∈ firsts seen (before ++ h :: after) := by
  induction before generalizing seen with
  | nil => simp [firsts, hseen]
  | cons u before ih =>
    rw [List.forall_mem_cons] at hbefore
    simp only [List.cons_append, firsts]
    split
    · exact ih hseen hbefore.2
    · refine List.mem_cons_of_mem _ (ih ?_ hbefore.2)
      simp [hseen, hbefore.1.symm]

theorem exists_split_of_mem_firsts {seen : List Nat} {visits : List HostVisit} {h : HostVisit}
    (hmem : h ∈ firsts seen visits) :
    h.block.id ∉ seen ∧ ∃ before after, visits = before ++ h :: after ∧
      ∀ u ∈ before, u.block.id ≠ h.block.id := by
  induction visits generalizing seen with
  | nil => simp [firsts] at hmem
  | cons u rest ih =>
    unfold firsts at hmem
    split at hmem
    · next hu =>
      obtain ⟨hseen, before, after, rfl, hbefore⟩ := ih hmem
      refine ⟨hseen, u :: before, after, rfl, List.forall_mem_cons.mpr ⟨?_, hbefore⟩⟩
      rintro heq
      exact hseen (heq ▸ hu)
    · next hu =>
      rcases List.mem_cons.mp hmem with rfl | hmem
      · exact ⟨hu, [], rest, rfl, by simp⟩
      · obtain ⟨hseen, before, after, rfl, hbefore⟩ := ih hmem
        rw [List.mem_cons, not_or] at hseen
        refine ⟨hseen.2, u :: before, after, rfl, List.forall_mem_cons.mpr ⟨?_, hbefore⟩⟩
        exact fun heq => hseen.1 heq.symm

theorem firsts_ids_nodup (seen : List Nat) (visits : List HostVisit) :
    ((firsts seen visits).map (·.block.id)).Nodup := by
  induction visits generalizing seen with
  | nil => exact .nil
  | cons h rest ih =>
    unfold firsts
    split
    · exact ih seen
    · rw [List.map_cons, List.nodup_cons]
      refine ⟨fun hmem => ?_, ih _⟩
      obtain ⟨u, hu, heq⟩ := List.mem_map.mp hmem
      exact (exists_split_of_mem_firsts hu).1 (heq ▸ List.mem_cons_self)

/-- The order of cells, and of blocks for one cell. -/
def Precedes (h h' : HostVisit) : Prop :=
  h.cell.index < h'.cell.index ∨ h.cell.index = h'.cell.index ∧ h.block.id < h'.block.id

/-- In ordered visits, the first ones are those by the first cells. -/
theorem mem_firsts_iff {visits : List HostVisit} (horder : visits.Pairwise Precedes)
    (hids : ∀ h ∈ visits, ∀ h' ∈ visits, h.block.id = h'.block.id → h.block = h'.block)
    (h : HostVisit) :
    h ∈ firsts [] visits ↔
      h ∈ visits ∧ ∀ h' ∈ visits, h'.block = h.block → h.cell.index ≤ h'.cell.index := by
  constructor
  · intro hmem
    refine ⟨(firsts_sublist [] visits).subset hmem, fun h' hh' hblock => ?_⟩
    obtain ⟨-, before, after, rfl, hbefore⟩ := exists_split_of_mem_firsts hmem
    rw [List.pairwise_append, List.pairwise_cons] at horder
    rw [List.mem_append, List.mem_cons] at hh'
    rcases hh' with hh' | rfl | hh'
    · exact absurd (congrArg PseudoBlock.id hblock) (hbefore h' hh')
    · exact le_refl _
    · rcases horder.2.1.1 h' hh' with hlt | ⟨heq, -⟩
      · exact Nat.le_of_lt hlt
      · exact Nat.le_of_eq heq
  · rintro ⟨hmem, hfirst⟩
    obtain ⟨before, after, rfl⟩ := List.append_of_mem hmem
    refine mem_firsts_of_split List.not_mem_nil fun u hu hid => ?_
    have hu' : u ∈ before ++ h :: after := List.mem_append_left _ hu
    have hle := hfirst u hu' (hids u hu' h hmem hid)
    rcases (List.pairwise_append.mp horder).2.2 u hu h List.mem_cons_self with hlt | ⟨-, hlt⟩
    · omega
    · omega

end HostVisit

namespace Target

theorem ofSelector_eq (selector : String) :
    ofSelector selector =
      if Selector.isHost (Selector.resolve selector) then .host (Selector.resolve selector)
      else .cell (Selector.resolve selector) := rfl

theorem ofSelector_of_isHost {selector : String}
    (h : Selector.isHost (Selector.resolve selector) = true) :
    ofSelector selector = .host (Selector.resolve selector) := by
  rw [ofSelector_eq, if_pos h]

end Target

namespace Visit

def block? (v : Visit) : Option PseudoBlock :=
  match v.item with
  | .pseudo b => some b
  | _ => none

/-- The host block that a visit reaches. -/
def hostVisit? (v : Visit) : Option HostVisit :=
  match v.item with
  | .pseudo b =>
    if Selector.isHost (Selector.resolve b.selector) then some ⟨v.cell, b, v.pass.scope⟩ else none
  | _ => none

theorem hostVisit?_eq_some {v : Visit} {h : HostVisit} (hv : v.hostVisit? = some h) :
    v.item = .pseudo h.block ∧ Selector.isHost (Selector.resolve h.block.selector) = true ∧
      v.cell = h.cell ∧ v.pass.scope = h.scope := by
  unfold hostVisit? at hv
  split at hv
  · next b hitem =>
    split at hv
    · next hhost =>
      cases hv
      exact ⟨hitem, hhost, rfl, rfl⟩
    · cases hv
  · cases hv

theorem host?_eq (v : Visit) : v.host? = v.hostVisit?.map (·.block.id) := by
  unfold host? hostVisit?
  cases v.item with
  | pseudo b =>
    cases hhost : Selector.isHost (Selector.resolve b.selector) <;>
      simp [Target.ofSelector_eq, hhost]
  | declaration | conditional | keyframes | comment => rfl

end Visit

variable {k : Context} {cell : Cell}

/-- What an entry files for the host. -/
def Entry.hostFiling? : Entry → Option Filing
  | .rules _ (.host selector) rs => some (selector, rs.map Rule.text)
  | .rules _ (.cell _) _ | .keyframes .. => none

theorem Entry.filter_hostFilings {cellSelector : String}
    (hs : Selector.isHost cellSelector = false) {log : List Entry}
    (hlog : ∀ e ∈ log, ∀ cell selector rules, e = .rules cell (.host selector) rules →
      Selector.isHost selector) :
    (log.filterMap (filing? cellSelector)).filter (Selector.isHost ·.1) =
      log.filterMap hostFiling? := by
  induction log with
  | nil => rfl
  | cons e log ih =>
    rw [List.forall_mem_cons] at hlog
    cases e with
    | keyframes cell block => simpa [filing?, hostFiling?, List.filterMap_cons] using ih hlog.2
    | rules cell target rs =>
      cases target with
      | cell suffix =>
        have hcell := Selector.isHost_ofCell hs cell.index suffix
        simp [filing?, hostFiling?, Target.selector, hcell, ih hlog.2, List.filterMap_cons]
      | host selector =>
        have hhost := hlog.1 cell selector rs rfl
        simp [filing?, hostFiling?, Target.selector, hhost, ih hlog.2]

/-- The groups of a log that are for the host. -/
theorem Entry.hostGroups_sheet {cellSelector : String} (hs : Selector.isHost cellSelector = false)
    {log : List Entry}
    (hlog : ∀ e ∈ log, ∀ cell selector rules, e = .rules cell (.host selector) rules →
      Selector.isHost selector) :
    (sheet cellSelector log).groups.filter (Selector.isHost ·.selector) =
      (RuleSheet.fileAll {} (log.filterMap hostFiling?)).groups := by
  have h := RuleSheet.restrict_fileAll {} Selector.isHost (log.filterMap (filing? cellSelector))
  rw [filter_hostFilings hs hlog, ← sheet_eq_fileAll] at h
  exact congrArg RuleSheet.groups h

/-- A host block is compiled where its number has not been noted. -/
theorem Visit.hostFilings_entries (v : Visit) (hleaf : v.item.isConditional = false) :
    (v.entries k).filterMap Entry.hostFiling? =
      match v.hostVisit? with
      | some h => if h.block.id ∈ v.pass.hosts then [] else [h.filing k]
      | none => [] := by
  obtain ⟨cell, item, p⟩ := v
  cases item with
  | conditional name arguments items => simp [Item.isConditional] at hleaf
  | declaration d => simp [entries, Item.compile_declaration, Entry.hostFiling?, hostVisit?]
  | keyframes block => simp [entries, Item.compile_keyframes, Entry.hostFiling?, hostVisit?]
  | comment text => simp [entries, Item.compile_comment, hostVisit?]
  | pseudo b =>
    simp only [entries, Item.compile_pseudo, hostVisit?]
    cases hhost : Selector.isHost (Selector.resolve b.selector) with
    | false =>
      have htarget : Target.ofSelector b.selector = .cell (Selector.resolve b.selector) := by
        simp [Target.ofSelector_eq, hhost]
      simp [PseudoBlock.compile_cell htarget, Entry.hostFiling?]
    | true =>
      rw [PseudoBlock.compile_host (Target.ofSelector_of_isHost hhost)]
      by_cases hid : b.id ∈ p.hosts
      · simp [hid]
      · simp only [hid, if_false, if_true, Declaration.compileAll_eq_mapM]
        rfl

/-- What visits file for the host are the first visits of host blocks. -/
theorem Visit.hostFilings_eq_firsts {visits : List Visit} {seen hosts hosts' : List Nat}
    (hleaf : ∀ v ∈ visits, v.item.isConditional = false)
    (htracked : Visit.Tracked visits hosts hosts') (hseen : ∀ id, id ∈ hosts ↔ id ∈ seen) :
    (visits.flatMap (Visit.entries k)).filterMap Entry.hostFiling? =
      (HostVisit.firsts seen (visits.filterMap Visit.hostVisit?)).map (HostVisit.filing k) := by
  -- The numbers seen grow with every host block, as the noted ones do.
  induction visits generalizing seen hosts with
  | nil => rfl
  | cons v rest ih =>
    rw [List.forall_mem_cons] at hleaf
    have hfound : ∀ id, id ∈ v.pass.hosts ↔ id ∈ seen := by
      intro id
      rw [htracked.found [] v rest rfl id, hseen]
      simp
    have hrest : ∀ hosts₁, (∀ id, id ∈ hosts₁ ↔ id ∈ hosts ∨ v.host? = some id) →
        Visit.Tracked rest hosts₁ hosts' := by
      intro hosts₁ hhosts₁
      refine ⟨fun before u after heq id => ?_, fun id => ?_⟩
      · rw [htracked.found (v :: before) u after (by rw [heq]; rfl), hhosts₁]
        simp [or_assoc]
      · rw [htracked.left, hhosts₁]
        simp [or_assoc]
    rw [List.flatMap_cons, List.filterMap_append, Visit.hostFilings_entries v hleaf.1,
      List.filterMap_cons]
    have hhost := v.host?_eq
    cases hv : v.hostVisit? with
    | none =>
      rw [hv] at hhost
      exact ih hleaf.2 (hrest hosts (by simp [hhost])) hseen
    | some h =>
      simp only [hv, Option.map_some] at hhost
      simp only [HostVisit.firsts, hfound]
      by_cases hid : h.block.id ∈ seen
      · simp only [hid, if_true, List.nil_append]
        refine ih hleaf.2 (hrest hosts fun id => ?_) hseen
        simp only [hhost, Option.some.injEq, iff_self_or]
        rintro rfl
        exact (hseen _).mpr hid
      · simp only [hid, if_false, List.map_cons, List.singleton_append]
        congr 1
        refine ih hleaf.2 (hrest (h.block.id :: hosts) fun id => ?_) fun id => ?_
        · simp only [List.mem_cons, hhost, Option.some.injEq]
          rw [or_comm, eq_comm]
        · simp [hseen]

mutual

/-- A cell reaches blocks in document order, each once at most. -/
theorem Item.filterMap_block_visits (item : Item) (p : Pass) :
    ((item.visits k cell p).filterMap Visit.block?).Sublist item.blocks := by
  cases item with
  | conditional name arguments items =>
    simp only [Item.visits, Item.blocks]
    split
    · exact Item.filterMap_block_visitsAll items _
    · simp
  | declaration | pseudo | keyframes | comment =>
    rw [Item.visits_of_leaf rfl]
    simp [Visit.block?, Item.blocks, List.filterMap_cons]

theorem Item.filterMap_block_visitsAll (items : List Item) (p : Pass) :
    ((Item.visitsAll k cell items p).filterMap Visit.block?).Sublist (Item.blocksAll items) := by
  cases items with
  | nil => simp [Item.visitsAll]
  | cons item rest =>
    simp only [Item.visitsAll, Item.blocksAll, List.filterMap_append]
    exact (Item.filterMap_block_visits item p).append (Item.filterMap_block_visitsAll rest _)

end

theorem Visit.block?_of_hostVisit? {v : Visit} {h : HostVisit} (hv : v.hostVisit? = some h) :
    v.block? = some h.block := by
  unfold Visit.block?
  rw [(Visit.hostVisit?_eq_some hv).1]

theorem Visit.blocks_hostVisits (visits : List Visit) :
    ((visits.filterMap Visit.hostVisit?).map HostVisit.block).Sublist
      (visits.filterMap Visit.block?) := by
  induction visits with
  | nil => exact .slnil
  | cons v rest ih =>
    rw [List.filterMap_cons, List.filterMap_cons]
    cases hv : v.hostVisit? with
    | some h =>
      rw [Visit.block?_of_hostVisit? hv]
      exact ih.cons_cons h.block
    | none =>
      cases v.block? with
      | some b => exact ih.cons b
      | none => exact ih

/-- A cell reaches host blocks in document order. -/
theorem Item.hostVisits_visitsAll (items : List Item) (p : Pass) :
    (((Item.visitsAll k cell items p).filterMap Visit.hostVisit?).map HostVisit.block).Sublist
      (Item.blocksAll items) :=
  (Visit.blocks_hostVisits _).trans (Item.filterMap_block_visitsAll items p)

theorem Item.cell_of_mem_hostVisits {items : List Item} {p : Pass} {h : HostVisit}
    (hmem : h ∈ (Item.visitsAll k cell items p).filterMap Visit.hostVisit?) : h.cell = cell := by
  obtain ⟨v, hv, hhost⟩ := List.mem_filterMap.mp hmem
  exact (Visit.hostVisit?_eq_some hhost).2.2.1.symm.trans (Item.mem_visitsAll hv).1

theorem Item.block_of_mem_hostVisits {items : List Item} {cells : List Cell} {p : Pass}
    {h : HostVisit} (hmem : h ∈ (Item.visitCells k items cells p).filterMap Visit.hostVisit?) :
    h.cell ∈ cells ∧ h.block ∈ Item.blocksAll items := by
  induction cells generalizing p with
  | nil => simp [Item.visitCells] at hmem
  | cons cell rest ih =>
    simp only [Item.visitCells, List.filterMap_append, List.mem_append] at hmem
    rcases hmem with hmem | hmem
    · have hcell : h.cell = cell := Item.cell_of_mem_hostVisits hmem
      exact ⟨hcell ▸ List.mem_cons_self,
        (Item.hostVisits_visitsAll items p).subset (List.mem_map_of_mem hmem)⟩
    · exact ⟨List.mem_cons_of_mem _ (ih hmem).1, (ih hmem).2⟩

/-- Visits go from cell to cell and, for one cell, in document order. -/
theorem Item.hostVisits_pairwise {items : List Item}
    (hids : (Item.blocksAll items).Pairwise fun b b' => b.id < b'.id) {cells : List Cell}
    (hcells : cells.Pairwise fun a b => a.index < b.index) (p : Pass) :
    ((Item.visitCells k items cells p).filterMap Visit.hostVisit?).Pairwise
      HostVisit.Precedes := by
  induction cells generalizing p with
  | nil => exact .nil
  | cons cell rest ih =>
    rw [List.pairwise_cons] at hcells
    simp only [Item.visitCells, List.filterMap_append]
    rw [List.pairwise_append]
    refine ⟨?_, ih hcells.2 _, fun h hh h' hh' => ?_⟩
    · have hblocks := List.pairwise_map.mp
        (hids.sublist (@Item.hostVisits_visitsAll k cell items p))
      refine hblocks.imp_of_mem fun {h h'} hh hh' hlt => ?_
      have hcell : h.cell = h'.cell :=
        (Item.cell_of_mem_hostVisits hh).trans (Item.cell_of_mem_hostVisits hh').symm
      exact .inr ⟨congrArg Cell.index hcell, hlt⟩
    · refine .inl ?_
      rw [Item.cell_of_mem_hostVisits hh]
      exact hcells.1 _ (Item.block_of_mem_hostVisits hh').1

namespace Compilation

/-- The groups that make up the styles of the host. -/
def hostGroups (c : Compilation) (cellSelector : String) : List RuleGroup :=
  (Entry.sheet cellSelector c.log).groups.filter (Selector.isHost ·.selector)

theorem host_output (c : Compilation) (cellSelector : String) :
    (c.output cellSelector).stylesheets.host =
      "\n".intercalate ((c.hostGroups cellSelector).map RuleGroup.text) := rfl

theorem hostGroups_eq (registry : Registry) (grid : Grid) (items : List Item) (scope : Scope)
    {cellSelector : String} (hs : Selector.isHost cellSelector = false) :
    let k := context registry grid items
    let visits := Item.visitCells k items grid.cells { scope := scope }
    (run registry grid items scope).1.hostGroups cellSelector =
      (RuleSheet.fileAll {} ((HostVisit.firsts [] (visits.filterMap Visit.hostVisit?)).map
        (HostVisit.filing k))).groups := by
  intro k visits
  have htracked := Item.visitCells_tracked (k := k) items grid.cells { scope := scope }
  have hfilings : (visits.flatMap (Visit.entries k)).filterMap Entry.hostFiling? =
      (HostVisit.firsts [] (visits.filterMap Visit.hostVisit?)).map (HostVisit.filing k) :=
    Visit.hostFilings_eq_firsts (fun v hv => (Item.mem_visitCells hv).2) htracked
      fun _ => Iff.rfl
  rw [← hfilings, ← Item.compileCells_eq_visits]
  exact Entry.hostGroups_sheet hs Item.isHost_of_mem_compileCells

/-- A host block that has been compiled leaves the pass as it is. -/
theorem compile_of_not_mem_firsts {registry : Registry} {grid : Grid} {items : List Item}
    {scope : Scope} {v : Visit} {h : HostVisit} :
    let k := context registry grid items
    let visits := Item.visitCells k items grid.cells { scope := scope }
    v ∈ visits → v.hostVisit? = some h →
      h ∉ HostVisit.firsts [] (visits.filterMap Visit.hostVisit?) →
        v.item.compile k v.cell v.pass = ([], v.pass) := by
  intro k visits hv hhost hnot
  obtain ⟨before, after, hsplit⟩ := List.append_of_mem hv
  -- Some visit before this one has reached the same block.
  have hearlier : ∃ u ∈ before, u.host? = some h.block.id := by
    by_contra hnone
    refine hnot ?_
    rw [hsplit, List.filterMap_append, List.filterMap_cons, hhost]
    refine HostVisit.mem_firsts_of_split List.not_mem_nil fun h' hh' hid => hnone ?_
    obtain ⟨u, hu, hu'⟩ := List.mem_filterMap.mp hh'
    exact ⟨u, hu, by rw [Visit.host?_eq, hu', Option.map_some, hid]⟩
  have hnoted : h.block.id ∈ v.pass.hosts := by
    have hfound := (Item.visitCells_tracked items grid.cells { scope := scope }).found
      before v after hsplit h.block.id
    exact hfound.mpr (.inr hearlier)
  obtain ⟨hitem, hselector, -⟩ := Visit.hostVisit?_eq_some hhost
  rw [hitem, Item.compile_pseudo,
    PseudoBlock.compile_host (Target.ofSelector_of_isHost hselector), if_pos hnoted]

/-- Host blocks are compiled once. In a source that can be read, a block is told apart by its
number, which is its place in the document. The styles of the host are the rules of the host blocks
that some cell reaches, each compiled for the first cell that does, filed in the order of these
cells and in document order for one cell; no other rule is among them, and a block that is reached
again is not compiled again. -/
theorem host_blocks_once {source : String} {items : List Item} (hparse : parse source = .ok items)
    (registry : Registry) (grid : Grid) (scope : Scope) {cellSelector : String}
    (hs : Selector.isHost cellSelector = false) :
    let k := context registry grid items
    let visits := Item.visitCells k items grid.cells { scope := scope }
    let reached := visits.filterMap Visit.hostVisit?
    let firsts := HostVisit.firsts [] reached
    let compiled := (run registry grid items scope).1
    -- blocks and their numbers
    Item.blockIds items = List.range (Item.blocksAll items).length ∧
    (∀ h ∈ reached, (Item.blocksAll items)[h.block.id]? = some h.block) ∧
    -- the first visits of host blocks, in order
    (∀ h, h ∈ firsts ↔
      h ∈ reached ∧ ∀ h' ∈ reached, h'.block = h.block → h.cell.index ≤ h'.cell.index) ∧
    firsts.Pairwise HostVisit.Precedes ∧ (firsts.map (·.block.id)).Nodup ∧
    -- the styles of the host
    compiled.hostGroups cellSelector =
      (RuleSheet.fileAll {} (firsts.map (HostVisit.filing k))).groups ∧
    (compiled.output cellSelector).stylesheets.host =
      "\n".intercalate ((compiled.hostGroups cellSelector).map RuleGroup.text) ∧
    (∀ group ∈ compiled.hostGroups cellSelector, ∀ text ∈ group.rules,
      ∃ h ∈ firsts, group.selector = Selector.resolve h.block.selector ∧
        ∃ rule ∈ h.rules k, rule.text = text) ∧
    -- the rules of a first visit, one for each declaration
    (∀ h ∈ firsts, List.Forall₂ (fun d rule => ∃ scope', rule = (d.compile k h.cell scope').1)
      h.block.declarations (h.rules k)) ∧
    -- later visits
    ∀ v ∈ visits, ∀ h, v.hostVisit? = some h → h ∉ firsts →
      v.item.compile k v.cell v.pass = ([], v.pass) := by
  intro k visits reached firsts compiled
  have hids := Item.blockIds_of_parse hparse
  have hget : ∀ b ∈ Item.blocksAll items, (Item.blocksAll items)[b.id]? = some b :=
    fun b hb => Item.getElem?_of_blockIds hids hb
  have horder : reached.Pairwise HostVisit.Precedes :=
    Item.hostVisits_pairwise (Item.blocksAll_pairwise hids) grid.cells_pairwise _
  have hblock : ∀ h ∈ reached, h.block ∈ Item.blocksAll items :=
    fun h hh => (Item.block_of_mem_hostVisits hh).2
  have hgroups : compiled.hostGroups cellSelector =
      (RuleSheet.fileAll {} (firsts.map (HostVisit.filing k))).groups :=
    hostGroups_eq registry grid items scope hs
  refine ⟨hids, fun h hh => hget _ (hblock h hh), HostVisit.mem_firsts_iff horder ?_,
    horder.sublist (HostVisit.firsts_sublist [] reached), HostVisit.firsts_ids_nodup [] reached,
    hgroups, host_output compiled cellSelector, ?_, fun h _ => forall₂_mapM _ _ _,
    fun v hv h => compile_of_not_mem_firsts hv⟩
  · intro h hh h' hh' hid
    have hsame := hget _ (hblock h' hh')
    rw [← hid, hget _ (hblock h hh)] at hsame
    exact Option.some.inj hsame
  · intro group hgroup text htext
    rw [hgroups] at hgroup
    rcases RuleSheet.mem_rules_fileAll hgroup htext with ⟨g, hg, -⟩ | ⟨f, hf, hselector, htext⟩
    · exact absurd hg List.not_mem_nil
    · obtain ⟨h, hh, rfl⟩ := List.mem_map.mp hf
      exact ⟨h, hh, hselector, List.mem_map.mp htext⟩

/-- Two host blocks: every cell reaches the first of them, the second cell is the first to reach the
other. -/
theorem host_blocks_once_even :
    let items : List Item :=
      [.pseudo ⟨0, ":doodle", [⟨"gap", [.text "1px"]⟩]⟩,
        .conditional "even" [] [.pseudo ⟨1, "::doodle", [⟨"order", [.call "index" []]⟩]⟩]]
    let grid := Grid.ofExtents 2 2
    let scope : Scope := ⟨{}, Words.ofSeed 0⟩
    let k := context Registry.builtin grid items
    let reached :=
      (Item.visitCells k items grid.cells { scope := scope }).filterMap Visit.hostVisit?
    parse ":doodle\x7bgap:1px\x7d@even\x7b::doodle\x7border:@index()\x7d\x7d" = .ok items ∧
    Selector.isHost ".cell" = false ∧
    (HostVisit.firsts [] reached).map (fun h => (h.cell.index, h.block.id)) = [(1, 0), (2, 1)] ∧
    (HostVisit.firsts [] reached).map (fun h => (h.rules k).map Rule.text) =
      [["gap: 1px;"], ["order: 2;"]] ∧
    (run Registry.builtin grid items scope).1.hostGroups ".cell" =
      (RuleSheet.fileAll {} ((HostVisit.firsts [] reached).map (HostVisit.filing k))).groups := by
  intro items grid scope k reached
  have hparse : parse ":doodle\x7bgap:1px\x7d@even\x7b::doodle\x7border:@index()\x7d\x7d" =
      .ok items := rfl
  have hs : Selector.isHost ".cell" = false := by decide
  refine ⟨hparse, hs, by decide +kernel, by decide +kernel, ?_⟩
  exact (host_blocks_once hparse Registry.builtin grid scope hs).2.2.2.2.2.1

end Compilation

end GridCss
