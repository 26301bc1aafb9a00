import Spade.Core.Contexts
import Spade.Core.Samples
import Spade.Web.MapContext

set_option autoImplicit false

/-!
# The map contexts of the editor and of the scheduler

The nodes of the flowchart depict a pipeline, in any order and with any order and number of
edges between two blocks.
-/
namespace Spade.Web

structure Depicts (p : Pipeline) (manifests : Manifests) (nodes : MapGraph) : Prop where
  ids : nodes.ids.Perm p.blockIDs
  maps : ∀ n ∈ nodes, n.kind = .map ↔ p.kind manifests n.id = some .map
  reduces : ∀ n ∈ nodes, n.kind = .reduce ↔ p.kind manifests n.id = some .reduce
  deps : ∀ n ∈ nodes, ∀ d ∈ p.blockIDs,
    d ∈ n.deps ↔ ∃ b ∈ p.blocks, b.id = n.id ∧ ∃ r ∈ b.inputs, r.depID = d

/-- Both analyses find the same: nested map blocks or none, and then the same contexts. -/
def MapContextsAgree (p : Pipeline) (manifests : Manifests) (g : DependencyGraph)
    (nodes : MapGraph) : Prop :=
  ((computeMapContext nodes).nestedMaps = [] ↔ ¬∃ b ∈ p.blocks,
    p.kind manifests b.id = some .map ∧ hasNestedMap b.id g p.blockByID manifests = true) ∧
  ((computeMapContext nodes).nestedMaps = [] → ∀ n ∈ nodes, n.kind ≠ .reduce →
    (n.id ∈ (computeMapContext nodes).inContext ↔ ∃ m ctx,
      (registered p manifests).mapContexts.lookup m = some ctx ∧ n.id ∈ ctx.mappedBlockIDs))

section
variable {p : Pipeline} {manifests : Manifests} {g : DependencyGraph} {nodes : MapGraph}

theorem Depicts.exists_node (h : Depicts p manifests nodes) {id : UUID} (hid : id ∈ p.blockIDs) :
    ∃ n ∈ nodes, n.id = id := List.mem_map.mp (h.ids.mem_iff.mpr hid)

theorem Depicts.mem_edges (h : Depicts p manifests nodes) (hnil : UUID.nil ∉ p.blockIDs)
    (hg : buildDependencyGraph p = .ok g) {u v : UUID} (hu : u ∈ p.blockIDs) :
    (u, v) ∈ nodes.edges ↔ v ∈ g.forwardOf u := by
  rw [MapGraph.mem_edges, mem_forward hg]
  constructor
  · rintro ⟨-, n, hn, rfl, hd⟩
    exact ⟨fun heq => hnil (heq ▸ hu), (h.deps n hn u hu).mp hd⟩
  · rintro ⟨-, b, hb, rfl, r, hr, hd⟩
    obtain ⟨n, hn, hid⟩ := h.exists_node (List.mem_map_of_mem (f := PipelineBlock.id) hb)
    exact ⟨h.ids.mem_iff.mpr hu, n, hn, hid,
      (h.deps n hn u hu).mpr ⟨b, hb, hid.symm, r, hr, hd⟩⟩

theorem forward_known (hg : buildDependencyGraph p = .ok g) {u v : UUID}
    (h : v ∈ g.forwardOf u) : v ∈ p.blockIDs := by
  obtain ⟨-, b, hb, rfl, -⟩ := (mem_forward hg).mp h
  exact List.mem_map_of_mem hb

theorem exists_kind (hn : p.blockIDs.Nodup) (hknown : ∀ b ∈ p.blocks, b.name ∈ manifests)
    {id : UUID} (hid : id ∈ p.blockIDs) : ∃ k, p.kind manifests id = some k := by
  obtain ⟨b, hb, rfl⟩ := List.mem_map.mp hid
  obtain ⟨m, hm⟩ := GoMap.lookup_of_mem (hknown b hb)
  exact ⟨m.kind, kind_of_mem hn hb hm⟩

theorem Depicts.feeds_iff (h : Depicts p manifests nodes) (hnil : UUID.nil ∉ p.blockIDs)
    (hn : p.blockIDs.Nodup) (hknown : ∀ b ∈ p.blocks, b.name ∈ manifests)
    (hg : buildDependencyGraph p = .ok g) {u v : UUID} (hu : u ∈ p.blockIDs) :
    nodes.Feeds u v ↔ Forwards p manifests g u v := by
  unfold MapGraph.Feeds Forwards
  rw [h.mem_edges hnil hg hu]
  refine and_congr_right fun hf => ?_
  obtain ⟨k, hk⟩ := exists_kind hn hknown (forward_known hg hf)
  constructor
  · rintro ⟨n, hmem, rfl, hne⟩
    refine ⟨k, hk, fun hred => hne ((h.reduces n hmem).mpr ?_)⟩
    rw [hk, hred]
  · rintro ⟨k', hk', hne⟩
    obtain ⟨n, hmem, rfl⟩ := h.exists_node (forward_known hg hf)
    refine ⟨n, hmem, rfl, fun hred => hne ?_⟩
    rw [(h.reduces n hmem).mp hred] at hk'
    exact (Option.some_inj.mp hk').symm

theorem Depicts.path_iff (h : Depicts p manifests nodes) (hnil : UUID.nil ∉ p.blockIDs)
    (hn : p.blockIDs.Nodup) (hknown : ∀ b ∈ p.blocks, b.name ∈ manifests)
    (hg : buildDependencyGraph p = .ok g) {m d : UUID} (hm : m ∈ p.blockIDs) :
    Relation.TransGen nodes.Feeds m d ↔ Relation.TransGen (Forwards p manifests g) m d := by
  have hiff : ∀ {u v : UUID}, u ∈ p.blockIDs →
      (nodes.Feeds u v ↔ Forwards p manifests g u v) := fun hu =>
    h.feeds_iff hnil hn hknown hg hu
  constructor
  · intro hpath
    suffices hboth : Relation.TransGen (Forwards p manifests g) m d ∧ d ∈ p.blockIDs from hboth.1
    induction hpath with
    | single hf =>
      have hf := (hiff hm).mp hf
      exact ⟨.single hf, forward_known hg hf.1⟩
    | tail _ hf ih =>
      have hf := (hiff ih.2).mp hf
      exact ⟨ih.1.tail hf, forward_known hg hf.1⟩
  · intro hpath
    suffices hboth : Relation.TransGen nodes.Feeds m d ∧ d ∈ p.blockIDs from hboth.1
    induction hpath with
    | single hf => exact ⟨.single ((hiff hm).mpr hf), forward_known hg hf.1⟩
    | tail _ hf ih => exact ⟨ih.1.tail ((hiff ih.2).mpr hf), forward_known hg hf.1⟩

theorem Depicts.opens_iff (h : Depicts p manifests nodes) {m : UUID} :
    nodes.Opens m ↔ ∃ b ∈ p.blocks, b.id = m ∧ p.kind manifests m = some .map := by
  constructor
  · rintro ⟨n, hmem, rfl, hk⟩
    obtain ⟨b, hb, hid, -⟩ := kind_mem ((h.maps n hmem).mp hk)
    exact ⟨b, hb, hid, (h.maps n hmem).mp hk⟩
  · rintro ⟨b, hb, rfl, hk⟩
    obtain ⟨n, hmem, hid⟩ := h.exists_node (List.mem_map_of_mem (f := PipelineBlock.id) hb)
    exact ⟨n, hmem, hid, (h.maps n hmem).mpr (hid ▸ hk)⟩

open SinglePipelineScheduler in
/-- What `IdentifyMapContexts` puts into some context. -/
theorem mapped_iff_context (hn : p.blockIDs.Nodup) (hg : buildDependencyGraph p = .ok g) {d : UUID} :
    (∃ m ctx, (registered p manifests).mapContexts.lookup m = some ctx ∧ d ∈ ctx.mappedBlockIDs) ↔
      ∃ m, p.kind manifests m = some .map ∧
        Relation.TransGen (Forwards p manifests g) m d := by
  have hwalk : ∀ m, d ∈ (walkMapContext g p.blockByID manifests g.depth m
      { mapBlockID := m }).mappedBlockIDs ↔ Relation.TransGen (Forwards p manifests g) m d := by
    intro m
    have hw : Walked p manifests (BoundedPaths.Steps (Forwards p manifests g) g.depth m)
        { mapBlockID := m } (walkMapContext g p.blockByID manifests g.depth m { mapBlockID := m }) :=
      walkMapContext_spec g.depth m { mapBlockID := m }
    rw [hw.mapped, steps_depth hg]
    simp
  constructor
  · rintro ⟨m, ctx, hctx, hd⟩
    obtain ⟨hk, rfl⟩ := (registered_context hg hn m ctx).mp hctx
    exact ⟨m, hk, (hwalk m).mp hd⟩
  · rintro ⟨m, hk, hpath⟩
    exact ⟨m, _, (registered_context hg hn m _).mpr ⟨hk, rfl⟩, (hwalk m).mpr hpath⟩

/-- On acyclic pipelines the analysis of the editor agrees with that of the scheduler. -/
theorem map_contexts_agree {σ : MapOrder} {sorted : List UUID} (hn : p.blockIDs.Nodup)
    (hnil : UUID.nil ∉ p.blockIDs) (hknown : ∀ b ∈ p.blocks, b.name ∈ manifests)
    (hg : buildDependencyGraph p = .ok g) (hsort : topologicalSort σ g = .ok sorted)
    (h : Depicts p manifests nodes) : MapContextsAgree p manifests g nodes := by
  have hids : nodes.ids.Nodup := h.ids.nodup_iff.mpr hn
  obtain ⟨hord, hall⟩ := topologicalSort_ordered hg hsort
  obtain ⟨rank, hrank⟩ := Kahn.exists_rank hord fun e he =>
    hall _ ((mem_allBlocks hg _).mp (edges_known hg e he))
  have hforward : ∀ u v, v ∈ g.forwardOf u → rank u < rank v := by
    intro u v hf
    exact hrank (u, v) (mem_edges.mpr ((mem_forward hg).mp hf))
  have hup : ∀ e ∈ nodes.edges, rank e.1 < rank e.2 := by
    rintro ⟨u, v⟩ he
    have hu := h.ids.mem_iff.mp (MapGraph.mem_edges.mp he).1
    exact hforward u v ((h.mem_edges hnil hg hu).mp he)
  have hne : ∀ m d, Relation.TransGen (Forwards p manifests g) m d → d ≠ m := by
    intro m d hpath
    have hlt : rank m < rank d := by
      induction hpath with
      | single hf => exact hforward _ _ hf.1
      | tail _ hf ih => exact ih.trans (hforward _ _ hf.1)
    rintro rfl
    exact lt_irrefl _ hlt
  have hmapped : ∀ d, nodes.Mapped d ↔ ∃ m, p.kind manifests m = some .map ∧
      Relation.TransGen (Forwards p manifests g) m d := by
    intro d
    constructor
    · rintro ⟨m, hm, hpath⟩
      obtain ⟨b, hb, rfl, hk⟩ := h.opens_iff.mp hm
      exact ⟨b.id, hk, (h.path_iff hnil hn hknown hg (List.mem_map_of_mem hb)).mp hpath⟩
    · rintro ⟨m, hk, hpath⟩
      obtain ⟨b, hb, rfl, -⟩ := kind_mem hk
      exact ⟨b.id, h.opens_iff.mpr ⟨b, hb, rfl, hk⟩,
        (h.path_iff hnil hn hknown hg (List.mem_map_of_mem hb)).mpr hpath⟩
  refine ⟨?_, fun hnested n hmem hk => ?_⟩
  · rw [MapGraph.nestedMaps_nil_iff hids hup]
    constructor
    · rintro hnone ⟨b, hb, hk, hfound⟩
      obtain ⟨d, -, hd, hpath⟩ := (hasNestedMap_iff hg).mp hfound
      obtain ⟨c, hc, rfl, -⟩ := kind_mem hd
      exact hnone c.id (h.opens_iff.mpr ⟨c, hc, rfl, hd⟩) ((hmapped c.id).mpr ⟨b.id, hk, hpath⟩)
    · intro hnone d hopens hd
      obtain ⟨c, hc, rfl, hkind⟩ := h.opens_iff.mp hopens
      obtain ⟨m, hk, hpath⟩ := (hmapped c.id).mp hd
      obtain ⟨b, hb, rfl, -⟩ := kind_mem hk
      exact hnone ⟨b, hb, hk, (hasNestedMap_iff hg).mpr
        ⟨c.id, hne b.id c.id hpath, hkind, hpath⟩⟩
  · rw [MapGraph.mem_inContext hids hup hnested hmem hk, hmapped, mapped_iff_context hn hg]

end

/-- The nodes `useMapContext` reads of the flowchart that a pipeline is drawn as. -/
def drawn (p : Pipeline) (manifests : Manifests) : MapGraph :=
  p.blocks.map fun b => ⟨b.id, (p.kind manifests b.id).getD .standard, b.inputs.map InputRef.depID⟩

theorem depicts_drawn {p : Pipeline} {manifests : Manifests} (hn : p.blockIDs.Nodup) :
    Depicts p manifests (drawn p manifests) where
  ids := by
    have h : (drawn p manifests).ids = p.blockIDs := List.map_map ..
    rw [h]
  maps n hmem := by
    obtain ⟨b, -, rfl⟩ := List.mem_map.mp hmem
    cases p.kind manifests b.id <;> simp
  reduces n hmem := by
    obtain ⟨b, -, rfl⟩ := List.mem_map.mp hmem
    cases p.kind manifests b.id <;> simp
  deps n hmem d _ := by
    obtain ⟨b, hb, rfl⟩ := List.mem_map.mp hmem
    constructor
    · intro hd
      exact ⟨b, hb, rfl, List.mem_map.mp hd⟩
    · rintro ⟨c, hc, hid, hd⟩
      obtain rfl := List.inj_on_of_nodup_map hn hc hb hid
      exact List.mem_map.mpr hd

/-- The scheduler finds an order of the blocks. -/
def isAcyclic (p : Pipeline) : Bool :=
  ((buildDependencyGraph p).bind fun g => topologicalSort .stored g).isOk

theorem isAcyclic_spec {p : Pipeline} (h : isAcyclic p = true) : ∃ g sorted,
    buildDependencyGraph p = .ok g ∧ topologicalSort .stored g = .ok sorted := by
  unfold isAcyclic at h
  cases hg : buildDependencyGraph p with
  | error e => simp [hg, Except.bind, Except.isOk, Except.toBool] at h
  | ok g =>
    cases hs : topologicalSort .stored g with
    | error e => simp [hg, hs, Except.bind, Except.isOk, Except.toBool] at h
    | ok sorted => exact ⟨g, sorted, rfl, hs⟩

section
open Samples

theorem map_contexts_agree_mapped : ∃ g, buildDependencyGraph mapped = .ok g ∧
    MapContextsAgree mapped manifests g (drawn mapped manifests) := by
  obtain ⟨g, sorted, hg, hsort⟩ := isAcyclic_spec (p := mapped) (by decide)
  have hn : mapped.blockIDs.Nodup := by decide
  exact ⟨g, hg, map_contexts_agree hn (by decide) (by decide) hg hsort
    (depicts_drawn hn)⟩

/-- A map block with the nil id; the graph of the scheduler has no edges out of it. -/
def nilMap : Pipeline := pipeline 20 [block "source" 1 [],
  { id := UUID.nil, name := "split", inputs := [{ id := blockID 1 }] },
  { id := blockID 3, name := "step", inputs := [{ id := UUID.nil }] }]

theorem map_contexts_agree_fails : ¬∀ (p : Pipeline) (manifests : Manifests) (g : DependencyGraph)
    (nodes : MapGraph) (σ : MapOrder) (sorted : List UUID), p.blockIDs.Nodup →
    (∀ b ∈ p.blocks, b.name ∈ manifests) → buildDependencyGraph p = .ok g →
    topologicalSort σ g = .ok sorted → Depicts p manifests nodes →
    MapContextsAgree p manifests g nodes := by
  intro hall
  obtain ⟨g, sorted, hg, hsort⟩ := isAcyclic_spec (p := nilMap) (by decide)
  have hn : nilMap.blockIDs.Nodup := by decide
  obtain ⟨-, hagree⟩ := hall nilMap manifests g (drawn nilMap manifests) .stored sorted hn
    (by decide) hg hsort (depicts_drawn hn)
  have hnone : (computeMapContext (drawn nilMap manifests)).nestedMaps = [] := by decide
  obtain ⟨n, hmem, hid, hk⟩ : ∃ n ∈ drawn nilMap manifests, n.id = blockID 3 ∧ n.kind ≠ .reduce := by
    decide
  have hin : blockID 3 ∈ (computeMapContext (drawn nilMap manifests)).inContext := by decide
  obtain ⟨m, ctx, hctx, hctx'⟩ := (hagree hnone n hmem hk).mp (hid ▸ hin)
  have hempty : ∀ e ∈ (registered nilMap manifests).mapContexts.items,
      blockID 3 ∉ e.2.mappedBlockIDs := by decide
  exact hempty _ ((GoMap.mem_items _ _ _).mpr hctx) (hid ▸ hctx')

end
end Spade.Web
