import Spade.Core.Acyclic

set_option autoImplicit false

/-!
# The map contexts of the editor

`utils/mapContext.ts`: stacks of open map blocks, carried along a topological order. While no
map block opens inside of another context the stacks say which blocks such a block leads to
without a reduce block in between.
-/
namespace Spade.Web

structure MapGraphNode where
  id : UUID
  kind : BlockKind
  deps : List UUID

structure MapContextResult where
  incoming : GoMap UUID (List UUID)
  outgoing : GoMap UUID (List UUID)
  inContext : List UUID
  nestedMaps : List UUID

abbrev MapGraph := List MapGraphNode

namespace MapGraph

def ids (nodes : MapGraph) : List UUID := nodes.map MapGraphNode.id

def byId (nodes : MapGraph) : GoMap UUID MapGraphNode :=
  nodes.foldl (fun m n => m.insert n.id n) ∅

/-! The topological sort, with the children of the nodes and the numbers of their edges. -/

abbrev Links := GoMap UUID (List UUID) × GoMap UUID Int

def link (acc : Links) (e : UUID × UUID) : Links :=
  (acc.1.insert e.1 ((acc.1.lookup e.1).getD [] ++ [e.2]),
    acc.2.insert e.2 ((acc.2.lookup e.2).getD 0 + 1))

def links (nodes : MapGraph) : Links :=
  nodes.foldl (fun acc n => n.deps.foldl (fun acc d =>
    if d ∈ nodes.byId then link acc (d, n.id) else acc) acc)
    (nodes.foldl (fun m n => m.insert n.id []) ∅, nodes.foldl (fun m n => m.insert n.id 0) ∅)

def takeQueue (children : GoMap UUID (List UUID)) :
    ℕ → List UUID → GoMap UUID Int → List UUID → List UUID
  | 0, _, _, order => order
  | _ + 1, [], _, order => order
  | n + 1, id :: queue, indeg, order =>
    let acc := ((children.lookup id).getD []).foldl decrement (indeg, queue)
    takeQueue children n acc.2 acc.1 (order ++ [id])

/-- A node is in the queue at the start or joins it when its number becomes zero, so the loop
takes no more turns than twice the number of nodes. -/
def order (nodes : MapGraph) : List UUID :=
  let acc := nodes.links
  let queue := nodes.ids.filter fun id => (acc.2.lookup id).getD 0 = 0
  let placed := takeQueue acc.1 (2 * nodes.length) queue acc.2 []
  placed ++ nodes.ids.filter fun id => id ∉ placed

end MapGraph

/-! The stacks. -/

structure Stacks where
  incoming : GoMap UUID (List UUID) := ∅
  outgoing : GoMap UUID (List UUID) := ∅
  nestedMaps : List UUID := []

def deepest (outgoing : GoMap UUID (List UUID)) (deps : List UUID) : List UUID :=
  deps.foldl (fun inc d =>
    match outgoing.lookup d with
    | none => inc
    | some o => if inc.length < o.length then o else inc) []

/-- The stack behind a block with the stack `inc` before it. -/
def MapGraphNode.leave (node : MapGraphNode) (inc : List UUID) : List UUID :=
  match node.kind with
  | .map => inc ++ [node.id]
  | .reduce => inc.dropLast
  | _ => inc

def Stacks.visit (byId : GoMap UUID MapGraphNode) (s : Stacks) (id : UUID) : Stacks :=
  match byId.lookup id with
  | none => s
  | some node =>
    let inc := deepest s.outgoing node.deps
    { incoming := s.incoming.insert id inc
      outgoing := s.outgoing.insert id (node.leave inc)
      nestedMaps := if node.kind = .map ∧ inc ≠ [] then s.nestedMaps ++ [id] else s.nestedMaps }

def computeMapContext (nodes : MapGraph) : MapContextResult :=
  let s := nodes.order.foldl (Stacks.visit nodes.byId) {}
  { incoming := s.incoming
    outgoing := s.outgoing
    inContext := (s.incoming.items.filter fun e => e.2 ≠ []).map Prod.fst
    nestedMaps := s.nestedMaps }

namespace MapGraph
variable {nodes : MapGraph}

/-! The sort is Kahn's algorithm. -/

def edges (nodes : MapGraph) : List (UUID × UUID) :=
  nodes.flatMap fun n => (n.deps.filter fun d => d ∈ nodes.byId).map fun d => (d, n.id)

theorem links_eq : nodes.links = nodes.edges.foldl link
    (nodes.foldl (fun m n => m.insert n.id []) ∅, nodes.foldl (fun m n => m.insert n.id 0) ∅) := by
  unfold links edges
  rw [List.foldl_flatMap]
  congr 1
  funext acc n
  rw [List.foldl_map, List.foldl_filter]
  simp

theorem foldl_link (es : List (UUID × UUID)) (acc : Links) :
    (∀ u, ((es.foldl link acc).1.lookup u).getD [] =
      (acc.1.lookup u).getD [] ++ (es.filter (·.1 = u)).map Prod.snd) ∧
    ∀ v, degreeOf (es.foldl link acc).2 v = degreeOf acc.2 v + (es.countP (·.2 = v) : ℕ) := by
  induction es generalizing acc with
  | nil => simp
  | cons e es ih =>
    obtain ⟨hchildren, hindeg⟩ := ih (link acc e)
    refine ⟨fun u => ?_, fun v => ?_⟩
    · rw [List.foldl_cons, hchildren]
      unfold link
      rw [GoMap.lookup_insert_if]
      by_cases hu : u = e.1
      · subst hu
        simp
      · simp [hu, Ne.symm hu]
    · rw [List.foldl_cons, hindeg]
      unfold link degreeOf
      rw [GoMap.lookup_insert_if]
      by_cases hv : v = e.2
      · subst hv
        simp
        omega
      · simp [hv, Ne.symm hv]

theorem lookup_start {V : Type} (c : V) (l : MapGraph) (m : GoMap UUID V)
    (hm : ∀ u, (m.lookup u).getD c = c) (u : UUID) :
    ((l.foldl (fun m n => m.insert n.id c) m).lookup u).getD c = c := by
  induction l generalizing m with
  | nil => exact hm u
  | cons n l ih =>
    refine ih _ fun u => ?_
    rw [GoMap.lookup_insert_if]
    split_ifs
    · rfl
    · exact hm u

theorem links_children (u : UUID) :
    (nodes.links.1.lookup u).getD [] = Kahn.succs nodes.edges u := by
  rw [links_eq, (foldl_link _ _).1, lookup_start [] nodes ∅ fun _ => rfl]
  rfl

theorem links_indeg (v : UUID) : degreeOf nodes.links.2 v = Kahn.waiting nodes.edges [] v := by
  rw [links_eq, (foldl_link _ _).2]
  unfold degreeOf Kahn.waiting
  rw [lookup_start 0 nodes ∅ fun _ => rfl]
  simp

theorem takeQueue_eq {children : GoMap UUID (List UUID)} {es : List (UUID × UUID)}
    (h : ∀ u, (children.lookup u).getD [] = Kahn.succs es u) (n : ℕ) (queue : List UUID)
    (indeg : GoMap UUID Int) (order : List UUID) :
    takeQueue children n queue indeg order = Kahn.loop es n queue (degreeOf indeg) order := by
  induction n generalizing queue indeg order with
  | zero => rfl
  | succ n ih =>
    cases queue with
    | nil => rfl
    | cons id queue =>
      have hfold := foldl_decrement_eq (Kahn.succs es id) (indeg, queue)
      rw [takeQueue, ih, h, Kahn.loop, ← hfold]

theorem mem_byId (id : UUID) : id ∈ nodes.byId ↔ id ∈ nodes.ids := by
  have hmem := mem_foldl_insert MapGraphNode.id (fun n => n) nodes ∅ id
  simpa [byId, ids] using hmem

theorem eq_of_id (hn : nodes.ids.Nodup) {n n' : MapGraphNode} (h : n ∈ nodes) (h' : n' ∈ nodes)
    (hid : n.id = n'.id) : n = n' := List.inj_on_of_nodup_map hn h h' hid

theorem lookup_byId (hn : nodes.ids.Nodup) {n : MapGraphNode} (h : n ∈ nodes) :
    nodes.byId.lookup n.id = some n := by
  obtain ⟨n', hn'⟩ := GoMap.lookup_of_mem ((mem_byId n.id).mpr (List.mem_map_of_mem h))
  rcases lookup_foldl_insert MapGraphNode.id (fun n => n) nodes ∅ n.id n' hn' with
    ⟨a, ha, hid, rfl⟩ | hempty
  · rw [hn', eq_of_id hn ha h hid]
  · simp at hempty

theorem mem_edges {u v : UUID} :
    (u, v) ∈ nodes.edges ↔ u ∈ nodes.ids ∧ ∃ n ∈ nodes, n.id = v ∧ u ∈ n.deps := by
  simp only [edges, List.mem_flatMap, List.mem_map, List.mem_filter, decide_eq_true_eq, mem_byId,
    Prod.mk.injEq]
  constructor
  · rintro ⟨n, hn, d, ⟨hd, hid⟩, rfl, rfl⟩
    exact ⟨hid, n, hn, rfl, hd⟩
  · rintro ⟨hid, n, hn, rfl, hd⟩
    exact ⟨n, hn, u, ⟨hd, hid⟩, rfl, rfl⟩

/-- If the edges go up in some rank, the order is one of all nodes along the edges. -/
theorem order_spec (hn : nodes.ids.Nodup) {rank : UUID → ℕ}
    (hrank : ∀ e ∈ nodes.edges, rank e.1 < rank e.2) :
    nodes.order.Nodup ∧ Kahn.Ordered nodes.edges nodes.order ∧
      ∀ v, v ∈ nodes.order ↔ v ∈ nodes.ids := by
  have hids : ∀ e ∈ nodes.edges, e.1 ∈ nodes.ids ∧ e.2 ∈ nodes.ids := by
    rintro ⟨u, v⟩ he
    obtain ⟨hu, n, hmem, rfl, -⟩ := mem_edges.mp he
    exact ⟨hu, List.mem_map_of_mem hmem⟩
  have hstart : Kahn.State nodes.edges
      (nodes.ids.filter fun id => (nodes.links.2.lookup id).getD 0 = 0)
      (degreeOf nodes.links.2) [] := by
    refine ⟨?_, links_indeg, ?_, ?_⟩
    · rw [List.nil_append]
      exact hn.filter _
    · intro v hv
      rw [List.nil_append, List.mem_filter, decide_eq_true_eq] at hv
      exact hv.2
    · intro l₁ v l₂ heq
      simp at heq
  have hchildren : ∀ u, (nodes.links.1.lookup u).getD [] = Kahn.succs nodes.edges u :=
    links_children
  have heq := takeQueue_eq hchildren (2 * nodes.length)
    (nodes.ids.filter fun id => (nodes.links.2.lookup id).getD 0 = 0) nodes.links.2 []
  obtain ⟨hnodup, hord, hsub⟩ := Kahn.loop_ordered (fun e he => (hids e he).2)
    (2 * nodes.length) hstart fun v hv => List.mem_of_mem_filter hv
  have hall := Kahn.loop_complete hrank hids (2 * nodes.length) hstart
    (fun v hv => List.mem_of_mem_filter hv)
    (fun v hv hzero => List.mem_filter.mpr ⟨hv, by simpa [degreeOf] using hzero⟩)
    (by simp [ids]; omega)
  rw [← heq] at hnodup hord hsub hall
  have hplaced : nodes.order = takeQueue nodes.links.1 (2 * nodes.length)
      (nodes.ids.filter fun id => (nodes.links.2.lookup id).getD 0 = 0) nodes.links.2 [] := by
    unfold order
    dsimp only
    generalize takeQueue nodes.links.1 (2 * nodes.length) _ nodes.links.2 [] = placed at hall
    have hnone : (nodes.ids.filter fun id => id ∉ placed) = [] := by
      refine List.filter_eq_nil_iff.mpr fun v hv => ?_
      simp [hall v hv]
    rw [hnone, List.append_nil]
  rw [hplaced]
  exact ⟨hnodup, hord, fun v => ⟨hsub v, hall v⟩⟩

/-! What the stacks say. -/

/-- An edge to a block that is no reduce block. -/
def Feeds (nodes : MapGraph) (u v : UUID) : Prop :=
  (u, v) ∈ nodes.edges ∧ ∃ n ∈ nodes, n.id = v ∧ n.kind ≠ .reduce

def Opens (nodes : MapGraph) (u : UUID) : Prop := ∃ n ∈ nodes, n.id = u ∧ n.kind = .map

/-- A map block leads there without a reduce block in between. -/
def Mapped (nodes : MapGraph) (v : UUID) : Prop :=
  ∃ m, nodes.Opens m ∧ Relation.TransGen nodes.Feeds m v

def Carries (nodes : MapGraph) (u : UUID) : Prop := nodes.Opens u ∨ nodes.Mapped u

theorem mapped_iff {v : UUID} : nodes.Mapped v ↔ ∃ u, nodes.Feeds u v ∧ nodes.Carries u := by
  constructor
  · rintro ⟨m, hm, h⟩
    obtain ⟨u, hpath, hu⟩ := Relation.TransGen.tail'_iff.mp h
    refine ⟨u, hu, ?_⟩
    rcases Relation.reflTransGen_iff_eq_or_transGen.mp hpath with rfl | hpath
    · exact .inl hm
    · exact .inr ⟨m, hm, hpath⟩
  · rintro ⟨u, hu, hm | ⟨m, hm, hpath⟩⟩
    · exact ⟨u, hm, .single hu⟩
    · exact ⟨m, hm, hpath.tail hu⟩

/-- Some edge into the block comes from a block behind which a context is open. -/
def Entered (nodes : MapGraph) (v : UUID) : Prop := ∃ u, (u, v) ∈ nodes.edges ∧ nodes.Carries u

theorem mapped_of_entered {n : MapGraphNode} (h : n ∈ nodes) (hk : n.kind ≠ .reduce) :
    nodes.Mapped n.id ↔ nodes.Entered n.id := by
  rw [mapped_iff]
  exact ⟨fun ⟨u, hu, hc⟩ => ⟨u, hu.1, hc⟩, fun ⟨u, hu, hc⟩ => ⟨u, ⟨hu, n, h, rfl, hk⟩, hc⟩⟩

/-- The stacks of a block are no deeper than one, and say whether a context is open. -/
structure Settled (nodes : MapGraph) (s : Stacks) (v : UUID) (inc out : List UUID) : Prop where
  incoming : s.incoming.lookup v = some inc
  outgoing : s.outgoing.lookup v = some out
  short : out.length ≤ 1
  entered : inc ≠ [] ↔ nodes.Entered v
  carries : out ≠ [] ↔ nodes.Carries v
  opens : nodes.Opens v → inc = []

/-- Some map block was found in the context of another one, or the blocks so far are settled. -/
def Sound (nodes : MapGraph) (done : List UUID) (s : Stacks) : Prop :=
  (∃ d ∈ s.nestedMaps, nodes.Opens d ∧ nodes.Mapped d) ∨
    s.nestedMaps = [] ∧ (∀ v ∈ done, ∃ inc out, nodes.Settled s v inc out) ∧
      ∀ v, v ∉ done → s.incoming.lookup v = none ∧ s.outgoing.lookup v = none

theorem foldl_deepest (outgoing : GoMap UUID (List UUID)) (deps inc : List UUID) :
    (deps.foldl (fun inc d =>
      match outgoing.lookup d with
      | none => inc
      | some o => if inc.length < o.length then o else inc) inc ≠ [] ↔
        inc ≠ [] ∨ ∃ d ∈ deps, ∃ o, outgoing.lookup d = some o ∧ o ≠ []) := by
  induction deps generalizing inc with
  | nil => simp
  | cons d deps ih =>
    rw [List.foldl_cons, ih]
    simp only [List.mem_cons, exists_eq_or_imp, ← or_assoc]
    refine or_congr_left ?_
    cases hd : outgoing.lookup d with
    | none => simp
    | some o =>
      simp only [Option.some.injEq, exists_eq_left']
      split_ifs with hlt
      · have ho : o ≠ [] := by
          rintro rfl
          simp at hlt
        simp [ho]
      · constructor
        · exact .inl
        · rintro (hinc | ho)
          · exact hinc
          · rintro rfl
            exact hlt (List.length_pos_iff.mpr ho)

theorem deepest_ne_nil (outgoing : GoMap UUID (List UUID)) (deps : List UUID) :
    deepest outgoing deps ≠ [] ↔ ∃ d ∈ deps, ∃ o, outgoing.lookup d = some o ∧ o ≠ [] := by
  have hfold := foldl_deepest outgoing deps []
  simpa [deepest] using hfold

theorem foldl_deepest_length (outgoing : GoMap UUID (List UUID)) (deps inc : List UUID) (k : ℕ)
    (hinc : inc.length ≤ k) (h : ∀ d ∈ deps, ∀ o, outgoing.lookup d = some o → o.length ≤ k) :
    (deps.foldl (fun inc d =>
      match outgoing.lookup d with
      | none => inc
      | some o => if inc.length < o.length then o else inc) inc).length ≤ k := by
  induction deps generalizing inc with
  | nil => exact hinc
  | cons d deps ih =>
    rw [List.foldl_cons]
    refine ih _ ?_ fun d' hd' => h d' (List.mem_cons_of_mem _ hd')
    cases hd : outgoing.lookup d with
    | none => exact hinc
    | some o =>
      dsimp only
      split_ifs
      · exact h d List.mem_cons_self o hd
      · exact hinc

/-- The block that is visited, the others being settled. -/
theorem settled_visit {s : Stacks} {done : List UUID} {n : MapGraphNode} (hn : nodes.ids.Nodup)
    (hmem : n ∈ nodes) (hbefore : ∀ u, (u, n.id) ∈ nodes.edges → u ∈ done)
    (hknown : ∀ u ∈ done, u ∈ nodes.ids)
    (hsettled : ∀ v ∈ done, ∃ inc out, nodes.Settled s v inc out)
    (hnew : ∀ v, v ∉ done → s.incoming.lookup v = none ∧ s.outgoing.lookup v = none) :
    (deepest s.outgoing n.deps ≠ [] ↔ nodes.Entered n.id) ∧
      (deepest s.outgoing n.deps).length ≤ 1 := by
  have hshort : ∀ d o, s.outgoing.lookup d = some o → o.length ≤ 1 := by
    intro d o ho
    by_cases hd : d ∈ done
    · obtain ⟨inc, out, hs⟩ := hsettled d hd
      rw [hs.outgoing] at ho
      cases ho
      exact hs.short
    · rw [(hnew d hd).2] at ho
      cases ho
  refine ⟨?_, foldl_deepest_length s.outgoing n.deps [] 1 (Nat.zero_le 1) fun d _ => hshort d⟩
  rw [deepest_ne_nil]
  constructor
  · rintro ⟨d, hd, o, ho, hne⟩
    by_cases hdone : d ∈ done
    · obtain ⟨inc, out, hs⟩ := hsettled d hdone
      rw [hs.outgoing] at ho
      cases ho
      exact ⟨d, mem_edges.mpr ⟨hknown d hdone, n, hmem, rfl, hd⟩, hs.carries.mp hne⟩
    · rw [(hnew d hdone).2] at ho
      cases ho
  · rintro ⟨u, hu, hc⟩
    obtain ⟨inc, out, hs⟩ := hsettled u (hbefore u hu)
    obtain ⟨-, n', hn', hid, hd⟩ := mem_edges.mp hu
    obtain rfl := eq_of_id hn hn' hmem hid
    exact ⟨u, hd, out, hs.outgoing, hs.carries.mpr hc⟩

/-- The stack behind a block that opens no context inside of another one. -/
theorem leave_carries {n : MapGraphNode} {inc : List UUID} (hn : nodes.ids.Nodup)
    (hmem : n ∈ nodes) (hentered : inc ≠ [] ↔ nodes.Entered n.id) (hshort : inc.length ≤ 1)
    (hopens : n.kind = .map → inc = []) :
    (n.leave inc).length ≤ 1 ∧ (n.leave inc ≠ [] ↔ nodes.Carries n.id) := by
  have hopen : nodes.Opens n.id ↔ n.kind = .map := by
    constructor
    · rintro ⟨n', hn', hid, hk⟩
      rwa [← eq_of_id hn hn' hmem hid]
    · exact fun hk => ⟨n, hmem, rfl, hk⟩
  have hmapped : n.kind ≠ .reduce → (nodes.Mapped n.id ↔ inc ≠ []) := fun hk =>
    (mapped_of_entered hmem hk).trans hentered.symm
  unfold MapGraphNode.leave Carries
  rw [hopen]
  cases hk : n.kind with
  | map =>
    rw [hopens hk]
    exact ⟨by simp, by simp⟩
  | reduce =>
    have hnil : inc.dropLast = [] := by
      rw [← List.length_eq_zero_iff, List.length_dropLast]
      omega
    have hno : ¬nodes.Mapped n.id := by
      rw [mapped_iff]
      rintro ⟨u, ⟨-, n', hn', hid, hne⟩, -⟩
      rw [eq_of_id hn hn' hmem hid] at hne
      exact hne hk
    dsimp only
    rw [hnil]
    exact ⟨by simp, by simp [hno]⟩
  | _ =>
    dsimp only
    rw [hmapped (by rw [hk]; exact nofun)]
    exact ⟨hshort, by simp⟩

theorem Sound.visit {s : Stacks} {done : List UUID} {n : MapGraphNode} (h : nodes.Sound done s)
    (hn : nodes.ids.Nodup) (hmem : n ∈ nodes) (hfresh : n.id ∉ done)
    (hbefore : ∀ u, (u, n.id) ∈ nodes.edges → u ∈ done) (hknown : ∀ u ∈ done, u ∈ nodes.ids) :
    nodes.Sound (done ++ [n.id]) (s.visit nodes.byId n.id) := by
  have hvisit : s.visit nodes.byId n.id = {
      incoming := s.incoming.insert n.id (deepest s.outgoing n.deps)
      outgoing := s.outgoing.insert n.id (n.leave (deepest s.outgoing n.deps))
      nestedMaps := if n.kind = .map ∧ deepest s.outgoing n.deps ≠ [] then s.nestedMaps ++ [n.id]
        else s.nestedMaps } := by
    unfold Stacks.visit
    rw [lookup_byId hn hmem]
  rw [hvisit]
  rcases h with ⟨d, hd, hnested⟩ | ⟨hnil, hsettled, hnew⟩
  · refine .inl ⟨d, ?_, hnested⟩
    dsimp only
    split_ifs
    · exact List.mem_append_left _ hd
    · exact hd
  · obtain ⟨hentered, hshort⟩ := settled_visit hn hmem hbefore hknown hsettled hnew
    generalize deepest s.outgoing n.deps = inc at hentered hshort
    by_cases hnested : n.kind = .map ∧ inc ≠ []
    · refine .inl ⟨n.id, ?_, ⟨n, hmem, rfl, hnested.1⟩, ?_⟩
      · dsimp only
        rw [if_pos hnested]
        exact List.mem_append_right _ (List.mem_singleton_self _)
      · refine (mapped_of_entered hmem ?_).mpr (hentered.mp hnested.2)
        rw [hnested.1]
        exact nofun
    · have hopens : n.kind = .map → inc = [] := fun hk => by
        by_contra hne
        exact hnested ⟨hk, hne⟩
      obtain ⟨hlen, hcarries⟩ := leave_carries hn hmem hentered hshort hopens
      refine .inr ⟨by rw [if_neg hnested, hnil], fun v hv => ?_, fun v hv => ?_⟩
      · rcases List.mem_append.mp hv with hv | hv
        · obtain ⟨inc', out, hs⟩ := hsettled v hv
          have hne : v ≠ n.id := fun heq => hfresh (heq ▸ hv)
          exact ⟨inc', out, by rw [GoMap.lookup_insert_if, if_neg hne, hs.incoming],
            by rw [GoMap.lookup_insert_if, if_neg hne, hs.outgoing], hs.short, hs.entered,
            hs.carries, hs.opens⟩
        · obtain rfl := List.mem_singleton.mp hv
          refine ⟨inc, n.leave inc, by rw [GoMap.lookup_insert_if, if_pos rfl],
            by rw [GoMap.lookup_insert_if, if_pos rfl], hlen, hentered, hcarries, ?_⟩
          rintro ⟨n', hn', hid, hk⟩
          exact hopens (eq_of_id hn hn' hmem hid ▸ hk)
      · rw [List.mem_append, List.mem_singleton, not_or] at hv
        rw [GoMap.lookup_insert_if, if_neg hv.2, GoMap.lookup_insert_if, if_neg hv.2]
        exact hnew v hv.1

/-- The walk along an order of the nodes. -/
theorem sound_walk (hn : nodes.ids.Nodup) {l : List UUID} (hl : l.Nodup)
    (hord : Kahn.Ordered nodes.edges l) (hids : ∀ v ∈ l, v ∈ nodes.ids) :
    nodes.Sound l (l.foldl (Stacks.visit nodes.byId) {}) := by
  induction l using List.reverseRecOn with
  | nil => exact .inr ⟨rfl, nofun, fun v _ => ⟨rfl, rfl⟩⟩
  | append_singleton l v ih =>
    obtain ⟨hl', -, hapart⟩ := List.nodup_append.mp hl
    obtain ⟨n, hmem, rfl⟩ := List.mem_map.mp (hids v (by simp))
    rw [List.foldl_append, List.foldl_cons, List.foldl_nil]
    refine (ih hl' ?_ fun u hu => hids u (List.mem_append_left _ hu)).visit hn hmem ?_ ?_ ?_
    · intro l₁ u l₂ heq
      exact hord l₁ u (l₂ ++ [n.id]) (by rw [heq]; simp)
    · exact fun hv => hapart n.id hv n.id (List.mem_singleton_self _) rfl
    · exact fun u hu => hord l n.id [] rfl u hu
    · exact fun u hu => hids u (List.mem_append_left _ hu)

section
variable {rank : UUID → ℕ}

theorem sound_computed (hn : nodes.ids.Nodup) (hrank : ∀ e ∈ nodes.edges, rank e.1 < rank e.2) :
    nodes.Sound nodes.order (nodes.order.foldl (Stacks.visit nodes.byId) {}) := by
  obtain ⟨hnodup, hord, hids⟩ := order_spec hn hrank
  exact sound_walk hn hnodup hord fun v hv => (hids v).mp hv

/-- No map block is found in the context of another one if and only if none is. -/
theorem nestedMaps_nil_iff (hn : nodes.ids.Nodup)
    (hrank : ∀ e ∈ nodes.edges, rank e.1 < rank e.2) :
    (computeMapContext nodes).nestedMaps = [] ↔ ∀ d, nodes.Opens d → ¬nodes.Mapped d := by
  have hids := (order_spec hn hrank).2.2
  change (nodes.order.foldl (Stacks.visit nodes.byId) {}).nestedMaps = [] ↔ _
  rcases sound_computed hn hrank with ⟨d, hd, hopens, hmapped⟩ | ⟨hnil, hsettled, -⟩
  · exact iff_of_false (List.ne_nil_of_mem hd) fun h => h d hopens hmapped
  · refine iff_of_true hnil fun d hopens hmapped => ?_
    obtain ⟨n, hmem, rfl, hk⟩ := hopens
    obtain ⟨inc, out, hs⟩ := hsettled n.id ((hids n.id).mpr (List.mem_map_of_mem hmem))
    refine hs.entered.mpr ((mapped_of_entered hmem ?_).mp hmapped) (hs.opens ⟨n, hmem, rfl, hk⟩)
    rw [hk]
    exact nofun

/-- Without nested map blocks, the blocks in a context are those that a map block leads to. -/
theorem mem_inContext (hn : nodes.ids.Nodup) (hrank : ∀ e ∈ nodes.edges, rank e.1 < rank e.2)
    (hnested : (computeMapContext nodes).nestedMaps = []) {n : MapGraphNode} (hmem : n ∈ nodes)
    (hk : n.kind ≠ .reduce) : n.id ∈ (computeMapContext nodes).inContext ↔ nodes.Mapped n.id := by
  have hids := (order_spec hn hrank).2.2
  rcases sound_computed hn hrank with ⟨d, hd, hopens, hmapped⟩ | ⟨-, hsettled, -⟩
  · exact absurd hmapped ((nestedMaps_nil_iff hn hrank).mp hnested d hopens)
  · obtain ⟨inc, out, hs⟩ := hsettled n.id ((hids n.id).mpr (List.mem_map_of_mem hmem))
    rw [mapped_of_entered hmem hk, ← hs.entered]
    change n.id ∈ ((_ : Stacks).incoming.items.filter fun e => e.2 ≠ []).map Prod.fst ↔ _
    rw [List.mem_map]
    constructor
    · rintro ⟨⟨v, inc'⟩, he, rfl⟩
      obtain ⟨he, hne⟩ := List.mem_filter.mp he
      have hinc := hs.incoming.symm.trans ((GoMap.mem_items _ _ _).mp he)
      cases hinc
      exact of_decide_eq_true hne
    · intro hne
      exact ⟨(n.id, inc), List.mem_filter.mpr ⟨(GoMap.mem_items _ _ _).mpr hs.incoming,
        decide_eq_true hne⟩, rfl⟩

end
end MapGraph
end Spade.Web
