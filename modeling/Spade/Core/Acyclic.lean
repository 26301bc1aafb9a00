import Spade.Core.Accepted
import Spade.Lib.Kahn

set_option autoImplicit false

/-! # An accepted pipeline has no cycle -/
namespace Spade

section
variable {p : Pipeline} {g : DependencyGraph}

theorem build_reverse (h : buildDependencyGraph p = .ok g) (v : UUID) :
    g.reverseOf v = (p.edges.filter (·.2 = v)).map Prod.fst := by
  have hr := (foldl_addEdge h).2.2 v
  simpa [DependencyGraph.reverseOf, Pipeline.edges] using hr

/-- The in-degrees as a function. -/
def degreeOf (inDegree : GoMap UUID Int) (id : UUID) : ℤ := (inDegree.lookup id).getD 0

theorem decrement_eq (m : GoMap UUID Int) (queue : List UUID) (v : UUID) :
    (degreeOf (decrement (m, queue) v).1, (decrement (m, queue) v).2) =
      Kahn.decrement (degreeOf m, queue) v := by
  unfold decrement Kahn.decrement degreeOf
  refine Prod.ext (funext fun k => ?_) rfl
  dsimp only
  rw [GoMap.lookup_insert_if, Function.update_apply]
  split_ifs <;> rfl

theorem foldl_decrement_eq (vs : List UUID) (acc : GoMap UUID Int × List UUID) :
    (degreeOf (vs.foldl decrement acc).1, (vs.foldl decrement acc).2) =
      vs.foldl Kahn.decrement (degreeOf acc.1, acc.2) := by
  induction vs generalizing acc with
  | nil => rfl
  | cons v vs ih => rw [List.foldl_cons, ih, List.foldl_cons, ← decrement_eq]

/-- The loop of the program is that of the library on the edges of the pipeline. -/
theorem kahnLoop_eq (h : buildDependencyGraph p = .ok g) (n : ℕ) (queue : List UUID)
    (inDegree : GoMap UUID Int) (sorted : List UUID) :
    kahnLoop g n queue inDegree sorted =
      Kahn.loop p.edges n queue (degreeOf inDegree) sorted := by
  induction n generalizing queue inDegree sorted with
  | zero => rfl
  | succ n ih =>
    cases queue with
    | nil => rfl
    | cons node queue =>
      have hfold := foldl_decrement_eq (g.forwardOf node) (inDegree, queue)
      rw [build_forward h] at hfold
      rw [kahnLoop, ih, build_forward h, Kahn.loop, show Kahn.succs p.edges node = (p.edges.filter (·.1 = node)).map Prod.snd from rfl, ← hfold]

theorem lookup_degrees (f : UUID → Int) (ids : List UUID) (m : GoMap UUID Int) (k : UUID) :
    (ids.foldl (fun m id => m.insert id (f id)) m).lookup k =
      if k ∈ ids then some (f k) else m.lookup k := by
  induction ids generalizing m with
  | nil => simp
  | cons id ids ih =>
    rw [List.foldl_cons, ih, GoMap.lookup_insert_if]
    by_cases hk : k ∈ ids
    · simp [hk]
    · by_cases hid : k = id
      · simp [hid]
      · simp [hk, hid]

/-- The loop starts from the nodes without edges into them. -/
theorem kahn_start (h : buildDependencyGraph p = .ok g) {ids : List UUID} (hn : ids.Nodup)
    (hids : ∀ k, k ∈ ids ↔ k ∈ g.allBlocks) {inDegree : GoMap UUID Int}
    (hd : inDegree = ids.foldl (fun m id => m.insert id ((g.reverseOf id).length : Int)) ∅) :
    Kahn.State p.edges (ids.filter fun id => (inDegree.lookup id).getD 0 = 0)
      (degreeOf inDegree) [] := by
  have hcount : ∀ v, degreeOf inDegree v = Kahn.waiting p.edges [] v := by
    intro v
    unfold degreeOf Kahn.waiting
    rw [hd, lookup_degrees (fun id => ((g.reverseOf id).length : Int))]
    by_cases hv : v ∈ ids
    · rw [if_pos hv, Option.getD_some, build_reverse h, List.length_map, List.countP_eq_length_filter]
      simp
    · rw [if_neg hv, AList.lookup_empty, Option.getD_none, eq_comm, Int.natCast_eq_zero,
        List.countP_eq_zero]
      intro e he
      have hne : e.2 ≠ v := by
        rintro rfl
        exact hv ((hids _).mpr (edges_known h e he))
      simp [hne]
  refine ⟨?_, hcount, ?_, ?_⟩
  · rw [List.nil_append]
    exact hn.filter _
  · intro v hv
    rw [List.nil_append, List.mem_filter, decide_eq_true_eq] at hv
    exact hv.2
  · intro l₁ v l₂ heq
    simp at heq

/-- What `TopologicalSort` returns lists every block after its dependencies. -/
theorem topologicalSort_ordered {σ : MapOrder} (h : buildDependencyGraph p = .ok g)
    {sorted : List UUID} (hs : topologicalSort σ g = .ok sorted) :
    Kahn.Ordered p.edges sorted ∧ ∀ id ∈ p.blockIDs, id ∈ sorted := by
  have hn : (σ.keys g.allBlocks).Nodup := σ.range_nodup g.allBlocks
  have hids := σ.mem_keys g.allBlocks
  unfold topologicalSort at hs
  dsimp only at hs
  rw [kahnLoop_eq h] at hs
  have hstart := kahn_start h hn hids rfl
  have hedges : ∀ e ∈ p.edges, e.2 ∈ σ.keys g.allBlocks := fun e he =>
    (hids _).mpr (edges_known h e he)
  obtain ⟨hnodup, hord, hsub⟩ := Kahn.loop_ordered hedges (σ.keys g.allBlocks).length hstart
    fun v hv => List.mem_of_mem_filter hv
  split at hs
  · rename_i hlen
    cases hs
    refine ⟨hord, fun id hid => ?_⟩
    have hperm := (List.subperm_of_subset hnodup hsub).perm_of_length_le (le_of_eq hlen.symm)
    exact hperm.mem_iff.mpr ((hids id).mpr ((mem_allBlocks h id).mpr hid))
  · cases hs

/-- A graph whose edges go up in some rank is sorted. -/
theorem topologicalSort_of_rank {σ : MapOrder} (h : buildDependencyGraph p = .ok g)
    {rank : UUID → ℕ} (hrank : ∀ e ∈ p.edges, rank e.1 < rank e.2) :
    ∃ sorted, topologicalSort σ g = .ok sorted := by
  have hn : (σ.keys g.allBlocks).Nodup := σ.range_nodup g.allBlocks
  have hids := σ.mem_keys g.allBlocks
  have hedges : ∀ e ∈ p.edges, e.1 ∈ σ.keys g.allBlocks ∧ e.2 ∈ σ.keys g.allBlocks := fun e he =>
    ⟨(hids _).mpr (sources_known h e he), (hids _).mpr (edges_known h e he)⟩
  have hstart := kahn_start h hn hids rfl
  have hknown : ∀ v ∈ [] ++ (σ.keys g.allBlocks).filter fun id =>
      (((σ.keys g.allBlocks).foldl (fun m id => m.insert id ((g.reverseOf id).length : Int)) ∅ :
        GoMap UUID Int).lookup id).getD 0 = 0, v ∈ σ.keys g.allBlocks :=
    fun v hv => List.mem_of_mem_filter hv
  have hall := Kahn.loop_complete hrank hedges (σ.keys g.allBlocks).length hstart hknown
    (fun v hv h0 => List.mem_filter.mpr ⟨hv, decide_eq_true h0⟩) (by simp)
  obtain ⟨hnodup, -, hsub⟩ := Kahn.loop_ordered (fun e he => (hedges e he).2)
    (σ.keys g.allBlocks).length hstart hknown
  unfold topologicalSort
  dsimp only
  rw [kahnLoop_eq h, if_pos]
  · exact ⟨_, rfl⟩
  · exact ((List.perm_ext_iff_of_nodup hnodup hn).mpr fun v => ⟨hsub v, hall v⟩).length_eq

end

/-- The blocks of an accepted pipeline have a rank above that of their dependencies. -/
theorem rank_of_validate {σ : MapOrder} {p : Pipeline} {manifests : Manifests}
    (h : validatePipeline σ p manifests = []) :
    ∃ rank : UUID → ℕ, ∀ b ∈ p.blocks, ∀ r ∈ b.inputs, rank r.depID < rank b.id := by
  have hacc := accepted_of_validate h
  obtain ⟨g, hg, -⟩ := hacc.graph
  unfold validatePipeline at h
  simp only [List.append_eq_nil_iff, hg] at h
  obtain ⟨-, ⟨⟨hsort, -⟩, -⟩, -⟩ := h
  cases hs : topologicalSort σ g with
  | error e => simp [hs] at hsort
  | ok sorted =>
    obtain ⟨hord, hall⟩ := topologicalSort_ordered hg hs
    obtain ⟨rank, hrank⟩ := Kahn.exists_rank hord fun e he =>
      hall _ ((mem_allBlocks hg _).mp (edges_known hg e he))
    refine ⟨rank, fun b hb r hr => hrank (r.depID, b.id) ?_⟩
    exact mem_edges.mpr ⟨(hacc.known b hb r hr).1, b, hb, rfl, r, hr, rfl⟩

end Spade
