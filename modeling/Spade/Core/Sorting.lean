import Spade.Core.Samples
import Spade.Core.Valid

set_option autoImplicit false

/-!
# `TopologicalSort` on any graph that is built

It fails exactly on a cycle, and lists every block once, after its dependencies.
-/
namespace Spade

/-- No block is reached from itself. -/
def DependencyGraph.Acyclic (g : DependencyGraph) : Prop :=
  ∀ id, ¬Relation.TransGen (fun u v => v ∈ g.forwardOf u) id id

section
variable {σ : MapOrder} {p : Pipeline} {g : DependencyGraph}

theorem acyclic_iff_edges (h : buildDependencyGraph p = .ok g) :
    g.Acyclic ↔ ∀ id, ¬Relation.TransGen (fun u v => (u, v) ∈ p.edges) id id := by
  unfold DependencyGraph.Acyclic
  simp only [forward_edges h]

theorem topologicalSort_nodup (h : buildDependencyGraph p = .ok g) {sorted : List UUID}
    (hs : topologicalSort σ g = .ok sorted) :
    sorted.Nodup ∧ ∀ id ∈ sorted, id ∈ p.blockIDs := by
  have hids := σ.mem_keys g.allBlocks
  unfold topologicalSort at hs
  dsimp only at hs
  rw [kahnLoop_eq h] at hs
  split_ifs at hs
  cases hs
  have hstart := kahn_start h (σ.range_nodup g.allBlocks) hids rfl
  obtain ⟨hnodup, -, hsub⟩ := Kahn.loop_ordered
    (fun e he => (hids _).mpr (edges_known h e he)) (σ.keys g.allBlocks).length hstart
    fun v hv => List.mem_of_mem_filter hv
  exact ⟨hnodup, fun id hid => (mem_allBlocks h id).mp ((hids id).mp (hsub id hid))⟩

theorem topologicalSort_iff (h : buildDependencyGraph p = .ok g) :
    ((∃ sorted, topologicalSort σ g = .ok sorted) ↔ g.Acyclic) ∧
    ∀ sorted, topologicalSort σ g = .ok sorted →
      sorted.Nodup ∧ (∀ id, id ∈ sorted ↔ id ∈ p.blockIDs) ∧
      ∀ u v, v ∈ g.forwardOf u → sorted.idxOf u < sorted.idxOf v := by
  have hknown : ∀ e ∈ p.edges, e.2 ∈ p.blockIDs := fun e he =>
    (mem_allBlocks h _).mp (edges_known h e he)
  refine ⟨⟨?_, fun hacyclic => ?_⟩, fun sorted hs => ?_⟩
  · rintro ⟨sorted, hs⟩
    obtain ⟨hord, hall⟩ := topologicalSort_ordered h hs
    obtain ⟨rank, hrank⟩ := Kahn.exists_rank hord fun e he => hall _ (hknown e he)
    rw [acyclic_iff_edges h]
    exact fun id hcycle => lt_irrefl _ (Kahn.rank_lt hrank hcycle)
  · obtain ⟨rank, hrank⟩ := Kahn.exists_rank_of_acyclic ((acyclic_iff_edges h).mp hacyclic)
    exact topologicalSort_of_rank h hrank
  · obtain ⟨hord, hall⟩ := topologicalSort_ordered h hs
    obtain ⟨hnodup, hsub⟩ := topologicalSort_nodup h hs
    refine ⟨hnodup, fun id => ⟨hsub id, hall id⟩, fun u v he => ?_⟩
    have hedge := (forward_edges h).mp he
    exact hord.idxOf_lt hedge (hall v (hknown _ hedge))

end

theorem topologicalSort_zigzag : ∃ g sorted, buildDependencyGraph Samples.zigzag = .ok g ∧
    topologicalSort .stored g = .ok sorted ∧ g.Acyclic ∧ sorted.Nodup := by
  obtain ⟨g, hg⟩ : ∃ g, buildDependencyGraph Samples.zigzag = .ok g := ⟨_, rfl⟩
  have hsome : (topologicalSort .stored g).isOk = true := by
    have hok : (match buildDependencyGraph Samples.zigzag with
      | .ok g => (topologicalSort .stored g).isOk
      | .error _ => false) = true := by decide
    rwa [hg] at hok
  cases hs : topologicalSort .stored g with
  | error e =>
    rw [hs] at hsome
    cases hsome
  | ok sorted =>
    have hcorrect := topologicalSort_iff (σ := .stored) hg
    exact ⟨g, sorted, hg, hs, hcorrect.1.mp ⟨sorted, hs⟩, (hcorrect.2 sorted hs).1⟩

end Spade
