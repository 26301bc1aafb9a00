import Spade.Core.Types

set_option autoImplicit false

/-! # The dependency graph of a pipeline and Kahn's algorithm on it -/
namespace Spade
open UUIDPackage

structure DependencyGraph where
  forward : GoMap UUID (List UUID) := ∅
  reverse : GoMap UUID (List UUID) := ∅
  allBlocks : GoMap UUID Bool := ∅

inductive GraphError where
  | unknownDependency (block dep : UUID)
  | cycle
  deriving DecidableEq

def GraphError.message [UUIDPackage] : GraphError → String
  | unknownDependency block dep =>
    "block " ++ string block ++ " references unknown dependency " ++ string dep
  | cycle => "cycle detected in dependency graph"

namespace DependencyGraph

def forwardOf (g : DependencyGraph) (id : UUID) : List UUID := (g.forward.lookup id).getD []

def reverseOf (g : DependencyGraph) (id : UUID) : List UUID := (g.reverse.lookup id).getD []

end DependencyGraph

/-- The input references of a pipeline with the block each belongs to, in loop order. -/
def Pipeline.references (p : Pipeline) : List (UUID × InputRef) :=
  p.blocks.flatMap fun b => b.inputs.map fun r => (b.id, r)

def addEdge (g : DependencyGraph) (e : UUID × InputRef) : Except GraphError DependencyGraph :=
  let depID := e.2.depID
  if depID = UUID.nil then .ok g
  else if (g.allBlocks.lookup depID).getD false then
    .ok { g with
      forward := g.forward.insert depID (g.forwardOf depID ++ [e.1])
      reverse := g.reverse.insert e.1 (g.reverseOf e.1 ++ [depID]) }
  else .error (.unknownDependency e.1 depID)

def buildDependencyGraph (p : Pipeline) : Except GraphError DependencyGraph :=
  p.references.foldlM addEdge
    { allBlocks := p.blocks.foldl (fun m b => m.insert b.id true) ∅ }

/-- `inDegree[dep]--`, and `dep` joins the queue when that makes it zero. -/
def decrement (acc : GoMap UUID Int × List UUID) (dep : UUID) : GoMap UUID Int × List UUID :=
  let d := (acc.1.lookup dep).getD 0 - 1
  (acc.1.insert dep d, if d = 0 then acc.2 ++ [dep] else acc.2)

def kahnLoop (g : DependencyGraph) :
    ℕ → List UUID → GoMap UUID Int → List UUID → List UUID
  | 0, _, _, sorted => sorted
  | _ + 1, [], _, sorted => sorted
  | n + 1, node :: queue, inDegree, sorted =>
    let acc := (g.forwardOf node).foldl decrement (inDegree, queue)
    kahnLoop g n acc.2 acc.1 (sorted ++ [node])

/-- Every node enters the queue at most once, so the number of nodes is fuel enough. -/
def topologicalSort (σ : MapOrder) (g : DependencyGraph) : Except GraphError (List UUID) :=
  let ids := σ.keys g.allBlocks
  let inDegree : GoMap UUID Int := ids.foldl (fun m id => m.insert id (g.reverseOf id).length) ∅
  let queue := ids.filter fun id => (inDegree.lookup id).getD 0 = 0
  let sorted := kahnLoop g ids.length queue inDegree []
  if sorted.length = ids.length then .ok sorted else .error .cycle

/-! The edges of a graph that was built, with their multiplicity. -/

def edgeOf (e : UUID × InputRef) : Option (UUID × UUID) :=
  if e.2.depID = UUID.nil then none else some (e.2.depID, e.1)

def Pipeline.edges (p : Pipeline) : List (UUID × UUID) := p.references.filterMap edgeOf

theorem mem_edges {p : Pipeline} {u v : UUID} :
    (u, v) ∈ p.edges ↔
      u ≠ UUID.nil ∧ ∃ b ∈ p.blocks, b.id = v ∧ ∃ r ∈ b.inputs, r.depID = u := by
  simp only [Pipeline.edges, Pipeline.references, List.mem_filterMap, List.mem_flatMap,
    List.mem_map, edgeOf]
  constructor
  · rintro ⟨⟨x, r⟩, ⟨b, hb, r', hr', heq⟩, he⟩
    cases heq
    split at he
    · cases he
    · rename_i hn
      cases he
      exact ⟨hn, b, hb, rfl, r, hr', rfl⟩
  · rintro ⟨hn, b, hb, rfl, r, hr, rfl⟩
    exact ⟨(b.id, r), ⟨b, hb, r, hr, rfl⟩, if_neg hn⟩

theorem addEdge_forward {g g' : DependencyGraph} {e : UUID × InputRef} (h : addEdge g e = .ok g') :
    g'.allBlocks = g.allBlocks ∧
    (∀ u, g'.forwardOf u = g.forwardOf u ++ ((edgeOf e).toList.filter (·.1 = u)).map Prod.snd) ∧
    ∀ v, g'.reverseOf v = g.reverseOf v ++ ((edgeOf e).toList.filter (·.2 = v)).map Prod.fst := by
  unfold addEdge at h
  dsimp only at h
  split at h
  · rename_i hn
    cases h
    simp [edgeOf, hn]
  · rename_i hn
    split at h
    · cases h
      refine ⟨rfl, fun u => ?_, fun v => ?_⟩
      · unfold DependencyGraph.forwardOf
        rw [GoMap.lookup_insert_if]
        by_cases hu : u = e.2.depID
        · subst hu
          simp [edgeOf, hn]
        · simp [edgeOf, hn, hu, Ne.symm hu]
      · unfold DependencyGraph.reverseOf
        rw [GoMap.lookup_insert_if]
        by_cases hv : v = e.1
        · subst hv
          simp [edgeOf, hn]
        · simp [edgeOf, hn, hv, Ne.symm hv]
    · cases h

theorem foldl_addEdge {es : List (UUID × InputRef)} {g g' : DependencyGraph}
    (h : es.foldlM addEdge g = .ok g') :
    g'.allBlocks = g.allBlocks ∧
    (∀ u, g'.forwardOf u =
      g.forwardOf u ++ ((es.filterMap edgeOf).filter (·.1 = u)).map Prod.snd) ∧
    ∀ v, g'.reverseOf v =
      g.reverseOf v ++ ((es.filterMap edgeOf).filter (·.2 = v)).map Prod.fst := by
  induction es generalizing g with
  | nil =>
    cases h
    simp
  | cons e es ih =>
    rw [List.foldlM_cons] at h
    cases he : addEdge g e with
    | error err =>
      rw [he] at h
      cases h
    | ok g₁ =>
      rw [he] at h
      obtain ⟨ha, hf, hr⟩ := addEdge_forward he
      obtain ⟨ha', hf', hr'⟩ := ih h
      have hsplit : (e :: es).filterMap edgeOf = (edgeOf e).toList ++ es.filterMap edgeOf := by
        cases hx : edgeOf e <;> simp [hx]
      refine ⟨ha'.trans ha, fun u => ?_, fun v => ?_⟩
      · rw [hf', hf, hsplit]
        simp only [List.filter_append, List.map_append, List.append_assoc]
      · rw [hr', hr, hsplit]
        simp only [List.filter_append, List.map_append, List.append_assoc]

theorem build_forward {p : Pipeline} {g : DependencyGraph} (h : buildDependencyGraph p = .ok g)
    (u : UUID) : g.forwardOf u = (p.edges.filter (·.1 = u)).map Prod.snd := by
  have hf := (foldl_addEdge h).2.1 u
  simpa [DependencyGraph.forwardOf, Pipeline.edges] using hf

theorem mem_forward {p : Pipeline} {g : DependencyGraph} (h : buildDependencyGraph p = .ok g)
    {u v : UUID} : v ∈ g.forwardOf u ↔
      u ≠ UUID.nil ∧ ∃ b ∈ p.blocks, b.id = v ∧ ∃ r ∈ b.inputs, r.depID = u := by
  rw [build_forward h, ← mem_edges]
  simp

end Spade
