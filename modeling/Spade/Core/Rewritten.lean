import Spade.Core.Dependencies
import Spade.Core.Valid

set_option autoImplicit false

/-!
# Pipelines that are written anew

Blocks whose references are written in another way, but lead to the same blocks.
-/
namespace Spade

structure Rewrites (f : PipelineBlock → PipelineBlock) : Prop where
  id : ∀ b, (f b).id = b.id
  name : ∀ b, (f b).name = b.name
  depends : ∀ b id, id ∈ (f b).inputs.map InputRef.depID ↔ id ∈ b.inputs.map InputRef.depID

namespace Rewrites
variable {f : PipelineBlock → PipelineBlock} {p p' : Pipeline} {manifests : Manifests}

theorem blockIDs (hf : Rewrites f) (hp : p'.blocks = p.blocks.map f) :
    p'.blockIDs = p.blockIDs := by
  unfold Pipeline.blockIDs
  rw [hp, List.map_map]
  exact List.map_congr_left fun b _ => hf.id b

theorem kindOf_eq (hf : Rewrites f) (hp : p'.blocks = p.blocks.map f) :
    kindOf p'.blockByID manifests = kindOf p.blockByID manifests := by
  have key : ∀ (l : List PipelineBlock) (m m' : GoMap UUID PipelineBlock),
      (∀ id, m'.lookup id = (m.lookup id).map f) → ∀ id,
      ((l.map f).foldl (fun m b => m.insert b.id b) m').lookup id =
        ((l.foldl (fun m b => m.insert b.id b) m).lookup id).map f := by
    intro l
    induction l with
    | nil => exact fun m m' h => h
    | cons b l ih =>
      intro m m' h
      rw [List.map_cons, List.foldl_cons, List.foldl_cons]
      refine ih _ _ fun id => ?_
      rw [GoMap.lookup_insert_if, GoMap.lookup_insert_if, hf.id, h]
      split_ifs <;> rfl
  funext id
  have hlook : p'.blockByID.lookup id = (p.blockByID.lookup id).map f := by
    unfold Pipeline.blockByID
    rw [hp]
    exact key p.blocks ∅ ∅ (fun _ => rfl) id
  unfold kindOf
  rw [hlook]
  cases p.blockByID.lookup id with
  | none => rfl
  | some b =>
    dsimp only [Option.map_some]
    rw [hf.name]

theorem forward (hf : Rewrites f) (hp : p'.blocks = p.blocks.map f) {g g' : DependencyGraph}
    (hg : buildDependencyGraph p = .ok g) (hg' : buildDependencyGraph p' = .ok g') (u v : UUID) :
    v ∈ g'.forwardOf u ↔ v ∈ g.forwardOf u := by
  have hdepends : ∀ b, (∃ r ∈ (f b).inputs, r.depID = u) ↔ ∃ r ∈ b.inputs, r.depID = u := by
    intro b
    rw [← List.mem_map, ← List.mem_map]
    exact hf.depends b u
  rw [mem_forward hg, mem_forward hg', hp]
  refine and_congr_right fun _ => ?_
  simp only [List.mem_map, exists_exists_and_eq_and, hf.id, hdepends]

/-- A search finds what it found before. -/
theorem search_eq (hf : Rewrites f) (hp : p'.blocks = p.blocks.map f) {g g' : DependencyGraph}
    (hg : buildDependencyGraph p = .ok g) (hg' : buildDependencyGraph p' = .ok g')
    (verdict : UUID → DepthFirst.Verdict) (id : UUID) :
    (DepthFirst.visit g'.forwardOf verdict g'.depth id []).1 =
      (DepthFirst.visit g.forwardOf verdict g.depth id []).1 := by
  rw [Bool.eq_iff_iff, search_iff hg id, search_iff hg' id]
  exact DepthFirst.Reaches.congr (hf.forward hp hg hg')

theorem mapReduce_eq (hf : Rewrites f) (hp : p'.blocks = p.blocks.map f) {g g' : DependencyGraph}
    (hg : buildDependencyGraph p = .ok g) (hg' : buildDependencyGraph p' = .ok g') :
    validateMapReduce p' manifests g' = validateMapReduce p manifests g := by
  have hkind : kindOf p'.blockByID manifests = kindOf p.blockByID manifests := hf.kindOf_eq hp
  unfold validateMapReduce
  rw [hp, List.flatMap_map]
  refine List.flatMap_congr fun b _ => ?_
  rw [hf.name]
  cases manifests.lookup b.name with
  | none => rfl
  | some m =>
    have hreduce : hasDownstreamReduce b.id g' p'.blockByID manifests =
        hasDownstreamReduce b.id g p.blockByID manifests := by
      unfold hasDownstreamReduce reduceVerdict
      rw [hkind]
      exact hf.search_eq hp hg hg' _ b.id
    have hnested : hasNestedMap b.id g' p'.blockByID manifests =
        hasNestedMap b.id g p.blockByID manifests := by
      unfold hasNestedMap nestedVerdict
      rw [hkind]
      exact hf.search_eq hp hg hg' _ b.id
    simp only [checkMapBlock, checkReduceBlock, hf.id, hf.name, hreduce, hnested]

theorem find_eq (hf : Rewrites f) (hp : p'.blocks = p.blocks.map f) (id : UUID) :
    (p'.blocks.find? fun pb => pb.id = id) = (p.blocks.find? fun pb => pb.id = id).map f := by
  have htest : ((fun pb : PipelineBlock => decide (pb.id = id)) ∘ f) =
      fun pb => decide (pb.id = id) := by
    funext b
    simp only [Function.comp_apply, hf.id]
  rw [hp, List.find?_map, htest]

/-- The worker has the same manifests for the dependencies. -/
theorem depManifests_eq (hf : Rewrites f) (hp : p'.blocks = p.blocks.map f) {b : PipelineBlock}
    (h : Provided p manifests b.inputs) (id : UUID) :
    (depManifests p manifests b).lookup id = (depManifests p' manifests (f b)).lookup id := by
  have hprovided : Provided p' manifests (f b).inputs := by
    intro r hr
    obtain ⟨r', hr', heq⟩ := List.mem_map.mp ((hf.depends b r.depID).mp (List.mem_map_of_mem hr))
    obtain ⟨hnil, d, hd, hfind, hm⟩ := h r' hr'
    rw [heq] at hnil hfind
    refine ⟨hnil, f d, hp ▸ List.mem_map_of_mem hd, ?_, (hf.name d).symm ▸ hm⟩
    rw [hf.find_eq hp, hfind, Option.map_some]
  have hof : p'.manifestOf manifests id = p.manifestOf manifests id := by
    unfold Pipeline.manifestOf
    rw [hf.find_eq hp]
    cases p.blocks.find? fun pb => pb.id = id with
    | none => rfl
    | some d =>
      rw [Option.map_some, Option.bind_some, Option.bind_some, hf.name]
  rw [depManifests_lookup h, depManifests_lookup hprovided, hof]
  exact if_congr (hf.depends b id).symm rfl rfl

/-- What remains to be checked are the inputs and the arguments. -/
theorem valid {σ : MapOrder} (hf : Rewrites f) (hp : p'.blocks = p.blocks.map f)
    (h : Valid σ p manifests) (hargs : ∀ b, (f b).args.getD ∅ = b.args.getD ∅)
    (hresolves : ∀ b ∈ p.blocks, ∀ m, manifests.lookup b.name = some m →
      ∃ out, resolveInputs σ (f b) (depManifests p' manifests (f b)) m = .ok out) :
    Valid σ p' manifests := by
  have hids := hf.blockIDs hp
  have hblock : ∀ c ∈ p'.blocks, ∃ b ∈ p.blocks, f b = c := fun c hc => List.mem_map.mp (hp ▸ hc)
  have hdepends : ∀ b, ∀ r ∈ (f b).inputs, ∃ r' ∈ b.inputs, r'.depID = r.depID := fun b r hr =>
    List.mem_map.mp ((hf.depends b r.depID).mp (List.mem_map_of_mem hr))
  have hknown : ∀ c ∈ p'.blocks, ∀ r ∈ c.inputs, r.depID ≠ UUID.nil ∧ r.depID ∈ p'.blockIDs := by
    intro c hc r hr
    obtain ⟨b, hb, rfl⟩ := hblock c hc
    obtain ⟨r', hr', heq⟩ := hdepends b r hr
    rw [hids, ← heq]
    exact h.known b hb r' hr'
  refine ⟨hids ▸ h.nodup, hknown, fun c hc => ?_, ?_, fun c hc m hm => ?_,
    fun c hc m hm n d hd hs => ?_, ?_⟩
  · obtain ⟨b, hb, rfl⟩ := hblock c hc
    exact (hf.name b).symm ▸ h.named b hb
  · obtain ⟨rank, hrank⟩ := h.rank
    refine ⟨rank, fun c hc r hr => ?_⟩
    obtain ⟨b, hb, rfl⟩ := hblock c hc
    obtain ⟨r', hr', heq⟩ := hdepends b r hr
    rw [hf.id, ← heq]
    exact hrank b hb r' hr'
  · obtain ⟨b, hb, rfl⟩ := hblock c hc
    exact hresolves b hb m (hf.name b ▸ hm)
  · obtain ⟨b, hb, rfl⟩ := hblock c hc
    rw [hargs]
    exact h.args b hb m (hf.name b ▸ hm) n d hd hs
  · obtain ⟨g, hg, hmap⟩ := h.mapReduce
    obtain ⟨g', hg'⟩ := build_ok fun c hc r hr _ => (hknown c hc r hr).2
    exact ⟨g', hg', (hf.mapReduce_eq hp hg hg').trans hmap⟩

end Rewrites
end Spade
