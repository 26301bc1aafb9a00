import Spade.Core.SchedulerSteps

set_option autoImplicit false

/-! # The manifests that `ResolveInputs` is given -/
namespace Spade

/-- The manifest of the block with an id. -/
def Pipeline.manifestOf (p : Pipeline) (manifests : Manifests) (id : UUID) :
    Option BlockManifest :=
  (p.blocks.find? fun pb => pb.id = id).bind fun d => manifests.lookup d.name

/-- Each of the references leads to a block that has a manifest. -/
def Provided (p : Pipeline) (manifests : Manifests) (refs : List InputRef) : Prop :=
  ∀ r ∈ refs, r.depID ≠ UUID.nil ∧
    ∃ d ∈ p.blocks, (p.blocks.find? fun pb => pb.id = r.depID) = some d ∧ d.name ∈ manifests

variable {p : Pipeline} {manifests : Manifests}

theorem Accepted.provided (hacc : Accepted p manifests) {b : PipelineBlock} (hb : b ∈ p.blocks) :
    Provided p manifests b.inputs := by
  intro r hr
  obtain ⟨hnil, hmem⟩ := hacc.known b hb r hr
  obtain ⟨d, hd, hid⟩ := List.mem_map.mp hmem
  refine ⟨hnil, d, hd, ?_, hacc.named d hd⟩
  rw [← hid]
  exact find_block hacc.nodup hd

theorem depManifests_lookup {b : PipelineBlock} (h : Provided p manifests b.inputs) (id : UUID) :
    (depManifests p manifests b).lookup id =
      if id ∈ b.inputs.map InputRef.depID then p.manifestOf manifests id else none := by
  obtain ⟨next, heq, hnext⟩ : ∃ next, depManifests p manifests b = b.inputs.foldl next ∅ ∧
      ∀ deps r d m, r.depID ≠ UUID.nil → (p.blocks.find? fun d => d.id = r.depID) = some d →
        manifests.lookup d.name = some m → next deps r = deps.insert r.depID m :=
    ⟨_, rfl, fun deps r d m hnil hd hm => by simp only [if_neg hnil, hd, hm]⟩
  have key : ∀ (rs : List InputRef) (acc : GoMap UUID BlockManifest), Provided p manifests rs →
      (rs.foldl next acc).lookup id =
        if id ∈ rs.map InputRef.depID then p.manifestOf manifests id else acc.lookup id := by
    intro rs
    induction rs with
    | nil => exact fun acc _ => rfl
    | cons r rs ih =>
      intro acc hrs
      obtain ⟨hnil, d, -, hd, hm⟩ := hrs r List.mem_cons_self
      obtain ⟨m, hm⟩ := GoMap.lookup_of_mem hm
      rw [List.foldl_cons, hnext acc r d m hnil hd hm,
        ih _ fun r' hr' => hrs r' (List.mem_cons_of_mem r hr'), GoMap.lookup_insert_if]
      simp only [List.map_cons, List.mem_cons]
      by_cases hr : id = r.depID
      · have hof : p.manifestOf manifests id = some m := by
          rw [Pipeline.manifestOf, hr, hd, Option.bind_some, hm]
        simp [hr, ← hof]
      · simp [hr]
  rw [heq]
  exact key b.inputs ∅ h

end Spade
