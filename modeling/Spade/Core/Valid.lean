import Spade.Core.Acyclic

set_option autoImplicit false

/-! # What `ValidatePipeline` accepts -/
namespace Spade

/-- The checks of `ValidatePipeline` as facts on the pipeline. -/
structure Valid (σ : MapOrder) (p : Pipeline) (manifests : Manifests) : Prop where
  nodup : p.blockIDs.Nodup
  known : ∀ b ∈ p.blocks, ∀ r ∈ b.inputs, r.depID ≠ UUID.nil ∧ r.depID ∈ p.blockIDs
  named : ∀ b ∈ p.blocks, b.name ∈ manifests
  rank : ∃ rank : UUID → ℕ, ∀ b ∈ p.blocks, ∀ r ∈ b.inputs, rank r.depID < rank b.id
  resolves : ∀ b ∈ p.blocks, ∀ m, manifests.lookup b.name = some m →
    ∃ out, resolveInputs σ b (depManifests p manifests b) m = .ok out
  args : ∀ b ∈ p.blocks, ∀ m, manifests.lookup b.name = some m →
    ∀ n d, m.inputs.lookup n = some d → isScalar d.type = true → n ∈ b.args.getD ∅
  mapReduce : ∃ g, buildDependencyGraph p = .ok g ∧ validateMapReduce p manifests g = []

section
variable {σ : MapOrder} {p : Pipeline} {manifests : Manifests}

theorem checkInputs_nil_iff : checkInputs σ p manifests = [] ↔
    ∀ b ∈ p.blocks, ∀ m, manifests.lookup b.name = some m →
      ∃ out, resolveInputs σ b (depManifests p manifests b) m = .ok out := by
  rw [checkInputs, List.filterMap_eq_nil_iff]
  refine forall₂_congr fun b _ => ?_
  cases manifests.lookup b.name with
  | none => simp
  | some m =>
    simp only [Option.some.injEq, forall_eq']
    cases resolveInputs σ b (depManifests p manifests b) m <;> simp

theorem checkArgs_nil_iff : checkArgs σ p manifests = [] ↔
    ∀ b ∈ p.blocks, ∀ m, manifests.lookup b.name = some m →
      ∀ n d, m.inputs.lookup n = some d → isScalar d.type = true → n ∈ b.args.getD ∅ := by
  rw [checkArgs, List.flatMap_eq_nil_iff]
  refine forall₂_congr fun b _ => ?_
  cases manifests.lookup b.name with
  | none => simp
  | some m =>
    simp only [Option.some.injEq, forall_eq', List.filterMap_eq_nil_iff, Prod.forall,
      MapOrder.mem_range]
    refine forall₃_congr fun n d _ => ?_
    by_cases hn : n ∈ b.args.getD ∅ <;> simp [hn]

theorem checkUnique_of_nodup {bs : List PipelineBlock} {idSet : GoMap UUID Bool}
    (h : (bs.map PipelineBlock.id).Nodup) (hset : ∀ b ∈ bs, b.id ∉ idSet) :
    checkUnique bs idSet = [] := by
  induction bs generalizing idSet with
  | nil => rfl
  | cons b bs ih =>
    rw [List.map_cons, List.nodup_cons] at h
    rw [checkUnique, AList.lookup_eq_none.mpr (hset b List.mem_cons_self), ih h.2]
    · rfl
    · intro c hc hm
      rcases (AList.mem_insert idSet).mp hm with heq | hm
      · exact h.1 (heq ▸ List.mem_map_of_mem hc)
      · exact hset c (List.mem_cons_of_mem b hc) hm

/-- The graph of known references can be built. -/
theorem build_ok (h : ∀ b ∈ p.blocks, ∀ r ∈ b.inputs, r.depID ≠ UUID.nil → r.depID ∈ p.blockIDs) :
    ∃ g, buildDependencyGraph p = .ok g := by
  have hall : ∀ id ∈ p.blockIDs,
      ((p.blocks.foldl (fun m b => m.insert b.id true) ∅ : GoMap UUID Bool).lookup id) =
        some true := by
    intro id hid
    obtain ⟨v, hv⟩ := GoMap.lookup_of_mem ((mem_foldl_insert PipelineBlock.id (fun _ => true)
      p.blocks ∅ id).mpr (Or.inl hid))
    rcases lookup_foldl_insert PipelineBlock.id (fun _ => true) p.blocks ∅ id v hv with
      ⟨b, -, -, rfl⟩ | hno
    · exact hv
    · simp at hno
  have key : ∀ (es : List (UUID × InputRef)) (g : DependencyGraph),
      (∀ e ∈ es, e.2.depID ≠ UUID.nil → e.2.depID ∈ p.blockIDs) →
      g.allBlocks = p.blocks.foldl (fun m b => m.insert b.id true) ∅ →
      ∃ g', es.foldlM addEdge g = .ok g' := by
    intro es
    induction es with
    | nil => exact fun g _ _ => ⟨g, rfl⟩
    | cons e es ih =>
      intro g hes hg
      have hrest := fun g' => ih g' fun e' he' => hes e' (List.mem_cons_of_mem e he')
      by_cases hnil : e.2.depID = UUID.nil
      · obtain ⟨g', hg'⟩ := hrest g hg
        refine ⟨g', ?_⟩
        rw [List.foldlM_cons, addEdge, if_pos hnil]
        exact hg'
      · have hmem := hall _ (hes e List.mem_cons_self hnil)
        obtain ⟨g', hg'⟩ := hrest { g with
          forward := g.forward.insert e.2.depID (g.forwardOf e.2.depID ++ [e.1])
          reverse := g.reverse.insert e.1 (g.reverseOf e.1 ++ [e.2.depID]) } hg
        have hadd : addEdge g e = .ok { g with
            forward := g.forward.insert e.2.depID (g.forwardOf e.2.depID ++ [e.1])
            reverse := g.reverse.insert e.1 (g.reverseOf e.1 ++ [e.2.depID]) } := by
          rw [← hg] at hmem
          rw [addEdge, if_neg hnil, hmem]
          rfl
        refine ⟨g', ?_⟩
        rw [List.foldlM_cons, hadd]
        exact hg'
  refine key p.references _ (fun e he => ?_) rfl
  obtain ⟨b, hb, he⟩ := List.mem_flatMap.mp he
  obtain ⟨r, hr, rfl⟩ := List.mem_map.mp he
  exact h b hb r hr

theorem valid_of_validate (h : validatePipeline σ p manifests = []) : Valid σ p manifests := by
  have hacc := accepted_of_validate h
  have hrank := rank_of_validate h
  obtain ⟨g, hg, hmap⟩ := hacc.graph
  unfold validatePipeline at h
  simp only [List.append_eq_nil_iff, hg] at h
  obtain ⟨-, ⟨⟨-, hinputs⟩, hargs⟩, -⟩ := h
  exact ⟨hacc.nodup, hacc.known, hacc.named, hrank, checkInputs_nil_iff.mp hinputs,
    checkArgs_nil_iff.mp hargs, g, hg, hmap⟩

theorem Valid.validate (h : Valid σ p manifests) : validatePipeline σ p manifests = [] := by
  obtain ⟨rank, hrank⟩ := h.rank
  obtain ⟨g, hg, hmap⟩ := h.mapReduce
  have hup : ∀ e ∈ p.edges, rank e.1 < rank e.2 := by
    rintro ⟨u, v⟩ he
    obtain ⟨-, b, hb, rfl, r, hr, rfl⟩ := mem_edges.mp he
    exact hrank b hb r hr
  obtain ⟨sorted, hsorted⟩ := topologicalSort_of_rank (σ := σ) hg hup
  have hunique : checkUnique p.blocks ∅ = [] := checkUnique_of_nodup h.nodup fun _ _ => by simp
  have hreferences : checkReferences p = [] := by
    refine List.filterMap_eq_nil_iff.mpr fun e he => ?_
    obtain ⟨b, hb, he⟩ := List.mem_flatMap.mp he
    obtain ⟨r, hr, rfl⟩ := List.mem_map.mp he
    exact if_neg fun hno => hno.2 (h.known b hb r hr).2
  have hnames : checkNames p manifests = [] :=
    List.filterMap_eq_nil_iff.mpr fun b hb => if_pos (h.named b hb)
  unfold validatePipeline
  rw [hunique, hreferences, hnames, hg]
  simp only [hsorted, checkInputs_nil_iff.mpr h.resolves, checkArgs_nil_iff.mpr h.args, hmap,
    List.append_nil]

end
end Spade
