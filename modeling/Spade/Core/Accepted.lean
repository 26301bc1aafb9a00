import Spade.Core.Validate

set_option autoImplicit false

/-! # What a pipeline that `ValidatePipeline` accepts is known to be -/
namespace Spade

theorem lookup_foldl_insert {A V : Type} (key : A → UUID) (val : A → V) (l : List A)
    (m : GoMap UUID V) (k : UUID) (v : V)
    (h : (l.foldl (fun m a => m.insert (key a) (val a)) m).lookup k = some v) :
    (∃ a ∈ l, key a = k ∧ val a = v) ∨ m.lookup k = some v := by
  induction l generalizing m with
  | nil => exact Or.inr h
  | cons a l ih =>
    rcases ih _ h with ⟨a', ha, hk⟩ | hm
    · exact Or.inl ⟨a', by simp [ha], hk⟩
    · rw [GoMap.lookup_insert_if] at hm
      split at hm
      · rename_i he
        cases hm
        exact Or.inl ⟨a, by simp, he.symm, rfl⟩
      · exact Or.inr hm

theorem mem_foldl_insert {A V : Type} (key : A → UUID) (val : A → V) (l : List A)
    (m : GoMap UUID V) (k : UUID) :
    k ∈ l.foldl (fun m a => m.insert (key a) (val a)) m ↔ k ∈ l.map key ∨ k ∈ m := by
  induction l generalizing m with
  | nil => simp
  | cons a l ih =>
    rw [List.foldl_cons, ih, AList.mem_insert, List.map_cons, List.mem_cons]
    tauto

theorem mem_blockByID {p : Pipeline} {id : UUID} {b : PipelineBlock}
    (h : p.blockByID.lookup id = some b) : b ∈ p.blocks ∧ b.id = id := by
  rcases lookup_foldl_insert PipelineBlock.id (fun b => b) p.blocks ∅ id b h with
    ⟨a, ha, hk, rfl⟩ | hm
  · exact ⟨ha, hk⟩
  · simp at hm

theorem unique_of_nodup {p : Pipeline} (hu : p.blockIDs.Nodup) {b c : PipelineBlock}
    (hb : b ∈ p.blocks) (hc : c ∈ p.blocks) (h : b.id = c.id) : b = c :=
  List.inj_on_of_nodup_map hu hb hc h

theorem blockByID_of_mem {p : Pipeline} (hu : p.blockIDs.Nodup) {b : PipelineBlock}
    (hb : b ∈ p.blocks) : p.blockByID.lookup b.id = some b := by
  have hm : b.id ∈ p.blockByID :=
    (mem_foldl_insert PipelineBlock.id (fun b => b) p.blocks ∅ b.id).mpr
      (Or.inl (List.mem_map_of_mem hb))
  obtain ⟨c, hc⟩ := GoMap.lookup_of_mem hm
  obtain ⟨hcm, hci⟩ := mem_blockByID hc
  rw [hc, unique_of_nodup hu hcm hb hci]

theorem checkUnique_nil {bs : List PipelineBlock} {idSet : GoMap UUID Bool}
    (hset : ∀ k ∈ idSet, idSet.lookup k = some true) (h : checkUnique bs idSet = []) :
    (bs.map PipelineBlock.id).Nodup ∧ ∀ b ∈ bs, b.id ∉ idSet := by
  induction bs generalizing idSet with
  | nil => simp
  | cons b bs ih =>
    rw [checkUnique, List.append_eq_nil_iff] at h
    have hb : b.id ∉ idSet := by
      intro hm
      simp [hset b.id hm] at h
    have hset' : ∀ k ∈ idSet.insert b.id true, (idSet.insert b.id true).lookup k = some true := by
      intro k hk
      rw [GoMap.lookup_insert_if]
      split_ifs with he
      · rfl
      · exact hset k ((AList.mem_insert idSet).mp hk |>.resolve_left he)
    obtain ⟨hn, hall⟩ := ih hset' h.2
    constructor
    · rw [List.map_cons, List.nodup_cons]
      refine ⟨?_, hn⟩
      intro hm
      obtain ⟨c, hc, hcb⟩ := List.mem_map.mp hm
      exact hall c hc (by rw [hcb]; simp)
    · intro c hc
      rcases List.mem_cons.mp hc with rfl | hc
      · exact hb
      · exact fun hm => hall c hc ((AList.mem_insert idSet).mpr (Or.inr hm))

theorem mem_depManifests {p : Pipeline} {manifests : Manifests} {b : PipelineBlock} {id : UUID}
    (h : id ∈ depManifests p manifests b) : id ≠ UUID.nil := by
  obtain ⟨next, heq, hnext⟩ : ∃ next, depManifests p manifests b = b.inputs.foldl next ∅ ∧
      ∀ deps r, next deps r = deps ∨
        r.depID ≠ UUID.nil ∧ ∃ m, next deps r = deps.insert r.depID m := by
    refine ⟨_, rfl, fun deps r => ?_⟩
    split
    · exact .inl rfl
    · split
      · exact .inl rfl
      · split
        · exact .inl rfl
        · exact .inr ⟨by assumption, _, rfl⟩
  have key : ∀ (rs : List InputRef) (m : GoMap UUID BlockManifest),
      (∀ k ∈ m, k ≠ UUID.nil) → ∀ k ∈ rs.foldl next m, k ≠ UUID.nil := by
    intro rs
    induction rs with
    | nil => exact fun m hm => hm
    | cons r rs ih =>
      intro m hm
      rw [List.foldl_cons]
      refine ih _ fun k hk => ?_
      obtain hsame | ⟨hnil, mf, hinsert⟩ := hnext m r
      · exact hm k (hsame ▸ hk)
      · rw [hinsert, AList.mem_insert] at hk
        obtain rfl | hk := hk
        · exact hnil
        · exact hm k hk
  rw [heq] at h
  exact key b.inputs ∅ (by simp) id h

/-- The facts about an accepted pipeline that the scheduler relies on. -/
structure Accepted (p : Pipeline) (manifests : Manifests) : Prop where
  nodup : p.blockIDs.Nodup
  known : ∀ b ∈ p.blocks, ∀ r ∈ b.inputs, r.depID ≠ UUID.nil ∧ r.depID ∈ p.blockIDs
  named : ∀ b ∈ p.blocks, b.name ∈ manifests
  graph : ∃ g, buildDependencyGraph p = .ok g ∧ validateMapReduce p manifests g = []

/-- It is the blocks that are accepted. -/
theorem Accepted.congr {p p' : Pipeline} {manifests : Manifests} (h : Accepted p manifests)
    (hb : p'.blocks = p.blocks) : Accepted p' manifests := by
  obtain ⟨id, name, version, description, blocks⟩ := p
  obtain ⟨id', name', version', description', blocks'⟩ := p'
  obtain rfl : blocks' = blocks := hb
  exact ⟨h.nodup, h.known, h.named, h.graph⟩

theorem accepted_of_validate {σ : MapOrder} {p : Pipeline} {manifests : Manifests}
    (h : validatePipeline σ p manifests = []) : Accepted p manifests := by
  unfold validatePipeline at h
  simp only [List.append_eq_nil_iff] at h
  obtain ⟨⟨⟨h₁, h₂⟩, h₃⟩, h₄⟩ := h
  cases hg : buildDependencyGraph p with
  | error e => simp [hg] at h₄
  | ok g =>
    simp only [hg, List.append_eq_nil_iff] at h₄
    obtain ⟨⟨⟨-, h₅⟩, -⟩, h₈⟩ := h₄
    have named : ∀ b ∈ p.blocks, b.name ∈ manifests := by
      intro b hb
      have hx := List.filterMap_eq_nil_iff.mp h₃ b hb
      by_contra hn
      simp [hn] at hx
    refine ⟨(checkUnique_nil (by simp) h₁).1, ?_, named, g, hg, h₈⟩
    intro b hb r hr
    obtain ⟨m, hm⟩ := GoMap.lookup_of_mem (named b hb)
    have hnil : r.depID ≠ UUID.nil := by
      have hx := List.filterMap_eq_nil_iff.mp h₅ b hb
      simp only [hm] at hx
      cases hres : resolveInputs σ b (depManifests p manifests b) m with
      | error e => simp [hres] at hx
      | ok out => exact mem_depManifests (resolveInputs_known hres r hr)
    refine ⟨hnil, ?_⟩
    have hmem : (b.id, r) ∈ p.references :=
      List.mem_flatMap.mpr ⟨b, hb, List.mem_map.mpr ⟨r, hr, rfl⟩⟩
    have hx := List.filterMap_eq_nil_iff.mp h₂ _ hmem
    by_contra hn
    simp [hnil, hn] at hx

/-- The kind of a block of an accepted pipeline. -/
def Pipeline.kind (p : Pipeline) (manifests : Manifests) (id : UUID) : Option BlockKind :=
  kindOf p.blockByID manifests id

theorem kind_mem {p : Pipeline} {manifests : Manifests} {id : UUID} {k : BlockKind}
    (h : p.kind manifests id = some k) : ∃ b ∈ p.blocks, b.id = id ∧
      ∃ m, manifests.lookup b.name = some m ∧ m.kind = k := by
  unfold Pipeline.kind kindOf at h
  cases hb : p.blockByID.lookup id with
  | none => simp [hb] at h
  | some b =>
    obtain ⟨hm, hid⟩ := mem_blockByID hb
    simp only [hb] at h
    cases hmf : manifests.lookup b.name with
    | none => simp [hmf] at h
    | some m =>
      simp only [hmf, Option.some.injEq] at h
      exact ⟨b, hm, hid, m, hmf, h⟩

theorem kind_of_mem {p : Pipeline} {manifests : Manifests} (hu : p.blockIDs.Nodup)
    {b : PipelineBlock} (hb : b ∈ p.blocks) {m : BlockManifest}
    (hm : manifests.lookup b.name = some m) : p.kind manifests b.id = some m.kind := by
  simp only [Pipeline.kind, kindOf, blockByID_of_mem hu hb, hm]

theorem mem_allBlocks {p : Pipeline} {g : DependencyGraph} (h : buildDependencyGraph p = .ok g)
    (id : UUID) : id ∈ g.allBlocks ↔ id ∈ p.blockIDs := by
  rw [(foldl_addEdge h).1, mem_foldl_insert]
  simp [Pipeline.blockIDs]

section
variable {p : Pipeline} {g : DependencyGraph}

theorem forward_edges (h : buildDependencyGraph p = .ok g) {u v : UUID} :
    v ∈ g.forwardOf u ↔ (u, v) ∈ p.edges := by
  rw [mem_forward h, mem_edges]

/-- An edge leads from a block of the pipeline to another one. -/
theorem edges_known (h : buildDependencyGraph p = .ok g) :
    ∀ e ∈ p.edges, e.2 ∈ g.allBlocks := by
  rintro ⟨u, v⟩ he
  obtain ⟨-, b, hb, rfl, -⟩ := mem_edges.mp he
  exact (mem_allBlocks h b.id).mpr (List.mem_map_of_mem hb)

theorem sources_known (h : buildDependencyGraph p = .ok g) : ∀ e ∈ p.edges, e.1 ∈ g.allBlocks := by
  rintro ⟨u, v⟩ he
  obtain ⟨hne, b, hb, -, r, hr, rfl⟩ := mem_edges.mp he
  have hmem : (b.id, r) ∈ p.references :=
    List.mem_flatMap.mpr ⟨b, hb, List.mem_map_of_mem hr⟩
  have key : ∀ (es : List (UUID × InputRef)) (g₀ : DependencyGraph), es.foldlM addEdge g₀ = .ok g →
      (b.id, r) ∈ es → r.depID ∈ g₀.allBlocks := by
    intro es
    induction es with
    | nil => exact fun _ _ hm => (List.not_mem_nil hm).elim
    | cons e es ih =>
      intro g₀ hfold hm
      rw [List.foldlM_cons] at hfold
      cases hadd : addEdge g₀ e with
      | error err =>
        rw [hadd] at hfold
        cases hfold
      | ok g₁ =>
        rw [hadd] at hfold
        rcases List.mem_cons.mp hm with rfl | hm
        · unfold addEdge at hadd
          dsimp only at hadd
          rw [if_neg hne] at hadd
          split_ifs at hadd with hknown
          cases hl : g₀.allBlocks.lookup r.depID with
          | none => simp [hl] at hknown
          | some known => exact GoMap.mem_of_lookup hl
        · rw [← (addEdge_forward hadd).1]
          exact ih g₁ hfold hm
  rw [(foldl_addEdge h).1]
  exact key _ _ h hmem

end

/-- The depth of the searches is enough, whatever they start from. -/
theorem search_reaches {p : Pipeline} {g : DependencyGraph} (hg : buildDependencyGraph p = .ok g)
    {verdict : UUID → DepthFirst.Verdict} {n : ℕ} (hn : g.depth ≤ n) (id : UUID) :
    (DepthFirst.visit g.forwardOf verdict n id []).1 = true ↔
      DepthFirst.Reaches g.forwardOf verdict id := by
  by_cases hid : id ∈ p.blockIDs
  · have hmem : ∀ id ∈ p.blockIDs, id ∈ g.allBlocks.keys.toFinset := fun id hid =>
      List.mem_toFinset.mpr (AList.mem_keys.mp ((mem_allBlocks hg id).mpr hid))
    have hfuel : g.allBlocks.keys.toFinset.card < n := by
      rw [List.toFinset_card_of_nodup g.allBlocks.keys_nodup]
      exact hn
    refine DepthFirst.visit_iff (fun x _ y hy _ => ?_) (hmem id hid) hfuel
    obtain ⟨-, c, hc, rfl, -⟩ := (mem_forward hg).mp hy
    exact hmem c.id (List.mem_map_of_mem hc)
  · have hnone : g.forwardOf id = [] := by
      apply List.eq_nil_iff_forall_not_mem.mpr
      intro v hv
      exact hid ((mem_allBlocks hg id).mp (sources_known hg _ (forward_edges hg |>.mp hv)))
    refine ⟨DepthFirst.visit_sound, ?_⟩
    rintro ⟨y, hpath, z, hz, -⟩
    rcases hpath.cases_head with rfl | ⟨w, hw, -⟩
    · rw [hnone] at hz
      cases hz
    · rw [DepthFirst.Descends, hnone] at hw
      cases hw.1

theorem search_iff {p : Pipeline} {g : DependencyGraph} (hg : buildDependencyGraph p = .ok g)
    {verdict : UUID → DepthFirst.Verdict} (id : UUID) :
    (DepthFirst.visit g.forwardOf verdict g.depth id []).1 = true ↔
      DepthFirst.Reaches g.forwardOf verdict id :=
  search_reaches hg le_rfl id

/-- A block downstream of a map block with no reduce block on the way: it takes part
in the map context. -/
inductive Downstream (p : Pipeline) (manifests : Manifests) (m : UUID) : UUID → Prop where
  | first {b : PipelineBlock} {r : InputRef} {k : BlockKind} (hb : b ∈ p.blocks)
      (hr : r ∈ b.inputs) (hm : r.depID = m) (hk : p.kind manifests b.id = some k)
      (hne : k ≠ .reduce) : Downstream p manifests m b.id
  | next {b : PipelineBlock} {r : InputRef} {k : BlockKind} (hb : b ∈ p.blocks)
      (hr : r ∈ b.inputs) (hd : Downstream p manifests m r.depID)
      (hk : p.kind manifests b.id = some k) (hne : k ≠ .reduce) : Downstream p manifests m b.id

theorem Downstream.kind {p : Pipeline} {manifests : Manifests} {m d : UUID}
    (h : Downstream p manifests m d) : ∃ k, p.kind manifests d = some k ∧ k ≠ .reduce := by
  cases h with
  | first _ _ _ hk hne => exact ⟨_, hk, hne⟩
  | next _ _ _ hk hne => exact ⟨_, hk, hne⟩

theorem Downstream.mem_blockIDs {p : Pipeline} {manifests : Manifests} {m d : UUID}
    (h : Downstream p manifests m d) : d ∈ p.blockIDs := by
  obtain ⟨k, hk, -⟩ := h.kind
  obtain ⟨b, hb, rfl, -⟩ := kind_mem hk
  exact List.mem_map_of_mem hb

/-- A step along an edge that does not end at a reduce block. -/
def Forwards (p : Pipeline) (manifests : Manifests) (g : DependencyGraph) (u v : UUID) : Prop :=
  v ∈ g.forwardOf u ∧ ∃ k, p.kind manifests v = some k ∧ k ≠ .reduce

theorem Downstream.forwards {p : Pipeline} {manifests : Manifests} {g : DependencyGraph}
    (hg : buildDependencyGraph p = .ok g) (hacc : Accepted p manifests) {m d : UUID}
    (h : Downstream p manifests m d) : Relation.TransGen (Forwards p manifests g) m d := by
  have hstep : ∀ {u : UUID} {b : PipelineBlock} {r : InputRef} {k : BlockKind}, b ∈ p.blocks →
      r ∈ b.inputs → r.depID = u → p.kind manifests b.id = some k → k ≠ .reduce →
      Forwards p manifests g u b.id := fun hb hr hu hk hne =>
    ⟨(mem_forward hg).mpr ⟨hu ▸ (hacc.known _ hb _ hr).1, _, hb, rfl, _, hr, hu⟩, _, hk, hne⟩
  induction h with
  | first hb hr hm hk hne => exact .single (hstep hb hr hm hk hne)
  | next hb hr _ hk hne ih => exact ih.tail (hstep hb hr rfl hk hne)

/-- A step along an edge, by the kinds of the blocks that are given: `Forwards` for any blocks. -/
def Inside (g : DependencyGraph) (blocks : GoMap UUID PipelineBlock) (manifests : Manifests)
    (u v : UUID) : Prop :=
  v ∈ g.forwardOf u ∧ ∃ k, kindOf blocks manifests v = some k ∧ k ≠ .reduce

section
variable {blocks : GoMap UUID PipelineBlock} {manifests : Manifests} {g : DependencyGraph} {m : UUID}

theorem nestedVerdict_of_kind {d : UUID} {k : BlockKind} (hd : kindOf blocks manifests d = some k)
    (hne : k ≠ .reduce) : nestedVerdict m blocks manifests d =
      if k = .map ∧ d ≠ m then .found else .descend := by
  unfold nestedVerdict
  rw [hd]
  simp [hne]

theorem kind_of_nestedVerdict {d : UUID} (h : nestedVerdict m blocks manifests d ≠ .skip) :
    ∃ k, kindOf blocks manifests d = some k ∧ k ≠ .reduce := by
  unfold nestedVerdict at h
  split at h
  · exact absurd rfl h
  · rename_i k hk
    refine ⟨k, hk, fun hred => h ?_⟩
    rw [if_pos hred]

/-- The search of `hasNestedMap` gets to every block of a map context that it can reach
without meeting another map block. -/
theorem nested_reaches {d : UUID} (h : Relation.TransGen (Inside g blocks manifests) m d) :
    DepthFirst.Reaches g.forwardOf (nestedVerdict m blocks manifests) m ∨
      Relation.ReflTransGen
        (DepthFirst.Descends g.forwardOf (nestedVerdict m blocks manifests)) m d := by
  have hstep : ∀ {u v : UUID}, Inside g blocks manifests u v →
      Relation.ReflTransGen
        (DepthFirst.Descends g.forwardOf (nestedVerdict m blocks manifests)) m u →
      DepthFirst.Reaches g.forwardOf (nestedVerdict m blocks manifests) m ∨
        Relation.ReflTransGen
          (DepthFirst.Descends g.forwardOf (nestedVerdict m blocks manifests)) m v := by
    rintro u v ⟨hf, k, hk, hne⟩ path
    have hv := nestedVerdict_of_kind (m := m) hk hne
    by_cases hfound : k = .map ∧ v ≠ m
    · exact Or.inl ⟨u, path, v, hf, by rw [hv, if_pos hfound]⟩
    · exact Or.inr (path.tail ⟨hf, by rw [hv, if_neg hfound]⟩)
  induction h with
  | single h => exact hstep h .refl
  | tail _ h ih =>
    rcases ih with ih | ih
    · exact Or.inl ih
    · exact hstep h ih

/-- Another map block is reached exactly where one lies within the context. -/
theorem nested_iff : DepthFirst.Reaches g.forwardOf (nestedVerdict m blocks manifests) m ↔
    ∃ d, d ≠ m ∧ kindOf blocks manifests d = some .map ∧
      Relation.TransGen (Inside g blocks manifests) m d := by
  constructor
  · rintro ⟨u, hpath, d, hd, hfound⟩
    obtain ⟨k, hk, hne⟩ := kind_of_nestedVerdict (m := m) (d := d) (by rw [hfound]; exact nofun)
    rw [nestedVerdict_of_kind hk hne] at hfound
    split_ifs at hfound with hmap
    have hforward : Relation.ReflTransGen (Inside g blocks manifests) m u := by
      refine hpath.lift id fun x y hxy => ⟨hxy.1, kind_of_nestedVerdict (m := m) ?_⟩
      rw [id, hxy.2]
      exact nofun
    exact ⟨d, hmap.2, hmap.1 ▸ hk, .tail' hforward ⟨hd, k, hk, hne⟩⟩
  · rintro ⟨d, hne, hd, h⟩
    rcases nested_reaches h with hr | hpath
    · exact hr
    · cases hpath with
      | refl => exact absurd rfl hne
      | tail hp hstep =>
        refine ⟨_, hp, d, hstep.1, ?_⟩
        rw [nestedVerdict_of_kind hd nofun, if_pos ⟨rfl, hne⟩]

/-- What `hasNestedMap` finds. -/
theorem hasNestedMap_iff {p : Pipeline} (hg : buildDependencyGraph p = .ok g) :
    hasNestedMap m g p.blockByID manifests = true ↔ ∃ d, d ≠ m ∧
      p.kind manifests d = some .map ∧ Relation.TransGen (Forwards p manifests g) m d :=
  (search_iff hg m).trans nested_iff

end

/-- In an accepted pipeline no map block takes part in the context of another one. -/
theorem Accepted.not_nested {p : Pipeline} {manifests : Manifests} (hacc : Accepted p manifests)
    {m d : UUID} (hm : p.kind manifests m = some .map) (hd : p.kind manifests d = some .map)
    (hne : d ≠ m) : ¬ Downstream p manifests m d := by
  intro h
  obtain ⟨g, hg, hval⟩ := hacc.graph
  obtain ⟨b, hb, rfl, mf, hmf, hkind⟩ := kind_mem hm
  have hcheck := List.flatMap_eq_nil_iff.mp hval b hb
  simp only [hmf, hkind, if_true, checkMapBlock, List.append_eq_nil_iff] at hcheck
  have hnot : hasNestedMap b.id g p.blockByID manifests = false := by
    have hlast := hcheck.1.2
    split at hlast
    · cases hlast
    · rename_i hf
      simpa using hf
  have hfound : hasNestedMap b.id g p.blockByID manifests = true :=
    (hasNestedMap_iff hg).mpr ⟨d, hne, hd, h.forwards hg hacc⟩
  rw [hfound] at hnot
  cases hnot

end Spade
