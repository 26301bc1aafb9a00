import Spade.Core.SchedulerSteps
import Spade.Lib.BoundedPaths

set_option autoImplicit false

/-!
# The map contexts of a registered pipeline

`IdentifyMapContexts` finds for every map block the blocks downstream of it up to
the next reduce blocks, all of them and no others.
-/
namespace Spade
open BoundedPaths SinglePipelineScheduler

/-- `v` takes an input from `u` and is no reduce block. -/
def Feeds (p : Pipeline) (manifests : Manifests) (u v : UUID) : Prop :=
  ∃ b ∈ p.blocks, b.id = v ∧ (∃ r ∈ b.inputs, r.depID = u) ∧
    ∃ k, p.kind manifests v = some k ∧ k ≠ .reduce

theorem downstream_iff {p : Pipeline} {manifests : Manifests} {m d : UUID} :
    Downstream p manifests m d ↔ Relation.TransGen (Feeds p manifests) m d := by
  constructor
  · intro h
    induction h with
    | first hb hr hm hk hne => exact .single ⟨_, hb, rfl, ⟨_, hr, hm⟩, _, hk, hne⟩
    | next hb hr _ hk hne ih => exact ih.tail ⟨_, hb, rfl, ⟨_, hr, rfl⟩, _, hk, hne⟩
  · intro h
    induction h with
    | single h =>
      obtain ⟨b, hb, rfl, ⟨r, hr, hm⟩, k, hk, hne⟩ := h
      exact .first hb hr hm hk hne
    | tail _ h ih =>
      obtain ⟨b, hb, rfl, ⟨r, hr, rfl⟩, k, hk, hne⟩ := h
      exact .next hb hr ih hk hne

section
variable {p : Pipeline} {manifests : Manifests} {g : DependencyGraph}

/-- What a walk has added to a context. -/
structure Walked (p : Pipeline) (manifests : Manifests) (found : UUID → Prop)
    (ctx out : MapContext) : Prop where
  mapped : ∀ d, d ∈ out.mappedBlockIDs ↔ d ∈ ctx.mappedBlockIDs ∨ found d
  reduce : out.reduceBlockID = ctx.reduceBlockID ∨ p.kind manifests out.reduceBlockID = some .reduce
  items : out.expansionItems = ctx.expansionItems

theorem Walked.trans {f f' : UUID → Prop} {c c' c'' : MapContext}
    (h : Walked p manifests f c c') (h' : Walked p manifests f' c' c'') :
    Walked p manifests (fun d => f d ∨ f' d) c c'' := by
  refine ⟨fun d => ?_, ?_, h'.items.trans h.items⟩
  · rw [h'.mapped, h.mapped, or_assoc]
  · rcases h'.reduce with hr | hr
    · rw [hr]
      exact h.reduce
    · exact Or.inr hr

theorem Walked.congr {f f' : UUID → Prop} {c c' : MapContext} (h : Walked p manifests f c c')
    (hf : ∀ d, f d ↔ f' d) : Walked p manifests f' c c' :=
  ⟨fun d => by rw [h.mapped, hf], h.reduce, h.items⟩

theorem walkMapContext_spec (n : ℕ) (id : UUID) (ctx : MapContext) :
    Walked p manifests (Steps (Forwards p manifests g) n id) ctx
      (walkMapContext g p.blockByID manifests n id ctx) := by
  induction n generalizing id ctx with
  | zero => exact ⟨by simp [walkMapContext, Steps], Or.inl rfl, rfl⟩
  | succ n ih =>
    obtain ⟨visit, heq, hnone, hreduce, hother⟩ : ∃ visit : MapContext → UUID → MapContext,
        walkMapContext g p.blockByID manifests (n + 1) id ctx = (g.forwardOf id).foldl visit ctx ∧
        (∀ ctx y, p.kind manifests y = none → visit ctx y = ctx) ∧
        (∀ ctx y, p.kind manifests y = some .reduce →
          visit ctx y = { ctx with reduceBlockID := y }) ∧
        ∀ ctx y k, p.kind manifests y = some k → k ≠ .reduce → visit ctx y =
          walkMapContext g p.blockByID manifests n y
            { ctx with mappedBlockIDs := ctx.mappedBlockIDs.insert y true } := by
      refine ⟨_, rfl, fun ctx y hk => ?_, fun ctx y hk => ?_, fun ctx y k hk hred => ?_⟩
      all_goals
        change kindOf p.blockByID manifests y = _ at hk
        simp only [hk]
      · exact if_pos trivial
      · exact if_neg hred
    have key : ∀ (ys : List UUID) (ctx : MapContext), Walked p manifests
        (fun d => ∃ y ∈ ys, (∃ k, p.kind manifests y = some k ∧ k ≠ .reduce) ∧
          (y = d ∨ Steps (Forwards p manifests g) n y d)) ctx (ys.foldl visit ctx) := by
      intro ys
      induction ys with
      | nil => exact fun ctx => ⟨by simp, Or.inl rfl, rfl⟩
      | cons y ys ihy =>
        intro ctx
        rw [List.foldl_cons]
        cases hkind : p.kind manifests y with
        | none =>
          rw [hnone ctx y hkind]
          refine (ihy ctx).congr fun d => ?_
          simp [hkind]
        | some k =>
          by_cases hred : k = .reduce
          · rw [hred] at hkind
            rw [hreduce ctx y hkind]
            have h₀ : Walked p manifests (fun _ => False) ctx { ctx with reduceBlockID := y } :=
              ⟨by simp, Or.inr hkind, rfl⟩
            refine (h₀.trans (ihy _)).congr fun d => ?_
            simp [hkind]
          · rw [hother ctx y k hkind hred]
            have h₀ : Walked p manifests (· = y) ctx
                { ctx with mappedBlockIDs := ctx.mappedBlockIDs.insert y true } :=
              ⟨fun d => by rw [AList.mem_insert, or_comm], Or.inl rfl, rfl⟩
            refine ((h₀.trans (ih y _)).trans (ihy _)).congr fun d => ?_
            simp [hkind, hred, eq_comm]
    rw [heq]
    refine (key (g.forwardOf id) ctx).congr fun d => ?_
    simp only [Steps, Forwards, and_assoc]

/-- The depth of the walks is enough. -/
theorem steps_depth (hg : buildDependencyGraph p = .ok g) (m d : UUID) :
    Steps (Forwards p manifests g) g.depth m d ↔
      Relation.TransGen (Forwards p manifests g) m d := by
  refine ⟨Steps.transGen, fun h => ?_⟩
  obtain ⟨n, hn⟩ := steps_of_transGen h
  have hU : ∀ x y, Forwards p manifests g x y → y ∈ g.allBlocks.keys.toFinset := by
    rintro x y ⟨hf, -⟩
    obtain ⟨-, b, hb, rfl, -⟩ := (mem_forward hg).mp hf
    exact List.mem_toFinset.mpr (AList.mem_keys.mp ((mem_allBlocks hg b.id).mpr
      (List.mem_map_of_mem hb)))
  have hcard := steps_card hU hn
  rw [List.toFinset_card_of_nodup g.allBlocks.keys_nodup] at hcard
  exact hcard.mono

theorem mapped_iff_downstream (hg : buildDependencyGraph p = .ok g) (hacc : Accepted p manifests)
    (m d : UUID) : Steps (Forwards p manifests g) g.depth m d ↔ Downstream p manifests m d := by
  rw [steps_depth hg, downstream_iff]
  have hsame : Forwards p manifests g = Feeds p manifests := by
    funext u v
    refine propext ⟨?_, ?_⟩
    · rintro ⟨hf, hk⟩
      obtain ⟨-, b, hb, hv, hr⟩ := (mem_forward hg).mp hf
      exact ⟨b, hb, hv, hr, hk⟩
    · rintro ⟨b, hb, hv, ⟨r, hr, hu⟩, hk⟩
      exact ⟨(mem_forward hg).mpr ⟨hu ▸ (hacc.known b hb r hr).1, b, hb, hv, r, hr, hu⟩, hk⟩
  rw [hsame]

theorem foldl_contexts (manifests : Manifests) (f : UUID → MapContext) (l : List PipelineBlock)
    (acc : GoMap UUID MapContext) (m : UUID) (ctx : MapContext) :
    (l.foldl (fun contexts b =>
      match manifests.lookup b.name with
      | none => contexts
      | some mf => if mf.kind = .map then contexts.insert b.id (f b.id) else contexts)
      acc).lookup m = some ctx ↔
    ((∃ b ∈ l, b.id = m ∧ ∃ mf, manifests.lookup b.name = some mf ∧ mf.kind = .map) ∧ ctx = f m) ∨
    ((¬ ∃ b ∈ l, b.id = m ∧ ∃ mf, manifests.lookup b.name = some mf ∧ mf.kind = .map) ∧
      acc.lookup m = some ctx) := by
  induction l generalizing acc with
  | nil => simp
  | cons b l ih =>
    rw [List.foldl_cons, ih]
    simp only [List.mem_cons, exists_eq_or_imp]
    cases hm : manifests.lookup b.name with
    | none => simp
    | some mf =>
      by_cases hk : mf.kind = .map
      · simp only [hk, if_true, GoMap.lookup_insert_if, Option.some.injEq, exists_eq_left',
          and_true]
        by_cases hid : m = b.id
        · simp only [hid, if_true, true_or, not_true, false_and, or_false, true_and,
            Option.some.injEq]
          constructor
          · rintro (⟨-, h⟩ | ⟨-, h⟩)
            · exact h
            · exact h.symm
          · intro h
            by_cases hl : ∃ c ∈ l, c.id = b.id ∧
                ∃ mf, manifests.lookup c.name = some mf ∧ mf.kind = .map
            · exact Or.inl ⟨hl, h⟩
            · exact Or.inr ⟨hl, h.symm⟩
        · simp only [hid, Ne.symm hid, if_false, false_or]
      · simp [hk]

/-- A pipeline as `SubmitPipeline` registers it with the scheduler. -/
def registered (p : Pipeline) (manifests : Manifests) : SinglePipelineScheduler :=
  { newSchedulerForPipeline p with manifests := some manifests }.identifyMapContexts

/-- The queues of a pipeline that has just been registered. -/
theorem registered_queues (manifests : Manifests) (hg : buildDependencyGraph p = .ok g) :
    (registered p manifests).pipeline = p ∧ (registered p manifests).cancelled = false ∧
    (registered p manifests).completedBlocks = ∅ ∧
    (registered p manifests).manifests = some manifests ∧ (registered p manifests).graph = g ∧
    (registered p manifests).executableBlocks =
      (p.blocks.filter fun b => b.inputs.isEmpty).map (fun b => b.invocation p.id none) ∧
    (∀ k inv, (registered p manifests).pendingBlocks.lookup k = some inv →
      ∃ b ∈ p.blocks, b.inputs ≠ [] ∧ b.id = k ∧ inv = b.invocation p.id none) ∧
    ∀ b ∈ p.blocks, b.inputs ≠ [] → b.id ∈ (registered p manifests).pendingBlocks := by
  let fresh : SinglePipelineScheduler := { pipeline := p, graph := g }
  obtain ⟨pending, heq, hl, hm⟩ := foldl_addBlock p.blocks fresh
  have hnew : newSchedulerForPipeline p = { fresh with
      executableBlocks := (p.blocks.filter fun b => b.inputs.isEmpty).map
        fun b => b.invocation p.id none
      pendingBlocks := pending } := by
    unfold newSchedulerForPipeline SinglePipelineScheduler.addPipeline
    simp only [hg]
    exact heq
  unfold registered
  rw [hnew]
  refine ⟨rfl, rfl, rfl, rfl, rfl, rfl, ?_, hm⟩
  intro k inv h
  rcases hl k inv h with h | h
  · simp [fresh] at h
  · exact h

theorem registered_contexts (hg : buildDependencyGraph p = .ok g) :
    (registered p manifests).mapContexts = p.blocks.foldl (fun contexts b =>
      match manifests.lookup b.name with
      | none => contexts
      | some mf => if mf.kind = .map then contexts.insert b.id
          (walkMapContext g p.blockByID manifests g.depth b.id { mapBlockID := b.id })
        else contexts) ∅ := by
  have hs : (registered p manifests).graph = g := (registered_queues manifests hg).2.2.2.2.1
  have hp : (registered p manifests).pipeline = p := (registered_queues manifests hg).1
  have hwalk : ∀ s : SinglePipelineScheduler, s.manifests = some manifests → s.graph = g →
      s.pipeline = p → s.identifyMapContexts.mapContexts = p.blocks.foldl (fun contexts b =>
        match manifests.lookup b.name with
        | none => contexts
        | some mf => if mf.kind = .map then contexts.insert b.id
            (walkMapContext g p.blockByID manifests g.depth b.id { mapBlockID := b.id })
          else contexts) ∅ := by
    rintro s hm rfl rfl
    unfold SinglePipelineScheduler.identifyMapContexts
    rw [hm]
    rfl
  exact hwalk _ rfl hs hp

/-- The context of a block that is a map block by its own name. -/
theorem context_of_block (hg : buildDependencyGraph p = .ok g) {b : PipelineBlock}
    (hb : b ∈ p.blocks) {mf : BlockManifest} (hmf : manifests.lookup b.name = some mf)
    (hk : mf.kind = .map) : (registered p manifests).mapContexts.lookup b.id =
      some (walkMapContext g p.blockByID manifests g.depth b.id { mapBlockID := b.id }) := by
  rw [registered_contexts hg]
  exact (foldl_contexts manifests (fun id => walkMapContext g p.blockByID manifests g.depth id
    { mapBlockID := id }) p.blocks ∅ b.id _).mpr (.inl ⟨⟨b, hb, rfl, mf, hmf, hk⟩, rfl⟩)

theorem registered_context (hg : buildDependencyGraph p = .ok g) (hnodup : p.blockIDs.Nodup)
    (m : UUID) (ctx : MapContext) :
    (registered p manifests).mapContexts.lookup m = some ctx ↔
      p.kind manifests m = some .map ∧
        ctx = walkMapContext g p.blockByID manifests g.depth m { mapBlockID := m } := by
  have hkind : p.kind manifests m = some .map ↔
      ∃ b ∈ p.blocks, b.id = m ∧ ∃ mf, manifests.lookup b.name = some mf ∧ mf.kind = .map := by
    constructor
    · exact kind_mem
    · rintro ⟨b, hb, rfl, mf, hmf, hk⟩
      rw [kind_of_mem hnodup hb hmf, hk]
  have hfold := foldl_contexts manifests
    (fun id => walkMapContext g p.blockByID manifests g.depth id { mapBlockID := id })
    p.blocks ∅ m ctx
  rw [← hkind] at hfold
  rw [registered_contexts hg, hfold]
  simp

/-- What `IdentifyMapContexts` puts into the context of a map block. -/
theorem context_spec (hacc : Accepted p manifests) {m : UUID} {ctx : MapContext}
    (h : (registered p manifests).mapContexts.lookup m = some ctx) :
    p.kind manifests m = some .map ∧
    (∀ d, d ∈ ctx.mappedBlockIDs ↔ Downstream p manifests m d) ∧
    (ctx.reduceBlockID = UUID.nil ∨ p.kind manifests ctx.reduceBlockID = some .reduce) ∧
    ctx.expansionItems = [] := by
  obtain ⟨g, hg, -⟩ := hacc.graph
  obtain ⟨hk, rfl⟩ := (registered_context hg hacc.nodup m ctx).mp h
  have hw : Walked p manifests (Steps (Forwards p manifests g) g.depth m) { mapBlockID := m }
    (walkMapContext g p.blockByID manifests g.depth m { mapBlockID := m }) :=
    walkMapContext_spec g.depth m { mapBlockID := m }
  refine ⟨hk, fun d => ?_, hw.reduce, hw.items⟩
  rw [hw.mapped, mapped_iff_downstream hg hacc]
  simp

theorem context_of_map (hacc : Accepted p manifests) {m : UUID}
    (h : p.kind manifests m = some .map) :
    ∃ ctx, (registered p manifests).mapContexts.lookup m = some ctx := by
  obtain ⟨g, hg, -⟩ := hacc.graph
  exact ⟨_, (registered_context hg hacc.nodup m _).mpr ⟨h, rfl⟩⟩

end
end Spade
