import Spade.Core.Contexts
import Spade.Core.Sorting

set_option autoImplicit false

/-!
# The walk of a map context

`walkMapContext` keeps no set of what it has visited. It ends where the graph has no cycle, and
what it leaves in the context is what is reached (`core/scheduler.go`).
-/
namespace Spade
open BoundedPaths SinglePipelineScheduler

section
variable {p : Pipeline} {manifests : Manifests} {g : DependencyGraph}

/-- What is done with one successor; `walk` is the call for a block in the context. -/
def visitDownstream (blocks : GoMap UUID PipelineBlock) (manifests : Manifests)
    (walk : UUID → MapContext → Option MapContext) (ctx : MapContext) (downstream : UUID) :
    Option MapContext :=
  match kindOf blocks manifests downstream with
  | none => some ctx
  | some k =>
    if k = .reduce then some { ctx with reduceBlockID := downstream }
    else walk downstream { ctx with mappedBlockIDs := ctx.mappedBlockIDs.insert downstream true }

/-- The walk with calls nested less than `n` deep. There is no outcome where they go deeper. -/
def walkMapContextIn (g : DependencyGraph) (blocks : GoMap UUID PipelineBlock)
    (manifests : Manifests) : ℕ → UUID → MapContext → Option MapContext
  | 0, _, _ => none
  | n + 1, id, ctx =>
    (g.forwardOf id).foldlM (visitDownstream blocks manifests (walkMapContextIn g blocks manifests n))
      ctx

/-- A reduce block after the block or after one of its context. -/
def Collects (p : Pipeline) (manifests : Manifests) (g : DependencyGraph) (m r : UUID) : Prop :=
  p.kind manifests r = some .reduce ∧
    ∃ u, Relation.ReflTransGen (Forwards p manifests g) m u ∧ r ∈ g.forwardOf u

/-- The walk from a block ends, at the same context for every depth that is enough, which is the
one that is stored for the block; the context holds what is reached before reduce blocks. -/
def WalkFinds (p : Pipeline) (manifests : Manifests) (g : DependencyGraph) (m : UUID)
    (reduce : UUID → Prop) : Prop :=
  ∃ ctx, (∀ n, g.depth ≤ n →
      walkMapContextIn g p.blockByID manifests n m { mapBlockID := m } = some ctx) ∧
    (registered p manifests).mapContexts.lookup m = some ctx ∧
    (∀ d, d ∈ ctx.mappedBlockIDs ↔ Relation.TransGen (Forwards p manifests g) m d) ∧
    reduce ctx.reduceBlockID

/-! The walk ends. -/

theorem foldlM_ends {C A : Type} {f : C → A → Option C} {l : List A}
    (h : ∀ a ∈ l, ∀ c, ∃ c', f c a = some c') (c : C) : ∃ c', l.foldlM f c = some c' := by
  induction l generalizing c with
  | nil => exact ⟨c, rfl⟩
  | cons a l ih =>
    obtain ⟨c₁, h₁⟩ := h a List.mem_cons_self c
    obtain ⟨c', hc'⟩ := ih (fun b hb => h b (List.mem_cons_of_mem a hb)) c₁
    exact ⟨c', by rw [List.foldlM_cons, h₁]; exact hc'⟩

theorem foldlM_congr {C A : Type} {f : C → A → Option C} (f' : C → A → Option C)
    (h : ∀ c a c', f c a = some c' → f' c a = some c') {l : List A} {c c' : C}
    (hl : l.foldlM f c = some c') : l.foldlM f' c = some c' := by
  induction l generalizing c with
  | nil => exact hl
  | cons a l ih =>
    rw [List.foldlM_cons] at hl ⊢
    obtain ⟨c₁, h₁, hrest⟩ := Option.bind_eq_some_iff.mp hl
    exact Option.bind_eq_some_iff.mpr ⟨c₁, h _ _ _ h₁, ih hrest⟩

theorem forwards_mem (hg : buildDependencyGraph p = .ok g) (u v : UUID)
    (h : Forwards p manifests g u v) : v ∈ g.allBlocks.keys.toFinset := by
  obtain ⟨-, b, hb, rfl, -⟩ := (mem_forward hg).mp h.1
  exact List.mem_toFinset.mpr (AList.mem_keys.mp ((mem_allBlocks hg b.id).mpr
    (List.mem_map_of_mem hb)))

theorem forwards_acyclic (h : g.Acyclic) (u : UUID) :
    ¬Relation.TransGen (Forwards p manifests g) u u :=
  fun hcycle => h u (Relation.TransGen.mono (fun _ _ he => he.1) u u hcycle)

/-- The calls nest at most as deep as there are blocks below. -/
theorem walkMapContextIn_ends (hg : buildDependencyGraph p = .ok g) (hacyclic : g.Acyclic) {n : ℕ}
    {id : UUID}
    (hn : (below (Forwards p manifests g) g.allBlocks.keys.toFinset id).card < n)
    (ctx : MapContext) : ∃ out, walkMapContextIn g p.blockByID manifests n id ctx = some out := by
  induction n generalizing id ctx with
  | zero => exact absurd hn (Nat.not_lt_zero _)
  | succ n ih =>
    refine foldlM_ends (fun y hy c => ?_) ctx
    unfold visitDownstream
    cases hk : kindOf p.blockByID manifests y with
    | none => exact ⟨c, rfl⟩
    | some k =>
      dsimp only
      split_ifs with hreduce
      · exact ⟨_, rfl⟩
      · have hstep : Forwards p manifests g id y := ⟨hy, k, hk, hreduce⟩
        have hless := card_below_lt (forwards_mem hg) (forwards_acyclic hacyclic) hstep
        exact ih (by omega) _

theorem walkMapContextIn_succ {blocks : GoMap UUID PipelineBlock} {n : ℕ} {id : UUID}
    {ctx out : MapContext} (h : walkMapContextIn g blocks manifests n id ctx = some out) :
    walkMapContextIn g blocks manifests (n + 1) id ctx = some out := by
  induction n generalizing id ctx out with
  | zero => cases h
  | succ n ih =>
    refine foldlM_congr _ (fun c y c' hc => ?_) h
    unfold visitDownstream at hc ⊢
    cases hk : kindOf blocks manifests y with
    | none => rwa [hk] at hc
    | some k =>
      rw [hk] at hc
      dsimp only at hc ⊢
      split_ifs at hc ⊢
      · exact hc
      · exact ih hc

/-- The walk that is cut off at a depth is the walk, where it ends within that depth. -/
theorem walkMapContext_of_ends {blocks : GoMap UUID PipelineBlock} {n : ℕ} {id : UUID}
    {ctx out : MapContext} (h : walkMapContextIn g blocks manifests n id ctx = some out) :
    walkMapContext g blocks manifests n id ctx = out := by
  induction n generalizing id ctx out with
  | zero => cases h
  | succ n ih =>
    have hpure := foldlM_congr (fun c y => some (match kindOf blocks manifests y with
      | none => c
      | some k =>
        if k = .reduce then { c with reduceBlockID := y }
        else walkMapContext g blocks manifests n y
          { c with mappedBlockIDs := c.mappedBlockIDs.insert y true })) (fun c y c' hc => ?_) h
    · rw [walkMapContext]
      exact Option.some.inj ((List.foldlM_pure (m := Option)).symm.trans hpure)
    · unfold visitDownstream at hc
      cases hk : kindOf blocks manifests y with
      | none => rwa [hk] at hc
      | some k =>
        rw [hk] at hc
        dsimp only at hc ⊢
        split_ifs at hc ⊢
        · exact hc
        · rw [ih hc]

/-! What the walk leaves. -/

/-- What is found has been added, and of what is collected the last one is kept. -/
structure Leaves (found collected : UUID → Prop) (ctx out : MapContext) : Prop where
  mapped : ∀ d, d ∈ out.mappedBlockIDs ↔ d ∈ ctx.mappedBlockIDs ∨ found d
  reduce : (∀ r, ¬collected r) ∧ out.reduceBlockID = ctx.reduceBlockID ∨
    collected out.reduceBlockID

theorem Leaves.trans {f f' c c' : UUID → Prop} {ctx mid out : MapContext}
    (h : Leaves f c ctx mid) (h' : Leaves f' c' mid out) :
    Leaves (fun d => f d ∨ f' d) (fun r => c r ∨ c' r) ctx out := by
  refine ⟨fun d => by rw [h'.mapped, h.mapped, or_assoc], ?_⟩
  obtain ⟨hnone', heq'⟩ | hlast := h'.reduce
  · rw [heq']
    obtain ⟨hnone, heq⟩ | hlast := h.reduce
    · exact .inl ⟨fun r hr => hr.elim (hnone r) (hnone' r), heq⟩
    · exact .inr (.inl hlast)
  · exact .inr (.inr hlast)

theorem Leaves.congr {f f' c c' : UUID → Prop} {ctx out : MapContext} (h : Leaves f c ctx out)
    (hf : ∀ d, f d ↔ f' d) (hc : ∀ r, c r ↔ c' r) : Leaves f' c' ctx out := by
  obtain rfl : f = f' := funext fun d => propext (hf d)
  obtain rfl : c = c' := funext fun r => propext (hc r)
  exact h

/-- A block in the context. -/
def Inner (p : Pipeline) (manifests : Manifests) (y : UUID) : Prop :=
  ∃ k, p.kind manifests y = some k ∧ k ≠ .reduce

theorem transGen_forwards {id d : UUID} : Relation.TransGen (Forwards p manifests g) id d ↔
    ∃ y ∈ g.forwardOf id, Inner p manifests y ∧
      (y = d ∨ Relation.TransGen (Forwards p manifests g) y d) := by
  rw [Relation.TransGen.head'_iff]
  constructor
  · rintro ⟨y, ⟨hy, hinner⟩, hd⟩
    exact ⟨y, hy, hinner, (Relation.reflTransGen_iff_eq_or_transGen.mp hd).imp_left Eq.symm⟩
  · rintro ⟨y, hy, hinner, hd⟩
    exact ⟨y, ⟨hy, hinner⟩, Relation.reflTransGen_iff_eq_or_transGen.mpr (hd.imp_left Eq.symm)⟩

theorem collects_iff {id r : UUID} : Collects p manifests g id r ↔
    ∃ y ∈ g.forwardOf id, p.kind manifests y = some .reduce ∧ y = r ∨
      Inner p manifests y ∧ Collects p manifests g y r := by
  constructor
  · rintro ⟨hr, u, hu, hmem⟩
    obtain rfl | ⟨y, ⟨hy, hinner⟩, hrest⟩ := Relation.ReflTransGen.cases_head hu
    · exact ⟨r, hmem, .inl ⟨hr, rfl⟩⟩
    · exact ⟨y, hy, .inr ⟨hinner, hr, u, hrest, hmem⟩⟩
  · rintro ⟨y, hy, ⟨hr, rfl⟩ | ⟨hinner, hr, u, hu, hmem⟩⟩
    · exact ⟨hr, id, .refl, hy⟩
    · exact ⟨hr, u, .head ⟨hy, hinner⟩ hu, hmem⟩

/-- One successor, where the call for a block in the context leaves what is after it. -/
theorem leaves_visit {walk : UUID → MapContext → Option MapContext} {y : UUID}
    {ctx out : MapContext}
    (hwalk : ∀ ctx out, walk y ctx = some out →
      Leaves (Relation.TransGen (Forwards p manifests g) y) (Collects p manifests g y) ctx out)
    (h : visitDownstream p.blockByID manifests walk ctx y = some out) :
    Leaves (fun d => Inner p manifests y ∧
        (y = d ∨ Relation.TransGen (Forwards p manifests g) y d))
      (fun r => p.kind manifests y = some .reduce ∧ y = r ∨
        Inner p manifests y ∧ Collects p manifests g y r) ctx out := by
  unfold visitDownstream at h
  cases hk : kindOf p.blockByID manifests y with
  | none =>
    have hkind : p.kind manifests y = none := hk
    rw [hk] at h
    obtain rfl := Option.some.inj h
    exact ⟨by simp [Inner, hkind], .inl ⟨by simp [Inner, hkind], rfl⟩⟩
  | some k =>
    have hkind : p.kind manifests y = some k := hk
    rw [hk] at h
    dsimp only at h
    split_ifs at h with hreduce
    · obtain rfl := Option.some.inj h
      exact ⟨by simp [Inner, hkind, hreduce], .inr (.inl ⟨hreduce ▸ hkind, rfl⟩)⟩
    · have hone : Leaves (y = ·) (fun _ => False) ctx
          { ctx with mappedBlockIDs := ctx.mappedBlockIDs.insert y true } :=
        ⟨fun d => by rw [AList.mem_insert, or_comm, eq_comm], .inl ⟨fun _ h => h, rfl⟩⟩
      have hinner : Inner p manifests y := ⟨k, hkind, hreduce⟩
      refine (hone.trans (hwalk _ _ h)).congr (fun d => ?_) fun r => ?_
      · rw [and_iff_right hinner]
      · simp only [hkind, Option.some.injEq, hreduce, false_and, false_or, hinner, true_and]

theorem leaves_foldlM {walk : UUID → MapContext → Option MapContext}
    (hwalk : ∀ y ctx out, walk y ctx = some out →
      Leaves (Relation.TransGen (Forwards p manifests g) y) (Collects p manifests g y) ctx out)
    {ys : List UUID} {ctx out : MapContext}
    (h : ys.foldlM (visitDownstream p.blockByID manifests walk) ctx = some out) :
    Leaves (fun d => ∃ y ∈ ys, Inner p manifests y ∧
        (y = d ∨ Relation.TransGen (Forwards p manifests g) y d))
      (fun r => ∃ y ∈ ys, p.kind manifests y = some .reduce ∧ y = r ∨
        Inner p manifests y ∧ Collects p manifests g y r) ctx out := by
  induction ys generalizing ctx with
  | nil =>
    obtain rfl := Option.some.inj h
    exact ⟨by simp, .inl ⟨by simp, rfl⟩⟩
  | cons y ys ih =>
    rw [List.foldlM_cons] at h
    obtain ⟨mid, hy, hrest⟩ := Option.bind_eq_some_iff.mp h
    refine ((leaves_visit (hwalk y) hy).trans (ih hrest)).congr (fun d => ?_) fun r => ?_
    · simp only [List.mem_cons, exists_eq_or_imp]
    · simp only [List.mem_cons, exists_eq_or_imp]

/-- A walk that ends has found all that is reached. -/
theorem walkMapContextIn_leaves {n : ℕ} {id : UUID} {ctx out : MapContext}
    (h : walkMapContextIn g p.blockByID manifests n id ctx = some out) :
    Leaves (Relation.TransGen (Forwards p manifests g) id) (Collects p manifests g id) ctx out := by
  induction n generalizing id ctx out with
  | zero => cases h
  | succ n ih =>
    exact (leaves_foldlM (fun _ _ _ hy => ih hy) h).congr (fun _ => transGen_forwards.symm)
      fun _ => collects_iff.symm

theorem walkMapContextIn_depth (hg : buildDependencyGraph p = .ok g) (hacyclic : g.Acyclic)
    (m : UUID) (ctx : MapContext) : ∀ n, g.depth ≤ n →
      walkMapContextIn g p.blockByID manifests n m ctx =
        some (walkMapContext g p.blockByID manifests g.depth m ctx) := by
  have hcard : (below (Forwards p manifests g) g.allBlocks.keys.toFinset m).card < g.depth := by
    refine (card_below_le m).trans_lt (Nat.lt_succ_of_le ?_)
    exact (List.toFinset_card_of_nodup g.allBlocks.keys_nodup).le
  obtain ⟨out, hout⟩ := walkMapContextIn_ends hg hacyclic hcard ctx
  rw [walkMapContext_of_ends hout]
  intro n hn
  induction n, hn using Nat.le_induction with
  | base => exact hout
  | succ n _ ih => exact walkMapContextIn_succ ih

/-- The walk from every map block of a pipeline without cycles ends and finds the context; the
reduce block that is kept tells whether there is one, unless one has the nil UUID for its id. -/
theorem walk_finds (hg : buildDependencyGraph p = .ok g) (hacyclic : g.Acyclic)
    {b : PipelineBlock} (hb : b ∈ p.blocks) {mf : BlockManifest}
    (hmf : manifests.lookup b.name = some mf) (hk : mf.kind = .map) :
    WalkFinds p manifests g b.id fun id => p.kind manifests UUID.nil ≠ some .reduce →
      (id = UUID.nil ↔ ∀ r, ¬Collects p manifests g b.id r) := by
  have hends : ∀ n, g.depth ≤ n → walkMapContextIn g p.blockByID manifests n b.id _ =
      some (walkMapContext g p.blockByID manifests g.depth b.id { mapBlockID := b.id }) :=
    walkMapContextIn_depth hg hacyclic b.id { mapBlockID := b.id }
  have hleaves := walkMapContextIn_leaves (hends g.depth le_rfl)
  refine ⟨_, hends, context_of_block hg hb hmf hk, fun d => ?_, fun hnil => ?_⟩
  · rw [hleaves.mapped]
    exact or_iff_right (AList.notMem_empty d)
  · obtain ⟨hnone, heq⟩ | hlast := hleaves.reduce
    · exact iff_of_true heq hnone
    · refine iff_of_false (fun heq => hnil ?_) fun h => h _ hlast
      rw [← heq]
      exact hlast.1

end

/-- Blocks that are listed after what they read from make no cycle. -/
theorem acyclic_of_listed {p : Pipeline} {g : DependencyGraph} (hg : buildDependencyGraph p = .ok g)
    (h : (p.edges.all fun e => p.blockIDs.idxOf e.1 < p.blockIDs.idxOf e.2) = true) :
    g.Acyclic := by
  let rank : UUID → ℕ := fun id => p.blockIDs.idxOf id
  have hrank : ∀ e ∈ p.edges, rank e.1 < rank e.2 := fun e he =>
    of_decide_eq_true (List.all_eq_true.mp h e he)
  exact (acyclic_iff_edges hg).mpr fun _ hcycle => lt_irrefl _ (Kahn.rank_lt hrank hcycle)

open Samples

theorem walk_finds_mapped : ∃ g, buildDependencyGraph mapped = .ok g ∧
    WalkFinds mapped manifests g (blockID 2) fun id =>
      mapped.kind manifests UUID.nil ≠ some .reduce →
        (id = UUID.nil ↔ ∀ r, ¬Collects mapped manifests g (blockID 2) r) := by
  obtain ⟨g, hg⟩ : ∃ g, buildDependencyGraph mapped = .ok g := ⟨_, rfl⟩
  exact ⟨g, hg, walk_finds hg (acyclic_of_listed hg (by decide)) (b := block "split" 2 [1])
    (List.mem_cons_of_mem _ List.mem_cons_self) rfl rfl⟩

/-- The reduce block of a map block, with the nil UUID for its id. -/
def nilReduce : Pipeline := pipeline 21 [block "source" 1 [], block "split" 2 [1],
  { id := UUID.nil, name := "merge", inputs := [{ id := blockID 2 }] }]

theorem walk_finds_fails : ∃ g, buildDependencyGraph nilReduce = .ok g ∧ g.Acyclic ∧
    ¬WalkFinds nilReduce manifests g (blockID 2) fun id =>
      (id = UUID.nil ↔ ∀ r, ¬Collects nilReduce manifests g (blockID 2) r) := by
  obtain ⟨g, hg⟩ : ∃ g, buildDependencyGraph nilReduce = .ok g := ⟨_, rfl⟩
  refine ⟨g, hg, acyclic_of_listed hg (by decide), ?_⟩
  rintro ⟨ctx, -, hctx, -, hiff⟩
  have hnil : ∀ e ∈ (registered nilReduce manifests).mapContexts.items,
      e.2.reduceBlockID = UUID.nil := by decide
  have hnone := hiff.mp (hnil _ ((GoMap.mem_items _ _ _).mpr hctx))
  refine hnone UUID.nil ⟨by decide, blockID 2, .refl, (mem_forward hg).mpr ⟨by decide, ?_⟩⟩
  decide

end Spade
