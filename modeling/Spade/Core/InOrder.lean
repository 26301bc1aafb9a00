import Spade.Core.Turns

set_option autoImplicit false

/-!
# The execution loop keeps the order of mapped blocks

All invocations of a block become executable at the same time, behind everything that
was executable before. Nothing in the queue depends on a block behind it, so the loop
has run all invocations of a block before it comes to one that reads it.
-/
namespace Spade
open UUIDPackage SinglePipelineScheduler

/-- Every block lies in one map context at most. -/
def SingleContext (p : Pipeline) (manifests : Manifests) : Prop :=
  ∀ m m' d, p.kind manifests m = some .map → p.kind manifests m' = some .map →
    Downstream p manifests m d → Downstream p manifests m' d → m = m'

namespace Trace

/-- `Update` was called for the invocation of the block with that index. -/
def Updated (t : Trace) (id : UUID) (i : ℕ) : Prop :=
  ∃ e ∈ t.reported, e.1.id = id ∧ e.1.mapIndex = some (i : Int)

/-- What `inv` reads of mapped blocks is there: the invocation with the same index within the
context, all of them outside. -/
structure InOrder (p : Pipeline) (manifests : Manifests) (t : Trace) (inv : BlockInvocation) :
    Prop where
  within : ∀ m, p.kind manifests m = some .map → Downstream p manifests m inv.id →
    ∀ i : ℕ, inv.mapIndex = some (i : Int) → ∀ ref ∈ inv.inputs,
      Downstream p manifests m ref.depID → t.Updated ref.depID i
  outside : ∀ m n, FannedOut p manifests t m n → ¬Downstream p manifests m inv.id →
    ∀ ref ∈ inv.inputs, Downstream p manifests m ref.depID → ∀ i < n, t.Updated ref.depID i

/-- What `Next` hands out is in order. -/
def NextInOrder (p : Pipeline) (manifests : Manifests) (t : Trace) : Call → Prop
  | .next => ∀ inv ∈ t.sched.executableBlocks.head?, InOrder p manifests t inv
  | _ => True

section
variable [UUIDPackage] {p : Pipeline} {manifests : Manifests} {t : Trace} {N : ℕ}

structure InLine (p : Pipeline) (manifests : Manifests) (N : ℕ) (t : Trace) : Prop where
  head : AtHead p manifests N t
  single : Single t.handedOut t.sched
  order : (t.handedOut ++ t.sched.executableBlocks).Pairwise
    fun a b => ∀ ref ∈ a.inputs, ref.depID ≠ b.id
  made : ∀ m n, FannedOut p manifests t m n → ∀ b ∈ p.blocks, Downstream p manifests m b.id →
    ∀ i < n, t.Holds (b.invocation p.id (some (i : Int)))
  expanded : ∀ m n, FannedOut p manifests t m n → m ∈ t.sched.completedBlocks

/-- What is held of a block that the first executable one reads has a result. -/
theorem InLine.updated (hacc : Accepted p manifests) {rank : UUID → ℕ}
    (hrank : ∀ b ∈ p.blocks, ∀ ref ∈ b.inputs, rank ref.depID < rank b.id)
    (h : InLine p manifests N t) {inv : BlockInvocation} {rest : List BlockInvocation}
    (he : t.sched.executableBlocks = inv :: rest) {ref : InputRef} (href : ref ∈ inv.inputs)
    {i : BlockInvocation} (hi : t.Holds i) (hid : i.id = ref.depID) :
    ∃ e ∈ t.reported, e.1 = i := by
  have hmem : inv ∈ t.sched.executableBlocks := by
    rw [he]
    exact List.mem_cons_self
  obtain ⟨b, hb, heq⟩ := h.head.stocked.invariant.causal.made inv (Or.inl hmem)
  have hrefb : ref ∈ b.inputs := by
    rw [heq] at href
    exact href
  have hdone : ref.depID ∈ t.sched.completedBlocks :=
    depsCompleted_iff.mp (h.head.ready inv (Or.inl hmem)) ref href (hacc.known b hb ref hrefb).1
  rcases hi with hi | hi | ⟨k, hk⟩
  · rw [he] at hi
    rcases List.mem_cons.mp hi with rfl | hi
    · have hlt := hrank b hb ref hrefb
      rw [← hid, heq] at hlt
      exact absurd hlt (lt_irrefl _)
    · have hord := (List.pairwise_append.mp h.order).2.1
      rw [he] at hord
      exact absurd hid.symm ((List.pairwise_cons.mp hord).1 i hi ref href)
  · exact h.head.done i hi
  · obtain ⟨j, hj, hjd⟩ := h.head.stocked.invariant.causal.completed_released hdone
    exact absurd (hid.trans hjd.symm) (h.head.apart hacc hk hj)

theorem InLine.inOrder (hacc : Accepted p manifests) (hone : SingleContext p manifests)
    {rank : UUID → ℕ} (hrank : ∀ b ∈ p.blocks, ∀ ref ∈ b.inputs, rank ref.depID < rank b.id)
    (h : InLine p manifests N t) : NextInOrder p manifests t .next := by
  intro inv hhead
  obtain ⟨rest, he⟩ := List.head?_eq_some_iff.mp hhead
  have hmem : inv ∈ t.sched.executableBlocks := by
    rw [he]
    exact List.mem_cons_self
  have column : ∀ m n, FannedOut p manifests t m n → ∀ ref ∈ inv.inputs,
      Downstream p manifests m ref.depID → ∀ i < n, t.Updated ref.depID i := by
    intro m n hf ref href hd i hi
    obtain ⟨b, hb, hid⟩ := List.mem_map.mp hd.mem_blockIDs
    obtain ⟨e, hm, hei⟩ := h.updated hacc hrank he href (h.made m n hf b hb (hid ▸ hd) i hi) hid
    exact ⟨e, hm, by rw [hei]; exact hid, by rw [hei]; rfl⟩
  refine ⟨fun m hk hm i hi ref href hd => ?_, fun m n hf _ ref href hd => column m n hf ref href hd⟩
  rcases h.head.stocked.invariant.indexing.indexed inv (Or.inl hmem) with
    hn | ⟨m', n, j, hj, hlt, hf, hd'⟩
  · rw [hn] at hi
    cases hi
  · have hmm : m' = m := hone m' m inv.id hf.1 hk hd' hm
    have hij : i = j := by
      rw [hj, Option.some.injEq, Nat.cast_inj] at hi
      exact hi.symm
    rw [hmm] at hf
    exact column m n hf ref href hd i (hij ▸ hlt)

/-- The expansions of other map blocks put no copies of the mapped blocks of `inv`. -/
theorem InLine.spreadsOnce (hacc : Accepted p manifests) (hkeys : KeysApart p)
    (hdist : DistinctKeys p N) (hone : SingleContext p manifests) (h : InLine p manifests N t)
    {inv : BlockInvocation} {rest : List BlockInvocation}
    (he : t.sched.executableBlocks = inv :: rest) {result : BlockInvocationResult}
    (hid : result.id = inv.id) (hlen : result.items.length ≤ N) :
    (t.taken [inv] rest).sched.SpreadsOnce result := by
  intro ctx hctx b hb hm _ i hi hk
  have hc := h.head.stocked.invariant.causal
  have hmem : inv ∈ t.sched.executableBlocks := by
    rw [he]
    exact List.mem_cons_self
  have hb' : b ∈ p.blocks := hc.pipeline ▸ hb
  obtain ⟨hkind, hmapped, -⟩ := hc.contexts _ _ hctx
  have hof : (b.invocation p.id (some (i : Int))).Of p N := ⟨b, hb', Or.inr ⟨i, by omega, rfl⟩⟩
  have hl := h.head.stocked.invariant.pending_key hacc hkeys hdist h.head.stocked.bounded hof hk
  rcases h.head.stocked.invariant.indexing.indexed _ (Or.inr (Or.inr ⟨_, hl⟩)) with
    hn | ⟨m, n, _, -, -, hf, hd⟩
  · cases hn
  · have hmr : m = result.id := hone m result.id b.id hf.1 hkind hd ((hmapped b.id).mp hm)
    have hcomp := h.expanded m n hf
    rw [hmr, hid] at hcomp
    rw [hid] at hkind
    exact h.head.fresh inv hmem
      (unindexed hacc hc h.head.stocked.invariant.indexing (Or.inl hmem) hkind) hcomp

/-- What an update without a `Reduce` or an error adds to the queue was pending or is made by
the expansion. -/
theorem Invariant.update_new (hacc : Accepted p manifests) (hkeys : KeysApart p)
    (h : Invariant p manifests t) (σ : MapOrder) {result : BlockInvocationResult}
    (hst : result.status = .complete ∨ result.status = .map) {i : BlockInvocation}
    (hi : i ∈ (t.sched.update σ result).executableBlocks) : i ∈ t.sched.executableBlocks ∨
      (∃ k, t.sched.pendingBlocks.lookup k = some i) ∨
      p.kind manifests result.id = some .map ∧ Downstream p manifests result.id i.id := by
  have promoted : ∀ (s : SinglePipelineScheduler), i ∈ (s.promoteReady σ).executableBlocks →
      i ∈ s.executableBlocks ∨ ∃ k, s.pendingBlocks.lookup k = some i := by
    intro s hi
    obtain ⟨-, -, -, -, hexec, -⟩ := promoteReady_spec σ s
    exact ((hexec i).mp hi).imp_right fun ⟨k, hk, _⟩ => ⟨k, hk⟩
  rcases hst with hcomp | hmap
  · rw [update_complete σ _ hcomp] at hi
    exact (promoted _ hi).imp_right Or.inl
  · rw [update_map σ _ hmap] at hi
    have hq := promoted _ hi
    by_cases hskip : result.items = [] ∨ t.sched.mapContexts.lookup result.id = none
    · rw [handleMap_skip σ hskip] at hq
      exact hq.imp_right Or.inl
    · obtain ⟨hne, hctx⟩ := not_or.mp hskip
      obtain ⟨ctx, hctx⟩ := Option.ne_none_iff_exists'.mp hctx
      obtain ⟨hkind, hmapped, -⟩ := h.causal.contexts _ _ hctx
      obtain ⟨ids, hin, hspread⟩ := handleMap_spread hacc.nodup hkeys σ h.causal.pipeline
        (h.indexing.based hacc hkeys h.causal) hne hctx
        fun id hm => ((hmapped id).mp hm).mem_blockIDs
      have hdown : ∀ b : PipelineBlock, b.id ∈ ids → Downstream p manifests result.id b.id :=
        fun b hb => (hmapped b.id).mp ((hin b.id).mp hb)
      rcases hq with hq | ⟨k, hk⟩
      · rcases hspread.executable i hq with hq | ⟨-, b, -, hb, j, -, rfl⟩
        · exact Or.inl hq
        · exact Or.inr (Or.inr ⟨hkind, hdown b hb⟩)
      · rcases hspread.pending k i hk with ⟨hk, -⟩ | ⟨b, -, hb, j, -, -, rfl⟩
        · exact Or.inr (Or.inl ⟨k, hk⟩)
        · exact Or.inr (Or.inr ⟨hkind, hdown b hb⟩)

/-- A block that enters the queue in a turn is not completed by then. -/
theorem InLine.new_block (hacc : Accepted p manifests) (hkeys : KeysApart p)
    (h : InLine p manifests N t) (σ : MapOrder) {inv : BlockInvocation}
    {rest : List BlockInvocation} (he : t.sched.executableBlocks = inv :: rest)
    {result : BlockInvocationResult} (hid : result.id = inv.id)
    (hst : result.status = .complete ∨ result.status = .map) {i : BlockInvocation}
    (hi : i ∈ ((t.taken [inv] rest).sched.update σ result).executableBlocks) (hnew : i ∉ rest) :
    i.id ∉ ((t.taken [inv] rest).sched.update σ result).completedBlocks := by
  have hfront : t.sched.executableBlocks = [inv] ++ rest := he
  have hc := h.head.stocked.invariant.causal
  have hmem : inv ∈ t.sched.executableBlocks := by
    rw [he]
    exact List.mem_cons_self
  have hnone : ∀ b, t.Released b → b.id ≠ i.id := by
    intro b hb hbi
    have hsplit := (h.head.stocked.invariant.taken hfront).update_new hacc hkeys σ hst hi
    rcases hsplit with hq | ⟨k, hk⟩ | ⟨hkind, hd⟩
    · exact hnew hq
    · exact h.head.apart hacc hk hb hbi.symm
    · have hcomp := hc.upstream hacc hd b hb hbi
      rw [hid] at hkind hcomp
      exact h.head.fresh inv hmem
        (unindexed hacc hc h.head.stocked.invariant.indexing (Or.inl hmem) hkind) hcomp
  intro hcomp
  rcases (completed_update σ _ result _).mp hcomp with hcomp | ⟨hir, -⟩
  · obtain ⟨b, hb, hbi⟩ := hc.completed_released hcomp
    exact hnone b hb hbi
  · exact hnone inv (Or.inl hmem) (by rw [← hid, hir])

theorem InLine.turn (hacc : Accepted p manifests) (hkeys : KeysApart p) (hdist : DistinctKeys p N)
    (hone : SingleContext p manifests) (h : InLine p manifests N t) (σ : MapOrder)
    {inv : BlockInvocation} {rest : List BlockInvocation}
    (he : t.sched.executableBlocks = inv :: rest) {result : BlockInvocationResult}
    (hid : result.id = inv.id) (hst : result.status = .complete ∨ result.status = .map)
    (hlen : result.items.length ≤ N) :
    InLine p manifests N ((t.taken [inv] rest).report σ inv result) := by
  have hfront : t.sched.executableBlocks = [inv] ++ rest := he
  have hmem : inv ∈ t.sched.executableBlocks := by
    rw [he]
    exact List.mem_cons_self
  have hinv : inv ∈ (t.taken [inv] rest).handedOut := by simp [Trace.taken]
  have htaken := h.head.stocked.invariant.taken hfront
  have hfresh := h.head.fresh inv hmem
  have hhead := h.head.turn hacc hkeys hdist σ he hid hst hlen
  have hline : t.handedOut ++ t.sched.executableBlocks = (t.taken [inv] rest).handedOut ++ rest := by
    rw [he, Trace.taken, List.append_assoc]
    rfl
  have hsingle : Single (t.taken [inv] rest).handedOut (t.taken [inv] rest).sched :=
    ⟨hline ▸ h.single.once, fun k i hk => hline ▸ h.single.apart k i hk⟩
  have hsingle' : Single (t.taken [inv] rest).handedOut
      ((t.taken [inv] rest).sched.update σ result) := by
    refine htaken.single_report hacc hkeys hsingle σ hinv hid hfresh
      (fun _ => h.spreadsOnce hacc hkeys hdist hone he hid hlen) fun hred => ?_
    rcases hst with hs | hs <;> rw [hs] at hred <;> cases hred
  have hfanned : ∀ {m n}, FannedOut p manifests ((t.taken [inv] rest).report σ inv result) m n →
      FannedOut p manifests t m n ∨ result.status = .map ∧ m = result.id ∧
        n = result.items.length ∧ t.sched.expands result = true := by
    intro m n hf
    rcases fannedOut_append.mp hf with hf | ⟨hk, hn, rfl, hs, rfl⟩
    · exact Or.inl hf
    · have hne : result.items ≠ [] := fun h0 => hn (by rw [h0]; rfl)
      exact Or.inr ⟨hs, hid.symm, rfl,
        decide_eq_true ⟨hne, by rw [hid]; exact h.head.stocked.invariant.causal.has _ hk⟩⟩
  refine ⟨hhead, hsingle', ?_, ?_, ?_⟩
  · obtain ⟨s, happ, heq, -⟩ := h.head.queues hacc hkeys σ he hid hst
    obtain ⟨new, hnew, -⟩ := happ.executable
    obtain ⟨_, hprom, -⟩ := promoteReady_eq σ s
    obtain ⟨added, hadd⟩ : ∃ added, ((t.taken [inv] rest).sched.update σ result).executableBlocks =
        rest ++ added := by
      refine ⟨new ++ ((σ.range s.pendingBlocks).filter fun e => s.ready e.2).map Prod.snd, ?_⟩
      rw [heq, hprom, ← List.append_assoc]
      dsimp only
      rw [hnew]
      rfl
    change ((t.taken [inv] rest).handedOut ++
      ((t.taken [inv] rest).sched.update σ result).executableBlocks).Pairwise _
    have honce := hsingle'.once
    rw [hadd, ← List.append_assoc] at honce ⊢
    have hdisj := (List.nodup_append.mp honce).2.2
    have hbehind : ∀ a, a ∈ (t.taken [inv] rest).handedOut ∨
        a ∈ ((t.taken [inv] rest).sched.update σ result).executableBlocks → ∀ b ∈ added,
        ∀ ref ∈ a.inputs, ref.depID ≠ b.id := by
      intro a ha b hb ref href hdep
      have hrel : ((t.taken [inv] rest).report σ inv result).Released a := ha.symm
      obtain ⟨c, hc, hca⟩ := hhead.stocked.invariant.causal.made a hrel.holds
      have hcref : ref ∈ c.inputs := by
        rw [hca] at href
        exact href
      have hcomp := depsCompleted_iff.mp (hhead.ready a hrel) ref href (hacc.known c hc ref hcref).1
      rw [hdep] at hcomp
      refine h.new_block hacc hkeys σ he hid hst (by rw [hadd]; exact List.mem_append_right _ hb)
        ?_ hcomp
      exact fun hm => hdisj b (List.mem_append_right _ hm) b hb rfl
    refine List.pairwise_append.mpr ⟨hline ▸ h.order, ?_, ?_⟩
    · refine List.pairwise_of_forall_mem_list fun a ha b hb => hbehind a (Or.inr ?_) b hb
      rw [hadd]
      exact List.mem_append_right _ ha
    · intro a ha b hb
      refine hbehind a ?_ b hb
      rw [hadd]
      exact (List.mem_append.mp ha).imp_right (List.mem_append_left _)
  · intro m n hf b hb hd i hi
    have holds := fun j => (holds_taken hfront j).mpr
    rcases hst with hcomp | hmap
    · rcases hfanned hf with hf | ⟨hs, -⟩
      · change Holds _ _
        unfold Trace.report
        rw [update_complete σ _ hcomp]
        exact (holds_promote (t := { t.taken [inv] rest with
          sched := { (t.taken [inv] rest).sched with completedBlocks :=
            (t.taken [inv] rest).sched.completedBlocks.insert result.id result } }) σ _).mpr
          (holds _ (h.made m n hf b hb hd i hi))
      · rw [hcomp] at hs
        cases hs
    · have hpromote := fun j => (holds_promote (t := { t.taken [inv] rest with
        sched := (t.taken [inv] rest).sched.handleMap σ result
        reported := t.reported ++ [(inv, result)] }) σ j).mpr
      change Holds _ _
      unfold Trace.report
      rw [update_map σ _ hmap]
      apply hpromote
      by_cases hexp : t.sched.expands result = true
      · have hs := htaken.spreads hacc hkeys hdist h.head.stocked.bounded σ hinv hid hfresh hmap hlen hexp
        rcases hfanned hf with hf | ⟨-, rfl, rfl, -⟩
        · refine (hs.keeps _ (holds _ (h.made m n hf b hb hd i hi))).resolve_right fun hdown => ?_
          obtain ⟨-, hm⟩ := of_decide_eq_true hexp
          obtain ⟨ctx, hctx⟩ := GoMap.lookup_of_mem hm
          have hkind := (h.head.stocked.invariant.causal.contexts _ _ hctx).1
          have hcompleted := h.expanded m n hf
          rw [hone m result.id b.id hf.1 hkind hd hdown, hid] at hcompleted
          rw [hid] at hkind
          exact hfresh (unindexed hacc h.head.stocked.invariant.causal
            h.head.stocked.invariant.indexing (Or.inl hmem) hkind) hcompleted
        · exact hs.makes b hb hd i hi
      · have hsame : (t.taken [inv] rest).sched.handleMap σ result = (t.taken [inv] rest).sched := by
          rcases handleMap_same σ (t.taken [inv] rest).sched result with ⟨-, hs⟩ | ⟨_, hx, -⟩
          · exact hs
          · exact absurd hx hexp
        rcases hfanned hf with hf | ⟨-, -, -, hx⟩
        · rw [hsame]
          exact holds _ (h.made m n hf b hb hd i hi)
        · exact absurd hx hexp
  · intro m n hf
    rcases hfanned hf with hf | ⟨hs, rfl, -, hx⟩
    · exact (completed_update σ _ result m).mpr (Or.inl (h.expanded m n hf))
    · refine (completed_update σ _ result _).mpr (Or.inr ⟨rfl, ?_⟩)
      exact decide_eq_true (Or.inr ⟨hs, hx⟩)

theorem inLine_start (hacc : Accepted p manifests) : InLine p manifests N (start p manifests) := by
  have hnone : ∀ m n, ¬FannedOut p manifests (start p manifests) m n := by
    rintro m n ⟨-, -, e, hm, -⟩
    cases hm
  refine ⟨atHead_start hacc, single_start hacc, ?_, fun m n hf => absurd hf (hnone m n),
    fun m n hf => absurd hf (hnone m n)⟩
  change ([] ++ (registered p manifests).executableBlocks).Pairwise _
  refine List.pairwise_of_forall_mem_list fun a ha b _ ref href => ?_
  obtain ⟨c, -, hin, rfl⟩ := released_start hacc (.inl ha)
  rw [show (c.invocation p.id none).inputs = c.inputs from rfl, hin] at href
  exact absurd href List.not_mem_nil

theorem InLine.loop (hacc : Accepted p manifests) (hkeys : KeysApart p) (hdist : DistinctKeys p N)
    (hone : SingleContext p manifests) {rank : UUID → ℕ}
    (hrank : ∀ b ∈ p.blocks, ∀ ref ∈ b.inputs, rank ref.depID < rank b.id) (turns : List Turn)
    (h : InLine p manifests N t) (hrun : Runs.Along call (Executes N) t (loopCalls turns t)) :
    Runs.Along call (NextInOrder p manifests) t (loopCalls turns t) := by
  have hnext := h.inOrder hacc hone hrank
  induction turns generalizing t with
  | nil =>
    unfold loopCalls
    split_ifs
    · exact ⟨hnext, trivial⟩
    · trivial
  | cons turn turns ih =>
    unfold loopCalls at hrun ⊢
    by_cases hends : t.ends = true
    · rw [if_pos hends]
      exact ⟨hnext, trivial⟩
    · rw [if_neg hends] at hrun ⊢
      cases hres : turn.result with
      | none => exact ⟨hnext, trivial⟩
      | some result =>
        rw [hres] at hrun
        refine ⟨hnext, trivial, ?_⟩
        by_cases herr : result.status = .error
        · rw [if_pos herr]
          trivial
        · have hfalse : t.ends = false := Bool.not_eq_true _ ▸ hends
          obtain ⟨inv, rest, he, hinv, htaken⟩ := front_of_ends hfalse
          obtain ⟨-, ⟨hid, hst, hlen⟩, hrest⟩ := hrun
          rw [if_neg herr] at hrest ⊢
          rw [show t.call .next = t.next from rfl] at hid hrest ⊢
          rw [call_turn hfalse] at hrest ⊢
          rw [htaken] at hid
          rw [hinv, htaken] at hrest ⊢
          have hid' : result.id = inv.id := hid inv (by simp [taken])
          have hst' : result.status = .complete ∨ result.status = .map := by
            simp only [List.mem_cons, List.not_mem_nil, or_false] at hst
            rcases hst with hs | hs | hs
            · exact Or.inl hs
            · exact Or.inr hs
            · exact absurd hs herr
          have hturn := h.turn hacc hkeys hdist hone turn.order he hid' hst' hlen
          exact ih hturn hrest (hturn.inOrder hacc hone hrank)

/-- Whatever the loop hands out comes after all that it reads of mapped blocks. -/
theorem loop_in_order {τ : MapOrder} (hval : validatePipeline τ p manifests = [])
    (hkeys : KeysApart p) (hdist : DistinctKeys p N) (hone : SingleContext p manifests)
    {turns : List Turn}
    (hrun : Runs.Along call (Executes N) (start p manifests) (loopCalls turns (start p manifests))) :
    Runs.Along call (NextInOrder p manifests) (start p manifests)
      (loopCalls turns (start p manifests)) := by
  have hacc := accepted_of_validate hval
  obtain ⟨rank, hrank⟩ := rank_of_validate hval
  exact (inLine_start hacc).loop hacc hkeys hdist hone hrank turns hrun

/-- A loop that hands out something in disorder in its next turn. -/
theorem not_along_of_turns {turns : List Turn} {turn : Turn}
    (hnone : (runPipeline turns t).1 = none)
    (h : ¬NextInOrder p manifests (runPipeline turns t).2 .next) :
    ¬Runs.Along call (NextInOrder p manifests) t (loopCalls (turns ++ [turn]) t) := by
  obtain ⟨calls, hcalls⟩ := loopCalls_cons turn [] (runPipeline turns t).2
  rw [loopCalls_append _ _ _ hnone, hcalls, Runs.along_append, ← runPipeline_calls]
  exact fun hrun => h hrun.2.1

omit [UUIDPackage] in
/-- The contexts that `IdentifyMapContexts` has found tell whether a block lies in two. -/
theorem singleContext_of {τ : MapOrder} (hval : validatePipeline τ p manifests = [])
    (h : ∀ b ∈ p.blocks, ∀ e ∈ (registered p manifests).mapContexts.items,
      ∀ e' ∈ (registered p manifests).mapContexts.items, b.id ∈ e.2.mappedBlockIDs →
        b.id ∈ e'.2.mappedBlockIDs → e.1 = e'.1) : SingleContext p manifests := by
  have hacc := accepted_of_validate hval
  intro m m' d hm hm' hd hd'
  obtain ⟨ctx, hctx⟩ := context_of_map hacc hm
  obtain ⟨ctx', hctx'⟩ := context_of_map hacc hm'
  obtain ⟨b, hb, rfl⟩ := List.mem_map.mp hd.mem_blockIDs
  exact h b hb (m, ctx) ((GoMap.mem_items _ _ _).mpr hctx) (m', ctx')
    ((GoMap.mem_items _ _ _).mpr hctx') (((context_spec hacc hctx).2.1 _).mpr hd)
    (((context_spec hacc hctx').2.1 _).mpr hd')

end
end Trace
end Spade

namespace Spade.Trace
open Samples Uuid

theorem loop_in_order_chained :
    let turns : List Turn := [⟨.stored, some (completed 1)⟩, ⟨.stored, some (expanded 2 2)⟩,
      ⟨.stored, some (completed 3)⟩, ⟨.stored, some (completed 3)⟩]
    Runs.Along call (NextInOrder chained manifests) (start chained manifests)
      (loopCalls turns (start chained manifests)) := by
  have hval : validatePipeline .stored chained manifests = [] := by decide
  have hdist : DistinctKeys chained 2 := by decide +kernel
  exact loop_in_order hval (keysApart (by decide)) hdist
    (singleContext_of hval (by decide +kernel)) (by decide +kernel)

/-- The expansion of block 2 finds the first invocation of block 5 under the key of the block it
maps, and makes copies of that. -/
def clashTurns : List Turn := [⟨.stored, some (completed 1)⟩, ⟨.stored, some (expanded 3 1)⟩,
  ⟨.stored, some (expanded 2 2)⟩, ⟨.stored, some (completed 4)⟩]

/-- The second invocation of block 5 is handed out, and block 4 has one invocation only. -/
theorem clash_disorder {t : Trace} (hhead : ∀ inv ∈ t.sched.executableBlocks.head?, inv.id = blockID 5 ∧
      inv.mapIndex = some 1 ∧ { id := blockID 4 } ∈ inv.inputs)
    (hsome : t.sched.executableBlocks.head?.isSome = true)
    (hnot : ∀ e ∈ t.reported, e.1.id = blockID 4 → e.1.mapIndex ≠ some 1) :
    ¬NextInOrder clash manifests t .next := by
  intro h
  obtain ⟨inv, hinv⟩ := Option.isSome_iff_exists.mp hsome
  obtain ⟨hid, hidx, hin⟩ := hhead inv hinv
  have hd : Downstream clash manifests (blockID 3) (blockID 4) :=
    .first (b := block "step" 4 [3]) (r := { id := blockID 3 }) (k := .standard)
      (by simp [clash, pipeline]) (by simp [block]) rfl (by decide +kernel) (by decide)
  have hc : Downstream clash manifests (blockID 3) (blockID 5) :=
    .next (b := block "step" 5 [4]) (r := { id := blockID 4 }) (k := .standard)
      (by simp [clash, pipeline]) (by simp [block]) hd (by decide +kernel) (by decide)
  obtain ⟨e, he, heid, hei⟩ := (h inv hinv).within (blockID 3) (by decide +kernel)
    (hid.symm ▸ hc) 1 hidx _ hin hd
  exact hnot e he heid hei

theorem loop_in_order_fails :
    let turns := clashTurns ++ [⟨.stored, some (completed 5)⟩]
    validatePipeline .stored clash manifests = [] ∧ SingleContext clash manifests ∧
      Runs.Along call (Executes 2) (start clash manifests)
        (loopCalls turns (start clash manifests)) ∧
      ¬Runs.Along call (NextInOrder clash manifests) (start clash manifests)
        (loopCalls turns (start clash manifests)) := by
  intro turns
  have hval : validatePipeline .stored clash manifests = [] := by decide +kernel
  refine ⟨hval, singleContext_of hval (by decide +kernel), by decide +kernel,
    not_along_of_turns (by decide +kernel) ?_⟩
  exact clash_disorder (by decide +kernel) (by decide +kernel) (by decide +kernel)

end Spade.Trace
