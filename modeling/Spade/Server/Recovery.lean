import Spade.Server.DurableSteps
import Spade.Server.Records
import Spade.Server.Samples

set_option autoImplicit false

/-!
# Recovery

`Recover` on the store of a run rebuilds the scheduler of every running pipeline, with
what was in flight executable again.
-/
namespace Spade
open UUIDPackage
variable [UUIDPackage] [Encoding]

namespace World
variable {w : World} {a : Env × Op} {pid : UUID} {rec : PipelineRecord}

theorem durable_step (hw : w.Durable) (ha : w.Admits a) (hg : w.RecoveryGuard a) :
    (w.step a).Durable := by
  refine ⟨sound_step w a hw.sound ha, owned_step hw.sound ha hw.owned, filed_step hw.records, ?_⟩
  intro pid rec hrec hrun
  rcases running_before hrec hrun with hnone | ⟨hold, hnot⟩
  · obtain ⟨pp, body, who, p, text, hop, hx, rfl, rfl⟩ := record_new hnone hrec
    exact ⟨_, kept_registered hw ha hg hop hx⟩
  · exact kept_step hw ha hg hold hrun hnot

theorem durable_start : Durable {} := by
  refine ⟨linked_empty, fun key row hl => ?_, fun pid rec hl => ?_, fun pid rec hl => ?_⟩
  · cases hl
  · cases hl
  · cases hl

end World

/-! The replay of one pipeline. -/

namespace Engine

/-- The scheduler that `Recover` makes of a record. -/
def recovered (env : Env) (p : Pipeline) (results : List BlockInvocationResult) :
    SinglePipelineScheduler :=
  { results.foldl (MultiTenantScheduler.replay env.order) (newSchedulerForPipeline p) with
    manifests := some env.manifests }.identifyMapContexts

/-- The pipeline that `Recover` reads from a record. -/
def recoveredPipeline (rec : PipelineRecord) : Option Pipeline :=
  (Encoding.yamlUnmarshal rec.yaml).map fun p => if p.id = UUID.nil then { p with id := rec.id } else p

/-- What a record is recovered as, if that is pipeline `k`. -/
def recoveredAs (k : UUID) (ap : PipelineRecord × List InvocationRecord) :
    Option (Pipeline × List BlockInvocationResult) :=
  ((recoveredPipeline ap.1).filter fun p => p.id = k).map fun p => (p, replayResults ap.1.id ap.2)

theorem recoverOne_lookup (env : Env) (sched : MultiTenantScheduler)
    (ap : PipelineRecord × List InvocationRecord) (k : UUID) :
    (recoverOne env sched ap).schedulers.lookup k =
      match recoveredAs k ap with
      | some (p, results) => some (recovered env p results)
      | none => sched.schedulers.lookup k := by
  unfold recoveredAs
  cases hp : recoveredPipeline ap.1 with
  | none =>
    rw [recoverOne, Option.map_eq_none_iff.mp hp]
    rfl
  | some p =>
    obtain ⟨p₀, hp₀, hp⟩ := Option.map_eq_some_iff.mp hp
    have hone : recoverOne env sched ap =
        (sched.rehydrate env.order p (replayResults ap.1.id ap.2)).setManifests p.id
          env.manifests := by
      unfold recoverOne
      rw [hp₀]
      dsimp only
      rw [hp]
    have hl : ∀ results, (sched.rehydrate env.order p results).schedulers.lookup p.id =
        some (results.foldl (MultiTenantScheduler.replay env.order) (newSchedulerForPipeline p)) :=
      fun results => AList.lookup_insert _
    rw [hone, MultiTenantScheduler.setManifests, hl]
    dsimp only
    rw [GoMap.lookup_insert_if]
    by_cases hk : k = p.id
    · rw [if_pos hk, Option.filter_some, if_pos (by simpa using hk.symm)]
      rfl
    · rw [if_neg hk, Option.filter_some, if_neg (by simpa using Ne.symm hk)]
      unfold MultiTenantScheduler.rehydrate MultiTenantScheduler.addPipeline
      rw [GoMap.lookup_insert_if, if_neg hk, GoMap.lookup_insert_if, if_neg hk]
      rfl

/-- The last record that is recovered as a pipeline is the one that stays. -/
theorem foldl_recoverOne_lookup (env : Env) (aps : List (PipelineRecord × List InvocationRecord))
    (sched : MultiTenantScheduler) (k : UUID) :
    (aps.foldl (recoverOne env) sched).schedulers.lookup k =
      match (aps.filterMap (recoveredAs k)).getLast? with
      | some (p, results) => some (recovered env p results)
      | none => sched.schedulers.lookup k := by
  induction aps using List.reverseRecOn with
  | nil => rfl
  | append_singleton aps ap ih =>
    rw [List.foldl_append, List.foldl_cons, List.foldl_nil, recoverOne_lookup,
      List.filterMap_append, List.filterMap_cons, List.filterMap_nil]
    cases recoveredAs k ap with
    | none =>
      dsimp only
      rw [List.append_nil, ih]
    | some x =>
      dsimp only
      rw [List.getLast?_concat]

omit [UUIDPackage] [Encoding] in
/-- Only the element of its key counts. -/
theorem filterMap_keyed {A B K : Type} {key : A → K} {f : A → Option B} {l : List A} {a : A}
    (hn : (l.map key).Nodup) (ha : a ∈ l) (hf : ∀ b ∈ l, key b ≠ key a → f b = none) :
    l.filterMap f = (f a).toList := by
  obtain ⟨l₁, l₂, rfl⟩ := List.append_of_mem ha
  have hother : ∀ b ∈ l₁ ++ l₂, f b = none := by
    intro b hb
    rw [List.map_append, List.map_cons, List.nodup_middle, List.nodup_cons, ← List.map_append] at hn
    refine hf b ?_ fun h => hn.1 (List.mem_map.mpr ⟨b, hb, h⟩)
    rcases List.mem_append.mp hb with h | h <;> simp [h]
  rw [List.filterMap_append, List.filterMap_cons,
    List.filterMap_eq_nil_iff.mpr fun b h => hother b (List.mem_append_left _ h),
    List.filterMap_eq_nil_iff.mpr fun b h => hother b (List.mem_append_right _ h)]
  cases f a <;> rfl

/-- The records of different pipelines are replayed apart. -/
theorem foldl_recoverOne (env : Env) {aps : List (PipelineRecord × List InvocationRecord)}
    (hn : (aps.map fun ap => ap.1.id).Nodup)
    (hread : ∀ ap ∈ aps, ∃ p, recoveredPipeline ap.1 = some p ∧ p.id = ap.1.id)
    (sched : MultiTenantScheduler) {ap : PipelineRecord × List InvocationRecord} (hap : ap ∈ aps)
    {p : Pipeline} (hp : recoveredPipeline ap.1 = some p) :
    (aps.foldl (recoverOne env) sched).schedulers.lookup ap.1.id =
      some (recovered env p (replayResults ap.1.id ap.2)) := by
  have has : ∀ ap' ∈ aps, ∀ k, ∃ p, recoveredPipeline ap'.1 = some p ∧ recoveredAs k ap' =
      if ap'.1.id = k then some (p, replayResults ap'.1.id ap'.2) else none := by
    intro ap' hap' k
    obtain ⟨p', hp', hid⟩ := hread ap' hap'
    refine ⟨p', hp', ?_⟩
    rw [recoveredAs, hp', Option.filter_some, hid]
    by_cases hk : ap'.1.id = k <;> simp [hk]
  have hone : aps.filterMap (recoveredAs ap.1.id) = (recoveredAs ap.1.id ap).toList := by
    refine filterMap_keyed hn hap fun ap' hap' hne => ?_
    obtain ⟨_, -, h⟩ := has ap' hap' ap.1.id
    rw [h, if_neg hne]
  obtain ⟨p', hp', hown⟩ := has ap hap ap.1.id
  rw [hp] at hp'
  cases hp'
  rw [foldl_recoverOne_lookup, hone, hown, if_pos rfl]
  rfl

omit [UUIDPackage] [Encoding] in
theorem loadActive_ids (σ : MapOrder) {m : MemStore}
    (hid : ∀ pid rec, m.pipelines.lookup pid = some rec → rec.id = pid) :
    ((m.loadActivePipelinesForRestart σ).map fun ap => ap.1.id).Nodup := by
  unfold MemStore.loadActivePipelinesForRestart
  refine ((List.perm_insertionSort _ _).map _).nodup_iff.mpr ?_
  rw [List.map_map]
  have hkeys : ((σ.range m.pipelines).map Prod.snd).map PipelineRecord.id = σ.keys m.pipelines := by
    rw [List.map_map, MapOrder.keys]
    refine List.map_congr_left ?_
    rintro ⟨pid, rec⟩ he
    exact hid pid rec ((σ.mem_range _ _ _).mp he)
  have hn : (((σ.range m.pipelines).map Prod.snd).map PipelineRecord.id).Nodup := by
    rw [hkeys]
    exact σ.range_nodup _
  exact hn.sublist (List.filter_sublist.map PipelineRecord.id)

omit [UUIDPackage] [Encoding] in
theorem mem_loadActive (σ : MapOrder) {m : MemStore} {ap : PipelineRecord × List InvocationRecord} :
    ap ∈ m.loadActivePipelinesForRestart σ ↔
      (∃ pid, m.pipelines.lookup pid = some ap.1) ∧ ap.1.status = .running ∧
        ap.2 = m.loadInvocations ap.1.id := by
  unfold MemStore.loadActivePipelinesForRestart
  rw [List.mem_insertionSort, List.mem_map]
  constructor
  · rintro ⟨rec, hrec, rfl⟩
    obtain ⟨hmem, hrun⟩ := List.mem_filter.mp hrec
    obtain ⟨⟨pid, rec⟩, he, rfl⟩ := List.mem_map.mp hmem
    exact ⟨⟨pid, (σ.mem_range _ _ _).mp he⟩, by simpa using hrun, rfl⟩
  · rintro ⟨⟨pid, hl⟩, hrun, hrows⟩
    refine ⟨ap.1, List.mem_filter.mpr ⟨?_, by simpa using hrun⟩, by rw [← hrows]⟩
    exact List.mem_map.mpr ⟨(pid, ap.1), (σ.mem_range _ _ _).mpr hl, rfl⟩

end Engine

namespace World
variable {w : World} {pid : UUID} {rec : PipelineRecord} {ps : SinglePipelineScheduler}

/-! The results that the rows of a running pipeline give. -/

theorem replayed_rows (hkeyed : w.engine.store.Keyed) {done : UUID → Prop}
    (h : w.engine.store.Rowed pid done) :
    (∀ r ∈ Engine.replayResults pid (w.engine.store.loadInvocations pid), r.status = .complete) ∧
    (∀ k, k ∈ (Engine.replayResults pid (w.engine.store.loadInvocations pid)).map
      BlockInvocationResult.id ↔ done k) ∧
    ((Engine.replayResults pid (w.engine.store.loadInvocations pid)).map
      BlockInvocationResult.id).Pairwise fun k k' => string k ≤ string k' ∧ k ≠ k' := by
  have hown : ∀ row ∈ w.engine.store.loadInvocations pid, row.id = string row.blockID ∧
      (row.status = .complete → done row.blockID) ∧
      row.status ≠ .error ∧ row.status ≠ .map ∧ row.status ≠ .reduce := by
    intro row hrow
    obtain ⟨hpid, key, hl⟩ := (MemStore.mem_loadInvocations _ _ _).mp hrow
    obtain ⟨hkey, hrest⟩ := h.own key row hl hpid
    exact ⟨(hkeyed key row hl).trans hkey, hrest⟩
  have hreplay : Engine.replayResults pid (w.engine.store.loadInvocations pid) =
      ((w.engine.store.loadInvocations pid).filter fun row => row.status = .complete).map
        fun row => Engine.recordToResult row pid .complete := by
    unfold Engine.replayResults
    rw [← List.filterMap_eq_map, List.filterMap_filter]
    refine List.filterMap_congr fun row hrow => ?_
    obtain ⟨-, -, herr, hmap, hred⟩ := hown row hrow
    cases hst : row.status <;> simp_all
  rw [hreplay, List.map_map]
  refine ⟨?_, fun k => ?_, ?_⟩
  · intro r hr
    obtain ⟨row, -, rfl⟩ := List.mem_map.mp hr
    rfl
  · constructor
    · intro hk
      obtain ⟨row, hrow, rfl⟩ := List.mem_map.mp hk
      obtain ⟨hmem, hst⟩ := List.mem_filter.mp hrow
      exact (hown row hmem).2.1 (by simpa using hst)
    · intro hk
      obtain ⟨row, hl, hpid, rfl, hst⟩ := h.kept k hk
      refine List.mem_map.mpr ⟨row, List.mem_filter.mpr ⟨?_, by simpa using hst⟩, rfl⟩
      exact (MemStore.mem_loadInvocations _ _ _).mpr ⟨hpid, _, hl⟩
  · rw [List.pairwise_map]
    have hs := (w.engine.store.loadInvocations_sorted pid)
    have hn := List.pairwise_map.mp (MemStore.loadInvocations_nodup hkeyed pid)
    refine List.Pairwise.imp_of_mem ?_ ((hs.and hn).filter _)
    rintro row row' hrow hrow' ⟨hle, hne⟩
    have ht := (hown row (List.mem_filter.mp hrow).1).1
    have ht' := (hown row' (List.mem_filter.mp hrow').1).1
    rw [ht, ht'] at hle hne
    exact ⟨hle, fun heq => hne (congrArg string heq)⟩

/-- A scheduler that has the completed, the pending and the executable invocations of
another, and what was in flight. -/
structure Restores (w : World) (pid : UUID) (ps ps' : SinglePipelineScheduler) : Prop where
  completed : ∀ k, k ∈ ps'.completedBlocks ↔ k ∈ ps.completedBlocks
  pending : ∀ k, ps'.pendingBlocks.lookup k = ps.pendingBlocks.lookup k
  executable : ∀ inv, inv ∈ ps'.executableBlocks ↔ inv ∈ ps.executableBlocks ∨ w.InFlight pid inv

/-- `Recover` on a fresh engine over the store restores every running pipeline. -/
def Recovers (w : World) : Prop :=
  ∀ (env : Env) pid ps rec, w.engine.sched.schedulers.lookup pid = some ps →
    w.engine.store.loadPipeline pid = some rec → rec.status = .running →
    ∃ ps', (Engine.recover env { store := w.engine.store }).sched.schedulers.lookup pid = some ps' ∧
      w.Restores pid ps ps'

/-- The invocations that have no result yet, in the queue or in flight. -/
theorem open_of_kept (h : w.Kept pid rec ps) (inv : BlockInvocation) :
    inv ∈ ps.executableBlocks ∨ w.InFlight pid inv ↔
      (inv ∈ ps.executableBlocks ∨ w.Out pid inv) ∧ inv.id ∉ ps.completedBlocks := by
  have happ : inv ∈ ps.executableBlocks ∨ w.Out pid inv → (inv.id ∉ ps.completedBlocks ↔
      ∀ wr ∈ w.applied, wr.pipelineID = pid → wr.invocationID ≠ inv.invocationID) := by
    intro hi
    rw [h.reported, (out_text h.split hi).2]
    push Not
    rfl
  have hqueue : inv ∈ ps.executableBlocks → inv.id ∉ ps.completedBlocks := by
    intro hi hc
    have hl := h.launched _ hc
    rw [← (out_text h.split (Or.inl hi)).2] at hl
    exact (List.nodup_append.mp h.once).2.2 _ (List.mem_map_of_mem hi) _
      (List.mem_append_right _ hl) rfl
  constructor
  · rintro (hi | ⟨ho, hno⟩)
    · exact ⟨Or.inl hi, hqueue hi⟩
    · exact ⟨Or.inr ho, (happ (Or.inr ho)).mpr hno⟩
  · rintro ⟨hi | ho, hc⟩
    · exact Or.inl hi
    · exact Or.inr ⟨ho, (happ (Or.inr ho)).mp hc⟩

/-- The replay of the rows of a running pipeline. -/
theorem restores_of_kept (hw : w.Sound) (hkeyed : w.engine.store.Keyed)
    (hps : w.engine.sched.schedulers.lookup pid = some ps) (h : w.Kept pid rec ps) (env : Env)
    {p : Pipeline} (hb : p.blocks = ps.pipeline.blocks) (hid : p.id = pid) :
    w.Restores pid ps (Engine.recovered env p
      (Engine.replayResults pid (w.engine.store.loadInvocations pid))) := by
  obtain ⟨manifests, t, ht⟩ := hw.tracks pid ps hps
  have hacc : Accepted p manifests := ht.accepted.congr hb
  have hpid : p.id = ps.pipeline.id := hid.trans ht.id.symm
  obtain ⟨hall, hdone, hsorted⟩ := replayed_rows hkeyed h.rows
  obtain ⟨hrep, hclear⟩ := replayed_all hacc hall (hsorted.imp And.right) env.order
  have hanti : ∀ k k', string k ≤ string k' → string k' ≤ string k → k = k' :=
    fun _ _ hle hle' => string_injective (String.le_antisymm hle hle')
  have horder : p.inOrder [] _ = true :=
    inOrder_of_sorted hanti (hsorted.imp And.left) fun k hk b hbm hbk ref href => by
      obtain ⟨hd, hle⟩ := h.sorted k ((hdone k).mp hk) b (hb ▸ hbm) hbk ref href
      exact Or.inr ⟨(hdone _).mpr hd, hle⟩
  replace hclear := hclear.mpr horder
  generalize Engine.replayResults pid (w.engine.store.loadInvocations pid) = l at *
  have hcomp : ∀ k, k ∈ (l.foldl (MultiTenantScheduler.replay env.order)
      (newSchedulerForPipeline p)).completedBlocks ↔ k ∈ ps.completedBlocks :=
    fun k => (hrep.completed k).trans (hdone k)
  have hready := SinglePipelineScheduler.ready_congr hcomp
  refine ⟨hcomp, fun k => ?_, fun inv => ?_⟩
  · refine Option.ext fun inv => ?_
    refine (hrep.split.pending k inv).trans (Iff.trans ?_ (h.split.pending k inv).symm)
    rw [hb, hpid, hready]
  · have hqueue : inv ∈ (l.foldl (MultiTenantScheduler.replay env.order)
        (newSchedulerForPipeline p)).executableBlocks ↔
        (inv ∈ (l.foldl (MultiTenantScheduler.replay env.order)
          (newSchedulerForPipeline p)).executableBlocks ∨ False) ∧
        inv.id ∉ (l.foldl (MultiTenantScheduler.replay env.order)
          (newSchedulerForPipeline p)).completedBlocks := by
      rw [or_false, iff_self_and, hrep.completed]
      exact hclear.1 inv
    refine hqueue.trans ((hrep.split.open_iff inv).trans ?_)
    rw [open_of_kept h, h.split.open_iff, hb, hpid]
    simp only [hready, hcomp]

theorem recovers_of_durable (hw : w.Durable) : w.Recovers := by
  intro env pid ps rec hps hrec hrun
  have hkeyed : w.engine.store.Keyed := fun key row hl => (hw.owned key row hl).1
  have hread : ∀ pid rec, w.engine.store.pipelines.lookup pid = some rec → rec.status = .running →
      ∃ ps p, w.engine.sched.schedulers.lookup pid = some ps ∧ w.Kept pid rec ps ∧
        Engine.recoveredPipeline rec = some p ∧ p.blocks = ps.pipeline.blocks ∧ p.id = pid := by
    intro pid rec hrec hrun
    obtain ⟨ps, hps, h⟩ := hw.kept pid rec hrec hrun
    obtain ⟨p, hp, hb, hpid⟩ := h.body
    have hid := hw.records pid rec hrec
    by_cases hnil : p.id = UUID.nil
    · refine ⟨ps, { p with id := rec.id }, hps, h, ?_, hb, hid⟩
      rw [Engine.recoveredPipeline, hp, Option.map_some, if_pos hnil]
    · refine ⟨ps, p, hps, h, ?_, hb, hpid.resolve_left hnil⟩
      rw [Engine.recoveredPipeline, hp, Option.map_some, if_neg hnil]
  obtain ⟨ps₀, p, hps₀, h, hp, hb, hpid⟩ := hread pid rec hrec hrun
  rw [hps] at hps₀
  cases hps₀
  have hid := hw.records pid rec hrec
  have hap : (rec, w.engine.store.loadInvocations pid) ∈
      w.engine.store.loadActivePipelinesForRestart env.order :=
    (Engine.mem_loadActive env.order).mpr ⟨⟨pid, hrec⟩, hrun, by rw [hid]⟩
  have hfold := Engine.foldl_recoverOne env (Engine.loadActive_ids env.order hw.records)
    (fun ap hap => ?_) {} hap hp
  · rw [hid] at hfold
    exact ⟨_, hfold, restores_of_kept hw.sound hkeyed hps h env hb hpid⟩
  · obtain ⟨⟨pid', hrec'⟩, hrun', -⟩ := (Engine.mem_loadActive env.order).mp hap
    obtain ⟨-, p', -, -, hp', -, hpid'⟩ := hread pid' ap.1 hrec' hrun'
    exact ⟨p', hp', hpid'.trans (hw.records pid' ap.1 hrec').symm⟩

/-- In every run that meets the guard, `Recover` restores the running pipelines at any
time. -/
theorem recovery {ops : List (Env × Op)}
    (hrun : Runs.Along step (fun w a => w.Admits a ∧ w.RecoveryGuard a) {} ops) :
    Runs.Always step Recovers {} ops :=
  (Runs.always_of_along step (P := Durable) (fun _ _ hw h => durable_step hw h.1 h.2)
    durable_start hrun).mono step fun _ hw => recovers_of_durable hw

end World
end Spade

namespace Spade.Engine
open Samples Uuid

theorem registering_chain {e : Engine} {x : Pipeline × String}
    (hx : x ∈ e.registering env chain (yamlText chain)) : x = (chain, yamlText chain) := by
  obtain ⟨p, body⟩ := x
  obtain ⟨hp, hbody, -⟩ := registering_spec hx
  have htext : yamlText chain ≠ "" := by decide
  have hnil : chain.id ≠ UUID.nil := by decide
  rw [if_neg htext] at hbody
  have hp : chain = p := by simpa [submittedPipeline, hnil] using hp
  cases hbody
  cases hp
  rfl

/-- The stored text of the chain reads back. -/
theorem unmarshal_chain : ∃ p, Encoding.yamlUnmarshal (yamlText chain) = some p ∧
    p.blocks = chain.blocks ∧ (p.id = UUID.nil ∨ p.id = chain.id) :=
  ⟨chain, List.find?_cons_of_pos (by simp), rfl, Or.inr rfl⟩

end Spade.Engine

namespace Spade.World
open Samples Uuid

theorem recovery_chain : Runs.Always step Recovers {} chainRun := by
  have hfirst : ∀ ps ∈ (run {} [submit chain, drain, publish]).engine.sched.schedulers.lookup
      chain.id, (run {} [submit chain, drain, publish]).Persists ps
        (result chain (string (blockID 1)) .complete) := by decide
  have hlast : ∀ ps ∈ (run {} [submit chain, drain, publish, complete chain 1, drain,
      publish]).engine.sched.schedulers.lookup chain.id,
      (run {} [submit chain, drain, publish, complete chain 1, drain, publish]).Persists ps
        (result chain (string (blockID 2)) .complete) := by decide
  refine recovery ⟨⟨trivial, ?_⟩, ⟨trivial, trivial⟩, ⟨trivial, Or.inl rfl⟩,
    ⟨by decide, fun _ _ ps hps => Or.inr ⟨rfl, Or.inr (hfirst ps hps)⟩⟩,
    ⟨trivial, trivial⟩, ⟨trivial, Or.inl rfl⟩,
    ⟨by decide, fun _ _ ps hps => Or.inr ⟨rfl, Or.inr (hlast ps hps)⟩⟩, trivial⟩
  intro x hx
  cases Engine.registering_chain hx
  exact Engine.unmarshal_chain

/-- The rows list block 1, which depends on block 2, before it, so that its completion does not
take it out of the queue. -/
theorem recovery_fails :
    Runs.Along step Admits {} (submit zigzag :: sweepOne ++ complete zigzag 2 :: sweepOne ++
        [complete zigzag 1]) ∧
      ¬Runs.Always step Recovers {} (submit zigzag :: sweepOne ++ complete zigzag 2 :: sweepOne ++
        [complete zigzag 1]) := by
  refine ⟨by decide, fun h => ?_⟩
  have hw := h.last
  generalize hrun : Runs.run step {} (submit zigzag :: sweepOne ++ complete zigzag 2 :: sweepOne ++
    [complete zigzag 1]) = w at hw
  have hbad : ∃ e ∈ w.engine.sched.schedulers.items, ∃ r ∈ w.engine.store.pipelines.items,
      r.1 = e.1 ∧ r.2.status = .running ∧
      ∀ e' ∈ (Engine.recover env { store := w.engine.store }).sched.schedulers.items,
        ∃ inv ∈ e'.2.executableBlocks, inv.id ∉ e.2.executableBlocks.map BlockInvocation.id ∧
          ∃ wr ∈ w.applied, wr.pipelineID = e.1 ∧ wr.invocationID = inv.invocationID := by
    rw [← hrun]
    decide +kernel
  obtain ⟨e, he, r, hr, hpid, hrunning, hbad⟩ := hbad
  obtain ⟨ps', hps', hres⟩ := hw env e.1 e.2 r.2 ((GoMap.mem_items _ _ _).mp he)
    (hpid ▸ (GoMap.mem_items _ _ _).mp hr) hrunning
  obtain ⟨inv, hinv, hno, wr, hwr, hwp, hid⟩ := hbad _ ((GoMap.mem_items _ _ _).mpr hps')
  rcases (hres.executable inv).mp hinv with hexec | hflight
  · exact hno (List.mem_map_of_mem hexec)
  · exact hflight.2 wr hwr hwp hid

end Spade.World
