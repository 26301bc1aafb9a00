import Spade.Lib.Runs
import Spade.Lib.WorkQueue
import Spade.Server.Engine

set_option autoImplicit false

/-!
# The loop of the worker

What the loop meets outside is given turn by turn: the state of its context, the error of
`Next`, what `Run` returns, and the replies of the broker. An operation that fails may
still have taken effect at the broker.
-/
namespace Spade

/-- The zero `Job`, which a body that does not parse leaves. -/
def Job.zero : Job where
  assignment := ⟨"", "", UUID.nil, "", none, []⟩
  pipeline := { id := UUID.nil, blocks := [] }
  manifests := ∅

structure Delivery where
  job : Job
  rawBody : String

inductive CtxError where
  | canceled | deadlineExceeded
  deriving DecidableEq

inductive NextError where
  | ctx (e : CtxError)
  | transport
  deriving DecidableEq

/-- `canceled` stands for the errors that wrap `context.Canceled`. -/
inductive RunError where
  | canceled | other
  deriving DecidableEq

inductive LoopError where
  | ctx (e : CtxError)
  | consuming | run | publishing | acking
  deriving DecidableEq

/-- The reply to a publish or a settlement. -/
inductive RunLoop.Reply where
  | ok
  | failed (effective : Bool)
  deriving DecidableEq

def RunLoop.Reply.effective : RunLoop.Reply → Bool
  | ok => true
  | failed e => e

structure RunLoop.Turn where
  ctxErr : Option CtxError := none
  nextErr : Option NextError := none
  run : Job → Except RunError WorkerResult
  publish : RunLoop.Reply := .ok
  settle : RunLoop.Reply := .ok

inductive RunLoop.Event where
  | arrive (body : String)
  | turn (t : RunLoop.Turn)
  | reconnect

/-- The queue `spade.jobs` and the loop on it; `returned` is the error that the loop has
returned. -/
structure RunLoop where
  queue : WorkQueue String := {}
  consumed : List ℕ := []
  results : List (ℕ × WorkerResult) := []
  returned : Option LoopError := none

namespace RunLoop

def publish (n : ℕ) (result : WorkerResult) (reply : Reply) (s : RunLoop) : RunLoop :=
  if reply.effective then { s with results := s.results ++ [(n, result)] } else s

def ack (n : ℕ) (reply : Reply) (s : RunLoop) : RunLoop :=
  if reply.effective then { s with queue := s.queue.settle n .accepted } else s

def nack (n : ℕ) (requeue : Bool) (reply : Reply) (s : RunLoop) : RunLoop :=
  if reply.effective then
    { s with queue := s.queue.settle n (if requeue then .queued else .discarded) }
  else s

/-- A delivery is handed to the loop. -/
def receive (n : ℕ) (s : RunLoop) : RunLoop :=
  { s with queue := s.queue.deliver n, consumed := s.consumed ++ [n] }

/-- What the loop does with a delivery. -/
def handle (n : ℕ) (d : Delivery) (t : Turn) (s : RunLoop) : RunLoop :=
  if d.job.assignment.invocationID = "" ∧ d.rawBody ≠ "" then s.nack n false t.settle
  else
    match t.run d.job with
    | .error e =>
      let s := s.nack n false t.settle
      if e = .canceled then { s with returned := some .run } else s
    | .ok result =>
      match t.publish with
      | .failed e =>
        { (s.publish n result (.failed e)).nack n false t.settle with returned := some .publishing }
      | .ok =>
        let s := (s.publish n result .ok).ack n t.settle
        match t.settle with
        | .failed _ => { s with returned := some .acking }
        | .ok => s

variable (unmarshalJob : String → Option Job)

def delivery (body : String) : Delivery := ⟨(unmarshalJob body).getD Job.zero, body⟩

/-- `Next` blocks while the queue is empty. -/
def turn (t : Turn) (s : RunLoop) : RunLoop :=
  match s.returned with
  | some _ => s
  | none =>
    match t.ctxErr with
    | some e => { s with returned := some (.ctx e) }
    | none =>
      match t.nextErr with
      | some (.ctx e) => { s with returned := some (.ctx e) }
      | some .transport => { s with returned := some .consuming }
      | none =>
        match s.queue.next with
        | none => s
        | some n =>
          handle n (delivery unmarshalJob ((s.queue.body n).getD "")) t (s.receive n)

/-- Jobs arrive, the loop takes a turn, or the connection is lost and the loop started anew. -/
def step (s : RunLoop) : Event → RunLoop
  | .arrive body => { s with queue := s.queue.enqueue body }
  | .turn t => s.turn unmarshalJob t
  | .reconnect => { s with queue := s.queue.disconnect, returned := none }

/-- The body is a job with an invocation id. -/
def WellFormed (body : String) : Prop :=
  ∃ job, unmarshalJob body = some job ∧ job.assignment.invocationID ≠ ""

/-- The job is with the queue, or done. -/
def Kept (s : RunLoop) (n : ℕ) : Prop :=
  s.queue.place n = some .queued ∨ s.queue.place n = some .held ∨
    s.queue.place n = some .accepted ∧ ∃ result, (n, result) ∈ s.results

/-- No well-formed job that was consumed is lost. -/
def Safe (s : RunLoop) : Prop :=
  ∀ n ∈ s.consumed, ∃ body, s.queue.body n = some body ∧
    (WellFormed unmarshalJob body → s.Kept n)

/-- The turn has no result of the job to publish, or fails to publish it. -/
def Turn.fails (t : Turn) (job : Job) : Bool :=
  match t.run job with
  | .error _ => true
  | .ok _ => t.publish ≠ .ok

/-- A turn that fails on a well-formed job and settles it all the same. -/
def Discards (s : RunLoop) : Event → Prop
  | .turn t => s.returned = none ∧ t.ctxErr = none ∧ t.nextErr = none ∧
      ∃ n body, s.queue.next = some n ∧ s.queue.body n = some body ∧
        WellFormed unmarshalJob body ∧ Turn.fails t (delivery unmarshalJob body).job = true ∧
        t.settle.effective = true
  | _ => False

variable {s : RunLoop} {n : ℕ}

theorem publish_results (k : ℕ) (result : WorkerResult) (reply : Reply) :
    (s.publish k result reply).results =
      s.results ++ if reply.effective then [(k, result)] else [] := by
  unfold publish
  split_ifs
  · rfl
  · exact (List.append_nil _).symm

@[simp] theorem publish_queue (k : ℕ) (result : WorkerResult) (reply : Reply) :
    (s.publish k result reply).queue = s.queue := by
  unfold publish
  split_ifs <;> rfl

@[simp] theorem publish_consumed (k : ℕ) (result : WorkerResult) (reply : Reply) :
    (s.publish k result reply).consumed = s.consumed := by
  unfold publish
  split_ifs <;> rfl

/-- The message `n` is held, and a settlement of it has been tried. -/
structure Settled (s : RunLoop) (n : ℕ) (p : WorkQueue.Place) (reply : Reply) (s' : RunLoop) : Prop where
  place : ∀ k, s'.queue.place k =
    if k = n ∧ s.queue.place n = some .held ∧ reply.effective = true then some p
    else s.queue.place k
  body : ∀ k, s'.queue.body k = s.queue.body k
  consumed : s'.consumed = s.consumed
  results : ∀ x ∈ s.results, x ∈ s'.results

theorem Settled.returned {p : WorkQueue.Place} {reply : Reply} {s' : RunLoop} (h : s.Settled n p reply s')
    (r : Option LoopError) : s.Settled n p reply { s' with returned := r } :=
  ⟨h.place, h.body, h.consumed, h.results⟩

theorem settled_of_queue {p : WorkQueue.Place} {reply : Reply} {s' : RunLoop}
    (hq : s'.queue = if reply.effective then s.queue.settle n p else s.queue)
    (hc : s'.consumed = s.consumed) (hr : ∀ x ∈ s.results, x ∈ s'.results) :
    s.Settled n p reply s' := by
  refine ⟨fun k => ?_, fun k => ?_, hc, hr⟩
  · rw [hq]
    cases reply.effective with
    | false => simp
    | true => simp [WorkQueue.place_settle]
  · rw [hq]
    split_ifs
    · exact WorkQueue.body_settle _ _ _ _
    · rfl

theorem nack_settled (reply : Reply) : s.Settled n .discarded reply (s.nack n false reply) := by
  unfold nack
  cases h : reply.effective with
  | false => exact settled_of_queue (by simp [h]) rfl fun _ hx => hx
  | true => exact settled_of_queue (by simp [h]) rfl fun _ hx => hx

theorem publish_settled {result : WorkerResult} {published reply : Reply} {p : WorkQueue.Place}
    {s' : RunLoop} (h : (s.publish n result published).Settled n p reply s') :
    s.Settled n p reply s' := by
  refine ⟨fun k => ?_, fun k => ?_, ?_, fun x hx => h.results x ?_⟩
  · rw [h.place, publish_queue]
  · rw [h.body, publish_queue]
  · rw [h.consumed, publish_consumed]
  · rw [publish_results]
    exact List.mem_append_left _ hx

theorem ack_settled (reply : Reply) : s.Settled n .accepted reply (s.ack n reply) := by
  unfold ack
  cases h : reply.effective with
  | false => exact settled_of_queue (by simp [h]) rfl fun _ hx => hx
  | true => exact settled_of_queue (by simp [h]) rfl fun _ hx => hx

/-- A delivery that fails is rejected; the result of any other is published, and it is
accepted. -/
theorem handle_spec (d : Delivery) (t : Turn) :
    (s.Settled n .discarded t.settle (handle n d t s) ∧
      (d.job.assignment.invocationID ≠ "" → Turn.fails t d.job = true)) ∨
    (s.Settled n .accepted t.settle (handle n d t s) ∧ Turn.fails t d.job = false ∧
      ∃ result, (n, result) ∈ (handle n d t s).results) := by
  unfold handle Turn.fails
  generalize t.settle = reply
  by_cases hbad : d.job.assignment.invocationID = "" ∧ d.rawBody ≠ ""
  · rw [if_pos hbad]
    exact .inl ⟨nack_settled _, fun h => absurd hbad.1 h⟩
  · rw [if_neg hbad]
    cases t.run d.job with
    | error e =>
      refine .inl ⟨?_, fun _ => rfl⟩
      dsimp only
      split_ifs
      · exact (nack_settled _).returned _
      · exact nack_settled _
    | ok result =>
      dsimp only
      cases t.publish with
      | failed e => exact .inl ⟨publish_settled ((nack_settled _).returned _), fun _ => rfl⟩
      | ok =>
        have hack : s.Settled n .accepted reply ((s.publish n result .ok).ack n reply) :=
          publish_settled (ack_settled reply)
        have hresult : (n, result) ∈ ((s.publish n result .ok).ack n reply).results :=
          (ack_settled reply).results _ (by rw [publish_results]; simp [Reply.effective])
        refine .inr ?_
        cases reply with
        | ok => exact ⟨hack, rfl, result, hresult⟩
        | failed e => exact ⟨hack.returned _, rfl, result, hresult⟩

theorem Kept.settled {p : WorkQueue.Place} {reply : Reply} {s' : RunLoop} {k : ℕ} (h : s.Kept k)
    (hs : s.Settled n p reply s') (hk : k ≠ n) : s'.Kept k := by
  unfold Kept
  rw [hs.place, if_neg fun hc => hk hc.1]
  rcases h with h | h | ⟨h, result, hr⟩
  · exact .inl h
  · exact .inr (.inl h)
  · exact .inr (.inr ⟨h, result, hs.results _ hr⟩)

/-- A turn on a delivery keeps what is safe, but for a job that it discards. -/
theorem safe_handle {body : String} {t : Turn} (hs : s.Safe unmarshalJob)
    (hn : s.queue.next = some n) (hb : s.queue.body n = some body) :
    (handle n (delivery unmarshalJob body) t (s.receive n)).Safe unmarshalJob ↔
      (WellFormed unmarshalJob body → Turn.fails t (delivery unmarshalJob body).job = true →
        t.settle.effective = false) := by
  have hheld : (s.receive n).queue.place n = some .held := WorkQueue.place_deliver_next hn
  have hbody : ∀ k, (s.receive n).queue.body k = s.queue.body k := fun k => WorkQueue.body_move _ n k _
  have hid : WellFormed unmarshalJob body →
      (delivery unmarshalJob body).job.assignment.invocationID ≠ "" := by
    rintro ⟨job, hjob, hne⟩
    rwa [delivery, hjob]
  have hothers : ∀ {p : WorkQueue.Place} {s' : RunLoop}, (s.receive n).Settled n p t.settle s' →
      (s'.Safe unmarshalJob ↔ (WellFormed unmarshalJob body → s'.Kept n)) := by
    intro p s' h
    have hbody' : s'.queue.body n = some body := (h.body n).trans ((hbody n).trans hb)
    constructor
    · intro hsafe hwf
      obtain ⟨body', hb', hkept⟩ := hsafe n (by rw [h.consumed]; simp [receive])
      rw [hbody'] at hb'
      cases hb'
      exact hkept hwf
    · intro hkept k hk
      by_cases hkn : k = n
      · subst hkn
        exact ⟨body, hbody', hkept⟩
      · rw [h.consumed] at hk
        obtain ⟨body', hb', hkept'⟩ := hs k (by simpa [receive, hkn] using hk)
        refine ⟨body', (h.body k).trans ((hbody k).trans hb'), fun hwf => ?_⟩
        have hkept₁ : (s.receive n).Kept k := by
          unfold Kept
          rw [show (s.receive n).queue.place k = _ from WorkQueue.place_deliver_ne hkn]
          exact hkept' hwf
        exact hkept₁.settled h hkn
  rcases handle_spec (s := s.receive n) (n := n) (delivery unmarshalJob body) t with
    ⟨hset, hfails⟩ | ⟨hset, hfails, result, hresult⟩
  · rw [hothers hset]
    refine forall_congr' fun hwf => ?_
    rw [hfails (hid hwf)]
    have hplace := hset.place n
    unfold Kept
    cases heff : t.settle.effective with
    | false => simp [hplace, heff, hheld]
    | true => simp [hplace, heff, hheld]
  · rw [hothers hset, hfails]
    have hplace := hset.place n
    refine iff_of_true (fun _ => ?_) fun _ h => by cases h
    unfold Kept
    cases heff : t.settle.effective with
    | false =>
      rw [hplace, if_neg (by simp [heff])]
      exact .inr (.inl hheld)
    | true =>
      rw [hplace, if_pos ⟨rfl, hheld, heff⟩]
      exact .inr (.inr ⟨rfl, result, hresult⟩)

theorem safe_turn (t : Turn) (hs : s.Safe unmarshalJob) :
    (s.turn unmarshalJob t).Safe unmarshalJob ↔ ¬s.Discards unmarshalJob (.turn t) := by
  unfold turn Discards
  cases hret : s.returned with
  | some e => exact iff_of_true hs fun h => by simp at h
  | none =>
    cases hctx : t.ctxErr with
    | some e => exact iff_of_true hs fun h => by simp [hctx] at h
    | none =>
      cases hnext : t.nextErr with
      | some e =>
        refine iff_of_true ?_ fun h => by simp [hnext] at h
        cases e <;> exact hs
      | none =>
        cases hn : s.queue.next with
        | none => exact iff_of_true hs fun ⟨_, _, _, _, _, h, _⟩ => by cases h
        | some n =>
          obtain ⟨body, hb⟩ := WorkQueue.body_next hn
          dsimp only
          rw [hb, Option.getD_some, safe_handle unmarshalJob hs hn hb]
          constructor
          · rintro h ⟨-, -, -, n', body', hn', hb', hwf, hfails, heff⟩
            cases hn'
            rw [hb] at hb'
            cases hb'
            rw [h hwf hfails] at heff
            cases heff
          · intro h hwf hfails
            refine Bool.eq_false_iff.mpr fun heff => h ?_
            exact ⟨rfl, hctx, hnext, n, body, rfl, hb, hwf, hfails, heff⟩

theorem safe_step (e : Event) (hs : s.Safe unmarshalJob) :
    (s.step unmarshalJob e).Safe unmarshalJob ↔ ¬s.Discards unmarshalJob e := by
  cases e with
  | turn t => exact safe_turn unmarshalJob t hs
  | arrive body =>
    refine iff_of_true (fun n hn => ?_) fun h => h
    obtain ⟨body', hb, hkept⟩ := hs n hn
    refine ⟨body', WorkQueue.body_enqueue _ body hb, fun hwf => ?_⟩
    rcases hkept hwf with h | h | ⟨h, hr⟩
    · exact .inl (WorkQueue.place_enqueue _ body h)
    · exact .inr (.inl (WorkQueue.place_enqueue _ body h))
    · exact .inr (.inr ⟨WorkQueue.place_enqueue _ body h, hr⟩)
  | reconnect =>
    refine iff_of_true (fun n hn => ?_) fun h => h
    obtain ⟨body', hb, hkept⟩ := hs n hn
    refine ⟨body', (WorkQueue.body_disconnect _ n).trans hb, fun hwf => ?_⟩
    unfold Kept
    rw [show (s.step unmarshalJob .reconnect).queue.place n = _ from WorkQueue.place_disconnect _ n]
    rcases hkept hwf with h | h | ⟨h, hr⟩
    · exact .inl (by rw [h]; rfl)
    · exact .inl (by rw [h]; rfl)
    · exact .inr (.inr ⟨by rw [h]; rfl, hr⟩)

/-- In a run, jobs are never lost if and only if no turn that fails has its rejection take
effect. -/
theorem never_loses_iff (events : List Event) :
    Runs.Always (step unmarshalJob) (Safe unmarshalJob) {} events ↔
      Runs.Along (step unmarshalJob) (fun s e => ¬s.Discards unmarshalJob e) {} events :=
  Runs.always_iff_along _ (fun _ e hs => safe_step unmarshalJob e hs) fun _ h => by cases h

end RunLoop
end Spade

namespace Spade.RunLoop

/-- A job that parses, and a run of it that fails. -/
def jobText (s : String) : Option Job :=
  if s = "job" then
    some { Job.zero with assignment := { Job.zero.assignment with invocationID := "i" } }
  else none

theorem never_loses_fails : ¬Runs.Always (step jobText) (Safe jobText) {}
    [.arrive "job", .turn { run := fun _ => .error .other }] := by
  intro h
  obtain ⟨body, hb, hkept⟩ := (Runs.Always.last _ h) 0 (by decide)
  cases hb
  have hplace : (Runs.run (step jobText) {} [.arrive "job", .turn { run := fun _ => .error .other }]
      ).queue.place 0 = some .discarded := by decide
  have hlost := hkept ⟨_, rfl, by decide⟩
  rw [Kept, hplace] at hlost
  simp at hlost

end Spade.RunLoop
