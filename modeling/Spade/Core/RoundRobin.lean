import Mathlib.Algebra.Group.Int.Defs
import Mathlib.Algebra.Group.Nat.Defs
import Mathlib.Data.List.Rotate
import Spade.Core.MultiTenant

set_option autoImplicit false

/-!
# Fair scheduling over pipelines

`Next` of the multi-tenant scheduler takes an invocation from the execution queue, or scans the
pipelines from its round-robin index on. The index is a 64-bit `int` that is never reset.
-/
namespace Spade
open UUIDPackage

/-- `MultiTenantScheduler` with the fields that only `Next` uses. -/
structure RoundRobinScheduler extends MultiTenantScheduler where
  executionQueue : List BlockInvocation := []
  roundRobinIndex : Int := 0

namespace RoundRobinScheduler

/-- `roundRobinIndex++`. -/
def advance (r : Int) : Int := wrapInt (r + 1)

/-- `pipelineOrder[roundRobinIndex % len(pipelineOrder)]`; `none` is an index out of range. -/
def slot (order : List UUID) (r : Int) : Option UUID :=
  let idx := r.tmod order.length
  if 0 ≤ idx then order[idx.toNat]? else none

/-- An invocation of the pipeline is handed out. -/
def handOut (s : RoundRobinScheduler) (pipelineID : UUID) (scheduler : SinglePipelineScheduler)
    (invocation : BlockInvocation) : RoundRobinScheduler :=
  { s with
    schedulers := s.schedulers.insert pipelineID scheduler
    currentExecutions := s.currentExecutions.insert invocation.id invocation }

/-- The loop over the pipelines, at most `n` of them; `none` is a panic. -/
def scan : ℕ → RoundRobinScheduler → Option (RoundRobinScheduler × Option BlockInvocation)
  | 0, s => some (s, none)
  | n + 1, s =>
    match slot s.pipelineOrder s.roundRobinIndex with
    | none => none
    | some pipelineID =>
      let s' := { s with roundRobinIndex := advance s.roundRobinIndex }
      match s.schedulers.lookup pipelineID with
      | none => scan n s'
      | some scheduler =>
        if scheduler.isReady then
          match scheduler.next with
          | (scheduler', invocation, false) =>
            some (s'.handOut pipelineID scheduler' invocation, some invocation)
          | (scheduler', _, true) =>
            scan n { s' with schedulers := s.schedulers.insert pipelineID scheduler' }
        else scan n s'

def allDone (s : RoundRobinScheduler) : Bool :=
  s.pipelineOrder.all fun pid =>
    match s.schedulers.lookup pid with
    | none => true
    | some ps => ps.cancelled || (ps.pendingBlocks.items.isEmpty && ps.executableBlocks.isEmpty)

/-- The invocation, and whether all pipelines are done; `none` is a panic. -/
def next (s : RoundRobinScheduler) : Option (RoundRobinScheduler × BlockInvocation × Bool) :=
  match s.executionQueue with
  | block :: rest =>
    some ({ s with
      executionQueue := rest
      currentExecutions := s.currentExecutions.insert block.id block }, block, false)
  | [] =>
    if s.pipelineOrder = [] then some (s, .zero, true)
    else
      match s.scan s.pipelineOrder.length with
      | none => none
      | some (s', some invocation) => some (s', invocation, false)
      | some (s', none) => some (s', .zero, s'.allDone)

/-- The pipeline has an executable block. -/
def Ready (schedulers : GoMap UUID SinglePipelineScheduler) (p : UUID) : Prop :=
  ∃ ps block rest, schedulers.lookup p = some ps ∧ ps.executableBlocks = block :: rest

/-- The call hands out the first executable block of the pipeline. -/
def Serves (s s' : RoundRobinScheduler) (p : UUID) : Prop :=
  ∃ ps block rest, s.schedulers.lookup p = some ps ∧ ps.executableBlocks = block :: rest ∧
    s.next = some (s', block, false) ∧
    s'.schedulers = s.schedulers.insert p { ps with executableBlocks := rest }

def withSchedulers (s : RoundRobinScheduler) (m : GoMap UUID SinglePipelineScheduler) :
    RoundRobinScheduler := { s with schedulers := m }

/-- Consecutive calls serve these pipelines. Before each call the schedulers may have changed, and
are then as listed. -/
def Rounds : RoundRobinScheduler → List (GoMap UUID SinglePipelineScheduler) → List UUID → Prop
  | _, [], ids => ids = []
  | s, m :: ms, ids => ∃ p rest s', ids = p :: rest ∧ Serves (s.withSchedulers m) s' p ∧
    Rounds s' ms rest

/-- A block that is executable is handed out. -/
def Conserving (s : RoundRobinScheduler) : Prop :=
  (∃ p ∈ s.pipelineOrder, Ready s.schedulers p) → ∃ s', ∃ p ∈ s.pipelineOrder, Serves s s' p

/-- As many calls as there are pipelines serve each once, if each is ready at each call. -/
def Fair (s : RoundRobinScheduler) : Prop :=
  ∀ ms : List (GoMap UUID SinglePipelineScheduler), ms.length = s.pipelineOrder.dedup.length →
    (∀ m ∈ ms, ∀ p ∈ s.pipelineOrder, Ready m p) →
    ∃ ids, Rounds s ms ids ∧ ids.Perm s.pipelineOrder.dedup

/-- The next `n` positions, if no index is out of range. -/
def slots (order : List UUID) : ℕ → Int → Option (List UUID)
  | 0, _ => some []
  | n + 1, r =>
    match slot order r with
    | none => none
    | some p => (slots order n (advance r)).map (p :: ·)

/-- Within `n` positions there is a pipeline that is ready, and no index out of range before it. -/
def Reaches (schedulers : GoMap UUID SinglePipelineScheduler) (order : List UUID) :
    ℕ → Int → Prop
  | 0, _ => False
  | n + 1, r => ∃ p, slot order r = some p ∧
    (Ready schedulers p ∨ Reaches schedulers order n (advance r))

theorem mem_of_slot {order : List UUID} {r : Int} {p : UUID} (h : slot order r = some p) :
    p ∈ order := by
  simp only [slot] at h
  split_ifs at h
  exact List.mem_of_getElem? h

variable {n : ℕ} {s s' : RoundRobinScheduler} {p : UUID}

theorem scan_panic (h : slot s.pipelineOrder s.roundRobinIndex = none) : s.scan (n + 1) = none := by
  rw [scan, h]

/-- What the scan leaves behind where it finds a pipeline that is ready. -/
def served (s : RoundRobinScheduler) (p : UUID) (ps : SinglePipelineScheduler)
    (block : BlockInvocation) (rest : List BlockInvocation) : RoundRobinScheduler :=
  { s with roundRobinIndex := advance s.roundRobinIndex }.handOut p
    { ps with executableBlocks := rest } block

theorem scan_ready {ps : SinglePipelineScheduler} {block : BlockInvocation}
    {rest : List BlockInvocation} (hslot : slot s.pipelineOrder s.roundRobinIndex = some p)
    (hl : s.schedulers.lookup p = some ps) (hb : ps.executableBlocks = block :: rest) :
    s.scan (n + 1) = some (s.served p ps block rest, some block) := by
  have hready : ps.isReady = true := by
    rw [SinglePipelineScheduler.isReady, hb]
    rfl
  have hnext : ps.next = ({ ps with executableBlocks := rest }, block, false) := by
    rw [SinglePipelineScheduler.next, hb]
  simp only [scan, hslot, hl, hready, hnext, if_true]
  rfl

theorem scan_skip (hslot : slot s.pipelineOrder s.roundRobinIndex = some p)
    (hnot : ¬Ready s.schedulers p) :
    s.scan (n + 1) = { s with roundRobinIndex := advance s.roundRobinIndex }.scan n := by
  rw [scan, hslot]
  cases hl : s.schedulers.lookup p with
  | none => simp only [hl]
  | some ps =>
    have hidle : ps.isReady = false := by
      rw [SinglePipelineScheduler.isReady]
      cases hb : ps.executableBlocks with
      | nil => rfl
      | cons block rest => exact absurd ⟨ps, block, rest, hl, hb⟩ hnot
    simp only [hl, hidle, Bool.false_eq_true, if_false]

/-- The scan hands out a block exactly if it gets to a pipeline that is ready. -/
theorem scan_spec (n : ℕ) (s : RoundRobinScheduler) :
    (Reaches s.schedulers s.pipelineOrder n s.roundRobinIndex ∧
      ∃ p ∈ s.pipelineOrder, ∃ ps block rest s', s.schedulers.lookup p = some ps ∧
        ps.executableBlocks = block :: rest ∧ s.scan n = some (s', some block) ∧
        s'.schedulers = s.schedulers.insert p { ps with executableBlocks := rest }) ∨
    (¬Reaches s.schedulers s.pipelineOrder n s.roundRobinIndex ∧
      ∀ s' b, s.scan n = some (s', b) → s'.schedulers = s.schedulers ∧ b = none) := by
  induction n generalizing s with
  | zero =>
    refine .inr ⟨not_false, fun s' b h => ?_⟩
    cases h
    exact ⟨rfl, rfl⟩
  | succ n ih =>
    cases hslot : slot s.pipelineOrder s.roundRobinIndex with
    | none =>
      refine .inr ⟨?_, fun s' b h => ?_⟩
      · rintro ⟨p, hp, -⟩
        rw [hslot] at hp
        cases hp
      · rw [scan_panic hslot] at h
        cases h
    | some p =>
      by_cases hready : Ready s.schedulers p
      · obtain ⟨ps, block, rest, hl, hb⟩ := hready
        refine .inl ⟨⟨p, hslot, .inl ⟨ps, block, rest, hl, hb⟩⟩, p, mem_of_slot hslot, ps, block,
          rest, s.served p ps block rest, hl, hb, scan_ready hslot hl hb, rfl⟩
      · have hreach : Reaches s.schedulers s.pipelineOrder (n + 1) s.roundRobinIndex ↔
            Reaches s.schedulers s.pipelineOrder n (advance s.roundRobinIndex) := by
          refine ⟨?_, fun h => ⟨p, hslot, .inr h⟩⟩
          rintro ⟨p', hp', h⟩
          rw [hslot] at hp'
          cases hp'
          exact h.resolve_left hready
        rw [scan_skip hslot hready, hreach]
        exact ih { s with roundRobinIndex := advance s.roundRobinIndex }

section
variable (hqueue : s.executionQueue = [])
include hqueue

theorem next_eq {s' : RoundRobinScheduler} {block : BlockInvocation}
    (h : s.scan s.pipelineOrder.length = some (s', some block)) :
    s.next = some (s', block, false) := by
  have hne : s.pipelineOrder ≠ [] := fun hnil => by
    rw [hnil] at h
    cases h
  simp only [next, hqueue, if_neg hne, h]

/-- A call that takes a block from a pipeline has scanned for it. -/
theorem Serves.reaches (h : Serves s s' p) :
    Reaches s.schedulers s.pipelineOrder s.pipelineOrder.length s.roundRobinIndex := by
  obtain ⟨ps, block, rest, hl, hb, hnext, hsched⟩ := h
  have hchanged : s'.schedulers ≠ s.schedulers := fun heq => by
    have hlookup : s'.schedulers.lookup p = some { ps with executableBlocks := rest } := by
      rw [hsched]
      exact AList.lookup_insert _
    rw [heq, hl] at hlookup
    have hblocks := congrArg SinglePipelineScheduler.executableBlocks (Option.some.inj hlookup)
    rw [hb] at hblocks
    exact List.cons_ne_self _ _ hblocks
  rcases s.scan_spec s.pipelineOrder.length with ⟨hreach, -⟩ | ⟨-, hnone⟩
  · exact hreach
  · refine absurd ?_ hchanged
    simp only [next, hqueue] at hnext
    split_ifs at hnext
    · cases hnext
    · cases hscan : s.scan s.pipelineOrder.length with
      | none =>
        rw [hscan] at hnext
        cases hnext
      | some r =>
        obtain ⟨s'', b⟩ := r
        obtain ⟨heq, rfl⟩ := hnone s'' b hscan
        rw [hscan] at hnext
        exact (Prod.mk.inj (Option.some.inj hnext)).1 ▸ heq

theorem conserving_iff : Conserving s ↔ ((∃ p ∈ s.pipelineOrder, Ready s.schedulers p) →
    Reaches s.schedulers s.pipelineOrder s.pipelineOrder.length s.roundRobinIndex) := by
  constructor
  · intro h hready
    obtain ⟨s', p, -, hserves⟩ := h hready
    exact hserves.reaches hqueue
  · intro h hready
    rcases s.scan_spec s.pipelineOrder.length with
      ⟨-, p, hp, ps, block, rest, s', hl, hb, hscan, hsched⟩ | ⟨hnot, -⟩
    · exact ⟨s', p, hp, ps, block, rest, hl, hb, next_eq hqueue hscan, hsched⟩
    · exact absurd (h hready) hnot

end

/-- The call tells which pipeline it serves. -/
theorem Serves.unique {q : UUID} {ps : SinglePipelineScheduler} {block : BlockInvocation}
    {rest : List BlockInvocation} (h : Serves s s' p) (hl : s.schedulers.lookup q = some ps)
    (hb : ps.executableBlocks = block :: rest)
    (hs : s'.schedulers = s.schedulers.insert q { ps with executableBlocks := rest }) : p = q := by
  obtain ⟨ps', block', rest', hl', hb', -, hs'⟩ := h
  by_contra hne
  have hlookup : s'.schedulers.lookup q = some { ps with executableBlocks := rest } := by
    rw [hs]
    exact AList.lookup_insert _
  rw [hs', AList.lookup_insert_ne (Ne.symm hne), hl] at hlookup
  have hblocks := congrArg SinglePipelineScheduler.executableBlocks (Option.some.inj hlookup)
  rw [hb] at hblocks
  exact List.cons_ne_self _ _ hblocks

/-- A call hands out a block of the pipeline whose turn it is, if that one is ready. -/
theorem serves_iff (hqueue : s.executionQueue = [])
    (hready : ∀ p ∈ s.pipelineOrder, Ready s.schedulers p) :
    Serves s s' p ↔ slot s.pipelineOrder s.roundRobinIndex = some p ∧
      ∃ ps block rest, s.schedulers.lookup p = some ps ∧ ps.executableBlocks = block :: rest ∧
        s' = s.served p ps block rest := by
  have hscan : ∀ {q ps block rest}, slot s.pipelineOrder s.roundRobinIndex = some q →
      s.schedulers.lookup q = some ps → ps.executableBlocks = block :: rest →
      s.next = some (s.served q ps block rest, block, false) := by
    intro q ps block rest hslot hl hb
    obtain ⟨n, hn⟩ := Nat.exists_eq_succ_of_ne_zero
      (List.length_pos_of_mem (mem_of_slot hslot)).ne'
    exact next_eq hqueue (hn ▸ scan_ready hslot hl hb)
  constructor
  · intro h
    obtain ⟨-, block, -, -, -, hnext, -⟩ := id h
    obtain ⟨q, hslot⟩ : ∃ q, slot s.pipelineOrder s.roundRobinIndex = some q := by
      have hreach := h.reaches hqueue
      cases hn : s.pipelineOrder.length with
      | zero =>
        rw [hn] at hreach
        exact hreach.elim
      | succ n =>
        rw [hn] at hreach
        obtain ⟨q, hslot, -⟩ := hreach
        exact ⟨q, hslot⟩
    obtain ⟨ps, block', rest, hl, hb⟩ := hready q (mem_of_slot hslot)
    rw [hscan hslot hl hb] at hnext
    have hs : s.served q ps block' rest = s' := (Prod.mk.inj (Option.some.inj hnext)).1
    obtain rfl : p = q := h.unique hl hb (hs ▸ rfl)
    exact ⟨hslot, ps, block', rest, hl, hb, hs.symm⟩
  · rintro ⟨hslot, ps, block, rest, hl, hb, rfl⟩
    exact ⟨ps, block, rest, hl, hb, hscan hslot hl hb, rfl⟩

/-- The pipelines that are served are those whose turn it is. -/
theorem rounds_iff (ms : List (GoMap UUID SinglePipelineScheduler)) (s : RoundRobinScheduler)
    (hqueue : s.executionQueue = []) (hready : ∀ m ∈ ms, ∀ p ∈ s.pipelineOrder, Ready m p)
    (ids : List UUID) :
    Rounds s ms ids ↔ slots s.pipelineOrder ms.length s.roundRobinIndex = some ids := by
  induction ms generalizing s ids with
  | nil => exact ⟨fun h => congrArg some h.symm, fun h => (Option.some.inj h).symm⟩
  | cons m ms ih =>
    have htail : ∀ m' ∈ ms, ∀ p ∈ s.pipelineOrder, Ready m' p := fun m' hm =>
      hready m' (List.mem_cons_of_mem m hm)
    have hserves := fun p s' => @serves_iff (s.withSchedulers m) s' p hqueue
      (hready m List.mem_cons_self)
    rw [Rounds, List.length_cons, slots]
    constructor
    · rintro ⟨p, rest, s', rfl, hs, hrounds⟩
      obtain ⟨hslot, ps, block, blocks, -, -, rfl⟩ := (hserves p s').mp hs
      have hrest := (ih ((s.withSchedulers m).served p ps block blocks) hqueue htail rest).mp hrounds
      rw [show slot s.pipelineOrder s.roundRobinIndex = some p from hslot]
      exact congrArg (Option.map (p :: ·)) hrest
    · cases hslot : slot s.pipelineOrder s.roundRobinIndex with
      | none => exact nofun
      | some p =>
        intro h
        obtain ⟨rest, hrest, rfl⟩ := Option.map_eq_some_iff.mp h
        obtain ⟨ps, block, blocks, hl, hb⟩ := hready m List.mem_cons_self p (mem_of_slot hslot)
        have hrounds := (ih ((s.withSchedulers m).served p ps block blocks) hqueue htail rest).mpr
          hrest
        exact ⟨p, rest, _, rfl, (hserves p _).mpr ⟨hslot, ps, block, blocks, hl, hb, rfl⟩, hrounds⟩

theorem length_slots {order : List UUID} {n : ℕ} {r : Int} {ids : List UUID}
    (h : slots order n r = some ids) : ids.length = n ∧ ids ⊆ order := by
  induction n generalizing r ids with
  | zero =>
    cases h
    exact ⟨rfl, List.nil_subset _⟩
  | succ n ih =>
    rw [slots] at h
    cases hslot : slot order r with
    | none =>
      rw [hslot] at h
      cases h
    | some p =>
      rw [hslot] at h
      obtain ⟨rest, hrest, rfl⟩ := Option.map_eq_some_iff.mp h
      obtain ⟨hlen, hsub⟩ := ih hrest
      exact ⟨congrArg (· + 1) hlen, List.cons_subset.mpr ⟨mem_of_slot hslot, hsub⟩⟩

/-- A scheduler that has a block for each of these pipelines. -/
theorem exists_ready (order : List UUID) :
    ∃ m : GoMap UUID SinglePipelineScheduler, ∀ p ∈ order, Ready m p := by
  induction order with
  | nil => exact ⟨∅, nofun⟩
  | cons p order ih =>
    obtain ⟨m, hm⟩ := ih
    let ps : SinglePipelineScheduler :=
      { pipeline := ⟨p, "", "", "", []⟩, executableBlocks := [.zero] }
    refine ⟨m.insert p ps, fun q hq => ?_⟩
    by_cases h : q = p
    · subst h
      exact ⟨ps, .zero, [], AList.lookup_insert m, rfl⟩
    · obtain ⟨ps', block, rest, hl, hb⟩ := hm q ((List.mem_cons.mp hq).resolve_left h)
      exact ⟨ps', block, rest, by rw [AList.lookup_insert_ne h, hl], hb⟩

/-- The calls are fair exactly if the next positions are those of different pipelines. -/
theorem fair_iff (hqueue : s.executionQueue = []) : Fair s ↔ ∃ ids,
    slots s.pipelineOrder s.pipelineOrder.dedup.length s.roundRobinIndex = some ids ∧ ids.Nodup := by
  constructor
  · intro h
    obtain ⟨m, hm⟩ := exists_ready s.pipelineOrder
    have hready : ∀ m' ∈ List.replicate s.pipelineOrder.dedup.length m,
        ∀ p ∈ s.pipelineOrder, Ready m' p := fun m' hm' => List.eq_of_mem_replicate hm' ▸ hm
    obtain ⟨ids, hrounds, hperm⟩ := h _ List.length_replicate hready
    have hslots := (rounds_iff _ s hqueue hready ids).mp hrounds
    rw [List.length_replicate] at hslots
    exact ⟨ids, hslots, hperm.nodup_iff.mpr (List.nodup_dedup _)⟩
  · rintro ⟨ids, hslots, hnodup⟩ ms hlen hready
    refine ⟨ids, (rounds_iff ms s hqueue hready ids).mpr (hlen ▸ hslots), ?_⟩
    obtain ⟨hids, hsub⟩ := length_slots hslots
    exact (hnodup.subperm fun p hp => List.mem_dedup.mpr (hsub hp)).perm_of_length_le hids.ge

/-- `Next` is work conserving and fair exactly if the scan meets no index out of range before a
pipeline that is ready, and the next positions are those of different pipelines. -/
theorem next_fair_iff (s : RoundRobinScheduler) (hqueue : s.executionQueue = []) :
    (Conserving s ∧ Fair s) ↔
      ((∃ p ∈ s.pipelineOrder, Ready s.schedulers p) →
        Reaches s.schedulers s.pipelineOrder s.pipelineOrder.length s.roundRobinIndex) ∧
      ∃ ids, slots s.pipelineOrder s.pipelineOrder.dedup.length s.roundRobinIndex = some ids ∧
        ids.Nodup := by
  rw [conserving_iff hqueue, fair_iff hqueue]

/-! Where the index stays a natural number, the positions are those of the order rotated. -/

theorem slot_rotate {order : List UUID} {r : ℕ} (h : order ≠ []) :
    slot order r = (order.rotate r)[0]? := by
  have hlen := List.length_pos_iff.mpr h
  have hidx : (r : Int).tmod order.length = ((r % order.length : ℕ) : Int) := by
    rw [Int.tmod_eq_emod_of_nonneg (Int.natCast_nonneg r), Int.natCast_mod]
  simp only [slot, hidx, Int.natCast_nonneg, if_true, Int.toNat_natCast]
  rw [List.getElem?_rotate hlen, Nat.zero_add]

theorem slots_rotate {order : List UUID} {n r : ℕ} (hn : n ≤ order.length)
    (hr : r + n ≤ 2 ^ 63) : slots order n r = some ((order.rotate r).take n) := by
  induction n generalizing r with
  | zero => rfl
  | succ n ih =>
    have hne : order ≠ [] := List.length_pos_iff.mp (by omega)
    obtain ⟨p, rest, hrot⟩ := List.exists_cons_of_ne_nil (mt List.rotate_eq_nil_iff.mp hne)
    have hslot : slot order r = some p := by
      rw [slot_rotate hne, hrot, List.getElem?_cons_zero]
    have hrest : n ≤ rest.length := by
      have hlen := congrArg List.length hrot
      rw [List.length_rotate, List.length_cons] at hlen
      omega
    have hnext : (order.rotate (r + 1)).take n = rest.take n := by
      rw [← List.rotate_rotate, hrot, List.rotate_cons_succ, List.rotate_zero,
        List.take_append_of_le_length hrest]
    have htail : slots order n (advance r) = some (rest.take n) := by
      cases n with
      | zero => rfl
      | succ n =>
        have hadvance : advance r = (r + 1 : ℕ) := wrapInt_eq (by omega) (by omega)
        rw [hadvance, ih (by omega) (by omega), hnext]
    rw [slots, hslot, htail, hrot, List.take_succ_cons]
    rfl

/-- A scan that comes by a pipeline that is ready finds one. -/
theorem reaches_of_slots {schedulers : GoMap UUID SinglePipelineScheduler} {order : List UUID}
    {r : Int} {ids : List UUID} (h : slots order n r = some ids)
    (hready : ∃ p ∈ ids, Ready schedulers p) : Reaches schedulers order n r := by
  induction n generalizing r ids with
  | zero =>
    cases h
    obtain ⟨p, hp, -⟩ := hready
    cases hp
  | succ n ih =>
    rw [slots] at h
    cases hslot : slot order r with
    | none =>
      rw [hslot] at h
      cases h
    | some q =>
      rw [hslot] at h
      obtain ⟨rest, hrest, rfl⟩ := Option.map_eq_some_iff.mp h
      obtain ⟨p, hp, hpr⟩ := hready
      rcases List.mem_cons.mp hp with rfl | hp
      · exact ⟨p, hslot, .inl hpr⟩
      · exact ⟨q, hslot, .inr (ih hrest ⟨p, hp, hpr⟩)⟩

/-- A scheduler whose index has not run through all numbers is work conserving; it is fair if no
pipeline was added twice. -/
theorem fair_of_nodup {r : ℕ} (hqueue : s.executionQueue = []) (hindex : s.roundRobinIndex = r)
    (hr : r + s.pipelineOrder.length ≤ 2 ^ 63) :
    Conserving s ∧ (s.pipelineOrder.Nodup → Fair s) := by
  have hslots := @slots_rotate s.pipelineOrder _ _ le_rfl hr
  rw [List.take_of_length_le (List.length_rotate ..).le, ← hindex] at hslots
  refine ⟨(conserving_iff hqueue).mpr fun ⟨p, hp, hready⟩ =>
    reaches_of_slots hslots ⟨p, List.mem_rotate.mpr hp, hready⟩, fun hn => ?_⟩
  rw [fair_iff hqueue, hn.dedup]
  exact ⟨_, hslots, List.nodup_rotate.mpr hn⟩

/-- Two pipelines, the second of them ready, and an index in the middle. -/
def sampleTwo : RoundRobinScheduler where
  pipelineOrder := [1, 2]
  schedulers := AList.insert 2 { pipeline := ⟨2, "", "", "", []⟩, executableBlocks := [.zero] } ∅
  roundRobinIndex := 2 ^ 40

theorem next_fair_two : Conserving sampleTwo ∧ Fair sampleTwo :=
  (next_fair_iff sampleTwo rfl).mpr
    ⟨fun _ => ⟨1, by decide, .inr ⟨2, by decide, .inl ⟨_, _, _, rfl, rfl⟩⟩⟩,
      [1, 2], by decide, by decide⟩

/-- A pipeline that is added twice is served twice before the other one; an index that is about
to overflow leads to a negative position. -/
theorem next_fair_fails :
    ¬Fair { toMultiTenantScheduler := (((({} : MultiTenantScheduler).addPipeline
        ⟨1, "", "", "", []⟩).addPipeline ⟨1, "", "", "", []⟩).addPipeline ⟨2, "", "", "", []⟩) } ∧
      ¬Fair { pipelineOrder := [1, 2, 3], roundRobinIndex := 2 ^ 63 - 1 } := by
  constructor
  · rw [fair_iff rfl]
    rintro ⟨ids, hslots, hn⟩
    have htwice : slots [1, 1, 2] 2 0 = some [1, 1] := by decide
    cases htwice.symm.trans hslots
    exact absurd hn (by decide)
  · rw [fair_iff rfl]
    rintro ⟨ids, hslots, -⟩
    have hpanic : slots [1, 2, 3] 3 (2 ^ 63 - 1) = none := by decide
    cases hpanic.symm.trans hslots

end RoundRobinScheduler
end Spade
