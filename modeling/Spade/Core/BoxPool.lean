import Mathlib.Data.List.Perm.Subperm
import Spade.Lib.GoMap
import Spade.Lib.Runs

set_option autoImplicit false

/-!
# The pool of sandbox boxes

Every run of a block subprocess allocates the id of an isolate box, and releases it when it
returns. The calls of one worker run concurrently; the two operations hold a mutex.
-/
namespace Spade
open Runs

def isolateBoxMax : ℕ := 999

structure BoxPool where
  isolateBoxUsed : GoMap ℕ Bool := ∅
  isolateBoxNext : ℕ := 0

namespace BoxPool

def isUsed (p : BoxPool) (id : ℕ) : Bool := (p.isolateBoxUsed.lookup id).getD false

/-- The id given out; 0 if the pool is exhausted. -/
def allocateIsolateBoxID (p : BoxPool) : ℕ × BoxPool :=
  match (List.range isolateBoxMax).find? fun i =>
      !p.isUsed ((p.isolateBoxNext + i) % isolateBoxMax) with
  | some i =>
    let id := (p.isolateBoxNext + i) % isolateBoxMax
    (id, ⟨p.isolateBoxUsed.insert id true, (id + 1) % isolateBoxMax⟩)
  | none => (0, p)

def releaseIsolateBoxID (p : BoxPool) (id : ℕ) : BoxPool :=
  { p with isolateBoxUsed := p.isolateBoxUsed.erase id }

theorem isUsed_release (p : BoxPool) (id id' : ℕ) :
    (p.releaseIsolateBoxID id).isUsed id' = true ↔ id' ≠ id ∧ p.isUsed id' = true := by
  unfold isUsed releaseIsolateBoxID
  rw [GoMap.lookup_erase_if]
  by_cases h : id' = id
  · rw [if_pos h]
    exact ⟨nofun, fun hused => absurd h hused.1⟩
  · rw [if_neg h]
    exact ⟨fun hused => ⟨h, hused⟩, And.right⟩

/-- Whichever id the search starts from, it meets all of them. -/
theorem exists_offset (start : ℕ) {id : ℕ} (h : id < isolateBoxMax) :
    ∃ i ∈ List.range isolateBoxMax, (start + i) % isolateBoxMax = id := by
  unfold isolateBoxMax at h ⊢
  refine ⟨(id + 999 - start % 999) % 999, List.mem_range.mpr (by omega), by omega⟩

/-- Either an id that was not used is marked and given out, or all are used. -/
theorem allocate_cases (p : BoxPool) :
    (∃ id p', p.allocateIsolateBoxID = (id, p') ∧ id < isolateBoxMax ∧ p.isUsed id = false ∧
      ∀ id', p'.isUsed id' = true ↔ id' = id ∨ p.isUsed id' = true) ∨
    p.allocateIsolateBoxID = (0, p) ∧ ∀ id < isolateBoxMax, p.isUsed id = true := by
  unfold allocateIsolateBoxID
  cases hfind : (List.range isolateBoxMax).find? fun i =>
      !p.isUsed ((p.isolateBoxNext + i) % isolateBoxMax) with
  | some i =>
    have hfree := List.find?_some hfind
    refine .inl ⟨_, _, rfl, Nat.mod_lt _ (by decide), (Bool.not_eq_true' _).mp hfree, fun id' => ?_⟩
    unfold isUsed
    rw [GoMap.lookup_insert_if]
    by_cases h : id' = (p.isolateBoxNext + i) % isolateBoxMax
    · rw [if_pos h]
      exact ⟨fun _ => .inl h, fun _ => rfl⟩
    · rw [if_neg h]
      exact ⟨.inr, fun hused => hused.resolve_left h⟩
  | none =>
    refine .inr ⟨rfl, fun id hid => ?_⟩
    obtain ⟨i, hi, rfl⟩ := exists_offset p.isolateBoxNext hid
    have hused := List.find?_eq_none.mp hfind i hi
    simpa using hused

end BoxPool

/-- A call of `RunBlockSubprocess` allocates a box when it starts, and releases it in the end. -/
inductive BoxStep (C : Type) where
  | start (c : C)
  | finish (c : C)

structure Boxes (C : Type) where
  pool : BoxPool := {}
  held : GoMap C ℕ := ∅

namespace Boxes
variable {C : Type} [DecidableEq C]

/-- A call starts at most once, and finishes only after it has started. -/
def step (s : Boxes C) : BoxStep C → Boxes C
  | .start c =>
    if c ∈ s.held then s
    else
      let r := s.pool.allocateIsolateBoxID
      ⟨r.2, s.held.insert c r.1⟩
  | .finish c =>
    match s.held.lookup c with
    | some id => ⟨s.pool.releaseIsolateBoxID id, s.held.erase c⟩
    | none => s

/-- No two calls hold one id, and an id that is marked free is held by none. -/
def Exclusive (s : Boxes C) : Prop :=
  (∀ c c' id, s.held.lookup c = some id → s.held.lookup c' = some id → c = c') ∧
    ∀ id, s.pool.isUsed id = false → ∀ c, s.held.lookup c ≠ some id

/-- A call that starts finds fewer calls than there are boxes. -/
def Room (s : Boxes C) : BoxStep C → Prop
  | .start c => c ∈ s.held ∨ s.held.keys.length < isolateBoxMax
  | .finish _ => True

/-- A step that starts no call and ends none, and the three kinds of the others. -/
theorem step_cases (s : Boxes C) (a : BoxStep C) :
    (s.step a = s ∧ s.Room a) ∨
    (∃ c id p, a = .start c ∧ c ∉ s.held ∧ id < isolateBoxMax ∧ s.pool.isUsed id = false ∧
      (∀ id', p.isUsed id' = true ↔ id' = id ∨ s.pool.isUsed id' = true) ∧
      s.step a = ⟨p, s.held.insert c id⟩) ∨
    (∃ c, a = .start c ∧ c ∉ s.held ∧ (∀ id < isolateBoxMax, s.pool.isUsed id = true) ∧
      s.step a = ⟨s.pool, s.held.insert c 0⟩) ∨
    ∃ c id, a = .finish c ∧ s.held.lookup c = some id ∧
      s.step a = ⟨s.pool.releaseIsolateBoxID id, s.held.erase c⟩ := by
  cases a with
  | start c =>
    by_cases hc : c ∈ s.held
    · exact .inl ⟨if_pos hc, .inl hc⟩
    · have hstep : s.step (.start c) = ⟨s.pool.allocateIsolateBoxID.2,
          s.held.insert c s.pool.allocateIsolateBoxID.1⟩ := if_neg hc
      rcases s.pool.allocate_cases with ⟨id, p, heq, hid, hfree, hused⟩ | ⟨heq, hall⟩
      · rw [heq] at hstep
        exact .inr (.inl ⟨c, id, p, rfl, hc, hid, hfree, hused, hstep⟩)
      · rw [heq] at hstep
        exact .inr (.inr (.inl ⟨c, rfl, hc, hall, hstep⟩))
  | finish c =>
    cases hl : s.held.lookup c with
    | none =>
      refine .inl ⟨?_, trivial⟩
      simp only [step, hl]
    | some id =>
      refine .inr (.inr (.inr ⟨c, id, rfl, hl, ?_⟩))
      simp only [step, hl]

/-- A marked id is held, and the ids held are those of boxes. -/
structure Accounted (s : Boxes C) : Prop where
  held_of_used : ∀ id, s.pool.isUsed id = true → ∃ c, s.held.lookup c = some id
  held_lt : ∀ c id, s.held.lookup c = some id → id < isolateBoxMax

theorem Accounted.empty : Accounted ({} : Boxes C) := ⟨nofun, nofun⟩

theorem Exclusive.empty : Exclusive ({} : Boxes C) := ⟨nofun, nofun⟩

variable {s : Boxes C}

theorem lookup_insert_of_ne {c c' : C} {id : ℕ} {m : GoMap C ℕ} (hc : c ∉ m)
    (h : m.lookup c' = some id) (id' : ℕ) : (m.insert c id').lookup c' = some id := by
  have hne : c' ≠ c := fun heq => hc (heq ▸ GoMap.mem_of_lookup h)
  rw [GoMap.lookup_insert_if, if_neg hne, h]

/-- What is held after a start, and by whom. -/
theorem lookup_insert_cases {c c' : C} {id id' : ℕ} {m : GoMap C ℕ}
    (h : (m.insert c id).lookup c' = some id') :
    c' = c ∧ id' = id ∨ m.lookup c' = some id' := by
  rw [GoMap.lookup_insert_if] at h
  split_ifs at h with hc
  · exact .inl ⟨hc, (Option.some.inj h).symm⟩
  · exact .inr h

theorem lookup_erase_eq {c c' : C} {id : ℕ} {m : GoMap C ℕ} :
    (m.erase c).lookup c' = some id ↔ c' ≠ c ∧ m.lookup c' = some id := by
  rw [GoMap.lookup_erase_if]
  split_ifs with hc
  · exact ⟨nofun, fun h => absurd hc h.1⟩
  · exact ⟨fun h => ⟨hc, h⟩, And.right⟩

theorem Accounted.step (h : Accounted s) (a : BoxStep C) : Accounted (s.step a) := by
  rcases s.step_cases a with ⟨heq, -⟩ | ⟨c, id, p, -, hc, hid, -, hused, heq⟩ |
    ⟨c, -, hc, -, heq⟩ | ⟨c, id, -, hl, heq⟩
  · rwa [heq]
  · rw [heq]
    refine ⟨fun id' hu => ?_, fun c' id' hl => ?_⟩
    · rcases (hused id').mp hu with rfl | hu
      · exact ⟨c, AList.lookup_insert s.held⟩
      · obtain ⟨c', hc'⟩ := h.held_of_used id' hu
        exact ⟨c', lookup_insert_of_ne hc hc' id⟩
    · rcases lookup_insert_cases hl with ⟨-, rfl⟩ | hl
      · exact hid
      · exact h.held_lt c' id' hl
  · rw [heq]
    refine ⟨fun id' hu => ?_, fun c' id' hl => ?_⟩
    · obtain ⟨c', hc'⟩ := h.held_of_used id' hu
      exact ⟨c', lookup_insert_of_ne hc hc' 0⟩
    · rcases lookup_insert_cases hl with ⟨-, rfl⟩ | hl
      · exact Nat.zero_lt_succ _
      · exact h.held_lt c' id' hl
  · rw [heq]
    refine ⟨fun id' hu => ?_, fun c' id' hl' => h.held_lt c' id' (lookup_erase_eq.mp hl').2⟩
    obtain ⟨hne, hu⟩ := (BoxPool.isUsed_release ..).mp hu
    obtain ⟨c', hc'⟩ := h.held_of_used id' hu
    have hcc : c' ≠ c := fun heq => by
      rw [heq, hl] at hc'
      exact hne (Option.some.inj hc').symm
    exact ⟨c', lookup_erase_eq.mpr ⟨hcc, hc'⟩⟩

/-- The ids held, call by call. -/
def ids (s : Boxes C) : List ℕ := s.held.items.map Prod.snd

theorem mem_ids {id : ℕ} : id ∈ s.ids ↔ ∃ c, s.held.lookup c = some id := by
  unfold ids
  rw [List.mem_map]
  constructor
  · rintro ⟨⟨c, id'⟩, hm, rfl⟩
    exact ⟨c, (GoMap.mem_items ..).mp hm⟩
  · rintro ⟨c, hl⟩
    exact ⟨(c, id), (GoMap.mem_items ..).mpr hl, rfl⟩

omit [DecidableEq C] in
theorem length_ids : s.ids.length = s.held.keys.length := by
  rw [ids, List.length_map, ← GoMap.items_keys, List.length_map]

theorem Exclusive.nodup_ids (h : Exclusive s) : s.ids.Nodup := by
  refine List.Nodup.map_on ?_ (List.Nodup.of_map _ (GoMap.items_nodup s.held))
  rintro ⟨c, id⟩ hm ⟨c', id'⟩ hm' rfl
  rw [h.1 c c' id ((GoMap.mem_items ..).mp hm) ((GoMap.mem_items ..).mp hm')]

/-- All ids are marked only if there are as many calls as boxes. -/
theorem Accounted.full (h : Accounted s) (hall : ∀ id < isolateBoxMax, s.pool.isUsed id = true) :
    isolateBoxMax ≤ s.held.keys.length := by
  have hsub : List.range isolateBoxMax ⊆ s.ids := fun id hid =>
    mem_ids.mpr (h.held_of_used id (hall id (List.mem_range.mp hid)))
  rw [← length_ids, ← @List.length_range isolateBoxMax]
  exact (List.nodup_range.subperm hsub).length_le

theorem Accounted.ids_subset (h : Accounted s) : s.ids ⊆ List.range isolateBoxMax := fun id hid =>
  have ⟨c, hl⟩ := mem_ids.mp hid
  List.mem_range.mpr (h.held_lt c id hl)

/-- As many calls as there are boxes hold all of them, and no more calls hold different ones. -/
theorem Exclusive.all_held (h : Exclusive s) (ha : Accounted s)
    (hfull : isolateBoxMax ≤ s.held.keys.length) {id : ℕ} (hid : id < isolateBoxMax) :
    ∃ c, s.held.lookup c = some id := by
  have hperm := (h.nodup_ids.subperm ha.ids_subset).perm_of_length_le
    (by rwa [List.length_range, length_ids])
  exact mem_ids.mp (hperm.mem_iff.mpr (List.mem_range.mpr hid))

/-- A step keeps the boxes apart exactly if there is room for the call that it starts. -/
theorem Exclusive.step_iff (h : Exclusive s) (ha : Accounted s) (a : BoxStep C) :
    Exclusive (s.step a) ↔ s.Room a := by
  rcases s.step_cases a with ⟨heq, hroom⟩ | ⟨c, id, p, rfl, hc, hid, hfree, hused, heq⟩ |
    ⟨c, rfl, hc, hall, heq⟩ | ⟨c, id, rfl, hl, heq⟩
  · rw [heq]
    exact iff_of_true h hroom
  · rw [heq]
    refine iff_of_true ⟨fun c₁ c₂ id' h₁ h₂ => ?_, fun id' hu c' hl => ?_⟩ ?_
    · rcases lookup_insert_cases h₁ with ⟨rfl, rfl⟩ | hl₁
      · rcases lookup_insert_cases h₂ with ⟨rfl, -⟩ | hl₂
        · rfl
        · exact absurd hl₂ (h.2 id' hfree c₂)
      · rcases lookup_insert_cases h₂ with ⟨rfl, rfl⟩ | hl₂
        · exact absurd hl₁ (h.2 id' hfree c₁)
        · exact h.1 c₁ c₂ id' hl₁ hl₂
    · rw [Bool.eq_false_iff, Ne, hused, not_or] at hu
      rcases lookup_insert_cases hl with ⟨-, rfl⟩ | hl
      · exact hu.1 rfl
      · exact h.2 id' (Bool.eq_false_iff.mpr hu.2) c' hl
    · refine .inr (Nat.lt_of_not_le fun hfull => ?_)
      obtain ⟨c', hc'⟩ := h.all_held ha hfull hid
      exact h.2 id hfree c' hc'
  · rw [heq]
    refine iff_of_false (fun hex => ?_) (not_or.mpr ⟨hc, Nat.not_lt.mpr (ha.full hall)⟩)
    obtain ⟨c', hc'⟩ := ha.held_of_used 0 (hall 0 (Nat.zero_lt_succ _))
    have hcc := hex.1 c c' 0 (AList.lookup_insert s.held) (lookup_insert_of_ne hc hc' 0)
    exact hc (hcc ▸ GoMap.mem_of_lookup hc')
  · rw [heq]
    refine iff_of_true ⟨fun c₁ c₂ id' h₁ h₂ =>
      h.1 c₁ c₂ id' (lookup_erase_eq.mp h₁).2 (lookup_erase_eq.mp h₂).2,
      fun id' hu c' hl' => ?_⟩ trivial
    obtain ⟨hne, hl'⟩ := lookup_erase_eq.mp hl'
    rw [Bool.eq_false_iff, Ne, BoxPool.isUsed_release, not_and] at hu
    have hid : id' ≠ id := fun heq => hne (h.1 c' c id (heq ▸ hl') hl)
    exact h.2 id' (Bool.eq_false_iff.mpr (hu hid)) c' hl'

theorem always_exclusive_iff (h : Exclusive s) (ha : Accounted s) (l : List (BoxStep C)) :
    Always step Exclusive s l ↔ Along step Room s l :=
  always_iff_along_of_invariant (R := fun _ _ => True) step (fun _ a ha _ => ha.step a)
    (fun _ a ha _ h => h.step_iff ha a) ha h (along_of_prefixes step fun _ _ _ _ => trivial)

theorem Accounted.run (ha : Accounted s) (l : List (BoxStep C)) :
    Accounted (Runs.run Boxes.step s l) :=
  invariant (Q := fun _ _ => True) Boxes.step (fun _ a ha _ => ha.step a) ha
    (along_of_prefixes Boxes.step fun _ _ _ _ => trivial)

/-- The boxes are exclusive exactly as long as every call that starts finds one that is free; a
call that finds none is given 0, and nothing is marked for it. -/
theorem boxes_exclusive (l : List (BoxStep C)) :
    (Always step Exclusive {} l ↔ Along step Room {} l) ∧
      (Along step Room {} l → isolateBoxMax ≤ (run step {} l).held.keys.length →
        (run step {} l).pool.allocateIsolateBoxID = (0, (run step {} l).pool)) := by
  refine ⟨always_exclusive_iff .empty .empty l, fun hroom hfull => ?_⟩
  have hex := ((always_exclusive_iff .empty .empty l).mpr hroom).last
  have ha := Accounted.empty.run l
  rcases (run step {} l).pool.allocate_cases with ⟨id, p, heq, hid, hfree, -⟩ | ⟨heq, -⟩
  · obtain ⟨c, hc⟩ := hex.all_held ha hfull hid
    exact absurd hc (hex.2 id hfree c)
  · exact heq

/-- Calls that start one after the other. -/
theorem length_starts (cs : List C) (hn : cs.Nodup) (s : Boxes C) (hnew : ∀ c ∈ cs, c ∉ s.held) :
    (run step s (cs.map .start)).held.keys.length = s.held.keys.length + cs.length := by
  induction cs generalizing s with
  | nil => rfl
  | cons c cs ih =>
    obtain ⟨hnotin, hn⟩ := List.nodup_cons.mp hn
    have hc := hnew c List.mem_cons_self
    have hstep : s.step (.start c) = ⟨s.pool.allocateIsolateBoxID.2,
        s.held.insert c s.pool.allocateIsolateBoxID.1⟩ := if_neg hc
    have hkeys : (s.step (.start c)).held.keys = c :: s.held.keys := by
      rw [hstep, AList.keys_insert, List.erase_of_not_mem hc]
    have hlater : ∀ c' ∈ cs, c' ∉ (s.step (.start c)).held := fun c' hc' hin => by
      rw [AList.mem_keys, hkeys] at hin
      rcases List.mem_cons.mp hin with rfl | hin
      · exact hnotin hc'
      · exact hnew c' (List.mem_cons_of_mem _ hc') hin
    rw [List.map_cons, run_cons, ih hn _ hlater, hkeys, List.length_cons, List.length_cons,
      Nat.add_assoc, Nat.add_comm 1]

/-- More calls than boxes, all running at one time, do not hold different boxes. -/
theorem not_always_starts {n : ℕ} (hlt : isolateBoxMax < n) :
    ¬Always step Exclusive {} ((List.range n).map BoxStep.start) := by
  intro h
  have hle := (h.last.nodup_ids.subperm (Accounted.empty.run _).ids_subset).length_le
  rw [length_ids, length_starts _ List.nodup_range _ fun c _ => AList.notMem_empty c,
    List.length_range, List.length_range] at hle
  exact absurd (Nat.le_trans (Nat.le_add_left n _) hle) (Nat.not_le.mpr hlt)

theorem boxes_exclusive_fails :
    ¬Always step Exclusive {} ((List.range 1000).map BoxStep.start) :=
  not_always_starts (Nat.lt_succ_self 999)

end Boxes
end Spade
