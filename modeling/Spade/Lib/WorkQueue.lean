import Mathlib.Data.List.Basic

set_option autoImplicit false

/-!
# A work queue with acknowledgements

A message is known by its number of arrival. It is handed to a consumer and stays with
it until the consumer settles it. What is not settled when the connection is lost goes
back to its place in the queue.
-/
namespace Spade

inductive WorkQueue.Place where
  | queued | held | accepted | discarded
  deriving DecidableEq

structure WorkQueue (B : Type) where
  entries : List (B × WorkQueue.Place) := []

namespace WorkQueue
variable {B : Type}

def place (q : WorkQueue B) (n : ℕ) : Option Place := q.entries[n]?.map Prod.snd

def body (q : WorkQueue B) (n : ℕ) : Option B := q.entries[n]?.map Prod.fst

def enqueue (b : B) (q : WorkQueue B) : WorkQueue B := ⟨q.entries ++ [(b, .queued)]⟩

/-- The message that is handed out next. -/
def next (q : WorkQueue B) : Option ℕ := q.entries.findIdx? fun e => e.2 = .queued

def move (n : ℕ) (p : Place) (q : WorkQueue B) : WorkQueue B :=
  ⟨q.entries.modify n fun e => (e.1, p)⟩

def deliver (n : ℕ) (q : WorkQueue B) : WorkQueue B := q.move n .held

/-- Only what is held can be settled. -/
def settle (n : ℕ) (p : Place) (q : WorkQueue B) : WorkQueue B :=
  if q.place n = some .held then q.move n p else q

def disconnect (q : WorkQueue B) : WorkQueue B :=
  ⟨q.entries.map fun e => if e.2 = .held then (e.1, .queued) else e⟩

variable (q : WorkQueue B) (n k : ℕ) (p : Place)

theorem place_enqueue {n : ℕ} {p : Place} (b : B) (h : q.place n = some p) :
    (q.enqueue b).place n = some p := by
  obtain ⟨e, he, rfl⟩ := Option.map_eq_some_iff.mp h
  obtain ⟨hn, rfl⟩ := List.getElem?_eq_some_iff.mp he
  rw [place, enqueue, List.getElem?_append_left hn, he, Option.map_some]

theorem body_enqueue {n : ℕ} {b' : B} (b : B) (h : q.body n = some b') :
    (q.enqueue b).body n = some b' := by
  obtain ⟨e, he, rfl⟩ := Option.map_eq_some_iff.mp h
  obtain ⟨hn, rfl⟩ := List.getElem?_eq_some_iff.mp he
  rw [body, enqueue, List.getElem?_append_left hn, he, Option.map_some]

theorem place_move : (q.move n p).place k =
    if k = n then (q.place k).map fun _ => p else q.place k := by
  unfold place move
  rw [List.getElem?_modify]
  by_cases h : k = n
  · subst h
    cases q.entries[k]? <;> simp
  · rw [if_neg h]
    cases q.entries[k]? <;> simp [Ne.symm h]

@[simp] theorem body_move : (q.move n p).body k = q.body k := by
  unfold body move
  rw [List.getElem?_modify]
  cases q.entries[k]? with
  | none => rfl
  | some e => by_cases h : n = k <;> simp [h]

theorem place_settle : (q.settle n p).place k =
    if k = n ∧ q.place n = some .held then some p else q.place k := by
  unfold settle
  by_cases h : q.place n = some .held
  · rw [if_pos h, place_move]
    by_cases hk : k = n
    · subst hk
      rw [if_pos rfl, if_pos ⟨rfl, h⟩, h, Option.map_some]
    · rw [if_neg hk, if_neg fun hc => hk hc.1]
  · rw [if_neg h, if_neg fun hc => h hc.2]

@[simp] theorem body_settle : (q.settle n p).body k = q.body k := by
  unfold settle
  split_ifs
  · exact body_move q n k p
  · rfl

theorem place_disconnect : q.disconnect.place k =
    (q.place k).map fun p => if p = .held then .queued else p := by
  unfold place disconnect
  rw [List.getElem?_map, Option.map_map, Option.map_map]
  congr 1
  funext e
  by_cases h : e.2 = .held <;> simp [h]

@[simp] theorem body_disconnect : q.disconnect.body k = q.body k := by
  unfold body disconnect
  rw [List.getElem?_map, Option.map_map]
  congr 1
  funext e
  by_cases h : e.2 = .held <;> simp [h]

/-- What is handed out stands in the queue. -/
theorem place_next {q : WorkQueue B} {n : ℕ} (h : q.next = some n) : q.place n = some .queued := by
  obtain ⟨hn, hp, -⟩ := List.findIdx?_eq_some_iff_getElem.mp h
  rw [place, List.getElem?_eq_getElem hn, Option.map_some]
  simpa using hp

theorem body_next {q : WorkQueue B} {n : ℕ} (h : q.next = some n) : ∃ b, q.body n = some b := by
  obtain ⟨e, he, -⟩ := Option.map_eq_some_iff.mp (place_next h)
  exact ⟨e.1, by rw [body, he, Option.map_some]⟩

theorem place_deliver_next {q : WorkQueue B} {n : ℕ} (h : q.next = some n) :
    (q.deliver n).place n = some .held := by
  rw [deliver, place_move, if_pos rfl, place_next h, Option.map_some]

theorem place_deliver_ne {q : WorkQueue B} {n k : ℕ} (h : k ≠ n) :
    (q.deliver n).place k = q.place k := by
  rw [deliver, place_move, if_neg h]

end WorkQueue
end Spade
