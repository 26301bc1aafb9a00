import Mathlib.Data.List.Basic
import Mathlib.Algebra.Order.Group.Int

set_option autoImplicit false

/-!
# From one element to another by successors

A loop that goes from one element to the next up to a last one. If the next element is the
successor among the valid ones, then it lists those that lie between, in order.
-/
namespace Successors

variable {α : Type*}

/-- Why no list is given back. -/
inductive Halt where
  | overflow | outOfFuel
  deriving DecidableEq

section Loop
variable [DecidableEq α] (next : α → Option α) (past : α → Bool) (stop : α)

/-- There may be no next element to go to. -/
def upTo : ℕ → α → List α → Except Halt (List α)
  | 0, _, _ => .error .outOfFuel
  | n + 1, x, out =>
    if x = stop then .ok (out ++ [x])
    else match next x with
      | none => .error .overflow
      | some y => if past y then .ok (out ++ [x]) else upTo n y (out ++ [x])

end Loop

/-- The elements are placed on a line, and `next` goes up on it. -/
structure Ascends (W : α → Prop) (key : α → ℤ) (next : α → Option α) : Prop where
  inj : ∀ x y, W x → W y → key x = key y → x = y
  step : ∀ x y, W x → next x = some y → W y ∧ key x < key y

/-- Before the last element, the next one is the next valid one. -/
structure Follows (W V : α → Prop) (key : α → ℤ) (next : α → Option α) (stop : α) : Prop
    extends Ascends W key next where
  valid : ∀ x, V x → W x
  next_valid : ∀ x, V x → key x < key stop → ∃ y, next x = some y ∧ V y ∧
    ∀ v, V v → key x < key v → key y ≤ key v

variable [DecidableEq α] {W V : α → Prop} {key : α → ℤ} {next : α → Option α} {past : α → Bool}
  {stop : α}

theorem mem_upTo {n : ℕ} {x : α} {out l : List α} (h : upTo next past stop n x out = .ok l) :
    x ∈ l ∧ ∀ v ∈ out, v ∈ l := by
  induction n generalizing x out with
  | zero => cases h
  | succ n ih =>
    have hlast : ∀ {l : List α}, (Except.ok (out ++ [x]) : Except Halt (List α)) = .ok l →
        x ∈ l ∧ ∀ v ∈ out, v ∈ l := by
      rintro _ ⟨⟩
      exact ⟨List.mem_append_right out (List.mem_singleton_self x),
        fun v hv => List.mem_append_left _ hv⟩
    unfold upTo at h
    split_ifs at h with hstop
    · exact hlast h
    · cases hnext : next x with
      | none =>
        rw [hnext] at h
        cases h
      | some y =>
        simp only [hnext] at h
        split_ifs at h with hpast
        · exact hlast h
        · have hmem := (ih h).2
          exact ⟨hmem x (List.mem_append_right out (List.mem_singleton_self x)),
            fun v hv => hmem v (List.mem_append_left _ hv)⟩

/-- With fuel for the way on the line there is always enough. -/
theorem upTo_fuel (hasc : Ascends W key next) (hpast : ∀ x, W x → (past x ↔ key stop < key x))
    {n : ℕ} {x : α} (out : List α) (hx : W x) (hn : key stop - key x < n) (hpos : 0 < n) :
    upTo next past stop n x out ≠ .error .outOfFuel := by
  induction n generalizing x out with
  | zero => exact absurd hpos (lt_irrefl 0)
  | succ n ih =>
    unfold upTo
    split_ifs with hstop
    · exact nofun
    · cases hnext : next x with
      | none => exact nofun
      | some y =>
        obtain ⟨hy, hlt⟩ := hasc.step x y hx hnext
        simp only
        split_ifs with hp
        · exact nofun
        · have hle := not_lt.mp (mt (hpast y hy).mpr hp)
          exact ih _ hy (by omega) (by omega)

/-- The loop lists the valid elements from the first to the last. -/
theorem upTo_ok (hfol : Follows W V key next stop) (hstop : W stop)
    (hpast : ∀ x, W x → (past x ↔ key stop < key x)) {n : ℕ} {x : α} (out : List α) (hx : V x)
    (hle : key x ≤ key stop) (hn : key stop - key x < n) :
    ∃ l, upTo next past stop n x out = .ok (out ++ l) ∧
      l.Pairwise (fun a b => key a < key b) ∧
      ∀ v, v ∈ l ↔ V v ∧ key x ≤ key v ∧ key v ≤ key stop := by
  have hone : ∀ x, V x → (∀ v, V v → key x < key v → key stop < key v) → key x ≤ key stop →
      ∀ v, v ∈ [x] ↔ V v ∧ key x ≤ key v ∧ key v ≤ key stop := by
    intro x hx hlast hle v
    rw [List.mem_singleton]
    constructor
    · rintro rfl
      exact ⟨hx, le_refl _, hle⟩
    · rintro ⟨hv, hxv, hvs⟩
      refine (hfol.inj x v (hfol.valid x hx) (hfol.valid v hv) (le_antisymm hxv ?_)).symm
      exact not_lt.mp fun hlt => (hlast v hv hlt).not_ge hvs
  induction n generalizing x out with
  | zero => omega
  | succ n ih =>
    unfold upTo
    by_cases heq : x = stop
    · rw [if_pos heq]
      exact ⟨[x], rfl, List.pairwise_singleton _ x,
        hone x hx (fun v _ hlt => heq ▸ hlt) hle⟩
    · have hlt : key x < key stop :=
        lt_of_le_of_ne hle fun hk => heq (hfol.inj x stop (hfol.valid x hx) hstop hk)
      obtain ⟨y, hnext, hy, hfirst⟩ := hfol.next_valid x hx hlt
      obtain ⟨hyW, hxy⟩ := hfol.step x y (hfol.valid x hx) hnext
      rw [if_neg heq, hnext]
      simp only
      by_cases hend : key stop < key y
      · rw [if_pos ((hpast y hyW).mpr hend)]
        exact ⟨[x], rfl, List.pairwise_singleton _ x,
          hone x hx (fun v hv hv' => hend.trans_le (hfirst v hv hv')) hle⟩
      · rw [if_neg (mt (hpast y hyW).mp hend)]
        obtain ⟨l, hl, hpair, hmem⟩ := ih (out ++ [x]) hy (not_lt.mp hend) (by omega)
        refine ⟨x :: l, by rw [hl, List.append_assoc]; rfl, List.pairwise_cons.mpr ⟨?_, hpair⟩, ?_⟩
        · exact fun v hv => hxy.trans_le ((hmem v).mp hv).2.1
        · intro v
          rw [List.mem_cons, hmem]
          constructor
          · rintro (rfl | ⟨hv, hyv, hvs⟩)
            · exact ⟨hx, le_refl _, hle⟩
            · exact ⟨hv, hxy.le.trans hyv, hvs⟩
          · rintro ⟨hv, hxv, hvs⟩
            obtain hk | hk := hxv.eq_or_lt
            · exact .inl (hfol.inj x v (hfol.valid x hx) (hfol.valid v hv) hk).symm
            · exact .inr ⟨hv, hfirst v hv hk, hvs⟩

/-- The same in terms of an order in which the loop compares. -/
theorem upTo_between {before : α → α → Prop} [DecidableRel before]
    (hfol : Follows W V key next stop) (hstop : W stop)
    (hbefore : ∀ a b, W a → W b → (before a b ↔ key a < key b)) {n : ℕ} {x : α} (hx : V x)
    (hle : ¬before stop x) (hn : key stop - key x < n) :
    ∃ l, upTo next (fun y => before stop y) stop n x [] = .ok l ∧ l.Pairwise before ∧
      ∀ v, v ∈ l ↔ V v ∧ ¬before v x ∧ ¬before stop v := by
  have hxW := hfol.valid x hx
  obtain ⟨l, hl, hpair, hmem⟩ := upTo_ok hfol hstop
    (fun y hy => decide_eq_true_iff.trans (hbefore stop y hstop hy)) [] hx
    (not_lt.mp (mt (hbefore stop x hstop hxW).mpr hle)) hn
  have hW : ∀ v ∈ l, W v := fun v hv => hfol.valid v ((hmem v).mp hv).1
  refine ⟨l, hl, hpair.imp_of_mem fun ha hb hlt => (hbefore _ _ (hW _ ha) (hW _ hb)).mpr hlt,
    fun v => (hmem v).trans (and_congr_right fun hv => ?_)⟩
  have hvW := hfol.valid v hv
  rw [hbefore v x hvW hxW, hbefore stop v hstop hvW, not_lt, not_lt]

end Successors
