import Mathlib.Data.List.Basic

set_option autoImplicit false

/-!
# Steps that change nothing

A fallible loop over a list, whose step for an item may leave the state as it is.
-/
namespace Spade.IdleSteps
variable {S X E : Type} {next : S → X → Except E S} {s s' : S} {l l' : List X}

/-- The step for the item leaves the state as it is. -/
def Idle (next : S → X → Except E S) (s : S) (x : X) : Prop := next s x = .ok s

theorem bind_ok {A B : Type} {x : Except E A} {f : A → Except E B} {b : B} :
    x >>= f = .ok b ↔ ∃ a, x = .ok a ∧ f a = .ok b := by
  cases x with
  | error e => exact iff_of_false nofun (by rintro ⟨a, h, -⟩; cases h)
  | ok a => exact ⟨fun h => ⟨a, rfl, h⟩, by rintro ⟨a', h, h'⟩; cases h; exact h'⟩

theorem foldlM_cons_ok {x : X} : (x :: l).foldlM next s = .ok s' ↔
    ∃ s₁, next s x = .ok s₁ ∧ l.foldlM next s₁ = .ok s' := by
  rw [List.foldlM_cons, bind_ok]

theorem run_idle (h : ∀ x ∈ l, Idle next s x) : l.foldlM next s = .ok s := by
  induction l with
  | nil => rfl
  | cons x l ih =>
    obtain ⟨hx, hl⟩ := List.forall_mem_cons.mp h
    exact foldlM_cons_ok.mpr ⟨s, hx, ih hl⟩

/-- After its step an item is idle, and so it stays. -/
structure Settling (next : S → X → Except E S) : Prop where
  after : ∀ s x s', next s x = .ok s' → Idle next s' x
  stays : ∀ s x y s', Idle next s x → next s y = .ok s' → Idle next s' x

namespace Settling

theorem stays_run (h : Settling next) {x : X} (hx : Idle next s x)
    (hl : l.foldlM next s = .ok s') : Idle next s' x := by
  induction l generalizing s with
  | nil =>
    cases hl
    exact hx
  | cons y l ih =>
    obtain ⟨s₁, hy, hl⟩ := foldlM_cons_ok.mp hl
    exact ih (h.stays s x y s₁ hx hy) hl

theorem idle_run (h : Settling next) (hl : l.foldlM next s = .ok s') :
    ∀ x ∈ l, Idle next s' x := by
  induction l generalizing s with
  | nil => exact nofun
  | cons y l ih =>
    obtain ⟨s₁, hy, hl⟩ := foldlM_cons_ok.mp hl
    exact List.forall_mem_cons.mpr ⟨h.stays_run (h.after s y s₁ hy) hl, ih hl⟩

/-- Items that were there before change nothing. -/
theorem again (h : Settling next) (hsub : ∀ x ∈ l', x ∈ l) :
    (l ++ l').foldlM next s = l.foldlM next s := by
  rw [List.foldlM_append]
  cases hl : l.foldlM next s with
  | error e => rfl
  | ok s₁ => exact run_idle fun x hx => h.idle_run hl x (hsub x hx)

end Settling
end Spade.IdleSteps
