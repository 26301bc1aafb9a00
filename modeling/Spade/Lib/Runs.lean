import Mathlib.Data.List.Basic

set_option autoImplicit false

/-!
# Runs of a labelled step function

`Along` says that every step of a run meets a guard in the state in which it is
taken, `Always` that a property holds in every state a run goes through.
-/
namespace Spade.Runs
variable {S A : Type*} (step : S → A → S)

def run (s : S) (l : List A) : S := l.foldl step s

def Along (Q : S → A → Prop) : S → List A → Prop
  | _, [] => True
  | s, a :: l => Q s a ∧ Along Q (step s a) l

def Always (P : S → Prop) : S → List A → Prop
  | s, [] => P s
  | s, a :: l => P s ∧ Always P (step s a) l

@[simp] theorem run_nil (s : S) : run step s [] = s := rfl

@[simp] theorem run_cons (s : S) (a : A) (l : List A) :
    run step s (a :: l) = run step (step s a) l := rfl

theorem run_append (s : S) (l l' : List A) :
    run step s (l ++ l') = run step (run step s l) l' := List.foldl_append

theorem along_append (Q : S → A → Prop) (s : S) (l l' : List A) :
    Along step Q s (l ++ l') ↔ Along step Q s l ∧ Along step Q (run step s l) l' := by
  induction l generalizing s with
  | nil => simp [Along]
  | cons a l ih => simp only [List.cons_append, Along, ih, run_cons, and_assoc]

instance decidableAlong {Q : S → A → Prop} [∀ s a, Decidable (Q s a)] :
    (s : S) → (l : List A) → Decidable (Along step Q s l)
  | _, [] => isTrue trivial
  | s, a :: l =>
    haveI := decidableAlong (Q := Q) (step s a) l
    inferInstanceAs (Decidable (Q s a ∧ Along step Q (step s a) l))

theorem Along.mono {Q Q' : S → A → Prop} (h : ∀ s a, Q s a → Q' s a) {s : S} {l : List A}
    (hl : Along step Q s l) : Along step Q' s l := by
  induction l generalizing s with
  | nil => trivial
  | cons a l ih => exact ⟨h _ _ hl.1, ih hl.2⟩

theorem along_and (Q Q' : S → A → Prop) (s : S) (l : List A) :
    Along step (fun s a => Q s a ∧ Q' s a) s l ↔ Along step Q s l ∧ Along step Q' s l := by
  induction l generalizing s with
  | nil => simp [Along]
  | cons a l ih =>
    simp only [Along, ih]
    constructor
    · rintro ⟨⟨h, h'⟩, hl, hl'⟩
      exact ⟨⟨h, hl⟩, h', hl'⟩
    · rintro ⟨⟨h, hl⟩, h', hl'⟩
      exact ⟨⟨h, h'⟩, hl, hl'⟩

theorem Always.head {P : S → Prop} {s : S} {l : List A} (h : Always step P s l) : P s := by
  cases l with
  | nil => exact h
  | cons a l => exact h.1

theorem Always.last {P : S → Prop} {s : S} {l : List A} (h : Always step P s l) :
    P (run step s l) := by
  induction l generalizing s with
  | nil => exact h
  | cons a l ih => exact ih h.2

theorem Always.mono {P P' : S → Prop} (h : ∀ s, P s → P' s) {s : S} {l : List A}
    (hl : Always step P s l) : Always step P' s l := by
  induction l generalizing s with
  | nil => exact h _ hl
  | cons a l ih => exact ⟨h _ hl.1, ih hl.2⟩

/-- A property of the state after every part of a run from its start. -/
theorem always_of_prefixes {P : S → Prop} {s : S} {l : List A}
    (h : ∀ l₁ l₂, l = l₁ ++ l₂ → P (run step s l₁)) : Always step P s l := by
  induction l generalizing s with
  | nil => exact h [] [] rfl
  | cons a l ih =>
    refine ⟨h [] (a :: l) rfl, ih fun l₁ l₂ hl => ?_⟩
    exact h (a :: l₁) l₂ (by rw [hl, List.cons_append])

/-- A property of every step, from the state after the part of the run before it. -/
theorem along_of_prefixes {P : S → A → Prop} {s : S} {l : List A}
    (h : ∀ l₁ a l₂, l = l₁ ++ a :: l₂ → P (run step s l₁) a) : Along step P s l := by
  induction l generalizing s with
  | nil => trivial
  | cons a l ih =>
    refine ⟨h [] a l rfl, ih fun l₁ b l₂ hl => ?_⟩
    exact h (a :: l₁) b l₂ (by rw [hl, List.cons_append])

/-- A preorder that every step follows is followed between any two states of a run. -/
theorem along_iff_between {R : S → S → Prop} (refl : ∀ s, R s s)
    (trans : ∀ s t u, R s t → R t u → R s u) (s : S) (l : List A) :
    Along step (fun s a => R s (step s a)) s l ↔
      ∀ l₁ l₂ l₃, l = l₁ ++ l₂ ++ l₃ → R (run step s l₁) (run step s (l₁ ++ l₂)) := by
  constructor
  · intro h l₁ l₂
    induction l₂ generalizing l₁ with
    | nil =>
      intro l₃ hl
      rw [List.append_nil]
      exact refl _
    | cons a l₂ ih =>
      intro l₃ hl
      have hsplit : l₁ ++ a :: l₂ = l₁ ++ [a] ++ l₂ := by simp
      have hlast : run step s (l₁ ++ [a]) = step (run step s l₁) a := by
        rw [run_append, run_cons, run_nil]
      have hrest := ih (l₁ ++ [a]) l₃ (by rw [hl, hsplit])
      rw [hl, List.append_assoc, along_append, List.cons_append] at h
      rw [hlast] at hrest
      rw [hsplit]
      exact trans _ _ _ h.2.1 hrest
  · intro h
    apply along_of_prefixes
    intro l₁ a l₂ hl
    have hstep := h l₁ [a] l₂ (by rw [hl]; simp)
    rwa [run_append, run_cons, run_nil] at hstep

/-- The induction rule for invariants: a step that meets the guard keeps `P`. -/
theorem always_of_along {P : S → Prop} {Q : S → A → Prop}
    (keep : ∀ s a, P s → Q s a → P (step s a)) {s : S} {l : List A} (hs : P s)
    (hl : Along step Q s l) : Always step P s l := by
  induction l generalizing s with
  | nil => exact hs
  | cons a l ih => exact ⟨hs, ih (keep s a hs hl.1) hl.2⟩

theorem invariant {P : S → Prop} {Q : S → A → Prop}
    (keep : ∀ s a, P s → Q s a → P (step s a)) {s : S} {l : List A} (hs : P s)
    (hl : Along step Q s l) : P (run step s l) :=
  (always_of_along step keep hs hl).last

/-- What every step has that meets the guard where the invariant holds. -/
theorem along_of_invariant {P : S → Prop} {Q R : S → A → Prop}
    (keep : ∀ s a, P s → Q s a → P (step s a)) (each : ∀ s a, P s → Q s a → R s a) {s : S}
    {l : List A} (hs : P s) (hl : Along step Q s l) : Along step R s l := by
  induction l generalizing s with
  | nil => trivial
  | cons a l ih => exact ⟨each s a hs hl.1, ih (keep s a hs hl.1) hl.2⟩

/-- A condition on the steps and one on the states, as one on the steps. -/
theorem along_and_always (Q : S → A → Prop) (P : S → Prop) {s : S} {l : List A} (hs : P s) :
    Along step (fun s a => Q s a ∧ P (step s a)) s l ↔ Along step Q s l ∧ Always step P s l := by
  induction l generalizing s with
  | nil => exact ⟨fun _ => ⟨trivial, hs⟩, fun _ => trivial⟩
  | cons a l ih =>
    constructor
    · rintro ⟨⟨hq, hp⟩, hl⟩
      obtain ⟨hql, hpl⟩ := (ih hp).mp hl
      exact ⟨⟨hq, hql⟩, hs, hpl⟩
    · rintro ⟨⟨hq, hql⟩, -, hpl⟩
      exact ⟨⟨hq, hpl.head⟩, (ih hpl.head).mpr ⟨hql, hpl⟩⟩

/-- A property of the states holds all along where a condition on the steps does that says
when a step keeps it. -/
theorem always_iff_along {P : S → Prop} {Q : S → A → Prop}
    (keep : ∀ s a, P s → (P (step s a) ↔ Q s a)) {s : S} {l : List A} (hs : P s) :
    Always step P s l ↔ Along step Q s l := by
  induction l generalizing s with
  | nil => exact ⟨fun _ => trivial, fun _ => hs⟩
  | cons a l ih =>
    constructor
    · rintro ⟨-, hl⟩
      exact ⟨(keep s a hs).mp hl.head, (ih hl.head).mp hl⟩
    · rintro ⟨hq, hl⟩
      have hp := (keep s a hs).mpr hq
      exact ⟨hs, (ih hp).mpr hl⟩

/-- The same where an invariant holds besides. -/
theorem always_iff_along_of_invariant {I P : S → Prop} {Q R : S → A → Prop}
    (inv : ∀ s a, I s → R s a → I (step s a))
    (keep : ∀ s a, I s → R s a → P s → (P (step s a) ↔ Q s a)) {s : S} {l : List A}
    (hi : I s) (hs : P s) (hr : Along step R s l) : Always step P s l ↔ Along step Q s l := by
  induction l generalizing s with
  | nil => exact ⟨fun _ => trivial, fun _ => hs⟩
  | cons a l ih =>
    have hinv := inv s a hi hr.1
    constructor
    · rintro ⟨-, hl⟩
      exact ⟨(keep s a hi hr.1 hs).mp hl.head, (ih hinv hl.head hr.2).mp hl⟩
    · rintro ⟨hq, hl⟩
      have hp := (keep s a hi hr.1 hs).mpr hq
      exact ⟨hs, (ih hinv hp hr.2).mpr hl⟩

/-- Two conditions on steps that agree wherever the first has held so far agree on runs.
`I` is what holds besides, and `P` what the first condition keeps. -/
theorem along_iff_along {I P : S → Prop} {Q Q' R : S → A → Prop}
    (inv : ∀ s a, I s → R s a → I (step s a))
    (keep : ∀ s a, I s → P s → R s a → Q s a → P (step s a))
    (agree : ∀ s a, I s → P s → R s a → (Q s a ↔ Q' s a)) {s : S} {l : List A}
    (hi : I s) (hs : P s) (hr : Along step R s l) : Along step Q s l ↔ Along step Q' s l := by
  induction l generalizing s with
  | nil => exact Iff.rfl
  | cons a l ih =>
    have ha := agree s a hi hs hr.1
    constructor
    · rintro ⟨hq, hl⟩
      exact ⟨ha.mp hq, (ih (inv s a hi hr.1) (keep s a hi hs hr.1 hq) hr.2).mp hl⟩
    · rintro ⟨hq, hl⟩
      have hq' := ha.mpr hq
      exact ⟨hq', (ih (inv s a hi hr.1) (keep s a hi hs hr.1 hq') hr.2).mpr hl⟩

/-! A run without some of its steps. -/

def erase (skip : S → A → Bool) : S → List A → List A
  | _, [] => []
  | s, a :: l => if skip s a then erase skip (step s a) l else a :: erase skip (step s a) l

/-- A simulation in which the skipped steps stutter carries over to runs. -/
theorem erase_simulates {R : S → S → Prop} {Q Q' : S → A → Prop} {skip : S → A → Bool}
    (stutter : ∀ s t a, R s t → Q s a → skip s a = true → R (step s a) t)
    (move : ∀ s t a, R s t → Q s a → skip s a = false → Q' t a ∧ R (step s a) (step t a))
    {s t : S} {l : List A} (hst : R s t) (hl : Along step Q s l) :
    Along step Q' t (erase step skip s l) ∧
      R (run step s l) (run step t (erase step skip s l)) := by
  induction l generalizing s t with
  | nil => exact ⟨trivial, hst⟩
  | cons a l ih =>
    rw [erase]
    cases hs : skip s a with
    | true => exact ih (stutter s t a hst hl.1 hs) hl.2
    | false =>
      obtain ⟨hq, hnext⟩ := move s t a hst hl.1 hs
      obtain ⟨hql, hrun⟩ := ih hnext hl.2
      exact ⟨⟨hq, hql⟩, hrun⟩

end Spade.Runs
