import Spade.Lib.GoMap

set_option autoImplicit false

/-!
# Interning

A walk that gives every key it meets a value: the one the key is bound to, or else the next
of the values that are drawn. Whatever the order in which it meets the keys, it does what
one substitution does that is known from the start, the one that its last state holds.
-/
namespace Spade.Interning

structure Interner (K V : Type) where
  bindings : GoMap K V := ∅
  changed : Bool := false
  drawn : ℕ := 0

variable {K V E A B : Type} [DecidableEq K]

abbrev Walk (K V E : Type) := StateT (Interner K V) (Except E)

def intern (draw : K → ℕ → Except E V) (k : K) : Walk K V E V := fun s =>
  match s.bindings.lookup k with
  | some v => .ok (v, s)
  | none =>
    match draw k s.drawn with
    | .error e => .error e
    | .ok v => .ok (v, ⟨s.bindings.insert k v, true, s.drawn + 1⟩)

/-- The draws that new bindings come from are apart. -/
structure Slots (draw : K → ℕ → Except E V) (s s' : Interner K V) (slot : K → ℕ) : Prop where
  source : ∀ k v, k ∉ s.bindings → s'.bindings.lookup k = some v →
    s.drawn ≤ slot k ∧ slot k < s'.drawn ∧ draw k (slot k) = .ok v
  apart : ∀ k k', k ∉ s.bindings → k' ∉ s.bindings → k ∈ s'.bindings → k' ∈ s'.bindings →
    slot k = slot k' → k = k'

structure Grows (draw : K → ℕ → Except E V) (s : Interner K V) (ks : List K) (s' : Interner K V) :
    Prop where
  kept : ∀ k v, s.bindings.lookup k = some v → s'.bindings.lookup k = some v
  bound : ∀ k, k ∈ s'.bindings ↔ k ∈ s.bindings ∨ k ∈ ks
  changed : s'.changed = true ↔ s.changed = true ∨ ∃ k ∈ ks, k ∉ s.bindings
  slots : ∃ slot, Slots draw s s' slot
  drawn : s.drawn ≤ s'.drawn ∧ s'.drawn ≤ s.drawn + ks.length

/-- `f` says what the state says on the keys. -/
def Reads (s : Interner K V) (ks : List K) (f : K → V) : Prop :=
  ∀ k ∈ ks, s.bindings.lookup k = some (f k)

/-- The walk meets the keys, and what it returns is `t` under the bindings of its last state.
Where the keys are bound it changes nothing. -/
structure Spells (draw : K → ℕ → Except E V) (w : Walk K V E A) (ks : List K) (t : (K → V) → A) :
    Prop where
  run : ∀ s a s', w s = .ok (a, s') →
    Grows draw s ks s' ∧ ∀ f, Reads s' ks f → a = t f
  rerun : ∀ s f, Reads s ks f → w s = .ok (t f, s)

variable {draw : K → ℕ → Except E V} {s s₁ s₂ : Interner K V} {ks ks' : List K}

theorem Grows.refl (s : Interner K V) : Grows draw s [] s where
  kept := fun _ _ h => h
  bound := by simp
  changed := by simp
  slots := ⟨fun _ => 0, fun _ _ hno h => absurd (GoMap.mem_of_lookup h) hno,
    fun _ _ hno _ h => absurd h hno⟩
  drawn := ⟨le_refl _, le_refl _⟩

theorem Grows.trans (h : Grows draw s ks s₁) (h' : Grows draw s₁ ks' s₂) :
    Grows draw s (ks ++ ks') s₂ where
  kept := fun k v hk => h'.kept k v (h.kept k v hk)
  bound := by
    intro k
    rw [h'.bound, h.bound, List.mem_append, or_assoc]
  changed := by
    rw [h'.changed, h.changed, or_assoc]
    refine or_congr_right ⟨?_, ?_⟩
    · rintro (⟨k, hk, hno⟩ | ⟨k, hk, hno⟩)
      · exact ⟨k, List.mem_append_left _ hk, hno⟩
      · exact ⟨k, List.mem_append_right _ hk, fun hm => hno ((h.bound k).mpr (Or.inl hm))⟩
    · rintro ⟨k, hk, hno⟩
      by_cases hfirst : k ∈ ks
      · exact Or.inl ⟨k, hfirst, hno⟩
      · refine Or.inr ⟨k, (List.mem_append.mp hk).resolve_left hfirst, fun hm => ?_⟩
        exact ((h.bound k).mp hm).elim hno hfirst
  slots := by
    obtain ⟨slot, hslot⟩ := h.slots
    obtain ⟨slot', hslot'⟩ := h'.slots
    have hsource : ∀ k v, k ∉ s.bindings → s₂.bindings.lookup k = some v →
        (k ∈ s₁.bindings → s.drawn ≤ slot k ∧ slot k < s₁.drawn ∧ draw k (slot k) = .ok v) ∧
        (k ∉ s₁.bindings → s₁.drawn ≤ slot' k ∧ slot' k < s₂.drawn ∧ draw k (slot' k) = .ok v) := by
      intro k v hno hv
      refine ⟨fun hmid => ?_, fun hmid => hslot'.source k v hmid hv⟩
      obtain ⟨v', hv'⟩ := GoMap.lookup_of_mem hmid
      obtain rfl : v' = v := Option.some.inj ((h'.kept k v' hv').symm.trans hv)
      exact hslot.source k v' hno hv'
    have hle := h.drawn.1
    have hle' := h'.drawn.1
    refine ⟨fun k => if k ∈ s₁.bindings then slot k else slot' k, fun k v hno hv => ?_,
      fun k k' hno hno' hk hk' heq => ?_⟩
    · obtain ⟨hold, hnew⟩ := hsource k v hno hv
      by_cases hmid : k ∈ s₁.bindings
      · obtain ⟨hlow, hhigh, hdraw⟩ := hold hmid
        rw [if_pos hmid]
        exact ⟨hlow, by omega, hdraw⟩
      · obtain ⟨hlow, hhigh, hdraw⟩ := hnew hmid
        rw [if_neg hmid]
        exact ⟨by omega, hhigh, hdraw⟩
    · obtain ⟨v, hv⟩ := GoMap.lookup_of_mem hk
      obtain ⟨v', hv'⟩ := GoMap.lookup_of_mem hk'
      obtain ⟨hold, hnew⟩ := hsource k v hno hv
      obtain ⟨hold', hnew'⟩ := hsource k' v' hno' hv'
      by_cases hmid : k ∈ s₁.bindings <;> by_cases hmid' : k' ∈ s₁.bindings
      · rw [if_pos hmid, if_pos hmid'] at heq
        exact hslot.apart k k' hno hno' hmid hmid' heq
      · rw [if_pos hmid, if_neg hmid'] at heq
        have hhigh := (hold hmid).2.1
        have hlow := (hnew' hmid').1
        omega
      · rw [if_neg hmid, if_pos hmid'] at heq
        have hhigh := (hold' hmid').2.1
        have hlow := (hnew hmid).1
        omega
      · rw [if_neg hmid, if_neg hmid'] at heq
        exact hslot'.apart k k' hmid hmid' hk hk' heq
  drawn := by
    have h₁ := h.drawn
    have h₂ := h'.drawn
    rw [List.length_append]
    omega

theorem Grows.reads (h : Grows draw s ks s₁) [Inhabited V] :
    Reads s₁ ks fun k => (s₁.bindings.lookup k).getD default := by
  intro k hk
  obtain ⟨v, hv⟩ := GoMap.lookup_of_mem ((h.bound k).mpr (Or.inr hk))
  dsimp only
  rw [hv, Option.getD_some]

theorem Reads.append {f : K → V} : Reads s (ks ++ ks') f ↔ Reads s ks f ∧ Reads s ks' f := by
  simp only [Reads, List.mem_append, or_imp, forall_and]

/-- What is read at the end was read before. -/
theorem Reads.before {f : K → V} (h : Grows draw s ks s₁) (h' : Grows draw s₁ ks' s₂)
    (hf : Reads s₂ ks f) : Reads s₁ ks f := by
  intro k hk
  obtain ⟨v, hv⟩ := GoMap.lookup_of_mem ((h.bound k).mpr (Or.inr hk))
  rw [hv, ← hf k hk, h'.kept k v hv]

theorem spells_pure (a : A) : Spells draw (pure a : Walk K V E A) [] fun _ => a where
  run := by
    intro s a' s' h
    cases h
    exact ⟨Grows.refl s, fun _ _ => rfl⟩
  rerun := fun _ _ _ => rfl

theorem spells_intern (k : K) : Spells draw (intern draw k) [k] fun f => f k where
  run := by
    intro s v s' h
    unfold intern at h
    cases hk : s.bindings.lookup k with
    | some v' =>
      rw [hk] at h
      cases h
      refine ⟨⟨fun _ _ h => h, fun x => ?_, ?_, ?_, le_refl _, Nat.le_add_right _ _⟩, fun f hf => ?_⟩
      · rw [List.mem_singleton, iff_self_or]
        rintro rfl
        exact GoMap.mem_of_lookup hk
      · simp [GoMap.mem_of_lookup hk]
      · exact (Grows.refl s).slots
      · have hread := hf k (List.mem_singleton_self k)
        rw [hk] at hread
        exact Option.some.inj hread
    | none =>
      rw [hk] at h
      dsimp only at h
      cases hd : draw k s.drawn with
      | error e =>
        rw [hd] at h
        cases h
      | ok v' =>
        rw [hd] at h
        cases h
        have hnew : k ∉ s.bindings := AList.lookup_eq_none.mp hk
        have honly : ∀ x, x ∉ s.bindings → x ∈ s.bindings.insert k v → x = k := by
          intro x hno hx
          exact ((AList.mem_insert s.bindings).mp hx).resolve_right hno
        refine ⟨⟨fun x w hx => ?_, fun x => ?_, ?_, ⟨fun _ => s.drawn, fun x w hno hx => ?_,
          fun x x' hno hno' hx hx' _ => ?_⟩, Nat.le_succ _, le_refl _⟩, fun f hf => ?_⟩
        · rw [GoMap.lookup_insert_if, if_neg]
          · exact hx
          · rintro rfl
            exact hnew (GoMap.mem_of_lookup hx)
        · rw [AList.mem_insert, List.mem_singleton, or_comm]
        · simp [hnew]
        · obtain rfl := honly x hno (GoMap.mem_of_lookup hx)
          rw [AList.lookup_insert] at hx
          cases hx
          exact ⟨le_refl _, Nat.lt_succ_self _, hd⟩
        · rw [honly x hno hx, honly x' hno' hx']
        · have hread := hf k (List.mem_singleton_self k)
          rw [AList.lookup_insert] at hread
          exact Option.some.inj hread
  rerun := by
    intro s f hf
    unfold intern
    rw [hf k (List.mem_singleton_self k)]

theorem Spells.bind [Inhabited V] {w : Walk K V E A} {w' : A → Walk K V E B} {t : (K → V) → A}
    (h : Spells draw w ks t) (t' : (K → V) → (K → V) → B)
    (h' : ∀ f, Spells draw (w' (t f)) ks' (t' f)) :
    Spells draw (w >>= w') (ks ++ ks') fun f => t' f f where
  run := by
    intro s b s₂ hrun
    change Except.bind (w s) (fun r => w' r.1 r.2) = .ok (b, s₂) at hrun
    cases hw : w s with
    | error e =>
      rw [hw] at hrun
      cases hrun
    | ok r =>
      obtain ⟨a, s₁⟩ := r
      rw [hw] at hrun
      obtain ⟨hgrow, hval⟩ := h.run s a s₁ hw
      change w' a s₁ = .ok (b, s₂) at hrun
      have hsecond := hrun
      rw [hval _ hgrow.reads] at hsecond
      obtain ⟨hgrow', -⟩ := (h' _).run s₁ b s₂ hsecond
      refine ⟨hgrow.trans hgrow', fun f hf => ?_⟩
      obtain ⟨hf₁, hf₂⟩ := Reads.append.mp hf
      rw [hval f (hf₁.before hgrow hgrow')] at hrun
      exact ((h' f).run s₁ b s₂ hrun).2 f hf₂
  rerun := by
    intro s f hf
    obtain ⟨hf₁, hf₂⟩ := Reads.append.mp hf
    change Except.bind (w s) (fun r => w' r.1 r.2) = _
    rw [h.rerun s f hf₁]
    exact (h' f).rerun s f hf₂

theorem Spells.congr {w w' : Walk K V E A} {t t' : (K → V) → A} (h : Spells draw w ks t)
    (hw : w' = w) (hk : ks' = ks) (ht : t' = t) : Spells draw w' ks' t' := by
  rw [hw, hk, ht]
  exact h

theorem Spells.map [Inhabited V] {w : Walk K V E A} {t : (K → V) → A} (h : Spells draw w ks t)
    (g : A → B) : Spells draw (w >>= fun a => pure (g a)) ks fun f => g (t f) :=
  (h.bind (fun f _ => g (t f)) fun f => spells_pure (g (t f))).congr rfl (List.append_nil ks).symm rfl

theorem Spells.mapM [Inhabited V] {l : List A} {w : A → Walk K V E B} {keys : A → List K}
    {t : A → (K → V) → B} (h : ∀ a ∈ l, Spells draw (w a) (keys a) (t a)) :
    Spells draw (l.mapM w) (l.flatMap keys) fun f => l.map fun a => t a f := by
  induction l with
  | nil => exact spells_pure []
  | cons a l ih =>
    rw [List.mapM_cons]
    refine (h a List.mem_cons_self).bind (fun f g => t a f :: l.map fun a => t a g) fun f => ?_
    exact (ih fun a' ha' => h a' (List.mem_cons_of_mem a ha')).map fun bs => t a f :: bs

/-! Walks that cannot fail. -/

def Total (w : Walk K V E A) : Prop := ∀ s, ∃ r, w s = .ok r

omit [DecidableEq K] in
theorem total_pure (a : A) : Total (pure a : Walk K V E A) := fun s => ⟨(a, s), rfl⟩

theorem total_intern (h : ∀ k n, ∃ v, draw k n = .ok v) (k : K) : Total (intern draw k) := by
  intro s
  unfold intern
  cases s.bindings.lookup k with
  | some v => exact ⟨_, rfl⟩
  | none =>
    obtain ⟨v, hv⟩ := h k s.drawn
    rw [hv]
    exact ⟨_, rfl⟩

omit [DecidableEq K] in
theorem Total.bind {w : Walk K V E A} {w' : A → Walk K V E B} (h : Total w)
    (h' : ∀ a, Total (w' a)) : Total (w >>= w') := by
  intro s
  obtain ⟨⟨a, s'⟩, hr⟩ := h s
  obtain ⟨r, hr'⟩ := h' a s'
  refine ⟨r, ?_⟩
  change Except.bind (w s) (fun r => w' r.1 r.2) = _
  rw [hr]
  exact hr'

omit [DecidableEq K] in
theorem Total.mapM {l : List A} {w : A → Walk K V E B} (h : ∀ a ∈ l, Total (w a)) :
    Total (l.mapM w) := by
  induction l with
  | nil => exact total_pure []
  | cons a l ih =>
    rw [List.mapM_cons]
    refine (h a List.mem_cons_self).bind fun b => ?_
    exact (ih fun a' ha' => h a' (List.mem_cons_of_mem a ha')).bind fun bs => total_pure (b :: bs)

omit [DecidableEq K] in
/-- Each result of a list of walks is the result of one of them. -/
theorem mem_mapM {l : List A} {w : A → Walk K V E B} {bs : List B}
    (h : l.mapM w s = .ok (bs, s₁)) : ∀ b ∈ bs, ∃ a ∈ l, ∃ s s', w a s = .ok (b, s') := by
  induction l generalizing s bs with
  | nil =>
    cases h
    exact fun b hb => absurd hb List.not_mem_nil
  | cons a l ih =>
    rw [List.mapM_cons] at h
    change Except.bind (w a s) _ = _ at h
    cases ha : w a s with
    | error e =>
      rw [ha] at h
      cases h
    | ok r =>
      rw [ha] at h
      change Except.bind (l.mapM w r.2) _ = _ at h
      cases hl : l.mapM w r.2 with
      | error e =>
        rw [hl] at h
        cases h
      | ok r' =>
        rw [hl] at h
        cases h
        intro b hb
        rcases List.mem_cons.mp hb with rfl | hb
        · exact ⟨a, List.mem_cons_self, s, r.2, ha⟩
        · obtain ⟨a', ha', hres⟩ := ih hl b hb
          exact ⟨a', List.mem_cons_of_mem a ha', hres⟩

end Spade.Interning
