import Mathlib.Data.List.Perm.Subperm
import Mathlib.Data.Set.Image

set_option autoImplicit false

/-!
# Pairing off what has one choice left

Inputs are visited once, in some order. One that exactly one of the outputs left fits is paired
with it, and any other is passed over. Here it is settled when the order does not matter.
-/
namespace Spade.ForcedPairs
variable {I O : Type*} (fits : I → O → Prop)

/-- The outputs that are left for an input. -/
def choices (outs : Set O) (i : I) : Set O := {o | o ∈ outs ∧ fits i o}

/-- The input has this one choice. -/
def Forced (outs : Set O) (i : I) (o : O) : Prop := choices fits outs i = {o}

/-- The pairs made on the way through a list of inputs, and the outputs that are left. -/
inductive Pairs : Set O → List I → Set (I × O) → Set O → Prop
  | nil (outs : Set O) : Pairs outs [] ∅ outs
  | bind {outs rest : Set O} {i : I} {o : O} {l : List I} {b : Set (I × O)}
      (hi : Forced fits outs i o) (hl : Pairs (outs \ {o}) l b rest) :
      Pairs outs (i :: l) (insert (i, o) b) rest
  | skip {outs rest : Set O} {i : I} {l : List I} {b : Set (I × O)}
      (hi : ∀ o, ¬Forced fits outs i o) (hl : Pairs outs l b rest) : Pairs outs (i :: l) b rest

/-- The outputs that some input of the list has as its one choice. -/
def claimed (outs : Set O) (l : List I) : Set O := {o | ∃ i ∈ l, Forced fits outs i o}

/-- No output is claimed twice, and an input with several choices has several that nobody claims. -/
structure Settled (outs : Set O) (l : List I) : Prop where
  alone : ∀ i ∈ l, ∀ j ∈ l, ∀ o, Forced fits outs i o → Forced fits outs j o → i = j
  plenty : ∀ i ∈ l, (choices fits outs i).Nontrivial →
    (choices fits outs i \ claimed fits outs l).Nontrivial

variable {fits} {outs rest rest' : Set O} {i j : I} {o o' : O} {l l' : List I} {b b' : Set (I × O)}

theorem Forced.mem (h : Forced fits outs i o) : o ∈ outs ∧ fits i o :=
  show o ∈ choices fits outs i from h ▸ Set.mem_singleton o

theorem Forced.unique (h : Forced fits outs i o) (h' : Forced fits outs i o') : o = o' :=
  Set.singleton_injective (h.symm.trans h')

theorem Pairs.unique (h : Pairs fits outs l b rest) (h' : Pairs fits outs l b' rest') :
    b = b' ∧ rest = rest' := by
  induction h generalizing b' rest' with
  | nil outs =>
    cases h'
    exact ⟨rfl, rfl⟩
  | bind hi _ ih =>
    cases h' with
    | bind hi' hl' =>
      obtain rfl := hi.unique hi'
      obtain ⟨rfl, rfl⟩ := ih hl'
      exact ⟨rfl, rfl⟩
    | skip hi' _ => exact absurd hi (hi' _)
  | skip hi _ ih =>
    cases h' with
    | bind hi' _ => exact absurd hi' (hi _)
    | skip _ hl' => exact ih hl'

theorem Pairs.total (l : List I) (outs : Set O) : ∃ b rest, Pairs fits outs l b rest := by
  induction l generalizing outs with
  | nil => exact ⟨∅, outs, .nil outs⟩
  | cons i l ih =>
    by_cases hi : ∃ o, Forced fits outs i o
    · obtain ⟨o, ho⟩ := hi
      obtain ⟨b, rest, hl⟩ := ih (outs \ {o})
      exact ⟨_, rest, .bind ho hl⟩
    · obtain ⟨b, rest, hl⟩ := ih outs
      exact ⟨b, rest, .skip (not_exists.mp hi) hl⟩

theorem Pairs.append (h : Pairs fits outs l b rest) (h' : Pairs fits rest l' b' rest') :
    Pairs fits outs (l ++ l') (b ∪ b') rest' := by
  induction h with
  | nil outs =>
    rw [Set.empty_union]
    exact h'
  | bind hi _ ih =>
    rw [Set.insert_union]
    exact .bind hi (ih h')
  | skip hi _ ih => exact .skip hi (ih h')

/-- The pairs are of inputs of the list and of outputs that were left, and fit. -/
theorem Pairs.mem (h : Pairs fits outs l b rest) : ∀ x ∈ b, x.1 ∈ l ∧ x.2 ∈ outs ∧ fits x.1 x.2 := by
  induction h with
  | nil outs => exact nofun
  | bind hi _ ih =>
    rintro x (rfl | hx)
    · exact ⟨List.mem_cons_self, hi.mem⟩
    · obtain ⟨hl, hout, hfits⟩ := ih x hx
      exact ⟨List.mem_cons_of_mem _ hl, hout.1, hfits⟩
  | skip _ _ ih =>
    intro x hx
    obtain ⟨hl, hrest⟩ := ih x hx
    exact ⟨List.mem_cons_of_mem _ hl, hrest⟩

theorem Pairs.rest_eq (h : Pairs fits outs l b rest) : rest = outs \ Prod.snd '' b := by
  induction h with
  | nil outs => rw [Set.image_empty, Set.sdiff_empty]
  | bind _ _ ih => rw [ih, Set.image_insert_eq, Set.sdiff_sdiff, Set.singleton_union]
  | skip _ _ ih => exact ih

/-- No output is in two pairs. -/
theorem Pairs.once (h : Pairs fits outs l b rest) :
    ∀ x ∈ b, ∀ y ∈ b, x.2 = y.2 → x = y := by
  induction h with
  | nil outs => exact nofun
  | bind _ hl ih =>
    rintro x (rfl | hx) y (rfl | hy) heq
    · rfl
    · exact absurd heq.symm (hl.mem y hy).2.1.2
    · exact absurd heq (hl.mem x hx).2.1.2
    · exact ih x hx y hy heq
  | skip _ _ ih => exact ih

theorem Settled.perm (h : Settled fits outs l) (hp : l.Perm l') : Settled fits outs l' := by
  have hclaimed : claimed fits outs l' = claimed fits outs l := by
    ext o
    exact exists_congr fun i => and_congr_left' hp.mem_iff.symm
  refine ⟨fun i hi j hj => h.alone i (hp.mem_iff.mpr hi) j (hp.mem_iff.mpr hj), fun i hi hn => ?_⟩
  rw [hclaimed]
  exact h.plenty i (hp.mem_iff.mpr hi) hn

/-! A settled list is paired off as the choices are in the beginning. -/

theorem choices_diff (o : O) : choices fits (outs \ {o}) i = choices fits outs i \ {o} := by
  ext o'
  exact ⟨fun h => ⟨⟨h.1.1, h.2⟩, h.1.2⟩, fun h => ⟨⟨h.1.1, h.2⟩, h.1.2⟩⟩

theorem Forced.diff (h : Forced fits outs i o') (hne : o' ≠ o) : Forced fits (outs \ {o}) i o' := by
  unfold Forced at h ⊢
  rw [choices_diff, h, Set.sdiff_singleton_eq_self]
  exact fun ho => hne (Set.mem_singleton_iff.mp ho).symm

section
variable (h : Settled fits outs (i :: l)) (hn : (i :: l).Nodup) (hi : Forced fits outs i o)
include h hn hi

/-- A pair that is made settles nothing else. -/
theorem Settled.forced_iff (hj : j ∈ l) :
    Forced fits (outs \ {o}) j o' ↔ Forced fits outs j o' := by
  have hmem : j ∈ i :: l := List.mem_cons_of_mem i hj
  constructor
  · intro hforced
    have hsub : choices fits outs j \ claimed fits outs (i :: l) ⊆ {o'} := by
      rintro x ⟨hx, hclaimed⟩
      rw [← show choices fits (outs \ {o}) j = {o'} from hforced, choices_diff]
      refine ⟨hx, ?_⟩
      rintro rfl
      exact hclaimed ⟨i, List.mem_cons_self, hi⟩
    have hfew : ¬(choices fits outs j).Nontrivial := fun hmany =>
      Set.not_nontrivial_singleton ((h.plenty j hmem hmany).mono hsub)
    exact (Set.not_nontrivial_iff.mp hfew).eq_singleton_of_mem
      ⟨hforced.mem.1.1, hforced.mem.2⟩
  · intro hforced
    refine hforced.diff ?_
    rintro rfl
    obtain rfl := h.alone i List.mem_cons_self j hmem _ hi hforced
    exact (List.nodup_cons.mp hn).1 hj

theorem Settled.tail_bind : Settled fits (outs \ {o}) l := by
  have hforced := fun {j o'} (hj : j ∈ l) => @h.forced_iff _ _ _ _ _ j _ o' _ hn hi hj
  refine ⟨fun j hj k hk o' hjo hko => ?_, fun j hj hmany => ?_⟩
  · exact h.alone j (List.mem_cons_of_mem i hj) k (List.mem_cons_of_mem i hk) o'
      ((hforced hj).mp hjo) ((hforced hk).mp hko)
  · rw [choices_diff] at hmany ⊢
    refine (h.plenty j (List.mem_cons_of_mem i hj) (hmany.mono Set.sdiff_subset)).mono ?_
    rintro x ⟨hx, hclaimed⟩
    refine ⟨⟨hx, ?_⟩, ?_⟩
    · rintro rfl
      exact hclaimed ⟨i, List.mem_cons_self, hi⟩
    · rintro ⟨k, hk, hkx⟩
      exact hclaimed ⟨k, List.mem_cons_of_mem i hk, (hforced hk).mp hkx⟩

end

theorem Settled.tail_skip (h : Settled fits outs (i :: l)) : Settled fits outs l := by
  refine ⟨fun j hj k hk => h.alone j (List.mem_cons_of_mem i hj) k (List.mem_cons_of_mem i hk),
    fun j hj hmany => (h.plenty j (List.mem_cons_of_mem i hj) hmany).mono ?_⟩
  refine Set.sdiff_subset_sdiff_right ?_
  rintro o ⟨k, hk, hko⟩
  exact ⟨k, List.mem_cons_of_mem i hk, hko⟩

theorem Settled.pairs (h : Settled fits outs l) (hn : l.Nodup) :
    ∃ rest, Pairs fits outs l {x | x.1 ∈ l ∧ Forced fits outs x.1 x.2} rest := by
  induction l generalizing outs with
  | nil =>
    have hempty : {x : I × O | x.1 ∈ [] ∧ Forced fits outs x.1 x.2} = ∅ :=
      Set.eq_empty_of_forall_notMem fun x hx => List.not_mem_nil hx.1
    exact ⟨outs, hempty ▸ .nil outs⟩
  | cons i l ih =>
    have htail := (List.nodup_cons.mp hn).2
    by_cases hi : ∃ o, Forced fits outs i o
    · obtain ⟨o, ho⟩ := hi
      obtain ⟨rest, hrest⟩ := ih (h.tail_bind hn ho) htail
      have heq : {x : I × O | x.1 ∈ i :: l ∧ Forced fits outs x.1 x.2} =
          insert (i, o) {x | x.1 ∈ l ∧ Forced fits (outs \ {o}) x.1 x.2} := by
        ext ⟨j, o'⟩
        constructor
        · rintro ⟨hj, hjo⟩
          rcases List.mem_cons.mp hj with rfl | hj
          · exact .inl (Prod.ext rfl (hjo.unique ho))
          · exact .inr ⟨hj, (h.forced_iff hn ho hj).mpr hjo⟩
        · rintro (heq | ⟨hj, hjo⟩)
          · cases heq
            exact ⟨List.mem_cons_self, ho⟩
          · exact ⟨List.mem_cons_of_mem i hj, (h.forced_iff hn ho hj).mp hjo⟩
      exact ⟨rest, heq ▸ .bind ho hrest⟩
    · have hnone := not_exists.mp hi
      obtain ⟨rest, hrest⟩ := ih h.tail_skip htail
      have heq : {x : I × O | x.1 ∈ i :: l ∧ Forced fits outs x.1 x.2} =
          {x | x.1 ∈ l ∧ Forced fits outs x.1 x.2} := by
        ext ⟨j, o'⟩
        refine and_congr_left fun hjo => ⟨fun hj => ?_, List.mem_cons_of_mem i⟩
        rcases List.mem_cons.mp hj with rfl | hj
        · exact absurd hjo (hnone o')
        · exact hj
      exact ⟨rest, heq ▸ .skip hnone hrest⟩

/-- Whatever the order, the pairs are the same. -/
def Independent (fits : I → O → Prop) (outs : Set O) (l : List I) : Prop :=
  ∀ l' b b' rest rest', l.Perm l' → Pairs fits outs l b rest → Pairs fits outs l' b' rest' → b = b'

theorem Settled.independent (h : Settled fits outs l) (hn : l.Nodup) :
    Independent fits outs l := by
  intro l' b b' rest rest' hp hl hl'
  obtain ⟨r, hr⟩ := h.pairs hn
  obtain ⟨r', hr'⟩ := (h.perm hp).pairs (hp.nodup_iff.mp hn)
  rw [(hl.unique hr).1, (hl'.unique hr').1]
  ext x
  exact and_congr_left' hp.mem_iff

/-! An order that does matter. -/

theorem exists_first (hi : i ∈ l) : ∃ t, l.Perm (i :: t) := by
  obtain ⟨s, t, rfl⟩ := List.append_of_mem hi
  exact ⟨s ++ t, List.perm_middle⟩

theorem Independent.mem_of_first (h : Independent fits outs l) (hl : Pairs fits outs l b rest)
    (hi : i ∈ l) (hio : Forced fits outs i o) : (i, o) ∈ b := by
  obtain ⟨t, ht⟩ := exists_first hi
  obtain ⟨b', rest', ht'⟩ := Pairs.total t (outs \ {o})
  rw [h _ _ _ _ _ ht hl (.bind hio ht')]
  exact Set.mem_insert _ _

theorem Independent.alone (h : Independent fits outs l) (hi : i ∈ l) (hj : j ∈ l)
    (hio : Forced fits outs i o) (hjo : Forced fits outs j o) : i = j := by
  obtain ⟨b, rest, hl⟩ := Pairs.total l outs
  have heq := hl.once _ (h.mem_of_first hl hi hio) _ (h.mem_of_first hl hj hjo) rfl
  exact congrArg Prod.fst heq

theorem not_forced_of_nontrivial (h : (choices fits outs i).Nontrivial) (o : O) :
    ¬Forced fits outs i o := by
  intro ho
  rw [show choices fits outs i = {o} from ho] at h
  exact Set.not_nontrivial_singleton h

/-- Inputs that are forced take choices of another one until it is forced as well. -/
theorem exists_forced {s : List I} (hn : s.Nodup) (hs : ∀ j ∈ s, ∃ o, Forced fits outs j o)
    (halone : ∀ j ∈ s, ∀ k ∈ s, ∀ o, Forced fits outs j o → Forced fits outs k o → j = k)
    (hmany : (choices fits outs i).Nontrivial)
    (hfew : ¬(choices fits outs i \ claimed fits outs s).Nontrivial) :
    ∃ s₁ s₂ b rest o, s = s₁ ++ s₂ ∧ Pairs fits outs s₁ b rest ∧ Forced fits rest i o := by
  induction s generalizing outs with
  | nil =>
    have hnone : claimed fits outs [] = ∅ :=
      Set.eq_empty_of_forall_notMem fun o ⟨j, hj, _⟩ => List.not_mem_nil hj
    rw [hnone, Set.sdiff_empty] at hfew
    exact absurd hmany hfew
  | cons j s ih =>
    obtain ⟨hj, hn⟩ := List.nodup_cons.mp hn
    obtain ⟨o, ho⟩ := hs j List.mem_cons_self
    by_cases hleft : (choices fits (outs \ {o}) i).Nontrivial
    · have hkeep : ∀ k ∈ s, ∀ o', Forced fits outs k o' → Forced fits (outs \ {o}) k o' := by
        intro k hk o' hko
        refine hko.diff ?_
        rintro rfl
        obtain rfl := halone j List.mem_cons_self k (List.mem_cons_of_mem j hk) _ ho hko
        exact hj hk
      have hback : ∀ k ∈ s, ∀ o', Forced fits (outs \ {o}) k o' → Forced fits outs k o' := by
        intro k hk o' hko
        obtain ⟨o'', hko'⟩ := hs k (List.mem_cons_of_mem j hk)
        exact (hkeep k hk o'' hko').unique hko ▸ hko'
      have hsub : choices fits (outs \ {o}) i \ claimed fits (outs \ {o}) s ⊆
          choices fits outs i \ claimed fits outs (j :: s) := by
        rw [choices_diff]
        rintro x ⟨⟨hx, hxo⟩, hclaimed⟩
        refine ⟨hx, ?_⟩
        rintro ⟨k, hk, hkx⟩
        rcases List.mem_cons.mp hk with rfl | hk
        · exact hxo (hkx.unique ho)
        · exact hclaimed ⟨k, hk, hkeep k hk x hkx⟩
      obtain ⟨s₁, s₂, b, rest, o', rfl, hpairs, hforced⟩ := ih hn
        (fun k hk => (hs k (List.mem_cons_of_mem j hk)).imp fun o' => hkeep k hk o')
        (fun k hk k' hk' o' hko hko' => halone k (List.mem_cons_of_mem j hk) k'
          (List.mem_cons_of_mem j hk') o' (hback k hk o' hko) (hback k' hk' o' hko'))
        hleft fun hmany' => hfew (hmany'.mono hsub)
      exact ⟨j :: s₁, s₂, _, rest, o', rfl, .bind ho hpairs, hforced⟩
    · obtain ⟨x, hx, hxo⟩ := hmany.exists_ne o
      have hin : x ∈ choices fits (outs \ {o}) i := by
        rw [choices_diff]
        exact ⟨hx, hxo⟩
      exact ⟨[j], s, _, outs \ {o}, x, rfl, .bind ho (.nil _),
        (Set.not_nontrivial_iff.mp hleft).eq_singleton_of_mem hin⟩

theorem Independent.plenty (h : Independent fits outs l) (hn : l.Nodup) (hi : i ∈ l)
    (hmany : (choices fits outs i).Nontrivial) :
    (choices fits outs i \ claimed fits outs l).Nontrivial := by
  classical
  by_contra hfew
  have hmem : ∀ j, j ∈ l.filter (fun j => ∃ o, Forced fits outs j o) ↔
      j ∈ l ∧ ∃ o, Forced fits outs j o := fun j => by
    rw [List.mem_filter, decide_eq_true_iff]
  have hclaimed : claimed fits outs l ⊆
      claimed fits outs (l.filter fun j => ∃ o, Forced fits outs j o) := by
    rintro o ⟨j, hj, hjo⟩
    exact ⟨j, (hmem j).mpr ⟨hj, o, hjo⟩, hjo⟩
  obtain ⟨s₁, s₂, b, rest, o, hsplit, hpairs, hforced⟩ := exists_forced (hn.filter _)
    (fun j hj => ((hmem j).mp hj).2)
    (fun j hj k hk o hjo hko => h.alone ((hmem j).mp hj).1 ((hmem k).mp hk).1 hjo hko) hmany
    fun hmany' => hfew (hmany'.mono (Set.sdiff_subset_sdiff_right hclaimed))
  have hsub : ∀ j ∈ s₁, j ∈ l ∧ ∃ o, Forced fits outs j o := fun j hj =>
    (hmem j).mp (hsplit ▸ List.mem_append_left s₂ hj)
  have hs₁ : (i :: s₁).Nodup := by
    refine List.nodup_cons.mpr ⟨fun hin => ?_, (List.nodup_append.mp (hsplit ▸ hn.filter _)).1⟩
    obtain ⟨o', ho'⟩ := (hsub i hin).2
    exact not_forced_of_nontrivial hmany o' ho'
  have hl₁ : i :: s₁ ⊆ l := List.cons_subset.mpr ⟨hi, fun j hj => (hsub j hj).1⟩
  obtain ⟨m, hm, hml⟩ := hs₁.subperm hl₁
  obtain ⟨t, ht⟩ := hml.exists_perm_append
  obtain ⟨t', ht'⟩ := exists_first hi
  have hlate : l.Perm (s₁ ++ i :: t) :=
    ht.trans ((hm.append_right t).trans List.perm_middle.symm)
  obtain ⟨bt, r, hbt⟩ := Pairs.total t (rest \ {o})
  obtain ⟨bt', r', hbt'⟩ := Pairs.total t' outs
  obtain ⟨bl, rl, hbl⟩ := Pairs.total l outs
  have hin : (i, o) ∈ bl := by
    rw [h _ _ _ _ _ hlate hbl (hpairs.append (.bind hforced hbt))]
    exact .inr (Set.mem_insert _ _)
  rw [h _ _ _ _ _ ht' hbl (.skip (not_forced_of_nontrivial hmany) hbt')] at hin
  exact (List.nodup_cons.mp (ht'.nodup_iff.mp hn)).1 (hbt'.mem _ hin).1

/-- The order does not matter exactly if the list is settled. -/
theorem independent_iff (hn : l.Nodup) : Independent fits outs l ↔ Settled fits outs l :=
  ⟨fun h => ⟨fun _ hi _ hj _ hio hjo => h.alone hi hj hio hjo,
    fun _ hi hmany => h.plenty hn hi hmany⟩, fun h => h.independent hn⟩

end Spade.ForcedPairs
