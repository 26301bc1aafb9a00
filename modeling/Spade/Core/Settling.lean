import Spade.Core.Resolution

set_option autoImplicit false

/-! # Whether the bare references of a block resolve -/
namespace Spade

/-- Blocks that are named once give every output once. -/
theorem bareOutputs_nodup {dependencies : GoMap UUID BlockManifest} {σ : MapOrder}
    {refs : List InputRef} (h : (refs.filter fun r => r.block = none).Pairwise
      fun r r' => r.id ≠ r'.id) :
    ((bareOutputs dependencies σ refs).map fun x => (x.1, x.2.1)).Nodup := by
  induction refs with
  | nil => exact List.nodup_nil
  | cons r refs ih =>
    rw [bareOutputs, List.flatMap_cons, List.map_append, List.nodup_append]
    cases hb : r.block with
    | some b =>
      rw [List.filter_cons_of_neg (by simp [hb])] at h
      exact ⟨List.nodup_nil, ih h, fun x hx => absurd hx List.not_mem_nil⟩
    | none =>
      rw [List.filter_cons_of_pos (by simp [hb])] at h
      obtain ⟨hr, hrest⟩ := List.pairwise_cons.mp h
      refine ⟨?_, ih hrest, fun x hx y hy => ?_⟩
      · cases dependencies.lookup r.id with
        | none => exact List.nodup_nil
        | some dep =>
          simp only [Option.map_some, Option.getD_some, List.map_map]
          refine List.Nodup.of_map Prod.snd ?_
          rw [List.map_map]
          exact σ.range_nodup dep.outputs
      · obtain ⟨x', hx', rfl⟩ := List.mem_map.mp hx
        obtain ⟨y', hy', rfl⟩ := List.mem_map.mp hy
        obtain ⟨r', hr', hb', hid, -⟩ := mem_bareOutputs.mp hy'
        have hid' : x'.1 = r.id := by
          cases hdep : dependencies.lookup r.id with
          | none => simp [hdep] at hx'
          | some dep =>
            simp only [hdep, Option.map_some, Option.getD_some, List.mem_map] at hx'
            obtain ⟨o, -, rfl⟩ := hx'
            rfl
        rintro heq
        refine hr r' (List.mem_filter.mpr ⟨hr', by simp [hb']⟩) ?_
        rw [← hid', ← hid]
        exact (Prod.mk.inj heq).1

/-- Outputs that are not matched yet find, one after the other, at most one open input each,
and in the end only scalars are open. -/
def settles : List (String × InputDeclaration) → List OutputDeclaration → Bool
  | free, [] => free.all fun e => isScalar e.2.type
  | free, out :: outs =>
    match free.filter fun e => typesCompatible e.2.type out.type with
    | [] => settles free outs
    | [e] => settles (free.filter fun e' => e'.1 ≠ e.1) outs
    | _ => false

theorem settles_iff {σ : MapOrder} {current : BlockManifest} {m : Matching}
    {l : List (UUID × String × OutputDeclaration)} (hn : (l.map fun x => (x.1, x.2.1)).Nodup)
    (hfree : ∀ x ∈ l, m.used (x.1, x.2.1) = false) :
    (∃ m', l.foldlM (resolveNext σ current) m = .ok m' ∧
      ∀ n input, current.inputs.lookup n = some input → m'.open n = true →
        isScalar input.type = true) ↔
    settles (current.inputs.items.filter fun e => m.open e.1) (l.map fun x => x.2.2) = true := by
  induction l generalizing m with
  | nil =>
    rw [List.map_nil, settles, List.all_eq_true]
    constructor
    · rintro ⟨m', h, hall⟩ e he
      cases h
      obtain ⟨hmem, hopen⟩ := List.mem_filter.mp he
      exact hall e.1 e.2 ((GoMap.mem_items _ _ _).mp hmem) hopen
    · intro h
      refine ⟨m, rfl, fun n input hi ho => ?_⟩
      exact h (n, input) (List.mem_filter.mpr ⟨(GoMap.mem_items _ _ _).mpr hi, ho⟩)
  | cons x l ih =>
    rw [List.map_cons, List.nodup_cons] at hn
    obtain ⟨hx, hrest⟩ := List.forall_mem_cons.mp hfree
    have hcand : (current.inputs.items.filter fun e => m.open e.1).filter
        (fun e => typesCompatible e.2.type x.2.2.type) = candidates current m x.2.2.type := by
      rw [List.filter_filter]
      exact List.filter_congr fun e _ => Bool.and_comm _ _
    rw [List.map_cons, settles, hcand]
    have hstep : ∀ m', resolveNext σ current m x = .ok m' ↔
        (m.used (x.1, x.2.1) = true ∨ candidates current m x.2.2.type = []) ∧ m' = m ∨
        m.used (x.1, x.2.1) = false ∧ ∃ e, candidates current m x.2.2.type = [e] ∧
          m' = m.record e.1 x.1 x.2.1 x.2.2 := fun m' => resolveNext_ok_iff
    simp only [hx, Bool.false_eq_true, false_or, true_and] at hstep
    have hcons : ∀ m₁, resolveNext σ current m x = .ok m₁ →
        (x :: l).foldlM (resolveNext σ current) m = l.foldlM (resolveNext σ current) m₁ := by
      intro m₁ h
      rw [List.foldlM_cons, h]
      rfl
    rcases hc : candidates current m x.2.2.type with _ | ⟨e, _ | ⟨e', l'⟩⟩
    · rw [hcons m ((hstep m).mpr (.inl ⟨hc, rfl⟩))]
      exact ih hn.2 hrest
    · have hnext := (hstep _).mpr (.inr ⟨e, hc, rfl⟩)
      rw [hcons _ hnext, ih hn.2 fun y hy => ?_]
      · have hopen : (current.inputs.items.filter fun e' =>
            (m.record e.1 x.1 x.2.1 x.2.2).open e'.1) =
            (current.inputs.items.filter fun e' => m.open e'.1).filter fun e' => e'.1 ≠ e.1 := by
          rw [List.filter_filter]
          exact List.filter_congr fun e' _ => Matching.record_open _ _ _ _ _
        rw [hopen]
      · rw [Matching.record_used, Bool.or_eq_false_iff, decide_eq_false_iff_not]
        exact ⟨fun heq => hn.1 (heq ▸ List.mem_map_of_mem hy), hrest y hy⟩
    · refine iff_of_false ?_ nofun
      rintro ⟨m', h, -⟩
      rw [List.foldlM_cons] at h
      cases hr : resolveNext σ current m x with
      | error err =>
        rw [hr] at h
        cases h
      | ok m₁ =>
        rcases (hstep m₁).mp hr with ⟨h', -⟩ | ⟨e'', h', -⟩
        · rw [hc] at h'
          cases h'
        · rw [hc] at h'
          cases h'

end Spade
