import Spade.Lib.Making

set_option autoImplicit false

/-!
# Files at the places where paths lead

A file that is written where a path leads does not change where paths lead. A path along which
directories have been made leads to one.
-/
namespace Spade
namespace FileSystem
open Path

variable {fs : FileSystem} {n : ℕ} {cur p q : Path} {raw : List String}

/-- A path that leads to a directory can be gone on from there. -/
theorem follow_append (h : fs.follow n cur raw = .ok p) (hp : p ≠ [] → fs.lookup p = some .dir)
    (rest : List String) : ∃ m, fs.follow n cur (raw ++ rest) = fs.follow m p rest := by
  have hwith : ∀ (n : ℕ) (next : Path → List String → Except Errno Path),
      fs.follow n = followWith next fs →
      (∀ cur raw, next cur raw = .ok p → ∃ m, next cur (raw ++ rest) = fs.follow m p rest) →
      ∀ raw cur, followWith next fs cur raw = .ok p →
        ∃ m, followWith next fs cur (raw ++ rest) = fs.follow m p rest := by
    intro n next hn hnext raw
    induction raw with
    | nil =>
      intro cur h
      cases h
      exact ⟨n, by rw [hn]; rfl⟩
    | cons s raw ih =>
      intro cur h
      rw [List.cons_append]
      by_cases hs : PlainName s
      · rw [followWith_plain next fs cur ⟨s, hs⟩] at h ⊢
        have hlast : fs.lookup (cur ++ [⟨s, hs⟩]) ≠ some .dir → p ≠ cur ++ [⟨s, hs⟩] := by
          rintro hne rfl
          exact hne (hp (List.append_ne_nil_of_right_ne_nil _ (List.cons_ne_nil _ _)))
        cases hl : fs.lookup (cur ++ [⟨s, hs⟩]) with
        | none =>
          rw [hl] at h
          dsimp only at h
          split_ifs at h
          cases h
          exact absurd rfl (hlast (by rw [hl]; exact nofun))
        | some node =>
          rw [hl] at h
          cases node with
          | dir => exact ih _ h
          | file content =>
            dsimp only at h
            split_ifs at h
            cases h
            exact absurd rfl (hlast (by rw [hl]; exact nofun))
          | link target =>
            obtain ⟨m, hm⟩ := hnext _ _ h
            exact ⟨m, by rw [List.append_assoc] at hm; exact hm⟩
      · rw [followWith, dif_neg hs] at h ⊢
        exact ih _ h
  induction n generalizing cur raw with
  | zero => exact hwith 0 _ rfl (fun _ _ h => by cases h) raw cur h
  | succ n ih => exact hwith (n + 1) _ rfl (fun _ _ h => ih h) raw cur h

/-- A directory in one to which a path leads. -/
theorem stat_concat {m : FileName} (h : fs.locate raw = .ok p)
    (hp : p ≠ [] → fs.lookup p = some .dir) (hm : fs.lookup (p ++ [m]) = some .dir) :
    fs.stat (raw ++ [m.1]) = .ok .dir := by
  obtain ⟨k, hk⟩ := follow_append h hp [m.1]
  have hone : fs.follow k p (names [m] ++ []) = fs.follow k (p ++ [m]) [] :=
    follow_dirs k [] fun q hq hpre => by
      obtain rfl | hnil := List.prefix_concat_iff.mp (List.nil_append [m] ▸ hpre)
      · exact hm
      · exact absurd (List.prefix_nil.mp hnil) hq
  have hend : fs.follow k (p ++ [m]) [] = .ok (p ++ [m]) := by cases k <;> rfl
  refine stat_ok.mpr ⟨p ++ [m], (hk.trans hone).trans hend, ?_⟩
  rw [FileSystem.nodeAt, if_neg (List.append_ne_nil_of_right_ne_nil _ (List.cons_ne_nil m [])), hm]

/-- Paths do not end at links. -/
theorem follow_not_link (hcur : fs.Standing cur) (h : fs.follow n cur raw = .ok q) (hq : q ≠ [])
    (t : String) : fs.lookup q ≠ some (.link t) := by
  have hwith : ∀ (next : Path → List String → Except Errno Path),
      (∀ cur raw, fs.Standing cur → next cur raw = .ok q → fs.lookup q ≠ some (.link t)) →
      ∀ raw cur, fs.Standing cur → followWith next fs cur raw = .ok q →
        fs.lookup q ≠ some (.link t) := by
    intro next hnext raw
    induction raw with
    | nil =>
      intro cur hcur h
      cases h
      rw [hcur q hq (List.prefix_refl q)]
      exact nofun
    | cons s raw ih =>
      intro cur hcur h
      by_cases hs : PlainName s
      · rw [followWith_plain next fs cur ⟨s, hs⟩] at h
        cases hl : fs.lookup (cur ++ [⟨s, hs⟩]) with
        | none =>
          rw [hl] at h
          dsimp only at h
          split_ifs at h
          cases h
          rw [hl]
          exact nofun
        | some node =>
          rw [hl] at h
          cases node with
          | dir => exact ih _ (hcur.concat hl) h
          | file content =>
            dsimp only at h
            split_ifs at h
            cases h
            rw [hl]
            exact nofun
          | link target =>
            refine hnext _ _ ?_ h
            split_ifs
            · exact standing_nil
            · exact hcur
      · rw [followWith, dif_neg hs] at h
        refine ih _ ?_ h
        split_ifs
        · exact hcur.of_prefix (List.dropLast_prefix cur)
        · exact hcur
  induction n generalizing cur raw with
  | zero => exact hwith _ (fun _ _ _ h => by cases h) raw cur hcur h
  | succ n ih => exact hwith _ (fun _ _ hcur h => ih hcur h) raw cur hcur h

/-- There is no file or a file at the place, and then there is a file. -/
theorem follow_insert_file {place : Path} (content : String)
    (hplace : fs.lookup place = none ∨ ∃ c, fs.lookup place = some (.file c)) :
    FileSystem.follow (fs.insert place (.file content)) n cur raw = .ok q ↔
      fs.follow n cur raw = .ok q := by
  have hwith : ∀ (next next' : Path → List String → Except Errno Path),
      (∀ cur raw, next' cur raw = .ok q ↔ next cur raw = .ok q) →
      ∀ raw cur, followWith next' (fs.insert place (.file content)) cur raw = .ok q ↔
        followWith next fs cur raw = .ok q := by
    intro next next' hnext raw
    induction raw with
    | nil => exact fun _ => Iff.rfl
    | cons s raw ih =>
      intro cur
      by_cases hs : PlainName s
      · rw [followWith_plain next fs cur ⟨s, hs⟩,
          followWith_plain next' (fs.insert place (.file content)) cur ⟨s, hs⟩,
          GoMap.lookup_insert_if]
        by_cases hp : cur ++ [⟨s, hs⟩] = place
        · rw [if_pos hp, hp]
          obtain hnone | ⟨c, hc⟩ := hplace
          · rw [hnone]
            dsimp only
            split_ifs
            · exact Iff.rfl
            · exact ⟨nofun, nofun⟩
          · rw [hc]
        · rw [if_neg hp]
          cases fs.lookup (cur ++ [⟨s, hs⟩]) with
          | none => exact Iff.rfl
          | some node =>
            cases node with
            | dir => exact ih _
            | file c => exact Iff.rfl
            | link t => exact hnext _ _
      · rw [followWith, followWith, dif_neg hs, dif_neg hs]
        exact ih _
  induction n generalizing cur raw with
  | zero => exact hwith (fun _ _ => .error .loop) (fun _ _ => .error .loop) (fun _ _ => Iff.rfl) raw cur
  | succ n ih => exact hwith _ _ (fun _ _ => ih) raw cur

/-- A file can be written at this place. -/
def Open (fs : FileSystem) (place : Path) : Prop :=
  place ≠ [] ∧ (fs.lookup place = none ∨ ∃ c, fs.lookup place = some (.file c))

theorem locate_insert_file {place : Path} (h : fs.Open place) (content : String) :
    locate raw (fs.insert place (.file content)) = .ok q ↔ fs.locate raw = .ok q :=
  follow_insert_file content h.2

theorem Open.insert {place other : Path} (content : String) (ho : fs.Open other) : Open (fs.insert place (.file content)) other := by
  refine ⟨ho.1, ?_⟩
  rw [GoMap.lookup_insert_if]
  split_ifs
  · exact .inr ⟨content, rfl⟩
  · exact ho.2

theorem stat_insert_file {place : Path} (h : fs.Open place) (content : String)
    (hdir : fs.stat raw = .ok .dir) : stat raw (fs.insert place (.file content)) = .ok .dir := by
  obtain ⟨q, hq, hnode⟩ := stat_ok.mp hdir
  refine stat_ok.mpr ⟨q, (locate_insert_file h content).mpr hq, ?_⟩
  unfold FileSystem.nodeAt at hnode ⊢
  split_ifs at hnode ⊢ with hnil
  · rfl
  · rw [GoMap.lookup_insert_if, if_neg, hnode]
    rintro rfl
    obtain ⟨-, hnone | ⟨c, hc⟩⟩ := h
    · rw [hnode] at hnone
      cases hnone
    · rw [hnode] at hc
      cases hc

end FileSystem

namespace Making
open FileSystem

variable {w w' : Making} {raw done todo : List String} {q : Path}

theorem createFile_open {content : String} (h : createFile raw content w = some w') :
    ∃ q, w.fs.locate raw = .ok q ∧ w.fs.Open q ∧ w'.fs = w.fs.insert q (.file content) := by
  unfold createFile at h
  split at h
  · cases h
  · rename_i q hq
    split_ifs at h with hdir
    have hne : q ≠ [] := fun hnil => hdir (by rw [hnil]; rfl)
    have hlink := follow_not_link standing_nil hq hne
    rw [FileSystem.nodeAt, if_neg hne] at hdir
    refine ⟨q, hq, ⟨hne, ?_⟩, congrArg fs (Option.some.inj h).symm⟩
    cases hl : w.fs.lookup q with
    | none => exact .inl rfl
    | some node =>
      cases node with
      | dir => exact absurd hl hdir
      | file c => exact .inr ⟨c, rfl⟩
      | link t => exact absurd hl (hlink t)

/-- A directory that has been made is one to which the path leads. -/
theorem makeDir_stat (h : makeDir raw w = some w') :
    w'.fs.stat raw = .ok .dir ∧ w.fs.Extends w'.fs := by
  unfold makeDir at h
  split_ifs at h with hdir
  · obtain rfl := Option.some.inj h
    exact ⟨hdir, fun _ _ => id⟩
  · split at h
    · rename_i p s hp hs
      split_ifs at h with hplain hnone
      obtain rfl := Option.some.inj h
      have hx : w.fs.Extends (w.fs.insert (p ++ [⟨s, hplain⟩]) .dir) := fun q node hq => by
        rw [GoMap.lookup_insert_if, if_neg (fun heq => by rw [heq, hnone.2] at hq; cases hq), hq]
      have hisDir : p ≠ [] → w.fs.lookup p = some .dir := fun hne =>
        (of_decide_eq_true hnone.1).resolve_left hne
      have hlocate : FileSystem.locate raw.dropLast (w.fs.insert (p ++ [⟨s, hplain⟩]) .dir) =
          .ok p := hx.keeps.follow hp fun hne => by rw [hisDir hne]; exact nofun
      have hraw : raw.dropLast ++ [s] = raw := by
        obtain ⟨l, rfl⟩ := List.getLast?_eq_some_iff.mp hs
        rw [List.dropLast_concat]
      have hstat := stat_concat hlocate (fun hne => hx _ _ (hisDir hne))
        (m := ⟨s, hplain⟩) (by rw [GoMap.lookup_insert_if, if_pos rfl])
      rw [hraw] at hstat
      exact ⟨hstat, hx⟩
    · cases h

/-- Every beginning of a path that has been made leads to a directory. -/
theorem makeDirs_stat (hok : (makeDirs done todo w).2 = true) :
    w.fs.Extends (makeDirs done todo w).1.fs ∧ ∀ r, r ≠ [] → r <+: todo →
      (makeDirs done todo w).1.fs.stat (done ++ r) = .ok .dir := by
  induction todo generalizing done w with
  | nil => exact ⟨fun _ _ => id, fun r hr hpre => absurd (List.prefix_nil.mp hpre) hr⟩
  | cons s rest ih =>
    unfold makeDirs at hok ⊢
    cases hs : makeDir (done ++ [s]) w with
    | none =>
      rw [hs] at hok
      cases hok
    | some w₁ =>
      rw [hs] at hok
      obtain ⟨hstat, hx⟩ := makeDir_stat hs
      obtain ⟨hx', hrest⟩ := ih hok
      refine ⟨fun q node hq => hx' _ _ (hx _ _ hq), fun r hr hpre => ?_⟩
      cases r with
      | nil => exact absurd rfl hr
      | cons s' r =>
        obtain ⟨rfl, hpre'⟩ := List.cons_prefix_cons.mp hpre
        by_cases hnil : r = []
        · rw [hnil]
          exact hx'.stat hstat
        · have hr' := hrest r hnil hpre'
          rwa [List.append_assoc] at hr'

end Making
end Spade
