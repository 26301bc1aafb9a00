import Spade.Cli.Install

set_option autoImplicit false

/-!
# What an install changes of the disk

The copies stay below the install directory, and each below one name of it.
-/
namespace Spade.Cli
open FileSystem Path
variable {fs fs' g : FileSystem} {T P D : Path} {n : FileName}

/-- Only what is at a place or below it changes; directories stay, and no link is made. -/
structure Changes (T : Path) (fs fs' : FileSystem) : Prop where
  off : ∀ p, ¬T <+: p → fs'.lookup p = fs.lookup p
  dirs : ∀ p, fs.lookup p = some .dir → fs'.lookup p = some .dir
  links : ∀ p t, fs'.lookup p = some (.link t) → fs.lookup p = some (.link t)

namespace Changes

theorem refl (T : Path) (fs : FileSystem) : Changes T fs fs :=
  ⟨fun _ _ => rfl, fun _ h => h, fun _ _ h => h⟩

theorem trans (h : Changes T fs fs') (h' : Changes T fs' g) : Changes T fs g where
  off p hp := (h'.off p hp).trans (h.off p hp)
  dirs p hp := h'.dirs p (h.dirs p hp)
  links p t hp := h.links p t (h'.links p t hp)

theorem below (h : Changes T fs fs') (hP : P <+: T) : Changes P fs fs' :=
  ⟨fun p hp => h.off p fun hT => hp (hP.trans hT), h.dirs, h.links⟩

theorem standing (h : Changes T fs fs') {p : Path} (hp : fs.Standing p) : fs'.Standing p :=
  fun q hq hpre => h.dirs q (hp q hq hpre)

theorem foldlM {X : Type} {f : FileSystem → X → Option FileSystem} {P : FileSystem → Prop}
    {l : List X} (step : ∀ fs fs', ∀ x ∈ l, P fs → f fs x = some fs' → Changes T fs fs')
    (keep : ∀ fs fs', P fs → Changes T fs fs' → P fs') (hP : P fs)
    (h : l.foldlM f fs = some fs') : Changes T fs fs' := by
  induction l generalizing fs with
  | nil => exact Option.some.inj h ▸ refl T fs
  | cons x l ih =>
    rw [List.foldlM_cons] at h
    obtain ⟨fs₁, hx, hl⟩ := Option.bind_eq_some_iff.mp h
    have hfirst := step fs fs₁ x List.mem_cons_self hP hx
    exact hfirst.trans (ih (fun fs fs' y hy => step fs fs' y (List.mem_cons_of_mem _ hy))
      (keep fs fs₁ hP hfirst) hl)

end Changes

/-- There is no link where the names lead. -/
def Linkless (fs : FileSystem) (P rel : Path) : Prop :=
  ∀ pre, pre ≠ [] → pre <+: rel → ∀ t, fs.lookup (P ++ pre) ≠ some (.link t)

theorem changes_mkdirAll {rest : Path} (hP : fs.Standing P)
    (h : mkdirAll (P ++ n :: rest) fs = some fs') : Changes (P ++ [n]) fs fs' := by
  have hl := mkdirAll_lookup h
  have hsplit : P ++ n :: rest = (P ++ [n]) ++ rest := by rw [List.append_assoc]; rfl
  refine ⟨fun p hp => ?_, fun p hp => ?_, fun p t hp => ?_⟩
  · rw [hl]
    split_ifs with hpre
    · have hdir : p <+: P := by
        have hup := List.prefix_or_prefix_of_prefix hpre.2 (hsplit ▸ List.prefix_append _ rest)
        exact (List.prefix_concat_iff.mp (hup.resolve_right hp)).resolve_left fun heq =>
          hp (heq ▸ List.prefix_refl _)
      exact (hP p hpre.1 hdir).symm
    · rfl
  · rw [hl]
    split_ifs
    · rfl
    · exact hp
  · rw [hl] at hp
    split_ifs at hp
    · cases hp
    · exact hp

theorem changes_writeFile {rest : Path} {content : String} (hP : fs.Standing P)
    (hlinkless : Linkless fs P (n :: rest))
    (h : writeFile content (P ++ n :: rest) fs = some fs') :
    Changes (P ++ [n]) fs fs' ∧ fs'.lookup (P ++ n :: rest) = some (.file content) ∧
      ∀ p, p ≠ P ++ n :: rest → fs'.lookup p = fs.lookup p := by
  obtain ⟨hdir, rfl⟩ := writeFile_linkless hP hlinkless h
  have hl : ∀ p, (fs.insert (P ++ n :: rest) (Node.file content)).lookup p =
      if p = P ++ n :: rest then some (.file content) else fs.lookup p :=
    fun p => GoMap.lookup_insert_if _ _ _ _
  have hsplit : P ++ n :: rest = (P ++ [n]) ++ rest := by rw [List.append_assoc]; rfl
  refine ⟨⟨fun p hp => ?_, fun p hp => ?_, fun p t hp => ?_⟩, by rw [hl, if_pos rfl],
    fun p hp => by rw [hl, if_neg hp]⟩
  · rw [hl, if_neg]
    rintro rfl
    exact hp (hsplit ▸ List.prefix_append _ _)
  · rw [hl, if_neg]
    · exact hp
    · rintro rfl
      simp [FileSystem.isDir, hp] at hdir
  · rw [hl] at hp
    split_ifs at hp
    · cases hp
    · exact hp

theorem copyFileSimple_eq {src dst : Path} (h : copyFileSimple src dst fs = some fs') :
    ∃ data, fs.readAt (names src) = .ok data ∧ writeFile data dst fs = some fs' := by
  obtain ⟨data, hdata, hw⟩ := Option.bind_eq_some_iff.mp h
  cases hr : fs.readAt (names src) with
  | error e =>
    rw [hr] at hdata
    cases hdata
  | ok content =>
    rw [hr] at hdata
    obtain rfl := Option.some.inj hdata
    exact ⟨_, rfl, hw⟩

theorem changes_copyFileSimple {src rest : Path} (hP : fs.Standing P)
    (hlinkless : Linkless fs P (n :: rest))
    (h : copyFileSimple src (P ++ n :: rest) fs = some fs') : Changes (P ++ [n]) fs fs' := by
  obtain ⟨data, -, hw⟩ := copyFileSimple_eq h
  exact (changes_writeFile hP hlinkless hw).1

/-- A copied directory stays where it is put, where there was no link. -/
theorem changes_copyDirRecursive {depth : ℕ} {src rest : Path} (hP : fs.Standing P)
    (hlinkless : ∀ rel t, fs.lookup (P ++ n :: rel) ≠ some (.link t))
    (h : copyDirRecursive depth src (P ++ n :: rest) fs = some fs') :
    Changes (P ++ [n]) fs fs' := by
  have hlinks : ∀ g : FileSystem, (∀ rel t, g.lookup (P ++ n :: rel) ≠ some (.link t)) →
      ∀ rest, Linkless g P (n :: rest) := by
    intro g hg rest pre hne hpre t
    obtain ⟨m, l, rfl⟩ := List.exists_cons_of_ne_nil hne
    obtain ⟨rfl, -⟩ := List.cons_prefix_cons.mp hpre
    exact hg l t
  induction depth generalizing src rest fs fs' with
  | zero => cases h
  | succ depth ih =>
    unfold copyDirRecursive at h
    split at h
    · cases h
    · obtain ⟨entries, -, h⟩ := Option.bind_eq_some_iff.mp h
      obtain ⟨fs₁, hmk, h⟩ := Option.bind_eq_some_iff.mp h
      have hmade := changes_mkdirAll hP hmk
      refine hmade.trans (Changes.foldlM (P := fun fs => fs.Standing P ∧
        ∀ rel t, fs.lookup (P ++ n :: rel) ≠ some (.link t)) ?_ ?_ ?_ h)
      · rintro g g' entry - ⟨hstand, hno⟩ hcopy
        rw [List.append_assoc] at hcopy
        exact ih hstand hno hcopy
      · exact fun g g' ⟨hstand, hno⟩ hc =>
          ⟨hc.standing hstand, fun rel t hl => hno rel t (hc.links _ t hl)⟩
      · exact ⟨hmade.standing hP, fun rel t hl => hlinkless rel t (hmade.links _ t hl)⟩
    · exact changes_copyFileSimple hP (hlinks fs hlinkless rest) h

end Spade.Cli
