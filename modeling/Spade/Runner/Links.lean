import Spade.Core.Uuid
import Spade.Runner.Directory

set_option autoImplicit false

/-! # Writes to a disk, and links that are made one after the other -/
namespace Spade
open UUIDPackage

namespace Disk
variable {d d' : Disk} {f : FileSystem → Option FileSystem}

theorem write_ok (h : d.write f = .ok d') : f d.fs = some d'.fs := by
  unfold write at h
  split at h
  · cases h
  · cases hf : f d.fs with
    | none =>
      rw [hf] at h
      cases h
    | some fs =>
      rw [hf] at h
      cases h
      rfl

theorem write_error {stop : Stop × FileSystem} (h : d.write f = .error stop) : stop.2 = d.fs := by
  unfold write fail at h
  split at h
  · cases h
    rfl
  · cases hf : f d.fs with
    | none =>
      rw [hf] at h
      cases h
      rfl
    | some fs =>
      rw [hf] at h
      cases h

/-- Without a budget a write fails or goes through. -/
theorem write_unbounded (hb : d.budget = none) {fs : FileSystem} (hf : f d.fs = some fs) :
    d.write f = .ok ⟨fs, none⟩ := by
  unfold write
  rw [hb, hf]
  rfl

theorem write_budget (hb : d.budget = none) (h : d.write f = .ok d') : d'.budget = none := by
  rw [write_unbounded hb (write_ok h)] at h
  exact (congrArg Disk.budget (Except.ok.inj h)).symm

/-- What is left by a write is what was there, or what it makes. -/
theorem left_write {P : FileSystem → Prop} (hd : P d.fs) (h : ∀ fs, f d.fs = some fs → P fs) :
    P (left (d.write f)) := by
  unfold write
  split
  · exact hd
  · cases hf : f d.fs with
    | none => exact hd
    | some fs => exact h fs hf

theorem left_foldlM {A : Type} {P : FileSystem → Prop} {g : Disk → A → Result} {l : List A}
    (keep : ∀ d, ∀ a ∈ l, P d.fs → P (left (g d a))) (hd : P d.fs) : P (left (l.foldlM g d)) := by
  induction l generalizing d with
  | nil => exact hd
  | cons a l ih =>
    rw [List.foldlM_cons]
    have ha := keep d a (by simp) hd
    cases hg : g d a with
    | error stop =>
      rw [hg] at ha
      exact ha
    | ok d' =>
      rw [hg] at ha
      exact ih (fun d b hb => keep d b (by simp [hb])) ha

theorem foldlM_ok {A : Type} {P : Disk → Prop} {g : Disk → A → Result} {l : List A}
    (keep : ∀ d, ∀ a ∈ l, ∀ d', P d → g d a = .ok d' → P d') (hd : P d)
    (h : l.foldlM g d = .ok d') : P d' := by
  induction l generalizing d with
  | nil =>
    cases h
    exact hd
  | cons a l ih =>
    rw [List.foldlM_cons] at h
    cases hg : g d a with
    | error stop =>
      rw [hg] at h
      cases h
    | ok d₁ =>
      rw [hg] at h
      exact ih (fun d b hb => keep d b (by simp [hb])) (keep d a (by simp) d₁ hd hg) h

/-- Links of given names and targets, one after the other. -/
def linkAll (linkDir : Path) (links : List (String × String)) (d : Disk) : Result :=
  links.foldlM (fun d l => d.write (FileSystem.symlink l.2 (linkDir.join l.1))) d

variable {linkDir : Path} {links : List (String × String)}

theorem linkAll_append (links' : List (String × String)) : linkAll linkDir (links ++ links') d =
    match linkAll linkDir links d with
    | .error stop => .error stop
    | .ok d => linkAll linkDir links' d := by
  unfold linkAll
  rw [List.foldlM_append]
  cases List.foldlM (fun d l => d.write (FileSystem.symlink l.2 (linkDir.join l.1))) d links <;> rfl

/-- Links that are all made were not there, and lead to different places. -/
theorem linkAll_ok (h : linkAll linkDir links d = .ok d') :
    (∀ l ∈ links, d.fs.lookup (linkDir.join l.1) = none) ∧
    (links.map fun l => linkDir.join l.1).Nodup ∧
    (∀ l ∈ links, d'.fs.lookup (linkDir.join l.1) = some (.link l.2)) ∧
    ∀ p, (∀ l ∈ links, p ≠ linkDir.join l.1) → d'.fs.lookup p = d.fs.lookup p := by
  induction links generalizing d with
  | nil =>
    cases h
    exact ⟨fun _ h => (List.not_mem_nil h).elim, List.nodup_nil,
      fun _ h => (List.not_mem_nil h).elim, fun _ _ => rfl⟩
  | cons l links ih =>
    rw [linkAll, List.foldlM_cons] at h
    cases hw : d.write (FileSystem.symlink l.2 (linkDir.join l.1)) with
    | error stop =>
      rw [hw] at h
      cases h
    | ok d₁ =>
      rw [hw] at h
      obtain ⟨⟨hfree, -, -⟩, heq⟩ := FileSystem.symlink_eq_some.mp (write_ok hw)
      have hl : ∀ p, d₁.fs.lookup p =
          if p = linkDir.join l.1 then some (.link l.2) else d.fs.lookup p := by
        intro p
        rw [heq, GoMap.lookup_insert_if]
      obtain ⟨habsent, hn, hnew, hsame⟩ := ih h
      have hfresh : ∀ l' ∈ links, linkDir.join l'.1 ≠ linkDir.join l.1 := by
        intro l' hl' hjoin
        have := habsent l' hl'
        rw [hl, if_pos hjoin] at this
        cases this
      refine ⟨?_, ?_, ?_, fun p hp => ?_⟩
      · intro l' hl'
        rcases List.mem_cons.mp hl' with rfl | hl'
        · exact hfree
        · have hfree' := habsent l' hl'
          rwa [hl, if_neg (hfresh l' hl')] at hfree'
      · rw [List.map_cons, List.nodup_cons]
        refine ⟨fun hmem => ?_, hn⟩
        obtain ⟨l', hl', hjoin⟩ := List.mem_map.mp hmem
        exact hfresh l' hl' hjoin
      · intro l' hl'
        rcases List.mem_cons.mp hl' with rfl | hl'
        · rw [hsame _ fun l'' hl'' heq => hfresh l'' hl'' heq.symm, hl, if_pos rfl]
        · exact hnew l' hl'
      · rw [hsame p fun l' hl' => hp l' (by simp [hl']), hl, if_neg (hp l (by simp))]

theorem linkAll_made (hb : d.budget = none) (hdir : d.fs.isDir linkDir = true)
    (hplain : ∀ l ∈ links, PlainName l.1) (hn : (links.map Prod.fst).Nodup)
    (hfree : ∀ l ∈ links, d.fs.lookup (linkDir.join l.1) = none) :
    ∃ d', linkAll linkDir links d = .ok d' := by
  induction links generalizing d with
  | nil => exact ⟨d, rfl⟩
  | cons l links ih =>
    have hl := hplain l (by simp)
    rw [List.map_cons, List.nodup_cons] at hn
    have hmake : FileSystem.symlink l.2 (linkDir.join l.1) d.fs =
        some (d.fs.insert (linkDir.join l.1) (.link l.2)) := by
      refine FileSystem.symlink_eq_some.mpr ⟨⟨hfree l (by simp), ?_, ?_⟩, rfl⟩
      · rw [Path.join_plain hl]
        exact List.append_ne_nil_of_right_ne_nil _ (List.cons_ne_nil _ _)
      · rw [Path.join_plain hl, List.dropLast_concat]
        exact hdir
    rw [linkAll, List.foldlM_cons, write_unbounded hb hmake]
    have hother : ∀ p, p ≠ linkDir.join l.1 →
        (d.fs.insert (linkDir.join l.1) (.link l.2)).lookup p = d.fs.lookup p :=
      fun p hp => AList.lookup_insert_ne hp
    refine ih rfl ?_ (fun l' hl' => hplain l' (by simp [hl'])) hn.2 fun l' hl' => ?_
    · unfold FileSystem.isDir at hdir ⊢
      rwa [hother linkDir (by rw [Path.join_plain hl]; simp)]
    · rw [hother, hfree l' (by simp [hl'])]
      rw [Path.join_plain hl, Path.join_plain (hplain l' (by simp [hl']))]
      intro heq
      have hname := congrArg Subtype.val (List.singleton_inj.mp (List.append_cancel_left heq))
      exact hn.1 (List.mem_map.mpr ⟨l', hl', hname⟩)

theorem left_linkAll {P : FileSystem → Prop} (hd : P d.fs)
    (keep : ∀ fs fs', ∀ l ∈ links, P fs → FileSystem.symlink l.2 (linkDir.join l.1) fs = some fs' →
      P fs') : P (left (linkAll linkDir links d)) :=
  left_foldlM (fun d l hl hp => left_write hp fun fs' h => keep d.fs fs' l hl hp h) hd

end Disk

/-! Names of directories. -/

/-- A text with a character other than a dot, and no slash. -/
theorem plain_of_mem {s : String} {c : Char} (hc : c ∈ s.toList) (hdot : c ≠ '.')
    (hslash : '/' ∉ s.toList) : PlainName s := by
  refine ⟨?_, ?_, ?_, hslash⟩
  · rintro rfl
    simp at hc
  · rintro rfl
    exact hdot (by simpa using hc)
  · rintro rfl
    exact hdot (by simpa using hc)

theorem slash_not_mem_itoa (i : Int) : '/' ∉ (itoa i).toList := by
  have hdigits : ∀ n : ℕ, '/' ∉ (Nat.repr n).toList := by
    intro n h
    rw [Nat.toList_repr] at h
    have hd := Nat.isDigit_of_mem_toDigits (by decide) (by decide) h
    revert hd
    decide
  intro h
  cases i with
  | ofNat n => exact hdigits n h
  | negSucc n =>
    have htext : itoa (Int.negSucc n) = "-" ++ Nat.repr (n + 1) := rfl
    rw [htext, String.toList_append, List.mem_append] at h
    exact h.elim (by decide) (hdigits _)

theorem Uuid.string_plain (u : UUID) : '-' ∈ (Uuid.string u).toList ∧ '/' ∉ (Uuid.string u).toList := by
  have hdigit : ∀ c ∈ hexText u, c ≠ '/' := by
    intro c hc
    obtain ⟨d, hd, rfl⟩ := List.mem_map.mp hc
    have hlt := hexDigits_lt 32 u.toNat d hd
    interval_cases d <;> decide
  unfold Uuid.string
  rw [String.toList_ofList]
  constructor
  · simp [dashed]
  · intro h
    simp only [dashed, List.mem_append, List.mem_cons] at h
    have hno : ∀ l : List Char, l ⊆ hexText u → '/' ∉ l := fun l hl hc => hdigit _ (hl hc) rfl
    rcases h with h | h | h | h | h | h | h | h | h
    · exact hno _ (List.take_subset _ _) h
    · exact absurd h (by decide)
    · exact hno _ (fun _ hc => List.drop_subset _ _ (List.take_subset _ _ hc)) h
    · exact absurd h (by decide)
    · exact hno _ (fun _ hc => List.drop_subset _ _ (List.take_subset _ _ hc)) h
    · exact absurd h (by decide)
    · exact hno _ (fun _ hc => List.drop_subset _ _ (List.take_subset _ _ hc)) h
    · exact absurd h (by decide)
    · exact hno _ (List.drop_subset _ _) h

namespace Path

theorem join_dot (p : Path) : p.join "." = p := by
  rw [join, show ((".".toList.splitOn '/').map String.ofList) = ["."] by decide]
  rfl

theorem join_dots (p : Path) : p.join ".." = p.dropLast := by
  rw [join, show (("..".toList.splitOn '/').map String.ofList) = [".."] by decide]
  rfl

theorem join_slash (p : Path) : p.join "/" = p := by
  rw [join, show (("/".toList.splitOn '/').map String.ofList) = ["", ""] by decide]
  rfl

theorem join_empty (p : Path) : p.join "" = p := by
  rw [join, show (("".toList.splitOn '/').map String.ofList) = [""] by decide]
  rfl

theorem base_cases (s : String) :
    PlainName (base s) ∨ base s = "." ∨ base s = ".." ∨ base s = "/" := by
  unfold base
  split_ifs
  · exact .inr (.inl rfl)
  · cases hcs : (s.toList.reverse.dropWhile (· = '/')).takeWhile (· ≠ '/') with
    | nil => exact .inr (.inr (.inr rfl))
    | cons c cs =>
      dsimp only
      by_cases hdot : String.ofList (c :: cs).reverse = "."
      · exact .inr (.inl hdot)
      by_cases hdots : String.ofList (c :: cs).reverse = ".."
      · exact .inr (.inr (.inl hdots))
      refine .inl ⟨fun h => ?_, hdot, hdots, fun h => ?_⟩
      · have hnil := congrArg String.toList h
        simp at hnil
      · rw [String.toList_ofList, List.mem_reverse, ← hcs] at h
        have hne := List.mem_takeWhile_imp h
        simp at hne

end Path
end Spade
