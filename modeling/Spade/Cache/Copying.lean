import Spade.Lib.Trees
import Spade.Runner.Links

set_option autoImplicit false

/-!
# Copies of directory trees

`copyDir` as the cache makes it: directories in the order of `filepath.WalkDir`, and the
content of what is no directory itself, piece by piece.
-/
namespace Spade.Cache
open FileSystem Path

/-- What a file holds after each of the writes, of at most `chunk + 1` characters. -/
def pieces (chunk : ℕ) (content : String) : List String :=
  (List.range ((content.toList.length + chunk) / (chunk + 1))).map fun i =>
    String.ofList (content.toList.take ((i + 1) * (chunk + 1)))

/-- A directory can be opened, but not read. -/
def copyFile (chunk : ℕ) (src dst : Path) (d : Disk) : Disk.Result :=
  match d.fs.stat (names src) with
  | .error _ => d.fail
  | .ok _ =>
    match d.write (writeFile "" dst) with
    | .error stop => .error stop
    | .ok d =>
      match d.fs.readAt (names src) with
      | .error _ => d.fail
      | .ok content => (pieces chunk content).foldlM (fun d s => d.write (writeFile s dst)) d

/-- At most `depth` directories within each other, before a path gets too long. -/
def copyTree (chunk : ℕ) : ℕ → Path → Path → Disk → Disk.Result
  | 0, _, _, d => d.fail
  | depth + 1, src, dst, d =>
    match d.write (mkdirAll dst) with
    | .error stop => .error stop
    | .ok d =>
      match d.fs.readDirAt (names src) with
      | .error _ => d.fail
      | .ok entries =>
        entries.foldlM (fun d e =>
          if e.isDir then copyTree chunk depth (src ++ [e.name]) (dst ++ [e.name]) d
          else copyFile chunk (src ++ [e.name]) (dst ++ [e.name]) d) d

def copyDir (chunk depth : ℕ) (src dst : Path) (d : Disk) : Disk.Result :=
  if d.fs.isDir src then copyTree chunk depth src dst d
  else if src ∈ d.fs then copyFile chunk src dst d
  else d.fail

/-! What a copy leaves. -/

variable {chunk depth : ℕ} {fs fs' : FileSystem} {src dst : Path}

theorem pieces_last (chunk : ℕ) (content : String) :
    pieces chunk content = [] ∧ content = "" ∨ (pieces chunk content).getLast? = some content := by
  unfold pieces
  by_cases h : content.toList = []
  · left
    have hc : content = "" := String.toList_eq_nil_iff.mp h
    refine ⟨?_, hc⟩
    rw [h, List.length_nil, Nat.zero_add, Nat.div_eq_of_lt (Nat.lt_succ_self _)]
    rfl
  · right
    have hlen : 0 < content.toList.length := List.length_pos_iff.mpr h
    obtain ⟨n, hn⟩ : ∃ n, (content.toList.length + chunk) / (chunk + 1) = n + 1 :=
      Nat.exists_eq_succ_of_ne_zero (Nat.div_pos (by omega) (Nat.succ_pos _)).ne'
    rw [hn, List.range_succ, List.map_append, List.map_singleton, List.getLast?_concat]
    congr 1
    have hle : content.toList.length ≤ (n + 1) * (chunk + 1) := by
      have hdiv := Nat.div_add_mod (content.toList.length + chunk) (chunk + 1)
      have hmod := Nat.mod_lt (content.toList.length + chunk) (show 0 < chunk + 1 by omega)
      rw [hn] at hdiv
      rw [Nat.mul_comm]
      omega
    rw [List.take_of_length_le hle, String.ofList_toList]

theorem write_all (l : List String) {p : Path} {m : FileName} (hp : fs.Standing p)
    (h : fs.lookup (p ++ [m]) = none ∨ ∃ s, fs.lookup (p ++ [m]) = some (.file s)) :
    ∃ fs', l.foldlM (fun d s => d.write (writeFile s (p ++ [m]))) ⟨fs, none⟩ =
        (.ok ⟨fs', none⟩ : Disk.Result) ∧
      (∀ q, q ≠ p ++ [m] → fs'.lookup q = fs.lookup q) ∧
      fs'.lookup (p ++ [m]) = (l.getLast?.map Node.file).or (fs.lookup (p ++ [m])) := by
  induction l generalizing fs with
  | nil => exact ⟨fs, rfl, fun _ _ => rfl, rfl⟩
  | cons s l ih =>
    have hw := Disk.write_unbounded (d := ⟨fs, none⟩) rfl (writeFile_child s hp h)
    set fs₁ : FileSystem := fs.insert (p ++ [m]) (Node.file s)
    have hne : ∀ q, q ≠ p ++ [m] → fs₁.lookup q = fs.lookup q := fun q hq => AList.lookup_insert_ne hq
    have heq : fs₁.lookup (p ++ [m]) = some (.file s) := AList.lookup_insert fs
    have hp₁ : fs₁.Standing p := hp.congr fun q hq => hne q fun heq => not_below_self [] (heq ▸ hq)
    obtain ⟨fs', hl, hother, hlast⟩ := ih hp₁ (.inr ⟨s, heq⟩)
    refine ⟨fs', ?_, fun q hq => (hother q hq).trans (hne q hq), ?_⟩
    · rw [List.foldlM_cons, hw]
      exact hl
    · rw [hlast, heq, List.getLast?_cons]
      cases l.getLast? <;> rfl

theorem copyFile_ok (chunk : ℕ) {p : Path} {m : FileName} {q : Path} {s : String} (hp : fs.Standing p)
    (h : fs.lookup (p ++ [m]) = none ∨ ∃ s, fs.lookup (p ++ [m]) = some (.file s))
    (hq : fs.locate (names src) = .ok q) (hs : fs.nodeAt q = some (.file s)) (hne : q ≠ p ++ [m]) :
    ∃ fs', copyFile chunk src (p ++ [m]) ⟨fs, none⟩ = .ok ⟨fs', none⟩ ∧
      ∀ r, fs'.lookup r = if r = p ++ [m] then some (.file s) else fs.lookup r := by
  have hstat : fs.stat (names src) = .ok (.file s) := stat_ok.mpr ⟨q, hq, hs⟩
  have hw := Disk.write_unbounded (d := ⟨fs, none⟩) rfl (writeFile_child "" hp h)
  set fs₁ : FileSystem := fs.insert (p ++ [m]) (Node.file "")
  have hother : ∀ r, r ≠ p ++ [m] → fs₁.lookup r = fs.lookup r := fun r hr => AList.lookup_insert_ne hr
  have hnew : fs₁.lookup (p ++ [m]) = some (.file "") := AList.lookup_insert fs
  have hkeeps : fs.Keeps fs₁ := by
    intro r node hr
    by_cases heq : r = p ++ [m]
    · subst heq
      rcases h with h | ⟨old, h⟩
      · rw [h] at hr
        cases hr
      · rw [h] at hr
        exact .inr ⟨⟨old, (Option.some.inj hr).symm⟩, "", hnew⟩
    · exact .inl ((hother r heq).trans hr)
  have hq₁ : fs₁.locate (names src) = .ok q := hkeeps.follow hq fun hnil hnone => by
    rw [FileSystem.nodeAt, if_neg hnil, hnone] at hs
    cases hs
  have hread : fs₁.readAt (names src) = .ok s := by
    refine readAt_ok.mpr (stat_ok.mpr ⟨q, hq₁, ?_⟩)
    unfold FileSystem.nodeAt at hs ⊢
    rwa [hother q hne]
  have hp₁ : fs₁.Standing p := hp.congr fun r hr => hother r fun heq => not_below_self [] (heq ▸ hr)
  obtain ⟨fs', hl, hkept, hlast⟩ := write_all (pieces chunk s) hp₁ (.inr ⟨"", hnew⟩)
  refine ⟨fs', ?_, fun r => ?_⟩
  · unfold copyFile
    dsimp only
    rw [hstat, hw]
    dsimp only
    rw [hread]
    exact hl
  · split_ifs with heq
    · rw [heq, hlast, hnew]
      rcases pieces_last chunk s with ⟨hnil, rfl⟩ | hs
      · rw [hnil]
        rfl
      · rw [hs]
        rfl
    · rw [hkept r heq, hother r heq]

/-- Links lead to files that are not below the copy, and the tree is not too deep. -/
structure Copyable (fs : FileSystem) (depth : ℕ) (src dst : Path) : Prop where
  dirs : ∀ rel, fs.branch src rel = some .dir → rel.length < depth
  links : ∀ rel t, fs.branch src rel = some (.link t) → ∃ q s,
    fs.locate (names (src ++ rel)) = .ok q ∧ fs.nodeAt q = some (.file s) ∧ ¬dst <+: q

/-- What stands where the copy goes has its place in the tree: a directory as one, a file as
what is none. -/
def Covers (fs : FileSystem) (src dst : Path) : Prop :=
  ∀ rel node, fs.lookup (dst ++ rel) = some node →
    (node = .dir ∧ fs.branch src rel = some .dir) ∨
    (∃ s, node = .file s) ∧ ∃ other, fs.branch src rel = some other ∧ other ≠ .dir

structure Ready (fs : FileSystem) (depth : ℕ) (src dst : Path) : Prop where
  standing : fs.Standing src
  apart : ¬src <+: dst ∧ ¬dst <+: src
  above : ∀ q, q ≠ [] → q <+: dst → fs.lookup q = none ∨ fs.lookup q = some .dir
  copyable : Copyable fs depth src dst
  covers : Covers fs src dst

theorem apart_append (h : ¬src <+: dst ∧ ¬dst <+: src) (rel : Path) : ¬dst <+: src ++ rel := by
  intro hp
  rcases List.prefix_or_prefix_of_prefix hp (List.prefix_append src rel) with h' | h'
  · exact h.2 h'
  · exact h.1 h'

/-- Changes below the destination leave the tree that is copied. -/
theorem Ready.same (h : Ready fs depth src dst) (hk : fs.Keeps fs')
    (hoff : ∀ p, ¬dst <+: p → p ≠ [] → fs.lookup p ≠ none → fs'.lookup p = fs.lookup p)
    (hnew : ∀ rel, rel ≠ [] → fs.lookup (src ++ rel) = none → fs'.lookup (src ++ rel) = none) :
    (∀ rel, fs'.branch src rel = fs.branch src rel) ∧ (∀ rel, fs'.tree src rel = fs.tree src rel) ∧
      ∀ rel t, fs.branch src rel = some (.link t) → ∃ q s,
        fs'.locate (names (src ++ rel)) = .ok q ∧ fs'.nodeAt q = some (.file s) ∧ ¬dst <+: q := by
  have hlookup : ∀ rel, rel ≠ [] → fs'.lookup (src ++ rel) = fs.lookup (src ++ rel) := by
    intro rel hrel
    by_cases hnone : fs.lookup (src ++ rel) = none
    · rw [hnone, hnew rel hrel hnone]
    · exact hoff _ (apart_append h.apart rel) (by simp [hrel]) hnone
  have hlinks : ∀ rel t, fs.branch src rel = some (.link t) → ∃ q s,
      fs.locate (names (src ++ rel)) = .ok q ∧ fs'.locate (names (src ++ rel)) = .ok q ∧
        fs.nodeAt q = some (.file s) ∧ fs'.nodeAt q = some (.file s) ∧ ¬dst <+: q := by
    intro rel t hb
    obtain ⟨q, s, hq, hs, hno⟩ := h.copyable.links rel t hb
    have hne : q ≠ [] := by
      rintro rfl
      cases hs
    have hs' := hs
    rw [FileSystem.nodeAt, if_neg hne] at hs'
    refine ⟨q, s, hq, hk.follow hq fun _ hnone => ?_, hs, ?_, hno⟩
    · rw [hnone] at hs'
      cases hs'
    · rw [FileSystem.nodeAt, if_neg hne, hoff q hno hne (by simp [hs']), hs']
  refine ⟨fun rel => branch_congr hlookup, fun rel => tree_congr hlookup fun rel t hb => ?_,
    fun rel t hb => ?_⟩
  · obtain ⟨q, s, hq, hq', hs, hs', -⟩ := hlinks rel t hb
    rw [readAt_ok.mpr (stat_ok.mpr ⟨q, hq, hs⟩), readAt_ok.mpr (stat_ok.mpr ⟨q, hq', hs'⟩)]
  · obtain ⟨q, s, -, hq', -, hs', hno⟩ := hlinks rel t hb
    exact ⟨q, s, hq', hs', hno⟩

/-- With its directory made, a copy is ready as before. -/
theorem Ready.mkdir (h : Ready fs depth src dst) : ∃ fs', mkdirAll dst fs = some fs' ∧
    Ready fs' depth src dst ∧ fs'.Standing dst ∧ (∀ rel, fs'.tree src rel = fs.tree src rel) ∧
      ∀ p, ¬p <+: dst → fs'.lookup p = fs.lookup p := by
  obtain ⟨fs', hmk⟩ := mkdirAll_ok h.above
  have hl := mkdirAll_lookup hmk
  have hstand : fs'.Standing dst := fun q hq hp => by rw [hl, if_pos ⟨hq, hp⟩]
  have hkeeps : ∀ p, fs.lookup p ≠ none → fs'.lookup p = fs.lookup p := by
    intro p hp
    rw [hl]
    split_ifs with hpre
    · exact ((h.above p hpre.1 hpre.2).resolve_left hp).symm
    · rfl
  have hother : ∀ p, ¬p <+: dst → fs'.lookup p = fs.lookup p := by
    intro p hp
    rw [hl, if_neg fun hpre => hp hpre.2]
  have hsrc : ∀ rel, ¬src ++ rel <+: dst := fun rel hp =>
    h.apart.1 ((List.prefix_append src rel).trans hp)
  obtain ⟨hbranch, htree, hlinks⟩ := h.same
    (fun p node hp => .inl ((hkeeps p (by simp [hp])).trans hp))
    (fun p _ _ hp => hkeeps p hp) (fun rel _ hnone => (hother _ (hsrc rel)).trans hnone)
  refine ⟨fs', hmk, ⟨?_, h.apart, fun q hq hp => .inr (hstand q hq hp),
    ⟨fun rel hb => h.copyable.dirs rel (hbranch rel ▸ hb), fun rel t hb => hlinks rel t (hbranch rel ▸ hb)⟩,
    fun rel node hn => ?_⟩, hstand, htree, hother⟩
  · exact fun q hq hp => (hkeeps q (by simp [h.standing q hq hp])).trans (h.standing q hq hp)
  · rw [hbranch]
    by_cases hrel : rel = []
    · subst hrel
      rw [List.append_nil, hl] at hn
      split_ifs at hn with hpre
      · exact .inl ⟨(Option.some.inj hn).symm, rfl⟩
      · exact h.covers [] node (by rwa [List.append_nil])
    · rw [hother _ fun hp => hrel (by
        have hlen := hp.length_le
        rw [List.length_append] at hlen
        exact List.eq_nil_of_length_eq_zero (by omega))] at hn
      exact h.covers rel node hn

/-- A part of the children has been copied. -/
structure Copying (fs : FileSystem) (src dst : Path) (copied : List FileName) (g : FileSystem) :
    Prop where
  off : ∀ p, ¬dst <+: p → g.lookup p = fs.lookup p
  root : g.lookup dst = some .dir
  done : ∀ m ∈ copied, ∀ rest, g.lookup (dst ++ m :: rest) = fs.tree src (m :: rest)
  todo : ∀ m, m ∉ copied → ∀ rest, g.lookup (dst ++ m :: rest) = fs.lookup (dst ++ m :: rest)

theorem Copying.keeps {copied : List FileName} {g : FileSystem} (h : Ready fs depth src dst)
    (hroot : fs.lookup dst = some .dir) (hc : Copying fs src dst copied g) : fs.Keeps g := by
  intro p node hp
  by_cases hpre : dst <+: p
  · obtain ⟨rel, rfl⟩ := hpre
    cases rel with
    | nil =>
      rw [List.append_nil] at hp ⊢
      rw [hroot] at hp
      exact .inl (hc.root.trans hp)
    | cons m rest =>
      by_cases hm : m ∈ copied
      · rw [hc.done m hm rest]
        rcases h.covers _ node hp with ⟨rfl, hb⟩ | ⟨hs, other, hb, hne⟩
        · exact .inl (tree_dir.mpr hb)
        · refine .inr ⟨hs, ?_⟩
          unfold FileSystem.tree
          rw [hb]
          cases other with
          | dir => exact absurd rfl hne
          | file s => exact ⟨s, rfl⟩
          | link t =>
            obtain ⟨q, s, hq, hs, -⟩ := h.copyable.links _ t hb
            rw [readAt_ok.mpr (stat_ok.mpr ⟨q, hq, hs⟩)]
            exact ⟨s, rfl⟩
      · rw [hc.todo m hm rest]
        exact .inl hp
  · rw [hc.off p hpre]
    exact .inl hp

/-- The tree that is copied is as it was. -/
theorem Copying.same {copied : List FileName} {g : FileSystem} (h : Ready fs depth src dst)
    (hroot : fs.lookup dst = some .dir) (hc : Copying fs src dst copied g) :
    (∀ rel, g.branch src rel = fs.branch src rel) ∧ (∀ rel, g.tree src rel = fs.tree src rel) ∧
      ∀ rel t, fs.branch src rel = some (.link t) → ∃ q s,
        g.locate (names (src ++ rel)) = .ok q ∧ g.nodeAt q = some (.file s) ∧ ¬dst <+: q :=
  h.same (hc.keeps h hroot) (fun p hp _ _ => hc.off p hp) fun rel _ hnone =>
    (hc.off _ (apart_append h.apart rel)).trans hnone

/-- What a copy makes of a state. -/
structure Copied (fs : FileSystem) (src dst : Path) (fs' : FileSystem) : Prop where
  tree : ∀ rel, fs'.lookup (dst ++ rel) = fs.tree src rel
  off : ∀ p, ¬dst <+: p → fs'.lookup p = fs.lookup p ∨
    p ≠ [] ∧ p <+: dst ∧ fs.lookup p = none ∧ fs'.lookup p = some .dir

theorem Copying.extend {copied : List FileName} {g g' : FileSystem} {m : FileName}
    (hc : Copying fs src dst copied g) (hm : m ∉ copied)
    (hnew : ∀ rest, g'.lookup (dst ++ m :: rest) = fs.tree src (m :: rest))
    (hoff : ∀ p, ¬dst ++ [m] <+: p → g'.lookup p = g.lookup p) :
    Copying fs src dst (copied ++ [m]) g' := by
  have hne : ∀ k ∈ copied, k ≠ m := fun k hk heq => hm (heq ▸ hk)
  refine ⟨fun p hp => ?_, ?_, fun k hk rest => ?_, fun k hk rest => ?_⟩
  · rw [hoff p fun hpre => hp ((List.prefix_append _ _).trans hpre), hc.off p hp]
  · rw [hoff dst (not_below_self []), hc.root]
  · rcases List.mem_append.mp hk with hk | hk
    · rw [hoff _ (child_off rest m k (hne k hk)), hc.done k hk]
    · rw [List.mem_singleton.mp hk]
      exact hnew rest
  · rw [List.mem_append, not_or, List.mem_singleton] at hk
    rw [hoff _ (child_off rest m k hk.2), hc.todo k hk.1]

theorem Ready.child {copied : List FileName} {g : FileSystem} {m : FileName}
    (h : Ready fs (depth + 1) src dst) (hstand : fs.Standing dst) (hroot : fs.lookup dst = some .dir)
    (hc : Copying fs src dst copied g) (hm : m ∉ copied)
    (hdir : fs.lookup (src ++ [m]) = some .dir) : Ready g depth (src ++ [m]) (dst ++ [m]) := by
  obtain ⟨hsame, -, hlinks⟩ := hc.same h hroot
  have hdir' : g.lookup (src ++ [m]) = some .dir := (hc.off _ (apart_append h.apart [m])).trans hdir
  have hbranch : ∀ rel, g.branch (src ++ [m]) rel = fs.branch src (m :: rel) := by
    intro rel
    rw [← branch_dir_cons hdir', hsame]
  have htodo : ∀ rel, g.lookup (dst ++ [m] ++ rel) = fs.lookup (dst ++ m :: rel) := by
    intro rel
    rw [List.append_assoc]
    exact hc.todo m hm rel
  refine ⟨?_, ⟨fun hp => ?_, fun hp => ?_⟩, fun q hq hp => ?_, ⟨fun rel hb => ?_, fun rel t hb => ?_⟩,
    fun rel node hn => ?_⟩
  · refine (h.standing.concat hdir).congr fun q hq => hc.off q fun hp => ?_
    exact apart_append h.apart [m] (hp.trans hq)
  · rcases List.prefix_concat_iff.mp hp with heq | hp
    · exact h.apart.1 (List.append_inj_left' heq rfl ▸ List.prefix_refl _)
    · exact h.apart.1 ((List.prefix_append _ _).trans hp)
  · exact apart_append h.apart [m] ((List.prefix_append _ _).trans hp)
  · rcases List.prefix_concat_iff.mp hp with rfl | hp
    · have hl := htodo []
      rw [List.append_nil] at hl
      rw [hl]
      cases hn : fs.lookup (dst ++ [m]) with
      | none => exact .inl rfl
      | some node =>
        rcases h.covers [m] node hn with ⟨rfl, -⟩ | ⟨-, other, hb, hne⟩
        · exact .inr rfl
        · rw [branch_dir_cons hdir, FileSystem.branch] at hb
          exact absurd (Option.some.inj hb).symm hne
    · by_cases heq : q = dst
      · exact .inr (heq ▸ hc.root)
      · rw [hc.off q fun hp' => heq (hp.eq_of_length_le hp'.length_le)]
        exact .inr (hstand q hq hp)
  · simpa using h.copyable.dirs (m :: rel) (hbranch rel ▸ hb)
  · obtain ⟨q, s, hq, hs, hno⟩ := hlinks (m :: rel) t (hbranch rel ▸ hb)
    refine ⟨q, s, ?_, hs, fun hp => hno ((List.prefix_append _ _).trans hp)⟩
    rw [List.append_assoc]
    exact hq
  · rw [htodo] at hn
    rw [hbranch]
    exact h.covers (m :: rel) node hn

theorem Copying.standing {copied : List FileName} {g : FileSystem} (hstand : fs.Standing dst)
    (hc : Copying fs src dst copied g) : g.Standing dst := by
  intro q hq hp
  by_cases heq : q = dst
  · rw [heq, hc.root]
  · rw [hc.off q fun hp' => heq (hp.eq_of_length_le hp'.length_le)]
    exact hstand q hq hp

theorem copyChild_ok {copied : List FileName} {g : FileSystem} {m : FileName}
    (ih : ∀ {fs : FileSystem} {src dst : Path}, Ready fs depth src dst →
      ∃ fs', copyTree chunk depth src dst ⟨fs, none⟩ = .ok ⟨fs', none⟩ ∧ Copied fs src dst fs')
    (h : Ready fs (depth + 1) src dst) (hstand : fs.Standing dst) (hroot : fs.lookup dst = some .dir)
    (hc : Copying fs src dst copied g) (hm : m ∉ copied) (hmem : src ++ [m] ∈ fs) :
    ∃ g', (if fs.isDir (src ++ [m]) then copyTree chunk depth (src ++ [m]) (dst ++ [m]) ⟨g, none⟩
        else copyFile chunk (src ++ [m]) (dst ++ [m]) ⟨g, none⟩) = .ok ⟨g', none⟩ ∧
      Copying fs src dst (copied ++ [m]) g' := by
  obtain ⟨hsame, htree, hlinks⟩ := hc.same h hroot
  have hstand' := hc.standing hstand
  have hlookup := hc.off _ (apart_append h.apart [m])
  by_cases hdir : fs.lookup (src ++ [m]) = some .dir
  · rw [if_pos (by simp [FileSystem.isDir, hdir])]
    obtain ⟨g', hg, hcopied⟩ := ih (h.child hstand hroot hc hm hdir)
    refine ⟨g', hg, hc.extend hm (fun rest => ?_) fun p hp => ?_⟩
    · have ht := hcopied.tree rest
      rw [List.append_assoc] at ht
      rw [← htree, tree_dir_cons (hlookup.trans hdir)]
      exact ht
    · rcases hcopied.off p hp with heq | ⟨hne, hpre, hnone, -⟩
      · exact heq
      · rcases List.prefix_concat_iff.mp hpre with rfl | hpre
        · exact absurd (List.prefix_refl _) hp
        · rw [hstand' p hne hpre] at hnone
          cases hnone
  · rw [if_neg (by simp [FileSystem.isDir, hdir])]
    obtain ⟨q, s, hq, hs, hne, hts⟩ : ∃ q s, g.locate (names (src ++ [m])) = .ok q ∧
        g.nodeAt q = some (.file s) ∧ q ≠ dst ++ [m] ∧ fs.tree src [m] = some (.file s) := by
      obtain ⟨node, hnode⟩ := GoMap.lookup_of_mem hmem
      have hb : fs.branch src [m] = some node := by
        rw [branch_leaf_cons hdir, if_pos rfl, hnode]
      have hb' := (hsame [m]).trans hb
      rw [← htree]
      cases node with
      | dir => exact absurd hnode hdir
      | file s =>
        have hstand'' : g.Standing src := h.standing.congr fun q hq => hc.off q fun hp =>
          h.apart.2 (hp.trans hq)
        refine ⟨src ++ [m], s, follow_child _ hstand'' ?_ ?_, ?_, fun heq => ?_, ?_⟩
        · simp [hlookup, hnode]
        · simp [hlookup, hnode]
        · rw [FileSystem.nodeAt, if_neg (by simp), hlookup, hnode]
        · exact h.apart.2 (List.append_inj_left' heq rfl ▸ List.prefix_refl _)
        · rw [FileSystem.tree, hb']
      | link t =>
        obtain ⟨q, s, hq, hs, hno⟩ := hlinks [m] t hb
        refine ⟨q, s, hq, hs, fun heq => hno (heq ▸ List.prefix_append _ _), ?_⟩
        rw [FileSystem.tree, hb']
        dsimp only
        rw [readAt_ok.mpr (stat_ok.mpr ⟨q, hq, hs⟩)]
    have hfree : g.lookup (dst ++ [m]) = none ∨ ∃ s, g.lookup (dst ++ [m]) = some (.file s) := by
      rw [hc.todo m hm []]
      cases hn : fs.lookup (dst ++ [m]) with
      | none => exact .inl rfl
      | some node =>
        rcases h.covers [m] node hn with ⟨-, hb⟩ | ⟨⟨s, rfl⟩, -⟩
        · rw [branch_leaf_cons hdir, if_pos rfl] at hb
          exact absurd hb hdir
        · exact .inr ⟨s, rfl⟩
    obtain ⟨g', hg, hl⟩ := copyFile_ok chunk hstand' hfree hq hs hne
    refine ⟨g', hg, hc.extend hm (fun rest => ?_) fun p hp => ?_⟩
    · by_cases hrest : rest = []
      · rw [hrest, hl, if_pos rfl, hts]
      · have hb : fs.branch src (m :: rest) = none := by
          rw [branch_leaf_cons hdir, if_neg hrest]
        rw [hl, if_neg (by simp [hrest]), hc.todo m hm, tree_none hb]
        cases hn : fs.lookup (dst ++ m :: rest) with
        | none => rfl
        | some node =>
          rcases h.covers (m :: rest) node hn with ⟨-, hb'⟩ | ⟨-, _, hb', -⟩ <;> simp [hb] at hb'
    · rw [hl, if_neg]
      rintro rfl
      exact hp (List.prefix_refl _)

theorem copyChildren_ok {copied todo : List FileName} {g : FileSystem}
    (ih : ∀ {fs : FileSystem} {src dst : Path}, Ready fs depth src dst →
      ∃ fs', copyTree chunk depth src dst ⟨fs, none⟩ = .ok ⟨fs', none⟩ ∧ Copied fs src dst fs')
    (h : Ready fs (depth + 1) src dst) (hstand : fs.Standing dst) (hroot : fs.lookup dst = some .dir)
    (hc : Copying fs src dst copied g) (hn : (copied ++ todo).Nodup)
    (hmem : ∀ m ∈ todo, src ++ [m] ∈ fs) :
    ∃ g', (todo.map fun m => (⟨m, fs.isDir (src ++ [m])⟩ : DirEntry)).foldlM (fun d e =>
        if e.isDir then copyTree chunk depth (src ++ [e.name]) (dst ++ [e.name]) d
        else copyFile chunk (src ++ [e.name]) (dst ++ [e.name]) d) ⟨g, none⟩ =
          (.ok ⟨g', none⟩ : Disk.Result) ∧ Copying fs src dst (copied ++ todo) g' := by
  induction todo generalizing copied g with
  | nil => exact ⟨g, rfl, by rwa [List.append_nil]⟩
  | cons m todo ih' =>
    have hm : m ∉ copied := by
      intro hm
      rw [List.nodup_append] at hn
      exact hn.2.2 m hm m List.mem_cons_self rfl
    obtain ⟨g₁, hg₁, hc₁⟩ := copyChild_ok ih h hstand hroot hc hm (hmem m List.mem_cons_self)
    have hassoc : copied ++ m :: todo = copied ++ [m] ++ todo := by rw [List.append_assoc]; rfl
    rw [hassoc] at hn ⊢
    obtain ⟨g', hg', hc'⟩ := ih' hc₁ hn fun k hk => hmem k (List.mem_cons_of_mem m hk)
    refine ⟨g', ?_, hc'⟩
    rw [List.map_cons, List.foldlM_cons, hg₁]
    exact hg'

/-- A copy of a tree with nothing in its way, that nothing interrupts. -/
theorem copyTree_ok (chunk : ℕ) (h : Ready fs depth src dst) :
    ∃ fs', copyTree chunk depth src dst ⟨fs, none⟩ = .ok ⟨fs', none⟩ ∧ Copied fs src dst fs' := by
  induction depth generalizing fs src dst with
  | zero => exact absurd (h.copyable.dirs [] rfl) (Nat.not_lt_zero _)
  | succ depth ih =>
    obtain ⟨fs₁, hmk, h₁, hstand, htree, hother⟩ := h.mkdir
    have hne : dst ≠ [] := by
      rintro rfl
      exact h.apart.2 List.nil_prefix
    have hroot := hstand dst hne (List.prefix_refl _)
    obtain ⟨l, -, hn, hmem, hread⟩ := readDirAt_standing h₁.standing
    have hstart : Copying fs₁ src dst [] fs₁ :=
      ⟨fun _ _ => rfl, hroot, fun _ hm => (List.not_mem_nil hm).elim, fun _ _ _ => rfl⟩
    obtain ⟨fs', hfold, hc⟩ := copyChildren_ok (fun h => ih h) h₁ hstand hroot hstart
      (by rwa [List.nil_append]) fun m hm => (hmem m).mp hm
    rw [List.nil_append] at hc
    refine ⟨fs', ?_, ⟨fun rel => ?_, fun p hp => ?_⟩⟩
    · unfold copyTree
      rw [Disk.write_unbounded rfl hmk]
      dsimp only
      rw [hread]
      exact hfold
    · rw [← htree]
      cases rel with
      | nil =>
        rw [List.append_nil, hc.root]
        rfl
      | cons m rest =>
        by_cases hm : m ∈ l
        · exact hc.done m hm rest
        · have hnone : fs₁.lookup (src ++ [m]) = none :=
            AList.lookup_eq_none.mpr (mt (hmem m).mpr hm)
          have hb : fs₁.branch src (m :: rest) = none := by
            rw [branch_leaf_cons (by simp [hnone]), hnone, ite_self]
          rw [hc.todo m hm, tree_none hb]
          cases hn : fs₁.lookup (dst ++ m :: rest) with
          | none => rfl
          | some node =>
            rcases h₁.covers (m :: rest) node hn with ⟨-, hb'⟩ | ⟨-, _, hb', -⟩ <;> simp [hb] at hb'
    · rw [hc.off p hp]
      by_cases hpre : p <+: dst
      · by_cases hnil : p = []
        · left
          rw [hnil, mkdirAll_lookup hmk, if_neg (by simp)]
        · rcases h.above p hnil hpre with hnone | hdir
          · exact .inr ⟨hnil, hpre, hnone, hstand p hnil hpre⟩
          · exact .inl ((hstand p hnil hpre).trans hdir.symm)
      · exact .inl (hother p hpre)

/-! What an interrupted copy leaves. -/

/-- Only what is at the destination or below it changes, and no link gets there. -/
structure Confined (fs : FileSystem) (dst : Path) (g : FileSystem) : Prop where
  off : ∀ p, ¬dst <+: p → g.lookup p = fs.lookup p ∨
    p ≠ [] ∧ p <+: dst ∧ fs.lookup p = none ∧ g.lookup p = some .dir
  linkless : ∀ rel t, g.lookup (dst ++ rel) ≠ some (.link t)

/-- So far the copy has made its directory and changed nothing else. -/
def Within (fs : FileSystem) (dst : Path) (g : FileSystem) : Prop :=
  Confined fs dst g ∧ g.Standing dst

theorem Within.write {g g' : FileSystem} {content : String} {rel : Path} (h : Within fs dst g)
    (hw : writeFile content (dst ++ rel) g = some g') : Within fs dst g' := by
  obtain ⟨hc, hstand⟩ := h
  obtain ⟨hdir, rfl⟩ := writeFile_linkless hstand (fun rel _ _ => hc.linkless rel) hw
  have hl : ∀ p, (g.insert (dst ++ rel) (Node.file content)).lookup p =
      if p = dst ++ rel then some (.file content) else g.lookup p :=
    fun p => GoMap.lookup_insert_if _ _ _ _
  refine ⟨⟨fun p hp => ?_, fun rel' t => ?_⟩, hstand.congr fun p hp => ?_⟩
  · rw [hl, if_neg]
    · exact hc.off p hp
    · rintro rfl
      exact hp (List.prefix_append _ _)
  · rw [hl]
    split_ifs
    · simp
    · exact hc.linkless rel' t
  · rw [hl, if_neg]
    rintro rfl
    exact Bool.false_ne_true (hdir.symm.trans (hstand.of_prefix hp).isDir)

theorem Within.mkdirAll {g g' : FileSystem} {rel : Path} (h : Within fs dst g)
    (hw : FileSystem.mkdirAll (dst ++ rel) g = some g') : Within fs dst g' := by
  obtain ⟨hc, hstand⟩ := h
  have hl := mkdirAll_lookup hw
  have hkeep : ∀ p, ¬dst <+: p ∨ p = dst → g'.lookup p = g.lookup p := by
    intro p hp
    rw [hl]
    split_ifs with hpre
    · have hdst : p <+: dst := by
        rcases hp with hp | rfl
        · exact (List.prefix_or_prefix_of_prefix hpre.2 (List.prefix_append dst rel)).resolve_right hp
        · exact List.prefix_refl _
      exact (hstand p hpre.1 hdst).symm
    · rfl
  refine ⟨⟨fun p hp => ?_, fun rel' t => ?_⟩, hstand.congr fun p hp => hkeep p ?_⟩
  · rw [hkeep p (.inl hp)]
    exact hc.off p hp
  · rw [hl]
    split_ifs
    · simp
    · exact hc.linkless rel' t
  · by_cases heq : p = dst
    · exact .inr heq
    · exact .inl fun hp' => heq (hp.eq_of_length_le hp'.length_le)

variable {d : Disk} {rel : Path}

theorem within_copyFile (h : Within fs dst d.fs) :
    Within fs dst (Disk.left (copyFile chunk src (dst ++ rel) d)) := by
  have hwrite := Disk.left_write (P := Within fs dst) (f := writeFile "" (dst ++ rel)) h
    fun g hg => h.write hg
  unfold copyFile
  split
  · exact h
  · cases hw : d.write (writeFile "" (dst ++ rel)) with
    | error stop =>
      rw [hw] at hwrite
      exact hwrite
    | ok d₁ =>
      rw [hw] at hwrite
      dsimp only
      cases d₁.fs.readAt (names src) with
      | error e => exact hwrite
      | ok content =>
        exact Disk.left_foldlM (P := Within fs dst)
          (fun d s _ hd => Disk.left_write hd fun g hg => Within.write hd hg) hwrite

theorem within_children {step : Disk → DirEntry → Disk.Result} (entries : List DirEntry)
    (keep : ∀ d e, Within fs dst d.fs → Within fs dst (Disk.left (step d e)))
    (h : Within fs dst d.fs) : Within fs dst (Disk.left (entries.foldlM step d)) :=
  Disk.left_foldlM (fun d e _ hd => keep d e hd) h

theorem within_copyTree (h : Within fs dst d.fs) :
    Within fs dst (Disk.left (copyTree chunk depth src (dst ++ rel) d)) := by
  induction depth generalizing src rel d with
  | zero => exact h
  | succ depth ih =>
    have hmk := Disk.left_write (P := Within fs dst) (f := FileSystem.mkdirAll (dst ++ rel)) h
      fun g hg => h.mkdirAll hg
    unfold copyTree
    cases hw : d.write (FileSystem.mkdirAll (dst ++ rel)) with
    | error stop =>
      rw [hw] at hmk
      exact hmk
    | ok d₁ =>
      rw [hw] at hmk
      dsimp only
      cases d₁.fs.readDirAt (names src) with
      | error e => exact hmk
      | ok entries =>
        refine within_children entries (fun d e hd => ?_) hmk
        split_ifs
        · rw [List.append_assoc]
          exact ih hd
        · rw [List.append_assoc]
          exact within_copyFile hd

theorem within_mkdir {fs' : FileSystem} (h : ∀ rel t, fs.lookup (dst ++ rel) ≠ some (.link t))
    (hmk : FileSystem.mkdirAll dst fs = some fs') : Within fs dst fs' := by
  have hl := mkdirAll_lookup hmk
  refine ⟨⟨fun p _ => ?_, fun rel t => ?_⟩, fun q hq hp => by rw [hl, if_pos ⟨hq, hp⟩]⟩
  · rw [hl]
    split_ifs with hp
    · rcases mkdirAll_free hmk hp.1 hp.2 with hnone | hdir
      · exact .inr ⟨hp.1, hp.2, hnone, rfl⟩
      · exact .inl hdir.symm
    · exact .inl rfl
  · rw [hl]
    split_ifs
    · simp
    · exact h rel t

/-- A copy of a directory is confined to its destination, wherever it stops. -/
theorem confined_copyTree (chunk depth : ℕ) (src : Path)
    (h : ∀ rel t, d.fs.lookup (dst ++ rel) ≠ some (.link t)) :
    Confined d.fs dst (Disk.left (copyTree chunk depth src dst d)) := by
  have hrefl : Confined d.fs dst d.fs := ⟨fun _ _ => .inl rfl, h⟩
  cases depth with
  | zero => exact hrefl
  | succ depth =>
    unfold copyTree
    cases hw : d.write (FileSystem.mkdirAll dst) with
    | error stop =>
      change Confined d.fs dst stop.2
      rw [Disk.write_error hw]
      exact hrefl
    | ok d₁ =>
      have hmk := within_mkdir h (Disk.write_ok hw)
      dsimp only
      cases d₁.fs.readDirAt (names src) with
      | error e => exact hmk.1
      | ok entries =>
        refine (within_children entries (fun d e hd => ?_) hmk).1
        split_ifs
        · exact within_copyTree hd
        · exact within_copyFile hd

end Spade.Cache
