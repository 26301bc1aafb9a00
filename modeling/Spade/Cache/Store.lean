import Spade.Cache.Copying
import Spade.Lib.Runs

set_option autoImplicit false

/-!
# The cache of outputs

An entry is a directory under its key. Runs store, look up and restore entries in turn, and a
store may be interrupted at any of its writes.
-/
namespace Spade.Cache
open FileSystem Path

/-- The cache directory, the buffer of a copy and how deep a directory can be. -/
structure Site where
  cacheDir : Path
  chunk : ℕ
  depth : ℕ

namespace Site
variable (s : Site)

def cachePath (cacheKey : FileName) : Path := s.cacheDir ++ [cacheKey]

def cacheLookup (cacheKey : FileName) (fs : FileSystem) : Option Path :=
  match fs.stat (names (s.cachePath cacheKey)) with
  | .ok _ => some (s.cachePath cacheKey)
  | .error _ => none

def cacheStore (cacheKey : FileName) (outputsDir : Path) (d : Disk) : Disk.Result :=
  match d.write (mkdirAll (s.cachePath cacheKey)) with
  | .error stop => .error stop
  | .ok d => copyDir s.chunk s.depth outputsDir (s.cachePath cacheKey) d

def cacheRestore (cacheKey : FileName) (targetDir : Path) (d : Disk) : Disk.Result :=
  copyDir s.chunk s.depth (s.cachePath cacheKey) targetDir d

end Site

inductive Call where
  | store (cacheKey : FileName) (outputsDir : Path) (budget : Option ℕ)
  | lookup (cacheKey : FileName)
  | restore (cacheKey : FileName) (targetDir : Path) (budget : Option ℕ)
  | other (fs : FileSystem)

/-- The disk, and the outputs of the stores that completed. -/
structure State where
  fs : FileSystem
  completed : List (FileName × (Path → Option Node))

namespace Site
variable (s : Site)

def step (c : State) : Call → State
  | .store cacheKey outputsDir budget =>
    match s.cacheStore cacheKey outputsDir ⟨c.fs, budget⟩ with
    | .ok d => ⟨d.fs, (cacheKey, c.fs.tree outputsDir) :: c.completed⟩
    | .error (_, fs) => ⟨fs, c.completed⟩
  | .lookup _ => c
  | .restore cacheKey targetDir budget =>
    ⟨Disk.left (s.cacheRestore cacheKey targetDir ⟨c.fs, budget⟩), c.completed⟩
  | .other fs => ⟨fs, c.completed⟩

def Apart (p : Path) : Prop := ¬p <+: s.cacheDir ∧ ¬s.cacheDir <+: p

/-- Outputs and targets are not in the cache, and nothing but the cache writes there. -/
def Regular (c : State) : Call → Prop
  | .store _ outputsDir _ => s.Apart outputsDir
  | .lookup _ => True
  | .restore _ targetDir _ => s.Apart targetDir ∧ ∀ rel t, c.fs.lookup (targetDir ++ rel) ≠ some (.link t)
  | .other fs => ∀ p, p <+: s.cacheDir ∨ s.cacheDir <+: p → fs.lookup p = c.fs.lookup p

/-- Nothing of the outputs is stored, or everything: no interruption, no link but to a file, and
no entry yet that has more. -/
def Whole (c : State) : Call → Prop
  | .store cacheKey outputsDir budget => budget = some 0 ∨
    budget = none ∧ c.fs.Standing outputsDir ∧
      Copyable c.fs s.depth outputsDir (s.cachePath cacheKey) ∧
      Covers c.fs outputsDir (s.cachePath cacheKey)
  | _ => True

/-- What a lookup finds can be restored to an empty directory, as what a store completed. -/
def Served (c : State) : Prop :=
  ∀ cacheKey, s.cacheLookup cacheKey c.fs ≠ none → ∀ targetDir, s.Apart targetDir →
    c.fs.Standing targetDir → (∀ rel, rel ≠ [] → c.fs.lookup (targetDir ++ rel) = none) →
    ∃ d outputs, s.cacheRestore cacheKey targetDir ⟨c.fs, none⟩ = .ok d ∧
      (cacheKey, outputs) ∈ c.completed ∧ ∀ rel, d.fs.tree targetDir rel = outputs rel

/-- The cache directory is there and empty. -/
def Empty (fs : FileSystem) : Prop :=
  fs.Standing s.cacheDir ∧ ∀ rel, rel ≠ [] → fs.lookup (s.cacheDir ++ rel) = none

def Missing (cacheKey : FileName) (fs : FileSystem) : Prop :=
  ∀ rel, fs.lookup (s.cachePath cacheKey ++ rel) = none

/-- An entry is the outputs of a store that completed. -/
def Held (c : State) (cacheKey : FileName) : Prop :=
  ∃ outputs, (cacheKey, outputs) ∈ c.completed ∧ Closed outputs ∧
    (∀ rel, outputs rel = some .dir → rel.length < s.depth) ∧
    ∀ rel, c.fs.lookup (s.cachePath cacheKey ++ rel) = outputs rel

structure Intact (c : State) : Prop where
  standing : c.fs.Standing s.cacheDir
  entries : ∀ cacheKey, s.Missing cacheKey c.fs ∨ s.Held c cacheKey

variable {s} {c : State} {cacheKey : FileName}

theorem cachePath_append (rel : Path) : s.cachePath cacheKey ++ rel = s.cacheDir ++ cacheKey :: rel := by
  rw [cachePath, List.append_assoc]
  rfl

theorem cacheDir_above : s.cacheDir <+: s.cachePath cacheKey := List.prefix_append _ _

theorem Empty.intact (h : s.Empty c.fs) : s.Intact c :=
  ⟨h.1, fun cacheKey => .inl fun rel => by
    rw [cachePath_append]
    exact h.2 _ (List.cons_ne_nil _ _)⟩

theorem Apart.entry {p : Path} (h : s.Apart p) :
    ¬p <+: s.cachePath cacheKey ∧ ¬s.cachePath cacheKey <+: p := by
  refine ⟨fun hp => ?_, fun hp => h.2 (cacheDir_above.trans hp)⟩
  rcases List.prefix_concat_iff.mp hp with rfl | hp
  · exact h.2 cacheDir_above
  · exact h.1 hp

/-- The entries are as before where nothing changes in the cache directory and above it. -/
theorem Intact.congr {fs : FileSystem} (h : s.Intact c)
    (hsame : ∀ p, p <+: s.cacheDir ∨ s.cacheDir <+: p → fs.lookup p = c.fs.lookup p) :
    s.Intact ⟨fs, c.completed⟩ := by
  have hentry : ∀ key rel, fs.lookup (s.cachePath key ++ rel) = c.fs.lookup (s.cachePath key ++ rel) :=
    fun key rel => hsame _ (.inr (cacheDir_above.trans (List.prefix_append _ _)))
  refine ⟨h.standing.congr fun q hq => hsame q (.inl hq), fun key => ?_⟩
  refine (h.entries key).imp (fun hm rel => (hentry key rel).trans (hm rel)) ?_
  rintro ⟨outputs, hmem, hclosed, hdepth, hl⟩
  exact ⟨outputs, hmem, hclosed, hdepth, fun rel => (hentry key rel).trans (hl rel)⟩

theorem Intact.entry (h : s.Intact c) (key : FileName) :
    c.fs.lookup (s.cachePath key) = none ∨ c.fs.lookup (s.cachePath key) = some .dir := by
  rcases h.entries key with hm | ⟨outputs, -, hclosed, -, hl⟩
  · have := hm []
    rw [List.append_nil] at this
    exact .inl this
  · have := hl []
    rw [List.append_nil, hclosed.root] at this
    exact .inr this

/-- Where a lookup finds something, there is an entry. -/
theorem Intact.held (h : s.Intact c) (hfound : s.cacheLookup cacheKey c.fs ≠ none) :
    s.Held c cacheKey := by
  refine (h.entries cacheKey).resolve_left fun hm => hfound ?_
  have hnone : c.fs.lookup (s.cachePath cacheKey) = none := by
    have := hm []
    rwa [List.append_nil] at this
  have hlocate : c.fs.locate (names (s.cachePath cacheKey)) = .ok (s.cachePath cacheKey) :=
    follow_child _ h.standing (by rw [← cachePath, hnone]; simp)
      fun t => by rw [← cachePath, hnone]; simp
  have hnode : c.fs.nodeAt (s.cachePath cacheKey) = none := by
    rw [nodeAt, if_neg (by simp [cachePath]), hnone]
  unfold cacheLookup FileSystem.stat
  rw [hlocate]
  dsimp only
  rw [hnode]

theorem Intact.served (h : s.Intact c) : s.Served c := by
  intro cacheKey hfound targetDir hapart hstand hempty
  obtain ⟨outputs, hmem, hclosed, hdepth, hl⟩ := h.held hfound
  have hdir : c.fs.lookup (s.cachePath cacheKey) = some .dir := by
    rw [← List.append_nil (s.cachePath cacheKey), hl, hclosed.root]
  have hbranch := fun rel => hclosed.branch_eq [] hl hclosed.root rel
  have hready : Ready c.fs s.depth (s.cachePath cacheKey) targetDir := {
    standing := h.standing.concat hdir
    apart := hapart.entry.symm
    above := fun q hq hp => .inr (hstand q hq hp)
    copyable := ⟨fun rel hb => hdepth rel (hbranch rel ▸ hb),
      fun rel t hb => absurd (hbranch rel ▸ hb) (hclosed.linkless rel t)⟩
    covers := by
      intro rel node hnode
      by_cases hrel : rel = []
      · subst hrel
        have hne : targetDir ≠ [] := by
          rintro rfl
          exact hapart.1 List.nil_prefix
        rw [List.append_nil, hstand targetDir hne (List.prefix_refl _)] at hnode
        exact .inl ⟨(Option.some.inj hnode).symm, rfl⟩
      · rw [hempty rel hrel] at hnode
        cases hnode }
  obtain ⟨fs', hcopy, hcopied⟩ := copyTree_ok s.chunk hready
  refine ⟨⟨fs', none⟩, outputs, ?_, hmem, hclosed.tree_eq fun rel => ?_⟩
  · unfold cacheRestore copyDir
    rw [if_pos hready.standing.isDir]
    exact hcopy
  · rw [hcopied.tree, hclosed.tree_eq hl]

/-- A store that nothing interrupts makes the outputs the entry. -/
theorem Intact.stored {outputsDir : Path} (h : s.Intact c) (hapart : s.Apart outputsDir)
    (hstand : c.fs.Standing outputsDir)
    (hcopyable : Copyable c.fs s.depth outputsDir (s.cachePath cacheKey))
    (hcovers : Covers c.fs outputsDir (s.cachePath cacheKey)) :
    s.Intact (s.step c (.store cacheKey outputsDir none)) := by
  have hready : Ready c.fs s.depth outputsDir (s.cachePath cacheKey) := {
    standing := hstand
    apart := hapart.entry
    above := by
      intro q hq hp
      rcases List.prefix_concat_iff.mp hp with rfl | hp
      · exact h.entry cacheKey
      · exact .inr (h.standing q hq hp)
    copyable := hcopyable
    covers := hcovers }
  obtain ⟨fs₁, hmk, hready₁, hstand₁, htree, hother⟩ := hready.mkdir
  obtain ⟨fs', hcopy, hcopied⟩ := copyTree_ok s.chunk hready₁
  have hstore : s.cacheStore cacheKey outputsDir ⟨c.fs, none⟩ = .ok ⟨fs', none⟩ := by
    unfold cacheStore
    rw [Disk.write_unbounded rfl hmk]
    dsimp only
    rw [copyDir, if_pos hready₁.standing.isDir]
    exact hcopy
  have hstep : s.step c (.store cacheKey outputsDir none) =
      ⟨fs', (cacheKey, c.fs.tree outputsDir) :: c.completed⟩ := by
    rw [step, hstore]
  rw [hstep]
  refine ⟨fun q hq hp => ?_, fun key => ?_⟩
  · have hdir := hstand₁ q hq (hp.trans cacheDir_above)
    rcases hcopied.off q fun hp' => not_below_self [] (hp'.trans hp) with hsame | ⟨-, -, -, hdir'⟩
    · exact hsame.trans hdir
    · exact hdir'
  · by_cases hkey : key = cacheKey
    · subst hkey
      exact .inr ⟨_, List.mem_cons_self, tree_closed, fun rel ht => hcopyable.dirs rel (tree_dir.mp ht),
        fun rel => (hcopied.tree rel).trans (htree rel)⟩
    · have hoff : ∀ rel, fs'.lookup (s.cachePath key ++ rel) = c.fs.lookup (s.cachePath key ++ rel) := by
        intro rel
        have hbelow : ¬s.cachePath cacheKey <+: s.cachePath key ++ rel := by
          rw [cachePath_append]
          exact child_off rel cacheKey key hkey
        have habove : ¬s.cachePath key ++ rel <+: s.cachePath cacheKey := by
          intro hp
          have hp' := (List.prefix_append (s.cachePath key) rel).trans hp
          exact child_off [] key cacheKey (Ne.symm hkey) hp'
        rcases hcopied.off _ hbelow with hsame | ⟨-, hp, -⟩
        · exact hsame.trans (hother _ habove)
        · exact absurd hp habove
      refine (h.entries key).imp (fun hm rel => (hoff rel).trans (hm rel)) ?_
      rintro ⟨outputs, hmem, hclosed, hdepth, hl⟩
      exact ⟨outputs, List.mem_cons_of_mem _ hmem, hclosed, hdepth, fun rel => (hoff rel).trans (hl rel)⟩

theorem Intact.restored {targetDir : Path} (h : s.Intact c) (budget : Option ℕ)
    (hapart : s.Apart targetDir) (hlinkless : ∀ rel t, c.fs.lookup (targetDir ++ rel) ≠ some (.link t)) :
    s.Intact (s.step c (.restore cacheKey targetDir budget)) := by
  refine h.congr fun p hp => ?_
  unfold cacheRestore copyDir
  split_ifs with hdir hmem
  · have hconfined := confined_copyTree (d := ⟨c.fs, budget⟩) s.chunk s.depth (s.cachePath cacheKey)
      hlinkless
    have htarget : ¬targetDir <+: p := by
      intro ht
      rcases hp with hp | hp
      · exact hapart.1 (ht.trans hp)
      · exact (List.prefix_or_prefix_of_prefix ht hp).elim hapart.1 hapart.2
    rcases hconfined.off p htarget with hsame | ⟨hne, ht, hnone, -⟩
    · exact hsame
    · rcases hp with hp | hp
      · change c.fs.lookup p = none at hnone
        rw [h.standing p hne hp] at hnone
        cases hnone
      · exact absurd (hp.trans ht) hapart.2
  · exfalso
    obtain ⟨node, hnode⟩ := GoMap.lookup_of_mem hmem
    rcases h.entry cacheKey with hnone | hd
    · rw [hnone] at hnode
      cases hnode
    · exact hdir (by simp [FileSystem.isDir, hd])
  · rfl

theorem intact_step (c : State) (call : Call) (h : s.Intact c)
    (hc : s.Regular c call ∧ s.Whole c call) : s.Intact (s.step c call) := by
  obtain ⟨hregular, hwhole⟩ := hc
  cases call with
  | store cacheKey outputsDir budget =>
    rcases hwhole with rfl | ⟨rfl, hstand, hcopyable, hcovers⟩
    · exact h
    · exact h.stored hregular hstand hcopyable hcovers
  | lookup cacheKey => exact h
  | restore cacheKey targetDir budget => exact h.restored budget hregular.1 hregular.2
  | other fs => exact h.congr hregular

/-- From an empty cache on, what is found is what a store completed. -/
theorem served_whole {fs : FileSystem} (hempty : s.Empty fs) {calls : List Call}
    (hregular : Runs.Along s.step s.Regular ⟨fs, []⟩ calls)
    (hwhole : Runs.Along s.step s.Whole ⟨fs, []⟩ calls) :
    Runs.Always s.step s.Served ⟨fs, []⟩ calls :=
  (Runs.always_of_along s.step intact_step (Empty.intact (c := ⟨fs, []⟩) hempty)
    ((Runs.along_and s.step _ _ _ _).mpr ⟨hregular, hwhole⟩)).mono s.step fun _ h => h.served

end Site

/-! A store of two files. -/

def sampleSite : Site := ⟨Path.join [] "cache", 7, 2⟩

def sampleOutputs : Path := Path.join [] "out"

def sampleTarget : Path := Path.join [] "work"

def sampleKey : FileName := ⟨"6b86b273", by decide⟩

def sampleDisk : FileSystem :=
  ((((AList.insert sampleSite.cacheDir Node.dir ∅).insert sampleOutputs .dir).insert
    sampleTarget .dir).insert (sampleOutputs.join "a.txt") (.file "1")).insert
    (sampleOutputs.join "b.txt") (.file "2")

theorem sample_empty : sampleSite.Empty sampleDisk := by
  have hkeys : ∀ p ∈ sampleDisk.keys, sampleSite.cacheDir <+: p → p = sampleSite.cacheDir := by
    decide
  refine ⟨standing_nil.concat (by decide), fun rel hrel => AList.lookup_eq_none.mpr fun hm => ?_⟩
  exact hrel (List.append_right_eq_self.mp (hkeys _ (AList.mem_keys.mp hm) (List.prefix_append _ _)))

theorem linkless_of_items {fs : FileSystem}
    (h : ∀ e ∈ fs.items, e.2 = .dir ∨ e.2 = .file "1" ∨ e.2 = .file "2") (p : Path) (t : String) :
    fs.lookup p ≠ some (.link t) := by
  intro hp
  have := h (p, .link t) ((GoMap.mem_items _ _ _).mpr hp)
  simp at this

theorem sample_whole : sampleSite.Whole ⟨sampleDisk, []⟩ (.store sampleKey sampleOutputs none) := by
  have hdirs : ∀ e ∈ sampleDisk.items, e.2 = .dir → sampleOutputs <+: e.1 → e.1 = sampleOutputs := by
    decide
  have hentry : ∀ p ∈ sampleDisk.keys, ¬sampleSite.cachePath sampleKey <+: p := by decide
  refine .inr ⟨rfl, standing_nil.concat (by decide), ⟨fun rel hb => ?_, fun rel t hb => ?_⟩,
    fun rel node hn => ?_⟩
  · by_cases hrel : rel = []
    · rw [hrel]
      decide
    · have hmem := (GoMap.mem_items _ _ _).mpr (branch_lookup hb hrel)
      exact absurd (List.append_right_eq_self.mp (hdirs _ hmem rfl (List.prefix_append _ _))) hrel
  · have hrel : rel ≠ [] := by
      rintro rfl
      cases hb
    exact absurd (branch_lookup hb hrel) (linkless_of_items (by decide +kernel) _ t)
  · exact absurd (List.prefix_append _ _) (hentry _ (AList.mem_keys.mp (GoMap.mem_of_lookup hn)))

theorem sample_apart : sampleSite.Apart sampleOutputs ∧ sampleSite.Apart sampleTarget := by
  unfold Site.Apart
  decide

theorem served_stored : Runs.Always sampleSite.step sampleSite.Served ⟨sampleDisk, []⟩
    [.store sampleKey sampleOutputs none, .lookup sampleKey, .restore sampleKey sampleTarget none] :=
  Site.served_whole sample_empty
    ⟨sample_apart.1, trivial, ⟨sample_apart.2, fun _ => linkless_of_items (by decide +kernel) _⟩, trivial⟩
    ⟨sample_whole, trivial, trivial, trivial⟩

/-- The lookup finds what an interrupted store left, and no store completed. -/
theorem served_fails : sampleSite.Empty sampleDisk ∧
    Runs.Along sampleSite.step sampleSite.Regular ⟨sampleDisk, []⟩
      [.store sampleKey sampleOutputs (some 3), .lookup sampleKey] ∧
    ¬Runs.Always sampleSite.step sampleSite.Served ⟨sampleDisk, []⟩
      [.store sampleKey sampleOutputs (some 3), .lookup sampleKey] := by
  refine ⟨sample_empty, ⟨sample_apart.1, trivial, trivial⟩, fun h => ?_⟩
  have hstep := h.2.head
  set c := sampleSite.step ⟨sampleDisk, []⟩ (.store sampleKey sampleOutputs (some 3)) with hc
  have hbelow : ∀ p ∈ c.fs.keys, sampleTarget <+: p → p = sampleTarget := by
    rw [hc]
    decide +kernel
  have hcompleted : c.completed.isEmpty = true := by
    rw [hc]
    decide +kernel
  have hfound : sampleSite.cacheLookup sampleKey c.fs ≠ none := by
    rw [hc]
    decide +kernel
  have hstand : c.fs.Standing sampleTarget := standing_nil.concat (by
    rw [hc]
    decide +kernel)
  obtain ⟨d, outputs, -, hmem, -⟩ := hstep sampleKey hfound sampleTarget sample_apart.2 hstand
    fun rel hrel => AList.lookup_eq_none.mpr fun hm =>
      hrel (List.append_right_eq_self.mp (hbelow _ (AList.mem_keys.mp hm) (List.prefix_append _ _)))
  rw [List.isEmpty_iff.mp hcompleted] at hmem
  cases hmem

end Spade.Cache
