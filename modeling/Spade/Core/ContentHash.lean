import Spade.Lib.Trees

set_option autoImplicit false

/-!
# Content hashes

`ComputeContentHash` over a file system; `sha256` is the hexadecimal text of the sum of what
is written to it.
-/
namespace Spade
open FileSystem Path

/-- The path of a file from a directory above it, as `filepath.Rel` gives it. -/
def relText (rel : Path) : String := "/".intercalate (names rel)

namespace FileSystem

/-- The files that `filepath.WalkDir` comes to below a directory, but for symbolic links. -/
def walkFiles (dir : Path) (fs : FileSystem) : List Path :=
  (fs.keys.filterMap fun p => if dir <+: p then some (p.drop dir.length) else none).filter fun rel =>
    match fs.branch dir rel with
    | some (.file _) => true
    | _ => false

end FileSystem

def sortFiles (files : List Path) : List Path :=
  files.insertionSort fun f g => relText f ≤ relText g

variable (sha256 : String → String)

def hashFile (path : Path) (fs : FileSystem) : Option String :=
  match fs.readAt (names path) with
  | .ok content => some (sha256 content)
  | .error _ => none

/-- What the hash of a directory is the sum of. -/
def contentText (path : Path) (files : List Path) (fs : FileSystem) : Option String :=
  ((sortFiles files).mapM fun f =>
    (hashFile sha256 (path ++ f) fs).map (relText f ++ ·)).map String.join

/-- The walk does not enter a directory that is only linked. -/
def computeContentHash (path : Path) (fs : FileSystem) : Option String :=
  match fs.stat (names path) with
  | .error _ => none
  | .ok .dir =>
    (contentText sha256 path (if fs.isDir path then fs.walkFiles path else []) fs).map sha256
  | .ok _ => hashFile sha256 path fs

/-- The hash of each entry of the outputs. -/
def collectOutputs (workDir : Path) (fs : FileSystem) : Option (GoMap String String) :=
  match fs.readDirAt (names (workDir.join "outputs")) with
  | .error .notExist => some ∅
  | .error _ => none
  | .ok entries => entries.foldlM (fun hashes entry =>
      (computeContentHash sha256 ((workDir.join "outputs").join entry.name.1) fs).map fun hash =>
        hashes.insert entry.name.1 hash) ∅

/-! What a hash depends on. -/

theorem relText_elements {rel : Path} (h : rel ≠ []) :
    (relText rel).toList.splitOn '/' = rel.map fun m => m.1.toList := by
  have hnames : (names rel).map String.toList = rel.map fun m => m.1.toList := by
    rw [names, List.map_map]
    rfl
  rw [relText, String.toList_intercalate, hnames]
  apply List.splitOn_intercalate
  · intro l hl
    obtain ⟨m, -, rfl⟩ := List.mem_map.mp hl
    exact m.2.2.2.2
  · exact mt List.map_eq_nil_iff.mp h

theorem relText_ne_empty {rel : Path} (h : rel ≠ []) : relText rel ≠ "" := by
  intro hempty
  have helements := relText_elements h
  rw [hempty] at helements
  obtain ⟨m, rest, rfl⟩ := List.exists_cons_of_ne_nil h
  have hm : m.1.toList = [] := (List.cons.inj helements).1.symm
  exact m.2.1 (String.toList_eq_nil_iff.mp hm)

theorem relText_injective : Function.Injective relText := by
  intro f g h
  by_cases hf : f = []
  · subst hf
    by_contra hg
    exact relText_ne_empty (Ne.symm hg) h.symm
  · by_cases hg : g = []
    · subst hg
      exact absurd h (relText_ne_empty hf)
    · have helements : (f.map fun m => m.1.toList) = g.map fun m => m.1.toList := by
        rw [← relText_elements hf, h, relText_elements hg]
      apply List.map_injective_iff.mpr ?_ helements
      intro m k hmk
      exact Subtype.ext (String.toList_inj.mp hmk)

variable {fs fs' : FileSystem} {dir : Path}

theorem mem_walkFiles {rel : Path} :
    rel ∈ fs.walkFiles dir ↔ ∃ s, fs.branch dir rel = some (.file s) := by
  unfold walkFiles
  rw [List.mem_filter, List.mem_filterMap]
  constructor
  · rintro ⟨-, h⟩
    cases hb : fs.branch dir rel with
    | none => simp [hb] at h
    | some node =>
      cases node with
      | file s => exact ⟨s, rfl⟩
      | dir => simp [hb] at h
      | link t => simp [hb] at h
  · rintro ⟨s, hb⟩
    have hrel : rel ≠ [] := by
      rintro rfl
      cases hb
    have hmem := AList.mem_keys.mp (GoMap.mem_of_lookup (branch_lookup hb hrel))
    refine ⟨⟨dir ++ rel, hmem, ?_⟩, by rw [hb]⟩
    rw [if_pos (List.prefix_append _ _), List.drop_left]

theorem walkFiles_nodup : (fs.walkFiles dir).Nodup := by
  apply List.Nodup.filter
  refine List.Nodup.filterMap ?_ fs.keys_nodup
  intro p q rel hp hq
  simp only [Option.mem_def] at hp hq
  split_ifs at hp hq with hp' hq'
  obtain ⟨l, rfl⟩ := hp'
  obtain ⟨l', rfl⟩ := hq'
  rw [List.drop_left] at hp hq
  rw [Option.some.inj hp, Option.some.inj hq]

theorem sortFiles_congr {l l' : List Path} (h : l.Perm l') : sortFiles l = sortFiles l' := by
  have hanti : ∀ f g : Path, relText f ≤ relText g → relText g ≤ relText f → f = g :=
    fun f g hfg hgf => relText_injective (String.le_antisymm hfg hgf)
  refine List.Perm.eq_of_pairwise (fun f g _ _ => hanti f g)
    (List.pairwise_insertionSort _ _) (List.pairwise_insertionSort _ _) ?_
  exact ((List.perm_insertionSort _ _).trans h).trans (List.perm_insertionSort _ _).symm

/-! The files of a directory, by their paths. -/

def fileAt (dir : Path) (fs : FileSystem) (rel : Path) : String :=
  match fs.branch dir rel with
  | some (.file s) => s
  | _ => ""

def dirFiles (dir : Path) (fs : FileSystem) : List (Path × String) :=
  (sortFiles (fs.walkFiles dir)).map fun rel => (rel, fileAt dir fs rel)

/-- The paths and the sums of files, one after the other. -/
def flatten (files : List (Path × String)) : String :=
  String.join (files.map fun f => relText f.1 ++ sha256 f.2)

theorem fileAt_of_mem {rel : Path} (h : rel ∈ fs.walkFiles dir) :
    fs.branch dir rel = some (.file (fileAt dir fs rel)) := by
  obtain ⟨s, hs⟩ := mem_walkFiles.mp h
  rw [fileAt, hs]

theorem mem_dirFiles {rel : Path} {s : String} :
    (rel, s) ∈ dirFiles dir fs ↔ fs.branch dir rel = some (.file s) := by
  unfold dirFiles sortFiles
  rw [List.mem_map]
  constructor
  · rintro ⟨rel', hrel, heq⟩
    obtain ⟨rfl, rfl⟩ := Prod.mk.inj heq
    exact fileAt_of_mem ((List.mem_insertionSort _).mp hrel)
  · intro hb
    refine ⟨rel, (List.mem_insertionSort _).mpr (mem_walkFiles.mpr ⟨s, hb⟩), ?_⟩
    rw [fileAt, hb]

theorem mapM_some {A B : Type} {f : A → Option B} {g : A → B} {l : List A}
    (h : ∀ a ∈ l, f a = some (g a)) : l.mapM f = some (l.map g) := by
  induction l with
  | nil => rfl
  | cons a l ih =>
    rw [List.mapM_cons, h a List.mem_cons_self, ih fun b hb => h b (List.mem_cons_of_mem a hb)]
    rfl

/-- Where a directory stands, its files are read. -/
theorem contentText_standing (hdir : fs.Standing dir) :
    contentText sha256 dir (fs.walkFiles dir) fs = some (flatten sha256 (dirFiles dir fs)) := by
  unfold contentText flatten dirFiles
  rw [mapM_some (g := fun rel => relText rel ++ sha256 (fileAt dir fs rel)), List.map_map]
  · rfl
  · intro rel hrel
    have hread := readAt_branch hdir (fileAt_of_mem ((List.mem_insertionSort _).mp hrel))
    rw [hashFile, hread]
    rfl

theorem computeContentHash_standing (hdir : fs.Standing dir) :
    computeContentHash sha256 dir fs = some (sha256 (flatten sha256 (dirFiles dir fs))) := by
  have hstat : fs.stat (names dir) = .ok .dir := by
    refine stat_ok.mpr ⟨dir, locate_standing hdir, ?_⟩
    unfold FileSystem.nodeAt
    split_ifs with hne
    · rfl
    · exact hdir dir hne (List.prefix_refl _)
  unfold computeContentHash
  rw [hstat]
  dsimp only
  rw [if_pos hdir.isDir, contentText_standing sha256 hdir]
  rfl

theorem dirFiles_of_files {dir' : Path}
    (hat : ∀ rel s, fs.branch dir rel = some (.file s) ↔ fs'.branch dir' rel = some (.file s)) :
    dirFiles dir fs = dirFiles dir' fs' := by
  have hsort : sortFiles (fs.walkFiles dir) = sortFiles (fs'.walkFiles dir') := by
    apply sortFiles_congr
    apply (List.perm_ext_iff_of_nodup walkFiles_nodup walkFiles_nodup).mpr
    intro rel
    rw [mem_walkFiles, mem_walkFiles]
    exact exists_congr fun s => hat rel s
  unfold dirFiles
  rw [← hsort]
  apply List.map_congr_left
  intro rel hrel
  have hfile := fileAt_of_mem ((List.mem_insertionSort _).mp hrel)
  have hfile' := (hat rel _).mp hfile
  rw [Prod.mk.injEq]
  refine ⟨rfl, ?_⟩
  unfold fileAt at hfile' ⊢
  rw [hfile']

theorem dirFiles_congr (h : ∀ rel, fs'.branch dir rel = fs.branch dir rel) :
    dirFiles dir fs' = dirFiles dir fs :=
  dirFiles_of_files fun rel s => by rw [h]

/-- Two directories that stand, with the same below them, have the same hash. -/
theorem computeContentHash_congr (hdir : fs.Standing dir) (hdir' : fs'.Standing dir)
    (h : ∀ rel, rel ≠ [] → fs'.lookup (dir ++ rel) = fs.lookup (dir ++ rel)) :
    computeContentHash sha256 dir fs' = computeContentHash sha256 dir fs := by
  rw [computeContentHash_standing sha256 hdir, computeContentHash_standing sha256 hdir',
    dirFiles_congr fun rel => branch_congr h]

end Spade
