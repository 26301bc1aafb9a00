import Spade.Core.ContentHash
import Spade.Lib.Records

set_option autoImplicit false

/-!
# What tells two directories apart

The text that a content hash is the sum of gives the files back only together with the lengths
of their paths.
-/
namespace Spade
open FileSystem Path

/-- The files of a directory with their paths below it. -/
def regularFiles (dir : Path) (fs : FileSystem) : Set (Path × String) :=
  {f | fs.branch dir f.1 = some (.file f.2)}

/-- The lengths of the paths of the files, in the order in which they are hashed. -/
def pathLengths (dir : Path) (fs : FileSystem) : List ℕ :=
  (sortFiles (fs.walkFiles dir)).map fun rel => (relText rel).length

section
variable {sha256 : String → String} {fs fs' : FileSystem} {dir dir' : Path}

/-- The path of a file and the sum of its content. -/
def fileRow (sha256 : String → String) (f : Path × String) : List Char × List Char :=
  ((relText f.1).toList, (sha256 f.2).toList)

theorem flatten_rows (files : List (Path × String)) :
    (flatten sha256 files).toList = Records.text (files.map (fileRow sha256)) := by
  rw [flatten, String.toList_join, List.flatMap_map, Records.text, List.flatMap_map]
  simp only [String.toList_append, fileRow]

theorem mem_regularFiles {f : Path × String} :
    f ∈ regularFiles dir fs ↔ f ∈ dirFiles dir fs := mem_dirFiles.symm

theorem row_lengths : ((dirFiles dir fs).map (fileRow sha256)).map (fun r => r.1.length) =
    pathLengths dir fs := by
  simp only [dirFiles, pathLengths, List.map_map, Function.comp_def, fileRow, String.length_toList]

/-- Two directories with the same files list them in the same order. -/
theorem dirFiles_of_regular (h : regularFiles dir fs = regularFiles dir' fs') :
    dirFiles dir fs = dirFiles dir' fs' :=
  dirFiles_of_files fun rel s => Set.ext_iff.mp h (rel, s)

theorem regular_of_rows (hinj : ∀ f ∈ regularFiles dir fs, ∀ g ∈ regularFiles dir' fs',
      sha256 f.2 = sha256 g.2 → f.2 = g.2)
    (h : (dirFiles dir fs).map (fileRow sha256) = (dirFiles dir' fs').map (fileRow sha256)) :
    dirFiles dir fs = dirFiles dir' fs' := by
  have hlen := congrArg List.length h
  rw [List.length_map, List.length_map] at hlen
  apply List.ext_getElem hlen
  intro i hi hi'
  have hrow : fileRow sha256 (dirFiles dir fs)[i] = fileRow sha256 (dirFiles dir' fs')[i] := by
    have hget := List.getElem_of_eq h (i := i) (by rwa [List.length_map])
    rwa [List.getElem_map, List.getElem_map] at hget
  obtain ⟨hpath, hsum⟩ := Prod.mk.inj hrow
  apply Prod.ext
  · exact relText_injective (String.toList_inj.mp hpath)
  · exact hinj _ (mem_regularFiles.mpr (List.getElem_mem hi)) _
      (mem_regularFiles.mpr (List.getElem_mem hi')) (String.toList_inj.mp hsum)

/-- Directories that are hashed over the same text have the same files if and only if the paths
of their files have the same lengths. -/
theorem regularFiles_iff (hwidth : ∀ s, (sha256 s).length = 64)
    (hinj : ∀ f ∈ regularFiles dir fs, ∀ g ∈ regularFiles dir' fs',
      sha256 f.2 = sha256 g.2 → f.2 = g.2)
    (hdir : fs.Standing dir) (hdir' : fs'.Standing dir')
    (h : contentText sha256 dir (fs.walkFiles dir) fs =
      contentText sha256 dir' (fs'.walkFiles dir') fs') :
    regularFiles dir fs = regularFiles dir' fs' ↔ pathLengths dir fs = pathLengths dir' fs' := by
  have hwide : ∀ files : List (Path × String), ∀ r ∈ files.map (fileRow sha256), r.2.length = 64 := by
    intro files r hr
    obtain ⟨f, -, rfl⟩ := List.mem_map.mp hr
    rw [fileRow, String.length_toList, hwidth]
  rw [contentText_standing sha256 hdir, contentText_standing sha256 hdir', Option.some.injEq,
    ← String.toList_inj, flatten_rows, flatten_rows] at h
  have hrows := Records.rows_eq_iff (hwide _) (hwide _) h
  rw [row_lengths, row_lengths] at hrows
  rw [← hrows]
  constructor
  · intro hfiles
    rw [dirFiles_of_regular hfiles]
  · intro hrow
    have hfiles := regular_of_rows hinj hrow
    ext f
    rw [mem_regularFiles, mem_regularFiles, hfiles]

end

/-- The sum of the empty text. -/
def emptySum : String := "e3b0c44298fc1c149afbf4c8996fb92427ae41e4649b934ca495991b7852b855"

theorem emptySum_length : emptySum.length = 64 := by decide

def emptyFiles (dir : FileName) (files : List FileName) : List (Path × Node) :=
  ([dir], .dir) :: files.map fun f => ([dir, f], .file "")

def hashedDir (n : ℕ) : FileName := if n = 0 then ⟨"one", by decide⟩ else ⟨"two", by decide⟩

/-- Empty files in two directories. -/
def hashedDisk (files files' : List FileName) : FileSystem :=
  (emptyFiles (hashedDir 0) files ++ emptyFiles (hashedDir 1) files').foldl
    (fun fs e => fs.insert e.1 e.2) ∅

theorem content_empty {fs : FileSystem} (h : ∀ e ∈ fs.items, e.2 = .dir ∨ e.2 = .file "")
    {dir : Path} : ∀ f ∈ regularFiles dir fs, f.2 = "" := by
  rintro ⟨rel, s⟩ hf
  have hrel : rel ≠ [] := by
    rintro rfl
    cases hf
  simpa using h _ ((GoMap.mem_items _ _ _).mpr (branch_lookup hf hrel))

theorem regularFiles_twin :
    let fs := hashedDisk [⟨"a", by decide⟩] [⟨"a", by decide⟩]
    regularFiles [hashedDir 0] fs = regularFiles [hashedDir 1] fs := by
  have hempty : ∀ e ∈ (hashedDisk [⟨"a", by decide⟩] [⟨"a", by decide⟩]).items,
      e.2 = .dir ∨ e.2 = .file "" := by decide
  refine (@regularFiles_iff (fun _ => emptySum) _ _ _ _ (fun _ => emptySum_length)
    (fun f hf g hg _ => ?_) (standing_nil.concat (by decide))
    (standing_nil.concat (by decide)) (by decide)).mpr (by decide)
  rw [content_empty hempty f hf, content_empty hempty g hg]

/-- Two files, and one whose name is that of the first one, its sum and the name of the second. -/
def gluedDisk : FileSystem :=
  hashedDisk [⟨"a", by decide⟩, ⟨"b", by decide⟩]
    [⟨"ae3b0c44298fc1c149afbf4c8996fb92427ae41e4649b934ca495991b7852b855b", by decide⟩]

theorem regularFiles_fails : ∃ (sha256 : String → String) (fs : FileSystem) (dir dir' : Path),
    (∀ s, (sha256 s).length = 64) ∧
    (∀ f ∈ regularFiles dir fs, ∀ g ∈ regularFiles dir' fs, sha256 f.2 = sha256 g.2 → f.2 = g.2) ∧
    fs.Standing dir ∧ fs.Standing dir' ∧
    contentText sha256 dir (fs.walkFiles dir) fs = contentText sha256 dir' (fs.walkFiles dir') fs ∧
    regularFiles dir fs ≠ regularFiles dir' fs := by
  have hempty : ∀ e ∈ gluedDisk.items, e.2 = .dir ∨ e.2 = .file "" := by decide
  refine ⟨fun _ => emptySum, gluedDisk, [hashedDir 0], [hashedDir 1], fun _ => emptySum_length,
    fun f hf g hg _ => ?_, standing_nil.concat (by decide),
    standing_nil.concat (by decide), by decide, fun h => ?_⟩
  · rw [content_empty hempty f hf, content_empty hempty g hg]
  · have hfile : ([⟨"a", by decide⟩], "") ∈ regularFiles [hashedDir 0] gluedDisk := by
      change gluedDisk.branch [hashedDir 0] [⟨"a", by decide⟩] = some (.file "")
      decide
    rw [h] at hfile
    revert hfile
    change ¬gluedDisk.branch [hashedDir 1] [⟨"a", by decide⟩] = some (.file "")
    decide

end Spade
