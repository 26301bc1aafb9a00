import Spade.Lib.Making
import Spade.Lib.Words

set_option autoImplicit false

/-!
# Unpacking of downloads

The extraction of zip archives (`blocks/data/src/common/download.rs`).
-/
namespace Spade.Data
open FileSystem Path Making

/-- An entry: whether it can be opened, and what can be read of it. -/
structure ZipEntry where
  name : String
  opens : Bool := true
  isDir : Bool := false
  content : String := ""
  complete : Bool := true

/-- The elements of a path that are names or `..`. -/
def pathParts (name : String) : List String :=
  (components name).filter fun s => s ≠ "" ∧ s ≠ "."

/-- `Path::file_name`: the last element, unless it is `..`. -/
def fileName (name : String) : Option String := (pathParts name).getLast?.filter (· ≠ "..")

/-- `Path::join`: an absolute path is taken as it is. -/
def joinParts (destDir : Path) (name : String) : List String :=
  if isAbs name then pathParts name else destDir.names ++ pathParts name

/-- One entry is written; what has been made stays if that fails. -/
def extractEntry (dest : List String) (entry : ZipEntry) (w : Making) : Making × Bool :=
  match createDirAll dest.dropLast w with
  | (w, false) => (w, false)
  | (w, true) =>
    match createFile dest entry.content w with
    | none => (w, false)
    | some w => (w, entry.complete)

/-- The entries from the `i`-th on. They are written where `place` says, and it is an error if that
is nowhere. -/
def extractEntries (filter : ℕ → String → Bool) (place : String → Option (List String)) :
    ℕ → List ZipEntry → List (List String) → Making → Making × Option (List (List String))
  | _, [], out, w => (w, some out)
  | i, entry :: entries, out, w =>
    if !entry.opens then (w, none)
    else if entry.isDir then extractEntries filter place (i + 1) entries out w
    else if !filter i entry.name then extractEntries filter place (i + 1) entries out w
    else
      match place entry.name with
      | none => (w, none)
      | some dest =>
        match extractEntry dest entry w with
        | (w, false) => (w, none)
        | (w, true) => extractEntries filter place (i + 1) entries (out ++ [dest]) w

/-- The archive may be one that cannot be opened. -/
def extractWith (archive : Option (List ZipEntry)) (filter : ℕ → String → Bool)
    (place : String → Option (List String)) (destDir : Path) (w : Making) :
    Making × Option (List (List String)) :=
  match createDirAll destDir.names w with
  | (w, false) => (w, none)
  | (w, true) =>
    match archive with
    | none => (w, none)
    | some entries => extractEntries filter place 0 entries [] w

def flatName (name : String) : String := (fileName name).getD name

def extractZip (archive : Option (List ZipEntry)) (filter : ℕ → String → Bool) (destDir : Path)
    (w : Making) : Making × Option (List (List String)) :=
  extractWith archive filter (fun name => some (joinParts destDir (flatName name))) destDir w

/-- The elements of a relative path that does not go back. -/
def sanitizeZipName (name : String) : Option (List String) :=
  if isAbs name then none
  else if ".." ∈ pathParts name then none
  else if pathParts name = [] then none
  else some (pathParts name)

def extractZipTree (archive : Option (List ZipEntry)) (destDir : Path) (w : Making) :
    Making × Option (List (List String)) :=
  extractWith archive (fun _ _ => true)
    (fun name => (sanitizeZipName name).map fun rel => destDir.names ++ rel) destDir w

/-! The entries that are written. -/

/-- The entries that are to be written, up to the first that cannot be opened. -/
def attempted (filter : ℕ → String → Bool) : ℕ → List ZipEntry → List ZipEntry
  | _, [] => []
  | i, entry :: entries =>
    if !entry.opens then []
    else if entry.isDir || !filter i entry.name then attempted filter (i + 1) entries
    else entry :: attempted filter (i + 1) entries

/-- They are written one after the other, up to the first that fails. -/
def writeEntries (place : String → Option (List String)) : List ZipEntry → Making → Making
  | [], w => w
  | entry :: entries, w =>
    match place entry.name with
    | none => w
    | some dest =>
      match extractEntry dest entry w with
      | (w, false) => w
      | (w, true) => writeEntries place entries w

theorem extractEntries_fst (filter : ℕ → String → Bool) (place : String → Option (List String))
    (i : ℕ) (entries : List ZipEntry) (out : List (List String)) (w : Making) :
    (extractEntries filter place i entries out w).1 =
      writeEntries place (attempted filter i entries) w := by
  induction entries generalizing i out w with
  | nil => rfl
  | cons entry entries ih =>
    unfold extractEntries attempted
    cases hopens : entry.opens
    · rfl
    · cases hdir : entry.isDir
      · cases hfilter : filter i entry.name
        · exact ih (i + 1) out w
        · simp only [Bool.not_true, Bool.or_self, Bool.false_eq_true, if_false]
          unfold writeEntries
          cases place entry.name with
          | none => rfl
          | some dest =>
            simp only
            obtain ⟨w₁, b⟩ := extractEntry dest entry w
            cases b with
            | false => rfl
            | true => exact ih (i + 1) (out ++ [dest]) w₁
      · exact ih (i + 1) out w

/-! Names and places. -/

theorem pathParts_plain {name s : String} (h : s ∈ pathParts name) (hs : s ≠ "..") :
    PlainName s := by
  obtain ⟨hmem, hpart⟩ := List.mem_filter.mp h
  rw [decide_eq_true_eq] at hpart
  obtain ⟨cs, hcs, rfl⟩ := List.mem_map.mp hmem
  refine ⟨hpart.1, hpart.2, hs, ?_⟩
  rw [String.toList_ofList]
  exact Words.not_mem_of_mem_splitOn hcs

theorem fileName_eq {name s : String} (h : fileName name = some s) :
    PlainName s ∧ (pathParts name).getLast? = some s := by
  obtain ⟨hlast, hne⟩ := Option.filter_eq_some_iff.mp h
  exact ⟨pathParts_plain (List.mem_of_getLast? hlast) (of_decide_eq_true hne), hlast⟩

/-- What a name is flattened to lies in the directory itself. -/
theorem joinParts_flat {name s : String} (destDir : Path) (h : fileName name = some s) :
    joinParts destDir (flatName name) = destDir.names ++ [s] := by
  have hplain := (fileName_eq h).1
  have habs : isAbs s = false := by
    rw [isAbs, decide_eq_false_iff_not]
    intro hhead
    obtain ⟨t, ht⟩ := List.head?_eq_some_iff.mp hhead
    exact hplain.2.2.2 (ht ▸ List.mem_cons_self)
  have hone : components s = [s] := by
    unfold components
    rw [List.splitOn_eq_singleton hplain.2.2.2, List.map_singleton, String.ofList_toList]
  have hparts : pathParts s = [s] := by
    have hkeep : decide (s ≠ "" ∧ s ≠ ".") = true := decide_eq_true ⟨hplain.1, hplain.2.1⟩
    rw [pathParts, hone, List.filter_singleton, hkeep, cond_true]
  unfold flatName
  rw [h, Option.getD_some, joinParts, habs, if_neg Bool.false_ne_true, hparts]

/-- Without a file name, the last element is `..`, or there is none. -/
theorem joinParts_nameless {name : String} (destDir : Path) (h : fileName name = none) :
    joinParts destDir (flatName name) = joinParts destDir name ∧
      (pathParts name = [] ∨ ∃ rest, pathParts name = rest ++ [".."]) := by
  refine ⟨by rw [flatName, h, Option.getD_none], ?_⟩
  cases hparts : pathParts name using List.reverseRecOn with
  | nil => exact .inl rfl
  | append_singleton rest s =>
    refine .inr ⟨rest, ?_⟩
    unfold fileName at h
    rw [hparts, List.getLast?_concat, Option.filter_some] at h
    split_ifs at h with hs
    rw [decide_eq_true_eq, not_not] at hs
    rw [hs]

end Spade.Data
