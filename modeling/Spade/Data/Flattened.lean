import Spade.Data.Download
import Spade.Lib.Located

set_option autoImplicit false

/-!
# What is left of the entries of an archive

Names are flattened to their last element, so entries of different directories may be written to
one place.
-/
namespace Spade.Data
open FileSystem Path Making

/-- The entries that are no directories and pass the filter. -/
def accepted (filter : ℕ → String → Bool) : ℕ → List ZipEntry → List ZipEntry
  | _, [] => []
  | i, entry :: entries =>
    if entry.isDir || !filter i entry.name then accepted filter (i + 1) entries
    else entry :: accepted filter (i + 1) entries

/-- The path for which an entry is returned. -/
def flatParts (destDir : Path) (entry : ZipEntry) : List String :=
  joinParts destDir (flatName entry.name)

/-- The paths are distinct, and each holds the content of its entry. -/
def KeepsAll (paths : List (List String)) (entries : List ZipEntry) (fs : FileSystem) : Prop :=
  paths.Nodup ∧ List.Forall₂ (fun path entry => fs.readAt path = .ok entry.content) paths entries

/-- The entries that are written have different file names. Where links in the directory lead two
of them to one place, their contents are the same. -/
def NamesApart (destDir : Path) (entries : List ZipEntry) (fs : FileSystem) : Prop :=
  (entries.map fun entry => fileName entry.name).Nodup ∧
  ∀ a ∈ entries, ∀ b ∈ entries,
    fs.locate (flatParts destDir a) = fs.locate (flatParts destDir b) → a.content = b.content

/-- The directory is there, under its name. -/
def Present (destDir : Path) (fs : FileSystem) : Prop :=
  ∀ r, r ≠ [] → r <+: destDir.names → fs.stat r = .ok .dir

/-- The entries are written one after the other, each where its path leads. -/
inductive Writes (destDir : Path) : List ZipEntry → FileSystem → FileSystem → Prop
  | nil (fs : FileSystem) : Writes destDir [] fs fs
  | cons {entry : ZipEntry} {entries : List ZipEntry} {fs fs' : FileSystem} {place : Path}
      (hlocate : fs.locate (flatParts destDir entry) = .ok place) (hopen : fs.Open place)
      (hrest : Writes destDir entries (fs.insert place (.file entry.content)) fs') :
      Writes destDir (entry :: entries) fs fs'

variable {destDir : Path} {entry : ZipEntry} {entries : List ZipEntry} {fs fs' : FileSystem}
  {w w' : Making}

/-! The extraction writes the entries. -/

theorem present_stat (h : Present destDir fs) : fs.stat destDir.names = .ok .dir := by
  by_cases hnil : destDir = []
  · rw [hnil]
    rfl
  · exact h _ (fun hnames => hnil (List.map_eq_nil_iff.mp hnames)) (List.prefix_refl _)

/-- An entry without a file name is never written. -/
theorem named_of_locate (hpresent : Present destDir fs) {place : Path}
    (hlocate : fs.locate (flatParts destDir entry) = .ok place) (hopen : fs.Open place) :
    fileName entry.name ≠ none := by
  intro hname
  have hnode : fs.nodeAt place ≠ some .dir := by
    rw [FileSystem.nodeAt, if_neg hopen.1]
    obtain ⟨-, hnone | ⟨c, hc⟩⟩ := hopen
    · simp [hnone]
    · simp [hc]
  obtain ⟨hflat, hparts⟩ := joinParts_nameless destDir hname
  rw [flatParts, hflat, joinParts] at hlocate
  obtain hnil | ⟨rest, hrest⟩ := hparts
  · have hstat : fs.stat (if isAbs entry.name then [] else destDir.names ++ []) = .ok .dir := by
      split_ifs
      · rfl
      · rw [List.append_nil]
        exact present_stat hpresent
    obtain ⟨q, hq, hdir⟩ := stat_ok.mp hstat
    rw [hnil, hq] at hlocate
    cases hlocate
    exact hnode hdir
  · have hlast : (if isAbs entry.name then pathParts entry.name
        else destDir.names ++ pathParts entry.name).getLast? = some ".." := by
      rw [hrest]
      split_ifs
      · exact List.getLast?_concat
      · rw [← List.append_assoc]
        exact List.getLast?_concat
    obtain hstand | ⟨-, s, hs, hplain⟩ := follow_found standing_nil hlocate
    · exact hnode (walks_names hstand).nodeAt
    · rw [hlast] at hs
      cases hs
      exact absurd hplain (by decide)

theorem extractEntry_ok (hpresent : Present destDir w.fs)
    (h : extractEntry (flatParts destDir entry) entry w = (w', true)) :
    ∃ place, w.fs.locate (flatParts destDir entry) = .ok place ∧ w.fs.Open place ∧
      w'.fs = w.fs.insert place (.file entry.content) := by
  unfold extractEntry at h
  cases hdirs : createDirAll (flatParts destDir entry).dropLast w with
  | mk w₁ b =>
    rw [hdirs] at h
    cases b with
    | false => cases h
    | true =>
      simp only at h
      cases hfile : createFile (flatParts destDir entry) entry.content w₁ with
      | none =>
        rw [hfile] at h
        cases h
      | some w₂ =>
        rw [hfile] at h
        obtain ⟨rfl, -⟩ := Prod.mk.inj h
        obtain ⟨place, hlocate, hopen, hinsert⟩ := createFile_open hfile
        have hx : w.fs.Extends w₁.fs := by
          have hstat := (makeDirs_stat (congrArg Prod.snd hdirs)).1
          rwa [show (makeDirs [] (flatParts destDir entry).dropLast w).1 = w₁ from
            congrArg Prod.fst hdirs] at hstat
        have hnamed := named_of_locate (fun r hr hpre => hx.stat (hpresent r hr hpre)) hlocate hopen
        obtain ⟨s, hs⟩ := Option.ne_none_iff_exists'.mp hnamed
        have hdrop : (flatParts destDir entry).dropLast = destDir.names := by
          rw [flatParts, joinParts_flat destDir hs, List.dropLast_concat]
        have hsame : createDirAll destDir.names w = (w, true) := makeDirs_of_stat hpresent
        rw [hdrop, hsame] at hdirs
        obtain ⟨rfl, -⟩ := Prod.mk.inj hdirs
        exact ⟨place, hlocate, hopen, hinsert⟩

theorem Present.insert (h : Present destDir fs) {place : Path} (hopen : fs.Open place)
    (content : String) : Present destDir (fs.insert place (.file content)) :=
  fun r hr hpre => stat_insert_file hopen content (h r hr hpre)

/-- An extraction that succeeds has written all the entries, and returns their paths in order. -/
theorem extractEntries_ok {filter : ℕ → String → Bool} {i : ℕ} {out paths : List (List String)}
    (hpresent : Present destDir w.fs)
    (h : extractEntries filter (fun name => some (joinParts destDir (flatName name))) i entries out
      w = (w', some paths)) :
    paths = out ++ (accepted filter i entries).map (flatParts destDir) ∧
      Writes destDir (accepted filter i entries) w.fs w'.fs := by
  induction entries generalizing i out w with
  | nil =>
    obtain ⟨rfl, hpaths⟩ := Prod.mk.inj h
    exact ⟨(Option.some.inj hpaths).symm.trans (List.append_nil out).symm, .nil _⟩
  | cons entry entries ih =>
    unfold extractEntries at h
    unfold accepted
    cases hopens : entry.opens with
    | false =>
      rw [hopens] at h
      cases h
    | true =>
      rw [hopens] at h
      cases hdir : entry.isDir with
      | true =>
        rw [hdir] at h
        exact ih hpresent h
      | false =>
        rw [hdir] at h
        cases hfilter : filter i entry.name with
        | false =>
          rw [hfilter] at h
          exact ih hpresent h
        | true =>
          rw [hfilter] at h
          simp only [Bool.not_true, Bool.false_eq_true, if_false] at h
          simp only [Bool.not_true, Bool.or_self, Bool.false_eq_true, if_false]
          cases hentry : extractEntry (joinParts destDir (flatName entry.name)) entry w with
          | mk w₁ b =>
            rw [hentry] at h
            cases b with
            | false => cases h
            | true =>
              obtain ⟨place, hlocate, hopen, hinsert⟩ := extractEntry_ok hpresent hentry
              have hnext : Present destDir w₁.fs := hinsert ▸ hpresent.insert hopen entry.content
              obtain ⟨hpaths, hwrites⟩ := ih hnext h
              rw [hinsert] at hwrites
              refine ⟨?_, .cons hlocate hopen hwrites⟩
              rw [hpaths, List.append_assoc]
              rfl

/-! What is left where the paths lead. -/

/-- The writing does not change where paths lead. -/
theorem Writes.locate (h : Writes destDir entries fs fs') (raw : List String) (q : Path) :
    fs'.locate raw = .ok q ↔ fs.locate raw = .ok q := by
  induction h with
  | nil fs => exact Iff.rfl
  | cons hlocate hopen hrest ih => exact ih.trans (locate_insert_file hopen _)

/-- Every entry has a place. -/
theorem Writes.place (h : Writes destDir entries fs fs') (hmem : entry ∈ entries) :
    ∃ q, fs.locate (flatParts destDir entry) = .ok q ∧ q ≠ [] := by
  induction h with
  | nil fs => exact absurd hmem List.not_mem_nil
  | @cons first rest fs fs' place hlocate hopen hrest ih =>
    obtain rfl | hmem := List.mem_cons.mp hmem
    · exact ⟨place, hlocate, hopen.1⟩
    · obtain ⟨q, hq, hne⟩ := ih hmem
      exact ⟨q, (locate_insert_file hopen _).mp hq, hne⟩

/-- Where no entry is written, everything stays. -/
theorem Writes.frame (h : Writes destDir entries fs fs') {q : Path}
    (hq : ∀ entry ∈ entries, fs.locate (flatParts destDir entry) ≠ .ok q) :
    fs'.lookup q = fs.lookup q := by
  induction h with
  | nil fs => rfl
  | @cons first rest fs fs' place hlocate hopen hrest ih =>
    rw [ih fun entry hentry hplace => hq entry (List.mem_cons_of_mem first hentry)
      ((locate_insert_file hopen _).mp hplace), GoMap.lookup_insert_if, if_neg]
    rintro rfl
    exact hq first List.mem_cons_self hlocate

/-- At the place of an entry stands the content of one that has this place. -/
theorem Writes.content (h : Writes destDir entries fs fs') {q : Path} (hmem : entry ∈ entries)
    (hq : fs.locate (flatParts destDir entry) = .ok q) :
    ∃ last ∈ entries, fs.locate (flatParts destDir last) = .ok q ∧
      fs'.lookup q = some (.file last.content) := by
  induction h generalizing entry with
  | nil fs => exact absurd hmem List.not_mem_nil
  | @cons first rest fs fs' place hlocate hopen hrest ih =>
    by_cases hlater : ∃ later ∈ rest, fs.locate (flatParts destDir later) = .ok q
    · obtain ⟨later, hmem', hq'⟩ := hlater
      obtain ⟨last, hlast, hplace, hcontent⟩ :=
        ih hmem' ((locate_insert_file hopen _).mpr hq')
      exact ⟨last, List.mem_cons_of_mem first hlast, (locate_insert_file hopen _).mp hplace,
        hcontent⟩
    · have hfirst : entry = first := (List.mem_cons.mp hmem).resolve_right fun hrest' =>
        hlater ⟨entry, hrest', hq⟩
      rw [hfirst, hlocate] at hq
      cases hq
      refine ⟨first, List.mem_cons_self, hlocate, ?_⟩
      rw [hrest.frame fun later hmem' hplace =>
        hlater ⟨later, hmem', (locate_insert_file hopen _).mp hplace⟩, GoMap.lookup_insert_if,
        if_pos rfl]

theorem Writes.named (h : Writes destDir entries fs fs') (hpresent : Present destDir fs)
    (hmem : entry ∈ entries) : fileName entry.name ≠ none := by
  induction h with
  | nil fs => exact absurd hmem List.not_mem_nil
  | cons hlocate hopen hrest ih =>
    obtain rfl | hmem := List.mem_cons.mp hmem
    · exact named_of_locate hpresent hlocate hopen
    · exact ih (hpresent.insert hopen _) hmem

theorem readAt_place {raw : List String} {q : Path} {content : String}
    (hq : fs.locate raw = .ok q) (hne : q ≠ []) :
    fs.readAt raw = .ok content ↔ fs.lookup q = some (.file content) := by
  rw [readAt_ok, stat_ok]
  constructor
  · rintro ⟨q', hq', hnode⟩
    obtain rfl := Except.ok.inj (hq.symm.trans hq')
    rwa [FileSystem.nodeAt, if_neg hne] at hnode
  · intro hfile
    exact ⟨q, hq, by rwa [FileSystem.nodeAt, if_neg hne]⟩

theorem nodup_flatParts (hnamed : ∀ entry ∈ entries, fileName entry.name ≠ none) :
    (entries.map (flatParts destDir)).Nodup ↔
      (entries.map fun entry => fileName entry.name).Nodup := by
  have hmap : entries.map (flatParts destDir) =
      (entries.map fun entry => fileName entry.name).map fun name => destDir.names ++ name.toList := by
    rw [List.map_map]
    refine List.map_congr_left fun entry hentry => ?_
    obtain ⟨s, hs⟩ := Option.ne_none_iff_exists'.mp (hnamed entry hentry)
    rw [flatParts, joinParts_flat destDir hs, Function.comp_apply, hs]
    rfl
  rw [hmap]
  refine List.nodup_map_iff fun a b hab => ?_
  have hlist := List.append_cancel_left hab
  cases a <;> cases b <;> simp_all

theorem Writes.keepsAll_iff (h : Writes destDir entries fs fs') (hpresent : Present destDir fs) :
    KeepsAll (entries.map (flatParts destDir)) entries fs' ↔ NamesApart destDir entries fs := by
  unfold KeepsAll NamesApart
  rw [nodup_flatParts fun entry => h.named hpresent, List.forall₂_map_left_iff, List.forall₂_same]
  refine and_congr_right fun _ => ⟨fun hread a ha b hb hab => ?_, fun hsame entry hentry => ?_⟩
  · obtain ⟨q, hq, hne⟩ := h.place ha
    have hfileA := (readAt_place ((h.locate _ q).mpr hq) hne).mp (hread a ha)
    have hfileB := (readAt_place ((h.locate _ q).mpr (hab ▸ hq)) hne).mp (hread b hb)
    rw [hfileA] at hfileB
    exact Node.file.inj (Option.some.inj hfileB)
  · obtain ⟨q, hq, hne⟩ := h.place hentry
    obtain ⟨last, hlast, hplace, hcontent⟩ := h.content hentry hq
    rw [hsame entry hentry last hlast (hq.trans hplace.symm)]
    exact (readAt_place ((h.locate _ q).mpr hq) hne).mpr hcontent

/-- The extraction keeps all the entries it accepts if their file names are apart, as the
directory is when it has been made. -/
theorem extractZip_keepsAll_iff {zip : List ZipEntry} {filter : ℕ → String → Bool}
    {paths : List (List String)}
    (h : (extractZip (some zip) filter destDir ⟨fs, []⟩).2 = some paths) :
    KeepsAll paths (accepted filter 0 zip) (extractZip (some zip) filter destDir ⟨fs, []⟩).1.fs ↔
      NamesApart destDir (accepted filter 0 zip) (createDirAll destDir.names ⟨fs, []⟩).1.fs := by
  have hstat := @makeDirs_stat ⟨fs, []⟩ [] destDir.names
  unfold extractZip extractWith at h ⊢
  change (createDirAll destDir.names ⟨fs, []⟩).2 = true → _ ∧ Present destDir
    (createDirAll destDir.names ⟨fs, []⟩).1.fs at hstat
  generalize createDirAll destDir.names ⟨fs, []⟩ = made at h hstat ⊢
  obtain ⟨w₁, b⟩ := made
  cases b with
  | false => cases h
  | true =>
    have hpresent := (hstat rfl).2
    obtain ⟨hpaths, hwrites⟩ := extractEntries_ok hpresent (Prod.ext rfl h)
    rw [hpaths]
    exact hwrites.keepsAll_iff hpresent

theorem extractZip_keepsAll_two :
    KeepsAll [["out", "x"], ["out", "y"]]
      (accepted (fun _ _ => true) 0
        [{ name := "a/x", content := "1" }, { name := "b/y", content := "2" }])
      (extractZip (some [{ name := "a/x", content := "1" }, { name := "b/y", content := "2" }])
        (fun _ _ => true) [⟨"out", by decide⟩] ⟨∅, []⟩).1.fs ↔
    NamesApart [⟨"out", by decide⟩]
      (accepted (fun _ _ => true) 0
        [{ name := "a/x", content := "1" }, { name := "b/y", content := "2" }])
      (createDirAll (names [⟨"out", by decide⟩]) ⟨∅, []⟩).1.fs :=
  extractZip_keepsAll_iff (by decide)

/-- Two entries of different directories are written to one file. -/
theorem extractZip_keepsAll_fails :
    ["a/x", "b/x"].Nodup ∧
    (extractZip (some [{ name := "a/x", content := "1" }, { name := "b/x", content := "2" }])
      (fun _ _ => true) [⟨"out", by decide⟩] ⟨∅, []⟩).2 = some [["out", "x"], ["out", "x"]] ∧
    ¬KeepsAll [["out", "x"], ["out", "x"]]
      (accepted (fun _ _ => true) 0
        [{ name := "a/x", content := "1" }, { name := "b/x", content := "2" }])
      (extractZip (some [{ name := "a/x", content := "1" }, { name := "b/x", content := "2" }])
        (fun _ _ => true) [⟨"out", by decide⟩] ⟨∅, []⟩).1.fs :=
  ⟨by decide, by decide, fun h => absurd h.1 (by decide)⟩

end Spade.Data
