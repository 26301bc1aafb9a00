import Spade.Cli.Laying
import Spade.Lib.Runs

set_option autoImplicit false

/-!
# Installs one after the other

Between the installs, and while a collection is built, the disk changes outside the install
directories only.
-/
namespace Spade.Cli
open FileSystem Path KeyedRows

/-- The disk, the table, and the manifests last installed for a collection and a version. -/
structure Site where
  fs : FileSystem
  rows : List BlockRegistryEntry := []
  sources : GoMap (String × String) (List BlockManifest) := ∅

/-- A run of `installFromSource` on the disk that it finds. -/
structure Install where
  found : FileSystem
  srcDir : Path
  cleanupSrc : Bool := false

variable (env : Environment) (base : Path)

namespace Install
variable (i : Install)

def lang : CollectionLanguage := detectLanguage i.srcDir i.found

def name : String := collectionName env i.srcDir i.lang i.found

def version : String := collectionVersion env i.srcDir i.lang i.found

def manifests : List BlockManifest := (sourceManifests env i.srcDir i.found).getD []

def dir : Path := (base.join (i.name env)).join (i.version env)

/-- The disk once the collection is built. -/
def built : Option FileSystem := runBuild env i.srcDir i.lang (i.name env) i.found

/-- The files among the manifests, once the collection is built. -/
def files (fs : FileSystem) : Option (List (FileName × Option String)) :=
  sourceFiles (i.srcDir.join "blocks") fs

end Install

namespace Site

def installed (s : Site) (i : Install) : Option Site :=
  (installFromSource env base i.srcDir i.cleanupSrc s.rows i.found).map fun r =>
    { fs := r.1, rows := r.2, sources := s.sources.insert (i.name env, i.version env) (i.manifests env) }

/-- An install that fails is none of a run. -/
def install (s : Site) (i : Install) : Site := (s.installed env base i).getD s

end Site

/-- What is below a directory stays, and so do the directories above it. -/
structure SameBelow (base : Path) (fs fs' : FileSystem) : Prop where
  below : ∀ p, base <+: p → fs'.lookup p = fs.lookup p
  above : ∀ p, p <+: base → fs.lookup p = some .dir → fs'.lookup p = some .dir

/-- Nobody else edits the install directories; a clone lies apart from them. -/
structure Undisturbed (s : Site) (i : Install) : Prop where
  found : SameBelow base s.fs i.found
  built : ∀ fs, i.built env = some fs → SameBelow base i.found fs
  apart : i.cleanupSrc = true → ¬i.srcDir <+: base ∧ ¬base <+: i.srcDir

/-- A successful install of a collection whose name and version are elements of a path, and whose
manifests are not read from the install directories. -/
structure Ordinary (i : Install) : Prop where
  name : PlainName (i.name env)
  version : PlainName (i.version env)
  elsewhere : ∀ fs, i.built env = some fs → ∀ g, Outside base fs g → i.files g = i.files fs

/-! What one install does. -/

variable {env base} {fs fs' g : FileSystem} {s s' : Site} {i : Install}

theorem SameBelow.trans (h : SameBelow base fs fs') (h' : SameBelow base fs' g) :
    SameBelow base fs g where
  below p hp := (h'.below p hp).trans (h.below p hp)
  above p hp hdir := h'.above p hp (h.above p hp hdir)

theorem SameBelow.standing (h : SameBelow base fs fs') {D : Path} (hD : base <+: D)
    (hstand : fs.Standing D) : fs'.Standing D := by
  intro q hq hp
  rcases List.prefix_or_prefix_of_prefix hp hD with hup | hdown
  · exact h.above q hup (hstand q hq hp)
  · rw [h.below q hdown]
    exact hstand q hq hp

theorem SameBelow.venvOnly (h : SameBelow base fs fs') {D : Path} (hD : base <+: D)
    (hv : VenvOnly fs D) : VenvOnly fs' D := by
  intro rel t hl
  rw [h.below _ (hD.trans (List.prefix_append D rel))] at hl
  exact hv rel t hl

theorem removeAll_lookup (q p : Path) (fs : FileSystem) :
    (removeAll q fs).lookup p = if q <+: p then none else fs.lookup p := by
  unfold removeAll
  rw [GoMap.lookup_foldl_erase]
  by_cases hq : q <+: p
  · rw [if_pos hq]
    split_ifs with hin
    · rfl
    · refine AList.lookup_eq_none.mpr fun hmem => hin ?_
      exact List.mem_filter.mpr ⟨AList.mem_keys.mp hmem, by simpa using hq⟩
  · rw [if_neg hq, if_neg]
    intro hin
    exact hq (by simpa using (List.mem_filter.mp hin).2)

theorem sameBelow_removeAll {q : Path} (h : ¬q <+: base ∧ ¬base <+: q) (fs : FileSystem) :
    SameBelow base fs (removeAll q fs) where
  below p hp := by
    rw [removeAll_lookup, if_neg]
    exact fun hq => (List.prefix_or_prefix_of_prefix hq hp).elim h.1 h.2
  above p hp hdir := by
    rw [removeAll_lookup, if_neg]
    · exact hdir
    · exact fun hq => h.1 (hq.trans hp)

/-- The parts of a successful install. -/
theorem installed_eq (h : s.installed env base i = some s') : ∃ fs fs',
    sourceManifests env i.srcDir i.found = some (i.manifests env) ∧ i.built env = some fs ∧
      layOut env i.srcDir (i.dir env base) i.lang (i.name env) fs = some fs' ∧
      s' = { fs := if i.cleanupSrc then removeAll i.srcDir fs' else fs'
             rows := upsertAll BlockRegistryEntry.key BlockRegistryEntry.assign
               ((i.manifests env).map (installedEntry (i.name env) (i.version env) i.lang
                 (i.dir env base) ((computeContentHash env.sha256 (i.dir env base) fs').getD "")))
               s.rows
             sources := s.sources.insert (i.name env, i.version env) (i.manifests env) } := by
  obtain ⟨r, hr, rfl⟩ := Option.map_eq_some_iff.mp h
  obtain ⟨ms, hms, hr⟩ := Option.bind_eq_some_iff.mp hr
  obtain ⟨fs, hbuilt, hr⟩ := Option.bind_eq_some_iff.mp hr
  obtain ⟨fs', hlaid, hr⟩ := Option.bind_eq_some_iff.mp hr
  have hmanifests : i.manifests env = ms := by
    unfold Install.manifests
    rw [hms]
    rfl
  obtain rfl := Option.some.inj hr
  refine ⟨fs, fs', hms.trans (congrArg some hmanifests.symm), hbuilt, hlaid, ?_⟩
  rw [hmanifests]
  unfold upsertAll
  rw [List.foldl_map]
  rfl

theorem decoded_kind {m : BlockManifest} {unmarshal : String → Option BlockManifest} {data : String}
    (h : decodeManifest unmarshal data = some m) : m.kind ≠ .other "" := by
  obtain ⟨m', -, rfl⟩ := Option.map_eq_some_iff.mp h
  split_ifs with hk
  · nofun
  · exact hk

theorem mem_mapM {A B : Type} {f : A → Option B} {l : List A} {l' : List B}
    (h : l.mapM f = some l') {b : B} : b ∈ l' ↔ ∃ a ∈ l, f a = some b := by
  induction l generalizing l' with
  | nil =>
    obtain rfl := Option.some.inj h
    simp
  | cons a l ih =>
    rw [List.mapM_cons] at h
    obtain ⟨b₁, hb₁, h⟩ := Option.bind_eq_some_iff.mp h
    obtain ⟨bs, hbs, h⟩ := Option.bind_eq_some_iff.mp h
    obtain rfl := Option.some.inj h
    rw [List.mem_cons, ih hbs, List.exists_mem_cons_iff, hb₁, Option.some.injEq, eq_comm]

/-- Each manifest is read from a file of the source. -/
theorem mem_manifests (h : sourceManifests env i.srcDir i.found = some (i.manifests env))
    {m : BlockManifest} : m ∈ i.manifests env ↔ ∃ paths, discoverBlocks i.srcDir i.found = some paths ∧
      ∃ path ∈ paths, loadBlockManifest env.unmarshalYAML path i.found = some m := by
  obtain ⟨paths, hpaths, hload⟩ := Option.bind_eq_some_iff.mp h
  split_ifs at hload
  rw [mem_mapM hload]
  constructor
  · exact fun hm => ⟨paths, hpaths, hm⟩
  · rintro ⟨paths', hpaths', hm⟩
    obtain rfl := Option.some.inj (hpaths.symm.trans hpaths')
    exact hm

/-- The manifests are those of the YAML files of the source. -/
theorem mem_manifests_files (h : sourceManifests env i.srcDir i.found = some (i.manifests env))
    {files : List (FileName × Option String)} (hfiles : i.files i.found = some files)
    {m : BlockManifest} : m ∈ i.manifests env ↔ ∃ (n : FileName) (data : String),
      (n, some data) ∈ files ∧ isYaml n.1 = true ∧ decodeManifest env.unmarshalYAML data = some m := by
  obtain ⟨entries, hentries, rfl⟩ := Option.map_eq_some_iff.mp hfiles
  have hpath : ∀ n : FileName, (i.srcDir.join "blocks").join n.1 = i.srcDir.join "blocks" ++ [n] :=
    fun n => Path.join_plain n.2 _
  rw [mem_manifests h]
  constructor
  · rintro ⟨paths, hpaths, path, hpath', hload⟩
    obtain ⟨entries', hentries', rfl⟩ := Option.map_eq_some_iff.mp hpaths
    obtain rfl := Option.some.inj (hentries.symm.trans hentries')
    obtain ⟨entry, hentry, rfl⟩ := List.mem_map.mp hpath'
    obtain ⟨hin, hkind⟩ := List.mem_filter.mp hentry
    rw [Bool.and_eq_true] at hkind
    obtain ⟨data, hdata, hdecode⟩ := Option.bind_eq_some_iff.mp hload
    rw [hpath] at hdata
    refine ⟨entry.name, data, List.mem_map.mpr ⟨entry, ?_, by rw [hdata]⟩, hkind.2, hdecode⟩
    exact List.mem_filter.mpr ⟨hin, hkind.1⟩
  · rintro ⟨n, data, hin, hyaml, hdecode⟩
    obtain ⟨entry, hentry, heq⟩ := List.mem_map.mp hin
    obtain ⟨rfl, hdata⟩ := Prod.mk.inj heq
    obtain ⟨hlisted, hdir⟩ := List.mem_filter.mp hentry
    refine ⟨_, Option.map_eq_some_iff.mpr ⟨entries, hentries, rfl⟩, _, List.mem_map.mpr
      ⟨entry, List.mem_filter.mpr ⟨hlisted, by rw [hdir, hyaml]; rfl⟩, rfl⟩, ?_⟩
    rw [hpath, loadBlockManifest, hdata]
    exact hdecode

theorem manifests_kind (h : sourceManifests env i.srcDir i.found = some (i.manifests env)) :
    ∀ m ∈ i.manifests env, m.kind ≠ .other "" := by
  intro m hm
  obtain ⟨-, -, path, -, hload⟩ := (mem_manifests h).mp hm
  obtain ⟨data, -, hdecode⟩ := Option.bind_eq_some_iff.mp hload
  exact decoded_kind hdecode

/-! The install directories. -/

/-- The install directory of a name and a version. -/
def versionDir (base : Path) (c v : FileName) : Path := base ++ [c, v]

theorem Ordinary.dir (h : Ordinary env base i) :
    i.dir env base = versionDir base ⟨i.name env, h.name⟩ ⟨i.version env, h.version⟩ := by
  unfold Install.dir versionDir
  rw [Path.join_plain h.name, Path.join_plain h.version, List.append_assoc]
  rfl

theorem base_versionDir (base : Path) (c v : FileName) : base <+: versionDir base c v :=
  List.prefix_append _ _

theorem versionDir_apart {c v c' v' : FileName} (hne : versionDir base c' v' ≠ versionDir base c v)
    (rel : Path) : ¬versionDir base c v <+: versionDir base c' v' ++ rel ∧
      ¬versionDir base c' v' ++ rel <+: versionDir base c v := by
  have heq : versionDir base c' v' ++ rel = base ++ c' :: v' :: rel := List.append_assoc _ _ _
  rw [heq, versionDir, List.prefix_append_right_inj, List.prefix_append_right_inj]
  constructor
  · intro hp
    obtain ⟨hc, hrest⟩ := List.cons_prefix_cons.mp hp
    obtain ⟨hv, -⟩ := List.cons_prefix_cons.mp hrest
    exact hne (by rw [hc, hv])
  · intro hp
    obtain ⟨hc, hrest⟩ := List.cons_prefix_cons.mp hp
    obtain ⟨hv, -⟩ := List.cons_prefix_cons.mp hrest
    exact hne (by rw [hc, hv])

section
variable {files : List (FileName × Option String)} {lang : CollectionLanguage}
  {name c v c' v' : FileName}

/-- What an install leaves of the directory of another collection or version. -/
theorem LaidOut.other (h : LaidOut base (versionDir base c v) files lang name fs fs')
    (hne : versionDir base c' v' ≠ versionDir base c v) (rel : Path) :
    fs'.lookup (versionDir base c' v' ++ rel) = fs.lookup (versionDir base c' v' ++ rel) := by
  obtain ⟨hdown, hup⟩ := versionDir_apart hne rel
  exact h.off _ ((base_versionDir base c' v').trans (List.prefix_append _ _)) hdown hup

theorem LaidOut.standing_other (h : LaidOut base (versionDir base c v) files lang name fs fs')
    (hne : versionDir base c' v' ≠ versionDir base c v) {rel : Path}
    (hstand : fs.Standing (versionDir base c' v' ++ rel)) :
    fs'.Standing (versionDir base c' v' ++ rel) := by
  intro q hq hp
  by_cases hup : q <+: versionDir base c v
  · exact h.above q hup (hstand q hq hp)
  · have hbase : base <+: q := by
      have hlow := (base_versionDir base c' v').trans (List.prefix_append _ rel)
      rcases List.prefix_or_prefix_of_prefix hp hlow with hq' | hq'
      · exact absurd (hq'.trans (base_versionDir base c v)) hup
      · exact hq'
    rw [h.off q hbase (fun hD => (versionDir_apart hne rel).1 (hD.trans hp)) hup]
    exact hstand q hq hp

end

theorem sourceFiles_standing {S : Path} (hS : fs.Standing S)
    (hreal : ∀ k t, fs.lookup (S ++ [k]) ≠ some (.link t)) : ∃ l, fs.readDir S = some l ∧
      sourceFiles S fs = some ((l.filter fun k => !fs.isDir (S ++ [k])).map fun k =>
        (k, fs.readFile (S ++ [k]))) := by
  obtain ⟨l, hl, -, hmem, hread⟩ := readDirAt_standing hS
  refine ⟨l, hl, ?_⟩
  unfold sourceFiles
  rw [hread, Except.toOption, Option.map_some, List.filter_map, List.map_map]
  refine congrArg some (List.map_congr_left fun k hk => ?_)
  obtain ⟨hin, hdir⟩ := List.mem_filter.mp hk
  obtain ⟨node, hnode⟩ := GoMap.lookup_of_mem ((hmem k).mp hin)
  cases node with
  | dir => simp [FileSystem.isDir, hnode] at hdir
  | link target => exact absurd hnode (hreal k target)
  | file content =>
    have hfile : (fs.readAt (names (S ++ [k]))).toOption = some content := by
      rw [readAt_child hS hnode]
      rfl
    have hread : fs.readFile (S ++ [k]) = some content := by rw [FileSystem.readFile, hnode]
    rw [hread, ← hfile]
    rfl

/-- Sources that stand apart from the install directories, without links. -/
theorem elsewhere_of_standing {S : Path} (hS : fs.Standing S) (hapart : ¬base <+: S ∧ ¬S <+: base)
    (hreal : ∀ k t, fs.lookup (S ++ [k]) ≠ some (.link t)) (g : FileSystem)
    (hg : Outside base fs g) : sourceFiles S g = sourceFiles S fs := by
  have hstand : g.Standing S := by
    intro q hq hp
    rcases hg q fun hb => hapart.1 (hb.trans hp) with hsame | ⟨-, hnone, -⟩
    · rw [hsame, hS q hq hp]
    · rw [hS q hq hp] at hnone
      cases hnone
  have hsame : ∀ k, g.lookup (S ++ [k]) = fs.lookup (S ++ [k]) := by
    intro k
    have hbelow : ¬base <+: S ++ [k] := fun hb => by
      rcases List.prefix_concat_iff.mp hb with rfl | hb
      · exact hapart.2 (List.prefix_append _ _)
      · exact hapart.1 hb
    exact (hg _ hbelow).resolve_right fun h => hapart.2 ((List.prefix_append S [k]).trans h.1)
  obtain ⟨l, hl, hfiles⟩ := sourceFiles_standing hS hreal
  obtain ⟨l', hl', hfiles'⟩ := sourceFiles_standing hstand fun k t => by
    rw [hsame]
    exact hreal k t
  have hlist : g.readDir S = fs.readDir S := readDir_congr (hstand.isDir.trans hS.isDir.symm)
    fun k => by rw [GoMap.mem_iff_lookup, GoMap.mem_iff_lookup, hsame]
  obtain rfl : l = l' := Option.some.inj (hl.symm.trans (hlist.symm.trans hl'))
  rw [hfiles, hfiles']
  simp only [FileSystem.isDir, FileSystem.readFile, hsame]

/-! One install. -/

/-- The disks of one install: as it was found at the last one, built, laid out, and left. -/
structure Steps (env : Environment) (base : Path) (s : Site) (i : Install) (c v : FileName)
    (files : List (FileName × Option String)) (fs fs' : FileSystem) (s' : Site) : Prop where
  name : i.name env = c.1
  version : i.version env = v.1
  dir : i.dir env base = versionDir base c v
  manifests : sourceManifests env i.srcDir i.found = some (i.manifests env)
  built : i.built env = some fs
  before : SameBelow base s.fs fs
  read : i.files fs = some files
  laid : layOut env i.srcDir (i.dir env base) i.lang (i.name env) fs = some fs'
  laidOut : LaidOut base (versionDir base c v) files i.lang c fs fs'
  after : SameBelow base fs' s'.fs
  rows : s'.rows = upsertAll BlockRegistryEntry.key BlockRegistryEntry.assign
    ((i.manifests env).map (installedEntry (i.name env) (i.version env) i.lang (i.dir env base)
      ((computeContentHash env.sha256 (i.dir env base) fs').getD ""))) s.rows
  sources : s'.sources = s.sources.insert (c.1, v.1) (i.manifests env)

theorem steps_of_installed (htidy : Tidy env base) (hlinks : ∀ c v, VenvOnly s.fs (versionDir base c v))
    (hu : Undisturbed env base s i) (ho : Ordinary env base i)
    (h : s.installed env base i = some s') :
    ∃ c v files fs fs', Steps env base s i c v files fs fs' s' := by
  obtain ⟨fs, fs', hms, hbuilt, hlay, rfl⟩ := installed_eq h
  have hbefore := hu.found.trans (hu.built fs hbuilt)
  have hdir := ho.dir
  have hlay' : layOut env i.srcDir (versionDir base ⟨i.name env, ho.name⟩ ⟨i.version env, ho.version⟩)
      i.lang (⟨i.name env, ho.name⟩ : FileName).1 fs = some fs' := hdir ▸ hlay
  obtain ⟨files, hfiles, hlaid⟩ := layOut_laid htidy
    (hbefore.venvOnly (base_versionDir base _ _) (hlinks ⟨i.name env, ho.name⟩
      ⟨i.version env, ho.version⟩)) (ho.elsewhere fs hbuilt) hlay'
  refine ⟨⟨i.name env, ho.name⟩, ⟨i.version env, ho.version⟩, files, fs, fs', rfl, rfl, hdir, hms,
    hbuilt, hbefore, hfiles, hlay, hlaid, ?_, rfl, rfl⟩
  dsimp only
  split_ifs with hclean
  · exact sameBelow_removeAll (hu.apart hclean) fs'
  · exact ⟨fun _ _ => rfl, fun _ _ hp => hp⟩

namespace Steps
variable {c v : FileName} {files : List (FileName × Option String)}

theorem other (h : Steps env base s i c v files fs fs' s') {c' v' : FileName}
    (hne : versionDir base c' v' ≠ versionDir base c v) (rel : Path) :
    s'.fs.lookup (versionDir base c' v' ++ rel) = s.fs.lookup (versionDir base c' v' ++ rel) := by
  have hbase := (base_versionDir base c' v').trans (List.prefix_append _ rel)
  rw [h.after.below _ hbase, h.laidOut.other hne, h.before.below _ hbase]

theorem links (h : Steps env base s i c v files fs fs' s')
    (hlinks : ∀ c v, VenvOnly s.fs (versionDir base c v)) (c' v' : FileName) :
    VenvOnly s'.fs (versionDir base c' v') := by
  by_cases hne : versionDir base c' v' = versionDir base c v
  · rw [hne]
    exact h.after.venvOnly (base_versionDir base c v) h.laidOut.links
  · intro rel t hl
    rw [h.other hne] at hl
    exact hlinks c' v' rel t hl

theorem standing_other (h : Steps env base s i c v files fs fs' s') {c' v' : FileName}
    (hne : versionDir base c' v' ≠ versionDir base c v) {rel : Path}
    (hstand : s.fs.Standing (versionDir base c' v' ++ rel)) :
    s'.fs.Standing (versionDir base c' v' ++ rel) := by
  have hbase := (base_versionDir base c' v').trans (List.prefix_append _ rel)
  exact h.after.standing hbase (h.laidOut.standing_other hne (h.before.standing hbase hstand))

theorem stands (h : Steps env base s i c v files fs fs' s') :
    s'.fs.Standing (versionDir base c v ++ [blocksName]) :=
  h.after.standing ((base_versionDir base c v).trans (List.prefix_append _ _)) h.laidOut.stands

/-- The hash of the install directory is the one that the rows get. -/
theorem hash (h : Steps env base s i c v files fs fs' s') (hsum : ∀ data, env.sha256 data ≠ "") :
    ∃ sum, sum ≠ "" ∧ computeContentHash env.sha256 (versionDir base c v) fs' = some sum ∧
      computeContentHash env.sha256 (versionDir base c v) s'.fs = some sum := by
  have hpre : versionDir base c v <+: versionDir base c v ++ [blocksName] := List.prefix_append _ _
  have hlaid := h.laidOut.stands.of_prefix hpre
  have hleft := h.stands.of_prefix hpre
  refine ⟨_, hsum _, computeContentHash_standing env.sha256 hlaid, ?_⟩
  rw [computeContentHash_congr env.sha256 hlaid hleft fun rel _ =>
    h.after.below _ ((base_versionDir base c v).trans (List.prefix_append _ _))]
  exact computeContentHash_standing env.sha256 hlaid

/-- What the copy leaves of the files of the install directory. -/
theorem dirFiles_after (h : Steps env base s i c v files fs fs' s') :
    dirFiles (versionDir base c v) s'.fs = dirFiles (versionDir base c v) fs' ∧
      dirFiles (versionDir base c v) fs = dirFiles (versionDir base c v) s.fs := by
  have hbelow : ∀ rel, base <+: versionDir base c v ++ rel := fun rel =>
    (base_versionDir base c v).trans (List.prefix_append _ rel)
  exact ⟨dirFiles_congr fun rel => branch_congr fun rel _ => h.after.below _ (hbelow rel),
    dirFiles_congr fun rel => branch_congr fun rel _ => h.before.below _ (hbelow rel)⟩

end Steps

/-! Runs of installs. -/

/-- Nothing is below the blocks directory. -/
def Fresh (base : Path) (fs : FileSystem) : Prop :=
  ∀ p, base <+: p → p ≠ base → fs.lookup p = none

variable (env base) in
/-- A successful install that nobody else's edits meet. -/
structure Allowed (s : Site) (i : Install) : Prop where
  succeeds : ∃ s', s.installed env base i = some s'
  undisturbed : Undisturbed env base s i

theorem Fresh.venvOnly (h : Fresh base fs) (c v : FileName) : VenvOnly fs (versionDir base c v) := by
  intro rel t hl
  have hne : versionDir base c v ++ rel ≠ base := by
    intro heq
    have hlen := congrArg List.length heq
    simp [versionDir] at hlen
  rw [h _ ((base_versionDir base c v).trans (List.prefix_append _ _)) hne] at hl
  cases hl

end Spade.Cli
