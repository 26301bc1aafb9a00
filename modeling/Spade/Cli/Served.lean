import Spade.Cli.Installs

set_option autoImplicit false

/-!
# Installed blocks and their directories

Which installs keep every row true to its directory, and every manifest last installed behind
its row.
-/
namespace Spade.Cli
open FileSystem Path KeyedRows

/-- The text that stands under a name once the manifests are copied. -/
def standingText (files : List (FileName × Option String)) (B : Path) (fs : FileSystem)
    (n : FileName) : Option String :=
  match find Prod.fst n files with
  | some f => f.2
  | none => fs.readFile (B ++ [n])

variable (env : Environment) (base : Path)

/-- The install directory holds each manifest under the name of its block. No other collection
has a manifest of its own under the id, the row takes every field over, and no row of the
directory is left behind by changed files. -/
structure Renews (s : Site) (i : Install) : Prop where
  loads : ∀ fs, i.built env = some fs → ∀ m ∈ i.manifests env, ∃ n : FileName,
    n.1 = blockNameFromID m.id ++ ".yaml" ∧
      (standingText ((i.files fs).getD []) (i.dir env base ++ [blocksName]) fs n).bind
        (decodeManifest env.unmarshalYAML) = some m
  others : ∀ c ms, s.sources.lookup (c, i.version env) = some ms → c ≠ i.name env →
    ∀ m' ∈ ms, ∀ m ∈ i.manifests env, m'.id = m.id → m' = m
  nonzero : ∀ row ∈ s.rows, ∀ m ∈ i.manifests env, row.key = (m.id, i.version env) →
    (m.entrypoint = "" → row.entrypoint = "") ∧ (m.network = false → row.network = false)
  whole : (∀ row ∈ s.rows, row.installedPath = i.dir env base →
      ∃ m ∈ i.manifests env, row.key = (m.id, i.version env)) ∨
    ∀ fs fs', i.built env = some fs →
      layOut env i.srcDir (i.dir env base) i.lang (i.name env) fs = some fs' →
        dirFiles (i.dir env base) fs' = dirFiles (i.dir env base) fs

/-- Every row verifies. -/
def Verified (s : Site) : Prop := ∀ row ∈ s.rows, verifyBlock env.sha256 row s.fs = true

/-- Every manifest last installed is found, and loaded as it was. -/
def Served (s : Site) : Prop :=
  ∀ c v ms, s.sources.lookup (c, v) = some ms → ∀ m ∈ ms, ∃ row,
    lookupBlock s.rows m.id v = some row ∧ row.entrypoint = m.entrypoint ∧ row.kind = m.kind ∧
      row.network = m.network ∧ loadManifestForEntry env.unmarshalYAML row s.fs = some m

/-- The row of a manifest, which stands in the row's directory. -/
structure Holds (fs : FileSystem) (row : BlockRegistryEntry) (m : BlockManifest) : Prop where
  entrypoint : row.entrypoint = m.entrypoint
  kind : row.kind = m.kind
  network : row.network = m.network
  file : ∃ (n : FileName) (data : String), n.1 = row.blockName ++ ".yaml" ∧
    fs.lookup (row.installedPath ++ [blocksName] ++ [n]) = some (.file data) ∧
      decodeManifest env.unmarshalYAML data = some m

/-- A row that is true to an install directory. -/
structure Grounded (fs : FileSystem) (row : BlockRegistryEntry) : Prop where
  blockName : row.blockName = blockNameFromID row.blockID
  path : ∃ c v, row.installedPath = versionDir base c v
  stands : fs.Standing (row.installedPath ++ [blocksName])
  hash : computeContentHash env.sha256 row.installedPath fs = some row.contentHash

structure Kept (s : Site) : Prop where
  keys : (s.rows.map BlockRegistryEntry.key).Nodup
  links : ∀ c v, VenvOnly s.fs (versionDir base c v)
  rows : ∀ row ∈ s.rows, Grounded env base s.fs row
  served : ∀ c v ms, s.sources.lookup (c, v) = some ms → v ≠ "" ∧
    ∀ m ∈ ms, ∃ row ∈ s.rows, row.key = (m.id, v) ∧ Holds env s.fs row m

variable {env base} {fs fs' : FileSystem} {s s' : Site} {i : Install} {m : BlockManifest}
  {row : BlockRegistryEntry}

theorem Kept.verified (h : Kept env base s) : Verified env s := fun row hrow => by
  simpa [verifyBlock] using (h.rows row hrow).hash

theorem readFile_eq_some {p : Path} {c : String} :
    fs.readFile p = some c ↔ fs.lookup p = some (.file c) := by
  unfold FileSystem.readFile
  cases fs.lookup p with
  | none => simp
  | some node => cases node <;> simp

theorem Holds.loads (h : Holds env fs row m) (hstand : fs.Standing (row.installedPath ++ [blocksName])) :
    loadManifestForEntry env.unmarshalYAML row fs = some m := by
  obtain ⟨n, data, hn, hfile, hdecode⟩ := h.file
  have hblocks : row.installedPath.join "blocks" = row.installedPath ++ [blocksName] :=
    Path.join_plain blocksName.2 _
  unfold loadManifestForEntry loadBlockManifest
  rw [← hn, hblocks, Path.join_plain n.2, readAt_child hstand hfile]
  exact hdecode

theorem Kept.serves (h : Kept env base s) : Served env s := by
  intro c v ms hms m hm
  obtain ⟨hv, hall⟩ := h.served c v ms hms
  obtain ⟨row, hrow, hkey, hholds⟩ := hall m hm
  refine ⟨row, ?_, hholds.entrypoint, hholds.kind, hholds.network,
    hholds.loads (h.rows row hrow).stands⟩
  rw [lookupBlock_version hv, ← hkey]
  exact find_of_mem h.keys hrow

theorem Filled.text {B : Path} {files : List (FileName × Option String)} (h : Filled B files fs fs')
    (n : FileName) : fs'.readFile (B ++ [n]) = standingText files B fs n := by
  unfold standingText
  cases hf : find Prod.fst n files with
  | some f =>
    obtain ⟨hin, rfl⟩ := find_some hf
    obtain ⟨c, hc, hfile⟩ := h.written f.1 f.2 hin
    rw [readFile_eq_some.mpr hfile]
    exact hc.symm
  | none =>
    have hout : n ∉ files.map Prod.fst := by
      intro hin
      obtain ⟨f, hfile, hn⟩ := List.mem_map.mp hin
      exact find_eq_none.mp hf f hfile hn
    unfold FileSystem.readFile
    rw [h.kept n hout []]

theorem Holds.congr (h : Holds env fs row m)
    (hsame : ∀ n data, fs.lookup (row.installedPath ++ [blocksName] ++ [n]) = some (.file data) →
      fs'.lookup (row.installedPath ++ [blocksName] ++ [n]) = some (.file data)) :
    Holds env fs' row m := by
  obtain ⟨n, data, hn, hfile, hdecode⟩ := h.file
  exact ⟨h.entrypoint, h.kind, h.network, n, data, hn, hsame n data hfile, hdecode⟩

theorem Grounded.congr (h : Grounded env base fs row)
    (hstand : fs'.Standing (row.installedPath ++ [blocksName]))
    (hfiles : dirFiles row.installedPath fs' = dirFiles row.installedPath fs) :
    Grounded env base fs' row where
  blockName := h.blockName
  path := h.path
  stands := hstand
  hash := by
    have hpre : row.installedPath <+: row.installedPath ++ [blocksName] := List.prefix_append _ _
    have hhash := h.hash
    rw [computeContentHash_standing env.sha256 (h.stands.of_prefix hpre)] at hhash
    rw [computeContentHash_standing env.sha256 (hstand.of_prefix hpre), hfiles, hhash]

/-- A file of a directory that stands is among its files. -/
theorem lookup_of_dirFiles {D : Path} {n : FileName} {data : String}
    (hstand : fs.Standing (D ++ [blocksName])) (hfiles : dirFiles D fs' = dirFiles D fs)
    (h : fs.lookup (D ++ [blocksName] ++ [n]) = some (.file data)) :
    fs'.lookup (D ++ [blocksName] ++ [n]) = some (.file data) := by
  have hdir : fs.lookup (D ++ [blocksName]) = some .dir := hstand _ (by simp) (List.prefix_refl _)
  have hbranch : fs.branch D [blocksName, n] = some (.file data) := by
    rw [branch_dir_cons hdir, branch_leaf_cons (by rw [h]; nofun), if_pos rfl, h]
  have hin := mem_dirFiles.mpr hbranch
  rw [← hfiles] at hin
  have hlookup := branch_lookup (mem_dirFiles.mp hin) (List.cons_ne_nil _ _)
  rwa [List.append_assoc]

/-! One install. -/

section
variable {c v : FileName} {files : List (FileName × Option String)}
  (h : Steps env base s i c v files fs fs' s') (hr : Renews env base s i)
include h hr

/-- Each manifest of the source stands in the install directory afterwards. -/
theorem Steps.loads (hm : m ∈ i.manifests env) : ∃ (n : FileName) (data : String),
    n.1 = blockNameFromID m.id ++ ".yaml" ∧
      s'.fs.lookup (versionDir base c v ++ [blocksName] ++ [n]) = some (.file data) ∧
        decodeManifest env.unmarshalYAML data = some m := by
  obtain ⟨n, hn, htext⟩ := hr.loads fs h.built m hm
  obtain ⟨data, hdata, hdecode⟩ := Option.bind_eq_some_iff.mp htext
  refine ⟨n, data, hn, ?_, hdecode⟩
  have hbelow : base <+: versionDir base c v ++ [blocksName] ++ [n] :=
    ((base_versionDir base c v).trans (List.prefix_append _ _)).trans (List.prefix_append _ _)
  rw [h.after.below _ hbelow, ← readFile_eq_some, h.laidOut.filled.text, ← hdata, h.read, h.dir]
  rfl

theorem Steps.consistent : ∀ m ∈ i.manifests env, ∀ m' ∈ i.manifests env, m.id = m'.id → m = m' := by
  intro m hm m' hm' hid
  obtain ⟨n, data, hn, hfile, hdecode⟩ := h.loads hr hm
  obtain ⟨n', data', hn', hfile', hdecode'⟩ := h.loads hr hm'
  obtain rfl : n = n' := Subtype.ext (by rw [hn, hn', hid])
  rw [hfile] at hfile'
  obtain rfl : data = data' := by simpa using hfile'
  exact Option.some.inj (hdecode.symm.trans hdecode')

/-- The rows afterwards: those of the source, and those of other blocks. -/
theorem Steps.mem_rows (hk : Kept env base s) {sum : String} (hsum : sum ≠ "")
    (hhash : computeContentHash env.sha256 (versionDir base c v) fs' = some sum) :
    row ∈ s'.rows ↔ (∃ m ∈ i.manifests env,
        row = installedEntry c.1 v.1 i.lang (versionDir base c v) sum m) ∨
      row ∈ s.rows ∧ ∀ m ∈ i.manifests env, row.key ≠ (m.id, v.1) := by
  have hkind := manifests_kind h.manifests
  rw [h.rows, h.name, h.version, h.dir, hhash, Option.getD_some,
    mem_upsertAll BlockRegistryEntry.merging_assign hk.keys]
  · rw [List.mem_map, List.forall_mem_map]
    exact or_congr (exists_congr fun m => and_congr_right fun _ => eq_comm) Iff.rfl
  · intro e he
    obtain ⟨m, hm, rfl⟩ := List.mem_map.mp he
    exact BlockRegistryEntry.assign_eq c.2.1 rfl rfl id hsum (hkind m hm) id
  · intro e he e' he' hkey
    obtain ⟨m, hm, rfl⟩ := List.mem_map.mp he
    obtain ⟨m', hm', rfl⟩ := List.mem_map.mp he'
    rw [h.consistent hr m hm m' hm' (congrArg Prod.fst hkey)]
  · intro e he old hold hkey
    obtain ⟨m, hm, rfl⟩ := List.mem_map.mp he
    have hzero := hr.nonzero old hold m hm (by rw [h.version]; exact hkey)
    refine BlockRegistryEntry.assign_eq c.2.1 hkey ?_ hzero.1 hsum (hkind m hm) hzero.2
    rw [(hk.rows old hold).blockName, show old.blockID = m.id from congrArg Prod.fst hkey]
    rfl

/-- A row that is not written again lies elsewhere, or the files of its directory are the same. -/
theorem Steps.left (hrow : row ∈ s.rows) (hno : ∀ m ∈ i.manifests env, row.key ≠ (m.id, v.1)) :
    row.installedPath ≠ versionDir base c v ∨
      dirFiles (versionDir base c v) s'.fs = dirFiles (versionDir base c v) s.fs := by
  rcases hr.whole with hall | hsame
  · left
    intro hpath
    obtain ⟨m, hm, hkey⟩ := hall row hrow (hpath.trans h.dir.symm)
    exact hno m hm (hkey.trans (by rw [h.version]))
  · right
    have hfiles := hsame fs fs' h.built h.laid
    rw [h.dir] at hfiles
    rw [h.dirFiles_after.1, hfiles, h.dirFiles_after.2]

end

theorem Kept.left {c v : FileName} {files : List (FileName × Option String)} (hk : Kept env base s)
    (h : Steps env base s i c v files fs fs' s') (hr : Renews env base s i) (hrow : row ∈ s.rows)
    (hno : ∀ m ∈ i.manifests env, row.key ≠ (m.id, v.1)) :
    Grounded env base s'.fs row ∧ ∀ m, Holds env s.fs row m → Holds env s'.fs row m := by
  have hground := hk.rows row hrow
  by_cases hpath : row.installedPath = versionDir base c v
  · have hfiles := (h.left hr hrow hno).resolve_left (not_not_intro hpath)
    rw [← hpath] at hfiles
    have hstand := h.stands
    rw [← hpath] at hstand
    exact ⟨hground.congr hstand hfiles,
      fun m hm => hm.congr fun n data hl => lookup_of_dirFiles hground.stands hfiles hl⟩
  · obtain ⟨c', v', hother⟩ := hground.path
    have hne : versionDir base c' v' ≠ versionDir base c v := hother ▸ hpath
    have hstand := hground.stands
    have hsame := h.other hne
    rw [← hother] at hsame
    rw [hother] at hstand
    have hstand' := h.standing_other hne hstand
    rw [← hother] at hstand'
    refine ⟨hground.congr hstand' (dirFiles_congr fun rel => branch_congr fun rel _ => hsame rel),
      fun m hm => hm.congr fun n data hl => ?_⟩
    rwa [List.append_assoc, hsame, ← List.append_assoc]

/-- An install keeps every row true to its directory, and every manifest behind its row. -/
theorem Kept.install (hsum : ∀ data, env.sha256 data ≠ "") (htidy : Tidy env base)
    (hk : Kept env base s) (hu : Undisturbed env base s i) (ho : Ordinary env base i)
    (hr : Renews env base s i) (hs : s.installed env base i = some s') : Kept env base s' := by
  obtain ⟨c, v, files, fs, fs', h⟩ := steps_of_installed htidy hk.links hu ho hs
  obtain ⟨sum, hne, hhash, hhash'⟩ := h.hash hsum
  have hrows : ∀ row, row ∈ s'.rows ↔ (∃ m ∈ i.manifests env,
        row = installedEntry c.1 v.1 i.lang (versionDir base c v) sum m) ∨
      row ∈ s.rows ∧ ∀ m ∈ i.manifests env, row.key ≠ (m.id, v.1) :=
    fun row => h.mem_rows hr hk hne hhash
  have hnew : ∀ m ∈ i.manifests env,
      installedEntry c.1 v.1 i.lang (versionDir base c v) sum m ∈ s'.rows ∧
        Holds env s'.fs (installedEntry c.1 v.1 i.lang (versionDir base c v) sum m) m := fun m hm =>
    ⟨(hrows _).mpr (.inl ⟨m, hm, rfl⟩), rfl, rfl, rfl, h.loads hr hm⟩
  refine ⟨?_, h.links hk.links, fun row hrow => ?_, fun c' v' ms hms => ?_⟩
  · rw [h.rows]
    exact nodup_upsertAll BlockRegistryEntry.merging_assign hk.keys
  · rcases (hrows row).mp hrow with ⟨m, -, rfl⟩ | ⟨hold, hno⟩
    · exact ⟨rfl, ⟨c, v, rfl⟩, h.stands, hhash'⟩
    · exact (hk.left h hr hold hno).1
  · rw [h.sources, GoMap.lookup_insert_if] at hms
    split_ifs at hms with hsame
    · obtain ⟨rfl, rfl⟩ := Prod.mk.inj hsame
      obtain rfl := Option.some.inj hms
      exact ⟨v.2.1, fun m hm => ⟨_, (hnew m hm).1, rfl, (hnew m hm).2⟩⟩
    · obtain ⟨hv, hall⟩ := hk.served c' v' ms hms
      refine ⟨hv, fun m' hm' => ?_⟩
      obtain ⟨row, hrow, hkey, hholds⟩ := hall m' hm'
      by_cases hagain : ∃ m ∈ i.manifests env, row.key = (m.id, v.1)
      · obtain ⟨m, hm, hkeym⟩ := hagain
        obtain ⟨hid, rfl⟩ := Prod.mk.inj (hkey.symm.trans hkeym)
        have hname : c' ≠ i.name env := fun hc => hsame (by rw [hc, h.name])
        obtain rfl := hr.others c' ms (by rw [h.version]; exact hms) hname m' hm' m hm hid
        exact ⟨_, (hnew m' hm).1, rfl, (hnew m' hm).2⟩
      · push Not at hagain
        exact ⟨row, (hrows row).mpr (.inr ⟨hrow, hagain⟩), hkey, (hk.left h hr hrow hagain).2 m' hholds⟩

/-- As long as every install renews what it installs, every row verifies, and every manifest that
was installed last is found and loaded. -/
theorem installed_serve (hsum : ∀ data, env.sha256 data ≠ "") (htidy : Tidy env base)
    (hfresh : Fresh base fs) {l : List Install}
    (hrun : Runs.Along (Site.install env base) (fun s i => Allowed env base s i ∧
      Ordinary env base i ∧ Renews env base s i) { fs := fs } l) :
    Runs.Always (Site.install env base) (fun s => Verified env s ∧ Served env s) { fs := fs } l := by
  have hstart : Kept env base { fs := fs } :=
    ⟨List.nodup_nil, hfresh.venvOnly, fun row hrow => absurd hrow List.not_mem_nil,
      fun c v ms hms => by simp at hms⟩
  refine Runs.Always.mono _ (fun s h => ⟨h.verified, h.serves⟩)
    (Runs.always_of_along _ ?_ hstart hrun)
  rintro s i hk ⟨hallowed, hordinary, hrenews⟩
  obtain ⟨s', hs'⟩ := hallowed.succeeds
  rw [Site.install, hs', Option.getD_some]
  exact hk.install hsum htidy hallowed.undisturbed hordinary hrenews hs'

theorem not_verified {r : FileSystem × List BlockRegistryEntry}
    (hr : installFromSource env base i.srcDir i.cleanupSrc s.rows i.found = some r)
    (hnot : (r.2.getLast?.map fun row => verifyBlock env.sha256 row r.1) = some false) :
    ¬Verified env (Site.install env base s i) := by
  intro h
  rw [Site.install, Site.installed, hr, Option.map_some, Option.getD_some] at h
  obtain ⟨row, hrow, hfalse⟩ := Option.map_eq_some_iff.mp hnot
  exact Bool.false_ne_true (hfalse.symm.trans (h row (List.mem_of_getLast? hrow)))

namespace Samples

def spadeName : FileName := ⟨"spade", by decide⟩

theorem data_plain : PlainName "data" := by decide

def dataName : FileName := ⟨"data", data_plain⟩

def versionName : FileName := ⟨"0.1.0", by decide⟩

def readName : FileName := ⟨"read.yaml", by decide⟩

def writeName : FileName := ⟨"write.yaml", by decide⟩

def blocksDir : Path := [spadeName, blocksName]

def dataDir : Path := [dataName]

def readYaml : Path := [dataName, blocksName, readName]

def writeYaml : Path := [dataName, blocksName, writeName]

def installedDir : Path := [spadeName, blocksName, dataName, versionName]

def readText : String := "id: data.read\n"

def changedText : String := "id: data.read\nnetwork: true\n"

def writeText : String := "id: data.write\n"

/-- The files of the install directory with their sums, once the manifest is changed. -/
def changedSums : String :=
  "blocks/read.yamlbc6e02e072109ddaf52b05ff6ceb6542f03575378eecc933aa044e36f3278e14" ++
    "blocks/write.yaml81b715d0630d8de14a17921c27a5fc41ebccbb38278ccfd3bd1ab6ecfb1de27b"

/-- The sums of the files that are there, and of the install directories. -/
def sum (data : String) : String :=
  if data = readText then "0b306fee13be4e29071e113dbf761e5a9c429fa02fc7d9008e91d0e3868736c5"
  else if data = changedText then "bc6e02e072109ddaf52b05ff6ceb6542f03575378eecc933aa044e36f3278e14"
  else if data = writeText then "81b715d0630d8de14a17921c27a5fc41ebccbb38278ccfd3bd1ab6ecfb1de27b"
  else if data = changedSums then
    "a4ec28bfb15156e8b7d01687d97314d5f284b766ad583c479609290bb06c416a"
  else "0f25cacafb5f18b3fa4fc18acd6c3c3e7fde7384144caca0689a088e25e2b89c"

/-- A collection in R without a setup script, for which no command is run. -/
def environment : Environment where
  unmarshalYAML data :=
    if data = readText then some { id := "data.read" }
    else if data = changedText then some { id := "data.read", network := true }
    else if data = writeText then some { id := "data.write" }
    else none
  unmarshalJSON _ := none
  unmarshalTOML _ := none
  marshalTOML _ := none
  exec _ _ _ := none
  sha256 := sum
  depth := 4

def sourceDisk : FileSystem :=
  (((((∅ : FileSystem).insert dataDir .dir).insert [dataName, rName] .dir).insert
    [dataName, blocksName] .dir).insert readYaml (.file readText)).insert writeYaml (.file writeText)

def firstInstall : Install := { found := sourceDisk, srcDir := dataDir }

def firstSite : Site := Site.install environment blocksDir { fs := sourceDisk } firstInstall

/-- The disk that the first install leaves. -/
def firstDisk : FileSystem :=
  (((((((sourceDisk.insert [spadeName] .dir).insert blocksDir .dir).insert
    [spadeName, blocksName, dataName] .dir).insert installedDir .dir).insert
    (installedDir ++ [blocksName]) .dir).insert
    (installedDir ++ [blocksName, readName]) (.file readText)).insert
    (installedDir ++ [blocksName, writeName]) (.file writeText)).insert
    (installedDir ++ [rName]) .dir

def firstRow (name : String) : BlockRegistryEntry where
  collectionName := "data"
  collectionVersion := "0.1.0"
  blockName := name
  blockID := "data." ++ name
  language := .r
  installedPath := installedDir
  contentHash := "0f25cacafb5f18b3fa4fc18acd6c3c3e7fde7384144caca0689a088e25e2b89c"
  kind := .standard

/-- The source with a changed manifest. -/
def changedInstall : Install :=
  { found := firstDisk.insert readYaml (.file changedText), srcDir := dataDir }

/-- The source without its second block, too. -/
def droppedInstall : Install :=
  { found := (firstDisk.insert readYaml (.file changedText)).erase writeYaml, srcDir := dataDir }

theorem first_installed :
    (installFromSource environment blocksDir dataDir false [] sourceDisk).map
      (fun r => (r.1.entries, r.2)) =
      some (firstDisk.entries, [firstRow "read", firstRow "write"]) := by decide +kernel

theorem first_site :
    firstSite.fs = firstDisk ∧ firstSite.rows = [firstRow "read", firstRow "write"] := by
  obtain ⟨r, hr, heq⟩ := Option.map_eq_some_iff.mp first_installed
  obtain ⟨hfs, hrows⟩ := Prod.mk.inj heq
  change (Site.install environment blocksDir { fs := sourceDisk } firstInstall).fs = _ ∧
    (Site.install environment blocksDir { fs := sourceDisk } firstInstall).rows = _
  unfold Site.install Site.installed
  rw [show installFromSource environment blocksDir firstInstall.srcDir firstInstall.cleanupSrc []
    firstInstall.found = some r from hr]
  exact ⟨AList.ext hfs, hrows⟩

theorem sum_ne (data : String) : environment.sha256 data ≠ "" := by
  change sum data ≠ ""
  unfold sum
  split_ifs <;> decide

theorem tidy : Tidy environment blocksDir := fun _ _ _ _ h => by cases h

theorem fresh_of_keys {base : Path} {fs : FileSystem} (h : ∀ p ∈ fs.keys, ¬base <+: p) :
    Fresh base fs :=
  fun p hp _ => AList.lookup_eq_none.mpr fun hmem => h p (AList.mem_keys.mp hmem) hp

/-- No command is run for a collection in R without a setup script. -/
theorem built_r {env : Environment} {i : Install} (hlang : i.lang = .r)
    (hsetup : existsAt (i.srcDir.join "setup.R") i.found = false) : i.built env = some i.found := by
  unfold Install.built runBuild
  rw [hlang]
  dsimp only
  rw [hsetup]
  rfl

theorem sameBelow_refl (base : Path) (fs : FileSystem) : SameBelow base fs fs :=
  ⟨fun _ _ => rfl, fun _ _ h => h⟩

theorem sameBelow_insert {base p : Path} (h : ¬base <+: p ∧ ¬p <+: base) (fs : FileSystem)
    (node : Node) : SameBelow base fs (fs.insert p node) where
  below q hq := by
    rw [GoMap.lookup_insert_if, if_neg]
    rintro rfl
    exact h.1 hq
  above q hq hdir := by
    rw [GoMap.lookup_insert_if, if_neg]
    · exact hdir
    · rintro rfl
      exact h.2 hq

theorem sameBelow_erase {base p : Path} (h : ¬base <+: p ∧ ¬p <+: base) (fs : FileSystem) :
    SameBelow base fs (fs.erase p) where
  below q hq := by
    rw [GoMap.lookup_erase_if, if_neg]
    rintro rfl
    exact h.1 hq
  above q hq hdir := by
    rw [GoMap.lookup_erase_if, if_neg]
    · exact hdir
    · rintro rfl
      exact h.2 hq

def isLink : Node → Bool
  | .link _ => true
  | _ => false

theorem no_link {fs : FileSystem} (h : ∀ e ∈ fs.items, isLink e.2 = false) (p : Path) (t : String) :
    fs.lookup p ≠ some (.link t) :=
  fun hl => Bool.false_ne_true ((h (p, .link t) ((GoMap.mem_items _ _ _).mpr hl)).symm)

/-- An install of the collection in R, from a disk that it can be read from. -/
structure Readable (i : Install) (files : List (FileName × Option String)) : Prop where
  srcDir : i.srcDir = dataDir
  lang : i.lang = .r
  setup : existsAt (i.srcDir.join "setup.R") i.found = false
  name : i.name environment = "data"
  version : i.version environment = "0.1.0"
  stands : i.found.lookup dataDir = some .dir ∧ i.found.lookup [dataName, blocksName] = some .dir
  links : ∀ e ∈ i.found.items, isLink e.2 = false
  read : i.files i.found = some files
  named : ∀ f ∈ files, ((f.2.bind (decodeManifest environment.unmarshalYAML)).all fun m =>
    f.1.1 = blockNameFromID m.id ++ ".yaml") = true
  nodup : (files.map Prod.fst).Nodup
  manifests : (sourceManifests environment i.srcDir i.found).isSome = true

namespace Readable
variable {i : Install} {files : List (FileName × Option String)}

/-- All of it is read off one evaluation. -/
theorem of_checks (h : i.srcDir = dataDir ∧ i.lang = .r ∧
    existsAt (i.srcDir.join "setup.R") i.found = false ∧ i.name environment = "data" ∧
    i.version environment = "0.1.0" ∧
    (i.found.lookup dataDir = some .dir ∧ i.found.lookup [dataName, blocksName] = some .dir) ∧
    (∀ e ∈ i.found.items, isLink e.2 = false) ∧ i.files i.found = some files ∧
    (∀ f ∈ files, ((f.2.bind (decodeManifest environment.unmarshalYAML)).all fun m =>
      f.1.1 = blockNameFromID m.id ++ ".yaml") = true) ∧ (files.map Prod.fst).Nodup ∧
    (sourceManifests environment i.srcDir i.found).isSome = true) : Readable i files := by
  obtain ⟨h₁, h₂, h₃, h₄, h₅, h₆, h₇, h₈, h₉, h₁₀, h₁₁⟩ := h
  exact ⟨h₁, h₂, h₃, h₄, h₅, h₆, h₇, h₈, h₉, h₁₀, h₁₁⟩

theorem manifests_eq (h : Readable i files) :
    sourceManifests environment i.srcDir i.found = some (i.manifests environment) := by
  obtain ⟨ms, hms⟩ := Option.isSome_iff_exists.mp h.manifests
  rw [Install.manifests, hms]
  rfl

theorem built (h : Readable i files) : i.built environment = some i.found := built_r h.lang h.setup

theorem ordinary (h : Readable i files) : Ordinary environment blocksDir i where
  name := by
    rw [h.name]
    decide
  version := by
    rw [h.version]
    decide
  elsewhere fs hfs g hg := by
    obtain rfl := Option.some.inj (h.built.symm.trans hfs)
    unfold Install.files
    rw [h.srcDir, show dataDir.join "blocks" = [dataName, blocksName] from
      Path.join_plain blocksName.2 _]
    refine elsewhere_of_standing ?_ (by decide) (fun k t => no_link h.links _ t) g hg
    exact (standing_nil.concat h.stands.1).concat h.stands.2

theorem loads (h : Readable i files) (fs : FileSystem) (hfs : i.built environment = some fs) :
    ∀ m ∈ i.manifests environment, ∃ n : FileName, n.1 = blockNameFromID m.id ++ ".yaml" ∧
      (standingText ((i.files fs).getD []) (i.dir environment blocksDir ++ [blocksName]) fs n).bind
        (decodeManifest environment.unmarshalYAML) = some m := by
  intro m hm
  obtain rfl := Option.some.inj (h.built.symm.trans hfs)
  obtain ⟨n, data, hin, -, hdecode⟩ := (mem_manifests_files h.manifests_eq h.read).mp hm
  refine ⟨n, ?_, ?_⟩
  · have hnamed := h.named _ hin
    rw [Option.bind_some, hdecode, Option.all_some] at hnamed
    exact of_decide_eq_true hnamed
  rw [h.read, Option.getD_some]
  unfold standingText
  rw [show find Prod.fst n files = some (n, some data) from
    find_of_mem h.nodup hin]
  exact hdecode

end Readable

def sourceTexts (text : String) : List (FileName × Option String) :=
  [(readName, some text), (writeName, some writeText)]

theorem first_readable : Readable firstInstall (sourceTexts readText) :=
  .of_checks (by decide +kernel)

theorem changed_readable : Readable changedInstall (sourceTexts changedText) :=
  .of_checks (by decide +kernel)

theorem allowed {s : Site} {i : Install} {files : List (FileName × Option String)}
    (h : Readable i files) (hsome : (installFromSource environment blocksDir i.srcDir i.cleanupSrc
      s.rows i.found).isSome = true)
    (hclean : i.cleanupSrc = false) (hfound : SameBelow blocksDir s.fs i.found) :
    Allowed environment blocksDir s i where
  succeeds := by
    obtain ⟨r, hr⟩ := Option.isSome_iff_exists.mp hsome
    exact ⟨_, Option.map_eq_some_iff.mpr ⟨r, hr, rfl⟩⟩
  undisturbed :=
    { found := hfound
      built := fun fs hfs => Option.some.inj (h.built.symm.trans hfs) ▸ sameBelow_refl _ _
      apart := fun htrue => absurd htrue (by rw [hclean]; nofun) }

theorem first_allowed : Allowed environment blocksDir { fs := sourceDisk } firstInstall := by
  obtain ⟨r, hr, -⟩ := Option.map_eq_some_iff.mp first_installed
  refine allowed first_readable ?_ rfl (sameBelow_refl _ _)
  exact Option.isSome_iff_exists.mpr ⟨r, hr⟩

theorem changed_found : SameBelow blocksDir firstSite.fs changedInstall.found :=
  first_site.1 ▸ sameBelow_insert (by decide) _ _

theorem changed_allowed : Allowed environment blocksDir firstSite changedInstall :=
  allowed changed_readable (by rw [first_site.2]; decide +kernel) rfl changed_found

theorem renews {s : Site} {i : Install} {files : List (FileName × Option String)}
    (h : Readable i files)
    (hothers : ∀ c ms, s.sources.lookup (c, "0.1.0") = some ms → c = "data")
    (hrows : ∀ row ∈ s.rows, row.entrypoint = "" ∧ row.network = false ∧
      row.key ∈ (i.manifests environment).map fun m => (m.id, "0.1.0")) :
    Renews environment blocksDir s i where
  loads := h.loads
  others c ms hl hc := by
    rw [h.version] at hl
    rw [h.name] at hc
    exact absurd (hothers c ms hl) hc
  nonzero row hrow _ _ _ := ⟨fun _ => (hrows row hrow).1, fun _ => (hrows row hrow).2.1⟩
  whole := .inl fun row hrow _ => by
    obtain ⟨m, hm, hkey⟩ := List.mem_map.mp (hrows row hrow).2.2
    exact ⟨m, hm, by rw [h.version, hkey]⟩

theorem first_renews : Renews environment blocksDir { fs := sourceDisk } firstInstall :=
  renews first_readable (fun c ms hl => by simp at hl) fun row hrow => absurd hrow List.not_mem_nil

theorem first_sources (c : String) (ms : List BlockManifest)
    (h : firstSite.sources.lookup (c, "0.1.0") = some ms) : c = "data" := by
  obtain ⟨s', hs'⟩ := first_allowed.succeeds
  obtain ⟨fs, fs', -, -, -, hsite⟩ := installed_eq hs'
  rw [firstSite, Site.install, hs', Option.getD_some, hsite] at h
  dsimp only at h
  rw [GoMap.lookup_insert_if] at h
  split_ifs at h with hc
  · rw [(Prod.mk.inj hc).1]
    exact first_readable.name
  · simp at h

theorem changed_renews : Renews environment blocksDir firstSite changedInstall :=
  renews changed_readable first_sources (by rw [first_site.2]; decide +kernel)

theorem dropped_readable : Readable droppedInstall [(readName, some changedText)] :=
  .of_checks (by decide +kernel)

/-- The second install leaves the row of the block that the source has no more. -/
theorem dropped_installed : ((installFromSource environment blocksDir dataDir false
    [firstRow "read", firstRow "write"] droppedInstall.found).bind fun r =>
      r.2.getLast?.map fun row => verifyBlock environment.sha256 row r.1) = some false := by
  decide +kernel

theorem dropped_allowed : Allowed environment blocksDir firstSite droppedInstall := by
  obtain ⟨r, hr, -⟩ := Option.bind_eq_some_iff.mp dropped_installed
  refine allowed dropped_readable ?_ rfl
    (changed_found.trans (sameBelow_erase (by decide) _))
  rw [first_site.2]
  exact Option.isSome_iff_exists.mpr ⟨r, hr⟩

theorem dropped_not_verified :
    ¬Verified environment (Site.install environment blocksDir firstSite droppedInstall) := by
  obtain ⟨r, hr, hnot⟩ := Option.bind_eq_some_iff.mp dropped_installed
  rw [← first_site.2] at hr
  exact not_verified hr hnot

end Samples

open Samples

theorem installed_serve_changed : Runs.Always (Site.install environment blocksDir)
    (fun s => Verified environment s ∧ Served environment s) { fs := sourceDisk }
    [firstInstall, changedInstall] :=
  installed_serve sum_ne tidy (fresh_of_keys (by decide))
    ⟨⟨first_allowed, first_readable.ordinary, first_renews⟩,
      ⟨changed_allowed, changed_readable.ordinary, changed_renews⟩, trivial⟩

/-- The row of a block that the second source has no more does not verify. -/
theorem installed_serve_fails : (∀ data, environment.sha256 data ≠ "") ∧
    Tidy environment blocksDir ∧ Fresh blocksDir sourceDisk ∧
    Runs.Along (Site.install environment blocksDir) (Allowed environment blocksDir)
      { fs := sourceDisk } [firstInstall, droppedInstall] ∧
    ¬Runs.Always (Site.install environment blocksDir)
      (fun s => Verified environment s ∧ Served environment s) { fs := sourceDisk }
      [firstInstall, droppedInstall] :=
  ⟨sum_ne, tidy, fresh_of_keys (by decide), ⟨first_allowed, dropped_allowed, trivial⟩,
    fun h => dropped_not_verified h.2.2.1⟩

end Spade.Cli
