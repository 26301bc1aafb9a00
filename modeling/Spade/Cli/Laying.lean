import Spade.Cli.Copying

set_option autoImplicit false

/-!
# What stands in an install directory

The manifests that the source has replace those of the same names, and the artifacts stand
beside them.
-/
namespace Spade.Cli
open FileSystem Path
variable {fs fs' g : FileSystem} {base D S : Path} {env : Environment}
  {lang : CollectionLanguage} {name k : FileName}

def blocksName : FileName := ⟨"blocks", by decide⟩

def venvName : FileName := ⟨".venv", by decide⟩

def pyprojectName : FileName := ⟨"pyproject.toml", by decide⟩

def lockName : FileName := ⟨"uv.lock", by decide⟩

def srcName : FileName := ⟨"src", by decide⟩

def rName : FileName := ⟨"R", by decide⟩

/-- The names under which the artifacts are put. -/
def copiedNames (lang : CollectionLanguage) (name : FileName) : List FileName :=
  match lang with
  | .python => [pyprojectName, lockName, srcName]
  | .r => [rName]
  | _ => [name]

/-- The file that is always among the artifacts. -/
def markOf (lang : CollectionLanguage) (name : FileName) : Option FileName :=
  match lang with
  | .python => some pyprojectName
  | .r => none
  | _ => some name

/-- The files of the source's directory of manifests, with what can be read of them. -/
def sourceFiles (srcBlocks : Path) (fs : FileSystem) : Option (List (FileName × Option String)) :=
  (fs.readDirAt (names srcBlocks)).toOption.map fun entries =>
    (entries.filter fun entry => !entry.isDir).map fun entry =>
      (entry.name, (fs.readAt (names (srcBlocks ++ [entry.name]))).toOption)

/-- The links of an install directory are those of its environment. -/
def VenvOnly (fs : FileSystem) (D : Path) : Prop :=
  ∀ rel t, fs.lookup (D ++ rel) = some (.link t) → ∃ rest, rest ≠ [] ∧ rel = venvName :: rest

theorem VenvOnly.linkless (h : VenvOnly fs D) (k : FileName) : Linkless fs D [k] := by
  intro pre hne hpre t hl
  obtain ⟨m, l, rfl⟩ := List.exists_cons_of_ne_nil hne
  obtain ⟨rfl, hnil⟩ := List.cons_prefix_cons.mp hpre
  rw [List.prefix_nil.mp hnil] at hl
  obtain ⟨rest, hrest, heq⟩ := h [m] t hl
  exact hrest (List.cons.inj heq).2.symm

theorem VenvOnly.changes (h : VenvOnly fs D) {T : Path} (hc : Changes T fs fs') : VenvOnly fs' D :=
  fun rel t hl => h rel t (hc.links _ t hl)

theorem VenvOnly.below (h : VenvOnly fs D) (hk : k ≠ venvName) (rel : Path) (t : String) :
    fs.lookup (D ++ k :: rel) ≠ some (.link t) := by
  intro hl
  obtain ⟨rest, -, heq⟩ := h (k :: rel) t hl
  exact hk (List.cons.inj heq).1

theorem Changes.other (h : Changes (D ++ [k]) fs fs') {m : FileName} (hm : m ≠ k) (rest : Path) :
    fs'.lookup (D ++ m :: rest) = fs.lookup (D ++ m :: rest) :=
  h.off _ (child_off rest k m hm)

/-! The artifacts. -/

/-- One file is put under a name of the directory. -/
theorem copyFile_laid {src : Path} (hD : fs.Standing D) (hv : VenvOnly fs D)
    (h : copyFileSimple src (D ++ [k]) fs = some fs') :
    Changes (D ++ [k]) fs fs' ∧ ∃ c, fs'.lookup (D ++ [k]) = some (.file c) := by
  obtain ⟨data, -, hw⟩ := copyFileSimple_eq h
  obtain ⟨hc, hfile, -⟩ := changes_writeFile hD (hv.linkless k) hw
  exact ⟨hc, data, hfile⟩

theorem copyPyproject_laid {src : Path} (hD : fs.Standing D) (hv : VenvOnly fs D)
    (h : copyPyprojectWithAbsoluteSources env src (D ++ [k]) fs = some fs') :
    Changes (D ++ [k]) fs fs' ∧ ∃ c, fs'.lookup (D ++ [k]) = some (.file c) := by
  obtain ⟨data, -, h⟩ := Option.bind_eq_some_iff.mp h
  obtain ⟨doc, -, h⟩ := Option.bind_eq_some_iff.mp h
  obtain ⟨out, -, hw⟩ := Option.bind_eq_some_iff.mp h
  obtain ⟨hc, hfile, -⟩ := changes_writeFile hD (hv.linkless k) hw
  exact ⟨hc, out, hfile⟩

structure Laid (D : Path) (lang : CollectionLanguage) (name : FileName)
    (fs fs' : FileSystem) : Prop where
  changes : Changes D fs fs'
  others : ∀ k, k ∉ copiedNames lang name → ∀ rest,
    fs'.lookup (D ++ k :: rest) = fs.lookup (D ++ k :: rest)
  mark : ∀ k, markOf lang name = some k → ∃ c, fs'.lookup (D ++ [k]) = some (.file c)

theorem laid_file (hc : Changes (D ++ [name]) fs fs')
    (hfile : ∃ c, fs'.lookup (D ++ [name]) = some (.file c)) (hcopied : copiedNames lang name = [name])
    (hmark : markOf lang name = some name) : Laid D lang name fs fs' where
  changes := hc.below (List.prefix_append _ _)
  others k hk rest := hc.other (fun heq => hk (by rw [hcopied, heq]; exact List.mem_cons_self)) rest
  mark k hk := by
    rw [hmark] at hk
    exact Option.some.inj hk ▸ hfile

theorem copyArtifacts_laid (hD : fs.Standing D) (hv : VenvOnly fs D)
    (h : copyArtifacts env S D name.1 fs lang = some fs') : Laid D lang name fs fs' := by
  have hplain : ∀ k : FileName, D.join k.1 = D ++ [k] := fun k => Path.join_plain k.2 D
  cases lang with
  | rust =>
    unfold copyArtifacts at h
    rw [hplain] at h
    obtain ⟨hc, hfile⟩ := copyFile_laid hD hv h
    exact laid_file hc hfile rfl rfl
  | go =>
    unfold copyArtifacts at h
    rw [hplain] at h
    obtain ⟨hc, hfile⟩ := copyFile_laid hD hv h
    exact laid_file hc hfile rfl rfl
  | typeScript =>
    unfold copyArtifacts at h
    rw [hplain] at h
    obtain ⟨hc, hfile⟩ := copyFile_laid hD hv h
    exact laid_file hc hfile rfl rfl
  | r =>
    unfold copyArtifacts at h
    rw [show D.join "R" = D ++ [rName] from hplain rName] at h
    have hc := changes_copyDirRecursive hD (hv.below (by decide)) h
    refine ⟨hc.below (List.prefix_append _ _), fun k hk rest => hc.other ?_ rest, nofun⟩
    exact fun heq => hk (heq ▸ List.mem_cons_self)
  | python =>
    unfold copyArtifacts at h
    rw [show D.join "pyproject.toml" = D ++ [pyprojectName] from hplain pyprojectName,
      show D.join "src" = D ++ [srcName] from hplain srcName] at h
    obtain ⟨fs₁, hproject, h⟩ := Option.bind_eq_some_iff.mp h
    obtain ⟨fs₂, hlock, hsrc⟩ := Option.bind_eq_some_iff.mp h
    obtain ⟨hc₁, hfile⟩ := copyPyproject_laid hD hv hproject
    have hD₁ := hc₁.standing hD
    have hv₁ := hv.changes hc₁
    have hc₂ : Changes (D ++ [lockName]) fs₁ fs₂ := by
      unfold copyLock at hlock
      rw [show D.join "uv.lock" = D ++ [lockName] from hplain lockName] at hlock
      split_ifs at hlock
      · exact (copyFile_laid hD₁ hv₁ hlock).1
      · exact Option.some.inj hlock ▸ Changes.refl _ _
    have hc₃ := changes_copyDirRecursive (hc₂.standing hD₁)
      ((hv₁.changes hc₂).below (by decide)) hsrc
    refine ⟨?_, fun k hk rest => ?_, fun k hk => ?_⟩
    · exact ((hc₁.below (List.prefix_append _ _)).trans (hc₂.below (List.prefix_append _ _))).trans
        (hc₃.below (List.prefix_append _ _))
    · simp only [copiedNames, List.mem_cons, List.not_mem_nil, or_false, not_or] at hk
      rw [hc₃.other hk.2.2, hc₂.other hk.2.1, hc₁.other hk.1]
    · obtain rfl := Option.some.inj hk
      rw [hc₃.other (by decide), hc₂.other (by decide)]
      exact hfile

/-- The directory of manifests is none of the artifacts. -/
theorem Laid.blocks (h : Laid D lang name fs fs') (hB : fs.lookup (D ++ [blocksName]) = some .dir)
    (rest : Path) : fs'.lookup (D ++ blocksName :: rest) = fs.lookup (D ++ blocksName :: rest) := by
  refine h.others blocksName (fun hin => ?_) rest
  have hname : markOf lang name = some name → blocksName = name → False := by
    rintro hmark heq
    obtain ⟨c, hc⟩ := h.mark name hmark
    rw [← heq, h.changes.dirs _ hB] at hc
    cases hc
  cases lang with
  | python => exact absurd hin (show blocksName ∉ [pyprojectName, lockName, srcName] by decide)
  | r => exact absurd hin (show blocksName ∉ [rName] by decide)
  | rust => exact hname rfl (List.mem_singleton.mp hin)
  | go => exact hname rfl (List.mem_singleton.mp hin)
  | typeScript => exact hname rfl (List.mem_singleton.mp hin)

/-! The manifests. -/

theorem sourceFiles_content {files : List (FileName × Option String)}
    (h : sourceFiles S fs = some files) {o : Option String} (hk : (k, o) ∈ files) :
    (fs.readAt (names (S ++ [k]))).toOption = o := by
  obtain ⟨entries, -, rfl⟩ := Option.map_eq_some_iff.mp h
  obtain ⟨entry, -, heq⟩ := List.mem_map.mp hk
  obtain ⟨rfl, rfl⟩ := Prod.mk.inj heq
  rfl

/-- Files of one directory, copied one after the other. -/
theorem copyEach {B : Path} {content : FileName → Option String} {l : List FileName}
    (hB : fs.Standing B) (hlinks : ∀ k t, fs.lookup (B ++ [k]) ≠ some (.link t))
    (hread : ∀ g, Changes B fs g → ∀ k ∈ l, (g.readAt (names (S ++ [k]))).toOption = content k)
    (h : l.foldlM (fun fs k => copyFileSimple (S ++ [k]) (B ++ [k]) fs) fs = some fs') :
    Changes B fs fs' ∧
      (∀ k ∈ l, ∃ c, content k = some c ∧ fs'.lookup (B ++ [k]) = some (.file c)) ∧
      ∀ k, k ∉ l → ∀ rest, fs'.lookup (B ++ k :: rest) = fs.lookup (B ++ k :: rest) := by
  induction l generalizing fs with
  | nil =>
    obtain rfl := Option.some.inj h
    exact ⟨Changes.refl B fs, fun k hk => absurd hk List.not_mem_nil, fun _ _ _ => rfl⟩
  | cons m l ih =>
    rw [List.foldlM_cons] at h
    obtain ⟨fs₁, hm, hl⟩ := Option.bind_eq_some_iff.mp h
    obtain ⟨data, hdata, hw⟩ := copyFileSimple_eq hm
    have hlinkless : Linkless fs B [m] := by
      intro pre hne hpre t
      obtain ⟨x, xs, rfl⟩ := List.exists_cons_of_ne_nil hne
      obtain ⟨rfl, hnil⟩ := List.cons_prefix_cons.mp hpre
      rw [List.prefix_nil.mp hnil]
      exact hlinks x t
    obtain ⟨hc, hfile, -⟩ := changes_writeFile hB hlinkless hw
    have hcB : Changes B fs fs₁ := hc.below (List.prefix_append _ _)
    have hcontent : content m = some data := by
      rw [← hread fs (Changes.refl B fs) m List.mem_cons_self, hdata]
      rfl
    obtain ⟨hrest, hwritten, hkept⟩ := ih (hc.standing hB)
      (fun k t hl => hlinks k t (hc.links _ t hl))
      (fun g hg k hk => hread g (hcB.trans hg) k (List.mem_cons_of_mem _ hk)) hl
    refine ⟨hcB.trans hrest, fun k hk => ?_, fun k hk rest => ?_⟩
    · by_cases hin : k ∈ l
      · exact hwritten k hin
      · obtain rfl := (List.mem_cons.mp hk).resolve_right hin
        exact ⟨data, hcontent, (hkept k hin []).trans hfile⟩
    · rw [List.mem_cons, not_or] at hk
      obtain ⟨hne, hin⟩ := hk
      rw [hkept k hin, hc.other hne]

/-- What stands in a directory of manifests once the files are copied into it. -/
structure Filled (B : Path) (files : List (FileName × Option String))
    (fs fs' : FileSystem) : Prop where
  written : ∀ k o, (k, o) ∈ files → ∃ c, o = some c ∧ fs'.lookup (B ++ [k]) = some (.file c)
  kept : ∀ k, k ∉ files.map Prod.fst → ∀ rest,
    fs'.lookup (B ++ k :: rest) = fs.lookup (B ++ k :: rest)

theorem copyManifests_filled {B : Path} {files : List (FileName × Option String)}
    (hB : fs.Standing B) (hlinks : ∀ k t, fs.lookup (B ++ [k]) ≠ some (.link t))
    (hfiles : ∀ g, Changes B fs g → sourceFiles S g = some files)
    (h : copyManifests S B fs = some fs') : Changes B fs fs' ∧ Filled B files fs fs' := by
  have hnow := hfiles fs (Changes.refl B fs)
  obtain ⟨entries, hentries, hcopy⟩ := Option.bind_eq_some_iff.mp h
  obtain ⟨entries', hentries', hmap⟩ := Option.map_eq_some_iff.mp hnow
  obtain rfl := Option.some.inj (hentries.symm.trans hentries')
  have hnames : files.map Prod.fst =
      (entries.filter fun entry => !entry.isDir).map DirEntry.name := by
    rw [← hmap, List.map_map]
    rfl
  have hfold : (files.map Prod.fst).foldlM
      (fun fs k => copyFileSimple (S ++ [k]) (B ++ [k]) fs) fs = some fs' := by
    rw [hnames, List.foldlM_map]
    exact hcopy
  have hread : ∀ g, Changes B fs g → ∀ k ∈ files.map Prod.fst,
      (g.readAt (names (S ++ [k]))).toOption = (fs.readAt (names (S ++ [k]))).toOption := by
    intro g hg k hk
    obtain ⟨f, hf, rfl⟩ := List.mem_map.mp hk
    rw [sourceFiles_content (hfiles g hg) hf, sourceFiles_content hnow hf]
  obtain ⟨hc, hwritten, hkept⟩ := copyEach hB hlinks hread hfold
  refine ⟨hc, fun k o hk => ?_, hkept⟩
  obtain ⟨c, hcontent, hfile⟩ := hwritten k (List.mem_map_of_mem hk)
  exact ⟨c, (sourceFiles_content hnow hk).symm.trans hcontent, hfile⟩

/-! The whole install directory. -/

/-- Outside a directory, only directories above it are made. -/
def Outside (base : Path) (fs g : FileSystem) : Prop :=
  ∀ p, ¬base <+: p → g.lookup p = fs.lookup p ∨
    p <+: base ∧ fs.lookup p = none ∧ g.lookup p = some .dir

/-- What `uv sync` leaves of the install directories. -/
structure Syncs (base D : Path) (fs fs' : FileSystem) : Prop where
  off : ∀ p, base <+: p → ¬D <+: p → fs'.lookup p = fs.lookup p
  dirs : ∀ p, p <+: D → fs.lookup p = some .dir → fs'.lookup p = some .dir
  blocks : ∀ rest, fs'.lookup (D ++ blocksName :: rest) = fs.lookup (D ++ blocksName :: rest)
  links : VenvOnly fs D → VenvOnly fs' D
  marks : ∀ k : FileName, k.1 ∈ checks.map Prod.fst →
    fs'.lookup (D ++ [k]) = fs.lookup (D ++ [k])

/-- Environments are made in the install directories in which they are made, under names of
their own. -/
def Tidy (env : Environment) (base : Path) : Prop :=
  ∀ c v fs fs', env.exec ["uv", "sync"] (base ++ [c, v]) fs = some fs' →
    Syncs base (base ++ [c, v]) fs fs'

structure LaidOut (base D : Path) (files : List (FileName × Option String))
    (lang : CollectionLanguage) (name : FileName) (fs fs' : FileSystem) : Prop where
  stands : fs'.Standing (D ++ [blocksName])
  off : ∀ p, base <+: p → ¬D <+: p → ¬p <+: D → fs'.lookup p = fs.lookup p
  above : ∀ p, p <+: D → fs.lookup p = some .dir → fs'.lookup p = some .dir
  links : VenvOnly fs' D
  filled : Filled (D ++ [blocksName]) files fs fs'
  marks : ∀ k : FileName, k.1 ∈ checks.map Prod.fst → markOf lang name ≠ some k →
    fs'.lookup (D ++ [k]) = fs.lookup (D ++ [k])
  mark : ∀ k : FileName, k.1 ∈ checks.map Prod.fst → markOf lang name = some k →
    ∃ c, fs'.lookup (D ++ [k]) = some (.file c)

theorem outside_mkdirAll {c v : FileName} (h : mkdirAll (base ++ [c, v]) fs = some fs') :
    Outside base fs fs' := by
  intro p hp
  rw [mkdirAll_lookup h]
  split_ifs with hpre
  · have hup : p <+: base := (List.prefix_or_prefix_of_prefix hpre.2
      (List.prefix_append base [c, v])).resolve_right hp
    rcases mkdirAll_free h hpre.1 hpre.2 with hnone | hdir
    · exact .inr ⟨hup, hnone, rfl⟩
    · exact .inl hdir.symm
  · exact .inl rfl

theorem Outside.changes (h : Outside base fs g) (hT : base <+: D) (hc : Changes D g fs') :
    Outside base fs fs' := by
  intro p hp
  rw [hc.off p fun hD => hp (hT.trans hD)]
  exact h p hp

theorem finalizeInstall_syncs {c v : FileName} (htidy : Tidy env base)
    (h : finalizeInstall env (base ++ [c, v]) lang fs = some fs') :
    Syncs base (base ++ [c, v]) fs fs' := by
  unfold finalizeInstall at h
  split_ifs at h
  · exact htidy c v fs fs' h
  · obtain rfl := Option.some.inj h
    exact ⟨fun _ _ _ => rfl, fun _ _ hp => hp, fun _ => rfl, id, fun _ _ => rfl⟩

/-- A name of an artifact that is looked for is the mark. -/
theorem mem_copiedNames (hk : k.1 ∈ checks.map Prod.fst) (hin : k ∈ copiedNames lang name) :
    markOf lang name = some k := by
  cases lang with
  | python =>
    simp only [copiedNames, List.mem_cons, List.not_mem_nil, or_false] at hin
    rcases hin with rfl | rfl | rfl
    · rfl
    · exact absurd hk (by decide)
    · exact absurd hk (by decide)
  | r =>
    rw [List.mem_singleton.mp hin] at hk
    exact absurd hk (by decide)
  | rust => rw [List.mem_singleton.mp hin]; rfl
  | go => rw [List.mem_singleton.mp hin]; rfl
  | typeScript => rw [List.mem_singleton.mp hin]; rfl

theorem layOut_laid {srcDir : Path} {c v : FileName} (htidy : Tidy env base)
    (hlinks : VenvOnly fs (base ++ [c, v])) (hsame : ∀ g, Outside base fs g →
      sourceFiles (srcDir.join "blocks") g = sourceFiles (srcDir.join "blocks") fs)
    (h : layOut env srcDir (base ++ [c, v]) lang name.1 fs = some fs') :
    ∃ files, sourceFiles (srcDir.join "blocks") fs = some files ∧
      LaidOut base (base ++ [c, v]) files lang name fs fs' := by
  have hbase : base <+: base ++ [c, v] := List.prefix_append _ _
  generalize hDdef : base ++ [c, v] = D at hlinks h hbase ⊢
  obtain ⟨fs₁, hmk, h⟩ := Option.bind_eq_some_iff.mp h
  obtain ⟨fs₄, hcopy, hfinal⟩ := Option.bind_eq_some_iff.mp h
  obtain ⟨fs₂, hmkB, hcopy⟩ := Option.bind_eq_some_iff.mp hcopy
  obtain ⟨fs₃, hmanifests, hartifacts⟩ := Option.bind_eq_some_iff.mp hcopy
  have hjoin : D.join "blocks" = D ++ [blocksName] := Path.join_plain blocksName.2 D
  rw [hjoin] at hmkB hmanifests
  have hl₁ := mkdirAll_lookup hmk
  have hD₁ : fs₁.Standing D := fun q hq hp => by rw [hl₁, if_pos ⟨hq, hp⟩]
  have hv₁ : VenvOnly fs₁ D := by
    intro rel t hl
    rw [hl₁] at hl
    split_ifs at hl
    · cases hl
    · exact hlinks rel t hl
  have hc₂ := changes_mkdirAll hD₁ hmkB
  have hdir₂ : fs₂.lookup (D ++ [blocksName]) = some .dir := by
    rw [mkdirAll_lookup hmkB, if_pos ⟨by simp, List.prefix_refl _⟩]
  have hD₂ := hc₂.standing hD₁
  have hv₂ := hv₁.changes hc₂
  have hout : Outside base fs fs₂ := (outside_mkdirAll (hDdef ▸ hmk)).changes hbase
    (hc₂.below (List.prefix_append _ _))
  obtain ⟨files, hfiles⟩ : ∃ files, sourceFiles (srcDir.join "blocks") fs = some files := by
    obtain ⟨entries, hentries, -⟩ := Option.bind_eq_some_iff.mp hmanifests
    exact ⟨_, (hsame fs₂ hout).symm.trans (Option.map_eq_some_iff.mpr ⟨entries, hentries, rfl⟩)⟩
  obtain ⟨hc₃, hfilled⟩ := copyManifests_filled (hD₂.concat hdir₂)
    (fun k t hl => hv₂.below (k := blocksName) (by decide) [k] t (by
      rw [List.append_assoc] at hl
      exact hl))
    (fun g hg => (hsame g (hout.changes hbase (hg.below (List.prefix_append _ _)))).trans hfiles)
    hmanifests
  have hD₃ := hc₃.standing hD₂
  have hlaid := copyArtifacts_laid hD₃ (hv₂.changes hc₃) hartifacts
  have hsync := finalizeInstall_syncs htidy (hDdef ▸ hfinal)
  rw [hDdef] at hsync
  have hblocks : ∀ rest, fs'.lookup (D ++ blocksName :: rest) = fs₃.lookup (D ++ blocksName :: rest) :=
    fun rest => (hsync.blocks rest).trans (hlaid.blocks (hc₃.dirs _ hdir₂) rest)
  have hmarks₃ : ∀ k : FileName, k.1 ∈ checks.map Prod.fst →
      fs₃.lookup (D ++ [k]) = fs.lookup (D ++ [k]) := by
    intro k hk
    have hne : k ≠ blocksName := by
      rintro rfl
      exact absurd hk (by decide)
    rw [hc₃.other hne, hc₂.other hne, hl₁, if_neg fun hp => not_below_self [] hp.2]
  refine ⟨files, hfiles, ?_⟩
  constructor
  · refine Standing.concat (fun q hq hp => hsync.dirs q hp (hlaid.changes.standing hD₃ q hq hp)) ?_
    rw [hblocks, hc₃.dirs _ hdir₂]
  · intro p hp hD hup
    rw [hsync.off p hp hD, hlaid.changes.off p hD,
      hc₃.off p fun hB => hD ((List.prefix_append D [blocksName]).trans hB),
      hc₂.off p fun hB => hD ((List.prefix_append D [blocksName]).trans hB), hl₁,
      if_neg fun hpre => hup hpre.2]
  · intro p hp hdir
    refine hsync.dirs p hp (hlaid.changes.dirs p (hc₃.dirs p (hc₂.dirs p ?_)))
    rw [hl₁]
    split_ifs
    · rfl
    · exact hdir
  · exact hsync.links ((hv₂.changes hc₃).changes hlaid.changes)
  · have hbelow : ∀ k rest, (D ++ [blocksName]) ++ k :: rest = D ++ blocksName :: k :: rest :=
      fun k rest => by rw [List.append_assoc]; rfl
    refine ⟨fun k o hk => ?_, fun k hk rest => ?_⟩
    · obtain ⟨content, ho, hfile⟩ := hfilled.written k o hk
      refine ⟨content, ho, ?_⟩
      rw [hbelow, hblocks, ← hbelow]
      exact hfile
    · rw [hbelow, hblocks, ← hbelow, hfilled.kept k hk, mkdirAll_lookup hmkB,
        if_neg fun hp => not_below_self rest hp.2, hl₁, if_neg]
      rintro ⟨-, hp⟩
      rw [hbelow] at hp
      exact not_below_self _ hp
  · intro k hk hmark
    rw [hsync.marks k hk, hlaid.others k (fun hin => hmark (mem_copiedNames hk hin)) [],
      hmarks₃ k hk]
  · intro k hk hmark
    rw [hsync.marks k hk]
    exact hlaid.mark k hmark

end Spade.Cli
