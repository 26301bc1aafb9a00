import Spade.Data.Download

set_option autoImplicit false

/-!
# Where an extraction writes

A name without a last element is not flattened, and the directories on its way are made wherever
it leads. The extraction of whole trees does not accept such names.
-/
namespace Spade.Data
open FileSystem Path Making

/-- A place is inside the directory, or is the directory or one that leads to it. -/
def Near (destDir p : Path) : Prop := destDir <+: p ∨ p <+: destDir

/-- Things are made inside the directory only, apart from it and what leads to it. -/
def Confined (destDir : Path) (w : Making) : Prop := ∀ p ∈ w.made, Near destDir p

/-- There are no links in the directory, nor on the way to it. -/
def LinkFree (destDir : Path) (fs : FileSystem) : Prop :=
  ∀ p, Near destDir p → ∀ t, fs.lookup p ≠ some (.link t)

/-- A path comes out of the directory, and not behind a file. -/
def Strays (destDir : Path) (files : List Path) (raw : List String) : Prop :=
  ∃ r, r <+: raw ∧ ¬Near destDir (lexical r) ∧ ∀ r', r' <+: r → lexical r' ∉ files

/-- Where an entry with a file name is written. -/
def flatPlace (destDir : Path) (entry : ZipEntry) : Path :=
  lexical (joinParts destDir (flatName entry.name))

/-- The first entry without a file name, if it comes to it, does not stray: what leads to its last
element stays in the directory, or comes to a file that has been extracted before. -/
def NamesStay (filter : ℕ → String → Bool) (destDir : Path) (entries : List ZipEntry) : Prop :=
  ∀ before entry after, attempted filter 0 entries = before ++ entry :: after →
    (∀ b ∈ before, b.complete = true ∧ fileName b.name ≠ none) → fileName entry.name = none →
    ¬Strays destDir (before.map (flatPlace destDir)) (joinParts destDir entry.name).dropLast

/-! Places that are near. -/

variable {destDir p : Path} {w : Making} {fs : FileSystem}

theorem Near.push (h : Near destDir p) {s : String} (hs : ¬PlainName s) :
    Near destDir (push p s) := by
  rw [Path.push, dif_neg hs]
  split_ifs
  · obtain ⟨q, rfl⟩ | h := h
    · cases q using List.reverseRecOn with
      | nil =>
        rw [List.append_nil]
        exact .inr (List.dropLast_prefix destDir)
      | append_singleton q m =>
        rw [← List.append_assoc, List.dropLast_concat]
        exact .inl (List.prefix_append destDir q)
    · exact .inr ((List.dropLast_prefix p).trans h)
  · exact h

theorem near_of_prefix_names {q : Path} {r : List String} (h : r <+: (destDir ++ q).names) :
    Near destDir (lexical r) := by
  have hr : lexical r <+: destDir ++ q := by
    obtain ⟨t, ht⟩ := h
    obtain ⟨a, b, hab, rfl, rfl⟩ := List.map_eq_append_iff.mp ht.symm
    have hlex := lexical_names a []
    rw [List.append_nil, names, names, List.map_nil, List.append_nil] at hlex
    rw [hlex, hab]
    exact List.prefix_append a b
  obtain hle | hle := le_total destDir.length (lexical r).length
  · exact .inl (List.prefix_of_prefix_length_le (List.prefix_append destDir q) hr hle)
  · exact .inr (List.prefix_of_prefix_length_le hr (List.prefix_append destDir q) hle)

/-- All that an entry makes lies on the way to its place. -/
theorem extractEntry_made {dest : List String} {entry : ZipEntry}
    (h : p ∈ (extractEntry dest entry w).1.made) :
    p ∈ w.made ∨ ∃ r, r <+: dest ∧ p = lexical r := by
  unfold extractEntry at h
  have hdirs : ∀ p ∈ (createDirAll dest.dropLast w).1.made,
      p ∈ w.made ∨ ∃ r, r <+: dest ∧ p = lexical r := fun p hp => by
    obtain hp | ⟨r, -, hr, rfl⟩ := makeDirs_made hp
    · exact .inl hp
    · exact .inr ⟨r, hr.trans (List.dropLast_prefix dest), rfl⟩
  generalize createDirAll dest.dropLast w = made at h hdirs
  obtain ⟨w₁, b⟩ := made
  cases b with
  | false => exact hdirs p h
  | true =>
    simp only at h
    cases hfile : createFile dest entry.content w₁ with
    | none =>
      rw [hfile] at h
      exact hdirs p h
    | some w₂ =>
      rw [hfile] at h
      simp only at h
      rw [createFile_made hfile, List.mem_append, List.mem_singleton] at h
      obtain hp | rfl := h
      · exact hdirs p hp
      · exact .inr ⟨dest, List.prefix_refl dest, rfl⟩

theorem createDirAll_confined (h : Confined destDir w) :
    Confined destDir (createDirAll destDir.names w).1 := by
  intro p hp
  obtain hp | ⟨r, -, hr, rfl⟩ := makeDirs_made hp
  · exact h p hp
  · exact near_of_prefix_names (q := []) (by rwa [List.append_nil])

/-- Entries whose places lie in the directory, as names, are written inside it. -/
theorem writeEntries_confined {place : String → Option (List String)}
    (hplace : ∀ name dest, place name = some dest → ∃ q : Path, dest = (destDir ++ q).names)
    (entries : List ZipEntry) (h : Confined destDir w) :
    Confined destDir (writeEntries place entries w) := by
  induction entries generalizing w with
  | nil => exact h
  | cons entry entries ih =>
    unfold writeEntries
    cases hdest : place entry.name with
    | none => exact h
    | some dest =>
      obtain ⟨q, rfl⟩ := hplace _ _ hdest
      have hone : Confined destDir (extractEntry (destDir ++ q).names entry w).1 := fun p hp => by
        obtain hp | ⟨r, hr, rfl⟩ := extractEntry_made hp
        · exact h p hp
        · exact near_of_prefix_names hr
      simp only
      generalize extractEntry (destDir ++ q).names entry w = made at hone
      obtain ⟨w₁, b⟩ := made
      cases b with
      | false => exact hone
      | true => exact ih hone

theorem extractWith_fst (archive : Option (List ZipEntry)) (filter : ℕ → String → Bool)
    (place : String → Option (List String)) (destDir : Path) (w : Making) :
    (extractWith archive filter place destDir w).1 = (createDirAll destDir.names w).1 ∨
    ∃ entries, archive = some entries ∧ (createDirAll destDir.names w).2 = true ∧
      (extractWith archive filter place destDir w).1 =
        writeEntries place (attempted filter 0 entries) (createDirAll destDir.names w).1 := by
  unfold extractWith
  obtain ⟨w₁, b⟩ := createDirAll destDir.names w
  cases b with
  | false => exact .inl rfl
  | true =>
    cases archive with
    | none => exact .inl rfl
    | some entries => exact .inr ⟨entries, rfl, rfl, extractEntries_fst _ _ _ _ _ _⟩

theorem extractZipTree_confined (archive : Option (List ZipEntry)) (destDir : Path)
    (fs : FileSystem) : Confined destDir (extractZipTree archive destDir ⟨fs, []⟩).1 := by
  have hstart : Confined destDir ⟨fs, []⟩ := fun p hp => absurd hp List.not_mem_nil
  obtain hfst | ⟨entries, -, -, hfst⟩ := extractWith_fst archive (fun _ _ => true)
    (fun name => (sanitizeZipName name).map fun rel => destDir.names ++ rel) destDir ⟨fs, []⟩
  · rw [extractZipTree, hfst]
    exact createDirAll_confined hstart
  · rw [extractZipTree, hfst]
    refine writeEntries_confined (fun name dest hdest => ?_) _ (createDirAll_confined hstart)
    obtain ⟨rel, hrel, rfl⟩ := Option.map_eq_some_iff.mp hdest
    unfold sanitizeZipName at hrel
    split_ifs at hrel with habs hback hnil
    obtain rfl := Option.some.inj hrel
    have hplain : ∀ s ∈ pathParts name, PlainName s := fun s hs =>
      pathParts_plain hs fun heq => hback (heq ▸ hs)
    refine ⟨(pathParts name).attach.map fun s => ⟨s.1, hplain s.1 s.2⟩, ?_⟩
    rw [names, names, List.map_append, List.map_map]
    exact congrArg _ (List.attach_map_subtype_val _).symm

/-! The directory while entries are written. -/

/-- The directory is there, with the files that have been extracted. -/
structure Extracted (destDir : Path) (files : List Path) (fs : FileSystem) : Prop where
  standing : fs.Standing destDir
  free : LinkFree destDir fs
  held : ∀ q ∈ files, ∃ m, q = destDir ++ [m] ∧ ∃ c, fs.lookup q = some (.file c)

variable {files : List Path} {entry : ZipEntry}

theorem flatPlace_eq (destDir : Path) {s : String} (h : fileName entry.name = some s) :
    flatPlace destDir entry = destDir ++ [⟨s, (fileName_eq h).1⟩] := by
  have hlex := lexical_names destDir [⟨s, (fileName_eq h).1⟩]
  rw [flatPlace, joinParts_flat destDir h, ← hlex]
  rfl

/-- An entry with a file name is written inside the directory, unless there is a directory at
its place. -/
theorem extractEntry_named (hinv : Extracted destDir files w.fs) {s : String}
    (h : fileName entry.name = some s) :
    (w.fs.lookup (flatPlace destDir entry) = some .dir ∧
      extractEntry (joinParts destDir (flatName entry.name)) entry w = (w, false)) ∨
    (w.fs.lookup (flatPlace destDir entry) ≠ some .dir ∧
      extractEntry (joinParts destDir (flatName entry.name)) entry w =
        (⟨w.fs.insert (flatPlace destDir entry) (.file entry.content),
          w.made ++ [flatPlace destDir entry]⟩, entry.complete)) := by
  have hstand : createDirAll destDir.names w = (w, true) := createDirAll_standing hinv.standing
  have hwalk := walks_names hinv.standing
  unfold extractEntry
  rw [joinParts_flat destDir h, List.dropLast_concat, hstand, flatPlace_eq destDir h]
  simp only
  by_cases hdir : w.fs.lookup (destDir ++ [⟨s, (fileName_eq h).1⟩]) = some .dir
  · have hnone := createFile_walk (hwalk.name _ hdir) entry.content
    simp only at hnone
    rw [hnone]
    exact .inl ⟨hdir, rfl⟩
  · have hfile := createFile_name hwalk entry.content hdir
      (hinv.free _ (.inl (List.prefix_append destDir _)))
    simp only at hfile
    rw [hfile]
    exact .inr ⟨hdir, rfl⟩

theorem Extracted.insert (hinv : Extracted destDir files fs) (m : FileName) (content : String) :
    Extracted destDir (files ++ [destDir ++ [m]]) (fs.insert (destDir ++ [m]) (.file content)) where
  standing := hinv.standing.congr fun q hq => by
    rw [GoMap.lookup_insert_if, if_neg]
    rintro rfl
    exact not_below_self [] hq
  free p hp t := by
    rw [GoMap.lookup_insert_if]
    split_ifs
    · exact nofun
    · exact hinv.free p hp t
  held q hq := by
    rw [GoMap.lookup_insert_if]
    split_ifs with heq
    · exact ⟨m, heq, content, rfl⟩
    · rw [List.mem_append, List.mem_singleton] at hq
      exact hinv.held q (hq.resolve_right heq)

/-- A place that is a directory is left as it is. -/
theorem extractEntry_standing (h : w.fs.Standing p) :
    extractEntry p.names entry w = (w, false) := by
  have hlast : p.names.dropLast = names p.dropLast := by rw [names, names, List.map_dropLast]
  have hdirs : createDirAll (names p.dropLast) w = (w, true) :=
    createDirAll_standing (h.of_prefix (List.dropLast_prefix p))
  unfold extractEntry
  rw [hlast, hdirs]
  simp only
  rw [createFile_walk (walks_names h)]

/-- Directories on the way back are made as far as there is no file in the way. -/
theorem extractEntry_back {rest : List String} (hinv : Extracted destDir files w.fs)
    (hconf : Confined destDir w) (hstay : ¬Strays destDir files rest) :
    (extractEntry (rest ++ [".."]) entry w).2 = false ∧
      Confined destDir (extractEntry (rest ++ [".."]) entry w).1 := by
  have hfalse : (createDirAll rest w).2 = false →
      extractEntry (rest ++ [".."]) entry w = ((createDirAll rest w).1, false) := fun hdirs => by
    unfold extractEntry
    rw [List.dropLast_concat]
    generalize createDirAll rest w = made at hdirs
    obtain ⟨w₁, b⟩ := made
    cases hdirs
    rfl
  by_cases hout : ∃ k, ∃ r, r <+: rest ∧ r.length = k ∧ ¬Near destDir (lexical r)
  · -- The shortest way out; what blocks it lies before.
    classical
    obtain ⟨r, hr, hlen, hfar⟩ := Nat.find_spec hout
    have hnear : ∀ r', r' <+: rest → r'.length < r.length → Near destDir (lexical r') :=
      fun r' hr' hlt => by
        by_contra hfar'
        exact Nat.find_min hout (hlen ▸ hlt) ⟨r', hr', rfl, hfar'⟩
    obtain ⟨b, hb, hfile⟩ : ∃ b, b <+: r ∧ lexical b ∈ files := by
      by_contra hno
      exact hstay ⟨r, hr, hfar, fun b hb hmem => hno ⟨b, hb, hmem⟩⟩
    obtain ⟨m, hm, c, hc⟩ := hinv.held _ hfile
    have hshort : b.length < r.length := by
      refine lt_of_le_of_ne hb.length_le fun hlen' => hfar ?_
      rw [← hb.eq_of_length hlen', hm]
      exact .inl (List.prefix_append destDir [m])
    have hbefore : ∀ r', r' <+: b → Near destDir (lexical r') := fun r' hr' =>
      hnear r' (hr'.trans (hb.trans hr)) (hr'.length_le.trans_lt hshort)
    obtain ⟨hdirs, hmade⟩ := makeDirs_blocked (w := w) .nil (hb.trans hr)
      (fun r' _ hr' t => hinv.free _ (hbefore r' hr') t) hc
      (hm ▸ List.append_ne_nil_of_right_ne_nil destDir (List.cons_ne_nil m []))
    rw [hfalse hdirs]
    refine ⟨rfl, fun p hp => ?_⟩
    obtain hp | ⟨r', hr', rfl⟩ := hmade p hp
    · exact hconf p hp
    · exact hbefore r' hr'
  · have hall : ∀ r, r <+: rest → Near destDir (lexical r) := fun r hr =>
      not_not.mp fun hfar => hout ⟨r.length, r, hr, rfl, hfar⟩
    have hmade : ∀ p ∈ (createDirAll rest w).1.made, Near destDir p := fun p hp => by
      obtain hp | ⟨r, -, hr, rfl⟩ := makeDirs_made hp
      · exact hconf p hp
      · exact hall r hr
    have hdirs : extractEntry (rest ++ [".."]) entry w = ((createDirAll rest w).1, false) := by
      cases hok : (createDirAll rest w).2 with
      | false => exact hfalse hok
      | true =>
        obtain ⟨hwalk, -⟩ := makeDirs_ok (w := w) .nil
          (fun r _ hr t => hinv.free _ (hall r hr) t) hok
        have hnone : createFile (rest ++ [".."]) entry.content (createDirAll rest w).1 = none :=
          createFile_walk (hwalk.other (s := "..") (by decide)) entry.content
        unfold extractEntry
        rw [List.dropLast_concat]
        generalize createDirAll rest w = made at hok hnone
        obtain ⟨w₁, b⟩ := made
        cases hok
        simp only at hnone ⊢
        rw [hnone]
    rw [hdirs]
    exact ⟨rfl, hmade⟩

/-- Without a file name an entry is not written. What is made for it is near unless it strays. -/
theorem extractEntry_nameless (hinv : Extracted destDir files w.fs) (hconf : Confined destDir w)
    (hname : fileName entry.name = none)
    (hstay : ¬Strays destDir files (joinParts destDir entry.name).dropLast) :
    (extractEntry (joinParts destDir (flatName entry.name)) entry w).2 = false ∧
      Confined destDir (extractEntry (joinParts destDir (flatName entry.name)) entry w).1 := by
  obtain ⟨hflat, hparts⟩ := joinParts_nameless destDir hname
  rw [hflat]
  obtain hnil | ⟨rest, hrest⟩ := hparts
  · have hstand : ∃ p, w.fs.Standing p ∧ joinParts destDir entry.name = p.names := by
      unfold joinParts
      rw [hnil]
      split_ifs
      · exact ⟨[], standing_nil, rfl⟩
      · exact ⟨destDir, hinv.standing, List.append_nil _⟩
    obtain ⟨p, hp, hraw⟩ := hstand
    rw [hraw, extractEntry_standing hp]
    exact ⟨rfl, hconf⟩
  · obtain ⟨back, hback⟩ : ∃ back, joinParts destDir entry.name = back ++ [".."] := by
      unfold joinParts
      rw [hrest]
      split_ifs
      · exact ⟨rest, rfl⟩
      · exact ⟨destDir.names ++ rest, (List.append_assoc _ _ _).symm⟩
    rw [hback, List.dropLast_concat] at hstay
    rw [hback]
    exact extractEntry_back hinv hconf hstay

/-! All the entries. -/

/-- Where the entries of an archive are written. -/
def flatPlaces (destDir : Path) (name : String) : Option (List String) :=
  some (joinParts destDir (flatName name))

theorem writeEntries_stay (hinv : Extracted destDir files w.fs) (hconf : Confined destDir w)
    (entries : List ZipEntry)
    (hstay : ∀ before entry after, entries = before ++ entry :: after →
      (∀ b ∈ before, b.complete = true ∧ fileName b.name ≠ none) → fileName entry.name = none →
      ¬Strays destDir (files ++ before.map (flatPlace destDir))
        (joinParts destDir entry.name).dropLast) :
    Confined destDir (writeEntries (flatPlaces destDir) entries w) := by
  induction entries generalizing files w with
  | nil => exact hconf
  | cons entry entries ih =>
    unfold writeEntries flatPlaces
    simp only
    cases hname : fileName entry.name with
    | none =>
      have hentry := hstay [] entry entries rfl (fun b hb => absurd hb List.not_mem_nil) hname
      rw [List.map_nil, List.append_nil] at hentry
      obtain ⟨hfalse, hmade⟩ := extractEntry_nameless hinv hconf hname hentry
      generalize extractEntry (joinParts destDir (flatName entry.name)) entry w = made
        at hfalse hmade
      obtain ⟨w₁, b⟩ := made
      cases hfalse
      exact hmade
    | some s =>
      obtain ⟨-, hres⟩ | ⟨-, hres⟩ := extractEntry_named hinv hname
      · rw [hres]
        exact hconf
      · rw [hres]
        have hplace := flatPlace_eq destDir hname
        have hmade : Confined destDir ⟨w.fs.insert (flatPlace destDir entry) (.file entry.content),
            w.made ++ [flatPlace destDir entry]⟩ := fun p hp => by
          obtain hp | hp := List.mem_append.mp hp
          · exact hconf p hp
          · rw [List.mem_singleton.mp hp, hplace]
            exact .inl (List.prefix_append destDir _)
        cases hcomplete : entry.complete with
        | false => exact hmade
        | true =>
          have hnext := hinv.insert ⟨s, (fileName_eq hname).1⟩ entry.content
          rw [← hplace] at hnext
          refine ih hnext hmade ?_
          intro before next after hsplit hbefore hnone
          have hcons := hstay (entry :: before) next after (by rw [hsplit]; rfl) ?_ hnone
          · rwa [List.map_cons, ← List.singleton_append, ← List.append_assoc] at hcons
          · intro b hb
            obtain rfl | hb := List.mem_cons.mp hb
            · exact ⟨hcomplete, by rw [hname]; exact nofun⟩
            · exact hbefore b hb

theorem extracted_start (hfree : LinkFree destDir w.fs)
    (hok : (createDirAll destDir.names w).2 = true) :
    Extracted destDir [] (createDirAll destDir.names w).1.fs := by
  have hnear : ∀ r, r <+: destDir.names → Near destDir (lexical r) := fun r hr =>
    near_of_prefix_names (q := []) (by rwa [List.append_nil])
  obtain ⟨hwalk, hnodes⟩ := makeDirs_ok (w := w) .nil
    (fun r _ hr t => hfree _ (hnear r hr) t) hok
  have hlex : lexical ([] ++ destDir.names) = destDir := lexical_names [] destDir
  rw [hlex] at hwalk
  refine ⟨hwalk.standing, fun p hp t ht => ?_, fun q hq => absurd hq List.not_mem_nil⟩
  obtain hold | hdir := hnodes p _ ht
  · exact hfree p hp t hold
  · cases hdir

/-! A file system in which a path that strays is made. -/

theorem extractEntry_mono {dest : List String} (entry : ZipEntry) (h : p ∈ (createDirAll dest.dropLast w).1.made) :
    p ∈ (extractEntry dest entry w).1.made := by
  unfold extractEntry
  generalize createDirAll dest.dropLast w = made at h
  obtain ⟨w₁, b⟩ := made
  cases b with
  | false => exact h
  | true =>
    simp only at h ⊢
    cases hfile : createFile dest entry.content w₁ with
    | none => exact h
    | some w₂ =>
      simp only
      rw [createFile_made hfile]
      exact List.mem_append_left _ h

theorem writeEntries_mono {place : String → Option (List String)} (entries : List ZipEntry)
    (h : p ∈ w.made) : p ∈ (writeEntries place entries w).made := by
  induction entries generalizing w with
  | nil => exact h
  | cons entry entries ih =>
    unfold writeEntries
    cases place entry.name with
    | none => exact h
    | some dest =>
      have hone : p ∈ (extractEntry dest entry w).1.made := extractEntry_mono entry (makeDirs_mono h)
      simp only
      generalize extractEntry dest entry w = made at hone
      obtain ⟨w₁, b⟩ := made
      cases b with
      | false => exact hone
      | true => exact ih hone

/-- There is nothing but the directory, what leads to it and the files. -/
def Only (destDir : Path) (files : List Path) (fs : FileSystem) : Prop :=
  ∀ q node, fs.lookup q = some node → (q <+: destDir ∧ node = .dir) ∨ q ∈ files

/-- The entries before are all written, and then the path that strays is made. -/
theorem writeEntries_stray (hinv : Extracted destDir files w.fs) (honly : Only destDir files w.fs)
    {before after : List ZipEntry}
    (hbefore : ∀ b ∈ before, b.complete = true ∧ fileName b.name ≠ none)
    (hname : fileName entry.name = none)
    (hstray : Strays destDir (files ++ before.map (flatPlace destDir))
      (joinParts destDir entry.name).dropLast) :
    ¬Confined destDir (writeEntries (flatPlaces destDir) (before ++ entry :: after) w) := by
  induction before generalizing files w with
  | nil =>
    rw [List.map_nil, List.append_nil] at hstray
    obtain ⟨r, hr, hfar, hfree⟩ := hstray
    have hdirs : ∀ r' node, r' <+: r → w.fs.lookup (lexical r') = some node →
        lexical r' <+: destDir ∧ node = .dir := fun r' node hr' hnode =>
      (honly _ _ hnode).resolve_right (hfree r' hr')
    have hnone : w.fs.lookup (lexical r) = none := by
      cases hl : w.fs.lookup (lexical r) with
      | none => rfl
      | some node => exact absurd (.inr (hdirs r node (List.prefix_refl r) hl).1) hfar
    have hmade : lexical r ∈ (createDirAll (joinParts destDir entry.name).dropLast w).1.made :=
      makeDirs_missing .nil hr (fun r' node _ hr' hnode => (hdirs r' node hr' hnode).2)
        (.inl hnone) fun hnil => hfar (hnil ▸ .inr List.nil_prefix)
    rw [← (joinParts_nameless destDir hname).1] at hmade
    have hentry := extractEntry_mono entry hmade
    refine fun hconf => hfar (hconf _ ?_)
    rw [List.nil_append]
    unfold writeEntries flatPlaces
    simp only
    generalize extractEntry (joinParts destDir (flatName entry.name)) entry w = made at hentry
    obtain ⟨w₁, b⟩ := made
    cases b with
    | false => exact hentry
    | true => exact writeEntries_mono after hentry
  | cons b before ih =>
    obtain ⟨hcomplete, hsome⟩ := hbefore b List.mem_cons_self
    obtain ⟨s, hs⟩ := Option.ne_none_iff_exists'.mp hsome
    have hplace := flatPlace_eq destDir hs
    obtain ⟨hdir, -⟩ | ⟨-, hres⟩ := extractEntry_named hinv hs
    · rw [hplace] at hdir
      obtain ⟨hpre, -⟩ | hmem := honly _ _ hdir
      · exact absurd hpre (not_below_self [])
      · obtain ⟨-, -, c, hc⟩ := hinv.held _ hmem
        rw [hdir] at hc
        cases hc
    · rw [List.cons_append]
      unfold writeEntries flatPlaces
      simp only
      rw [hres, hcomplete]
      have hnext := hinv.insert ⟨s, (fileName_eq hs).1⟩ b.content
      rw [← hplace] at hnext
      refine ih hnext ?_ (fun b' hb' => hbefore b' (List.mem_cons_of_mem b hb')) ?_
      · intro q node hq
        simp only [GoMap.lookup_insert_if] at hq
        split_ifs at hq with heq
        · exact .inr (List.mem_append_right files (List.mem_singleton.mpr heq))
        · exact (honly q node hq).imp_right (List.mem_append_left _)
      · rwa [List.map_cons, ← List.singleton_append, ← List.append_assoc] at hstray

/-- A disk with the directory alone. -/
def standingDisk (destDir : Path) : FileSystem := (mkdirAll destDir ∅).getD ∅

theorem only_standingDisk (destDir : Path) :
    Extracted destDir [] (standingDisk destDir) ∧ Only destDir [] (standingDisk destDir) := by
  obtain ⟨fs, hfs⟩ := @mkdirAll_ok ∅ destDir fun _ _ _ => .inl rfl
  have hlookup : ∀ q node, fs.lookup q = some node → q <+: destDir ∧ node = .dir := by
    intro q node hq
    rw [mkdirAll_lookup hfs] at hq
    split_ifs at hq with hpre
    · exact ⟨hpre.2, (Option.some.inj hq).symm⟩
    · cases hq
  rw [standingDisk, hfs, Option.getD_some]
  refine ⟨⟨fun q hq hpre => ?_, fun p _ t ht => ?_, fun q hq => absurd hq List.not_mem_nil⟩,
    fun q node hq => .inl (hlookup q node hq)⟩
  · rw [mkdirAll_lookup hfs, if_pos ⟨hq, hpre⟩]
  · exact nomatch (hlookup p _ ht).2

/-- An extraction that comes to an entry that strays is not confined. -/
theorem extractZip_stray {filter : ℕ → String → Bool} {entries before after : List ZipEntry}
    (hinv : Extracted destDir [] fs) (honly : Only destDir [] fs)
    (hsplit : attempted filter 0 entries = before ++ entry :: after)
    (hbefore : ∀ b ∈ before, b.complete = true ∧ fileName b.name ≠ none)
    (hname : fileName entry.name = none)
    (hstray : Strays destDir (before.map (flatPlace destDir))
      (joinParts destDir entry.name).dropLast) :
    ¬Confined destDir (extractZip (some entries) filter destDir ⟨fs, []⟩).1 := by
  have hstand : createDirAll destDir.names ⟨fs, []⟩ = (⟨fs, []⟩, true) :=
    createDirAll_standing hinv.standing
  have hfst : (extractZip (some entries) filter destDir ⟨fs, []⟩).1 =
      writeEntries (flatPlaces destDir) (attempted filter 0 entries) ⟨fs, []⟩ := by
    unfold extractZip extractWith
    rw [hstand]
    exact extractEntries_fst _ _ _ _ _ _
  rw [hfst, hsplit]
  exact writeEntries_stray hinv honly hbefore hname hstray

/-- What both extractions make stays in the directory, in whatever state the disk is. -/
theorem confined_iff (archive : Option (List ZipEntry)) (filter : ℕ → String → Bool)
    (destDir : Path) :
    (∀ fs, LinkFree destDir fs → Confined destDir (extractZip archive filter destDir ⟨fs, []⟩).1 ∧
      Confined destDir (extractZipTree archive destDir ⟨fs, []⟩).1) ↔
    ∀ entries, archive = some entries → NamesStay filter destDir entries := by
  constructor
  · rintro hconf entries rfl before entry after hsplit hbefore hname hstray
    obtain ⟨hinv, honly⟩ := only_standingDisk destDir
    exact extractZip_stray hinv honly hsplit hbefore hname hstray (hconf _ hinv.free).1
  · refine fun hstay fs hfree => ⟨?_, extractZipTree_confined archive destDir fs⟩
    have hstart : Confined destDir (createDirAll destDir.names ⟨fs, []⟩).1 :=
      createDirAll_confined fun p hp => absurd hp List.not_mem_nil
    obtain hfst | ⟨entries, rfl, hok, hfst⟩ :=
      extractWith_fst archive filter (flatPlaces destDir) destDir ⟨fs, []⟩
    · rw [extractZip]
      exact hfst ▸ hstart
    · have hzip : (extractZip (some entries) filter destDir ⟨fs, []⟩).1 =
          writeEntries (flatPlaces destDir) (attempted filter 0 entries)
            (createDirAll destDir.names ⟨fs, []⟩).1 := hfst
      rw [hzip]
      exact writeEntries_stay (extracted_start hfree hok) hstart _ (hstay entries rfl)

def outDir : Path := [⟨"tmp", by decide⟩, ⟨"out", by decide⟩]

/-- The extraction into `/tmp/out` makes the directory `/tmp/evil`. -/
theorem confined_fails :
    lexical ["tmp", "out", "..", "evil"] = [⟨"tmp", by decide⟩, ⟨"evil", by decide⟩] ∧
    LinkFree outDir (standingDisk outDir) ∧
    ¬Confined outDir (extractZip (some [{ name := "../evil/.." }]) (fun _ _ => true) outDir
      ⟨standingDisk outDir, []⟩).1 := by
  obtain ⟨hinv, honly⟩ := only_standingDisk outDir
  have hparts : joinParts outDir "../evil/.." = ["tmp", "out", "..", "evil", ".."] := by decide
  have hsplit : attempted (fun _ _ => true) 0 [{ name := "../evil/.." }] =
      [] ++ { name := "../evil/.." } :: [] := rfl
  refine ⟨by decide, hinv.free, extractZip_stray hinv honly hsplit
    (fun b hb => absurd hb List.not_mem_nil) (by decide)
    ⟨["tmp", "out", "..", "evil"], ?_, ?_, fun _ _ => List.not_mem_nil⟩⟩
  · rw [hparts]
    exact List.prefix_refl _
  · unfold Near
    decide

end Spade.Data
