import Spade.Block.Scanning
import Spade.Runner.Redelivery

set_option autoImplicit false

/-!
# From one block to the next

A block writes a value into a directory for one of its outputs, the directory for an input of
another is filled with links to what stands there, and that block reads its inputs.
-/
namespace Spade
open Uuid

/-- The input is linked to the outputs of a single block. -/
def InputContext.DefaultCase (c : InputContext) (fs : FileSystem) (ri : ResolvedInput) : Prop :=
  (c.invocation.mapIndex ≠ none →
    (c.depManifests.lookup ri.sourceBlockID).map BlockManifest.kind ≠ some .map) ∧
  (c.manifest.kind = .reduce → c.siblings ri fs = [])

theorem InputContext.DefaultCase.links {c : InputContext} {fs : FileSystem} {e : String × ResolvedInput}
    (h : c.DefaultCase fs e.2) (yamlExpansion : String → Option ExpansionManifest) :
    c.links yamlExpansion fs e = c.sourceLinks fs e.2 := by
  have hrest : ¬(c.manifest.kind = .reduce ∧ c.siblings e.2 fs ≠ []) := fun ⟨hr, hs⟩ => hs (h.2 hr)
  unfold InputContext.links
  cases hidx : c.invocation.mapIndex with
  | none => exact if_neg hrest
  | some idx =>
    dsimp only
    rw [if_neg (h.1 (by simp [hidx])), if_neg hrest]

namespace Block
open FileSystem Path

/-- A path by its base name and what is read there. -/
def held (fs : FileSystem) (cwd : Path) (path : String) : String × Option String :=
  (base path, (fs.readAt (absolute cwd path)).toOption)

/-- The same files with the same contents, or the same tree. -/
def Value.Same (fs : FileSystem) (cwd : Path) (fs' : FileSystem) (cwd' : Path) : Value → Value → Prop
  | .file path, .file path' => held fs' cwd' path' = held fs cwd path
  | .collection paths, .collection paths' =>
    (paths'.map (held fs' cwd')).Perm (paths.map (held fs cwd))
  | .directory path, .directory path' => ∀ rel : Path,
    (fs'.stat (absolute cwd' path' ++ names rel)).toOption =
      (fs.stat (absolute cwd path ++ names rel)).toOption
  | _, _ => False

/-- A file, or a collection of at least one path, no two of which have one base name. -/
def Value.Fits : Value → Prop
  | .file _ => True
  | .collection paths => paths ≠ [] ∧ (paths.map base).Nodup
  | .directory _ => False

theorem Value.Fits.spec {v : Value} (h : v.Fits) :
    (∀ path, v ≠ .directory path) ∧ (v.paths.map base).Nodup ∧ v.paths ≠ [] := by
  cases v with
  | file path => exact ⟨by simp, List.nodup_singleton _, List.cons_ne_nil _ _⟩
  | collection paths => exact ⟨by simp, h.2, h.1⟩
  | directory path => exact h.elim

theorem Value.Exists.read {v : Value} {cwd : Path} {fs : FileSystem} (h : v.Exists cwd fs) :
    ∀ path ∈ v.paths, ∃ s, fs.readAt (absolute cwd path) = .ok s := by
  cases v with
  | file path =>
    intro p hp
    rw [List.mem_singleton.mp hp]
    exact h
  | collection paths => exact h
  | directory path => exact fun _ h => (List.not_mem_nil h).elim

/-- An entry of the same files is read as the same value. -/
theorem input_same {v : Value} {fs fs' : FileSystem} {cwd cwd' : Path} {args : Inputs} {name : String}
    {entry : InputEntry} (hdir : ∀ path, v ≠ .directory path) (hentry : args.lookup name = some entry)
    (hperm : (entry.files.map (held fs' cwd')).Perm (v.paths.map (held fs cwd))) :
    ∃ w, input args name v.shape = .ok w ∧ v.Same fs cwd fs' cwd' w := by
  cases v with
  | file path =>
    obtain ⟨file, hfile⟩ := List.length_eq_one_iff.mp
      ((by simpa [Value.paths] using hperm.length_eq) : entry.files.length = 1)
    refine ⟨.file file, input_file hentry hfile, ?_⟩
    rw [hfile] at hperm
    exact List.singleton_perm_singleton.mp hperm
  | collection paths => exact ⟨.collection entry.files, input_collection hentry, hperm⟩
  | directory path => exact absurd rfl (hdir path)

/-- What is handed over: the value of a block that works in `cwd` with its output directory, and
the input of the block that `context` is for. -/
structure Handover where
  value : Value
  cwd : Path
  depth : ℕ
  out : Path
  context : InputContext
  yamlExpansion : String → Option ExpansionManifest
  order : MapOrder
  resolved : GoMap String ResolvedInput
  name : String
  source : ResolvedInput

/-- The value is there at the start and gets written; until the links are made nothing is lost
and nothing is added to the output directory; the other inputs have something to link to. -/
structure Handover.Runs (h : Handover) (start written ready linked : FileSystem) : Prop where
  value : h.value.Exists h.cwd start
  inPlace : h.value.InPlace h.cwd h.out start
  writeTo : ∃ d, h.value.writeTo h.cwd h.depth h.out ⟨start, none⟩ = .ok d ∧ d.fs = written
  kept : written.Extends ready
  unchanged : ∀ n : FileName, h.out ++ [n] ∈ ready → h.out ++ [n] ∈ written
  made : h.context.Made ready
  plain : ∀ e ∈ h.resolved.items, PlainName e.1 ∧ PlainName e.2.sourceOutputName
  resolved : h.resolved.lookup h.name = some h.source
  default : h.context.DefaultCase ready h.source
  sourceDir : h.context.sourceDir h.source ready = h.out
  others : ∀ e ∈ h.resolved.items, e.1 ≠ h.name → h.context.links h.yamlExpansion ready e ≠ some []
  symlinks : ∃ d, h.context.setupInputSymlinks h.yamlExpansion h.order h.context.workDir h.resolved
    ⟨ready, none⟩ = .ok d ∧ d.fs = linked

/-- The block finds the input, and in it the same. -/
def Handover.Delivers (h : Handover) (start linked : FileSystem) : Prop :=
  ∃ args v, scanInputs h.context.workDir linked = .ok args ∧
    input args h.name h.value.shape = .ok v ∧
      h.value.Same start h.cwd linked h.context.workDir v

namespace Handover.Runs
variable {h : Handover} {start written ready linked : FileSystem}

theorem reached (r : h.Runs start written ready linked) :
    h.context.Reached h.yamlExpansion ready h.resolved.items ready :=
  ⟨fun _ _ => rfl, fun _ => .inl (r.made.empty _ (InputContext.below_append (List.cons_ne_nil _ _))),
    fun p hp _ => .inl (r.made.empty p hp)⟩

theorem plain_range (r : h.Runs start written ready linked) :
    ∀ e ∈ h.order.range h.resolved, PlainName e.1 ∧ PlainName e.2.sourceOutputName :=
  fun e he => r.plain e ((h.order.range_perm h.resolved).mem_iff.mp he)

theorem linked_reached (r : h.Runs start written ready linked) :
    h.context.Reached h.yamlExpansion ready h.resolved.items linked := by
  obtain ⟨d, hd, rfl⟩ := r.symlinks
  have hr := InputContext.reached_setup (d := ⟨ready, none⟩) InputContext.plainIDs r.made r.reached
    (fun e he => (h.order.range_perm h.resolved).mem_iff.mp he) r.plain_range
  unfold InputContext.setupInputSymlinks at hd
  rw [hd] at hr
  exact hr

/-- The directory for the inputs has one directory for each of them. -/
theorem dirs (r : h.Runs start written ready linked) (n : FileName) :
    linked.lookup (h.context.inputsDir ++ [n]) =
      if n.1 ∈ h.resolved then some .dir else none := by
  obtain ⟨d, hd, rfl⟩ := r.symlinks
  rw [InputContext.setup_dirs (d := ⟨ready, none⟩) InputContext.plainIDs r.made r.reached
    (fun e he => (h.order.range_perm h.resolved).mem_iff.mp he) r.plain_range hd n,
    r.made.empty _ (InputContext.below_append (List.cons_ne_nil _ _))]
  refine if_congr ?_ rfl rfl
  exact h.order.mem_keys h.resolved n.1

theorem standing (r : h.Runs start written ready linked) : linked.Standing h.context.inputsDir := by
  intro q hq hp
  rw [r.linked_reached.outside q (InputContext.not_below_above hp)]
  exact r.made.dirs q hq hp

/-- In the directory of an input stand the links it asks for. -/
theorem links (r : h.Runs start written ready linked) {e : String × ResolvedInput}
    (he : e ∈ h.resolved.items) : ∃ l, h.context.links h.yamlExpansion ready e = some l ∧
      (∀ x ∈ l, PlainName x.1) ∧
      ∀ m : FileName, (linked.lookup (h.context.linkDir e ++ [m]) = none ∨
        ∃ t, linked.lookup (h.context.linkDir e ++ [m]) = some (.link t)) ∧
        ∀ t, linked.lookup (h.context.linkDir e ++ [m]) = some (.link t) ↔ (m.1, t) ∈ l := by
  obtain ⟨d, hd, rfl⟩ := r.symlinks
  have hmem : e ∈ h.order.range h.resolved := (h.order.range_perm h.resolved).mem_iff.mpr he
  obtain ⟨hall, hlinks⟩ := InputContext.setup_ok (d := ⟨ready, none⟩) InputContext.plainIDs r.made
    r.reached (fun e he => (h.order.range_perm h.resolved).mem_iff.mp he) r.plain_range rfl hd
  obtain ⟨l, hl, hplain, -⟩ := (hall e hmem).1
  have hdir := InputContext.linkDir_eq (c := h.context) (r.plain e he).1
  refine ⟨l, hl, hplain, fun m => ?_⟩
  have hbelow : h.context.Below (h.context.linkDir e ++ [m]) := by
    rw [hdir, List.append_assoc]
    exact InputContext.below_append (List.cons_ne_nil _ _)
  refine ⟨(r.linked_reached.links _ hbelow fun n => by rw [hdir]; simp).imp_right
    fun ⟨t, ht, _⟩ => ⟨t, ht⟩, fun t => ?_⟩
  rw [hlinks, r.made.empty _ hbelow]
  constructor
  · rintro (ht | ⟨e', he', l', hl', x, hx, hp, rfl⟩)
    · cases ht
    · obtain ⟨l'', hl'', hplain', -⟩ := (hall e' he').1
      rw [hl'] at hl''
      obtain rfl := Option.some.inj hl''
      have he'items := (h.order.range_perm h.resolved).mem_iff.mp he'
      rw [hdir, InputContext.linkDir_eq (r.plain e' he'items).1, join_plain (hplain' x hx),
        List.append_assoc, List.append_assoc] at hp
      have hname := List.cons.inj (List.append_cancel_left hp)
      have hkey : e'.1 = e.1 := (congrArg Subtype.val hname.1).symm
      have hm : m.1 = x.1 := congrArg Subtype.val (List.singleton_inj.mp hname.2)
      have hee : e' = e := by
        have hn := GoMap.items_nodup h.resolved
        exact List.inj_on_of_nodup_map hn he'items he hkey
      subst hee
      rw [hl] at hl'
      obtain rfl := Option.some.inj hl'
      rw [hm]
      exact hx
  · intro hx
    exact .inr ⟨e, hmem, l, hl, _, hx, by rw [join_plain m.2], rfl⟩

/-- The directory of an input is scanned if there is something in it. -/
theorem scanned (r : h.Runs start written ready linked) {e : String × ResolvedInput}
    (he : e ∈ h.resolved.items) : ∃ n : FileName, n.1 = e.1 ∧ ∃ names : List FileName,
      names.Nodup ∧ (∀ m, m ∈ names ↔ h.context.linkDir e ++ [m] ∈ linked) ∧
      ∀ entry, Scanned h.context.inputsDir linked n entry ↔
        entryOf n.1 ((names.map fun m => text (h.context.linkDir e ++ [m])).insertionSort (· ≤ ·)) =
          .ok entry := by
  have hdir := InputContext.linkDir_eq (c := h.context) (r.plain e he).1
  have hkey : e.1 ∈ h.resolved := GoMap.mem_iff_lookup.mpr (by
    rw [(GoMap.mem_items h.resolved e.1 e.2).mp he]
    simp)
  have hstand : linked.Standing (h.context.inputsDir ++ [⟨e.1, (r.plain e he).1⟩]) := by
    refine r.standing.concat ?_
    rw [r.dirs, if_pos hkey]
  obtain ⟨l, hl, -, hlinks⟩ := r.links he
  obtain ⟨names, hn, hmem, hscan⟩ := scanned_files hstand fun m => by
    rw [← hdir]
    rcases (hlinks m).1 with hnone | ⟨t, ht⟩
    · simp [hnone]
    · simp [ht]
  rw [← hdir] at hmem hscan
  exact ⟨⟨e.1, _⟩, rfl, names, hn, hmem, hscan⟩

theorem source_mem (r : h.Runs start written ready linked) :
    (h.name, h.source) ∈ h.resolved.items := (GoMap.mem_items _ _ _).mpr r.resolved

/-- In the directory of the input stand links to what was written. -/
theorem source_child (r : h.Runs start written ready linked) (m : FileName) :
    linked.lookup (h.context.linkDir (h.name, h.source) ++ [m]) =
      if h.out ++ [m] ∈ written then some (.link (text (h.out ++ [m]))) else none := by
  obtain ⟨l, hl, -, hlinks⟩ := r.links r.source_mem
  rw [r.default.links] at hl
  unfold InputContext.sourceLinks at hl
  rw [r.sourceDir] at hl
  obtain ⟨entries, hread, rfl⟩ := Option.map_eq_some_iff.mp hl
  have hdir : ready.isDir h.out = true := by
    unfold readDir at hread
    split_ifs at hread with hd
    exact hd
  obtain ⟨entries', hread', -, hmem⟩ := readDir_some hdir
  rw [hread] at hread'
  obtain rfl := Option.some.inj hread'
  have hready : h.out ++ [m] ∈ ready ↔ h.out ++ [m] ∈ written := by
    refine ⟨r.unchanged m, fun hw => ?_⟩
    obtain ⟨node, hnode⟩ := GoMap.lookup_of_mem hw
    exact GoMap.mem_of_lookup (r.kept _ _ hnode)
  have hlink : ∀ t, (m.1, t) ∈ entryLinks h.out "" entries ↔
      h.out ++ [m] ∈ written ∧ text (h.out ++ [m]) = t := by
    intro t
    rw [← hready, ← hmem]
    unfold entryLinks
    constructor
    · intro ht
      obtain ⟨n, hn, heq⟩ := List.mem_map.mp ht
      rw [Prod.mk.injEq, String.empty_append] at heq
      obtain rfl := Subtype.ext heq.1
      exact ⟨hn, by rw [← heq.2, join_plain n.2]⟩
    · rintro ⟨hm, rfl⟩
      exact List.mem_map.mpr ⟨m, hm, by rw [String.empty_append, join_plain m.2]⟩
  obtain ⟨hcases, hiff⟩ := hlinks m
  split_ifs with hw
  · exact (hiff _).mpr ((hlink _).mpr ⟨hw, rfl⟩)
  · refine hcases.resolve_right ?_
    rintro ⟨t, ht⟩
    exact hw ((hlink t).mp ((hiff t).mp ht)).1

theorem source_mem_linked (r : h.Runs start written ready linked) (m : FileName) :
    h.context.linkDir (h.name, h.source) ++ [m] ∈ linked ↔ h.out ++ [m] ∈ written := by
  rw [GoMap.mem_iff_lookup, r.source_child]
  split_ifs with hw <;> simp [hw]

theorem not_below (r : h.Runs start written ready linked) (rest : Path) :
    ¬h.context.Below (h.out ++ rest) := by
  obtain ⟨dir, hdir, hd⟩ := InputContext.sourceDir_cases (c := h.context) InputContext.plainIDs
    h.source ready
  rw [← r.sourceDir, hd, InputContext.outDir_eq hdir (r.plain _ r.source_mem).2, List.append_assoc]
  exact InputContext.not_below_out InputContext.plainIDs _ _

/-- What was written stays. -/
theorem keeps (r : h.Runs start written ready linked) {rest : Path} {node : Node}
    (hl : written.lookup (h.out ++ rest) = some node) :
    linked.lookup (h.out ++ rest) = some node := by
  rw [r.linked_reached.outside _ (r.not_below rest)]
  exact r.kept _ _ hl

theorem keeps_standing (r : h.Runs start written ready linked) (hs : written.Standing h.out) :
    linked.Standing h.out := by
  intro q hq hp
  rw [r.linked_reached.outside q]
  · exact r.kept _ _ (hs q hq hp)
  · intro hb
    have hout := r.not_below []
    rw [List.append_nil] at hout
    refine hout ⟨hb.1.trans hp, fun heq => ?_⟩
    have hlen := hp.length_le
    have hlen' := hb.1.length_le
    rw [heq] at hlen
    exact hb.2 (hb.1.eq_of_length (le_antisymm hlen' hlen)).symm

/-- The files that are read for the input. -/
theorem source_scanned (r : h.Runs start written ready linked) : ∃ n : FileName, n.1 = h.name ∧
    ∃ names : List FileName, names.Nodup ∧ (∀ m, m ∈ names ↔ h.out ++ [m] ∈ written) ∧
      ∀ entry, Scanned h.context.inputsDir linked n entry ↔ entryOf n.1
        ((names.map fun m => text (h.context.linkDir (h.name, h.source) ++ [m])).insertionSort
          (· ≤ ·)) = .ok entry := by
  obtain ⟨n, hn, names, hnodup, hmem, hscan⟩ := r.scanned r.source_mem
  exact ⟨n, hn, names, hnodup, fun m => (hmem m).trans (r.source_mem_linked m), hscan⟩

theorem inputs_dirs (r : h.Runs start written ready linked) (n : FileName)
    (hn : h.context.inputsDir ++ [n] ∈ linked) :
    linked.lookup (h.context.inputsDir ++ [n]) = some .dir ∧ n.1 ∈ h.resolved := by
  by_cases hmem : n.1 ∈ h.resolved
  · rw [r.dirs, if_pos hmem]
    exact ⟨rfl, hmem⟩
  · rw [GoMap.mem_iff_lookup, r.dirs, if_neg hmem] at hn
    simp at hn

/-- The inputs are read if there is a file for the one that is handed over. -/
theorem scans (r : h.Runs start written ready linked) {m : FileName}
    (hm : h.out ++ [m] ∈ written) : ∃ args, scanInputs h.context.workDir linked = .ok args := by
  refine scanInputs_made r.standing (fun n hn => (r.inputs_dirs n hn).1) fun n hn => ?_
  obtain ⟨ri, hri⟩ := GoMap.lookup_of_mem (r.inputs_dirs n hn).2
  have he : (n.1, ri) ∈ h.resolved.items := (GoMap.mem_items _ _ _).mpr hri
  obtain ⟨n', hn', names, -, hmem, hscan⟩ := r.scanned he
  obtain rfl := Subtype.ext hn'
  suffices hne : names ≠ [] by
    have hfiles : (names.map fun m => text (h.context.linkDir (n'.1, ri) ++ [m])).insertionSort
        (· ≤ ·) ≠ [] := by
      intro hnil
      have hlen := congrArg List.length hnil
      rw [List.length_insertionSort, List.length_map] at hlen
      exact hne (List.eq_nil_of_length_eq_zero hlen)
    obtain ⟨entry, hentry⟩ := entryOf_made n'.1 hfiles
    exact ⟨entry, (hscan entry).mpr hentry⟩
  by_cases hname : n'.1 = h.name
  · rw [hname, r.resolved] at hri
    obtain rfl := Option.some.inj hri
    refine List.ne_nil_of_mem ((hmem m).mpr ?_)
    rw [hname, r.source_mem_linked]
    exact hm
  · obtain ⟨l, hl, hplain, hlinks⟩ := r.links he
    obtain ⟨x, hx⟩ := List.exists_mem_of_ne_nil l fun hnil => r.others _ he hname (hnil ▸ hl)
    refine List.ne_nil_of_mem ((hmem ⟨x.1, hplain x hx⟩).mpr ?_)
    rw [GoMap.mem_iff_lookup, ((hlinks ⟨x.1, hplain x hx⟩).2 x.2).mpr hx]
    simp

/-- What the input is read as. -/
theorem source_entry (r : h.Runs start written ready linked) {args : Inputs}
    (hargs : scanInputs h.context.workDir linked = .ok args) :
    ∃ names : List FileName, names.Nodup ∧ names ≠ [] ∧ (∀ m, m ∈ names ↔ h.out ++ [m] ∈ written) ∧
      ∃ entry, args.lookup h.name = some entry ∧ entry.files.Perm
        (names.map fun m => text (h.context.linkDir (h.name, h.source) ++ [m])) := by
  obtain ⟨n, hn, names, hnodup, hmem, hscan⟩ := r.source_scanned
  have hdir : h.context.inputsDir ++ [n] ∈ linked := by
    rw [GoMap.mem_iff_lookup, r.dirs, hn, if_pos (GoMap.mem_of_lookup r.resolved)]
    simp
  obtain ⟨entry, hentry, hlookup⟩ := scanInputs_ok r.standing
    (fun n hn => (r.inputs_dirs n hn).1) hargs n hdir
  obtain ⟨hfiles, hne⟩ := entryOf_files ((hscan entry).mp hentry)
  refine ⟨names, hnodup, ?_, hmem, entry, hn ▸ hlookup, ?_⟩
  · rintro rfl
    exact hne rfl
  · rw [hfiles]
    exact List.perm_insertionSort _ _

/-- A link is read as the file that was written. -/
theorem held_link (r : h.Runs start written ready linked) (hs : written.Standing h.out)
    {m : FileName} {content : String} (hm : written.lookup (h.out ++ [m]) = some (.file content)) :
    held linked h.context.workDir (text (h.context.linkDir (h.name, h.source) ++ [m])) =
      (m.1, some content) := by
  have hdir := InputContext.linkDir_eq (c := h.context) (r.plain _ r.source_mem).1
  have hstand : linked.Standing (h.context.linkDir (h.name, h.source)) := by
    rw [hdir]
    refine r.standing.concat ?_
    rw [r.dirs, if_pos (GoMap.mem_of_lookup r.resolved)]
  unfold held
  rw [base_text, readAt_text, readAt_link hstand ?_ (r.keeps_standing hs) (r.keeps hm)]
  · rfl
  · rw [r.source_child, if_pos (GoMap.mem_of_lookup hm)]

/-- What is delivered of copies of different base names. -/
theorem files_held (r : h.Runs start written ready linked) {args : Inputs}
    (hargs : scanInputs h.context.workDir linked = .ok args) (hs : written.Standing h.out)
    (hnames : ∀ n : FileName, h.out ++ [n] ∈ written ↔ n.1 ∈ h.value.paths.map base)
    (hn : (h.value.paths.map base).Nodup)
    (hc : Copied h.cwd h.out start written h.value.paths) :
    ∃ entry, args.lookup h.name = some entry ∧
      (entry.files.map (held linked h.context.workDir)).Perm
        (h.value.paths.map (held start h.cwd)) := by
  obtain ⟨l, hl, -, hmem, entry, hentry, hfiles⟩ := r.source_entry hargs
  refine ⟨entry, hentry, ?_⟩
  let copy : String → String × Option String := fun s =>
    (s, if hp : PlainName s then written.readFile (h.out ++ [⟨s, hp⟩]) else none)
  have hcopies : h.value.paths.map (held start h.cwd) = (h.value.paths.map base).map copy := by
    rw [List.map_map]
    refine List.map_congr_left fun path hpath => ?_
    obtain ⟨s, hp, hread, hcopy⟩ := hc.copies path hpath
    simp [held, copy, hread, hp, readFile, hcopy, Except.toOption]
  have hlinks : l.map (fun m => held linked h.context.workDir
      (text (h.context.linkDir (h.name, h.source) ++ [m]))) = (l.map Subtype.val).map copy := by
    rw [List.map_map]
    refine List.map_congr_left fun m hm => ?_
    obtain ⟨path, hpath, hbase⟩ := List.mem_map.mp ((hnames m).mp ((hmem m).mp hm))
    obtain ⟨s, hp, -, hcopy⟩ := hc.copies path hpath
    have hm' : (⟨base path, hp⟩ : FileName) = m := Subtype.ext hbase
    rw [hm'] at hcopy
    rw [r.held_link hs hcopy]
    have hplain := m.2
    simp [copy, hplain, readFile, hcopy]
  have hperm : (l.map Subtype.val).Perm (h.value.paths.map base) := by
    refine (List.perm_ext_iff_of_nodup (hl.map Subtype.val_injective) hn).mpr fun s => ?_
    constructor
    · intro hs
      obtain ⟨m, hm, rfl⟩ := List.mem_map.mp hs
      exact (hnames m).mp ((hmem m).mp hm)
    · intro hs
      obtain ⟨path, hpath, rfl⟩ := List.mem_map.mp hs
      obtain ⟨-, hp, -⟩ := hc.copies path hpath
      exact List.mem_map.mpr ⟨⟨base path, hp⟩, (hmem _).mpr ((hnames _).mpr hs), rfl⟩
  rw [hcopies]
  refine (hfiles.map _).trans ?_
  rw [List.map_map]
  exact hlinks ▸ hperm.map copy

theorem delivers_of_fits (r : h.Runs start written ready linked) (hfits : h.value.Fits) :
    h.Delivers start linked := by
  obtain ⟨hdir, hn, hne⟩ := hfits.spec
  obtain ⟨d, hw, rfl⟩ := r.writeTo
  obtain ⟨hwritten, hnames⟩ := written_writeTo hdir r.inPlace hw
  have hc := copied_writeTo (d := ⟨start, none⟩) hdir r.inPlace hn r.value.read hw
  obtain ⟨path, hpath⟩ := List.exists_mem_of_ne_nil _ hne
  obtain ⟨-, hp, -⟩ := hc.copies path hpath
  obtain ⟨args, hargs⟩ := r.scans (m := ⟨base path, hp⟩) ((hnames _).mpr (List.mem_map_of_mem hpath))
  obtain ⟨entry, hentry, hperm⟩ := r.files_held hargs hwritten.standing hnames hn hc
  obtain ⟨w, hinput, hsame⟩ := input_same hdir hentry hperm
  exact ⟨args, w, hargs, hinput, hsame⟩

/-- What is delivered fits. -/
theorem fits_of_delivers (r : h.Runs start written ready linked) (hd : h.Delivers start linked) :
    h.value.Fits := by
  obtain ⟨args, v, hargs, hinput, hsame⟩ := hd
  cases hv : h.value with
  | file path => trivial
  | directory path =>
    rw [hv] at hinput
    exact absurd hinput (input_directory v)
  | collection paths =>
    have hdir : ∀ path, h.value ≠ .directory path := by simp [hv]
    obtain ⟨l, hl, hne, hmem, entry, hentry, hfiles⟩ := r.source_entry hargs
    obtain ⟨d, hw, rfl⟩ := r.writeTo
    obtain ⟨-, hnames⟩ := written_writeTo hdir r.inPlace hw
    rw [hv] at hinput hsame hnames
    rw [show Value.shape (.collection paths) = .collection from rfl, input_collection hentry] at hinput
    obtain rfl := Except.ok.inj hinput
    have hlen : (paths.map base).length = (l.map Subtype.val).length := by
      have hsame := hsame.length_eq
      have hfiles := hfiles.length_eq
      simp only [List.length_map] at hsame hfiles ⊢
      rw [← hsame, hfiles]
    have hsub : (l.map Subtype.val).Subperm (paths.map base) := by
      refine List.subperm_of_subset (hl.map Subtype.val_injective) fun s hs => ?_
      obtain ⟨m, hm, rfl⟩ := List.mem_map.mp hs
      exact (hnames m).mp ((hmem m).mp hm)
    have hperm := hsub.perm_of_length_le hlen.le
    refine ⟨?_, hperm.nodup_iff.mp (hl.map Subtype.val_injective)⟩
    rintro rfl
    have hlen' : l.length = 0 := by simpa using hlen.symm
    exact hne (List.eq_nil_of_length_eq_zero hlen')

end Handover.Runs

/-- A value is handed over if and only if it is a file, or a collection of some paths with
different base names. -/
theorem delivers_iff {h : Handover} {start written ready linked : FileSystem}
    (r : h.Runs start written ready linked) : h.Delivers start linked ↔ h.value.Fits :=
  ⟨r.fits_of_delivers, r.delivers_of_fits⟩

end Block
end Spade

namespace Spade.Block
open Samples Uuid FileSystem Path

/-- Two files of one name, in two directories. -/
def twoFiles : FileSystem :=
  (((((∅ : FileSystem).insert (Path.join [] "data") .dir).insert (Path.join [] "data/a") .dir).insert
    (Path.join [] "data/b") .dir).insert (Path.join [] "data/a/x.txt") (.file "1")).insert
    (Path.join [] "data/b/x.txt") (.file "2")

/-- The first block of the chain hands a value over to the second. -/
def chainHandover (value : Value) : Handover where
  value := value
  cwd := []
  depth := 4
  out := stepFile.dropLast
  context := stepContext
  yamlExpansion := fun _ => none
  order := .stored
  resolved := stepInputs
  name := "data"
  source := ⟨"data", blockID 1, "out", { type := "file" }⟩

def chainWritten (value : Value) : Disk.Result :=
  value.writeTo [] 4 stepFile.dropLast ⟨twoFiles, none⟩

def chainReady (value : Value) : Disk.Result :=
  createBlockDirectory stepContext.invocation.invocationID stepContext.pipelineDir
    ⟨Disk.left (chainWritten value), none⟩

def chainLinked (value : Value) : Disk.Result :=
  stepContext.setupInputSymlinks (fun _ => none) .stored stepContext.workDir stepInputs
    ⟨Disk.left (chainReady value), none⟩

theorem ok_of_isOk {r : Disk.Result} (h : r.isOk = true) : ∃ d, r = .ok d ∧ d.fs = Disk.left r := by
  cases r with
  | ok d => exact ⟨d, rfl, rfl⟩
  | error stop => cases h

/-- The steps go through, in a directory that is new, and keep what was written. -/
def ChainSteps (value : Value) : Prop :=
  (chainWritten value).isOk = true ∧ (chainReady value).isOk = true ∧
  (chainLinked value).isOk = true ∧
  (∀ p ∈ (Disk.left (chainWritten value)).keys, ¬stepContext.workDir <+: p) ∧
  (∀ e ∈ (Disk.left (chainWritten value)).items,
    (Disk.left (chainReady value)).lookup e.1 = some e.2) ∧
  ∀ p ∈ (Disk.left (chainReady value)).keys, stepFile.dropLast <+: p →
    p ∈ Disk.left (chainWritten value)

instance (value : Value) : Decidable (ChainSteps value) := by
  unfold ChainSteps
  infer_instance

theorem chain_runs {value : Value} (hv : value.Exists [] twoFiles) (hs : ChainSteps value) :
    (chainHandover value).Runs twoFiles (Disk.left (chainWritten value))
      (Disk.left (chainReady value)) (Disk.left (chainLinked value)) := by
  obtain ⟨hw, hr, hl, hfresh, hkept, hnew⟩ := hs
  have hempty : ∀ p ∈ twoFiles.keys, ¬stepFile.dropLast <+: p := by decide
  have hplain : ∀ e ∈ stepInputs.items, PlainName e.1 ∧ PlainName e.2.sourceOutputName ∧
      e.1 = "data" := by decide
  have hdir : stepContext.sourceDir ⟨"data", blockID 1, "out", { type := "file" }⟩ ∅ =
      stepFile.dropLast := by decide
  exact {
    value := hv
    inPlace := .inr fun n _ hn => absurd (List.prefix_append _ _)
      (hempty (stepFile.dropLast ++ [n]) (AList.mem_keys.mp (GoMap.mem_of_lookup hn)))
    writeTo := ok_of_isOk hw
    kept := fun p node hp => hkept (p, node) ((GoMap.mem_items _ _ _).mpr hp)
    unchanged := fun n hn => hnew _ (AList.mem_keys.mp hn) (List.prefix_append _ _)
    made := by
      obtain ⟨d, hd, hdfs⟩ := ok_of_isOk hr
      rw [← hdfs]
      refine InputContext.made_create (d := ⟨Disk.left (chainWritten value), none⟩)
        InputContext.plainIDs (fun q hq => ?_) hd
      rw [AList.lookup_eq_none]
      exact fun hmem => hfresh q (AList.mem_keys.mp hmem) hq
    plain := fun e he => ⟨(hplain e he).1, (hplain e he).2.1⟩
    resolved := rfl
    default := ⟨fun h => absurd rfl h, fun h => by cases h⟩
    sourceDir := hdir
    others := fun e he hne => absurd (hplain e he).2.2 hne
    symlinks := ok_of_isOk hl }

theorem delivers_single : (chainHandover (.collection ["/data/a/x.txt"])).Delivers twoFiles
    (Disk.left (chainLinked (.collection ["/data/a/x.txt"]))) ↔
      Value.Fits (.collection ["/data/a/x.txt"]) := by
  refine delivers_iff (chain_runs (fun path hp => ?_) (by decide))
  rw [List.mem_singleton.mp hp]
  exact ⟨"1", by decide⟩

/-- Of two files of one name the first is lost, and a directory is not read at all. -/
theorem delivers_fails :
    ((chainHandover (.collection ["/data/a/x.txt", "/data/b/x.txt"])).Runs twoFiles
      (Disk.left (chainWritten (.collection ["/data/a/x.txt", "/data/b/x.txt"])))
      (Disk.left (chainReady (.collection ["/data/a/x.txt", "/data/b/x.txt"])))
      (Disk.left (chainLinked (.collection ["/data/a/x.txt", "/data/b/x.txt"]))) ∧
    ¬(chainHandover (.collection ["/data/a/x.txt", "/data/b/x.txt"])).Delivers twoFiles
      (Disk.left (chainLinked (.collection ["/data/a/x.txt", "/data/b/x.txt"])))) ∧
    (chainHandover (.directory "/data/a")).Runs twoFiles
      (Disk.left (chainWritten (.directory "/data/a")))
      (Disk.left (chainReady (.directory "/data/a")))
      (Disk.left (chainLinked (.directory "/data/a"))) ∧
    ¬(chainHandover (.directory "/data/a")).Delivers twoFiles
      (Disk.left (chainLinked (.directory "/data/a"))) := by
  have hread : Value.Exists [] twoFiles (.collection ["/data/a/x.txt", "/data/b/x.txt"]) := by
    intro path hp
    rcases List.mem_pair.mp hp with rfl | rfl
    · exact ⟨"1", by decide⟩
    · exact ⟨"2", by decide⟩
  have hdir : twoFiles.stat (absolute [] "/data/a") = .ok .dir := by decide
  have htwo := chain_runs hread (by decide +kernel)
  have hone := chain_runs (show Value.Exists [] twoFiles (.directory "/data/a") from hdir)
    (by decide +kernel)
  exact ⟨⟨htwo, fun hd => absurd (htwo.fits_of_delivers hd).2 (by decide)⟩,
    hone, hone.fits_of_delivers⟩

end Spade.Block
