import Spade.Block.Agreement
import Spade.Runner.Gather

set_option autoImplicit false

/-!
# The order in which a reduce block reads its inputs

The gathered links are sorted as texts, in which the index 10 comes before the index 1 and its
underscore.
-/
namespace Spade
open UUIDPackage

namespace InputContext

theorem gatheredName_plain (x : ℕ × FileName) : PlainName (gatheredName x) := by
  refine plain_of_mem (c := '_') ?_ (by decide) ?_
  · simp [gatheredName]
  · have hidx := slash_not_mem_itoa (x.1 : ℤ)
    have hname := x.2.2.2.2.2
    simp [gatheredName, hidx, hname]

def gatheredFile (x : ℕ × FileName) : FileName := ⟨gatheredName x, gatheredName_plain x⟩

theorem gatheredName_toList (x : ℕ × FileName) :
    (gatheredName x).toList = (itoa (x.1 : ℤ)).toList ++ '_' :: x.2.1.toList := by
  simp [gatheredName]

theorem itoa_digit {i : ℕ} (h : i < 10) : (itoa i).toList = [Nat.digitChar i] := by
  have hi : (itoa i).toList = Nat.toDigits 10 i := Nat.toList_repr
  rw [hi, Nat.toDigits_of_lt_base h]

/-- Indices of one digit are in order as texts. -/
theorem gathered_lt {x y : ℕ × FileName} (h : x.1 < y.1) (hy : y.1 < 10) :
    gatheredName x < gatheredName y := by
  have hdigits : ∀ j < 10, ∀ i < j, Nat.digitChar i < Nat.digitChar j := by decide
  rw [String.lt_iff_toList_lt, gatheredName_toList, gatheredName_toList, itoa_digit (h.trans hy),
    itoa_digit hy]
  exact List.cons_lt_cons_iff.mpr (.inl (hdigits y.1 hy x.1 h))

theorem ten_lt_one (f g : FileName) : gatheredName (10, f) < gatheredName (1, g) := by
  have hten : (itoa (10 : ℕ)).toList = ['1', '0'] := by decide
  have hone : (itoa (1 : ℕ)).toList = ['1'] := by decide
  rw [String.lt_iff_toList_lt, gatheredName_toList, gatheredName_toList, hten, hone]
  exact List.cons_lt_cons_iff.mpr (.inr ⟨rfl, List.cons_lt_cons_iff.mpr (.inl (by decide))⟩)

/-- The links of the first so many indices are in order up to the index 9. -/
theorem gathered_pairwise (f : ℕ → FileName) (N : ℕ) :
    ((List.range N).map fun i => gatheredFile (i, f i)).Pairwise (fun a b => a.1 ≤ b.1) ↔ N ≤ 10 := by
  rw [List.pairwise_map]
  constructor
  · intro h
    by_contra hN
    have hget := List.pairwise_iff_getElem.mp h 1 10 (by simp; omega) (by simp; omega) (by omega)
    rw [List.getElem_range, List.getElem_range] at hget
    exact absurd (ten_lt_one (f 10) (f 1)) (not_lt.mpr hget)
  · intro hN
    refine List.pairwise_lt_range.imp_of_mem fun hi hj hij => ?_
    have hj' := List.mem_range.mp hj
    exact (gathered_lt hij (show _ < 10 by omega)).le

variable [UUIDPackage] {c : InputContext} {base : FileSystem} {ri : ResolvedInput} {N : ℕ}
  {f : ℕ → FileName}

/-- The first `N` mapped invocations of the source are those that there are, and each of them
has put out one file. -/
structure OneEach (c : InputContext) (base : FileSystem) (ri : ResolvedInput) (N : ℕ)
    (f : ℕ → FileName) : Prop where
  sibling : ∀ i, c.HasSibling base ri i ↔ i < N
  standing : ∀ i < N, base.Standing (c.outDir (ri.sibling i) ri)
  read : ∀ i < N, base.readDir (c.outDir (ri.sibling i) ri) = some [f i]
  file : ∀ i < N, ∃ s, base.lookup (c.outDir (ri.sibling i) ri ++ [f i]) = some (.file s)

theorem OneEach.gathered (h : c.OneEach base ri N f) {x : ℕ × FileName} :
    x ∈ c.gathered base ri ↔ x.1 < N ∧ x.2 = f x.1 := by
  constructor
  · rintro ⟨hsib, entries, hread, hmem⟩
    have hlt := (h.sibling x.1).mp hsib
    rw [h.read x.1 hlt] at hread
    obtain rfl := Option.some.inj hread
    exact ⟨hlt, List.mem_singleton.mp hmem⟩
  · rintro ⟨hlt, hx⟩
    exact ⟨(h.sibling x.1).mpr hlt, [f x.1], h.read x.1 hlt, List.mem_singleton.mpr hx⟩

/-- What a mapped invocation has put out stands after the links are made. -/
theorem standing_outDir {es : List (String × ResolvedInput)} {fs : FileSystem}
    {yamlExpansion : String → Option ExpansionManifest} (hids : PlainIDs)
    (hr : c.Reached yamlExpansion base es fs) {dir : String} (hdir : PlainName dir)
    (hri : PlainName ri.sourceOutputName) (h : base.Standing (c.outDir dir ri)) :
    fs.Standing (c.outDir dir ri) := by
  intro q hq hp
  rw [hr.outside q, h q hq hp]
  intro hb
  obtain ⟨n, -, hn⟩ := workDir_eq (c := c) hids
  have hout := outDir_eq (c := c) hdir hri
  have hlen : q.length = (c.outDir dir ri).length := by
    refine le_antisymm hp.length_le ?_
    have hlt := hb.1.length_le.lt_of_ne fun heq => hb.2 (hb.1.eq_of_length heq).symm
    rw [hn] at hlt
    rw [hout]
    simp at hlt ⊢
    omega
  rw [hp.eq_of_length hlen, hout] at hb
  exact not_below_out hids _ _ hb

variable {e : String × ResolvedInput} {d : Disk} {resolved : GoMap String ResolvedInput}
  {yamlExpansion : String → Option ExpansionManifest} {σ : MapOrder}

/-- The directory of an input stands after the links are made. -/
theorem standing_linkDir (hids : PlainIDs) (hm : c.Made base)
    (hplain : ∀ e ∈ resolved.items, PlainName e.1 ∧ PlainName e.2.sourceOutputName)
    (h : c.setupInputSymlinks yamlExpansion σ c.workDir resolved ⟨base, none⟩ = .ok d)
    (he : e ∈ resolved.items) : d.fs.Standing c.inputsDir ∧ d.fs.Standing (c.linkDir e) := by
  obtain ⟨l, hl, -, -⟩ := (setup_iff hids hm hplain).mp ⟨d, h⟩ e he
  obtain ⟨names, hread, -, -⟩ := setup_names hids hm hplain h he hl
  have hdir : d.fs.isDir (c.linkDir e) = true := by
    unfold FileSystem.readDir at hread
    split_ifs at hread with hd
    exact hd
  have hr := setup_reached hids hm hplain h
  have hinputs : d.fs.Standing c.inputsDir := fun q hq hp =>
    (hr.outside q (not_below_above hp)).trans (hm.dirs q hq hp)
  have hlink := linkDir_eq (c := c) (hplain e he).1
  rw [hlink] at hdir ⊢
  exact ⟨hinputs, hinputs.concat (by simpa [FileSystem.isDir] using hdir)⟩

end InputContext

namespace Block
open FileSystem Path

inductive StackError where
  | read (e : ReadError)
  | emptyCollection

/-- The tables that `reduce_stack` stacks, in their order; its input is named `tables`. -/
def stackedPaths (args : Inputs) (name : String) : Except StackError (List String) :=
  match input args name .collection with
  | .error e => .error (.read e)
  | .ok tables =>
    let paths := tables.paths.insertionSort (· ≤ ·)
    if paths = [] then .error .emptyCollection else .ok paths

theorem stackedPaths_eq {args : Inputs} {name : String} {entry : InputEntry}
    (h : args.lookup name = some entry) :
    stackedPaths args name = .ok (entry.files.insertionSort (· ≤ ·)) := by
  unfold stackedPaths
  rw [input_collection h]
  dsimp only [Value.paths]
  rw [if_neg]
  intro hnil
  have hlen := congrArg List.length hnil
  rw [List.length_insertionSort] at hlen
  exact entry.files_ne (List.eq_nil_of_length_eq_zero hlen)

end Block

namespace InputContext
open Uuid Block FileSystem Path
variable {c : InputContext} {base : FileSystem} {N : ℕ} {f : ℕ → FileName}
  {e : String × ResolvedInput} {d : Disk} {resolved : GoMap String ResolvedInput}
  {yamlExpansion : String → Option ExpansionManifest} {σ : MapOrder}

/-- The files that are read for the input are the links to the outputs. -/
theorem fileNames_gathered (hm : c.Made base) (hholds : c.HoldsInvocations base)
    (hreduce : c.manifest.kind = .reduce) (hidx : c.invocation.mapIndex = none)
    (hplain : ∀ e ∈ resolved.items, PlainName e.1 ∧ PlainName e.2.sourceOutputName)
    (h : c.setupInputSymlinks yamlExpansion σ c.workDir resolved ⟨base, none⟩ = .ok d)
    (he : e ∈ resolved.items) (hN : 0 < N) (hone : c.OneEach base e.2 N f) :
    (fileNames d.fs (c.linkDir e)).Perm ((List.range N).map fun i => gatheredFile (i, f i)) := by
  obtain ⟨names, hread, hbij, hlinks⟩ := (reduce_linksTo plainIDs hm hholds hreduce hidx hplain h he).1
    ⟨0, (hone.sibling 0).mpr hN⟩
  have hr := setup_reached plainIDs hm hplain h
  obtain ⟨-, hstand⟩ := standing_linkDir plainIDs hm hplain h he
  obtain ⟨names', hread', -, hnames⟩ := readDir_some hstand.isDir
  rw [hread] at hread'
  obtain rfl := Option.some.inj hread'
  have hfile : ∀ i < N, d.fs.isFileAt (c.linkDir e ++ [gatheredFile (i, f i)]) = true := by
    intro i hi
    obtain ⟨s, hs⟩ := hone.file i hi
    have hlink := hlinks (i, f i) (hone.gathered.mpr ⟨hi, rfl⟩)
    rw [Path.join_plain (gatheredName_plain _), gatheredTarget, Path.join_plain (f i).2] at hlink
    have hsib := plain_sibling plainIDs e.2 i
    refine isFileAt_iff.mpr ⟨s, readAt_ok.mp (readAt_link hstand hlink
      (standing_outDir plainIDs hr hsib (hplain e he).2 (hone.standing i hi)) ?_)⟩
    rw [hr.outside, hs]
    rw [outDir_eq hsib (hplain e he).2, List.append_assoc]
    exact not_below_out plainIDs _ _
  have hinj : Function.Injective fun i => gatheredFile (i, f i) := by
    intro i j hij
    exact congrArg Prod.fst (gatheredName_injective (congrArg Subtype.val hij))
  refine (List.perm_ext_iff_of_nodup ?_ (List.nodup_range.map hinj)).mpr fun n => ?_
  · exact (byName_perm _).nodup_iff.mpr ((namesIn_nodup _ _).filter _)
  · rw [mem_fileNames, (namesIn_real hstand).2, ← hnames, List.mem_map]
    constructor
    · rintro ⟨hn, -⟩
      obtain ⟨x, hx, hxn⟩ := hbij.surjOn ⟨n, hn, rfl⟩
      obtain ⟨hlt, hxf⟩ := hone.gathered.mp hx
      refine ⟨x.1, List.mem_range.mpr hlt, Subtype.ext ?_⟩
      rw [← hxf]
      exact hxn
    · rintro ⟨i, hi, rfl⟩
      have hlt := List.mem_range.mp hi
      obtain ⟨n, hn, hname⟩ := hbij.mapsTo (hone.gathered (x := (i, f i)).mpr ⟨hlt, rfl⟩)
      exact ⟨(Subtype.ext hname : n = gatheredFile (i, f i)) ▸ hn, hfile i hlt⟩

/-- What is stacked are the files of the input, sorted. -/
theorem stackedPaths_scanned (hm : c.Made base)
    (hplain : ∀ e ∈ resolved.items, PlainName e.1 ∧ PlainName e.2.sourceOutputName)
    (h : c.setupInputSymlinks yamlExpansion σ c.workDir resolved ⟨base, none⟩ = .ok d)
    (he : e ∈ resolved.items) {args : Inputs}
    (hargs : Rust.scanInputsFrom c.workDir d.fs = .ok args) : stackedPaths args e.1 =
      .ok (pathsIn (c.linkDir e) (byName (fileNames d.fs (c.linkDir e)))) := by
  obtain ⟨hinputs, hstand⟩ := standing_linkDir plainIDs hm hplain h he
  have hlink : c.workDir.join "inputs" ++ [⟨e.1, (hplain e he).1⟩] = c.linkDir e :=
    (linkDir_eq (hplain e he).1).symm
  obtain ⟨entry, hentry, hfiles⟩ := ((Rust.scans hinputs).2 args hargs).found ⟨e.1, (hplain e he).1⟩
    (hlink ▸ Standing.isDirAt hstand)
  rw [hlink] at hfiles
  rw [stackedPaths_eq hentry, hfiles, pathsIn_sorted]

theorem sorted_gathered_iff {l : List FileName}
    (hperm : l.Perm ((List.range N).map fun i => gatheredFile (i, f i))) :
    byName l = ((List.range N).map fun i => gatheredFile (i, f i)) ↔ N ≤ 10 := by
  have hsort : byName l = byName ((List.range N).map fun i => gatheredFile (i, f i)) := by
    refine List.Perm.eq_of_pairwise (fun a b _ _ hab hba => Subtype.ext (le_antisymm hab hba))
      (byName_sorted _) (byName_sorted _) ?_
    exact ((byName_perm _).trans hperm).trans (byName_perm _).symm
  rw [hsort, ← gathered_pairwise f N]
  constructor
  · intro heq
    exact heq ▸ byName_sorted _
  · exact fun hsorted => hsorted.insertionSort_eq

theorem gathered_paths (dir : Path) (f : ℕ → FileName) (N : ℕ) :
    ((List.range N).map fun i => (dir.join (gatheredName (i, f i))).text) =
      pathsIn dir ((List.range N).map fun i => gatheredFile (i, f i)) := by
  rw [pathsIn, List.map_map]
  refine List.map_congr_left fun i _ => ?_
  rw [Path.join_plain (gatheredName_plain _)]
  rfl

/-- What a reduce block stacks is in the order of the indices if and only if there are at most
ten mapped invocations. -/
theorem reduce_order_iff (yamlExpansion : String → Option ExpansionManifest) (c : InputContext)
    (resolved : GoMap String ResolvedInput) (base : FileSystem) (σ : MapOrder)
    (hreduce : c.manifest.kind = .reduce) (hidx : c.invocation.mapIndex = none)
    (hplain : ∀ e ∈ resolved.items, PlainName e.1 ∧ PlainName e.2.sourceOutputName)
    (hfresh : c.Made base) (hholds : c.HoldsInvocations base) (e : String × ResolvedInput)
    (he : e ∈ resolved.items) (N : ℕ) (f : ℕ → FileName) (hone : c.OneEach base e.2 N f)
    (d : Disk) (h : c.setupInputSymlinks yamlExpansion σ c.workDir resolved ⟨base, none⟩ = .ok d)
    (args : Inputs) (hargs : Rust.scanInputsFrom c.workDir d.fs = .ok args) :
    (∃ paths, stackedPaths args e.1 = .ok paths ∧ (0 < N → paths =
      (List.range N).map fun i => ((c.linkDir e).join (gatheredName (i, f i))).text)) ↔ N ≤ 10 := by
  have hstacked := stackedPaths_scanned hfresh hplain h he hargs
  rcases Nat.eq_zero_or_pos N with rfl | hN
  · exact iff_of_true ⟨_, hstacked, fun h => absurd h (lt_irrefl 0)⟩ (Nat.zero_le 10)
  · have hperm := fileNames_gathered hfresh hholds hreduce hidx hplain h he hN hone
    rw [← sorted_gathered_iff hperm, gathered_paths]
    constructor
    · rintro ⟨paths, hpaths, heq⟩
      rw [hstacked] at hpaths
      exact pathsIn_injective ((Except.ok.inj hpaths).trans (heq hN))
    · exact fun heq => ⟨_, hstacked, fun _ => by rw [heq]⟩

end InputContext
end Spade

namespace Spade.Samples
open Uuid InputContext Block FileSystem

theorem mergeStart_oneEach (N : ℕ) :
    mergeContext.OneEach (mergeStart N) mergeInput N fun _ => partName := by
  have hpart : ∀ i < N, (mergeStart N).lookup (stepOut i ++ [partName]) = some (.file "") := by
    intro i hi
    rw [mergeStart_lookup, if_pos ⟨i, hi, rfl⟩]
  have hstand : ∀ i < N, (mergeStart N).Standing (stepOut i) := by
    intro i hi q hq hp
    rw [mergeStart_lookup, if_neg, if_pos ⟨hq, i, hi, hp⟩]
    rintro ⟨j, -, hj⟩
    exact stepOut_off hp hj
  refine ⟨mergeStart_sibling, hstand, fun i hi => ?_, fun i hi => ⟨"", hpart i hi⟩⟩
  obtain ⟨names, hread, hn, hmem⟩ := readDir_some (hstand i hi).isDir
  change (mergeStart N).readDir (stepOut i) = _
  rw [hread]
  refine congrArg some (List.perm_singleton.mp
    ((List.perm_ext_iff_of_nodup hn (List.nodup_singleton _)).mpr fun n => ?_))
  rw [hmem, List.mem_singleton]
  constructor
  · intro h
    obtain ⟨node, hnode⟩ := GoMap.lookup_of_mem h
    rw [mergeStart_lookup] at hnode
    split_ifs at hnode with hfile hdir hsub
    · obtain ⟨j, -, hj⟩ := hfile
      exact (List.append_inj' hj rfl).2 |> List.singleton_inj.mp
    · obtain ⟨-, j, -, hj⟩ := hdir
      have hlen := hj.length_le
      rw [stepOut_eq, stepOut_eq] at hlen
      simp at hlen
    · obtain ⟨-, sub, hmem, hp⟩ := hsub
      have hlen := hp.length_le.trans (mergeSub sub hmem).2
      rw [stepOut_eq] at hlen
      simp at hlen
  · rintro rfl
    exact GoMap.mem_of_lookup (hpart i hi)

/-- The links of the reduce invocation are made, and it finds its inputs. -/
theorem mergeStart_scanned {N : ℕ} (hN : 0 < N) : ∃ d args,
    mergeContext.setupInputSymlinks (fun _ => none) .stored mergeContext.workDir mergeInputs
      ⟨mergeStart N, none⟩ = .ok d ∧ Rust.scanInputsFrom mergeContext.workDir d.fs = .ok args := by
  have hitem : ("parts", mergeInput) ∈ mergeInputs.items := by
    rw [mergeInputs_items]
    exact List.mem_singleton_self _
  have hfits : ∀ e ∈ mergeInputs.items, mergeContext.Fits (fun _ => none) (mergeStart N) e := by
    intro e he
    rw [mergeInputs_items, List.mem_singleton] at he
    rw [fits_iff plainIDs mergeStart_made mergeStart_holds rfl rfl, he]
    exact .inl ⟨0, (mergeStart_sibling 0).mpr hN⟩
  have hok : ∃ d, mergeContext.setupInputSymlinks (fun _ => none) .stored mergeContext.workDir
      mergeInputs ⟨mergeStart N, none⟩ = .ok d :=
    (setup_iff plainIDs mergeStart_made mergeInputs_plain).mpr hfits
  obtain ⟨d, hd⟩ := hok
  obtain ⟨hinputs, hstand⟩ := standing_linkDir plainIDs mergeStart_made mergeInputs_plain hd hitem
  have hfiles := fileNames_gathered mergeStart_made mergeStart_holds rfl rfl mergeInputs_plain hd hitem hN
    (mergeStart_oneEach N)
  suffices hne : ∀ n, d.fs.isDirAt (mergeContext.inputsDir ++ [n]) = true →
      pathsIn (mergeContext.inputsDir ++ [n]) (fileNames d.fs (mergeContext.inputsDir ++ [n])) ≠ [] by
    obtain ⟨args, hargs⟩ := (Rust.scans hinputs).1.mpr hne
    exact ⟨d, args, hd, hargs⟩
  intro n hn
  have hmem := GoMap.mem_iff_lookup.mp (((namesIn_real hinputs).2 n).mp (mem_of_isDirAt hinputs hn))
  rw [setup_dirs (d := ⟨mergeStart N, none⟩) plainIDs mergeStart_made mergeStart_made.reached
    (fun e he => he) mergeInputs_plain hd n, mergeStart_made.empty _ (below_append (by simp))] at hmem
  split_ifs at hmem with hkey
  · have hparts : n.1 = "parts" := List.mem_singleton.mp hkey
    have hlink : mergeContext.inputsDir ++ [n] = mergeContext.linkDir ("parts", mergeInput) := by
      rw [linkDir_eq (mergeInputs_plain _ hitem).1]
      exact congrArg (fun m => mergeContext.inputsDir ++ [m]) (Subtype.ext hparts)
    rw [hlink, pathsIn_ne]
    intro hnil
    rw [hnil] at hfiles
    have hlen := hfiles.length_eq
    simp at hlen
    omega
  · simp at hmem

end Spade.Samples

namespace Spade.InputContext
open Samples Uuid Block

/-- Ten mapped invocations. -/
theorem reduce_order_ten : ∃ d args, Rust.scanInputsFrom mergeContext.workDir (Disk.fs d) = .ok args ∧
    ((∃ paths, stackedPaths args "parts" = .ok paths ∧ (0 < 10 → paths = (List.range 10).map fun i =>
      ((mergeContext.linkDir ("parts", mergeInput)).join (gatheredName (i, partName))).text)) ↔
        10 ≤ 10) := by
  obtain ⟨d, args, hd, hargs⟩ := mergeStart_scanned (N := 10) (by omega)
  exact ⟨d, args, hargs, reduce_order_iff _ _ _ _ _ rfl rfl mergeInputs_plain mergeStart_made
    mergeStart_holds ("parts", mergeInput) (by rw [mergeInputs_items]; exact List.mem_singleton_self _)
    10 _ (mergeStart_oneEach 10) d hd args hargs⟩

/-- Eleven mapped invocations, which have put out files of one name. -/
theorem reduce_order_fails : ∃ d args,
    mergeContext.setupInputSymlinks (fun _ => none) .stored mergeContext.workDir mergeInputs
      ⟨mergeStart 11, none⟩ = .ok d ∧
    Rust.scanInputsFrom mergeContext.workDir d.fs = .ok args ∧
    mergeContext.OneEach (mergeStart 11) mergeInput 11 (fun _ => partName) ∧
    stackedPaths args "parts" ≠ .ok ((List.range 11).map fun i =>
      ((mergeContext.linkDir ("parts", mergeInput)).join (gatheredName (i, partName))).text) := by
  obtain ⟨d, args, hd, hargs⟩ := mergeStart_scanned (N := 11) (by omega)
  have hitem : ("parts", mergeInput) ∈ mergeInputs.items := by
    rw [mergeInputs_items]
    exact List.mem_singleton_self _
  refine ⟨d, args, hd, hargs, mergeStart_oneEach 11, fun h => ?_⟩
  have hperm := fileNames_gathered mergeStart_made mergeStart_holds rfl rfl mergeInputs_plain hd hitem
    (by omega) (mergeStart_oneEach 11)
  rw [stackedPaths_scanned mergeStart_made mergeInputs_plain hd hitem hargs, gathered_paths] at h
  have hten := (sorted_gathered_iff hperm).mp (pathsIn_injective (Except.ok.inj h))
  omega

end Spade.InputContext
