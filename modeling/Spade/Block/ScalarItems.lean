import Spade.Core.InvocationParsers
import Spade.Lib.Numerals
import Spade.Runner.MapReduce
import Spade.Runner.Wire

set_option autoImplicit false

/-!
# The items of a scalar expansion

The files that `materialise_scalar_items` writes for the values of a list
(`blocks/base/src/common.rs`). Their names are the indices, padded to one width.
-/
namespace Spade
open FileSystem

/-- `render` is the text that `serde_json` makes of a value. -/
def stringifyScalar (render : Json → String) : Json → String
  | .string s => s
  | v => render v

def itemsWidth (n : ℕ) : ℕ := max (Nat.log 10 (max n 1) + 1) 2

def itemName (width idx : ℕ) : FileName :=
  ⟨zeroPadded width idx ++ ".json", zeroPadded_plain width idx⟩

def itemsDir (base : Path) : Path :=
  base ++ [outputsName, ⟨"manifest", by decide⟩, ⟨"items", by decide⟩]

def itemBody (render : Json → String) (v : Json) : String := render (.object [("value", v)])

def writeItem (render : Json → String) (dir : Path) (width : ℕ) (fs : FileSystem)
    (e : Json × ℕ) : Option FileSystem :=
  writeFile (itemBody render e.1) (dir ++ [itemName width e.2]) fs

/-- The items and the files; none if a write fails. -/
def writeScalarItems (render : Json → String) (base : Path) (values : List Json)
    (fs : FileSystem) : Option (List ExpansionItem × FileSystem) := do
  let fs ← mkdirAll (itemsDir base) fs
  let fs ← values.zipIdx.foldlM (writeItem render (itemsDir base) (itemsWidth values.length)) fs
  return (materialiseScalarItems (values.map (stringifyScalar render)), fs)

/-- The names of the files of `n` items, in the order of the indices. -/
def itemNames (n : ℕ) : List FileName := (List.range n).map (itemName (itemsWidth n))

/-! Padded indices. -/

theorem lt_pow_itemsWidth {idx n : ℕ} (h : idx < n) : idx < 10 ^ itemsWidth n := by
  have hlog : max n 1 < 10 ^ (Nat.log 10 (max n 1) + 1) :=
    Nat.lt_pow_succ_log_self (by omega) _
  have hpow : 10 ^ (Nat.log 10 (max n 1) + 1) ≤ 10 ^ itemsWidth n :=
    Nat.pow_le_pow_right (by omega) (le_max_left _ _)
  omega

theorem zeroPadded_toList (width n : ℕ) : (zeroPadded width n).toList =
    List.replicate (width - (itoa n).length) '0' ++ (itoa n).toList := by
  simp [zeroPadded]

theorem zeroPadded_length {width n : ℕ} (hwidth : 0 < width) (h : n < 10 ^ width) :
    (zeroPadded width n).toList.length = width := by
  have hdigits : (itoa n).toList = Nat.toDigits 10 n := Nat.toList_repr
  have hle : (itoa n).length ≤ width := by
    rw [← String.length_toList, hdigits]
    exact (Nat.length_toDigits_le_iff (by omega) hwidth).mpr h
  rw [zeroPadded_toList, List.length_append, List.length_replicate, String.length_toList]
  omega

theorem zeroPadded_value (width n : ℕ) : Numerals.value digit 10 (zeroPadded width n).toList = n := by
  rw [zeroPadded_toList, Numerals.value_append, Numerals.value_replicate (by decide), Nat.zero_mul,
    Nat.zero_add]
  exact decimalValue_itoa n

theorem zeroPadded_digits (width n : ℕ) : ∀ c ∈ (zeroPadded width n).toList, c.isDigit = true := by
  intro c hc
  rw [zeroPadded_toList, List.mem_append] at hc
  obtain hc | hc := hc
  · rw [List.eq_of_mem_replicate hc]
    rfl
  · exact List.all_eq_true.mp (itoa_digits n).2 c hc

theorem isDigit_range {c : Char} (h : c.isDigit = true) : 48 ≤ c.toNat ∧ c.toNat ≤ 57 := by
  rw [Char.isDigit, Bool.and_eq_true, decide_eq_true_eq, decide_eq_true_eq] at h
  exact h

theorem digit_strictMonoOn : StrictMonoOn digit {c | c.isDigit = true} := by
  intro c hc c' hc' h
  have hlt : c.toNat < c'.toNat := h
  have hrange := isDigit_range hc
  have hzero : '0'.toNat = 48 := rfl
  unfold digit
  omega

theorem digit_lt : ∀ c ∈ {c : Char | c.isDigit = true}, digit c < 10 := by
  intro c hc
  have hrange := isDigit_range hc
  have hzero : '0'.toNat = 48 := rfl
  unfold digit
  omega

/-- Of two items the one with the smaller index has the earlier name. -/
theorem itemName_lt {i j n : ℕ} (hij : i < j) (hj : j < n) :
    (itemName (itemsWidth n) i).1 < (itemName (itemsWidth n) j).1 := by
  have hwidth : 0 < itemsWidth n := lt_of_lt_of_le (by omega) (le_max_right _ 2)
  rw [itemName, itemName, String.lt_iff_toList_lt, String.toList_append, String.toList_append]
  refine Numerals.append_lt_append digit_strictMonoOn digit_lt (zeroPadded_digits _ i)
    (zeroPadded_digits _ j) ?_ ?_
  · rw [zeroPadded_length hwidth (lt_pow_itemsWidth (hij.trans hj)),
      zeroPadded_length hwidth (lt_pow_itemsWidth hj)]
  · rw [zeroPadded_value, zeroPadded_value]
    exact hij

theorem itemNames_sorted (n : ℕ) : (itemNames n).Pairwise fun a b => a.1 < b.1 := by
  rw [itemNames, List.pairwise_map]
  exact List.pairwise_lt_range.imp_of_mem fun _ hj hij => itemName_lt hij (List.mem_range.mp hj)

theorem itemName_inj {i j n : ℕ} (hi : i < n) (hj : j < n)
    (h : itemName (itemsWidth n) i = itemName (itemsWidth n) j) : i = j := by
  by_contra hne
  obtain hlt | hlt := Nat.lt_or_gt_of_ne hne
  · exact (itemName_lt hlt hj).ne (congrArg Subtype.val h)
  · exact (itemName_lt hlt hi).ne' (congrArg Subtype.val h)

theorem getElem?_itemNames {i n : ℕ} (h : i < n) :
    (itemNames n)[i]? = some (itemName (itemsWidth n) i) := by
  rw [itemNames, List.getElem?_map, List.getElem?_range h]
  rfl

/-! The files. -/

section
variable (render : Json → String) {dir : Path} {fs : FileSystem}

omit render in
theorem standing_insert (h : fs.Standing dir) (m : FileName) (node : Node) :
    FileSystem.Standing (fs.insert (dir ++ [m]) node) dir := by
  refine h.congr fun q hpre => ?_
  rw [GoMap.lookup_insert_if, if_neg]
  rintro rfl
  exact not_below_self [] hpre

/-- Values from index `k` on are written to the files of their indices, and to no others. -/
theorem foldlM_writeItem {n : ℕ} (values : List Json) {k : ℕ} (hk : k + values.length ≤ n)
    (hdir : fs.Standing dir)
    (hnew : ∀ i, k ≤ i → i < n → fs.lookup (dir ++ [itemName (itemsWidth n) i]) = none) :
    ∃ fs', (values.zipIdx k).foldlM (writeItem render dir (itemsWidth n)) fs = some fs' ∧
      fs'.Standing dir ∧
      (∀ q, (∀ i, k ≤ i → i < k + values.length → q ≠ dir ++ [itemName (itemsWidth n) i]) →
        fs'.lookup q = fs.lookup q) ∧
      ∀ i v, values[i]? = some v →
        fs'.lookup (dir ++ [itemName (itemsWidth n) (k + i)]) = some (.file (itemBody render v)) := by
  induction values generalizing k fs with
  | nil => exact ⟨fs, rfl, hdir, fun _ _ => rfl, fun i v h => by cases h⟩
  | cons v values ih =>
    rw [List.length_cons] at hk
    have hwrite := writeFile_child (itemBody render v) hdir (.inl (hnew k le_rfl (by omega)))
    have hother : ∀ i, k + 1 ≤ i → i < n → dir ++ [itemName (itemsWidth n) i] ≠
        dir ++ [itemName (itemsWidth n) k] := by
      intro i hi hin heq
      have hname := List.cons.inj (List.append_cancel_left heq)
      exact absurd (itemName_inj hin (by omega) hname.1) (by omega)
    obtain ⟨fs', hrun, hstanding, hframe, hcontent⟩ := ih (k := k + 1) (by omega)
      (standing_insert hdir (itemName (itemsWidth n) k) (.file (itemBody render v)))
      (fun i hi hin => by
        rw [GoMap.lookup_insert_if, if_neg (hother i hi hin)]
        exact hnew i (by omega) hin)
    refine ⟨fs', ?_, hstanding, fun q hq => ?_, fun i w hw => ?_⟩
    · rw [List.zipIdx_cons, List.foldlM_cons, writeItem, hwrite]
      exact hrun
    · rw [hframe q fun i hi hin => hq i (by omega) (by rw [List.length_cons]; omega),
        GoMap.lookup_insert_if, if_neg (hq k le_rfl (by rw [List.length_cons]; omega))]
    · cases i with
      | zero =>
        obtain rfl := Option.some.inj hw
        rw [Nat.add_zero, hframe _ fun i hi hin => (hother i hi (by omega)).symm,
          GoMap.lookup_insert_if, if_pos rfl]
      | succ i =>
        have hi := hcontent i w hw
        rwa [Nat.add_right_comm] at hi

end

/-- The items are, in the order of their values, those of files whose names are in order. -/
def ItemsInOrder (render : Json → String) (values : List Json) (names : List FileName)
    (items : List ExpansionItem) : Prop :=
  names.length = values.length ∧ names.Pairwise (fun a b => a.1 < b.1) ∧
    items = (names.zip values).map fun e =>
      ⟨"outputs/manifest/items/" ++ e.1.1, stringifyScalar render e.2⟩

/-- The directory of the items can be made, or is there and empty. -/
def NewItems (fs : FileSystem) (base : Path) : Prop :=
  (∀ q, q ≠ [] → q <+: itemsDir base → fs.lookup q = none ∨ fs.lookup q = some .dir) ∧
    ∀ m, itemsDir base ++ [m] ∉ fs

theorem materialised_inOrder (render : Json → String) (values : List Json) :
    ItemsInOrder render values (itemNames values.length)
      (materialiseScalarItems (values.map (stringifyScalar render))) := by
  refine ⟨by rw [itemNames, List.length_map, List.length_range], itemNames_sorted _, ?_⟩
  refine List.ext_getElem? fun i => ?_
  by_cases hi : i < values.length
  · simp [materialiseScalarItems, itemNames, hi, itemName, itemsWidth, String.append_assoc]
  · simp [materialiseScalarItems, itemNames, hi]

/-- The files of the items are distinct, and in the order of their names they are those of the
values in their order. -/
theorem scalarItems_sorted (render : Json → String) (base : Path) (values : List Json) :
    (∀ fs items fs', writeScalarItems render base values fs = some (items, fs') →
      ItemsInOrder render values (itemNames values.length) items) ∧
    ∀ fs, NewItems fs base → ∃ items fs',
      writeScalarItems render base values fs = some (items, fs') ∧
      fs'.readDir (itemsDir base) = some (itemNames values.length) ∧
      ∀ e ∈ (itemNames values.length).zip values,
        fs'.readFile (itemsDir base ++ [e.1]) = some (itemBody render e.2) := by
  constructor
  · intro fs items fs' h
    obtain ⟨fs₁, -, h⟩ := Option.bind_eq_some_iff.mp h
    obtain ⟨fs₂, -, h⟩ := Option.bind_eq_some_iff.mp h
    obtain ⟨rfl, -⟩ := Prod.mk.inj (Option.some.inj h)
    exact materialised_inOrder render values
  · rintro fs ⟨hfree, hnew⟩
    obtain ⟨fs₁, hmade⟩ := mkdirAll_ok hfree
    have hstanding : fs₁.Standing (itemsDir base) := fun q hq hpre => by
      rw [mkdirAll_lookup hmade, if_pos ⟨hq, hpre⟩]
    have hempty : ∀ m, fs₁.lookup (itemsDir base ++ [m]) = none := fun m => by
      rw [mkdirAll_lookup hmade, if_neg fun h => not_below_self [] h.2]
      exact AList.lookup_eq_none.mpr (hnew m)
    obtain ⟨fs', hrun, hdir, hframe, hcontent⟩ := foldlM_writeItem render values (Nat.zero_add _).le
      hstanding fun i _ _ => hempty _
    refine ⟨materialiseScalarItems (values.map (stringifyScalar render)), fs', ?_,
      readDir_of_sorted hdir.isDir (itemNames_sorted _) fun m => ⟨fun hm => ?_, fun hm => ?_⟩,
      fun e he => ?_⟩
    · simp only [writeScalarItems, hmade, Option.bind_eq_bind, Option.bind_some, hrun]
      rfl
    · obtain ⟨i, hi, rfl⟩ := List.mem_map.mp hm
      have hv := List.getElem?_eq_getElem (List.mem_range.mp hi)
      have hfile := hcontent i _ hv
      rw [Nat.zero_add] at hfile
      exact GoMap.mem_of_lookup hfile
    · by_contra hnot
      have hsame := hframe (itemsDir base ++ [m]) fun i _ hi heq => hnot (List.mem_map.mpr
        ⟨i, List.mem_range.mpr (by omega), (List.cons.inj (List.append_cancel_left heq)).1.symm⟩)
      rw [hempty m] at hsame
      exact AList.lookup_eq_none.mp hsame hm
    · obtain ⟨i, hi⟩ := List.mem_iff_getElem?.mp he
      obtain ⟨hname, hv⟩ := List.getElem?_zip_eq_some.mp hi
      have hlt : i < values.length := (List.getElem?_eq_some_iff.mp hv).1
      rw [getElem?_itemNames hlt] at hname
      have hfile := hcontent i _ hv
      rw [Nat.zero_add, Option.some.inj hname] at hfile
      rw [readFile, hfile]

end Spade
