import Spade.Core.Types
import Spade.Lib.Records
import Mathlib.Data.List.Sort
import Mathlib.Data.String.Basic

set_option autoImplicit false

/-!
# Cache keys

`ComputeCacheKey` and the text that it hashes. The text gives back what it was made of only
together with the lengths of the id, of the version and of the names of the inputs.
-/
namespace Spade.Cache

/-- What a key is computed from; `params` is `none` for a nil map. -/
structure KeyParts where
  blockID : String
  blockVersion : String
  inputHashes : GoMap String String := ∅
  params : Option (GoMap String Value) := none

/-- What the `runtime` package says of the program that runs. -/
structure Runtime where
  version : String
  goos : String
  goarch : String

/-- The names of the inputs as they are hashed. -/
def inputNames (inputHashes : GoMap String String) : List String :=
  inputHashes.keys.insertionSort (· ≤ ·)

def inputsText (inputHashes : GoMap String String) : String :=
  String.join ((inputNames inputHashes).map fun name =>
    name ++ (inputHashes.lookup name).getD "")

section
variable (yamlMarshal : GoMap String Value → Option String)

/-- Nothing for a nil map. -/
def paramsText (params : Option (GoMap String Value)) : Option String :=
  match params with
  | none => some ""
  | some params => yamlMarshal params

def keyText (runtimeHash : String) (k : KeyParts) : Option String :=
  (paramsText yamlMarshal k.params).map fun params =>
    k.blockID ++ k.blockVersion ++ inputsText k.inputHashes ++ params ++ runtimeHash

def computeRuntimeHash (sha256 : String → String) (r : Runtime) : String :=
  sha256 (r.version ++ r.goos ++ r.goarch)

def computeCacheKey (sha256 : String → String) (r : Runtime) (k : KeyParts) : Option String :=
  (keyText yamlMarshal (computeRuntimeHash sha256 r) k).map sha256

end

/-- The same id, version and input hashes, and params of the same value. -/
structure KeyParts.Same {V : Type} (yamlValue : GoMap String Value → V) (k k' : KeyParts) : Prop where
  blockID : k.blockID = k'.blockID
  blockVersion : k.blockVersion = k'.blockVersion
  inputHashes : ∀ n, k.inputHashes.lookup n = k'.inputHashes.lookup n
  params : k.params.map yamlValue = k'.params.map yamlValue

/-- The lengths of the names of the inputs, in the order in which they are hashed. -/
def nameLengths (inputHashes : GoMap String String) : List ℕ :=
  (inputNames inputHashes).map String.length

/-- The id, the version and the names are as long as each other. -/
def KeyParts.Aligned (k k' : KeyParts) : Prop :=
  k.blockID.length = k'.blockID.length ∧ k.blockVersion.length = k'.blockVersion.length ∧
  nameLengths k.inputHashes = nameLengths k'.inputHashes

section
variable {hashes hashes' : GoMap String String}

def inputRow (hashes : GoMap String String) (n : String) : List Char × List Char :=
  (n.toList, ((hashes.lookup n).getD "").toList)

theorem inputsText_rows : (inputsText hashes).toList =
    Records.text ((inputNames hashes).map (inputRow hashes)) := by
  rw [inputsText, String.toList_join, List.flatMap_map, Records.text, List.flatMap_map]
  simp only [String.toList_append, inputRow]

theorem mem_inputNames {n : String} : n ∈ inputNames hashes ↔ n ∈ hashes := by
  rw [inputNames, List.mem_insertionSort, ← AList.mem_keys]

theorem row_lengths : ((inputNames hashes).map (inputRow hashes)).map (fun r => r.1.length) =
    nameLengths hashes := by
  rw [nameLengths, List.map_map]
  simp only [Function.comp_def, inputRow, String.length_toList]

theorem inputNames_congr (h : ∀ n, hashes.lookup n = hashes'.lookup n) :
    inputNames hashes = inputNames hashes' := by
  have hkeys : hashes.keys.Perm hashes'.keys := by
    apply (List.perm_ext_iff_of_nodup hashes.keys_nodup hashes'.keys_nodup).mpr
    intro n
    rw [← AList.mem_keys, ← AList.mem_keys, GoMap.mem_iff_lookup, GoMap.mem_iff_lookup, h]
  refine List.Perm.eq_of_pairwise (fun n n' _ _ => String.le_antisymm)
    (List.pairwise_insertionSort _ _) (List.pairwise_insertionSort _ _) ?_
  exact ((List.perm_insertionSort _ _).trans hkeys).trans (List.perm_insertionSort _ _).symm

theorem lookup_of_rows
    (h : (inputNames hashes).map (inputRow hashes) = (inputNames hashes').map (inputRow hashes'))
    (n : String) : hashes.lookup n = hashes'.lookup n := by
  have hfst : (inputNames hashes).map String.toList = (inputNames hashes').map String.toList := by
    have hmap := congrArg (List.map Prod.fst) h
    rw [List.map_map, List.map_map] at hmap
    exact hmap
  have hnames := List.map_injective_iff.mpr (fun a b => String.toList_inj.mp) hfst
  have hmem : n ∈ hashes ↔ n ∈ hashes' := by
    rw [← mem_inputNames, hnames, mem_inputNames]
  by_cases hn : n ∈ hashes
  · obtain ⟨x, hx⟩ := GoMap.lookup_of_mem hn
    obtain ⟨x', hx'⟩ := GoMap.lookup_of_mem (hmem.mp hn)
    rw [hnames] at h
    have hrow := (List.map_inj_left.mp h) n (mem_inputNames.mpr (hmem.mp hn))
    obtain ⟨-, hsum⟩ := Prod.mk.inj hrow
    rw [hx, hx', Option.getD_some, Option.getD_some] at hsum
    rw [hx, hx', String.toList_inj.mp hsum]
  · rw [AList.lookup_eq_none.mpr hn, AList.lookup_eq_none.mpr (mt hmem.mpr hn)]

theorem row_width (h : ∀ n x, hashes.lookup n = some x → x.length = 64) :
    ∀ r ∈ (inputNames hashes).map (inputRow hashes), r.2.length = 64 := by
  intro r hr
  obtain ⟨n, hn, rfl⟩ := List.mem_map.mp hr
  obtain ⟨x, hx⟩ := GoMap.lookup_of_mem (mem_inputNames.mp hn)
  rw [inputRow, hx, Option.getD_some, String.length_toList, h n x hx]

end

variable {V : Type} {yamlMarshal : GoMap String Value → Option String}
  {yamlValue : GoMap String Value → V}

/-- What is written of the params gives their value back. -/
theorem params_of_text
    (hinj : ∀ p p' t, yamlMarshal p = some t → yamlMarshal p' = some t → yamlValue p = yamlValue p')
    (hne : ∀ p, yamlMarshal p ≠ some "") {params params' : Option (GoMap String Value)} {t : String}
    (h : paramsText yamlMarshal params = some t) (h' : paramsText yamlMarshal params' = some t) :
    params.map yamlValue = params'.map yamlValue := by
  cases params with
  | none =>
    cases h
    cases params' with
    | none => rfl
    | some p' => exact absurd h' (hne p')
  | some p =>
    cases params' with
    | none =>
      cases h'
      exact absurd h (hne p)
    | some p' =>
      rw [Option.map_some, Option.map_some, hinj p p' t h h']

theorem keyText_iff
    (hinj : ∀ p p' t, yamlMarshal p = some t → yamlMarshal p' = some t → yamlValue p = yamlValue p')
    (hne : ∀ p, yamlMarshal p ≠ some "") {k k' : KeyParts}
    (hk : ∀ n x, k.inputHashes.lookup n = some x → x.length = 64)
    (hk' : ∀ n x, k'.inputHashes.lookup n = some x → x.length = 64) {runtimeHash t : String}
    (h : keyText yamlMarshal runtimeHash k = some t)
    (h' : keyText yamlMarshal runtimeHash k' = some t) :
    k.Same yamlValue k' ↔ k.Aligned k' := by
  constructor
  · intro hsame
    refine ⟨by rw [hsame.blockID], by rw [hsame.blockVersion], ?_⟩
    rw [nameLengths, nameLengths, inputNames_congr hsame.inputHashes]
  · rintro ⟨hid, hversion, hnames⟩
    obtain ⟨params, hp, rfl⟩ := Option.map_eq_some_iff.mp h
    obtain ⟨params', hp', heq⟩ := Option.map_eq_some_iff.mp h'
    have htext := congrArg String.toList heq
    simp only [String.toList_append, List.append_assoc, inputsText_rows] at htext
    obtain ⟨hid, htext⟩ := List.append_inj htext (by rw [String.length_toList, String.length_toList, hid])
    obtain ⟨hversion, htext⟩ := List.append_inj htext 
      (by rw [String.length_toList, String.length_toList, hversion])
    obtain ⟨hrows, htext⟩ := Records.text_append_inj (row_width hk') (row_width hk)
      (by rw [row_lengths, row_lengths, hnames]) htext
    have hparams := String.toList_inj.mp (List.append_cancel_right htext)
    exact {
      blockID := (String.toList_inj.mp hid).symm
      blockVersion := (String.toList_inj.mp hversion).symm
      inputHashes := fun n => (lookup_of_rows hrows n).symm
      params := params_of_text hinj hne hp (hparams ▸ hp') }

/-! Two blocks of one collection. -/

/-- The empty map is all that is marshalled here. -/
def braces (params : GoMap String Value) : Option String :=
  if params.entries.isEmpty then some "{}\n" else none

theorem braces_injective (p p' : GoMap String Value) (t : String) (h : braces p = some t)
    (h' : braces p' = some t) : p.entries = p'.entries := by
  unfold braces at h h'
  split_ifs at h h' with hp hp'
  rw [List.isEmpty_iff.mp hp, List.isEmpty_iff.mp hp']

theorem braces_ne (p : GoMap String Value) : braces p ≠ some "" := by
  unfold braces
  split_ifs <;> decide

def sampleSum : String := "e3b0c44298fc1c149afbf4c8996fb92427ae41e4649b934ca495991b7852b855"

def sampleParts : KeyParts where
  blockID := "gis.clip"
  blockVersion := "1.0.0"
  inputHashes := AList.insert "region" sampleSum ∅
  params := some ∅

theorem keyText_single : sampleParts.Same AList.entries sampleParts := by
  obtain ⟨t, ht⟩ : ∃ t, keyText braces sampleSum sampleParts = some t := ⟨_, rfl⟩
  have hwidth : ∀ n x, sampleParts.inputHashes.lookup n = some x → x.length = 64 := by
    intro n x hx
    have hmem := (GoMap.mem_items _ _ _).mpr hx
    obtain ⟨-, rfl⟩ := Prod.mk.inj (List.mem_singleton.mp hmem)
    decide
  exact (keyText_iff braces_injective braces_ne hwidth hwidth ht ht).mpr ⟨rfl, rfl, rfl⟩

/-- The last digit of an id, or the first one of a version. -/
theorem keyText_fails : ∃ k k' : KeyParts,
    (keyText braces sampleSum k).isSome = true ∧
    keyText braces sampleSum k = keyText braces sampleSum k' ∧ ¬k.Same AList.entries k' :=
  ⟨⟨"gis.clip", "11.0.0", ∅, none⟩, ⟨"gis.clip1", "1.0.0", ∅, none⟩, by decide, by decide,
    fun h => absurd h.blockID (by decide)⟩

end Spade.Cache
