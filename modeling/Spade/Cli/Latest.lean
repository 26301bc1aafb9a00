import Spade.Cli.Registry
import Spade.Core.InvocationParsers
import Spade.Lib.Words

set_option autoImplicit false

/-!
# The version that a lookup takes

Without a version, the registry takes the row whose version is last as a text. The text order of
dotted versions is that of their components as texts, in which `9` comes after `10`.
-/
namespace Spade.Cli
open Words FileSystem Path

def versionParts (version : String) : List (List Char) := version.toList.splitOn '.'

/-- A version is made of numerals with dots between them. -/
def DottedVersion (version : String) : Prop := ∀ part ∈ versionParts version, Decimal part

instance (version : String) : Decidable (DottedVersion version) :=
  inferInstanceAs (Decidable (∀ part ∈ versionParts version, Decimal part))

def versionNumbers (version : String) : List ℕ := (versionParts version).map decimalValue

/-- The versions that are registered for a block. -/
def registeredVersions (rows : List BlockRegistryEntry) (name : String) : List String :=
  (rows.filter fun row => row.blockID = name).map BlockRegistryEntry.collectionVersion

/-- If the block is registered at all, the lookup finds a row of it with the greatest version. -/
def FindsLatest (rows : List BlockRegistryEntry) (name : String) : Prop :=
  registeredVersions rows name ≠ [] → ∃ entry ∈ rows, entry.blockID = name ∧
    lookupBlock rows name "" = some entry ∧
    ∀ w ∈ registeredVersions rows name, versionNumbers w ≤ versionNumbers entry.collectionVersion

/-- One of the versions is the greatest both by the texts and by the numbers of its parts. -/
def GreatestBothWays (versions : List String) : Prop :=
  versions ≠ [] → ∃ v ∈ versions, ∀ w ∈ versions,
    versionParts w ≤ versionParts v ∧ versionNumbers w ≤ versionNumbers v

/-- A row of a block that is installed in some version. -/
def installedRow (version : String) : BlockRegistryEntry where
  collectionName := "gdal"
  collectionVersion := version
  blockName := "clip"
  blockID := "gdal.clip"
  language := .go
  installedPath := []
  contentHash := "0"
  kind := .standard

/-! The order of version texts. -/

theorem dot_le_of_mem_digits {part : List Char} (h : Decimal part) : ∀ c ∈ part, '.' ≤ c := by
  intro c hc
  have hdigit := List.all_eq_true.mp h.2 c hc
  rw [Char.isDigit, Bool.and_eq_true, decide_eq_true_eq] at hdigit
  exact (show ('.' : Char) ≤ '0' by decide).trans hdigit.1

theorem DottedVersion.dot_le {version : String} (h : DottedVersion version) :
    ∀ c ∈ version.toList, '.' ≤ c := by
  intro c hc
  have hparts : c = '.' ∨ ∃ part ∈ versionParts version, c ∈ part := mem_splitOn hc
  obtain rfl | ⟨part, hpart, hmem⟩ := hparts
  · exact le_refl _
  · exact dot_le_of_mem_digits (h part hpart) c hmem

theorem versionParts_le {v w : String} (hv : DottedVersion v) (hw : DottedVersion w) :
    versionParts v ≤ versionParts w ↔ v ≤ w := by
  rw [String.le_iff_toList_le]
  exact splitOn_le_splitOn hv.dot_le hw.dot_le

/-! What the lookup takes. -/

variable {rows : List BlockRegistryEntry} {name : String}

theorem mem_registeredVersions {version : String} : version ∈ registeredVersions rows name ↔
    ∃ row ∈ rows, row.blockID = name ∧ row.collectionVersion = version := by
  simp only [registeredVersions, List.mem_map, List.mem_filter, decide_eq_true_eq, and_assoc]

/-- A registered block is found, with a version that no other of its versions follows. -/
theorem lookupBlock_last (h : registeredVersions rows name ≠ []) : ∃ entry ∈ rows,
    entry.blockID = name ∧ lookupBlock rows name "" = some entry ∧
      ∀ w ∈ registeredVersions rows name, w ≤ entry.collectionVersion := by
  let later (a b : BlockRegistryEntry) : Prop := b.collectionVersion ≤ a.collectionVersion
  have htotal : Std.Total later := ⟨fun a b => le_total b.collectionVersion a.collectionVersion⟩
  have htrans : IsTrans BlockRegistryEntry later := ⟨fun _ _ _ hab hbc => hbc.trans hab⟩
  set named := rows.filter fun row => row.blockID = name with hnamed
  have hsorted := List.pairwise_insertionSort later named
  have hperm := List.perm_insertionSort later named
  cases hs : named.insertionSort later with
  | nil =>
    rw [hs] at hperm
    exact absurd (by rw [registeredVersions, ← hnamed, hperm.nil_eq.symm, List.map_nil]) h
  | cons entry rest =>
    rw [hs] at hperm hsorted
    have hentry := List.mem_filter.mp (hperm.mem_iff.mp List.mem_cons_self)
    refine ⟨entry, hentry.1, of_decide_eq_true hentry.2, ?_, fun w hw => ?_⟩
    · unfold lookupBlock
      rw [if_neg (not_not.mpr rfl), ← hnamed, hs, List.head?_cons]
    · obtain ⟨row, hrow, rfl⟩ := List.mem_map.mp hw
      obtain rfl | hrest := List.mem_cons.mp (hperm.mem_iff.mpr hrow)
      · exact le_refl _
      · exact List.rel_of_pairwise_cons hsorted hrest

theorem findsLatest_iff (h : ∀ w ∈ registeredVersions rows name, DottedVersion w) :
    FindsLatest rows name ↔ GreatestBothWays (registeredVersions rows name) := by
  constructor
  · intro hlatest hne
    obtain ⟨entry, hentry, hid, hlookup, hgreatest⟩ := hlatest hne
    obtain ⟨last, -, -, hlast, hle⟩ := lookupBlock_last hne
    obtain rfl : entry = last := Option.some.inj (hlookup.symm.trans hlast)
    have hmem := mem_registeredVersions.mpr ⟨entry, hentry, hid, rfl⟩
    exact ⟨entry.collectionVersion, hmem,
      fun w hw => ⟨(versionParts_le (h w hw) (h _ hmem)).mpr (hle w hw), hgreatest w hw⟩⟩
  · intro hboth hne
    obtain ⟨v, hv, hgreatest⟩ := hboth hne
    obtain ⟨entry, hentry, hid, hlookup, hle⟩ := lookupBlock_last hne
    have hmem := mem_registeredVersions.mpr ⟨entry, hentry, hid, rfl⟩
    have heq : entry.collectionVersion = v := le_antisymm
      ((versionParts_le (h _ hmem) (h v hv)).mp (hgreatest _ hmem).1) (hle v hv)
    refine ⟨entry, hentry, hid, hlookup, fun w hw => ?_⟩
    rw [heq]
    exact (hgreatest w hw).2

theorem findsLatest_three :
    FindsLatest [installedRow "1.2", installedRow "1.10", installedRow "2.0.1"] "gdal.clip" ↔
      GreatestBothWays ["1.2", "1.10", "2.0.1"] :=
  @findsLatest_iff [installedRow "1.2", installedRow "1.10", installedRow "2.0.1"] "gdal.clip"
    (by decide)

/-- Of the versions 9.0 and 10.0 the first one is found. -/
theorem findsLatest_fails :
    (∀ w ∈ registeredVersions [installedRow "9.0", installedRow "10.0"] "gdal.clip",
      DottedVersion w) ∧
    lookupBlock [installedRow "9.0", installedRow "10.0"] "gdal.clip" "" =
      some (installedRow "9.0") ∧
    ¬FindsLatest [installedRow "9.0", installedRow "10.0"] "gdal.clip" := by
  have hlookup : lookupBlock [installedRow "9.0", installedRow "10.0"] "gdal.clip" "" =
      some (installedRow "9.0") := by decide
  refine ⟨by decide, hlookup, fun h => ?_⟩
  obtain ⟨entry, -, -, hentry, hle⟩ := h (by decide)
  have heq : installedRow "9.0" = entry := Option.some.inj (hlookup.symm.trans hentry)
  rw [← heq] at hle
  exact absurd (hle "10.0" (by decide)) (by decide)

end Spade.Cli
