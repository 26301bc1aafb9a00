import Spade.Runner.Job

set_option autoImplicit false

/-!
# What the packages make of argument values

A pipeline's YAML is read into `Value`s, which `encoding/json` writes and reads into `Any`s
on the worker, and which yaml.v3 writes to `params.yaml`.
-/
namespace Spade

/-- A JSON document. -/
inductive Json where
  | null
  | bool (b : Bool)
  | number (i : Int)
  | string (s : String)
  | array (l : List Json)
  | object (l : List (String × Json))

/-- A number in an `any`: an `int`, or a `float64` with an integral value. -/
inductive Number where
  | int (i : Int)
  | float (d : Int)
  deriving DecidableEq

/-- The `any` that a decoder fills in. -/
inductive Any where
  | null
  | bool (b : Bool)
  | number (n : Number)
  | str (s : String)
  | seq (l : List Any)
  | mapping (l : List (Any × Any))

namespace Any

mutual

def mapNumbers (f : Number → Number) : Any → Any
  | null => null
  | bool b => bool b
  | number n => number (f n)
  | str s => str s
  | seq l => seq (mapSeq f l)
  | mapping l => mapping (mapEntries f l)

def mapSeq (f : Number → Number) : List Any → List Any
  | [] => []
  | v :: l => mapNumbers f v :: mapSeq f l

def mapEntries (f : Number → Number) : List (Any × Any) → List (Any × Any)
  | [] => []
  | (k, v) :: l => (mapNumbers f k, mapNumbers f v) :: mapEntries f l

end

mutual

def numbers : Any → List Number
  | null => []
  | bool _ => []
  | number n => [n]
  | str _ => []
  | seq l => numbersSeq l
  | mapping l => numbersEntries l

def numbersSeq : List Any → List Number
  | [] => []
  | v :: l => numbers v ++ numbersSeq l

def numbersEntries : List (Any × Any) → List Number
  | [] => []
  | (k, v) :: l => numbers k ++ numbers v ++ numbersEntries l

end

mutual

theorem mapNumbers_comp (f g : Number → Number) (v : Any) :
    (v.mapNumbers f).mapNumbers g = v.mapNumbers (g ∘ f) := by
  cases v with
  | null => rfl
  | bool b => rfl
  | number n => rfl
  | str s => rfl
  | seq l => exact congrArg seq (mapSeq_comp f g l)
  | mapping l => exact congrArg mapping (mapEntries_comp f g l)

theorem mapSeq_comp (f g : Number → Number) (l : List Any) :
    mapSeq g (mapSeq f l) = mapSeq (g ∘ f) l := by
  cases l with
  | nil => rfl
  | cons v l => simp only [mapSeq, mapNumbers_comp f g v, mapSeq_comp f g l]

theorem mapEntries_comp (f g : Number → Number) (l : List (Any × Any)) :
    mapEntries g (mapEntries f l) = mapEntries (g ∘ f) l := by
  cases l with
  | nil => rfl
  | cons e l =>
    obtain ⟨k, v⟩ := e
    simp only [mapEntries, mapNumbers_comp f g k, mapNumbers_comp f g v, mapEntries_comp f g l]

end

mutual

/-- Two readings of a value agree where they agree on its numbers. -/
theorem mapNumbers_eq_iff (f g : Number → Number) (v : Any) :
    v.mapNumbers f = v.mapNumbers g ↔ ∀ n ∈ v.numbers, f n = g n := by
  cases v with
  | null => simp [mapNumbers, numbers]
  | bool b => simp [mapNumbers, numbers]
  | number n => simp [mapNumbers, numbers]
  | str s => simp [mapNumbers, numbers]
  | seq l => simp only [mapNumbers, numbers, seq.injEq, mapSeq_eq_iff f g l]
  | mapping l => simp only [mapNumbers, numbers, mapping.injEq, mapEntries_eq_iff f g l]

theorem mapSeq_eq_iff (f g : Number → Number) (l : List Any) :
    mapSeq f l = mapSeq g l ↔ ∀ n ∈ numbersSeq l, f n = g n := by
  cases l with
  | nil => simp [mapSeq, numbersSeq]
  | cons v l =>
    simp only [mapSeq, numbersSeq, List.cons.injEq, List.forall_mem_append,
      mapNumbers_eq_iff f g v, mapSeq_eq_iff f g l]

theorem mapEntries_eq_iff (f g : Number → Number) (l : List (Any × Any)) :
    mapEntries f l = mapEntries g l ↔ ∀ n ∈ numbersEntries l, f n = g n := by
  cases l with
  | nil => simp [mapEntries, numbersEntries]
  | cons e l =>
    obtain ⟨k, v⟩ := e
    simp only [mapEntries, numbersEntries, List.cons.injEq, Prod.mk.injEq, List.forall_mem_append,
      mapNumbers_eq_iff f g k, mapNumbers_eq_iff f g v, mapEntries_eq_iff f g l]

end

end Any

/-! The values of a pipeline's arguments. -/

namespace Value

mutual

/-- The value as the YAML decoder leaves it. -/
def any : Value → Any
  | null => .null
  | bool b => .bool b
  | int i => .number (.int i)
  | str s => .str s
  | seq l => .seq (anySeq l)
  | mapping l => .mapping (anyEntries l)

def anySeq : List Value → List Any
  | [] => []
  | v :: l => any v :: anySeq l

def anyEntries : List (Value × Value) → List (Any × Any)
  | [] => []
  | (k, v) :: l => (any k, any v) :: anyEntries l

end

mutual

/-- `json.Marshal`. A mapping with a key that is no string is a `map[any]any`, which it rejects. -/
def json : Value → Option Json
  | null => some .null
  | bool b => some (.bool b)
  | int i => some (.number i)
  | str s => some (.string s)
  | seq l => (jsonSeq l).map .array
  | mapping l => (jsonEntries l).map .object

def jsonSeq : List Value → Option (List Json)
  | [] => some []
  | v :: l => (json v).bind fun j => (jsonSeq l).map (j :: ·)

def jsonEntries : List (Value × Value) → Option (List (String × Json))
  | [] => some []
  | (str k, v) :: l => (json v).bind fun j => (jsonEntries l).map ((k, j) :: ·)
  | _ :: _ => none

end

mutual

/-- Every mapping in the value has strings for keys. -/
def stringKeyed : Value → Bool
  | seq l => stringKeyedSeq l
  | mapping l => stringKeyedEntries l
  | _ => true

def stringKeyedSeq : List Value → Bool
  | [] => true
  | v :: l => stringKeyed v && stringKeyedSeq l

def stringKeyedEntries : List (Value × Value) → Bool
  | [] => true
  | (str _, v) :: l => stringKeyed v && stringKeyedEntries l
  | _ :: _ => false

end

mutual

def ints : Value → List Int
  | int i => [i]
  | seq l => intsSeq l
  | mapping l => intsEntries l
  | _ => []

def intsSeq : List Value → List Int
  | [] => []
  | v :: l => ints v ++ intsSeq l

def intsEntries : List (Value × Value) → List Int
  | [] => []
  | (k, v) :: l => ints k ++ ints v ++ intsEntries l

end

end Value

/-- The nearest number with 53 significant bits, the even one of two. -/
def nearestNat (n : ℕ) : ℕ :=
  let e := n.log2 - 52
  let q := n / 2 ^ e
  let r := 2 * (n % 2 ^ e)
  if r < 2 ^ e ∨ r = 2 ^ e ∧ q % 2 = 0 then q * 2 ^ e else (q + 1) * 2 ^ e

/-- The double nearest to an integer. -/
def nearestDouble : Int → Int
  | .ofNat n => nearestNat n
  | .negSucc n => -nearestNat (n + 1)

mutual

/-- `json.Unmarshal` into an `any`. -/
def Json.any : Json → Any
  | null => .null
  | bool b => .bool b
  | number i => .number (.float (nearestDouble i))
  | string s => .str s
  | array l => .seq (anyArray l)
  | object l => .mapping (anyObject l)

def Json.anyArray : List Json → List Any
  | [] => []
  | j :: l => any j :: anyArray l

def Json.anyObject : List (String × Json) → List (Any × Any)
  | [] => []
  | (k, j) :: l => (.str k, any j) :: anyObject l

end

/-- The number that JSON makes of one. -/
def Number.overJSON : Number → Number
  | int i => float (nearestDouble i)
  | float d => float d

/-- What yaml.v3 reads of the number it has written. It writes a `float64` in the shortest
form of `strconv.FormatFloat`, which has an exponent from 10⁶ on and reads as a `float64`,
and is a plain integer below. -/
def Number.reread : Number → Number
  | int i => int i
  | float d => if d.natAbs < 10 ^ 6 then int d else float d

/-- The number, whatever its type. -/
def Number.plain : Number → Number
  | int i => int i
  | float d => int d

/-- What the program uses of yaml.v3: a value it has written reads as the same, up to the
types of the numbers. -/
class YAMLPackage where
  Document : Type
  marshal : Any → Document
  unmarshal : Document → Option Any
  unmarshal_marshal : ∀ v, unmarshal (marshal v) = some (v.mapNumbers Number.reread)

/-! What becomes of a value on the two ways. -/

namespace Value

mutual

theorem json_any {v : Value} {j : Json} (h : v.json = some j) :
    j.any = v.any.mapNumbers Number.overJSON := by
  cases v with
  | null => cases h; rfl
  | bool b => cases h; rfl
  | int i => cases h; rfl
  | str s => cases h; rfl
  | seq l =>
    obtain ⟨js, hjs, rfl⟩ := Option.map_eq_some_iff.mp h
    exact congrArg Any.seq (jsonSeq_any hjs)
  | mapping l =>
    obtain ⟨js, hjs, rfl⟩ := Option.map_eq_some_iff.mp h
    exact congrArg Any.mapping (jsonEntries_any hjs)

theorem jsonSeq_any {l : List Value} {js : List Json} (h : jsonSeq l = some js) :
    Json.anyArray js = Any.mapSeq Number.overJSON (anySeq l) := by
  cases l with
  | nil => cases h; rfl
  | cons v l =>
    obtain ⟨j, hj, h⟩ := Option.bind_eq_some_iff.mp h
    obtain ⟨js, hjs, rfl⟩ := Option.map_eq_some_iff.mp h
    simp only [Json.anyArray, anySeq, Any.mapSeq, json_any hj, jsonSeq_any hjs]

theorem jsonEntries_any {l : List (Value × Value)} {js : List (String × Json)}
    (h : jsonEntries l = some js) :
    Json.anyObject js = Any.mapEntries Number.overJSON (anyEntries l) := by
  cases l with
  | nil => cases h; rfl
  | cons e l =>
    obtain ⟨k, v⟩ := e
    cases k with
    | str k =>
      obtain ⟨j, hj, h⟩ := Option.bind_eq_some_iff.mp h
      obtain ⟨js, hjs, rfl⟩ := Option.map_eq_some_iff.mp h
      simp only [Json.anyObject, anyEntries, Any.mapEntries, json_any hj, jsonEntries_any hjs, any,
        Any.mapNumbers]
    | _ => cases h

end

mutual

theorem json_isSome (v : Value) : v.json.isSome = v.stringKeyed := by
  cases v with
  | seq l => rw [json, Option.isSome_map, jsonSeq_isSome l, stringKeyed]
  | mapping l => rw [json, Option.isSome_map, jsonEntries_isSome l, stringKeyed]
  | _ => rfl

theorem jsonSeq_isSome (l : List Value) : (jsonSeq l).isSome = stringKeyedSeq l := by
  cases l with
  | nil => rfl
  | cons v l =>
    rw [jsonSeq, stringKeyedSeq, ← json_isSome v, ← jsonSeq_isSome l]
    cases v.json with
    | none => rfl
    | some j => rw [Option.bind_some, Option.isSome_map, Option.isSome_some, Bool.true_and]

theorem jsonEntries_isSome (l : List (Value × Value)) :
    (jsonEntries l).isSome = stringKeyedEntries l := by
  cases l with
  | nil => rfl
  | cons e l =>
    obtain ⟨k, v⟩ := e
    cases k with
    | str k =>
      rw [jsonEntries, stringKeyedEntries, ← json_isSome v, ← jsonEntries_isSome l]
      cases v.json with
      | none => rfl
      | some j => rw [Option.bind_some, Option.isSome_map, Option.isSome_some, Bool.true_and]
    | _ => rfl

end

mutual

theorem numbers_any (v : Value) : v.any.numbers = v.ints.map .int := by
  cases v with
  | seq l => exact numbers_anySeq l
  | mapping l => exact numbers_anyEntries l
  | _ => rfl

theorem numbers_anySeq (l : List Value) : Any.numbersSeq (anySeq l) = (intsSeq l).map .int := by
  cases l with
  | nil => rfl
  | cons v l =>
    rw [anySeq, Any.numbersSeq, intsSeq, List.map_append, numbers_any v, numbers_anySeq l]

theorem numbers_anyEntries (l : List (Value × Value)) :
    Any.numbersEntries (anyEntries l) = (intsEntries l).map .int := by
  cases l with
  | nil => rfl
  | cons e l =>
    obtain ⟨k, v⟩ := e
    rw [anyEntries, Any.numbersEntries, intsEntries, List.map_append, List.map_append,
      numbers_any k, numbers_any v, numbers_anyEntries l]

end

end Value

end Spade
