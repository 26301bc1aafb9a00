import Spade.Core.Samples
import Spade.Runner.Wire

set_option autoImplicit false

/-!
# Arguments on the worker and in the command line tool

The tool writes the arguments of a block as they were read from the pipeline. The worker
has them from the job, which travels as JSON.
-/
namespace Spade
open UUIDPackage

/-! Integers that pass through a double. -/

/-- The integer has at most 53 significant bits. -/
def Exact (i : Int) : Prop := 2 ^ (i.natAbs.log2 - 52) ∣ i.natAbs

theorem nearestNat_eq_iff (n : ℕ) : nearestNat n = n ↔ 2 ^ (n.log2 - 52) ∣ n := by
  unfold nearestNat
  dsimp only
  generalize 2 ^ (n.log2 - 52) = m
  have hdiv := Nat.div_add_mod' n m
  constructor
  · intro h
    split_ifs at h
    · exact ⟨_, h.symm.trans (Nat.mul_comm _ _)⟩
    · exact ⟨_, h.symm.trans (Nat.mul_comm _ _)⟩
  · intro h
    have hmod : n % m = 0 := Nat.mod_eq_zero_of_dvd h
    rw [hmod] at hdiv ⊢
    have hm : 2 * 0 < m ∨ 2 * 0 = m ∧ n / m % 2 = 0 := by
      rcases Nat.eq_zero_or_pos m with rfl | hm
      · exact .inr ⟨rfl, by simp⟩
      · exact .inl hm
    rw [if_pos hm]
    exact hdiv

theorem nearestNat_small {n : ℕ} (h : n < 10 ^ 6) : nearestNat n = n := by
  have hlog : n.log2 - 52 = 0 := by
    rcases Nat.eq_zero_or_pos n with rfl | hn
    · rfl
    · have hlt : n.log2 < 20 := (Nat.log2_lt (by omega)).mpr (by omega)
      omega
  rw [nearestNat_eq_iff, hlog]
  exact Nat.one_dvd n

theorem nearestNat_large {n : ℕ} (h : 10 ^ 6 ≤ n) : 10 ^ 6 ≤ nearestNat n := by
  by_cases he : n.log2 ≤ 52
  · have hexact : nearestNat n = n := by
      rw [nearestNat_eq_iff, Nat.sub_eq_zero_of_le he]
      exact Nat.one_dvd n
    omega
  · have hn : n ≠ 0 := by omega
    have hlow : 2 ^ n.log2 ≤ n := Nat.log2_self_le hn
    have hsplit : 2 ^ n.log2 = 2 ^ 52 * 2 ^ (n.log2 - 52) := by
      rw [← Nat.pow_add]
      congr 1
      omega
    have hpos : 0 < 2 ^ (n.log2 - 52) := Nat.two_pow_pos _
    have hq : 2 ^ 52 ≤ n / 2 ^ (n.log2 - 52) :=
      (Nat.le_div_iff_mul_le hpos).mpr (hsplit ▸ hlow)
    have hle : 2 ^ 52 * 1 ≤ n / 2 ^ (n.log2 - 52) * 2 ^ (n.log2 - 52) := Nat.mul_le_mul hq hpos
    have hround : n / 2 ^ (n.log2 - 52) * 2 ^ (n.log2 - 52) ≤ nearestNat n := by
      unfold nearestNat
      dsimp only
      split_ifs
      · exact le_refl _
      · exact Nat.mul_le_mul_right _ (Nat.le_succ _)
    omega

theorem nearestDouble_natAbs (i : Int) : (nearestDouble i).natAbs = nearestNat i.natAbs := by
  cases i with
  | ofNat n => rfl
  | negSucc n => exact Int.natAbs_neg _

theorem nearestDouble_eq_iff (i : Int) : nearestDouble i = i ↔ Exact i := by
  rw [Exact, ← nearestNat_eq_iff]
  cases i with
  | ofNat n => exact Int.ofNat_inj
  | negSucc n =>
    change -((nearestNat (n + 1) : ℕ) : Int) = _ ↔ nearestNat (n + 1) = n + 1
    omega

/-- An integer stays one if it has at most six digits. -/
theorem reread_overJSON (i : Int) :
    Number.reread (Number.overJSON (.int i)) = Number.reread (.int i) ↔ i.natAbs < 10 ^ 6 := by
  change (if (nearestDouble i).natAbs < 10 ^ 6 then Number.int (nearestDouble i)
    else .float (nearestDouble i)) = .int i ↔ _
  rw [nearestDouble_natAbs]
  by_cases h : i.natAbs < 10 ^ 6
  · have hsmall := nearestNat_small h
    rw [if_pos (hsmall.symm ▸ h), Number.int.injEq, nearestDouble_eq_iff, Exact,
      ← nearestNat_eq_iff]
    exact iff_of_true hsmall h
  · rw [if_neg (Nat.not_lt.mpr (nearestNat_large (Nat.not_lt.mp h)))]
    exact iff_of_false nofun h

theorem plain_overJSON (i : Int) :
    (Number.reread (Number.overJSON (.int i))).plain = (Number.reread (.int i)).plain ↔
      Exact i := by
  rw [← nearestDouble_eq_iff]
  change (if (nearestDouble i).natAbs < 10 ^ 6 then Number.int (nearestDouble i)
    else .float (nearestDouble i)).plain = .int i ↔ _
  split_ifs
  · exact Number.int.injEq _ _ ▸ Iff.rfl
  · exact Number.int.injEq _ _ ▸ Iff.rfl

/-! The job on the wire. -/

/-- A block of a job, with its arguments in the form `A`. -/
structure BlockFields (A : Type) where
  id : UUID
  name : String
  inputs : List InputRef
  outputs : List String
  args : A

/-- A job, with the arguments of the assignment and of the blocks in the form `A`. -/
structure JobFields (A : Type) where
  invocationID : String
  blockName : String
  pipelineID : UUID
  workDir : String
  args : A
  inputs : List InputRef
  id : UUID
  name : String
  version : String
  description : String
  blocks : List (BlockFields A)
  manifests : Manifests

def Job.fields (j : Job) : JobFields (Option (GoMap String Value)) where
  invocationID := j.assignment.invocationID
  blockName := j.assignment.blockName
  pipelineID := j.assignment.pipelineID
  workDir := j.assignment.workDir
  args := j.assignment.args
  inputs := j.assignment.inputs
  id := j.pipeline.id
  name := j.pipeline.name
  version := j.pipeline.version
  description := j.pipeline.description
  blocks := j.pipeline.blocks.map fun b => ⟨b.id, b.name, b.inputs, b.outputs, b.args⟩
  manifests := j.manifests

section
variable {A B : Type}

def BlockFields.mapM (f : A → Option B) (b : BlockFields A) : Option (BlockFields B) :=
  (f b.args).map fun args => ⟨b.id, b.name, b.inputs, b.outputs, args⟩

def JobFields.mapM (f : A → Option B) (j : JobFields A) : Option (JobFields B) :=
  (f j.args).bind fun args => (j.blocks.mapM (BlockFields.mapM f)).map fun blocks =>
    { j with args := args, blocks := blocks }

end

/-- The entries of a map in a form that the package can write. -/
def entries (m : GoMap String Value) : List (Value × Value) :=
  m.items.map fun e => (.str e.1, e.2)

/-- An argument map of a job; nil is written as `null`. -/
def jsonArgs : Option (GoMap String Value) → Option Json
  | none => some .null
  | some m => (Value.jsonEntries (entries m)).map .object

/-- An argument map as its entries. -/
abbrev AnyArgs := Option (List (String × Any))

def readArgs : Json → Option AnyArgs
  | .null => some none
  | .object l => some (some (l.map fun e => (e.1, e.2.any)))
  | _ => none

def marshalJob (j : Job) : Option (JobFields Json) := j.fields.mapM jsonArgs

def unmarshalJob (data : JobFields Json) : Option (JobFields AnyArgs) := data.mapM readArgs

/-- The arguments of the invocation that `InvocationFromJob` makes. -/
def argumentsFromJob [UUIDPackage] {A : Type} (j : JobFields A) : Option A :=
  match parseInvocationID j.invocationID with
  | (_, _, false) => none
  | (blockID, _, true) => (j.blocks.find? fun pb => pb.id = blockID).map BlockFields.args

/-- The content of `params.yaml`; a nil map is written as an empty one. -/
def writeParamsYAML [YAMLPackage] (args : AnyArgs) : YAMLPackage.Document :=
  YAMLPackage.marshal (.mapping ((args.getD []).map fun e => (.str e.1, e.2)))

/-- The arguments of a block as they were read from the pipeline. -/
def pipelineArgs (args : Option (GoMap String Value)) : AnyArgs :=
  args.map fun m => m.items.map fun e => (e.1, e.2.any)

/-- What `params.yaml` says on the worker, if the job gets there. -/
def workerParams [UUIDPackage] [YAMLPackage] (j : Job) : Option Any :=
  (marshalJob j).bind fun data => (unmarshalJob data).bind fun job =>
    (argumentsFromJob job).bind fun args => YAMLPackage.unmarshal (writeParamsYAML args)

/-- What `params.yaml` says where the tool runs the block. -/
def localParams [YAMLPackage] (inv : BlockInvocation) : Option Any :=
  YAMLPackage.unmarshal (writeParamsYAML (pipelineArgs inv.arguments))

/-! A job whose arguments change their form. -/

section
variable {A B C : Type}

theorem mapM_isSome (f : A → Option B) (l : List A) :
    (l.mapM f).isSome ↔ ∀ a ∈ l, (f a).isSome := by
  induction l with
  | nil => simp
  | cons a l ih =>
    rw [List.forall_mem_cons, ← ih, List.mapM_cons]
    cases f a with
    | none => simp
    | some b => cases hl : l.mapM f <;> simp

theorem mapM_bind (f : A → Option B) (g : B → Option C) (l : List A) :
    ((l.mapM f).bind fun l' => l'.mapM g) = l.mapM fun a => (f a).bind g := by
  induction l with
  | nil => rfl
  | cons a l ih =>
    rw [List.mapM_cons, List.mapM_cons, ← ih]
    cases f a with
    | none => rfl
    | some b =>
      cases l.mapM f with
      | none => cases hg : g b <;> simp [hg]
      | some l' => exact List.mapM_cons

theorem BlockFields.mapM_bind (f : A → Option B) (g : B → Option C) (b : BlockFields A) :
    (b.mapM f).bind (BlockFields.mapM g) = b.mapM fun a => (f a).bind g := by
  unfold BlockFields.mapM
  cases hf : f b.args <;> simp [hf]

namespace JobFields

theorem mapM_bind (f : A → Option B) (g : B → Option C) (j : JobFields A) :
    (j.mapM f).bind (mapM g) = j.mapM fun a => (f a).bind g := by
  unfold mapM
  have hblocks := Spade.mapM_bind (BlockFields.mapM f) (BlockFields.mapM g) j.blocks
  simp only [BlockFields.mapM_bind] at hblocks
  rw [← hblocks]
  cases hf : f j.args with
  | none => simp [hf]
  | some a =>
    cases j.blocks.mapM (BlockFields.mapM f) with
    | none => cases hg : g a <;> simp [hf, hg]
    | some blocks => simp [hf]

theorem mapM_isSome (f : A → Option B) (j : JobFields A) :
    (j.mapM f).isSome ↔ ∀ args ∈ j.args :: j.blocks.map BlockFields.args, (f args).isSome := by
  have hblocks := Spade.mapM_isSome (BlockFields.mapM f) j.blocks
  simp only [BlockFields.mapM, Option.isSome_map] at hblocks
  rw [List.forall_mem_cons, List.forall_mem_map, ← hblocks, mapM]
  cases f j.args with
  | none => simp
  | some a => simp

theorem find_mapM {f : A → Option B} {blocks : List (BlockFields A)} {blocks' : List (BlockFields B)}
    (h : blocks.mapM (BlockFields.mapM f) = some blocks') (id : UUID) :
    (blocks'.find? fun pb => pb.id = id).map BlockFields.args =
      ((blocks.find? fun pb => pb.id = id).map BlockFields.args).bind f := by
  induction blocks generalizing blocks' with
  | nil =>
    cases h
    rfl
  | cons b blocks ih =>
    rw [List.mapM_cons] at h
    obtain ⟨b', hb, h⟩ := Option.bind_eq_some_iff.mp h
    obtain ⟨rest, hrest, h⟩ := Option.bind_eq_some_iff.mp h
    cases h
    obtain ⟨args, hargs, rfl⟩ := Option.map_eq_some_iff.mp hb
    by_cases hid : b.id = id
    · simp [hid, hargs]
    · simpa [hid] using ih hrest

theorem arguments_mapM [UUIDPackage] {f : A → Option B} {j : JobFields A} {j' : JobFields B}
    (h : j.mapM f = some j') : argumentsFromJob j' = (argumentsFromJob j).bind f := by
  obtain ⟨args, -, h⟩ := Option.bind_eq_some_iff.mp h
  obtain ⟨blocks, hblocks, rfl⟩ := Option.map_eq_some_iff.mp h
  unfold argumentsFromJob
  dsimp only
  split
  · rfl
  · exact find_mapM hblocks _

end JobFields
end

theorem find_fields (j : Job) (id : UUID) :
    (j.fields.blocks.find? fun pb => pb.id = id).map BlockFields.args =
      (j.pipeline.blocks.find? fun pb => pb.id = id).map PipelineBlock.args := by
  rw [Job.fields, List.find?_map, Option.map_map]
  rfl

theorem argumentsFromJob_fields [UUIDPackage] {j : Job} {inv : BlockInvocation}
    (h : invocationFromJob j = .ok inv) : argumentsFromJob j.fields = some inv.arguments := by
  unfold invocationFromJob at h
  unfold argumentsFromJob
  rw [show j.fields.invocationID = j.assignment.invocationID from rfl]
  simp only [find_fields]
  generalize parseInvocationID j.assignment.invocationID = parsed at h ⊢
  obtain ⟨blockID, mapIdx, ok⟩ := parsed
  cases ok with
  | false => cases h
  | true =>
    dsimp only at h ⊢
    cases hpb : j.pipeline.blocks.find? fun pb => pb.id = blockID with
    | none =>
      rw [hpb] at h
      cases h
    | some pb =>
      rw [hpb] at h
      cases h
      rfl

theorem mem_of_arguments [UUIDPackage] {A : Type} {j : JobFields A} {args : A}
    (h : argumentsFromJob j = some args) : args ∈ j.blocks.map BlockFields.args := by
  unfold argumentsFromJob at h
  split at h
  · cases h
  · obtain ⟨pb, hpb, rfl⟩ := Option.map_eq_some_iff.mp h
    exact List.mem_map_of_mem (List.mem_of_find?_eq_some hpb)

/-! What the arguments are after the wire. -/

/-- Every mapping in the arguments has strings for keys. -/
def argsKeyed (args : Option (GoMap String Value)) : Bool :=
  (args.getD ∅).items.all fun e => e.2.stringKeyed

/-- The integers in the arguments. -/
def argsInts (args : Option (GoMap String Value)) : List Int :=
  (args.getD ∅).items.flatMap fun e => e.2.ints

/-- The arguments as one value. -/
def argsAny (args : Option (GoMap String Value)) : Any :=
  .mapping (Value.anyEntries (entries (args.getD ∅)))

theorem keyed_entries (l : List (String × Value)) :
    Value.stringKeyedEntries (l.map fun e => (.str e.1, e.2)) =
      l.all fun e => e.2.stringKeyed := by
  induction l with
  | nil => rfl
  | cons e l ih => rw [List.map_cons, Value.stringKeyedEntries, ih, List.all_cons]

theorem ints_entries (l : List (String × Value)) :
    Value.intsEntries (l.map fun e => (.str e.1, e.2)) = l.flatMap fun e => e.2.ints := by
  induction l with
  | nil => rfl
  | cons e l ih =>
    rw [List.map_cons, Value.intsEntries, ih, List.flatMap_cons]
    rfl

theorem any_entries (l : List (String × Value)) :
    (l.map fun e => (Any.str e.1, e.2.any)) =
      Value.anyEntries (l.map fun e => (.str e.1, e.2)) := by
  induction l with
  | nil => rfl
  | cons e l ih =>
    rw [List.map_cons, List.map_cons, Value.anyEntries, ih]
    rfl

theorem numbers_argsAny (args : Option (GoMap String Value)) :
    (argsAny args).numbers = (argsInts args).map .int := by
  rw [argsAny, Any.numbers, Value.numbers_anyEntries, entries, ints_entries]
  rfl

theorem object_entries (l : List (String × Json)) :
    (l.map fun e => (Any.str e.1, e.2.any)) = Json.anyObject l := by
  induction l with
  | nil => rfl
  | cons e l ih =>
    rw [List.map_cons, Json.anyObject, ih]

/-- What is left of an argument map on the wire, and in `params.yaml`. -/
theorem jsonArgs_spec (args : Option (GoMap String Value)) :
    ((jsonArgs args).bind readArgs).isSome = argsKeyed args ∧
      ∀ args', (jsonArgs args).bind readArgs = some args' →
        Any.mapping ((args'.getD []).map fun e => (.str e.1, e.2)) =
          (argsAny args).mapNumbers Number.overJSON := by
  cases args with
  | none => exact ⟨rfl, fun args' h => by cases h; rfl⟩
  | some m =>
    have hkeyed : (Value.jsonEntries (entries m)).isSome = argsKeyed (some m) := by
      rw [Value.jsonEntries_isSome, entries, keyed_entries]
      rfl
    rw [← hkeyed, jsonArgs]
    cases hj : Value.jsonEntries (entries m) with
    | none => exact ⟨rfl, nofun⟩
    | some l =>
      refine ⟨rfl, fun args' h => ?_⟩
      cases h
      rw [Option.getD_some, List.map_map]
      change Any.mapping (l.map fun e => (Any.str e.1, e.2.any)) = _
      rw [object_entries, Value.jsonEntries_any hj]
      rfl

/-- No argument map of the job has a `map[any]any` in it. -/
def Job.Keyed (j : Job) : Prop :=
  ∀ args ∈ j.assignment.args :: j.pipeline.blocks.map PipelineBlock.args, argsKeyed args = true

instance (j : Job) : Decidable j.Keyed :=
  inferInstanceAs (Decidable (∀ args ∈ j.assignment.args :: j.pipeline.blocks.map
    PipelineBlock.args, argsKeyed args = true))

section
variable [UUIDPackage] [YAMLPackage] {j : Job} {inv : BlockInvocation}

omit [UUIDPackage] [YAMLPackage] in
theorem overWire_isSome (j : Job) :
    ((marshalJob j).bind unmarshalJob).isSome ↔ j.Keyed := by
  unfold marshalJob unmarshalJob Job.Keyed
  rw [JobFields.mapM_bind, JobFields.mapM_isSome]
  have hargs : j.fields.args :: j.fields.blocks.map BlockFields.args =
      j.assignment.args :: j.pipeline.blocks.map PipelineBlock.args := by
    rw [Job.fields, List.map_map]
    rfl
  rw [hargs]
  exact forall₂_congr fun args _ => by rw [(jsonArgs_spec args).1]

theorem workerParams_spec (h : invocationFromJob j = .ok inv) :
    (¬j.Keyed ∧ workerParams j = none) ∨ (j.Keyed ∧
      workerParams j = some ((argsAny inv.arguments).mapNumbers (Number.reread ∘ Number.overJSON))) := by
  have hbind : workerParams j = ((marshalJob j).bind unmarshalJob).bind fun job =>
      (argumentsFromJob job).bind fun args => YAMLPackage.unmarshal (writeParamsYAML args) := by
    rw [Option.bind_assoc]
    rfl
  rw [hbind, ← overWire_isSome]
  cases hjob : (marshalJob j).bind unmarshalJob with
  | none => exact .inl ⟨nofun, rfl⟩
  | some job =>
    refine .inr ⟨rfl, ?_⟩
    unfold marshalJob unmarshalJob at hjob
    rw [JobFields.mapM_bind] at hjob
    have hargs := JobFields.arguments_mapM hjob
    rw [argumentsFromJob_fields h, Option.bind_some] at hargs
    have hsome := (JobFields.mapM_isSome _ j.fields).mp (Option.isSome_of_eq_some hjob) inv.arguments
      (List.mem_cons_of_mem _ (mem_of_arguments (argumentsFromJob_fields h)))
    obtain ⟨args', hargs'⟩ := Option.isSome_iff_exists.mp hsome
    rw [Option.bind_some, hargs, hargs', Option.bind_some, writeParamsYAML,
      (jsonArgs_spec inv.arguments).2 args' hargs', YAMLPackage.unmarshal_marshal,
      Any.mapNumbers_comp]

omit [UUIDPackage] in
theorem localParams_eq (inv : BlockInvocation) :
    localParams inv = some ((argsAny inv.arguments).mapNumbers Number.reread) := by
  unfold localParams writeParamsYAML
  rw [YAMLPackage.unmarshal_marshal]
  refine congrArg (fun v => some (Any.mapNumbers Number.reread v)) ?_
  unfold argsAny pipelineArgs
  cases inv.arguments with
  | none => rfl
  | some m =>
    rw [Option.map_some, Option.getD_some, Option.getD_some, List.map_map, entries, ← any_entries]
    rfl

/-- The worker's `params.yaml` says what the tool's says, the types of the numbers counted
or not. -/
theorem arguments_agree (h : invocationFromJob j = .ok inv) :
    (workerParams j = localParams inv ↔
      j.Keyed ∧ ∀ i ∈ argsInts inv.arguments, i.natAbs < 10 ^ 6) ∧
    ((workerParams j).map (Any.mapNumbers Number.plain) =
        (localParams inv).map (Any.mapNumbers Number.plain) ↔
      j.Keyed ∧ ∀ i ∈ argsInts inv.arguments, Exact i) := by
  rw [localParams_eq]
  rcases workerParams_spec h with ⟨hkeyed, hw⟩ | ⟨hkeyed, hw⟩
  · rw [hw]
    exact ⟨iff_of_false nofun fun hk => hkeyed hk.1, iff_of_false nofun fun hk => hkeyed hk.1⟩
  · rw [hw, Option.some.injEq, Any.mapNumbers_eq_iff, numbers_argsAny, List.forall_mem_map,
      Option.map_some, Option.map_some, Option.some.injEq, Any.mapNumbers_comp, Any.mapNumbers_comp,
      Any.mapNumbers_eq_iff, numbers_argsAny, List.forall_mem_map]
    constructor
    · refine Iff.trans (forall₂_congr fun i _ => reread_overJSON i) ?_
      exact (and_iff_right hkeyed).symm
    · refine Iff.trans (forall₂_congr fun i _ => plain_overJSON i) ?_
      exact (and_iff_right hkeyed).symm

end

end Spade

namespace Spade.Samples
open Uuid

/-- yaml.v3 on documents that are the values it reads. -/
scoped instance : YAMLPackage where
  Document := Any
  marshal := Any.mapNumbers Number.reread
  unmarshal := some
  unmarshal_marshal _ := rfl

/-- An invocation of a source that has an argument. -/
def argumentInvocation (v : Value) : BlockInvocation :=
  { (block "source" 1 []).invocation (pipelineID 3) none with
    arguments := some ((∅ : GoMap String Value).insert "x" v) }

def argumentJob (v : Value) : Job :=
  buildJobForInvocation (argumentInvocation v)
    { pair with blocks := [{ block "source" 1 [] with args := (argumentInvocation v).arguments }] } ∅ ""

theorem argumentJob_readsBack (v : Value) :
    invocationFromJob (argumentJob v) = .ok (argumentInvocation v) := by
  have hparse : parseInvocationID (argumentInvocation v).invocationID = (blockID 1, none, true) :=
    parseInvocationID_eq (blockID 1) (fun _ h => absurd h (Option.some_ne_none _).symm)
      (argumentInvocation v) rfl rfl
  unfold invocationFromJob
  rw [show (argumentJob v).assignment.invocationID = (argumentInvocation v).invocationID from rfl,
    hparse]
  rfl

end Spade.Samples

namespace Spade
open Samples Uuid

/-- A list of a string and a number of three digits. -/
theorem arguments_agree_small : workerParams (argumentJob (.seq [.str "a", .int (-999)])) =
    localParams (argumentInvocation (.seq [.str "a", .int (-999)])) :=
  (arguments_agree (argumentJob_readsBack _)).1.mpr ⟨by decide, by decide⟩

/-- A mapping with an integer for a key does not get into the message, and a million is no
integer any more, and 2⁵³ + 1 another one. -/
theorem arguments_agree_fails :
    marshalJob (argumentJob (.mapping [(.int 1, .str "a")])) = none ∧
      workerParams (argumentJob (.int 1000000)) ≠ localParams (argumentInvocation (.int 1000000)) ∧
      workerParams (argumentJob (.int 9007199254740993)) =
        some (.mapping [(.str "x", .number (.float 9007199254740992))]) ∧
      ¬∀ j inv, invocationFromJob j = .ok inv → workerParams j = localParams inv := by
  have hkeyed : marshalJob (argumentJob (.mapping [(.int 1, .str "a")])) = none := rfl
  have hagree := fun i => (arguments_agree (argumentJob_readsBack (.int i))).1
  have hmillion : workerParams (argumentJob (.int 1000000)) ≠
      localParams (argumentInvocation (.int 1000000)) :=
    fun h => absurd ((hagree _).mp h).2 (by decide)
  refine ⟨hkeyed, hmillion, ?_, fun h => hmillion (h _ _ (argumentJob_readsBack _))⟩
  obtain ⟨hno, -⟩ | ⟨-, hw⟩ := workerParams_spec (argumentJob_readsBack (.int 9007199254740993))
  · exact absurd (show Job.Keyed _ from by decide) hno
  · rw [hw]
    rfl

end Spade
