import Mathlib.Algebra.Group.Int.Defs
import Mathlib.Algebra.Group.Nat.Defs
import Spade.Core.Dependencies
import Spade.Core.Stamped
import Spade.Server.Engine

set_option autoImplicit false

/-!
# The job of an invocation, on the worker

The worker makes the invocation and the manifests of its dependencies anew from the job.
-/
namespace Spade
open UUIDPackage

inductive JobError where
  | invocationID (id : String)
  | noBlock (invocationID : String) (block : UUID)
  | noDependency (block : UUID)
  | noManifest (name : String) (block : UUID)
  deriving DecidableEq

def JobError.message [UUIDPackage] : JobError → String
  | invocationID id => "parsing invocation id " ++ quoted id
  | noBlock id block => "invocation " ++ id ++ " references block " ++ string block ++ " not in pipeline"
  | noDependency block => "dependency block " ++ string block ++ " not found in pipeline"
  | noManifest name block =>
    "no manifest for dependency block " ++ quoted name ++ " (" ++ string block ++ ")"

def invocationFromJob [UUIDPackage] (j : Job) : Except JobError BlockInvocation :=
  match parseInvocationID j.assignment.invocationID with
  | (_, _, false) => .error (.invocationID j.assignment.invocationID)
  | (blockID, mapIdx, true) =>
    match j.pipeline.blocks.find? fun pb => pb.id = blockID with
    | none => .error (.noBlock j.assignment.invocationID blockID)
    | some pb => .ok ⟨pb.id, pb.name, j.assignment.pipelineID, pb.inputs, pb.args, mapIdx⟩

/-- The loop body of `DependencyManifests`; a block with an empty name counts as not found. -/
def dependencyManifest (j : Job) (out : GoMap UUID BlockManifest) (ref : InputRef) :
    Except JobError (GoMap UUID BlockManifest) :=
  if ref.depID = UUID.nil then .ok out
  else if ref.depID ∈ out then .ok out
  else
    let depName := ((j.pipeline.blocks.find? fun pb => pb.id = ref.depID).map PipelineBlock.name).getD ""
    if depName = "" then .error (.noDependency ref.depID)
    else
      match j.manifests.lookup depName with
      | none => .error (.noManifest depName ref.depID)
      | some m => .ok (out.insert ref.depID m)

def dependencyManifests (j : Job) (inv : BlockInvocation) :
    Except JobError (GoMap UUID BlockManifest) :=
  inv.inputs.foldlM (dependencyManifest j) ∅

/-! The invocation id reads back. -/

theorem atoi_itoa {n : ℕ} (h : n < 2 ^ 63) : atoi (itoa n).toList = some (n : Int) := by
  obtain ⟨hne, hall⟩ := itoa_digits n
  have hvalue : (itoa n).toList.foldl (fun n c => n * 10 + digit c) 0 = n := by
    have hof := Nat.ofDigitChars_ten_toDigits (n := n)
    rw [Nat.ofDigitChars_eq_foldl] at hof
    have htext : (itoa n).toList = Nat.toDigits 10 n := Nat.toList_repr
    rw [htext]
    simpa only [digit, Nat.mul_comm] using hof
  unfold atoi
  split
  · rename_i t hl
    simp [hl] at hall
  · rename_i t hl
    simp [hl] at hall
  · dsimp only
    rw [if_pos ⟨hne, hall⟩, hvalue, if_neg Bool.false_ne_true, if_pos]
    omega

section
variable [UUIDPackage]

theorem parseInvocationID_eq (u : UUID) {idx : Option Int}
    (h : ∀ i, idx = some i → 0 ≤ i ∧ i < 2 ^ 63) (b : BlockInvocation) (hid : b.id = u)
    (hidx : b.mapIndex = idx) : parseInvocationID b.invocationID = (u, idx, true) := by
  unfold parseInvocationID BlockInvocation.invocationID
  rw [hid, hidx]
  cases idx with
  | none =>
    dsimp only
    rw [splitLastDot_none (string_no_dot u), parse_string]
    rfl
  | some i =>
    obtain ⟨hpos, hlt⟩ := h i rfl
    obtain ⟨n, rfl⟩ := Int.eq_ofNat_of_zero_le hpos
    have hs : (string u ++ "." ++ itoa n).toList = (string u).toList ++ '.' :: (itoa n).toList := by
      simp
    dsimp only
    rw [hs, splitLastDot_append (dot_not_mem_itoa n)]
    have hatoi : atoi (itoa n).toList = some (n : Int) := atoi_itoa (by omega)
    simp only [hatoi, hpos, if_true, String.ofList_toList, parse_string]

end

/-! The manifests that travel with a job. -/

variable {p : Pipeline} {manifests : Manifests}

theorem dispatchManifests_lookup {inv : BlockInvocation} (h : Provided p manifests inv.inputs)
    {r : InputRef} (hr : r ∈ inv.inputs) {d : PipelineBlock}
    (hd : (p.blocks.find? fun pb => pb.id = r.depID) = some d) :
    (dispatchManifests manifests p inv).lookup d.name = manifests.lookup d.name := by
  have key : ∀ (rs : List InputRef) (acc : Manifests), Provided p manifests rs →
      r ∈ rs ∨ acc.lookup d.name = manifests.lookup d.name →
      (rs.foldl (fun acc ref =>
        if ref.depID = UUID.nil then acc
        else match p.blocks.find? fun pb => pb.id = ref.depID with
          | none => acc
          | some pb =>
            match manifests.lookup pb.name with
            | none => acc
            | some m => acc.insert pb.name m) acc).lookup d.name = manifests.lookup d.name := by
    intro rs
    induction rs with
    | nil => exact fun acc _ hacc => hacc.resolve_left List.not_mem_nil
    | cons ref rs ih =>
      intro acc hrs hacc
      obtain ⟨hnil, c, -, hc, hm⟩ := hrs ref List.mem_cons_self
      obtain ⟨m, hm⟩ := GoMap.lookup_of_mem hm
      simp only [List.foldl_cons, if_neg hnil, hc, hm]
      refine ih _ (fun r' hr' => hrs r' (List.mem_cons_of_mem ref hr')) ?_
      rw [GoMap.lookup_insert_if]
      by_cases hname : d.name = c.name
      · exact .inr (by rw [if_pos hname, hname, hm])
      · rw [if_neg hname]
        refine hacc.imp_left fun hmem => (List.mem_cons.mp hmem).resolve_left ?_
        rintro rfl
        rw [hd] at hc
        cases hc
        exact hname rfl
  exact key inv.inputs _ h (.inl hr)

theorem dependencyManifests_spec {j : Job} {refs : List InputRef}
    (hnamed : ∀ b ∈ j.pipeline.blocks, b.name ≠ "")
    (hrefs : Provided j.pipeline j.manifests refs) (acc : GoMap UUID BlockManifest)
    (hacc : ∀ k m, acc.lookup k = some m → j.pipeline.manifestOf j.manifests k = some m) :
    ∃ out, refs.foldlM (dependencyManifest j) acc = .ok out ∧ ∀ id, out.lookup id =
      if id ∈ refs.map InputRef.depID then j.pipeline.manifestOf j.manifests id
      else acc.lookup id := by
  induction refs generalizing acc with
  | nil => exact ⟨acc, rfl, fun id => rfl⟩
  | cons r refs ih =>
    obtain ⟨hnil, d, hmem, hd, hm⟩ := hrefs r List.mem_cons_self
    have hrest := fun r' hr' => hrefs r' (List.mem_cons_of_mem r hr')
    obtain ⟨m, hm⟩ := GoMap.lookup_of_mem hm
    have hof : j.pipeline.manifestOf j.manifests r.depID = some m := by
      rw [Pipeline.manifestOf, hd, Option.bind_some, hm]
    by_cases hin : r.depID ∈ acc
    · obtain ⟨m', hm'⟩ := GoMap.lookup_of_mem hin
      obtain ⟨out, hout, hl⟩ := ih hrest acc hacc
      refine ⟨out, ?_, fun id => ?_⟩
      · rw [List.foldlM_cons, dependencyManifest, if_neg hnil, if_pos hin]
        exact hout
      · rw [hl id]
        by_cases hid : id = r.depID
        · subst hid
          simp [hm', hacc _ _ hm']
        · simp [hid]
    · obtain ⟨out, hout, hl⟩ := ih hrest (acc.insert r.depID m) fun k m' hk => by
        rw [GoMap.lookup_insert_if] at hk
        split_ifs at hk with he
        · rw [he, hof, hk]
        · exact hacc k m' hk
      refine ⟨out, ?_, fun id => ?_⟩
      · rw [List.foldlM_cons, dependencyManifest, if_neg hnil, if_neg hin, hd]
        dsimp only [Option.map_some, Option.getD_some]
        rw [if_neg (hnamed d hmem), hm]
        exact hout
      · rw [hl id, GoMap.lookup_insert_if]
        by_cases hid : id = r.depID
        · simp [hid, hof]
        · simp [hid]

/-! What the worker makes of a job. -/

/-- The worker makes of the job the invocation that was handed out, and resolves its inputs
from the manifests with which the pipeline was validated. -/
def Job.ReadsBack [UUIDPackage] (j : Job) (manifests : Manifests) (inv : BlockInvocation) : Prop :=
  invocationFromJob j = .ok inv ∧ ∃ deps, dependencyManifests j inv = .ok deps ∧
    ∀ b ∈ j.pipeline.blocks, b.id = inv.id →
      ∀ id, deps.lookup id = (depManifests j.pipeline manifests b).lookup id

/-- An index fits into an `int`. -/
def BlockInvocation.IntIndex (inv : BlockInvocation) : Prop :=
  ∀ i, inv.mapIndex = some i → i < 2 ^ 63

theorem readsBack [UUIDPackage] (hacc : Accepted p manifests)
    (hnamed : ∀ b ∈ p.blocks, b.name ≠ "") {inv : BlockInvocation} (hmade : inv.Made p)
    (hint : inv.IntIndex) (workDir : String) :
    (buildJobForInvocation inv p (dispatchManifests manifests p inv) workDir).ReadsBack
      manifests inv := by
  obtain ⟨⟨b, hb, heq⟩, hpos⟩ := hmade
  have hid : inv.id = b.id := congrArg BlockInvocation.id heq
  have hin : inv.inputs = b.inputs := congrArg BlockInvocation.inputs heq
  have hprov := hacc.provided hb
  refine ⟨?_, ?_⟩
  · have hparse := parseInvocationID_eq b.id (fun i hi => ⟨hpos i hi, hint i hi⟩) inv hid rfl
    unfold invocationFromJob buildJobForInvocation
    dsimp only
    rw [hparse]
    dsimp only
    rw [find_block hacc.nodup hb]
    exact congrArg Except.ok heq.symm
  · rw [← hin] at hprov
    have hrefs : Provided p (dispatchManifests manifests p inv) inv.inputs := by
      intro r hr
      obtain ⟨hnil, d, hmem, hd, hm⟩ := hprov r hr
      rw [GoMap.mem_iff_lookup, ← dispatchManifests_lookup hprov hr hd] at hm
      exact ⟨hnil, d, hmem, hd, GoMap.mem_iff_lookup.mpr hm⟩
    obtain ⟨deps, hdeps, hl⟩ := dependencyManifests_spec
      (j := buildJobForInvocation inv p (dispatchManifests manifests p inv) workDir)
      hnamed hrefs ∅ nofun
    refine ⟨deps, hdeps, fun c hc hcid id => ?_⟩
    obtain rfl : c = b := unique_of_nodup hacc.nodup hc hb (hcid.trans hid)
    change _ = (depManifests p manifests c).lookup id
    rw [hl id, depManifests_lookup (hin ▸ hprov), ← hin]
    split_ifs with hmem
    · obtain ⟨r, hr, rfl⟩ := List.mem_map.mp hmem
      obtain ⟨-, d, -, hd, -⟩ := hprov r hr
      change (p.manifestOf (dispatchManifests manifests p inv) r.depID) = _
      rw [Pipeline.manifestOf, Pipeline.manifestOf, hd]
      exact dispatchManifests_lookup hprov hr hd
    · rfl

end Spade
