/-
# Branch lifecycle events

`backend/internal/domain/branch_lifecycle.go`.  Archiving or restoring a branch
appends an immutable tag whose name carries a generation, a state, the branch
target it observed and the branch.  The refs that clients see are a projection:
a branch whose latest event archived exactly its present target is hidden, and a
symbolic HEAD on a hidden branch is shown detached.

The ref validators of `values.go` are here too: a tag in the lifecycle namespace is
valid when it parses.  `mem_projected_branch` says which branch refs are shown.
-/

import CxtHub.Backend.Values

namespace CxtHub
namespace Backend

def branchLifecycleTagPrefix : String := "cxt/branch-state/v1/"

/-- `BranchLifecycleState`. -/
inductive BranchLifecycleState
  | active
  | archived
  deriving DecidableEq, Repr

/-- `BranchLifecycleEvent`, without the raw ref it was parsed from: only the name
of that ref is read again, to break ties. -/
structure BranchLifecycleEvent where
  branch : String
  generation : ℕ
  state : BranchLifecycleState
  target : ContentHash
  refName : String
  deriving DecidableEq, Repr

/-- The state component of an event name. -/
def parseLifecycleState (part : List Char) : Option BranchLifecycleState :=
  if part = "active".toList then some .active
  else if part = "archived".toList then some .archived
  else none

/-- The errors of `parseBranchLifecycleTagName` print the whole name. -/
def lifecycleError (format name : String) : DomainError :=
  { sentinel := .validation, format := format, args := [name] }

/-- The checks of `parseBranchLifecycleTagName` on the four components of a name. -/
def parseLifecycleParts (name : String) :
    List (List Char) → Except DomainError BranchLifecycleEvent
  | [generation, state, target, branch] => do
      refuse ((String.ofList generation).utf8ByteSize ≠ 20)
        (lifecycleError "malformed branch lifecycle tag %q" name)
      let some g := parseUint generation
        | .error (lifecycleError "invalid branch lifecycle generation in %q" name)
      refuse (g = 0 ∨ padded20 g ≠ generation)
        (lifecycleError "invalid branch lifecycle generation in %q" name)
      let some st := parseLifecycleState state
        | .error (lifecycleError "invalid branch lifecycle state in %q" name)
      refuse ((String.ofList target).utf8ByteSize ≠ 64 ∨ target.map Char.toLower ≠ target)
        (lifecycleError "invalid branch lifecycle target in %q" name)
      validateContentHash (contentHashPrefix ++ String.ofList target)
      validateBranchName (String.ofList branch)
      .ok { branch := String.ofList branch, generation := g, state := st,
            target := contentHashPrefix ++ String.ofList target, refName := name }
  | _ => .error (lifecycleError "malformed branch lifecycle tag %q" name)

/-- `parseBranchLifecycleTagName`: `none` for a name outside the namespace. -/
def parseBranchLifecycleTagName (name : String) :
    Except DomainError (Option BranchLifecycleEvent) :=
  if hasPrefix name branchLifecycleTagPrefix then
    (parseLifecycleParts name
      (splitN '/' 4 (trimPrefix name branchLifecycleTagPrefix).toList)).map some
  else .ok none

/-- `ParseBranchLifecycleRef`. -/
def parseBranchLifecycleRef (ref : Ref) : Except DomainError (Option BranchLifecycleEvent) :=
  if ref.kind ≠ .tag then .ok none
  else
    match parseBranchLifecycleTagName ref.name with
    | .error e => .error e
    | .ok none => .ok none
    | .ok (some event) => do
        refuse (ref.target ≠ event.target)
          { sentinel := .validation, format := "lifecycle tag target does not match its name" }
        .ok (some event)

/-- `branchLifecycleLater`. -/
def branchLifecycleLater (left right : BranchLifecycleEvent) : Bool :=
  if left.generation ≠ right.generation then decide (right.generation < left.generation)
  else if left.state ≠ right.state then decide (left.state = .active)
  else if left.target ≠ right.target then decide (right.target < left.target)
  else decide (right.refName < left.refName)

/-- The loop of `BranchLifecycleStates`, with the map built so far. -/
def branchLifecycleStatesFrom (states : String → Option BranchLifecycleEvent) :
    List Ref → Except DomainError (String → Option BranchLifecycleEvent)
  | [] => .ok states
  | ref :: refs => do
      match ← parseBranchLifecycleRef ref with
      | none => branchLifecycleStatesFrom states refs
      | some event =>
          let newer := match states event.branch with
            | none => true
            | some current => branchLifecycleLater event current
          branchLifecycleStatesFrom
            (if newer then Function.update states event.branch (some event) else states) refs

/-- `BranchLifecycleStates`. -/
def branchLifecycleStates (refs : List Ref) :
    Except DomainError (String → Option BranchLifecycleEvent) :=
  branchLifecycleStatesFrom (fun _ => none) refs

/-- Whether an archive event hides a branch standing at a target. -/
def hides (latest : Option BranchLifecycleEvent) (target : ContentHash) : Bool :=
  match latest with
  | some event => decide (event.state = .archived) && decide (event.target = target)
  | none => false

/-- `branches[name]` of `ProjectBranchLifecycleRefs`: the last raw branch ref. -/
def rawBranch (refs : List Ref) (name : String) : Option Ref :=
  refs.reverse.find? fun ref => ref.kind = .branch ∧ ref.name = name

/-- A symbolic HEAD on a branch that its latest event archived is shown detached. -/
def projectHead (states : String → Option BranchLifecycleEvent) (refs : List Ref) (ref : Ref) :
    Ref :=
  let branch := trimPrefix ref.symbolic "refs/heads/"
  match states branch with
  | some latest =>
      let atTarget := match rawBranch refs branch with
        | none => true
        | some raw => decide (raw.target = latest.target)
      if latest.state = .archived ∧ atTarget = true then
        { ref with symbolic := "", target := latest.target }
      else ref
  | none => ref

/-- One ref in `ProjectBranchLifecycleRefs`; `none` when it is hidden. -/
def projectRef (states : String → Option BranchLifecycleEvent) (refs : List Ref) (ref : Ref) :
    Option Ref :=
  if ref.kind = .branch ∧ hides (states ref.name) ref.target = true then none
  else if ref.kind = .head ∧ ref.symbolic ≠ "" then some (projectHead states refs ref)
  else some ref

/-- `ProjectBranchLifecycleRefs`. -/
def projectBranchLifecycleRefs (refs : List Ref) : Except DomainError (List Ref) := do
  let states ← branchLifecycleStates refs
  .ok (refs.filterMap (projectRef states refs))

@[simp] theorem projectHead_kind (states : String → Option BranchLifecycleEvent)
    (refs : List Ref) (ref : Ref) : (projectHead states refs ref).kind = ref.kind := by
  simp only [projectHead]
  cases states (trimPrefix ref.symbolic "refs/heads/") with
  | none => rfl
  | some latest =>
      dsimp only
      split_ifs <;> rfl

/-- **A branch ref is shown exactly when no archive event hides its target.** -/
theorem mem_projected_branch {refs projected : List Ref}
    {states : String → Option BranchLifecycleEvent}
    (hstates : branchLifecycleStates refs = .ok states)
    (hproj : projectBranchLifecycleRefs refs = .ok projected) {ref : Ref}
    (hkind : ref.kind = .branch) :
    ref ∈ projected ↔ ref ∈ refs ∧ hides (states ref.name) ref.target = false := by
  simp only [projectBranchLifecycleRefs, hstates, ok_bind, Except.ok.injEq] at hproj
  subst hproj
  rw [List.mem_filterMap]
  constructor
  · rintro ⟨raw, hraw, hshown⟩
    unfold projectRef at hshown
    split_ifs at hshown with hhid hhead
    · -- a projected HEAD is still a HEAD
      rw [Option.some.injEq] at hshown
      rw [← hshown, projectHead_kind, hhead.1] at hkind
      cases hkind
    · rw [Option.some.injEq] at hshown
      subst hshown
      exact ⟨hraw, by simpa [hkind] using hhid⟩
  · rintro ⟨hraw, hvis⟩
    refine ⟨ref, hraw, ?_⟩
    unfold projectRef
    rw [if_neg (by simp [hvis]), if_neg (by simp [hkind])]

/-! ### Ref validators -/

/-- `ValidateRefName`. -/
def validateRefName (kind : RefKind) (name : String) : Except DomainError Unit :=
  match kind with
  | .head => refuse (name ≠ headRefName)
      { sentinel := .validation, format := "head ref name must be %q", args := [headRefName] }
  | .tag =>
      if hasPrefix name branchLifecycleTagPrefix then
        parseBranchLifecycleTagName name >>= fun _ => .ok ()
      else validateBranchName name
  | _ => validateBranchName name

/-- The target checks of `ValidateRef` on HEAD. -/
def validateHeadTarget (ref : Ref) : Except DomainError Unit := do
  validateOptionalContentHash ref.target
  if ref.symbolic ≠ "" then do
    refuse (ref.target ≠ "")
      { sentinel := .integrity, format := "HEAD cannot be symbolic and detached at once" }
    validateBranchName (trimPrefix ref.symbolic "refs/heads/")
  else
    refuse (ref.target = "")
      { sentinel := .integrity, format := "HEAD target or symbolic branch required" }

/-- `ValidateRef`. -/
def validateRef (ref : Ref) : Except DomainError Unit := do
  refuse (128 < ref.branchID.utf8ByteSize ∨ (bytesOf ref.branchID).any
      (fun b => b == byteOf '\r' || b == byteOf '\n') = true)
    { sentinel := .plain, format := "invalid branch identity" }
  validateContentHash ref.repoID
  validateRefName ref.kind ref.name
  if ref.kind = .head then validateHeadTarget ref
  else do
    refuse (ref.target = "") { sentinel := .integrity, format := "ref target required" }
    validateContentHash ref.target

/-- A branch identity that `ValidateRef` rejects. -/
def badBranchID (id : String) : Prop :=
  128 < id.utf8ByteSize ∨
    (bytesOf id).any (fun b => b == byteOf '\r' || b == byteOf '\n') = true

/-- What `ValidateRef` asks of a ref that is not HEAD. -/
theorem validateRef_eq_ok {ref : Ref} (hkind : ref.kind ≠ .head) :
    validateRef ref = .ok () ↔ ¬ badBranchID ref.branchID ∧ validContentHash ref.repoID = true ∧
      validateRefName ref.kind ref.name = .ok () ∧ validContentHash ref.target = true := by
  simp only [validateRef, bind_eq_ok, exists_unit_iff, refuse_eq_ok, validateContentHash_eq_ok,
    if_neg hkind, badBranchID]
  refine and_congr_right fun _ => and_congr_right fun _ => and_congr_right fun _ => ?_
  exact and_iff_right_of_imp ne_empty_of_validContentHash

end Backend
end CxtHub
