/-
# Value objects, refs and lifecycle tags of the client

`cli/internal/domain/values.go`, `branch_lifecycle.go` and the errors of
`errors.go`.  The client has its own copy of the server's formats: content hashes,
ref names and lifecycle tags are accepted and read in the same way, and only the
sentinel errors differ (`ofServer`).  `ValidateRef` differs in one more point: the
client does not check the repository id.

Operation and worktree ids are 32 lowercase hexadecimal digits (`lowerHex 32`).
-/

import CxtHub.Backend.Lifecycle
import CxtHub.Lib.Slices

namespace CxtHub
namespace Cli

open Backend (ContentHash RefKind Ref BranchLifecycleEvent BranchLifecycleState validContentHash
  validBranchName isHexDigit branchLifecycleTagPrefix contentHashPrefix badBranchID)

/-- The sentinel errors that the modelled functions return. -/
inductive Sentinel
  | notFound
  | hashMismatch
  | invalidRef
  | syncConflict
  | branchArchived
  | unsupportedDocumentIdentity
  | contextProtocolRequired
  /-- An error without a sentinel, `fmt.Errorf` with no `%w`. -/
  | plain
  deriving DecidableEq, Repr

/-- An error: the sentinel it wraps, its own text with the verbs unexpanded, the
printed values. -/
structure DomainError where
  sentinel : Sentinel
  format : String := ""
  args : List String := []
  deriving DecidableEq, Repr

/-- A sentinel returned as it is. -/
def bare (s : Sentinel) : DomainError := { sentinel := s }

/-- `fmt.Errorf(text)`. -/
def plain (text : String) : DomainError := { sentinel := .plain, format := text }

/-- The client's sentinel for one of the server's. -/
def clientSentinel : Backend.Sentinel → Sentinel
  | .notFound => .notFound
  | .integrity => .hashMismatch
  | .validation => .invalidRef
  | .refConflict => .syncConflict
  | .conflict => .syncConflict
  | .unsupportedDocumentIdentity => .unsupportedDocumentIdentity
  | .branchArchived => .branchArchived
  | .plain => .plain

/-- A result of a function that client and server have in common. -/
def ofServer {α : Type} : Except Backend.DomainError α → Except DomainError α
  | .ok a => .ok a
  | .error e =>
      .error { sentinel := clientSentinel e.sentinel, format := e.format, args := e.args }

@[simp] theorem ofServer_eq_ok {α : Type} {x : Except Backend.DomainError α} {a : α} :
    ofServer x = .ok a ↔ x = .ok a := by
  cases x <;> simp [ofServer]

/-- `ValidateContentHash`. -/
def validateContentHash (h : ContentHash) : Except DomainError Unit :=
  ofServer (Backend.validateContentHash h)

/-- `ValidateOptionalContentHash`. -/
def validateOptionalContentHash (h : ContentHash) : Except DomainError Unit :=
  ofServer (Backend.validateOptionalContentHash h)

/-- `ValidateBranchName`. -/
def validateBranchName (name : String) : Except DomainError Unit :=
  ofServer (Backend.validateBranchName name)

@[simp] theorem validateContentHash_eq_ok {h : ContentHash} {u : Unit} :
    validateContentHash h = .ok u ↔ validContentHash h = true := by
  simp [validateContentHash]

@[simp] theorem validateBranchName_eq_ok {name : String} {u : Unit} :
    validateBranchName name = .ok u ↔ validBranchName name = true := by
  simp [validateBranchName]

/-! ### Hexadecimal texts -/

/-- The length and alphabet of a text with `n` lowercase hexadecimal digits. -/
def lowerHex (n : ℕ) (s : String) : Bool :=
  decide (s.utf8ByteSize = n) && (bytesOf s).all isHexDigit

/-- A byte that `hex.DecodeString` accepts. -/
def isHexByte (c : UInt8) : Bool :=
  isHexDigit c || (decide (byteOf 'A' ≤ c) && decide (c ≤ byteOf 'F'))

/-- `hex.DecodeString(s)` succeeds. -/
def hexText (s : String) : Bool := decide (s.utf8ByteSize % 2 = 0) && (bytesOf s).all isHexByte

/-- The length of a SHA-1 or SHA-256 object id. -/
def oidLength (s : String) : Bool := decide (s.utf8ByteSize = 40) || decide (s.utf8ByteSize = 64)

/-- `strings.Trim(s, "0") == ""`. -/
def allZero (s : String) : Bool := (bytesOf s).all (· == byteOf '0')

/-- `strings.ToLower(s) == s`, for the texts that are decoded from hexadecimal next. -/
def isLower (s : String) : Bool := decide (s.toList.map Char.toLower = s.toList)

/-- `ValidGitOID`. -/
def validGitOID (s : String) : Bool := oidLength s && isLower s && !allZero s && hexText s

/-! ### Refs -/

/-- `ValidateRefName`. -/
def validateRefName (kind : RefKind) (name : String) : Except DomainError Unit :=
  ofServer (Backend.validateRefName kind name)

/-- The target checks of `ValidateRef` on HEAD. -/
def validateHeadTarget (ref : Ref) : Except DomainError Unit := do
  validateOptionalContentHash ref.target
  if ref.symbolic ≠ "" then do
    refuse (ref.target ≠ "")
      { sentinel := .invalidRef, format := "HEAD cannot be symbolic and detached at once" }
    validateBranchName (trimPrefix ref.symbolic "refs/heads/")
  else
    refuse (ref.target = "")
      { sentinel := .invalidRef, format := "HEAD target or symbolic branch required" }

instance (id : String) : Decidable (badBranchID id) := inferInstanceAs (Decidable (_ ∨ _))

/-- `ValidateRef`. -/
def validateRef (ref : Ref) : Except DomainError Unit := do
  refuse (badBranchID ref.branchID) (plain "invalid branch identity")
  validateRefName ref.kind ref.name
  if ref.kind = .head then validateHeadTarget ref
  else do
    refuse (ref.target = "") { sentinel := .invalidRef, format := "ref target required" }
    validateContentHash ref.target

/-- What `ValidateRef` asks of a ref that is not HEAD. -/
theorem validateRef_eq_ok {ref : Ref} (hkind : ref.kind ≠ .head) :
    validateRef ref = .ok () ↔ ¬ badBranchID ref.branchID ∧
      validateRefName ref.kind ref.name = .ok () ∧ validContentHash ref.target = true := by
  simp only [validateRef, bind_eq_ok, exists_unit_iff, refuse_eq_ok, validateContentHash_eq_ok,
    if_neg hkind]
  refine and_congr_right fun _ => and_congr_right fun _ => ?_
  exact and_iff_right_of_imp Backend.ne_empty_of_validContentHash

/-! ### Lifecycle tags -/

/-- `ParseBranchLifecycleRef`. -/
def parseBranchLifecycleRef (ref : Ref) : Except DomainError (Option BranchLifecycleEvent) :=
  ofServer (Backend.parseBranchLifecycleRef ref)

/-- The loop of `LatestBranchLifecycle`, with the latest event so far. -/
def latestBranchLifecycleFrom (branch : String) (latest : Option BranchLifecycleEvent) :
    List Ref → Except DomainError (Option BranchLifecycleEvent)
  | [] => .ok latest
  | ref :: refs => do
      match ← parseBranchLifecycleRef ref with
      | none => latestBranchLifecycleFrom branch latest refs
      | some event =>
          let later := match latest with
            | none => true
            | some current => Backend.branchLifecycleLater event current
          latestBranchLifecycleFrom branch
            (if event.branch = branch ∧ later = true then some event else latest) refs

/-- `LatestBranchLifecycle`. -/
def latestBranchLifecycle (refs : List Ref) (branch : String) :
    Except DomainError (Option BranchLifecycleEvent) :=
  latestBranchLifecycleFrom branch none refs

/-- `NextBranchLifecycleGeneration`. -/
def nextBranchLifecycleGeneration (refs : List Ref) (branch : String) :
    Except DomainError ℕ := do
  match ← latestBranchLifecycle refs branch with
  | none => .ok 1
  | some latest => do
      refuse (latest.generation = 2 ^ 64 - 1)
        { sentinel := .invalidRef, format := "branch lifecycle generation exhausted" }
      .ok (latest.generation + 1)

/-- The name of a lifecycle state in a tag. -/
def stateName : BranchLifecycleState → String
  | .active => "active"
  | .archived => "archived"

/-- `NewBranchLifecycleRef`. -/
def newBranchLifecycleRef (repoID branch : String) (target : ContentHash) (generation : ℕ)
    (state : BranchLifecycleState) : Except DomainError Ref := do
  validateBranchName branch
  validateContentHash target
  refuse (generation = 0) { sentinel := .invalidRef, format := "invalid branch lifecycle event" }
  let ref : Ref :=
    { kind := .tag, repoID := repoID, target := target
      name := branchLifecycleTagPrefix ++ String.ofList (padded20 generation) ++ "/" ++
        stateName state ++ "/" ++ trimPrefix target contentHashPrefix ++ "/" ++ branch }
  validateRef ref
  .ok ref

end Cli
end CxtHub
