/-
# Value objects and refs of the server

`backend/internal/domain/values.go` and the ref types of
`backend/internal/domain/entities.go`: content hashes, ref names and refs with
their validators.  Every validator returns the error the source returns, kept
as its sentinel, its format string and the values printed into it.

A ref name is checked byte by byte.  The source ranges over runes, but only looks
at ASCII ones, on which runes and bytes agree.
-/

import CxtHub.Lib.Checks
import CxtHub.Lib.Text

namespace CxtHub
namespace Backend

/-- The sentinel errors that the modelled functions wrap
(`backend/internal/domain/errors.go`, `join_preview.go`). -/
inductive Sentinel
  | notFound
  | integrity
  | refConflict
  | conflict
  | validation
  | unsupportedDocumentIdentity
  | branchArchived
  /-- An error without a sentinel, `fmt.Errorf` with no `%w`. -/
  | plain
  deriving DecidableEq, Repr

/-- An error: the sentinel it wraps, its own text with the verbs unexpanded, the
printed values, and the reason code of a `JoinPolicyError`. -/
structure DomainError where
  sentinel : Sentinel
  format : String := ""
  args : List String := []
  code : Option String := none
  deriving DecidableEq, Repr

/-- `ErrJoinPreviewChanged`, which wraps `ErrConflict`. -/
def errJoinPreviewChanged : DomainError :=
  { sentinel := .conflict,
    format := "join preview changed; review the current plan before confirming" }

/-- `joinDenied(code, cause)`. -/
def joinDenied (code : String) (cause : DomainError) : DomainError :=
  { cause with code := some code }

/-- `ContentHash`: `sha256:` and 64 lowercase hexadecimal digits, when valid. -/
abbrev ContentHash := String

def contentHashPrefix : String := "sha256:"

/-- A digit of a content hash. -/
def isHexDigit (c : UInt8) : Bool :=
  (decide (byteOf '0' ≤ c) && decide (c ≤ byteOf '9')) ||
    (decide (byteOf 'a' ≤ c) && decide (c ≤ byteOf 'f'))

/-- The format that `ValidateContentHash` accepts. -/
def validContentHash (h : ContentHash) : Bool :=
  decide (h.utf8ByteSize = 71) && hasPrefix h contentHashPrefix &&
    ((bytesOf h).drop 7).all isHexDigit

/-- `ValidateContentHash`. -/
def validateContentHash (h : ContentHash) : Except DomainError Unit :=
  refuse (validContentHash h = false)
    { sentinel := .integrity, format := "invalid content hash %q", args := [h] }

/-- `ValidateOptionalContentHash`: the empty value is allowed. -/
def validateOptionalContentHash (h : ContentHash) : Except DomainError Unit :=
  if h = "" then .ok () else validateContentHash h

@[simp] theorem validateContentHash_eq_ok {h : ContentHash} {u : Unit} :
    validateContentHash h = .ok u ↔ validContentHash h = true := by
  simp [validateContentHash]

/-- A valid content hash is never the empty string that stands for "none". -/
theorem ne_empty_of_validContentHash {h : ContentHash} (hv : validContentHash h = true) :
    h ≠ "" := by
  rintro rfl
  exact absurd hv (by decide)

/-- The content hash with one repeated digit, for examples. -/
def digitHash (c : Char) : ContentHash :=
  contentHashPrefix ++ String.ofList (List.replicate 64 c)

example : validContentHash (digitHash '7') = true := by decide

/-- `RefKind`. -/
inductive RefKind
  | head
  | branch
  | session
  | tag
  deriving DecidableEq, Repr

/-- The string value of a kind. -/
def RefKind.text : RefKind → String
  | .head => "head"
  | .branch => "branch"
  | .session => "session"
  | .tag => "tag"

def headRefName : String := "HEAD"

/-- `SessionRefPrefix`: the branch's byte length is a path component of its own. -/
def sessionRefPrefix (branch : String) : String :=
  "fork/v1/" ++ toString branch.utf8ByteSize ++ "/" ++ branch ++ "/"

/-- A path component that `ValidateBranchName` rejects. -/
def badPart (part : List UInt8) : Bool :=
  part.isEmpty || [byteOf '.'].isPrefixOf part || (bytesOf ".lock").isSuffixOf part

/-- A byte that `ValidateBranchName` rejects. -/
def badRune (r : UInt8) : Bool :=
  decide (r ≤ byteOf ' ') || decide (r = 0x7f) || (bytesOf "~^:?*[").contains r

/-- The names that `ValidateBranchName` accepts, in the order of its checks. -/
def validBranchName (name : String) : Bool :=
  !(decide (name = "") || decide (1024 < name.utf8ByteSize)) &&
  !(hasPrefix name "-") &&
  !(hasPrefix name "/" || hasSuffix name "/" || containsText name "//") &&
  !(containsText name "\\" || containsText name ".." || containsText name "@\x7b" ||
    decide (name = "@") || hasSuffix name ".") &&
  !((splitBytes (byteOf '/') (bytesOf name)).any badPart) &&
  !((bytesOf name).any badRune)

/-- `ValidateBranchName`. -/
def validateBranchName (name : String) : Except DomainError Unit :=
  refuse (validBranchName name = false)
    { sentinel := .validation, format := "invalid ref name %q", args := [name] }

@[simp] theorem validateBranchName_eq_ok {name : String} {u : Unit} :
    validateBranchName name = .ok u ↔ validBranchName name = true := by
  simp [validateBranchName]

/-- `Ref`. -/
structure Ref where
  branchID : String := ""
  kind : RefKind
  name : String
  repoID : ContentHash
  target : ContentHash
  symbolic : String := ""
  deriving DecidableEq, Repr

/-- `RefLogEntry`; times are instants. -/
structure RefLogEntry where
  kind : RefKind
  name : String
  old : ContentHash
  new : ContentHash
  createdAt : ℕ
  deriving DecidableEq, Repr

end Backend
end CxtHub
