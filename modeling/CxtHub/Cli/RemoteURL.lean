/-
# Remote URLs and the identity of a repository

`cli/internal/adapters/gitctx/normalize.go`.  `NormalizeRemoteURL` is the identity of a
repository: the remote without credentials, scheme, query and fragment, in lower case.  A
remote is a URL or an SCP address (`user@host:path`).

`backend/internal/domain/url.go` has the same `SanitizeRemoteURL`, and
`git_remote_normalization.go` the same normal form for the remotes that it keeps
(`NormalizeGitRemoteURL`).
-/

import CxtHub.Lib.Url

namespace CxtHub
namespace Cli

open Url (URL cut)

/-- `unicode.IsControl`. -/
def isControl (c : Char) : Bool := c.toNat < 0x20 || decide (0x7f ≤ c.toNat ∧ c.toNat ≤ 0x9f)

/-- The bytes of a text. -/
def utf8 (l : List Char) : List UInt8 := l.flatMap String.utf8EncodeChar

end Cli
end CxtHub
