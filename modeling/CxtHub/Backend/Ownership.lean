/-
# The ownership migration

`backend/internal/domain/ownership_migration.go` and the record validators of
`identity.go` that it calls.  A legacy repository is a visibility boundary that holds any
number of content repositories; `PlanRepositoryOwnership` gives each content repository a
boundary of its own, with the members and invitations of the old one, and keeps the old
addresses as aliases.

Records have the fields that the plan reads; the others are copied with them.  The decoded
path of a URL is a string of bytes, which `OwnershipEnv.text` writes as a text.
-/

import CxtHub.Backend.Values
import CxtHub.Lib.Dir
import CxtHub.Lib.Sorted
import CxtHub.Lib.Url

namespace CxtHub
namespace Backend

/-- What the plan takes from outside: how a bracketed host is read, the text of a byte
string, `HashContent`. -/
structure OwnershipEnv where
  bracket : List Char → Option (List UInt8)
  text : List UInt8 → String
  hashContent : String → ContentHash

/-! ### Records -/

/-- `Repository`, the visibility boundary. -/
structure Repository where
  id : String
  name : String
  ownerID : String
  slug : String
  ownerUsername : String
  ownerNamespaceID : String := ""
  visibility : String := ""
  publicRole : String := ""
  secretsPolicy : String := ""
  settingsPolicy : String := ""
  deriving DecidableEq, Repr

/-- `Repo`, a content repository. -/
structure ContentRepo where
  id : ContentHash
  remoteURL : String
  repositoryID : String := ""
  deriving DecidableEq, Repr

/-- `Membership`. -/
structure Membership where
  repositoryID : String
  userID : String
  role : String
  deriving DecidableEq, Repr

/-- `Invite`. -/
structure Invite where
  token : String
  repositoryID : String
  role : String
  status : String
  createdBy : String
  deriving DecidableEq, Repr

/-- `RepositoryPathAlias`. -/
structure RepositoryPathAlias where
  namespaceID : String := ""
  owner : String
  path : String
  repositoryID : String
  contextRepoID : ContentHash := ""
  deriving DecidableEq, Repr

/-- `RepositoryInviteTarget`. -/
structure RepositoryInviteTarget where
  token : String
  repositoryID : String
  deriving DecidableEq, Repr

/-- `OwnershipMigration`. -/
structure OwnershipMigration where
  repositories : List Repository
  repos : List ContentRepo
  members : List Membership
  invites : List Invite
  inviteTargets : List RepositoryInviteTarget
  aliases : List RepositoryPathAlias
  targets : Dir String (List String)
  deriving DecidableEq

/-! ### Validators -/

def validationError (format : String) : DomainError := { sentinel := .validation, format }

/-- `validatePrefixedHexID`; the prefix ends in an underscore, which the error leaves out. -/
def validatePrefixedHexID (value pfx : String) (hexLen : ℕ) : Except DomainError Unit :=
  refuse (value.utf8ByteSize ≠ pfx.utf8ByteSize + hexLen ∨ hasPrefix value pfx = false ∨
      ((bytesOf value).drop pfx.utf8ByteSize).all isHexDigit = false)
    { sentinel := .validation, format := "invalid %s identifier"
      args := [String.ofList pfx.toList.dropLast] }

/-- `ValidateRepositoryID`. -/
def validateRepositoryID (id : String) : Except DomainError Unit :=
  validatePrefixedHexID id "ws_" 32

/-- `ValidateInviteToken`. -/
def validateInviteToken (token : String) : Except DomainError Unit :=
  validatePrefixedHexID token "inv_" 32

/-- `ValidateNamespaceID`. -/
def validateNamespaceID (id : String) : Except DomainError Unit := validatePrefixedHexID id "ns_" 32

/-- `ValidateExternalID`. -/
def validateExternalID (id : String) : Except DomainError Unit :=
  refuse (id = "" ∨ id.utf8ByteSize > 512 ∨
      id.toList.any (fun c => c.toNat ≤ 0x1f || c.toNat = 0x7f) = true)
    (validationError "invalid external identifier")

/-- `ValidRole`. -/
def validRole (role : String) : Bool :=
  role ∈ ["viewer", "puller", "member", "maintainer", "owner"]

/-- `ValidInviteStatus`. -/
def validInviteStatus (status : String) : Bool := status ∈ ["pending", "accepted", "revoked"]

/-- `ValidPublicRole`. -/
def validPublicRole (role : String) : Bool := role ∈ ["", "viewer", "puller"]

def validPolicy (policy : String) : Bool := policy ∈ ["", "members", "owner"]

/-- `ValidateRepositoryRecord`. -/
def validateRepositoryRecord (w : Repository) : Except DomainError Unit := do
  validateRepositoryID w.id
  validateExternalID w.ownerID
  onlyIf (w.ownerNamespaceID ≠ "") (validateNamespaceID w.ownerNamespaceID)
  refuse (w.visibility ∉ ["", "private", "public"])
    (validationError "invalid repository visibility")
  refuse (validPublicRole w.publicRole = false) (validationError "invalid repository public role")
  refuse (validPolicy w.secretsPolicy = false ∨ validPolicy w.settingsPolicy = false)
    (validationError "invalid repository policy")

/-- `ValidateMembershipRecord`. -/
def validateMembershipRecord (m : Membership) : Except DomainError Unit := do
  validateRepositoryID m.repositoryID
  validateExternalID m.userID
  refuse (validRole m.role = false) (validationError "invalid membership role")

/-- `ValidateInviteRecord`. -/
def validateInviteRecord (inv : Invite) : Except DomainError Unit := do
  validateInviteToken inv.token
  validateRepositoryID inv.repositoryID
  validateExternalID inv.createdBy
  refuse (validRole inv.role = false) (validationError "invalid invite role")
  refuse (validInviteStatus inv.status = false) (validationError "invalid invite status")

/-- `ValidRepositoryName`: the expression `^[A-Za-z]([A-Za-z0-9_-]*[A-Za-z0-9])?$` and at
most 64 bytes. -/
def validRepositoryName (name : String) : Bool :=
  let l := name.toList
  decide (name.utf8ByteSize ≤ 64) && l.head?.any Char.isAlpha && l.getLast?.any Char.isAlphanum &&
    l.all fun c => c.isAlphanum || c = '_' || c = '-'

/-- `ValidRepositorySlug`; a valid name is ASCII. -/
def validRepositorySlug (slug : String) : Bool :=
  validRepositoryName slug && decide (slug.toList.map Char.toLower = slug.toList)

/-! ### Legacy connections -/

/-- Split at every slash. -/
def splitSlashes (l : List UInt8) : List (List UInt8) := splitBytes (byteOf '/') l

/-- `strings.Trim(s, "/")`. -/
def trimSlashBytes (l : List UInt8) : List UInt8 :=
  ((l.dropWhile (· = byteOf '/')).reverse.dropWhile (· = byteOf '/')).reverse

/-- A segment of a connection path that is accepted. -/
def validSegment (part : List UInt8) : Bool :=
  decide (part ≠ [] ∧ part ≠ bytesOf "." ∧ part ≠ bytesOf "..") &&
    part.all fun b => decide (b ≠ byteOf '\\' ∧ b ≠ 0)

/-- The segments of the path of a connection: an owner and one or two names. -/
def legacyParts (env : OwnershipEnv) (remoteURL : String) : Option (List String) :=
  match Url.parse env.bracket remoteURL.toList with
  | none => none
  | some u =>
      if u.host = [] ∨ (u.scheme ≠ "http".toList ∧ u.scheme ≠ "https".toList) ∨ u.rawQuery ≠ [] ∨
          u.fragment ≠ [] ∨ u.user.isSome then none
      else
        let parts := splitSlashes (trimSlashBytes u.path)
        if parts.length ≠ 2 ∧ parts.length ≠ 3 then none
        else if parts.all validSegment = false then none
        else some (parts.map env.text)

/-- `legacyPath`: the path after the owner; the empty text is a refusal. -/
def legacyPath (env : OwnershipEnv) (r : ContentRepo) : String :=
  match legacyParts env r.remoteURL with
  | none => ""
  | some parts => "/".intercalate parts.tail

/-- `legacyOwner`. -/
def legacyOwner (env : OwnershipEnv) (r : ContentRepo) : String :=
  ((legacyParts env r.remoteURL).bind List.head?).getD ""

/-- `strings.Contains(path, "/")`. -/
def hasSlash (path : String) : Bool := path.toList.contains '/'

/-! ### The plan -/

/-- `ownerKey`. -/
def ownerKey (w : Repository) : String :=
  if w.ownerNamespaceID ≠ "" then w.ownerNamespaceID else "handle:" ++ w.ownerUsername

def ambiguous (format : String) : DomainError := { sentinel := .integrity, format }

/-- The tables of the plan. -/
structure PlanState where
  byID : Dir String Repository := Dir.empty
  reserved : Dir String String := Dir.empty
  aliasTargets : Dir String String := Dir.empty
  repositories : List Repository := []
  repos : List ContentRepo := []
  aliases : List RepositoryPathAlias := []
  targets : Dir String (List String) := Dir.empty

/-- A turn of the loop over the legacy repositories. -/
def admitContainer (s : PlanState) (w : Repository) : Except DomainError PlanState := do
  validateRepositoryRecord w
  refuse (w.ownerUsername = "" ∨ validRepositorySlug w.slug = false ∨ (s.byID.get w.id).isSome)
    (ambiguous "ambiguous legacy repository owner or name")
  refuse ((s.reserved.get (ownerKey w ++ "/" ++ w.slug)).isSome)
    (ambiguous "duplicate legacy repository address")
  .ok { s with reserved := s.reserved.set (ownerKey w ++ "/" ++ w.slug) w.id
               byID := s.byID.set w.id w }

/-- The loop over the content repositories, with the ids met before. -/
def admitRepos (byID : Dir String Repository) :
    List ContentHash → List ContentRepo → Except DomainError Unit
  | _, [] => .ok ()
  | seen, r :: rest => do
      validateContentHash r.id
      refuse (r.id ∈ seen) (ambiguous "duplicate content repository ID")
      refuse (r.repositoryID ≠ "" ∧ (byID.get r.repositoryID).isNone)
        (ambiguous "missing legacy repository boundary")
      admitRepos byID (r.id :: seen) rest

/-- The key of an alias. -/
def RepositoryPathAlias.key (a : RepositoryPathAlias) : String :=
  (if a.namespaceID = "" then "handle:" ++ a.owner else a.namespaceID) ++ "/" ++ a.path

/-- A turn of the loop of `addAlias`. -/
def putAlias (s : PlanState) (a : RepositoryPathAlias) : Except DomainError PlanState :=
  match s.aliasTargets.get a.key with
  | some target =>
      if target ≠ a.repositoryID then .error (ambiguous "ambiguous repository alias") else .ok s
  | none => .ok { s with aliasTargets := s.aliasTargets.set a.key a.repositoryID
                         aliases := s.aliases ++ [a] }

/-- The aliases of `addAlias`: under the namespace, and under the handle. -/
def aliasesFor (namespaceID owner path id : String) (content : ContentHash) :
    List RepositoryPathAlias :=
  { namespaceID, owner, path, repositoryID := id, contextRepoID := content } ::
    if namespaceID ≠ "" then [{ owner, path, repositoryID := id, contextRepoID := content }] else []

/-- `addAlias`. -/
def addAlias (s : PlanState) (namespaceID owner path id : String) (content : ContentHash) :
    Except DomainError PlanState :=
  (aliasesFor namespaceID owner path id content).foldlM putAlias s

/-- The hexadecimal digits of a content hash. -/
def hashHead (h : ContentHash) (n : ℕ) : String :=
  String.ofList ((trimPrefix h contentHashPrefix).toList.take n)

/-- The boundary of a content repository after the first. -/
def boundaryID (env : OwnershipEnv) (r : ContentRepo) : String :=
  "ws_" ++ hashHead (env.hashContent ("repository-boundary:" ++ r.id)) 32

/-- The last segment of a path. -/
def lastSegment (path : String) : String :=
  match splitLast ['/'] path.toList with
  | some (_, name) => String.ofList name
  | none => path

/-- The name that a content repository asks for. -/
def preferredName (w : Repository) (path : String) (r : ContentRepo) : String :=
  let name := if hasSlash path then lastSegment path else w.slug
  if validRepositorySlug name then name else "repository-" ++ hashHead r.id 12

/-- `occupied`. -/
def occupied (s : PlanState) (w : Repository) (path : String) (count : ℕ) (slug : String) : Bool :=
  match s.reserved.get (ownerKey w ++ "/" ++ slug) with
  | none => false
  | some holder => !(slug = w.slug ∧ holder = w.id ∧ (hasSlash path = false ∨ count = 1))

/-- A name cut to its place and marked with the content hash. -/
def suffixedName (candidate : String) (r : ContentRepo) : String :=
  let suffix := "-" ++ hashHead r.id 12
  let short := if candidate.utf8ByteSize > 64 - suffix.utf8ByteSize then
    String.ofList ((candidate.toList.take (64 - suffix.utf8ByteSize)).reverse.dropWhile
      fun c => c = '-' || c = '_').reverse
    else candidate
  short ++ suffix

/-- The candidate for the name, by its chain of fallbacks. -/
def candidateName (s : PlanState) (w : Repository) (path : String) (count : ℕ) (r : ContentRepo) :
    String :=
  let name := preferredName w path r
  let candidate := if occupied s w path count name then w.slug ++ "-" ++ name else name
  if candidate.utf8ByteSize > 64 ∨ occupied s w path count candidate then suffixedName candidate r
  else candidate

/-- The boundary of the `i`-th content repository: the first one keeps that of the
container. -/
def childID (env : OwnershipEnv) (w : Repository) (i : ℕ) (r : ContentRepo) : String :=
  if i = 0 then w.id else boundaryID env r

/-- The tables after a content repository has a boundary and a name. -/
def recordChild (w : Repository) (r : ContentRepo) (id candidate : String) (s : PlanState) :
    PlanState :=
  { s with
    byID := s.byID.set id { w with id }
    reserved := s.reserved.set (ownerKey w ++ "/" ++ candidate) id
    repositories := s.repositories ++
      [{ w with id, slug := candidate, name := if candidate ≠ w.slug then candidate else w.name }]
    targets := s.targets.set w.id ((s.targets.get w.id).getD [] ++ [id])
    repos := s.repos ++ [{ r with repositoryID := id }] }

/-- The alias of a connection under an owner that the container no longer has. -/
def addOldOwner (env : OwnershipEnv) (w : Repository) (r : ContentRepo) (id : String)
    (s : PlanState) : Except DomainError PlanState :=
  if legacyOwner env r ≠ w.ownerUsername then
    addAlias s "" (legacyOwner env r) (legacyPath env r) id r.id
  else .ok s

/-- The aliases of a content repository: its connection, its new address, and the address
of the container when it is the only one. -/
def aliasChild (env : OwnershipEnv) (w : Repository) (count : ℕ) (r : ContentRepo)
    (id candidate : String) (s : PlanState) : Except DomainError PlanState := do
  let s ← addAlias s w.ownerNamespaceID w.ownerUsername (legacyPath env r) id r.id
  let s ← addOldOwner env w r id s
  let s ← addAlias s w.ownerNamespaceID w.ownerUsername candidate id r.id
  if count = 1 then addAlias s w.ownerNamespaceID w.ownerUsername w.slug id r.id else .ok s

/-- A turn of the loop over the content repositories of a container. -/
def placeChild (env : OwnershipEnv) (w : Repository) (count i : ℕ) (s : PlanState)
    (r : ContentRepo) : Except DomainError PlanState := do
  let path := legacyPath env r
  refuse (path = "") (ambiguous "invalid legacy repository connection")
  refuse (0 < i ∧ (s.byID.get (childID env w i r)).isSome)
    (ambiguous "repository boundary ID collision")
  let candidate := candidateName s w path count r
  refuse (validRepositorySlug candidate = false ∨ occupied s w path count candidate = true)
    (ambiguous "canonical repository name collision")
  aliasChild env w count r (childID env w i r) candidate
    (recordChild w r (childID env w i r) candidate s)

/-- The loop over the content repositories of a container, from the `i`-th on. -/
def placeChildren (env : OwnershipEnv) (w : Repository) (count : ℕ) :
    ℕ → PlanState → List ContentRepo → Except DomainError PlanState
  | _, s, [] => .ok s
  | i, s, r :: rest => do
      let s ← placeChild env w count i s r
      placeChildren env w count (i + 1) s rest

/-- The content repositories of a container: the former two-segment address first. -/
def childrenOf (env : OwnershipEnv) (repos : List ContentRepo) (w : Repository) :
    List ContentRepo :=
  sortOn (fun r => toLex (hasSlash (legacyPath env r), r.id))
    (repos.filter fun r => r.repositoryID = w.id)

/-- A turn of the loop over the containers. -/
def placeContainer (env : OwnershipEnv) (repos : List ContentRepo) (s : PlanState)
    (w : Repository) : Except DomainError PlanState :=
  let list := childrenOf env repos w
  if list = [] then
    addAlias { s with repositories := s.repositories ++ [w], targets := s.targets.set w.id [w.id] }
      w.ownerNamespaceID w.ownerUsername w.slug w.id ""
  else placeChildren env w list.length 0 s list

/-- The loop over the memberships, with the keys met before. -/
def admitMembers (targets : Dir String (List String)) :
    List String → List Membership → Except DomainError (List Membership)
  | _, [] => .ok []
  | seen, m :: rest => do
      let key := m.repositoryID ++ "/" ++ m.userID
      refuse (key ∈ seen) (ambiguous "duplicate collaborator")
      validateMembershipRecord m
      let ids := (targets.get m.repositoryID).getD []
      refuse (ids = []) (ambiguous "membership has no repository boundary")
      let out ← admitMembers targets (key :: seen) rest
      .ok (ids.map (fun id => { m with repositoryID := id }) ++ out)

/-- The loop over the invitations, with the tokens met before. -/
def admitInvites (targets : Dir String (List String)) :
    List String → List Invite →
      Except DomainError (List Invite × List RepositoryInviteTarget)
  | _, [] => .ok ([], [])
  | seen, inv :: rest => do
      refuse (inv.token ∈ seen) (ambiguous "duplicate invite")
      validateInviteRecord inv
      let ids := (targets.get inv.repositoryID).getD []
      refuse (ids = []) (ambiguous "invite has no repository boundary")
      let out ← admitInvites targets (inv.token :: seen) rest
      .ok ({ inv with repositoryID := ids.headD "" } :: out.1,
        ids.map (fun id => { token := inv.token, repositoryID := id }) ++ out.2)

/-- `PlanRepositoryOwnership`. -/
def planRepositoryOwnership (env : OwnershipEnv) (repositories : List Repository)
    (repos : List ContentRepo) (members : List Membership) (invites : List Invite) :
    Except DomainError OwnershipMigration := do
  let containers := sortOn Repository.id repositories
  let admitted ← containers.foldlM admitContainer {}
  admitRepos admitted.byID [] repos
  let s ← containers.foldlM (placeContainer env repos) admitted
  let members ← admitMembers s.targets [] members
  let (invites, inviteTargets) ← admitInvites s.targets [] invites
  -- unowned content stays unowned
  let unowned := repos.filter fun r => r.repositoryID = ""
  .ok { repositories := s.repositories
        repos := sortOn ContentRepo.id (unowned ++ s.repos)
        members := sortOn (fun m => toLex (m.repositoryID, m.userID)) members
        invites := sortOn Invite.token invites
        inviteTargets := sortOn (fun t => toLex (t.token, t.repositoryID)) inviteTargets
        aliases := s.aliases, targets := s.targets }

end Backend
end CxtHub
