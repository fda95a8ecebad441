/-
# The ownership migration changes nobody's access

`planRepositoryOwnership_keepsAccess`: a plan that succeeds has every content repository
once, keeps what is unowned unowned, gives each new boundary the owner, the visibility and
the members of the old one, has no id, address or alias key twice, resolves every old
connection, and points every invitation at all parts of its container (`KeepsAccess`); and
any order of the inputs gives the same plan.

The checks do not depend on the order of the inputs (`admitRepos_eq_ok`,
`admitMembers_eq_ok`, `admitInvites_eq_ok`), and the lists of the plan are sorted by keys
that do not come twice.
-/

import CxtHub.Backend.OwnershipSplit

namespace CxtHub
namespace Backend

/-! ### The checks -/

/-- A valid id is not empty. -/
theorem id_ne_empty {id : String} (h : validateRepositoryID id = .ok ()) : id ≠ "" := by
  rintro rfl
  revert h
  decide

/-- What the loop over the legacy repositories leaves. -/
structure Admitted (done : List Repository) (s : PlanState) : Prop where
  nodup : (done.map Repository.id).Nodup
  byID : ∀ id, (s.byID.get id).isSome ↔ id ∈ done.map Repository.id
  named : ∀ w ∈ done, w.id ≠ ""
  repositories : s.repositories = []
  repos : s.repos = []
  aliases : s.aliases = []
  aliasTargets : s.aliasTargets = Dir.empty
  targets : s.targets = Dir.empty

/-- The loop admits each container under its id and path. -/
theorem admitContainers_spec {containers : List Repository} {s : PlanState}
    (h : containers.foldlM admitContainer {} = .ok s) : Admitted containers s := by
  refine foldlM_invariant_split (P := Admitted) ?_ ⟨List.nodup_nil, fun id => by simp, nofun, rfl,
    rfl, rfl, rfl, rfl⟩ h
  intro done w rest s s' _ hs hw
  simp only [admitContainer, bind_eq_ok, refuse_eq_ok, exists_unit_iff, Except.ok.injEq] at hw
  obtain ⟨hvalid, hfresh, -, rfl⟩ := hw
  have hnew : w.id ∉ done.map Repository.id := fun hmem =>
    hfresh (.inr (.inr ((hs.byID _).2 hmem)))
  have hid : w.id ≠ "" := by
    simp only [validateRepositoryRecord, bind_eq_ok, exists_unit_iff] at hvalid
    exact id_ne_empty hvalid.1
  refine ⟨?_, fun id => ?_, fun v hv => ?_, hs.repositories, hs.repos, hs.aliases, hs.aliasTargets,
    hs.targets⟩
  · rw [List.map_append, List.map_singleton, List.nodup_append]
    refine ⟨hs.nodup, List.nodup_singleton _, fun a ha b hb hab => ?_⟩
    rw [List.mem_singleton] at hb
    exact hnew (hb ▸ hab ▸ ha)
  · rw [List.map_append, List.mem_append, List.map_singleton, List.mem_singleton, ← hs.byID]
    by_cases heq : id = w.id
    · simp [heq]
    · simp [Dir.get_set_of_ne _ _ heq, heq]
  · rcases List.mem_append.1 hv with hv | hv
    · exact hs.named v hv
    · rwa [List.mem_singleton.1 hv]

/-- The loop over the content repositories succeeds exactly when all are valid, no id comes
twice and every boundary is there. -/
theorem admitRepos_eq_ok {byID : Dir String Repository} {seen : List ContentHash}
    {repos : List ContentRepo} {u : Unit} :
    admitRepos byID seen repos = .ok u ↔
      (∀ r ∈ repos, validContentHash r.id = true ∧
        (r.repositoryID ≠ "" → (byID.get r.repositoryID).isSome)) ∧
      (repos.map ContentRepo.id).Nodup ∧ ∀ r ∈ repos, r.id ∉ seen := by
  induction repos generalizing seen with
  | nil => simp [admitRepos]
  | cons r rest ih =>
      simp only [admitRepos, bind_eq_ok, exists_unit_iff, validateContentHash_eq_ok, refuse_eq_ok,
        ih, forall_eq_or_imp, List.map_cons, List.nodup_cons, List.mem_cons, not_or, not_and,
        Option.isNone_iff_eq_none, ← Option.isSome_iff_ne_none, List.mem_map, not_exists]
      constructor
      · rintro ⟨hvalid, hseen, hknown, hall, hn, hfresh⟩
        exact ⟨⟨⟨hvalid, hknown⟩, hall⟩, ⟨fun x hx => (hfresh x hx).1, hn⟩, hseen,
          fun x hx => (hfresh x hx).2⟩
      · rintro ⟨⟨⟨hvalid, hknown⟩, hall⟩, ⟨hnew, hn⟩, hseen, hfresh⟩
        exact ⟨hvalid, hseen, hknown, hall, hn, fun x hx => ⟨hnew x hx, hfresh x hx⟩⟩

/-- The targets of a boundary. -/
def targetsOf (targets : Dir String (List String)) (id : String) : List String :=
  (targets.get id).getD []

/-- The key of a membership. -/
def Membership.key (m : Membership) : String := m.repositoryID ++ "/" ++ m.userID

/-- Members are copied to each target of their container. -/
theorem admitMembers_eq_ok {targets : Dir String (List String)} {seen : List String}
    {members out : List Membership} :
    admitMembers targets seen members = .ok out ↔
      (∀ m ∈ members, validateMembershipRecord m = .ok () ∧ targetsOf targets m.repositoryID ≠ []) ∧
      (members.map Membership.key).Nodup ∧ (∀ m ∈ members, m.key ∉ seen) ∧
      out = members.flatMap fun m => (targetsOf targets m.repositoryID).map fun id =>
        { m with repositoryID := id } := by
  induction members generalizing seen out with
  | nil => simp [admitMembers]
  | cons m rest ih =>
      simp only [admitMembers, bind_eq_ok, exists_unit_iff, refuse_eq_ok, ih,
        forall_eq_or_imp, List.map_cons, List.nodup_cons, List.mem_cons, not_or, List.mem_map,
        not_exists, not_and, List.flatMap_cons, Except.ok.injEq, targetsOf]
      constructor
      · rintro ⟨hseen, hvalid, hids, _, ⟨hall, hn, hfresh, rfl⟩, rfl⟩
        exact ⟨⟨⟨hvalid, hids⟩, hall⟩, ⟨fun x hx => (hfresh x hx).1, hn⟩,
          ⟨hseen, fun x hx => (hfresh x hx).2⟩, rfl⟩
      · rintro ⟨⟨⟨hvalid, hids⟩, hall⟩, ⟨hnew, hn⟩, ⟨hseen, hfresh⟩, rfl⟩
        exact ⟨hseen, hvalid, hids, _, ⟨hall, hn, fun x hx => ⟨hnew x hx, hfresh x hx⟩, rfl⟩, rfl⟩

/-- Invites keep their token and get each target of their container. -/
theorem admitInvites_eq_ok {targets : Dir String (List String)} {seen : List String}
    {invites : List Invite} {out : List Invite × List RepositoryInviteTarget} :
    admitInvites targets seen invites = .ok out ↔
      (∀ inv ∈ invites, validateInviteRecord inv = .ok () ∧
        targetsOf targets inv.repositoryID ≠ []) ∧
      (invites.map Invite.token).Nodup ∧ (∀ inv ∈ invites, inv.token ∉ seen) ∧
      out = (invites.map fun inv =>
          { inv with repositoryID := (targetsOf targets inv.repositoryID).headD "" },
        invites.flatMap fun inv => (targetsOf targets inv.repositoryID).map fun id =>
          { token := inv.token, repositoryID := id }) := by
  induction invites generalizing seen out with
  | nil => simpa [admitInvites] using eq_comm
  | cons inv rest ih =>
      simp only [admitInvites, bind_eq_ok, exists_unit_iff, refuse_eq_ok, ih,
        forall_eq_or_imp, List.map_cons, List.nodup_cons, List.mem_cons, not_or, List.mem_map,
        not_exists, not_and, List.flatMap_cons, Except.ok.injEq, targetsOf]
      constructor
      · rintro ⟨hseen, hvalid, hids, _, ⟨hall, hn, hfresh, rfl⟩, rfl⟩
        exact ⟨⟨⟨hvalid, hids⟩, hall⟩, ⟨fun x hx => (hfresh x hx).1, hn⟩,
          ⟨hseen, fun x hx => (hfresh x hx).2⟩, rfl⟩
      · rintro ⟨⟨⟨hvalid, hids⟩, hall⟩, ⟨hnew, hn⟩, ⟨hseen, hfresh⟩, rfl⟩
        exact ⟨hseen, hvalid, hids, _, ⟨hall, hn, fun x hx => ⟨hnew x hx, hfresh x hx⟩, rfl⟩, rfl⟩

/-! ### What the plan is made of -/

/-- The parts of a successful plan. -/
structure PlanParts (env : OwnershipEnv) (repositories : List Repository)
    (repos : List ContentRepo) (members : List Membership) (invites : List Invite)
    (out : OwnershipMigration) (placed : List Placement) : Prop where
  containers_nodup : (repositories.map Repository.id).Nodup
  containers_named : ∀ w ∈ repositories, w.id ≠ ""
  repos_nodup : (repos.map ContentRepo.id).Nodup
  repos_owned : ∀ r ∈ repos, r.repositoryID ≠ "" → ∃ w ∈ repositories, w.id = r.repositoryID
  planned : ∃ s, Placed env (sortOn Repository.id repositories) placed s ∧
    out.repositories = s.repositories ∧ out.aliases = s.aliases ∧ out.targets = s.targets
  contents : placed.filterMap Placement.content =
    (sortOn Repository.id repositories).flatMap (childrenOf env repos)
  container_mem : ∀ p ∈ placed, p.container ∈ repositories
  content_mem : ∀ p ∈ placed, ∀ r, p.content = some r → r ∈ repos ∧ r.repositoryID = p.container.id
  content_placed : ∀ r ∈ repos, ∀ w ∈ repositories, r.repositoryID = w.id →
    ∃ p ∈ placed, p.container = w ∧ p.content = some r
  empty_placed : ∀ p ∈ placed, p.content = none →
    p.next = p.container ∧ ∀ r ∈ repos, r.repositoryID ≠ p.container.id
  container_placed : ∀ w ∈ repositories, ∃ p ∈ placed, p.container = w
  out_repos : out.repos = sortOn ContentRepo.id
    ((repos.filter fun r => r.repositoryID = "") ++ placed.filterMap Placement.moved)
  members_nodup : (members.map Membership.key).Nodup
  out_members : out.members = sortOn (fun m => toLex (m.repositoryID, m.userID))
    (members.flatMap fun m => (targetsOf out.targets m.repositoryID).map fun id =>
      { m with repositoryID := id })
  invites_nodup : (invites.map Invite.token).Nodup
  out_inviteTargets : out.inviteTargets = sortOn (fun t => toLex (t.token, t.repositoryID))
    (invites.flatMap fun inv => (targetsOf out.targets inv.repositoryID).map fun id =>
      { token := inv.token, repositoryID := id })

/-- A moved content has the id of its place. -/
theorem moved_id {p : Placement} {r' : ContentRepo} :
    p.moved = some r' ↔ ∃ r, p.content = some r ∧ { r with repositoryID := p.next.id } = r' := by
  simp [Placement.moved]

/-- The contents that belong to a container. -/
theorem mem_childrenOf {env : OwnershipEnv} {repos : List ContentRepo} {w : Repository}
    {r : ContentRepo} : r ∈ childrenOf env repos w ↔ r ∈ repos ∧ r.repositoryID = w.id := by
  simp [childrenOf]

/-- A split places each content of its container. -/
theorem Split.contents {env : OwnershipEnv} {repos : List ContentRepo} {w : Repository}
    {ps : List Placement} (h : Split env repos w ps) :
    ps.filterMap Placement.content = childrenOf env repos w := by
  have hmap : ps.filterMap Placement.content = (ps.map Placement.content).filterMap id := by
    rw [List.filterMap_map]
    rfl
  rw [hmap, h.content]
  split_ifs with hempty
  · rw [hempty]
    rfl
  · rw [List.filterMap_map]
    exact List.filterMap_some

/-- The parts that a plan is made of. -/
theorem planParts_of_ok {env : OwnershipEnv} {repositories : List Repository}
    {repos : List ContentRepo} {members : List Membership} {invites : List Invite}
    {out : OwnershipMigration}
    (h : planRepositoryOwnership env repositories repos members invites = .ok out) :
    ∃ placed, PlanParts env repositories repos members invites out placed := by
  simp only [planRepositoryOwnership, bind_eq_ok, exists_unit_iff, Except.ok.injEq] at h
  obtain ⟨admitted, hadmit, hrepos, s, hplace, ms, hmembers, is, hinvites, rfl⟩ := h
  have hadmitted := admitContainers_spec hadmit
  obtain ⟨hvalid, hnodup, -⟩ := admitRepos_eq_ok.1 hrepos
  obtain ⟨-, hmkeys, -, rfl⟩ := admitMembers_eq_ok.1 hmembers
  obtain ⟨-, hikeys, -, rfl⟩ := admitInvites_eq_ok.1 hinvites
  have hstart : Placed env (sortOn Repository.id repositories) [] admitted := by
    refine ⟨hadmitted.repositories, hadmitted.repos, List.nodup_nil, by simp, by simp, by simp,
      fun w hw => (hadmitted.byID _).2 (List.mem_map_of_mem hw), fun id => ?_, ?_, fun a ha => ?_,
      by simp, by simp⟩
    · rw [hadmitted.targets]
      rfl
    · refine ⟨by rw [hadmitted.aliases]; exact List.nodup_nil, fun k id => ?_⟩
      rw [hadmitted.aliasTargets, hadmitted.aliases]
      simp
    · rw [hadmitted.aliases] at ha
      cases ha
  obtain ⟨groups, hfst, hsplit, hplanned⟩ :=
    placeContainers_placed hadmitted.nodup hstart hplace
  have hcontainer : ∀ w, w ∈ repositories ↔ ∃ g ∈ groups, g.1 = w := fun w => by
    rw [← (sortOn_perm Repository.id repositories).mem_iff, ← hfst, List.mem_map]
  have hmem : ∀ p, p ∈ groups.flatMap Prod.snd → ∃ g ∈ groups, p ∈ g.2 ∧ p.container = g.1 :=
    fun p hp => by
      obtain ⟨g, hg, hp⟩ := List.mem_flatMap.1 hp
      exact ⟨g, hg, hp, (hsplit g hg).container p hp⟩
  have hcontent : ∀ g ∈ groups, ∀ r, r ∈ childrenOf env repos g.1 ↔
      ∃ p ∈ g.2, p.content = some r := fun g hg r => by
    rw [← (hsplit g hg).contents, List.mem_filterMap]
  have hperm := sortOn_perm Repository.id repositories
  refine ⟨groups.flatMap Prod.snd,
    { containers_nodup := (hperm.map _).nodup_iff.1 hadmitted.nodup
      containers_named := fun w hw => hadmitted.named w (mem_sortOn.2 hw)
      repos_nodup := hnodup
      repos_owned := fun r hr hne => ?_
      planned := ⟨s, hplanned, rfl, rfl, rfl⟩
      contents := ?_
      container_mem := fun p hp => ?_
      content_mem := fun p hp r hr => ?_
      content_placed := fun r hr w hw hrw => ?_
      empty_placed := fun p hp hnone => ?_
      container_placed := fun w hw => ?_
      out_repos := by rw [hplanned.repos]
      members_nodup := hmkeys
      out_members := rfl
      invites_nodup := hikeys
      out_inviteTargets := rfl }⟩
  · obtain ⟨w, hw, hid⟩ := List.mem_map.1 ((hadmitted.byID _).1 ((hvalid r hr).2 hne))
    exact ⟨w, mem_sortOn.1 hw, hid⟩
  · rw [← hfst, List.flatMap_map, List.filterMap_flatMap]
    exact List.flatMap_congr fun g hg => (hsplit g hg).contents
  · obtain ⟨g, hg, -, hpg⟩ := hmem p hp
    exact (hcontainer _).2 ⟨g, hg, hpg.symm⟩
  · obtain ⟨g, hg, hp, hpg⟩ := hmem p hp
    rw [hpg]
    exact mem_childrenOf.1 ((hcontent g hg r).2 ⟨p, hp, hr⟩)
  · obtain ⟨g, hg, rfl⟩ := (hcontainer w).1 hw
    obtain ⟨p, hp, hpr⟩ := (hcontent g hg r).1 (mem_childrenOf.2 ⟨hr, hrw⟩)
    exact ⟨p, List.mem_flatMap.2 ⟨g, hg, hp⟩, (hsplit g hg).container p hp, hpr⟩
  · obtain ⟨g, hg, hp, hpg⟩ := hmem p hp
    have hempty : childrenOf env repos g.1 = [] := by
      by_contra hne
      have hmap := (hsplit g hg).content
      rw [if_neg hne] at hmap
      have hnone' : (none : Option ContentRepo) ∈ g.2.map Placement.content :=
        hnone ▸ List.mem_map_of_mem hp
      rw [hmap] at hnone'
      obtain ⟨r, -, hr⟩ := List.mem_map.1 hnone'
      cases hr
    refine ⟨?_, fun r hr hrw => ?_⟩
    · have hnext : p.next ∈ g.2.map Placement.next := List.mem_map_of_mem hp
      rw [(hsplit g hg).empty hempty, List.mem_singleton] at hnext
      rw [hnext, hpg]
    · have hchild : r ∈ childrenOf env repos g.1 := mem_childrenOf.2 ⟨hr, hpg ▸ hrw⟩
      rw [hempty] at hchild
      cases hchild
  · obtain ⟨g, hg, rfl⟩ := (hcontainer w).1 hw
    have hne : g.2 ≠ [] := by
      intro hnil
      have hmap := (hsplit g hg).content
      rw [hnil] at hmap
      split_ifs at hmap with hempty
      · cases hmap
      · exact hempty (List.map_eq_nil_iff.1 hmap.symm)
    obtain ⟨p, hp⟩ := List.exists_mem_of_ne_nil _ hne
    exact ⟨p, List.mem_flatMap.2 ⟨g, hg, hp⟩, (hsplit g hg).container p hp⟩

/-! ### Nobody's access changes -/

/-- The repositories that a container was split into: those of its content, or itself. -/
def PartOf (repositories : List Repository) (repos : List ContentRepo) (out : OwnershipMigration)
    (container id : String) : Prop :=
  (∃ w ∈ repositories, w.id = container) ∧
    ((∃ r ∈ repos, r.repositoryID = container ∧ { r with repositoryID := id } ∈ out.repos) ∨
      (∀ r ∈ repos, r.repositoryID ≠ container) ∧ id = container)

/-- What the plan keeps for an owned content repository: it has one boundary, with the
owner, the visibility and the members of the old one, and its connection leads there. -/
def KeepsContent (env : OwnershipEnv) (members : List Membership) (out : OwnershipMigration)
    (r : ContentRepo) (w : Repository) : Prop :=
  ∃ next ∈ out.repositories, { r with repositoryID := next.id } ∈ out.repos ∧
    next = { w with id := next.id, slug := next.slug, name := next.name } ∧
    (∀ user role, (⟨next.id, user, role⟩ : Membership) ∈ out.members ↔
      (⟨w.id, user, role⟩ : Membership) ∈ members) ∧
    ∃ a ∈ out.aliases, a.key = "handle:" ++ legacyOwner env r ++ "/" ++ legacyPath env r ∧
      a.repositoryID = next.id

/-- The plan changes nobody's access. -/
structure KeepsAccess (env : OwnershipEnv) (repositories : List Repository)
    (repos : List ContentRepo) (members : List Membership) (invites : List Invite)
    (out : OwnershipMigration) : Prop where
  once : (out.repos.map ContentRepo.id).Perm (repos.map ContentRepo.id)
  repos_nodup : (out.repos.map ContentRepo.id).Nodup
  unowned : ∀ r ∈ repos, r.repositoryID = "" → r ∈ out.repos
  owned : ∀ r ∈ repos, r.repositoryID ≠ "" →
    ∃ w ∈ repositories, w.id = r.repositoryID ∧ KeepsContent env members out r w
  ids : (out.repositories.map Repository.id).Nodup
  addresses : (out.repositories.map fun w => (ownerKey w, w.slug)).Nodup
  aliases_nodup : (out.aliases.map RepositoryPathAlias.key).Nodup
  aliases_planned : ∀ a ∈ out.aliases, ∃ w ∈ out.repositories, w.id = a.repositoryID
  inviteTargets_nodup : out.inviteTargets.Nodup
  invited : ∀ token id, (⟨token, id⟩ : RepositoryInviteTarget) ∈ out.inviteTargets ↔
    ∃ inv ∈ invites, inv.token = token ∧ PartOf repositories repos out inv.repositoryID id

section Parts

variable {env : OwnershipEnv} {repositories : List Repository} {repos : List ContentRepo}
  {members : List Membership} {invites : List Invite} {out : OwnershipMigration}
  {placed : List Placement}

namespace PlanParts

variable (h : PlanParts env repositories repos members invites out placed)

include h

/-- Unowned content and the content of the containers are all content, each once. -/
theorem contents_perm :
    ((repos.filter fun r => r.repositoryID = "") ++ placed.filterMap Placement.content).Perm
      repos := by
  have hrepos : repos.Nodup := h.repos_nodup.of_map
  have hchildren : ∀ w, (childrenOf env repos w).Nodup := fun w =>
    (sortOn_perm _ _).nodup_iff.2 (hrepos.filter _)
  have hcontainers : ((sortOn Repository.id repositories).map Repository.id).Nodup :=
    ((sortOn_perm _ _).map _).nodup_iff.2 h.containers_nodup
  have hdisjoint : (sortOn Repository.id repositories).Pairwise
      (Function.onFun List.Disjoint (childrenOf env repos)) := by
    refine (List.pairwise_map.1 hcontainers).imp fun {w v} hne r hr hr' => hne ?_
    exact (mem_childrenOf.1 hr).2.symm.trans (mem_childrenOf.1 hr').2
  rw [h.contents, List.perm_ext_iff_of_nodup ?_ hrepos]
  · intro r
    simp only [List.mem_append, List.mem_filter, decide_eq_true_eq, List.mem_flatMap, mem_sortOn,
      mem_childrenOf]
    constructor
    · rintro (⟨hr, -⟩ | ⟨w, -, hr, -⟩) <;> exact hr
    · intro hr
      by_cases hne : r.repositoryID = ""
      · exact .inl ⟨hr, hne⟩
      · obtain ⟨w, hw, hid⟩ := h.repos_owned r hr hne
        exact .inr ⟨w, hw, hr, hid.symm⟩
  · refine List.nodup_append.2 ⟨hrepos.filter _,
      List.nodup_flatMap.2 ⟨fun w _ => hchildren w, hdisjoint⟩, fun r hr r' hr' heq => ?_⟩
    obtain ⟨w, hw, hr'⟩ := List.mem_flatMap.1 hr'
    refine h.containers_named w (mem_sortOn.1 hw) ?_
    rw [← (mem_childrenOf.1 hr').2, ← heq]
    simpa using (List.mem_filter.1 hr).2

/-- The plan writes every content repository once. -/
theorem repos_perm :
    (out.repos.map ContentRepo.id).Perm (repos.map ContentRepo.id) := by
  have hmoved : (placed.filterMap Placement.moved).map ContentRepo.id =
      (placed.filterMap Placement.content).map ContentRepo.id := by
    rw [List.map_filterMap, List.map_filterMap]
    exact List.filterMap_congr fun p _ => by
      simp only [Placement.moved, Option.map_map]
      rfl
  rw [h.out_repos]
  refine ((sortOn_perm _ _).map _).trans ?_
  rw [List.map_append, hmoved, ← List.map_append]
  exact h.contents_perm.map _

/-- The contents of the plan: the unowned ones, and those moved. -/
theorem mem_repos {r' : ContentRepo} : r' ∈ out.repos ↔ (r' ∈ repos ∧ r'.repositoryID = "") ∨
      ∃ p ∈ placed, ∃ r, p.content = some r ∧ { r with repositoryID := p.next.id } = r' := by
  rw [h.out_repos, mem_sortOn, List.mem_append, List.mem_filter, List.mem_filterMap,
    decide_eq_true_eq]
  simp only [moved_id]

/-- The targets of a container are where its contents went. -/
theorem mem_targets {container id : String} : id ∈ targetsOf out.targets container ↔
      ∃ p ∈ placed, p.container.id = container ∧ p.next.id = id := by
  obtain ⟨s, hs, -, -, htargets⟩ := h.planned
  rw [targetsOf, htargets, hs.targets]
  simp [and_assoc]

/-- No two placements have one id. -/
theorem eq_of_next
    {p q : Placement} (hp : p ∈ placed) (hq : q ∈ placed) (hid : p.next.id = q.next.id) :
    p = q := by
  obtain ⟨s, hs, -⟩ := h.planned
  exact List.inj_on_of_nodup_map hs.nodup hp hq hid

/-- No target of a container is listed twice. -/
theorem targets_nodup (container : String) : (targetsOf out.targets container).Nodup := by
  obtain ⟨s, hs, -, -, htargets⟩ := h.planned
  rw [targetsOf, htargets, hs.targets]
  exact hs.nodup.sublist (List.filter_sublist.map _)

/-- Two containers share no target. -/
theorem targets_inj {c c' id : String} (hid : id ∈ targetsOf out.targets c)
    (hid' : id ∈ targetsOf out.targets c') : c = c' := by
  obtain ⟨p, hp, rfl, rfl⟩ := h.mem_targets.1 hid
  obtain ⟨q, hq, rfl, hnext⟩ := h.mem_targets.1 hid'
  rw [h.eq_of_next hq hp hnext]

/-- The targets of a container are what it was split into. -/
theorem mem_targets_iff_partOf {container id : String} :
    id ∈ targetsOf out.targets container ↔ PartOf repositories repos out container id := by
  rw [h.mem_targets]
  constructor
  · rintro ⟨p, hp, rfl, rfl⟩
    refine ⟨⟨p.container, h.container_mem p hp, rfl⟩, ?_⟩
    cases hcontent : p.content with
    | none =>
        obtain ⟨hnext, hnone⟩ := h.empty_placed p hp hcontent
        exact .inr ⟨hnone, by rw [hnext]⟩
    | some r =>
        obtain ⟨hr, hcontainer⟩ := h.content_mem p hp r hcontent
        exact .inl ⟨r, hr, hcontainer, h.mem_repos.2 (.inr ⟨p, hp, r, hcontent, rfl⟩)⟩
  · rintro ⟨⟨w, hw, rfl⟩, ⟨r, hr, hrw, hout⟩ | ⟨hnone, rfl⟩⟩
    · have hsame : ∀ r' ∈ repos, r'.id = r.id → r' = r := fun r' hr' =>
        List.inj_on_of_nodup_map h.repos_nodup hr' hr
      rcases h.mem_repos.1 hout with ⟨hmem, hempty⟩ | ⟨p, hp, r', hcontent, heq⟩
      · -- content of a container is not unowned
        have hr' := congrArg ContentRepo.repositoryID (hsame _ hmem rfl)
        exact absurd ((hrw.symm.trans hr'.symm).trans hempty) (h.containers_named w hw)
      · obtain ⟨hmem, hcontainer⟩ := h.content_mem p hp r' hcontent
        have hr' : r' = r := hsame r' hmem (congrArg ContentRepo.id heq :)
        subst hr'
        exact ⟨p, hp, hcontainer.symm.trans hrw, (congrArg ContentRepo.repositoryID heq :)⟩
    · obtain ⟨p, hp, rfl⟩ := h.container_placed w hw
      cases hcontent : p.content with
      | none => exact ⟨p, hp, rfl, by rw [(h.empty_placed p hp hcontent).1]⟩
      | some r =>
          obtain ⟨hr, hcontainer⟩ := h.content_mem p hp r hcontent
          exact absurd hcontainer (hnone r hr)

/-- A container and its parts have the same members. -/
theorem mem_members {p : Placement} (hp : p ∈ placed) (user role : String) :
    (⟨p.next.id, user, role⟩ : Membership) ∈ out.members ↔
      (⟨p.container.id, user, role⟩ : Membership) ∈ members := by
  have htarget : p.next.id ∈ targetsOf out.targets p.container.id :=
    h.mem_targets.2 ⟨p, hp, rfl, rfl⟩
  rw [h.out_members, mem_sortOn, List.mem_flatMap]
  constructor
  · rintro ⟨m, hm, hmem⟩
    obtain ⟨id, hid, heq⟩ := List.mem_map.1 hmem
    obtain ⟨rfl, rfl, rfl⟩ : id = p.next.id ∧ m.userID = user ∧ m.role = role := by
      simpa using heq
    rwa [← h.targets_inj hid htarget]
  · exact fun hm => ⟨_, hm, List.mem_map.2 ⟨p.next.id, htarget, rfl⟩⟩

/-- No member is copied twice to one target. -/
theorem members_keys_nodup :
    ((members.flatMap fun m => (targetsOf out.targets m.repositoryID).map fun id =>
      { m with repositoryID := id }).map fun m : Membership =>
        toLex (m.repositoryID, m.userID)).Nodup := by
  rw [List.map_flatMap]
  refine List.nodup_flatMap.2 ⟨fun m _ => ?_, ?_⟩
  · rw [List.map_map]
    exact (h.targets_nodup m.repositoryID).map fun a b hab => congrArg (fun k => (ofLex k).1) hab
  · refine (List.pairwise_map.1 h.members_nodup).imp fun {m n} hne k hk hk' => hne ?_
    simp only [List.map_map, List.mem_map, Function.comp_apply] at hk hk'
    obtain ⟨id, hid, rfl⟩ := hk
    obtain ⟨id', hid', heq⟩ := hk'
    obtain ⟨rfl, huser⟩ : id' = id ∧ n.userID = m.userID := by simpa using heq
    rw [Membership.key, Membership.key, h.targets_inj hid hid', huser]

/-- Nor an invite. -/
theorem inviteTargets_keys_nodup :
    ((invites.flatMap fun inv => (targetsOf out.targets inv.repositoryID).map fun id =>
      ({ token := inv.token, repositoryID := id } : RepositoryInviteTarget)).map fun t =>
        toLex (t.token, t.repositoryID)).Nodup := by
  rw [List.map_flatMap]
  refine List.nodup_flatMap.2 ⟨fun inv _ => ?_, ?_⟩
  · rw [List.map_map]
    exact (h.targets_nodup inv.repositoryID).map fun a b hab => congrArg (fun k => (ofLex k).2) hab
  · refine (List.pairwise_map.1 h.invites_nodup).imp fun {m n} hne k hk hk' => hne ?_
    simp only [List.map_map, List.mem_map, Function.comp_apply] at hk hk'
    obtain ⟨id, hid, rfl⟩ := hk
    obtain ⟨id', hid', heq⟩ := hk'
    exact (congrArg (fun k => (ofLex k).1) heq).symm

/-- Each content has a place with the members of its container. -/
theorem keepsContent {p : Placement} (hp : p ∈ placed) {r : ContentRepo} (hr : p.content = some r) :
    KeepsContent env members out r p.container := by
  obtain ⟨s, hs, hrepositories, haliases, -⟩ := h.planned
  obtain ⟨a, ha, hkey, hid⟩ := (hs.aliased.get_iff _ _).1 (hs.connected p hp r hr)
  refine ⟨p.next, ?_, h.mem_repos.2 (.inr ⟨p, hp, r, hr, rfl⟩), hs.keeps p hp, h.mem_members hp,
    a, haliases ▸ ha, hkey, hid⟩
  rw [hrepositories, hs.repositories]
  exact List.mem_map_of_mem hp

/-- Placements have different addresses: each has an alias at its own. -/
theorem addresses_nodup :
    (out.repositories.map fun w => (ownerKey w, w.slug)).Nodup := by
  obtain ⟨s, hs, hrepositories, -⟩ := h.planned
  have howner : ∀ p ∈ placed, ownerKey p.next = ownerKey p.container := fun p hp => by
    rw [hs.keeps p hp]
    rfl
  have hids := hs.nodup
  rw [hrepositories, hs.repositories, List.map_map]
  refine List.Nodup.map_on (fun p hp q hq heq => ?_) hids.of_map
  obtain ⟨hkey, hslug⟩ := Prod.mk.inj heq
  rw [howner p hp, howner q hq] at hkey
  have hp' := hs.named p hp
  rw [hkey, hslug, hs.named q hq] at hp'
  exact h.eq_of_next hp hq (Option.some.inj hp').symm

/-- **The plan keeps who has access to what.** -/
theorem keepsAccess :
    KeepsAccess env repositories repos members invites out := by
  obtain ⟨s, hs, hrepositories, haliases, -⟩ := h.planned
  refine
    { once := h.repos_perm
      repos_nodup := h.repos_perm.nodup_iff.2 h.repos_nodup
      unowned := fun r hr hempty => h.mem_repos.2 (.inl ⟨hr, hempty⟩)
      owned := fun r hr hne => ?_
      ids := ?_
      addresses := h.addresses_nodup
      aliases_nodup := haliases ▸ hs.aliased.nodup
      aliases_planned := fun a ha => ?_
      inviteTargets_nodup := ?_
      invited := fun token id => ?_ }
  · obtain ⟨w, hw, hid⟩ := h.repos_owned r hr hne
    obtain ⟨p, hp, rfl, hcontent⟩ := h.content_placed r hr w hw hid.symm
    exact ⟨p.container, hw, hid, h.keepsContent hp hcontent⟩
  · rw [hrepositories, hs.repositories, List.map_map]
    exact hs.nodup
  · obtain ⟨p, hp, hid⟩ := hs.aliases a (haliases ▸ ha)
    exact ⟨p.next, by rw [hrepositories, hs.repositories]; exact List.mem_map_of_mem hp, hid.symm⟩
  · rw [h.out_inviteTargets]
    exact (sortOn_perm _ _).nodup_iff.2 h.inviteTargets_keys_nodup.of_map
  · rw [h.out_inviteTargets, mem_sortOn, List.mem_flatMap]
    simp only [List.mem_map, RepositoryInviteTarget.mk.injEq, h.mem_targets_iff_partOf]
    constructor
    · rintro ⟨inv, hinv, id', hpart, rfl, rfl⟩
      exact ⟨inv, hinv, rfl, hpart⟩
    · rintro ⟨inv, hinv, rfl, hpart⟩
      exact ⟨inv, hinv, id, hpart, rfl, rfl⟩

end PlanParts

end Parts

/-! ### The order of the inputs -/

/-- The order of the contents does not matter. -/
theorem childrenOf_eq_of_perm {env : OwnershipEnv} {repos repos' : List ContentRepo}
    (hperm : repos.Perm repos') (hn : (repos.map ContentRepo.id).Nodup) :
    childrenOf env repos = childrenOf env repos' := by
  funext w
  refine sortOn_eq_of_perm (hperm.filter _) ?_
  have hids : ((repos.filter fun r => r.repositoryID = w.id).map ContentRepo.id).Nodup :=
    hn.sublist (List.filter_sublist.map _)
  refine List.Nodup.map_on (fun r hr r' hr' heq => ?_) hids.of_map
  exact List.inj_on_of_nodup_map hids hr hr' (congrArg (fun k => (ofLex k).2) heq)

/-- Placing looks at the children of containers only. -/
theorem placeContainer_eq_of_children {env : OwnershipEnv} {repos repos' : List ContentRepo}
    (h : childrenOf env repos = childrenOf env repos') :
    placeContainer env repos = placeContainer env repos' := by
  funext s w
  rw [placeContainer, placeContainer, h]

/-- **Order.**  The inputs in any order give the same plan. -/
theorem plan_eq_of_perm {env : OwnershipEnv} {repositories repositories' : List Repository}
    {repos repos' : List ContentRepo} {members members' : List Membership}
    {invites invites' : List Invite} {out : OwnershipMigration}
    (h : planRepositoryOwnership env repositories repos members invites = .ok out)
    (hrepositories : repositories.Perm repositories') (hrepos : repos.Perm repos')
    (hmembers : members.Perm members') (hinvites : invites.Perm invites') :
    planRepositoryOwnership env repositories' repos' members' invites' = .ok out := by
  obtain ⟨placed, hparts⟩ := planParts_of_ok h
  have hcontainers : sortOn Repository.id repositories' = sortOn Repository.id repositories :=
    (sortOn_eq_of_perm hrepositories hparts.containers_nodup).symm
  have hplaces : placeContainer env repos' = placeContainer env repos :=
    (placeContainer_eq_of_children (childrenOf_eq_of_perm hrepos hparts.repos_nodup)).symm
  simp only [planRepositoryOwnership, bind_eq_ok, exists_unit_iff, Except.ok.injEq] at h ⊢
  obtain ⟨admitted, hadmit, hadmitRepos, s, hplace, ms, hms, is, his, rfl⟩ := h
  obtain ⟨hvalid, hnodup, hfresh⟩ := admitRepos_eq_ok.1 hadmitRepos
  obtain ⟨hmvalid, hmkeys, hmfresh, rfl⟩ := admitMembers_eq_ok.1 hms
  obtain ⟨hivalid, hikeys, hifresh, rfl⟩ := admitInvites_eq_ok.1 his
  refine ⟨admitted, by rw [hcontainers, hadmit], admitRepos_eq_ok.2 ⟨fun r hr =>
      hvalid r (hrepos.mem_iff.2 hr), (hrepos.map _).nodup_iff.1 hnodup, by simp⟩,
    s, by rw [hcontainers, hplaces, hplace],
    _, admitMembers_eq_ok.2 ⟨fun m hm => hmvalid m (hmembers.mem_iff.2 hm),
      (hmembers.map _).nodup_iff.1 hmkeys, by simp, rfl⟩,
    _, admitInvites_eq_ok.2 ⟨fun inv hinv => hivalid inv (hinvites.mem_iff.2 hinv),
      (hinvites.map _).nodup_iff.1 hikeys, by simp, rfl⟩, ?_⟩
  rw [OwnershipMigration.mk.injEq]
  refine ⟨rfl, (sortOn_eq_of_perm ((hrepos.filter _).append_right _) ?_).symm,
    (sortOn_eq_of_perm (hmembers.flatMap_right _) hparts.members_keys_nodup).symm,
    (sortOn_eq_of_perm (hinvites.map _) ?_).symm,
    (sortOn_eq_of_perm (hinvites.flatMap_right _) hparts.inviteTargets_keys_nodup).symm, rfl, rfl⟩
  · have hids := hparts.repos_perm.nodup_iff.2 hparts.repos_nodup
    exact ((sortOn_perm _ _).map _).nodup_iff.1 hids
  · rw [List.map_map]
    exact hikeys

/-- **The migration.**  A plan that succeeds changes nobody's access, and the inputs in any
order give the same plan. -/
theorem planRepositoryOwnership_keepsAccess (env : OwnershipEnv) (repositories : List Repository)
    (repos : List ContentRepo) (members : List Membership) (invites : List Invite)
    (out : OwnershipMigration)
    (h : planRepositoryOwnership env repositories repos members invites = .ok out) :
    KeepsAccess env repositories repos members invites out ∧
      ∀ repositories' repos' members' invites', repositories.Perm repositories' →
        repos.Perm repos' → members.Perm members' → invites.Perm invites' →
        planRepositoryOwnership env repositories' repos' members' invites' = .ok out := by
  obtain ⟨placed, hparts⟩ := planParts_of_ok h
  exact ⟨hparts.keepsAccess, fun _ _ _ _ => plan_eq_of_perm h⟩

/-- Paths in ASCII and a hash with one value. -/
def oneHash : OwnershipEnv where
  bracket := fun _ => none
  text := fun l => String.ofList (l.map fun b => Char.ofNat b.toNat)
  hashContent := fun _ => digitHash '9'

/-- A boundary of the owner `ann`. -/
def annShop : Repository where
  id := "ws_11111111111111111111111111111111"
  name := "Shop"
  ownerID := "user-1"
  slug := "shop"
  ownerUsername := "ann"
  visibility := "private"

/-- The boundary holds two content repositories; a third is unowned. -/
def annContent : List ContentRepo :=
  [{ id := digitHash '3', remoteURL := "https://cxt.example/ann/shop/web"
     repositoryID := annShop.id },
   { id := digitHash '2', remoteURL := "https://cxt.example/ann/shop", repositoryID := annShop.id },
   { id := digitHash '4', remoteURL := "" }]

def annMembers : List Membership :=
  [⟨annShop.id, "user-2", "puller"⟩, ⟨annShop.id, "user-1", "owner"⟩]

def annInvites : List Invite :=
  [⟨"inv_22222222222222222222222222222222", annShop.id, "viewer", "pending", "user-1"⟩]

/-- A container with two contents, split in two. -/
theorem annShop_keepsAccess :
    ∃ out, planRepositoryOwnership oneHash [annShop] annContent annMembers annInvites = .ok out ∧
      out.targets.get annShop.id = some [annShop.id, "ws_99999999999999999999999999999999"] ∧
      KeepsAccess oneHash [annShop] annContent annMembers annInvites out := by
  have htargets : ((planRepositoryOwnership oneHash [annShop] annContent annMembers
      annInvites).toOption.bind fun out => out.targets.get annShop.id) =
        some [annShop.id, "ws_99999999999999999999999999999999"] := by decide +kernel
  cases h : planRepositoryOwnership oneHash [annShop] annContent annMembers annInvites with
  | error e =>
      rw [h] at htargets
      cases htargets
  | ok out =>
      rw [h] at htargets
      exact ⟨out, rfl, htargets, (planRepositoryOwnership_keepsAccess _ _ _ _ _ _ h).1⟩

end Backend
end CxtHub
