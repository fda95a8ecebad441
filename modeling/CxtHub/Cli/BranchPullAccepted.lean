/-
# The client accepts the server's branch pull plans

Every plan that `SelectBranchPullDependencies` returns passes `ValidateBranchPullPlan`,
with one exception: the server lets a lifecycle tag carry a symbolic target, and the
client does not.  No store writes such a tag; `accepts_iff` says that it is the only
reason for which a plan is refused.

The checks of the client are met one by one from the run of the server.  Two of them need
an argument.  The latest lifecycle event does not depend on the order of the refs, because
the comparison is a linear order (`lifecycleKey`).  The history of the plan is ordered and
projected again, and binds the selected name as the whole history does (`Scope.project`).
-/

import CxtHub.Backend.BranchPullParts
import CxtHub.Cli.BranchPull
import CxtHub.Cli.LifecycleRegister

namespace CxtHub
namespace Cli

open Relation
open Backend (ContentHash Ref BranchLifecycleEvent BranchPullRequest BranchPullPlan PullEnv
  PullRepo PullRun IsLifecycleOf validContentHash digitHash boundElsewhere pullIdentity eventRoots
  planRefs BranchPullSettings)

variable {ref : Ref}

/-! ### The checks of the client -/

section Checks

variable {env : PullEnv} {repo : PullRepo} {request : BranchPullRequest} {refs : List Ref}
  {history : List HistoryEvent} {snapshots : List Backend.Snapshot}
  (run : PullRun env repo request refs history snapshots)

/-- The two copies of `ValidateHistoryEvent` accept the same events. -/
theorem validateHistoryEvent_of_server {e : HistoryEvent}
    (h : Backend.validateHistoryEvent e = .ok ()) : validateHistoryEvent e = .ok () := by
  simp only [Backend.validateHistoryEvent, Backend.validatePublication, bind_eq_ok,
    exists_unit_iff, refuse_eq_ok] at h
  simp only [validateHistoryEvent, bind_eq_ok, exists_unit_iff, refuse_eq_ok]
  obtain ⟨h₁, h₂, h₃, h₄, h₅, h₆, h₇, h₈, h₉, h₁₀, h₁₁, h₁₂, h₁₃, h₁₄, h₁₅, h₁₆, h₁₇, hpub,
    h₁₈⟩ := h
  refine ⟨h₁, h₂, h₃, h₄, h₅, h₆, ?_, h₇, h₈, h₉, h₁₀, h₁₁, h₁₂, h₁₃, h₁₄, h₁₅, h₁₆, h₁₇, h₁₈⟩
  -- The source of a publication is its target, so one is empty when the other is.
  rintro ⟨hkind, hbad⟩
  refine hpub ⟨hkind, ?_⟩
  rcases hbad with htarget | hbad
  · by_cases hsource : e.source = e.target
    · exact .inl (hsource.trans htarget)
    · exact .inr (.inl hsource)
  · exact .inr hbad

/-- The roots from which the snapshots of a run were visited. -/
def runRoots : List ContentHash :=
  Backend.pullRoots run.index request run.selected (planRefs run.picked run.selected) run.scope

/-- The index of a plan has what is reachable from its roots. -/
theorem mem_snapshotIndex {id : ContentHash} : id ∈ run.plan.snapshotIndex ↔
    id ≠ "" ∧ ∃ root ∈ runRoots run, ReflTransGen (Backend.Step run.index) root id := by
  obtain ⟨-, -, -, hmem⟩ := Backend.inventory_spec run.visits
  exact mem_sortOn.trans (hmem id)

/-- Every root but the empty one is in the index. -/
theorem root_mem_snapshotIndex {root : ContentHash} (hroot : root ∈ runRoots run)
    (hne : root ≠ "") : root ∈ run.plan.snapshotIndex :=
  (mem_snapshotIndex run).2 ⟨hne, root, hroot, .refl⟩

/-- The refs of a plan: the selected one and the lifecycle of its branch. -/
theorem mem_planRefs :
    ref ∈ run.plan.refs ↔ (ref ∈ refs ∧ IsLifecycleOf request.branch ref) ∨ ref = run.selected := by
  refine mem_sortOn.trans ?_
  rw [List.mem_append, List.mem_singleton, run.picks.lifecycle]

/-- What the server has checked of the selected ref. -/
theorem selected_spec : run.selected ∈ refs ∧ run.selected.kind = .branch ∧
    run.selected.name = request.branch ∧ run.selected.target ≠ "" ∧
    run.selected.symbolic = "" := by
  obtain ⟨hsel, htarget, hsymbolic, -⟩ := Backend.selectRef_eq_ok run.selects
  obtain ⟨hmem, hkind, hname⟩ := run.picks.selected _ hsel
  exact ⟨hmem, hkind, hname, htarget, hsymbolic⟩

/-- A ref that the server accepts is accepted by the client. -/
theorem validateRef_of_server (h : Backend.validateRef ref = .ok ())
    (hkind : ref.kind ≠ .head) : validateRef ref = .ok () := by
  obtain ⟨hid, -, hname, htarget⟩ := (Backend.validateRef_eq_ok hkind).1 h
  exact (validateRef_eq_ok hkind).2 ⟨hid, by simp [validateRefName, hname], htarget⟩

/-- The header of a plan passes the client's check. -/
theorem checkHeader_eq_ok : checkHeader repo.id request run.plan = .ok () := by
  have hprotocol : 0 ≤ repo.contextProtocol ∧ repo.contextProtocol ≤ 1 := by
    rcases run.protocol with h | h <;> omega
  refine reject_eq_ok.2 ?_
  rintro (h | h | h | h | h)
  · exact h rfl
  · exact h rfl
  · exact h rfl
  · exact absurd hprotocol.1 (not_le.2 h)
  · exact absurd hprotocol.2 (not_le.2 h)

/-- So does the selected ref. -/
theorem checkSelected_eq_ok : checkSelected repo.id request run.selected = .ok () := by
  obtain ⟨hmem, hkind, hname, htarget, hsymbolic⟩ := selected_spec run
  obtain ⟨hrepo, hvalid⟩ := run.picks.valid _ hmem
  simp only [checkSelected, bind_eq_ok, exists_unit_iff, reject_eq_ok, orReject_eq_ok, not_or,
    not_not]
  exact ⟨⟨hrepo, hkind, hname, htarget, hsymbolic⟩,
    validateRef_of_server hvalid (by simp [hkind])⟩

/-- So does the index. -/
theorem checkIndex_eq_ok : checkIndex run.plan = .ok () := by
  obtain ⟨hn, hinventory, hindex, -⟩ := Backend.inventory_spec run.visits
  have hperm : run.plan.snapshotIndex.Perm run.progress.done := sortOn_perm id _
  have hkeys : run.progress.done.Perm run.progress.state.states.keys :=
    (List.perm_ext_iff_of_nodup hn (AList.keys_nodup _)).2 fun id => by
      rw [← AList.mem_keys, hinventory.keys]
  obtain ⟨-, hmaps, hvalid⟩ := Backend.mapSnapshots_eq_ok (by simp) run.maps
  simp only [checkIndex, bind_eq_ok, exists_unit_iff, checkFresh_eq_ok, reject_eq_ok,
    orReject_eq_ok, validateContentHash_eq_ok, List.map_id, List.not_mem_nil, not_false_eq_true,
    implies_true, and_true, not_or, not_not]
  refine ⟨⟨fun id hid => ?_, hperm.nodup_iff.2 hn⟩, (hperm.trans hkeys).length_eq, ?_⟩
  · have hdone := hperm.mem_iff.1 hid
    obtain ⟨s, hs, rfl⟩ := List.mem_map.1 (hindex id hdone)
    refine ⟨hvalid s (by simpa [hmaps] using hs), ?_⟩
    obtain ⟨token, htoken⟩ := Option.isSome_iff_exists.1
      (AList.lookup_isSome.2 ((hinventory.keys s.id).2 hdone))
    change validContentHash ((run.progress.state.states.lookup s.id).getD "") = true
    rw [htoken]
    exact hinventory.states _ token htoken
  · exact root_mem_snapshotIndex run List.mem_cons_self (selected_spec run).2.2.2.1

/-- The snapshots that an event names are in the index. -/
theorem eventRoots_mem {e : HistoryEvent} (he : e ∈ run.scope) {id : ContentHash}
    (hid : id ∈ eventRoots e) (hne : id ≠ "") : id ∈ run.plan.snapshotIndex := by
  refine root_mem_snapshotIndex run ?_ hne
  simp only [runRoots, Backend.pullRoots, List.cons_append, List.mem_cons, List.mem_append,
    List.mem_flatMap]
  exact .inr (.inl (.inr ⟨e, he, hid⟩))

/-- The events pass one by one. -/
theorem checkEvents_eq_ok : checkEvents repo.id run.plan = .ok () := by
  simp only [checkEvents, checkAll_eq_ok, bind_eq_ok, exists_unit_iff, reject_eq_ok,
    orReject_eq_ok, not_not, not_and]
  intro e he
  have hmem := ((enumerates_of_order run.order).mem e).1 (run.scopes.sublist.subset he)
  obtain ⟨hrepo, hvalid⟩ := run.events e hmem
  exact ⟨hrepo, validateHistoryEvent_of_server hvalid, fun id hid hne =>
    eventRoots_mem run he hid hne⟩

/-- The history of a plan is a closed part of the history. -/
theorem scope_closedPart : ClosedPart history run.scope :=
  ⟨fun e he => ((enumerates_of_order run.order).mem e).1 (run.scopes.sublist.subset he),
    run.scopes.closed.closed⟩

/-- No ordered event has an empty id. -/
theorem ids_ne_empty : ∀ e ∈ run.ordered, e.id ≠ "" := fun e he =>
  id_ne_empty_of_valid (validateHistoryEvent_of_server
    (run.events e (((enumerates_of_order run.order).mem e).1 he)).2)

/-- And as a history. -/
theorem checkHistory_eq_ok : checkHistory env.digest repo.id request run.plan = .ok () := by
  have hordered := enumerates_of_order run.order
  have hrestrict := hordered.restrict (scope_closedPart run)
  obtain ⟨out, hout⟩ := exists_orderHistoryEvents hrestrict
  have henum := enumerates_of_order hout
  have hn : run.scope.Nodup := hordered.nodup.of_map.sublist run.scopes.sublist
  have hperm : out.Perm run.scope := (List.perm_ext_iff_of_nodup henum.nodup.of_map hn).2 henum.mem
  obtain ⟨q, hq, hactive, hreleased⟩ := run.scopes.project hordered (ids_ne_empty run) run.project
  have hbound : boundElsewhere env.digest q repo.id request.branch
      (pullIdentity env.digest repo.id request.branch run.selected) = false := by
    have hbound := run.bound
    simp only [boundElsewhere, ContextBranchProjection.releasedBy, hactive, hreleased] at hbound ⊢
    exact hbound
  simp only [checkHistory, bind_eq_ok, exists_unit_iff, orReject_eq_ok, reject_eq_ok,
    checkAll_eq_ok, not_and, not_not, Bool.not_eq_true]
  refine ⟨out, hout, hperm.length_eq, q, (projectContextBranches_of_mem henum.mem).2 hq, hbound, ?_⟩
  intro e he hcompletes
  obtain ⟨f, hf, hpinned, hpin⟩ := run.scopes.pinned e
    (run.scopes.sublist.subset ((henum.mem e).1 he)) hcompletes
  exact List.mem_map.2 ⟨f, List.mem_filter.2 ⟨(henum.mem f).2 hf, hpinned⟩, hpin⟩

/-- The roots pass. -/
theorem checkRoots_eq_ok : checkRoots request run.plan = .ok () := by
  obtain ⟨-, -, hindex, -⟩ := Backend.inventory_spec run.visits
  have hperm : run.plan.absentRoots.Perm (Backend.absentRoots run.index request) :=
    sortOn_perm id _
  have hmem : ∀ id, id ∈ run.plan.absentRoots ↔
      id ∈ request.observationRoots ∧ Backend.byID run.index id = none := fun id => by
    rw [hperm.mem_iff, Backend.absentRoots, List.mem_filter, mem_freshFrom]
    simp
  have hdone : ∀ id ∈ run.plan.snapshotIndex, Backend.byID run.index id ≠ none := fun id hid => by
    obtain ⟨s, hs, rfl⟩ := List.mem_map.1 (hindex id (mem_sortOn.1 hid))
    exact fun hnone => Backend.byID_eq_none.1 hnone s hs rfl
  simp only [checkRoots, bind_eq_ok, exists_unit_iff, checkFresh_eq_ok, checkAll_eq_ok,
    reject_eq_ok, List.map_id, List.not_mem_nil, not_false_eq_true, implies_true, and_true, not_or,
    not_not, not_and]
  refine ⟨⟨fun id hid => ?_, hperm.nodup_iff.2 ((nodup_freshFrom _ _).filter _)⟩, fun id hid => ?_⟩
  · exact ⟨((hmem id).1 hid).1, fun hin => hdone id hin ((hmem id).1 hid).2⟩
  · intro hout
    refine (hmem id).2 ⟨hid, ?_⟩
    by_contra hsome
    obtain ⟨s, hs⟩ := Option.ne_none_iff_exists'.1 hsome
    have hne : id ≠ "" := by
      obtain ⟨-, hmaps, hvalid⟩ := Backend.mapSnapshots_eq_ok (by simp) run.maps
      obtain ⟨hmem, rfl⟩ := Backend.byID_eq_some hs
      exact Backend.ne_empty_of_validContentHash (hvalid s (by simpa [hmaps] using hmem))
    refine hout (root_mem_snapshotIndex run ?_ hne)
    refine List.mem_append_right _ (List.mem_filter.2 ⟨mem_freshFrom.2 ⟨hid, List.not_mem_nil⟩, ?_⟩)
    simp [hs]

/-- The settings pass. -/
theorem checkSettings_eq_ok : checkSettings run.plan = .ok () := by
  obtain ⟨-, hinventory, -⟩ := Backend.inventory_spec run.visits
  have hperm : run.plan.settingsObjects.Perm
      (run.progress.state.settings.entries.map fun entry => ⟨entry.2, entry.1⟩) :=
    sortOn_perm BranchPullSettings.hash _
  simp only [checkSettings, checkFresh_eq_ok, bind_eq_ok, exists_unit_iff, orReject_eq_ok,
    validateContentHash_eq_ok, reject_eq_ok, not_not, List.not_mem_nil, not_false_eq_true,
    implies_true, and_true]
  refine ⟨fun setting hsetting => ?_, (hperm.map _).nodup_iff.2 ?_⟩
  · obtain ⟨entry, hentry, rfl⟩ := List.mem_map.1 (hperm.mem_iff.1 hsetting)
    exact hinventory.settings entry hentry
  · rw [List.map_map]
    exact run.progress.state.settings.keys_nodup

/-- No lifecycle tag of the branch has a symbolic target. -/
def PlainTags (branch : String) (refs : List Ref) : Prop :=
  ∀ ref ∈ refs, IsLifecycleOf branch ref → ref.symbolic = ""

/-- The refs of the lifecycle are tags. -/
theorem tag_of_lifecycle {branch : String} (h : IsLifecycleOf branch ref) :
    ref.kind = .tag := by
  obtain ⟨e, hparse, -⟩ := h
  by_contra hkind
  rw [Backend.parseBranchLifecycleRef, if_pos hkind] at hparse
  cases hparse

/-- A branch ref is no lifecycle event. -/
theorem parse_branch (h : ref.kind = .branch) :
    Backend.parseBranchLifecycleRef ref = .ok none := by
  rw [Backend.parseBranchLifecycleRef, if_pos (by simp [h])]

/-- The key of a ref determines its kind and name. -/
theorem refKey_inj {a b : Ref} (h : refKey a = refKey b) : (a.kind, a.name) = (b.kind, b.name) := by
  have hlist := congrArg String.toList h
  cases ha : a.kind <;> cases hb : b.kind <;>
    simp [refKey, ha, hb, Backend.RefKind.text, String.ext_iff] at hlist ⊢ <;> exact hlist

/-- The keys of the plan's refs differ. -/
theorem nodup_refKeys (hrefs : (refs.map fun ref => (ref.kind, ref.name)).Nodup) :
    (run.plan.refs.map refKey).Nodup := by
  obtain ⟨hsel, hkind, -⟩ := selected_spec run
  have hperm : run.plan.refs.Perm (run.picked.lifecycle ++ [run.selected]) :=
    sortOn_perm Ref.name _
  have hn : (run.picked.lifecycle ++ [run.selected]).Nodup := by
    refine (hrefs.of_map.sublist run.picks.sublist).append (List.nodup_singleton _)
      (List.disjoint_singleton.2 fun hmem => ?_)
    have htag := tag_of_lifecycle ((run.picks.lifecycle _).1 hmem).2
    rw [hkind] at htag
    cases htag
  refine (List.nodup_map_iff_inj_on (hperm.nodup_iff.2 hn)).2 fun a ha b hb hkey => ?_
  have hin : ∀ ref ∈ run.plan.refs, ref ∈ refs := fun ref href =>
    ((mem_planRefs run).1 href).elim And.left fun heq => heq ▸ hsel
  exact List.inj_on_of_nodup_map hrefs (hin a ha) (hin b hb) (refKey_inj hkey)

/-- The plan has the lifecycle events that were picked. -/
theorem eventAmong_planRefs {e : BranchLifecycleEvent} :
    EventAmong run.picked.lifecycle request.branch e ↔
      EventAmong run.plan.refs request.branch e := by
  constructor
  · rintro ⟨ref, href, hparse⟩
    exact ⟨ref, (mem_planRefs run).2 (.inl ((run.picks.lifecycle ref).1 href)), hparse⟩
  · rintro ⟨ref, href, hparse⟩
    rcases (mem_planRefs run).1 href with hlife | rfl
    · exact ⟨ref, (run.picks.lifecycle ref).2 hlife, hparse⟩
    · rw [parse_branch (selected_spec run).2.1] at hparse
      cases hparse.1

/-- Each ref passes when no tag of the branch is symbolic. -/
theorem checkRef_eq_ok (hplain : PlainTags request.branch refs)
    (href : ref ∈ run.plan.refs) : checkRef repo.id request run.plan ref = .ok () := by
  obtain ⟨hsel, hkind, -, -, hsymbolic⟩ := selected_spec run
  have htarget : ∀ ref ∈ refs, ref.kind ≠ .head → ref ∈ run.plan.refs →
      ref.target ∈ run.plan.snapshotIndex := by
    intro ref hmem hkind hplan
    have hvalid := ((Backend.validateRef_eq_ok hkind).1 (run.picks.valid ref hmem).2).2.2.2
    refine root_mem_snapshotIndex run ?_ (Backend.ne_empty_of_validContentHash hvalid)
    simp only [runRoots, Backend.pullRoots, List.cons_append, List.mem_cons, List.mem_append]
    exact .inr (.inl (.inl (List.mem_map_of_mem hplan)))
  simp only [checkRef, bind_eq_ok, exists_unit_iff, reject_eq_ok, orReject_eq_ok, not_or, not_not]
  rcases (mem_planRefs run).1 href with ⟨hmem, hlife⟩ | rfl
  · have htag := tag_of_lifecycle hlife
    have hhead : ref.kind ≠ .head := by simp [htag]
    obtain ⟨hrepo, hvalid⟩ := run.picks.valid ref hmem
    refine ⟨hrepo, validateRef_of_server hvalid hhead,
      ⟨hplain ref hmem hlife, htarget ref hmem hhead href⟩, ?_⟩
    rw [if_neg (by simp [htag])]
    obtain ⟨e, hparse, hbranch⟩ := hlife
    simp [checkLifecycle, parseBranchLifecycleRef, hparse, Backend.ofBranch, hbranch]
  · obtain ⟨hrepo, hvalid⟩ := run.picks.valid _ hsel
    refine ⟨hrepo, validateRef_of_server hvalid (by simp [hkind]),
      ⟨hsymbolic, htarget _ hsel (by simp [hkind]) href⟩, ?_⟩
    rw [if_pos hkind]
    exact reject_eq_ok.2 fun hne => hne rfl

/-- Only the selected ref of the plan is a branch. -/
theorem branches_of_plan :
    (run.plan.refs.filter fun ref => ref.kind = .branch).length = 1 := by
  have hperm : run.plan.refs.Perm (run.picked.lifecycle ++ [run.selected]) :=
    sortOn_perm Ref.name _
  have hnone : (run.picked.lifecycle.filter fun ref => ref.kind = .branch) = [] :=
    List.filter_eq_nil_iff.2 fun ref href => by
      simp [tag_of_lifecycle ((run.picks.lifecycle ref).1 href).2]
  rw [(hperm.filter _).length_eq, List.filter_append, hnone]
  simp [(selected_spec run).2.1]

/-- **The refs pass exactly when no tag of the branch is symbolic.** -/
theorem checkRefs_eq_ok (hrefs : (refs.map fun ref => (ref.kind, ref.name)).Nodup) :
    checkRefs repo.id request run.plan = .ok () ↔ PlainTags request.branch refs := by
  simp only [checkRefs, bind_eq_ok, exists_unit_iff, checkFresh_eq_ok, reject_eq_ok,
    orReject_eq_ok, not_not, List.not_mem_nil, not_false_eq_true, implies_true, and_true]
  constructor
  · rintro ⟨⟨hall, -⟩, -⟩ ref href hlife
    have hcheck := hall ref ((mem_planRefs run).2 (.inl ⟨href, hlife⟩))
    simp only [checkRef, bind_eq_ok, exists_unit_iff, reject_eq_ok, not_or, not_not] at hcheck
    exact hcheck.2.2.1.1
  · intro hplain
    refine ⟨⟨fun ref href => checkRef_eq_ok run hplain href, nodup_refKeys run hrefs⟩,
      branches_of_plan run, ?_⟩
    obtain ⟨-, -, -, latest, hlatest, hshown⟩ := Backend.selectRef_eq_ok run.selects
    have hparses : ∀ ref ∈ run.plan.refs, ∃ event,
        Backend.parseBranchLifecycleRef ref = .ok event := fun ref href => by
      rcases (mem_planRefs run).1 href with ⟨-, e, hparse, -⟩ | rfl
      · exact ⟨_, hparse⟩
      · exact ⟨_, parse_branch (selected_spec run).2.1⟩
    obtain ⟨latest', hlatest'⟩ := exists_latestBranchLifecycle request.branch hparses
    have heq := latestBranchLifecycle_congr (fun e => eventAmong_planRefs run) hlatest hlatest'
    exact ⟨latest', hlatest', heq ▸ hshown⟩

/-- **The client accepts a plan exactly when no lifecycle tag of the branch is symbolic.** -/
theorem accepts_iff (hrefs : (refs.map fun ref => (ref.kind, ref.name)).Nodup) :
    validateBranchPullPlan env.digest repo.id request run.plan = .ok () ↔
      PlainTags request.branch refs := by
  have hselected : checkSelected repo.id request run.plan.selectedRef = .ok () :=
    checkSelected_eq_ok run
  simp only [validateBranchPullPlan, bind_eq_ok, exists_unit_iff, checkHeader_eq_ok, hselected,
    checkIndex_eq_ok, checkEvents_eq_ok, checkHistory_eq_ok, checkRoots_eq_ok,
    checkSettings_eq_ok, true_and, and_true, checkRefs_eq_ok run hrefs]

end Checks

/-! ### Complete plans -/

/-- The refs, the events and the present observation roots of a plan. -/
def planRoots (snapshots : List Backend.Snapshot) (request : BranchPullRequest)
    (plan : BranchPullPlan) : List ContentHash :=
  plan.refs.map Ref.target ++ plan.history.flatMap eventRoots ++
    request.observationRoots.filter fun id => (Backend.byID snapshots id).isSome

/-- A plan holds all that the selected branch depends on. -/
structure CompletePlan (d : Digest) (repo : PullRepo) (request : BranchPullRequest)
    (history : List HistoryEvent) (snapshots : List Backend.Snapshot) (plan : BranchPullPlan) :
    Prop where
  /-- The history is a part of the canonical order. -/
  ordered : ∃ ordered, orderHistoryEvents history = .ok ordered ∧ plan.history.Sublist ordered
  closed : ∀ e ∈ plan.history, ∀ parent ∈ historyDependencies e, ∃ f ∈ plan.history, f.id = parent
  identity : ∀ e ∈ history,
    e.branchID = pullIdentity d repo.id request.branch plan.selectedRef → e ∈ plan.history
  bindings : ∀ e ∈ history, isBranchBindingEvent e = true →
    e.branch = request.branch ∨ e.previousBranch = request.branch → e ∈ plan.history
  present : ∀ id ∈ plan.snapshotIndex, ∃ s ∈ snapshots, s.id = id
  reached : ∀ id, id ∈ plan.snapshotIndex ↔
    id ≠ "" ∧ ∃ root ∈ planRoots snapshots request plan,
      ReflTransGen (Backend.Step snapshots) root id

/-- The plan of a run has what the request asks for. -/
theorem completePlan {env : PullEnv} {repo : PullRepo} {request : BranchPullRequest}
    {refs : List Ref} {history : List HistoryEvent} {snapshots : List Backend.Snapshot}
    (run : PullRun env repo request refs history snapshots) :
    CompletePlan env.digest repo request history snapshots run.plan := by
  have hordered := enumerates_of_order run.order
  have hbyID := Backend.byID_of_mapSnapshots run.maps
  have hstep : Backend.Step run.index = Backend.Step snapshots := by
    funext a b
    simp only [Backend.Step, Backend.parentsOf, hbyID]
  have hroots : ∀ id, id ∈ runRoots run ↔ id ∈ planRoots snapshots request run.plan := by
    intro id
    have hselected : run.selected ∈ run.plan.refs := (mem_planRefs run).2 (.inr rfl)
    simp only [runRoots, planRoots, Backend.pullRoots, Backend.presentRoots, List.cons_append,
      List.mem_cons, List.mem_append, List.mem_filter, mem_freshFrom, List.not_mem_nil,
      not_false_eq_true, and_true, hbyID]
    refine ⟨fun h => h.elim (fun heq => .inl (.inl ?_)) fun h => h, .inr⟩
    exact heq ▸ List.mem_map_of_mem hselected
  obtain ⟨-, -, hindex, -⟩ := Backend.inventory_spec run.visits
  obtain ⟨-, hmaps, -⟩ := Backend.mapSnapshots_eq_ok (by simp) run.maps
  refine ⟨⟨run.ordered, run.order, run.scopes.sublist⟩, run.scopes.closed.closed,
    fun e he hid => run.scopes.wanted e ((hordered.mem e).2 he) ?_,
    fun e he hbind hname => run.scopes.wanted e ((hordered.mem e).2 he) ?_, fun id hid => ?_,
    fun id => ?_⟩
  · exact Bool.or_eq_true_iff.2 (.inl (decide_eq_true hid))
  · simp [Backend.wantedEvent, hbind, hname]
  · obtain ⟨s, hs, rfl⟩ := List.mem_map.1 (hindex id (mem_sortOn.1 hid))
    exact ⟨s, by simpa [hmaps] using hs, rfl⟩
  · rw [mem_snapshotIndex, hstep]
    exact and_congr_right fun _ => exists_congr fun root => and_congr_left fun _ => hroots root

/-- **Pull plans are complete, and the client accepts them** unless a lifecycle tag of the branch
is symbolic.  When the history projects, the check of the scoped projection does not fail. -/
theorem selectBranchPullDependencies_accepted (env : PullEnv) (repo : PullRepo)
    (request : BranchPullRequest) (refs : List Ref) (history : List HistoryEvent)
    (snapshots : List Backend.Snapshot) (hrefs : (refs.map fun ref => (ref.kind, ref.name)).Nodup) :
    (∀ plan,
      Backend.selectBranchPullDependencies env repo request refs history snapshots = .ok plan →
      CompletePlan env.digest repo request history snapshots plan ∧
      (validateBranchPullPlan env.digest repo.id request plan = .ok () ↔
        PlainTags request.branch refs)) ∧
    ∀ identity ordered projection scope,
      (∀ e ∈ history, Backend.checkPullEvent repo.id e = .ok ()) →
      orderHistoryEvents history = .ok ordered →
      projectContextBranches env.digest ordered = .ok projection →
      Backend.scopeHistory identity request.branch ordered = .ok scope →
      Backend.checkScope env.digest request.branch projection scope = .ok () := by
  refine ⟨fun plan h => ?_,
    fun identity ordered projection scope hevents horder hproject hscope => ?_⟩
  · obtain ⟨run, rfl⟩ := Backend.exists_pullRun h
    exact ⟨completePlan run, accepts_iff run hrefs⟩
  · have hordered := enumerates_of_order horder
    refine Backend.checkScope_eq_ok hordered (fun e he => ?_)
      (Backend.scope_of_scopeHistory hordered hscope) hproject
    have hevent := hevents e ((hordered.mem e).1 he)
    simp only [Backend.checkPullEvent, bind_eq_ok, exists_unit_iff,
      Backend.asIntegrity_eq_ok] at hevent
    exact id_ne_empty_of_valid (validateHistoryEvent_of_server hevent.2)

/-! ### A repository with one branch -/

/-- Hashes for examples. -/
def zeroPullEnv : PullEnv where
  digest := zeroDigest
  stateHash _ := digitHash '0'
  stateHash_valid _ := by decide +kernel

/-- A request for `main`, with an observation root that is absent. -/
def pullMain : BranchPullRequest :=
  { version := 1, branch := "main", observationRoots := [digitHash '9'] }

/-- The branch, and a tag that it was restored at its first snapshot. -/
def mainRefs (symbolic : String) : List Ref :=
  [{ kind := .branch, name := "main", repoID := digitHash '1', target := digitHash '3'
     branchID := "x" },
   { kind := .tag, repoID := digitHash '1', target := digitHash '2', symbolic := symbolic
     name := "cxt/branch-state/v1/00000000000000000001/active/" ++
       String.ofList (List.replicate 64 '2') ++ "/main" }]

/-- The birth of the branch. -/
def mainHistory : List HistoryEvent :=
  [{ id := String.ofList (List.replicate 32 'a'), repoID := digitHash '1', branchID := "x"
     branch := "main", kind := .birth, target := digitHash '2', createdAt := 1 }]

/-- Two snapshots on the branch. -/
def mainSnapshots : List Backend.Snapshot :=
  [{ id := digitHash '2', repoID := digitHash '1', docHash := digitHash '2' },
   { id := digitHash '3', repoID := digitHash '1', docHash := digitHash '3'
     parents := some [digitHash '2'], codexSettings := digitHash '5' }]

/-- The request of the example. -/
def pullExample (symbolic : String) : Except Backend.DomainError BranchPullPlan :=
  Backend.selectBranchPullDependencies zeroPullEnv { id := digitHash '1' } pullMain
    (mainRefs symbolic) mainHistory mainSnapshots

/-- A plan for one branch, and the client's check of it. -/
theorem selectBranchPullDependencies_accepted_main :
    ∃ plan, pullExample "" = .ok plan ∧
      CompletePlan zeroDigest { id := digitHash '1' } pullMain mainHistory mainSnapshots plan ∧
      validateBranchPullPlan zeroDigest (digitHash '1') pullMain plan = .ok () := by
  have hplain : PlainTags "main" (mainRefs "") := by
    have hall : ∀ ref ∈ mainRefs "", ref.symbolic = "" := by decide
    exact fun ref href _ => hall ref href
  obtain ⟨plan, hplan⟩ := exists_of_isOk
    (show (pullExample "").isOk = true by decide +kernel)
  obtain ⟨hcomplete, haccepts⟩ := (selectBranchPullDependencies_accepted zeroPullEnv _ pullMain
    (mainRefs "") mainHistory mainSnapshots (by decide +kernel)).1 plan hplan
  exact ⟨plan, hplan, hcomplete, haccepts.2 hplain⟩

/-- **A symbolic lifecycle tag is planned by the server and refused by the client.** -/
theorem symbolicTag_refused :
    ((mainRefs "main").map fun ref => (ref.kind, ref.name)).Nodup ∧ pullMain.validate = .ok () ∧
      ∃ plan, pullExample "main" = .ok plan ∧
        validateBranchPullPlan zeroDigest (digitHash '1') pullMain plan =
          .error (bare .hashMismatch) := by
  refine ⟨by decide +kernel, by decide +kernel, ?_⟩
  have hrun : (pullExample "main").toOption.map
      (validateBranchPullPlan zeroDigest (digitHash '1') pullMain) =
        some (.error (bare .hashMismatch)) := by decide +kernel
  obtain ⟨plan, hplan, hrefused⟩ := Option.map_eq_some_iff.1 hrun
  refine ⟨plan, ?_, hrefused⟩
  cases hrun : pullExample "main" with
  | error e =>
      rw [hrun] at hplan
      cases hplan
  | ok other =>
      rw [hrun] at hplan
      cases hplan
      rfl

end Cli
end CxtHub
