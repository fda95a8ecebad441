/-
# The parts of a branch pull plan

What `SelectBranchPullDependencies` has established about each part of its plan when it
succeeds: the refs it picked (`Picked`), the history it kept (`Scope`), and the snapshots
it visited (`inventory_spec`).

The check of the scoped projection cannot fail (`checkScope_eq_ok`): the history that is
kept holds its dependencies and all bindings of the selected name, so it replays, and
binds the name as the whole history does.
-/

import CxtHub.Backend.BranchPull
import CxtHub.Cli.BranchScope

namespace CxtHub
namespace Backend

open Relation
open Cli (HistoryEvent ContextBranchProjection historyDependencies isBranchBindingEvent
  orderHistoryEvents projectContextBranches Enumerates ClosedPart)

/-! ### The refs -/

section Refs

variable {repo : ContentHash} {branch : String} {refs : List Ref} {picked : PickedRefs}

/-- A lifecycle tag of the branch. -/
def IsLifecycleOf (branch : String) (ref : Ref) : Prop :=
  ∃ e, parseBranchLifecycleRef ref = .ok (some e) ∧ e.branch = branch

/-- The refs that were picked out of those passed. -/
structure Picked (repo : ContentHash) (branch : String) (refs : List Ref)
    (picked : PickedRefs) : Prop where
  valid : ∀ ref ∈ refs, ref.repoID = repo ∧ validateRef ref = .ok ()
  selected : ∀ ref, picked.selected = some ref →
    ref ∈ refs ∧ ref.kind = .branch ∧ ref.name = branch
  sublist : picked.lifecycle.Sublist refs
  lifecycle : ∀ ref, ref ∈ picked.lifecycle ↔ ref ∈ refs ∧ IsLifecycleOf branch ref

/-- The selected ref is the branch of the request. -/
theorem pickSelected_eq_ok {picked' : PickedRefs} {ref : Ref}
    (h : pickSelected branch picked ref = .ok picked') :
    picked'.lifecycle = picked.lifecycle ∧ ∀ r, picked'.selected = some r →
      picked.selected = some r ∨ r = ref ∧ ref.kind = .branch ∧ ref.name = branch := by
  unfold pickSelected at h
  split_ifs at h with href
  · simp only [bind_eq_ok, exists_unit_iff, Except.ok.injEq] at h
    obtain ⟨-, rfl⟩ := h
    exact ⟨rfl, fun r hr => .inr ⟨(Option.some.inj hr).symm, href⟩⟩
  · cases h
    exact ⟨rfl, fun r hr => .inl hr⟩

/-- The tags of the branch. -/
theorem ofBranch_iff (branch : String) {ref : Ref} {event : Option BranchLifecycleEvent}
    (h : parseBranchLifecycleRef ref = .ok event) :
    ofBranch branch event = true ↔ IsLifecycleOf branch ref := by
  cases event <;> simp [ofBranch, IsLifecycleOf, h]

/-- The loop over the refs picks the branch and its lifecycle. -/
theorem picked_of_fold (h : refs.foldlM (pickRef repo branch) {} = .ok picked) :
    Picked repo branch refs picked := by
  refine foldlM_invariant_split (P := Picked repo branch) (fun done ref rest s s' _ hs hstep => ?_)
    ⟨fun _ hr => absurd hr List.not_mem_nil, fun _ hr => (by cases hr), List.Sublist.refl _,
      fun _ => by simp⟩ h
  simp only [pickRef, pickLifecycle, bind_eq_ok, exists_unit_iff, refuse_eq_ok, not_not,
    asIntegrity_eq_ok, Except.ok.injEq] at hstep
  obtain ⟨hrepo, hvalid, mid, hmid, event, hparse, rfl⟩ := hstep
  obtain ⟨hlife, hsel⟩ := pickSelected_eq_ok hmid
  have hiff := ofBranch_iff branch hparse
  refine ⟨List.forall_mem_append.2 ⟨hs.valid, List.forall_mem_singleton.2 ⟨hrepo, hvalid⟩⟩,
    ?_, ?_, ?_⟩
  · intro r hr
    have hr : mid.selected = some r := by split_ifs at hr <;> exact hr
    rcases hsel r hr with hr | ⟨rfl, hkind⟩
    · obtain ⟨hmem, hkind⟩ := hs.selected r hr
      exact ⟨List.mem_append_left _ hmem, hkind⟩
    · exact ⟨List.mem_append_right _ List.mem_cons_self, hkind⟩
  · split_ifs
    · simpa only [hlife] using hs.sublist.append (List.Sublist.refl _)
    · rw [hlife]
      exact hs.sublist.trans (List.sublist_append_left _ _)
  · intro r
    have hr := hs.lifecycle r
    split_ifs with hof
    · simp only [hlife, List.mem_append, List.mem_singleton, hr, or_and_right]
      refine or_congr_right ⟨?_, And.left⟩
      rintro rfl
      exact ⟨rfl, hiff.1 hof⟩
    · simp only [hlife, List.mem_append, List.mem_singleton, hr, or_and_right]
      refine (or_iff_left ?_).symm
      rintro ⟨rfl, hev⟩
      exact hof (hiff.2 hev)

/-- The selected ref has a target that no archive hides. -/
theorem selectRef_eq_ok {ref : Ref} (h : selectRef branch picked = .ok ref) :
    picked.selected = some ref ∧ ref.target ≠ "" ∧ ref.symbolic = "" ∧
      ∃ latest, Cli.latestBranchLifecycle picked.lifecycle branch = .ok latest ∧
        ¬ (ref.branchID = "" ∧ hides latest ref.target = true) := by
  simp only [selectRef, bind_eq_ok, asIntegrity_eq_ok] at h
  obtain ⟨latest, hlatest, h⟩ := h
  cases hsel : picked.selected with
  | none =>
      rw [hsel] at h
      cases h
  | some r =>
      simp only [hsel, bind_eq_ok, exists_unit_iff, refuse_eq_ok, not_not, Except.ok.injEq] at h
      obtain ⟨htarget, hsymbolic, hshown, rfl⟩ := h
      exact ⟨rfl, htarget, hsymbolic, latest, hlatest, hshown⟩

end Refs

/-! ### The history -/

section History

variable {identity branch : String} {history ordered scope : List HistoryEvent}

/-- The history that a plan keeps. -/
structure Scope (identity branch : String) (ordered scope : List HistoryEvent) : Prop where
  sublist : scope.Sublist ordered
  closed : ClosedPart ordered scope
  wanted : ∀ e ∈ ordered, wantedEvent identity branch e = true → e ∈ scope
  pinned : ∀ e ∈ ordered, completes identity e = true →
    ∃ f ∈ scope, branchPullPinnedEvent f = true ∧ pinOf f = sourceOf e

/-- The dependencies of an event, by its id. -/
theorem dependenciesOf_of_mem (hids : (ordered.map HistoryEvent.id).Nodup) {e : HistoryEvent}
    (he : e ∈ ordered) : dependenciesOf ordered e.id = historyDependencies e := by
  unfold dependenciesOf
  cases hfind : ordered.find? fun f => f.id = e.id with
  | none => exact absurd (List.find?_eq_none.1 hfind e he) (by simp)
  | some f =>
      have hid : f.id = e.id := by simpa using List.find?_some hfind
      rw [List.inj_on_of_nodup_map hids (List.mem_of_find?_eq_some hfind) he hid]

theorem dependenciesOf_of_notMem {id : String} (h : id ∉ ordered.map HistoryEvent.id) :
    dependenciesOf ordered id = [] := by
  have hfind : (ordered.find? fun e => e.id = id) = none :=
    List.find?_eq_none.2 fun e he hid => h (List.mem_map.2 ⟨e, he, of_decide_eq_true hid⟩)
  rw [dependenciesOf, hfind]

/-- The wanted ids hold the starts, and the dependencies of their events. -/
theorem mem_wantedIDs {starts : List String} (id : String) :
    id ∈ wantedIDs ordered starts ↔ ∃ start ∈ starts,
      ReflTransGen (Worklist.Edge (dependenciesOf ordered) fun _ => false) start id := by
  rw [wantedIDs, Worklist.mem_reach fun b hb => dependenciesOf_of_notMem hb]
  exact and_iff_right rfl

/-- The scope is closed under dependencies. -/
theorem scope_of_scopeHistory (hordered : Enumerates history ordered)
    (h : scopeHistory identity branch ordered = .ok scope) :
    Scope identity branch ordered scope := by
  simp only [scopeHistory, bind_eq_ok, Except.ok.injEq] at h
  obtain ⟨pins, hpins, rfl⟩ := h
  have hmem : ∀ e, e ∈ ordered.filter (fun e => e.id ∈ wantedIDs ordered
      ((ordered.filter (wantedEvent identity branch)).map HistoryEvent.id ++ pins.flatten)) ↔
      e ∈ ordered ∧ e.id ∈ wantedIDs ordered
        ((ordered.filter (wantedEvent identity branch)).map HistoryEvent.id ++ pins.flatten) :=
    fun e => by rw [List.mem_filter, decide_eq_true_eq]
  refine ⟨List.filter_sublist, ⟨List.filter_subset_self _, fun e he parent hparent => ?_⟩,
    fun e he hwanted => (hmem e).2 ⟨he, ?_⟩, fun e he hcompletes => ?_⟩
  · -- The order lists what an event depends on before it.
    obtain ⟨heo, hwanted⟩ := (hmem e).1 he
    obtain ⟨x, y, hsplit⟩ := List.append_of_mem heo
    have hcausal := hordered.causal
    rw [hsplit] at hcausal
    obtain ⟨f, hf, hid⟩ := List.mem_map.1
      ((hcausal.met parent hparent).resolve_left List.not_mem_nil)
    refine ⟨f, (hmem f).2 ⟨hsplit ▸ List.mem_append_left _ hf, ?_⟩, hid⟩
    obtain ⟨start, hstart, hpath⟩ := (mem_wantedIDs e.id).1 hwanted
    refine (mem_wantedIDs f.id).2 ⟨start, hstart, hpath.tail ⟨rfl, ?_⟩⟩
    rw [dependenciesOf_of_mem hordered.nodup heo, hid]
    exact hparent
  · refine (mem_wantedIDs e.id).2 ⟨e.id, List.mem_append_left _ ?_, .refl⟩
    exact List.mem_map_of_mem (List.mem_filter.2 ⟨he, hwanted⟩)
  · obtain ⟨found, hfound, rfl⟩ := mapM_eq_ok.1 hpins
    have hin : e ∈ ordered.filter (completes identity) := List.mem_filter.2 ⟨he, hcompletes⟩
    have hpin := hfound e hin
    simp only [sourcePins, bind_eq_ok, exists_unit_iff, refuse_eq_ok, Except.ok.injEq] at hpin
    obtain ⟨hne, hpin⟩ := hpin
    obtain ⟨id, hid⟩ := List.exists_mem_of_ne_nil _ hne
    obtain ⟨f, hf, rfl⟩ := List.mem_map.1 hid
    obtain ⟨hfo, hpinned⟩ := List.mem_filter.1 hf
    rw [Bool.and_eq_true, decide_eq_true_eq] at hpinned
    refine ⟨f, (hmem f).2 ⟨hfo, (mem_wantedIDs f.id).2 ⟨f.id, ?_, .refl⟩⟩, hpinned⟩
    refine List.mem_append_right _ (List.mem_flatten.2 ⟨found e, List.mem_map_of_mem hin, ?_⟩)
    rwa [← hpin]

/-- A binding that uses a name is a binding of the name. -/
theorem wanted_of_names {e : HistoryEvent} (hbind : isBranchBindingEvent e = true)
    (hname : branch ∈ ContextBranchProjection.names e) : wantedEvent identity branch e = true := by
  have hor := Cli.branch_of_mem_names hname
  simp [wantedEvent, hbind, hor]

/-- **The kept history binds the selected name as the whole history does.** -/
theorem Scope.project {d : Cli.Digest} {p : ContextBranchProjection}
    (hordered : Enumerates history ordered) (hids : ∀ e ∈ ordered, e.id ≠ "")
    (hscope : Scope identity branch ordered scope)
    (h : projectContextBranches d ordered = .ok p) :
    ∃ q, projectContextBranches d scope = .ok q ∧ Cli.SameAt branch q p := by
  obtain ⟨q, hq, hsame, -⟩ := Cli.project_part hordered.nodup (fun e he _ => hids e he)
    hscope.closed h
  exact ⟨q, hq, hsame branch fun e he hbind hname =>
    hscope.wanted e he (wanted_of_names hbind hname)⟩

/-- **The scope projects to the branch as the whole history does.** -/
theorem checkScope_eq_ok {d : Cli.Digest} {p : ContextBranchProjection}
    (hordered : Enumerates history ordered) (hids : ∀ e ∈ ordered, e.id ≠ "")
    (hscope : Scope identity branch ordered scope)
    (h : projectContextBranches d ordered = .ok p) : checkScope d branch p scope = .ok () := by
  obtain ⟨q, hq, hactive, hreleased⟩ := hscope.project hordered hids h
  simp [checkScope, hq, asIntegrity, activeAt, ContextBranchProjection.releasedBy, hactive,
    hreleased, refuse]

end History

/-! ### The snapshots -/

section Snapshots

variable {repo : ContentHash} {snapshots acc index : List Snapshot} {env : PullEnv}

/-- The index has each snapshot once. -/
theorem mapSnapshots_eq_ok (hacc : (acc.map Snapshot.id).Nodup)
    (h : mapSnapshots repo acc snapshots = .ok index) :
    (index.map Snapshot.id).Nodup ∧ (∀ s, s ∈ index ↔ s ∈ acc ∨ s ∈ snapshots) ∧
      ∀ s ∈ snapshots, validContentHash s.id = true := by
  induction snapshots generalizing acc with
  | nil =>
      cases h
      exact ⟨hacc, by simp, fun _ hs => absurd hs List.not_mem_nil⟩
  | cons s snapshots ih =>
      simp only [mapSnapshots, bind_eq_ok, exists_unit_iff, refuse_eq_ok, not_or,
        Bool.not_eq_false] at h
      obtain ⟨⟨-, hvalid⟩, hsame, h⟩ := h
      obtain ⟨hn, hmem, hall⟩ := ih (nodup_addNew hacc hsame) h
      refine ⟨hn, fun t => ?_, List.forall_mem_cons.2 ⟨hvalid, hall⟩⟩
      rw [hmem, mem_addNew, List.mem_cons, or_assoc]

/-- The map finds the snapshots of the list. -/
theorem byID_of_mapSnapshots (h : mapSnapshots repo [] snapshots = .ok index) :
    byID index = byID snapshots := by
  obtain ⟨hn, hmem, -⟩ := mapSnapshots_eq_ok (by simp) h
  funext id
  cases hid : byID snapshots id with
  | none => exact byID_eq_none.2 fun s hs => byID_eq_none.1 hid s (by simpa [hmem] using hs)
  | some s =>
      obtain ⟨hs, rfl⟩ := byID_eq_some hid
      exact byID_of_mem hn ((hmem s).2 (.inr hs))

/-- Entering a snapshot gives its parents. -/
theorem enterSnapshot_eq_ok {id : ContentHash} {children : List ContentHash}
    (h : enterSnapshot index id = .ok children) :
    id ∈ index.map Snapshot.id ∧ parentsOf index id = children := by
  unfold enterSnapshot at h
  unfold parentsOf
  cases hid : byID index id with
  | none =>
      rw [hid] at h
      cases h
  | some s =>
      simp only [hid, bind_eq_ok, exists_unit_iff, Except.ok.injEq] at h
      obtain ⟨hs, rfl⟩ := byID_eq_some hid
      exact ⟨List.mem_map_of_mem hs, h.2⟩

/-- **The fuel of the visit is enough.** -/
theorem pullVisit_fuel :
    PostOrder.visit (pullVisitor env index) (index.length + 2) [] =
      PostOrder.visit (pullVisitor env index) (index.length + 1) [] :=
  PostOrder.visit_fuel (index.map Snapshot.id)
    (fun _ _ h => (enterSnapshot_eq_ok h).1) List.nodup_nil (List.nil_subset _) (by simp)

/-- The kinds that a snapshot has settings of. -/
def knownKinds : List SettingsKind := [.claude, .codex, .agents]

/-- Settings under valid hashes, of known kinds. -/
def GoodSettings (settings : AList fun _ : ContentHash => SettingsKind) : Prop :=
  ∀ entry ∈ settings.entries, validContentHash entry.1 = true ∧ entry.2 ∈ knownKinds

/-- One more setting that is well formed. -/
theorem GoodSettings.insert {settings : AList fun _ : ContentHash => SettingsKind}
    (h : GoodSettings settings) {hash : ContentHash} {kind : SettingsKind}
    (hhash : validContentHash hash = true) (hkind : kind ∈ knownKinds) :
    GoodSettings (settings.insert hash kind) := by
  intro entry hentry
  rcases List.mem_cons.1 hentry with rfl | hentry
  · exact ⟨hhash, hkind⟩
  · exact h entry ((List.kerase_sublist _ _).subset hentry)

/-- The loop over the settings keeps them well formed. -/
theorem goodSettings_of_fold {l : List BranchPullSettings} (hl : ∀ x ∈ l, x.kind ∈ knownKinds)
    {settings after : AList fun _ : ContentHash => SettingsKind} (h : GoodSettings settings)
    (hfold : l.foldlM addSetting settings = .ok after) : GoodSettings after := by
  refine foldlM_invariant_split (P := fun _ s => GoodSettings s)
    (fun done x rest s s' hsplit hs hstep => ?_) h hfold
  unfold addSetting at hstep
  split_ifs at hstep
  · cases hstep
    exact hs
  · simp only [bind_eq_ok, exists_unit_iff, asIntegrity_eq_ok, validateContentHash_eq_ok,
      refuse_eq_ok, Except.ok.injEq] at hstep
    obtain ⟨hvalid, -, rfl⟩ := hstep
    exact hs.insert hvalid (hl x (by simp [hsplit]))

/-- What the visit has written down about the snapshots that are done. -/
structure Inventoried (done : List ContentHash) (inventory : Inventory) : Prop where
  keys : ∀ id, id ∈ inventory.states ↔ id ∈ done
  states : ∀ id token, inventory.states.lookup id = some token → validContentHash token = true
  settings : GoodSettings inventory.settings

/-- Leaving a snapshot adds it to the inventory. -/
theorem inventoried_leave {done : List ContentHash} {inventory inventory' : Inventory}
    {id : ContentHash} (h : Inventoried done inventory)
    (hleave : (pullVisitor env index).leave inventory id = .ok inventory') :
    Inventoried (done ++ [id]) inventory' := by
  change leaveSnapshot env index inventory id = .ok inventory' at hleave
  unfold leaveSnapshot at hleave
  split at hleave
  · cases hleave
  · rename_i s hs
    simp only [bind_eq_ok, Except.ok.injEq] at hleave
    obtain ⟨settings, hsettings, rfl⟩ := hleave
    refine ⟨fun x => ?_, fun x token hx => ?_, goodSettings_of_fold ?_ h.settings hsettings⟩
    · simp only [AList.mem_insert, h.keys, List.mem_append, List.mem_singleton, or_comm]
    · by_cases hid : x = id
      · subst hid
        rw [AList.lookup_insert, Option.some.injEq] at hx
        exact hx ▸ env.stateHash_valid s
      · rw [AList.lookup_insert_ne hid] at hx
        exact h.states x token hx
    · simp [settingsOf, knownKinds]

/-- **What a visit of the roots collects**: the snapshots that the roots reach, each with the hash
of its state. -/
theorem inventory_spec {roots : List ContentHash}
    {progress : PostOrder.Progress ContentHash Inventory}
    (h : visitRoots env index roots = .ok progress) :
    progress.done.Nodup ∧ Inventoried progress.done progress.state ∧
      (∀ id ∈ progress.done, id ∈ index.map Snapshot.id) ∧
      ∀ id, id ∈ progress.done ↔ id ≠ "" ∧ ∃ root ∈ roots, ReflTransGen (Step index) root id := by
  obtain ⟨hcomplete, hinventory, hmem⟩ := PostOrder.visitAll_spec (J := Inventoried)
    (fun _ _ _ _ hs hleave => inventoried_leave hs hleave)
    ⟨fun id => by simp, fun _ _ hx => (by cases hx), fun _ hx => absurd hx List.not_mem_nil⟩ h
  have hskip : ∀ id, (pullVisitor env index).skip id = false ↔ id ≠ "" := fun id => by
    simp [pullVisitor]
  refine ⟨hcomplete.nodup, hinventory, fun id hid => ?_, fun id => ⟨fun hid => ?_, ?_⟩⟩
  · obtain ⟨children, henter, -⟩ := hcomplete.closed id hid
    exact (enterSnapshot_eq_ok henter).1
  · obtain ⟨hne, root, hroot, hpath⟩ := (hmem id).1 hid
    refine ⟨(hskip id).1 hne, root, hroot, ReflTransGen.mono (fun a b hab => ?_) _ _ hpath⟩
    obtain ⟨ha, children, henter, hb⟩ := hab
    exact ⟨(hskip a).1 ha, by rwa [(enterSnapshot_eq_ok henter).2]⟩
  · rintro ⟨hne, root, hroot, hpath⟩
    -- A step from a snapshot that is done is a step of the visit.
    have hall : id = "" ∨ id ∈ progress.done := by
      clear hne
      induction hpath with
      | refl =>
          by_cases hempty : root = ""
          · exact .inl hempty
          · exact .inr ((hmem root).2 ⟨(hskip root).2 hempty, root, hroot, .refl⟩)
      | tail _ hstep ih =>
          obtain ⟨children, henter, hdone⟩ := hcomplete.closed _ (ih.resolve_left hstep.1)
          have hb := hstep.2
          rw [(enterSnapshot_eq_ok henter).2] at hb
          exact (hdone _ hb).2.imp_left fun hs => by simpa [pullVisitor] using hs
    exact hall.resolve_left hne

end Snapshots

/-! ### A successful request -/

/-- The values that a successful request computes, with what its checks say of them. -/
structure PullRun (env : PullEnv) (repo : PullRepo) (request : BranchPullRequest)
    (refs : List Ref) (history : List HistoryEvent) (snapshots : List Snapshot) where
  picked : PickedRefs
  selected : Ref
  ordered : List HistoryEvent
  projection : ContextBranchProjection
  scope : List HistoryEvent
  index : List Snapshot
  progress : PostOrder.Progress ContentHash Inventory
  repoValid : validContentHash repo.id = true
  protocol : repo.contextProtocol = 0 ∨ repo.contextProtocol = 1
  picks : Picked repo.id request.branch refs picked
  selects : selectRef request.branch picked = .ok selected
  events : ∀ e ∈ history, e.repoID = repo.id ∧ validateHistoryEvent e = .ok ()
  order : orderHistoryEvents history = .ok ordered
  project : projectContextBranches env.digest ordered = .ok projection
  bound : boundElsewhere env.digest projection repo.id request.branch
    (pullIdentity env.digest repo.id request.branch selected) = false
  scopes : Scope (pullIdentity env.digest repo.id request.branch selected) request.branch
    ordered scope
  maps : mapSnapshots repo.id [] snapshots = .ok index
  visits : visitRoots env index
    (pullRoots index request selected (planRefs picked selected) scope) = .ok progress

variable {env : PullEnv} {repo : PullRepo} {request : BranchPullRequest} {refs : List Ref}
  {history : List HistoryEvent} {snapshots : List Snapshot}

/-- The plan of a run. -/
def PullRun.plan (run : PullRun env repo request refs history snapshots) : BranchPullPlan :=
  pullPlan repo request run.selected (planRefs run.picked run.selected) run.scope run.index
    run.progress

/-- **A plan comes from a run with these parts.** -/
theorem exists_pullRun {plan : BranchPullPlan}
    (h : selectBranchPullDependencies env repo request refs history snapshots = .ok plan) :
    ∃ run : PullRun env repo request refs history snapshots, plan = run.plan := by
  simp only [selectBranchPullDependencies, bind_eq_ok, exists_unit_iff, refuse_eq_ok, not_or,
    Bool.not_eq_false, Bool.not_eq_true, checkAll_eq_ok, wrapIntegrity_eq_ok,
    Except.ok.injEq] at h
  obtain ⟨-, ⟨hrepo, hprotocol⟩, picked, hpicked, selected, hselected, hevents, ordered, horder,
    projection, hproject, hbound, scope, hscope, -, index, hindex, progress, hprogress, rfl⟩ := h
  exact ⟨{ picked := picked, selected := selected, ordered := ordered, projection := projection
           scope := scope, index := index, progress := progress, repoValid := hrepo
           protocol := by tauto
           picks := picked_of_fold hpicked
           selects := hselected
           events := fun e he => by simpa [checkPullEvent] using hevents e he
           order := horder
           project := hproject
           bound := hbound
           scopes := scope_of_scopeHistory (Cli.enumerates_of_order horder) hscope
           maps := hindex
           visits := hprogress }, rfl⟩

end Backend
end CxtHub
