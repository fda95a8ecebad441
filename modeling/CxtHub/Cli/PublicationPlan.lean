/-
# A publication plan is closed, authorised and ordered

`planPublication_publishes`: a plan that succeeds sends every pending event of its
authority, no event twice and none that is accepted; it sends no pull request merge and
nothing of another identity but positions and attachments; what an event depends on, and a
proof of each publication, is accepted or sent earlier; publications come last; and there
is one ref for each identity of the authority, with the target that the branch has
(`Publishes`).

Every event of the plan is reached from a pending event of the authority by the edges of
the plan, and the edges of an event are its dependencies, one witness of its origin and its
proofs.  So a witness that was rejected leaves nothing that the plan does not need without
it.
-/

import CxtHub.Cli.BranchOrder
import CxtHub.Cli.PublicationOrder
import CxtHub.Cli.PublicationVisit

namespace CxtHub
namespace Cli

open Backend (Ref digitHash)
open Relation

variable {refs : List Ref}

/-! ### Refs and authority -/

/-- The index has the branches, each name once. -/
theorem indexRefs_eq_ok {repo : String} {rest out : List Ref}
    (hn : (refs.map Ref.name).Nodup) (h : indexRefs repo refs rest = .ok out) :
    (out.map Ref.name).Nodup ∧ ∀ r, r ∈ out ↔ r ∈ refs ∨ (r ∈ rest ∧ r.kind = .branch) := by
  induction rest generalizing refs with
  | nil =>
      cases h
      exact ⟨hn, by simp⟩
  | cons r rest ih =>
      by_cases hkind : r.kind = .branch
      · simp only [indexRefs, hkind, ne_eq, not_true_eq_false, if_false, bind_eq_ok, refuse_eq_ok,
          exists_unit_iff] at h
        obtain ⟨-, hsame, hrest⟩ := h
        obtain ⟨hout, hiff⟩ := ih (nodup_addNew hn hsame) hrest
        refine ⟨hout, fun x => ?_⟩
        rw [hiff, mem_addNew, List.mem_cons]
        constructor
        · rintro ((hx | rfl) | ⟨hx, hbranch⟩)
          · exact .inl hx
          · exact .inr ⟨.inl rfl, hkind⟩
          · exact .inr ⟨.inr hx, hbranch⟩
        · rintro (hx | ⟨rfl | hx, hbranch⟩)
          · exact .inl (.inl hx)
          · exact .inl (.inr rfl)
          · exact .inr ⟨hx, hbranch⟩
      · simp only [indexRefs, hkind, ne_eq, not_false_eq_true, if_true] at h
        obtain ⟨hout, hiff⟩ := ih hn h
        refine ⟨hout, fun x => ?_⟩
        rw [hiff, List.mem_cons]
        constructor
        · exact fun hx => hx.imp_right fun hx => ⟨.inr hx.1, hx.2⟩
        · rintro (hx | ⟨rfl | hx, hbranch⟩)
          · exact .inl hx
          · exact absurd hbranch hkind
          · exact .inr ⟨hx, hbranch⟩

/-- The authority and the refs that the loop over the branches has granted. -/
structure Granted (input : PublicationPlanInput) (refs : List Ref)
    (branches : List PublicationBranch) (acc : List PublicationBranch × List Ref) : Prop where
  inScope : ∀ id, id ∈ acc.1.map PublicationBranch.branchID ↔
    id ∈ branches.map PublicationBranch.branchID
  nodup : (acc.1.map PublicationBranch.branchID).Nodup
  pushed : input.scope.historyOnly = false →
    acc.2.map Ref.branchID = acc.1.map PublicationBranch.branchID
  none : input.scope.historyOnly = true → acc.2 = []
  current : ∀ r ∈ acc.2, ∃ b ∈ acc.1, ∃ current, refNamed refs b.branch = some current ∧
    r = { current with branchID := b.branchID }

/-- One round of the loop grants one branch. -/
theorem authorise_granted {d : Digest} {input : PublicationPlanInput} {events : List HistoryEvent}
    {projection : ContextBranchProjection} {b : PublicationBranch}
    {branches : List PublicationBranch} {acc acc' : List PublicationBranch × List Ref}
    (h : Granted input refs branches acc)
    (hstep : authorise d input events refs projection acc b = .ok acc') :
    Granted input refs (branches ++ [b]) acc' := by
  simp only [authorise, bind_eq_ok, refuse_eq_ok, exists_unit_iff] at hstep
  obtain ⟨-, hstep⟩ := hstep
  split at hstep
  · rename_i known hknown
    simp only [bind_eq_ok, Except.ok.injEq] at hstep
    obtain ⟨_, -, rfl⟩ := hstep
    have hmem : b.branchID ∈ acc.1.map PublicationBranch.branchID :=
      List.mem_map.2
        ⟨known, List.mem_of_find?_eq_some hknown, by simpa using List.find?_some hknown⟩
    refine { h with inScope := fun id => ?_ }
    rw [List.map_append, List.mem_append, ← h.inScope, List.map_singleton, List.mem_singleton]
    exact ⟨.inl, fun hid => hid.elim (fun hid => hid) fun heq => heq ▸ hmem⟩
  · rename_i hnew
    simp only [bind_eq_ok, exists_unit_iff, Except.ok.injEq] at hstep
    obtain ⟨-, pushed, hpushed, rfl⟩ := hstep
    have hnodup : ((acc.1 ++ [b]).map PublicationBranch.branchID).Nodup := by
      rw [List.map_append, List.map_singleton, List.nodup_append]
      refine ⟨h.nodup, List.nodup_singleton _, fun x hx y hy hxy => ?_⟩
      obtain ⟨a, ha, rfl⟩ := List.mem_map.1 hx
      have hid : a.branchID = b.branchID := hxy.trans (List.mem_singleton.1 hy)
      exact List.find?_eq_none.1 hnew a ha (decide_eq_true hid)
    have hscoped : ∀ id, id ∈ (acc.1 ++ [b]).map PublicationBranch.branchID ↔
        id ∈ (branches ++ [b]).map PublicationBranch.branchID := fun id => by
      rw [List.map_append, List.map_append, List.mem_append, List.mem_append, h.inScope]
    have hkeep : ∀ r ∈ acc.2, ∃ a ∈ acc.1 ++ [b], ∃ current,
        refNamed refs a.branch = some current ∧ r = { current with branchID := a.branchID } :=
      fun r hr => by
        obtain ⟨a, ha, hrest⟩ := h.current r hr
        exact ⟨a, List.mem_append_left _ ha, hrest⟩
    rw [refsFor] at hpushed
    split_ifs at hpushed with honly
    · cases hpushed
      refine ⟨hscoped, hnodup, fun hfalse => ?_, fun _ => ?_, fun r hr => ?_⟩
      · rw [honly] at hfalse
        cases hfalse
      · rw [List.append_nil]
        exact h.none honly
      · rw [List.append_nil] at hr
        exact hkeep r hr
    · simp only [bind_eq_ok, Except.ok.injEq] at hpushed
      obtain ⟨r, hr, rfl⟩ := hpushed
      rw [refToPush] at hr
      split at hr
      · cases hr
      · rename_i current hcurrent
        simp only [bind_eq_ok, Except.ok.injEq] at hr
        obtain ⟨_, -, _, -, _, -, rfl⟩ := hr
        refine ⟨hscoped, hnodup, fun hfalse => ?_, fun htrue => absurd htrue honly,
          fun x hx => ?_⟩
        · rw [List.map_append, List.map_append, h.pushed hfalse]
          rfl
        · rcases List.mem_append.1 hx with hx | hx
          · exact hkeep x hx
          · exact ⟨b, List.mem_append_right _ (List.mem_singleton_self b), current, hcurrent,
              List.mem_singleton.1 hx⟩

/-- The loop grants each of them. -/
theorem authorise_all {d : Digest} {input : PublicationPlanInput} {events : List HistoryEvent}
    {projection : ContextBranchProjection} {branches : List PublicationBranch}
    {granted : List PublicationBranch × List Ref}
    (h : branches.foldlM (authorise d input events refs projection) ([], []) = .ok granted) :
    Granted input refs branches granted := by
  refine foldlM_invariant_split (P := Granted input refs)
    (fun _ _ _ _ _ _ hacc hstep => authorise_granted hacc hstep) ?_ h
  exact ⟨fun _ => Iff.rfl, List.nodup_nil, fun _ => rfl, fun _ => rfl,
    fun _ hr => absurd hr List.not_mem_nil⟩

/-! ### The events of the plan -/

section Events

variable {events accepted ordered history : List HistoryEvent} {c : PublicationCatalog} {d : Digest}
  {allowed : String → Bool} {s : List Sending}

/-- What is sent when every event of the groups has been visited. -/
structure SendsAll (c : PublicationCatalog) (d : Digest) (allowed : String → Bool)
    (ordered : List HistoryEvent) (s : List Sending) : Prop where
  sent : Sent c d allowed s
  done : ∀ e ∈ ordered, e.id ∈ c.accepted ∨ e.id ∈ sentIDs s
  reached : ∀ x ∈ s, ∃ e ∈ ordered, ReflTransGen (Edge s) e.id x.event.id

/-- **Every authorised event is sent, after what it waits for.** -/
theorem visitAll_sendsAll (hids : ∀ e ∈ c.all, e.id ≠ "") {ids : List String}
    (h : visitAll c d allowed ordered [] = (.ok ids, s)) : SendsAll c d allowed ordered s := by
  have hrun : ∀ (e : HistoryEvent) s s' (x : List String), (do
      visitEvent c d allowed c.all.length [] e.id
      Attempt.ok [e.id] : Attempt (List Sending) DomainError (List String)) s = (.ok x, s') →
        x = [e.id] ∧ Visited c d allowed s s' x := fun e s s' x hx => by
    simp only [Attempt.bind_run_ok, Attempt.ok_run, exists_unit_iff, Prod.mk.injEq,
      Except.ok.injEq] at hx
    obtain ⟨m, hm, rfl, rfl⟩ := hx
    exact ⟨rfl, visitEvent_visited hids hm⟩
  have hvalue := Attempt.collect_value (g := fun e : HistoryEvent => [e.id])
    (fun e _ s s' x hx => (hrun e s s' x hx).1) h
  have hvisited : Visited c d allowed [] s ids :=
    Attempt.collect_ok Visited.nil Visited.append (fun e _ s s' x hx => (hrun e s s' x hx).2) h
  rw [hvalue, ← List.map_eq_flatMap] at hvisited
  refine ⟨hvisited.sent ?_, fun e he => hvisited.done e.id (List.mem_map_of_mem he), fun x hx => ?_⟩
  · constructor <;> simp [sentIDs]
  · rcases hvisited.reached x hx with hx | ⟨p, hp, hpath⟩
    · cases hx
    · obtain ⟨e, he, rfl⟩ := List.mem_map.1 hp
      exact ⟨e, he, hpath⟩

variable (hc : Catalogued events accepted c)
  (hordered : ordered.Perm (c.pending.filter fun e => allowed e.branchID))
  (hs : SendsAll c d allowed ordered s)

include hc hs in
/-- An event that is sent is a pending one. -/
theorem SendsAll.pending {x : Sending} (hx : x ∈ s) : x.event ∈ c.pending := by
  have hknown := (hc.byID.1 (hs.sent.known x hx)).1
  have hfresh := hs.sent.fresh x hx
  rcases (hc.mem_all x.event).1 hknown with hacc | hev
  · exact absurd (hc.accepted_eq ▸ List.mem_map_of_mem hacc) hfresh
  · exact (hc.mem_pending x.event).2 ⟨hev, hfresh⟩

include hc hs hordered in
/-- Each ordered event is sent. -/
theorem SendsAll.find {e : HistoryEvent} (he : e ∈ ordered) :
    ∃ x ∈ s, x.event = e := by
  obtain ⟨hpending, -⟩ := List.mem_filter.1 (hordered.mem_iff.1 he)
  obtain ⟨hev, hfresh⟩ := (hc.mem_pending e).1 hpending
  obtain ⟨x, hx, hid⟩ := List.mem_map.1 ((hs.done e he).resolve_left hfresh)
  refine ⟨x, hx, ?_⟩
  have hknown := hc.byID.1 (hs.sent.known x hx)
  exact List.inj_on_of_nodup_map hc.nodup hknown.1 ((hc.mem_all e).2 (.inr hev)) hid

include hc hs hordered in
/-- The publications that are sent are those of the groups. -/
theorem SendsAll.publications {x : Sending} (hx : x ∈ s) (hk : x.event.kind = .publish) :
    x.event ∈ ordered := by
  have hauth := hs.sent.authorised x hx
  simp only [authorised, hk, Bool.and_eq_true, Bool.or_eq_true, decide_eq_true_eq] at hauth
  refine hordered.mem_iff.2 (List.mem_filter.2 ⟨hs.pending hc hx, ?_⟩)
  simpa using hauth.2

include hs in
/-- A sending is found by the id of its event. -/
theorem SendsAll.find_event {x : Sending} (hx : x ∈ s) :
    (s.find? fun y => y.event.id = x.event.id) = some x := by
  cases hfind : s.find? fun y => y.event.id = x.event.id with
  | none => exact absurd (List.find?_eq_none.1 hfind x hx) (by simp)
  | some y =>
      have hid : y.event.id = x.event.id := by simpa using List.find?_some hfind
      rw [List.inj_on_of_nodup_map hs.sent.nodup (List.mem_of_find?_eq_some hfind) hx hid]

include hc hs hordered in
/-- The last sort has all the events that are sent. -/
theorem SendsAll.perm : (((s.map Sending.event).filter fun e => e.kind ≠ .publish) ++
    ordered.filter fun e => e.kind = .publish).Perm (s.map Sending.event) := by
  have hnodup : (s.map Sending.event).Nodup := by
    refine List.Nodup.of_map HistoryEvent.id ?_
    rw [List.map_map]
    exact hs.sent.nodup
  have hordered_nodup : ordered.Nodup :=
    hordered.nodup_iff.2 (hc.pending_nodup.of_map.filter _)
  have hpublications : (ordered.filter fun e => e.kind = .publish).Perm
      ((s.map Sending.event).filter fun e => e.kind = .publish) := by
    refine (List.perm_ext_iff_of_nodup (hordered_nodup.filter _) (hnodup.filter _)).2 fun e => ?_
    simp only [List.mem_filter, decide_eq_true_eq, List.mem_map]
    constructor
    · rintro ⟨he, hk⟩
      exact ⟨hs.find hc hordered he, hk⟩
    · rintro ⟨⟨x, hx, rfl⟩, hk⟩
      exact ⟨hs.publications hc hordered hx hk, hk⟩
  refine (hpublications.append_left _).trans (List.perm_append_comm.trans ?_)
  have hsplit := List.filter_append_perm (fun e : HistoryEvent => decide (e.kind = .publish))
    (s.map Sending.event)
  simpa using hsplit

include hc hs hordered in
/-- The order of sending: dependencies first, publications last. -/
theorem orderSendings_spec (h : orderSendings ordered s = .ok history) :
    history.Perm (s.map Sending.event) ∧
      (∀ pre e post, history = pre ++ e :: post → ∀ x ∈ s, x.event = e → ∀ p ∈ x.deps,
        p ∈ c.accepted ∨ p ∈ pre.map HistoryEvent.id) ∧
      history.Pairwise fun a b => a.kind = .publish → b.kind = .publish := by
  have hsent : (ordered.filter fun e => e.kind = .publish).filterMap (fun e =>
      (s.map Sending.event).find? fun f => f.id = e.id) =
        ordered.filter fun e => e.kind = .publish := by
    conv_rhs => rw [← List.filterMap_some (l := ordered.filter fun e => e.kind = .publish)]
    refine List.filterMap_congr fun e he => ?_
    obtain ⟨x, hx, rfl⟩ := hs.find hc hordered (List.mem_filter.1 he).1
    rw [List.find?_map]
    exact congrArg (Option.map Sending.event) (hs.find_event hx)
  rw [orderSendings] at h
  simp only [hsent] at h
  obtain ⟨hperm, hinOrder, hlast⟩ := orderPublications_spec
    (fun e he => by simpa using (List.mem_filter.1 (mem_sortOn.1 he)).2)
    (fun e he => by simpa using (List.mem_filter.1 he).2) h
  have hall := ((sortOn_perm byTime _).append_right _).trans (hs.perm hc hordered)
  refine ⟨hperm.trans hall, fun pre e post hsplit x hx hxe p hp => ?_, hlast⟩
  have hedge : p ∈ edgesIn s e.id := by
    rw [edgesIn, ← hxe, hs.find_event hx]
    exact hp
  rcases hs.sent.closed x hx p hp with hacc | hsentID
  · exact .inl hacc
  · refine .inr ((hinOrder pre e post hsplit p (subset_chainEdges _ _ _ hedge)).resolve_left
      (not_not.2 ?_))
    rw [(hall.map HistoryEvent.id).mem_iff, List.map_map]
    exact hsentID

end Events

/-! ### The plan -/

/-- What a publication plan promises. -/
structure Publishes (d : Digest) (input : PublicationPlanInput) (c : PublicationCatalog)
    (plan : PublicationPlan) : Prop where
  nodup : (plan.historyToSend.map HistoryEvent.id).Nodup
  pending : ∀ e ∈ plan.historyToSend, e ∈ input.history ∧
    e.id ∉ input.accepted.map HistoryEvent.id
  complete : ∀ e ∈ input.history, e.id ∉ input.accepted.map HistoryEvent.id →
    e.branchID ∈ plan.authority.map PublicationBranch.branchID → e ∈ plan.historyToSend
  authorised : ∀ e ∈ plan.historyToSend, e.kind ≠ .prMerge ∧
    (e.branchID ∈ plan.authority.map PublicationBranch.branchID ∨ e.kind = .position ∨
      e.kind = .attach)
  closed : ∀ pre e post, plan.historyToSend = pre ++ e :: post → ∀ p ∈ historyDependencies e,
    p ∈ input.accepted.map HistoryEvent.id ∨ p ∈ pre.map HistoryEvent.id
  proven : ∀ pre e post, plan.historyToSend = pre ++ e :: post → e.kind = .publish →
    ∃ proof, publicationProof e proof = true ∧ (proof ∈ input.accepted ∨ proof ∈ pre)
  publicationsLast : plan.historyToSend.Pairwise fun a b => a.kind = .publish → b.kind = .publish
  identities : (plan.authority.map PublicationBranch.branchID).Nodup
  inScope : input.ref = "" → ∀ id, id ∈ plan.authority.map PublicationBranch.branchID ↔
    id ∈ input.scope.branches.map PublicationBranch.branchID
  refs : input.scope.historyOnly = false →
    (plan.refsToPush.map Ref.branchID).Perm (plan.authority.map PublicationBranch.branchID)
  noRefs : input.scope.historyOnly = true → plan.refsToPush = []
  current : ∀ r ∈ plan.refsToPush, ∃ b ∈ plan.authority, ∃ current,
    (∀ local', local' ∈ input.refs ∧ local'.kind = .branch ∧ local'.name = b.branch ↔
      local' = current) ∧ r = { current with branchID := b.branchID }
  needed : ∃ deps : String → List String,
    (∀ e ∈ plan.historyToSend, ∃ witness, Waits c d e witness (deps e.id)) ∧
    ∀ e ∈ plan.historyToSend, ∃ root ∈ input.history,
      root.id ∉ input.accepted.map HistoryEvent.id ∧
      root.branchID ∈ plan.authority.map PublicationBranch.branchID ∧
      ReflTransGen (fun a b => (∃ f ∈ plan.historyToSend, f.id = a) ∧ b ∈ deps a) root.id e.id

/-- What is found has the name. -/
theorem refNamed_eq_some {name : String} {r : Ref}
    (h : refNamed refs name = some r) : r ∈ refs ∧ r.name = name :=
  ⟨List.mem_of_find?_eq_some h, by simpa using List.find?_some h⟩

/-- **Publication.**  A plan that succeeds is closed, authorised and ordered. -/
theorem planPublication_publishes (d : Digest) (input : PublicationPlanInput)
    (plan : PublicationPlan) (h : planPublication d input = .ok plan) :
    ∃ c, indexPublicationHistory input.repoID (sortOn byTime input.history) input.accepted =
      .ok c ∧ Publishes d input c plan := by
  simp only [planPublication, bind_eq_ok, exists_unit_iff, Except.ok.injEq] at h
  obtain ⟨-, -, -, c, hindex, refs, hrefs, branches, hbranches, -, -, projection, -, granted,
    hgranted, ancestry, -, ordered, horder, ids, hvisit, history, hhistory, rfl⟩ := h
  have hc := indexPublicationHistory_eq_ok hindex
  have hgrant := authorise_all hgranted
  have hordered := order_perm horder
  obtain ⟨s, hs⟩ : ∃ s, s = (visitAll c d (fun id => granted.1.any fun b => b.branchID = id)
    ordered []).2 := ⟨_, rfl⟩
  rw [← hs] at hhistory
  have hsends := visitAll_sendsAll hc.named (Prod.ext hvisit hs.symm)
  obtain ⟨hperm, hbefore, hlast⟩ := orderSendings_spec hc hordered hsends hhistory
  have hnames : ∀ id, id ∈ (sortOn PublicationBranch.branchID granted.1).map
      PublicationBranch.branchID ↔ (granted.1.any fun b => b.branchID = id) = true := fun id => by
    simp
  have hevent : ∀ e, e ∈ history ↔ ∃ x ∈ s, x.event = e := fun e => by
    rw [hperm.mem_iff, List.mem_map]
  have hpending : ∀ e, e ∈ c.pending ↔ e ∈ input.history ∧
      e.id ∉ input.accepted.map HistoryEvent.id := fun e => by
    rw [hc.mem_pending, mem_sortOn, hc.accepted_eq]
  have hsplits : ∀ pre e post, history = pre ++ e :: post → e ∈ history ∧ pre ⊆ history := by
    rintro pre e post rfl
    simp
  have hidentities : ((sortOn PublicationBranch.branchID granted.1).map
      PublicationBranch.branchID).Perm (granted.1.map PublicationBranch.branchID) :=
    (sortOn_perm _ _).map _
  obtain ⟨hrefNames, hrefMem⟩ := indexRefs_eq_ok (by simp) hrefs
  refine ⟨c, hindex,
    { nodup := ?_
      pending := fun e he => ?_
      complete := fun e he hnew hid => ?_
      authorised := fun e he => ?_
      closed := fun pre e post hsplit p hp => ?_
      proven := fun pre e post hsplit hk => ?_
      publicationsLast := hlast
      identities := hidentities.nodup_iff.2 hgrant.nodup
      inScope := fun href id => ?_
      refs := fun honly => ?_
      noRefs := fun honly => ?_
      current := fun r hr => ?_
      needed := ?_ }⟩
  · rw [(hperm.map _).nodup_iff, List.map_map]
    exact hsends.sent.nodup
  · obtain ⟨x, hx, rfl⟩ := (hevent e).1 he
    exact (hpending _).1 (hsends.pending hc hx)
  · have hmem : e ∈ ordered := hordered.mem_iff.2 (List.mem_filter.2
      ⟨(hpending e).2 ⟨he, hnew⟩, (hnames _).1 hid⟩)
    exact (hevent e).2 (hsends.find hc hordered hmem)
  · obtain ⟨x, hx, rfl⟩ := (hevent e).1 he
    have hauth := hsends.sent.authorised x hx
    simp only [authorised, Bool.and_eq_true, Bool.or_eq_true, decide_eq_true_eq] at hauth
    rw [hnames]
    exact ⟨hauth.1, by tauto⟩
  · obtain ⟨x, hx, rfl⟩ := (hevent e).1 (hsplits pre e post hsplit).1
    obtain ⟨witness, hwaits⟩ := hsends.sent.waits x hx
    rw [← hc.accepted_eq]
    exact hbefore pre x.event post hsplit x hx rfl p (hwaits.dependency hp)
  · obtain ⟨x, hx, rfl⟩ := (hevent e).1 (hsplits pre e post hsplit).1
    obtain ⟨witness, hwaits⟩ := hsends.sent.waits x hx
    obtain ⟨proof, hproof, hexact, hdep⟩ := hwaits.proof hk
    refine ⟨proof, hexact, ?_⟩
    have hsame : ∀ f ∈ c.all, f.id = proof.id → f = proof := fun f hf hid =>
      List.inj_on_of_nodup_map hc.nodup hf hproof hid
    rcases hbefore pre x.event post hsplit x hx rfl proof.id hdep with hacc | hpre
    · rw [hc.accepted_eq] at hacc
      obtain ⟨f, hf, hid⟩ := List.mem_map.1 hacc
      exact .inl (hsame f ((hc.mem_all f).2 (.inl hf)) hid ▸ hf)
    · obtain ⟨f, hf, hid⟩ := List.mem_map.1 hpre
      obtain ⟨y, hy, rfl⟩ := (hevent f).1 ((hsplits pre _ post hsplit).2 hf)
      exact .inr (hsame _ (hc.byID.1 (hsends.sent.known y hy)).1 hid ▸ hf)
  · rw [scopeBranches, if_pos href, Except.ok.injEq] at hbranches
    rw [hidentities.mem_iff, hgrant.inScope, hbranches]
  · rw [((sortOn_perm Ref.name granted.2).map _).congr_left, hgrant.pushed honly]
    exact hidentities.symm
  · rw [hgrant.none honly]
    rfl
  · obtain ⟨b, hb, current, hcurrent, rfl⟩ := hgrant.current r (mem_sortOn.1 hr)
    obtain ⟨hmem, hname⟩ := refNamed_eq_some hcurrent
    refine ⟨b, mem_sortOn.2 hb, current, fun r' => ⟨?_, ?_⟩, rfl⟩
    · rintro ⟨hr', hbranch, hname'⟩
      exact List.inj_on_of_nodup_map hrefNames ((hrefMem r').2 (.inr ⟨hr', hbranch⟩)) hmem
        (hname'.trans hname.symm)
    · rintro rfl
      obtain ⟨hin, hbranch⟩ := ((hrefMem r').1 hmem).resolve_left List.not_mem_nil
      exact ⟨hin, hbranch, hname⟩
  · have hdeps : ∀ x ∈ s, edgesIn s x.event.id = x.deps := fun x hx => by
      rw [edgesIn, hsends.find_event hx]
      rfl
    refine ⟨edgesIn s, fun e he => ?_, fun e he => ?_⟩
    · obtain ⟨x, hx, rfl⟩ := (hevent e).1 he
      rw [hdeps x hx]
      exact hsends.sent.waits x hx
    · obtain ⟨x, hx, rfl⟩ := (hevent e).1 he
      obtain ⟨root, hroot, hpath⟩ := hsends.reached x hx
      obtain ⟨hrootPending, hallowed⟩ := List.mem_filter.1 (hordered.mem_iff.1 hroot)
      obtain ⟨hlocal, hnew⟩ := (hpending root).1 hrootPending
      refine ⟨root, hlocal, hnew, (hnames _).2 hallowed, ReflTransGen.mono ?_ _ _ hpath⟩
      rintro a b ⟨y, hy, rfl, hb⟩
      exact ⟨⟨y.event, (hevent _).2 ⟨y, hy, rfl⟩, rfl⟩, by rwa [hdeps y hy]⟩

/-- An observed position of `main`, at one snapshot and one revision. -/
def mainPosition : HistoryEvent where
  id := "11111111111111111111111111111111"
  repoID := digitHash '1'
  branchID := legacyContextBranchID zeroDigest (digitHash '1') "main"
  branch := "main"
  kind := .position
  source := digitHash '2'
  target := digitHash '2'
  gitAfter := "aaaaaaaaaaaaaaaaaaaaaaaaaaaaaaaaaaaaaaaa"
  createdAt := 7

/-- Its publication, with an earlier clock. -/
def mainPublication : HistoryEvent :=
  { mainPosition with id := "22222222222222222222222222222222", kind := .publish, createdAt := 5 }

/-- A push of `main`. -/
def mainInput : PublicationPlanInput where
  repoID := digitHash '1'
  contextProtocol := 1
  scope := { branches := [⟨"main", mainPosition.branchID⟩] }
  refs := [{ kind := .branch, name := "main", repoID := digitHash '1', target := digitHash '2' }]
  history := [mainPublication, mainPosition]
  accepted := []
  snapshots := []

/-- A position and its publication, in this order. -/
theorem mainInput_publishes :
    ∃ plan, planPublication zeroDigest mainInput = .ok plan ∧
      plan.historyToSend = [mainPosition, mainPublication] ∧
      ∃ c, indexPublicationHistory mainInput.repoID (sortOn byTime mainInput.history)
        mainInput.accepted = .ok c ∧ Publishes zeroDigest mainInput c plan := by
  have hhistory : (planPublication zeroDigest mainInput).toOption.map
      PublicationPlan.historyToSend = some [mainPosition, mainPublication] := by decide +kernel
  cases h : planPublication zeroDigest mainInput with
  | error e =>
      rw [h] at hhistory
      cases hhistory
  | ok plan =>
      rw [h] at hhistory
      exact ⟨plan, rfl, Option.some.inj hhistory,
        planPublication_publishes zeroDigest mainInput plan h⟩

end Cli
end CxtHub
