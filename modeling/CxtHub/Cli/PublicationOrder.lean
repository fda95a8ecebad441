/-
# The catalog and the order of a publication

What the loops around the visit give: the catalog has each event once
(`indexPublicationHistory_eq_ok`), the groups are the pending events of the selected
identities (`order_perm`), and the last sort is an order of its events in which those an
event waits for come before it and publications come last (`orderPublications_spec`).

The sort keeps `Ordering`: once a publication is out, only publications are left, because
the barrier lets the first one out only when that many events are out as there are ordinary
ones.
-/

import CxtHub.Cli.Publication

namespace CxtHub
namespace Cli

open Backend (ContentHash)

variable {repo : String} {out l : List HistoryEvent} {seen : List String} {e : HistoryEvent}

/-! ### The catalog -/

/-- A batch is indexed when its events are valid and agree with those before. -/
theorem indexBatch_eq_ok {all batch : List HistoryEvent}
    (hn : (all.map HistoryEvent.id).Nodup) (h : indexBatch repo all batch = .ok out) :
    (out.map HistoryEvent.id).Nodup ∧ (∀ e, e ∈ out ↔ e ∈ all ∨ e ∈ batch) ∧
      ∀ e ∈ batch, validateHistoryEvent e = .ok () := by
  induction batch generalizing all with
  | nil =>
      cases h
      exact ⟨hn, by simp, fun _ he => absurd he List.not_mem_nil⟩
  | cons e batch ih =>
      simp only [indexBatch, bind_eq_ok, refuse_eq_ok, exists_unit_iff] at h
      obtain ⟨-, hvalid, hsame, hrest⟩ := h
      obtain ⟨hout, hiff, hall⟩ := ih (nodup_addNew hn hsame) hrest
      refine ⟨hout, fun f => ?_, List.forall_mem_cons.2 ⟨hvalid, hall⟩⟩
      rw [hiff, mem_addNew, List.mem_cons, or_assoc]

/-- Unseen events have new ids. -/
theorem mem_unseenEvents
    (h : e ∈ unseenEvents seen l) : e ∈ l ∧ e.id ∉ seen := by
  induction l generalizing seen with
  | nil => cases h
  | cons f l ih =>
      rw [unseenEvents] at h
      split_ifs at h with hf
      · obtain ⟨hmem, hnew⟩ := ih h
        exact ⟨List.mem_cons_of_mem _ hmem, hnew⟩
      · rcases List.mem_cons.1 h with rfl | h
        · exact ⟨List.mem_cons_self, hf⟩
        · obtain ⟨hmem, hnew⟩ := ih h
          exact ⟨List.mem_cons_of_mem _ hmem, fun hs => hnew (List.mem_cons_of_mem _ hs)⟩

/-- No id comes twice among them. -/
theorem nodup_unseenEvents :
    ((unseenEvents seen l).map HistoryEvent.id).Nodup := by
  induction l generalizing seen with
  | nil => exact List.nodup_nil
  | cons f l ih =>
      rw [unseenEvents]
      split_ifs
      · exact ih
      · refine List.nodup_cons.2 ⟨fun hmem => ?_, ih⟩
        obtain ⟨e, he, hid⟩ := List.mem_map.1 hmem
        exact (mem_unseenEvents he).2 (hid ▸ List.mem_cons_self)

/-- No new id is missing among them. -/
theorem exists_unseenEvents
    (h : e ∈ l) (hnew : e.id ∉ seen) : ∃ f ∈ unseenEvents seen l, f.id = e.id := by
  induction l generalizing seen with
  | nil => cases h
  | cons f l ih =>
      rw [unseenEvents]
      rcases List.mem_cons.1 h with rfl | h
      · rw [if_neg hnew]
        exact ⟨e, List.mem_cons_self, rfl⟩
      · split_ifs with hf
        · exact ih h hnew
        · by_cases hid : f.id = e.id
          · exact ⟨f, List.mem_cons_self, hid⟩
          · obtain ⟨g, hg, hgid⟩ := ih h fun hs : e.id ∈ f.id :: seen =>
              (List.mem_cons.1 hs).elim (fun heq => hid heq.symm) hnew
            exact ⟨g, List.mem_cons_of_mem _ hg, hgid⟩

/-- What the catalog is. -/
structure Catalogued (events accepted : List HistoryEvent) (c : PublicationCatalog) : Prop where
  nodup : (c.all.map HistoryEvent.id).Nodup
  mem_all : ∀ e, e ∈ c.all ↔ e ∈ accepted ∨ e ∈ events
  named : ∀ e ∈ c.all, e.id ≠ ""
  accepted_eq : c.accepted = accepted.map HistoryEvent.id
  pending_nodup : (c.pending.map HistoryEvent.id).Nodup
  mem_pending : ∀ e, e ∈ c.pending ↔ e ∈ events ∧ e.id ∉ c.accepted

variable {events accepted : List HistoryEvent} {c : PublicationCatalog}

/-- The catalogue has local and accepted events, by id. -/
theorem indexPublicationHistory_eq_ok
    (h : indexPublicationHistory repo events accepted = .ok c) : Catalogued events accepted c := by
  simp only [indexPublicationHistory, bind_eq_ok, Except.ok.injEq] at h
  obtain ⟨first, hfirst, all, hall, rfl⟩ := h
  obtain ⟨hn, hmem, hvalid⟩ := indexBatch_eq_ok (by simp) hfirst
  obtain ⟨hn', hmem', hvalid'⟩ := indexBatch_eq_ok hn hall
  have hiff : ∀ e, e ∈ all ↔ e ∈ accepted ∨ e ∈ events := fun e => by
    rw [hmem', hmem]
    simp
  refine ⟨hn', hiff, fun e he => ?_, rfl, nodup_unseenEvents, fun e => ⟨fun he => ?_, ?_⟩⟩
  · rcases (hiff e).1 he with he | he
    · exact id_ne_empty_of_valid (hvalid e he)
    · exact id_ne_empty_of_valid (hvalid' e he)
  · exact mem_unseenEvents he
  · rintro ⟨he, hnew⟩
    obtain ⟨f, hf, hid⟩ := exists_unseenEvents he hnew
    have hfe : f = e := List.inj_on_of_nodup_map hn' ((hiff f).2 (.inr (mem_unseenEvents hf).1))
      ((hiff e).2 (.inr he)) hid
    exact hfe ▸ hf

/-- Each event is found by its id. -/
theorem Catalogued.byID (h : Catalogued events accepted c) {id : String} :
    c.byID id = some e ↔ e ∈ c.all ∧ e.id = id := by
  constructor
  · intro he
    exact ⟨List.mem_of_find?_eq_some he, by simpa using List.find?_some he⟩
  · rintro ⟨he, rfl⟩
    cases hfind : c.byID e.id with
    | none => exact absurd (List.find?_eq_none.1 hfind e he) (by simp)
    | some f =>
        have hid : f.id = e.id := by simpa using List.find?_some hfind
        rw [List.inj_on_of_nodup_map h.nodup (List.mem_of_find?_eq_some hfind) he hid]

/-! ### The groups -/

/-- An event is put in one group. -/
theorem addToGroup_perm (key : String × String × String) (e : HistoryEvent)
    (groups : List ((String × String × String) × List HistoryEvent)) :
    ((addToGroup key e groups).flatMap Prod.snd).Perm (groups.flatMap Prod.snd ++ [e]) := by
  induction groups with
  | nil => exact List.Perm.refl _
  | cons g rest ih =>
      rw [addToGroup]
      split_ifs
      · rw [List.flatMap_cons, List.flatMap_cons, List.append_assoc, List.append_assoc]
        exact List.perm_append_comm.append_left g.2
      · rw [List.flatMap_cons, List.flatMap_cons, List.append_assoc]
        exact ih.append_left g.2

/-- **Each selected event is in one group.** -/
theorem groupEvents_perm {selected : String → Bool} {g : Grouping}
    {pending : List HistoryEvent} (h : pending.foldlM (groupEvent repo selected) {} = .ok g) :
    (g.ordinary ++ g.groups.flatMap Prod.snd).Perm
      (pending.filter fun e => selected e.branchID) := by
  refine foldlM_invariant_split (P := fun done g => (g.ordinary ++ g.groups.flatMap Prod.snd).Perm
    (done.filter fun e => selected e.branchID)) ?_ (List.Perm.refl _) h
  intro done e _ g g' _ hperm hstep
  have hnone : selected e.branchID = false →
      (g.ordinary ++ g.groups.flatMap Prod.snd).Perm
        ((done ++ [e]).filter fun e => selected e.branchID) := fun hsel => by
    rwa [List.filter_append, List.filter_singleton, hsel, cond_false, List.append_nil]
  have hsome : selected e.branchID = true →
      (g.ordinary ++ g.groups.flatMap Prod.snd ++ [e]).Perm
        ((done ++ [e]).filter fun e => selected e.branchID) := fun hsel => by
    rw [List.filter_append, List.filter_singleton, hsel]
    exact hperm.append_right [e]
  rw [groupEvent] at hstep
  cases hsel : selected e.branchID
  · -- an event of another identity changes no list
    simp only [hsel, Bool.false_eq_true, if_false] at hstep
    split_ifs at hstep
    · cases hstep
      exact hnone hsel
    · simp only [bind_eq_ok, Except.ok.injEq] at hstep
      obtain ⟨_, -, _, -, _, -, rfl⟩ := hstep
      exact hnone hsel
  · simp only [hsel, if_true] at hstep
    refine List.Perm.trans ?_ (hsome hsel)
    split_ifs at hstep
    · cases hstep
      rw [List.append_assoc, List.append_assoc]
      exact List.perm_append_comm.append_left g.ordinary
    · simp only [bind_eq_ok, Except.ok.injEq] at hstep
      obtain ⟨_, -, _, -, _, -, rfl⟩ := hstep
      rw [List.append_assoc]
      exact (addToGroup_perm _ e g.groups).append_left g.ordinary

/-- Ordering a group keeps its events. -/
theorem orderGroup_perm {observations : List HistoryEvent}
    {ancestry : List (ContentHash × List ContentHash)}
    {g : (String × String × String) × List HistoryEvent}
    (h : orderGroup observations ancestry g = .ok out) : out.Perm g.2 := by
  obtain ⟨key, group⟩ := g
  simp only [orderGroup, bind_eq_ok] at h
  obtain ⟨ranks, -, h⟩ := h
  split at h
  · cases h
  · simp only [bind_eq_ok, Except.ok.injEq] at h
    obtain ⟨_, -, rfl⟩ := h
    exact sortOn_perm _ _

/-- The groups in order are the pending events of the selected identities. -/
theorem order_perm {selected : String → Bool}
    {ancestry : List (ContentHash × List ContentHash)} {ordered : List HistoryEvent}
    (h : c.order repo selected ancestry = .ok ordered) :
    ordered.Perm (c.pending.filter fun e => selected e.branchID) := by
  simp only [PublicationCatalog.order, bind_eq_ok, Except.ok.injEq] at h
  obtain ⟨g, hg, groups, hgroups, rfl⟩ := h
  refine List.Perm.trans (List.Perm.append_left g.ordinary ?_) (groupEvents_perm hg)
  -- the groups one by one
  clear hg
  generalize g.groups = gs at hgroups
  induction gs generalizing groups with
  | nil =>
      cases hgroups
      exact List.Perm.refl _
  | cons g gs ih =>
      rw [List.mapM_cons] at hgroups
      simp only [bind_eq_ok, pure_eq_ok] at hgroups
      obtain ⟨out, hout, outs, houts, rfl⟩ := hgroups
      exact (orderGroup_perm hout).append (ih outs houts)

/-! ### The last sort -/

/-- Those an event waits for come before it. -/
def InOrder (edges : String → List String) (ids : List String) (l : List HistoryEvent) : Prop :=
  ∀ pre e post, l = pre ++ e :: post → ∀ p ∈ edges e.id, p ∉ ids ∨ p ∈ pre.map HistoryEvent.id

/-- What holds between the events that are out and the others. -/
structure Ordering (edges : String → List String) (events done : List HistoryEvent)
    (rest : List (HistoryEvent × ℕ)) : Prop where
  perm : (done ++ rest.map Prod.fst).Perm events
  indices : (rest.map Prod.snd).Nodup
  inOrder : InOrder edges (events.map HistoryEvent.id) done
  late : ∀ q ∈ rest, events.countP (fun e => e.kind ≠ .publish) ≤ q.2 ↔ q.1.kind = .publish
  barrier : (∃ a ∈ done, a.kind = .publish) → ∀ q ∈ rest, q.1.kind = .publish
  publicationsLast : done.Pairwise fun a b => a.kind = .publish → b.kind = .publish

/-- A ready event can be sent next. -/
theorem InOrder.concat {edges : String → List String} {ids : List String}
    (h : InOrder edges ids l)
    (he : readyToSend edges ids (l.map HistoryEvent.id) e = true) :
    InOrder edges ids (l ++ [e]) := by
  intro pre f post hsplit p hp
  rcases List.eq_nil_or_concat post with rfl | ⟨post, x, rfl⟩
  · obtain ⟨rfl, rfl⟩ := List.append_inj' hsplit rfl |>.imp_right List.singleton_inj.1
    exact by simpa using List.all_eq_true.1 he p hp
  · rw [List.concat_eq_append, ← List.cons_append, ← List.append_assoc] at hsplit
    exact h pre f post (List.append_inj' hsplit rfl).1 p hp

variable {edges : String → List String} {done : List HistoryEvent}
  {rest : List (HistoryEvent × ℕ)} {p : HistoryEvent × ℕ}

/-- An event is taken out of the list by its index. -/
theorem perm_of_index (hn : (rest.map Prod.snd).Nodup) (hp : p ∈ rest) :
    rest.Perm (p :: rest.filter fun q => q.2 ≠ p.2) := by
  have hone : rest.filter (fun q => q.2 = p.2) = [p] := by
    have hnodup : (rest.filter fun q => q.2 = p.2).Nodup := (hn.of_map).filter _
    refine List.perm_singleton.1 ((List.perm_ext_iff_of_nodup hnodup (List.nodup_singleton p)).2
      fun q => ?_)
    simp only [List.mem_filter, decide_eq_true_eq, List.mem_singleton]
    refine ⟨fun ⟨hq, hidx⟩ => List.inj_on_of_nodup_map hn hq hp hidx, ?_⟩
    rintro rfl
    exact ⟨hp, rfl⟩
  have hsplit := (List.filter_append_perm (fun q => decide (q.2 = p.2)) rest).symm
  rw [hone] at hsplit
  simpa using hsplit

/-- **A turn of the sort.** -/
theorem Ordering.take {events : List HistoryEvent} (h : Ordering edges events done rest)
    (hp : p ∈ rest)
    (hready : readyToSend edges (events.map HistoryEvent.id) (done.map HistoryEvent.id) p.1 = true)
    (hbarrier : ¬ (events.countP (fun e => e.kind ≠ .publish) ≤ p.2 ∧
      done.length < events.countP (fun e => e.kind ≠ .publish))) :
    Ordering edges events (done ++ [p.1]) (rest.filter fun q => q.2 ≠ p.2) := by
  have hperm := perm_of_index h.indices hp
  have hcount : done.countP (fun e => e.kind ≠ .publish) +
      (rest.map Prod.fst).countP (fun e => e.kind ≠ .publish) =
        events.countP (fun e => e.kind ≠ .publish) := by
    rw [← List.countP_append]
    exact h.perm.countP_eq _
  -- a publication is taken when all ordinary events are out
  have hlast : p.1.kind = .publish → ∀ q ∈ rest, q.1.kind = .publish := fun hpub => by
    by_cases hdone : ∃ a ∈ done, a.kind = .publish
    · exact h.barrier hdone
    · have hall : done.countP (fun e => e.kind ≠ .publish) = done.length :=
        List.countP_eq_length.2 fun a ha => decide_eq_true fun hk => hdone ⟨a, ha, hk⟩
      have hle := not_lt.1 fun hlt => hbarrier ⟨(h.late p hp).2 hpub, hlt⟩
      have hzero : (rest.map Prod.fst).countP (fun e => e.kind ≠ .publish) = 0 := by omega
      intro q hq
      simpa using List.countP_eq_zero.1 hzero q.1 (List.mem_map_of_mem hq)
  have hsub : ∀ q ∈ rest.filter (fun q => q.2 ≠ p.2), q ∈ rest := fun q hq =>
    (List.mem_filter.1 hq).1
  refine ⟨?_, ?_, h.inOrder.concat hready, fun q hq => h.late q (hsub q hq), ?_, ?_⟩
  · refine List.Perm.trans ?_ h.perm
    rw [List.append_assoc]
    exact (hperm.map Prod.fst).symm.append_left done
  · exact h.indices.sublist (List.filter_sublist.map _)
  · rintro ⟨a, ha, hpub⟩ q hq
    rcases List.mem_append.1 ha with ha | ha
    · exact h.barrier ⟨a, ha, hpub⟩ q (hsub q hq)
    · obtain rfl := List.mem_singleton.1 ha
      exact hlast hpub q (hsub q hq)
  · refine List.pairwise_append.2 ⟨h.publicationsLast, List.pairwise_singleton _ _,
      fun a ha b hb hpub => ?_⟩
    obtain rfl := List.mem_singleton.1 hb
    exact h.barrier ⟨a, ha, hpub⟩ p hp

/-- **The loop sends all events in order.** -/
theorem Ordering.run {events : List HistoryEvent} {fuel : ℕ}
    (h : Ordering edges events done rest)
    (hrun : orderPublicationsFrom edges (events.map HistoryEvent.id)
      (events.countP fun e => e.kind ≠ .publish) fuel done rest = .ok out) :
    Ordering edges events out [] := by
  induction fuel generalizing done rest with
  | zero =>
      rw [orderPublicationsFrom] at hrun
      split_ifs at hrun with hrest
      cases hrun
      rwa [hrest] at h
  | succ fuel ih =>
      rw [orderPublicationsFrom] at hrun
      split at hrun
      · split_ifs at hrun with hrest
        cases hrun
        rwa [hrest] at h
      · rename_i p hfind
        split_ifs at hrun with hbarrier
        exact ih (h.take (List.mem_of_find?_eq_some hfind) (by simpa using List.find?_some hfind)
          hbarrier) hrun

/-- **The last sort.**  The events that are sent, publications last, each after those it
waits for. -/
theorem orderPublications_spec {ordinary publications : List HistoryEvent}
    (hordinary : ∀ e ∈ ordinary, e.kind ≠ .publish)
    (hpublications : ∀ e ∈ publications, e.kind = .publish)
    (h : orderPublicationDependencies (ordinary ++ publications) edges ordinary.length = .ok out) :
    out.Perm (ordinary ++ publications) ∧
      InOrder edges ((ordinary ++ publications).map HistoryEvent.id) out ∧
      out.Pairwise fun a b => a.kind = .publish → b.kind = .publish := by
  have hcount : (ordinary ++ publications).countP (fun e => e.kind ≠ .publish) =
      ordinary.length := by
    have hall : ordinary.countP (fun e => e.kind ≠ .publish) = ordinary.length :=
      List.countP_eq_length.2 fun e he => decide_eq_true (hordinary e he)
    have hnone : publications.countP (fun e => e.kind ≠ .publish) = 0 :=
      List.countP_eq_zero.2 fun e he => by simpa using hpublications e he
    rw [List.countP_append, hall, hnone, Nat.add_zero]
  have hstart : Ordering edges (ordinary ++ publications) [] (ordinary ++ publications).zipIdx := by
    refine ⟨by simp, ?_, fun pre e post hsplit => ?_, fun q hq => ?_, ?_, List.Pairwise.nil⟩
    · rw [List.zipIdx_map_snd]
      exact List.nodup_range'
    · simp at hsplit
    · rw [hcount]
      obtain ⟨hlt, hget⟩ := List.getElem?_eq_some_iff.1 (List.mem_zipIdx_iff_getElem?.1 hq)
      rw [List.getElem_append] at hget
      split_ifs at hget with hidx
      · rw [← hget]
        exact ⟨fun hle => absurd hidx (not_lt.2 hle), fun hk =>
          absurd hk (hordinary _ (List.getElem_mem _))⟩
      · rw [← hget]
        exact ⟨fun _ => hpublications _ (List.getElem_mem _), fun _ => not_lt.1 hidx⟩
    · rintro ⟨a, ha, -⟩
      cases ha
  rw [orderPublicationDependencies, ← hcount] at h
  have hend := hstart.run h
  exact ⟨by simpa using hend.perm, hend.inOrder, hend.publicationsLast⟩

/-- The chain of publications only adds edges. -/
theorem subset_chainEdges (edges : String → List String) (publications : List HistoryEvent)
    (id : String) : edges id ⊆ chainEdges edges publications id := by
  fun_induction chainEdges edges publications with
  | case1 edges p q rest ih =>
      refine List.Subset.trans ?_ ih
      by_cases hid : id = q.id
      · rw [hid, Function.update_self]
        exact List.subset_append_left _ _
      · rw [Function.update_of_ne hid]
        exact List.Subset.refl _
  | case2 => exact List.Subset.refl _

end Cli
end CxtHub
