/-
# What a visit sends

`visitEvent_visited`: a visit that succeeds has sent the event and all that it waits for, and
everything it added is reached from the event by the recorded edges.  `Sent` is what holds
of the events sent so far: each is authorised and waits for its dependencies, one witness
of its origin and the proofs of its publication, and all of these are accepted or sent.

A visit, successful or not, only appends events that are not being visited (`Appends`), so
that taking back a rejected witness gives the list before it.
-/

import CxtHub.Cli.Publication

namespace CxtHub
namespace Cli

open Relation

variable {deps ids : List String} {send : HistoryEvent → Attempt (List Sending) DomainError Unit}
  {p : String}

/-! ### All runs -/

/-- What a visit does to the list, whether it succeeds or fails. -/
structure Appends (visiting : List String) (s s' : List Sending) : Prop where
  append : ∃ new, s' = s ++ new ∧ (sentIDs new).Nodup ∧
    ∀ x ∈ new, x.event.id ∉ sentIDs s ∧ x.event.id ∉ visiting

variable {c : PublicationCatalog} {d : Digest} {allowed : String → Bool} {visiting : List String}
  {s m s' : List Sending} {id : String} {e : HistoryEvent}

theorem sentIDs_append : sentIDs (s ++ s') = sentIDs s ++ sentIDs s' := List.map_append

/-- Sending nothing appends nothing. -/
theorem Appends.refl (s : List Sending) : Appends visiting s s :=
  ⟨⟨[], (List.append_nil s).symm, List.nodup_nil, fun _ hx => absurd hx List.not_mem_nil⟩⟩

/-- Two appends in a row. -/
theorem Appends.trans (h : Appends visiting s m) (h' : Appends visiting m s') :
    Appends visiting s s' := by
  obtain ⟨new, rfl, hn, hnew⟩ := h.append
  obtain ⟨new', rfl, hn', hnew'⟩ := h'.append
  have hfresh : ∀ x ∈ new', x.event.id ∉ sentIDs s ∧ x.event.id ∉ sentIDs new := fun x hx => by
    have hx' := (hnew' x hx).1
    rw [sentIDs_append, List.mem_append, not_or] at hx'
    exact hx'
  refine ⟨new ++ new', List.append_assoc .., ?_, fun x hx => ?_⟩
  · rw [sentIDs_append, List.nodup_append]
    refine ⟨hn, hn', fun a ha b hb hab => ?_⟩
    obtain ⟨x, hx, rfl⟩ := List.mem_map.1 hb
    exact (hfresh x hx).2 (hab ▸ ha)
  · rcases List.mem_append.1 hx with hx | hx
    · exact hnew x hx
    · exact ⟨(hfresh x hx).1, (hnew' x hx).2⟩

instance : Std.Refl (Appends visiting) := ⟨Appends.refl⟩

instance : IsTrans (List Sending) (Appends visiting) := ⟨fun _ _ _ => Appends.trans⟩

/-- An append away from more ids is one away from fewer. -/
theorem Appends.weaken (h : Appends (id :: visiting) s s') : Appends visiting s s' := by
  obtain ⟨new, heq, hn, hnew⟩ := h.append
  exact ⟨new, heq, hn, fun x hx => ⟨(hnew x hx).1, fun hmem =>
    (hnew x hx).2 (List.mem_cons_of_mem _ hmem)⟩⟩

/-- An event that is being visited is not added. -/
theorem Appends.not_mem (h : Appends (id :: visiting) s s') (hs : id ∉ sentIDs s) :
    id ∉ sentIDs s' := by
  obtain ⟨new, rfl, -, hnew⟩ := h.append
  rw [sentIDs_append, List.mem_append, not_or]
  refine ⟨hs, fun hmem => ?_⟩
  obtain ⟨x, hx, rfl⟩ := List.mem_map.1 hmem
  exact (hnew x hx).2 List.mem_cons_self

/-- **Taking back.**  A rejected witness leaves the list as it was. -/
theorem takeBack_eq (h : Appends visiting s s') : takeBack s s' = s := by
  obtain ⟨new, rfl, -, hnew⟩ := h.append
  have hkept : s.filter (fun x => x.event.id ∈ sentIDs s) = s :=
    List.filter_eq_self.2 fun x hx => decide_eq_true (List.mem_map_of_mem hx)
  have hgone : new.filter (fun x => x.event.id ∈ sentIDs s) = [] :=
    List.filter_eq_nil_iff.2 fun x hx => by simpa using (hnew x hx).1
  rw [takeBack, List.filter_append, hkept, hgone, List.append_nil]

theorem filter_of_notMem (h : id ∉ sentIDs s) : s.filter (fun x => x.event.id ≠ id) = s :=
  List.filter_eq_self.2 fun _ hx => decide_eq_true fun heq => h (heq ▸ List.mem_map_of_mem hx)

/-- Sending an event that was not sent appends it. -/
theorem appends_put (hs : e.id ∉ sentIDs s) (hv : e.id ∉ visiting) :
    Appends visiting s (putSending e deps s).2 := by
  refine ⟨[⟨e, deps⟩], ?_, List.nodup_singleton _, fun x hx => ?_⟩
  · rw [putSending, filter_of_notMem hs]
  · rw [List.mem_singleton.1 hx]
    exact ⟨hs, hv⟩

theorem id_of_byID (h : c.byID id = some e) : e.id = id := by
  simpa using List.find?_some h

section Keeps

variable {visit : String → Attempt (List Sending) DomainError Unit}

open Attempt (Keeps keeps_ok keeps_fail keeps_bind keeps_collect keeps_firstOf keeps_mapError)

/-- Asking for a dependency appends only. -/
theorem keeps_need (hvisit : ∀ p, Keeps (Appends visiting) (visit p)) (p : String) :
    Keeps (Appends visiting) (need visit id p) := by
  rw [need]
  split_ifs
  · exact keeps_ok
  · exact keeps_bind (keeps_mapError (hvisit p)) fun _ => keeps_ok

/-- So does asking for those of an event. -/
theorem keeps_eventDeps (hvisit : ∀ p, Keeps (Appends visiting) (visit p)) :
    Keeps (Appends visiting) (eventDeps c d visit e) := by
  have hneed : ∀ p, Keeps (Appends visiting) (need visit e.id p) := keeps_need hvisit
  have hwitness : Keeps (Appends visiting) (needWitness c d visit e) := by
    rw [needWitness]
    split
    · exact keeps_ok
    · exact keeps_firstOf (fun _ _ => takeBack_eq) fun w _ => hneed w.id
  have hproof : ∀ proof, Keeps (Appends visiting) (needProof c visit e proof) := fun proof =>
    keeps_bind (hneed proof.id) fun _ => keeps_bind
      (keeps_collect fun a _ => hneed a.id) fun _ =>
        keeps_ok
  have hproofs : Keeps (Appends visiting) (needProofs c visit e) := by
    have hcollect : Keeps (Appends visiting) (Attempt.collect (needProof c visit e)
        (c.all.filter (publicationProof e))) := keeps_collect fun proof _ => hproof proof
    rw [needProofs]
    split_ifs
    · exact keeps_ok
    · exact keeps_bind hcollect fun _ => keeps_ok
    · exact keeps_bind hcollect fun _ => keeps_fail
  refine keeps_bind
    (keeps_collect fun p _ => hneed p) fun _ => ?_
  split_ifs
  · exact keeps_fail
  · exact keeps_bind hwitness fun _ => keeps_bind hproofs fun _ =>
      keeps_ok

/-- The checks keep what the body keeps. -/
theorem keeps_enter {R : List Sending → List Sending → Prop} (hrefl : ∀ s, R s s)
    (hsend : ∀ e s, c.byID id = some e → id ∉ sentIDs s → id ∉ visiting → R s (send e s).2) :
    Keeps R (enter c allowed visiting id send) := by
  intro s
  rw [enter]
  by_cases hdone : id ∈ c.accepted ∨ id ∈ sentIDs s
  · rw [if_pos hdone]
    exact hrefl s
  · rw [if_neg hdone]
    split
    · exact hrefl s
    · rename_i e he
      split_ifs with hvisiting hauth
      · exact hrefl s
      · exact hrefl s
      · exact hsend e s he (fun hmem => hdone (.inr hmem)) hvisiting

/-- **All visits.**  A visit only appends events that are not being visited. -/
theorem keeps_visitEvent (fuel : ℕ) (visiting : List String) (id : String) :
    Keeps (Appends visiting) (visitEvent c d allowed fuel visiting id) := by
  induction fuel generalizing visiting id with
  | zero => exact keeps_enter Appends.refl fun e s _ _ _ => Appends.refl s
  | succ fuel ih =>
      refine keeps_enter Appends.refl fun e s he hs hv => ?_
      have hdeps := keeps_eventDeps (c := c) (d := d) (e := e) (ih (id :: visiting)) s
      obtain rfl := id_of_byID he
      change Appends visiting s (Attempt.andThen _ (putSending e) s).2
      rw [Attempt.andThen]
      split
      · rename_i deps m heq
        rw [heq] at hdeps
        exact hdeps.weaken.trans (appends_put (hdeps.not_mem hs) hv)
      · rename_i err m heq
        rw [heq] at hdeps
        exact hdeps.weaken

end Keeps

/-! ### Successful runs -/

/-- The proofs of a publication, each with the attachments of its alias. -/
def proofIDs (c : PublicationCatalog) (e : HistoryEvent) : List String :=
  if e.kind ≠ .publish then []
  else (c.all.filter (publicationProof e)).flatMap fun proof => proof.id ::
    (if aliased e then c.all.filter (publicationAliasAttachment e proof) else []).map
      HistoryEvent.id

/-- What an event waits for: its dependencies, a witness of its origin, its proofs. -/
structure Waits (c : PublicationCatalog) (d : Digest) (e : HistoryEvent)
    (witness : Option HistoryEvent) (deps : List String) : Prop where
  deps_eq : deps = historyDependencies e ++ (witness.map HistoryEvent.id).toList ++ proofIDs c e
  chosen : ∀ w ∈ witness, ∃ origin, foreignOrigin d e = some origin ∧ w ∈ c.all ∧
    witnesses c e.id origin w = true
  witnessed : (foreignOrigin d e).isSome → witness.isSome
  proven : e.kind = .publish → ∃ proof ∈ c.all, publicationProof e proof = true

/-- An event waits for its dependencies. -/
theorem Waits.dependency {witness : Option HistoryEvent}
    (h : Waits c d e witness deps) (hp : p ∈ historyDependencies e) : p ∈ deps := by
  rw [h.deps_eq]
  simp [hp]

/-- A publication waits for a proof of what it publishes. -/
theorem Waits.proof {witness : Option HistoryEvent}
    (h : Waits c d e witness deps) (hk : e.kind = .publish) :
    ∃ proof ∈ c.all, publicationProof e proof = true ∧ proof.id ∈ deps := by
  obtain ⟨proof, hproof, hexact⟩ := h.proven hk
  refine ⟨proof, hproof, hexact, ?_⟩
  rw [h.deps_eq, proofIDs, if_neg (not_not.2 hk)]
  refine List.mem_append_right _ (List.mem_flatMap.2 ⟨proof, ?_, List.mem_cons_self⟩)
  exact List.mem_filter.2 ⟨hproof, hexact⟩

/-- What holds of the events sent. -/
structure Sent (c : PublicationCatalog) (d : Digest) (allowed : String → Bool)
    (s : List Sending) : Prop where
  nodup : (sentIDs s).Nodup
  known : ∀ x ∈ s, c.byID x.event.id = some x.event
  fresh : ∀ x ∈ s, x.event.id ∉ c.accepted
  authorised : ∀ x ∈ s, authorised allowed x.event = true
  waits : ∀ x ∈ s, ∃ witness, Waits c d x.event witness x.deps
  closed : ∀ x ∈ s, ∀ p ∈ x.deps, p ∈ c.accepted ∨ p ∈ sentIDs s

/-- An edge that the plan records. -/
def Edge (s : List Sending) (a b : String) : Prop := ∃ x ∈ s, x.event.id = a ∧ b ∈ x.deps

/-- What a successful run adds for some ids. -/
structure Visited (c : PublicationCatalog) (d : Digest) (allowed : String → Bool)
    (s s' : List Sending) (ids : List String) : Prop where
  grows : ∃ new, s' = s ++ new
  sent : Sent c d allowed s → Sent c d allowed s'
  done : ∀ p ∈ ids, p ∈ c.accepted ∨ p ∈ sentIDs s'
  reached : ∀ x ∈ s', x ∈ s ∨ ∃ p ∈ ids, ReflTransGen (Edge s') p x.event.id

/-- More sendings keep the edges. -/
theorem edge_mono (h : ∃ new, s' = s ++ new) {a b : String} (hab : Edge s a b) : Edge s' a b := by
  obtain ⟨new, rfl⟩ := h
  obtain ⟨x, hx, hrest⟩ := hab
  exact ⟨x, List.mem_append_left _ hx, hrest⟩

theorem sentIDs_mono (h : ∃ new, s' = s ++ new) (hp : p ∈ sentIDs s) :
    p ∈ sentIDs s' := by
  obtain ⟨new, rfl⟩ := h
  rw [sentIDs_append]
  exact List.mem_append_left _ hp

namespace Visited

theorem nil (s : List Sending) : Visited c d allowed s s [] :=
  ⟨⟨[], (List.append_nil s).symm⟩, fun h => h, fun _ hp => absurd hp List.not_mem_nil,
    fun _ hx => .inl hx⟩

/-- What was visited in two rounds. -/
theorem append {ids' : List String} (h : Visited c d allowed s m ids)
    (h' : Visited c d allowed m s' ids') : Visited c d allowed s s' (ids ++ ids') := by
  refine ⟨?_, fun hs => h'.sent (h.sent hs), fun p hp => ?_, fun x hx => ?_⟩
  · obtain ⟨new, rfl⟩ := h.grows
    obtain ⟨new', rfl⟩ := h'.grows
    exact ⟨new ++ new', List.append_assoc ..⟩
  · rcases List.mem_append.1 hp with hp | hp
    · exact (h.done p hp).imp_right (sentIDs_mono h'.grows)
    · exact h'.done p hp
  · rcases h'.reached x hx with hx | ⟨p, hp, hpath⟩
    · refine (h.reached x hx).imp_right ?_
      rintro ⟨p, hp, hpath⟩
      exact ⟨p, List.mem_append_left _ hp,
        ReflTransGen.mono (fun _ _ => edge_mono h'.grows) _ _ hpath⟩
    · exact .inr ⟨p, List.mem_append_right _ hp, hpath⟩

end Visited

/-- An empty parent is no dependency. -/
theorem dependency_ne_empty (h : p ∈ historyDependencies e) : p ≠ "" := by
  rw [historyDependencies, mem_freshFrom] at h
  simpa using h.2

section Success

variable {visit : String → Attempt (List Sending) DomainError Unit}

open Attempt (bind_run_ok mapError_run_ok ok_run Keeps)

/-- A dependency that was asked for was visited. -/
theorem need_ok (hp : p ≠ "") :
    need visit id p s = (.ok ids, s') ↔ ids = [p] ∧ visit p s = (.ok (), s') := by
  rw [need, if_neg hp]
  simp only [bind_run_ok, mapError_run_ok, ok_run, exists_unit_iff, Prod.mk.injEq, Except.ok.injEq]
  constructor
  · rintro ⟨m, hm, rfl, rfl⟩
    exact ⟨rfl, hm⟩
  · rintro ⟨rfl, hm⟩
    exact ⟨s', hm, rfl, rfl⟩

/-- A list of dependencies is visited one after another. -/
theorem collect_need {l : List String} (hne : ∀ p ∈ l, p ≠ "")
    (hvisit : ∀ p s s', visit p s = (.ok (), s') → Visited c d allowed s s' [p])
    (h : Attempt.collect (need visit id) l s = (.ok ids, s')) :
    ids = l ∧ Visited c d allowed s s' ids := by
  refine ⟨?_, Attempt.collect_ok Visited.nil Visited.append (fun p hp s s' x hx => ?_) h⟩
  · rw [Attempt.collect_value (g := fun p => [p]) (fun p hp s s' x hx =>
      ((need_ok (hne p hp)).1 hx).1) h]
    exact List.flatMap_singleton' l
  · obtain ⟨rfl, hrun⟩ := (need_ok (hne p hp)).1 hx
    exact hvisit p s s' hrun

variable (hids : ∀ e ∈ c.all, e.id ≠ "")
  (hvisit : ∀ p s s', visit p s = (.ok (), s') → Visited c d allowed s s' [p])

include hids hvisit

/-- An event from another branch waits for a witness there. -/
theorem needWitness_ok (hkeeps : ∀ p, Keeps (Appends visiting) (visit p))
    (h : needWitness c d visit e s = (.ok ids, s')) :
    ∃ witness : Option HistoryEvent, ids = (witness.map HistoryEvent.id).toList ∧
      (∀ w ∈ witness, ∃ origin, foreignOrigin d e = some origin ∧ w ∈ c.all ∧
        witnesses c e.id origin w = true) ∧
      ((foreignOrigin d e).isSome → witness.isSome) ∧ Visited c d allowed s s' ids := by
  cases horigin : foreignOrigin d e with
  | none =>
    simp only [needWitness, horigin, ok_run, Prod.mk.injEq, Except.ok.injEq] at h
    obtain ⟨rfl, rfl⟩ := h
    exact ⟨none, rfl, fun w hw => absurd hw (Option.not_mem_none w), fun h => h, Visited.nil s⟩
  | some origin =>
    simp only [needWitness, horigin] at h
    obtain ⟨w, hw, hrun⟩ := Attempt.firstOf_ok (fun _ _ => takeBack_eq)
      (fun w _ => keeps_need hkeeps w.id) h
    obtain ⟨hmem, hwitness⟩ := List.mem_filter.1 (mem_sortOn.1 hw)
    obtain ⟨rfl, hvisited⟩ := (need_ok (hids w hmem)).1 hrun
    refine ⟨some w, rfl, fun w' hw' => ?_, fun _ => rfl, hvisit w.id s s' hvisited⟩
    obtain rfl := Option.mem_some_iff.1 hw'
    exact ⟨origin, rfl, hmem, hwitness⟩

/-- A publication waits for its proof and the attachments of its alias. -/
theorem needProof_ok {proof : HistoryEvent} (hproof : proof ∈ c.all)
    (h : needProof c visit e proof s = (.ok ids, s')) :
    ids = proof.id :: (if aliased e then c.all.filter (publicationAliasAttachment e proof)
        else []).map HistoryEvent.id ∧
      Visited c d allowed s s' ids := by
  simp only [needProof, bind_run_ok, ok_run, need_ok (hids proof hproof), Prod.mk.injEq,
    Except.ok.injEq] at h
  obtain ⟨own, m, ⟨rfl, hown⟩, attached, m', hattached, rfl, rfl⟩ := h
  have hmem : ∀ a ∈ (if aliased e then c.all.filter (publicationAliasAttachment e proof) else []),
      a.id ≠ "" := fun a ha => by
    split_ifs at ha
    · exact hids a (List.mem_filter.1 ha).1
    · cases ha
  have hvalue := Attempt.collect_value (g := fun a => [a.id]) (fun a ha s s' x hx =>
    ((need_ok (hmem a ha)).1 hx).1) hattached
  have hvisited : Visited c d allowed m m' attached :=
    Attempt.collect_ok Visited.nil Visited.append (fun a ha s s' x hx => by
      obtain ⟨rfl, hrun⟩ := (need_ok (hmem a ha)).1 hx
      exact hvisit a.id s s' hrun) hattached
  refine ⟨?_, (hvisit proof.id s m hown).append hvisited⟩
  rw [hvalue, ← List.map_eq_flatMap]
  rfl

/-- And it has a proof. -/
theorem needProofs_ok (h : needProofs c visit e s = (.ok ids, s')) :
    ids = proofIDs c e ∧
      (e.kind = .publish → ∃ proof ∈ c.all, publicationProof e proof = true) ∧
      Visited c d allowed s s' ids := by
  rw [needProofs] at h
  rw [proofIDs]
  by_cases hkind : e.kind = .publish
  · simp only [hkind, ne_eq, not_true_eq_false, if_false, bind_run_ok] at h ⊢
    obtain ⟨out, m, hcollect, hend⟩ := h
    split_ifs at hend with hany
    · obtain ⟨rfl, rfl⟩ : out = ids ∧ m = s' := by simpa using hend
      refine ⟨?_, fun _ => by simpa using hany, ?_⟩
      · exact Attempt.collect_value (fun proof hproof s s' x hx =>
          (needProof_ok hids hvisit (List.mem_filter.1 hproof).1 hx).1) hcollect
      · exact Attempt.collect_ok Visited.nil Visited.append (fun proof hproof s s' x hx =>
          (needProof_ok hids hvisit (List.mem_filter.1 hproof).1 hx).2) hcollect
    · cases hend
  · simp only [hkind, ne_eq, not_false_eq_true, if_true, ok_run, Prod.mk.injEq,
      Except.ok.injEq] at h ⊢
    obtain ⟨rfl, rfl⟩ := h
    exact ⟨rfl, fun hpublish => hpublish.elim, Visited.nil s⟩

/-- **What an event waits for was visited before it.** -/
theorem eventDeps_ok (hkeeps : ∀ p, Keeps (Appends visiting) (visit p))
    (h : eventDeps c d visit e s = (.ok deps, s')) :
    (∃ witness, Waits c d e witness deps) ∧ Visited c d allowed s s' deps := by
  simp only [eventDeps, bind_run_ok] at h
  obtain ⟨parents, m, hparents, h⟩ := h
  split_ifs at h with hown
  · cases h
  · simp only [bind_run_ok, ok_run, Prod.mk.injEq, Except.ok.injEq] at h
    obtain ⟨wids, m₁, hwitness, pids, m₂, hproofs, rfl, rfl⟩ := h
    obtain ⟨rfl, hparents⟩ := collect_need (fun p hp => dependency_ne_empty hp) hvisit
      hparents
    obtain ⟨witness, rfl, hchosen, hwitnessed, hwitness⟩ :=
      needWitness_ok hids hvisit hkeeps hwitness
    obtain ⟨rfl, hproven, hproofs⟩ := needProofs_ok hids hvisit hproofs
    exact ⟨⟨witness, rfl, hchosen, hwitnessed, hproven⟩, (hparents.append hwitness).append hproofs⟩

end Success

/-- An id is entered when it is accepted or sent already, or new and authorised. -/
theorem enter_ok
    (h : enter c allowed visiting id send s = (.ok (), s')) :
    ((id ∈ c.accepted ∨ id ∈ sentIDs s) ∧ s' = s) ∨
      ∃ e, id ∉ c.accepted ∧ id ∉ sentIDs s ∧ c.byID id = some e ∧ id ∉ visiting ∧
        authorised allowed e = true ∧ send e s = (.ok (), s') := by
  rw [enter] at h
  by_cases hdone : id ∈ c.accepted ∨ id ∈ sentIDs s
  · rw [if_pos hdone] at h
    cases h
    exact .inl ⟨hdone, rfl⟩
  · rw [if_neg hdone] at h
    rw [not_or] at hdone
    split at h
    · cases h
    · rename_i e he
      split_ifs at h with hvisiting hauth
      · cases h
      · cases h
      · exact .inr ⟨e, hdone.1, hdone.2, he, hvisiting, by simpa using hauth, h⟩

/-- Sending an event after all that it waits for. -/
theorem visited_put (h : Visited c d allowed s m deps)
    (hnew : e.id ∉ sentIDs m) (hknown : c.byID e.id = some e) (hfresh : e.id ∉ c.accepted)
    (hauth : authorised allowed e = true) (hwaits : ∃ witness, Waits c d e witness deps) :
    Visited c d allowed s (m ++ [⟨e, deps⟩]) [e.id] := by
  have hgrows : ∃ new, m ++ [⟨e, deps⟩] = m ++ new := ⟨_, rfl⟩
  have hself : e.id ∈ sentIDs (m ++ [⟨e, deps⟩]) := by simp [sentIDs]
  have hmem : ∀ {x : Sending}, x ∈ m ++ [⟨e, deps⟩] → x ∈ m ∨ x = ⟨e, deps⟩ := fun hx =>
    (List.mem_append.1 hx).imp_right List.mem_singleton.1
  refine ⟨?_, fun hs => ?_, fun p hp => ?_, fun x hx => ?_⟩
  · obtain ⟨new, rfl⟩ := h.grows
    exact ⟨new ++ [⟨e, deps⟩], List.append_assoc ..⟩
  · have hm := h.sent hs
    refine ⟨?_, fun x hx => ?_, fun x hx => ?_, fun x hx => ?_, fun x hx => ?_, fun x hx p hp => ?_⟩
    · rw [sentIDs_append, List.nodup_append]
      refine ⟨hm.nodup, List.nodup_singleton _, fun a ha b hb hab => hnew ?_⟩
      have hae : a = e.id := hab.trans (List.mem_singleton.1 hb)
      exact hae ▸ ha
    · rcases hmem hx with hx | rfl
      · exact hm.known x hx
      · exact hknown
    · rcases hmem hx with hx | rfl
      · exact hm.fresh x hx
      · exact hfresh
    · rcases hmem hx with hx | rfl
      · exact hm.authorised x hx
      · exact hauth
    · rcases hmem hx with hx | rfl
      · exact hm.waits x hx
      · exact hwaits
    · rcases hmem hx with hx | rfl
      · exact (hm.closed x hx p hp).imp_right (sentIDs_mono hgrows)
      · exact (h.done p hp).imp_right (sentIDs_mono hgrows)
  · rw [List.mem_singleton.1 hp]
    exact .inr hself
  · rcases hmem hx with hx | rfl
    · refine (h.reached x hx).imp_right ?_
      rintro ⟨p, hp, hpath⟩
      refine ⟨e.id, List.mem_singleton_self _,
        .head ?_ (ReflTransGen.mono (fun _ _ => edge_mono hgrows) _ _ hpath)⟩
      exact ⟨⟨e, deps⟩, List.mem_append_right _ (List.mem_singleton_self _), rfl, hp⟩
    · exact .inr ⟨e.id, List.mem_singleton_self _, .refl⟩

/-- **A visit.**  It has sent the event and all that it waits for, and nothing else. -/
theorem visitEvent_visited (hids : ∀ e ∈ c.all, e.id ≠ "") {fuel : ℕ}
    (h : visitEvent c d allowed fuel visiting id s = (.ok (), s')) :
    Visited c d allowed s s' [id] := by
  induction fuel generalizing visiting id s s' with
  | zero =>
      rcases enter_ok h with ⟨hdone, rfl⟩ | ⟨e, -, -, -, -, -, hsend⟩
      · exact ⟨⟨[], (List.append_nil s').symm⟩, fun hs => hs,
          fun p hp => (List.mem_singleton.1 hp) ▸ hdone, fun _ hx => .inl hx⟩
      · cases hsend
  | succ fuel ih =>
      rcases enter_ok h with ⟨hdone, rfl⟩ | ⟨e, hfresh, hnew, he, -, hauth, hsend⟩
      · exact ⟨⟨[], (List.append_nil s').symm⟩, fun hs => hs,
          fun p hp => (List.mem_singleton.1 hp) ▸ hdone, fun _ hx => .inl hx⟩
      · obtain rfl := id_of_byID he
        simp only [sendEvent, Attempt.bind_run_ok] at hsend
        obtain ⟨deps, m, hdeps, hput⟩ := hsend
        have hkeeps := keeps_eventDeps (c := c) (d := d) (e := e)
          (@keeps_visitEvent c d allowed fuel (e.id :: visiting)) s
        obtain ⟨hwaits, hvisited⟩ := eventDeps_ok hids (fun p s s' => ih)
          (keeps_visitEvent fuel (e.id :: visiting)) hdeps
        rw [hdeps] at hkeeps
        have hm := hkeeps.not_mem hnew
        rw [putSending, filter_of_notMem hm] at hput
        cases hput
        exact visited_put hvisited hm he hfresh hauth hwaits

/-! ### The fuel -/

/-- Entering sends the event of its id only. -/
theorem enter_congr {send' : HistoryEvent → Attempt (List Sending) DomainError Unit}
    (h : ∀ e, c.byID id = some e → id ∉ visiting → send e = send' e) :
    enter c allowed visiting id send = enter c allowed visiting id send' := by
  funext s
  simp only [enter]
  split_ifs with hdone hvisiting
  · rfl
  · rfl
  · cases he : c.byID id with
    | none => rfl
    | some e => simp only [h e he hvisiting]

/-- The events being visited are distinct events of the catalog; when there is no fuel left
they are all of them. -/
theorem visitEvent_fuel {fuel : ℕ} (hn : visiting.Nodup)
    (hsub : ∀ x ∈ visiting, ∃ e ∈ c.all, e.id = x)
    (hfuel : c.all.length ≤ fuel + visiting.length) :
    visitEvent c d allowed fuel visiting id = visitEvent c d allowed (fuel + 1) visiting id := by
  have hids : ∀ x ∈ visiting, x ∈ c.all.map HistoryEvent.id := fun x hx =>
    List.mem_map.2 (hsub x hx)
  induction fuel generalizing visiting id with
  | zero =>
      have hperm := (List.subperm_of_subset hn hids).perm_of_length_le (by simpa using hfuel)
      refine enter_congr fun e he hv => absurd (hperm.mem_iff.2 ?_) hv
      exact List.mem_map.2 ⟨e, List.mem_of_find?_eq_some he, id_of_byID he⟩
  | succ fuel ih =>
      refine enter_congr fun e he hv => ?_
      have hmem : ∃ e ∈ c.all, e.id = id := ⟨e, List.mem_of_find?_eq_some he, id_of_byID he⟩
      have hsub' : ∀ x ∈ id :: visiting, ∃ e ∈ c.all, e.id = x :=
        List.forall_mem_cons.2 ⟨hmem, hsub⟩
      have hvisits : visitEvent c d allowed fuel (id :: visiting) =
          visitEvent c d allowed (fuel + 1) (id :: visiting) := funext fun p =>
        ih (List.nodup_cons.2 ⟨hv, hn⟩) hsub' (by rw [List.length_cons]; omega)
          fun x hx => List.mem_map.2 (hsub' x hx)
      rw [hvisits]

end Cli
end CxtHub
