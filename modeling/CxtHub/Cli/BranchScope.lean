/-
# The projection of a part of a history

A part of a history that holds the dependencies of its events replays by itself: its
events can be applied first, in the order they have, and the others afterwards
(`Replay.run_closed`).  A name that none of the others uses is bound in the part as it
is in the whole (`project_part`).
-/

import CxtHub.Cli.BranchOrder

namespace CxtHub
namespace Cli

variable {d : Digest} {l part out : List HistoryEvent} {p q : ContextBranchProjection}

/-- A part of a history that holds the dependencies of its events. -/
structure ClosedPart (l part : List HistoryEvent) : Prop where
  subset : part ⊆ l
  closed : ∀ e ∈ part, ∀ parent ∈ historyDependencies e, ∃ f ∈ part, f.id = parent

/-- Two projections bind a name in the same way. -/
def SameAt (n : String) (p q : ContextBranchProjection) : Prop :=
  q.active n = p.active n ∧ q.released n = p.released n

/-- A name that an event uses is the one it gives or the one it takes away. -/
theorem branch_of_mem_names {e : HistoryEvent} {n : String}
    (h : n ∈ ContextBranchProjection.names e) : e.branch = n ∨ e.previousBranch = n := by
  simp only [ContextBranchProjection.names, HistoryEvent.oldName, List.mem_cons,
    List.not_mem_nil, or_false] at h
  split_ifs at h
  · exact h.symm.imp Eq.symm Eq.symm
  · exact .inl (or_self_iff.1 h).symm

/-- Events leave the names and the identities as they are that they do not use. -/
theorem sameAt_of_run (hp : p.Coherent) (h : Replay.run (fun p e => p.apply d e) p out = .ok q) :
    (∀ n, (∀ e ∈ out, n ∉ ContextBranchProjection.names e) → SameAt n p q) ∧
      ∀ id, (∀ e ∈ out, id ≠ e.branchID) → q.byID id = p.byID id := by
  induction out generalizing p with
  | nil =>
      cases h
      exact ⟨fun _ _ => ⟨rfl, rfl⟩, fun _ _ => rfl⟩
  | cons e out ih =>
      obtain ⟨u, hu, h⟩ := Replay.run_cons.1 h
      have hframe := ContextBranchProjection.frame_apply hp hu
      obtain ⟨hnames, hbyID⟩ := ih (hp.apply hu) h
      refine ⟨fun n hn => ?_, fun id hid => ?_⟩
      · rw [List.forall_mem_cons] at hn
        obtain ⟨hactive, hreleased⟩ := hnames n hn.2
        exact ⟨hactive.trans (hframe.active n hn.1), hreleased.trans (hframe.released n hn.1)⟩
      · rw [List.forall_mem_cons] at hid
        exact (hbyID id hid.2).trans (hframe.byID id hid.1)

/-- What an event of an order depends on is in the order. -/
theorem Enumerates.exists_dependency (h : Enumerates l out) {e : HistoryEvent} (he : e ∈ l)
    {parent : String} (hparent : parent ∈ historyDependencies e) : ∃ f ∈ l, f.id = parent := by
  obtain ⟨x, y, rfl⟩ := List.append_of_mem ((h.mem e).2 he)
  obtain ⟨f, hf, hid⟩ := List.mem_map.1
    ((h.causal.met parent hparent).resolve_left List.not_mem_nil)
  exact ⟨f, (h.mem f).1 (List.mem_append_left _ hf), hid⟩

/-- What an event of a closed part depends on is in the part. -/
theorem ClosedPart.keeps (hpart : ClosedPart l part) (h : Enumerates l out) :
    ∀ a ∈ out, decide (a ∈ part) = true → ∀ b ∈ out, b.id ∈ historyDependencies a →
      decide (b ∈ part) = true := by
  intro a _ ha b hb hd
  obtain ⟨f, hf, hid⟩ := hpart.closed a (of_decide_eq_true ha) b.id hd
  have heq := List.inj_on_of_nodup_map h.nodup ((h.mem f).2 (hpart.subset hf)) hb hid
  exact decide_eq_true (heq ▸ hf)

/-- The order of a history lists a closed part in an order of its own. -/
theorem Enumerates.restrict (h : Enumerates l out) (hpart : ClosedPart l part) :
    Enumerates part (out.filter fun e => e ∈ part) where
  mem e := by
    rw [List.mem_filter, decide_eq_true_eq, h.mem]
    exact and_iff_right_of_imp fun he => hpart.subset he
  nodup := h.nodup.sublist (List.filter_sublist.map _)
  causal := h.causal.filter (fun _ _ _ _ _ hd => hd) fun a ha hka b hb hd =>
    .inl (hpart.keeps h a ha hka b hb hd)

/-- The bindings of a closed part are a closed part of the bindings. -/
theorem ClosedPart.bindings (hpart : ClosedPart l part) (hids : (l.map HistoryEvent.id).Nodup)
    (h : Enumerates (l.filter isBranchBindingEvent) out) :
    ClosedPart (l.filter isBranchBindingEvent) (part.filter isBranchBindingEvent) where
  subset e he := by
    rw [List.mem_filter] at he ⊢
    exact ⟨hpart.subset he.1, he.2⟩
  closed e he parent hparent := by
    obtain ⟨hmem, hbind⟩ := List.mem_filter.1 he
    obtain ⟨f, hf, hid⟩ := hpart.closed e hmem parent hparent
    -- The bindings could be ordered, so what they depend on is a binding.
    obtain ⟨g, hg, hgid⟩ :=
      h.exists_dependency (List.mem_filter.2 ⟨hpart.subset hmem, hbind⟩) hparent
    obtain ⟨hgl, hgbind⟩ := List.mem_filter.1 hg
    have heq := List.inj_on_of_nodup_map hids hgl (hpart.subset hf) (hgid.trans hid.symm)
    exact ⟨f, List.mem_filter.2 ⟨hf, heq ▸ hgbind⟩, hid⟩

/-- **A closed part of a history projects**, and binds the names and identities that no other
event uses as the whole history does. -/
theorem project_part (hids : (l.map HistoryEvent.id).Nodup)
    (hnonempty : ∀ e ∈ l, isBranchBindingEvent e = true → e.id ≠ "")
    (hpart : ClosedPart l part) (h : projectContextBranches d l = .ok p) :
    ∃ q, projectContextBranches d part = .ok q ∧
      (∀ n, (∀ e ∈ l, isBranchBindingEvent e = true → n ∈ ContextBranchProjection.names e →
        e ∈ part) → SameAt n q p) ∧
      ∀ id, (∀ e ∈ l, isBranchBindingEvent e = true → id = e.branchID → e ∈ part) →
        p.byID id = q.byID id := by
  obtain ⟨out, horder, hrun⟩ := projectContextBranches_eq_ok.1 h
  have hout := enumerates_of_order horder
  have hbind := hpart.bindings hids hout
  have hstep : ∀ (s : ContextBranchProjection) (e : HistoryEvent) t, s.Coherent →
      s.apply d e = .ok t → t.Coherent := fun _ _ _ hs => hs.apply
  have hP : ∀ e ∈ out, e.id ≠ "" := fun e he =>
    have hmem := List.mem_filter.1 ((hout.mem e).1 he)
    hnonempty e hmem.1 hmem.2
  have hsub := hout.restrict hbind
  obtain ⟨q, hq, hrest⟩ := Replay.run_closed hstep (ContextBranchProjection.diamond d)
    ContextBranchProjection.coherent_empty hP hout.causal hout.nodup
    (hbind.keeps hout) hrun
  obtain ⟨out', horder'⟩ := exists_orderHistoryEvents hsub
  have hout' := enumerates_of_order horder'
  have hperm := (List.perm_ext_iff_of_nodup hsub.nodup.of_map hout'.nodup.of_map).2 fun e =>
    (hsub.mem e).trans (hout'.mem e).symm
  have hq' := Replay.run_perm hstep (ContextBranchProjection.diamond d)
    ContextBranchProjection.coherent_empty (fun e he => hP e (List.mem_of_mem_filter he))
    hsub.causal hout'.causal hperm hsub.nodup (fun _ _ hd => absurd hd List.not_mem_nil) hq
  obtain ⟨hnames, hbyID⟩ := sameAt_of_run
    (Replay.run_invariant hstep ContextBranchProjection.coherent_empty hq) hrest
  -- An event that comes after the part is not in it.
  have hout : ∀ e ∈ out.filter fun e => !decide (e ∈ part.filter isBranchBindingEvent),
      e ∈ l ∧ isBranchBindingEvent e = true ∧ e ∉ part := by
    intro e he
    obtain ⟨hmem, hdropped⟩ := List.mem_filter.1 he
    obtain ⟨hl, hb⟩ := List.mem_filter.1 ((hout.mem e).1 hmem)
    exact ⟨hl, hb, by simpa [hb] using hdropped⟩
  refine ⟨q, projectContextBranches_eq_ok.2 ⟨out', horder', hq'⟩, fun n hn => ?_, fun id hid => ?_⟩
  · exact hnames n fun e he hname => (hout e he).2.2 (hn e (hout e he).1 (hout e he).2.1 hname)
  · exact hbyID id fun e he heq => (hout e he).2.2 (hid e (hout e he).1 (hout e he).2.1 heq)

end Cli
end CxtHub
