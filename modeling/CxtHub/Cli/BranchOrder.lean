/-
# The order in which a history is replayed

`OrderHistoryEvents` of `domain/context_branch.go`.  It enumerates the events, each
after its dependencies, and finds such an order whenever there is one
(`exists_orderHistoryEvents`); among the events that are ready it takes the earliest, so
the order is determined by the set of events.  With the commutation of independent
events this gives the independence of the projection from the form of the list
and from the clocks.
-/

import CxtHub.Cli.BranchProjection
import CxtHub.Lib.Acyclic

namespace CxtHub
namespace Cli

open Replay (Causal)
open CxtHub.Graph (Greedy)

variable {a b : HistoryEvent}

/-- `out` lists the events of `l`, each once and after its dependencies. -/
structure Enumerates (l out : List HistoryEvent) : Prop where
  mem : ∀ e, e ∈ out ↔ e ∈ l
  nodup : (out.map HistoryEvent.id).Nodup
  causal : Causal HistoryEvent.id historyDependencies [] out

/-! ### One event for each id -/

section Index

variable {acc l out : List HistoryEvent}

/-- The index has each event once, by its id. -/
theorem indexEvents_eq_ok (hacc : (acc.map HistoryEvent.id).Nodup)
    (h : indexEvents acc l = .ok out) :
    (out.map HistoryEvent.id).Nodup ∧ ∀ e, e ∈ out ↔ e ∈ acc ∨ e ∈ l := by
  induction l generalizing acc with
  | nil =>
      cases h
      exact ⟨hacc, fun e => by simp⟩
  | cons a l ih =>
      simp only [indexEvents, bind_eq_ok, exists_unit_iff, refuse_eq_ok] at h
      obtain ⟨hsame, h⟩ := h
      obtain ⟨hn, hout⟩ := ih (nodup_addNew hacc hsame) h
      refine ⟨hn, fun e => ?_⟩
      rw [hout, mem_addNew, List.mem_cons, or_assoc]

/-- It exists when no id stands for two events. -/
theorem exists_indexEvents (h : ∀ a b, a ∈ acc ++ l → b ∈ acc ++ l → a.id = b.id → a = b) :
    ∃ out, indexEvents acc l = .ok out := by
  induction l generalizing acc with
  | nil => exact ⟨acc, rfl⟩
  | cons a l ih =>
      have hsame : ¬ ∃ old ∈ acc, old.id = a.id ∧ old ≠ a := by
        rintro ⟨old, hold, hid, hne⟩
        exact hne (h old a (by simp [hold]) (by simp) hid)
      obtain ⟨out, hout⟩ := @ih (if a ∈ acc then acc else acc ++ [a]) (by
        intro x y hx hy
        refine h x y ?_ ?_
        · split_ifs at hx <;> simp only [List.mem_append, List.mem_cons, List.not_mem_nil,
            or_false] at hx ⊢ <;> tauto
        · split_ifs at hy <;> simp only [List.mem_append, List.mem_cons, List.not_mem_nil,
            or_false] at hy ⊢ <;> tauto)
      exact ⟨out, by simp only [indexEvents, bind_eq_ok, exists_unit_iff, refuse_eq_ok]
                     exact ⟨hsame, hout⟩⟩

end Index

/-! ### The order of observation -/

/-- The order of observation, in which the client lists a history. -/
abbrev Observed (a b : HistoryEvent) : Prop := observedBefore b a = false

/-- The order of observation, by time and id. -/
theorem observed_iff :
    Observed a b ↔ a.createdAt < b.createdAt ∨ a.createdAt = b.createdAt ∧ a.id ≤ b.id := by
  unfold Observed observedBefore
  split_ifs with h
  · rw [decide_eq_false_iff_not, not_lt]
    exact ⟨fun hid => .inr ⟨h.symm, hid⟩, fun hor => hor.elim (fun hlt => by omega) And.right⟩
  · rw [decide_eq_false_iff_not]
    exact ⟨fun hlt => .inl (by omega),
      fun hor => hor.elim (fun hlt => by omega) fun heq => by omega⟩

instance : IsTrans HistoryEvent Observed where
  trans a b c hab hbc := by
    rw [observed_iff] at *
    rcases hab with hab | ⟨hab, hid⟩ <;> rcases hbc with hbc | ⟨hbc, hid'⟩
    · exact .inl (hab.trans hbc)
    · exact .inl (hbc ▸ hab)
    · exact .inl (hab ▸ hbc)
    · exact .inr ⟨hab.trans hbc, hid.trans hid'⟩

instance : Std.Total Observed where
  total a b := by
    rw [observed_iff, observed_iff]
    rcases lt_trichotomy a.createdAt b.createdAt with h | h | h
    · exact .inl (.inl h)
    · rcases le_total a.id b.id with hid | hid
      · exact .inl (.inr ⟨h, hid⟩)
      · exact .inr (.inr ⟨h.symm, hid⟩)
    · exact .inr (.inl h)

/-- What is observed before is not observed after. -/
theorem observed_of_before (h : observedBefore a b = true) :
    Observed a b := by
  rcases Std.Total.total (r := Observed) a b with hab | hba
  · exact hab
  · rw [Observed, h] at hba
    cases hba

/-- Events observed together have one id. -/
theorem id_eq_of_observed (hab : Observed a b) (hba : Observed b a) :
    a.id = b.id := by
  rw [observed_iff] at hab hba
  rcases hab with hab | ⟨ht, hab⟩ <;> rcases hba with hba | ⟨ht', hba⟩
  · omega
  · omega
  · omega
  · exact le_antisymm hab hba

/-- Only the empty list has no earliest event. -/
theorem earliest_eq_none {l : List HistoryEvent} : earliest l = none ↔ l = [] := by
  cases l with
  | nil => simp [earliest]
  | cons a l =>
      simp only [earliest, reduceCtorEq, iff_false]
      cases earliest l with
      | none => simp
      | some f =>
          dsimp only
          split_ifs <;> simp

/-- The earliest event is observed before all others. -/
theorem earliest_eq_some {l : List HistoryEvent} {e : HistoryEvent} (h : earliest l = some e) :
    e ∈ l ∧ ∀ f ∈ l, Observed e f := by
  have hrefl : ∀ a : HistoryEvent, Observed a a := fun a =>
    (Std.Total.total (r := Observed) a a).elim id id
  induction l generalizing e with
  | nil => cases h
  | cons a l ih =>
      rw [earliest] at h
      cases hl : earliest l with
      | none =>
          rw [hl, Option.some.injEq] at h
          rw [earliest_eq_none.1 hl, ← h]
          exact ⟨List.mem_singleton_self a, fun f hf => List.mem_singleton.1 hf ▸ hrefl a⟩
      | some f =>
          obtain ⟨hf, hleast⟩ := ih hl
          rw [hl] at h
          dsimp only at h
          split_ifs at h with hbefore
          · rw [← Option.some.inj h]
            refine ⟨List.mem_cons_self, fun g hg => ?_⟩
            rcases List.mem_cons.1 hg with rfl | hg
            · exact hrefl g
            · exact IsTrans.trans a f g (observed_of_before hbefore) (hleast g hg)
          · rw [← Option.some.inj h]
            refine ⟨List.mem_cons_of_mem _ hf, fun g hg => ?_⟩
            rcases List.mem_cons.1 hg with rfl | hg
            · exact Bool.eq_false_iff.2 hbefore
            · exact hleast g hg

/-! ### The loop -/

section Loop

variable {n : ℕ} {l done rest out : List HistoryEvent} {e : HistoryEvent}

/-- An event is ready when its dependencies are done. -/
theorem mem_readyEvents {ids : List String} :
    e ∈ readyEvents ids rest ↔ e ∈ rest ∧ ∀ d ∈ historyDependencies e, d ∈ ids := by
  simp [readyEvents]

/-- An event that is not placed, while its dependencies are. -/
def ReadyIn (l done : List HistoryEvent) (e : HistoryEvent) : Prop :=
  e ∈ l ∧ e.id ∉ done.map HistoryEvent.id ∧
    ∀ d ∈ historyDependencies e, d ∈ done.map HistoryEvent.id

/-- **The loop takes the earliest ready event each time**, until none is ready. -/
theorem orderFrom_greedy (hn : rest.length ≤ n)
    (hrest : ∀ f, f ∈ rest ↔ f ∈ l ∧ f.id ∉ done.map HistoryEvent.id) :
    ∃ out, orderFrom n done rest = done ++ out ∧
      Greedy observedBefore (ReadyIn l) done.reverse out := by
  induction n generalizing done rest with
  | zero =>
      refine ⟨[], by simp [orderFrom], fun f hf => ?_⟩
      have hmem := (hrest f).2 ⟨hf.1, by simpa using hf.2.1⟩
      rw [List.length_eq_zero_iff.1 (Nat.le_zero.1 hn)] at hmem
      cases hmem
  | succ n ih =>
      have hready : ∀ f, f ∈ readyEvents (done.map HistoryEvent.id) rest ↔
          ReadyIn l done.reverse f := fun f => by
        rw [mem_readyEvents, hrest, ReadyIn]
        simp [and_assoc]
      rw [orderFrom]
      cases hearliest : earliest (readyEvents (done.map HistoryEvent.id) rest) with
      | none =>
          refine ⟨[], by simp, fun f hf => ?_⟩
          rw [← hready, earliest_eq_none.1 hearliest] at hf
          cases hf
      | some e =>
          obtain ⟨he, hleast⟩ := earliest_eq_some hearliest
          have hlength : (rest.filter fun f => f.id ≠ e.id).length < rest.length :=
            List.length_filter_lt_length_iff_exists.2 ⟨e, (mem_readyEvents.1 he).1, by simp⟩
          obtain ⟨out, hout, hgreedy⟩ := @ih (done ++ [e]) (rest.filter fun f => f.id ≠ e.id)
            (by omega) fun f => by
              simp only [List.mem_filter, hrest, decide_eq_true_eq, List.map_append,
                List.mem_append, List.map_singleton, List.mem_singleton, not_or, and_assoc]
          refine ⟨e :: out, ?_, (hready e).1 he, fun f hf => hleast f ((hready f).2 hf), ?_⟩
          · dsimp only
            rw [hout, List.append_assoc, List.singleton_append]
          · rwa [List.reverse_append] at hgreedy

/-- A greedy order has each event once, after its dependencies. -/
theorem causal_of_greedy (h : Greedy observedBefore (ReadyIn l) done out) :
    (∀ f ∈ out, f ∈ l ∧ f.id ∉ done.map HistoryEvent.id) ∧ (out.map HistoryEvent.id).Nodup ∧
      Causal HistoryEvent.id historyDependencies (done.map HistoryEvent.id) out := by
  induction out generalizing done with
  | nil => exact ⟨fun _ hf => absurd hf List.not_mem_nil, List.nodup_nil, trivial⟩
  | cons e out ih =>
      obtain ⟨hmem, hn, hcausal⟩ := ih h.2.2
      obtain ⟨he, hnew, hdeps⟩ := h.1
      refine ⟨List.forall_mem_cons.2 ⟨⟨he, hnew⟩, fun f hf => ⟨(hmem f hf).1, fun hin => ?_⟩⟩,
        List.nodup_cons.2 ⟨fun hin => ?_, hn⟩, hdeps, hcausal⟩
      · exact (hmem f hf).2 (List.mem_cons_of_mem _ hin)
      · obtain ⟨f, hf, hid⟩ := List.mem_map.1 hin
        exact (hmem f hf).2 (hid ▸ List.mem_cons_self)

/-- **There is one greedy order.** -/
theorem greedy_unique (hids : ∀ a ∈ l, ∀ b ∈ l, a.id = b.id → a = b)
    (h : Greedy observedBefore (ReadyIn l) done out)
    (h' : Greedy observedBefore (ReadyIn l) done rest) : out = rest :=
  h.unique (fun _ a b ha hb hab hba => hids a ha.1 b hb.1 (id_eq_of_observed hba hab)) h'

/-- What can be put into a causal order is placed. -/
theorem placed_of_causal {ids : List String} {order : List HistoryEvent}
    (h : Greedy observedBefore (ReadyIn l) [] out) (hsub : order ⊆ l)
    (hcausal : Causal HistoryEvent.id historyDependencies ids order)
    (hids : ∀ d ∈ ids, d ∈ out.map HistoryEvent.id) :
    ∀ e ∈ order, e.id ∈ out.map HistoryEvent.id := by
  induction order generalizing ids with
  | nil => exact fun _ he => absurd he List.not_mem_nil
  | cons e order ih =>
      obtain ⟨he, hsub⟩ := List.cons_subset.1 hsub
      have hplaced : e.id ∈ out.map HistoryEvent.id := by
        by_contra hnew
        refine h.stuck e ⟨he, by simpa using hnew, fun d hd => ?_⟩
        simpa using hids d (hcausal.1 d hd)
      exact List.forall_mem_cons.2 ⟨hplaced, ih hsub hcausal.2
        (List.forall_mem_cons.2 ⟨hplaced, hids⟩)⟩

end Loop

/-! ### `OrderHistoryEvents` -/

section Order

variable {l l' out byID : List HistoryEvent}

/-- **What the order of the history is, and when there is one.** -/
theorem orderHistoryEvents_eq_ok :
    orderHistoryEvents l = .ok out ↔ ∃ byID, indexEvents [] l = .ok byID ∧
      (∀ e ∈ byID, ∀ d ∈ historyDependencies e, d ∈ byID.map HistoryEvent.id) ∧
      (orderFrom byID.length [] byID).length = byID.length ∧
      out = orderFrom byID.length [] byID := by
  simp only [orderHistoryEvents, bind_eq_ok, exists_unit_iff, checkAll_eq_ok, refuse_eq_ok,
    not_not, Except.ok.injEq, @eq_comm _ _ out]

/-- The loop takes the earliest ready event each time. -/
theorem greedy_of_index (hindex : indexEvents [] l = .ok byID) :
    Greedy observedBefore (ReadyIn l) [] (orderFrom byID.length [] byID) := by
  obtain ⟨-, hmem⟩ := indexEvents_eq_ok (by simp) hindex
  obtain ⟨out, hout, hgreedy⟩ := @orderFrom_greedy byID.length l [] byID le_rfl
    fun f => by simp [hmem]
  rwa [hout]

/-- **The order enumerates the events.** -/
theorem enumerates_of_order (h : orderHistoryEvents l = .ok out) : Enumerates l out := by
  obtain ⟨byID, hindex, -, hlength, rfl⟩ := orderHistoryEvents_eq_ok.1 h
  obtain ⟨hids, hmem⟩ := indexEvents_eq_ok (by simp) hindex
  obtain ⟨hsub, hn, hcausal⟩ := causal_of_greedy (greedy_of_index hindex)
  have hperm := (List.subperm_of_subset hn.of_map fun e he =>
    (hmem e).2 (.inr (hsub e he).1)).perm_of_length_le hlength.ge
  refine ⟨fun e => ?_, hn, hcausal⟩
  rw [hperm.mem_iff, hmem]
  simp

/-- The order succeeds when the loop places every event. -/
theorem order_of_placed (hindex : indexEvents [] l = .ok byID)
    (hin : ∀ e ∈ byID, ∀ d ∈ historyDependencies e, d ∈ byID.map HistoryEvent.id)
    (hall : ∀ e ∈ l, e.id ∈ (orderFrom byID.length [] byID).map HistoryEvent.id) :
    ∃ out, orderHistoryEvents l = .ok out := by
  obtain ⟨hids, hmem⟩ := indexEvents_eq_ok (by simp) hindex
  obtain ⟨hsub, hn, -⟩ := causal_of_greedy (greedy_of_index hindex)
  have hall' : byID.map HistoryEvent.id ⊆ (orderFrom byID.length [] byID).map HistoryEvent.id := by
    intro id hid
    obtain ⟨e, he, rfl⟩ := List.mem_map.1 hid
    exact hall e (((hmem e).1 he).resolve_left List.not_mem_nil)
  have hle := (List.subperm_of_subset hids hall').length_le
  have hge := (List.subperm_of_subset hn.of_map fun e he =>
    (hmem e).2 (.inr (hsub e he).1)).length_le
  simp only [List.length_map] at hle
  exact ⟨_, orderHistoryEvents_eq_ok.2 ⟨byID, hindex, hin, le_antisymm hge hle, rfl⟩⟩

/-- **An order is found whenever there is one.** -/
theorem exists_orderHistoryEvents {order : List HistoryEvent} (h : Enumerates l order) :
    ∃ out, orderHistoryEvents l = .ok out := by
  have hunique : ∀ a b, a ∈ [] ++ l → b ∈ [] ++ l → a.id = b.id → a = b := fun a b ha hb hid =>
    List.inj_on_of_nodup_map h.nodup ((h.mem a).2 ha) ((h.mem b).2 hb) hid
  obtain ⟨byID, hindex⟩ := exists_indexEvents hunique
  obtain ⟨hids, hmem⟩ := indexEvents_eq_ok (by simp) hindex
  have hiff : ∀ e, e ∈ order ↔ e ∈ byID := fun e => by simp [h.mem, hmem]
  refine order_of_placed hindex (fun e he d hd => ?_) fun e he => ?_
  · obtain ⟨x, y, rfl⟩ := List.append_of_mem ((hiff e).2 he)
    obtain ⟨f, hf, rfl⟩ := List.mem_map.1 ((h.causal.met d hd).resolve_left (by simp))
    exact List.mem_map_of_mem ((hiff f).1 (List.mem_append_left _ hf))
  · exact placed_of_causal (greedy_of_index hindex) (fun f hf => (h.mem f).1 hf) h.causal
      (by simp) e ((h.mem e).2 he)

/-- **The order depends only on the set of events.** -/
theorem orderHistoryEvents_congr (hmem : ∀ e, e ∈ l ↔ e ∈ l')
    (h : orderHistoryEvents l = .ok out) : orderHistoryEvents l' = .ok out := by
  have henum := enumerates_of_order h
  obtain ⟨out', h'⟩ := exists_orderHistoryEvents (l := l')
    ⟨fun e => (henum.mem e).trans (hmem e), henum.nodup, henum.causal⟩
  rw [h']
  obtain ⟨byID, hindex, -, -, rfl⟩ := orderHistoryEvents_eq_ok.1 h
  obtain ⟨byID', hindex', -, -, rfl⟩ := orderHistoryEvents_eq_ok.1 h'
  have hsame : ReadyIn l' = ReadyIn l := by
    funext done e
    simp only [ReadyIn, hmem]
  have hgreedy := greedy_of_index hindex'
  rw [hsame] at hgreedy
  rw [greedy_unique (fun a ha b hb => List.inj_on_of_nodup_map henum.nodup ((henum.mem a).2 ha)
    ((henum.mem b).2 hb)) hgreedy (greedy_of_index hindex)]

end Order

/-! ### Projections -/

section Projection

variable {d : Digest} {l l' out : List HistoryEvent} {p q : ContextBranchProjection}

/-- The replay as a run of the library. -/
theorem replay_eq_run : replay d p l = Replay.run (fun p e => p.apply d e) p l := by
  induction l generalizing p with
  | nil => rfl
  | cons e l ih =>
      exact congrArg (p.apply d e >>= ·) (funext fun _ => ih)

/-- The projection replays the binding events in order. -/
theorem projectContextBranches_eq_ok :
    projectContextBranches d l = .ok p ↔
      ∃ out, orderHistoryEvents (l.filter isBranchBindingEvent) = .ok out ∧
        Replay.run (fun p e => p.apply d e) {} out = .ok p := by
  simp only [projectContextBranches, bind_eq_ok, replay_eq_run]

/-- The projection depends only on the set of events. -/
theorem projectContextBranches_of_mem (hmem : ∀ e, e ∈ l ↔ e ∈ l') :
    projectContextBranches d l = .ok p ↔ projectContextBranches d l' = .ok p := by
  have hfilter : ∀ e, e ∈ l.filter isBranchBindingEvent ↔ e ∈ l'.filter isBranchBindingEvent :=
    fun e => by rw [List.mem_filter, List.mem_filter, hmem]
  rw [projectContextBranches_eq_ok, projectContextBranches_eq_ok]
  exact exists_congr fun out => and_congr_left fun _ =>
    ⟨orderHistoryEvents_congr hfilter, orderHistoryEvents_congr fun e => (hfilter e).symm⟩

/-- An event that gives up a name: a rename, or an archive. -/
def HistoryEvent.GivesUp (e : HistoryEvent) (n : String) : Prop :=
  e.kind = .rename ∧ e.previousBranch = n ∨ e.kind = .archive ∧ e.branch = n

/-- A binding event that bears no branch gives up its old name. -/
theorem givesUp_of_not_bears {e : HistoryEvent} (hbind : isBranchBindingEvent e = true)
    (he : ¬ e.Bears) : e.GivesUp e.oldName := by
  simp only [isBranchBindingEvent, decide_eq_true_eq, List.mem_cons, List.not_mem_nil,
    or_false] at hbind
  unfold HistoryEvent.GivesUp HistoryEvent.oldName
  rcases hbind with hkind | hkind | hkind | hkind
  · exact absurd (.inl hkind) he
  · exact absurd (.inr hkind) he
  · simp [hkind]
  · simp [hkind]

/-- Every mark on a name is the id of an applied event that gave up the name. -/
theorem released_of_run (h : Replay.run (fun p e => p.apply d e) {} out = .ok p) {n id : String}
    (hn : p.released n = some id) : ∃ e ∈ out, ¬ e.Bears ∧ e.oldName = n ∧ e.id = id := by
  have hinv := Replay.run_history
    (J := fun done p => ∀ n id, p.released n = some id →
      ∃ e ∈ done, ¬ e.Bears ∧ e.oldName = n ∧ e.id = id) []
    (fun done p e q hp happly n id hn => by
      by_cases he : e.Bears
      · obtain ⟨-, rfl⟩ := (ContextBranchProjection.apply_born he).1 happly
        obtain ⟨f, hf, hrest⟩ := hp n id hn
        exact ⟨f, List.mem_append_left _ hf, hrest⟩
      · obtain ⟨b, -, rfl⟩ := (ContextBranchProjection.apply_moved he).1 happly
        simp only [ContextBranchProjection.move, Function.update_apply] at hn
        split_ifs at hn with heq
        · exact ⟨e, by simp, he, heq.symm, Option.some.inj hn⟩
        · obtain ⟨f, hf, hrest⟩ := hp n id hn
          exact ⟨f, List.mem_append_left _ hf, hrest⟩)
    (fun n id hn => (by cases hn)) h
  exact hinv n id hn

/-- **The identity invariant of every projection.** -/
theorem project_coherent (h : projectContextBranches d l = .ok p) :
    (∀ n b, p.active n = some b → b.name = n ∧ b.archived = false ∧ p.byID b.id = some b) ∧
    (∀ n m b c, p.active n = some b → p.active m = some c → b.id = c.id → n = m) ∧
    (∀ id b, p.byID id = some b → b.archived = false → p.active b.name = some b) ∧
    (∀ id b n c, p.byID id = some b → b.archived = true → p.active n = some c → c.id ≠ id) ∧
    (∀ id b, p.byID id = some b → b.id = id) ∧
    ∀ n id, p.released n = some id → ∃ e ∈ l, e.GivesUp n ∧ e.id = id := by
  obtain ⟨out, horder, hrun⟩ := projectContextBranches_eq_ok.1 h
  have hp : p.Coherent := Replay.run_invariant
    (fun _ _ _ hs hstep => ContextBranchProjection.Coherent.apply hs hstep)
    ContextBranchProjection.coherent_empty hrun
  refine ⟨hp.listed, fun n m b c hb hc hid => ?_, hp.live, fun id b n c hb ha hc hid => ?_,
    hp.keyed, fun n id hn => ?_⟩
  · obtain ⟨hn, -, hbyID⟩ := hp.listed n b hb
    obtain ⟨hm, -, hbyID'⟩ := hp.listed m c hc
    rw [hid, hbyID', Option.some.injEq] at hbyID
    rw [← hn, ← hm, hbyID]
  · obtain ⟨-, hlive, hbyID⟩ := hp.listed n c hc
    rw [hid, hb, Option.some.injEq] at hbyID
    rw [← hbyID, ha] at hlive
    cases hlive
  · obtain ⟨e, he, hbears, rfl, hid⟩ := released_of_run hrun hn
    have hmem := ((enumerates_of_order horder).mem e).1 he
    exact ⟨e, List.mem_of_mem_filter hmem,
      givesUp_of_not_bears (by simpa using List.of_mem_filter hmem) hbears, hid⟩

/-- A digest for examples. -/
def zeroDigest : Digest where
  hash _ := "00000000000000000000000000000000"
  hex _ := by decide +kernel

/-- A branch that is born as `a`, renamed to `b`, and a new branch `a`. -/
def renamedHistory : List HistoryEvent :=
  [{ id := "1", repoID := "r", branchID := "x", branch := "a", kind := .birth, createdAt := 1 },
   { id := "2", repoID := "r", branchID := "x", branch := "b", kind := .rename
     previousBranch := "a", bindingParent := "1", createdAt := 2 },
   { id := "3", repoID := "r", branchID := "y", branch := "a", kind := .birth
     bindingParent := "2", createdAt := 3 }]

/-- A branch that was renamed gave up its old name. -/
theorem project_coherent_renamed :
    ∃ p, projectContextBranches zeroDigest renamedHistory = .ok p ∧
      ∀ n id, p.released n = some id → ∃ e ∈ renamedHistory, e.GivesUp n ∧ e.id = id := by
  obtain ⟨p, hp⟩ := exists_of_isOk
    (show (projectContextBranches zeroDigest renamedHistory).isOk = true by decide +kernel)
  exact ⟨p, hp, (project_coherent hp).2.2.2.2.2⟩

/-! ### Other clocks -/

/-- The event with another time. -/
def HistoryEvent.reclock (clock : HistoryEvent → ℕ) (e : HistoryEvent) : HistoryEvent :=
  { e with createdAt := clock e }

variable {clock : HistoryEvent → ℕ}

/-- Causal order does not look at the clocks. -/
theorem causal_reclock {done : List String} :
    Causal HistoryEvent.id historyDependencies done (l.map (HistoryEvent.reclock clock)) ↔
      Causal HistoryEvent.id historyDependencies done l := by
  induction l generalizing done with
  | nil => exact Iff.rfl
  | cons e l ih => exact and_congr_right fun _ => ih

/-- Nor does enumeration. -/
theorem Enumerates.reclock (h : Enumerates l out) :
    Enumerates (l.map (HistoryEvent.reclock clock)) (out.map (HistoryEvent.reclock clock)) where
  mem e := by simp [h.mem]
  nodup := by
    rw [List.map_map]
    exact h.nodup
  causal := causal_reclock.2 h.causal

/-- Nor does the replay. -/
theorem run_reclock :
    Replay.run (fun p e => p.apply d e) p (l.map (HistoryEvent.reclock clock)) =
      Replay.run (fun p e => p.apply d e) p l := by
  induction l generalizing p with
  | nil => rfl
  | cons e l ih => exact congrArg (p.apply d e >>= ·) (funext fun _ => ih)

/-- **The projection depends only on the set of events, and not on their clocks.** -/
theorem project_of_events (d : Digest) :
    (∀ l l' : List HistoryEvent, (∀ e, e ∈ l ↔ e ∈ l') →
      ∀ p, projectContextBranches d l = .ok p ↔ projectContextBranches d l' = .ok p) ∧
    ∀ (l : List HistoryEvent) (clock : HistoryEvent → ℕ),
      (∀ e ∈ l, isBranchBindingEvent e = true → e.id ≠ "") →
      ∀ p, projectContextBranches d l = .ok p →
        projectContextBranches d (l.map (HistoryEvent.reclock clock)) = .ok p := by
  refine ⟨fun l l' hmem p => projectContextBranches_of_mem hmem, fun l clock hids p h => ?_⟩
  obtain ⟨out, horder, hrun⟩ := projectContextBranches_eq_ok.1 h
  have hout := enumerates_of_order horder
  have hclocked := @Enumerates.reclock _ _ clock hout
  obtain ⟨out', horder'⟩ := exists_orderHistoryEvents hclocked
  have hout' := enumerates_of_order horder'
  have hperm : (out.map (HistoryEvent.reclock clock)).Perm out' :=
    (List.perm_ext_iff_of_nodup hclocked.nodup.of_map hout'.nodup.of_map).2 fun e =>
      (hclocked.mem e).trans (hout'.mem e).symm
  have hnonempty : ∀ e ∈ out.map (HistoryEvent.reclock clock), e.id ≠ "" := by
    intro e he
    obtain ⟨f, hf, rfl⟩ := List.mem_map.1 he
    have hmem := (hout.mem f).1 hf
    exact hids f (List.mem_of_mem_filter hmem) (by simpa using List.of_mem_filter hmem)
  have hfilter : (l.map (HistoryEvent.reclock clock)).filter isBranchBindingEvent =
      (l.filter isBranchBindingEvent).map (HistoryEvent.reclock clock) := by
    rw [List.filter_map]
    rfl
  refine projectContextBranches_eq_ok.2 ⟨out', hfilter ▸ horder', ?_⟩
  exact Replay.run_perm (fun _ _ _ hs hstep => ContextBranchProjection.Coherent.apply hs hstep)
    (ContextBranchProjection.diamond d) ContextBranchProjection.coherent_empty hnonempty
    hclocked.causal hout'.causal hperm hclocked.nodup (fun _ _ hmem => (by cases hmem))
    (run_reclock.trans hrun)

/-- The same projection with the clocks run backwards. -/
theorem project_of_events_renamed :
    ∃ p, projectContextBranches zeroDigest renamedHistory = .ok p ∧
      projectContextBranches zeroDigest
        (renamedHistory.map (HistoryEvent.reclock fun e => 10 - e.createdAt)) = .ok p := by
  obtain ⟨p, hp⟩ := exists_of_isOk
    (show (projectContextBranches zeroDigest renamedHistory).isOk = true by decide +kernel)
  exact ⟨p, hp, (project_of_events zeroDigest).2 renamedHistory _ (by decide +kernel) p hp⟩

/-- A birth without an id, and a rename of its branch: no dependency orders them. -/
def unnamedHistory : List HistoryEvent :=
  [{ id := "", repoID := "r", branchID := "x", branch := "a", kind := .birth, createdAt := 1 },
   { id := "2", repoID := "r", branchID := "x", branch := "b", kind := .rename
     previousBranch := "a", createdAt := 2 }]

/-- **Without ids the clocks decide**: the history is accepted, and refused when the clocks of
its two events change places. -/
theorem project_unnamed_reclock :
    (∃ p, projectContextBranches zeroDigest unnamedHistory = .ok p) ∧
      ∀ p, projectContextBranches zeroDigest
        (unnamedHistory.map (HistoryEvent.reclock fun e => 3 - e.createdAt)) ≠ .ok p := by
  refine ⟨exists_of_isOk (by decide +kernel), fun p hp => ?_⟩
  have hrefused : (projectContextBranches zeroDigest
      (unnamedHistory.map (HistoryEvent.reclock fun e => 3 - e.createdAt))).isOk = false := by
    decide +kernel
  rw [hp] at hrefused
  cases hrefused

end Projection

end Cli
end CxtHub
