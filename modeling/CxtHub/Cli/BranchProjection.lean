/-
# The projection of context branches

What `ProjectContextBranches` of `domain/context_branch.go` (the server and the client
have the same file) makes of a history.

`Coherent` is the invariant of the three maps: `apply` keeps it, so every projection
has it.

An event reads and writes the maps only at its identity and at its two names
(`apply_local`).  Two events that are applied one after the other, neither depending on
the other, have different identities and names (`disjoint_of_independent`), so they
commute.  The projection therefore does not depend on the clocks that order
independent events.
-/

import CxtHub.Cli.History
import CxtHub.Lib.Replay

namespace CxtHub
namespace Cli

/-- The name that a rename or an archive gives up. -/
def HistoryEvent.oldName (e : HistoryEvent) : String :=
  if e.kind = .rename then e.previousBranch else e.branch

/-- A birth or an orphan. -/
def HistoryEvent.Bears (e : HistoryEvent) : Prop := e.kind = .birth ∨ e.kind = .orphan

namespace ContextBranchProjection

variable {p p' q : ContextBranchProjection} {d : Digest} {e f : HistoryEvent} {b : ContextBranch}
  {n : String}

/-! ### What `apply` does -/

/-- The projection after a birth. -/
def born (p : ContextBranchProjection) (e : HistoryEvent) : ContextBranchProjection :=
  let b : ContextBranch := { id := e.branchID, name := e.branch, eventID := e.id }
  { p with active := Function.update p.active e.branch (some b)
           byID := Function.update p.byID e.branchID (some b) }

/-- When a birth is applied: the name and identity are free. -/
theorem apply_born (he : e.Bears) :
    p.apply d e = .ok q ↔ (p.byID e.branchID = none ∧ p.active e.branch = none ∧
      p.releasedBy e.branch = e.bindingParent) ∧ q = p.born e := by
  rw [apply, if_pos (show e.kind = .birth ∨ e.kind = .orphan from he), bear]
  simp only [bind_eq_ok, exists_unit_iff, refuse_eq_ok, not_or, Bool.not_eq_true,
    Option.isSome_eq_false_iff, Option.isNone_iff_eq_none, not_not,
    Except.ok.injEq, born, @eq_comm _ q]

/-- The branch after a rename or an archive. -/
def moved (e : HistoryEvent) (b : ContextBranch) : ContextBranch :=
  { b with eventID := e.id, archived := decide (e.kind = .archive)
           name := if e.kind = .archive then b.name else e.branch }

/-- The projection after a rename or an archive. -/
def move (p : ContextBranchProjection) (e : HistoryEvent) (b : ContextBranch) :
    ContextBranchProjection :=
  let cleared := Function.update p.active e.oldName none
  { active := if e.kind = .archive then cleared
      else Function.update cleared e.branch (some (moved e b))
    byID := Function.update p.byID b.id (some (moved e b))
    released := Function.update p.released e.oldName (some e.id) }

/-- The branch that a rename or an archive finds: a known one, or a legacy one that no event
mentioned before. -/
structure Finds (p : ContextBranchProjection) (d : Digest) (e : HistoryEvent)
    (b : ContextBranch) : Prop where
  found : p.byID e.branchID = some b ∨ p.byID e.branchID = none ∧ e.bindingParent = "" ∧
    p.releasedBy e.oldName = "" ∧ e.branchID = legacyContextBranchID d e.repoID e.oldName ∧
    (∀ c, p.active e.oldName = some c → c.id = e.branchID) ∧
    b = { id := e.branchID, name := e.oldName }
  archived : b.archived = false
  parent : b.eventID = e.bindingParent
  name : b.name = e.oldName
  target : e.kind = .rename → p.active e.branch = none ∧ p.releasedBy e.branch = e.nameParent

/-- The branch that an event is about, recorded or of an earlier format. -/
theorem known_eq_ok {old : String} :
    p.known d e old = .ok b ↔ p.byID e.branchID = some b ∨ p.byID e.branchID = none ∧
      e.bindingParent = "" ∧ p.releasedBy old = "" ∧
      e.branchID = legacyContextBranchID d e.repoID old ∧
      (∀ c, p.active old = some c → c.id = e.branchID) ∧
      b = { id := e.branchID, name := old } := by
  unfold known
  cases p.byID e.branchID with
  | some c => simp
  | none =>
      simp only [bind_eq_ok, exists_unit_iff, refuse_eq_ok, not_or, not_not, Except.ok.injEq,
        @eq_comm _ _ b, reduceCtorEq, false_or, true_and, and_assoc]
      refine and_congr_right fun _ => and_congr_right fun _ => and_congr_right fun _ =>
        and_congr_left fun _ => ?_
      cases p.active old <;> simp

/-- When any other binding event is applied. -/
theorem apply_moved (he : ¬ e.Bears) :
    p.apply d e = .ok q ↔ ∃ b, p.Finds d e b ∧ q = p.move e b := by
  rw [apply, if_neg (show ¬ (e.kind = .birth ∨ e.kind = .orphan) from he)]
  simp only [bind_eq_ok, exists_unit_iff, refuse_eq_ok, Except.ok.injEq]
  refine exists_congr fun b => ?_
  rw [known_eq_ok]
  constructor
  · rintro ⟨hfound, hb, htarget, rfl⟩
    rw [not_or, not_or, Bool.not_eq_true, not_not, not_not] at hb
    refine ⟨⟨hfound, hb.1, hb.2.1, hb.2.2, fun hkind => ?_⟩, ?_⟩
    · simpa [hkind] using htarget
    · simp only [move, moved, HistoryEvent.oldName, decide_eq_true_eq]
      split_ifs <;> rfl
  · rintro ⟨⟨hfound, harchived, hparent, hname, htarget⟩, rfl⟩
    refine ⟨hfound, ?_, ?_, ?_⟩
    · simp [harchived, hparent, hname, HistoryEvent.oldName]
    · rintro ⟨hkind, hor⟩
      obtain ⟨hactive, hreleased⟩ := htarget hkind
      simp [hactive, hreleased] at hor
    · simp only [move, moved, HistoryEvent.oldName, decide_eq_true_eq]
      split_ifs <;> rfl

/-! ### The invariant -/

/-- The three maps fit together. -/
structure Coherent (p : ContextBranchProjection) : Prop where
  keyed : ∀ id b, p.byID id = some b → b.id = id
  listed : ∀ n b, p.active n = some b → b.name = n ∧ b.archived = false ∧ p.byID b.id = some b
  live : ∀ id b, p.byID id = some b → b.archived = false → p.active b.name = some b

/-- The empty projection is coherent. -/
theorem coherent_empty : Coherent {} :=
  ⟨fun _ _ h => (by cases h), fun _ _ h => (by cases h), fun _ _ h => (by cases h)⟩

/-- A birth keeps the projection coherent. -/
theorem Coherent.born (hp : p.Coherent) (hid : p.byID e.branchID = none)
    (hname : p.active e.branch = none) : (p.born e).Coherent where
  keyed id b hb := by
    simp only [ContextBranchProjection.born, Function.update_apply] at hb
    split_ifs at hb with h
    · cases hb
      exact h.symm
    · exact hp.keyed id b hb
  listed n b hb := by
    simp only [ContextBranchProjection.born, Function.update_apply] at hb ⊢
    split_ifs at hb with h
    · cases hb
      exact ⟨h.symm, rfl, if_pos rfl⟩
    · obtain ⟨hn, ha, hb⟩ := hp.listed n b hb
      refine ⟨hn, ha, ?_⟩
      rw [if_neg, hb]
      intro heq
      rw [heq, hid] at hb
      cases hb
  live id b hb ha := by
    simp only [ContextBranchProjection.born, Function.update_apply] at hb ⊢
    split_ifs at hb with h
    · cases hb
      exact if_pos rfl
    · have hactive := hp.live id b hb ha
      rw [if_neg, hactive]
      intro heq
      rw [heq, hname] at hactive
      cases hactive

section Move

variable (hp : p.Coherent) (hb : p.Finds d e b)

include hp hb

/-- What is found has the identity of the event. -/
theorem Finds.id : b.id = e.branchID := by
  rcases hb.found with hfound | ⟨-, -, -, -, -, rfl⟩
  · exact hp.keyed _ b hfound
  · rfl

/-- Only the branch that is found can stand under the name that is given up. -/
theorem Finds.active_old {c : ContextBranch} (hc : p.active e.oldName = some c) : c = b := by
  rcases hb.found with hfound | ⟨hnone, -, -, -, hactive, -⟩
  · have hlive := hp.live _ b hfound hb.archived
    rw [hb.name, hc, Option.some.injEq] at hlive
    exact hlive
  · have hknown := (hp.listed _ c hc).2.2
    rw [hactive c hc, hnone] at hknown
    cases hknown

/-- The branch that is found stands under no other name. -/
theorem Finds.old_of_active {c : ContextBranch} (hc : p.active n = some c)
    (hid : c.id = e.branchID) : n = e.oldName := by
  obtain ⟨hn, -, hknown⟩ := hp.listed n c hc
  rw [hid] at hknown
  rcases hb.found with hfound | ⟨hnone, -⟩
  · rw [hfound, Option.some.injEq] at hknown
    rw [← hn, ← hknown, hb.name]
  · rw [hnone] at hknown
    cases hknown

/-- So does a move. -/
theorem Coherent.move : (p.move e b).Coherent where
  keyed id c hc := by
    simp only [ContextBranchProjection.move, Function.update_apply] at hc
    split_ifs at hc with h
    · cases hc
      exact h.symm
    · exact hp.keyed id c hc
  listed n c hc := by
    have hother : (p.active n = some c → n ≠ e.oldName → c.name = n ∧ c.archived = false ∧
        (p.move e b).byID c.id = some c) := by
      intro hc hn
      obtain ⟨hname, ha, hknown⟩ := hp.listed n c hc
      refine ⟨hname, ha, ?_⟩
      simp only [ContextBranchProjection.move, Function.update_apply]
      rw [if_neg, hknown]
      intro hid
      exact hn (hb.old_of_active hp hc (hid.trans (hb.id hp)))
    simp only [ContextBranchProjection.move] at hc
    split_ifs at hc with hkind
    · rw [Function.update_apply] at hc
      split_ifs at hc with hn
      exact hother hc hn
    · rw [Function.update_apply, Function.update_apply] at hc
      split_ifs at hc with hn hn'
      · cases hc
        refine ⟨?_, ?_, ?_⟩
        · simp [moved, hkind, hn]
        · simp [moved, hkind]
        · exact Function.update_self ..
      · exact hother hc hn'
  live id c hc ha := by
    simp only [ContextBranchProjection.move, Function.update_apply] at hc
    split_ifs at hc with hid
    · cases hc
      have hkind : e.kind ≠ .archive := by simpa [moved] using ha
      simp [ContextBranchProjection.move, hkind, moved]
    · have hactive := hp.live id c hc ha
      have hold : c.name ≠ e.oldName := by
        intro hname
        rw [hname] at hactive
        exact hid ((hp.keyed id c hc).symm.trans (congrArg _ (hb.active_old hp hactive)))
      simp only [ContextBranchProjection.move]
      split_ifs with hkind
      · rw [Function.update_of_ne hold, hactive]
      · rw [Function.update_of_ne, Function.update_of_ne hold, hactive]
        intro hname
        by_cases hrename : e.kind = .rename
        · rw [hname, (hb.target hrename).1] at hactive
          cases hactive
        · exact hold (by rw [hname, HistoryEvent.oldName, if_neg hrename])

end Move

/-- **Each event keeps the projection coherent.** -/
theorem Coherent.apply (hp : p.Coherent) (h : p.apply d e = .ok q) : q.Coherent := by
  by_cases he : e.Bears
  · obtain ⟨⟨hid, hname, -⟩, rfl⟩ := (apply_born he).1 h
    exact hp.born hid hname
  · obtain ⟨b, hb, rfl⟩ := (apply_moved he).1 h
    exact hp.move hb

/-! ### Footprints -/

/-- The names that an event reads and writes. -/
def names (e : HistoryEvent) : List String := [e.oldName, e.branch]

/-- Two projections agree where an event reads and writes. -/
structure Agree (e : HistoryEvent) (p q : ContextBranchProjection) : Prop where
  byID : q.byID e.branchID = p.byID e.branchID
  active : ∀ n ∈ names e, q.active n = p.active n
  released : ∀ n ∈ names e, q.released n = p.released n

/-- Two projections agree everywhere else. -/
structure Frame (e : HistoryEvent) (p q : ContextBranchProjection) : Prop where
  byID : ∀ id, id ≠ e.branchID → q.byID id = p.byID id
  active : ∀ n, n ∉ names e → q.active n = p.active n
  released : ∀ n, n ∉ names e → q.released n = p.released n

/-- A birth changes its own identity and name only. -/
theorem frame_born : Frame e p (p.born e) where
  byID _ h := Function.update_of_ne h _ _
  active _ h := Function.update_of_ne (fun heq => h (by simp [names, heq])) _ _
  released _ _ := rfl

/-- So does a move. -/
theorem frame_move (hid : b.id = e.branchID) : Frame e p (p.move e b) where
  byID _ h := Function.update_of_ne (hid ▸ h) _ _
  active n h := by
    have hold : n ≠ e.oldName := fun heq => h (by simp [names, heq])
    have hnew : n ≠ e.branch := fun heq => h (by simp [names, heq])
    simp only [move]
    split_ifs
    · rw [Function.update_of_ne hold]
    · rw [Function.update_of_ne hnew, Function.update_of_ne hold]
  released n h := Function.update_of_ne (fun heq => h (by simp [names, heq])) _ _

/-- **An event reads and writes only at its footprint.** -/
theorem apply_local (hp : p.Coherent) (h : p.apply d e = .ok q) (hagree : Agree e p p') :
    ∃ q', p'.apply d e = .ok q' ∧ Agree e q q' ∧ Frame e p' q' := by
  have hbranch : e.branch ∈ names e := by simp [names]
  have hold : e.oldName ∈ names e := by simp [names]
  have hreleased : ∀ n ∈ names e, p'.releasedBy n = p.releasedBy n := fun n hn => by
    rw [releasedBy, releasedBy, hagree.released n hn]
  by_cases he : e.Bears
  · obtain ⟨⟨hid, hname, hrel⟩, rfl⟩ := (apply_born he).1 h
    refine ⟨p'.born e, (apply_born he).2 ⟨⟨?_, ?_, ?_⟩, rfl⟩, ⟨?_, ?_, hagree.released⟩, frame_born⟩
    · rw [hagree.byID, hid]
    · rw [hagree.active _ hbranch, hname]
    · rw [hreleased _ hbranch, hrel]
    · simp [born]
    · intro n hn
      simp only [born, Function.update_apply, hagree.active n hn]
  · obtain ⟨b, hb, rfl⟩ := (apply_moved he).1 h
    have hid := hb.id hp
    refine ⟨p'.move e b, (apply_moved he).2 ⟨b, ⟨?_, hb.archived, hb.parent, hb.name, ?_⟩, rfl⟩,
      ⟨?_, ?_, ?_⟩, frame_move hid⟩
    · rw [hagree.byID, hreleased _ hold, hagree.active _ hold]
      exact hb.found
    · rw [hreleased _ hbranch, hagree.active _ hbranch]
      exact hb.target
    · simp [move, hid]
    · intro n hn
      simp only [move]
      split_ifs <;> simp only [Function.update_apply, hagree.active n hn]
    · intro n hn
      simp only [move, Function.update_apply, hagree.released n hn]

/-- **Each event changes its own identity and names only.** -/
theorem frame_apply (hp : p.Coherent) (h : p.apply d e = .ok q) : Frame e p q := by
  by_cases he : e.Bears
  · obtain ⟨-, rfl⟩ := (apply_born he).1 h
    exact frame_born
  · obtain ⟨b, hb, rfl⟩ := (apply_moved he).1 h
    exact frame_move (hb.id hp)

/-! ### Independent events -/

/-- What an event finds at its names: nothing, in a state that it depends on, or its branch. -/
theorem reads (hp : p.Coherent) (h : p.apply d e = .ok q) (hn : n ∈ names e) :
    (∃ b, p.active n = some b ∧ b.id = e.branchID) ∨ p.active n = none ∧
      (p.releasedBy n = "" ∨ p.releasedBy n = e.bindingParent ∨ p.releasedBy n = e.nameParent) := by
  by_cases he : e.Bears
  · have hold : e.oldName = e.branch := by
      rw [HistoryEvent.oldName, if_neg]
      rcases he with he | he <;> simp [he]
    obtain ⟨⟨-, hname, hrel⟩, -⟩ := (apply_born he).1 h
    have hn : n = e.branch := by simpa [names, hold] using hn
    exact .inr ⟨hn ▸ hname, .inr (.inl (hn ▸ hrel))⟩
  · obtain ⟨b, hb, -⟩ := (apply_moved he).1 h
    by_cases hold : n = e.oldName
    · rcases hb.found with hfound | ⟨-, -, hrel, -, hactive, -⟩
      · refine .inl ⟨b, ?_, hb.id hp⟩
        rw [hold, ← hb.name]
        exact hp.live _ b hfound hb.archived
      · cases hc : p.active n with
        | none => exact .inr ⟨rfl, .inl (hold ▸ hrel)⟩
        | some c => exact .inl ⟨c, rfl, hactive c (hold ▸ hc)⟩
    · have hn : n = e.branch := by
        simp only [names, List.mem_cons, hold, List.not_mem_nil, or_false, false_or] at hn
        exact hn
      have hrename : e.kind = .rename := by
        by_contra hne
        exact hold (by rw [hn, HistoryEvent.oldName, if_neg hne])
      obtain ⟨hactive, hrel⟩ := hb.target hrename
      exact .inr ⟨hn ▸ hactive, .inr (.inr (hn ▸ hrel))⟩

/-- What an event leaves at its names: its branch, or its mark on a name that was given up. -/
theorem writes (hp : p.Coherent) (h : p.apply d e = .ok q) (hn : n ∈ names e) :
    (∃ b, q.active n = some b ∧ b.id = e.branchID) ∨ q.active n = none ∧ q.releasedBy n = e.id := by
  simp only [names, List.mem_cons, List.not_mem_nil, or_false] at hn
  by_cases he : e.Bears
  · have hold : e.oldName = e.branch := by
      rw [HistoryEvent.oldName, if_neg]
      rcases he with he | he <;> simp [he]
    obtain ⟨-, rfl⟩ := (apply_born he).1 h
    rw [hold, or_self] at hn
    refine .inl ⟨{ id := e.branchID, name := e.branch, eventID := e.id }, ?_, rfl⟩
    rw [hn]
    exact Function.update_self ..
  · obtain ⟨b, hb, rfl⟩ := (apply_moved he).1 h
    by_cases harchive : e.kind = .archive
    · have hold : n = e.oldName := by
        rw [HistoryEvent.oldName, if_neg (by simp [harchive])] at *
        exact hn.elim id id
      refine .inr ⟨?_, ?_⟩ <;> simp [move, releasedBy, harchive, hold]
    · by_cases hnew : n = e.branch
      · refine .inl ⟨moved e b, ?_, ?_⟩
        · simp [move, hnew, harchive]
        · exact (hb.id hp : b.id = e.branchID)
      · have hold : n = e.oldName := hn.resolve_right hnew
        refine .inr ⟨?_, ?_⟩
        · rw [hold] at hnew
          simp [move, harchive, hnew, hold]
        · simp [move, releasedBy, hold]

/-- After an event, its branch is marked with the event. -/
theorem marks (hp : p.Coherent) (h : p.apply d e = .ok q) :
    ∃ b, q.byID e.branchID = some b ∧ b.eventID = e.id := by
  by_cases he : e.Bears
  · obtain ⟨-, rfl⟩ := (apply_born he).1 h
    exact ⟨_, Function.update_self .., rfl⟩
  · obtain ⟨b, hb, rfl⟩ := (apply_moved he).1 h
    refine ⟨moved e b, ?_, rfl⟩
    simp [move, hb.id hp]

/-- The parents of a binding are dependencies. -/
theorem mem_historyDependencies {parent : String} (hne : parent ≠ "")
    (h : parent = e.bindingParent ∨ parent = e.nameParent) : parent ∈ historyDependencies e := by
  rw [historyDependencies, mem_freshFrom]
  rcases h with rfl | rfl <;> simp [hne]

/-- **Independent neighbours have different identities and names.** -/
theorem disjoint_of_independent (hp : p.Coherent) (hq : q.Coherent) {r : ContextBranchProjection}
    (he : p.apply d e = .ok q) (hf : q.apply d f = .ok r) (hid : e.id ≠ "")
    (hind : e.id ∉ historyDependencies f) :
    e.branchID ≠ f.branchID ∧ ∀ n ∈ names e, n ∉ names f := by
  have hne : e.branchID ≠ f.branchID := by
    intro heq
    obtain ⟨b, hb, hmark⟩ := marks hp he
    rw [heq] at hb
    by_cases hbears : f.Bears
    · rw [((apply_born hbears).1 hf).1.1] at hb
      cases hb
    · obtain ⟨c, hc, -⟩ := (apply_moved hbears).1 hf
      rcases hc.found with hfound | ⟨hnone, -⟩
      · rw [hfound, Option.some.injEq] at hb
        exact hind (mem_historyDependencies hid (.inl (by rw [← hmark, ← hb, hc.parent])))
      · rw [hnone] at hb
        cases hb
  refine ⟨hne, fun n hn hn' => ?_⟩
  rcases writes hp he hn with ⟨b, hb, hbid⟩ | ⟨hnone, hmark⟩
  · rcases reads hq hf hn' with ⟨c, hc, hcid⟩ | ⟨hnone, -⟩
    · rw [hb, Option.some.injEq] at hc
      exact hne (by rw [← hbid, ← hcid, hc])
    · rw [hb] at hnone
      cases hnone
  · rcases reads hq hf hn' with ⟨c, hc, -⟩ | ⟨-, hrel⟩
    · rw [hnone] at hc
      cases hc
    · rw [hmark] at hrel
      exact hrel.elim hid fun hparent => hind (mem_historyDependencies hid hparent)

theorem ext_of (hbyID : ∀ id, p.byID id = q.byID id) (hactive : ∀ n, p.active n = q.active n)
    (hreleased : ∀ n, p.released n = q.released n) : p = q := by
  cases p
  congr
  · exact funext hactive
  · exact funext hbyID
  · exact funext hreleased

/-- **Independent neighbours commute.** -/
theorem diamond (d : Digest) :
    Replay.Diamond (fun p e => p.apply d e) Coherent HistoryEvent.id historyDependencies
      fun e => e.id ≠ "" := by
  intro s e f t u hs he _ hind hse htf
  have ht := hs.apply hse
  obtain ⟨hid, hnames⟩ := disjoint_of_independent hs ht hse htf he hind.1
  have hframe := frame_apply hs hse
  have hframe' := frame_apply ht htf
  have hagree : Agree f t s :=
    ⟨(hframe.byID _ hid.symm).symm,
      fun n hn => (hframe.active n fun hn' => hnames n hn' hn).symm,
      fun n hn => (hframe.released n fun hn' => hnames n hn' hn).symm⟩
  obtain ⟨t', hsf, hagree', hframe''⟩ := apply_local ht htf hagree
  have hback : Agree e s t' :=
    ⟨hframe''.byID _ hid, fun n hn => hframe''.active n (hnames n hn),
      fun n hn => hframe''.released n (hnames n hn)⟩
  obtain ⟨u', hte, hagree'', hframe₃⟩ := apply_local hs hse hback
  refine ⟨t', hsf, ?_⟩
  -- At each key one of the two events, or none, decides both ends.
  have heq : u' = u := by
    refine ext_of (fun id => ?_) (fun n => ?_) fun n => ?_
    · by_cases h : id = e.branchID
      · rw [h, hagree''.byID, hframe'.byID _ hid]
      · rw [hframe₃.byID id h]
        by_cases h' : id = f.branchID
        · rw [h', hagree'.byID]
        · rw [hframe''.byID id h', hframe'.byID id h', hframe.byID id h]
    · by_cases h : n ∈ names e
      · rw [hagree''.active n h, hframe'.active n (hnames n h)]
      · rw [hframe₃.active n h]
        by_cases h' : n ∈ names f
        · rw [hagree'.active n h']
        · rw [hframe''.active n h', hframe'.active n h', hframe.active n h]
    · by_cases h : n ∈ names e
      · rw [hagree''.released n h, hframe'.released n (hnames n h)]
      · rw [hframe₃.released n h]
        by_cases h' : n ∈ names f
        · rw [hagree'.released n h']
        · rw [hframe''.released n h', hframe'.released n h', hframe.released n h]
  rw [← heq]
  exact hte

end ContextBranchProjection
end Cli
end CxtHub
