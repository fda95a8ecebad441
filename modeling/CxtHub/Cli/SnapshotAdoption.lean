/-
# Adopting snapshot metadata

`PutSnapshot` of the local replica.  A snapshot that is already stored keeps its identity
and its natural parents; of the incoming record it adopts a first memory, a commit message
over a hook label, a graft register, and the branch of a commit over the stash label.

The graft register is a set of edges with a sequence number.  `IsRegister` says what a list
of incoming registers amounts to, whatever their order: the set of the largest number, or
the union of all when every number is zero.  It speaks of the edges to other snapshots than
the record itself and the natural parents that some incoming record has, since the first
record is stored as it comes and its natural parents decide what later calls leave out.
-/

import CxtHub.Cli.Records

namespace CxtHub
namespace Cli

open Backend (ContentHash digitHash)

/-- `StashBranchLabel`. -/
def stashBranchLabel : String := "(stash)"

/-- `HookMessagePrefix`. -/
def hookMessagePrefix : String := "hook: "

/-- `dedupGraft`. -/
def dedupGraft (id : ContentHash) (parents graft : List ContentHash) : List ContentHash :=
  freshFrom ("" :: id :: parents) graft

/-- A first memory is adopted; a second one is a conflict. -/
def Snapshot.adoptMemory (existing snap : Snapshot) : Except DomainError Snapshot :=
  if existing.memoryHash = "" ∧ snap.memoryHash ≠ "" then
    .ok { existing with memoryHash := snap.memoryHash }
  else if existing.memoryHash ≠ "" ∧ snap.memoryHash ≠ "" ∧
      existing.memoryHash ≠ snap.memoryHash then
    .error (bare .syncConflict)
  else .ok existing

/-- A commit message replaces a hook label. -/
def Snapshot.adoptMessage (existing snap : Snapshot) : Snapshot :=
  if hasPrefix existing.message hookMessagePrefix = true ∧ snap.message ≠ "" ∧
      hasPrefix snap.message hookMessagePrefix = false then
    { existing with message := snap.message }
  else existing

/-- The merge of the graft registers. -/
def Snapshot.adoptGraft (existing snap : Snapshot) : Snapshot :=
  let incoming := dedupGraft existing.id existing.parents snap.graftParents
  let incomingGrafted := !incoming.isEmpty || snap.grafted
  if existing.graftSeq < snap.graftSeq then
    { existing with graftParents := incoming, graftSeq := snap.graftSeq
                    grafted := incomingGrafted }
  else if snap.graftSeq = 0 ∧ existing.graftSeq = 0 ∧ snap.graftParents ≠ [] then
    { existing with
      graftParents := existing.graftParents ++
        freshFrom ("" :: existing.id :: (existing.graftParents ++ existing.parents))
          snap.graftParents
      grafted := existing.grafted || snap.grafted }
  else if 0 < snap.graftSeq ∧ snap.graftSeq = existing.graftSeq then
    if existing.graftParents ≠ incoming ∨ existing.grafted ≠ incomingGrafted then
      { existing with graftParents := incoming, grafted := incomingGrafted }
    else existing
  else existing

/-- A commit replaces the labels of a stash. -/
def Snapshot.promoteStash (existing snap : Snapshot) : Snapshot :=
  if existing.branch = stashBranchLabel ∧ snap.branch ≠ stashBranchLabel then
    { existing with branch := snap.branch, message := snap.message }
  else existing

/-- The rules after the memory, in their order. -/
def Snapshot.adopt (existing snap : Snapshot) : Snapshot :=
  ((existing.adoptMessage snap).adoptGraft snap).promoteStash snap

/-- `putSnapshotLocked`.  The flag `changed` is left out: it spares a write of the record that is
there. -/
def Store.putSnapshotLocked (st : Store) (snap : Snapshot) : Except DomainError Store :=
  match st.snapshots[snap.id]? with
  | none => .ok { st with snapshots := st.snapshots.insert snap.id snap }
  | some _ => do
      let existing ← st.getSnapshot snap.id
      refuse (existing.documentRef ≠ snap.documentRef) (bare .hashMismatch)
      let existing ← existing.adoptMemory snap
      .ok { st with snapshots := st.snapshots.insert snap.id (existing.adopt snap) }

/-- The check of `PutSnapshot` that a memory belongs to the snapshot. -/
def Objects.checkOwner (o : Objects) (snap : Snapshot) : Except DomainError Unit :=
  if snap.memoryHash ≠ "" then do
    let digest ← o.getMemory snap.memoryHash
    refuse (digest.snapshotID ≠ snap.id) (bare .hashMismatch)
  else .ok ()

/-- `PutSnapshot`. -/
def Store.putSnapshot (st : Store) (o : Objects) (snap : Snapshot) : Except DomainError Store := do
  validateSnapshotRefs snap
  o.checkOwner snap
  st.putSnapshotLocked snap

/-- A call of `PutSnapshot`, with the objects that are stored at that moment. -/
structure PutCall where
  objects : Objects
  snap : Snapshot

/-- Calls of `PutSnapshot`, one after the other. -/
def Store.putAll (st : Store) : List PutCall → Except DomainError Store
  | [] => .ok st
  | c :: calls => do
      let st ← st.putSnapshot c.objects c.snap
      st.putAll calls

variable {id : ContentHash} {parents : List ContentHash} {st st' : Store} {old : Snapshot}
  {calls : List PutCall}

/-! ### One call -/

section Step

variable {existing snap mem : Snapshot}

/-- Memory that is there is never replaced. -/
theorem adoptMemory_eq_ok (h : existing.adoptMemory snap = .ok mem) :
    ∃ m, mem = { existing with memoryHash := m } ∧
      (existing.memoryHash ≠ "" → m = existing.memoryHash) := by
  unfold Snapshot.adoptMemory at h
  split_ifs at h with hfirst hsame
  · obtain rfl := Except.ok.inj h
    exact ⟨_, rfl, fun hne => absurd hfirst.1 hne⟩
  · obtain rfl := Except.ok.inj h
    exact ⟨_, rfl, fun _ => rfl⟩

/-- What the label rules can change: the branch and the message. -/
theorem adoptMessage_eq (existing snap : Snapshot) : ∃ t,
    existing.adoptMessage snap = { existing with message := t } ∧
      (hasPrefix existing.message hookMessagePrefix = false → t = existing.message) := by
  unfold Snapshot.adoptMessage
  split_ifs with hhook
  · exact ⟨_, rfl, fun hnot => absurd hhook.1 (by simp [hnot])⟩
  · exact ⟨_, rfl, fun _ => rfl⟩

/-- Branch and message are replaced on a stash only. -/
theorem promoteStash_eq (existing snap : Snapshot) : ∃ b t,
    existing.promoteStash snap = { existing with branch := b, message := t } ∧
      (existing.branch ≠ stashBranchLabel → b = existing.branch ∧ t = existing.message) := by
  unfold Snapshot.promoteStash
  split_ifs with hstash
  · exact ⟨_, _, rfl, fun hne => absurd hstash.1 hne⟩
  · exact ⟨_, _, rfl, fun _ => ⟨rfl, rfl⟩⟩

/-- What the graft rule can do: take the incoming register, add its edges, or ignore it. -/
theorem adoptGraft_cases (existing snap : Snapshot) :
    ((existing.graftSeq < snap.graftSeq ∨ 0 < snap.graftSeq ∧ snap.graftSeq = existing.graftSeq) ∧
      ∃ flag, existing.adoptGraft snap = { existing with
        graftParents := dedupGraft existing.id existing.parents snap.graftParents
        graftSeq := snap.graftSeq
        grafted := flag }) ∨
    (snap.graftSeq = 0 ∧ existing.graftSeq = 0 ∧
      ∃ flag, existing.adoptGraft snap = { existing with
        graftParents := existing.graftParents ++
          freshFrom ("" :: existing.id :: (existing.graftParents ++ existing.parents))
            snap.graftParents
        grafted := flag }) ∨
    (snap.graftSeq < existing.graftSeq ∧ existing.adoptGraft snap = existing) := by
  unfold Snapshot.adoptGraft
  extract_lets incoming incomingGrafted
  by_cases hlt : existing.graftSeq < snap.graftSeq
  · rw [if_pos hlt]
    exact .inl ⟨.inl hlt, _, rfl⟩
  rw [if_neg hlt]
  by_cases hzero : snap.graftSeq = 0 ∧ existing.graftSeq = 0
  · refine .inr (.inl ⟨hzero.1, hzero.2, ?_⟩)
    by_cases hnil : snap.graftParents = []
    · rw [if_neg (by simp [hnil]), if_neg (by omega)]
      exact ⟨existing.grafted, by simp [hnil, freshFrom]⟩
    · rw [if_pos ⟨hzero.1, hzero.2, hnil⟩]
      exact ⟨_, rfl⟩
  rw [if_neg (by tauto)]
  by_cases heq : 0 < snap.graftSeq ∧ snap.graftSeq = existing.graftSeq
  · refine .inl ⟨.inr heq, incomingGrafted, ?_⟩
    split_ifs with hdiff
    · rw [heq.2]
    · simp only [ne_eq, not_or, not_not] at hdiff
      show existing = { existing with
        graftParents := incoming, graftSeq := snap.graftSeq, grafted := incomingGrafted }
      rw [← hdiff.1, ← hdiff.2, heq.2]
  · rw [if_neg heq]
    exact .inr (.inr ⟨by omega, rfl⟩)

/-- The sequence number is the larger one. -/
theorem graftSeq_adoptGraft : (existing.adoptGraft snap).graftSeq =
    max existing.graftSeq snap.graftSeq := by
  rcases adoptGraft_cases existing snap with
    ⟨hseq, flag, heq⟩ | ⟨hs, he, flag, heq⟩ | ⟨hseq, heq⟩ <;> rw [heq]
  · have hle : existing.graftSeq ≤ snap.graftSeq := by omega
    exact (max_eq_right hle).symm
  · rw [hs, he, max_self]
  · exact (max_eq_left hseq.le).symm

/-- The incoming edges that the graft rule takes. -/
theorem mem_dedupGraft {g : ContentHash} {graft : List ContentHash}
    (hempty : "" ∉ graft) (hid : g ≠ id) (hp : g ∉ parents) :
    g ∈ dedupGraft id parents graft ↔ g ∈ graft := by
  have hne : g ∈ graft → g ≠ "" := fun hg h => hempty (h ▸ hg)
  simp only [dedupGraft, mem_freshFrom, List.mem_cons, not_or]
  exact ⟨fun h => h.1, fun h => ⟨h, hne h, hid, hp⟩⟩

/-- A register without edges to the snapshot or its natural parents stays so. -/
theorem own_notMem_adoptGraft {g : ContentHash} (hg : g = existing.id ∨ g ∈ existing.parents)
    (h : g ∉ existing.graftParents) : g ∉ (existing.adoptGraft snap).graftParents := by
  rcases adoptGraft_cases existing snap with
    ⟨-, flag, heq⟩ | ⟨-, -, flag, heq⟩ | ⟨-, heq⟩ <;> rw [heq]
  · rcases hg with rfl | hg <;> simp [dedupGraft, *]
  · rcases hg with rfl | hg <;> simp [*]
  · exact h

/-- The graft rule invents no edge. -/
theorem mem_adoptGraft {g : ContentHash} (h : g ∈ (existing.adoptGraft snap).graftParents) :
    g ∈ existing.graftParents ∨ g ∈ snap.graftParents := by
  rcases adoptGraft_cases existing snap with
    ⟨-, flag, heq⟩ | ⟨-, -, flag, heq⟩ | ⟨-, heq⟩ <;> rw [heq] at h
  · exact .inr (mem_freshFrom.1 h).1
  · exact (List.mem_append.1 h).imp_right fun hmem => (mem_freshFrom.1 hmem).1
  · exact .inl h

/-- The graft rule reads neither the memory nor the message. -/
theorem adoptGraft_with (existing snap : Snapshot) (m : ContentHash) (t : String) :
    ({ existing with memoryHash := m, message := t } : Snapshot).adoptGraft snap =
      { existing.adoptGraft snap with memoryHash := m, message := t } := by
  unfold Snapshot.adoptGraft
  simp only
  split_ifs <;> rfl

/-- A merge keeps everything but the labels, the memory and the register. -/
theorem adopt_eq (h : existing.adoptMemory snap = .ok mem) : ∃ m b t,
    mem.adopt snap = { existing.adoptGraft snap with memoryHash := m, branch := b, message := t } ∧
      (existing.memoryHash ≠ "" → m = existing.memoryHash) ∧
      (existing.branch ≠ stashBranchLabel →
        hasPrefix existing.message hookMessagePrefix = false →
        b = existing.branch ∧ t = existing.message) := by
  obtain ⟨m, rfl, hm⟩ := adoptMemory_eq_ok h
  obtain ⟨t, ht, hkeep⟩ := adoptMessage_eq { existing with memoryHash := m } snap
  obtain ⟨b, t', hstash, hlabel⟩ :=
    promoteStash_eq { existing.adoptGraft snap with memoryHash := m, message := t } snap
  have hbranch : (existing.adoptGraft snap).branch = existing.branch := by
    rcases adoptGraft_cases existing snap with ⟨-, _, h⟩ | ⟨-, -, _, h⟩ | ⟨-, h⟩ <;> rw [h]
  refine ⟨m, b, t', ?_, hm, fun hb hh => ?_⟩
  · rw [Snapshot.adopt, ht]
    refine Eq.trans ?_ hstash
    exact congrArg (Snapshot.promoteStash · snap) (adoptGraft_with existing snap m t)
  · obtain ⟨rfl, rfl⟩ := hlabel (hbranch ▸ hb)
    exact ⟨hbranch, hkeep hh⟩

end Step

/-- What one call can do: store a new record as it comes, or merge it by the rules. -/
theorem putSnapshot_eq_ok {o : Objects} {snap : Snapshot}
    (h : st.putSnapshot o snap = .ok st') :
    "" ∉ snap.graftParents ∧
    ((st.snapshots[snap.id]? = none ∧
        st' = { st with snapshots := st.snapshots.insert snap.id snap }) ∨
      ∃ old mem, st.snapshots[snap.id]? = some old ∧ old.id = snap.id ∧
        old.adoptMemory snap = .ok mem ∧
        st' = { st with snapshots := st.snapshots.insert snap.id (mem.adopt snap) }) := by
  simp only [Store.putSnapshot, bind_eq_ok, exists_unit_iff] at h
  obtain ⟨hvalid, -, hput⟩ := h
  refine ⟨?_, ?_⟩
  · intro hmem
    have hgraft : ∀ g ∈ snap.graftParents, Backend.validContentHash g = true := by
      simp only [validateSnapshotRefs, bind_eq_ok, exists_unit_iff, checkAll_eq_ok,
        validateContentHash_eq_ok] at hvalid
      exact hvalid.2.2.2.2.2.1
    exact absurd (hgraft "" hmem) (by decide)
  · unfold Store.putSnapshotLocked at hput
    cases hold : st.snapshots[snap.id]? with
    | none =>
        simp only [hold, Except.ok.injEq] at hput
        exact .inl ⟨rfl, hput.symm⟩
    | some old =>
        simp only [hold, Store.getSnapshot, bind_eq_ok, exists_unit_iff, refuse_eq_ok,
          Except.ok.injEq, not_not] at hput
        obtain ⟨_, ⟨-, -, hid, rfl⟩, -, mem, hmem, rfl⟩ := hput
        exact .inr ⟨_, mem, rfl, hid, hmem, rfl⟩

/-! ### Whole runs -/

/-- What a record keeps when calls are made. -/
structure Kept (old new : Snapshot) : Prop where
  seq : old.graftSeq ≤ new.graftSeq
  memory : old.memoryHash ≠ "" → new.memoryHash = old.memoryHash
  labels : old.branch ≠ stashBranchLabel → hasPrefix old.message hookMessagePrefix = false →
    new.branch = old.branch ∧ new.message = old.message

theorem Kept.refl (old : Snapshot) : Kept old old := ⟨le_rfl, fun _ => rfl, fun _ _ => ⟨rfl, rfl⟩⟩

/-- Keeping is transitive. -/
theorem Kept.trans {a b c : Snapshot} (hab : Kept a b) (hbc : Kept b c) : Kept a c where
  seq := hab.seq.trans hbc.seq
  memory h := by
    have hb := hab.memory h
    rw [hbc.memory (hb ▸ h), hb]
  labels hbranch hmessage := by
    obtain ⟨hb, hm⟩ := hab.labels hbranch hmessage
    rw [← hb, ← hm]
    exact hbc.labels (hb ▸ hbranch) (hm ▸ hmessage)

/-- The record that a call leaves for a stored one. -/
theorem putSnapshot_stored {o : Objects} {snap : Snapshot}
    (h : st.putSnapshot o snap = .ok st') (hold : st.snapshots[snap.id]? = some old) :
    ∃ new, st'.snapshots[snap.id]? = some new ∧ Kept old new ∧
      new.id = old.id ∧ new.parents = old.parents ∧
      new.graftSeq = max old.graftSeq snap.graftSeq ∧
      new.graftParents = (old.adoptGraft snap).graftParents := by
  obtain ⟨-, ⟨hnone, -⟩ | ⟨old', mem, hsome, -, hmem, rfl⟩⟩ := putSnapshot_eq_ok h
  · rw [hold] at hnone
    cases hnone
  obtain rfl := Option.some.inj (hold.symm.trans hsome)
  refine ⟨mem.adopt snap, by simp, ?_⟩
  obtain ⟨m, b, t, heq, hm, hlabel⟩ := adopt_eq hmem
  have hsame : (old.adoptGraft snap).id = old.id ∧ (old.adoptGraft snap).parents = old.parents := by
    rcases adoptGraft_cases old snap with ⟨-, _, h⟩ | ⟨-, -, _, h⟩ | ⟨-, h⟩ <;> rw [h] <;>
      exact ⟨rfl, rfl⟩
  rw [heq]
  exact ⟨⟨(le_max_left _ _).trans graftSeq_adoptGraft.ge, hm, hlabel⟩, hsame.1, hsame.2,
    graftSeq_adoptGraft, rfl⟩

/-- One adoption keeps what has to be kept. -/
theorem putSnapshot_kept {o : Objects} {snap : Snapshot}
    (h : st.putSnapshot o snap = .ok st') (hold : st.snapshots[id]? = some old) :
    ∃ new, st'.snapshots[id]? = some new ∧ Kept old new := by
  by_cases hid : snap.id = id
  · subst hid
    obtain ⟨new, hnew, hkept, -⟩ := putSnapshot_stored h hold
    exact ⟨new, hnew, hkept⟩
  · -- A call for another snapshot writes another file.
    refine ⟨old, ?_, Kept.refl old⟩
    obtain ⟨-, ⟨-, rfl⟩ | ⟨_, _, -, -, -, rfl⟩⟩ := putSnapshot_eq_ok h <;>
      simp [Std.ExtTreeMap.getElem?_insert, hid, hold]

/-- By induction over the adoptions. -/
theorem putAll_kept
    (h : st.putAll calls = .ok st') (hold : st.snapshots[id]? = some old) :
    ∃ new, st'.snapshots[id]? = some new ∧ Kept old new := by
  induction calls generalizing st old with
  | nil =>
      obtain rfl := Except.ok.inj h
      exact ⟨old, hold, Kept.refl old⟩
  | cons c calls ih =>
      obtain ⟨mid, hput, hrest⟩ := bind_eq_ok.1 h
      obtain ⟨r, hr, hkept⟩ := putSnapshot_kept hput hold
      obtain ⟨new, hnew, hkept'⟩ := ih hrest hr
      exact ⟨new, hnew, hkept.trans hkept'⟩

/-- One set of edges for each positive sequence number. -/
def OneSetPerSeq (snaps : List Snapshot) : Prop :=
  ∀ a ∈ snaps, ∀ b ∈ snaps, 0 < a.graftSeq → a.graftSeq = b.graftSeq →
    ∀ g, g ∈ a.graftParents ↔ g ∈ b.graftParents

/-- What incoming registers amount to: the largest number, and the edges that came with it. -/
structure IsRegister (id : ContentHash) (parents : List ContentHash) (snaps : List Snapshot)
    (r : Snapshot) : Prop where
  sameID : r.id = id
  natural : r.parents ⊆ parents
  incoming : ∀ g ∈ r.graftParents, ∃ s ∈ snaps, g ∈ s.graftParents
  attained : ∃ s ∈ snaps, s.graftSeq = r.graftSeq
  largest : ∀ s ∈ snaps, s.graftSeq ≤ r.graftSeq
  edges : ∀ g, g ≠ id → g ∉ parents →
    (g ∈ r.graftParents ↔ ∃ s ∈ snaps, s.graftSeq = r.graftSeq ∧ g ∈ s.graftParents)

/-- The register after one more call. -/
theorem IsRegister.step {snaps : List Snapshot}
    {new snap : Snapshot} (h : IsRegister id parents snaps old)
    (hone : OneSetPerSeq (snaps ++ [snap])) (hempty : "" ∉ snap.graftParents)
    (hid : new.id = old.id) (hparents : new.parents = old.parents)
    (hseq : new.graftSeq = max old.graftSeq snap.graftSeq)
    (hedges : new.graftParents = (old.adoptGraft snap).graftParents) :
    IsRegister id parents (snaps ++ [snap]) new where
  sameID := hid.trans h.sameID
  natural := hparents ▸ h.natural
  incoming g hg := by
    rcases mem_adoptGraft (hedges ▸ hg) with hold | hnew
    · obtain ⟨s, hs, hmem⟩ := h.incoming g hold
      exact ⟨s, by simp [hs], hmem⟩
    · exact ⟨snap, by simp, hnew⟩
  attained := by
    obtain ⟨s, hs, hmax⟩ := h.attained
    rcases le_total old.graftSeq snap.graftSeq with hle | hle
    · exact ⟨snap, by simp, by rw [hseq, max_eq_right hle]⟩
    · exact ⟨s, by simp [hs], by rw [hseq, max_eq_left hle, hmax]⟩
  largest := by
    intro s hs
    rw [hseq]
    rcases List.mem_append.1 hs with hs | hs
    · exact (h.largest s hs).trans (le_max_left _ _)
    · rw [List.mem_singleton.1 hs]
      exact le_max_right _ _
  edges := by
    intro g hg hp
    have hother : g ∉ old.parents := fun hmem => hp (h.natural hmem)
    have hin := mem_dedupGraft hempty hg hother
    have hwas := h.edges g hg hp
    rw [hedges, hseq]
    simp only [List.mem_append, List.mem_singleton]
    rcases adoptGraft_cases old snap with ⟨hge, flag, heq⟩ | ⟨hs, ho, flag, heq⟩ | ⟨hlt, heq⟩
    · -- Every register that came with this number has this set.
      rw [heq, max_eq_right (by omega)]
      simp only [h.sameID, hin]
      refine ⟨fun hmem => ⟨snap, .inr rfl, rfl, hmem⟩, ?_⟩
      rintro ⟨s, hs | rfl, hsame, hmem⟩
      · have hle := h.largest s hs
        exact (hone s (by simp [hs]) snap (by simp) (by omega) hsame g).1 hmem
      · exact hmem
    · -- All numbers so far are zero: the sets are joined.
      rw [heq, hs, ho, max_self]
      rw [ho] at hwas
      have hne : g ∈ snap.graftParents → g ≠ "" := fun hmem h => hempty (h ▸ hmem)
      simp only [List.mem_append, mem_freshFrom, List.mem_cons, not_or, hwas, h.sameID]
      constructor
      · rintro (⟨s, hs, hz, hmem⟩ | ⟨hmem, -⟩)
        · exact ⟨s, .inl hs, hz, hmem⟩
        · exact ⟨snap, .inr rfl, hs, hmem⟩
      · rintro ⟨s, hs | rfl, hz, hmem⟩
        · exact .inl ⟨s, hs, hz, hmem⟩
        · by_cases hold : ∃ s ∈ snaps, s.graftSeq = 0 ∧ g ∈ s.graftParents
          · exact .inl hold
          · exact .inr ⟨hmem, hne hmem, hg, hold, hother⟩
    · rw [heq, max_eq_left hlt.le, hwas]
      constructor
      · rintro ⟨s, hs, hz, hmem⟩
        exact ⟨s, .inl hs, hz, hmem⟩
      · rintro ⟨s, hs | rfl, hz, hmem⟩
        · exact ⟨s, hs, hz, hmem⟩
        · omega

/-- Incoming records of one snapshot, one set for each number; `parents` has the natural parents of
all of them. -/
structure Registers (id : ContentHash) (parents : List ContentHash) (snaps : List Snapshot) :
    Prop where
  ids : ∀ s ∈ snaps, s.id = id
  parents : ∀ s ∈ snaps, s.parents ⊆ parents
  oneSet : OneSetPerSeq snaps

/-- The order of the records does not matter. -/
theorem Registers.of_mem_iff
    {snaps₁ snaps₂ : List Snapshot} (h : Registers id parents snaps₁)
    (hsame : ∀ s, s ∈ snaps₁ ↔ s ∈ snaps₂) : Registers id parents snaps₂ where
  ids s hs := h.ids s ((hsame s).2 hs)
  parents s hs := h.parents s ((hsame s).2 hs)
  oneSet a ha b hb := h.oneSet a ((hsame a).2 ha) b ((hsame b).2 hb)

/-- A register is determined by which records came in. -/
theorem IsRegister.agree
    {snaps₁ snaps₂ : List Snapshot} {r₁ r₂ : Snapshot} (h₁ : IsRegister id parents snaps₁ r₁)
    (h₂ : IsRegister id parents snaps₂ r₂) (hsame : ∀ s, s ∈ snaps₁ ↔ s ∈ snaps₂) :
    r₁.graftSeq = r₂.graftSeq ∧ ∀ g, g ≠ id → g ∉ parents →
      (g ∈ r₁.graftParents ↔ g ∈ r₂.graftParents) := by
  have hseq : r₁.graftSeq = r₂.graftSeq := by
    obtain ⟨s₁, hs₁, heq₁⟩ := h₁.attained
    obtain ⟨s₂, hs₂, heq₂⟩ := h₂.attained
    have hle₁ := h₂.largest s₁ ((hsame s₁).1 hs₁)
    have hle₂ := h₁.largest s₂ ((hsame s₂).2 hs₂)
    omega
  refine ⟨hseq, fun g hg hp => ?_⟩
  rw [h₁.edges g hg hp, h₂.edges g hg hp, hseq]
  simp only [hsame]

/-- The register after a run, from the register before it. -/
theorem putAll_register
    (hids : ∀ s ∈ calls.map PutCall.snap, s.id = id) {seen : List Snapshot}
    (hone : OneSetPerSeq (seen ++ calls.map PutCall.snap)) {r : Snapshot}
    (hr : st.snapshots[id]? = some r) (hreg : IsRegister id parents seen r)
    (h : st.putAll calls = .ok st') :
    ∃ final, st'.snapshots[id]? = some final ∧
      IsRegister id parents (seen ++ calls.map PutCall.snap) final ∧
      ∀ g, g = id ∨ g ∈ r.parents → g ∉ r.graftParents → g ∉ final.graftParents := by
  induction calls generalizing seen st r with
  | nil =>
      obtain rfl := Except.ok.inj h
      exact ⟨r, hr, by simpa using hreg, fun _ _ hg => hg⟩
  | cons c calls ih =>
      obtain ⟨mid, hput, hrest⟩ := bind_eq_ok.1 h
      obtain rfl := hids c.snap (by simp)
      have hempty := (putSnapshot_eq_ok hput).1
      obtain ⟨new, hnew, -, hid, hparents, hseq, hedges⟩ := putSnapshot_stored hput hr
      have hnext : IsRegister c.snap.id parents (seen ++ [c.snap]) new := by
        refine hreg.step (fun a ha b hb => hone a ?_ b ?_) hempty hid hparents hseq hedges
        · simp only [List.mem_append, List.map_cons, List.mem_cons] at ha ⊢
          tauto
        · simp only [List.mem_append, List.map_cons, List.mem_cons] at hb ⊢
          tauto
      have hsplit : seen ++ (c :: calls).map PutCall.snap =
          (seen ++ [c.snap]) ++ calls.map PutCall.snap := by simp
      rw [hsplit] at hone ⊢
      obtain ⟨final, hfinal, hlast, hown⟩ :=
        ih (fun s hs => hids s (List.mem_cons_of_mem _ hs)) hone hnew hnext hrest
      refine ⟨final, hfinal, hlast, fun g hg hnot => hown g (hparents ▸ hg) ?_⟩
      rw [hedges]
      refine own_notMem_adoptGraft ?_ hnot
      rwa [hreg.sameID]

/-- The register after the first calls for a snapshot. -/
theorem putAll_first {c : PutCall}
    (hcalls : Registers id parents ((c :: calls).map PutCall.snap))
    (hnone : st.snapshots[id]? = none) (h : st.putAll (c :: calls) = .ok st') :
    ∃ final, st'.snapshots[id]? = some final ∧
      IsRegister id parents ((c :: calls).map PutCall.snap) final ∧
      ∀ g, g = id ∨ g ∈ c.snap.parents → g ∉ c.snap.graftParents → g ∉ final.graftParents := by
  obtain ⟨mid, hput, hrest⟩ := bind_eq_ok.1 h
  obtain rfl := hcalls.ids c.snap (by simp)
  have hmid : mid.snapshots[c.snap.id]? = some c.snap := by
    obtain ⟨-, ⟨-, rfl⟩ | ⟨old, _, hold, -⟩⟩ := putSnapshot_eq_ok hput
    · simp
    · rw [hnone] at hold
      cases hold
  have hreg : IsRegister c.snap.id parents [c.snap] c.snap :=
    { sameID := rfl
      natural := hcalls.parents c.snap (by simp)
      incoming := by simp
      attained := ⟨c.snap, by simp, rfl⟩
      largest := by simp
      edges := by simp }
  exact putAll_register (fun s hs => hcalls.ids s (List.mem_cons_of_mem _ hs)) hcalls.oneSet hmid
    hreg hrest

/-! ### Convergence -/

/-- A store of objects without memories. -/
def noMemories : Objects := { memories := ∅ }

/-- An incoming record with a register. -/
def graftRecord (parents graft : List ContentHash) (seq : ℕ) : Snapshot :=
  { id := digitHash 'a', repoID := "r", docHash := digitHash 'a', parents := parents,
    graftParents := graft, graftSeq := seq }

/-- The edges and the number after calls on an empty replica. -/
def adoptedRegister (snaps : List Snapshot) : Option (List ContentHash × ℕ) := do
  let st ← (({} : Store).putAll (snaps.map fun s => ⟨noMemories, s⟩)).toOption
  let r ← st.snapshots[digitHash 'a']?
  pure (r.graftParents, r.graftSeq)

/-- The first record is stored as it comes, so its edges to itself and to its natural parents stay
until a later call replaces the set; and which parents are natural is decided by the first call. -/
theorem adopted_edges_depend_on_calls :
    adoptedRegister [graftRecord [digitHash 'b'] [digitHash 'a', digitHash 'b', digitHash 'c'] 1] =
      some ([digitHash 'a', digitHash 'b', digitHash 'c'], 1) ∧
    adoptedRegister (List.replicate 2
        (graftRecord [digitHash 'b'] [digitHash 'a', digitHash 'b', digitHash 'c'] 1)) =
      some ([digitHash 'c'], 1) ∧
    adoptedRegister [graftRecord [digitHash 'b'] [] 0, graftRecord [] [digitHash 'b'] 0] =
      some ([], 0) ∧
    adoptedRegister [graftRecord [] [digitHash 'b'] 0, graftRecord [digitHash 'b'] [] 0] =
      some ([digitHash 'b'], 0) := by
  refine ⟨?_, ?_, ?_, ?_⟩ <;> decide +kernel

/-- Adoption is monotone, and the register does not depend on the order of the calls. -/
theorem snapshot_adoption_converges (id : ContentHash) :
    (∀ (st st' : Store) (calls : List PutCall) (old : Snapshot), st.putAll calls = .ok st' →
      st.snapshots[id]? = some old → ∃ new, st'.snapshots[id]? = some new ∧ Kept old new) ∧
    (∀ (parents : List ContentHash) (st st' : Store) (c : PutCall) (calls : List PutCall),
      Registers id parents ((c :: calls).map PutCall.snap) → st.snapshots[id]? = none →
      st.putAll (c :: calls) = .ok st' →
      ∃ final, st'.snapshots[id]? = some final ∧
        (∃ s ∈ c :: calls, s.snap.graftSeq = final.graftSeq) ∧
        (∀ s ∈ c :: calls, s.snap.graftSeq ≤ final.graftSeq) ∧
        (∀ s ∈ c :: calls, 0 < s.snap.graftSeq → s.snap.graftSeq = final.graftSeq →
          ∀ g, g ≠ id → g ∉ parents → (g ∈ final.graftParents ↔ g ∈ s.snap.graftParents)) ∧
        ((∀ s ∈ c :: calls, s.snap.graftSeq = 0) → ∀ g, g ≠ id → g ∉ parents →
          (g ∈ final.graftParents ↔ ∃ s ∈ c :: calls, g ∈ s.snap.graftParents)) ∧
        ∀ g, g = id ∨ g ∈ c.snap.parents → g ∉ c.snap.graftParents → g ∉ final.graftParents) ∧
    ∀ (parents : List ContentHash) (st₁ st₁' st₂ st₂' : Store) (calls₁ calls₂ : List PutCall),
      Registers id parents (calls₁.map PutCall.snap) → calls₁ ≠ [] →
      (∀ s, s ∈ calls₁.map PutCall.snap ↔ s ∈ calls₂.map PutCall.snap) →
      st₁.snapshots[id]? = none → st₁.putAll calls₁ = .ok st₁' →
      st₂.snapshots[id]? = none → st₂.putAll calls₂ = .ok st₂' →
      ∃ final₁ final₂, st₁'.snapshots[id]? = some final₁ ∧ st₂'.snapshots[id]? = some final₂ ∧
        final₁.graftSeq = final₂.graftSeq ∧
        ∀ g, (g = id ∨ g ∈ parents → ∀ s ∈ calls₁, g ∉ s.snap.graftParents) →
          (g ∈ final₁.graftParents ↔ g ∈ final₂.graftParents) := by
  refine ⟨fun st st' calls old h hold => putAll_kept h hold, ?_, ?_⟩
  · intro parents st st' c calls hcalls hnone h
    obtain ⟨final, hfinal, hreg, hown⟩ := putAll_first hcalls hnone h
    refine ⟨final, hfinal, by simpa using hreg.attained, by simpa using hreg.largest, ?_, ?_, hown⟩
    · intro s hs hpos hseq g hg hp
      rw [hreg.edges g hg hp]
      constructor
      · rintro ⟨t, ht, hteq, hmem⟩
        have hsame := hcalls.oneSet s.snap (List.mem_map_of_mem hs) t ht hpos (by omega) g
        exact hsame.2 hmem
      · intro hmem
        exact ⟨s.snap, List.mem_map_of_mem hs, hseq, hmem⟩
    · intro hzero g hg hp
      obtain ⟨t, ht, hteq⟩ := hreg.attained
      have hall : ∀ s ∈ (c :: calls).map PutCall.snap, s.graftSeq = 0 := by simpa using hzero
      have hfinal0 : final.graftSeq = 0 := hteq ▸ hall t ht
      rw [hreg.edges g hg hp]
      constructor
      · rintro ⟨s, hs, -, hmem⟩
        obtain ⟨call, hcall, rfl⟩ := List.mem_map.1 hs
        exact ⟨call, hcall, hmem⟩
      · rintro ⟨s, hs, hmem⟩
        exact ⟨s.snap, List.mem_map_of_mem hs, (hzero s hs).trans hfinal0.symm, hmem⟩
  · intro parents st₁ st₁' st₂ st₂' calls₁ calls₂ hcalls hne hsame hnone₁ h₁ hnone₂ h₂
    obtain ⟨c₁, rest₁, rfl⟩ := List.exists_cons_of_ne_nil hne
    obtain ⟨c₂, rest₂, rfl⟩ : ∃ c₂ rest₂, calls₂ = c₂ :: rest₂ := by
      cases calls₂ with
      | nil => simpa using (hsame c₁.snap).1 (by simp)
      | cons c₂ rest₂ => exact ⟨c₂, rest₂, rfl⟩
    obtain ⟨final₁, hfinal₁, hreg₁, -⟩ := putAll_first hcalls hnone₁ h₁
    obtain ⟨final₂, hfinal₂, hreg₂, -⟩ := putAll_first (hcalls.of_mem_iff hsame) hnone₂ h₂
    obtain ⟨hseq, hedges⟩ := hreg₁.agree hreg₂ hsame
    refine ⟨final₁, final₂, hfinal₁, hfinal₂, hseq, fun g hg => ?_⟩
    by_cases hown : g = id ∨ g ∈ parents
    · -- No call has such an edge, and an edge comes with some call.
      have hclean : ∀ s ∈ (c₁ :: rest₁).map PutCall.snap, g ∉ s.graftParents := by
        simpa using hg hown
      refine iff_of_false (fun hmem => ?_) fun hmem => ?_
      · obtain ⟨s, hs, hedge⟩ := hreg₁.incoming g hmem
        exact hclean s hs hedge
      · obtain ⟨s, hs, hedge⟩ := hreg₂.incoming g hmem
        exact hclean s ((hsame s).2 hs) hedge
    · rw [not_or] at hown
      exact hedges g hown.1 hown.2

/-- A replica that holds one record. -/
def heldRecord (snap : Snapshot) : Store :=
  { snapshots := (∅ : Folder Snapshot).insert snap.id snap }

/-- Two records with different numbers and different natural parents, in two orders; and the second
over the first. -/
theorem snapshot_adoption_converges_swapped :
    let newer : PutCall := ⟨noMemories, graftRecord [digitHash 'b'] [digitHash 'c'] 2⟩
    let older : PutCall := ⟨noMemories, graftRecord [digitHash 'e'] [digitHash 'd'] 1⟩
    (∃ st new, (heldRecord newer.snap).putAll [older] = .ok st ∧
      st.snapshots[digitHash 'a']? = some new ∧ Kept newer.snap new) ∧
    ∃ st₁ st₂ final₁ final₂, ({} : Store).putAll [newer, older] = .ok st₁ ∧
      ({} : Store).putAll [older, newer, older] = .ok st₂ ∧
      st₁.snapshots[digitHash 'a']? = some final₁ ∧ st₂.snapshots[digitHash 'a']? = some final₂ ∧
      digitHash 'c' ∈ final₁.graftParents ∧ digitHash 'c' ∈ final₂.graftParents := by
  intro newer older
  obtain ⟨hmono, hlargest, hagree⟩ := snapshot_adoption_converges (digitHash 'a')
  have hregisters : Registers (digitHash 'a') [digitHash 'b', digitHash 'e']
      ([newer, older].map PutCall.snap) :=
    { ids := by simp [newer, older, graftRecord]
      parents := by simp [newer, older, graftRecord]
      oneSet := by simp [OneSetPerSeq, newer, older, graftRecord] }
  obtain ⟨st, hst⟩ := exists_of_isOk
    (show ((heldRecord newer.snap).putAll [older]).isOk = true by decide +kernel)
  obtain ⟨st₁, hst₁⟩ := exists_of_isOk
    (show (({} : Store).putAll [newer, older]).isOk = true by decide +kernel)
  obtain ⟨st₂, hst₂⟩ := exists_of_isOk
    (show (({} : Store).putAll [older, newer, older]).isOk = true by decide +kernel)
  obtain ⟨new, hnew, hkept⟩ := hmono _ _ _ newer.snap hst (by decide +kernel)
  obtain ⟨final, hfinal, hattained, hle, hedges, -⟩ :=
    hlargest _ _ _ newer [older] hregisters (by decide +kernel) hst₁
  obtain ⟨final₁, final₂, hfinal₁, hfinal₂, -, hsame⟩ := hagree _ {} st₁ {} st₂
    [newer, older] [older, newer, older] hregisters (by simp) (by simp) (by decide +kernel)
    hst₁ (by decide +kernel) hst₂
  obtain rfl := Option.some.inj (hfinal.symm.trans hfinal₁)
  have htwo : final.graftSeq = 2 := by
    have hge : 2 ≤ final.graftSeq := hle newer (by simp)
    simp only [List.mem_cons, List.not_mem_nil, or_false, exists_eq_or_imp, exists_eq_left]
      at hattained
    rcases hattained with h | h
    · exact h.symm
    · have hone : older.snap.graftSeq = 1 := rfl
      omega
  have hc : digitHash 'c' ∈ final.graftParents :=
    (hedges newer (by simp) (by decide) htwo.symm (digitHash 'c') (by decide) (by decide)).2
      (by decide)
  have hother : digitHash 'c' = digitHash 'a' ∨ digitHash 'c' ∈ [digitHash 'b', digitHash 'e'] →
      ∀ s ∈ [newer, older], digitHash 'c' ∉ s.snap.graftParents := fun h => absurd h (by decide)
  exact ⟨⟨st, new, hst, hnew, hkept⟩, st₁, st₂, final, final₂, hst₁, hst₂, hfinal, hfinal₂, hc,
    (hsame (digitHash 'c') hother).1 hc⟩

end Cli
end CxtHub
