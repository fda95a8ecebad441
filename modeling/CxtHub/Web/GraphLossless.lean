/-
# When the indexed transport loses nothing

Reading the ids back by `f` gives the fields of a state exactly when `f` fixes every id
that was met (`fields_received_iff`, `fields_receivedV2_iff`): each of these lists can be
seen in the JSON.  With `f` the reader of a dictionary this is a bound on the number of
distinct ids, since places are `uint32`.

`decodeGraphState_gives_back`: for every state the dictionary has no repetition, every
place is in it and the decoder rejects neither version; the first version gives every
field back exactly when there are at most `2 ^ 32` distinct ids, the second exactly when
moreover no context under the empty branch name shares a timeline (`Unnamed`).
-/

import CxtHub.Web.GraphTransport

namespace CxtHub
namespace Web

open Backend Interning
open Json (ofStruct)

variable {c : BranchContext}
variable {g : GraphState} {f : ContentHash → ContentHash}

/-! ### What the JSON shows -/

theorem map_eq_map_id_iff {α : Type} {f : α → α} {l : List α} :
    l.map f = l.map id ↔ ∀ a ∈ l, f a = a :=
  List.map_inj_left

theorem idArray_inj {a b : List ContentHash} : idArray a = idArray b ↔ a = b := by
  rw [idArray, idArray, Json.arr.injEq]
  exact (List.map_injective_iff.2 fun _ _ h => Json.str.inj h).eq_iff

section Instants

variable (time : ℕ → String)

/-- The ids of a cluster show in its JSON form. -/
theorem holdJson_iff {h : GraphHoldCluster} :
    structJson (GraphHoldCluster.fields time { h with ids := some (h.ids.list.map f) }) =
      structJson (GraphHoldCluster.fields time { h with ids := some (h.ids.list.map id) }) ↔
    ∀ id ∈ h.ids.list, f id = id := by
  rw [← map_eq_map_id_iff, ← idArray_inj]
  constructor
  · intro heq
    exact Option.some.inj (congrArg (List.lookup "ids") (Json.obj.inj heq))
  · intro heq
    exact congrArg (fun j => structJson [always "tips" (listJson (Unsync.json time) h.tips),
      always "ids" j]) heq

/-- So do the lists of a progress group. -/
theorem previousJson_iff {p : GraphProgressGroup} :
    structJson (GraphProgressGroup.fields time
        { p with snapshotIDs := some (p.snapshotIDs.list.map f)
                 collapsibleIDs := some (p.collapsibleIDs.list.map f) }) =
      structJson (GraphProgressGroup.fields time
        { p with snapshotIDs := some (p.snapshotIDs.list.map id)
                 collapsibleIDs := some (p.collapsibleIDs.list.map id) }) ↔
    (∀ id ∈ p.snapshotIDs.list, f id = id) ∧ ∀ id ∈ p.collapsibleIDs.list, f id = id := by
  rw [← map_eq_map_id_iff, ← map_eq_map_id_iff]
  constructor
  · intro heq
    have hlookup := fun k => congrArg (List.lookup k) (Json.obj.inj heq)
    exact ⟨idArray_inj.1 (Option.some.inj (hlookup "snapshot_ids")),
      idArray_inj.1 (Option.some.inj (hlookup "collapsible_ids"))⟩
  · rintro ⟨hsnapshots, hcollapsible⟩
    rw [hsnapshots, hcollapsible]

/-- And those of a context. -/
theorem contextJson_iff {roots roots' timeline timeline' : List ContentHash} :
    structJson ({ c with roots := some roots, snapshotIDs := some timeline } :
        BranchContext).fields =
      structJson ({ c with roots := some roots', snapshotIDs := some timeline' } :
        BranchContext).fields ↔
    roots = roots' ∧ timeline = timeline' := by
  constructor
  · intro heq
    have hlookup := fun k => congrArg (List.lookup k) (Json.obj.inj heq)
    have hnodup : ∀ c : BranchContext, (Json.names c.fields).Nodup := fun _ =>
      show (["branch_id", "snapshot_id", "code_commit", "reason", "merges", "roots",
        "snapshot_ids"] : List String).Nodup by decide
    simp only [Json.lookup_ofStruct (hnodup _)] at hlookup
    exact ⟨idArray_inj.1 (Option.some.inj (hlookup "roots")),
      idArray_inj.1 (Option.some.inj (hlookup "snapshot_ids"))⟩
  · rintro ⟨rfl, rfl⟩
    rfl

/-- A reader that fixes what was met changes nothing. -/
theorem received_eq (h : ∀ id ∈ metV1 g, f id = id) : received f g = received id g := by
  obtain ⟨hlists, hbranches, hhold, hprevious⟩ := forall_metV1.1 h
  obtain ⟨h1, h2, h3, h4, h5, h6, h7, h8, h9, h10, h11, h12⟩ := forall_graphIndexFields.1 hlists
  simp only [indexed] at h1 h2 h3 h4 h5 h6 h7 h8 h9 h10 h11 h12
  simp only [← map_eq_map_id_iff] at h1 h2 h3 h4 h5 h6 h7 h8 h9 h10 h11 h12
  simp only [← map_eq_map_id_iff] at hbranches hhold hprevious
  have hbranches' : g.branchSnapshots.dir.mapValues (fun _ ids => some (ids.list.map f)) =
      g.branchSnapshots.dir.mapValues (fun _ ids => some (ids.list.map id)) :=
    Dir.mapValues_congr fun e he =>
      congrArg some (hbranches e ((List.perm_insertionSort _ _).mem_iff.2 he))
  have hhold' : g.hold.list.map (fun h => { h with ids := some (h.ids.list.map f) }) =
      g.hold.list.map (fun h => { h with ids := some (h.ids.list.map id) }) :=
    List.map_congr_left fun h hh => by rw [hhold h hh]
  have hprevious' : g.previous.list.map (fun p =>
        { p with snapshotIDs := some (p.snapshotIDs.list.map f)
                 collapsibleIDs := some (p.collapsibleIDs.list.map f) }) =
      g.previous.list.map (fun p =>
        { p with snapshotIDs := some (p.snapshotIDs.list.map id)
                 collapsibleIDs := some (p.collapsibleIDs.list.map id) }) :=
    List.map_congr_left fun p hp => by rw [(hprevious p hp).1, (hprevious p hp).2]
  rw [received, h1, h2, h3, h4, h5, h6, h7, h8, h9, h10, h11, h12, hbranches', hhold', hprevious']
  rfl

/-- The fields of a state whose lists are reread show every id that was met. -/
theorem fields_received_iff :
    (∀ k, (ofStruct ((received f g).fields time)).lookup k =
        (ofStruct ((received id g).fields time)).lookup k) ↔
      ∀ id ∈ metV1 g, f id = id := by
  constructor
  · intro heq
    rw [forall_metV1]
    simp only [Json.lookup_ofStruct (names_fields_nodup time _)] at heq
    refine ⟨?_, fun e he => ?_, fun h hh => ?_, fun p hp => ?_⟩
    · rw [forall_graphIndexFields]
      refine ⟨?_, ?_, ?_, ?_, ?_, ?_, ?_, ?_, ?_, ?_, ?_, ?_⟩
      all_goals
        refine map_eq_map_id_iff.1 (idArray_inj.1 (Option.some.inj ?_))
      · exact heq "snapshot_ids"
      · exact heq "graph_ids"
      · exact heq "committed_ids"
      · exact heq "historical_ids"
      · exact heq "shared_ids"
      · exact heq "pushed_ids"
      · exact heq "unpushed_ids"
      · exact heq "uncommitted_ids"
      · exact heq "tagged_ids"
      · exact heq "archived_only_ids"
      · exact heq "ahead_ids"
      · exact heq "ahead_tips"
    · have hbranches : tableJson idsJson (received f g).branchSnapshots =
          tableJson idsJson (received id g).branchSnapshots :=
        Option.some.inj (heq "branch_snapshots")
      rw [← readBranches_eq, ← readBranches_eq, Json.obj.injEq] at hbranches
      have hentry := List.map_inj_left.1 hbranches e he
      exact map_eq_map_id_iff.1 (idArray_inj.1 (Prod.mk.inj hentry).2)
    · have hhold : (received f g).hold.list.map (fun h => structJson (h.fields time)) =
          (received id g).hold.list.map (fun h => structJson (h.fields time)) :=
        Json.arr.inj (Option.some.inj (heq "hold"))
      simp only [received, Slice.list, Option.getD_some, List.map_map] at hhold
      exact (holdJson_iff time).1 (List.map_inj_left.1 hhold h hh)
    · have hprevious : (received f g).previous.list.map (fun p => structJson (p.fields time)) =
          (received id g).previous.list.map (fun p => structJson (p.fields time)) :=
        Json.arr.inj (Option.some.inj (heq "previous"))
      simp only [received, Slice.list, Option.getD_some, List.map_map] at hprevious
      exact (previousJson_iff time).1 (List.map_inj_left.1 hprevious p hp)
  · intro h k
    rw [received_eq h]

/-- A context under the empty name that shares the timeline of the branch: its reference is
left out. -/
def Unnamed (g : GraphState) : Prop :=
  ∃ c, g.branchContexts.dir.get "" = some c ∧ sharesTimeline g "" c ∧ c.snapshotIDs.list ≠ []

/-- A shared timeline was sent with the lists of v1. -/
theorem mem_metV1_of_sharesTimeline {branch : String}
    (h : sharesTimeline g branch c = true) {id : ContentHash} (hid : id ∈ c.snapshotIDs.list) :
    id ∈ metV1 g := by
  rw [sharesTimeline] at h
  split at h
  · rename_i ids hget
    rw [← of_decide_eq_true h] at hid
    have hentry : (branch, ids) ∈ keyOrder g.branchSnapshots.dir :=
      (List.perm_insertionSort _ _).mem_iff.2 (Dir.get_eq_some_iff.1 hget)
    exact (forall_metV1.1 fun id hid => hid).2.1 _ hentry id hid
  · cases h

/-- What holds of the ids met in the contexts. -/
theorem forall_metV2 {p : ContentHash → Prop} :
    (∀ id ∈ metV2 g, p id) ↔ ∀ e ∈ keyOrder g.branchContexts.dir,
      (∀ id ∈ e.2.roots.list, p id) ∧ ∀ id ∈ ownTimeline g e.1 e.2, p id := by
  simp only [metV2, List.mem_flatMap, ← List.forall_mem_append]
  constructor
  · exact fun h e he id hid => h id ⟨e, he, hid⟩
  · rintro h id ⟨e, he, hid⟩
    exact h e he id hid

/-- The timeline that is read is that of the context. -/
theorem readTimeline_eq_iff {branch : String}
    (hmet : ∀ id ∈ metV1 g, f id = id) :
    readTimeline f g branch c = c.snapshotIDs.list ↔
      (∀ id ∈ ownTimeline g branch c, f id = id) ∧
        ¬ (branch = "" ∧ sharesTimeline g branch c = true ∧ c.snapshotIDs.list ≠ []) := by
  rw [readTimeline, ownTimeline]
  cases hshared : sharesTimeline g branch c with
  | true =>
      by_cases hbranch : branch = ""
      · simp [hbranch]
      · have hfix : ∀ id ∈ c.snapshotIDs.list, f id = id := fun id hid =>
          hmet id (mem_metV1_of_sharesTimeline hshared hid)
        have hlist : c.snapshotIDs.list.map f = c.snapshotIDs.list :=
          (map_eq_map_id_iff.2 hfix).trans (List.map_id _)
        simp [hbranch, hlist]
  | false =>
      have hown := map_eq_map_id_iff (f := f) (l := c.snapshotIDs.list)
      rw [List.map_id] at hown
      simp [hown]

/-- The second version: the fields show the contexts as well. -/
theorem fields_receivedV2_iff :
    (∀ k, (ofStruct ((receivedV2 f (readTimeline f g) g).fields time)).lookup k =
        (ofStruct ((receivedV2 id (fun _ c => c.snapshotIDs.list) g).fields time)).lookup k) ↔
      (∀ id ∈ metV1 g ++ metV2 g, f id = id) ∧ ¬ Unnamed g := by
  have hcontexts : tableJson (fun c => structJson c.fields)
        (receivedV2 f (readTimeline f g) g).branchContexts =
      tableJson (fun c => structJson c.fields)
        (receivedV2 id (fun _ c => c.snapshotIDs.list) g).branchContexts ↔
      ∀ e ∈ keyOrder g.branchContexts.dir, (∀ id ∈ e.2.roots.list, f id = id) ∧
        readTimeline f g e.1 e.2 = e.2.snapshotIDs.list := by
    simp only [receivedV2, tableJson, keyOrder_mapValues, List.map_map, Json.obj.injEq,
      List.map_inj_left, Function.comp_apply, Prod.mk.injEq, true_and, contextJson_iff,
      id_eq]
  have hfirst : (∀ k, (ofStruct ((receivedV2 f (readTimeline f g) g).fields time)).lookup k =
        (ofStruct ((receivedV2 id (fun _ c => c.snapshotIDs.list) g).fields time)).lookup k) ↔
      (∀ id ∈ metV1 g, f id = id) ∧ ∀ e ∈ keyOrder g.branchContexts.dir,
        (∀ id ∈ e.2.roots.list, f id = id) ∧
          readTimeline f g e.1 e.2 = e.2.snapshotIDs.list := by
    rw [← fields_received_iff time, ← hcontexts]
    constructor
    · intro heq
      refine ⟨fun k => ?_, ?_⟩
      · by_cases hk : k = "branch_contexts"
        · simp only [hk, Json.lookup_ofStruct (names_fields_nodup time _)]
          rfl
        · rw [← lookup_receivedV2 time g _ (readTimeline f g) hk, heq,
            lookup_receivedV2 time g _ _ hk]
      · have h := heq "branch_contexts"
        simp only [Json.lookup_ofStruct (names_fields_nodup time _)] at h
        exact Option.some.inj h
    · rintro ⟨heq, hctx⟩ k
      by_cases hk : k = "branch_contexts"
      · simp only [hk, Json.lookup_ofStruct (names_fields_nodup time _)]
        exact congrArg some hctx
      · rw [lookup_receivedV2 time g _ _ hk, lookup_receivedV2 time g _ _ hk, heq]
  rw [hfirst, List.forall_mem_append, and_assoc]
  refine and_congr_right fun hmet => ?_
  rw [forall_metV2]
  have hunnamed : ¬ Unnamed g ↔ ∀ e ∈ keyOrder g.branchContexts.dir,
      ¬ (e.1 = "" ∧ sharesTimeline g e.1 e.2 = true ∧ e.2.snapshotIDs.list ≠ []) := by
    have hmem : ∀ e, e ∈ keyOrder g.branchContexts.dir ↔
        g.branchContexts.dir.get e.1 = some e.2 := fun e =>
      (List.perm_insertionSort _ _).mem_iff.trans Dir.get_eq_some_iff.symm
    constructor
    · rintro h ⟨branch, c⟩ he ⟨rfl, hshared, hne⟩
      exact h ⟨c, (hmem _).1 he, hshared, hne⟩
    · rintro h ⟨c, hget, hshared, hne⟩
      exact h ("", c) ((hmem _).2 hget) ⟨rfl, hshared, hne⟩
  rw [hunnamed]
  constructor
  · intro h
    have hsplit := fun e he => (readTimeline_eq_iff hmet).1 (h e he).2
    exact ⟨fun e he => ⟨(h e he).1, (hsplit e he).1⟩, fun e he => (hsplit e he).2⟩
  · rintro ⟨h, hnamed⟩ e he
    exact ⟨(h e he).1, (readTimeline_eq_iff hmet).2 ⟨(h e he).2, hnamed e he⟩⟩

/-! ### The transport -/

/-- The decoder accepts an object and gives the fields of a state. -/
def GivesBack (input : List (String × Json)) (g : GraphState) : Prop :=
  ∃ o, decodeGraphState input = .ok o ∧
    ∀ k, o.lookup k = (ofStruct (g.fields time)).lookup k

variable {time}

/-- Giving a state back is giving back each of its fields. -/
theorem givesBack_iff {input o : List (String × Json)} {g g' : GraphState}
    (h : decodeGraphState input = .ok o)
    (ho : ∀ k, o.lookup k = (ofStruct (g'.fields time)).lookup k) :
    GivesBack time input g ↔ ∀ k, (ofStruct (g'.fields time)).lookup k =
      (ofStruct (g.fields time)).lookup k := by
  constructor
  · rintro ⟨o', ho', hlookup⟩ k
    rw [h, Except.ok.injEq] at ho'
    rw [← ho, ho', hlookup]
  · intro heq
    exact ⟨o, h, fun k => (ho k).trans (heq k)⟩

/-- The reader of a dictionary fixes the ids it was made from when there are not too many. -/
theorem forall_reread_freshFrom {ids : List ContentHash} :
    (∀ id ∈ ids, reread (freshFrom [] ids) id = id) ↔ ids.toFinset.card ≤ 2 ^ 32 := by
  have hn := nodup_freshFrom [] ids
  have hmem : ∀ id, id ∈ freshFrom [] ids ↔ id ∈ ids := fun id => by simp
  have hcard : ids.toFinset.card = (freshFrom [] ids).length := by
    rw [← List.toFinset_card_of_nodup hn]
    congr 1
    ext id
    simp
  rw [hcard, ← forall_reread_eq_self_iff hn]
  simp only [hmem]

variable (time) (g)

/-- **v1 gives a state back as long as places are told apart.** -/
theorem givesBack_sentV1 :
    GivesBack time (sentV1 time g) (received id g) ↔ (metV1 g).toFinset.card ≤ 2 ^ 32 := by
  obtain ⟨o, ho, hlookup⟩ := decodeGraphState_sentV1 time g
  rw [givesBack_iff ho hlookup, fields_received_iff, dictV1, forall_reread_freshFrom]

/-- **v2 does so too, unless a context under the empty name shares its timeline.** -/
theorem givesBack_sentV2 :
    GivesBack time (sentV2 time g) (receivedV2 id (fun _ c => c.snapshotIDs.list) g) ↔
      (metV1 g ++ metV2 g).toFinset.card ≤ 2 ^ 32 ∧ ¬ Unnamed g := by
  obtain ⟨o, ho, hlookup⟩ := decodeGraphState_sentV2 time g
  rw [givesBack_iff ho hlookup, fields_receivedV2_iff, dictV2, forall_reread_freshFrom]

/-- An encoding that the decoder accepts. -/
structure Accepted (dictionary : List ContentHash) (places : List UInt32)
    (input : List (String × Json)) : Prop where
  nodup : dictionary.Nodup
  inRange : ∀ i ∈ places, i.toNat < dictionary.length
  decodes : ∃ o, decodeGraphState input = .ok o

/-- The decoder accepts what the encoder of v1 sends. -/
theorem accepted_sentV1 :
    Accepted (encode g).dictionary (encode g).lists.places (sentV1 time g) where
  nodup := by
    rw [encode_dictionary]
    exact nodup_freshFrom _ _
  inRange i hi := by
    rw [encode_lists_of_isPrefix List.prefix_rfl, places_listsAt] at hi
    obtain ⟨id, hid, rfl⟩ := List.mem_map.1 hi
    rw [encode_dictionary]
    exact place_lt (mem_dictV1.2 hid)
  decodes := (decodeGraphState_sentV1 time g).imp fun _ h => h.1

/-- And what that of v2 sends. -/
theorem accepted_sentV2 :
    Accepted (encodeV2 g).state.dictionary
      ((encodeV2 g).state.lists.places ++ (encodeV2 g).branchContexts.flatMap (·.2.places))
      (sentV2 time g) where
  nodup := by
    rw [encodeV2_dictionary]
    exact nodup_freshFrom _ _
  inRange i hi := by
    have hlists : (encodeV2 g).state.lists = listsAt g (place (dictV2 g)) :=
      encode_lists_of_isPrefix (dictV1_isPrefix g)
    rw [hlists, places_listsAt, encodeV2_contexts, places_contextsAt, ← List.map_append] at hi
    obtain ⟨id, hid, rfl⟩ := List.mem_map.1 hi
    rw [encodeV2_dictionary]
    exact place_lt (mem_dictV2.2 (List.mem_append.1 hid))
  decodes := (decodeGraphState_sentV2 time g).imp fun _ h => h.1

/-- **The transport of a graph state.**  Both encodings are accepted, whatever the lists
are.  The first gives every field back exactly when its places do not wrap; the second
needs as well that no context under the empty branch name refers to a timeline. -/
theorem decodeGraphState_gives_back :
    Accepted (encode g).dictionary (encode g).lists.places (sentV1 time g) ∧
      Accepted (encodeV2 g).state.dictionary
        ((encodeV2 g).state.lists.places ++ (encodeV2 g).branchContexts.flatMap (·.2.places))
        (sentV2 time g) ∧
      (GivesBack time (sentV1 time g) (received id g) ↔ (metV1 g).toFinset.card ≤ 2 ^ 32) ∧
      (GivesBack time (sentV2 time g) (receivedV2 id (fun _ c => c.snapshotIDs.list) g) ↔
        (metV1 g ++ metV2 g).toFinset.card ≤ 2 ^ 32 ∧ ¬ Unnamed g) :=
  ⟨accepted_sentV1 g time, accepted_sentV2 g time, givesBack_sentV1 g time,
    givesBack_sentV2 g time⟩

end Instants

/-- A state with a context under the empty branch name. -/
def unnamedState : GraphState :=
  { branchContexts := some (Dir.empty.set "" { branchID := "main", snapshotID := digitHash 'a'
                                               snapshotIDs := some [digitHash 'a'] })
    branchSnapshots := some (Dir.empty.set "" (some [digitHash 'a'])) }

/-- The timeline of its context is lost: the reference to the equal timeline is empty and
`omitempty` leaves it out. -/
theorem unnamedState_loses_timeline :
    ¬ GivesBack (fun _ => "") (sentV2 (fun _ => "") unnamedState)
      (receivedV2 id (fun _ c => c.snapshotIDs.list) unnamedState) := by
  rw [givesBack_sentV2]
  exact fun h => h.2 ⟨_, rfl, by decide, by decide⟩

end Web
end CxtHub
