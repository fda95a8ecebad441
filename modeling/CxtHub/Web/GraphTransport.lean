/-
# The indexed transport is lossless, up to two limits

What `decodeGraphState` makes of the two encodings.  It never rejects one: the dictionary
has no repetition and every place is in it.  Each id comes back as `reread` finds it, so
the lists come back when the dictionary has at most `2 ^ 32` entries, since places are
`uint32`.  In the second version the timeline of a context under the empty branch name
does not come back when it is sent as a reference: the reference is the branch name, and
`omitempty` drops it (`Unnamed`).

`decodeGraphState_sentV1`, `decodeGraphState_sentV2`: the decoded object has under every
name what the state with its lists reread has (`received`, `receivedV2`).
-/

import CxtHub.Backend.GraphWireLists
import CxtHub.Web.GraphWire

namespace CxtHub
namespace Web

open Backend Interning
open Json (ofStruct embedding names)

variable {k branch : String}

/-! ### Places -/

/-- A natural number below `2 ^ 53` is a safe index. -/
theorem safeIndex_nat {n : ℕ} (h : n < 2 ^ 53) : safeIndex (.nat n) = some n := by
  have hdigits : ∀ c ∈ Nat.toDigits 10 n, c.isDigit = true := fun c hc =>
    Nat.isDigit_of_mem_toDigits (by decide) le_rfl hc
  have hvalue : Nat.ofDigitChars 10 (Nat.toDigits 10 n) 0 = n := Nat.ofDigitChars_ten_toDigits
  simp only [safeIndex, Json.nat, hvalue]
  rw [if_pos ⟨by simpa using hdigits, h⟩]

variable {dict : List String}

/-- A place is decoded to what the reader has there. -/
theorem decodeIndex_place {id : String} (h : id ∈ dict) :
    decodeIndex dict (.nat (place dict id).toNat) = .ok (reread dict id) := by
  have hsafe : (place dict id).toNat < 2 ^ 53 := (place dict id).toNat_lt.trans (by decide)
  rw [decodeIndex, safeIndex_nat hsafe, Option.bind_some,
    List.getElem?_eq_getElem (place_lt h), reread_eq_getElem h]
  rfl

/-- A list of places is read as its ids reread. -/
theorem decodeIndices_places {ids : List String} (h : ∀ id ∈ ids, id ∈ dict) :
    decodeIndices dict (some (placesJson (ids.map (place dict)))) =
      .ok (ids.map (reread dict)) := by
  simp only [placesJson, decodeIndices, List.map_map]
  exact mapM_map_eq_ok fun id hid => decodeIndex_place (h id hid)

/-- A dictionary without duplicates is read. -/
theorem readDictionary_strings (hn : dict.Nodup) :
    readDictionary (some (.arr (dict.map .str))) = .ok dict := by
  have hread : (dict.map Json.str).mapM dictionaryEntry = .ok (dict.map id) :=
    mapM_map_eq_ok fun _ _ => rfl
  rw [List.map_id] at hread
  simp only [readDictionary, hread, ok_bind, refuse, hn, not_true_eq_false, if_false]

/-! ### What is received -/

/-- A state whose lists are read by `f`; a nil list comes as an empty one. -/
def received (f : ContentHash → ContentHash) (g : GraphState) : GraphState :=
  { g with
    snapshotIDs := some (g.snapshotIDs.list.map f)
    graphIDs := some (g.graphIDs.list.map f)
    committedIDs := some (g.committedIDs.list.map f)
    historicalIDs := some (g.historicalIDs.list.map f)
    sharedIDs := some (g.sharedIDs.list.map f)
    pushedIDs := some (g.pushedIDs.list.map f)
    unpushedIDs := some (g.unpushedIDs.list.map f)
    uncommittedIDs := some (g.uncommittedIDs.list.map f)
    taggedIDs := some (g.taggedIDs.list.map f)
    archivedOnlyIDs := some (g.archivedOnlyIDs.list.map f)
    aheadIDs := some (g.aheadIDs.list.map f)
    aheadTips := some (g.aheadTips.list.map f)
    branchSnapshots := some (g.branchSnapshots.dir.mapValues fun _ ids => some (ids.list.map f))
    hold := some (g.hold.list.map fun h => { h with ids := some (h.ids.list.map f) })
    previous := some (g.previous.list.map fun p =>
      { p with snapshotIDs := some (p.snapshotIDs.list.map f)
               collapsibleIDs := some (p.collapsibleIDs.list.map f) }) }

/-- The same with the contexts of the second version, whose timelines are given. -/
def receivedV2 (f : ContentHash → ContentHash)
    (timeline : String → BranchContext → List ContentHash) (g : GraphState) : GraphState :=
  { received f g with
    branchContexts := some (g.branchContexts.dir.mapValues fun branch c =>
      { c with roots := some (c.roots.list.map f), snapshotIDs := some (timeline branch c) }) }

section Parts

variable (time : ℕ → String)

/-- Decoding some keys of an object puts the ids that were read in their places. -/
theorem decodeKeys_eq_ok {keys : List String} {o : List (String × Json)}
    (ids : String → List String)
    (h : ∀ key ∈ keys, decodeIndices dict (o.lookup key) = .ok (ids key)) :
    decodeKeys dict keys (.obj o) =
      .ok (.obj (keys.foldl (fun o key => Json.assign o key (idArray (ids key))) o)) := by
  have hlists : keys.mapM (fun key => (fun ids => (key, ids)) <$>
      decodeIndices dict (o.lookup key)) = .ok (keys.map fun key => (key, ids key)) := by
    rw [← List.map_id keys]
    refine (mapM_map_eq_ok fun key hkey => ?_).trans (by rw [List.map_id])
    rw [id, h key hkey]
    rfl
  rw [decodeKeys, objectFields, ok_bind, hlists, ok_bind, List.foldl_map]

/-- The ids of a cluster are decoded. -/
theorem decodeKeys_hold {h : GraphHoldCluster} (hids : ∀ id ∈ h.ids.list, id ∈ dict) :
    decodeKeys dict ["ids"] (WireHold.json time
        { tips := h.tips, ids := h.ids.list.map (place dict) }) =
      .ok (structJson (GraphHoldCluster.fields time
        { h with ids := some (h.ids.list.map (reread dict)) })) := by
  refine decodeKeys_eq_ok (fun _ => h.ids.list.map (reread dict)) fun key hkey => ?_
  rw [List.mem_singleton] at hkey
  subst hkey
  exact decodeIndices_places hids

/-- The two lists of a progress group are decoded. -/
theorem decodeKeys_previous {p : GraphProgressGroup}
    (hsnapshots : ∀ id ∈ p.snapshotIDs.list, id ∈ dict)
    (hcollapsible : ∀ id ∈ p.collapsibleIDs.list, id ∈ dict) :
    decodeKeys dict ["snapshot_ids", "collapsible_ids"] (WireProgress.json time
        { group := p, snapshotIDs := p.snapshotIDs.list.map (place dict)
          collapsibleIDs := p.collapsibleIDs.list.map (place dict) }) =
      .ok (structJson (GraphProgressGroup.fields time
        { p with snapshotIDs := some (p.snapshotIDs.list.map (reread dict))
                 collapsibleIDs := some (p.collapsibleIDs.list.map (reread dict)) })) := by
  refine (decodeKeys_eq_ok (fun key =>
    (if key = "snapshot_ids" then p.snapshotIDs.list else p.collapsibleIDs.list).map
      (reread dict)) fun key hkey => ?_).trans rfl
  rcases List.mem_cons.1 hkey with rfl | hkey
  · exact decodeIndices_places hsnapshots
  · rw [List.mem_singleton] at hkey
    subst hkey
    exact decodeIndices_places hcollapsible

end Parts

/-! ### Contexts of the second version -/

section Contexts

variable (c : BranchContext) (roots : Json) (own ref : Option Json)

/-- The object of a context, whatever its own timeline and reference are. -/
abbrev contextObject : List (String × Json) :=
  ofStruct (embedding c.fields
    [always "roots" roots, ("snapshot_ids", own), ("snapshot_ids_ref", ref)])

/-- The fields of a context, with its lists replaced. -/
theorem lookup_contextObject (k : String) :
    (contextObject c roots own ref).lookup k =
      ((if k ∈ ["roots", "snapshot_ids", "snapshot_ids_ref"] then
        [always "roots" roots, ("snapshot_ids", own), ("snapshot_ids_ref", ref)].lookup k
      else c.fields.lookup k).join) := by
  have hn : (names (embedding c.fields
      [always "roots" roots, ("snapshot_ids", own), ("snapshot_ids_ref", ref)])).Nodup :=
    Json.names_embedding_nodup (show (["branch_id", "snapshot_id", "code_commit", "reason",
      "merges", "roots", "snapshot_ids"] : List String).Nodup by decide)
      (show (["roots", "snapshot_ids", "snapshot_ids_ref"] : List String).Nodup by decide)
  rw [Json.lookup_ofStruct hn, Json.lookup_embedding]
  rfl

/-- Putting roots and a timeline back gives the domain object. -/
theorem assign_contextObject (roots' timeline : List ContentHash) :
    Json.assign (Json.assign (Json.without ["snapshot_ids_ref", "roots", "snapshot_ids"]
      (contextObject c roots own ref)) "roots" (idArray roots')) "snapshot_ids"
      (idArray timeline) =
    ofStruct ({ c with roots := some roots', snapshotIDs := some timeline } :
      BranchContext).fields := by
  by_cases hcode : c.codeCommit = "" <;> cases own <;> cases ref <;>
    simp only [contextObject, BranchContext.fields, textUnlessEmpty, hcode, if_true, if_false] <;>
    rfl

end Contexts

/-- The timeline that is read for a context. -/
def readTimeline (f : ContentHash → ContentHash) (g : GraphState) (branch : String)
    (c : BranchContext) : List ContentHash :=
  if sharesTimeline g branch c ∧ branch = "" then [] else c.snapshotIDs.list.map f

/-- The timelines that are read from `branch_snapshots`. -/
def readBranches (f : ContentHash → ContentHash) (g : GraphState) : List (String × Json) :=
  (keyOrder g.branchSnapshots.dir).map fun e => (e.1, idArray (e.2.list.map f))

/-- A map is found in the order of its keys. -/
theorem lookup_keyOrder {α β : Type} {d : Dir String α} (f : α → β) {a : α}
    (h : d.get k = some a) : ((keyOrder d).map fun e => (e.1, f e.2)).lookup k = some (f a) := by
  have hperm : (keyOrder d).Perm d.entries := List.perm_insertionSort _ _
  refine Json.lookup_of_mem ?_ (List.mem_map.2 ⟨(k, a), ?_, rfl⟩)
  · rw [List.map_map]
    exact ((hperm.map Prod.fst).nodup_iff).2 d.nodup
  · exact hperm.mem_iff.2 (Dir.get_eq_some_iff.1 h)

/-- The timelines that are not sent again are those of the state. -/
theorem lookup_readBranches {f : ContentHash → ContentHash} {g : GraphState}
    {c : BranchContext} (h : sharesTimeline g branch c = true) :
    (readBranches f g).lookup branch = some (idArray (c.snapshotIDs.list.map f)) := by
  rw [sharesTimeline] at h
  split at h
  · rename_i ids hget
    rw [of_decide_eq_true h |>.symm]
    exact lookup_keyOrder (fun ids : Slice ContentHash => idArray (ids.list.map f)) hget
  · cases h

/-- The timeline that `EncodeV2` writes for a context is accepted and read. -/
theorem decodeTimeline_contextAt {g : GraphState} {c : BranchContext}
    (hown : ∀ id ∈ ownTimeline g branch c, id ∈ dict) {own ref : Option Json}
    (howns : own = if (ownTimeline g branch c).map (place dict) = [] then none
      else some (placesJson ((ownTimeline g branch c).map (place dict))))
    (href : ref = (textUnlessEmpty "snapshot_ids_ref"
      (if sharesTimeline g branch c then branch else "")).2) :
    invalidReference (readBranches (reread dict) g) ref own = false ∧
      decodeTimeline dict (readBranches (reread dict) g) ref own =
        .ok (idArray (readTimeline (reread dict) g branch c)) := by
  cases hshared : sharesTimeline g branch c with
  | true =>
      have hnone : own = none := by rw [howns, ownTimeline, hshared]; rfl
      by_cases hbranch : branch = ""
      · -- the empty reference is left out
        have hdropped : ref = none := by
          rw [href, hshared, hbranch]
          rfl
        rw [hnone, hdropped, readTimeline, if_pos ⟨hshared, hbranch⟩]
        exact ⟨rfl, rfl⟩
      · have hsent : ref = some (.str branch) := by
          rw [href, hshared, if_pos rfl, textUnlessEmpty, if_neg hbranch]
        rw [hnone, hsent, readTimeline, if_neg fun h => hbranch h.2, invalidReference,
          decodeTimeline, lookup_readBranches hshared]
        exact ⟨rfl, rfl⟩
  | false =>
      have hdropped : ref = none := by rw [href, hshared]; rfl
      have hids : ownTimeline g branch c = c.snapshotIDs.list := by
        rw [ownTimeline, hshared]
        rfl
      rw [hids] at hown howns
      rw [hdropped, readTimeline, if_neg fun h => Bool.false_ne_true (hshared ▸ h.1)]
      refine ⟨rfl, ?_⟩
      by_cases hempty : c.snapshotIDs.list = []
      · rw [howns, hempty]
        rfl
      · rw [howns, if_neg (by simpa using hempty)]
        exact congrArg (idArray <$> ·) (decodeIndices_places hown)

/-- A context comes back with its ids reread. -/
theorem decodeContext_contextAt {g : GraphState} {c : BranchContext}
    (hroots : ∀ id ∈ c.roots.list, id ∈ dict) (hown : ∀ id ∈ ownTimeline g branch c, id ∈ dict) :
    decodeContext dict (readBranches (reread dict) g)
        (contextAt g branch c (place dict)).json =
      .ok (structJson ({ c with
        roots := some (c.roots.list.map (reread dict))
        snapshotIDs := some (readTimeline (reread dict) g branch c) } : BranchContext).fields) := by
  obtain ⟨own, howns⟩ : ∃ own : Option Json,
      own = if (ownTimeline g branch c).map (place dict) = [] then none
        else some (placesJson ((ownTimeline g branch c).map (place dict))) := ⟨_, rfl⟩
  obtain ⟨ref, href⟩ : ∃ ref : Option Json, ref = (textUnlessEmpty "snapshot_ids_ref"
    (if sharesTimeline g branch c then branch else "")).2 := ⟨_, rfl⟩
  have hjson : (contextAt g branch c (place dict)).json =
      .obj (contextObject c (placesJson (c.roots.list.map (place dict))) own ref) := by
    rw [howns, href]
    rfl
  obtain ⟨hvalid, htimeline⟩ := decodeTimeline_contextAt hown howns href
  have hlookup := lookup_contextObject c (placesJson (c.roots.list.map (place dict))) own ref
  have hownLookup := (hlookup "snapshot_ids").trans (show _ = own from rfl)
  have hrefLookup := (hlookup "snapshot_ids_ref").trans (show _ = ref from rfl)
  have hrootsLookup := (hlookup "roots").trans
    (show _ = some (placesJson (c.roots.list.map (place dict))) from rfl)
  rw [hjson, decodeContext, objectFields, ok_bind]
  simp only [hownLookup, hrefLookup, hrootsLookup, hvalid, refuse, Bool.false_eq_true, if_false,
    ok_bind, decodeIndices_places hroots, htimeline, assign_contextObject, structJson]

/-! ### The whole state -/

/-- The list of a state under a name of `graphIndexFields`. -/
def indexed (g : GraphState) (key : String) : List ContentHash :=
  match key with
  | "snapshot_ids" => g.snapshotIDs.list
  | "graph_ids" => g.graphIDs.list
  | "committed_ids" => g.committedIDs.list
  | "historical_ids" => g.historicalIDs.list
  | "shared_ids" => g.sharedIDs.list
  | "pushed_ids" => g.pushedIDs.list
  | "unpushed_ids" => g.unpushedIDs.list
  | "uncommitted_ids" => g.uncommittedIDs.list
  | "tagged_ids" => g.taggedIDs.list
  | "archived_only_ids" => g.archivedOnlyIDs.list
  | "ahead_ids" => g.aheadIDs.list
  | "ahead_tips" => g.aheadTips.list
  | _ => []

/-- A statement about each name of `graphIndexFields`. -/
theorem forall_graphIndexFields {p : String → Prop} :
    (∀ key ∈ graphIndexFields, p key) ↔
      p "snapshot_ids" ∧ p "graph_ids" ∧ p "committed_ids" ∧ p "historical_ids" ∧ p "shared_ids" ∧
        p "pushed_ids" ∧ p "unpushed_ids" ∧ p "uncommitted_ids" ∧ p "tagged_ids" ∧
        p "archived_only_ids" ∧ p "ahead_ids" ∧ p "ahead_tips" := by
  simp only [graphIndexFields, List.forall_mem_cons, List.not_mem_nil, false_imp_iff,
    implies_true, and_true]

/-- The ids met are those of the lists, the timelines, the hold clusters and the groups. -/
theorem forall_metV1 {g : GraphState} {p : ContentHash → Prop} :
    (∀ id ∈ metV1 g, p id) ↔
      (∀ key ∈ graphIndexFields, ∀ id ∈ indexed g key, p id) ∧
        (∀ e ∈ keyOrder g.branchSnapshots.dir, ∀ id ∈ e.2.list, p id) ∧
        (∀ h ∈ g.hold.list, ∀ id ∈ h.ids.list, p id) ∧
        ∀ q ∈ g.previous.list, (∀ id ∈ q.snapshotIDs.list, p id) ∧
          ∀ id ∈ q.collapsibleIDs.list, p id := by
  rw [forall_graphIndexFields]
  simp only [metV1, metGroups, List.forall_mem_append, List.mem_flatMap, indexed]
  constructor
  · rintro ⟨h1, h2, h3, h4, h5, h6, h7, h8, h9, h10, h11, h12, hb, hh, hp⟩
    refine ⟨⟨h1, h2, h3, h4, h5, h6, h7, h8, h9, h10, h11, h12⟩,
      fun e he id hid => hb id ⟨e, he, hid⟩, fun h hm id hid => hh id ⟨h, hm, hid⟩,
      fun q hq => ?_⟩
    have hq' := fun id hid => hp id ⟨q, hq, hid⟩
    exact List.forall_mem_append.1 hq'
  · rintro ⟨⟨h1, h2, h3, h4, h5, h6, h7, h8, h9, h10, h11, h12⟩, hb, hh, hp⟩
    refine ⟨h1, h2, h3, h4, h5, h6, h7, h8, h9, h10, h11, h12, ?_, ?_, ?_⟩
    · rintro id ⟨e, he, hid⟩
      exact hb e he id hid
    · rintro id ⟨h, hm, hid⟩
      exact hh h hm id hid
    · rintro id ⟨q, hq, hid⟩
      exact (List.mem_append.1 hid).elim ((hp q hq).1 id) ((hp q hq).2 id)

section State

variable (time : ℕ → String) {g : GraphState}

/-- The names whose values are not passed through. -/
def transportNames : List String :=
  ["previous", "hold", "branch_snapshots", "branch_contexts", "dictionary", "encoding"] ++
    graphIndexFields

/-- An object that has the lists of a state as places in a dictionary. -/
structure Indexed (dict : List String) (g : GraphState) (input : List (String × Json)) :
    Prop where
  dictionary : input.lookup "dictionary" = some (.arr (dict.map .str))
  lists : ∀ key ∈ graphIndexFields,
    input.lookup key = some (placesJson ((indexed g key).map (place dict)))
  branchSnapshots : input.lookup "branch_snapshots" = some (.obj
    ((keyOrder g.branchSnapshots.dir).map fun e => (e.1, placesJson (e.2.list.map (place dict)))))
  hold : input.lookup "hold" = some (.arr (g.hold.list.map fun h =>
    WireHold.json time { tips := h.tips, ids := h.ids.list.map (place dict) }))
  previous : input.lookup "previous" = some (.arr (g.previous.list.map fun p =>
    WireProgress.json time { group := p, snapshotIDs := p.snapshotIDs.list.map (place dict)
                             collapsibleIDs := p.collapsibleIDs.list.map (place dict) }))
  rest : ∀ k, k ∉ transportNames → input.lookup k = (ofStruct (g.fields time)).lookup k

/-- The loop that assigns the decoded lists. -/
theorem lookup_foldl_assign (ids : String → List String) (keys : List String)
    (o : List (String × Json)) (k : String) :
    ((keys.foldl (fun o key => Json.assign o key (idArray (ids key))) o).lookup k) =
      if k ∈ keys then some (idArray (ids k)) else o.lookup k := by
  induction keys generalizing o with
  | nil => rfl
  | cons key keys ih =>
      rw [List.foldl_cons, ih, Json.lookup_assign]
      by_cases hk : k = key
      · subst hk
        simp
      · simp [hk]

/-- The fields of a state have distinct names. -/
theorem names_fields_nodup (g : GraphState) : (names (g.fields time)).Nodup :=
  show (["read_generation", "integrations", "branch_contexts", "branch_snapshots",
    "continuations", "operations", "version", "revision", "position_event", "primary_branch",
    "snapshot_ids", "graph_ids", "committed_ids", "historical_ids", "shared_ids", "pushed_ids",
    "unpushed_ids", "uncommitted_ids", "tagged_ids", "archived_only_ids", "ahead_ids",
    "ahead_tips", "markers", "branch_heads", "ref_scopes", "snapshot_scopes", "scope_labels",
    "hold", "orphan_sessions", "hold_counts", "positions", "previous"] : List String).Nodup by
    decide

theorem keyOrder_mapValues {α β : Type} (d : Dir String α) (f : String → α → β) :
    keyOrder (d.mapValues f) = (keyOrder d).map fun e => (e.1, f e.1 e.2) :=
  (List.map_insertionSort _ _ (fun e : String × α => (e.1, f e.1 e.2)) d.entries
    fun _ _ _ _ => Iff.rfl).symm

/-- The timelines that are read are those of what is received. -/
theorem readBranches_eq (f : ContentHash → ContentHash) (g : GraphState) :
    Json.obj (readBranches f g) = tableJson idsJson (received f g).branchSnapshots := by
  simp only [received, tableJson, keyOrder_mapValues, List.map_map, readBranches]
  rfl

/-- What is passed through does not depend on the lists. -/
theorem lookup_received (f : ContentHash → ContentHash) (hk : k ∉ transportNames) :
    (ofStruct ((received f g).fields time)).lookup k = (ofStruct (g.fields time)).lookup k := by
  have hfilter : ((received f g).fields time).filter (fun e => decide (e.1 ∉ transportNames)) =
      (g.fields time).filter (fun e => decide (e.1 ∉ transportNames)) := rfl
  have hlookup := congrArg (List.lookup k) hfilter
  rw [Json.lookup_filter fun n => decide (n ∉ transportNames),
    Json.lookup_filter fun n => decide (n ∉ transportNames), if_pos (decide_eq_true hk),
    if_pos (decide_eq_true hk)] at hlookup
  rw [Json.lookup_ofStruct (names_fields_nodup time _),
    Json.lookup_ofStruct (names_fields_nodup time _), hlookup]

/-- The two encodings. -/
theorem readEncoding_eq_ok {encoding : String} {second : Bool}
    (h : (encoding, second) ∈ [("indexed-v1", false), ("indexed-v2", true)]) :
    readEncoding (some (.str encoding)) = .ok second := by
  simp only [List.mem_cons, Prod.mk.injEq, List.not_mem_nil, or_false] at h
  obtain ⟨rfl, rfl⟩ | ⟨rfl, rfl⟩ := h <;> rfl

/-- **A state sent in either encoding is decoded.** -/
theorem decodeGraphState_of_indexed {input : List (String × Json)} (h : Indexed time dict g input)
    (hn : dict.Nodup) (hmet : ∀ id ∈ metV1 g, id ∈ dict) {encoding : String} (second : Bool)
    (hencoding : input.lookup "encoding" = some (.str encoding))
    (hsecond : (encoding, second) ∈ [("indexed-v1", false), ("indexed-v2", true)])
    {contexts : Json}
    (hcontexts : readContexts second dict (readBranches (reread dict) g)
      (input.lookup "branch_contexts") = .ok (some contexts)) :
    ∃ o, decodeGraphState input = .ok o ∧ ∀ k, o.lookup k =
      if k = "branch_contexts" then some contexts
      else (ofStruct ((received (reread dict) g).fields time)).lookup k := by
  obtain ⟨hlists, hbranches, hhold, hprevious⟩ := forall_metV1.1 hmet
  have hbranches' : ((keyOrder g.branchSnapshots.dir).map fun e =>
      (e.1, placesJson (e.2.list.map (place dict)))).mapM (fun e =>
        (fun ids => (e.1, idArray ids)) <$> decodeIndices dict (some e.2)) =
      .ok (readBranches (reread dict) g) := by
    refine mapM_map_eq_ok fun e he => ?_
    rw [decodeIndices_places (hbranches e he)]
    rfl
  have hlists' : graphIndexFields.mapM (fun key => (fun ids => (key, ids)) <$>
      decodeIndices dict (input.lookup key)) =
        .ok (graphIndexFields.map fun key => (key, (indexed g key).map (reread dict))) := by
    refine (congrArg _ (List.map_id _).symm).trans (mapM_map_eq_ok fun key hkey => ?_)
    rw [id, h.lists key hkey, decodeIndices_places (hlists key hkey)]
    rfl
  have hhold' : (g.hold.list.map fun h => WireHold.json time
      { tips := h.tips, ids := h.ids.list.map (place dict) }).mapM (decodeKeys dict ["ids"]) =
      .ok (g.hold.list.map fun h => structJson (GraphHoldCluster.fields time
        { h with ids := some (h.ids.list.map (reread dict)) })) :=
    mapM_map_eq_ok fun c hc => decodeKeys_hold time (hhold c hc)
  have hprevious' := mapM_map_eq_ok fun p hp =>
    decodeKeys_previous time (hprevious p hp).1 (hprevious p hp).2
  rw [decodeGraphState, hencoding, readEncoding_eq_ok hsecond, ok_bind, h.dictionary,
    readDictionary_strings hn, ok_bind, h.branchSnapshots, h.hold, h.previous]
  simp only [hbranches', ok_bind, hcontexts, hlists', hhold', hprevious']
  refine ⟨_, rfl, fun k => ?_⟩
  rw [Json.lookup_assign, Json.lookup_assign, Json.lookup_assign, List.foldl_map,
    lookup_foldl_assign fun key => (indexed g key).map (reread dict), Json.lookup_assign,
    Json.lookup_without]
  by_cases hk : k ∈ transportNames
  · rw [Json.lookup_ofStruct (names_fields_nodup time _)]
    simp only [transportNames, graphIndexFields, List.mem_append, List.mem_cons, List.not_mem_nil,
      or_false] at hk
    rcases hk with (rfl | rfl | rfl | rfl | rfl | rfl) | rfl | rfl | rfl | rfl | rfl | rfl | rfl |
      rfl | rfl | rfl | rfl | rfl
    case inl.inl => exact congrArg (fun l => some (Json.arr l)) (by rw [List.map_map]; rfl)
    case inl.inr.inl => exact congrArg (fun l => some (Json.arr l)) (by rw [List.map_map]; rfl)
    case inl.inr.inr.inl => exact congrArg some (readBranches_eq _ g)
    all_goals rfl
  · rw [lookup_received time _ hk, h.rest k hk]
    simp only [transportNames, List.mem_append, List.mem_cons, List.not_mem_nil, or_false,
      not_or] at hk
    obtain ⟨⟨hprev, hho, hbr, hco, hdi, hen⟩, hix⟩ := hk
    simp only [hprev, hho, hbr, hco, hdi, hen, hix, List.mem_cons, List.not_mem_nil, or_self,
      if_false]

/-! ### The two versions -/

variable (g)

/-- The fields on the wire have distinct names. -/
theorem names_wireFields_nodup (s : WireState) : (names (s.fields time)).Nodup :=
  Json.names_embedding_nodup (names_fields_nodup time s.graph)
    (show (["encoding", "dictionary", "snapshot_ids", "graph_ids", "committed_ids",
      "historical_ids", "shared_ids", "pushed_ids", "unpushed_ids", "uncommitted_ids",
      "tagged_ids", "archived_only_ids", "ahead_ids", "ahead_tips", "branch_snapshots", "hold",
      "previous"] : List String).Nodup by decide)

/-- The fields of a state that is sent as v1. -/
theorem lookup_sentV1 (k : String) :
    (sentV1 time g).lookup k = (((encode g).fields time).lookup k).join :=
  Json.lookup_ofStruct (names_wireFields_nodup time (encode g))

/-- The transport's own fields are among its names. -/
theorem transportNames_of_own {s : WireState} (h : k ∈ names (s.own time)) :
    k ∈ transportNames :=
  (show (["encoding", "dictionary", "snapshot_ids", "graph_ids", "committed_ids",
      "historical_ids", "shared_ids", "pushed_ids", "unpushed_ids", "uncommitted_ids",
      "tagged_ids", "archived_only_ids", "ahead_ids", "ahead_tips", "branch_snapshots", "hold",
      "previous"] : List String) ⊆ transportNames by decide) h

/-- The fields of the encoder are those that the decoder reads. -/
theorem indexed_of_fields {dict : List String} (s : WireState) (hgraph : s.graph = g)
    (hdict : s.dictionary = dict) (hlists : s.lists = listsAt g (place dict))
    {input : List (String × Json)}
    (h : ∀ k, k ≠ "encoding" → k ≠ "branch_contexts" →
      input.lookup k = ((s.fields time).lookup k).join) : Indexed time dict g input where
  dictionary := by
    rw [h _ (by decide) (by decide), WireState.fields, Json.lookup_embedding, ← hdict]
    rfl
  lists := by
    rw [forall_graphIndexFields]
    refine ⟨?_, ?_, ?_, ?_, ?_, ?_, ?_, ?_, ?_, ?_, ?_, ?_⟩
    all_goals
      rw [h _ (by decide) (by decide), WireState.fields, Json.lookup_embedding, WireState.own,
        hlists]
      rfl
  branchSnapshots := by
    rw [h _ (by decide) (by decide), WireState.fields, Json.lookup_embedding, WireState.own, hlists]
    refine congrArg (fun l => some (Json.obj l)) ?_
    rw [listsAt, List.map_map]
    rfl
  hold := by
    rw [h _ (by decide) (by decide), WireState.fields, Json.lookup_embedding, WireState.own, hlists]
    refine congrArg (fun l => some (Json.arr l)) ?_
    rw [listsAt, List.map_map]
    rfl
  previous := by
    rw [h _ (by decide) (by decide), WireState.fields, Json.lookup_embedding, WireState.own, hlists]
    refine congrArg (fun l => some (Json.arr l)) ?_
    rw [listsAt, List.map_map]
    rfl
  rest k hk := by
    have hown : k ∉ names (s.own time) := fun hmem => hk (transportNames_of_own time hmem)
    rw [h k (by rintro rfl; exact hk (by decide)) (by rintro rfl; exact hk (by decide)),
      WireState.fields, Json.lookup_embedding, if_neg hown, hgraph,
      Json.lookup_ofStruct (names_fields_nodup time g)]

/-- **The first version comes back with every id reread.** -/
theorem decodeGraphState_sentV1 :
    ∃ o, decodeGraphState (sentV1 time g) = .ok o ∧ ∀ k, o.lookup k =
      (ofStruct ((received (reread (dictV1 g)) g).fields time)).lookup k := by
  have hindexed : Indexed time (dictV1 g) g (sentV1 time g) :=
    indexed_of_fields time g (encode g) rfl (encode_dictionary g)
      (encode_lists_of_isPrefix List.prefix_rfl) fun k _ _ => lookup_sentV1 time g k
  have hencoding : (sentV1 time g).lookup "encoding" = some (.str "indexed-v1") := by
    rw [lookup_sentV1, WireState.fields, Json.lookup_embedding]
    rfl
  have hcontexts : (sentV1 time g).lookup "branch_contexts" =
      some (tableJson (fun c => structJson c.fields) g.branchContexts) := by
    rw [lookup_sentV1, WireState.fields, Json.lookup_embedding]
    rfl
  obtain ⟨o, ho, hlookup⟩ := decodeGraphState_of_indexed time hindexed (nodup_freshFrom _ _)
    (fun id hid => mem_dictV1.2 hid) false hencoding (by decide) (by rw [hcontexts]; rfl)
  refine ⟨o, ho, fun k => ?_⟩
  rw [hlookup]
  split_ifs with hk
  · rw [hk, Json.lookup_ofStruct (names_fields_nodup time _)]
    rfl
  · rfl

/-- The fields of one that is sent as v2. -/
theorem lookup_sentV2 (k : String) :
    (sentV2 time g).lookup k = (((encodeV2 g).fields time).lookup k).join :=
  Json.lookup_ofStruct (Json.names_embedding_nodup (names_wireFields_nodup time (encodeV2 g).state)
    (show (["encoding", "branch_contexts"] : List String).Nodup by decide))

/-- The contexts that are read. -/
theorem decodeContexts_contextsAt {dict : List String} (hmet : ∀ id ∈ metV2 g, id ∈ dict) :
    decodeContexts dict (readBranches (reread dict) g)
        (some (.obj ((contextsAt g (place dict)).map fun e => (e.1, e.2.json)))) =
      .ok (tableJson (fun c => structJson c.fields)
        (receivedV2 (reread dict) (readTimeline (reread dict) g) g).branchContexts) := by
  have hentries : ((keyOrder g.branchContexts.dir).map fun e =>
      (e.1, (contextAt g e.1 e.2 (place dict)).json)).mapM (fun e => (fun c => (e.1, c)) <$>
        decodeContext dict (readBranches (reread dict) g) e.2) =
      .ok ((keyOrder g.branchContexts.dir).map fun e => (e.1, structJson ({ e.2 with
        roots := some (e.2.roots.list.map (reread dict))
        snapshotIDs := some (readTimeline (reread dict) g e.1 e.2) } : BranchContext).fields)) := by
    refine mapM_map_eq_ok fun e he => ?_
    have hmem : ∀ id ∈ e.2.roots.list ++ ownTimeline g e.1 e.2, id ∈ dict := fun id hid =>
      hmet id (List.mem_flatMap.2 ⟨e, he, hid⟩)
    obtain ⟨hroots, hown⟩ := List.forall_mem_append.1 hmem
    rw [decodeContext_contextAt hroots hown]
    rfl
  rw [contextsAt, List.map_map]
  refine (congrArg (· >>= fun out => Except.ok (Json.obj out)) hentries).trans ?_
  simp only [receivedV2, tableJson, keyOrder_mapValues, List.map_map]
  rfl

/-- The contexts are the only difference between the two versions. -/
theorem lookup_receivedV2 (f : ContentHash → ContentHash)
    (timeline : String → BranchContext → List ContentHash)
    (hk : k ≠ "branch_contexts") :
    (ofStruct ((receivedV2 f timeline g).fields time)).lookup k =
      (ofStruct ((received f g).fields time)).lookup k := by
  have hfilter : ((receivedV2 f timeline g).fields time).filter
      (fun e => decide (e.1 ≠ "branch_contexts")) =
      ((received f g).fields time).filter (fun e => decide (e.1 ≠ "branch_contexts")) := rfl
  have hlookup := congrArg (List.lookup k) hfilter
  rw [Json.lookup_filter fun n => decide (n ≠ "branch_contexts"),
    Json.lookup_filter fun n => decide (n ≠ "branch_contexts"), if_pos (decide_eq_true hk),
    if_pos (decide_eq_true hk)] at hlookup
  rw [Json.lookup_ofStruct (names_fields_nodup time _),
    Json.lookup_ofStruct (names_fields_nodup time _), hlookup]

/-- **The second version comes back with every id reread**, and with no timeline for a
context that shares the one of the branch with the empty name. -/
theorem decodeGraphState_sentV2 :
    ∃ o, decodeGraphState (sentV2 time g) = .ok o ∧ ∀ k, o.lookup k =
      (ofStruct ((receivedV2 (reread (dictV2 g)) (readTimeline (reread (dictV2 g)) g) g).fields
        time)).lookup k := by
  have hindexed : Indexed time (dictV2 g) g (sentV2 time g) :=
    indexed_of_fields time g (encodeV2 g).state rfl (encodeV2_dictionary g)
      (encode_lists_of_isPrefix (dictV1_isPrefix g)) fun k hencoding hcontexts => by
        rw [lookup_sentV2, WireStateV2.fields, Json.lookup_embedding,
          if_neg (by simp [WireStateV2.own, names, hencoding, hcontexts])]
  have hencoding : (sentV2 time g).lookup "encoding" = some (.str "indexed-v2") := by
    rw [lookup_sentV2, WireStateV2.fields, Json.lookup_embedding]
    rfl
  have hcontexts : (sentV2 time g).lookup "branch_contexts" =
      some (.obj ((contextsAt g (place (dictV2 g))).map fun e => (e.1, e.2.json))) := by
    rw [lookup_sentV2, WireStateV2.fields, Json.lookup_embedding, ← encodeV2_contexts]
    rfl
  obtain ⟨o, ho, hlookup⟩ := decodeGraphState_of_indexed time hindexed (nodup_freshFrom _ _)
    (fun id hid => mem_dictV2.2 (.inl hid)) true hencoding (by decide) (by
      rw [hcontexts, readContexts, if_pos rfl,
        decodeContexts_contextsAt g fun id hid => mem_dictV2.2 (.inr hid)]
      rfl)
  refine ⟨o, ho, fun k => ?_⟩
  rw [hlookup]
  split_ifs with hk
  · rw [hk, Json.lookup_ofStruct (names_fields_nodup time _)]
    rfl
  · rw [lookup_receivedV2 time g _ _ hk]

end State

end Web
end CxtHub
