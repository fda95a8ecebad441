/-
# Branch lifecycle tags are a register

`cli/internal/domain/branch_lifecycle.go`.  A lifecycle tag carries a whole event in its
name: twenty digits of a generation, the state, the target and the branch, which may itself
hold slashes.  The names that parse are the names that `NewBranchLifecycleRef` builds
(`parseBranchLifecycleTagName_eq_some`), so the name of a tag and its event determine each
other.

The latest event of a branch does not depend on the order of the refs, because the
comparison is a linear order (`lifecycleKey`).  The two loops that look for it, one over a
branch and one over all of them, find the same event (`latestBranchLifecycle_eq`).
-/

import CxtHub.Cli.Values
import CxtHub.Lib.NameCodec

namespace CxtHub
namespace Cli

open Backend (ContentHash Ref BranchLifecycleEvent BranchLifecycleState validContentHash
  validBranchName contentHashPrefix branchLifecycleTagPrefix branchLifecycleLater isHexDigit
  parseLifecycleParts parseLifecycleState badBranchID digitHash)

variable {branch repoID : String} {refs refs' : List Ref} {latest : Option BranchLifecycleEvent}
  {state : BranchLifecycleState} {generation : ℕ} {states : String → Option BranchLifecycleEvent}

/-! ### The latest lifecycle event -/

/-- The rank of a state: of two events of one generation, the active one is later. -/
def stateRank : BranchLifecycleState → ℕ
  | .archived => 0
  | .active => 1

/-- The order of lifecycle events. -/
def lifecycleKey (e : BranchLifecycleEvent) : ℕ ×ₗ ℕ ×ₗ String ×ₗ String :=
  toLex (e.generation, toLex (stateRank e.state, toLex (e.target, e.refName)))

/-- The comparison of two events is that of their keys. -/
theorem later_iff {a b : BranchLifecycleEvent} :
    branchLifecycleLater a b = true ↔ lifecycleKey b < lifecycleKey a := by
  simp only [lifecycleKey, Prod.Lex.toLex_lt_toLex]
  unfold branchLifecycleLater
  split_ifs with hg hs ht
  · simp [Ne.symm hg]
  · have hrank : a.state = .active ↔ stateRank b.state < stateRank a.state := by
      cases ha : a.state <;> cases hb : b.state <;> simp [stateRank, ha, hb] at hs ⊢
    have hne : stateRank b.state ≠ stateRank a.state := by
      cases ha : a.state <;> cases hb : b.state <;> simp [stateRank, ha, hb] at hs ⊢
    simp [not_not.1 hg, hrank, hne]
  · simp [not_not.1 hg, not_not.1 hs, Ne.symm ht]
  · simp [not_not.1 hg, not_not.1 hs, not_not.1 ht]

/-- Two events of a branch with one key are one event. -/
theorem eq_of_lifecycleKey {a b : BranchLifecycleEvent} (hbranch : a.branch = b.branch)
    (h : lifecycleKey a = lifecycleKey b) : a = b := by
  simp only [lifecycleKey, EmbeddingLike.apply_eq_iff_eq, Prod.mk.injEq] at h
  obtain ⟨hg, hs, ht, hn⟩ := h
  have hstate : a.state = b.state := by
    cases ha : a.state <;> cases hb : b.state <;> simp [stateRank, ha, hb] at hs ⊢
  cases a
  simp_all

/-- A latest event among some. -/
def IsLatest (E : BranchLifecycleEvent → Prop) (latest : Option BranchLifecycleEvent) : Prop :=
  (∀ e, latest = some e → E e) ∧
    ∀ e, E e → ∃ m, latest = some m ∧ lifecycleKey e ≤ lifecycleKey m

/-- There is one latest event. -/
theorem IsLatest.unique {E : BranchLifecycleEvent → Prop}
    (hE : ∀ e, E e → e.branch = branch) {x y : Option BranchLifecycleEvent} (hx : IsLatest E x)
    (hy : IsLatest E y) : x = y := by
  cases x with
  | none =>
      cases y with
      | none => rfl
      | some b =>
          obtain ⟨m, hm, -⟩ := hx.2 b (hy.1 b rfl)
          cases hm
  | some a =>
      obtain ⟨b, rfl, hab⟩ := hy.2 a (hx.1 a rfl)
      obtain ⟨m, hm, hba⟩ := hx.2 b (hy.1 b rfl)
      cases hm
      have hbranch := (hE a (hx.1 a rfl)).trans (hE b (hy.1 b rfl)).symm
      rw [eq_of_lifecycleKey hbranch (le_antisymm hab hba)]

/-- The lifecycle events of a branch among some refs. -/
def EventAmong (refs : List Ref) (branch : String) (e : BranchLifecycleEvent) : Prop :=
  ∃ ref ∈ refs, Backend.parseBranchLifecycleRef ref = .ok (some e) ∧ e.branch = branch

/-- The loop returns the latest of the events so far and those in the refs. -/
theorem latestBranchLifecycleFrom_eq_ok
    {start : Option BranchLifecycleEvent}
    (h : latestBranchLifecycleFrom branch start refs = .ok latest) :
    IsLatest (fun e => start = some e ∨ EventAmong refs branch e) latest := by
  induction refs generalizing start with
  | nil =>
      cases h
      refine ⟨fun e he => .inl he, fun e he => ?_⟩
      rcases he with he | ⟨ref, href, -⟩
      · exact ⟨e, he, le_rfl⟩
      · cases href
  | cons ref refs ih =>
      simp only [latestBranchLifecycleFrom, parseBranchLifecycleRef, bind_eq_ok,
        ofServer_eq_ok] at h
      obtain ⟨event, hparse, h⟩ := h
      have hhead : ∀ e, EventAmong (ref :: refs) branch e ↔
          (event = some e ∧ e.branch = branch) ∨ EventAmong refs branch e := by
        intro e
        simp only [EventAmong, List.mem_cons, exists_eq_or_imp, hparse, Except.ok.injEq]
      cases event with
      | none =>
          obtain ⟨hmem, hle⟩ := ih h
          simp only [hhead, reduceCtorEq, false_and, false_or]
          exact ⟨hmem, hle⟩
      | some a =>
          obtain ⟨hmem, hle⟩ := ih h
          simp only [hhead, Option.some.injEq]
          split_ifs at hmem hle with hnew
          · -- The event takes the place of the latest one so far, which is earlier.
            refine ⟨fun e he => ?_, fun e he => ?_⟩
            · rcases hmem e he with heq | he
              · cases heq
                exact .inr (.inl ⟨rfl, hnew.1⟩)
              · exact .inr (.inr he)
            · rcases he with rfl | ⟨rfl, -⟩ | he
              · obtain ⟨m, hm, ham⟩ := hle a (.inl rfl)
                exact ⟨m, hm, (later_iff.1 hnew.2).le.trans ham⟩
              · exact hle _ (.inl rfl)
              · exact hle e (.inr he)
          · refine ⟨fun e he => (hmem e he).imp_right .inr, fun e he => ?_⟩
            rcases he with he | ⟨rfl, hbranch⟩ | he
            · exact hle e (.inl he)
            · cases start with
              | none => exact absurd ⟨hbranch, rfl⟩ hnew
              | some c =>
                  obtain ⟨m, hm, hcm⟩ := hle c (.inl rfl)
                  have hac : lifecycleKey a ≤ lifecycleKey c :=
                    not_lt.1 fun hlt => hnew ⟨hbranch, later_iff.2 hlt⟩
                  exact ⟨m, hm, hac.trans hcm⟩
            · exact hle e (.inr he)

/-- The latest event does not depend on the order of the refs. -/
theorem latestBranchLifecycle_congr
    {latest' : Option BranchLifecycleEvent}
    (hsame : ∀ e, EventAmong refs branch e ↔ EventAmong refs' branch e)
    (h : latestBranchLifecycle refs branch = .ok latest)
    (h' : latestBranchLifecycle refs' branch = .ok latest') : latest = latest' := by
  have hfirst := latestBranchLifecycleFrom_eq_ok h
  have hsecond := latestBranchLifecycleFrom_eq_ok h'
  simp only [reduceCtorEq, false_or] at hfirst hsecond
  simp only [hsame] at hfirst
  exact hfirst.unique (fun e ⟨_, _, _, hbranch⟩ => hbranch) hsecond

/-- It returns when every tag can be read. -/
theorem exists_latestBranchLifecycle (branch : String)
    (h : ∀ ref ∈ refs, ∃ event, Backend.parseBranchLifecycleRef ref = .ok event) :
    ∃ latest, latestBranchLifecycle refs branch = .ok latest := by
  suffices hall : ∀ start, ∃ latest, latestBranchLifecycleFrom branch start refs = .ok latest from
    hall none
  induction refs with
  | nil => exact fun start => ⟨start, rfl⟩
  | cons ref refs ih =>
      rw [List.forall_mem_cons] at h
      intro start
      obtain ⟨event, hevent⟩ := h.1
      simp only [latestBranchLifecycleFrom, parseBranchLifecycleRef, hevent, ofServer, ok_bind]
      cases event with
      | none => exact ih h.2 start
      | some e => exact ih h.2 _

/-! ### The names of lifecycle tags -/

/-- The name that `NewBranchLifecycleRef` prints for an event. -/
def lifecycleTagName (branch : String) (target : ContentHash) (generation : ℕ)
    (state : BranchLifecycleState) : String :=
  branchLifecycleTagPrefix ++ String.ofList (padded20 generation) ++ "/" ++
    stateName state ++ "/" ++ trimPrefix target contentHashPrefix ++ "/" ++ branch

/-- What `NewBranchLifecycleRef` asks of an event; the bound is that of `uint64`. -/
structure WritableEvent (branch : String) (target : ContentHash) (generation : ℕ) : Prop where
  branch_valid : validBranchName branch = true
  target_valid : validContentHash target = true
  generation_pos : generation ≠ 0
  generation_lt : generation < 2 ^ 64

theorem map_some_eq_ok {ε α : Type} {x : Except ε α} {y : Option α} :
    x.map some = .ok y ↔ ∃ a, x = .ok a ∧ some a = y := by
  cases x <;> simp [Except.map]

/-- The states are read by their names. -/
theorem parseLifecycleState_eq_some {part : List Char} :
    parseLifecycleState part = some state ↔ part = (stateName state).toList := by
  unfold parseLifecycleState
  split_ifs with hactive harchived
  · subst hactive
    cases state <;> simp [stateName]
  · subst harchived
    cases state <;> simp [stateName]
  · cases state <;> simp_all [stateName]

section Digits

variable {target : ContentHash} (h : validContentHash target = true)

include h

/-- A content hash has the prefix of one. -/
theorem hasPrefix_of_validContentHash : hasPrefix target contentHashPrefix = true := by
  simp only [validContentHash, Bool.and_eq_true] at h
  exact h.1.2

/-- The digits after the prefix. -/
theorem bytesOf_digits :
    bytesOf (trimPrefix target contentHashPrefix) = (bytesOf target).drop 7 := by
  conv_rhs => rw [← append_trimPrefix (hasPrefix_of_validContentHash h), bytesOf_append]
  have hlen : (bytesOf contentHashPrefix).length = 7 := by decide
  rw [← hlen, List.drop_left]

/-- There are 64 of them. -/
theorem utf8ByteSize_digits : (trimPrefix target contentHashPrefix).utf8ByteSize = 64 := by
  rw [← length_bytesOf, bytesOf_digits h, List.length_drop, length_bytesOf]
  simp only [validContentHash, Bool.and_eq_true, decide_eq_true_eq] at h
  omega

/-- The digits of a hash are hexadecimal. -/
theorem isHexDigit_of_mem {c : Char} (hc : c ∈ (trimPrefix target contentHashPrefix).toList)
    (hascii : c.toNat ≤ 127) : isHexDigit (byteOf c) = true := by
  have hencode : String.utf8EncodeChar c = [byteOf c] := if_pos hascii
  have hmem : byteOf c ∈ bytesOf (trimPrefix target contentHashPrefix) := by
    rw [bytesOf_eq_flatMap, List.mem_flatMap]
    exact ⟨c, hc, by simp [hencode]⟩
  rw [bytesOf_digits h] at hmem
  simp only [validContentHash, Bool.and_eq_true] at h
  exact List.all_eq_true.1 h.2 _ hmem

/-- No digit is a separator of the tag. -/
theorem slash_notMem_digits : '/' ∉ (trimPrefix target contentHashPrefix).toList := by
  intro hmem
  exact absurd (isHexDigit_of_mem h hmem (by decide)) (by decide)

/-- The digits of a content hash are in lower case. -/
theorem map_toLower_digits :
    (trimPrefix target contentHashPrefix).toList.map Char.toLower =
      (trimPrefix target contentHashPrefix).toList := by
  conv_rhs => rw [← List.map_id (trimPrefix target contentHashPrefix).toList]
  refine List.map_congr_left fun c hc => ?_
  rw [Char.toLower, id_eq]
  split_ifs with hupper
  · -- An upper-case letter is no digit of a hash.
    have hrange : 65 ≤ c.toNat ∧ c.toNat ≤ 90 := hupper
    have hdigit := isHexDigit_of_mem h hc (by omega)
    have hbyte : (byteOf c).toNat = c.toNat := by
      rw [byteOf, Nat.toUInt8_eq, UInt8.toNat_ofNat']
      omega
    simp only [isHexDigit, Bool.or_eq_true, Bool.and_eq_true, decide_eq_true_eq,
      UInt8.le_iff_toNat_le, hbyte] at hdigit
    have h9 : (byteOf '9').toNat = 57 := by decide
    have ha : (byteOf 'a').toNat = 97 := by decide
    omega
  · rfl

end Digits

/-- A generation is padded to twenty digits. -/
theorem utf8ByteSize_padded20 {n : ℕ} (hn : n < 2 ^ 64) :
    (String.ofList (padded20 n)).utf8ByteSize = 20 := by
  have hascii : ∀ c ∈ padded20 n, c.toNat ≤ 127 := by
    intro c hc
    have hdigit := isDigit_of_mem_padded20 hc
    rw [Char.isDigit, Bool.and_eq_true, decide_eq_true_iff, decide_eq_true_iff] at hdigit
    have hle : c.toNat ≤ 57 := hdigit.2
    omega
  rw [← length_bytesOf, bytesOf_ofList hascii, List.length_map, length_padded20 hn]

/-- A padded generation has no slash. -/
theorem slash_notMem_padded20 (n : ℕ) : '/' ∉ padded20 n :=
  fun h => absurd (isDigit_of_mem_padded20 h) (by decide)

/-- The four components of the name that is printed for an event. -/
theorem splitN_lifecycleTagName {target : ContentHash}
    (h : validContentHash target = true) :
    splitN '/' 4 (trimPrefix (lifecycleTagName branch target generation state)
        branchLifecycleTagPrefix).toList =
      [padded20 generation, (stateName state).toList,
        (trimPrefix target contentHashPrefix).toList, branch.toList] := by
  have hstate : '/' ∉ (stateName state).toList := by cases state <;> decide
  have hslash : "/".toList = ['/'] := rfl
  simp only [lifecycleTagName, String.append_assoc, trimPrefix_append, String.toList_append,
    String.toList_ofList, hslash, List.singleton_append]
  rw [splitN_append '/' (by decide) (slash_notMem_padded20 generation),
    splitN_append '/' (by decide) hstate,
    splitN_append '/' (by decide) (slash_notMem_digits h), splitN_one]

/-- What the components of a name are once they have been read. -/
theorem parseLifecycleParts_eq_ok {name : String} {parts : List (List Char)}
    {event : BranchLifecycleEvent} (h : parseLifecycleParts name parts = .ok event) :
    WritableEvent event.branch event.target event.generation ∧ event.refName = name ∧
      parts = [padded20 event.generation, (stateName event.state).toList,
        (trimPrefix event.target contentHashPrefix).toList, event.branch.toList] := by
  match parts with
  | [generation, state, target, branch] =>
      simp only [parseLifecycleParts, bind_eq_ok, exists_unit_iff, refuse_eq_ok] at h
      obtain ⟨-, h⟩ := h
      cases hg : parseUint generation with
      | none => simp [hg] at h
      | some g =>
          cases hst : parseLifecycleState state with
          | none => simp [hg, hst] at h
          | some st =>
              simp only [hg, hst, bind_eq_ok, exists_unit_iff, refuse_eq_ok,
                Backend.validateContentHash_eq_ok, Backend.validateBranchName_eq_ok,
                Except.ok.injEq] at h
              obtain ⟨hgen, -, htarget, hbranch, rfl⟩ := h
              rw [not_or, not_not] at hgen
              refine ⟨⟨hbranch, htarget, hgen.1, parseUint_lt hg⟩, rfl, ?_⟩
              rw [trimPrefix_append, String.toList_ofList, String.toList_ofList, hgen.2,
                ← parseLifecycleState_eq_some.1 hst]
  | [] | [_] | [_, _] | [_, _, _] | _ :: _ :: _ :: _ :: _ :: _ => cases h

/-- The four parts of a tag are read back. -/
theorem parseLifecycleParts_ok {name : String} {target : ContentHash}
    (state : BranchLifecycleState) (h : WritableEvent branch target generation) :
    parseLifecycleParts name [padded20 generation, (stateName state).toList,
        (trimPrefix target contentHashPrefix).toList, branch.toList] =
      .ok { branch := branch, generation := generation, state := state, target := target,
            refName := name } := by
  have htarget : contentHashPrefix ++ trimPrefix target contentHashPrefix = target :=
    append_trimPrefix (hasPrefix_of_validContentHash h.target_valid)
  have hstate : parseLifecycleState (stateName state).toList = some state :=
    parseLifecycleState_eq_some.2 rfl
  simp [parseLifecycleParts, parseUint_padded20 h.generation_lt, hstate, htarget,
    utf8ByteSize_padded20 h.generation_lt, utf8ByteSize_digits h.target_valid,
    map_toLower_digits h.target_valid, h.target_valid, h.branch_valid, h.generation_pos]

/-- The tags have their prefix. -/
theorem hasPrefix_lifecycleTagName (branch : String) (target : ContentHash) (generation : ℕ)
    (state : BranchLifecycleState) :
    hasPrefix (lifecycleTagName branch target generation state) branchLifecycleTagPrefix = true :=
  hasPrefix_iff.2 ⟨_, by simp only [lifecycleTagName, String.append_assoc]; rfl⟩

/-- Parsing the name of an event with a valid target reads its components. -/
theorem parseBranchLifecycleTagName_lifecycleTagName {target : ContentHash}
    (h : validContentHash target = true) :
    Backend.parseBranchLifecycleTagName (lifecycleTagName branch target generation state) =
      (parseLifecycleParts (lifecycleTagName branch target generation state)
        [padded20 generation, (stateName state).toList,
          (trimPrefix target contentHashPrefix).toList, branch.toList]).map some := by
  rw [Backend.parseBranchLifecycleTagName, if_pos (hasPrefix_lifecycleTagName ..),
    splitN_lifecycleTagName h]

/-- **The tag of an event is read back.** -/
theorem parseBranchLifecycleTagName_of_writable {target : ContentHash}
    (state : BranchLifecycleState) (h : WritableEvent branch target generation) :
    Backend.parseBranchLifecycleTagName (lifecycleTagName branch target generation state) =
      .ok (some { branch := branch, generation := generation, state := state, target := target,
                  refName := lifecycleTagName branch target generation state }) := by
  rw [parseBranchLifecycleTagName_lifecycleTagName h.target_valid, parseLifecycleParts_ok state h]
  rfl

/-- **The names that parse are those that are printed for an event.** -/
theorem parseBranchLifecycleTagName_eq_some {name : String} {event : BranchLifecycleEvent} :
    Backend.parseBranchLifecycleTagName name = .ok (some event) ↔
      WritableEvent event.branch event.target event.generation ∧ event.refName = name ∧
        name = lifecycleTagName event.branch event.target event.generation event.state := by
  constructor
  · intro h
    unfold Backend.parseBranchLifecycleTagName at h
    split_ifs at h with hpfx
    · obtain ⟨e, hparts, heq⟩ := map_some_eq_ok.1 h
      cases heq
      obtain ⟨hwritable, hname, hparts⟩ := parseLifecycleParts_eq_ok hparts
      refine ⟨hwritable, hname, ?_⟩
      have hjoin := intercalate_splitN '/' 4 (trimPrefix name branchLifecycleTagPrefix).toList
      rw [hparts] at hjoin
      rw [← append_trimPrefix hpfx, ← String.toList_inj, String.toList_append, ← hjoin]
      simp [lifecycleTagName, List.intercalate_cons_cons]
    · cases h
  · rintro ⟨hwritable, hname, rfl⟩
    rw [parseBranchLifecycleTagName_of_writable event.state hwritable, ← hname]

/-- The generation of a name that parses fits in 64 bits. -/
theorem generation_lt_of_parse {target : ContentHash}
    {event : Option BranchLifecycleEvent}
    (htarget : validContentHash target = true)
    (h : Backend.parseBranchLifecycleTagName (lifecycleTagName branch target generation state) =
      .ok event) : generation < 2 ^ 64 := by
  rw [parseBranchLifecycleTagName_lifecycleTagName htarget] at h
  obtain ⟨e, hparts, -⟩ := map_some_eq_ok.1 h
  obtain ⟨hwritable, -, hparts⟩ := parseLifecycleParts_eq_ok hparts
  rw [padded20_injective (List.cons.inj hparts).1]
  exact hwritable.generation_lt

/-- What `NewBranchLifecycleRef` builds, and when. -/
theorem newBranchLifecycleRef_eq_ok {target : ContentHash}
    {ref : Ref} :
    newBranchLifecycleRef repoID branch target generation state = .ok ref ↔
      WritableEvent branch target generation ∧
        ref = { kind := .tag, repoID := repoID, target := target
                name := lifecycleTagName branch target generation state } := by
  have hbranchID : ¬ badBranchID "" := by decide
  have hname : validateRefName .tag (lifecycleTagName branch target generation state) = .ok () ↔
      ∃ event, Backend.parseBranchLifecycleTagName
        (lifecycleTagName branch target generation state) = .ok event := by
    simp [validateRefName, Backend.validateRefName, hasPrefix_lifecycleTagName]
  simp only [newBranchLifecycleRef, bind_eq_ok, exists_unit_iff, validateBranchName_eq_ok,
    validateContentHash_eq_ok, refuse_eq_ok, Except.ok.injEq]
  rw [validateRef_eq_ok (by simp)]
  constructor
  · rintro ⟨hbranch, htarget, hpos, ⟨-, hparse, -⟩, rfl⟩
    obtain ⟨event, hevent⟩ := hname.1 hparse
    exact ⟨⟨hbranch, htarget, hpos, generation_lt_of_parse htarget hevent⟩, rfl⟩
  · rintro ⟨hwritable, rfl⟩
    refine ⟨hwritable.branch_valid, hwritable.target_valid, hwritable.generation_pos,
      ⟨hbranchID, hname.2 ?_, hwritable.target_valid⟩, rfl⟩
    exact ⟨_, parseBranchLifecycleTagName_of_writable state hwritable⟩

/-- The event of a tag that was built for it. -/
theorem parseBranchLifecycleRef_of_new {target : ContentHash}
    {ref : Ref}
    (h : newBranchLifecycleRef repoID branch target generation state = .ok ref) :
    Backend.parseBranchLifecycleRef ref =
      .ok (some { branch := branch, generation := generation, state := state, target := target,
                  refName := ref.name }) := by
  obtain ⟨hwritable, rfl⟩ := newBranchLifecycleRef_eq_ok.1 h
  simp [Backend.parseBranchLifecycleRef, parseBranchLifecycleTagName_of_writable state hwritable]

/-! ### The register -/

/-- `BranchLifecycleStates`. -/
def branchLifecycleStates (refs : List Ref) :
    Except DomainError (String → Option BranchLifecycleEvent) :=
  ofServer (Backend.branchLifecycleStates refs)

/-- The client's loop is the server's, at one branch. -/
theorem latestBranchLifecycleFrom_eq (branch : String) (refs : List Ref)
    (states : String → Option BranchLifecycleEvent) :
    latestBranchLifecycleFrom branch (states branch) refs =
      (ofServer (Backend.branchLifecycleStatesFrom states refs)).map fun states =>
        states branch := by
  induction refs generalizing states with
  | nil => rfl
  | cons ref refs ih =>
      simp only [latestBranchLifecycleFrom, Backend.branchLifecycleStatesFrom,
        parseBranchLifecycleRef]
      cases hparse : Backend.parseBranchLifecycleRef ref with
      | error e => rfl
      | ok event =>
          cases event with
          | none => exact ih states
          | some event =>
              -- The map changes at the branch of the event only.
              refine Eq.trans (congrArg (latestBranchLifecycleFrom branch · refs) ?_) (ih _)
              by_cases hbranch : event.branch = branch
              · subst hbranch
                cases hcurrent : states event.branch with
                | none => simp
                | some current =>
                    by_cases hlater : branchLifecycleLater event current = true <;>
                      simp [hlater, hcurrent]
              · rw [if_neg (fun h => hbranch h.1)]
                split_ifs
                · rw [Function.update_of_ne (Ne.symm hbranch)]
                · rfl

/-- **The two loops find the same latest events.** -/
theorem latestBranchLifecycle_eq (refs : List Ref) (branch : String) :
    latestBranchLifecycle refs branch =
      (branchLifecycleStates refs).map fun states => states branch :=
  latestBranchLifecycleFrom_eq branch refs fun _ => none

/-- The client's latest event is the one in the server's map. -/
theorem latestBranchLifecycle_of_states
    (h : branchLifecycleStates refs = .ok states)
    (branch : String) : latestBranchLifecycle refs branch = .ok (states branch) := by
  rw [latestBranchLifecycle_eq, h]
  rfl

/-- When the loop returns, every tag was read. -/
theorem parsed_of_latestBranchLifecycle
    (h : latestBranchLifecycle refs branch = .ok latest) :
    ∀ ref ∈ refs, ∃ event, Backend.parseBranchLifecycleRef ref = .ok event := by
  suffices hall : ∀ start, latestBranchLifecycleFrom branch start refs = .ok latest →
      ∀ ref ∈ refs, ∃ event, Backend.parseBranchLifecycleRef ref = .ok event from hall none h
  clear h
  induction refs with
  | nil => exact fun _ _ _ hmem => absurd hmem List.not_mem_nil
  | cons ref refs ih =>
      intro start h
      simp only [latestBranchLifecycleFrom, parseBranchLifecycleRef, bind_eq_ok,
        ofServer_eq_ok] at h
      obtain ⟨event, hparse, h⟩ := h
      rw [List.forall_mem_cons]
      refine ⟨⟨event, hparse⟩, ?_⟩
      cases event with
      | none => exact ih _ h
      | some _ => exact ih _ h

/-- The map has a value exactly when every ref parses. -/
theorem exists_branchLifecycleStates :
    (∃ states, branchLifecycleStates refs = .ok states) ↔
      ∀ ref ∈ refs, ∃ event, Backend.parseBranchLifecycleRef ref = .ok event := by
  constructor
  · rintro ⟨states, h⟩
    exact parsed_of_latestBranchLifecycle (latestBranchLifecycle_of_states h "")
  · intro h
    obtain ⟨latest, hlatest⟩ := exists_latestBranchLifecycle "" h
    rw [latestBranchLifecycle_eq] at hlatest
    cases hstates : branchLifecycleStates refs with
    | ok states => exact ⟨states, rfl⟩
    | error e => simp [hstates, Except.map] at hlatest

/-- Both loops see the events of the refs, not their order or how often they stand there. -/
theorem branchLifecycleStates_congr
    {states' : String → Option BranchLifecycleEvent}
    (hsame : ∀ ref, ref ∈ refs ↔ ref ∈ refs') (h : branchLifecycleStates refs = .ok states)
    (h' : branchLifecycleStates refs' = .ok states') : states = states' := by
  funext branch
  refine latestBranchLifecycle_congr ?_ (latestBranchLifecycle_of_states h branch)
    (latestBranchLifecycle_of_states h' branch)
  simp only [EventAmong, hsame, implies_true]

/-- The server's map holds the latest event of each branch. -/
theorem states_isLatest
    (h : branchLifecycleStates refs = .ok states) (branch : String) :
    IsLatest (EventAmong refs branch) (states branch) := by
  have hlatest := latestBranchLifecycleFrom_eq_ok (latestBranchLifecycle_of_states h branch)
  simpa only [reduceCtorEq, false_or] using hlatest

/-- The next generation is above that of every event of the branch. -/
theorem lt_nextBranchLifecycleGeneration
    (h : nextBranchLifecycleGeneration refs branch = .ok generation) {e : BranchLifecycleEvent}
    (he : EventAmong refs branch e) : e.generation < generation := by
  simp only [nextBranchLifecycleGeneration, bind_eq_ok] at h
  obtain ⟨latest, hlatest, h⟩ := h
  have hspec := latestBranchLifecycleFrom_eq_ok hlatest
  simp only [reduceCtorEq, false_or] at hspec
  obtain ⟨m, rfl, hle⟩ := hspec.2 e he
  simp only [bind_eq_ok, exists_unit_iff, refuse_eq_ok, Except.ok.injEq] at h
  have hgen : e.generation ≤ m.generation := by
    simp only [lifecycleKey, Prod.Lex.toLex_le_toLex] at hle
    rcases hle with hlt | ⟨heq, -⟩
    · exact hlt.le
    · exact heq.le
  omega

/-- **A tag of the next generation is the latest of its branch**, wherever it stands among the
refs, and the other branches keep their latest events. -/
theorem branchLifecycleStates_of_new
    {target : ContentHash} {ref : Ref}
    (hnext : nextBranchLifecycleGeneration refs branch = .ok generation)
    (hnew : newBranchLifecycleRef repoID branch target generation state = .ok ref)
    (hrefs : ∀ r, r ∈ refs' ↔ r = ref ∨ r ∈ refs)
    (hstates : branchLifecycleStates refs = .ok states) :
    branchLifecycleStates refs' = .ok (Function.update states branch
      (some { branch := branch, generation := generation, state := state, target := target,
              refName := ref.name })) := by
  have hparse := parseBranchLifecycleRef_of_new hnew
  have hall : ∀ r ∈ refs', ∃ event, Backend.parseBranchLifecycleRef r = .ok event := by
    intro r hr
    rcases (hrefs r).1 hr with rfl | hr
    · exact ⟨_, hparse⟩
    · exact exists_branchLifecycleStates.1 ⟨states, hstates⟩ r hr
  obtain ⟨states', hstates'⟩ := exists_branchLifecycleStates.2 hall
  have hevents : ∀ b e, EventAmong refs' b e ↔
      (e = { branch := branch, generation := generation, state := state, target := target
             refName := ref.name } ∧ branch = b) ∨ EventAmong refs b e := by
    intro b e
    simp only [EventAmong, hrefs, exists_eq_or_imp, hparse, Except.ok.injEq, Option.some.injEq]
    refine or_congr_left ⟨?_, ?_⟩
    · rintro ⟨rfl, hb⟩
      exact ⟨rfl, hb⟩
    · rintro ⟨rfl, hb⟩
      exact ⟨rfl, hb⟩
  rw [hstates', Except.ok.injEq]
  funext b
  have hlatest' := states_isLatest hstates' b
  by_cases hb : b = branch
  · subst hb
    rw [Function.update_self]
    refine hlatest'.unique (fun e he => he.choose_spec.2.2) ⟨?_, ?_⟩
    · rintro e ⟨⟩
      exact (hevents b _).2 (.inl ⟨rfl, rfl⟩)
    · intro e he
      refine ⟨_, rfl, ?_⟩
      rcases (hevents b e).1 he with ⟨rfl, -⟩ | hold
      · exact le_rfl
      · exact Prod.Lex.toLex_le_toLex.2 (.inl (lt_nextBranchLifecycleGeneration hnext hold))
  · rw [Function.update_of_ne hb]
    have hsame : EventAmong refs' b = EventAmong refs b := by
      funext e
      simp [hevents b e, Ne.symm hb]
    rw [hsame] at hlatest'
    exact hlatest'.unique (fun e he => he.choose_spec.2.2) (states_isLatest hstates b)

/-- **Branch lifecycle tags are a last-writer-wins register with an injective name.**  What is
written is read back, the names that parse are those that are written, and no two events share
one.  The two loops agree, failures included; lists with the same refs succeed together, with the
same events.  A tag of the next generation takes effect on its branch alone. -/
theorem branchLifecycle_lastWriterWins :
    (∀ (repoID branch : String) (target : ContentHash) (generation : ℕ)
      (state : BranchLifecycleState), validBranchName branch = true →
        validContentHash target = true → 1 ≤ generation → generation < 2 ^ 64 →
        ∃ ref, newBranchLifecycleRef repoID branch target generation state = .ok ref ∧
          parseBranchLifecycleRef ref = .ok (some
            { branch := branch, generation := generation, state := state, target := target
              refName := ref.name })) ∧
    (∀ (repoID name : String) (event : BranchLifecycleEvent),
      ofServer (Backend.parseBranchLifecycleTagName name) = .ok (some event) →
        ∃ ref, newBranchLifecycleRef repoID event.branch event.target event.generation
          event.state = .ok ref ∧ ref.name = name) ∧
    (∀ (repoID repoID' branch branch' : String) (target target' : ContentHash)
      (generation generation' : ℕ) (state state' : BranchLifecycleState) (ref ref' : Ref),
      newBranchLifecycleRef repoID branch target generation state = .ok ref →
        newBranchLifecycleRef repoID' branch' target' generation' state' = .ok ref' →
        ref.name = ref'.name →
        branch = branch' ∧ target = target' ∧ generation = generation' ∧ state = state') ∧
    (∀ (refs : List Ref) (branch : String), latestBranchLifecycle refs branch =
      (branchLifecycleStates refs).map fun states => states branch) ∧
    (∀ refs refs' : List Ref, (∀ ref, ref ∈ refs ↔ ref ∈ refs') →
      ((∃ states, branchLifecycleStates refs = .ok states) ↔
        ∃ states, branchLifecycleStates refs' = .ok states) ∧
      ∀ states states', branchLifecycleStates refs = .ok states →
        branchLifecycleStates refs' = .ok states' → states = states') ∧
    (∀ (refs refs' : List Ref) (repoID branch : String) (target : ContentHash) (generation : ℕ)
      (state : BranchLifecycleState) (ref : Ref),
      nextBranchLifecycleGeneration refs branch = .ok generation →
        newBranchLifecycleRef repoID branch target generation state = .ok ref →
        (∀ r, r ∈ refs' ↔ r = ref ∨ r ∈ refs) →
        ∃ states, branchLifecycleStates refs = .ok states ∧
          branchLifecycleStates refs' = .ok (Function.update states branch (some
            { branch := branch, generation := generation, state := state, target := target
              refName := ref.name }))) := by
  refine ⟨?_, ?_, ?_, latestBranchLifecycle_eq, ?_, ?_⟩
  · intro repoID branch target generation state hbranch htarget hpos hlt
    have hnew : newBranchLifecycleRef repoID branch target generation state = .ok _ :=
      newBranchLifecycleRef_eq_ok.2 ⟨⟨hbranch, htarget, by omega, hlt⟩, rfl⟩
    exact ⟨_, hnew, ofServer_eq_ok.2 (parseBranchLifecycleRef_of_new hnew)⟩
  · intro repoID name event h
    obtain ⟨hwritable, -, hname⟩ := parseBranchLifecycleTagName_eq_some.1 (ofServer_eq_ok.1 h)
    exact ⟨_, newBranchLifecycleRef_eq_ok.2 ⟨hwritable, rfl⟩, hname.symm⟩
  · intro repoID repoID' branch branch' target target' generation generation' state state' ref ref'
      hnew hnew' hname
    obtain ⟨hwritable, rfl⟩ := newBranchLifecycleRef_eq_ok.1 hnew
    obtain ⟨hwritable', rfl⟩ := newBranchLifecycleRef_eq_ok.1 hnew'
    have hread := parseBranchLifecycleTagName_of_writable state hwritable
    have hread' := parseBranchLifecycleTagName_of_writable state' hwritable'
    dsimp only at hname
    rw [hname, hread'] at hread
    obtain ⟨rfl, rfl, rfl, rfl, -⟩ := hread
    exact ⟨rfl, rfl, rfl, rfl⟩
  · intro refs refs' hsame
    refine ⟨?_, fun states states' => branchLifecycleStates_congr hsame⟩
    simp only [exists_branchLifecycleStates, hsame]
  · intro refs refs' repoID branch target generation state ref hnext hnew hrefs
    have hall : ∀ r ∈ refs, ∃ event, Backend.parseBranchLifecycleRef r = .ok event := by
      simp only [nextBranchLifecycleGeneration, bind_eq_ok] at hnext
      obtain ⟨latest, hlatest, -⟩ := hnext
      exact parsed_of_latestBranchLifecycle hlatest
    obtain ⟨states, hstates⟩ := exists_branchLifecycleStates.2 hall
    exact ⟨states, hstates, branchLifecycleStates_of_new hnext hnew hrefs hstates⟩

/-- A branch with a slash in its name, active at the last generation but one and archived at the
last: the two tags are read back, have different names, are the only ones of their names, and the
second takes effect, in whatever order and however often they are listed. -/
theorem branchLifecycle_lastGeneration :
    ∃ active archived states,
      newBranchLifecycleRef "repo" "feature/x" (digitHash '7') (2 ^ 64 - 2) .active = .ok active ∧
      newBranchLifecycleRef "repo" "feature/x" (digitHash '8') (2 ^ 64 - 1) .archived =
        .ok archived ∧
      active.name ≠ archived.name ∧
      (∃ ref, newBranchLifecycleRef "other" "feature/x" (digitHash '8') (2 ^ 64 - 1) .archived =
        .ok ref ∧ ref.name = archived.name) ∧
      branchLifecycleStates [active] = .ok states ∧
      branchLifecycleStates [archived, active] = .ok (Function.update states "feature/x" (some
        { branch := "feature/x", generation := 2 ^ 64 - 1, state := .archived
          target := digitHash '8', refName := archived.name })) ∧
      latestBranchLifecycle [active, archived, active] "feature/x" = .ok (some
        { branch := "feature/x", generation := 2 ^ 64 - 1, state := .archived
          target := digitHash '8', refName := archived.name }) := by
  obtain ⟨hread, hcanonical, hinjective, hlatest, hsame, hnext⟩ := branchLifecycle_lastWriterWins
  obtain ⟨active, hactive, hparse⟩ := hread "repo" "feature/x" (digitHash '7') (2 ^ 64 - 2) .active
    (by decide) (by decide) (by decide) (by decide)
  obtain ⟨archived, harchived, -⟩ := hread "repo" "feature/x" (digitHash '8') (2 ^ 64 - 1)
    .archived (by decide) (by decide) (by decide) (by decide)
  have hgeneration : nextBranchLifecycleGeneration [active] "feature/x" = .ok (2 ^ 64 - 1) := by
    simp [nextBranchLifecycleGeneration, latestBranchLifecycle, latestBranchLifecycleFrom, hparse,
      refuse]
  obtain ⟨states, hstates, hupdated⟩ := hnext [active] [archived, active] _ _ _ _ _ _ hgeneration
    harchived (by simp)
  obtain ⟨states', hstates'⟩ := (hsame [archived, active] [active, archived, active] (by simp)).1.1
    ⟨_, hupdated⟩
  have hupdated' := (hsame [archived, active] [active, archived, active] (by simp)).2 _ _ hupdated
    hstates'
  have hname : ofServer (Backend.parseBranchLifecycleTagName archived.name) = .ok (some
      { branch := "feature/x", generation := 2 ^ 64 - 1, state := .archived
        target := digitHash '8', refName := archived.name }) := by
    obtain ⟨hwritable, rfl⟩ := newBranchLifecycleRef_eq_ok.1 harchived
    exact ofServer_eq_ok.2 (parseBranchLifecycleTagName_of_writable .archived hwritable)
  have hother := hcanonical "other" _ _ hname
  dsimp only at hother
  refine ⟨active, archived, states, hactive, harchived, fun hne => ?_, hother, hstates, hupdated,
    ?_⟩
  · have hgen := (hinjective _ _ _ _ _ _ _ _ _ _ _ _ hactive harchived hne).2.2.1
    omega
  · rw [hlatest, hstates', ← hupdated']
    simp [Except.map]

end Cli
end CxtHub
