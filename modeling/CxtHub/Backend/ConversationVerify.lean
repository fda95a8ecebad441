/-
# What the streaming verifier accepts

The scanner of `ConversationScan` keeps a stack and five flags between two bytes.  They are
determined by the bytes read so far: a list of complete events, and then nothing, a comma,
or the beginning of one more event (`Position`).  One byte takes such a description to the
next (`Position.take`), so a whole run does, and no chunk boundary is seen.  In the other
direction every list of events is read as it was written (`add_joined`).
-/

import CxtHub.Backend.ConversationScan

namespace CxtHub
namespace Backend

open Framing (Frame Balanced Stays)
open ConversationEventScanner (anyByte)

variable {env : ManifestEnv}

/-! ### Event lists -/

/-- An event as the scanner cuts it: an object whose brackets are balanced outside strings,
with at most `eventDepth` of them open. -/
def IsEventFrame (e : Bytes) : Prop :=
  ∃ u, e = byteOf '\x7b' :: (u ++ [byteOf '\x7d']) ∧ Balanced anyByte (eventDepth - 1) u

/-- The events separated by single commas. -/
def joined (events : List (Bytes × ℤ)) : Bytes := [byteOf ','].intercalate (events.map Prod.fst)

/-- What stands before the next event. -/
def lead (events : List (Bytes × ℤ)) : Bytes :=
  if events = [] then [] else joined events ++ [byteOf ',']

/-- The stream with one more event at its end. -/
theorem joined_append (events : List (Bytes × ℤ)) (p : Bytes × ℤ) :
    joined (events ++ [p]) = lead events ++ p.1 := by
  induction events with
  | nil => simp [joined, lead]
  | cons q events ih =>
      cases events with
      | nil => simp [joined, lead, List.intercalate_cons_cons]
      | cons r events =>
          simp only [lead, reduceCtorEq, if_false, joined, List.cons_append, List.map_cons,
            List.intercalate_cons_cons] at ih ⊢
          rw [ih]
          simp only [List.append_assoc]

/-- Events that a check accepts, each with its sequence number, in order. -/
structure AcceptedEvents (cfg : ScannerSettings) (events : List (Bytes × ℤ)) : Prop where
  framed : ∀ p ∈ events, IsEventFrame p.1
  utf8 : ∀ p ∈ events, utf8Valid p.1 = true
  checked : ∀ p ∈ events, cfg.check cfg.version p.1 = .ok p.2
  ordered : (events.map Prod.snd).IsChain (· ≤ ·)

/-- The empty list of events is accepted. -/
theorem accepted_nil (cfg : ScannerSettings) : AcceptedEvents cfg [] :=
  ⟨by simp, by simp, by simp, by simp⟩

/-- One more event is accepted after those before it. -/
theorem accepted_append {cfg : ScannerSettings} {events : List (Bytes × ℤ)} {p : Bytes × ℤ} :
    AcceptedEvents cfg (events ++ [p]) ↔ AcceptedEvents cfg events ∧ IsEventFrame p.1 ∧
      utf8Valid p.1 = true ∧ cfg.check cfg.version p.1 = .ok p.2 ∧
      ∀ last ∈ (events.map Prod.snd).getLast?, last ≤ p.2 := by
  constructor
  · rintro ⟨hframed, hutf8, hchecked, hordered⟩
    rw [List.map_append, List.isChain_append] at hordered
    simp only [List.forall_mem_append, List.forall_mem_singleton] at hframed hutf8 hchecked
    exact ⟨⟨hframed.1, hutf8.1, hchecked.1, hordered.1⟩, hframed.2, hutf8.2, hchecked.2,
      fun last hlast => hordered.2.2 last hlast p.2 rfl⟩
  · rintro ⟨⟨hframed, hutf8, hchecked, hordered⟩, hframe, hvalid, hcheck, hlast⟩
    refine ⟨?_, ?_, ?_, ?_⟩
    · exact List.forall_mem_append.2 ⟨hframed, List.forall_mem_singleton.2 hframe⟩
    · exact List.forall_mem_append.2 ⟨hutf8, List.forall_mem_singleton.2 hvalid⟩
    · exact List.forall_mem_append.2 ⟨hchecked, List.forall_mem_singleton.2 hcheck⟩
    · rw [List.map_append, List.isChain_append]
      refine ⟨hordered, List.isChain_singleton _, fun last hmem y hy => ?_⟩
      cases hy
      exact hlast last hmem

/-! ### The state after some bytes -/

namespace ConversationEventScanner

variable {cfg : ScannerSettings} {s s' : ConversationEventScanner} {events : List (Bytes × ℤ)}
  {ch : UInt8}

/-- The counters of a scanner that has completed some events. -/
structure Tally (cfg : ScannerSettings) (events : List (Bytes × ℤ))
    (s : ConversationEventScanner) : Prop where
  accepted : AcceptedEvents cfg events
  count : s.count = events.length
  last : (events.map Prod.snd).getLast? = if s.havePrevious then some s.previous else none

/-- A scanner that is not inside an event. -/
structure Between (s : ConversationEventScanner) (needComma afterComma : Bool) : Prop where
  stack : s.stack = []
  quoted : s.quoted = false
  escaped : s.escaped = false
  need : s.needComma = needComma
  after : s.afterComma = afterComma

/-- Where a scanner stands in the stream, given the events it has completed. -/
inductive Position (events : List (Bytes × ℤ)) (s : ConversationEventScanner) : Bytes → Prop
  | start : events = [] → Between s false false → Position events s []
  | closed : events ≠ [] → Between s true false → Position events s (joined events)
  | comma : events ≠ [] → Between s false true → Position events s (lead events)
  | inside : s.stack ≠ [] → s.frame.Reads anyByte eventDepth s.event →
      s.event.head? = some (byteOf '\x7b') → s.needComma = false → s.afterComma = false →
      Position events s (lead events ++ s.event)

/-- The first byte of an event. -/
theorem take_open (hstack : s.stack = []) (hneed : s.needComma = false)
    (h : s.take cfg ch = .ok s') :
    ch = byteOf '\x7b' ∧ s.count < cfg.limit ∧
      s' = { s with stack := [ch], event := [ch], afterComma := false } := by
  rw [take, if_pos hstack, if_neg (by rw [hneed]; decide)] at h
  split_ifs at h with hshape
  rw [not_or, not_not, not_le] at hshape
  cases h
  exact ⟨hshape.1, hshape.2, rfl⟩

/-- What completing an event checks and records. -/
theorem complete_eq_ok (hobserve : cfg.observe = none) :
    s.complete cfg = .ok s' ↔ utf8Valid s.event = true ∧
      ∃ seq, cfg.check cfg.version s.event = .ok seq ∧ (s.havePrevious = true → s.previous ≤ seq) ∧
        s' = { s with previous := seq, havePrevious := true, count := s.count + 1
                      needComma := true } := by
  simp only [complete, bind_eq_ok, exists_unit_iff, refuse_eq_ok, hobserve, Except.ok.injEq,
    Bool.not_eq_false, not_and, not_lt, true_and]
  refine and_congr_right fun _ => exists_congr fun seq => ?_
  cases cfg.check cfg.version s.event with
  | error cause => simp [Except.mapError]
  | ok n =>
      simp only [Except.mapError, Except.ok.injEq]
      exact and_congr_right fun _ => and_congr_right fun _ => eq_comm

/-- The byte that closes an event records it. -/
theorem tally_complete (hobserve : cfg.observe = none) (htally : Tally cfg events s) {e : Bytes}
    (he : IsEventFrame e)
    (h : complete cfg { s with stack := [], event := e } = .ok s') :
    ∃ seq, Tally cfg (events ++ [(e, seq)]) s' ∧
      s' = { s with stack := [], event := e, previous := seq, havePrevious := true
                    count := s.count + 1, needComma := true } := by
  obtain ⟨hutf8, seq, hcheck, horder, rfl⟩ := (complete_eq_ok hobserve).1 h
  refine ⟨seq, ⟨?_, ?_, ?_⟩, rfl⟩
  · refine accepted_append.2 ⟨htally.accepted, he, hutf8, hcheck, fun last hlast => ?_⟩
    rw [htally.last] at hlast
    split_ifs at hlast with hprevious
    · cases hlast
      exact horder hprevious
    · cases hlast
  · simp [htally.count]
  · simp

/-- The first byte of an event opens its frame. -/
theorem position_open (hquoted : s.quoted = false) (hescaped : s.escaped = false)
    (hneed : s.needComma = false) :
    Position events
      { s with stack := [byteOf '\x7b'], event := [byteOf '\x7b'], afterComma := false }
      (lead events ++ [byteOf '\x7b']) := by
  refine .inside (List.cons_ne_nil _ _) ?_ rfl hneed rfl
  have hframe : Frame.Reads anyByte eventDepth { stack := [byteOf '\x7b'] } [byteOf '\x7b'] :=
    Framing.Frame.reads_start (.inl rfl) (by decide)
  simpa only [frame, hquoted, hescaped] using hframe

/-- **One byte**: the description of the bytes so far becomes one of the bytes with it. -/
theorem Position.take (hobserve : cfg.observe = none) {x : Bytes} (hpos : Position events s x)
    (htally : Tally cfg events s) (h : s.take cfg ch = .ok s') :
    ∃ events', Tally cfg events' s' ∧ Position events' s' (x ++ [ch]) := by
  cases hpos with
  | start hnil hbetween =>
      obtain ⟨rfl, -, rfl⟩ := take_open hbetween.stack hbetween.need h
      refine ⟨events, ⟨htally.accepted, htally.count, htally.last⟩, ?_⟩
      have hopened : Position events _ (lead events ++ [byteOf '\x7b']) :=
        position_open hbetween.quoted hbetween.escaped hbetween.need
      rwa [lead, if_pos hnil] at hopened
  | closed hne hbetween =>
      rw [ConversationEventScanner.take, if_pos hbetween.stack, if_pos hbetween.need] at h
      split_ifs at h with hcomma
      rw [not_not] at hcomma
      cases h
      refine ⟨events, ⟨htally.accepted, htally.count, htally.last⟩, ?_⟩
      have hlead : joined events ++ [ch] = lead events := by rw [lead, if_neg hne, hcomma]
      rw [hlead]
      exact .comma hne ⟨hbetween.stack, hbetween.quoted, hbetween.escaped, rfl, rfl⟩
  | comma hne hbetween =>
      obtain ⟨rfl, -, rfl⟩ := take_open hbetween.stack hbetween.need h
      refine ⟨events, ⟨htally.accepted, htally.count, htally.last⟩, ?_⟩
      exact position_open hbetween.quoted hbetween.escaped hbetween.need
  | inside hstack hreads hhead hneed hafter =>
      obtain ⟨f, hreading⟩ := exists_reading_of_take hstack h
      rw [take_inside hstack hreading] at h
      rcases hreads.reading hstack hreading with
        ⟨hopen, hreads'⟩ | ⟨hclosed, hquoted, hescaped, o, u, ho, hframe, hu⟩
      · rw [if_neg hopen] at h
        cases h
        refine ⟨events, ⟨htally.accepted, htally.count, htally.last⟩, ?_⟩
        rw [List.append_assoc]
        refine .inside hopen hreads' ?_ hneed hafter
        simp [hhead]
      · subst hclosed
        have hobject : o = byteOf '\x7b' := by
          have hfirst := congrArg List.head? hframe
          simpa [hhead] using hfirst.symm
        subst hobject
        obtain ⟨seq, htally', rfl⟩ := tally_complete hobserve htally ⟨u, hframe, hu⟩ h
        refine ⟨_, htally', ?_⟩
        rw [List.append_assoc, ← joined_append events (s.event ++ [ch], seq)]
        exact .closed (by simp) ⟨rfl, hquoted, hescaped, rfl, hafter⟩

/-- **A run**: what the scanner has seen after some bytes. -/
theorem position_of_add (hobserve : cfg.observe = none) {x : Bytes}
    (h : add cfg {} x = .ok s) : ∃ events, Tally cfg events s ∧ Position events s x := by
  have hstart : ∃ events, Tally cfg events {} ∧ Position events {} [] :=
    ⟨[], ⟨accepted_nil cfg, rfl, rfl⟩, .start rfl ⟨rfl, rfl, rfl, rfl, rfl⟩⟩
  exact foldlM_invariant (P := fun x s => ∃ events, Tally cfg events s ∧ Position events s x)
    (fun done ch s s' ⟨events, htally, hpos⟩ htake => hpos.take hobserve htally htake) hstart h

/-! ### Reading an event list -/

/-- Bytes that keep the frame open are collected. -/
theorem add_stays {f f' : Frame} {w : Bytes} (h : Stays anyByte eventDepth f w f')
    (hframe : s.frame = f) (hstack : s.stack ≠ []) :
    s.add cfg w = .ok { s with stack := f'.stack, quoted := f'.quoted, escaped := f'.escaped
                               event := s.event ++ w } := by
  induction h generalizing s with
  | nil =>
      subst hframe
      simp [add, frame]
  | cons hread hopen _ ih =>
      subst hframe
      rw [add, List.foldlM_cons, take_inside hstack hread, if_neg hopen, ok_bind]
      refine (ih rfl hopen).trans ?_
      simp only [List.append_assoc, List.singleton_append]

/-- An event is collected as a whole and completed by its last byte. -/
theorem add_event {after : Bool} (hbetween : Between s false after)
    (hlimit : s.count < cfg.limit) {e : Bytes} (he : IsEventFrame e) :
    s.add cfg e = complete cfg { s with stack := [], event := e, afterComma := false } := by
  obtain ⟨u, rfl, hu⟩ := he
  have hopen : s.take cfg (byteOf '\x7b') = .ok { s with
      stack := [byteOf '\x7b'], event := [byteOf '\x7b'], afterComma := false } := by
    rw [take, if_pos hbetween.stack, if_neg (by rw [hbetween.need]; decide), if_neg]
    rw [not_or, not_not, not_le]
    exact ⟨rfl, hlimit⟩
  have hstays : Stays anyByte eventDepth { stack := [byteOf '\x7b'] } u
      { stack := [byteOf '\x7b'] } :=
    Framing.stays_of_balanced hu (List.cons_ne_nil _ _) (by decide)
  have hclose : Frame.Reading anyByte eventDepth { stack := [byteOf '\x7b'] } (byteOf '\x7d')
      { stack := [] } := Frame.Reading.close (.inl rfl)
  have hcollect : add cfg { s with
      stack := [byteOf '\x7b'], event := [byteOf '\x7b'], afterComma := false } u = _ :=
    add_stays hstays (by simp only [frame, hbetween.quoted, hbetween.escaped])
      (List.cons_ne_nil _ _)
  have hlast : take cfg { s with
      stack := [byteOf '\x7b'], quoted := false, escaped := false
      event := [byteOf '\x7b'] ++ u, afterComma := false } (byteOf '\x7d') = _ :=
    take_inside (List.cons_ne_nil _ _) hclose
  rw [add] at hcollect
  rw [add, List.foldlM_cons, hopen, ok_bind, List.foldlM_append, hcollect, ok_bind,
    List.foldlM_cons, hlast, if_pos rfl]
  simp only [List.foldlM_nil, bind_pure, List.cons_append, List.nil_append, hbetween.quoted,
    hbetween.escaped]

/-- Up to the next event: a comma follows the events there are. -/
theorem add_lead {x : ConversationEventScanner} (hx : add cfg {} (joined events) = .ok x)
    (htally : Tally cfg events x) (hbetween : Between x (decide (events ≠ [])) false) :
    ∃ s after, add cfg {} (lead events) = .ok s ∧ Tally cfg events s ∧ Between s false after := by
  by_cases hnil : events = []
  · subst hnil
    exact ⟨x, false, hx, htally, hbetween⟩
  · have hneed : x.needComma = true := by simpa [hnil] using hbetween.need
    have hcomma : x.take cfg (byteOf ',') =
        .ok { x with needComma := false, afterComma := true } := by
      rw [take, if_pos hbetween.stack, if_pos hneed, if_neg (by simp)]
    refine ⟨{ x with needComma := false, afterComma := true }, true, ?_,
      ⟨htally.accepted, htally.count, htally.last⟩,
      ⟨hbetween.stack, hbetween.quoted, hbetween.escaped, rfl, rfl⟩⟩
    rw [add] at hx
    rw [lead, if_neg hnil, add, List.foldlM_append, hx, ok_bind, List.foldlM_cons, hcomma]
    rfl

/-- **Every accepted event list is read as it was written.** -/
theorem add_joined (hobserve : cfg.observe = none) (haccepted : AcceptedEvents cfg events)
    (hlimit : (events.length : ℤ) ≤ cfg.limit) :
    ∃ s, add cfg {} (joined events) = .ok s ∧ Tally cfg events s ∧
      Between s (decide (events ≠ [])) false := by
  induction events using List.reverseRecOn with
  | nil => exact ⟨{}, rfl, ⟨accepted_nil cfg, rfl, rfl⟩, ⟨rfl, rfl, rfl, rfl, rfl⟩⟩
  | append_singleton events p ih =>
      obtain ⟨hbefore, hframe, hutf8, hcheck, hlast⟩ := accepted_append.1 haccepted
      have hroom : (events.length : ℤ) < cfg.limit := by
        rw [List.length_append, List.length_singleton] at hlimit
        omega
      obtain ⟨x, hx, hxtally, hxbetween⟩ := ih hbefore hroom.le
      obtain ⟨s, after, hs, htally, hbetween⟩ := add_lead hx hxtally hxbetween
      have horder : s.havePrevious = true → s.previous ≤ p.2 := by
        intro hprevious
        refine hlast _ ?_
        rw [htally.last, if_pos hprevious]
        rfl
      have hevent := (add_event hbetween (htally.count ▸ hroom) hframe).trans
        ((complete_eq_ok hobserve).2 ⟨hutf8, p.2, hcheck, horder, rfl⟩)
      have hrun : add cfg {} (joined (events ++ [p])) = s.add cfg p.1 := by
        rw [joined_append, add, List.foldlM_append, ← add, hs, ok_bind, ← add]
      refine ⟨_, hrun.trans hevent, ⟨haccepted, ?_, ?_⟩,
        ⟨rfl, hbetween.quoted, hbetween.escaped, ?_, rfl⟩⟩
      · simp [htally.count]
      · simp
      · simp

/-- Chunk boundaries are not seen. -/
theorem foldlM_add (bodies : List Bytes) :
    bodies.foldlM (add cfg) s = s.add cfg bodies.flatten := by
  induction bodies generalizing s with
  | nil => rfl
  | cons body bodies ih =>
      rw [List.foldlM_cons, List.flatten_cons, add, add, List.foldlM_append]
      simp only [ih, add]

/-- The scanner ends between two events exactly on the accepted lists. -/
theorem ends_iff (hobserve : cfg.observe = none) {x : Bytes} :
    (∃ s, add cfg {} x = .ok s ∧ s.stack = [] ∧ s.quoted = false ∧ s.afterComma = false ∧
      s.count = cfg.limit) ↔
      ∃ events, x = joined events ∧ (events.length : ℤ) = cfg.limit ∧
        AcceptedEvents cfg events := by
  constructor
  · rintro ⟨s, hs, hstack, -, hafter, hcount⟩
    obtain ⟨events, htally, hpos⟩ := position_of_add hobserve hs
    refine ⟨events, ?_, htally.count ▸ hcount, htally.accepted⟩
    cases hpos with
    | start hnil _ =>
        subst hnil
        rfl
    | closed => rfl
    | comma _ hbetween =>
        rw [hbetween.after] at hafter
        cases hafter
    | inside hopen => exact absurd hstack hopen
  · rintro ⟨events, rfl, hcount, haccepted⟩
    obtain ⟨s, hs, htally, hbetween⟩ := add_joined hobserve haccepted hcount.le
    exact ⟨s, hs, hbetween.stack, hbetween.quoted, hbetween.after, htally.count.trans hcount⟩

end ConversationEventScanner

/-! ### The verifier -/

/-- The bodies that a loader returns for the chunks of a manifest, with the lengths and hashes
that are recorded there. -/
def Loads (env : ManifestEnv) (load : ContentHash → Except String Bytes)
    (chunks : List ConversationManifestChunk) (bodies : List Bytes) : Prop :=
  List.Forall₂ (fun chunk body => load chunk.hash = .ok body ∧ (body.length : ℤ) = chunk.bytes ∧
    env.hash body = chunk.hash) chunks bodies

/-- Loaded chunks are scanned body by body. -/
theorem foldlM_verifyChunk {cfg : ScannerSettings}
    {load : ContentHash → Except String Bytes} {chunks : List ConversationManifestChunk}
    {bodies : List Bytes} (h : Loads env load chunks bodies) (s : ConversationEventScanner) :
    chunks.foldlM (verifyChunk env cfg load) s =
      bodies.foldlM (ConversationEventScanner.add cfg) s := by
  induction h generalizing s with
  | nil => rfl
  | cons hbody _ ih =>
      obtain ⟨hload, hlength, hhash⟩ := hbody
      simp [verifyChunk, hload, hlength, hhash, Except.mapError, refuse_of_not, ih]

/-- A manifest with a hash has passed the checks on its metadata. -/
theorem metadata_of_hash {m : ConversationManifest} {want : ContentHash}
    (h : conversationManifestHash env m = .ok want) :
    m.envelope.length ≤ maxConversationManifestBytes ∧
      m.chunks.list.length ≤ maxConversationManifestChunks ∧ validContentHash want = true := by
  unfold conversationManifestHash at h
  cases hraw : canonicalConversationManifest env m with
  | error e =>
      rw [hraw] at h
      cases h
  | ok raw =>
      rw [hraw] at h
      cases h
      simp only [canonicalConversationManifest, bind_eq_ok, exists_unit_iff, refuse_eq_ok] at hraw
      obtain ⟨hshape, -⟩ := hraw
      simp only [not_or, not_lt] at hshape
      exact ⟨hshape.2.2.2.2.2.2.1, hshape.2.2.2.2.1, env.hash_valid _⟩

/-- With the recorded bodies, only the run of the scanner decides. -/
theorem verifyConversationManifest_eq_ok {want : ContentHash}
    {manifest : ConversationManifest} {load : ContentHash → Except String Bytes}
    {check : Option (String → Bytes → Except String ℤ)} {bodies : List Bytes}
    (hhash : conversationManifestHash env manifest = .ok want)
    (hload : Loads env load manifest.chunks.list bodies) :
    verifyConversationManifest env want manifest (some load) check none = .ok () ↔
      ∃ s, ConversationEventScanner.add (scannerSettings env manifest check none) {}
          bodies.flatten = .ok s ∧ s.stack = [] ∧ s.quoted = false ∧ s.afterComma = false ∧
        s.count = manifest.eventCount := by
  obtain ⟨henvelope, hchunks, hwant⟩ := metadata_of_hash hhash
  simp only [verifyConversationManifest, hhash, ok_bind, Option.getD_some, bind_eq_ok,
    exists_unit_iff, refuse_eq_ok, foldlM_verifyChunk hload, ConversationEventScanner.foldlM_add]
  simp [henvelope, hchunks, hwant]

/-- **The verifier accepts exactly the well-framed event lists, wherever the chunks are cut.**
An event is an object whose first bracket is closed by its last byte.  The scanner ends in the
same state, or with the same error, on every partition of the stream. -/
theorem verifyConversationManifest_iff {env : ManifestEnv} {want : ContentHash}
    {manifest : ConversationManifest} {load : ContentHash → Except String Bytes}
    (check : Option (String → Bytes → Except String ℤ)) {bodies : List Bytes}
    (hhash : conversationManifestHash env manifest = .ok want)
    (hload : Loads env load manifest.chunks.list bodies) :
    (verifyConversationManifest env want manifest (some load) check none = .ok () ↔
      ∃ events : List (Bytes × ℤ), bodies.flatten = joined events ∧
        (events.length : ℤ) = manifest.eventCount ∧
        (∀ p ∈ events, IsEventFrame p.1 ∧ utf8Valid p.1 = true ∧
          check.getD env.event ((env.envelope manifest.envelope).getD "") p.1 = .ok p.2) ∧
        (events.map Prod.snd).IsChain (· ≤ ·)) ∧
    ∀ (cfg : ScannerSettings) (s : ConversationEventScanner) (cut : List Bytes),
      cut.flatten = bodies.flatten → cut.foldlM (ConversationEventScanner.add cfg) s =
        bodies.foldlM (ConversationEventScanner.add cfg) s := by
  constructor
  · rw [verifyConversationManifest_eq_ok hhash hload]
    refine (ConversationEventScanner.ends_iff rfl).trans (exists_congr fun events => ?_)
    refine and_congr_right fun _ => and_congr_right fun _ => ⟨?_, ?_⟩
    · rintro ⟨hframed, hutf8, hchecked, hordered⟩
      exact ⟨fun p hp => ⟨hframed p hp, hutf8 p hp, hchecked p hp⟩, hordered⟩
    · rintro ⟨hevents, hordered⟩
      exact ⟨fun p hp => (hevents p hp).1, fun p hp => (hevents p hp).2.1,
        fun p hp => (hevents p hp).2.2, hordered⟩
  · intro cfg s cut hcut
    rw [ConversationEventScanner.foldlM_add, ConversationEventScanner.foldlM_add, hcut]

/-! ### Two chunks -/

/-- A hash for runs of the verifier: the last hexadecimal digit of the length. -/
def lengthHash (b : Bytes) : ContentHash :=
  digitHash ("0123456789abcdef".toList.getD (b.length % 16) '0')

/-- Every hash that is used here has the form of a hash. -/
theorem validContentHash_lengthHash (b : Bytes) : validContentHash (lengthHash b) = true := by
  have hdigit : ∀ k < 16,
      validContentHash (digitHash ("0123456789abcdef".toList.getD k '0')) = true := by decide
  exact hdigit _ (Nat.mod_lt _ (by decide))

/-- What the verifier is given in the runs below: the manifest is hashed by its envelope, and every
event has the sequence number 1. -/
def plainManifestEnv : ManifestEnv where
  hash := lengthHash
  hash_valid := validContentHash_lengthHash
  envelope _ := some "1"
  canonicalJSON m := some m.envelope
  event _ _ := .ok 1

/-- A manifest of chunks with their hashes and lengths. -/
def plainManifest (chunks : List ConversationManifestChunk) (streamBytes eventCount : ℤ) :
    ConversationManifest :=
  { version := conversationManifestVersion, identity := conversationManifestIdentity
    chunkFormat := conversationManifestChunkFormat, envelope := bytesOf "\x7b\x7d"
    chunks := some chunks, streamBytes := streamBytes, eventCount := eventCount }

/-- The root of such a manifest. -/
def plainRoot : ContentHash := lengthHash (conversationManifestDomain ++ bytesOf "\x7b\x7d")

/-- The bytes of a string are valid UTF-8. -/
theorem utf8Valid_bytesOf (s : String) : utf8Valid (bytesOf s) = true := by
  have hsame : (bytesOf s).toByteArray = s.toByteArray :=
    ByteArray.ext (by rw [List.data_toByteArray, bytesOf, Array.toArray_toList])
  rw [utf8Valid, hsame]
  exact ByteArray.validateUTF8_eq_true_iff.2 s.isValidUTF8

/-- The beginning of an event with a string of some length, up to a backslash in the string. -/
def eventHead (n : ℕ) : Bytes :=
  bytesOf "\x7b\"a\":\"" ++ List.replicate n (byteOf 'x') ++ [byteOf '\\']

/-- The rest of the event, from the quote that the backslash escapes. -/
def eventRest : Bytes := bytesOf "\"\"\x7d"

/-- The event is an object with one string, in which the second quote does not end it. -/
theorem isEventFrame_eventHead (n : ℕ) : IsEventFrame (eventHead n ++ eventRest) := by
  have htext : Framing.StringBody
      (List.replicate n (byteOf 'x') ++ [Framing.backslash, Framing.quote]) := by
    refine Framing.StringBody.append ?_ (.escape .nil)
    induction n with
    | zero => exact .nil
    | succ n ih => exact .byte (by decide) (by decide) ih
  have hcolon : Framing.IsPlain anyByte (byteOf ':') := by
    simp only [Framing.IsPlain, Framing.IsOpen, Framing.IsClose]
    decide
  refine ⟨_, ?_, .text (.byte (b := byteOf 'a') (by decide) (by decide) .nil)
    (.byte (b := byteOf ':') hcolon (.text htext .nil))⟩
  have hopen : bytesOf "\x7b\"a\":\"" =
      [byteOf '\x7b', Framing.quote, byteOf 'a', Framing.quote, byteOf ':', Framing.quote] := by
    decide
  have hrest : eventRest = [Framing.quote, Framing.quote, byteOf '\x7d'] := by decide
  simp only [eventHead, hopen, hrest, Framing.backslash, List.cons_append, List.append_assoc,
    List.nil_append]

/-- The event is text. -/
theorem utf8Valid_eventHead (n : ℕ) : utf8Valid (eventHead n ++ eventRest) = true := by
  have hascii : ∀ c ∈ "\x7b\"a\":\"".toList ++ List.replicate n 'x' ++ "\\\"\"\x7d".toList,
      c.toNat ≤ 127 := by
    refine List.forall_mem_append.2 ⟨List.forall_mem_append.2 ⟨?_, fun c hc => ?_⟩, ?_⟩
    · exact forall_mem_of_all (by decide)
    · rw [List.eq_of_mem_replicate hc]
      decide
    · exact forall_mem_of_all (by decide)
  have hbytes : eventHead n ++ eventRest =
      bytesOf (String.ofList
        ("\x7b\"a\":\"".toList ++ List.replicate n 'x' ++ "\\\"\"\x7d".toList)) := by
    have hopen : "\x7b\"a\":\"".toList.map byteOf = bytesOf "\x7b\"a\":\"" := by decide
    have hclose : "\\\"\"\x7d".toList.map byteOf = byteOf '\\' :: eventRest := by decide
    rw [bytesOf_ofList hascii, List.map_append, List.map_append, List.map_replicate, hopen, hclose,
      eventHead, List.append_assoc, List.append_assoc, List.append_assoc, List.singleton_append]
  rw [hbytes]
  exact utf8Valid_bytesOf _

/-- The two bodies: the first is as long as a chunk must be, and ends inside an escape. -/
def cutBodies : List Bytes := [eventHead 524281, eventRest ++ bytesOf ",\x7b\x7d"]

/-- The manifest of two events in two chunks. -/
def cutManifest : ConversationManifest :=
  plainManifest [{ hash := digitHash '0', bytes := 524288 }, { hash := digitHash '6', bytes := 6 }]
    524294 2

/-- The loader of the two bodies. -/
def cutLoader (hash : ContentHash) : Except String Bytes :=
  if hash = digitHash '0' then .ok (eventHead 524281)
  else .ok (eventRest ++ bytesOf ",\x7b\x7d")

/-- Two events in two chunks, cut between a backslash and the quote that it escapes, are accepted;
and the scanner ends as it does on the uncut stream. -/
theorem verifyConversationManifest_acrossChunks :
    verifyConversationManifest plainManifestEnv plainRoot cutManifest (some cutLoader) none none =
        .ok () ∧
      ∀ (cfg : ScannerSettings) (s : ConversationEventScanner),
        ConversationEventScanner.add cfg s cutBodies.flatten =
          cutBodies.foldlM (ConversationEventScanner.add cfg) s := by
  have hlength : ∀ n, (eventHead n).length = n + 7 := by
    intro n
    have hopen : (bytesOf "\x7b\"a\":\"").length = 6 := by decide
    simp only [eventHead, List.length_append, List.length_replicate, List.length_singleton, hopen]
    omega
  have hhash : conversationManifestHash plainManifestEnv cutManifest = .ok plainRoot := by
    decide +kernel
  have hload : Loads plainManifestEnv cutLoader cutManifest.chunks.list cutBodies := by
    refine .cons ⟨if_pos rfl, ?_, ?_⟩
      (.cons ⟨if_neg (by decide +kernel), by decide, by decide⟩ .nil)
    · rw [hlength]
      rfl
    · show lengthHash (eventHead 524281) = digitHash '0'
      rw [lengthHash, hlength]
      rfl
  obtain ⟨haccepts, hcut⟩ := verifyConversationManifest_iff none hhash hload
  refine ⟨haccepts.2 ⟨[(eventHead 524281 ++ eventRest, 1), (bytesOf "\x7b\x7d", 1)], ?_, rfl, ?_,
    by decide⟩, fun cfg s => ?_⟩
  · have hsecond : bytesOf ",\x7b\x7d" = byteOf ',' :: bytesOf "\x7b\x7d" := by decide
    simp [cutBodies, joined, List.intercalate_cons_cons, hsecond]
  · refine List.forall_mem_cons.2 ⟨⟨isEventFrame_eventHead _, utf8Valid_eventHead _, rfl⟩,
      List.forall_mem_singleton.2 ⟨⟨[], by decide, .nil⟩, by decide, rfl⟩⟩
  · rw [← hcut cfg s [cutBodies.flatten] (by simp)]
    simp

/-- Brackets that are balanced, but closed and opened again: two objects in a row. -/
def pairBytes : Bytes := bytesOf "\x7b\x7d\x7b\x7d"

/-- The manifest of these bytes as one event. -/
def pairManifest : ConversationManifest :=
  plainManifest [{ hash := lengthHash pairBytes, bytes := pairBytes.length }] pairBytes.length 1

/-- A stream that is one balanced text starting with a brace and is refused all the same. -/
theorem balanced_pair_refused :
    conversationManifestHash plainManifestEnv pairManifest = .ok plainRoot ∧
      Loads plainManifestEnv (fun _ => .ok pairBytes) pairManifest.chunks.list [pairBytes] ∧
      [pairBytes].flatten = joined [(pairBytes, 1)] ∧
      pairBytes.head? = some (byteOf '\x7b') ∧ Balanced anyByte eventDepth pairBytes ∧
      utf8Valid pairBytes = true ∧ plainManifestEnv.event "1" pairBytes = .ok 1 ∧
      verifyConversationManifest plainManifestEnv plainRoot pairManifest
        (some fun _ => .ok pairBytes) none none = .error (.manifest "missing event comma") := by
  refine ⟨by decide +kernel, .cons ⟨rfl, rfl, rfl⟩ .nil, by decide, by decide, ?_, by decide,
    rfl, by decide +kernel⟩
  exact .group (.inl rfl) .nil (.group (.inl rfl) .nil .nil)

end Backend
end CxtHub
