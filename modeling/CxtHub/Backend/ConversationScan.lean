/-
# The streaming manifest verifier

`backend/internal/domain/conversation_manifest.go` and `conversation_manifest_verify.go`.  A
conversation manifest names the chunks of an event stream.  The verifier loads them one by
one and cuts the stream into events as the bytes come, without ever holding it as a whole.

Contexts are never cancelled here.  `ManifestEnv` holds what the verifier takes from
elsewhere: the hash, the canonical encodings and the check of one event.
-/

import CxtHub.Backend.DocChunks
import CxtHub.Lib.Framing
import CxtHub.Lib.Slices

namespace CxtHub
namespace Backend

open Framing (Frame)

/-- `ConversationManifestChunk`. -/
structure ConversationManifestChunk where
  hash : ContentHash
  bytes : ℤ
  deriving DecidableEq, Repr

/-- `ConversationManifest`. -/
structure ConversationManifest where
  version : ℤ
  identity : String
  chunkFormat : String
  envelope : Bytes
  chunks : Slice ConversationManifestChunk
  streamBytes : ℤ
  eventCount : ℤ
  deriving DecidableEq, Repr

def conversationManifestVersion : ℤ := 1

def conversationManifestIdentity : String := "cxt-manifest-sha256-v1"

def conversationManifestChunkFormat : String := "cxt-doc-chunks-v2"

def conversationManifestChunkBytes : ℤ := 524288

def maxConversationManifestBytes : ℕ := 262144

def maxConversationManifestChunks : ℕ := 2048

def maxConversationDocumentBytes : ℤ := 536870912

def conversationManifestDomain : Bytes := bytesOf "cxt-conversation-root-v1\x00"

/-- `conversationFrameBytes`. -/
def conversationFrameBytes : ℤ :=
  (docPrefix.length + docMiddle.length + docSuffix.length : ℕ)

/-- The errors of the verifier: `ErrConversationManifest` with a reason, the error of an
event's check, and the error of the loader. -/
inductive ManifestError
  | manifest (reason : String)
  | event (cause : String)
  | load (cause : String)
  deriving DecidableEq, Repr

/-- What the verifier takes from elsewhere. -/
structure ManifestEnv where
  /-- `HashContent`. -/
  hash : Bytes → ContentHash
  hash_valid : ∀ b, validContentHash (hash b) = true
  /-- `conversationManifestEnvelope`: the version of a canonical envelope. -/
  envelope : Bytes → Option String
  /-- `canonicalJSON` of a manifest. -/
  canonicalJSON : ConversationManifest → Option Bytes
  /-- `conversationManifestEvent`. -/
  event : String → Bytes → Except String ℤ

/-- `utf8.Valid`. -/
def utf8Valid (b : Bytes) : Bool := b.toByteArray.validateUTF8

/-- The loop of `CanonicalConversationManifest` over the chunks, with the bytes so far. -/
def checkManifestChunks (available : ℤ) :
    ℤ → List ConversationManifestChunk → Except ManifestError ℤ
  | total, [] => .ok total
  | total, chunk :: chunks => do
      refuse (validContentHash chunk.hash = false ∨ chunk.bytes ≤ 0 ∨
          conversationManifestChunkBytes < chunk.bytes ∨
          (chunks ≠ [] ∧ chunk.bytes ≠ conversationManifestChunkBytes) ∨
          available - total < chunk.bytes)
        (.manifest "chunk hash, partition or size")
      checkManifestChunks available (total + chunk.bytes) chunks

/-- `CanonicalConversationManifest`. -/
def canonicalConversationManifest (env : ManifestEnv) (m : ConversationManifest) :
    Except ManifestError Bytes := do
  refuse (m.version ≠ conversationManifestVersion ∨ m.identity ≠ conversationManifestIdentity ∨
      m.chunkFormat ≠ conversationManifestChunkFormat ∨ m.chunks = none ∨
      maxConversationManifestChunks < m.chunks.list.length ∨ m.envelope.length = 0 ∨
      maxConversationManifestBytes < m.envelope.length ∨ utf8Valid m.envelope = false)
    (.manifest "version, identity, format or metadata shape")
  refuse (env.envelope m.envelope = none) (.manifest "noncanonical CIR envelope")
  let available := maxConversationDocumentBytes - conversationFrameBytes - m.envelope.length
  refuse (m.streamBytes < 0 ∨ available < m.streamBytes ∨ m.eventCount < 0 ∨
      m.streamBytes < m.eventCount) (.manifest "document size or event count")
  let total ← checkManifestChunks available 0 m.chunks.list
  refuse (total ≠ m.streamBytes ∨ ¬ (total = 0 ↔ m.eventCount = 0))
    (.manifest "stream length or empty count")
  match env.canonicalJSON m with
  | some raw => do
      refuse (maxConversationManifestBytes < raw.length) (.manifest "encoded manifest limit")
      .ok raw
  | none => .error (.manifest "encoded manifest limit")

/-- `ConversationManifestHash`. -/
def conversationManifestHash (env : ManifestEnv) (m : ConversationManifest) :
    Except ManifestError ContentHash :=
  (canonicalConversationManifest env m).map fun raw => env.hash (conversationManifestDomain ++ raw)

/-! ### The scanner -/

/-- The fields of `conversationEventScanner` that a scan does not change. -/
structure ScannerSettings where
  version : String
  limit : ℤ
  check : String → Bytes → Except String ℤ
  observe : Option (ℤ → Bytes → ℤ → Except ManifestError Unit)

/-- `conversationEventScanner`; the innermost bracket of the stack comes first. -/
structure ConversationEventScanner where
  stack : Bytes := []
  event : Bytes := []
  quoted : Bool := false
  escaped : Bool := false
  needComma : Bool := false
  afterComma : Bool := false
  havePrevious : Bool := false
  previous : ℤ := 0
  count : ℤ := 0
  deriving DecidableEq, Repr

/-- The nesting that two outer levels leave to an event. -/
def eventDepth : ℕ := 9998

namespace ConversationEventScanner

variable (cfg : ScannerSettings)

/-- The bracket that opened the event has been closed. -/
def complete (s : ConversationEventScanner) : Except ManifestError ConversationEventScanner := do
  refuse (utf8Valid s.event = false) (.manifest "event UTF-8")
  let seq ← (cfg.check cfg.version s.event).mapError .event
  refuse (s.havePrevious = true ∧ seq < s.previous) (.manifest "event sequence regression")
  match cfg.observe with
  | some observe => observe s.count s.event seq
  | none => .ok ()
  .ok { s with previous := seq, havePrevious := true, count := s.count + 1, needComma := true }

/-- One byte of `add`. -/
def take (s : ConversationEventScanner) (ch : UInt8) :
    Except ManifestError ConversationEventScanner :=
  if s.stack = [] then
    if s.needComma then
      if ch ≠ byteOf ',' then .error (.manifest "missing event comma")
      else .ok { s with needComma := false, afterComma := true }
    else if ch ≠ byteOf '\x7b' ∨ cfg.limit ≤ s.count then
      .error (.manifest "event shape or excess count")
    else .ok { s with stack := [ch], event := [ch], afterComma := false }
  else
    let s := { s with event := s.event ++ [ch] }
    if s.quoted then
      if s.escaped then .ok { s with escaped := false }
      else if ch = byteOf '\\' then .ok { s with escaped := true }
      else if ch = byteOf '"' then .ok { s with quoted := false }
      else .ok s
    else if ch = byteOf '"' then .ok { s with quoted := true }
    else if ch = byteOf '\x7b' ∨ ch = byteOf '[' then
      if s.stack.length = eventDepth then .error (.manifest "document JSON depth")
      else .ok { s with stack := ch :: s.stack }
    else if ch = byteOf '\x7d' ∨ ch = byteOf ']' then
      let opened := s.stack.headD 0
      if (ch = byteOf '\x7d' ∧ opened ≠ byteOf '\x7b') ∨
          (ch = byteOf ']' ∧ opened ≠ byteOf '[') then
        .error (.manifest "mismatched event framing")
      else
        let s := { s with stack := s.stack.tail }
        if s.stack = [] then s.complete cfg else .ok s
    else .ok s

/-- `conversationEventScanner.add`. -/
def add (s : ConversationEventScanner) (body : Bytes) :
    Except ManifestError ConversationEventScanner :=
  body.foldlM (take cfg) s

end ConversationEventScanner

/-- One chunk of `verifyConversationManifest`. -/
def verifyChunk (env : ManifestEnv) (cfg : ScannerSettings)
    (load : ContentHash → Except String Bytes) (s : ConversationEventScanner)
    (chunk : ConversationManifestChunk) : Except ManifestError ConversationEventScanner := do
  let body ← (load chunk.hash).mapError .load
  refuse ((body.length : ℤ) ≠ chunk.bytes) (.manifest "actual chunk length")
  refuse (env.hash body ≠ chunk.hash) (.manifest "actual chunk hash")
  s.add cfg body

/-- The settings with which `verifyConversationManifest` builds its scanner. -/
def scannerSettings (env : ManifestEnv) (manifest : ConversationManifest)
    (check : Option (String → Bytes → Except String ℤ))
    (observe : Option (ℤ → Bytes → ℤ → Except ManifestError Unit)) : ScannerSettings :=
  { version := (env.envelope manifest.envelope).getD "", limit := manifest.eventCount
    check := check.getD env.event, observe := observe }

/-- `verifyConversationManifest`. -/
def verifyConversationManifest (env : ManifestEnv) (want : ContentHash)
    (manifest : ConversationManifest) (load : Option (ContentHash → Except String Bytes))
    (check : Option (String → Bytes → Except String ℤ))
    (observe : Option (ℤ → Bytes → ℤ → Except ManifestError Unit)) : Except ManifestError Unit := do
  refuse (maxConversationManifestBytes < manifest.envelope.length ∨
      maxConversationManifestChunks < manifest.chunks.list.length) (.manifest "metadata limit")
  let hash ← conversationManifestHash env manifest
  refuse (validContentHash want = false ∨ hash ≠ want ∨ (load = none ∧ manifest.chunks.list ≠ []))
    (.manifest "expected root or loader")
  let scanner ← manifest.chunks.list.foldlM (verifyChunk env
    (scannerSettings env manifest check observe) (load.getD fun _ => .error "")) {}
  refuse (scanner.stack ≠ [] ∨ scanner.quoted = true ∨ scanner.afterComma = true ∨
      scanner.count ≠ manifest.eventCount)
    (.manifest "incomplete framing or actual event count")

/-! ### Steps of the scanner -/

namespace ConversationEventScanner

/-- Outside strings and brackets an event may hold any byte. -/
abbrev anyByte : UInt8 → Bool := fun _ => true

/-- What the framing of an event reads and writes. -/
def frame (s : ConversationEventScanner) : Frame :=
  { stack := s.stack, quoted := s.quoted, escaped := s.escaped }

variable {cfg : ScannerSettings} {s s' : ConversationEventScanner} {ch : UInt8}

/-- Inside an event the scanner reads the frame and collects its bytes. -/
theorem take_inside (hstack : s.stack ≠ []) {f : Frame}
    (hread : Frame.Reading anyByte eventDepth s.frame ch f) :
    s.take cfg ch =
      if f.stack = [] then complete cfg { s with stack := [], event := s.event ++ [ch] }
      else .ok { s with stack := f.stack, quoted := f.quoted, escaped := f.escaped
                        event := s.event ++ [ch] } := by
  obtain ⟨stack, event, quoted, escaped, needComma, afterComma, havePrevious, previous, count⟩ := s
  simp only [take, if_neg hstack]
  have hslash : byteOf '"' ≠ byteOf '\\' := by decide
  cases hread with
  | escaped => simp [hstack]
  | escape => simp [hstack, Framing.backslash]
  | endText => simp [hstack, Framing.quote, hslash]
  | inText hq hb =>
      simp only [Framing.quote, Framing.backslash] at hq hb
      simp [hstack, hq, hb]
  | beginText => simp [hstack, Framing.quote]
  | nest ho hfull =>
      have hq := Framing.ne_quote_of_isOpen ho
      simp only [Framing.quote] at hq
      simp only [Framing.IsOpen] at ho
      simp [hq, ho, hfull]
  | @close rest e o ho =>
      rcases ho with rfl | rfl
      · have hcloser : Framing.closer (byteOf '\x7b') = byteOf '\x7d' := if_pos rfl
        rw [hcloser]
        by_cases hrest : rest = [] <;> simp +decide [hrest]
      · have hcloser : Framing.closer (byteOf '[') = byteOf ']' := by decide
        rw [hcloser]
        by_cases hrest : rest = [] <;> simp +decide [hrest]
  | byte hb =>
      obtain ⟨hq, hopen, hclose, -⟩ := hb
      simp only [Framing.quote, Framing.IsOpen, Framing.IsClose] at hq hopen hclose
      simp [hstack, hq, hopen, hclose]

/-- A byte that is taken inside an event is read by the framing. -/
theorem exists_reading_of_take (hstack : s.stack ≠ []) (h : s.take cfg ch = .ok s') :
    ∃ f, Frame.Reading anyByte eventDepth s.frame ch f := by
  obtain ⟨stack, event, quoted, escaped, needComma, afterComma, havePrevious, previous, count⟩ := s
  cases quoted with
  | true =>
      cases escaped with
      | true => exact ⟨_, .escaped⟩
      | false =>
          by_cases hslash : ch = Framing.backslash
          · subst hslash
            exact ⟨_, .escape⟩
          · by_cases hquote : ch = Framing.quote
            · subst hquote
              exact ⟨_, .endText⟩
            · exact ⟨_, .inText hquote hslash⟩
  | false =>
      simp only [take, if_neg hstack, Bool.false_eq_true, if_false] at h
      by_cases hquote : ch = byteOf '"'
      · subst hquote
        exact ⟨_, .beginText⟩
      rw [if_neg hquote] at h
      by_cases hopen : ch = byteOf '\x7b' ∨ ch = byteOf '['
      · rw [if_pos hopen] at h
        split_ifs at h with hfull
        exact ⟨_, .nest hopen hfull⟩
      rw [if_neg hopen] at h
      by_cases hclose : ch = byteOf '\x7d' ∨ ch = byteOf ']'
      · rw [if_pos hclose] at h
        obtain ⟨o, rest, rfl⟩ := List.exists_cons_of_ne_nil hstack
        rcases hclose with rfl | rfl
        · by_cases ho : o = byteOf '\x7b'
          · subst ho
            exact ⟨_, Frame.Reading.close (.inl rfl)⟩
          · simp [ho] at h
        · by_cases ho : o = byteOf '['
          · subst ho
            exact ⟨_, Frame.Reading.close (.inr rfl)⟩
          · simp [ho] at h
      · exact ⟨_, .byte ⟨hquote, hopen, hclose, rfl⟩⟩

end ConversationEventScanner

end Backend
end CxtHub
