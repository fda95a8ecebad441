/-
# Chunks of a session document

`backend/internal/domain/chunks.go`: the canonical bytes of a document are cut into
chunks, stored by hash, and put together again from the manifest.  Format v2 cuts the
text between the brackets of the events array at fixed boundaries; format v1 packs whole
events, joined by newlines.

The planner of v1 assembles its plan and compares it with the document.  That of v2 does
not, and `assembleDocChunks_eq_ok_iff` says which documents it accepts and loses: those
with blanks before the envelope, which the JSON decoder drops.

Bytes are a list, and a JSON text is read byte by byte as its grammar only looks at ASCII
characters.  `ChunkEnv` holds the hash and the decoding of a document into a struct, which
`splitCanonicalDocBytes` is.
-/

import CxtHub.Backend.Values
import CxtHub.Lib.Json

namespace CxtHub
namespace Backend

abbrev Bytes := List UInt8

/-- What chunking takes from outside. -/
structure ChunkEnv where
  /-- `HashContent`. -/
  hash : Bytes → ContentHash
  /-- The raw envelope and the raw events; the source has `Backend.splitCanonicalDocBytes` here,
  and the results hold for any way to split. -/
  splitCanonicalDocBytes : Bytes → Option (Bytes × List Bytes)

/-- `ChunkTarget`. -/
def chunkTarget : ℕ := 524288

/-- `MaxPortableChunkBytes`. -/
def maxPortableChunkBytes : ℕ := 2097152

def chunkFormatV1 : String := "cxt-doc-chunks-v1"

def chunkFormatV2 : String := "cxt-doc-chunks-v2"

/-- `DocChunkManifest`. -/
structure DocChunkManifest where
  format : String
  envelope : Bytes
  chunks : List ContentHash
  deriving DecidableEq, Repr

variable {stream cb : Bytes} {env : ChunkEnv} {man : DocChunkManifest}

/-- `DocChunkPlan`; the map of bodies is its assignments, the newest first. -/
structure DocChunkPlan where
  manifest : DocChunkManifest
  bodies : List (ContentHash × Bytes)
  order : List ContentHash
  deriving DecidableEq, Repr

/-- The bodies of a plan in its order. -/
def DocChunkPlan.bodiesInOrder (p : DocChunkPlan) : List Bytes :=
  p.order.map fun h => (p.bodies.lookup h).getD []

/-! ### Framing -/

def docPrefix : Bytes := bytesOf "\x7b\"envelope\":"

def docMiddle : Bytes := bytesOf ",\"events\":["

def docSuffix : Bytes := bytesOf "]\x7d"

/-- `AssembleCanonicalDoc`. -/
def assembleCanonicalDoc (env : Bytes) (events : List Bytes) : Bytes :=
  docPrefix ++ env ++ docMiddle ++ List.intercalate [byteOf ','] events ++ docSuffix

/-- The characters that a reader of JSON sees. -/
def jsonChars (b : Bytes) : List Char := b.map fun c => Char.ofNat c.toNat

/-- Whether a byte is a blank of JSON. -/
def isJsonSpace (c : UInt8) : Bool :=
  c = byteOf ' ' || c = byteOf '\n' || c = byteOf '\r' || c = byteOf '\t'

/-- `json.NewDecoder(...).Decode(&env)` into a raw message, and `InputOffset` after it: the
message does not have the blanks before the value, the offset counts them. -/
def decodeRaw (b : Bytes) : Option (Bytes × ℕ) :=
  let blanks := b.takeWhile isJsonSpace
  let text := b.dropWhile isJsonSpace
  match Json.value Json.maxNesting (jsonChars text) with
  | none => none
  | some (_, rest) =>
      let n := text.length - rest.length
      some (text.take n, blanks.length + n)

/-- The scan for blanks outside strings. -/
def compactFrom : Bool → Bool → Bytes → Bool
  | _, _, [] => true
  | true, true, _ :: s => compactFrom true false s
  | true, false, c :: s =>
      if c = byteOf '\\' then compactFrom true true s
      else compactFrom (c ≠ byteOf '\x22') false s
  | false, escaped, c :: s =>
      if c = byteOf '\x22' then compactFrom true escaped s
      else if isJsonSpace c then false
      else compactFrom false escaped s

/-- `canonicalStream`. -/
def canonicalStream (cb : Bytes) : Option (Bytes × Bytes) :=
  if docPrefix.isPrefixOf cb = false ∨ docSuffix.isSuffixOf cb = false then none
  else match decodeRaw (cb.drop docPrefix.length) with
    | none => none
    | some (env, inputOffset) =>
        let offset := docPrefix.length + inputOffset
        let start := offset + docMiddle.length
        let array := (cb.drop (start - 1)).take (cb.length - start)
        let stream := (cb.drop start).take (cb.length - 2 - start)
        if docMiddle.isPrefixOf (cb.drop offset) = false then none
        else if cb.length - 2 < start ∨ (Json.parse (jsonChars array)).isNone = true then none
        else if compactFrom false false stream = false then none
        else some (env, stream)

/-! ### Cutting -/

/-- The loop of `chunkByteStream`, at most `fuel` rounds of it. -/
def chunksFrom : ℕ → Bytes → List Bytes
  | 0, _ => []
  | fuel + 1, stream =>
      if stream = [] then []
      else stream.take chunkTarget :: chunksFrom fuel (stream.drop chunkTarget)

/-- `chunkByteStream`. -/
def chunkByteStream (stream : Bytes) : List Bytes := chunksFrom stream.length stream

/-- The loop of `chunkEventFragments`, with the buffer. -/
def fragmentsFrom : Bytes → List Bytes → List Bytes
  | cur, [] => if cur = [] then [] else [cur]
  | cur, e :: rest =>
      let cur := (if cur = [] then cur else cur ++ [byteOf '\n']) ++ e
      if chunkTarget ≤ cur.length then cur :: fragmentsFrom [] rest else fragmentsFrom cur rest

/-- `chunkEventFragments`. -/
def chunkEventFragments (events : List Bytes) : List Bytes := fragmentsFrom [] events

/-- `SplitDocChunk`. -/
def splitDocChunk (b : Bytes) : List Bytes := splitBytes (byteOf '\n') b

/-! ### Plans -/

/-- A value as a raw message, without the blanks before it. -/
def rawValue (depth : ℕ) (s : List Char) : Option (List Char × List Char) :=
  let t := Json.skipSpace s
  (Json.value depth t).map fun p => (t.take (t.length - p.2.length), p.2)

/-- A raw message as a slice of raw messages. -/
def rawItems (t : List Char) : Option (List (List Char)) :=
  match t with
  | '[' :: s => (Json.itemsOf (rawValue (Json.maxNesting - 2)) ']' s).map Prod.fst
  | _ => if t = "null".toList then some [] else none

/-- The values of the fields that `encoding/json` takes for a field of a struct: those whose name
is the same but for the case of its letters. -/
def fieldsNamed (name : String) (l : List (String × List Char)) : List (List Char) :=
  (l.filter fun p => decide (p.1.toUpper = name.toUpper)).map Prod.snd

/-- `splitCanonicalDocBytes`; of several fields of one name the last counts, and each has to be of
the right type. -/
def splitCanonicalDocBytes (cb : Bytes) : Option (Bytes × List Bytes) :=
  let bytes (t : List Char) : Bytes := t.map byteOf
  match Json.skipSpace (jsonChars cb) with
  | '\x7b' :: s => do
      let p ← Json.itemsOf (Json.field (rawValue (Json.maxNesting - 1))) '\x7d' s
      let events ← (fieldsNamed "events" p.1).mapM rawItems
      if Json.skipSpace p.2 ≠ [] then none
      else some (bytes ((fieldsNamed "envelope" p.1).getLast?.getD []),
        (events.getLast?.getD []).map bytes)
  | _ =>
      match Json.parse (jsonChars cb) with
      | some .null => some ([], [])
      | _ => none

/-- `buildDocChunkPlan`. -/
def buildDocChunkPlan (env : ChunkEnv) (format : String) (envelope : Bytes) (raw : List Bytes) :
    DocChunkPlan :=
  { manifest := { format := format, envelope := envelope, chunks := raw.map env.hash }
    bodies := raw.foldl (fun bodies c => (env.hash c, c) :: bodies) []
    order := raw.map env.hash }

/-- `PlanDocChunks`. -/
def planDocChunks (env : ChunkEnv) (cb : Bytes) : Option DocChunkPlan :=
  match canonicalStream cb with
  | none => none
  | some (envelope, stream) =>
      if stream = [] then none
      else some (buildDocChunkPlan env chunkFormatV2 envelope (chunkByteStream stream))

/-- `PlanDocChunksV1`. -/
def planDocChunksV1 (env : ChunkEnv) (cb : Bytes) : Option DocChunkPlan :=
  match env.splitCanonicalDocBytes cb with
  | none => none
  | some (envelope, events) =>
      let raw := chunkEventFragments events
      if envelope = [] ∨ events = [] then none
      else if ∃ c ∈ raw, maxPortableChunkBytes < c.length then none
      else if assembleCanonicalDoc envelope (raw.flatMap splitDocChunk) ≠ cb then none
      else some (buildDocChunkPlan env chunkFormatV1 envelope raw)

/-- `normalizeChunkFormat`. -/
def normalizeChunkFormat (format : String) : String := if format = "" then chunkFormatV1 else format

/-- The bytes that `AssembleDocChunks` puts together. -/
def assembledBytes (man : DocChunkManifest) (chunks : List Bytes) : Option Bytes :=
  if normalizeChunkFormat man.format = chunkFormatV1 then
    some (assembleCanonicalDoc man.envelope (chunks.flatMap splitDocChunk))
  else if normalizeChunkFormat man.format = chunkFormatV2 then
    some (docPrefix ++ man.envelope ++ docMiddle ++ chunks.flatten ++ docSuffix)
  else none

/-- `AssembleDocChunks`. -/
def assembleDocChunks (env : ChunkEnv) (man : DocChunkManifest) (chunks : List Bytes)
    (want : ContentHash) : Except DomainError Bytes :=
  match assembledBytes man chunks with
  | none => .error { sentinel := .integrity }
  | some cb => if env.hash cb ≠ want then .error { sentinel := .integrity } else .ok cb

/-! ### Fixed boundaries -/

/-- The chunks together are the stream. -/
theorem chunksFrom_flatten {fuel : ℕ} (h : stream.length ≤ fuel) :
    (chunksFrom fuel stream).flatten = stream := by
  induction fuel generalizing stream with
  | zero =>
      rw [Nat.le_zero, List.length_eq_zero_iff] at h
      rw [h]
      rfl
  | succ fuel ih =>
      rw [chunksFrom]
      split_ifs with hempty
      · rw [hempty]
        rfl
      · have hpos : 0 < stream.length := List.length_pos_iff.2 hempty
        have hrest : (stream.drop chunkTarget).length ≤ fuel := by
          rw [List.length_drop, chunkTarget]
          omega
        rw [List.flatten_cons, ih hrest, List.take_append_drop]

/-- **The chunks of a stream are the stream.** -/
theorem chunkByteStream_flatten (stream : Bytes) : (chunkByteStream stream).flatten = stream :=
  chunksFrom_flatten le_rfl

/-- No chunk is empty or too long. -/
theorem length_of_mem_chunksFrom {fuel : ℕ} {c : Bytes} (h : c ∈ chunksFrom fuel stream) :
    1 ≤ c.length ∧ c.length ≤ chunkTarget := by
  induction fuel generalizing stream with
  | zero => cases h
  | succ fuel ih =>
      rw [chunksFrom] at h
      split_ifs at h with hempty
      · cases h
      · rcases List.mem_cons.1 h with rfl | h
        · have hpos : 0 < stream.length := List.length_pos_iff.2 hempty
          rw [List.length_take]
          have htarget : 1 ≤ chunkTarget := by decide
          omega
        · exact ih h

/-- A chunk that another one follows is full. -/
theorem length_of_mem_dropLast {fuel : ℕ} {c : Bytes}
    (h : c ∈ (chunksFrom fuel stream).dropLast) : c.length = chunkTarget := by
  induction fuel generalizing stream with
  | zero => cases h
  | succ fuel ih =>
      rw [chunksFrom] at h
      split_ifs at h with hempty
      · cases h
      · cases hrest : chunksFrom fuel (stream.drop chunkTarget) with
        | nil =>
            rw [hrest] at h
            cases h
        | cons d rest =>
            rw [hrest, List.dropLast_cons_cons] at h
            rcases List.mem_cons.1 h with rfl | h
            · -- the rest of the stream is not empty
              have hne : stream.drop chunkTarget ≠ [] := by
                intro hnil
                rw [hnil] at hrest
                cases fuel <;> cases hrest
              have hlt : chunkTarget < stream.length := by
                by_contra hle
                exact hne (List.drop_eq_nil_of_le (not_lt.1 hle))
              rw [List.length_take, min_eq_left hlt.le]
            · rw [← hrest] at h
              exact ih h

/-! ### Bodies by hash -/

/-- A body is found under its hash, when hashes tell pieces apart. -/
theorem lookup_foldl_cons {raw : List Bytes} {bodies : List (ContentHash × Bytes)}
    {c : Bytes} (hinj : ∀ d ∈ raw, env.hash d = env.hash c → d = c)
    (hc : c ∈ raw ∨ bodies.lookup (env.hash c) = some c) :
    (raw.foldl (fun bodies c => (env.hash c, c) :: bodies) bodies).lookup (env.hash c) =
      some c := by
  induction raw generalizing bodies with
  | nil => exact hc.resolve_left List.not_mem_nil
  | cons d raw ih =>
      obtain ⟨hd, hraw⟩ := List.forall_mem_cons.1 hinj
      refine ih hraw ?_
      by_cases heq : env.hash c = env.hash d
      · have hdc := hd heq.symm
        rw [hdc, List.lookup_cons_self]
        exact .inr rfl
      · rcases hc with hc | hc
        · rcases List.mem_cons.1 hc with rfl | hc
          · exact absurd rfl heq
          · exact .inl hc
        · rw [List.lookup_cons, beq_false_of_ne heq]
          exact .inr hc

/-- **Without collisions the bodies of a plan are the pieces it was built from.** -/
theorem bodiesInOrder_build {raw : List Bytes}
    (hinj : Set.InjOn env.hash {c | c ∈ raw}) (format : String) (envelope : Bytes) :
    (buildDocChunkPlan env format envelope raw).bodiesInOrder = raw := by
  rw [DocChunkPlan.bodiesInOrder, buildDocChunkPlan, List.map_map]
  refine (List.map_congr_left fun c hc => ?_).trans (List.map_id raw)
  rw [Function.comp_apply,
    lookup_foldl_cons (fun d hd heq => hinj hd hc heq) (.inl hc), Option.getD_some, id]

/-! ### What the planner of v2 accepts -/

/-- The blanks before the envelope. -/
def leadingBlanks (cb : Bytes) : Bytes := (cb.drop docPrefix.length).takeWhile isJsonSpace

/-- The blanks before a raw message are counted but not kept. -/
theorem decodeRaw_eq_some {b env : Bytes} {n : ℕ} (h : decodeRaw b = some (env, n)) :
    b.take n = b.takeWhile isJsonSpace ++ env ∧ n ≤ b.length := by
  unfold decodeRaw at h
  dsimp only at h
  split at h
  · cases h
  · next j rest hvalue =>
      obtain ⟨rfl, rfl⟩ := h
      have hsplit : b.takeWhile isJsonSpace ++ b.dropWhile isJsonSpace = b :=
        List.takeWhile_append_dropWhile
      have hlength := congrArg List.length hsplit
      rw [List.length_append] at hlength
      refine ⟨?_, by omega⟩
      calc b.take _ = (b.takeWhile isJsonSpace ++ b.dropWhile isJsonSpace).take _ := by rw [hsplit]
        _ = _ := List.take_length_add_append _

/-- **An accepted document, part by part.** -/
theorem canonicalStream_parts {env : Bytes} (h : canonicalStream cb = some (env, stream)) :
    cb = docPrefix ++ leadingBlanks cb ++ env ++ docMiddle ++ stream ++ docSuffix := by
  unfold canonicalStream at h
  split_ifs at h with hframe
  split at h
  · cases h
  · next env' n hdecode =>
      dsimp only at h
      split_ifs at h with hmiddle hstart hcompact
      simp only [Option.some.injEq, Prod.mk.injEq] at h
      obtain ⟨rfl, rfl⟩ := h
      simp only [not_or, Bool.not_eq_false] at hframe hmiddle hstart
      obtain ⟨b, hb⟩ := List.isPrefixOf_iff_prefix.1 hframe.1
      obtain ⟨before, hbefore⟩ := List.isSuffixOf_iff_suffix.1 hframe.2
      obtain ⟨tail, htail⟩ := List.isPrefixOf_iff_prefix.1 hmiddle
      have hdrop : cb.drop docPrefix.length = b := by rw [← hb, List.drop_left]
      rw [hdrop] at hdecode
      obtain ⟨htake, -⟩ := decodeRaw_eq_some hdecode
      rw [← List.drop_drop, hdrop] at htail
      have hstartTail : cb.drop (docPrefix.length + n + docMiddle.length) = tail := by
        rw [← List.drop_drop, ← List.drop_drop, hdrop, ← htail, List.drop_left]
      have hsuffix : docSuffix.length = 2 := by decide
      have hlength := congrArg List.length hbefore
      rw [List.length_append, hsuffix] at hlength
      have hend : tail = tail.take (cb.length - 2 - (docPrefix.length + n + docMiddle.length)) ++
          docSuffix := by
        conv_lhs => rw [← List.take_append_drop
          (cb.length - 2 - (docPrefix.length + n + docMiddle.length)) tail]
        rw [← hstartTail, List.drop_drop]
        have hindex : docPrefix.length + n + docMiddle.length +
            (cb.length - 2 - (docPrefix.length + n + docMiddle.length)) = before.length := by
          omega
        rw [hindex, ← hbefore, List.drop_left]
      rw [hstartTail]
      calc cb = docPrefix ++ b := hb.symm
        _ = docPrefix ++ (b.take n ++ b.drop n) := by rw [List.take_append_drop]
        _ = docPrefix ++ (leadingBlanks cb ++ env' ++ (docMiddle ++ tail)) := by
            rw [htake, ← htail, leadingBlanks, hdrop]
        _ = _ := by
            conv_lhs => rw [hend]
            simp only [List.append_assoc]

/-- No blank stands before the envelope. -/
def StartsCompact (cb : Bytes) : Prop :=
  ∀ c ∈ (cb.drop docPrefix.length).head?, isJsonSpace c = false

instance (cb : Bytes) : Decidable (StartsCompact cb) :=
  inferInstanceAs (Decidable (∀ c ∈ (cb.drop docPrefix.length).head?, isJsonSpace c = false))

/-- A compact document has no blank before its envelope. -/
theorem leadingBlanks_eq_nil_iff : leadingBlanks cb = [] ↔ StartsCompact cb := by
  rw [leadingBlanks, StartsCompact]
  cases cb.drop docPrefix.length with
  | nil => simp
  | cons c rest => cases hc : isJsonSpace c <;> simp [hc]

/-! ### Round trips -/

/-- The assembled bytes are compared by hash. -/
theorem assembleDocChunks_eq_ok {chunks : List Bytes} :
    assembleDocChunks env man chunks (env.hash cb) = .ok cb ↔
      assembledBytes man chunks = some cb := by
  unfold assembleDocChunks
  cases assembledBytes man chunks with
  | none => simp
  | some out =>
      dsimp only
      constructor
      · intro h
        split_ifs at h
        rw [Except.ok.inj h]
      · intro h
        rw [Option.some.inj h, if_neg (not_not.2 rfl)]

/-- v1 joins the events. -/
theorem assembledBytes_v1 (h : man.format = chunkFormatV1)
    (chunks : List Bytes) : assembledBytes man chunks =
      some (assembleCanonicalDoc man.envelope (chunks.flatMap splitDocChunk)) := by
  rw [assembledBytes, h, if_pos (by decide)]

/-- v2 joins the pieces of the stream. -/
theorem assembledBytes_v2 (h : man.format = chunkFormatV2)
    (chunks : List Bytes) : assembledBytes man chunks =
      some (docPrefix ++ man.envelope ++ docMiddle ++ chunks.flatten ++ docSuffix) := by
  rw [assembledBytes, h, if_neg (by decide), if_pos (by decide)]

/-- The pieces that the planner of v2 hashes. -/
def piecesV2 (cb : Bytes) : List Bytes :=
  match canonicalStream cb with
  | none => []
  | some (_, stream) => chunkByteStream stream

/-- The pieces that the planner of v1 hashes. -/
def piecesV1 (env : ChunkEnv) (cb : Bytes) : List Bytes :=
  match env.splitCanonicalDocBytes cb with
  | none => []
  | some (_, events) => chunkEventFragments events

/-- What a plan of v2 is. -/
theorem planDocChunks_eq_some {plan : DocChunkPlan}
    (h : planDocChunks env cb = some plan) : ∃ envelope stream,
      canonicalStream cb = some (envelope, stream) ∧ piecesV2 cb = chunkByteStream stream ∧
      plan = buildDocChunkPlan env chunkFormatV2 envelope (chunkByteStream stream) := by
  unfold planDocChunks at h
  split at h
  · cases h
  · next envelope stream hstream =>
      split_ifs at h with hempty
      cases h
      exact ⟨envelope, stream, hstream, by rw [piecesV2, hstream], rfl⟩

/-- What a plan of v1 is: it was assembled and compared. -/
theorem planDocChunksV1_eq_some {plan : DocChunkPlan}
    (h : planDocChunksV1 env cb = some plan) : ∃ envelope,
      assembleCanonicalDoc envelope ((piecesV1 env cb).flatMap splitDocChunk) = cb ∧
      plan = buildDocChunkPlan env chunkFormatV1 envelope (piecesV1 env cb) := by
  unfold planDocChunksV1 at h
  split at h
  · cases h
  · next envelope events hsplit =>
      dsimp only at h
      split_ifs at h with hempty hlarge hsame
      cases h
      refine ⟨envelope, ?_, by rw [piecesV1, hsplit]⟩
      rw [piecesV1, hsplit]
      exact not_not.1 hsame

/-- **Which plans bring the document back.**  Two pieces of one hash are taken to be one piece.
A plan of v1 always does.  A plan of v2 does exactly when no blank stands before the envelope;
its bodies are full but for the last one. -/
theorem assembleDocChunks_eq_ok_iff (env : ChunkEnv) (cb : Bytes) :
    (∀ plan, planDocChunks env cb = some plan → Set.InjOn env.hash {c | c ∈ piecesV2 cb} →
      (assembleDocChunks env plan.manifest plan.bodiesInOrder (env.hash cb) = .ok cb ↔
        StartsCompact cb) ∧
      (∀ c ∈ plan.bodiesInOrder, 1 ≤ c.length ∧ c.length ≤ chunkTarget) ∧
      ∀ c ∈ plan.bodiesInOrder.dropLast, c.length = chunkTarget) ∧
    ∀ plan, planDocChunksV1 env cb = some plan → Set.InjOn env.hash {c | c ∈ piecesV1 env cb} →
      assembleDocChunks env plan.manifest plan.bodiesInOrder (env.hash cb) = .ok cb := by
  constructor
  · intro plan hplan hinj
    obtain ⟨envelope, stream, hstream, hpieces, rfl⟩ := planDocChunks_eq_some hplan
    rw [hpieces] at hinj
    rw [bodiesInOrder_build hinj]
    refine ⟨?_, fun c hc => length_of_mem_chunksFrom hc, fun c hc => length_of_mem_dropLast hc⟩
    rw [assembleDocChunks_eq_ok, ← leadingBlanks_eq_nil_iff]
    have hparts := canonicalStream_parts hstream
    rw [assembledBytes_v2 rfl, chunkByteStream_flatten, Option.some.injEq]
    change docPrefix ++ envelope ++ docMiddle ++ stream ++ docSuffix = cb ↔ _
    constructor
    · intro heq
      -- the document is longer by the blanks
      have hlength := congrArg List.length (heq.trans hparts)
      simp only [List.length_append] at hlength
      exact List.length_eq_zero_iff.1 (by omega)
    · intro hblanks
      rw [hblanks, List.append_nil] at hparts
      exact hparts.symm
  · intro plan hplan hinj
    obtain ⟨envelope, hsame, rfl⟩ := planDocChunksV1_eq_some hplan
    rw [bodiesInOrder_build hinj, assembleDocChunks_eq_ok, assembledBytes_v1 rfl]
    exact congrArg some hsame

/-- A hash that spells out the bytes. -/
def plainChunkEnv : ChunkEnv where
  hash b := contentHashPrefix ++ String.ofList (jsonChars b)
  splitCanonicalDocBytes := splitCanonicalDocBytes

/-- A compact document comes back from both plans. -/
theorem assembleDocChunks_compact :
    ∃ cb plan planV1, planDocChunks plainChunkEnv cb = some plan ∧
      planDocChunksV1 plainChunkEnv cb = some planV1 ∧
      assembleDocChunks plainChunkEnv plan.manifest plan.bodiesInOrder (plainChunkEnv.hash cb) =
        .ok cb ∧
      assembleDocChunks plainChunkEnv planV1.manifest planV1.bodiesInOrder
        (plainChunkEnv.hash cb) = .ok cb := by
  let cb := bytesOf "\x7b\"envelope\":\x7b\x7d,\"events\":[1,2]\x7d"
  have hV2 : ∃ plan, planDocChunks plainChunkEnv cb = some plan :=
    Option.isSome_iff_exists.1 (by decide +kernel)
  have hV1 : ∃ plan, planDocChunksV1 plainChunkEnv cb = some plan :=
    Option.isSome_iff_exists.1 (by decide +kernel)
  obtain ⟨plan, hplan⟩ := hV2
  obtain ⟨planV1, hplanV1⟩ := hV1
  have hpieces : ∀ {l : List Bytes} {c : Bytes}, l = [c] →
      Set.InjOn plainChunkEnv.hash {c | c ∈ l} := by
    rintro l c rfl a ha b hb -
    rw [List.mem_singleton.1 ha, List.mem_singleton.1 hb]
  obtain ⟨h, h'⟩ := assembleDocChunks_eq_ok_iff plainChunkEnv cb
  refine ⟨cb, plan, planV1, hplan, hplanV1, ((h plan hplan ?_).1).2 (by decide +kernel),
    h' planV1 hplanV1 ?_⟩
  · exact hpieces (c := bytesOf "1,2") (by decide +kernel)
  · exact hpieces (c := bytesOf "1\n2") (by decide +kernel)

/-- A blank before the envelope is accepted, and lost. -/
theorem assembleDocChunks_blank :
    ∃ plan, planDocChunks plainChunkEnv (bytesOf "\x7b\"envelope\": \x7b\x7d,\"events\":[1]\x7d") =
        some plan ∧
      assembleDocChunks plainChunkEnv plan.manifest plan.bodiesInOrder
          (plainChunkEnv.hash (bytesOf "\x7b\"envelope\": \x7b\x7d,\"events\":[1]\x7d")) =
        .error { sentinel := .integrity } := by
  refine ⟨buildDocChunkPlan plainChunkEnv chunkFormatV2 (bytesOf "\x7b\x7d") [bytesOf "1"], ?_, ?_⟩
  · decide +kernel
  · decide +kernel

end Backend
end CxtHub
