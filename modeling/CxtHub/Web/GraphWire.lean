/-
# Reading the indexed transport

`decodeGraphState` of `frontend/web/src/graphWire.ts`, on the parsed object: it checks the
dictionary and every place and puts the ids back; whatever it does not know is passed
through.  A place is read from its plain decimal text; other spellings of an integer,
which JavaScript reads as well, are never sent.
-/

import CxtHub.Lib.Checks
import CxtHub.Lib.JsonObject

namespace CxtHub
namespace Web

open Json (assign without)

/-- `graphIndexFields`. -/
def graphIndexFields : List String :=
  ["snapshot_ids", "graph_ids", "committed_ids", "historical_ids", "shared_ids", "pushed_ids",
    "unpushed_ids", "uncommitted_ids", "tagged_ids", "archived_only_ids", "ahead_ids",
    "ahead_tips"]

/-- A number that `Number.isSafeInteger` accepts and that is not negative. -/
def safeIndex : Json → Option ℕ
  | .num text =>
      let n := Nat.ofDigitChars 10 text.1 0
      if text.1.all Char.isDigit ∧ n < 2 ^ 53 then some n else none
  | _ => none

/-- One index of `decode`. -/
def decodeIndex (dictionary : List String) (j : Json) : Except String String :=
  match (safeIndex j).bind fun i => dictionary[i]? with
  | some id => .ok id
  | none => .error "Invalid graph index"

/-- `decode`; `none` is `undefined`. -/
def decodeIndices (dictionary : List String) : Option Json → Except String (List String)
  | some (.arr items) => items.mapM (decodeIndex dictionary)
  | _ => .error "Missing graph indices"

/-- A list of ids. -/
def idArray (ids : List String) : Json := .arr (ids.map .str)

/-- An entry of the dictionary. -/
def dictionaryEntry : Json → Except String String
  | .str id => .ok id
  | _ => .error "Invalid graph dictionary"

/-- The check of the dictionary. -/
def readDictionary : Option Json → Except String (List String)
  | some (.arr items) => do
      let ids ← items.mapM dictionaryEntry
      refuse (¬ ids.Nodup) "Invalid graph dictionary"
      .ok ids
  | _ => .error "Invalid graph dictionary"

/-- The fields of an object; reading a field of anything else throws. -/
def objectFields : Json → Except String (List (String × Json))
  | .obj fields => .ok fields
  | _ => .error "TypeError"

/-- `decode(snapshot_ids ?? [])`. -/
def decodeOptional (dictionary : List String) (j : Option Json) : Except String (List String) :=
  match j with
  | none => .ok []
  | some .null => .ok []
  | some j => decodeIndices dictionary (some j)

/-- A timeline reference that is refused: not the name of a branch that was sent, or next
to a timeline. -/
def invalidReference (branches : List (String × Json)) (ref snapshotIDs : Option Json) : Bool :=
  match ref with
  | none => false
  | some (.str branch) => (branches.lookup branch).isNone || snapshotIDs.isSome
  | some _ => true

/-- The timeline of a context: its own places, or that of the branch it refers to. -/
def decodeTimeline (dictionary : List String) (branches : List (String × Json))
    (ref snapshotIDs : Option Json) : Except String Json :=
  match ref with
  | some (.str branch) => .ok ((branches.lookup branch).getD .null)
  | _ => idArray <$> decodeOptional dictionary snapshotIDs

/-- One entry of `branch_contexts`. -/
def decodeContext (dictionary : List String) (branches : List (String × Json)) (j : Json) :
    Except String Json := do
  let c ← objectFields j
  let ref := c.lookup "snapshot_ids_ref"
  let snapshotIDs := c.lookup "snapshot_ids"
  refuse (invalidReference branches ref snapshotIDs = true) "Invalid branch timeline reference"
  let roots ← decodeIndices dictionary (c.lookup "roots")
  let timeline ← decodeTimeline dictionary branches ref snapshotIDs
  .ok (.obj (assign (assign (without ["snapshot_ids_ref", "roots", "snapshot_ids"] c)
    "roots" (idArray roots)) "snapshot_ids" timeline))

/-- `contexts`. -/
def decodeContexts (dictionary : List String) (branches : List (String × Json)) :
    Option Json → Except String Json
  | some (.obj entries) => do
      let out ← entries.mapM fun e => (fun c => (e.1, c)) <$> decodeContext dictionary branches e.2
      .ok (.obj out)
  | _ => .error "Incomplete branch contexts"

/-- `{...o, key: decode(o.key)}` for some keys. -/
def decodeKeys (dictionary : List String) (keys : List String) (j : Json) :
    Except String Json := do
  let o ← objectFields j
  let lists ← keys.mapM fun key =>
    (fun ids => (key, ids)) <$> decodeIndices dictionary (o.lookup key)
  .ok (.obj (lists.foldl (fun o e => assign o e.1 (idArray e.2)) o))

/-- The check of the encoding: whether it is the second one. -/
def readEncoding : Option Json → Except String Bool
  | some (.str "indexed-v1") => .ok false
  | some (.str "indexed-v2") => .ok true
  | _ => .error "Unsupported graph encoding"

/-- The contexts of either version; the first passes them through. -/
def readContexts (second : Bool) (dictionary : List String) (branches : List (String × Json))
    (j : Option Json) : Except String (Option Json) :=
  if second then some <$> decodeContexts dictionary branches j else .ok j

/-- `decodeGraphState`. -/
def decodeGraphState (input : List (String × Json)) : Except String (List (String × Json)) := do
  let second ← readEncoding (input.lookup "encoding")
  let rest := without ["dictionary", "encoding"] input
  let dictionary ← readDictionary (input.lookup "dictionary")
  let (some (Json.obj snapshots), some (Json.arr hold), some (Json.arr previous)) :=
      (input.lookup "branch_snapshots", input.lookup "hold", input.lookup "previous")
    | .error "Incomplete indexed graph"
  let branches ← snapshots.mapM fun e =>
    (fun ids => (e.1, idArray ids)) <$> decodeIndices dictionary (some e.2)
  let contexts ← readContexts second dictionary branches (input.lookup "branch_contexts")
  let lists ← graphIndexFields.mapM fun key =>
    (fun ids => (key, ids)) <$> decodeIndices dictionary (input.lookup key)
  let hold ← hold.mapM (decodeKeys dictionary ["ids"])
  let previous ← previous.mapM (decodeKeys dictionary ["snapshot_ids", "collapsible_ids"])
  let placed := match contexts with
    | some c => assign rest "branch_contexts" c
    | none => rest
  .ok (assign (assign (assign
    (lists.foldl (fun o e => assign o e.1 (idArray e.2)) placed)
    "branch_snapshots" (.obj branches)) "hold" (.arr hold)) "previous" (.arr previous))

end Web
end CxtHub
