/-
# The accumulator on machine integers

`backend/internal/domain/memory_accumulator.go` once more, closer to the machine than
`MemoryAccumulator`: every sum and difference is computed in 64 bits and a result out of
range is a fault of its own, an error leaves the fields as they were assigned up to that
point, and a quoted string is written in the pieces in which the source writes it.

The functions have the names of those that they refine, in the namespace `Machine`.
Lengths are those of values that exist, so they are no computations.
-/

import CxtHub.Backend.MemoryAccumulator

namespace CxtHub
namespace Backend
namespace Machine

/-- How a call can end early: `ErrMemoryProjectionLimit`, or an integer out of range. -/
inductive Fault
  | limit
  | overflow
  deriving DecidableEq, Repr

/-- The values of `int`. -/
def InRange (x : ℤ) : Prop := -2 ^ 63 ≤ x ∧ x < 2 ^ 63

instance (x : ℤ) : Decidable (InRange x) := inferInstanceAs (Decidable (_ ∧ _))

/-- The result of an integer operation. -/
def int (x : ℤ) : Except Fault ℤ := if InRange x then .ok x else .error .overflow

/-! ### The counting writer -/

section Writer

variable (limit : ℤ) (wireOnly : Bool)

/-- `accumulatorJSON.write`. -/
def write (text : List Char) (s : AccumulatorJSON) : Except Fault AccumulatorJSON := do
  let room ← int (limit - s.n)
  if byteLength text > room then .error .limit
  else do
    let n ← int (s.n + byteLength text)
    .ok { s with n := n, written := s.written ++ text }

/-- A control character without a short escape is written in two pieces. -/
def isControl (c : Char) : Bool := decide (Json.escape c = Json.escapeCode c.toNat ∧ c.toNat < 0x20)

/-- The escape of a character, after the run of plain characters before it. -/
def writeEscape (c : Char) (s : AccumulatorJSON) : Except Fault AccumulatorJSON :=
  if isControl c then
    write limit ((Json.escape c).take 4) s >>= write limit ((Json.escape c).drop 4)
  else write limit (Json.escape c) s

/-- The loop of `accumulatorJSON.quoted`, with `text[start:i]`. -/
def writeQuoted : List Char → List Char → AccumulatorJSON → Except Fault AccumulatorJSON
  | run, [], s => write limit run s
  | run, c :: text, s =>
      if Json.escape c = [c] then writeQuoted (run ++ [c]) text s
      else (write limit run s >>= writeEscape limit c) >>= writeQuoted [] text

/-- `accumulatorJSON.quoted`. -/
def quoted (text : String) (s : AccumulatorJSON) : Except Fault AccumulatorJSON := do
  let room ← int (limit - s.n)
  if room < 2 then .error .limit
  else do
    let inner ← int (room - 2)
    if byteLength text.toList > inner then .error .limit
    else (write limit ['\x22'] s >>= writeQuoted limit [] text.toList) >>= write limit ['\x22']

/-- The entries of a slice. -/
def charge (length : ℕ) (s : AccumulatorJSON) : Except Fault AccumulatorJSON :=
  if wireOnly then .ok s
  else do
    let room ← int (memoryAccumulatorMaxEntries - s.entries)
    if (length : ℤ) > room then .error .limit
    else do
      let entries ← int (s.entries + length)
      .ok { s with entries := entries }

/-- A comma, but not before the first item. -/
def comma (first : Bool) (s : AccumulatorJSON) : Except Fault AccumulatorJSON :=
  if first then .ok s else write limit [','] s

mutual

/-- `accumulatorJSON.value`. -/
def value : Json → AccumulatorJSON → Except Fault AccumulatorJSON
  | .null, s => write limit "null".toList s
  | .bool b, s => write limit (if b then "true".toList else "false".toList) s
  | .num t, s => write limit t.1 s
  | .str t, s => quoted limit t s
  | .arr l, s => ((charge wireOnly l.length s >>= write limit ['[']) >>= values true l) >>=
      write limit [']']
  | .obj l, s => (write limit ['\x7b'] s >>= fields true l) >>= write limit ['\x7d']

def values : Bool → List Json → AccumulatorJSON → Except Fault AccumulatorJSON
  | _, [], s => .ok s
  | first, j :: l, s => (comma limit first s >>= value j) >>= values false l

def fields : Bool → List (String × Json) → AccumulatorJSON → Except Fault AccumulatorJSON
  | _, [], s => .ok s
  | first, (k, j) :: l, s => (((comma limit first s >>= quoted limit k) >>= write limit [':']) >>=
      value j) >>= fields false l

end

end Writer

/-- `accumulatorBudgetOK`, in the order of its conditions. -/
def accumulatorBudgetOK (n entries limit : ℤ) : Except Fault Bool :=
  if limit ≥ memoryAccumulatorBaseBytes ∧ n ≥ 0 ∧ entries ≥ 0 ∧
      entries ≤ memoryAccumulatorMaxEntries then do
    let room ← int (limit - memoryAccumulatorBaseBytes)
    if n ≤ room then do
      let rest ← int (room - n)
      let quotient ← int (rest.tdiv memoryAccumulatorEntryBytes)
      .ok (decide (entries ≤ quotient))
    else .ok false
  else .ok false

/-- `memoryAccumulatorSize`. -/
def memoryAccumulatorSize (j : Json) (limit : ℤ) : Except Fault AccumulatorJSON := do
  let s ← value limit false j {}
  let ok ← accumulatorBudgetOK s.n s.entries limit
  if ok then .ok s else .error .limit

/-- The test that admits `n` bytes and `count` entries to what is used already. -/
def reserve (n count used entries limit : ℤ) : Except Fault (ℤ × ℤ) := do
  let room ← int (limit - used)
  if n > room then .error .limit
  else do
    let bytes ← int (used + n)
    let total ← int (entries + count)
    let ok ← accumulatorBudgetOK bytes total limit
    if ok then .ok (bytes, total) else .error .limit

/-! ### The opaque text -/

/-- The loop of `accumulatorStrings`. -/
def accumulatorStringsFrom (limit : ℤ) (used : ℤ) (seen : List String) :
    List String → Except Fault (List String)
  | [] => .ok seen
  | s :: rest =>
      if s = "" ∨ s ∈ seen then accumulatorStringsFrom limit used seen rest
      else do
        let size ← memoryAccumulatorSize (.str s) limit
        let reserved ← reserve size.n 1 used seen.length limit
        accumulatorStringsFrom limit reserved.1 (seen ++ [s]) rest

/-- `accumulatorStrings`. -/
def accumulatorStrings (limit : ℤ) (groups : List (List String)) : Except Fault (List String) :=
  accumulatorStringsFrom limit 0 [] groups.flatten

/-- The summary of `accumulatorLegacy`. -/
def accumulatorLegacySummary (c : MemoryCodec) (limit : ℤ) (prior fresh : String) :
    Except Fault String :=
  if byteLength fresh.toList > limit then .error .limit
  else if prior ≠ "" ∧ prior ≠ fresh ∧ containsText (c.lower fresh) (c.lower prior) = false then
    if fresh = "" then .ok prior
    else if limit < 2 then .error .limit
    else do
      let inner ← int (limit - 2)
      let room ← int (inner - byteLength fresh.toList)
      if byteLength prior.toList > room then .error .limit else .ok (prior ++ "\n\n" ++ fresh)
  else .ok fresh

/-- `accumulatorLegacy`. -/
def accumulatorLegacy (c : MemoryCodec) (prior fresh : MemoryDigest) (limit : ℤ) :
    Except Fault MemoryDigest := do
  let summary ← accumulatorLegacySummary c limit prior.summary fresh.summary
  let facts ← accumulatorStrings limit [prior.keyFacts.list, fresh.keyFacts.list]
  let tasks ← accumulatorStrings limit (if fresh.tasksAuthoritative then [fresh.openTasks.list]
    else [prior.openTasks.list, fresh.openTasks.list])
  .ok { fresh with summary := summary, keyFacts := Slice.grown facts
                   openTasks := Slice.grown tasks }

/-! ### The calls -/

section Calls

variable {c : MemoryCodec}

/-- One fragment of the `addFragments` closure of `Add`. -/
def addFragment (a : MemoryAccumulator c) (s : Staging c) (f : MemoryFragment) :
    Except Fault (Staging c) :=
  if f.sourceSnapshot = "" then .ok s
  else do
    let size ← memoryAccumulatorSize f.json a.maxBytes
    let key := c.sha256 size.written
    if (a.index key).any (equalAt a.fragments f) || (s.staged key).any (equalAt s.added f) then
      .ok s
    else do
      let count ← int (size.entries + 1)
      let reserved ← reserve size.n count s.used s.entries a.maxBytes
      .ok { used := reserved.1, entries := reserved.2, added := s.added ++ [f]
            staged := Function.update s.staged key (s.staged key ++ [s.added.length]) }

/-- The `addFragments` closure of `Add`. -/
def addFragments (a : MemoryAccumulator c) (s : Staging c) (d : MemoryDigest) :
    Except Fault (Staging c) :=
  (if d.fragments = [] then memoryFragments d else d.fragments).foldlM (addFragment a) s

/-- The fragments of the prior digest are staged unless they are retained already. -/
def stagePrior (a : MemoryAccumulator c) : Except Fault (Staging c) :=
  let s : Staging c := { used := a.fragmentBytes, entries := a.fragmentEntries }
  if a.single.isSome ∨ a.fragments = [] then addFragments a s a.prior else .ok s

/-- The `latest` of `Add`. -/
def nextLatest (a : MemoryAccumulator c) (s : Staging c) (d : MemoryDigest) :
    Except Fault MemoryDigest := do
  let priorAttributed := decide (a.fragments ≠ []) || accumulatorHasFragments a.prior
  -- also a bound on the positions that the index gets
  let total ← int (a.fragments.length + s.added.length)
  if total = 0 ∧ priorAttributed = false ∧ accumulatorHasFragments d = false then do
    let out ← accumulatorLegacy c a.prior d a.maxBytes
    .ok { out with claimsVersion := max a.prior.claimsVersion out.claimsVersion }
  else .ok (MemoryAccumulator.metadata a.prior d)

/-- A method of the accumulator: what it has assigned stays when it fails. -/
abbrev Method (c : MemoryCodec) := ExceptT Fault (StateM (MemoryAccumulator c))

/-- A value that a method computes without touching the accumulator. -/
def compute {α : Type} (x : Except Fault α) : Method c α := ExceptT.mk (pure x)

/-- The last part of `Add`, with its assignments in the order of the source. -/
def retain (s : Staging c) (latest : MemoryDigest) : Method c Unit := do
  let a ← get
  let size ← compute (memoryAccumulatorSize latest.json a.maxBytes)
  let _ ← compute (reserve size.n size.entries s.used s.entries a.maxBytes)
  modify fun b => { b with
    index := fun key => b.index key ++ (s.staged key).map (a.fragments.length + ·) }
  modify fun b => { b with fragments := a.fragments ++ s.added }
  modify fun b => { b with fragmentBytes := s.used, fragmentEntries := s.entries }
  modify fun b => { b with single := none, latest := latest }

/-- `MemoryAccumulator.Add`. -/
def add (d : MemoryDigest) : Method c Unit := do
  let a ← get
  if a.started = false then
    let _ ← compute (memoryAccumulatorSize d.json a.maxBytes)
    modify fun a => { a with single := some d, started := true }
  else
    let s ← compute (stagePrior a)
    let s ← compute (addFragments a s d)
    let latest ← compute (nextLatest a s d)
    retain s latest

/-- `MemoryAccumulator.Reset`. -/
def reset (d : MemoryDigest) : Method c Unit := do
  let a ← get
  let (outcome, next) := (add d).run.run (newMemoryAccumulator c a.maxBytes)
  compute outcome
  set next

/-- `MemoryAccumulator.Digest`. -/
def digest (a : MemoryAccumulator c) : Except Fault MemoryDigest := do
  let _ ← value a.maxBytes true a.rendered.json {}
  .ok a.rendered

end Calls

end Machine
end Backend
end CxtHub
