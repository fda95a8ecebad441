/-
# Byte-string helpers

The operations of a string library that the model uses.  A string is compared and
searched as its bytes, as Go does: prefixes, suffixes, substrings, splitting at a
separator.  `splitN`, `trimPrefix`, `trimSpace` and `splitLast`, whose results are
strings again, work on characters.
-/

import Mathlib

namespace CxtHub

/-- The bytes of a string. -/
def bytesOf (s : String) : List UInt8 := s.toByteArray.data.toList

/-- The byte of an ASCII character. -/
def byteOf (c : Char) : UInt8 := c.toNat.toUInt8

/-- A decidable statement about each of some given characters. -/
theorem forall_mem_of_all {l : List Char} {p : Char → Prop} [DecidablePred p]
    (h : l.all (fun c => decide (p c)) = true) : ∀ c ∈ l, p c := fun c hc =>
  of_decide_eq_true (List.all_eq_true.1 h c hc)

/-- `strings.HasPrefix(s, p)`. -/
def hasPrefix (s p : String) : Bool := (bytesOf p).isPrefixOf (bytesOf s)

theorem length_bytesOf (s : String) : (bytesOf s).length = s.utf8ByteSize := rfl

/-- Only the empty text is a prefix of the empty text. -/
theorem eq_empty_of_hasPrefix_empty {p : String} (h : hasPrefix "" p = true) : p = "" := by
  have hle := (List.isPrefixOf_iff_prefix.1 h).length_le
  rw [length_bytesOf, length_bytesOf] at hle
  exact String.utf8ByteSize_eq_zero_iff.1 (Nat.le_zero.1 hle)

/-- A text of ASCII characters has one byte for each of them. -/
theorem bytesOf_ofList {l : List Char} (h : ∀ c ∈ l, c.toNat ≤ 127) :
    bytesOf (String.ofList l) = l.map byteOf := by
  rw [bytesOf, String.toByteArray_ofList, List.utf8Encode, List.data_toByteArray]
  induction l with
  | nil => rfl
  | cons c l ih =>
      obtain ⟨hc, hl⟩ := List.forall_mem_cons.1 h
      have hencode : String.utf8EncodeChar c = [byteOf c] := if_pos hc
      rw [List.flatMap_cons, hencode, List.map_cons, ← ih hl]
      rfl

/-- `strings.HasSuffix(s, p)`. -/
def hasSuffix (s p : String) : Bool := (bytesOf p).isSuffixOf (bytesOf s)

/-- Whether `p` occurs in `s`, on bytes. -/
def occurs (p : List UInt8) : List UInt8 → Bool
  | [] => p.isEmpty
  | c :: s => p.isPrefixOf (c :: s) || occurs p s

/-- Occurrence is being an infix. -/
theorem occurs_iff {p s : List UInt8} : occurs p s = true ↔ p <:+: s := by
  induction s with
  | nil => rw [occurs, List.isEmpty_iff, List.infix_nil]
  | cons c s ih =>
      rw [occurs, Bool.or_eq_true, List.isPrefixOf_iff_prefix, ih, List.infix_cons_iff]

/-- `strings.Contains(s, p)`. -/
def containsText (s p : String) : Bool := occurs (bytesOf p) (bytesOf s)

theorem containsText_refl (s : String) : containsText s s = true :=
  occurs_iff.2 List.infix_rfl

/-- Containment is transitive. -/
theorem containsText_trans {s t u : String} (hst : containsText t s = true)
    (htu : containsText u t = true) : containsText u s = true :=
  occurs_iff.2 ((occurs_iff.1 hst).trans (occurs_iff.1 htu))

/-- A text is at least as long as what it contains. -/
theorem utf8ByteSize_le_of_containsText {s p : String} (h : containsText s p = true) :
    p.utf8ByteSize ≤ s.utf8ByteSize :=
  (occurs_iff.1 h).length_le

/-- A text that contains another one of its length is that text. -/
theorem eq_of_containsText {s p : String} (h : containsText s p = true)
    (hlen : s.utf8ByteSize ≤ p.utf8ByteSize) : s = p := by
  have hbytes : bytesOf p = bytesOf s := (occurs_iff.1 h).eq_of_length_le hlen
  exact String.toByteArray_inj.1 (ByteArray.ext (Array.toList_inj.1 hbytes.symm))

/-- Split at every occurrence of a separator byte. -/
def splitBytes (sep : UInt8) : List UInt8 → List (List UInt8)
  | [] => [[]]
  | c :: s =>
      if c = sep then [] :: splitBytes sep s
      else match splitBytes sep s with
        | [] => [[c]]
        | p :: ps => (c :: p) :: ps

/-- `strings.SplitN(s, sep, n)` for `n ≥ 1`: at most `n` parts, the last one
holding the rest. -/
def splitN (sep : Char) : ℕ → List Char → List (List Char)
  | _, [] => [[]]
  | n, c :: s =>
      if c = sep ∧ 1 < n then [] :: splitN sep (n - 1) s
      else match splitN sep n s with
        | [] => [[c]]
        | p :: ps => (c :: p) :: ps

/-- The value of a run of decimal digits. -/
def digitsValue : List Char → ℕ → Option ℕ
  | [], v => some v
  | c :: s, v => if c.isDigit then digitsValue s (10 * v + (c.toNat - '0'.toNat)) else none

/-- `strconv.ParseUint(s, 10, 64)`. -/
def parseUint (s : List Char) : Option ℕ :=
  if s.isEmpty then none
  else (digitsValue s 0).bind fun v => if v < 2 ^ 64 then some v else none

/-- `fmt.Sprintf("%020d", n)`. -/
def padded20 (n : ℕ) : List Char :=
  let digits := Nat.toDigits 10 n
  List.replicate (20 - digits.length) '0' ++ digits

/-- `strings.TrimPrefix(s, p)`. -/
def trimPrefix (s p : String) : String :=
  if hasPrefix s p then String.ofList (s.toList.drop p.toList.length) else s

/-- `unicode.IsSpace`. -/
def isSpace (c : Char) : Bool :=
  let n := c.toNat
  decide (9 ≤ n ∧ n ≤ 13 ∨ n = 0x20 ∨ n = 0x85 ∨ n = 0xA0 ∨ n = 0x1680 ∨
    0x2000 ≤ n ∧ n ≤ 0x200A ∨ n = 0x2028 ∨ n = 0x2029 ∨ n = 0x202F ∨ n = 0x205F ∨ n = 0x3000)

/-- `strings.TrimSpace(s)`. -/
def trimSpace (s : String) : String :=
  String.ofList ((s.toList.dropWhile isSpace).reverse.dropWhile isSpace).reverse

/-- `strings.Split(s, "\n")`. -/
def splitLines (s : String) : List String :=
  (splitN '\n' (s.length + 1) s.toList).map String.ofList

/-- What stands before and after the last occurrence of `p`. -/
def splitLast (p : List Char) : List Char → Option (List Char × List Char)
  | [] => if p = [] then some ([], []) else none
  | c :: s =>
      match splitLast p s with
      | some (before, after) => some (c :: before, after)
      | none => if p.isPrefixOf (c :: s) then some ([], (c :: s).drop p.length) else none

end CxtHub
