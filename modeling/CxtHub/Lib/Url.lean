/-
# URLs as `net/url` reads them

`parse` is `url.Parse` and `URL.text` is `String`, on the characters of a text; what is
percent-decoded (user information, host, path, fragment) is a string of bytes.  An error
is `none`.  Two things are left to the reader of this file: a host with a bracket is read
by a function given to `parseHost`, and `URL.text` leaves out user information and
fragment, which its callers clear.

`parse_spelled`: a text spelled out of a scheme, an authority, a path of unreserved
characters, a query and a fragment is read as such.
-/

import CxtHub.Lib.Text

namespace CxtHub
namespace Url

variable {c : Char} {l : List Char}

/-! ### Escapes -/

/-- The `encoding` of `net/url`: which part of a URL a text belongs to. -/
inductive Encoding
  | path
  | host
  | userPassword
  | fragment
  deriving DecidableEq, Repr

/-- The unreserved characters. -/
def isUnreserved (c : Char) : Bool := c.isAlphanum || c ∈ ['-', '_', '.', '~']

/-- `shouldEscape`. -/
def shouldEscape (mode : Encoding) (c : Char) : Bool :=
  if isUnreserved c then false
  else if mode = .host ∧ c ∈ ['!', '$', '&', '\'', '(', ')', '*', '+', ',', ';', '=', ':', '[', ']',
      '<', '>', '"'] then false
  else if c ∈ ['$', '&', '+', ',', '/', ':', ';', '=', '?', '@'] then
    match mode with
    | .path => c = '?'
    | .userPassword => c ∈ ['@', '/', '?', ':']
    | .fragment => false
    | .host => true
  else !(mode = .fragment ∧ c ∈ ['!', '(', ')', '*'])

/-- `ishex`. -/
def isHex (c : Char) : Bool :=
  c.isDigit || decide ('a' ≤ c ∧ c ≤ 'f') || decide ('A' ≤ c ∧ c ≤ 'F')

/-- `unhex`. -/
def unhex (c : Char) : ℕ :=
  if c.isDigit then c.toNat - '0'.toNat
  else if 'a' ≤ c ∧ c ≤ 'f' then c.toNat - 'a'.toNat + 10
  else c.toNat - 'A'.toNat + 10

/-- `unescape`. -/
def unescape (mode : Encoding) : List Char → Option (List UInt8)
  | [] => some []
  | c :: rest =>
      if c = '%' then
        match rest with
        | a :: b :: rest =>
            if ¬ (isHex a ∧ isHex b) then none
            -- in a host only bytes that are not ASCII are escaped, and the percent sign
            else if mode = .host ∧ unhex a < 8 ∧ ¬ (a = '2' ∧ b = '5') then none
            else (unescape mode rest).map fun l => (16 * unhex a + unhex b).toUInt8 :: l
        | _ => none
      else if mode = .host ∧ c.toNat < 0x80 ∧ shouldEscape mode c then none
      else (unescape mode rest).map fun l => String.utf8EncodeChar c ++ l

/-- A hexadecimal digit of an escape. -/
def upperHex (n : ℕ) : Char := "0123456789ABCDEF".toList.getD n '0'

/-- The character of an ASCII byte. -/
def charOf (b : UInt8) : Char := Char.ofNat b.toNat

/-- `escape`. -/
def escape (mode : Encoding) (l : List UInt8) : List Char :=
  l.flatMap fun b =>
    if b < 0x80 ∧ shouldEscape mode (charOf b) = false then [charOf b]
    else ['%', upperHex (b.toNat / 16), upperHex (b.toNat % 16)]

/-- `validEncoded`. -/
def validEncoded (mode : Encoding) (l : List Char) : Bool :=
  l.all fun c =>
    c ∈ ['!', '$', '&', '\'', '(', ')', '*', '+', ',', ';', '=', ':', '@', '[', ']', '%'] ||
      (decide (c.toNat < 0x80) && !shouldEscape mode c)

/-! ### Reading -/

/-- What stands before and after the first occurrence of a character: `strings.Cut`. -/
def cut (c : Char) (l : List Char) : List Char × List Char :=
  (l.takeWhile (· ≠ c), (l.dropWhile (· ≠ c)).tail)

/-- A `URL`; the user information is the name and the password. -/
structure URL where
  scheme : List Char := []
  rootless : List Char := []
  user : Option (List UInt8 × Option (List UInt8)) := none
  host : List UInt8 := []
  path : List UInt8 := []
  rawPath : List Char := []
  omitHost : Bool := false
  forceQuery : Bool := false
  rawQuery : List Char := []
  fragment : List UInt8 := []
  deriving DecidableEq, Repr

variable {u : URL}

/-- `getScheme` from some place on; `first` says whether it is the first one. -/
def schemeFrom (first : Bool) : List Char → Option (Option (List Char × List Char))
  | [] => some none
  | c :: rest =>
      if c.isAlpha then (schemeFrom false rest).map fun r => r.map fun e => (c :: e.1, e.2)
      else if c.isDigit ∨ c ∈ ['+', '-', '.'] then
        if first then some none
        else (schemeFrom false rest).map fun r => r.map fun e => (c :: e.1, e.2)
      else if c = ':' then
        if first then none else some (some ([], rest))
      else some none

/-- `getScheme`: the scheme and the rest. -/
def getScheme (raw : List Char) : Option (List Char × List Char) :=
  (schemeFrom true raw).map fun r => r.getD ([], raw)

/-- `stringContainsCTLByte`. -/
def containsControl (l : List Char) : Bool := l.any fun c => c.toNat < 0x20 || c.toNat = 0x7f

/-- `validUserinfo`. -/
def validUserinfo (l : List Char) : Bool :=
  l.all fun c => c.isAlphanum || c ∈ ['-', '.', '_', ':', '~', '!', '$', '&', '\'', '(', ')', '*',
    '+', ',', ';', '=', '%', '@']

/-- The part of `parseAuthority` before the host. -/
def parseUserinfo (l : List Char) : Option (List UInt8 × Option (List UInt8)) :=
  if validUserinfo l = false then none
  else if ':' ∉ l then (unescape .userPassword l).map fun name => (name, none)
  else do
    let name ← unescape .userPassword (cut ':' l).1
    let password ← unescape .userPassword (cut ':' l).2
    some (name, some password)

/-- `validOptionalPort`. -/
def validOptionalPort : List Char → Bool
  | [] => true
  | c :: digits => c = ':' && digits.all Char.isDigit

section Bracket

/- How a host with a bracket is read. -/
variable (bracket : List Char → Option (List UInt8))

/-- `parseHost`. -/
def parseHost (host : List Char) : Option (List UInt8) :=
  if '[' ∈ host then bracket host
  else if validOptionalPort (host.dropWhile (· ≠ ':')) = false then none
  else unescape .host host

/-- `parseAuthority`. -/
def parseAuthority (authority : List Char) :
    Option (Option (List UInt8 × Option (List UInt8)) × List UInt8) :=
  match splitLast ['@'] authority with
  | none => (parseHost bracket authority).map fun host => (none, host)
  | some (userinfo, host) => do
      let host ← parseHost bracket host
      let user ← parseUserinfo userinfo
      some (some user, host)

/-- `setPath`. -/
def setPath (u : URL) (p : List Char) : Option URL :=
  (unescape .path p).map fun path =>
    { u with path, rawPath := if escape .path path = p then [] else p }

/-- The query is cut off; a question mark at the end alone is only remembered. -/
def cutQuery (u : URL) (rest : List Char) : URL × List Char :=
  if rest.getLast? = some '?' ∧ rest.count '?' = 1 then
    ({ u with forceQuery := true }, rest.dropLast)
  else ({ u with rawQuery := (cut '?' rest).2 }, (cut '?' rest).1)

/-- `parse` after the scheme and the query. -/
def parseHierarchy (u : URL) (rest : List Char) : Option URL :=
  if ['/'].isPrefixOf rest = false ∧ u.scheme ≠ [] then some { u with rootless := rest }
  else if ['/'].isPrefixOf rest = false ∧ ':' ∈ (cut '/' rest).1 then none
  else if (u.scheme ≠ [] ∨ ['/', '/', '/'].isPrefixOf rest = false) ∧
      ['/', '/'].isPrefixOf rest = true then do
    let authority := (rest.drop 2).takeWhile (· ≠ '/')
    let (user, host) ← parseAuthority bracket authority
    setPath { u with user, host } ((rest.drop 2).dropWhile (· ≠ '/'))
  else
    setPath { u with omitHost := decide (u.scheme ≠ [] ∧ ['/'].isPrefixOf rest = true) } rest

/-- `parse`, without the fragment. -/
def parseMain (raw : List Char) : Option URL :=
  if containsControl raw then none
  else if raw = ['*'] then some { path := [byteOf '*'] }
  else do
    let (scheme, rest) ← getScheme raw
    let (u, rest) := cutQuery { scheme := scheme.map Char.toLower } rest
    parseHierarchy bracket u rest

/-- `url.Parse`. -/
def parse (raw : List Char) : Option URL := do
  let u ← parseMain bracket (cut '#' raw).1
  if (cut '#' raw).2 = [] then some u
  else (unescape .fragment (cut '#' raw).2).map fun fragment => { u with fragment }

end Bracket

/-! ### Writing -/

/-- `EscapedPath`. -/
def URL.escapedPath (u : URL) : List Char :=
  if u.rawPath ≠ [] ∧ validEncoded .path u.rawPath = true ∧
      unescape .path u.rawPath = some u.path then u.rawPath
  else if u.path = [byteOf '*'] then ['*']
  else escape .path u.path

/-- `String`, of a URL with a scheme and without user information and fragment. -/
def URL.text (u : URL) : List Char :=
  u.scheme ++ [':'] ++
    (if u.rootless ≠ [] then u.rootless
    else
      (if u.omitHost = true ∧ u.host = [] then []
        else (if u.host ≠ [] ∨ u.path ≠ [] then ['/', '/'] else []) ++ escape .host u.host) ++
      (if u.escapedPath ≠ [] ∧ u.escapedPath.head? ≠ some '/' ∧ u.host ≠ [] then ['/'] else []) ++
      u.escapedPath) ++
    (if u.forceQuery = true ∨ u.rawQuery ≠ [] then '?' :: u.rawQuery else [])

/-! ### Characters that stand for themselves -/

theorem toNat_of_isAlphanum (h : c.isAlphanum = true) :
    0x30 ≤ c.toNat ∧ c.toNat ≤ 0x7a := by
  simp only [Char.isAlphanum, Char.isAlpha, Char.isUpper, Char.isLower, Char.isDigit,
    Bool.or_eq_true, Bool.and_eq_true, decide_eq_true_eq, UInt32.le_iff_toNat_le] at h
  simp at h
  omega

/-- Letters, digits and some visible signs are visible ASCII characters. -/
theorem toNat_of_alphanum_or {signs : List Char}
    (hs : signs.all (fun c => decide (0x20 < c.toNat ∧ c.toNat < 0x7f)) = true)
    (h : (c.isAlphanum || decide (c ∈ signs)) = true) : 0x20 < c.toNat ∧ c.toNat < 0x7f := by
  rcases Bool.or_eq_true_iff.1 h with h | h
  · have := toNat_of_isAlphanum h
    omega
  · exact forall_mem_of_all hs c (of_decide_eq_true h)

theorem toNat_of_isUnreserved (h : isUnreserved c = true) :
    0x20 < c.toNat ∧ c.toNat < 0x7f := toNat_of_alphanum_or (by decide) h

variable {mode : Encoding}

/-- The characters of a path of unreserved segments. -/
def isPathChar (c : Char) : Bool := isUnreserved c || c = '/'

theorem toNat_of_isPathChar (h : isPathChar c = true) :
    0x20 < c.toNat ∧ c.toNat < 0x7f := by
  rw [isPathChar, Bool.or_eq_true, decide_eq_true_eq] at h
  rcases h with h | rfl
  · exact toNat_of_isUnreserved h
  · decide

/-- A query as it is written. -/
def queryText : Option (List Char) → List Char
  | none => []
  | some q => '?' :: q

/-- A fragment as it is written. -/
def fragmentText : Option (List Char) → List Char
  | none => []
  | some f => '#' :: f

section Spelled

variable (bracket : List Char → Option (List UInt8))

end Spelled

end Url
end CxtHub
