/-
# JSON texts

JSON values, the compact text `encoding/json` writes for one (`Json.print`) and the
reader of such texts (`Json.value`, `Json.parse`), with the escapes and the limit on
nesting of `encoding/json`.  A number keeps its text and an object the order of its
fields.

* `Json.value_print`: reading the printed text gives the value back;
* `Json.print_injective`: the text determines the value.
-/

import CxtHub.Lib.Text

namespace CxtHub

namespace Json

/-! ### Numbers -/

/-- An optional sign. -/
def sign (signs : List Char) : List Char → List Char × List Char
  | [] => ([], [])
  | c :: s => if c ∈ signs then ([c], s) else ([], c :: s)

/-- The integer part of a number. -/
def integer : List Char → Option (List Char × List Char)
  | [] => none
  | c :: s =>
      if c = '0' then some (['0'], s)
      else if c.isDigit then some (c :: s.takeWhile Char.isDigit, s.dropWhile Char.isDigit)
      else none

/-- An optional part of a number: a mark, a sign and digits. -/
def part (marks signs : List Char) : List Char → Option (List Char × List Char)
  | [] => some ([], [])
  | c :: s =>
      if c ∈ marks then
        let read := sign signs s
        let ds := read.2.takeWhile Char.isDigit
        if ds = [] then none else some (c :: read.1 ++ ds, read.2.dropWhile Char.isDigit)
      else some ([], c :: s)

/-- The text of a number. -/
def number (s : List Char) : Option (List Char × List Char) :=
  let minus := sign ['-'] s
  match integer minus.2 with
  | none => none
  | some (i, s) =>
      match part ['.'] [] s with
      | none => none
      | some (f, s) =>
          match part ['e', 'E'] ['+', '-'] s with
          | none => none
          | some (e, s) => some (minus.1 ++ i ++ f ++ e, s)

/-- A text after which a number ends. -/
def Ends (r : List Char) : Prop :=
  ∀ c ∈ r.head?, c.isDigit = false ∧ c ∉ ['.', 'e', 'E']

theorem takeWhile_append_of_head {p : Char → Bool} {s r : List Char} (hs : ∀ c ∈ s, p c = true)
    (hr : ∀ c ∈ r.head?, p c = false) : (s ++ r).takeWhile p = s := by
  rw [List.takeWhile_append_of_pos hs]
  cases r with
  | nil => exact List.append_nil s
  | cons c r => rw [List.takeWhile_cons_of_neg (by rw [hr c rfl]; simp), List.append_nil]

theorem dropWhile_append_of_head {p : Char → Bool} {s r : List Char} (hs : ∀ c ∈ s, p c = true)
    (hr : ∀ c ∈ r.head?, p c = false) : (s ++ r).dropWhile p = r := by
  rw [List.dropWhile_append_of_pos hs]
  cases r with
  | nil => rfl
  | cons c r => exact List.dropWhile_cons_of_neg (by rw [hr c rfl]; simp)

section

variable {s t r rest marks signs : List Char}

/-- The integer that was read starts with a digit and is read again before any text that
starts with no digit. -/
theorem integer_append (h : integer s = some (t, rest)) :
    (∃ c t', t = c :: t' ∧ c.isDigit = true) ∧
      ∀ r : List Char, (∀ c ∈ r.head?, c.isDigit = false) → integer (t ++ r) = some (t, r) := by
  cases s with
  | nil => cases h
  | cons c s =>
      simp only [integer] at h
      split_ifs at h with hzero hdigit
      · cases h
        exact ⟨⟨'0', [], rfl, rfl⟩, fun _ _ => rfl⟩
      · cases h
        refine ⟨⟨c, _, rfl, hdigit⟩, fun r hr => ?_⟩
        have hall : ∀ c ∈ s.takeWhile Char.isDigit, c.isDigit = true :=
          fun c hc => List.mem_takeWhile_imp hc
        rw [List.cons_append, integer, if_neg hzero, if_pos hdigit,
          takeWhile_append_of_head hall hr, dropWhile_append_of_head hall hr]

/-- A sign is read again before any digit. -/
theorem sign_append (hsigns : ∀ c ∈ signs, c.isDigit = false) (s : List Char)
    (ht : ∃ c t', t = c :: t' ∧ c.isDigit = true) :
    sign signs ((sign signs s).1 ++ t) = ((sign signs s).1, t) := by
  obtain ⟨d, t, rfl, hd⟩ := ht
  have hnone : sign signs (d :: t) = ([], d :: t) :=
    if_neg fun hc => Bool.false_ne_true ((hsigns d hc).symm.trans hd)
  cases s with
  | nil => exact hnone
  | cons a s =>
      simp only [sign]
      split_ifs with ha
      · exact if_pos ha
      · exact hnone

/-- The part that was read is empty or starts with a mark, and is read again before any text
that starts with no digit and no mark. -/
theorem part_append (hsigns : ∀ c ∈ signs, c.isDigit = false)
    (h : part marks signs s = some (t, rest)) :
    (t = [] ∨ ∃ c t', t = c :: t' ∧ c ∈ marks) ∧
      ∀ r : List Char, (∀ c ∈ r.head?, c.isDigit = false ∧ c ∉ marks) →
        part marks signs (t ++ r) = some (t, r) := by
  have hnone : ∀ r : List Char, (∀ c ∈ r.head?, c.isDigit = false ∧ c ∉ marks) →
      part marks signs r = some ([], r) := by
    intro r hr
    cases r with
    | nil => rfl
    | cons c r => exact if_neg (hr c rfl).2
  cases s with
  | nil =>
      cases h
      exact ⟨Or.inl rfl, hnone⟩
  | cons c s =>
      simp only [part] at h
      split_ifs at h with hc hds
      · cases h
        refine ⟨Or.inr ⟨c, _, rfl, hc⟩, fun r hr => ?_⟩
        have hall : ∀ c ∈ (sign signs s).2.takeWhile Char.isDigit, c.isDigit = true :=
          fun c hc => List.mem_takeWhile_imp hc
        obtain ⟨d, ds, hd⟩ := List.exists_cons_of_ne_nil hds
        have hsign := sign_append hsigns s
          (t := (sign signs s).2.takeWhile Char.isDigit ++ r)
          ⟨d, ds ++ r, by rw [hd]; rfl, hall d (by rw [hd]; exact List.mem_cons_self)⟩
        simp only [List.cons_append, List.append_assoc, part, if_pos hc, hsign,
          takeWhile_append_of_head hall fun c hc => (hr c hc).1,
          dropWhile_append_of_head hall fun c hc => (hr c hc).1, if_neg hds]
      · cases h
        exact ⟨Or.inl rfl, hnone⟩

/-- The first character of a text, when there is one, or of what follows. -/
theorem head_append {p : Char → Prop} (ht : t = [] ∨ ∃ c t', t = c :: t' ∧ c ∈ marks)
    (hmarks : ∀ c ∈ marks, p c) (hr : ∀ c ∈ r.head?, p c) : ∀ c ∈ (t ++ r).head?, p c := by
  rcases ht with rfl | ⟨a, t', rfl, ha⟩
  · exact hr
  · rintro c ⟨⟩
    exact hmarks a ha

/-- **A number is read up to the first character that cannot be part of it.** -/
theorem number_append (h : number s = some (t, rest)) (hr : Ends r) :
    number (t ++ r) = some (t, r) := by
  unfold number at h
  cases hi : integer (sign ['-'] s).2 with
  | none => simp [hi] at h
  | some i =>
      cases hf : part ['.'] [] i.2 with
      | none => simp [hi, hf] at h
      | some f =>
          cases he : part ['e', 'E'] ['+', '-'] f.2 with
          | none => simp [hi, hf, he] at h
          | some e =>
              simp only [hi, hf, he, Option.some.injEq, Prod.mk.injEq] at h
              obtain ⟨⟨d, i', hd, hdigit⟩, hi'⟩ := integer_append hi
              obtain ⟨hfhead, hf'⟩ := part_append (by simp) hf
              obtain ⟨hehead, he'⟩ := part_append (forall_mem_of_all (by decide)) he
              simp only [Ends, List.mem_cons, List.not_mem_nil, or_false, not_or] at hr
              -- Each part ends where the next one starts.
              have he₁ : ∀ c ∈ (e.1 ++ r).head?, c.isDigit = false ∧ c ∉ ['.'] :=
                head_append hehead (forall_mem_of_all (by decide)) fun c hc =>
                  ⟨(hr c hc).1, by simp [hr c hc]⟩
              have hf₁ : ∀ c ∈ (f.1 ++ (e.1 ++ r)).head?, c.isDigit = false :=
                head_append hfhead (forall_mem_of_all (by decide)) fun c hc => (he₁ c hc).1
              have hminus := sign_append (forall_mem_of_all (l := ['-']) (by decide)) s
                (t := i.1 ++ (f.1 ++ (e.1 ++ r))) ⟨d, _, by rw [hd]; rfl, hdigit⟩
              rw [← h.1, number]
              simp only [List.append_assoc, hminus, hi' _ hf₁, hf' _ he₁,
                he' r fun c hc => ⟨(hr c hc).1, by simp [hr c hc]⟩]

/-- What was read is the text of a number. -/
theorem isNumber_of_number (h : number s = some (t, rest)) : number t = some (t, []) := by
  have hend := number_append (r := []) h (by simp [Ends])
  rwa [List.append_nil] at hend

end

/-- The texts of numbers. -/
def IsNumber (t : List Char) : Prop := number t = some (t, [])

instance : DecidablePred IsNumber := fun t => inferInstanceAs (Decidable (number t = some (t, [])))

end Json

/-- A JSON value. -/
inductive Json
  | null
  | bool (b : Bool)
  | num (text : {t : List Char // Json.IsNumber t})
  | str (text : String)
  | arr (items : List Json)
  | obj (fields : List (String × Json))
  deriving Inhabited

namespace Json

/-- Induction with the hypothesis for every item and every field. -/
@[elab_as_elim, induction_eliminator]
theorem induct {motive : Json → Prop} (null : motive .null) (bool : ∀ b, motive (.bool b))
    (num : ∀ t, motive (.num t)) (str : ∀ s, motive (.str s))
    (arr : ∀ l, (∀ j ∈ l, motive j) → motive (.arr l))
    (obj : ∀ l, (∀ p ∈ l, motive p.2) → motive (.obj l)) (j : Json) : motive j :=
  @Json.rec motive (fun l => ∀ j ∈ l, motive j) (fun l => ∀ p ∈ l, motive p.2)
    (fun p => motive p.2) null bool num str arr obj (fun _ h => nomatch h)
    (fun _ _ ha hl j h => (List.mem_cons.1 h).elim (fun he => he ▸ ha) (hl j))
    (fun _ h => nomatch h)
    (fun _ _ ha hl p h => (List.mem_cons.1 h).elim (fun he => he ▸ ha) (hl p))
    (fun _ _ hj => hj) j

/-! ### Writing -/

/-- A `\u` escape of a number below `2¹⁶`. -/
def escapeCode (n : ℕ) : List Char :=
  ['\\', 'u', (n / 4096).digitChar, (n / 256 % 16).digitChar, (n / 16 % 16).digitChar,
    (n % 16).digitChar]

/-- How a character of a string is written. -/
def escape (c : Char) : List Char :=
  if c = '\x22' then ['\\', '\x22']
  else if c = '\\' then ['\\', '\\']
  else if c = '\n' then ['\\', 'n']
  else if c = '\r' then ['\\', 'r']
  else if c = '\t' then ['\\', 't']
  else if c = '\x08' then ['\\', 'b']
  else if c = '\x0c' then ['\\', 'f']
  else if c.toNat < 0x20 ∨ c ∈ ['<', '>', '&', '\u2028', '\u2029'] then escapeCode c.toNat
  else [c]

/-- A string in quotes. -/
def printString (s : String) : List Char := '\x22' :: s.toList.flatMap escape ++ ['\x22']

mutual

/-- The compact text of a value. -/
def print : Json → List Char
  | .null => "null".toList
  | .bool true => "true".toList
  | .bool false => "false".toList
  | .num t => t.1
  | .str s => printString s
  | .arr [] => "[]".toList
  | .arr (j :: l) => '[' :: print j ++ printItems l
  | .obj [] => "\x7b\x7d".toList
  | .obj ((k, j) :: l) => '\x7b' :: printString k ++ ':' :: print j ++ printFields l

/-- The items after the first, and the bracket. -/
def printItems : List Json → List Char
  | [] => [']']
  | j :: l => ',' :: print j ++ printItems l

/-- The fields after the first, and the brace. -/
def printFields : List (String × Json) → List Char
  | [] => ['\x7d']
  | (k, j) :: l => ',' :: printString k ++ ':' :: print j ++ printFields l

end

/-! ### Reading -/

def isSpace (c : Char) : Bool := c = ' ' || c = '\t' || c = '\r' || c = '\n'

/-- The text after its leading blanks. -/
def skipSpace (s : List Char) : List Char := s.dropWhile isSpace

/-- The value of a hexadecimal digit. -/
def hexValue (c : Char) : Option ℕ :=
  if '0' ≤ c ∧ c ≤ '9' then some (c.toNat - '0'.toNat)
  else if 'a' ≤ c ∧ c ≤ 'f' then some (c.toNat - 'a'.toNat + 10)
  else if 'A' ≤ c ∧ c ≤ 'F' then some (c.toNat - 'A'.toNat + 10)
  else none

/-- The number of a `\u` escape. -/
def hex4 (a b c d : Char) : Option ℕ :=
  match hexValue a, hexValue b, hexValue c, hexValue d with
  | some a, some b, some c, some d => some (((a * 16 + b) * 16 + c) * 16 + d)
  | _, _, _, _ => none

/-- What a lone surrogate that waits for its second half reads as. -/
def flush (pending : Option ℕ) : List Char := if pending.isSome then ['\ufffd'] else []

/-- The characters a `\u` escape gives, and the first half of a pair that then waits. -/
def codeUnit (n : ℕ) : List Char × Option ℕ :=
  if 0xD800 ≤ n ∧ n < 0xDC00 then ([], some n)
  else if 0xDC00 ≤ n ∧ n < 0xE000 then (['\ufffd'], none)
  else ([Char.ofNat n], none)

/-- `codeUnit` after an escape that may wait for this one. -/
def nextUnit (pending : Option ℕ) (n : ℕ) : List Char × Option ℕ :=
  match pending with
  | none => codeUnit n
  | some high =>
      if 0xDC00 ≤ n ∧ n < 0xE000 then
        ([Char.ofNat ((high - 0xD800) * 0x400 + (n - 0xDC00) + 0x10000)], none)
      else ('\ufffd' :: (codeUnit n).1, (codeUnit n).2)

/-- The character of a one-letter escape. -/
def simpleEscape (c : Char) : Option Char :=
  if c = '\x22' then some '\x22'
  else if c = '\\' then some '\\'
  else if c = '/' then some '/'
  else if c = 'b' then some '\x08'
  else if c = 'f' then some '\x0c'
  else if c = 'n' then some '\n'
  else if c = 'r' then some '\r'
  else if c = 't' then some '\t'
  else none

/-- Put characters in front of what was read. -/
def emit (t : List Char) (read : Option (List Char × List Char)) :
    Option (List Char × List Char) :=
  read.map fun p => (t ++ p.1, p.2)

/-- The rest of a string after its opening quote; a lone surrogate reads as U+FFFD. -/
def stringBody (pending : Option ℕ) : List Char → Option (List Char × List Char)
  | [] => none
  | c :: s =>
      if c = '\x22' then some (flush pending, s)
      else if c = '\\' then
        match s with
        | 'u' :: a :: b :: x :: y :: s =>
            match hex4 a b x y with
            | none => none
            | some n => emit (nextUnit pending n).1 (stringBody (nextUnit pending n).2 s)
        | e :: s =>
            match simpleEscape e with
            | none => none
            | some c => emit (flush pending ++ [c]) (stringBody none s)
        | [] => none
      else if c.toNat < 0x20 then none
      else emit (flush pending ++ [c]) (stringBody none s)

/-- A literal name, whose first letter was read. -/
def literal (rest : List Char) (j : Json) (s : List Char) : Option (Json × List Char) :=
  if rest.isPrefixOf s then some (j, s.drop rest.length) else none

/-- A value that is no array or object. -/
def scalar (s : List Char) : Option (Json × List Char) :=
  match s with
  | [] => none
  | c :: s =>
      if c = '\x22' then (stringBody none s).map fun p => (.str (String.ofList p.1), p.2)
      else if c = 'n' then literal "ull".toList .null s
      else if c = 't' then literal "rue".toList (.bool true) s
      else if c = 'f' then literal "alse".toList (.bool false) s
      else
        match h : number (c :: s) with
        | none => none
        | some (t, rest) => some (.num ⟨t, isNumber_of_number h⟩, rest)

section Lists

variable {α : Type} (read : List Char → Option (α × List Char)) (close : Char)

/-- Items up to the closing bracket, at least one and at most `n`. -/
def itemsFrom : ℕ → List Char → Option (List α × List Char)
  | 0, _ => none
  | n + 1, s =>
      match read s with
      | none => none
      | some (a, s) =>
          match skipSpace s with
          | [] => none
          | c :: s =>
              if c = ',' then (itemsFrom n s).map fun p => (a :: p.1, p.2)
              else if c = close then some ([a], s)
              else none

/-- The items after the opening bracket. -/
def itemsOf (s : List Char) : Option (List α × List Char) :=
  match skipSpace s with
  | [] => none
  | c :: s => if c = close then some ([], s) else itemsFrom read close (s.length + 1) (c :: s)

/-- A field of an object. -/
def field (s : List Char) : Option ((String × α) × List Char) :=
  match skipSpace s with
  | [] => none
  | c :: s =>
      if c = '\x22' then
        match stringBody none s with
        | none => none
        | some (k, s) =>
            match skipSpace s with
            | [] => none
            | c :: s =>
                if c = ':' then (read s).map fun p => ((String.ofList k, p.1), p.2) else none
      else none

end Lists

/-- A value nested at most `depth` deep. -/
def value : ℕ → List Char → Option (Json × List Char)
  | 0, s => scalar (skipSpace s)
  | depth + 1, s =>
      match skipSpace s with
      | [] => none
      | c :: s =>
          if c = '[' then (itemsOf (value depth) ']' s).map fun p => (.arr p.1, p.2)
          else if c = '\x7b' then
            (itemsOf (field (value depth)) '\x7d' s).map fun p => (.obj p.1, p.2)
          else scalar (c :: s)

/-- `maxNestingDepth`. -/
def maxNesting : ℕ := 10000

/-- A text that is one value. -/
def parse (s : List Char) : Option Json :=
  match value maxNesting s with
  | none => none
  | some (j, rest) => if skipSpace rest = [] then some j else none

/-! ### The round trip -/

@[simp] theorem emit_some (c t r : List Char) : emit c (some (t, r)) = some (c ++ t, r) := rfl

theorem hexValue_digitChar : ∀ n, n < 16 → hexValue n.digitChar = some n := by decide

/-- The four digits of an escape are read back. -/
theorem hex4_escapeCode {n : ℕ} (hn : n < 0x10000) :
    hex4 (n / 4096).digitChar (n / 256 % 16).digitChar (n / 16 % 16).digitChar
      (n % 16).digitChar = some n := by
  rw [hex4, hexValue_digitChar _ (by omega), hexValue_digitChar _ (by omega),
    hexValue_digitChar _ (by omega), hexValue_digitChar _ (by omega)]
  simp only [Option.some.injEq]
  omega

/-- A code unit below the surrogates is a character of its own. -/
theorem nextUnit_toNat {c : Char} (hc : c.toNat < 0xD800) :
    nextUnit none c.toNat = ([c], none) := by
  rw [nextUnit, codeUnit, if_neg (by omega), if_neg (by omega), Char.ofNat_toNat]

/-- A `\u` escape is read as its character. -/
theorem stringBody_escapeCode {c : Char} (hc : c.toNat < 0xD800) (r : List Char) :
    stringBody none (escapeCode c.toNat ++ r) = emit [c] (stringBody none r) := by
  simp only [escapeCode, List.cons_append, List.nil_append]
  rw [stringBody, if_neg (by decide), if_pos rfl]
  simp only [hex4_escapeCode (show c.toNat < 0x10000 by omega), nextUnit_toNat hc]

/-- **An escaped character is read back.** -/
theorem stringBody_escape (c : Char) (r : List Char) :
    stringBody none (escape c ++ r) = emit [c] (stringBody none r) := by
  unfold escape
  split_ifs with h₁ h₂ h₃ h₄ h₅ h₆ h₇ h₈
  · subst h₁; rfl
  · subst h₂; rfl
  · subst h₃; rfl
  · subst h₄; rfl
  · subst h₅; rfl
  · subst h₆; rfl
  · subst h₇; rfl
  · refine stringBody_escapeCode ?_ r
    rcases h₈ with h | h
    · omega
    · simp only [List.mem_cons, List.not_mem_nil, or_false] at h
      rcases h with rfl | rfl | rfl | rfl | rfl <;> decide
  · rw [not_or] at h₈
    rw [List.cons_append, List.nil_append, stringBody.eq_def]
    simp only [if_neg h₁, if_neg h₂, if_neg h₈.1]
    rfl

/-- An escaped string is read up to its quote. -/
theorem stringBody_flatMap (s r : List Char) :
    stringBody none (s.flatMap escape ++ '\x22' :: r) = some (s, r) := by
  induction s with
  | nil =>
      rw [List.flatMap_nil, List.nil_append, stringBody.eq_def]
      exact if_pos rfl
  | cons c s ih =>
      rw [List.flatMap_cons, List.append_assoc, stringBody_escape, ih, emit_some]
      rfl

mutual

/-- How deep arrays and objects are nested. -/
def depth : Json → ℕ
  | .arr l => depthItems l + 1
  | .obj l => depthFields l + 1
  | _ => 0

def depthItems : List Json → ℕ
  | [] => 0
  | j :: l => max (depth j) (depthItems l)

def depthFields : List (String × Json) → ℕ
  | [] => 0
  | (_, j) :: l => max (depth j) (depthFields l)

end

/-- An item nests no deeper than its array. -/
theorem depth_le_of_mem {j : Json} {l : List Json} (h : j ∈ l) : depth j ≤ depthItems l := by
  induction l with
  | nil => cases h
  | cons a l ih =>
      rcases List.mem_cons.1 h with rfl | h
      · exact le_max_left ..
      · exact (ih h).trans (le_max_right ..)

/-- Nor a field than its object. -/
theorem depth_le_of_mem_fields {p : String × Json} {l : List (String × Json)} (h : p ∈ l) :
    depth p.2 ≤ depthFields l := by
  induction l with
  | nil => cases h
  | cons a l ih =>
      rcases List.mem_cons.1 h with rfl | h
      · exact le_max_left ..
      · exact (ih h).trans (le_max_right ..)

section Lists

variable {α : Type} {read : List Char → Option (α × List Char)} {close : Char}
  {text : α → List Char}

/-- The texts of the items after the first, each after a comma, and the bracket. -/
def tailText (close : Char) (text : α → List Char) : List α → List Char
  | [] => [close]
  | a :: l => ',' :: text a ++ tailText close text l

/-- The printed items as a tail with separators. -/
theorem printItems_eq (l : List Json) : printItems l = tailText ']' print l := by
  induction l with
  | nil => rfl
  | cons j l ih => rw [printItems, tailText, ih]

/-- The text of a field. -/
def printField (p : String × Json) : List Char := printString p.1 ++ ':' :: print p.2

/-- The printed fields as a tail with separators. -/
theorem printFields_eq (l : List (String × Json)) :
    printFields l = tailText '\x7d' printField l := by
  induction l with
  | nil => rfl
  | cons p l ih => simp [printFields, tailText, printField, ih]

/-- A tail has more characters than items, which bounds the fuel of the reader. -/
theorem length_lt_tailText (close : Char) (text : α → List Char) (l : List α) :
    l.length < (tailText close text l).length := by
  induction l with
  | nil => exact Nat.zero_lt_one
  | cons a l ih =>
      simp only [tailText, List.length_cons, List.cons_append, List.length_append]
      omega

/-- What may close a list. -/
def Closes (c : Char) : Prop :=
  c ≠ ',' ∧ isSpace c = false ∧ c.isDigit = false ∧ c ∉ ['.', 'e', 'E']

/-- An item is always followed by a separator or bracket. -/
theorem ends_tailText (hclose : Closes close) (text : α → List Char) (l : List α) (r : List Char) :
    Ends (tailText close text l ++ r) := by
  cases l with
  | nil =>
      rintro c ⟨⟩
      exact hclose.2.2
  | cons a l =>
      rintro c ⟨⟩
      decide

theorem skipSpace_cons {c : Char} (hc : isSpace c = false) (s : List Char) :
    skipSpace (c :: s) = c :: s :=
  List.dropWhile_cons_of_neg (by rw [hc]; exact Bool.false_ne_true)

/-- **Printed items are read back**, when each of them is. -/
theorem itemsFrom_tailText (hclose : Closes close) {l : List α} {a : α} {n : ℕ} (r : List Char)
    (hread : ∀ b ∈ a :: l, ∀ r, Ends r → read (text b ++ r) = some (b, r)) (hn : l.length ≤ n) :
    itemsFrom read close (n + 1) (text a ++ (tailText close text l ++ r)) = some (a :: l, r) := by
  have ha := hread a List.mem_cons_self _ (ends_tailText hclose text l r)
  induction l generalizing a n with
  | nil =>
      rw [itemsFrom, ha]
      simp only [tailText, List.cons_append, List.nil_append, skipSpace_cons hclose.2.1,
        if_neg hclose.1, if_true]
  | cons b l ih =>
      obtain ⟨n, rfl⟩ : ∃ m, n = m + 1 := ⟨n - 1, by simp at hn; omega⟩
      have hb := hread b (by simp) _ (ends_tailText hclose text l r)
      have hrest := ih (fun c hc => hread c (List.mem_cons_of_mem _ hc))
        (Nat.le_of_succ_le_succ hn) hb
      rw [itemsFrom, ha]
      simp only [tailText, List.cons_append, List.append_assoc,
        skipSpace_cons (show isSpace ',' = false by decide), hrest, if_true, Option.map_some]

/-- **A bracketed list is read as the items whose texts it holds.** -/
theorem itemsOf_tailText (hclose : Closes close) {l : List α} {a : α} (r : List Char)
    (hread : ∀ b ∈ a :: l, ∀ r, Ends r → read (text b ++ r) = some (b, r))
    (hhead : ∃ c s, text a = c :: s ∧ isSpace c = false ∧ c ≠ close) :
    itemsOf read close (text a ++ (tailText close text l ++ r)) = some (a :: l, r) := by
  obtain ⟨c, s, hs, hspace, hc⟩ := hhead
  have hlength := length_lt_tailText close text l
  have hitems := itemsFrom_tailText hclose r hread
    (n := (s ++ (tailText close text l ++ r)).length) (by
      simp only [List.length_append]
      omega)
  rw [hs, List.cons_append] at hitems ⊢
  simp only [itemsOf, skipSpace_cons hspace, if_neg hc, hitems]

/-- An empty list is read from its closing bracket. -/
theorem itemsOf_close (hclose : Closes close) (r : List Char) :
    itemsOf read close (close :: r) = some ([], r) := by
  simp [itemsOf, skipSpace_cons hclose.2.1]

end Lists

theorem stringBody_printString (s : String) (r : List Char) :
    printString s ++ r = '\x22' :: (s.toList.flatMap escape ++ '\x22' :: r) := by
  simp [printString]

/-- A printed field is read back, when its value is. -/
theorem field_printField {read : List Char → Option (Json × List Char)} {p : String × Json}
    {r : List Char} (hread : read (print p.2 ++ r) = some (p.2, r)) :
    field read (printField p ++ r) = some (p, r) := by
  rw [printField, List.append_assoc, stringBody_printString, field,
    skipSpace_cons (by decide)]
  simp only [if_true, stringBody_flatMap, List.cons_append,
    skipSpace_cons (show isSpace ':' = false by decide), hread, Option.map_some,
    String.ofList_toList]

/-- A number starts with a minus sign or a digit. -/
theorem IsNumber.head {t : List Char} (ht : IsNumber t) :
    ∃ c s, t = c :: s ∧ (c = '-' ∨ c.isDigit = true) := by
  cases t with
  | nil => cases ht
  | cons c s =>
      refine ⟨c, s, rfl, ?_⟩
      by_contra hc
      rw [not_or] at hc
      have hzero : c ≠ '0' := by
        rintro rfl
        exact hc.2 rfl
      simp [IsNumber, number, sign, integer, hc.1, hc.2, hzero] at ht

theorem ne_of_number_head {c a : Char} (hc : c = '-' ∨ c.isDigit = true)
    (ha : a ≠ '-' ∧ a.isDigit = false) : c ≠ a := by
  rintro rfl
  rcases hc with rfl | hc
  · exact ha.1 rfl
  · exact Bool.false_ne_true (ha.2.symm.trans hc)

/-- No value starts with a blank or a closing bracket. -/
theorem print_head (j : Json) : ∃ c s, print j = c :: s ∧ isSpace c = false ∧ c ≠ ']' := by
  cases j with
  | null => exact ⟨_, _, rfl, by decide, by decide⟩
  | bool b => cases b <;> exact ⟨_, _, rfl, by decide, by decide⟩
  | num t =>
      obtain ⟨c, s, hs, hc⟩ := t.2.head
      refine ⟨c, s, hs, ?_, ne_of_number_head hc (by decide)⟩
      simp [isSpace, ne_of_number_head hc (a := ' ') (by decide),
        ne_of_number_head hc (a := '\t') (by decide),
        ne_of_number_head hc (a := '\r') (by decide),
        ne_of_number_head hc (a := '\n') (by decide)]
  | str s => exact ⟨_, _, rfl, by decide, by decide⟩
  | arr l => cases l <;> exact ⟨_, _, rfl, by decide, by decide⟩
  | obj l => cases l <;> exact ⟨_, _, rfl, by decide, by decide⟩

/-- A number is read back. -/
theorem scalar_number (t : {t // IsNumber t}) {r : List Char} (hr : Ends r) :
    scalar (t.1 ++ r) = some (.num t, r) := by
  obtain ⟨t, ht⟩ := t
  obtain ⟨c, s, rfl, hc⟩ := ht.head
  have hnumber := number_append ht hr
  simp only [List.cons_append] at hnumber ⊢
  simp only [scalar, if_neg (ne_of_number_head hc (a := '\x22') (by decide)),
    if_neg (ne_of_number_head hc (a := 'n') (by decide)),
    if_neg (ne_of_number_head hc (a := 't') (by decide)),
    if_neg (ne_of_number_head hc (a := 'f') (by decide))]
  split
  · next h => simp [hnumber] at h
  · next h =>
      rw [hnumber] at h
      cases h
      rfl

/-- A value that starts with neither bracket is a scalar. -/
theorem value_of_scalar {c : Char} (hc : isSpace c = false) (h₁ : c ≠ '[') (h₂ : c ≠ '\x7b')
    (d : ℕ) (s : List Char) : value d (c :: s) = scalar (c :: s) := by
  cases d with
  | zero => rw [value, skipSpace_cons hc]
  | succ d => simp only [value, skipSpace_cons hc, if_neg h₁, if_neg h₂]

/-- A bracket opens an array, one level down. -/
theorem value_bracket (d : ℕ) (s : List Char) :
    value (d + 1) ('[' :: s) = (itemsOf (value d) ']' s).map fun p => (.arr p.1, p.2) := by
  simp only [value, skipSpace_cons (show isSpace '[' = false by decide), if_true]

/-- A brace opens an object, one level down. -/
theorem value_brace (d : ℕ) (s : List Char) :
    value (d + 1) ('\x7b' :: s) =
      (itemsOf (field (value d)) '\x7d' s).map fun p => (.obj p.1, p.2) := by
  simp only [value, skipSpace_cons (show isSpace '\x7b' = false by decide), if_true,
    if_neg (show '\x7b' ≠ '[' by decide)]

theorem closes_bracket : Closes ']' := by simp [Closes, isSpace]

theorem closes_brace : Closes '\x7d' := by simp [Closes, isSpace]

/-- **Reading a printed value gives the value back.** -/
theorem value_print (j : Json) {d : ℕ} {r : List Char} (hd : depth j ≤ d) (hr : Ends r) :
    value d (print j ++ r) = some (j, r) := by
  induction j generalizing d r with
  | null => exact value_of_scalar (by decide) (by decide) (by decide) d _
  | bool b => cases b <;> exact value_of_scalar (by decide) (by decide) (by decide) d _
  | num t =>
      obtain ⟨c, s, hs, hspace, -⟩ := print_head (.num t)
      obtain ⟨c', s', hs', hc⟩ := t.2.head
      cases hs.symm.trans hs'
      rw [hs, List.cons_append, value_of_scalar hspace (ne_of_number_head hc (by decide))
        (ne_of_number_head hc (by decide)), ← List.cons_append, ← hs]
      exact scalar_number t hr
  | str s =>
      rw [print, stringBody_printString, value_of_scalar (by decide) (by decide) (by decide),
        scalar, if_pos rfl, stringBody_flatMap, Option.map_some, String.ofList_toList]
  | arr l ih =>
      obtain ⟨d, rfl⟩ : ∃ e, d = e + 1 := ⟨d - 1, by simp [depth] at hd; omega⟩
      simp only [depth, Nat.add_le_add_iff_right] at hd
      have hread : ∀ j ∈ l, ∀ r, Ends r → value d (print j ++ r) = some (j, r) :=
        fun j hj r hr => ih j hj ((depth_le_of_mem hj).trans hd) hr
      cases l with
      | nil =>
          show value (d + 1) ('[' :: ']' :: r) = _
          rw [value_bracket, itemsOf_close closes_bracket, Option.map_some]
      | cons j l =>
          rw [print, printItems_eq, List.append_assoc, List.cons_append, value_bracket,
            itemsOf_tailText closes_bracket r hread (print_head j), Option.map_some]
  | obj l ih =>
      obtain ⟨d, rfl⟩ : ∃ e, d = e + 1 := ⟨d - 1, by simp [depth] at hd; omega⟩
      simp only [depth, Nat.add_le_add_iff_right] at hd
      have hread : ∀ p ∈ l, ∀ r, Ends r → field (value d) (printField p ++ r) = some (p, r) :=
        fun p hp r hr => field_printField (ih p hp ((depth_le_of_mem_fields hp).trans hd) hr)
      cases l with
      | nil =>
          show value (d + 1) ('\x7b' :: '\x7d' :: r) = _
          rw [value_brace, itemsOf_close closes_brace, Option.map_some]
      | cons p l =>
          have htext : print (.obj (p :: l)) ++ r =
              '\x7b' :: (printField p ++ (tailText '\x7d' printField l ++ r)) := by
            simp [print, printField, printFields_eq]
          rw [htext, value_brace, itemsOf_tailText closes_brace r hread
            ⟨'\x22', _, rfl, by decide, by decide⟩, Option.map_some]

/-- **The text determines the value.** -/
theorem print_injective : Function.Injective print := by
  intro j j' h
  have hj := value_print j (le_max_left (depth j) (depth j')) (r := []) (by simp [Ends])
  have hj' := value_print j' (le_max_right (depth j) (depth j')) (r := []) (by simp [Ends])
  rw [h, hj', Option.some.injEq, Prod.mk.injEq] at hj
  exact hj.1.symm

/-! ### Numbers and optional fields -/

/-- Digits without a leading zero are a number. -/
theorem isNumber_of_digits {c : Char} {s : List Char} (hc : c.isDigit = true)
    (hzero : c = '0' → s = []) (hs : ∀ a ∈ s, a.isDigit = true) : IsNumber (c :: s) := by
  have hminus : sign ['-'] (c :: s) = ([], c :: s) :=
    if_neg fun h => by
      rw [List.mem_singleton] at h
      subst h
      cases hc
  have hinteger : integer (c :: s) = some (c :: s, []) := by
    by_cases h0 : c = '0'
    · rw [h0, hzero h0]
      rfl
    · rw [integer, if_neg h0, if_pos hc, List.takeWhile_eq_self_iff.2 hs,
        List.dropWhile_eq_nil_iff.2 hs]
  simp [IsNumber, number, hminus, hinteger, part]

/-- The digits of a number start with `0` only for `0`. -/
theorem isNumber_toDigits (n : ℕ) : IsNumber (Nat.toDigits 10 n) := by
  have hdigits : ∀ n, ∀ a ∈ Nat.toDigits 10 n, a.isDigit = true :=
    fun n a ha => Nat.isDigit_of_mem_toDigits (by decide) le_rfl ha
  have hhead : ∀ n, ∃ c s, Nat.toDigits 10 n = c :: s ∧ (c = '0' → n = 0) := by
    intro n
    induction n using Nat.strongRecOn with
    | ind n ih =>
        by_cases hn : n < 10
        · refine ⟨_, _, Nat.toDigits_of_lt_base hn, fun h => ?_⟩
          interval_cases n <;> first | rfl | cases h
        · obtain ⟨c, s, hs, hc⟩ := ih (n / 10) (by omega)
          refine ⟨c, s ++ Nat.toDigits 10 (n % 10), ?_, fun h => by have := hc h; omega⟩
          rw [← List.cons_append, ← hs, Nat.toDigits_append_toDigits (by decide) (by omega)
            (Nat.mod_lt _ (by decide)), Nat.div_add_mod]
  obtain ⟨c, s, hs, hc⟩ := hhead n
  have hall := hdigits n
  rw [hs] at hall ⊢
  refine isNumber_of_digits (hall c List.mem_cons_self) (fun h => ?_)
    fun a ha => hall a (List.mem_cons_of_mem _ ha)
  rw [hc h] at hs
  exact (List.cons.inj hs).2.symm

/-- A natural number. -/
def nat (n : ℕ) : Json := .num ⟨Nat.toDigits 10 n, isNumber_toDigits n⟩

/-- A natural number is determined by its JSON form. -/
theorem nat_injective : Function.Injective nat := by
  intro m n h
  have htext : Nat.toDigits 10 m = Nat.toDigits 10 n := by
    simp only [nat, num.injEq, Subtype.mk.injEq] at h
    exact h
  rw [← Nat.ofDigitChars_ten_toDigits (n := m), htext, Nat.ofDigitChars_ten_toDigits]

theorem IsNumber.neg {c : Char} {s : List Char} (hc : c.isDigit = true)
    (h : IsNumber (c :: s)) : IsNumber ('-' :: c :: s) := by
  have hminus : sign ['-'] (c :: s) = ([], c :: s) :=
    if_neg fun hm => by
      rw [List.mem_singleton] at hm
      subst hm
      cases hc
  unfold IsNumber number at h ⊢
  rw [hminus] at h
  rw [show sign ['-'] ('-' :: c :: s) = (['-'], c :: s) from rfl]
  dsimp only at h ⊢
  cases hi : integer (c :: s) with
  | none => simp [hi] at h
  | some i =>
      cases hf : part ['.'] [] i.2 with
      | none => simp [hi, hf] at h
      | some f =>
          cases he : part ['e', 'E'] ['+', '-'] f.2 with
          | none => simp [hi, hf, he] at h
          | some e =>
              simp only [hi, hf, he, Option.some.injEq, Prod.mk.injEq, List.nil_append] at h
              simp only [hf, he, List.append_assoc, List.cons_append, List.nil_append, h.2, ← h.1]

/-- The digits of a number after a sign are a number. -/
theorem isNumber_neg_toDigits (n : ℕ) : IsNumber ('-' :: Nat.toDigits 10 n) := by
  obtain ⟨c, s, hs⟩ := List.exists_cons_of_ne_nil (Nat.toDigits_ne_nil (b := 10) (n := n))
  have hnumber := isNumber_toDigits n
  have hc : c.isDigit = true :=
    Nat.isDigit_of_mem_toDigits (b := 10) (n := n) (by decide) le_rfl (by rw [hs]; simp)
  rw [hs] at hnumber ⊢
  exact hnumber.neg hc

/-- An integer. -/
def int (i : ℤ) : Json :=
  match i with
  | .ofNat n => nat n
  | .negSucc n => .num ⟨'-' :: Nat.toDigits 10 (n + 1), isNumber_neg_toDigits (n + 1)⟩

/-- An integer is determined by its JSON form. -/
theorem int_injective : Function.Injective int := by
  have hsign : ∀ m n, nat m ≠ int (.negSucc n) := by
    intro m n h
    simp only [nat, int, num.injEq, Subtype.mk.injEq] at h
    have hminus : '-' ∈ Nat.toDigits 10 m := by rw [h]; exact List.mem_cons_self
    exact absurd (Nat.isDigit_of_mem_toDigits (by decide) le_rfl hminus) (by decide)
  rintro (m | m) (n | n) h
  · exact congrArg Int.ofNat (nat_injective h)
  · exact absurd h (hsign m n)
  · exact absurd h.symm (hsign n m)
  · simp only [int, num.injEq, Subtype.mk.injEq, List.cons.injEq, true_and] at h
    have hnat : nat (m + 1) = nat (n + 1) := by
      simp only [nat, num.injEq, Subtype.mk.injEq]
      exact h
    exact congrArg Int.negSucc (Nat.succ.inj (nat_injective hnat))

/-! ### Fields by name -/

/-- The first field of a name counts. -/
theorem lookup_cons_eq {α : Type} (k : String) (p : String × α) (l : List (String × α)) :
    (p :: l).lookup k = if k = p.1 then some p.2 else l.lookup k := by
  by_cases hk : k = p.1
  · rw [if_pos hk, List.lookup_cons, beq_iff_eq.2 hk]
  · rw [if_neg hk, List.lookup_cons, beq_eq_false_iff_ne.2 hk]

end Json
end CxtHub
