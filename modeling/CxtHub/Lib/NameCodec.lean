/-
# Names built from parts

Facts about the string operations of `Lib/Text` that a name codec rests on: what stands
after a fixed beginning, cutting a text at a separator and joining it again, and decimals
padded to a fixed width.  UTF-8 encodings are prefix-free, so a text that starts with
another one byte by byte does so character by character (`hasPrefix_iff`).
-/

import CxtHub.Lib.Text

namespace CxtHub

variable {n : ℕ}

theorem bytesOf_eq_flatMap (s : String) : bytesOf s = s.toList.flatMap String.utf8EncodeChar := by
  conv_lhs => rw [← String.ofList_toList (s := s)]
  rw [bytesOf, String.toByteArray_ofList, List.utf8Encode, List.data_toByteArray]

theorem bytesOf_append (s t : String) : bytesOf (s ++ t) = bytesOf s ++ bytesOf t := by
  simp only [bytesOf_eq_flatMap, String.toList_append, List.flatMap_append]

/-- The encoding of a character is no proper beginning of another one. -/
theorem utf8EncodeChar_append_inj {c d : Char} {x y : List UInt8}
    (h : String.utf8EncodeChar c ++ x = String.utf8EncodeChar d ++ y) : c = d := by
  have hbytes : (String.utf8EncodeChar c).toByteArray ++ x.toByteArray =
      (String.utf8EncodeChar d).toByteArray ++ y.toByteArray := by
    rw [← List.toByteArray_append, ← List.toByteArray_append, h]
  have hdecode := congrArg (fun b => ByteArray.utf8DecodeChar? b 0) hbytes
  simpa only [ByteArray.utf8DecodeChar?_utf8EncodeChar_append, Option.some.injEq] using hdecode

/-- An initial part of the bytes is one of the characters. -/
theorem initial_of_flatMap_utf8EncodeChar {l m : List Char}
    (h : l.flatMap String.utf8EncodeChar <+: m.flatMap String.utf8EncodeChar) : l <+: m := by
  induction l generalizing m with
  | nil => exact List.nil_prefix
  | cons c l ih =>
      obtain ⟨rest, hrest⟩ := h
      cases m with
      | nil => simp [String.utf8EncodeChar_ne_nil] at hrest
      | cons d m =>
          rw [List.flatMap_cons, List.flatMap_cons, List.append_assoc] at hrest
          obtain rfl := utf8EncodeChar_append_inj hrest
          exact List.prefix_cons_inj c |>.2 (ih ⟨rest, List.append_cancel_left hrest⟩)

/-- A text starts with another one, on bytes, when it does on characters. -/
theorem hasPrefix_iff {s p : String} : hasPrefix s p = true ↔ ∃ t, s = p ++ t := by
  rw [hasPrefix, List.isPrefixOf_iff_prefix]
  constructor
  · intro h
    rw [bytesOf_eq_flatMap, bytesOf_eq_flatMap] at h
    obtain ⟨l, hl⟩ := initial_of_flatMap_utf8EncodeChar h
    exact ⟨String.ofList l, by
      rw [← String.toList_inj, String.toList_append, String.toList_ofList, hl]⟩
  · rintro ⟨t, rfl⟩
    rw [bytesOf_append]
    exact List.prefix_append _ _

@[simp] theorem trimPrefix_append (p t : String) : trimPrefix (p ++ t) p = t := by
  rw [trimPrefix, if_pos (hasPrefix_iff.2 ⟨t, rfl⟩), String.toList_append, List.drop_left,
    String.ofList_toList]

/-- What is trimmed can be put back. -/
theorem append_trimPrefix {s p : String} (h : hasPrefix s p = true) : p ++ trimPrefix s p = s := by
  obtain ⟨t, rfl⟩ := hasPrefix_iff.1 h
  rw [trimPrefix_append]

/-! ### Splitting -/

@[simp] theorem splitN_one (sep : Char) (s : List Char) : splitN sep 1 s = [s] := by
  induction s with
  | nil => rfl
  | cons c s ih => simp [splitN, ih]

/-- The part before the first separator is cut off. -/
theorem splitN_append (sep : Char) (hn : 1 < n) {part : List Char} (h : sep ∉ part)
    (rest : List Char) :
    splitN sep n (part ++ sep :: rest) = part :: splitN sep (n - 1) rest := by
  induction part with
  | nil => simp [splitN, hn]
  | cons c part ih =>
      rw [List.mem_cons, not_or] at h
      simp [splitN, Ne.symm h.1, ih h.2]

theorem splitN_ne_nil (sep : Char) (n : ℕ) (s : List Char) : splitN sep n s ≠ [] := by
  cases s with
  | nil => simp [splitN]
  | cons c s =>
      simp only [splitN]
      split_ifs
      · simp
      · split <;> simp

/-- Joining the parts gives the text back. -/
theorem intercalate_splitN (sep : Char) (n : ℕ) (s : List Char) :
    [sep].intercalate (splitN sep n s) = s := by
  induction s generalizing n with
  | nil => simp [splitN]
  | cons c s ih =>
      simp only [splitN]
      split_ifs with hsep
      · obtain ⟨p, ps, hparts⟩ := List.exists_cons_of_ne_nil (splitN_ne_nil sep (n - 1) s)
        have hjoin := ih (n - 1)
        rw [hparts] at hjoin ⊢
        rw [List.intercalate_cons_cons, hjoin, hsep.1]
        rfl
      · obtain ⟨p, ps, hparts⟩ := List.exists_cons_of_ne_nil (splitN_ne_nil sep n s)
        have hjoin := ih n
        rw [hparts] at hjoin ⊢
        cases ps <;> simp_all [List.intercalate_cons_cons]

/-! ### Decimals of a fixed width -/

/-- The value of digits. -/
theorem digitsValue_eq {s : List Char} (h : ∀ c ∈ s, c.isDigit = true) (v : ℕ) :
    digitsValue s v = some (Nat.ofDigitChars 10 s v) := by
  induction s generalizing v with
  | nil => rfl
  | cons c s ih =>
      rw [List.forall_mem_cons] at h
      rw [digitsValue, if_pos h.1, ih h.2, Nat.ofDigitChars_cons]

/-- What is parsed fits in 64 bits. -/
theorem parseUint_lt {s : List Char} (h : parseUint s = some n) : n < 2 ^ 64 := by
  unfold parseUint at h
  split_ifs at h
  obtain ⟨v, -, hv⟩ := Option.bind_eq_some_iff.1 h
  split_ifs at hv with hlt
  cases hv
  exact hlt

theorem isDigit_of_mem_padded20 {c : Char} (h : c ∈ padded20 n) : c.isDigit = true := by
  rcases List.mem_append.1 h with h | h
  · rw [List.eq_of_mem_replicate h]
    rfl
  · exact Nat.isDigit_of_mem_toDigits (by decide) le_rfl h

/-- Padded numbers have twenty digits. -/
theorem length_padded20 (hn : n < 2 ^ 64) : (padded20 n).length = 20 := by
  have hlen : (Nat.toDigits 10 n).length ≤ 20 :=
    (Nat.length_toDigits_le_iff (by decide) (by decide)).2 (by omega)
  simp only [padded20, List.length_append, List.length_replicate]
  omega

/-- And the value they were padded from. -/
theorem ofDigitChars_padded20 (n : ℕ) : Nat.ofDigitChars 10 (padded20 n) 0 = n := by
  rw [padded20, Nat.ofDigitChars_append, Nat.ofDigitChars_replicate_zero, Nat.mul_zero,
    Nat.ofDigitChars_ten_toDigits]

/-- So they tell numbers apart. -/
theorem padded20_injective {m : ℕ} (h : padded20 m = padded20 n) : m = n := by
  rw [← ofDigitChars_padded20 m, h, ofDigitChars_padded20]

/-- The padded decimal of a number reads back as that number. -/
theorem parseUint_padded20 (hn : n < 2 ^ 64) : parseUint (padded20 n) = some n := by
  have hne : (padded20 n).isEmpty = false := by
    rw [List.isEmpty_eq_false_iff, ← List.length_pos_iff, length_padded20 hn]
    decide
  rw [parseUint, hne, digitsValue_eq (fun c => isDigit_of_mem_padded20), ofDigitChars_padded20]
  rw [if_neg Bool.false_ne_true, Option.bind_some, if_pos hn]

end CxtHub
