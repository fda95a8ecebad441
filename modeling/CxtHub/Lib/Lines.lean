/-
# Lines and words

What the string helpers of `CxtHub.Lib.Text` do with texts that are put together from
lines or from words: a trimmed text is left alone, the lines that were joined are the
lines that are split, and the last occurrence of a separator is found behind any text.

A word is a non-empty run without space; `fields` gives the words of a text.
-/

import CxtHub.Lib.Text

namespace CxtHub

variable {l : List Char} {ws : List (List Char)}

/-! ### Trimming -/

/-- Neither end is space. -/
def Trimmed (l : List Char) : Prop :=
  (∀ c ∈ l.head?, isSpace c = false) ∧ ∀ c ∈ l.getLast?, isSpace c = false

theorem trimmed_of_all
    (h : (l.head?.all (!isSpace ·) && l.getLast?.all (!isSpace ·)) = true) : Trimmed l := by
  rw [Bool.and_eq_true, Option.all_eq_true, Option.all_eq_true] at h
  exact ⟨fun c hc => by simpa using h.1 c hc, fun c hc => by simpa using h.2 c hc⟩

theorem dropWhile_eq_self_of_head? {p : Char → Bool}
    (h : ∀ c ∈ l.head?, p c = false) : l.dropWhile p = l := by
  cases l with
  | nil => rfl
  | cons c l => exact List.dropWhile_cons_of_neg (by simp [h c rfl])

/-- A trimmed text is its own trimming. -/
theorem trimSpace_eq_self {s : String} (h : Trimmed s.toList) : trimSpace s = s := by
  have hlast : ∀ c ∈ s.toList.reverse.head?, isSpace c = false := by
    rw [List.head?_reverse]
    exact h.2
  rw [trimSpace, dropWhile_eq_self_of_head? h.1, dropWhile_eq_self_of_head? hlast,
    List.reverse_reverse, String.ofList_toList]

/-- Trimmed at both ends is trimmed. -/
theorem trimmed_append_append {m : List Char} (hl : Trimmed l) (hne : l ≠ []) (x : List Char)
    (hm : Trimmed m) (hne' : m ≠ []) : Trimmed (l ++ x ++ m) := by
  refine ⟨?_, ?_⟩
  · rw [List.append_assoc, List.head?_append_of_ne_nil _ hne]
    exact hl.1
  · rw [List.getLast?_append_of_ne_nil _ hne']
    exact hm.2

/-- Trimming gives a trimmed text. -/
theorem trimmed_trimSpace (s : String) : Trimmed (trimSpace s).toList := by
  have hmid : (trimSpace s).toList = (s.toList.dropWhile isSpace).rdropWhile isSpace := by
    rw [trimSpace, String.toList_ofList]
    rfl
  rw [hmid]
  constructor
  · -- What is left begins where the spaces at the front ended.
    intro c hc
    obtain ⟨t, ht⟩ := List.rdropWhile_prefix isSpace (s.toList.dropWhile isSpace)
    have hhead : c ∈ (s.toList.dropWhile isSpace).head? := by
      rw [← ht]
      exact List.mem_head?_append_of_mem_head? hc
    have hne : s.toList.dropWhile isSpace ≠ [] := by
      rintro hnil
      simp [hnil] at hhead
    rw [List.head?_eq_some_head hne, Option.mem_some_iff] at hhead
    rw [← hhead]
    simpa using List.head_dropWhile_not isSpace hne
  · intro c hc
    have hne : (s.toList.dropWhile isSpace).rdropWhile isSpace ≠ [] := by
      rintro hnil
      simp [hnil] at hc
    rw [List.getLast?_eq_some_getLast hne, Option.mem_some_iff] at hc
    rw [← hc]
    simpa using List.rdropWhile_last_not isSpace _ hne

/-- A text with a line end behind it. -/
theorem trimSpace_newline (h : Trimmed l) :
    trimSpace (String.ofList (l ++ ['\n'])) = String.ofList l := by
  cases l with
  | nil => decide
  | cons c l =>
      have hfront : ∀ d ∈ (c :: l ++ ['\n']).head?, isSpace d = false := h.1
      have hback : ∀ d ∈ (c :: l).reverse.head?, isSpace d = false := by
        rw [List.head?_reverse]
        exact h.2
      rw [trimSpace, String.toList_ofList, dropWhile_eq_self_of_head? hfront, List.reverse_append,
        List.reverse_singleton, List.singleton_append, List.dropWhile_cons_of_pos (by decide),
        dropWhile_eq_self_of_head? hback, List.reverse_reverse]

theorem hasPrefix_append (p s : String) : hasPrefix (p ++ s) p = true := by
  rw [hasPrefix, List.isPrefixOf_iff_prefix, bytesOf, bytesOf, String.toByteArray_append]
  exact ⟨bytesOf s, by simp [bytesOf]⟩

/-! ### Lines -/

theorem splitOn_ne_nil (sep : Char) (l : List Char) : l.splitOn sep ≠ [] := by
  rw [List.splitOn_eq_splitOnP]
  exact List.splitOnP_ne_nil _ l

/-- With fewer separators than the limit, all of them split. -/
theorem splitN_eq_splitOn {sep : Char} {n : ℕ} (h : l.count sep < n) :
    splitN sep n l = l.splitOn sep := by
  induction l generalizing n with
  | nil => rfl
  | cons c l ih =>
      rw [List.splitOn_eq_splitOnP, List.splitOnP_cons_eq_if_modifyHead, ← List.splitOn_eq_splitOnP,
        splitN]
      by_cases hc : c = sep
      · subst hc
        rw [List.count_cons_self] at h
        rw [if_pos ⟨rfl, by omega⟩, if_pos (beq_self_eq_true _), ih (by omega)]
      · rw [List.count_cons_of_ne hc] at h
        rw [if_neg (fun hand => hc hand.1), if_neg (by simpa using hc), ih h]
        obtain ⟨p, ps, hp⟩ := List.exists_cons_of_ne_nil (splitOn_ne_nil sep l)
        rw [hp]
        rfl

/-- Lines are what stands between newlines. -/
theorem splitLines_eq (s : String) :
    splitLines s = (s.toList.splitOn '\n').map String.ofList := by
  rw [splitLines, splitN_eq_splitOn]
  exact Nat.lt_succ_of_le List.count_le_length

/-- The lines of two texts with a line end between them. -/
theorem splitOn_append_cons {sep : Char} (l m : List Char) :
    (l ++ sep :: m).splitOn sep = l.splitOn sep ++ m.splitOn sep := by
  simp only [List.splitOn_eq_splitOnP]
  exact List.splitOnP_append_cons l m (beq_self_eq_true _)

/-- Joined lines with a line end behind each of them. -/
theorem intercalate_append_newline {ls : List (List Char)} (hne : ls ≠ []) :
    ['\n'].intercalate ls ++ ['\n'] = ls.flatMap (· ++ ['\n']) := by
  induction ls with
  | nil => exact absurd rfl hne
  | cons l ls ih =>
      cases ls with
      | nil => simp
      | cons m ls =>
          rw [List.intercalate_cons_cons, List.append_assoc, ih (List.cons_ne_nil _ _)]
          simp

/-- Joined lines begin with the first line and end with the last. -/
theorem exists_intercalate_eq (first last : List Char) (mid : List (List Char)) :
    ∃ x, ['\n'].intercalate (first :: (mid ++ [last])) = first ++ x ++ last := by
  induction mid generalizing first with
  | nil => exact ⟨['\n'], by simp⟩
  | cons m mid ih =>
      obtain ⟨x, hx⟩ := ih m
      refine ⟨'\n' :: (m ++ x), ?_⟩
      rw [List.cons_append, List.intercalate_cons_cons, hx]
      simp

/-- Lines whose first and last are trimmed. -/
theorem trimmed_lines {first last : List Char} (hfirst : Trimmed first) (hne : first ≠ [])
    (mid : List (List Char)) (hlast : Trimmed last) (hne' : last ≠ []) :
    Trimmed (['\n'].intercalate (first :: (mid ++ [last]))) := by
  obtain ⟨x, hx⟩ := exists_intercalate_eq first last mid
  rw [hx]
  exact trimmed_append_append hfirst hne x hlast hne'

/-! ### The last occurrence -/

/-- What does not occur does not split. -/
theorem splitLast_of_not_infix {p : List Char} (h : ¬ p <:+: l) : splitLast p l = none := by
  induction l with
  | nil =>
      rw [splitLast, if_neg]
      rintro rfl
      exact h List.infix_rfl
  | cons c l ih =>
      rw [List.infix_cons_iff, not_or] at h
      rw [splitLast, ih h.2, if_neg]
      rw [List.isPrefixOf_iff_prefix]
      exact h.1

/-- The last occurrence, behind any text and before a text in which it does not start again. -/
theorem splitLast_append_text {c : Char} {p after : List Char} (h : ¬ (c :: p) <:+: p ++ after)
    (before : List Char) :
    splitLast (c :: p) (before ++ (c :: p ++ after)) = some (before, after) := by
  induction before with
  | nil =>
      rw [List.nil_append, List.cons_append, splitLast, splitLast_of_not_infix h]
      simp
  | cons d before ih =>
      rw [List.cons_append, splitLast, ih]

/-! ### Words -/

/-- A non-empty run without space. -/
def IsWord (w : List Char) : Prop := w ≠ [] ∧ ∀ c ∈ w, isSpace c = false

/-- `strings.Fields(s)`. -/
def fields (l : List Char) : List (List Char) := (l.splitOnP isSpace).filter (· ≠ [])

/-- `strings.Join(words, " ")`. -/
def joinWords (ws : List (List Char)) : List Char := [' '].intercalate ws

/-- A piece has no separator in it. -/
theorem forall_mem_splitOnP {p : Char → Bool} {w : List Char} (hw : w ∈ l.splitOnP p) :
    ∀ c ∈ w, p c = false := by
  induction l generalizing w with
  | nil =>
      obtain rfl : w = [] := by simpa using hw
      simp
  | cons d l ih =>
      rw [List.splitOnP_cons_eq_if_modifyHead] at hw
      split_ifs at hw with hd
      · rcases List.mem_cons.1 hw with rfl | hw
        · simp
        · exact ih hw
      · obtain ⟨r, rs, hr⟩ := List.exists_cons_of_ne_nil (List.splitOnP_ne_nil p l)
        rw [hr, List.modifyHead_cons] at hw
        rw [hr] at ih
        rcases List.mem_cons.1 hw with rfl | hw
        · intro c hc
          rcases List.mem_cons.1 hc with rfl | hc
          · simpa using hd
          · exact ih List.mem_cons_self c hc
        · exact ih (List.mem_cons_of_mem _ hw)

/-- The fields of a text are words. -/
theorem isWord_of_mem_fields {w : List Char} (h : w ∈ fields l) : IsWord w := by
  obtain ⟨hw, hne⟩ := List.mem_filter.1 h
  exact ⟨by simpa using hne, forall_mem_splitOnP hw⟩

theorem joinWords_cons_cons (w v : List Char) (ws : List (List Char)) :
    joinWords (w :: v :: ws) = w ++ ' ' :: joinWords (v :: ws) := by
  rw [joinWords, List.intercalate_cons_cons, List.append_assoc]
  rfl

/-- The words that were joined. -/
theorem fields_joinWords (h : ∀ w ∈ ws, IsWord w) :
    fields (joinWords ws) = ws := by
  induction ws with
  | nil => rfl
  | cons w ws ih =>
      obtain ⟨hne, hspace⟩ := h w List.mem_cons_self
      have hone : (w.splitOnP isSpace).filter (· ≠ []) = [w] := by
        rw [List.splitOnP_eq_singleton hspace]
        simp [hne]
      cases ws with
      | nil => simpa [fields, joinWords] using hone
      | cons v ws =>
          rw [joinWords_cons_cons, fields, List.splitOnP_append_cons _ _ (by decide),
            List.filter_append, hone]
          exact congrArg (w :: ·) (ih fun u hu => h u (List.mem_cons_of_mem _ hu))

/-- The characters of joined words. -/
theorem mem_joinWords {c : Char} (h : c ∈ joinWords ws) :
    c = ' ' ∨ ∃ w ∈ ws, c ∈ w := by
  induction ws with
  | nil => simp [joinWords] at h
  | cons w ws ih =>
      cases ws with
      | nil => exact .inr ⟨w, by simp, by simpa [joinWords] using h⟩
      | cons v ws =>
          rw [joinWords_cons_cons, List.mem_append, List.mem_cons] at h
          rcases h with h | rfl | h
          · exact .inr ⟨w, by simp, h⟩
          · exact .inl rfl
          · exact (ih h).imp_right fun ⟨u, hu, hc⟩ => ⟨u, List.mem_cons_of_mem _ hu, hc⟩

theorem joinWords_eq_nil (h : ∀ w ∈ ws, IsWord w) :
    joinWords ws = [] ↔ ws = [] := by
  constructor
  · intro hnil
    rw [← fields_joinWords h, hnil]
    rfl
  · rintro rfl
    rfl

theorem IsWord.trimmed {w : List Char} (h : IsWord w) : Trimmed w :=
  ⟨fun c hc => h.2 c (List.mem_of_mem_head? hc), fun c hc => h.2 c (List.mem_of_mem_getLast? hc)⟩

/-- Joined words are trimmed. -/
theorem trimmed_joinWords (h : ∀ w ∈ ws, IsWord w) :
    Trimmed (joinWords ws) := by
  induction ws with
  | nil => exact ⟨by simp [joinWords], by simp [joinWords]⟩
  | cons w ws ih =>
      have hw := h w List.mem_cons_self
      have hws := fun u hu => h u (List.mem_cons_of_mem _ hu)
      cases ws with
      | nil => simpa [joinWords] using hw.trimmed
      | cons v ws =>
          have hne : joinWords (v :: ws) ≠ [] := fun hnil =>
            List.cons_ne_nil _ _ ((joinWords_eq_nil hws).1 hnil)
          have := trimmed_append_append hw.trimmed hw.1 [' '] (ih hws) hne
          rw [joinWords_cons_cons]
          simpa using this

/-- A cut text of words with a letter behind it is a text of words. -/
theorem take_joinWords_append (h : ∀ w ∈ ws, IsWord w) {e : Char}
    (he : isSpace e = false) (k : ℕ) :
    ∃ v vs, (∀ w ∈ v :: vs, IsWord w) ∧ (joinWords ws).take k ++ [e] = joinWords (v :: vs) := by
  induction ws generalizing k with
  | nil => exact ⟨[e], [], by simp [IsWord, he], by simp [joinWords]⟩
  | cons w ws ih =>
      obtain ⟨hne, hspace⟩ := h w List.mem_cons_self
      have hcut : ∀ j, IsWord (w.take j ++ [e]) := by
        refine fun j => ⟨by simp, fun c hc => ?_⟩
        rcases List.mem_append.1 hc with hc | hc
        · exact hspace c (List.mem_of_mem_take hc)
        · rwa [List.mem_singleton.1 hc]
      cases ws with
      | nil => exact ⟨w.take k ++ [e], [], by simpa using hcut k, by simp [joinWords]⟩
      | cons u ws =>
          rw [joinWords_cons_cons]
          rcases Nat.lt_or_ge w.length k with hk | hk
          · obtain ⟨v, vs, hwords, heq⟩ :=
              ih (fun x hx => h x (List.mem_cons_of_mem _ hx)) (k - w.length - 1)
            refine ⟨w, v :: vs, List.forall_mem_cons.2 ⟨⟨hne, hspace⟩, hwords⟩, ?_⟩
            obtain ⟨j, hj⟩ : ∃ j, k - w.length = j + 1 := ⟨k - w.length - 1, by omega⟩
            rw [hj, Nat.add_sub_cancel] at heq
            rw [List.take_append, List.take_of_length_le hk.le, hj, List.take_succ_cons,
              joinWords_cons_cons, ← heq]
            simp
          · refine ⟨w.take k ++ [e], [], by simpa using hcut k, ?_⟩
            simp [List.take_append_of_le_length hk, joinWords]

end CxtHub
