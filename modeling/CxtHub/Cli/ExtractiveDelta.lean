/-
# Extractive conversation deltas

The text form of a deterministic conversation digest, `cli/internal/domain/entities.go`:
items are normalized, rendered under two headers, and appended to a provider's baseline
behind a marker line.  The renderer and the two readers of the client are letter for letter
those of the server (`CxtHub.Backend.Memory`).

A rendered digest is a list of lines (`fallbackLines`), none of which is the marker; a text
with a marker line behind its first line is not a digest.  So a digest is read back, and
found behind any baseline (`extractive_delta_round_trip`).
-/

import CxtHub.Backend.Memory
import CxtHub.Lib.Lines

namespace CxtHub
namespace Cli

open Backend (extractiveFallbackHeader extractiveFallbackUsersHeader
  extractiveFallbackAssistantsHeader extractiveFallbackDeltaMarker extractiveFallbackSection
  FallbackSection parseFallbackLines)

/-- `AppendExtractiveConversationDelta`. -/
def appendExtractiveConversationDelta (baseline delta : String) : String :=
  if delta = "" then baseline
  else if baseline = "" then delta
  else baseline ++ "\n\n" ++ extractiveFallbackDeltaMarker ++ "\n" ++ delta

def extractiveConversationItemMaxRunes : ℕ := 2000

/-- `NormalizeExtractiveConversationItem`. -/
def normalizeExtractiveConversationItem (text : String) : String :=
  let runes := joinWords (fields text.toList)
  if runes.length ≤ extractiveConversationItemMaxRunes then String.ofList runes
  else String.ofList (runes.take extractiveConversationItemMaxRunes) ++ "…"

/-- `RenderExtractiveFallbackSummary`. -/
def renderExtractiveFallbackSummary : List String → List String → String :=
  Backend.renderExtractiveFallbackSummary

/-- `parseExtractiveFallbackSummary`. -/
def parseExtractiveFallbackSummary : String → Option (List String × List String) :=
  Backend.parseExtractiveFallbackSummary

/-- `splitExtractiveFallbackSummary`. -/
def splitExtractiveFallbackSummary : String → String × Option (List String × List String) :=
  Backend.splitExtractiveFallbackSummary

/-! ### Items -/

/-- A normalized item is a text of words. -/
theorem normalize_eq_joinWords (text : String) :
    ∃ ws, (∀ w ∈ ws, IsWord w) ∧
      (normalizeExtractiveConversationItem text).toList = joinWords ws := by
  have hwords : ∀ w ∈ fields text.toList, IsWord w := fun w hw => isWord_of_mem_fields hw
  simp only [normalizeExtractiveConversationItem]
  split_ifs with hlen
  · exact ⟨_, hwords, String.toList_ofList⟩
  · obtain ⟨v, vs, hvs, heq⟩ := take_joinWords_append hwords (e := '…') (by decide)
      extractiveConversationItemMaxRunes
    refine ⟨v :: vs, hvs, ?_⟩
    rw [← heq, String.toList_append, String.toList_ofList]
    rfl

/-- Normalizing twice is normalizing once. -/
theorem normalize_idempotent (text : String) :
    normalizeExtractiveConversationItem (normalizeExtractiveConversationItem text) =
      normalizeExtractiveConversationItem text := by
  obtain ⟨ws, hws, heq⟩ := normalize_eq_joinWords text
  have hfix : joinWords (fields (normalizeExtractiveConversationItem text).toList) =
      (normalizeExtractiveConversationItem text).toList := by
    rw [heq, fields_joinWords hws]
  rw [normalizeExtractiveConversationItem, hfix]
  split_ifs with hlen
  · exact String.ofList_toList
  · -- Only a cut item is longer than the bound, and it is cut where it was.
    simp only [normalizeExtractiveConversationItem] at hlen ⊢
    split_ifs at hlen ⊢ with hshort
    · exact absurd (by simpa using hshort) hlen
    · rw [String.toList_append, String.toList_ofList, List.take_append_of_le_length, List.take_take,
        min_self]
      rw [List.length_take]
      exact le_min le_rfl (not_le.1 hshort).le

/-- What a line of a digest can hold: a trimmed text on one line. -/
structure IsItem (item : String) : Prop where
  ne_nil : item.toList ≠ []
  trimmed : Trimmed item.toList
  oneLine : '\n' ∉ item.toList

/-- A normalized text that is not empty is an item. -/
theorem isItem_normalize {text : String} (h : normalizeExtractiveConversationItem text ≠ "") :
    IsItem (normalizeExtractiveConversationItem text) := by
  obtain ⟨ws, hws, heq⟩ := normalize_eq_joinWords text
  refine ⟨?_, ?_, ?_⟩
  · exact fun hnil => h (String.toList_eq_nil_iff.1 hnil)
  · rw [heq]
    exact trimmed_joinWords hws
  · rw [heq]
    intro hmem
    rcases mem_joinWords hmem with hspace | ⟨w, hw, hin⟩
    · exact absurd hspace (by decide)
    · exact absurd ((hws w hw).2 _ hin) (by decide)

/-! ### Lines -/

/-- The lines of a section. -/
def sectionLines (header : String) (items : List String) : List String :=
  if items = [] then [] else "" :: "" :: header :: items.map ("- " ++ ·)

theorem sectionLines_nil (header : String) : sectionLines header [] = [] := rfl

/-- The lines of a digest. -/
def fallbackLines (users assistants : List String) : List String :=
  extractiveFallbackHeader :: (sectionLines extractiveFallbackUsersHeader users ++
    sectionLines extractiveFallbackAssistantsHeader assistants)

/-- A text of lines, each with a line end behind it. -/
def terminated (ls : List String) : List Char := ls.flatMap fun l => l.toList ++ ['\n']

/-- The text of a section, line by line. -/
theorem toList_section (header : String) {items : List String} (h : ∀ i ∈ items, IsItem i) :
    (extractiveFallbackSection header items).toList = terminated (sectionLines header items) := by
  unfold extractiveFallbackSection sectionLines
  split_ifs with hnil
  · rfl
  · have hitems : (String.join (items.map fun item =>
        if trimSpace item ≠ "" then "- " ++ trimSpace item ++ "\n" else "")).toList =
        terminated (items.map ("- " ++ ·)) := by
      rw [String.toList_join, List.flatMap_map, terminated, List.flatMap_map]
      refine List.flatMap_congr fun i hi => ?_
      have htrim := trimSpace_eq_self (h i hi).trimmed
      have hne : i ≠ "" := fun hempty => (h i hi).ne_nil (String.toList_eq_nil_iff.2 hempty)
      simp [htrim, hne]
    simp only [String.toList_append, hitems, terminated, List.flatMap_cons]
    simp

/-- The line of an item has no blanks at its ends. -/
theorem trimmed_itemLine {item : String} (h : IsItem item) : Trimmed ("- " ++ item).toList := by
  rw [String.toList_append]
  exact trimmed_append_append (l := ['-']) (trimmed_of_all (by decide)) (by decide) [' ']
    h.trimmed h.ne_nil

section Digest

variable {users assistants : List String} (husers : ∀ i ∈ users, IsItem i)
  (hassistants : ∀ i ∈ assistants, IsItem i)

include husers hassistants

/-- No line of a digest holds a line end or is the marker. -/
theorem mem_fallbackLines {line : String} (h : line ∈ fallbackLines users assistants) :
    '\n' ∉ line.toList ∧ line ≠ extractiveFallbackDeltaMarker := by
  have hsection : ∀ header items, ('\n' ∉ header.toList ∧ header ≠ extractiveFallbackDeltaMarker) →
      (∀ i ∈ items, IsItem i) → line ∈ sectionLines header items →
      '\n' ∉ line.toList ∧ line ≠ extractiveFallbackDeltaMarker := by
    intro header items hheader hitems hmem
    unfold sectionLines at hmem
    split_ifs at hmem
    · cases hmem
    simp only [List.mem_cons, List.mem_map] at hmem
    rcases hmem with rfl | rfl | rfl | ⟨i, hi, rfl⟩
    · exact ⟨by simp, by decide⟩
    · exact ⟨by simp, by decide⟩
    · exact hheader
    · refine ⟨by simpa using (hitems i hi).oneLine, fun heq => ?_⟩
      have hhead := congrArg (fun s => s.toList.head?) heq
      exact absurd hhead (by simp; decide)
  rcases List.mem_cons.1 h with rfl | h
  · exact ⟨by decide, by decide⟩
  · rcases List.mem_append.1 h with h | h
    · exact hsection _ _ ⟨by decide, by decide⟩ husers h
    · exact hsection _ _ ⟨by decide, by decide⟩ hassistants h

omit husers hassistants in
/-- A digest ends with an item. -/
theorem fallbackLines_eq (hne : ¬ (users = [] ∧ assistants = [])) :
    ∃ mid, ∃ item ∈ users ++ assistants,
      fallbackLines users assistants = extractiveFallbackHeader :: (mid ++ ["- " ++ item]) := by
  have hsection : ∀ header (items : List String), items ≠ [] → ∃ mid, ∃ item ∈ items,
      sectionLines header items = mid ++ ["- " ++ item] := by
    intro header items hitems
    obtain ⟨init, item, rfl⟩ := (List.eq_nil_or_concat' items).resolve_left hitems
    refine ⟨"" :: "" :: header :: init.map ("- " ++ ·), item, by simp, ?_⟩
    simp [sectionLines]
  unfold fallbackLines
  by_cases hlast : assistants = []
  · obtain ⟨mid, item, hitem, heq⟩ :=
      hsection extractiveFallbackUsersHeader users fun hnil => hne ⟨hnil, hlast⟩
    exact ⟨mid, item, List.mem_append_left _ hitem, by simp [heq, hlast, sectionLines_nil]⟩
  · obtain ⟨mid, item, hitem, heq⟩ :=
      hsection extractiveFallbackAssistantsHeader assistants hlast
    exact ⟨_, item, List.mem_append_right _ hitem, by rw [heq, ← List.append_assoc]⟩

/-- A rendered digest is its lines, and is trimmed. -/
theorem toList_render (hne : ¬ (users = [] ∧ assistants = [])) :
    (renderExtractiveFallbackSummary users assistants).toList =
      ['\n'].intercalate ((fallbackLines users assistants).map String.toList) ∧
    Trimmed (renderExtractiveFallbackSummary users assistants).toList := by
  have htrimmed : Trimmed (['\n'].intercalate
      ((fallbackLines users assistants).map String.toList)) := by
    obtain ⟨mid, item, hmem, heq⟩ := fallbackLines_eq hne
    have hitem : IsItem item := (List.mem_append.1 hmem).elim (husers item) (hassistants item)
    rw [heq, List.map_cons, List.map_append]
    exact trimmed_lines (trimmed_of_all (by decide)) (by decide) _ (trimmed_itemLine hitem)
      (by simp)
  have hraw : extractiveFallbackHeader ++ "\n" ++
      extractiveFallbackSection extractiveFallbackUsersHeader users ++
      extractiveFallbackSection extractiveFallbackAssistantsHeader assistants =
      String.ofList (['\n'].intercalate ((fallbackLines users assistants).map String.toList) ++
        ['\n']) := by
    rw [← String.toList_inj, String.toList_ofList,
      intercalate_append_newline (by simp [fallbackLines]), List.flatMap_map]
    simp only [String.toList_append, toList_section _ husers, toList_section _ hassistants,
      fallbackLines, terminated, List.flatMap_cons, List.flatMap_append]
    simp
  have hrender : renderExtractiveFallbackSummary users assistants =
      String.ofList (['\n'].intercalate ((fallbackLines users assistants).map String.toList)) := by
    rw [renderExtractiveFallbackSummary, Backend.renderExtractiveFallbackSummary, hraw]
    exact trimSpace_newline htrimmed
  rw [hrender, String.toList_ofList]
  exact ⟨rfl, htrimmed⟩

/-- The lines of a rendered digest, as the readers split them. -/
theorem splitOn_render (hne : ¬ (users = [] ∧ assistants = [])) :
    (renderExtractiveFallbackSummary users assistants).toList.splitOn '\n' =
      (fallbackLines users assistants).map String.toList := by
  rw [(toList_render husers hassistants hne).1]
  refine List.splitOn_intercalate _ (fun l hl => ?_) (by simp [fallbackLines])
  obtain ⟨line, hline, rfl⟩ := List.mem_map.1 hl
  exact (mem_fallbackLines husers hassistants hline).1

end Digest

/-! ### Reading -/

section Parse

variable {sec : FallbackSection} {seenUsers seenAssistants : Bool}
  {users assistants items rest : List String}

/-- An item line gives the item to the section it stands in. -/
theorem parseFallbackLines_item (hsec : sec ≠ .header) {item : String} (hitem : IsItem item) :
    parseFallbackLines sec seenUsers seenAssistants users assistants (("- " ++ item) :: rest) =
      if sec = .users then
        parseFallbackLines sec seenUsers seenAssistants (users ++ [item]) assistants rest
      else parseFallbackLines sec seenUsers seenAssistants users (assistants ++ [item]) rest := by
  have hother : ∀ other : String, other.toList.head? ≠ some '-' → "- " ++ item ≠ other := by
    rintro other hhead rfl
    exact hhead (by simp)
  have hpre := hasPrefix_append "- " item
  have hrest : trimSpace (trimPrefix ("- " ++ item) "- ") = item := by
    rw [trimPrefix, if_pos hpre, String.toList_append]
    have hdrop : ("- ".toList ++ item.toList).drop "- ".toList.length = item.toList :=
      List.drop_left
    rw [hdrop, String.ofList_toList]
    exact trimSpace_eq_self hitem.trimmed
  have hne : item ≠ "" := fun hempty => hitem.ne_nil (String.toList_eq_nil_iff.2 hempty)
  rw [parseFallbackLines, trimSpace_eq_self (trimmed_itemLine hitem)]
  simp only [hpre, hrest, hsec, hne, if_neg (hother "" (by decide)),
    if_neg (hother extractiveFallbackUsersHeader (by decide)),
    if_neg (hother extractiveFallbackAssistantsHeader (by decide))]
  simp

/-- Items are read into the list of their section. -/
theorem parseFallbackLines_items (hsec : sec ≠ .header) (hitems : ∀ i ∈ items, IsItem i) :
    parseFallbackLines sec seenUsers seenAssistants users assistants
        (items.map ("- " ++ ·) ++ rest) =
      parseFallbackLines sec seenUsers seenAssistants
        (if sec = .users then users ++ items else users)
        (if sec = .users then assistants else assistants ++ items) rest := by
  induction items generalizing users assistants with
  | nil => simp
  | cons i items ih =>
      obtain ⟨hi, hitems⟩ := List.forall_mem_cons.1 hitems
      rw [List.map_cons, List.cons_append, parseFallbackLines_item hsec hi]
      split_ifs with hu
      · rw [ih hitems, if_pos hu, if_pos hu, List.append_assoc]
        rfl
      · rw [ih hitems, if_neg hu, if_neg hu, List.append_assoc]
        rfl

/-- A blank line is skipped. -/
theorem parseFallbackLines_blank :
    parseFallbackLines sec seenUsers seenAssistants users assistants ("" :: rest) =
      parseFallbackLines sec seenUsers seenAssistants users assistants rest := by
  have hblank : trimSpace "" = "" := by decide
  rw [parseFallbackLines, hblank]
  exact if_pos rfl

/-- A section for the users, when no section was read before it. -/
theorem parseFallbackLines_users (hitems : ∀ i ∈ items, IsItem i) (hne : items ≠ []) :
    parseFallbackLines sec false false [] []
        (sectionLines extractiveFallbackUsersHeader items ++ rest) =
      parseFallbackLines .users true false items [] rest := by
  have htrim : trimSpace extractiveFallbackUsersHeader = extractiveFallbackUsersHeader := by
    decide +kernel
  have hempty : extractiveFallbackUsersHeader ≠ "" := by decide
  rw [sectionLines, if_neg hne, List.cons_append, parseFallbackLines_blank, List.cons_append,
    parseFallbackLines_blank, List.cons_append, parseFallbackLines, htrim]
  simp only [hempty, if_false, if_true, Bool.or_self, Bool.false_eq_true]
  rw [parseFallbackLines_items (by decide) hitems]
  simp

/-- A section for the assistants. -/
theorem parseFallbackLines_assistants (hitems : ∀ i ∈ items, IsItem i) (hne : items ≠ []) :
    parseFallbackLines sec seenUsers false users []
        (sectionLines extractiveFallbackAssistantsHeader items ++ rest) =
      parseFallbackLines .assistants seenUsers true users items rest := by
  have htrim : trimSpace extractiveFallbackAssistantsHeader =
      extractiveFallbackAssistantsHeader := by decide +kernel
  have hempty : extractiveFallbackAssistantsHeader ≠ "" := by decide
  have hother : extractiveFallbackAssistantsHeader ≠ extractiveFallbackUsersHeader := by decide
  rw [sectionLines, if_neg hne, List.cons_append, parseFallbackLines_blank, List.cons_append,
    parseFallbackLines_blank, List.cons_append, parseFallbackLines, htrim]
  simp only [hempty, hother, if_false, if_true, Bool.false_eq_true]
  rw [parseFallbackLines_items (by decide) hitems]
  simp

/-- A marker line is in no section. -/
theorem parseFallbackLines_marker (h : extractiveFallbackDeltaMarker ∈ rest) :
    parseFallbackLines sec seenUsers seenAssistants users assistants rest = none := by
  have hmarker : trimSpace extractiveFallbackDeltaMarker = extractiveFallbackDeltaMarker := by
    decide +kernel
  have hempty : extractiveFallbackDeltaMarker ≠ "" := by decide
  have husers : extractiveFallbackDeltaMarker ≠ extractiveFallbackUsersHeader := by decide
  have hassistants : extractiveFallbackDeltaMarker ≠ extractiveFallbackAssistantsHeader := by decide
  have hitem : hasPrefix extractiveFallbackDeltaMarker "- " = false := by decide +kernel
  induction rest generalizing sec seenUsers seenAssistants users assistants with
  | nil => cases h
  | cons raw rest ih =>
      rcases List.mem_cons.1 h with rfl | h
      · rw [parseFallbackLines, hmarker]
        simp [hempty, husers, hassistants, hitem]
      · rw [parseFallbackLines]
        simp only [ih h]
        split_ifs <;> rfl

end Parse

/-! ### Round trips -/

/-- The lines of two texts with a marker line between them. -/
theorem splitOn_marker (before after : List Char) :
    (before ++ '\n' :: '\n' :: (extractiveFallbackDeltaMarker.toList ++ '\n' :: after)).splitOn
        '\n' =
      before.splitOn '\n' ++ [] :: extractiveFallbackDeltaMarker.toList :: after.splitOn '\n' := by
  have hblank : ∀ l : List Char, ('\n' :: l).splitOn '\n' = [] :: l.splitOn '\n' :=
    fun l => splitOn_append_cons [] l
  have hmarker : extractiveFallbackDeltaMarker.toList.splitOn '\n' =
      [extractiveFallbackDeltaMarker.toList] := by decide +kernel
  rw [splitOn_append_cons, hblank, splitOn_append_cons, hmarker]
  rfl

/-- The marker with the line ends around it. -/
def markerText : List Char := '\n' :: '\n' :: (extractiveFallbackDeltaMarker.toList ++ ['\n'])

theorem toList_marker :
    ("\n\n" ++ extractiveFallbackDeltaMarker ++ "\n").toList = markerText := by
  decide +kernel

theorem markerText_append (after : List Char) : markerText ++ after =
    '\n' :: '\n' :: (extractiveFallbackDeltaMarker.toList ++ '\n' :: after) := by
  simp [markerText]

section RoundTrip

variable {users assistants : List String} (husers : ∀ i ∈ users, IsItem i)
  (hassistants : ∀ i ∈ assistants, IsItem i) (hne : ¬ (users = [] ∧ assistants = []))

include husers hassistants hne

/-- A rendered digest is read back. -/
theorem parse_render : parseExtractiveFallbackSummary
    (renderExtractiveFallbackSummary users assistants) = some (users, assistants) := by
  have htrim := trimSpace_eq_self (toList_render husers hassistants hne).2
  have hlines : splitLines (renderExtractiveFallbackSummary users assistants) =
      fallbackLines users assistants := by
    rw [splitLines_eq, splitOn_render husers hassistants hne, List.map_map]
    simp [Function.comp_def]
  have hheader : trimSpace extractiveFallbackHeader = extractiveFallbackHeader := by decide +kernel
  have hloop : parseFallbackLines .header false false [] []
      (sectionLines extractiveFallbackUsersHeader users ++
        sectionLines extractiveFallbackAssistantsHeader assistants) = some (users, assistants) := by
    have hend : ∀ {sec seenUsers seenAssistants us as},
        parseFallbackLines sec seenUsers seenAssistants us as [] = some (us, as) := rfl
    rw [← List.append_nil (sectionLines extractiveFallbackAssistantsHeader assistants)]
    by_cases hu : users = []
    · have ha : assistants ≠ [] := fun ha => hne ⟨hu, ha⟩
      rw [hu, sectionLines_nil, List.nil_append, parseFallbackLines_assistants hassistants ha, hend]
    · rw [parseFallbackLines_users husers hu]
      by_cases ha : assistants = []
      · rw [ha, sectionLines_nil, List.nil_append, hend]
      · rw [parseFallbackLines_assistants hassistants ha, hend]
  rw [parseExtractiveFallbackSummary, Backend.parseExtractiveFallbackSummary, htrim, hlines,
    fallbackLines]
  simp only [hheader, hloop, hne, ne_eq, not_true_eq_false, if_false]

/-- The marker does not start again inside itself and a digest. -/
theorem not_infix_render : ¬ markerText <:+: markerText.tail ++
    (renderExtractiveFallbackSummary users assistants).toList := by
  have hlines := splitOn_render husers hassistants hne
  generalize (renderExtractiveFallbackSummary users assistants).toList = delta at *
  rintro ⟨x, y, heq⟩
  -- With one more line end in front, both sides are texts around a marker line.
  have hcons : '\n' :: x ++ (markerText ++ y) = [] ++ (markerText ++ delta) := by
    rw [← List.append_assoc, List.cons_append, List.cons_append, heq]
    rfl
  have hsplit := congrArg (List.splitOn '\n') hcons
  rw [markerText_append, markerText_append, splitOn_marker, splitOn_marker, hlines] at hsplit
  obtain ⟨first, rest, hfirst⟩ := List.exists_cons_of_ne_nil (splitOn_ne_nil '\n' x)
  have hx : ('\n' :: x).splitOn '\n' = [] :: first :: rest := by
    rw [← hfirst]
    exact splitOn_append_cons [] x
  rw [hx, List.splitOn_nil] at hsplit
  simp only [List.cons_append, List.nil_append, List.cons.injEq, true_and] at hsplit
  cases rest with
  | nil => exact absurd (List.cons.inj hsplit.2).1 (by decide)
  | cons r rest =>
      have hmem : extractiveFallbackDeltaMarker.toList ∈
          (fallbackLines users assistants).map String.toList := by
        rw [← (List.cons.inj hsplit.2).2]
        simp
      obtain ⟨line, hline, hsame⟩ := List.mem_map.1 hmem
      exact (mem_fallbackLines husers hassistants hline).2 (String.toList_inj.1 hsame)

/-- A digest behind a baseline is found, whatever the baseline holds. -/
theorem split_append {baseline : String} (hbaseline : baseline ≠ "")
    (htrimmed : trimSpace baseline = baseline) :
    splitExtractiveFallbackSummary (appendExtractiveConversationDelta baseline
      (renderExtractiveFallbackSummary users assistants)) =
        (baseline, some (users, assistants)) := by
  have hparse := parse_render husers hassistants hne
  have htrim := (toList_render husers hassistants hne).2
  have hnot := not_infix_render husers hassistants hne
  generalize renderExtractiveFallbackSummary users assistants = delta at *
  have hdelta : delta ≠ "" := by
    rintro rfl
    cases hparse
  have htext : appendExtractiveConversationDelta baseline delta =
      String.ofList (baseline.toList ++ (markerText ++ delta.toList)) := by
    rw [appendExtractiveConversationDelta, if_neg hdelta, if_neg hbaseline, ← String.toList_inj,
      String.toList_ofList, ← toList_marker]
    simp only [String.toList_append, List.append_assoc]
  have hbase : Trimmed baseline.toList := htrimmed ▸ trimmed_trimSpace baseline
  have hwhole : trimSpace (appendExtractiveConversationDelta baseline delta) =
      appendExtractiveConversationDelta baseline delta := by
    refine trimSpace_eq_self ?_
    rw [htext, String.toList_ofList, ← List.append_assoc]
    exact trimmed_append_append hbase (fun h => hbaseline (String.toList_eq_nil_iff.1 h)) _ htrim
      fun h => hdelta (String.toList_eq_nil_iff.1 h)
  -- The marker line stands behind the first line of the baseline.
  have hnone : Backend.parseExtractiveFallbackSummary
      (appendExtractiveConversationDelta baseline delta) = none := by
    obtain ⟨first, rest, hfirst⟩ :=
      List.exists_cons_of_ne_nil (splitOn_ne_nil '\n' baseline.toList)
    have hlines : splitLines (appendExtractiveConversationDelta baseline delta) =
        String.ofList first :: (rest ++ [] :: extractiveFallbackDeltaMarker.toList ::
          delta.toList.splitOn '\n').map String.ofList := by
      rw [splitLines_eq, htext, String.toList_ofList]
      rw [markerText_append, splitOn_marker, hfirst]
      rfl
    have hmarker : extractiveFallbackDeltaMarker ∈ (rest ++ [] ::
        extractiveFallbackDeltaMarker.toList :: delta.toList.splitOn '\n').map String.ofList := by
      refine List.mem_map.2 ⟨extractiveFallbackDeltaMarker.toList, by simp, String.ofList_toList⟩
    rw [Backend.parseExtractiveFallbackSummary, hwhole, hlines]
    simp only [parseFallbackLines_marker hmarker]
    split_ifs <;> rfl
  have hlast : splitLast ("\n\n" ++ extractiveFallbackDeltaMarker ++ "\n").toList
      (appendExtractiveConversationDelta baseline delta).toList =
        some (baseline.toList, delta.toList) := by
    rw [htext, String.toList_ofList, toList_marker]
    exact splitLast_append_text hnot baseline.toList
  have hfound : Backend.parseExtractiveFallbackSummary (String.ofList delta.toList) =
      some (users, assistants) := by
    rw [String.ofList_toList]
    exact hparse
  rw [splitExtractiveFallbackSummary, Backend.splitExtractiveFallbackSummary, hwhole]
  simp only [hnone, hlast, hfound]
  rw [String.ofList_toList, htrimmed]

end RoundTrip

/-- **Extractive deltas survive rendering and splitting.** -/
theorem extractive_delta_round_trip :
    (∀ users assistants : List String,
      (∀ i ∈ users, normalizeExtractiveConversationItem i ≠ "") →
      (∀ i ∈ assistants, normalizeExtractiveConversationItem i ≠ "") →
      ¬ (users = [] ∧ assistants = []) →
      let users := users.map normalizeExtractiveConversationItem
      let assistants := assistants.map normalizeExtractiveConversationItem
      let delta := renderExtractiveFallbackSummary users assistants
      parseExtractiveFallbackSummary delta = some (users, assistants) ∧
      ∀ baseline, baseline ≠ "" → trimSpace baseline = baseline →
        splitExtractiveFallbackSummary (appendExtractiveConversationDelta baseline delta) =
          (baseline, some (users, assistants))) ∧
    ∀ text, normalizeExtractiveConversationItem (normalizeExtractiveConversationItem text) =
      normalizeExtractiveConversationItem text := by
  refine ⟨fun users assistants husers hassistants hne => ?_, normalize_idempotent⟩
  have hitems : ∀ items : List String, (∀ i ∈ items, normalizeExtractiveConversationItem i ≠ "") →
      ∀ i ∈ items.map normalizeExtractiveConversationItem, IsItem i := by
    intro items hitems i hi
    obtain ⟨text, htext, rfl⟩ := List.mem_map.1 hi
    exact isItem_normalize (hitems text htext)
  have hne' : ¬ (users.map normalizeExtractiveConversationItem = [] ∧
      assistants.map normalizeExtractiveConversationItem = []) := by simpa using hne
  exact ⟨parse_render (hitems users husers) (hitems assistants hassistants) hne',
    fun baseline hbaseline htrimmed =>
      split_append (hitems users husers) (hitems assistants hassistants) hne' hbaseline htrimmed⟩

/-- A baseline that is a whole delta, marker line included. -/
theorem extractive_delta_round_trip_nested :
    let delta := renderExtractiveFallbackSummary ["do it"] ["- done", "more"]
    let baseline := appendExtractiveConversationDelta "notes" delta
    splitExtractiveFallbackSummary (appendExtractiveConversationDelta baseline delta) =
      (baseline, some (["do it"], ["- done", "more"])) := by
  have hone : ["do it"].map normalizeExtractiveConversationItem = ["do it"] := by decide +kernel
  have htwo : ["- done", "more"].map normalizeExtractiveConversationItem = ["- done", "more"] := by
    decide +kernel
  obtain ⟨-, hsplit⟩ := extractive_delta_round_trip.1 ["do it"] ["- done", "more"]
    (by decide +kernel) (by decide +kernel) (by decide)
  exact hsplit _ (by decide +kernel) (by decide +kernel)

end Cli
end CxtHub
