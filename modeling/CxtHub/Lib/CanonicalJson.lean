/-
# Canonical JSON

A value read into a `map[string]any` and written again: every object has its fields
once, the last of each name, in the order of the names (`Json.sorted`).
`canonicalJSON` writes, reads and writes again; `canonicalText` starts from a text.

* `Json.sorted_sorted`: the form is reached in one step, so `canonicalText` is
  idempotent (`canonicalText_canonicalText`);
* `Json.lookup_sortFields`: with distinct names no field is lost.
-/

import CxtHub.Lib.Json

namespace CxtHub
namespace Json

variable {s : List Char} {l : List (String × Json)} {p : Json × List Char}

/-! ### Nesting -/

section Reading

variable {α : Type} {read read' : List Char → Option (α × List Char)} {close : Char}

/-- A reader that reads at least as much, and what it reads where the first one does. -/
def Extends (read read' : List Char → Option (α × List Char)) : Prop :=
  ∀ s p, read s = some p → read' s = some p

/-- What holds of everything a reader gives. -/
def Gives (read : List Char → Option (α × List Char)) (P : α → Prop) : Prop :=
  ∀ s p, read s = some p → P p.1

/-- A reader that extends another reads the same items. -/
theorem itemsFrom_spec {P : α → Prop} (h : Extends read read') (hP : Gives read P) {n : ℕ}
    {q : List α × List Char} (hq : itemsFrom read close n s = some q) :
    itemsFrom read' close n s = some q ∧ ∀ a ∈ q.1, P a := by
  induction n generalizing s q with
  | zero => cases hq
  | succ n ih =>
      rw [itemsFrom] at hq ⊢
      cases hread : read s with
      | none => simp [hread] at hq
      | some p =>
          rw [hread] at hq
          rw [h s p hread]
          cases hskip : skipSpace p.2 with
          | nil => simp [hskip] at hq
          | cons c t =>
              simp only [hskip] at hq
              dsimp only
              rw [hskip]
              dsimp only
              split_ifs at hq ⊢ with hcomma hclose
              · obtain ⟨q', hq', rfl⟩ := Option.map_eq_some_iff.1 hq
                rw [(ih hq').1]
                exact ⟨rfl, List.forall_mem_cons.2 ⟨hP s p hread, (ih hq').2⟩⟩
              · cases hq
                exact ⟨rfl, List.forall_mem_singleton.2 (hP s p hread)⟩

/-- So it does from the opening bracket. -/
theorem itemsOf_spec {P : α → Prop} (h : Extends read read') (hP : Gives read P)
    {q : List α × List Char} (hq : itemsOf read close s = some q) :
    itemsOf read' close s = some q ∧ ∀ a ∈ q.1, P a := by
  unfold itemsOf at hq ⊢
  cases hskip : skipSpace s with
  | nil => simp [hskip] at hq
  | cons c t =>
      simp only [hskip] at hq
      dsimp only
      split_ifs at hq ⊢
      · cases hq
        exact ⟨rfl, List.forall_mem_nil _⟩
      · exact itemsFrom_spec h hP hq

/-- And so it reads the same fields. -/
theorem field_spec {P : α → Prop} (h : Extends read read') (hP : Gives read P) :
    Extends (field read) (field read') ∧ Gives (field read) fun p => P p.2 := by
  suffices hboth : ∀ s q, field read s = some q → field read' s = some q ∧ P q.1.2 from
    ⟨fun s q hq => (hboth s q hq).1, fun s q hq => (hboth s q hq).2⟩
  intro s q hq
  unfold field at hq ⊢
  cases hskip : skipSpace s with
  | nil => simp [hskip] at hq
  | cons c t =>
      simp only [hskip] at hq
      dsimp only
      split_ifs at hq ⊢
      cases hbody : stringBody none t with
      | none => simp [hbody] at hq
      | some k =>
          simp only [hbody] at hq
          dsimp only
          cases hskip' : skipSpace k.2 with
          | nil => simp [hskip'] at hq
          | cons c' t' =>
              simp only [hskip'] at hq
              dsimp only
              split_ifs at hq ⊢
              obtain ⟨p, hp, rfl⟩ := Option.map_eq_some_iff.1 hq
              rw [h _ p hp]
              exact ⟨rfl, hP _ p hp⟩

end Reading

/-- Items that nest at most so deep. -/
theorem depthItems_le {l : List Json} {d : ℕ} (h : ∀ j ∈ l, depth j ≤ d) : depthItems l ≤ d := by
  induction l with
  | nil => exact Nat.zero_le d
  | cons j l ih =>
      exact max_le (h j List.mem_cons_self) (ih fun i hi => h i (List.mem_cons_of_mem _ hi))

/-- Fields nest at most as deep as a bound on their values. -/
theorem depthFields_le {d : ℕ} (h : ∀ p ∈ l, depth p.2 ≤ d) :
    depthFields l ≤ d := by
  induction l with
  | nil => exact Nat.zero_le d
  | cons p l ih =>
      exact max_le (h p List.mem_cons_self) (ih fun i hi => h i (List.mem_cons_of_mem _ hi))

/-- A scalar does not nest. -/
theorem depth_of_scalar (h : scalar s = some p) :
    depth p.1 = 0 := by
  cases s with
  | nil => cases h
  | cons c s =>
      simp only [scalar, literal] at h
      split_ifs at h
      · obtain ⟨q, -, rfl⟩ := Option.map_eq_some_iff.1 h
        rfl
      · cases h; rfl
      · cases h; rfl
      · cases h; rfl
      · split at h
        · cases h
        · cases h; rfl

/-- A scalar starts with no bracket. -/
theorem ne_bracket_of_scalar {c : Char} {t : List Char}
    (h : scalar (c :: t) = some p) : c ≠ '[' ∧ c ≠ '\x7b' := by
  constructor <;>
  · rintro rfl
    simp only [scalar, Char.reduceEq, if_false] at h
    split at h
    · cases h
    · next hnumber => cases hnumber

/-- A scalar is read at any depth. -/
theorem value_scalar (h : scalar (skipSpace s) = some p)
    (e : ℕ) : value e s = some p := by
  cases e with
  | zero => exact h
  | succ e =>
      rw [value]
      cases hskip : skipSpace s with
      | nil => rw [hskip] at h; cases h
      | cons c t =>
          rw [hskip] at h
          dsimp only
          rw [if_neg (ne_bracket_of_scalar h).1, if_neg (ne_bracket_of_scalar h).2, h]

/-- More room for nesting changes nothing, and what is read uses no more than its room. -/
theorem value_spec (d : ℕ) :
    (∀ e, d ≤ e → Extends (value d) (value e)) ∧ Gives (value d) fun j => depth j ≤ d := by
  induction d with
  | zero =>
      refine ⟨fun e _ s p h => value_scalar h e, fun s p h => (depth_of_scalar h).le⟩
  | succ d ih =>
      suffices hboth : ∀ s p, value (d + 1) s = some p →
          (∀ e, d ≤ e → value (e + 1) s = some p) ∧ depth p.1 ≤ d + 1 by
        refine ⟨fun e he s p h => ?_, fun s p h => (hboth s p h).2⟩
        obtain ⟨e, rfl⟩ : ∃ k, e = k + 1 := ⟨e - 1, by omega⟩
        exact (hboth s p h).1 e (by omega)
      intro s p h
      simp only [value] at h ⊢
      cases hskip : skipSpace s with
      | nil => simp [hskip] at h
      | cons c t =>
          simp only [hskip] at h
          dsimp only
          split_ifs at h ⊢
          · obtain ⟨q, hq, rfl⟩ := Option.map_eq_some_iff.1 h
            refine ⟨fun e he => ?_, ?_⟩
            · rw [(itemsOf_spec (ih.1 e he) ih.2 hq).1]
              rfl
            · rw [depth, Nat.add_le_add_iff_right]
              exact depthItems_le (itemsOf_spec (ih.1 d le_rfl) ih.2 hq).2
          · obtain ⟨q, hq, rfl⟩ := Option.map_eq_some_iff.1 h
            refine ⟨fun e he => ?_, ?_⟩
            · obtain ⟨hext, hgives⟩ := field_spec (ih.1 e he) ih.2
              rw [(itemsOf_spec hext hgives hq).1]
              rfl
            · obtain ⟨hext, hgives⟩ := field_spec (ih.1 d le_rfl) ih.2
              rw [depth, Nat.add_le_add_iff_right]
              exact depthFields_le (itemsOf_spec hext hgives hq).2
          · exact ⟨fun _ _ => h, (depth_of_scalar h).le.trans (Nat.zero_le _)⟩

/-- A printed value reads as itself if it is not nested too deep, and else not at all. -/
theorem parse_print (j : Json) :
    parse (print j) = if depth j ≤ maxNesting then some j else none := by
  have hread := value_print j (le_max_right maxNesting (depth j)) (r := []) (by simp [Ends])
  rw [List.append_nil] at hread
  obtain ⟨hext, hgives⟩ := value_spec maxNesting
  unfold parse
  cases h : value maxNesting (print j) with
  | none =>
      rw [if_neg]
      intro hd
      have hsome := value_print j hd (r := []) (by simp [Ends])
      rw [List.append_nil, h] at hsome
      cases hsome
  | some p =>
      have heq := hext _ (le_max_left maxNesting (depth j)) _ p h
      rw [hread, Option.some.injEq] at heq
      subst heq
      rw [if_pos (hgives _ _ h)]
      rfl

/-- What is parsed is within the limit on nesting. -/
theorem depth_of_parse {j : Json} (h : parse s = some j) :
    depth j ≤ maxNesting := by
  unfold parse at h
  cases hvalue : value maxNesting s with
  | none => simp [hvalue] at h
  | some p =>
      simp only [hvalue] at h
      split_ifs at h
      cases h
      exact (value_spec maxNesting).2 s p hvalue

/-! ### Sorted objects -/

/-- Put a field where its name belongs, in place of one of that name. -/
def insertField (p : String × Json) : List (String × Json) → List (String × Json)
  | [] => [p]
  | q :: l =>
      if p.1 < q.1 then p :: q :: l
      else if p.1 = q.1 then p :: l
      else q :: insertField p l

/-- The fields in the order of their names, the last of each name. -/
def sortFields (l : List (String × Json)) : List (String × Json) :=
  l.foldl (fun sorted p => insertField p sorted) []

mutual

/-- The value with all its objects sorted. -/
def sorted : Json → Json
  | .null => .null
  | .bool b => .bool b
  | .num t => .num t
  | .str s => .str s
  | .arr l => .arr (sortedItems l)
  | .obj l => .obj (sortFields (sortedFields l))

def sortedItems : List Json → List Json
  | [] => []
  | j :: l => sorted j :: sortedItems l

def sortedFields : List (String × Json) → List (String × Json)
  | [] => []
  | (k, j) :: l => (k, sorted j) :: sortedFields l

end

/-- Distinct names in order. -/
abbrev Ascending (l : List (String × Json)) : Prop := l.Pairwise fun p q => p.1 < q.1

/-- The items of an array are sorted in place. -/
theorem sorted_arr (l : List Json) : sorted (.arr l) = .arr (l.map sorted) := by
  have hitems : ∀ l, sortedItems l = l.map sorted := by
    intro l
    induction l with
    | nil => rfl
    | cons j l ih => rw [sortedItems, ih, List.map_cons]
  rw [sorted, hitems]

/-- The fields of an object are sorted, and so are their values. -/
theorem sorted_obj (l : List (String × Json)) :
    sorted (.obj l) = .obj (sortFields (l.map fun p => (p.1, sorted p.2))) := by
  have hfields : ∀ l, sortedFields l = l.map fun p => (p.1, sorted p.2) := by
    intro l
    induction l with
    | nil => rfl
    | cons p l ih => rw [sortedFields, ih, List.map_cons]
  rw [sorted, hfields]

/-- What an insertion can put there. -/
theorem mem_of_mem_insertField {p q : String × Json}
    (h : q ∈ insertField p l) : q = p ∨ q ∈ l := by
  induction l with
  | nil => exact Or.inl (List.mem_singleton.1 h)
  | cons r l ih =>
      rw [insertField] at h
      split_ifs at h with h₁ h₂
      · exact List.mem_cons.1 h
      · rcases List.mem_cons.1 h with rfl | h
        · exact Or.inl rfl
        · exact Or.inr (List.mem_cons_of_mem _ h)
      · rcases List.mem_cons.1 h with rfl | h
        · exact Or.inr List.mem_cons_self
        · exact (ih h).imp id (List.mem_cons_of_mem _)

/-- Inserting keeps the order. -/
theorem ascending_insertField (p : String × Json) (hl : Ascending l) :
    Ascending (insertField p l) := by
  induction l with
  | nil => exact List.pairwise_singleton ..
  | cons q l ih =>
      obtain ⟨hq, hl⟩ := List.pairwise_cons.1 hl
      rw [insertField]
      split_ifs with h₁ h₂
      · refine List.pairwise_cons.2 ⟨fun r hr => ?_, List.pairwise_cons.2 ⟨hq, hl⟩⟩
        rcases List.mem_cons.1 hr with rfl | hr
        · exact h₁
        · exact h₁.trans (hq r hr)
      · exact List.pairwise_cons.2 ⟨fun r hr => h₂ ▸ hq r hr, hl⟩
      · refine List.pairwise_cons.2 ⟨fun r hr => ?_, ih hl⟩
        rcases mem_of_mem_insertField hr with rfl | hr
        · exact lt_of_le_of_ne (not_lt.1 h₁) (Ne.symm h₂)
        · exact hq r hr

theorem ascending_foldl {acc : List (String × Json)} (h : Ascending acc) :
    Ascending (l.foldl (fun sorted p => insertField p sorted) acc) := by
  induction l generalizing acc with
  | nil => exact h
  | cons p l ih => exact ih (ascending_insertField p h)

/-- **The sorted fields are in strict order of their names.** -/
theorem ascending_sortFields (l : List (String × Json)) : Ascending (sortFields l) :=
  ascending_foldl List.Pairwise.nil

/-- A field after all others goes to the end. -/
theorem insertField_of_lt {p : String × Json}
    (h : ∀ q ∈ l, q.1 < p.1) : insertField p l = l ++ [p] := by
  induction l with
  | nil => rfl
  | cons q l ih =>
      have hq : q.1 < p.1 := h q List.mem_cons_self
      rw [insertField, if_neg hq.asymm, if_neg hq.ne',
        ih fun r hr => h r (List.mem_cons_of_mem _ hr), List.cons_append]

/-- Sorting sorted fields changes nothing. -/
theorem sortFields_of_ascending (h : Ascending l) :
    sortFields l = l := by
  induction l using List.reverseRecOn with
  | nil => rfl
  | append_singleton l p ih =>
      obtain ⟨hl, -, hp⟩ := List.pairwise_append.1 h
      rw [sortFields, List.foldl_append, List.foldl_cons, List.foldl_nil]
      change insertField p (sortFields l) = _
      rw [ih hl, insertField_of_lt fun q hq => hp q hq p List.mem_cons_self]

/-- Fields in the opposite order are sorted back. -/
theorem sortFields_reverse (h : Ascending l) : sortFields l.reverse = l := by
  rw [sortFields, List.foldl_reverse]
  induction l with
  | nil => rfl
  | cons p l ih =>
      obtain ⟨hp, hl⟩ := List.pairwise_cons.1 h
      rw [List.foldr_cons, ih hl]
      cases l with
      | nil => rfl
      | cons q l => exact if_pos (hp q List.mem_cons_self)

/-- Sorting adds no field. -/
theorem mem_of_mem_sortFields {p : String × Json}
    (h : p ∈ sortFields l) : p ∈ l := by
  induction l using List.reverseRecOn with
  | nil => cases h
  | append_singleton l q ih =>
      rw [sortFields, List.foldl_append, List.foldl_cons, List.foldl_nil] at h
      rcases mem_of_mem_insertField h with rfl | h
      · simp
      · exact List.mem_append_left _ (ih h)

/-- **Sorting twice sorts once.** -/
theorem sorted_sorted (j : Json) : sorted (sorted j) = sorted j := by
  induction j with
  | null => rfl
  | bool b => rfl
  | num t => rfl
  | str s => rfl
  | arr l ih =>
      rw [sorted_arr, sorted_arr, List.map_map]
      exact congrArg arr (List.map_congr_left fun j hj => ih j hj)
  | obj l ih =>
      have hfix : ∀ p ∈ sortFields (l.map fun p => (p.1, sorted p.2)), (p.1, sorted p.2) = p := by
        intro p hp
        obtain ⟨q, hq, rfl⟩ := List.mem_map.1 (mem_of_mem_sortFields hp)
        rw [ih q hq]
      rw [sorted_obj, sorted_obj, List.map_congr_left hfix, List.map_id',
        sortFields_of_ascending (ascending_sortFields _)]

/-- Sorting does not nest deeper. -/
theorem depth_sorted_le (j : Json) : depth (sorted j) ≤ depth j := by
  induction j with
  | null => exact le_rfl
  | bool b => exact le_rfl
  | num t => exact le_rfl
  | str s => exact le_rfl
  | arr l ih =>
      rw [sorted_arr, depth, depth, Nat.add_le_add_iff_right]
      refine depthItems_le fun j hj => ?_
      obtain ⟨i, hi, rfl⟩ := List.mem_map.1 hj
      exact (ih i hi).trans (depth_le_of_mem hi)
  | obj l ih =>
      rw [sorted_obj, depth, depth, Nat.add_le_add_iff_right]
      refine depthFields_le fun p hp => ?_
      obtain ⟨q, hq, rfl⟩ := List.mem_map.1 (mem_of_mem_sortFields hp)
      exact (ih q hq).trans (depth_le_of_mem_fields hq)

/-- What is found under a name after an insertion. -/
theorem lookup_insertField (p : String × Json) (l : List (String × Json)) (k : String) :
    (insertField p l).lookup k = if k = p.1 then some p.2 else l.lookup k := by
  induction l with
  | nil => exact lookup_cons_eq k p []
  | cons q l ih =>
      rw [insertField, lookup_cons_eq k q]
      split_ifs with h₁ h₂ h₃ h₄ h₅
      all_goals simp_all [lookup_cons_eq]

/-- **With distinct names every field is found.** -/
theorem lookup_sortFields (hl : (l.map Prod.fst).Nodup) (k : String) :
    (sortFields l).lookup k = l.lookup k := by
  induction l using List.reverseRecOn with
  | nil => rfl
  | append_singleton l p ih =>
      rw [List.map_append, List.nodup_append] at hl
      rw [sortFields, List.foldl_append, List.foldl_cons, List.foldl_nil]
      change (insertField p (sortFields l)).lookup k = _
      rw [lookup_insertField, ih hl.1, List.lookup_append, lookup_cons_eq]
      by_cases hk : k = p.1
      · have hnone : l.lookup k = none := by
          refine List.lookup_eq_none_iff.2 fun q hq => bne_iff_ne.2 fun hkq => ?_
          exact hl.2.2 q.1 (List.mem_map_of_mem hq) p.1 (by simp) (hkq.symm.trans hk)
        rw [if_pos hk, hnone, if_pos hk, Option.none_or]
      · rw [if_neg hk, if_neg hk, List.lookup_nil, Option.or_none]

@[simp] theorem sorted_str (s : String) : sorted (.str s) = .str s := by rw [sorted]

@[simp] theorem sorted_int (i : ℤ) : sorted (int i) = int i := by
  cases i <;> rfl

@[simp] theorem depth_int (i : ℤ) : depth (int i) = 0 := by
  cases i <;> rfl

@[simp] theorem depth_str (s : String) : depth (.str s) = 0 := by simp [depth]

/-- What is found under a name after all values are changed. -/
theorem lookup_map_snd (f : Json → Json) (l : List (String × Json)) (k : String) :
    (l.map fun p => (p.1, f p.2)).lookup k = (l.lookup k).map f := by
  induction l with
  | nil => rfl
  | cons p l ih =>
      rw [List.map_cons, lookup_cons_eq, lookup_cons_eq, ih]
      split_ifs <;> rfl

/-- **Equal sorted objects agree on every field.** -/
theorem lookup_of_sorted_eq {l' : List (String × Json)} (hl : (l.map Prod.fst).Nodup)
    (hl' : (l'.map Prod.fst).Nodup) (h : sorted (.obj l) = sorted (.obj l')) (k : String) :
    (l.lookup k).map sorted = (l'.lookup k).map sorted := by
  have hnames : ∀ l : List (String × Json),
      (l.map fun p => (p.1, sorted p.2)).map Prod.fst = l.map Prod.fst := fun l => by
    rw [List.map_map]
    rfl
  rw [sorted_obj, sorted_obj, Json.obj.injEq] at h
  rw [← lookup_map_snd, ← lookup_map_snd, ← lookup_sortFields (by rwa [hnames]), h,
    lookup_sortFields (by rwa [hnames])]

end Json

/-- `canonicalJSON` of a value with this JSON form. -/
def canonicalJSON (j : Json) : Option (List Char) :=
  (Json.parse j.print).map fun j => j.sorted.print

/-- `canonicalJSON` of a raw message. -/
def canonicalText (s : String) : Option String :=
  (Json.parse s.toList).map fun j => String.ofList j.sorted.print

/-- The canonical text of a value is that of its sorted form. -/
theorem canonicalJSON_eq_some {j : Json} {t : List Char} :
    canonicalJSON j = some t ↔ j.depth ≤ Json.maxNesting ∧ t = j.sorted.print := by
  rw [canonicalJSON, Json.parse_print]
  split_ifs with h
  · simp [h, eq_comm]
  · simp [h]

/-- The value behind a canonical text, which is read back sorted. -/
theorem parse_of_canonicalText {s t : String} (h : canonicalText s = some t) :
    ∃ j, Json.parse s.toList = some j ∧ t = String.ofList j.sorted.print ∧
      Json.parse t.toList = some j.sorted := by
  obtain ⟨j, hj, rfl⟩ := Option.map_eq_some_iff.1 h
  refine ⟨j, hj, rfl, ?_⟩
  rw [String.toList_ofList, Json.parse_print,
    if_pos ((Json.depth_sorted_le j).trans (Json.depth_of_parse hj))]

/-- **A canonical text is its own canonical text.** -/
theorem canonicalText_canonicalText {s t : String} (h : canonicalText s = some t) :
    canonicalText t = some t := by
  obtain ⟨j, -, ht, hparse⟩ := parse_of_canonicalText h
  rw [canonicalText, hparse, Option.map_some, Json.sorted_sorted, ht]

end CxtHub
