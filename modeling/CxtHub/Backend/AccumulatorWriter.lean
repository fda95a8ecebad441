/-
# The counting writer on machine integers

The guards of `accumulatorJSON` keep each of its sums and differences in range, for every
limit, so the machine's writer is the one on unbounded integers with an error for `none`.
`Writes` says this together with what is counted: the bytes of the text that `encoding/json`
gives and the entries of all slices.
-/

import CxtHub.Backend.AccumulatorMachine

namespace CxtHub
namespace Backend

open Machine (Fault InRange)

/-- The outcome of a call whose only error is the limit. -/
def orLimit {α : Type} : Option α → Except Fault α
  | some a => .ok a
  | none => .error .limit

@[simp] theorem orLimit_some {α : Type} (a : α) : orLimit (some a) = .ok a := rfl

@[simp] theorem orLimit_none {α : Type} : orLimit (none : Option α) = .error .limit := rfl

/-- A value in the range of `int` is itself. -/
theorem int_of_inRange {x : ℤ} (h : InRange x) : Machine.int x = .ok x := if_pos h

/-! ### The machine refines the model -/

/-- The machine gives what the model gives, and what it gives satisfies `P`. -/
def Refined {α : Type} (P : α → Prop) (m : Except Fault α) (o : Option α) : Prop :=
  m = orLimit o ∧ ∀ a, o = some a → P a

section Refined

variable {α β : Type} {P : α → Prop} {Q : β → Prop}

/-- A result with the property refines itself. -/
theorem refined_ok {a : α} (h : P a) : Refined P (.ok a) (some a) :=
  ⟨rfl, fun b hb => by cases hb; exact h⟩

/-- The error of the limit refines `none`. -/
theorem refined_limit : Refined P (.error .limit) none := ⟨rfl, fun b hb => by cases hb⟩

/-- The two ways in which a computation can refine another. -/
@[elab_as_elim]
theorem Refined.elim {m : Except Fault α} {o : Option α}
    {motive : Except Fault α → Option α → Prop} (h : Refined P m o)
    (limit : motive (.error .limit) none) (ok : ∀ a, P a → motive (.ok a) (some a)) :
    motive m o := by
  obtain ⟨rfl, hP⟩ := h
  cases o with
  | none => exact limit
  | some a => exact ok a (hP a rfl)

/-- Refinement is kept by sequencing. -/
theorem Refined.bind {m : Except Fault α} {o : Option α} {m' : α → Except Fault β}
    {o' : α → Option β} (h : Refined P m o) (h' : ∀ a, P a → Refined Q (m' a) (o' a)) :
    Refined Q (m >>= m') (o.bind o') :=
  h.elim refined_limit h'

/-- Refinement is kept by a branch on the same condition. -/
theorem Refined.ite {p : Prop} [Decidable p] {m m' : Except Fault α} {o o' : Option α}
    (h : p → Refined P m o) (h' : ¬ p → Refined P m' o') :
    Refined P (if p then m else m') (if p then o else o') := by
  split_ifs with hp
  · exact h hp
  · exact h' hp

/-- A sum or a difference in range. -/
theorem Refined.int {x : ℤ} {m : ℤ → Except Fault α} {o : Option α} (hx : InRange x)
    (h : Refined P (m x) o) : Refined P (Machine.int x >>= m) o := by
  rwa [int_of_inRange hx]

/-- The property of the result can be weakened. -/
theorem Refined.mono {P' : α → Prop} {m : Except Fault α} {o : Option α} (h : Refined P m o)
    (hP : ∀ a, P a → P' a) : Refined P' m o :=
  ⟨h.1, fun a ha => hP a (h.2 a ha)⟩

end Refined

/-! ### Byte lengths -/

/-- The bytes of two texts add up. -/
theorem byteLength_append (s t : List Char) :
    byteLength (s ++ t) = byteLength s + byteLength t := by
  simp [byteLength]

@[simp] theorem byteLength_nil : byteLength [] = 0 := rfl

/-- The bytes of a text, from the front. -/
theorem byteLength_cons (c : Char) (s : List Char) :
    byteLength (c :: s) = c.utf8Size + byteLength s := by
  simp [byteLength]

/-- A length in bytes is not negative. -/
theorem byteLength_nonneg (s : List Char) : 0 ≤ byteLength s := by
  induction s with
  | nil => exact le_rfl
  | cons c s ih =>
      rw [byteLength_cons]
      omega

/-! ### The counting writer -/

section Writer

variable {limit : ℤ}

/-- The counters of a writer that has not failed. -/
structure Sound (limit : ℤ) (s : AccumulatorJSON) : Prop where
  n_nonneg : 0 ≤ s.n
  n_le : s.n = 0 ∨ s.n ≤ limit
  entries_nonneg : 0 ≤ s.entries
  entries_le : s.entries ≤ memoryAccumulatorMaxEntries

/-- The machine writes what the model writes, namely `text` with `count` entries. -/
def Writes (limit : ℤ) (m : AccumulatorJSON → Except Fault AccumulatorJSON)
    (f : AccumulatorJSON → Option AccumulatorJSON) (text : List Char) (count : ℕ) : Prop :=
  ∀ s, Sound limit s → m s = orLimit (f s) ∧
    ∀ t, f s = some t → Sound limit t ∧ t.n = s.n + byteLength text ∧
      t.entries = s.entries + count ∧ t.written = s.written ++ text

/-- Two writers in a row write both texts and count both counts. -/
theorem Writes.bind {m m' : AccumulatorJSON → Except Fault AccumulatorJSON}
    {f f' : AccumulatorJSON → Option AccumulatorJSON} {x y : List Char} {i j : ℕ}
    (h : Writes limit m f x i) (h' : Writes limit m' f' y j) :
    Writes limit (fun s => m s >>= m') (fun s => (f s).bind f') (x ++ y) (i + j) := by
  refine fun s hs => Refined.bind (h s hs) fun u hu => ?_
  obtain ⟨hu, hn, hentries, hwritten⟩ := hu
  refine Refined.mono (h' u hu) fun t ht => ?_
  obtain ⟨ht, hn', hentries', hwritten'⟩ := ht
  refine ⟨ht, ?_, ?_, ?_⟩
  · rw [hn', hn, byteLength_append, add_assoc]
  · rw [hentries', hentries, Nat.cast_add, add_assoc]
  · rw [hwritten', hwritten, List.append_assoc]

/-- A writer that does nothing writes nothing. -/
theorem writes_ok : Writes limit (fun s => .ok s) (fun s => some s) [] 0 := by
  intro s hs
  refine ⟨rfl, fun t ht => ?_⟩
  cases ht
  exact ⟨hs, by simp [byteLength], by simp, by simp⟩

variable (hlimit : InRange limit)

include hlimit

/-- What is left of the limit is in range. -/
theorem inRange_room {s : AccumulatorJSON} (hs : Sound limit s) : InRange (limit - s.n) := by
  obtain ⟨hn, hle, -, -⟩ := hs
  obtain ⟨hlow, hhigh⟩ := hlimit
  constructor
  · rcases hle with hzero | hle <;> omega
  · omega

/-- `write` writes its text. -/
theorem writes_write (text : List Char) :
    Writes limit (Machine.write limit text) (AccumulatorJSON.write limit text) text 0 := by
  intro s hs
  have hlen := byteLength_nonneg text
  have hn := hs.n_nonneg
  refine Refined.int (inRange_room hlimit hs) (.ite (fun _ => refined_limit) fun hfull => ?_)
  obtain ⟨hlow, hhigh⟩ := hlimit
  refine .int (by constructor <;> omega) (refined_ok ⟨⟨?_, .inr ?_, hs.entries_nonneg,
    hs.entries_le⟩, rfl, by simp, rfl⟩)
  all_goals dsimp only; omega

omit hlimit in
/-- Two pieces are written as one. -/
theorem write_bind_write (s : AccumulatorJSON) (x y : List Char) :
    (AccumulatorJSON.write limit x s).bind (AccumulatorJSON.write limit y) =
      AccumulatorJSON.write limit (x ++ y) s := by
  have hy := byteLength_nonneg y
  by_cases hx : byteLength x > limit - s.n
  · rw [AccumulatorJSON.write, if_pos hx, AccumulatorJSON.write, byteLength_append,
      if_pos (by omega)]
    rfl
  · rw [AccumulatorJSON.write, if_neg hx, AccumulatorJSON.write, byteLength_append,
      Option.bind_some, AccumulatorJSON.write]
    by_cases hxy : byteLength x + byteLength y > limit - s.n
    · rw [if_pos hxy, if_pos (by dsimp only; omega)]
    · rw [if_neg hxy, if_neg (by dsimp only; omega), List.append_assoc, add_assoc]

/-- The cases of `writeEscape` write what `Json.escape` gives. -/
theorem writes_writeEscape (c : Char) :
    Writes limit (Machine.writeEscape limit c) (AccumulatorJSON.write limit (Json.escape c))
      (Json.escape c) 0 := by
  by_cases hcontrol : Machine.isControl c = true
  · have hpieces := (writes_write hlimit ((Json.escape c).take 4)).bind
      (writes_write hlimit ((Json.escape c).drop 4))
    simp only [write_bind_write, List.take_append_drop] at hpieces
    intro s hs
    rw [Machine.writeEscape, if_pos hcontrol]
    exact hpieces s hs
  · intro s hs
    rw [Machine.writeEscape, if_neg hcontrol]
    exact writes_write hlimit _ s hs

/-- The pieces of a quoted text are written as one. -/
theorem writes_writeQuoted (run text : List Char) :
    Writes limit (Machine.writeQuoted limit run text)
      (AccumulatorJSON.write limit (run ++ text.flatMap Json.escape))
      (run ++ text.flatMap Json.escape) 0 := by
  induction text generalizing run with
  | nil =>
      rw [List.flatMap_nil, List.append_nil]
      exact writes_write hlimit run
  | cons c text ih =>
      intro s hs
      rw [Machine.writeQuoted]
      by_cases hplain : Json.escape c = [c]
      · rw [if_pos hplain, List.flatMap_cons, hplain, ← List.append_assoc]
        exact ih (run ++ [c]) s hs
      · have hpieces := ((writes_write hlimit run).bind (writes_writeEscape hlimit c)).bind (ih [])
        simp only [write_bind_write, List.nil_append, List.append_assoc] at hpieces
        rw [if_neg hplain, List.flatMap_cons]
        exact hpieces s hs

omit hlimit in
/-- What was written is within the limit. -/
theorem n_le_of_write {text : List Char} {s t : AccumulatorJSON}
    (h : AccumulatorJSON.write limit text s = some t) : t.n ≤ limit := by
  rw [AccumulatorJSON.write] at h
  split_ifs at h with hfull
  cases h
  dsimp only
  omega

omit hlimit in
/-- Character by character is the same as the escaped text at once. -/
theorem writeEscaped_eq (text : List Char) {s : AccumulatorJSON} (hs : s.n ≤ limit) :
    AccumulatorJSON.writeEscaped limit text s =
      AccumulatorJSON.write limit (text.flatMap Json.escape) s := by
  induction text generalizing s with
  | nil =>
      have hroom : ¬ byteLength [] > limit - s.n := by
        rw [byteLength_nil]
        omega
      rw [AccumulatorJSON.writeEscaped, List.flatMap_nil, AccumulatorJSON.write, if_neg hroom,
        byteLength_nil, add_zero, List.append_nil]
  | cons c text ih =>
      rw [AccumulatorJSON.writeEscaped, List.flatMap_cons, ← write_bind_write]
      exact Option.bind_congr fun u hu => ih (n_le_of_write hu)

/-- A quoted string. -/
theorem writes_quoted (text : String) :
    Writes limit (Machine.quoted limit text) (AccumulatorJSON.quoted limit text)
      (Json.printString text) 0 := by
  intro s hs
  have hroom := inRange_room hlimit hs
  rw [AccumulatorJSON.quoted, ite_or]
  refine Refined.int hroom (.ite (fun _ => refined_limit) fun hshort => ?_)
  refine .int (by obtain ⟨hlow, hhigh⟩ := hroom; constructor <;> omega)
    (.ite (fun _ => refined_limit) fun _ => ?_)
  have hpieces := ((writes_write hlimit ['\x22']).bind
    (writes_writeQuoted hlimit [] text.toList)).bind (writes_write hlimit ['\x22'])
  have hmodel : (AccumulatorJSON.write limit ['\x22'] s).bind
      (AccumulatorJSON.writeEscaped limit text.toList) =
        (AccumulatorJSON.write limit ['\x22'] s).bind
          (AccumulatorJSON.write limit ([] ++ text.toList.flatMap Json.escape)) :=
    Option.bind_congr fun u hu => writeEscaped_eq _ (n_le_of_write hu)
  rw [hmodel]
  exact hpieces s hs

/-- A comma before all items but the first. -/
theorem writes_comma (first : Bool) :
    Writes limit (Machine.comma limit first) (AccumulatorJSON.comma limit first)
      (if first then [] else [',']) 0 := by
  cases first with
  | true => exact writes_ok
  | false => exact writes_write hlimit [',']

omit hlimit in
/-- The entries of a slice are charged unless only the wire is measured. -/
theorem writes_charge (wireOnly : Bool) (length : ℕ) :
    Writes limit (Machine.charge wireOnly length) (AccumulatorJSON.charge wireOnly length) []
      (if wireOnly then 0 else length) := by
  cases wireOnly with
  | true => exact writes_ok
  | false =>
      intro s hs
      obtain ⟨hn, hle, hnonneg, hentries⟩ := hs
      have hmax : memoryAccumulatorMaxEntries = 16384 := rfl
      refine Refined.int (by constructor <;> omega) (.ite (fun _ => refined_limit) fun hfull => ?_)
      refine .int (by constructor <;> omega) (refined_ok ⟨⟨hn, hle, ?_, ?_⟩, by simp, by simp,
        by simp⟩)
      all_goals dsimp only; omega

end Writer

/-! ### What a value costs -/

mutual

/-- The entries of all the slices of a value. -/
def sliceEntries : Json → ℕ
  | .arr l => l.length + listEntries l
  | .obj l => fieldEntries l
  | _ => 0

def listEntries : List Json → ℕ
  | [] => 0
  | j :: l => sliceEntries j + listEntries l

def fieldEntries : List (String × Json) → ℕ
  | [] => 0
  | (_, j) :: l => sliceEntries j + fieldEntries l

end

/-- The items of an array as they are written. -/
def itemsText : Bool → List Json → List Char
  | _, [] => []
  | first, j :: l => (if first then [] else [',']) ++ j.print ++ itemsText false l

/-- The fields of an object as they are written. -/
def fieldsText : Bool → List (String × Json) → List Char
  | _, [] => []
  | first, (k, j) :: l =>
      (if first then [] else [',']) ++ Json.printString k ++ [':'] ++ j.print ++ fieldsText false l

/-- The printed items are those of `itemsText`, closed. -/
theorem printItems_eq (l : List Json) : Json.printItems l = itemsText false l ++ [']'] := by
  induction l with
  | nil => simp [Json.printItems, itemsText]
  | cons j l ih => simp [Json.printItems, itemsText, ih]

/-- The text of an array by its items. -/
theorem print_arr (l : List Json) : (Json.arr l).print = ['['] ++ itemsText true l ++ [']'] := by
  cases l with
  | nil => simp [Json.print, itemsText]
  | cons j l => simp [Json.print, itemsText, printItems_eq]

/-- The printed fields are those of `fieldsText`, closed. -/
theorem printFields_eq (l : List (String × Json)) :
    Json.printFields l = fieldsText false l ++ ['\x7d'] := by
  induction l with
  | nil => simp [Json.printFields, fieldsText]
  | cons p l ih =>
      obtain ⟨k, j⟩ := p
      simp [Json.printFields, fieldsText, ih]

/-- The text of an object by its fields. -/
theorem print_obj (l : List (String × Json)) :
    (Json.obj l).print = ['\x7b'] ++ fieldsText true l ++ ['\x7d'] := by
  cases l with
  | nil => simp [Json.print, fieldsText]
  | cons p l =>
      obtain ⟨k, j⟩ := p
      simp [Json.print, fieldsText, printFields_eq]

section Values

variable {limit : ℤ}

/-- A writer with equal steps writes the same. -/
theorem Writes.of_eq {m m' : AccumulatorJSON → Except Fault AccumulatorJSON}
    {f f' : AccumulatorJSON → Option AccumulatorJSON} {x y : List Char} {i j : ℕ}
    (h : Writes limit m f x i) (hm : ∀ s, m' s = m s) (hf : ∀ s, f' s = f s) (htext : y = x)
    (hcount : j = i) : Writes limit m' f' y j := by
  intro s hs
  rw [hm, hf, htext, hcount]
  exact h s hs

variable (hlimit : InRange limit) (wireOnly : Bool)

include hlimit

mutual

/-- **The counter writes the text of a value and counts its entries.** -/
theorem writes_value : ∀ j : Json,
    Writes limit (Machine.value limit wireOnly j) (AccumulatorJSON.value limit wireOnly j) j.print
      (if wireOnly then 0 else sliceEntries j)
  | .null => (writes_write hlimit _).of_eq (fun s => by rw [Machine.value])
      (fun s => by rw [AccumulatorJSON.value]) (by rw [Json.print]) (by simp [sliceEntries])
  | .bool b => (writes_write hlimit _).of_eq (fun s => by rw [Machine.value])
      (fun s => by rw [AccumulatorJSON.value]) (by cases b <;> simp [Json.print])
      (by simp [sliceEntries])
  | .num t => (writes_write hlimit _).of_eq (fun s => by rw [Machine.value])
      (fun s => by rw [AccumulatorJSON.value]) (by rw [Json.print]) (by simp [sliceEntries])
  | .str t => (writes_quoted hlimit t).of_eq (fun s => by rw [Machine.value])
      (fun s => by rw [AccumulatorJSON.value]) (by rw [Json.print]) (by simp [sliceEntries])
  | .arr l => ((((writes_charge wireOnly l.length).bind (writes_write hlimit ['['])).bind
      (writes_values true l)).bind (writes_write hlimit [']'])).of_eq
      (fun s => by rw [Machine.value]) (fun s => by rw [AccumulatorJSON.value])
      (by simp [print_arr]) (by cases wireOnly <;> simp [sliceEntries])
  | .obj l => (((writes_write hlimit ['\x7b']).bind (writes_fields true l)).bind
      (writes_write hlimit ['\x7d'])).of_eq
      (fun s => by rw [Machine.value]) (fun s => by rw [AccumulatorJSON.value])
      (by rw [print_obj]) (by simp [sliceEntries])

/-- The case of the items of an array. -/
theorem writes_values : ∀ (first : Bool) (l : List Json),
    Writes limit (Machine.values limit wireOnly first l)
      (AccumulatorJSON.values limit wireOnly first l) (itemsText first l)
      (if wireOnly then 0 else listEntries l)
  | _, [] => writes_ok.of_eq (fun s => by rw [Machine.values])
      (fun s => by rw [AccumulatorJSON.values]) (by rw [itemsText]) (by simp [listEntries])
  | first, j :: l => (((writes_comma hlimit first).bind (writes_value j)).bind
      (writes_values false l)).of_eq (fun s => by rw [Machine.values])
      (fun s => by rw [AccumulatorJSON.values]) (by rw [itemsText])
      (by cases wireOnly <;> simp [listEntries])

/-- The case of the fields of an object. -/
theorem writes_fields : ∀ (first : Bool) (l : List (String × Json)),
    Writes limit (Machine.fields limit wireOnly first l)
      (AccumulatorJSON.fields limit wireOnly first l) (fieldsText first l)
      (if wireOnly then 0 else fieldEntries l)
  | _, [] => writes_ok.of_eq (fun s => by rw [Machine.fields])
      (fun s => by rw [AccumulatorJSON.fields]) (by rw [fieldsText]) (by simp [fieldEntries])
  | first, (k, j) :: l => (((((writes_comma hlimit first).bind (writes_quoted hlimit k)).bind
      (writes_write hlimit [':'])).bind (writes_value j)).bind (writes_fields false l)).of_eq
      (fun s => by rw [Machine.fields]) (fun s => by rw [AccumulatorJSON.fields])
      (by rw [fieldsText]) (by cases wireOnly <;> simp [fieldEntries])

end

end Values

end Backend
end CxtHub
