/-
# Records in JSON

Reading a record from an object by the names of its fields.  `record` is the check that an
object has the fields of a type and no others, each once and of the right kind; the readers
then give the value of a field, or the zero value when it is absent.

Sorting an object keeps what is found under each name, so a record can be read from the sorted
value as well (`Keeps.record`, `fieldOf_sorted`).
-/

import CxtHub.Lib.CanonicalJson

namespace CxtHub
namespace Json

variable {j : Json} {o : Option Json}

/-! ### Kinds of values -/

def isStr : Json → Bool
  | .str _ => true
  | _ => false

def isBool : Json → Bool
  | .bool _ => true
  | _ => false

def isNum : Json → Bool
  | .num _ => true
  | _ => false

/-- An array whose items are of some kind. -/
def arrayOf (item : Json → Bool) : Json → Bool
  | .arr l => l.all item
  | _ => false

/-- `null`, or a value of some kind. -/
def orNull (kind : Json → Bool) : Json → Bool
  | .null => true
  | j => kind j

/-- A field of a type: its name, whether it must be there, and the kind of its value. -/
structure FieldType where
  name : String
  required : Bool
  kind : Json → Bool

/-- An object with fields of a type alone, each once, and with those that must be there. -/
def record (type : List FieldType) : Json → Bool
  | .obj l => decide (l.map Prod.fst).Nodup &&
      l.all (fun p => type.any fun f => decide (f.name = p.1) && f.kind p.2) &&
      type.all fun f => !f.required || (l.lookup f.name).isSome
  | _ => false

/-! ### Reading -/

/-- What stands under a name. -/
def fieldOf : Option Json → String → Option Json
  | some (.obj l), name => l.lookup name
  | _, _ => none

/-- A string; the empty one when it is absent. -/
def text : Option Json → String
  | some (.str s) => s
  | _ => ""

def flag : Option Json → Bool
  | some (.bool b) => b
  | _ => false

/-- An array of strings; none when it is absent or `null`. -/
def texts : Option Json → Option (List String)
  | some (.arr l) => some (l.map fun j => text (some j))
  | _ => none

/-- `strconv.ParseUint(text, 10, …)` without the limit. -/
def natural (t : List Char) : Option ℕ :=
  if t ≠ [] ∧ t.all Char.isDigit = true then
    some (t.foldl (fun n c => 10 * n + (c.toNat - '0'.toNat)) 0)
  else none

/-- A number that is read into a `uint64`. -/
def uint64 : Option Json → Option ℕ
  | some (.num t) => (natural t.1).filter fun n => decide (n < 2 ^ 64)
  | _ => some 0

/-- A number that is read into an `int64`. -/
def int64 : Option Json → Option ℤ
  | some (.num t) =>
      (match t.1 with
        | '-' :: digits => (natural digits).map fun n => -(n : ℤ)
        | digits => (natural digits).map fun n => (n : ℤ)).filter
          fun n => decide (-2 ^ 63 ≤ n ∧ n < 2 ^ 63)
  | _ => some 0

/-! ### Sorted values -/

/-- A kind of values that sorting does not lead out of. -/
def Keeps (kind : Json → Bool) : Prop := ∀ j, kind j = true → kind j.sorted = true

theorem keeps_isStr : Keeps isStr := fun j h => by cases j <;> simp_all [isStr, sorted]

theorem keeps_isBool : Keeps isBool := fun j h => by cases j <;> simp_all [isBool, sorted]

theorem keeps_isNum : Keeps isNum := fun j h => by cases j <;> simp_all [isNum, sorted]

/-- Sorting the items keeps the kind of an array. -/
theorem Keeps.arrayOf {item : Json → Bool} (h : Keeps item) : Keeps (arrayOf item) := by
  intro j hj
  cases j with
  | arr l =>
      rw [sorted_arr]
      simp only [Json.arrayOf, List.all_eq_true, List.forall_mem_map] at hj ⊢
      exact fun i hi => h i (hj i hi)
  | _ => cases hj

/-- `null` is its own sorted form. -/
theorem Keeps.orNull {kind : Json → Bool} (h : Keeps kind) : Keeps (orNull kind) := by
  intro j hj
  cases j with
  | null => simp [Json.orNull, sorted]
  | arr l =>
      have := h _ hj
      rw [sorted_arr] at this ⊢
      exact this
  | obj l =>
      have := h _ hj
      rw [sorted_obj] at this ⊢
      exact this
  | _ =>
      have := h _ hj
      simp only [sorted] at this ⊢
      exact this

/-- Sorted fields have distinct names. -/
theorem nodup_names_sortFields (l : List (String × Json)) :
    ((sortFields l).map Prod.fst).Nodup :=
  List.pairwise_map.2 ((ascending_sortFields l).imp fun h => ne_of_lt h)

/-- **The sorted object is a record of the same type.** -/
theorem Keeps.record {type : List FieldType} (hkinds : ∀ f ∈ type, Keeps f.kind) :
    Keeps (record type) := by
  intro j h
  cases j with
  | obj l =>
      simp only [Json.record, Bool.and_eq_true, decide_eq_true_eq, List.all_eq_true,
        List.any_eq_true, Bool.or_eq_true, Bool.not_eq_true'] at h
      obtain ⟨⟨hnodup, hknown⟩, hrequired⟩ := h
      have hnames : ((l.map fun p => (p.1, sorted p.2)).map Prod.fst).Nodup := by
        rw [List.map_map]
        exact hnodup
      rw [sorted_obj]
      simp only [Json.record, Bool.and_eq_true, decide_eq_true_eq, List.all_eq_true,
        List.any_eq_true, Bool.or_eq_true, Bool.not_eq_true', lookup_sortFields hnames,
        lookup_map_snd, Option.isSome_map]
      refine ⟨⟨nodup_names_sortFields _, fun p hp => ?_⟩, hrequired⟩
      obtain ⟨q, hq, rfl⟩ := List.mem_map.1 (mem_of_mem_sortFields hp)
      obtain ⟨f, hf, hname, hkind⟩ := hknown q hq
      exact ⟨f, hf, hname, hkinds f hf _ hkind⟩
  | _ => cases h

/-- What the sorted object has under a name. -/
theorem fieldOf_sorted {type : List FieldType} (h : record type j = true) (name : String) :
    fieldOf (some j.sorted) name = (fieldOf (some j) name).map sorted := by
  cases j with
  | obj l =>
      simp only [record, Bool.and_eq_true, decide_eq_true_eq] at h
      have hnames : ((l.map fun p => (p.1, sorted p.2)).map Prod.fst).Nodup := by
        rw [List.map_map]
        exact h.1.1
      rw [sorted_obj]
      simp only [fieldOf, lookup_sortFields hnames, lookup_map_snd]
  | _ => cases h

/-- What stands under the name of a field is of its kind. -/
theorem kind_of_record {type : List FieldType} (h : record type j = true)
    (hnames : (type.map FieldType.name).Nodup) {f : FieldType} (hf : f ∈ type) {i : Json}
    (hi : fieldOf (some j) f.name = some i) : f.kind i = true := by
  cases j with
  | obj l =>
      simp only [record, Bool.and_eq_true, List.all_eq_true, List.any_eq_true,
        decide_eq_true_eq] at h
      obtain ⟨before, after, rfl, -⟩ := List.lookup_eq_some_iff.1 hi
      obtain ⟨g, hg, hname, hkind⟩ := h.1.2 (f.name, i) (by simp)
      rwa [List.inj_on_of_nodup_map hnames hg hf hname] at hkind
  | _ => cases h

@[simp] theorem text_sorted : text (o.map sorted) = text o := by
  rcases o with _ | j
  · rfl
  · cases j <;> simp [text, sorted]

@[simp] theorem flag_sorted : flag (o.map sorted) = flag o := by
  rcases o with _ | j
  · rfl
  · cases j <;> simp [flag, sorted]

/-- Strings are read from the sorted array as before. -/
@[simp] theorem texts_sorted : texts (o.map sorted) = texts o := by
  rcases o with _ | j
  · rfl
  · cases j with
    | arr l =>
        rw [Option.map_some, sorted_arr]
        simp only [texts, List.map_map, Option.some.injEq]
        exact List.map_congr_left fun j _ => text_sorted (o := some j)
    | _ => simp [texts, sorted]

@[simp] theorem uint64_sorted : uint64 (o.map sorted) = uint64 o := by
  rcases o with _ | j
  · rfl
  · cases j <;> simp [uint64, sorted]

@[simp] theorem int64_sorted : int64 (o.map sorted) = int64 o := by
  rcases o with _ | j
  · rfl
  · cases j <;> simp [int64, sorted]

end Json
end CxtHub
