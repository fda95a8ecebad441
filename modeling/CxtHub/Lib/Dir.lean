/-
# Directories

A directory of files: names and contents, each name once, in a fixed order.
Writing a file replaces its content in place or adds it at the end, so that
undoing a write gives back the same directory: `set_get_self`, `erase_set_new`.
-/

import Mathlib.Data.List.Induction
import Mathlib.Data.List.Nodup

namespace CxtHub

/-- A directory; names are distinct. -/
@[ext] structure Dir (κ ν : Type) where
  entries : List (κ × ν)
  nodup : (entries.map Prod.fst).Nodup

namespace Dir

variable {κ ν : Type} [DecidableEq κ]

instance [DecidableEq ν] : DecidableEq (Dir κ ν) := fun a b =>
  decidable_of_iff (a.entries = b.entries) ⟨Dir.ext, fun h => h ▸ rfl⟩

/-- The empty directory. -/
def empty : Dir κ ν := ⟨[], List.nodup_nil⟩

/-- The content of a file. -/
def get (d : Dir κ ν) (k : κ) : Option ν := (d.entries.find? fun e => e.1 = k).map Prod.snd

/-- The names. -/
def keys (d : Dir κ ν) : List κ := d.entries.map Prod.fst

/-- Replace the content of a name that is there, else add it at the end. -/
def setEntry (k : κ) (v : ν) : List (κ × ν) → List (κ × ν)
  | [] => [(k, v)]
  | e :: es => if e.1 = k then (k, v) :: es else e :: setEntry k v es

theorem mem_keys_setEntry {k x : κ} {v : ν} {es : List (κ × ν)} :
    x ∈ (setEntry k v es).map Prod.fst ↔ x = k ∨ x ∈ es.map Prod.fst := by
  induction es with
  | nil => simp [setEntry]
  | cons e es ih =>
      unfold setEntry
      split_ifs with he
      · simp [he]
      · rw [List.map_cons, List.mem_cons, ih, List.map_cons, List.mem_cons]
        tauto

/-- Setting an entry keeps the keys distinct. -/
theorem nodup_setEntry {k : κ} {v : ν} {es : List (κ × ν)} (h : (es.map Prod.fst).Nodup) :
    ((setEntry k v es).map Prod.fst).Nodup := by
  induction es with
  | nil => simp [setEntry]
  | cons e es ih =>
      obtain ⟨he, hes⟩ := List.nodup_cons.1 h
      unfold setEntry
      split_ifs with hk
      · exact List.nodup_cons.2 ⟨hk ▸ he, hes⟩
      · refine List.nodup_cons.2 ⟨fun hmem => ?_, ih hes⟩
        rcases mem_keys_setEntry.1 hmem with heq | hmem
        · exact hk heq
        · exact he hmem

/-- Write a file. -/
def set (d : Dir κ ν) (k : κ) (v : ν) : Dir κ ν := ⟨setEntry k v d.entries, nodup_setEntry d.nodup⟩

/-- The same names with other contents. -/
def mapValues {μ : Type} (d : Dir κ ν) (f : κ → ν → μ) : Dir κ μ :=
  ⟨d.entries.map fun e => (e.1, f e.1 e.2), by
    rw [List.map_map]
    exact d.nodup⟩

omit [DecidableEq κ] in
/-- Contents that agree on the names of a directory give one directory. -/
theorem mapValues_congr {μ : Type} {d : Dir κ ν} {f g : κ → ν → μ}
    (h : ∀ e ∈ d.entries, f e.1 e.2 = g e.1 e.2) : d.mapValues f = d.mapValues g := by
  rw [mapValues, mapValues, Dir.mk.injEq]
  exact List.map_congr_left fun e he => congrArg (Prod.mk e.1) (h e he)

/-- Remove a file. -/
def erase (d : Dir κ ν) (k : κ) : Dir κ ν :=
  ⟨d.entries.filter fun e => e.1 ≠ k, (List.filter_sublist.map Prod.fst).nodup d.nodup⟩

@[simp] theorem get_empty (k : κ) : (empty : Dir κ ν).get k = none := rfl

/-- The entry that was set is found. -/
theorem find?_setEntry_self (k : κ) (v : ν) (es : List (κ × ν)) :
    (setEntry k v es).find? (fun e => e.1 = k) = some (k, v) := by
  induction es with
  | nil => simp [setEntry]
  | cons e es ih =>
      unfold setEntry
      split_ifs with he
      · simp
      · rw [List.find?_cons_of_neg (by simpa using he), ih]

/-- The others are found as before. -/
theorem find?_setEntry_of_ne {k x : κ} (v : ν) (es : List (κ × ν)) (hx : x ≠ k) :
    (setEntry k v es).find? (fun e => e.1 = x) = es.find? fun e => e.1 = x := by
  induction es with
  | nil => simp [setEntry, Ne.symm hx]
  | cons e es ih =>
      unfold setEntry
      split_ifs with he
      · have hne : ¬ e.1 = x := fun h => hx (h.symm.trans he)
        rw [List.find?_cons_of_neg (by simpa using Ne.symm hx),
          List.find?_cons_of_neg (by simpa using hne)]
      · rw [List.find?_cons, List.find?_cons, ih]

@[simp] theorem get_set_self (d : Dir κ ν) (k : κ) (v : ν) : (d.set k v).get k = some v := by
  simp only [get, set, find?_setEntry_self, Option.map_some]

theorem get_set_of_ne (d : Dir κ ν) {k x : κ} (v : ν) (hx : x ≠ k) :
    (d.set k v).get x = d.get x := by
  simp only [get, set, find?_setEntry_of_ne v d.entries hx]

/-- The later of two entries under one key counts. -/
theorem setEntry_setEntry (k : κ) (v w : ν) (es : List (κ × ν)) :
    setEntry k w (setEntry k v es) = setEntry k w es := by
  induction es with
  | nil => simp [setEntry]
  | cons e es ih =>
      by_cases he : e.1 = k
      · simp [setEntry, he]
      · simp [setEntry, he, ih]

/-- The second write of a name wins. -/
@[simp] theorem set_set (d : Dir κ ν) (k : κ) (v w : ν) : (d.set k v).set k w = d.set k w :=
  Dir.ext (setEntry_setEntry k v w d.entries)

/-- Setting what is there changes nothing. -/
theorem setEntry_of_find? {k : κ} {v : ν} {es : List (κ × ν)}
    (h : (es.find? fun e => e.1 = k).map Prod.snd = some v) : setEntry k v es = es := by
  induction es with
  | nil => cases h
  | cons e es ih =>
      unfold setEntry
      split_ifs with he
      · rw [List.find?_cons_of_pos (by simpa using he), Option.map_some, Option.some.injEq] at h
        rw [← h, ← he]
      · rw [List.find?_cons_of_neg (by simpa using he)] at h
        rw [ih h]

/-- Writing what a file holds changes nothing. -/
theorem set_get_self {d : Dir κ ν} {k : κ} {v : ν} (h : d.get k = some v) : d.set k v = d :=
  Dir.ext (setEntry_of_find? h)

/-- The keys are where there is a value. -/
theorem mem_keys_iff {d : Dir κ ν} {k : κ} : k ∈ d.keys ↔ ∃ v, d.get k = some v := by
  simp only [keys, get, Option.map_eq_some_iff, List.mem_map]
  constructor
  · rintro ⟨e, he, rfl⟩
    cases hf : d.entries.find? fun x => x.1 = e.1 with
    | none => exact absurd (List.find?_eq_none.1 hf e he) (by simp)
    | some x => exact ⟨x.2, x, rfl, rfl⟩
  · rintro ⟨v, e, he, -⟩
    exact ⟨e, List.mem_of_find?_eq_some he, by simpa using List.find?_some he⟩

/-- Writing a file that is there keeps the names. -/
theorem keys_set_of_mem {d : Dir κ ν} {k : κ} (v : ν) (h : k ∈ d.keys) :
    (d.set k v).keys = d.keys := by
  have hkeys : ∀ es : List (κ × ν), k ∈ es.map Prod.fst →
      (setEntry k v es).map Prod.fst = es.map Prod.fst := by
    intro es hes
    induction es with
    | nil => cases hes
    | cons e es ih =>
        unfold setEntry
        split_ifs with he
        · simp [he]
        · rw [List.map_cons, List.mem_cons] at hes
          rw [List.map_cons, List.map_cons, ih (hes.resolve_left (Ne.symm he))]
  exact hkeys d.entries h

/-- What is found is an entry. -/
theorem get_eq_some_iff {d : Dir κ ν} {k : κ} {v : ν} : d.get k = some v ↔ (k, v) ∈ d.entries := by
  obtain ⟨es, hn⟩ := d
  simp only [get, Option.map_eq_some_iff]
  constructor
  · rintro ⟨e, he, rfl⟩
    have hk : e.1 = k := by simpa using List.find?_some he
    exact hk ▸ List.mem_of_find?_eq_some he
  · intro hmem
    induction es with
    | nil => cases hmem
    | cons e es ih =>
        obtain ⟨he, hes⟩ := List.nodup_cons.1 hn
        rcases List.mem_cons.1 hmem with rfl | hmem
        · exact ⟨(k, v), by simp, rfl⟩
        · have hne : ¬ e.1 = k := fun h => he (h ▸ List.mem_map.2 ⟨(k, v), hmem, rfl⟩)
          rw [List.find?_cons_of_neg (by simpa using hne)]
          exact ih hes hmem

/-- Directories with the same names in the same order and the same contents are equal. -/
theorem ext_get {d e : Dir κ ν} (hkeys : d.keys = e.keys) (hget : ∀ k, d.get k = e.get k) :
    d = e := by
  refine Dir.ext (List.ext_getElem ?_ fun i hi hj => ?_)
  · have hlen := congrArg List.length hkeys
    rwa [keys, keys, List.length_map, List.length_map] at hlen
  · have hfst : d.entries[i].1 = e.entries[i].1 := by
      have hk : d.keys[i]? = e.keys[i]? := by rw [hkeys]
      simpa [keys, hi, hj] using hk
    have hd : d.get d.entries[i].1 = some d.entries[i].2 :=
      get_eq_some_iff.2 (List.getElem_mem hi)
    have he : e.get e.entries[i].1 = some e.entries[i].2 :=
      get_eq_some_iff.2 (List.getElem_mem hj)
    rw [hget, hfst, he] at hd
    exact Prod.ext hfst (Option.some.inj hd).symm

/-! ### Several files -/

section SetAll

variable {α : Type} (key : α → κ) (val : α → ν)

/-- Write a file for each element of a list. -/
def setAll (l : List α) (d : Dir κ ν) : Dir κ ν := l.foldl (fun d a => d.set (key a) (val a)) d

variable {key val}

theorem setAll_append (l l' : List α) (d : Dir κ ν) :
    setAll key val (l ++ l') d = setAll key val l' (setAll key val l d) := List.foldl_append

/-- A file holds what it held, or what an element wrote. -/
theorem get_setAll (l : List α) (d : Dir κ ν) (k : κ) :
    (setAll key val l d).get k = d.get k ∨
      ∃ a ∈ l, key a = k ∧ (setAll key val l d).get k = some (val a) := by
  induction l using List.reverseRecOn with
  | nil => exact Or.inl rfl
  | append_singleton l a ih =>
      have hlast : setAll key val (l ++ [a]) d = (setAll key val l d).set (key a) (val a) := by
        rw [setAll_append]; rfl
      rw [hlast]
      by_cases hk : k = key a
      · subst hk
        exact Or.inr ⟨a, List.mem_append_right _ (List.mem_singleton_self _), rfl,
          get_set_self ..⟩
      · rw [get_set_of_ne _ _ hk]
        exact ih.imp_right fun ⟨b, hb, hkey, hget⟩ =>
          ⟨b, List.mem_append_left _ hb, hkey, hget⟩

/-- With distinct names, each element's file holds what it wrote. -/
theorem get_setAll_of_mem {l : List α} (hn : (l.map key).Nodup) {a : α} (ha : a ∈ l)
    (d : Dir κ ν) : (setAll key val l d).get (key a) = some (val a) := by
  induction l using List.reverseRecOn with
  | nil => cases ha
  | append_singleton l b ih =>
      rw [List.map_append, List.nodup_append] at hn
      have hlast : setAll key val (l ++ [b]) d = (setAll key val l d).set (key b) (val b) := by
        rw [setAll_append]; rfl
      rw [hlast]
      rcases List.mem_append.1 ha with ha | ha
      · have hne : key a ≠ key b :=
          hn.2.2 _ (List.mem_map.2 ⟨a, ha, rfl⟩) _ (List.mem_singleton_self _)
        rw [get_set_of_ne _ _ hne, ih hn.1 ha]
      · rw [List.mem_singleton.1 ha, get_set_self]

/-- Writing files that are there keeps the names. -/
theorem keys_setAll {l : List α} {d : Dir κ ν} (h : ∀ a ∈ l, key a ∈ d.keys) :
    (setAll key val l d).keys = d.keys := by
  induction l generalizing d with
  | nil => rfl
  | cons a l ih =>
      have hset := keys_set_of_mem (val a) (h a (List.mem_cons_self ..))
      change (setAll key val l (d.set (key a) (val a))).keys = d.keys
      rw [ih fun b hb => hset ▸ h b (List.mem_cons_of_mem _ hb), hset]

end SetAll

/-- Taking a new entry out again. -/
theorem filter_setEntry_new {k : κ} {v : ν} {es : List (κ × ν)} (h : k ∉ es.map Prod.fst) :
    (setEntry k v es).filter (fun e => decide (e.1 ≠ k)) = es := by
  induction es with
  | nil => simp [setEntry]
  | cons e es ih =>
      rw [List.map_cons, List.mem_cons, not_or] at h
      have hne : ¬ e.1 = k := Ne.symm h.1
      simp only [setEntry, hne, if_false]
      rw [List.filter_cons_of_pos (by simpa using hne), ih h.2]

/-- Removing a file that was just added gives back the directory. -/
theorem erase_set_new {d : Dir κ ν} {k : κ} {v : ν} (h : k ∉ d.keys) : (d.set k v).erase k = d :=
  Dir.ext (filter_setEntry_new h)

/-- Removing a file that is not there changes nothing. -/
theorem erase_of_notMem {d : Dir κ ν} {k : κ} (h : k ∉ d.keys) : d.erase k = d := by
  refine Dir.ext (List.filter_eq_self.2 fun e he => ?_)
  have hne : e.1 ≠ k := fun heq => h (List.mem_map.2 ⟨e, he, heq⟩)
  simpa using hne

end Dir
end CxtHub
