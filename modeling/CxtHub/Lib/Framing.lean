/-
# Frames of brackets

A stream of JSON values can be cut into values without reading them: outside strings, a
value ends where its brackets are closed.  `Frame` is the state of such a reader, which
sees one byte at a time.  It reads a group exactly when the bytes between the brackets are
balanced with bounded nesting (`Balanced`): what it has read while a group is open is given
by `Reads` (`Reads.reading`), and balanced bytes leave the reader where it was
(`stays_of_balanced`).

The bytes that may stand outside strings, brackets aside, are a parameter.
-/

import CxtHub.Lib.Text

namespace CxtHub
namespace Framing

variable {u stack w : List UInt8}

def quote : UInt8 := byteOf '"'

def backslash : UInt8 := byteOf '\\'

/-- An opening bracket. -/
def IsOpen (b : UInt8) : Prop := b = byteOf '\x7b' ∨ b = byteOf '['

/-- A closing bracket. -/
def IsClose (b : UInt8) : Prop := b = byteOf '\x7d' ∨ b = byteOf ']'

/-- The bracket that closes another one. -/
def closer (o : UInt8) : UInt8 := if o = byteOf '\x7b' then byteOf '\x7d' else byteOf ']'

theorem ne_quote_of_isOpen {b : UInt8} (h : IsOpen b) : b ≠ quote := by
  rcases h with rfl | rfl <;> decide

/-! ### The grammar -/

/-- What may stand between the quotes of a string: a quote only after a backslash. -/
inductive StringBody : List UInt8 → Prop
  | nil : StringBody []
  | byte {b : UInt8} {t : List UInt8} : b ≠ quote → b ≠ backslash → StringBody t →
      StringBody (b :: t)
  | escape {b : UInt8} {t : List UInt8} : StringBody t → StringBody (backslash :: b :: t)

/-- Two parts of a string. -/
theorem StringBody.append {s t : List UInt8} (hs : StringBody s) (ht : StringBody t) :
    StringBody (s ++ t) := by
  induction hs with
  | nil => exact ht
  | byte hq hb _ ih => exact ih.byte hq hb
  | escape _ ih => exact ih.escape

/-- A byte that is no quote and no bracket. -/
def IsPlain (plain : UInt8 → Bool) (b : UInt8) : Prop :=
  b ≠ quote ∧ ¬ IsOpen b ∧ ¬ IsClose b ∧ plain b = true

/-- Bytes whose brackets outside strings are balanced, with at most `d` of them open. -/
inductive Balanced (plain : UInt8 → Bool) : ℕ → List UInt8 → Prop
  | nil {d : ℕ} : Balanced plain d []
  | byte {d : ℕ} {b : UInt8} {w : List UInt8} : IsPlain plain b → Balanced plain d w →
      Balanced plain d (b :: w)
  | text {d : ℕ} {t w : List UInt8} : StringBody t → Balanced plain d w →
      Balanced plain d (quote :: (t ++ quote :: w))
  | group {d : ℕ} {o : UInt8} {u w : List UInt8} : IsOpen o → Balanced plain d u →
      Balanced plain (d + 1) w → Balanced plain (d + 1) (o :: (u ++ closer o :: w))

variable {plain : UInt8 → Bool} {limit : ℕ}

/-- Two balanced texts. -/
theorem Balanced.append {d : ℕ} {v : List UInt8} (hu : Balanced plain d u)
    (hv : Balanced plain d v) : Balanced plain d (u ++ v) := by
  induction hu with
  | nil => exact hv
  | byte hb _ ih => exact (ih hv).byte hb
  | text ht _ ih =>
      rw [List.cons_append, List.append_assoc, List.cons_append]
      exact (ih hv).text ht
  | group ho hu _ _ ih =>
      rw [List.cons_append, List.append_assoc, List.cons_append]
      exact .group ho hu (ih hv)

/-! ### The reader -/

/-- The state of a reader: the brackets that are open, the innermost first, and whether it
is inside a string or right after a backslash there. -/
structure Frame where
  stack : List UInt8
  quoted : Bool := false
  escaped : Bool := false
  deriving DecidableEq, Repr

/-- What reading a byte can do. -/
inductive Frame.Reading (plain : UInt8 → Bool) (limit : ℕ) : Frame → UInt8 → Frame → Prop
  | escaped {stack : List UInt8} {b : UInt8} :
      Reading plain limit ⟨stack, true, true⟩ b ⟨stack, true, false⟩
  | escape {stack : List UInt8} :
      Reading plain limit ⟨stack, true, false⟩ backslash ⟨stack, true, true⟩
  | endText {stack : List UInt8} :
      Reading plain limit ⟨stack, true, false⟩ quote ⟨stack, false, false⟩
  | inText {stack : List UInt8} {b : UInt8} : b ≠ quote → b ≠ backslash →
      Reading plain limit ⟨stack, true, false⟩ b ⟨stack, true, false⟩
  | beginText {stack : List UInt8} {e : Bool} :
      Reading plain limit ⟨stack, false, e⟩ quote ⟨stack, true, e⟩
  | nest {stack : List UInt8} {e : Bool} {b : UInt8} : IsOpen b → stack.length ≠ limit →
      Reading plain limit ⟨stack, false, e⟩ b ⟨b :: stack, false, e⟩
  | close {stack : List UInt8} {e : Bool} {o : UInt8} : IsOpen o →
      Reading plain limit ⟨o :: stack, false, e⟩ (closer o) ⟨stack, false, e⟩
  | byte {stack : List UInt8} {e : Bool} {b : UInt8} : IsPlain plain b →
      Reading plain limit ⟨stack, false, e⟩ b ⟨stack, false, e⟩

/-- What can be read up to a point where the brackets of a stack are open. -/
inductive Opened (plain : UInt8 → Bool) (limit : ℕ) : List UInt8 → List UInt8 → Prop
  | nil : Opened plain limit [] []
  | nest {stack w : List UInt8} {o : UInt8} {u : List UInt8} : Opened plain limit stack w →
      stack.length < limit → IsOpen o → Balanced plain (limit - (stack.length + 1)) u →
      Opened plain limit (o :: stack) (w ++ o :: u)

theorem Opened.length_le (h : Opened plain limit stack w) :
    stack.length ≤ limit := by
  cases h with
  | nil => exact Nat.zero_le _
  | nest _ hlen _ _ => exact hlen

/-- A balanced text does not change what is open. -/
theorem Opened.extend {v : List UInt8} (h : Opened plain limit stack w)
    (hstack : stack ≠ []) (hv : Balanced plain (limit - stack.length) v) :
    Opened plain limit stack (w ++ v) := by
  cases h with
  | nil => exact absurd rfl hstack
  | nest h hlen ho hu =>
      rw [List.append_assoc, List.cons_append]
      exact h.nest hlen ho (hu.append hv)

/-- Closing an inner bracket. -/
theorem Opened.close {stack w : List UInt8} {o : UInt8} (h : Opened plain limit (o :: stack) w)
    (hstack : stack ≠ []) : Opened plain limit stack (w ++ [closer o]) := by
  cases h with
  | nest h hlen ho hu =>
      rw [List.append_assoc, List.cons_append]
      refine h.extend hstack ?_
      have hdepth : limit - stack.length = limit - (stack.length + 1) + 1 := by omega
      rw [hdepth]
      exact .group ho hu .nil

/-- Before the outermost bracket is closed, the frame is that bracket and balanced bytes. -/
theorem Opened.outermost {o : UInt8} (h : Opened plain limit [o] w) :
    IsOpen o ∧ ∃ u, w = o :: u ∧ Balanced plain (limit - 1) u := by
  cases h with
  | nest h hlen ho hu =>
      cases h
      exact ⟨ho, _, rfl, hu⟩

/-- What a reader in some state has read of its frame. -/
def Frame.Reads (plain : UInt8 → Bool) (limit : ℕ) (f : Frame) (w : List UInt8) : Prop :=
  if f.quoted then
    ∃ v t, Opened plain limit f.stack v ∧ StringBody t ∧
      w = v ++ quote :: (t ++ if f.escaped then [backslash] else [])
  else f.escaped = false ∧ Opened plain limit f.stack w

/-- The frame whose outermost bracket is `o`. -/
theorem Frame.reads_start {o : UInt8} (ho : IsOpen o) (hlimit : 0 < limit) :
    Frame.Reads plain limit { stack := [o] } [o] :=
  ⟨rfl, Opened.nil.nest hlimit ho .nil⟩

/-- **What a byte does to an open frame**: it stays open and the byte belongs to it, or the
byte closes the outermost bracket. -/
theorem Frame.Reads.reading {f f' : Frame} {b : UInt8}
    (h : f.Reads plain limit w) (hstack : f.stack ≠ [])
    (hread : Frame.Reading plain limit f b f') :
    (f'.stack ≠ [] ∧ f'.Reads plain limit (w ++ [b])) ∨
      (f' = { stack := [] } ∧ f.quoted = false ∧ f.escaped = false ∧
        ∃ o u, IsOpen o ∧ w ++ [b] = o :: (u ++ [closer o]) ∧ Balanced plain (limit - 1) u) := by
  cases hread with
  | escaped =>
      -- the byte after a backslash belongs to the string
      obtain ⟨v, t, hv, ht, rfl⟩ := h
      exact .inl ⟨hstack, v, t ++ [backslash, b], hv, ht.append (.escape .nil), by simp⟩
  | escape =>
      obtain ⟨v, t, hv, ht, rfl⟩ := h
      exact .inl ⟨hstack, v, t, hv, ht, by simp⟩
  | endText =>
      -- the string ends, and with it a balanced piece
      obtain ⟨v, t, hv, ht, rfl⟩ := h
      have hpiece := hv.extend hstack (.text ht .nil)
      exact .inl ⟨hstack, rfl, by simpa using hpiece⟩
  | inText hquote hslash =>
      obtain ⟨v, t, hv, ht, rfl⟩ := h
      exact .inl ⟨hstack, v, t ++ [b], hv, ht.append (.byte hquote hslash .nil), by simp⟩
  | beginText =>
      obtain ⟨hescaped, hopened⟩ := h
      dsimp only at hescaped
      subst hescaped
      exact .inl ⟨hstack, w, [], hopened, .nil, by simp⟩
  | nest ho hfull =>
      obtain ⟨hescaped, hopened⟩ := h
      have hroom := Nat.lt_of_le_of_ne hopened.length_le hfull
      exact .inl ⟨List.cons_ne_nil _ _, hescaped, hopened.nest hroom ho .nil⟩
  | @close rest e o ho =>
      obtain ⟨hescaped, hopened⟩ := h
      dsimp only at hescaped hopened
      subst hescaped
      by_cases hrest : rest = []
      · subst hrest
        obtain ⟨-, u, rfl, hu⟩ := hopened.outermost
        exact .inr ⟨rfl, rfl, rfl, o, u, ho, rfl, hu⟩
      · exact .inl ⟨hrest, rfl, hopened.close hrest⟩
  | byte hb =>
      obtain ⟨hescaped, hopened⟩ := h
      exact .inl ⟨hstack, hescaped, hopened.extend hstack (.byte hb .nil)⟩

/-! ### Reading a whole frame -/

/-- A reader goes from one state to another over some bytes and never closes the frame. -/
inductive Stays (plain : UInt8 → Bool) (limit : ℕ) : Frame → List UInt8 → Frame → Prop
  | nil {f : Frame} : Stays plain limit f [] f
  | cons {f f' f'' : Frame} {b : UInt8} {w : List UInt8} : Frame.Reading plain limit f b f' →
      f'.stack ≠ [] → Stays plain limit f' w f'' → Stays plain limit f (b :: w) f''

/-- Two steps that stay within the limit. -/
theorem Stays.append {f f' f'' : Frame} (hu : Stays plain limit f u f')
    (hw : Stays plain limit f' w f'') : Stays plain limit f (u ++ w) f'' := by
  induction hu with
  | nil => exact hw
  | cons hread hstack _ ih => exact .cons hread hstack (ih hw)

/-- The rest of a string, up to its closing quote. -/
theorem stays_of_stringBody {t : List UInt8} (hstack : stack ≠ []) (ht : StringBody t) :
    Stays plain limit { stack := stack, quoted := true } (t ++ [quote]) { stack := stack } := by
  induction ht with
  | nil => exact .cons .endText hstack .nil
  | byte hq hb _ ih => exact .cons (.inText hq hb) hstack ih
  | escape _ ih => exact .cons .escape hstack (.cons .escaped hstack ih)

/-- **Balanced bytes leave the reader where it was**, when the nesting fits. -/
theorem stays_of_balanced {d : ℕ} (hu : Balanced plain d u)
    (hstack : stack ≠ []) (hdepth : stack.length + d ≤ limit) :
    Stays plain limit { stack := stack } u { stack := stack } := by
  induction hu generalizing stack with
  | nil => exact .nil
  | byte hb _ ih => exact .cons (.byte hb) hstack (ih hstack hdepth)
  | text ht _ ih =>
      have hbody := (stays_of_stringBody hstack ht).append (ih hstack hdepth)
      rw [List.append_assoc] at hbody
      exact .cons .beginText hstack hbody
  | @group d o u w ho _ _ ihu ihw =>
      have hinner := ihu (List.cons_ne_nil o stack) (by rw [List.length_cons]; omega)
      exact .cons (.nest ho (by omega)) (List.cons_ne_nil _ _)
        (hinner.append (.cons (.close ho) hstack (ihw hstack hdepth)))

end Framing
end CxtHub
