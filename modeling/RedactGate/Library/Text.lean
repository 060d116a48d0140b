import Mathlib.Data.List.Basic

/-!
# Character strings

Strings as lists of code points, with the slice and splice operations of the
scripting languages that index them by character offset.
-/
namespace RedactGate.Library

abbrev Text := List Char

instance : LawfulBEq Text := inferInstance

namespace Text

/-- The slice between two offsets; offsets past the end are clipped. -/
def slice (text : Text) (start stop : Nat) : Text := (text.take stop).drop start

/-- Replace the characters between two offsets. -/
def splice (text : Text) (start stop : Nat) (new : Text) : Text :=
  text.take start ++ new ++ text.drop stop

theorem slice_eq_take_drop (text : Text) (start stop : Nat) :
    text.slice start stop = (text.drop start).take (stop - start) := by
  rw [slice, List.drop_take]

theorem length_slice {text : Text} {start stop : Nat} (bound : stop ≤ text.length) :
    (text.slice start stop).length = stop - start := by
  simp only [slice, List.length_drop, List.length_take]
  omega

/-- A slice, with the text before and after it, is the whole text. -/
theorem take_append_slice_append_drop {text : Text} {start stop : Nat} (ordered : start ≤ stop) :
    text.take start ++ text.slice start stop ++ text.drop stop = text := by
  have front : text.take start ++ text.slice start stop = text.take stop := by
    have taken : text.take start = (text.take stop).take start := by
      rw [List.take_take, Nat.min_eq_left ordered]
    rw [slice, taken, List.take_append_drop]
  rw [front, List.take_append_drop]

/-- Two adjacent slices of a text join to the slice from the start of the one to the end of the
other. -/
theorem slice_append_slice {text : Text} {a b c : Nat} (ab : a ≤ b) (bc : b ≤ c) :
    text.slice a b ++ text.slice b c = text.slice a c := by
  have front : text.slice a b = (text.slice a c).take (b - a) := by
    rw [slice_eq_take_drop, slice_eq_take_drop, List.take_take]
    congr 1
    omega
  have back : text.slice b c = (text.slice a c).drop (b - a) := by
    rw [slice, slice, List.drop_drop]
    congr 1
    omega
  rw [front, back, List.take_append_drop]

/-- A separator that occurs in neither front part splits a text in one way only: equal texts have
equal parts before it and behind it. -/
theorem append_cons_inj {c : Char} {a b x y : Text} (ha : c ∉ a) (hb : c ∉ b) :
    a ++ c :: x = b ++ c :: y ↔ a = b ∧ x = y := by
  -- the first `c` ends both fronts
  induction a generalizing b with
  | nil =>
    cases b with
    | nil => simp
    | cons d b =>
      have other : c ≠ d := fun h => hb (h ▸ List.mem_cons_self)
      simp [other]
  | cons d a ih =>
    cases b with
    | nil =>
      have other : d ≠ c := fun h => ha (h ▸ List.mem_cons_self)
      simp [other]
    | cons e b =>
      have tail := ih (b := b) (fun h => ha (List.mem_cons_of_mem _ h))
        fun h => hb (List.mem_cons_of_mem _ h)
      simp [tail, and_assoc]

/-- A separator that occurs in neither back part splits a text in one way only, too. -/
theorem append_cons_inj_right {c : Char} {a b x y : Text} (hx : c ∉ x) (hy : c ∉ y) :
    a ++ c :: x = b ++ c :: y ↔ a = b ∧ x = y := by
  have reversed (front back : Text) :
      (front ++ c :: back).reverse = back.reverse ++ c :: front.reverse := by
    simp
  have split := append_cons_inj (x := a.reverse) (y := b.reverse)
    (fun h => hx (List.mem_reverse.mp h)) fun h => hy (List.mem_reverse.mp h)
  rw [← List.reverse_inj, reversed, reversed, split, List.reverse_inj, List.reverse_inj, and_comm]

/-- Of two ways to split a text at a separator, the one whose front part is free of it
has the shorter front part. -/
theorem length_le_of_append_cons_eq {c : Char} {a b x y : Text} (ha : c ∉ a)
    (same : a ++ c :: x = b ++ c :: y) : a.length ≤ b.length := by
  rcases List.append_eq_append_iff.mp same with ⟨more, rfl, _⟩ | ⟨more, rfl, rest⟩
  · simp
  · cases more with
    | nil => simp
    | cons d more =>
      obtain ⟨rfl, _⟩ := List.cons.inj rest
      simp at ha

/-- A text with one separator, which is known of one front part and of one rest, is split at the
separator in no other way. -/
theorem append_cons_inj_of_single {c : Char} {a b x y : Text} (ha : c ∉ a) (hx : c ∉ x) :
    a ++ c :: x = b ++ c :: y ↔ a = b ∧ x = y := by
  constructor
  · intro same
    rcases List.append_eq_append_iff.mp same with ⟨more, rfl, rest⟩ | ⟨more, rfl, rest⟩
    · cases more with
      | nil => simpa using rest
      | cons d more =>
        obtain ⟨_, rfl⟩ := List.cons.inj rest
        simp at hx
    · cases more with
      | nil => simpa using rest.symm
      | cons d more =>
        obtain ⟨rfl, _⟩ := List.cons.inj rest
        simp at ha
  · rintro ⟨rfl, rfl⟩
    rfl

end Text

end RedactGate.Library
