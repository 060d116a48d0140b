import RedactGate.Library.Walk
import Mathlib.Data.List.Flatten

/-!
# What a walk leaves alone

Putting back the texts a walk has read rebuilds the value, and other texts change the
value at the places of the walk and nowhere else. A walk that passes over texts of
another one makes a part of its calls, in the same order.
-/
namespace RedactGate.Library

open Json (Step Path)

namespace Walk

variable {α β γ : Type}

/-- A walk of JSON values that, unless it raises, rebuilds what it has read and only
changes its own places. -/
structure Framed (walk : Json → Walk Json) : Prop where
  rebuilds : ∀ {json}, (walk json).raises = false → (walk json).fill (walk json).texts = json
  frame : ∀ {json p}, (walk json).raises = false → p ∉ (walk json).paths →
    ∀ new, ((walk json).fill new).shapeAt p = json.shapeAt p

/-! ## Two walks -/

theorem texts_under (step : Step) (w : Walk α) : (under step w).texts = w.texts := by
  rw [texts, under, List.map_map]
  rfl

theorem goes_of_both {f : α → β → γ} {w : Walk α} {w' : Walk β}
    (goes : (both f w w').raises = false) : w.raises = false ∧ w'.raises = false :=
  Bool.or_eq_false_iff.mp goes

theorem calls_both (f : α → β → γ) {w : Walk α} (w' : Walk β) (goes : w.raises = false) :
    (both f w w').calls = w.calls ++ w'.calls := by
  rw [both, goes, if_neg Bool.false_ne_true]

theorem texts_both (f : α → β → γ) {w : Walk α} (w' : Walk β) (goes : w.raises = false) :
    (both f w w').texts = w.texts ++ w'.texts := by
  rw [texts, calls_both f w' goes, List.map_append]
  rfl

/-- The texts of two walks go back where they came from. -/
theorem fill_both_texts (f : α → β → γ) {w : Walk α} (w' : Walk β) (goes : w.raises = false) :
    (both f w w').fill (both f w w').texts = f (w.fill w.texts) (w'.fill w'.texts) := by
  have width : w.calls.length = w.texts.length := (List.length_map _).symm
  rw [texts_both f w' goes]
  simp only [both, width, List.take_left, List.drop_left]

/-! ## Values without parts -/

theorem framed_done : Framed done where
  rebuilds _ := rfl
  frame _ _ _ := rfl

theorem framed_text : Framed text where
  rebuilds {json} _ := by cases json <;> rfl
  frame {json p} _ outside new := by
    cases json with
    | str s =>
      cases p with
      | nil => exact absurd (mem_paths_text.mpr ⟨rfl, s, rfl⟩) outside
      | cons step rest => cases step <;> rfl
    | _ => rfl

/-! ## Lists -/

section Items

variable {walk : Json → Walk Json}

theorem length_items (i : Nat) (xs : List Json) (new : List Text) :
    ((items walk i xs).fill new).length = xs.length := by
  induction xs generalizing i new with
  | nil => rfl
  | cons x xs ih => exact congrArg (· + 1) (ih (i + 1) _)

theorem rebuilds_items (framed : Framed walk) {i : Nat} {xs : List Json}
    (goes : (items walk i xs).raises = false) :
    (items walk i xs).fill (items walk i xs).texts = xs := by
  induction xs generalizing i with
  | nil => rfl
  | cons x xs ih =>
    obtain ⟨first, rest⟩ := goes_of_both goes
    have head : (walk x).fill (walk x).texts = x := framed.rebuilds first
    rw [items, fill_both_texts _ _ first, texts_under, ih rest]
    exact congrArg (· :: xs) head

theorem frame_items (framed : Framed walk) {i : Nat} {xs : List Json}
    (goes : (items walk i xs).raises = false) {k : Nat} {p : Path}
    (outside : .index (i + k) :: p ∉ (items walk i xs).paths) (new : List Text) :
    ((items walk i xs).fill new)[k]?.bind (·.shapeAt p) = xs[k]?.bind (·.shapeAt p) := by
  induction xs generalizing i k new with
  | nil => rfl
  | cons x xs ih =>
    obtain ⟨first, rest⟩ := goes_of_both goes
    rw [items, mem_paths_both, mem_paths_under] at outside
    obtain ⟨here, later⟩ := not_or.mp outside
    cases k with
    | zero =>
      -- the element itself: the place is not one of its walk
      have unvisited : p ∉ (walk x).paths := fun member => here ⟨p, rfl, member⟩
      exact framed.frame first unvisited _
    | succ k =>
      have unvisited : .index (i + 1 + k) :: p ∉ (items walk (i + 1) xs).paths := by
        rw [Nat.add_assoc, Nat.add_comm 1]
        exact fun member => later ⟨first, member⟩
      exact ih rest unvisited _

theorem framed_list (framed : Framed walk) : Framed (list walk) where
  rebuilds {json} goes := by
    cases json with
    | arr xs => exact congrArg Json.arr (rebuilds_items framed goes)
    | _ => rfl
  frame {json p} goes outside new := by
    cases json with
    | arr xs =>
      have filled : (list walk (.arr xs)).fill new = .arr ((items walk 0 xs).fill new) := rfl
      rw [filled]
      -- the list itself, a place no list has, or a place in an item
      match p with
      | [] => simp only [Json.shapeAt, Json.at?_nil, Option.map_some, Json.shape, length_items]
      | .key _ :: _ => rfl
      | .index k :: rest =>
        rw [Json.shapeAt_index, Json.shapeAt_index]
        refine frame_items framed goes (fun member => outside ?_) new
        rwa [Nat.zero_add] at member
    | _ => rfl

theorem framed_textOrList (framed : Framed walk) : Framed (textOrList walk) where
  rebuilds {json} goes := by
    cases json with
    | str s => rfl
    | _ => exact (framed_list framed).rebuilds goes
  frame {json p} goes outside new := by
    cases json with
    | str s => exact framed_text.frame goes outside new
    | _ => exact (framed_list framed).frame goes outside new

end Items

/-! ## Objects -/

section Members

variable {keys : List (Text × (Json → Walk Json))}

theorem rebuilds_members (framed : ∀ entry ∈ keys, Framed entry.2) {fields : Fields}
    (goes : (members keys fields).raises = false) :
    (members keys fields).fill (members keys fields).texts = fields := by
  induction keys with
  | nil => rfl
  | cons entry rest ih =>
    obtain ⟨key, walk⟩ := entry
    have ih := @ih fun entry among => framed entry (List.mem_cons_of_mem _ among)
    cases found : fields.get? key with
    | none =>
      rw [members_cons_none found] at goes ⊢
      exact ih goes
    | some value =>
      rw [members_cons_some found] at goes ⊢
      obtain ⟨first, others⟩ := goes_of_both goes
      have head : (walk value).fill (walk value).texts = value :=
        (framed (key, walk) List.mem_cons_self).rebuilds first
      -- the member takes its own texts and leaves the rest to the others
      rw [fill_both_texts _ _ first, texts_under, ih others]
      exact (congrArg (fields.set key) head).trans (Fields.set_get? found)

theorem frame_members (framed : ∀ entry ∈ keys, Framed entry.2) {fields : Fields}
    (goes : (members keys fields).raises = false) {p : Path}
    (outside : p ∉ (members keys fields).paths) (new : List Text) :
    (Json.obj ((members keys fields).fill new)).shapeAt p = (Json.obj fields).shapeAt p := by
  induction keys generalizing new with
  | nil => rfl
  | cons entry rest ih =>
    obtain ⟨key, walk⟩ := entry
    have ih := @ih fun entry among => framed entry (List.mem_cons_of_mem _ among)
    cases found : fields.get? key with
    | none =>
      rw [members_cons_none found] at goes outside ⊢
      exact ih goes outside new
    | some value =>
      rw [members_cons_some found] at goes outside ⊢
      obtain ⟨first, others⟩ := goes_of_both goes
      rw [mem_paths_both, mem_paths_under] at outside
      obtain ⟨here, later⟩ := not_or.mp outside
      have unvisited : p ∉ (members rest fields).paths := fun member => later ⟨first, member⟩
      -- the last assignment is to `key`; what it is made to has the members of before
      have filled : (both (fun value' fields' => fields'.set key value')
          (under (.key key) (walk value)) (members rest fields)).fill new =
          ((members rest fields).fill (new.drop (under (.key key) (walk value)).calls.length)).set
            key ((walk value).fill (new.take (under (.key key) (walk value)).calls.length)) := rfl
      rw [filled, ← ih others unvisited (new.drop (under (.key key) (walk value)).calls.length)]
      set fields' := (members rest fields).fill
        (new.drop (under (.key key) (walk value)).calls.length) with def_fields'
      match p with
      | [] =>
        obtain ⟨old, there⟩ : ∃ old, fields'.get? key = some old := by
          apply Option.isSome_iff_exists.mp
          exact (hasKey_members fields key _).trans (by rw [Fields.hasKey, found]; rfl)
        simp only [Json.shapeAt, Json.at?_nil, Option.map_some, Json.shape, Fields.keys_set there]
      | .index _ :: _ => rfl
      | .key name :: q =>
        by_cases same : key = name
        · subst same
          have fresh : q ∉ (walk value).paths := fun member => here ⟨q, rfl, member⟩
          have kept := (framed (key, walk) List.mem_cons_self).frame first fresh
          rw [ih others unvisited, Json.shapeAt_key, Json.shapeAt_key, Fields.get?_set_self, found]
          exact kept _
        · rw [Json.shapeAt_key, Json.shapeAt_key, Fields.get?_set_of_ne same]

theorem framed_object (framed : ∀ entry ∈ keys, Framed entry.2) : Framed (object keys) where
  rebuilds {json} goes := by
    cases json with
    | obj fields => exact congrArg Json.obj (rebuilds_members framed goes)
    | _ => rfl
  frame {json p} goes outside new := by
    cases json with
    | obj fields => exact frame_members framed goes outside new
    | _ => rfl

end Members

theorem framed_choice {walk other : Json → Walk Json} (framed : Framed walk)
    (framed' : Framed other) (test : Json → Bool) :
    Framed fun json => if test json then walk json else other json where
  rebuilds {json} goes := by
    -- either branch is framed
    cases holds : test json with
    | true =>
      simp only [holds, if_true] at goes ⊢
      exact framed.rebuilds goes
    | false =>
      simp only [holds, Bool.false_eq_true, if_false] at goes ⊢
      exact framed'.rebuilds goes
  frame {json p} goes outside new := by
    cases holds : test json with
    | true =>
      simp only [holds, if_true] at goes outside ⊢
      exact framed.frame goes outside new
    | false =>
      simp only [holds, Bool.false_eq_true, if_false] at goes outside ⊢
      exact framed'.frame goes outside new

/-! ## Calls of two walks -/

/-- A member that is there is walked before the members of the other keys. -/
theorem calls_members_cons {key : Text} {walk : Json → Walk Json} {fields : Fields} {value : Json}
    (found : fields.get? key = some value) (goes : (walk value).raises = false)
    (keys : List (Text × (Json → Walk Json))) : (members ((key, walk) :: keys) fields).calls =
      (under (.key key) (walk value)).calls ++ (members keys fields).calls := by
  rw [members_cons_some found]
  exact calls_both _ _ goes

theorem sublist_under {w : Walk α} {w' : Walk β} (step : Step) (part : w.calls.Sublist w'.calls) :
    (under step w).calls.Sublist (under step w').calls := part.map _

/-- The calls of a walk over a list that does not raise are those of its elements, one after the
other, each under its index. -/
theorem calls_items {walk : Json → Walk Json} {i : Nat} {xs : List Json}
    (goes : (items walk i xs).raises = false) : (items walk i xs).calls =
      (xs.zipIdx i).flatMap fun x => (under (.index x.2) (walk x.1)).calls := by
  induction xs generalizing i with
  | nil => rfl
  | cons x xs ih =>
    obtain ⟨first, rest⟩ := goes_of_both goes
    rw [items, calls_both _ _ first, ih rest, List.zipIdx_cons, List.flatMap_cons]

theorem texts_items {walk : Json → Walk Json} {i : Nat} {xs : List Json}
    (goes : (items walk i xs).raises = false) :
    (items walk i xs).texts = xs.flatMap fun x => (walk x).texts := by
  induction xs generalizing i with
  | nil => rfl
  | cons x xs ih =>
    obtain ⟨first, rest⟩ := goes_of_both goes
    rw [items, texts_both _ _ first, ih rest, texts_under, List.flatMap_cons]

theorem goes_items {walk : Json → Walk Json} (calm : Calm walk) (i : Nat) (xs : List Json) :
    (items walk i xs).raises = false :=
  (raises_items i xs).trans (List.any_eq_false.mpr fun x _ => by simp [calm x])

theorem sublist_items {walk walk' : Json → Walk Json} (calm : Calm walk)
    (part : ∀ x, (walk x).calls.Sublist (walk' x).calls) {i : Nat} {xs : List Json}
    (goes : (items walk' i xs).raises = false) :
    (items walk i xs).calls.Sublist (items walk' i xs).calls := by
  rw [calls_items (goes_items calm i xs), calls_items goes]
  exact List.Sublist.flatMap_right _ fun x _ => sublist_under _ (part x.1)

end Walk

end RedactGate.Library
