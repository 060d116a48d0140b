import RedactGate.Library.Unicode
import RedactGate.Schemas.Entities
import RedactGate.Library.Json
import Mathlib.Algebra.Order.Ring.Rat

/-!
# LLM named entities

The offline half of the LLM pass: the items of a model reply are located in the
text again, each at its first occurrence that no earlier item has taken. Nothing
restricts the entity type beyond its normalization.
-/
namespace RedactGate

open Library

/-- The score of every LLM span, 0.6. -/
def llmScore : ℚ := 3 / 5

/-- `item.get("type") or item.get("entity_type")`: the second key counts where the first one has
nothing true. -/
def itemType (item : Fields) : Option Json :=
  match item.get? "type".toList with
  | some etype => if etype.truthy then some etype else item.get? "entity_type".toList
  | none => item.get? "entity_type".toList

/-- `etype.strip().upper().replace(" ", "_")`. -/
def normType (unicode : Unicode) (etype : Text) : Text :=
  ((etype.strip unicode).upper unicode).replaceChar ' ' '_'

/-- The `while` loop: the first occurrence from `searchFrom` on that meets no used
range. Every round searches further right, so the fuel of one round a position and
one at the end is never spent. -/
def firstFree (text value : Text) (used : List (Nat × Nat)) : Nat → Nat → Option Nat
  | 0, _ => none
  | fuel + 1, searchFrom =>
    match text.find value searchFrom with
    | none => none
    | some idx =>
      if used.any fun u => decide (idx < u.2) && decide (u.1 < idx + value.length) then
        firstFree text value used fuel (idx + 1)
      else some idx

/-- The span of one item of a reply: its first free occurrence in the text, if it has a usable value
and type and there is one. -/
def anchorItem (unicode : Unicode) (text : Text) (used : List (Nat × Nat)) (item : Fields) :
    Option (EntitySpan ℚ) :=
  match item.get? "text".toList, itemType item with
  | some (.str value), some (.str etype) =>
    if value.isEmpty then none
    else if (normType unicode etype).isEmpty then none
    else (firstFree text value used (text.length + 1) 0).map fun idx =>
      ⟨idx, idx + value.length, normType unicode etype, value, llmScore, .llm, none⟩
  | _, _ => none

/-- The loop of `_anchor_spans` over the items still to come, with the ranges that are taken; an
item without span takes none. -/
def anchorFrom (unicode : Unicode) (text : Text) (used : List (Nat × Nat)) :
    List Fields → List (EntitySpan ℚ)
  | [] => []
  | item :: items =>
    match anchorItem unicode text used item with
    | none => anchorFrom unicode text used items
    | some span => span :: anchorFrom unicode text (used ++ [(span.start, span.stop)]) items

/-- `_anchor_spans`. -/
def anchorSpans (unicode : Unicode) (text : Text) (items : List Fields) : List (EntitySpan ℚ) :=
  anchorFrom unicode text [] items

/-! ## What is reported -/

/-- An occurrence of `value` at `i` meets a range that is taken. -/
def Claimed (used : List (Nat × Nat)) (value : Text) (i : Nat) : Prop :=
  ∃ u ∈ used, i < u.2 ∧ u.1 < i + value.length

theorem claimed_iff {used : List (Nat × Nat)} {value : Text} {i : Nat} :
    (used.any fun u => decide (i < u.2) && decide (u.1 < i + value.length)) = true ↔
      Claimed used value i := by
  simp [Claimed]

/-- What is found is the leftmost occurrence from the start of the search on that meets no range
taken; by induction on the fuel. -/
theorem firstFree_spec {text value : Text} {used : List (Nat × Nat)} {fuel searchFrom idx : Nat}
    (found : firstFree text value used fuel searchFrom = some idx) :
    Text.Occurs text value idx ∧ ¬Claimed used value idx ∧
      ∀ i, searchFrom ≤ i → i < idx → Text.Occurs text value i → Claimed used value i := by
  induction fuel generalizing searchFrom with
  | zero => cases found
  | succ fuel ih =>
    rw [firstFree] at found
    split at found
    · cases found
    next first at_first =>
      have here := Text.find_spec at_first
      split at found
      next taken =>
        -- the search goes on one position further, past an occurrence that is taken
        obtain ⟨occurs, free, leftmost⟩ := ih found
        refine ⟨occurs, free, fun i from_start before at_i => ?_⟩
        rcases Nat.lt_trichotomy i first with left | rfl | right
        · exact absurd at_i (Text.find_first at_first from_start left)
        · exact claimed_iff.mp taken
        · exact leftmost i right before at_i
      next free =>
        cases found
        refine ⟨here.2, fun taken => free (claimed_iff.mpr taken), fun i from_start before at_i => ?_⟩
        exact absurd at_i (Text.find_first at_first from_start before)

/-- With fuel for every position that is left, nothing is found only if every occurrence from there
on meets a range that is taken. -/
theorem firstFree_none {text value : Text} {used : List (Nat × Nat)} {fuel searchFrom : Nat}
    (nonempty : value ≠ []) (enough : text.length < fuel + searchFrom)
    (missing : firstFree text value used fuel searchFrom = none) :
    ∀ i, searchFrom ≤ i → Text.Occurs text value i → Claimed used value i := by
  induction fuel generalizing searchFrom with
  | zero =>
    intro i from_start occurs
    have inside := occurs.inside nonempty
    omega
  | succ fuel ih =>
    intro i from_start occurs
    rw [firstFree] at missing
    split at missing
    next nowhere => exact absurd occurs (Text.find_none nowhere nonempty from_start)
    next first at_first =>
      have here := Text.find_spec at_first
      split at missing
      next taken =>
        rcases Nat.lt_trichotomy i first with left | rfl | right
        · exact absurd occurs (Text.find_first at_first from_start left)
        · exact claimed_iff.mp taken
        · exact ih (by omega) missing i right occurs
      next => cases missing

/-- An item with a text and a type that the pass can use: both are strings, and neither is empty for
it. -/
structure Usable (unicode : Unicode) (item : Fields) (value etype : Text) : Prop where
  has_text : item.get? "text".toList = some (.str value)
  has_type : itemType item = some (.str etype)
  nonempty : value ≠ []
  typed : normType unicode etype ≠ []

/-- What becomes of an item: no usable text and type, or the span of a free occurrence, or
none when every occurrence is taken. -/
theorem anchorItem_cases (unicode : Unicode) (text : Text) (used : List (Nat × Nat))
    (item : Fields) :
    (anchorItem unicode text used item = none ∧ ∀ value etype, ¬Usable unicode item value etype) ∨
    ∃ value etype, Usable unicode item value etype ∧
      anchorItem unicode text used item =
        (firstFree text value used (text.length + 1) 0).map fun idx =>
          ⟨idx, idx + value.length, normType unicode etype, value, llmScore, .llm, none⟩ := by
  rw [anchorItem]
  -- a usable item has a text and a type, both strings and neither empty
  split
  next value etype has_text has_type =>
    split
    next empty =>
      refine .inl ⟨rfl, fun value' etype' usable => ?_⟩
      obtain rfl : value = value' :=
        Json.str.inj (Option.some.inj (has_text.symm.trans usable.has_text))
      exact usable.nonempty (List.isEmpty_iff.mp empty)
    next nonempty =>
      split
      next untyped =>
        refine .inl ⟨rfl, fun value' etype' usable => ?_⟩
        obtain rfl : etype = etype' :=
          Json.str.inj (Option.some.inj (has_type.symm.trans usable.has_type))
        exact usable.typed (List.isEmpty_iff.mp untyped)
      next typed =>
        refine .inr ⟨value, etype, ⟨has_text, has_type, ?_, ?_⟩, rfl⟩
        · exact fun none => nonempty (List.isEmpty_iff.mpr none)
        · exact fun none => typed (List.isEmpty_iff.mpr none)
  next other =>
    exact .inl ⟨rfl, fun value etype usable => other value etype usable.has_text usable.has_type⟩

/-- The span of an item covers an occurrence in the text of the item's own text, which is not empty. -/
theorem anchorItem_spec {unicode : Unicode} {text : Text} {used : List (Nat × Nat)}
    {item : Fields} {span : EntitySpan ℚ}
    (anchored : anchorItem unicode text used item = some span) :
    span.start < span.stop ∧ span.stop ≤ text.length := by
  rcases anchorItem_cases unicode text used item with ⟨none, _⟩ | ⟨value, etype, usable, eq⟩
  · rw [none] at anchored
    cases anchored
  · rw [eq] at anchored
    obtain ⟨idx, free, rfl⟩ := Option.map_eq_some_iff.mp anchored
    have inside := (firstFree_spec free).1.inside usable.nonempty
    have pos := List.length_pos_iff.mpr usable.nonempty
    exact ⟨by simp only; omega, inside⟩

theorem anchorSpans_inside {unicode : Unicode} {text : Text} {items : List Fields} :
    ∀ s ∈ anchorSpans unicode text items, s.start < s.stop ∧ s.stop ≤ text.length := by
  have run (used : List (Nat × Nat)) : ∀ s ∈ anchorFrom unicode text used items,
      s.start < s.stop ∧ s.stop ≤ text.length := by
    induction items generalizing used with
    | nil => simp [anchorFrom]
    | cons item items ih =>
      intro s member
      rw [anchorFrom] at member
      split at member
      · exact ih _ s member
      next anchored =>
        rcases List.mem_cons.mp member with rfl | member
        · exact anchorItem_spec anchored
        · exact ih _ s member
  exact run []

end RedactGate
