import RedactGate.Redaction.LlmNer

/-!
# Where the items of a reply are anchored

One pass over the items: each takes the leftmost occurrence of its text that no span before
it meets, or none if there is no such occurrence. `Anchoring` says so item by item; that the
spans are disjoint, in bounds and spell out their texts follows.
-/
namespace RedactGate

open Library

/-- An occurrence of `value` at `i` overlaps one of the spans. -/
def Overlapped (spans : List (EntitySpan ℚ)) (value : Text) (i : Nat) : Prop :=
  ∃ s ∈ spans, i < s.stop ∧ s.start < i + value.length

/-- The span covers an occurrence of `value` that overlaps no earlier span, and every occurrence
before it overlaps one. -/
structure LeftmostFree (text : Text) (earlier : List (EntitySpan ℚ)) (value : Text)
    (span : EntitySpan ℚ) : Prop where
  covers : span.text = value
  stop_eq : span.stop = span.start + value.length
  occurs : Text.Occurs text value span.start
  free : ¬Overlapped earlier value span.start
  leftmost : ∀ i < span.start, Text.Occurs text value i → Overlapped earlier value i

/-- The spans of a list of items, in the order of the items, after some earlier spans: an item
without use or free occurrence has none. -/
inductive Anchoring (unicode : Unicode) (text : Text) :
    List (EntitySpan ℚ) → List Fields → List (EntitySpan ℚ) → Prop
  | done (earlier : List (EntitySpan ℚ)) : Anchoring unicode text earlier [] []
  | unusable {earlier spans : List (EntitySpan ℚ)} {item : Fields} {items : List Fields}
      (no_use : ∀ value etype, ¬Usable unicode item value etype)
      (rest : Anchoring unicode text earlier items spans) :
      Anchoring unicode text earlier (item :: items) spans
  | dropped {earlier spans : List (EntitySpan ℚ)} {item : Fields} {items : List Fields}
      {value etype : Text} (usable : Usable unicode item value etype)
      (overlapped : ∀ i, Text.Occurs text value i → Overlapped earlier value i)
      (rest : Anchoring unicode text earlier items spans) :
      Anchoring unicode text earlier (item :: items) spans
  | anchored {earlier spans : List (EntitySpan ℚ)} {item : Fields} {items : List Fields}
      {value etype : Text} {span : EntitySpan ℚ} (usable : Usable unicode item value etype)
      (typed : span.entityType = normType unicode etype)
      (here : LeftmostFree text earlier value span)
      (rest : Anchoring unicode text (earlier ++ [span]) items spans) :
      Anchoring unicode text earlier (item :: items) (span :: spans)

/-- The ranges of the spans so far. -/
def ranges (spans : List (EntitySpan ℚ)) : List (Nat × Nat) :=
  spans.map fun s => (s.start, s.stop)

theorem claimed_ranges {spans : List (EntitySpan ℚ)} {value : Text} {i : Nat} :
    Claimed (ranges spans) value i ↔ Overlapped spans value i := by
  simp [Claimed, Overlapped, ranges]

/-- The run lemma: the pass follows the items one by one, by induction, and each span is the first
occurrence that is free of the ranges taken so far. -/
theorem anchorFrom_anchoring (unicode : Unicode) (text : Text) (items : List Fields) :
    ∀ earlier : List (EntitySpan ℚ),
      Anchoring unicode text earlier items (anchorFrom unicode text (ranges earlier) items) := by
  induction items with
  | nil => intro earlier; exact .done earlier
  | cons item items ih =>
    intro earlier
    rw [anchorFrom]
    rcases anchorItem_cases unicode text (ranges earlier) item with
      ⟨none, no_use⟩ | ⟨value, etype, usable, eq⟩
    · rw [none]
      exact .unusable no_use (ih earlier)
    -- the search starts at the front for each item, with what was anchored before as claimed
    · cases found : firstFree text value (ranges earlier) (text.length + 1) 0 with
      | none =>
        rw [eq, found]
        refine .dropped usable (fun i occurs => claimed_ranges.mp ?_) (ih earlier)
        exact firstFree_none usable.nonempty (by omega) found i (Nat.zero_le i) occurs
      | some idx =>
        rw [eq, found]
        obtain ⟨occurs, free, leftmost⟩ := firstFree_spec found
        refine .anchored usable rfl ⟨rfl, rfl, occurs, ?_, ?_⟩ ?_
        · exact fun overlapped => free (claimed_ranges.mpr overlapped)
        · exact fun i before at_i => claimed_ranges.mp (leftmost i (Nat.zero_le i) before at_i)
        · have rest := ih (earlier ++ [⟨idx, idx + value.length, normType unicode etype, value,
            llmScore, .llm, none⟩])
          simpa [ranges] using rest

/-! ## What follows for the spans -/

/-- The span is inside the text and spells out its own text there. -/
def Spelled (text : Text) (s : EntitySpan ℚ) : Prop :=
  s.start < s.stop ∧ s.stop ≤ text.length ∧ text.slice s.start s.stop = s.text

theorem LeftmostFree.spelled {text value : Text} {earlier : List (EntitySpan ℚ)}
    {span : EntitySpan ℚ} (here : LeftmostFree text earlier value span) (nonempty : value ≠ []) :
    Spelled text span := by
  have pos := List.length_pos_iff.mpr nonempty
  have inside := here.occurs.inside nonempty
  obtain ⟨rest, eq⟩ := here.occurs
  refine ⟨?_, ?_, ?_⟩
  · rw [here.stop_eq]
    omega
  · rw [here.stop_eq]
    exact inside
  · rw [here.covers, here.stop_eq, Text.slice_eq_take_drop, Nat.add_sub_cancel_left, eq,
      List.take_left]

theorem Anchoring.spelled {unicode : Unicode} {text : Text} {earlier spans : List (EntitySpan ℚ)}
    {items : List Fields} (anchoring : Anchoring unicode text earlier items spans) :
    ∀ s ∈ spans, Spelled text s := by
  induction anchoring with
  | done => simp
  | unusable _ _ ih => exact ih
  | dropped _ _ _ ih => exact ih
  | anchored usable _ here _ ih =>
    intro s member
    rcases List.mem_cons.mp member with rfl | later
    · exact here.spelled usable.nonempty
    · exact ih s later

/-- No span that the pass anchors overlaps one that it has anchored before, since each occurrence
has to be free of the ranges taken. -/
theorem Anchoring.disjoint {unicode : Unicode} {text : Text} {earlier spans : List (EntitySpan ℚ)}
    {items : List Fields} (anchoring : Anchoring unicode text earlier items spans) :
    spans.Pairwise (fun a b => ¬a.overlaps b) ∧ ∀ a ∈ earlier, ∀ b ∈ spans, ¬a.overlaps b := by
  induction anchoring with
  | done => simp
  | unusable _ _ ih => exact ih
  | dropped _ _ _ ih => exact ih
  | anchored usable _ here _ ih =>
    obtain ⟨apart, from_earlier⟩ := ih
    refine ⟨List.pairwise_cons.mpr ⟨fun b member => ?_, apart⟩, fun a old b member => ?_⟩
    · exact from_earlier _ (by simp) b member
    · rcases List.mem_cons.mp member with rfl | later
      · intro overlap
        simp only [EntitySpan.overlaps, Bool.and_eq_true, decide_eq_true_eq, here.stop_eq] at overlap
        exact here.free ⟨a, old, overlap.2, overlap.1⟩
      · exact from_earlier a (List.mem_append_left _ old) b later

/-- The pass anchors the items of a reply one after the other. An item gets the leftmost occurrence
of its text that the spans before it leave free, and is dropped only if there is none. The spans lie
in the text, are disjoint and spell out the texts of their items. No condition is put on the text or
on the reply. -/
theorem anchorSpans_anchoring (unicode : Unicode) (text : Text) (items : List Fields) :
    Anchoring unicode text [] items (anchorSpans unicode text items) ∧
      (∀ s ∈ anchorSpans unicode text items,
        s.start < s.stop ∧ s.stop ≤ text.length ∧ text.slice s.start s.stop = s.text) ∧
      (anchorSpans unicode text items).Pairwise (fun a b => ¬a.overlaps b) := by
  have anchoring : Anchoring unicode text [] items (anchorSpans unicode text items) :=
    anchorFrom_anchoring unicode text items []
  exact ⟨anchoring, anchoring.spelled, anchoring.disjoint.1⟩

end RedactGate
