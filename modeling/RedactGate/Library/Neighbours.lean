import RedactGate.Library.Copies

/-!
# Neighbours in an edited text

What stands in an edited text outside what was put in stands in the text before too, clear of
the edits, and the other way round. The characters beside it are the same, but where an edit
touches it they are those that the edit has put in.
-/
namespace RedactGate.Library

namespace Edit

/-- What stands before an offset once the edits are made: the new text of an edit that ends
there, or else what stood before it. -/
def preceding (offset : Nat) (old : Text) : List Edit → Text
  | [] => old
  | e :: es => if e.stop = offset then e.new else preceding offset old es

/-- What stands behind an offset once the edits are made. -/
def following (offset : Nat) (old : Text) : List Edit → Text
  | [] => old
  | e :: es => if e.start = offset then e.new else following offset old es

/-- A text at an offset meets none of the edits. -/
def Clear (es : List Edit) (offset : Nat) (value : Text) : Prop :=
  ∀ e ∈ es, offset + value.length ≤ e.start ∨ e.stop ≤ offset

theorem preceding_cases (offset : Nat) (old : Text) (es : List Edit) :
    (preceding offset old es = old ∧ ∀ e ∈ es, e.stop ≠ offset) ∨
      ∃ e ∈ es, e.stop = offset ∧ ∀ old', preceding offset old' es = e.new := by
  induction es with
  | nil => exact .inl ⟨rfl, fun _ none => absurd none List.not_mem_nil⟩
  | cons e es ih =>
    by_cases here : e.stop = offset
    · exact .inr ⟨e, List.mem_cons_self, here, fun _ => if_pos here⟩
    · rcases ih with ⟨same, apart⟩ | ⟨e', member, stop, new⟩
      · exact .inl ⟨(if_neg here).trans same, List.forall_mem_cons.mpr ⟨here, apart⟩⟩
      · exact .inr ⟨e', List.mem_cons_of_mem _ member, stop, fun old' =>
          (if_neg here).trans (new old')⟩

theorem following_cases (offset : Nat) (old : Text) (es : List Edit) :
    (following offset old es = old ∧ ∀ e ∈ es, e.start ≠ offset) ∨
      ∃ e ∈ es, e.start = offset ∧ ∀ old', following offset old' es = e.new := by
  induction es with
  | nil => exact .inl ⟨rfl, fun _ none => absurd none List.not_mem_nil⟩
  | cons e es ih =>
    by_cases here : e.start = offset
    · exact .inr ⟨e, List.mem_cons_self, here, fun _ => if_pos here⟩
    · rcases ih with ⟨same, apart⟩ | ⟨e', member, start, new⟩
      · exact .inl ⟨(if_neg here).trans same, List.forall_mem_cons.mpr ⟨here, apart⟩⟩
      · exact .inr ⟨e', List.mem_cons_of_mem _ member, start, fun old' =>
          (if_neg here).trans (new old')⟩

theorem preceding_eq_old {offset : Nat} {es : List Edit} (apart : ∀ e ∈ es, e.stop ≠ offset)
    (old : Text) : preceding offset old es = old := by
  rcases preceding_cases offset old es with ⟨same, _⟩ | ⟨e, member, stop, _⟩
  · exact same
  · exact absurd stop (apart e member)

theorem following_eq_old {offset : Nat} {es : List Edit} (apart : ∀ e ∈ es, e.start ≠ offset)
    (old : Text) : following offset old es = old := by
  rcases following_cases offset old es with ⟨same, _⟩ | ⟨e, member, start, _⟩
  · exact same
  · exact absurd start (apart e member)

variable {text value front back front' back' : Text} {pos : Nat} {e : Edit} {es : List Edit}

section Step

variable (ordered : Ordered text pos (e :: es))

include ordered

theorem length_gap : (text.slice pos e.start).length = e.start - pos := by
  have inside := ordered.2.2.le_length
  have proper := ordered.2.1
  exact Text.length_slice (by omega)

/-- The text from an offset on is the gap up to the first edit and the text from that edit on. -/
theorem drop_eq_gap : text.drop pos = text.slice pos e.start ++ text.drop e.start := by
  rw [Text.slice_eq_take_drop]
  have later : text.drop e.start = (text.drop pos).drop (e.start - pos) := by
    have before := ordered.1
    rw [List.drop_drop]
    congr 1
    omega
  rw [later, List.take_append_drop]

/-- The text from an offset on is the part up to the end of the first edit and the text behind it. -/
theorem drop_eq_slice : text.drop pos = text.slice pos e.stop ++ text.drop e.stop := by
  rw [Text.slice_eq_take_drop]
  have later : text.drop e.stop = (text.drop pos).drop (e.stop - pos) := by
    have before := ordered.1
    have proper := ordered.2.1
    rw [List.drop_drop]
    congr 1
    omega
  rw [later, List.take_append_drop]

/-- What lies in front of the first of some ordered edits is clear of all of them. -/
theorem clear_of_before {offset : Nat} (left : offset + value.length ≤ e.start) :
    Clear (e :: es) offset value := by
  intro e' member
  left
  rcases List.mem_cons.mp member with rfl | member
  · exact left
  · have later := ordered.2.2.bounds e' member
    have proper := ordered.2.1
    omega

/-- No edit ends at the beginning of what lies in front of the first one. -/
theorem stop_ne_of_before {offset : Nat} (nonempty : value ≠ [])
    (left : offset + value.length ≤ e.start) : ∀ e' ∈ e :: es, e'.stop ≠ offset := by
  have width := List.length_pos_iff.mpr nonempty
  have proper := ordered.2.1
  refine List.forall_mem_cons.mpr ⟨by omega, fun e' member => ?_⟩
  have later := ordered.2.2.bounds e' member
  omega

/-- What follows a text in front of the first edit is the rest of the gap, or where there is
none what the edit has put in. -/
theorem following_of_before {more rest rest' : Text} {offset : Nat} (filled : e.new ≠ [])
    (gap : offset + more.length = e.start) : (more ++ (e.new ++ rest)).head? =
      (following offset (more ++ rest') (e :: es)).head? := by
  by_cases empty : more = []
  · subst empty
    rw [following, if_pos (by simpa using gap.symm), List.nil_append,
      List.head?_append_of_ne_nil _ filled]
  · have width := List.length_pos_iff.mpr empty
    have proper := ordered.2.1
    have apart : ∀ e' ∈ e :: es, e'.start ≠ offset := by
      refine List.forall_mem_cons.mpr ⟨by omega, fun e' member => ?_⟩
      have later := ordered.2.2.bounds e' member
      omega
    rw [following_eq_old apart, List.head?_append_of_ne_nil _ empty,
      List.head?_append_of_ne_nil _ empty]

theorem behind_of_ordered (proper : ∀ e' ∈ e :: es, e'.start < e'.stop) :
    ∀ e' ∈ es, e.stop < e'.stop := by
  intro e' member
  have later := ordered.2.2.bounds e' member
  have some := proper e' (List.mem_cons_of_mem _ member)
  omega

end Step

theorem Clear.cons {offset : Nat} (clear : Clear es offset value) (behind : e.stop ≤ offset) :
    Clear (e :: es) offset value := List.forall_mem_cons.mpr ⟨.inr behind, clear⟩

/-- The end of a text behind the first edit: where nothing stands between, it is the end of what
the edit has put in. -/
theorem getLast?_behind {more old gap gap' : Text}
    (same : more.getLast? = (preceding (e.stop + old.length) old es).getLast?)
    (filled : ∀ e' ∈ e :: es, e'.new ≠ []) (behind : ∀ e' ∈ es, e.stop < e'.stop) :
    (gap ++ e.new ++ more).getLast? =
      (preceding (e.stop + old.length) (gap' ++ old) (e :: es)).getLast? := by
  obtain ⟨here, filled⟩ := List.forall_mem_cons.mp filled
  -- where nothing is left between the edits, the new text of the nearer one is the neighbour
  by_cases empty : old = []
  · subst empty
    have apart : ∀ e' ∈ es, e'.stop ≠ e.stop + ([] : Text).length := fun e' member =>
      (Nat.ne_of_lt (behind e' member)).symm
    rw [preceding_eq_old apart, List.getLast?_nil, List.getLast?_eq_none_iff] at same
    rw [same, List.append_nil, preceding, if_pos (by rfl), List.getLast?_append_of_ne_nil _ here]
  · have width := List.length_pos_iff.mpr empty
    rw [preceding, if_neg (by omega)]
    rcases preceding_cases (e.stop + old.length) old es with ⟨kept, apart⟩ | ⟨e', member, _, new⟩
    · rw [kept] at same
      have some : more ≠ [] := fun none =>
        empty (List.getLast?_eq_none_iff.mp (by rw [← same, none]; rfl))
      rw [preceding_eq_old apart, List.getLast?_append_of_ne_nil _ some, same,
        List.getLast?_append_of_ne_nil _ empty]
    · rw [new] at same
      have some : more ≠ [] := fun none =>
        filled e' member (List.getLast?_eq_none_iff.mp (by rw [← same, none]; rfl))
      rw [new, List.getLast?_append_of_ne_nil _ some, same]

/-- What stands in an edited text outside what was put in stands in the text before, clear of the
edits. Its neighbours are those of the text, or the ends of what was put in beside it. -/
theorem exists_of_patch (ordered : Ordered text pos es) (proper : ∀ e ∈ es, e.start < e.stop)
    (filled : ∀ e ∈ es, e.new ≠ []) (nonempty : value ≠ [])
    (same : patch text pos es = front ++ value ++ back)
    (outside : Outside (inserted pos es) front value) :
    ∃ front' back', text.drop pos = front' ++ value ++ back' ∧
      Clear es (pos + front'.length) value ∧
      front.getLast? = (preceding (pos + front'.length) front' es).getLast? ∧
      back.head? = (following (pos + front'.length + value.length) back' es).head? := by
  -- on the edits; an offset in the edited text is made one of the text gap by gap
  induction es generalizing pos front with
  | nil =>
    exact ⟨front, back, same, fun _ none => absurd none List.not_mem_nil, rfl,
      rfl⟩
  | cons e es ih =>
    have width := length_gap ordered
    have gap := drop_eq_gap ordered
    rw [patch, List.append_assoc] at same
    rcases outside _ List.mem_cons_self with left | right
    · -- in the gap before the first edit
      obtain ⟨more, piece, rfl⟩ := split_left same.symm (by rw [width]; exact left)
      have length := congrArg List.length piece
      simp only [List.length_append, width] at length
      have value_some := List.length_pos_iff.mpr nonempty
      have inside : pos + front.length + value.length ≤ e.start := by omega
      refine ⟨front, more ++ text.drop e.start, ?_, clear_of_before ordered inside,
        ?_, ?_⟩
      · rw [gap, piece]
        simp only [List.append_assoc]
      · rw [preceding_eq_old (stop_ne_of_before ordered nonempty inside)]
      · exact following_of_before ordered (filled e List.mem_cons_self) (by omega)
    · -- behind the first edit
      rw [← List.append_assoc] at same
      obtain ⟨more, rfl, tail⟩ := split_right same.symm (by
        rw [List.length_append, width]; exact right)
      have later : Outside (inserted e.stop es) more value := fun s member => by
        have apart := outside _ (List.mem_cons_of_mem _ (List.mem_map_of_mem member))
        simp only [List.length_append, width] at apart
        omega
      obtain ⟨front', back', split, clear, before, after⟩ := ih ordered.2.2
        (fun e' member => proper e' (List.mem_cons_of_mem _ member))
        (fun e' member => filled e' (List.mem_cons_of_mem _ member)) tail later
      -- what lies behind the first edit has the gap and the old text before it
      have slice := drop_eq_slice ordered
      have length : (text.slice pos e.stop).length = e.stop - pos :=
        Text.length_slice ordered.2.2.le_length
      have bounds := ordered.bounds e List.mem_cons_self
      have offset : pos + (text.slice pos e.stop ++ front').length = e.stop + front'.length := by
        rw [List.length_append, length]
        omega
      have here := proper e List.mem_cons_self
      have value_some := List.length_pos_iff.mpr nonempty
      refine ⟨text.slice pos e.stop ++ front', back', ?_, ?_, ?_, ?_⟩
      · rw [slice, split]
        simp only [List.append_assoc]
      · rw [offset]
        exact clear.cons (by omega)
      · rw [offset]
        exact getLast?_behind before filled (behind_of_ordered ordered proper)
      · rw [offset, following, if_neg (by omega)]
        exact after

/-- What stands in a text clear of the edits stands in the edited text outside what is put in, with
the same neighbours or with the ends of what was put in beside it. -/
theorem exists_in_patch (ordered : Ordered text pos es) (proper : ∀ e ∈ es, e.start < e.stop)
    (filled : ∀ e ∈ es, e.new ≠ []) (nonempty : value ≠ [])
    (same : text.drop pos = front' ++ value ++ back')
    (clear : Clear es (pos + front'.length) value) :
    ∃ front back, patch text pos es = front ++ value ++ back ∧
      Outside (inserted pos es) front value ∧
      front.getLast? = (preceding (pos + front'.length) front' es).getLast? ∧
      back.head? = (following (pos + front'.length + value.length) back' es).head? := by
  induction es generalizing pos front' with
  | nil =>
    exact ⟨front', back', same, fun _ none => absurd none List.not_mem_nil, rfl,
      rfl⟩
  | cons e es ih =>
    have width := length_gap ordered
    have value_some := List.length_pos_iff.mpr nonempty
    have length : (text.slice pos e.stop).length = e.stop - pos :=
      Text.length_slice ordered.2.2.le_length
    have bounds := ordered.bounds e List.mem_cons_self
    have here := proper e List.mem_cons_self
    rcases clear e List.mem_cons_self with left | right
    · -- in the gap before the first edit
      rw [drop_eq_gap ordered] at same
      obtain ⟨more, piece, rfl⟩ := split_left same.symm (by rw [width]; omega)
      have lengths := congrArg List.length piece
      simp only [List.length_append, width] at lengths
      refine ⟨front', more ++ (e.new ++ patch text e.stop es), ?_, fun s member => ?_,
        ?_, ?_⟩
      · rw [patch, piece]
        simp only [List.append_assoc]
      · rcases List.mem_cons.mp member with rfl | member
        · left
          simp only
          omega
        · obtain ⟨s, _, rfl⟩ := List.mem_map.mp member
          left
          simp only
          omega
      · rw [preceding_eq_old (stop_ne_of_before ordered nonempty left)]
      · exact following_of_before ordered (filled e List.mem_cons_self) (by omega)
    · -- behind the first edit
      rw [drop_eq_slice ordered] at same
      obtain ⟨more, rfl, tail⟩ := split_right same.symm (by rw [length]; omega)
      have offset : pos + (text.slice pos e.stop ++ more).length = e.stop + more.length := by
        rw [List.length_append, length]
        omega
      rw [offset] at clear ⊢
      obtain ⟨front, back, split, outside, before, after⟩ := ih ordered.2.2
        (fun e' member => proper e' (List.mem_cons_of_mem _ member))
        (fun e' member => filled e' (List.mem_cons_of_mem _ member)) tail
        (fun e' member => clear e' (List.mem_cons_of_mem _ member))
      refine ⟨text.slice pos e.start ++ e.new ++ front, back, ?_, fun s member => ?_,
        getLast?_behind before filled (behind_of_ordered ordered proper), ?_⟩
      · rw [patch, split]
        simp only [List.append_assoc]
      · rcases List.mem_cons.mp member with rfl | member
        · right
          simp only [List.length_append, width]
          omega
        · obtain ⟨s, among, rfl⟩ := List.mem_map.mp member
          have apart := outside s among
          simp only [List.length_append, width]
          omega
      · rw [following, if_neg (by omega)]
        exact after

/-- A copy in the text before, clear of the edits and delimited by what stands beside it once
they are made. -/
def ContainsBeside (word : Char → Bool) (es : List Edit) (value text : Text) : Prop :=
  ∃ front back, text = front ++ value ++ back ∧ Clear es front.length value ∧
    EndsOpen word (preceding front.length front es) ∧
    StartsOpen word (following (front.length + value.length) back es)

/-- The copies of a value that ordered and proper edits leave are those of the text that are clear
of the edits, with the new neighbours where an edit stands beside them. -/
theorem contains_patch_iff_beside {word : Char → Bool} (ordered : Ordered text 0 es)
    (proper : ∀ e ∈ es, e.start < e.stop) (filled : ∀ e ∈ es, e.new ≠ []) (nonempty : value ≠ []) :
    Contains word (inserted 0 es) value (patch text 0 es) ↔ ContainsBeside word es value text := by
  have drop : text.drop 0 = text := rfl
  constructor
  -- a copy outside the inserted texts is one of the text outside the edits, with the same
  -- neighbours
  · rintro ⟨front, back, same, outside, opens, closes⟩
    obtain ⟨front', back', split, clear, before, after⟩ :=
      exists_of_patch ordered proper filled nonempty same outside
    rw [Nat.zero_add] at clear before after
    exact ⟨front', back', split, clear, fun c last => opens c (before.trans last),
      fun c head => closes c (after.trans head)⟩
  · rintro ⟨front', back', split, clear, opens, closes⟩
    rw [← Nat.zero_add front'.length] at clear
    obtain ⟨front, back, same, outside, before, after⟩ :=
      exists_in_patch ordered proper filled nonempty (drop.trans split) clear
    rw [Nat.zero_add] at before after
    exact ⟨front, back, same, outside, fun c last => opens c (before.symm.trans last),
      fun c head => closes c (after.symm.trans head)⟩

/-! ## Offsets -/

/-- A copy stands at one of the finitely many offsets of a text, so that whether there is one with a
given property can be decided. -/
theorem exists_copy_iff {P : Text → Text → Prop} :
    (∃ front back, text = front ++ value ++ back ∧ P front back) ↔
      ∃ i ∈ List.range (text.length + 1), value <+: text.drop i ∧
        P (text.take i) (text.drop (i + value.length)) := by
  constructor
  -- the offset is the length of what stands in front
  · rintro ⟨front, back, rfl, holds⟩
    refine ⟨front.length, ?_, ?_, ?_⟩
    · simp only [List.mem_range, List.length_append]
      omega
    · rw [List.append_assoc, List.drop_left]
      exact List.prefix_append _ _
    · rwa [← List.length_append, List.drop_left, List.append_assoc, List.take_left]
  · rintro ⟨i, _, ⟨back, tail⟩, holds⟩
    have split : text = text.take i ++ value ++ back := by
      rw [List.append_assoc, tail, List.take_append_drop]
    have behind : text.drop (i + value.length) = back := by
      rw [← List.drop_drop, ← tail, List.drop_left]
    exact ⟨text.take i, back, split, behind ▸ holds⟩

/-- The value stands in the text at an offset, clear of the edits. Beside it stand delimiters:
what an edit that touches it puts in, and where none does the characters of the text. -/
structure LeftAt (word : Char → Bool) (es : List Edit) (value text : Text) (offset : Nat) :
    Prop where
  stands : value <+: text.drop offset
  clear : Clear es offset value
  opens : (∀ e ∈ es, e.stop ≠ offset) → EndsOpen word (text.take offset)
  closes : (∀ e ∈ es, e.start ≠ offset + value.length) →
    StartsOpen word (text.drop (offset + value.length))
  behind : ∀ e ∈ es, e.stop = offset → EndsOpen word e.new
  before : ∀ e ∈ es, e.start = offset + value.length → StartsOpen word e.new

theorem Ordered.eq_or_apart (ordered : Ordered text pos es) {a b : Edit} (first : a ∈ es)
    (second : b ∈ es) : a = b ∨ a.stop ≤ b.start ∨ b.stop ≤ a.start := by
  obtain ⟨i, inside, rfl⟩ := List.getElem_of_mem first
  obtain ⟨j, inside', rfl⟩ := List.getElem_of_mem second
  have apart := List.pairwise_iff_getElem.mp ordered.pairwise
  rcases Nat.lt_trichotomy i j with before | rfl | behind
  · exact .inr (.inl (apart i j inside inside' before))
  · exact .inl rfl
  · exact .inr (.inr (apart j i inside' inside behind))

/-- Of ordered edits with proper spans at most one ends at an offset, and at most one starts there. -/
theorem Ordered.eq_of_touching (ordered : Ordered text pos es)
    (proper : ∀ e ∈ es, e.start < e.stop) {a b : Edit} (first : a ∈ es) (second : b ∈ es)
    (same : a.stop = b.stop ∨ a.start = b.start) : a = b := by
  have here := proper a first
  have there := proper b second
  rcases ordered.eq_or_apart first second with equal | before | behind
  · exact equal
  · omega
  · omega

theorem endsOpen_preceding_iff {word : Char → Bool} (ordered : Ordered text pos es)
    (proper : ∀ e ∈ es, e.start < e.stop) {offset : Nat} {old : Text} :
    EndsOpen word (preceding offset old es) ↔
      ((∀ e ∈ es, e.stop ≠ offset) → EndsOpen word old) ∧
        ∀ e ∈ es, e.stop = offset → EndsOpen word e.new := by
  rcases preceding_cases offset old es with ⟨kept, apart⟩ | ⟨e, member, stop, new⟩
  · rw [kept]
    refine ⟨fun opened => ⟨fun _ => opened, fun e member here => ?_⟩, fun both => both.1 apart⟩
    exact absurd here (apart e member)
  · rw [new]
    refine ⟨fun opened => ⟨fun apart => absurd stop (apart e member), ?_⟩,
      fun both => both.2 e member stop⟩
    intro e' among here
    rw [ordered.eq_of_touching proper among member (.inl (here.trans stop.symm))]
    exact opened

theorem startsOpen_following_iff {word : Char → Bool} (ordered : Ordered text pos es)
    (proper : ∀ e ∈ es, e.start < e.stop) {offset : Nat} {old : Text} :
    StartsOpen word (following offset old es) ↔
      ((∀ e ∈ es, e.start ≠ offset) → StartsOpen word old) ∧
        ∀ e ∈ es, e.start = offset → StartsOpen word e.new := by
  rcases following_cases offset old es with ⟨kept, apart⟩ | ⟨e, member, start, new⟩
  · rw [kept]
    refine ⟨fun opened => ⟨fun _ => opened, fun e member here => ?_⟩, fun both => both.1 apart⟩
    exact absurd here (apart e member)
  · rw [new]
    refine ⟨fun opened => ⟨fun apart => absurd start (apart e member), ?_⟩,
      fun both => both.2 e member start⟩
    intro e' among here
    rw [ordered.eq_of_touching proper among member (.inr (here.trans start.symm))]
    exact opened

theorem containsBeside_iff {word : Char → Bool} (ordered : Ordered text pos es)
    (proper : ∀ e ∈ es, e.start < e.stop) (nonempty : value ≠ []) :
    ContainsBeside word es value text ↔ ∃ offset, LeftAt word es value text offset := by
  have split (offset : Nat) (inside : offset ≤ text.length) :
      (value <+: text.drop offset ∧ Clear es (text.take offset).length value ∧
        EndsOpen word (preceding (text.take offset).length (text.take offset) es) ∧
        StartsOpen word (following ((text.take offset).length + value.length)
          (text.drop (offset + value.length)) es)) ↔ LeftAt word es value text offset := by
    rw [List.length_take_of_le inside, endsOpen_preceding_iff ordered proper,
      startsOpen_following_iff ordered proper]
    constructor
    · rintro ⟨stands, clear, ⟨opens, behind⟩, closes, before⟩
      exact ⟨stands, clear, opens, closes, behind, before⟩
    · intro left
      exact ⟨left.stands, left.clear, ⟨left.opens, left.behind⟩, left.closes, left.before⟩
  rw [ContainsBeside, exists_copy_iff (P := fun front back => Clear es front.length value ∧
    EndsOpen word (preceding front.length front es) ∧
      StartsOpen word (following (front.length + value.length) back es))]
  constructor
  · rintro ⟨offset, inside, left⟩
    exact ⟨offset, (split offset (Nat.le_of_lt_succ (List.mem_range.mp inside))).mp left⟩
  · rintro ⟨offset, left⟩
    -- what is not empty stands inside the text
    have inside : offset < text.length := by
      have width := left.stands.length_le
      have some := List.length_pos_iff.mpr nonempty
      rw [List.length_drop] at width
      omega
    exact ⟨offset, List.mem_range.mpr (by omega), (split offset (Nat.le_of_lt inside)).mpr left⟩

/-! ## Deciding what is left -/

instance (word : Char → Bool) (front : Text) : Decidable (EndsOpen word front) :=
  Option.decidableForallMem (p := fun c => word c = false) front.getLast?

instance (word : Char → Bool) (back : Text) : Decidable (StartsOpen word back) :=
  Option.decidableForallMem (p := fun c => word c = false) back.head?

instance (stretches : List Stretch) (front value : Text) :
    Decidable (Outside stretches front value) := inferInstanceAs (Decidable (∀ s ∈ stretches, _))

instance (es : List Edit) (offset : Nat) (value : Text) : Decidable (Clear es offset value) :=
  inferInstanceAs (Decidable (∀ e ∈ es, _))

instance (word : Char → Bool) (stretches : List Stretch) (value text : Text) :
    Decidable (Contains word stretches value text) := decidable_of_iff _ exists_copy_iff.symm

instance (word : Char → Bool) (es : List Edit) (value text : Text) :
    Decidable (ContainsBeside word es value text) := decidable_of_iff _ exists_copy_iff.symm

end Edit

end RedactGate.Library
