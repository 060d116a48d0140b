import RedactGate.Library.Edits

/-!
# Copies in an edited text

Where a text stands in another one between characters that are not word characters. An
edited text has, outside what was put in, the copies that the pieces between the edits
have, and so has the text before, if an edit counts as a delimiter there.
-/
namespace RedactGate.Library

variable (word : Char → Bool)

/-- The text does not end in a word character. -/
def EndsOpen (front : Text) : Prop := ∀ c, front.getLast? = some c → word c = false

/-- The text does not begin with a word character. -/
def StartsOpen (back : Text) : Prop := ∀ c, back.head? = some c → word c = false

/-- A copy in a piece of a text, with the ends of the piece as delimiters. -/
def Within (value piece : Text) : Prop :=
  ∃ front back, piece = front ++ value ++ back ∧ EndsOpen word front ∧ StartsOpen word back

/-- The copy behind `front` meets none of the stretches. -/
def Outside (stretches : List Stretch) (front value : Text) : Prop :=
  ∀ s ∈ stretches, front.length + value.length ≤ s.1 ∨ s.2 ≤ front.length

/-- A delimited copy outside the stretches. -/
def Contains (stretches : List Stretch) (value text : Text) : Prop :=
  ∃ front back, text = front ++ value ++ back ∧ Outside stretches front value ∧
    EndsOpen word front ∧ StartsOpen word back

/-- The text has a copy of the value outside the stretches, delimited on each side by a boundary or
by a stretch. -/
def ContainsBetween (stretches : List Stretch) (value text : Text) : Prop :=
  ∃ front back, text = front ++ value ++ back ∧ Outside stretches front value ∧
    (EndsOpen word front ∨ ∃ s ∈ stretches, s.2 = front.length) ∧
    (StartsOpen word back ∨ ∃ s ∈ stretches, s.1 = front.length + value.length)

variable {word}

theorem endsOpen_nil : EndsOpen word [] := fun _ last => nomatch last

theorem startsOpen_nil : StartsOpen word [] := fun _ head => nomatch head

theorem EndsOpen.of_append {front rest : Text} (opened : EndsOpen word (front ++ rest))
    (some : rest ≠ []) : EndsOpen word rest := fun c last =>
  opened c (by rw [List.getLast?_append_of_ne_nil _ some, last])

theorem EndsOpen.append {rest : Text} (front : Text) (opened : EndsOpen word rest)
    (some : rest ≠ []) : EndsOpen word (front ++ rest) := fun c last =>
  opened c (by rwa [List.getLast?_append_of_ne_nil _ some] at last)

theorem StartsOpen.of_append {back rest : Text} (opened : StartsOpen word (back ++ rest))
    (some : back ≠ []) : StartsOpen word back := fun c head =>
  opened c (by rw [List.head?_append_of_ne_nil _ some, head])

theorem StartsOpen.append {back : Text} (rest : Text) (opened : StartsOpen word back)
    (some : back ≠ []) : StartsOpen word (back ++ rest) := fun c head =>
  opened c (by rwa [List.head?_append_of_ne_nil _ some] at head)

/-- A part of an open beginning is open, empty or not. -/
theorem StartsOpen.front {back rest : Text} (opened : StartsOpen word (back ++ rest)) :
    StartsOpen word back := by
  by_cases empty : back = []
  · rw [empty]
    exact startsOpen_nil
  · exact opened.of_append empty

theorem EndsOpen.back {front rest : Text} (opened : EndsOpen word (front ++ rest)) :
    EndsOpen word rest := by
  by_cases empty : rest = []
  · rw [empty]
    exact endsOpen_nil
  · exact opened.of_append empty

/-- A text begins with one run of word characters: two splits at which the word characters end are
the same split. -/
theorem StartsOpen.split_eq {u v u' v' : Text} (opened : StartsOpen word v)
    (opened' : StartsOpen word v') (all : ∀ c ∈ u, word c = true)
    (all' : ∀ c ∈ u', word c = true) (same : u ++ v = u' ++ v') : u = u' ∧ v = v' := by
  -- a text that starts open cannot begin with a word character
  have stops {c : Char} {rest v : Text} (opened : StartsOpen word v) (word' : word c = true) :
      v ≠ c :: rest := by
    rintro rfl
    exact absurd (word'.symm.trans (opened c rfl)) (by decide)
  induction u generalizing u' with
  | nil =>
    cases u' with
    | nil => exact ⟨rfl, same⟩
    | cons c u' => exact absurd same (stops opened (all' c List.mem_cons_self))
  | cons c u ih =>
    cases u' with
    | nil => exact absurd same.symm (stops opened' (all c List.mem_cons_self))
    | cons c' u' =>
      obtain ⟨rfl, tails⟩ := List.cons.inj same
      obtain ⟨rfl, rest⟩ := ih (List.forall_mem_cons.mp all).2 (List.forall_mem_cons.mp all').2 tails
      exact ⟨rfl, rest⟩

namespace Edit

/-- The stretches of the edited text where the new texts stand, counted from where the edits begin. -/
def inserted (pos : Nat) : List Edit → List Stretch
  | [] => []
  | e :: es =>
    let stop := e.start - pos + e.new.length
    (e.start - pos, stop) :: (inserted e.stop es).map fun s => (s.1 + stop, s.2 + stop)

/-- What an edit puts in is not empty and has boundaries at both ends, so that it delimits what
stands beside it. -/
structure Delimits (word : Char → Bool) (e : Edit) : Prop where
  some : e.new ≠ []
  starts : StartsOpen word e.new
  ends : EndsOpen word e.new

/-- An appended text is split at a copy that lies in its first part: the rest of the first part
belongs to what follows. -/
theorem split_left {front value back first rest : Text}
    (same : front ++ value ++ back = first ++ rest)
    (within : front.length + value.length ≤ first.length) :
    ∃ more, first = front ++ value ++ more ∧ back = more ++ rest := by
  rcases List.append_eq_append_iff.mp same with ⟨more, rfl, rfl⟩ | ⟨more, eq, rfl⟩
  · exact ⟨more, rfl, rfl⟩
  · have lengths := congrArg List.length eq
    simp only [List.length_append] at lengths
    obtain rfl : more = [] := List.length_eq_zero_iff.mp (by omega)
    exact ⟨[], by simpa using eq.symm, rfl⟩

/-- An appended text is split at a copy that lies behind its first part, which belongs to what
stands before the copy. -/
theorem split_right {front value back first rest : Text}
    (same : front ++ value ++ back = first ++ rest) (behind : first.length ≤ front.length) :
    ∃ more, front = first ++ more ∧ rest = more ++ value ++ back := by
  rw [List.append_assoc] at same
  rcases List.append_eq_append_iff.mp same with ⟨more, rfl, eq⟩ | ⟨more, rfl, rfl⟩
  · rw [List.length_append] at behind
    obtain rfl : more = [] := List.length_eq_zero_iff.mp (by omega)
    exact ⟨[], by simp, by simpa using eq.symm⟩
  · exact ⟨more, rfl, by rw [List.append_assoc]⟩

/-- The copies of a value in an edited text, outside what was put in, are those in the pieces
between the edits, if what is put in begins and ends with boundaries. -/
theorem contains_patch_iff {text value : Text} {pos : Nat} {es : List Edit}
    (ordered : Ordered text pos es) (delimits : ∀ e ∈ es, e.Delimits word) :
    Contains word (inserted pos es) value (patch text pos es) ↔
      ∃ piece ∈ pieces text pos (es.map stretch), Within word value piece := by
  induction es generalizing pos with
  | nil => simp [Contains, Outside, inserted, patch, pieces, Within]
  | cons e es ih =>
    obtain ⟨before, proper, rest⟩ := ordered
    have inside := rest.le_length
    have width : (text.slice pos e.start).length = e.start - pos := Text.length_slice (by omega)
    obtain ⟨new_some, starts, ends⟩ := delimits e List.mem_cons_self
    have ih := ih rest fun e' member => delimits e' (List.mem_cons_of_mem _ member)
    have later : (∃ piece ∈ pieces text pos ((e :: es).map stretch), Within word value piece) ↔
        Within word value (text.slice pos e.start) ∨
          Contains word (inserted e.stop es) value (patch text e.stop es) := by
      rw [ih]
      simp [pieces, stretch]
    rw [later]
    constructor
    · rintro ⟨front, back, same, outside, opens, closes⟩
      rw [patch, List.append_assoc] at same
      -- in front of the first new text, or behind it
      rcases outside _ List.mem_cons_self with left | right
      · obtain ⟨more, piece, rfl⟩ := split_left same.symm (by rw [width]; exact left)
        exact .inl ⟨front, more, piece, opens, closes.front⟩
      · rw [← List.append_assoc] at same
        obtain ⟨more, rfl, tail⟩ := split_right same.symm (by
          rw [List.length_append, width]; exact right)
        refine .inr ⟨more, back, tail, fun s member => ?_, opens.back, closes⟩
        have apart := outside _ (List.mem_cons_of_mem _ (List.mem_map_of_mem member))
        simp only [List.length_append, width] at apart
        omega
    · rintro (⟨front, more, piece, opens, closes⟩ | ⟨more, back, tail, outside, opens, closes⟩)
      · have length := congrArg List.length piece
        simp only [List.length_append, width] at length
        refine ⟨front, more ++ (e.new ++ patch text e.stop es), ?_, fun s member => ?_, opens, ?_⟩
        · rw [patch, piece]
          simp only [List.append_assoc]
        · rcases List.mem_cons.mp member with rfl | member
          · left
            simp only
            omega
          · obtain ⟨s, _, rfl⟩ := List.mem_map.mp member
            left
            simp only
            omega
        -- a copy at the end of the piece has the new text for its neighbour, which delimits it
        · by_cases empty : more = []
          · rw [empty]
            exact starts.append _ new_some
          · exact closes.append _ empty
      · refine ⟨text.slice pos e.start ++ e.new ++ more, back, ?_, fun s member => ?_, ?_, closes⟩
        · rw [patch, tail]
          simp only [List.append_assoc]
        · rcases List.mem_cons.mp member with rfl | member
          · right
            simp only [List.length_append, width]
            omega
          · obtain ⟨s, among, rfl⟩ := List.mem_map.mp member
            have apart := outside s among
            simp only [List.length_append, width]
            omega
        · by_cases empty : more = []
          · rw [empty, List.append_nil]
            exact ends.append _ new_some
          · exact opens.append _ empty

theorem Ordered.bounds {text : Text} {pos : Nat} {es : List Edit} (ordered : Ordered text pos es) :
    ∀ e ∈ es, pos ≤ e.start ∧ e.start ≤ e.stop := by
  induction es generalizing pos with
  | nil => simp
  | cons e es ih =>
    obtain ⟨before, proper, rest⟩ := ordered
    intro e' member
    rcases List.mem_cons.mp member with rfl | member
    · exact ⟨before, proper⟩
    · have later := ih rest e' member
      omega

/-- The copies in the text from `pos` on, outside the edits and delimited by characters, by
an edit or by the offset `pos`. -/
def ContainsFrom (word : Char → Bool) (pos : Nat) (es : List Edit) (value text : Text) : Prop :=
  ∃ front back, text = front ++ value ++ back ∧ pos ≤ front.length ∧
    Outside (es.map stretch) front value ∧
    (EndsOpen word front ∨ front.length = pos ∨ ∃ e ∈ es, e.stop = front.length) ∧
    (StartsOpen word back ∨ ∃ e ∈ es, e.start = front.length + value.length)

/-- A copy in the piece between two offsets is a copy in the text between these offsets, where an
end of the piece counts as the end of a word. -/
theorem within_slice_iff {text value : Text} {pos stop : Nat} (before : pos ≤ stop)
    (inside : stop ≤ text.length) :
    Within word value (text.slice pos stop) ↔ ∃ front back, text = front ++ value ++ back ∧
      pos ≤ front.length ∧ front.length + value.length ≤ stop ∧
      (EndsOpen word front ∨ front.length = pos) ∧
      (StartsOpen word back ∨ front.length + value.length = stop) := by
  have width : (text.slice pos stop).length = stop - pos := Text.length_slice inside
  have first : (text.take pos).length = pos := by
    rw [List.length_take]
    omega
  constructor
  · rintro ⟨front, back, piece, opens, closes⟩
    have length := congrArg List.length piece
    simp only [List.length_append, width] at length
    have whole : text.take pos ++ text.slice pos stop ++ text.drop stop = text :=
      Text.take_append_slice_append_drop before
    refine ⟨text.take pos ++ front, back ++ text.drop stop, ?_, ?_, ?_, ?_, ?_⟩
    · rw [piece] at whole
      simp only [List.append_assoc] at whole ⊢
      exact whole.symm
    · rw [List.length_append, first]
      omega
    · rw [List.length_append, first]
      omega
    -- what stands beside the copy is in the piece, or the copy stands at its end
    · by_cases empty : front = []
      · right
        rw [empty, List.append_nil, first]
      · exact .inl (opens.append _ empty)
    · by_cases empty : back = []
      · right
        rw [empty, List.length_nil] at length
        rw [List.length_append, first]
        omega
      · exact .inl (closes.append _ empty)
  · rintro ⟨front, back, same, behind, left, opens, closes⟩
    have taken : (text.take stop).length = stop := by
      rw [List.length_take]
      omega
    have split : front ++ value ++ back = text.take stop ++ text.drop stop := by
      rw [List.take_append_drop, same]
    obtain ⟨more, piece, rfl⟩ := split_left split (by omega)
    have length := congrArg List.length piece
    simp only [List.length_append, taken] at length
    refine ⟨front.drop pos, more, ?_, ?_, ?_⟩
    · rw [Text.slice, piece, List.append_assoc, List.drop_append_of_le_length behind,
        List.append_assoc]
    · rcases opens with opens | at_pos
      · rw [← List.take_append_drop pos front] at opens
        exact opens.back
      · rw [List.drop_of_length_le (by omega)]
        exact endsOpen_nil
    · rcases closes with closes | at_stop
      · exact closes.front
      · obtain rfl : more = [] := List.length_eq_zero_iff.mp (by omega)
        exact startsOpen_nil

/-- The copies of a value in the text before, clear of the edits, are those in the pieces between
the edits too, so that both texts can be compared piece by piece. -/
theorem containsFrom_iff {text value : Text} (nonempty : value ≠ []) {pos : Nat} {es : List Edit}
    (ordered : Ordered text pos es) :
    ContainsFrom word pos es value text ↔
      ∃ piece ∈ pieces text pos (es.map stretch), Within word value piece := by
  have long : 0 < value.length := List.length_pos_iff.mpr nonempty
  -- on the edits; the offset up to which the text is done is the end of the last one
  induction es generalizing pos with
  | nil =>
    have whole : text.drop pos = text.slice pos text.length := by
      rw [Text.slice, List.take_length]
    simp only [List.map_nil, pieces, List.mem_singleton, exists_eq_left]
    rw [whole, within_slice_iff ordered (Nat.le_refl _)]
    constructor
    · rintro ⟨front, back, same, behind, _, opens, closes⟩
      have length := congrArg List.length same
      simp only [List.length_append] at length
      refine ⟨front, back, same, behind, by omega, by simpa using opens, .inl ?_⟩
      simpa using closes
    · rintro ⟨front, back, same, behind, _, opens, closes⟩
      have length := congrArg List.length same
      simp only [List.length_append] at length
      have outside : Outside ([].map stretch) front value := fun _ member =>
        absurd member List.not_mem_nil
      refine ⟨front, back, same, behind, outside, ?_, .inl ?_⟩
      · rcases opens with opens | at_pos
        · exact .inl opens
        · exact .inr (.inl at_pos)
      · rcases closes with closes | at_end
        · exact closes
        · obtain rfl : back = [] := List.length_eq_zero_iff.mp (by omega)
          exact startsOpen_nil
  | cons e es ih =>
    have bounds := ordered.bounds
    obtain ⟨before, proper, rest⟩ := ordered
    have later : (∃ piece ∈ pieces text pos ((e :: es).map stretch), Within word value piece) ↔
        Within word value (text.slice pos e.start) ∨ ContainsFrom word e.stop es value text := by
      simp [pieces, stretch, ih rest]
    have inside := rest.le_length
    have starts_later : ∀ e' ∈ e :: es, e.start ≤ e'.start ∧ e'.start ≤ e'.stop := by
      intro e' member
      rcases List.mem_cons.mp member with rfl | member
      · exact ⟨Nat.le_refl _, proper⟩
      · have bound := rest.bounds e' member
        omega
    rw [later, within_slice_iff before (by omega)]
    constructor
    · rintro ⟨front, back, same, behind, outside, opens, closes⟩
      have apart := outside _ List.mem_cons_self
      simp only [stretch] at apart
      rcases apart with left | right
      · -- left of the first edit no edit ends, and only the first one can begin there
        left
        refine ⟨front, back, same, behind, left, ?_, ?_⟩
        · rcases opens with opens | at_pos | ⟨e', member, stops⟩
          · exact .inl opens
          · exact .inr at_pos
          · have later := starts_later e' member
            omega
        · rcases closes with closes | ⟨e', member, starts⟩
          · exact .inl closes
          · have later := starts_later e' member
            omega
      · right
        refine ⟨front, back, same, right, fun s member => outside s (List.mem_cons_of_mem _ member),
          ?_, ?_⟩
        · rcases opens with opens | at_pos | ⟨e', member, stops⟩
          · exact .inl opens
          · have bound := bounds e List.mem_cons_self
            exact .inr (.inl (by omega))
          · rcases List.mem_cons.mp member with rfl | member
            · exact .inr (.inl stops.symm)
            · exact .inr (.inr ⟨e', member, stops⟩)
        · rcases closes with closes | ⟨e', member, starts⟩
          · exact .inl closes
          · rcases List.mem_cons.mp member with rfl | member
            · omega
            · exact .inr ⟨e', member, starts⟩
    · rintro (⟨front, back, same, behind, left, opens, closes⟩ |
        ⟨front, back, same, behind, outside, opens, closes⟩)
      · refine ⟨front, back, same, behind, fun s member => ?_, ?_, ?_⟩
        · obtain ⟨e', among, rfl⟩ := List.mem_map.mp member
          have later := starts_later e' among
          simp only [stretch]
          omega
        · rcases opens with opens | at_pos
          · exact .inl opens
          · exact .inr (.inl at_pos)
        · rcases closes with closes | at_start
          · exact .inl closes
          · exact .inr ⟨e, List.mem_cons_self, at_start.symm⟩
      · refine ⟨front, back, same, by omega, fun s member => ?_, ?_, ?_⟩
        · rcases List.mem_cons.mp member with rfl | member
          · exact .inr behind
          · exact outside s member
        · rcases opens with opens | at_stop | ⟨e', member, stops⟩
          · exact .inl opens
          · exact .inr (.inr ⟨e, List.mem_cons_self, at_stop.symm⟩)
          · exact .inr (.inr ⟨e', List.mem_cons_of_mem _ member, stops⟩)
        · rcases closes with closes | ⟨e', member, starts⟩
          · exact .inl closes
          · exact .inr ⟨e', List.mem_cons_of_mem _ member, starts⟩

/-- An edited text has a copy outside what was put in if and only if the text has one
outside the edits, an edit being a delimiter. -/
theorem contains_patch_iff_between {text value : Text} (nonempty : value ≠ []) {es : List Edit}
    (ordered : Ordered text 0 es) (delimits : ∀ e ∈ es, e.Delimits word) :
    Contains word (inserted 0 es) value (patch text 0 es) ↔
      ContainsBetween word (es.map stretch) value text := by
  rw [contains_patch_iff ordered delimits, ← containsFrom_iff nonempty ordered]
  constructor
  -- position zero, where the scan starts, is open as the beginning of the text is
  · rintro ⟨front, back, same, _, outside, opens, closes⟩
    refine ⟨front, back, same, outside, ?_, closes.imp_right ?_⟩
    · rcases opens with opens | at_start | ⟨e, member, stops⟩
      · exact .inl opens
      · rw [List.length_eq_zero_iff.mp at_start]
        exact .inl endsOpen_nil
      · exact .inr ⟨e.stretch, List.mem_map_of_mem member, stops⟩
    · rintro ⟨e, member, starts⟩
      exact ⟨e.stretch, List.mem_map_of_mem member, starts⟩
  · rintro ⟨front, back, same, outside, opens, closes⟩
    refine ⟨front, back, same, Nat.zero_le _, outside, ?_, closes.imp_right ?_⟩
    · rcases opens with opens | ⟨s, member, stops⟩
      · exact .inl opens
      · obtain ⟨e, among, rfl⟩ := List.mem_map.mp member
        exact .inr (.inr ⟨e, among, stops⟩)
    · rintro ⟨s, member, starts⟩
      obtain ⟨e, among, rfl⟩ := List.mem_map.mp member
      exact ⟨e, among, starts⟩

end Edit

end RedactGate.Library
