import RedactGate.Desktop.Replacements

/-!
# Text spread over nodes

The office formats cut the text of a paragraph into runs. A replacement is found on the joined
text and written back to the runs: its new text goes into the run where it starts, and the
rest of the stretch is cut from the runs behind.
-/
namespace RedactGate.Desktop

open Library

/-- The nodes behind the first one of a replacement, the first of which starts at `pos`. -/
def cutNodes (stop pos : Nat) : List Text → List Text
  | [] => []
  | t :: texts =>
    if stop ≤ pos then t :: texts
    else t.drop (min (stop - pos) t.length) :: cutNodes stop (pos + t.length) texts

/-- One replacement, on nodes of which the first starts at `pos`. Nothing changes where no
node holds the start of the replacement, or where it ends before the node that does. -/
def putInNodes (r : Edit) (pos : Nat) : List Text → List Text
  | [] => []
  | t :: texts =>
    if pos ≤ r.start ∧ r.start < pos + t.length then
      if r.stop ≤ pos then t :: texts
      else (t.take (r.start - pos) ++ r.new ++ t.drop (min (r.stop - pos) t.length)) ::
        cutNodes r.stop (pos + t.length) texts
    else t :: putInNodes r (pos + t.length) texts

/-- `_apply_to_nodes`. -/
def applyToNodes (texts : List Text) (reps : List Edit) : List Text :=
  (reps.insertionSort fun a b => b.start ≤ a.start).foldl (fun texts r => putInNodes r 0 texts)
    texts

/-! ## One replacement -/

theorem drop_min_length (t : Text) (n : Nat) : t.drop (min n t.length) = t.drop n := by
  rcases Nat.le_total n t.length with le | le
  · rw [Nat.min_eq_left le]
  · rw [Nat.min_eq_right le, List.drop_length, List.drop_of_length_le le]

theorem flatten_cutNodes (stop pos : Nat) (texts : List Text) :
    (cutNodes stop pos texts).flatten = texts.flatten.drop (stop - pos) := by
  induction texts generalizing pos with
  | nil => rw [cutNodes, List.flatten_nil, List.drop_nil]
  | cons t texts ih =>
    rw [cutNodes]
    split
    · rename_i ended
      rw [Nat.sub_eq_zero_of_le ended, List.drop_zero]
    · rw [List.flatten_cons, List.flatten_cons, ih, drop_min_length, List.drop_append,
        Nat.sub_add_eq]

theorem length_cutNodes (stop pos : Nat) (texts : List Text) :
    (cutNodes stop pos texts).length = texts.length := by
  induction texts generalizing pos with
  | nil => rfl
  | cons t texts ih =>
    rw [cutNodes]
    split
    · rfl
    · rw [List.length_cons, ih, List.length_cons]

theorem length_putInNodes (r : Edit) (pos : Nat) (texts : List Text) :
    (putInNodes r pos texts).length = texts.length := by
  induction texts generalizing pos with
  | nil => rfl
  | cons t texts ih =>
    rw [putInNodes]
    split
    · split
      · rfl
      · rw [List.length_cons, length_cutNodes, List.length_cons]
    · rw [List.length_cons, ih, List.length_cons]

/-- What `_apply_to_nodes` does for one replacement with a proper span is, on the joined text of the
nodes, the replacement itself; which node the new text goes into does not show. -/
theorem flatten_putInNodes {r : Edit} {pos : Nat} {texts : List Text} (proper : r.start < r.stop)
    (later : pos ≤ r.start) (inside : r.start < pos + texts.flatten.length) :
    (putInNodes r pos texts).flatten =
      texts.flatten.take (r.start - pos) ++ r.new ++ texts.flatten.drop (r.stop - pos) := by
  induction texts generalizing pos with
  | nil =>
    rw [List.flatten_nil, List.length_nil] at inside
    omega
  | cons t texts ih =>
    rw [putInNodes]
    split
    -- the edit starts in this node and may reach over later ones
    · rename_i here
      have short : r.start - pos ≤ t.length := by omega
      rw [if_neg (by omega), List.flatten_cons, List.flatten_cons, flatten_cutNodes, drop_min_length,
        List.take_append_of_le_length short, List.drop_append, Nat.sub_add_eq]
      simp only [List.append_assoc]
    -- the node lies before the edit and is left as it is
    · rename_i elsewhere
      have behind : pos + t.length ≤ r.start := by omega
      have whole : t.length ≤ r.start - pos := by omega
      have whole' : t.length ≤ r.stop - pos := by omega
      rw [List.flatten_cons, List.length_append, ← Nat.add_assoc] at inside
      rw [List.flatten_cons, List.flatten_cons, ih behind inside, List.take_append,
        List.drop_append, List.take_of_length_le whole, List.drop_of_length_le whole',
        List.nil_append, Nat.sub_add_eq, Nat.sub_add_eq]
      simp only [List.append_assoc]

/-! ## Nodes before and behind -/

/-- Nodes in front of the replacement stay as they are, and the others are handled with their own
offsets. -/
theorem putInNodes_append {r : Edit} {pos : Nat} {front : List Text}
    (behind : pos + front.flatten.length ≤ r.start) (texts : List Text) :
    putInNodes r pos (front ++ texts) =
      front ++ putInNodes r (pos + front.flatten.length) texts := by
  induction front generalizing pos with
  | nil => rfl
  | cons t front ih =>
    rw [List.flatten_cons, List.length_append, ← Nat.add_assoc] at behind ⊢
    have past : ¬(pos ≤ r.start ∧ r.start < pos + t.length) := by omega
    rw [List.cons_append, putInNodes, if_neg past, ih behind, List.cons_append]

/-- Nodes behind the stretch are not cut. -/
theorem cutNodes_of_le {stop pos : Nat} (ended : stop ≤ pos) (texts : List Text) :
    cutNodes stop pos texts = texts := by
  cases texts with
  | nil => rfl
  | cons t texts => exact if_pos ended

theorem cutNodes_append (stop pos : Nat) (front texts : List Text) :
    cutNodes stop pos (front ++ texts) =
      cutNodes stop pos front ++ cutNodes stop (pos + front.flatten.length) texts := by
  induction front generalizing pos with
  | nil => rfl
  | cons t front ih =>
    rw [List.flatten_cons, List.length_append, ← Nat.add_assoc, List.cons_append, cutNodes,
      cutNodes]
    split
    · rename_i ended
      rw [cutNodes_of_le (by omega), List.cons_append]
    · rw [ih, List.cons_append]

/-- Where the replacement begins in one of the first nodes, the new text goes into this node, and of
the nodes behind them only what the span covers is cut. -/
theorem putInNodes_append_of_lt {r : Edit} {pos : Nat} {front : List Text}
    (later : pos ≤ r.start) (inside : r.start < pos + front.flatten.length)
    (texts : List Text) :
    putInNodes r pos (front ++ texts) =
      putInNodes r pos front ++ cutNodes r.stop (pos + front.flatten.length) texts := by
  induction front generalizing pos with
  | nil =>
    have inside : r.start < pos := inside
    omega
  | cons t front ih =>
    rw [List.flatten_cons, List.length_append, ← Nat.add_assoc] at inside
    rw [List.flatten_cons, List.length_append, ← Nat.add_assoc, List.cons_append, putInNodes,
      putInNodes]
    -- the edit starts in this node and ends in it, or runs on, or starts further on
    split
    · split
      · rename_i ended
        rw [cutNodes_of_le (by omega), List.cons_append]
      · rw [cutNodes_append, List.cons_append]
    · rename_i elsewhere
      rw [ih (by omega) inside, List.cons_append]

/-- The replacement reaches into the stretch. -/
def Meets (r : Edit) (start stop : Nat) : Prop := max r.start start < min r.stop stop

instance (r : Edit) (start stop : Nat) : Decidable (Meets r start stop) :=
  inferInstanceAs (Decidable (_ < _))

/-- A node that the replacement does not reach into stays, and what stands before it is as
long as the text before the replacement at least. -/
theorem putInNodes_missed {r : Edit} (proper : r.start < r.stop) {front : List Text} {node : Text}
    (missed : ¬Meets r front.flatten.length (front.flatten.length + node.length))
    (back : List Text) :
    ∃ front' back', putInNodes r 0 (front ++ node :: back) = front' ++ node :: back' ∧
      front'.length = front.length ∧ (front' = front ∨ r.start ≤ front'.flatten.length) := by
  rw [Meets] at missed
  -- the edit ends before the node, or starts behind it
  by_cases inside : r.start < front.flatten.length
  · refine ⟨putInNodes r 0 front,
      cutNodes r.stop (front.flatten.length + node.length) back, ?_, length_putInNodes r 0 front,
      .inr ?_⟩
    · rw [putInNodes_append_of_lt (Nat.zero_le _) (by omega), Nat.zero_add, cutNodes]
      split
      · rename_i ended
        rw [cutNodes_of_le (by omega)]
      · -- the stretch reaches over the node, which is empty then
        have empty : node = [] := List.length_eq_zero_iff.mp (by omega)
        rw [empty, List.drop_nil]
    · rw [flatten_putInNodes proper (Nat.zero_le _) (by omega), Nat.sub_zero, List.length_append,
        List.length_append, List.length_take_of_le (by omega)]
      omega
  · refine ⟨front, putInNodes r (front.flatten.length + node.length) back, ?_, rfl, .inl rfl⟩
    have past : ¬(front.flatten.length ≤ r.start ∧
        r.start < front.flatten.length + node.length) := by omega
    rw [putInNodes_append (by omega), Nat.zero_add, putInNodes, if_neg past]

/-! ## All replacements -/

/-- Replacements from the last to the first, all of them in a text of the given length. -/
structure Descending (length : Nat) (reps : List Edit) : Prop where
  apart : reps.Pairwise fun a b => b.stop ≤ a.start
  proper : ∀ r ∈ reps, r.start < r.stop ∧ r.stop ≤ length

/-- What a replacement leaves is long enough for the others. -/
theorem Descending.tail {length : Nat} {r : Edit} {reps : List Edit}
    (descending : Descending length (r :: reps)) {length' : Nat} (le : r.start ≤ length') :
    Descending length' reps where
  apart := descending.apart.of_cons
  proper := fun r' member =>
    ⟨(descending.proper r' (List.mem_cons_of_mem _ member)).1,
      Nat.le_trans (List.rel_of_pairwise_cons descending.apart member) le⟩

theorem flatten_foldl_putInNodes {texts : List Text} {reps : List Edit}
    (descending : Descending texts.flatten.length reps) :
    (reps.foldl (fun texts r => putInNodes r 0 texts) texts).flatten =
      reps.foldl (fun out r => r.splice out) texts.flatten := by
  induction reps generalizing texts with
  | nil => rfl
  | cons r reps ih =>
    have bounds := descending.proper r List.mem_cons_self
    have step : (putInNodes r 0 texts).flatten = r.splice texts.flatten :=
      flatten_putInNodes bounds.1 (Nat.zero_le _) (by omega)
    have long : r.start ≤ (putInNodes r 0 texts).flatten.length := by
      rw [step, Edit.splice, Text.splice, List.length_append, List.length_append,
        List.length_take_of_le (by omega)]
      omega
    rw [List.foldl_cons, ih (descending.tail long), step, List.foldl_cons]

theorem length_foldl_putInNodes (texts : List Text) (reps : List Edit) :
    (reps.foldl (fun texts r => putInNodes r 0 texts) texts).length = texts.length := by
  induction reps generalizing texts with
  | nil => rfl
  | cons r reps ih => rw [List.foldl_cons, ih, length_putInNodes]

theorem foldl_putInNodes_missed {length : Nat} {reps : List Edit}
    (descending : Descending length reps) {front : List Text} {node : Text}
    (missed : ∀ r ∈ reps, ¬Meets r front.flatten.length (front.flatten.length + node.length))
    (back : List Text) :
    ∃ front' back', reps.foldl (fun texts r => putInNodes r 0 texts) (front ++ node :: back) =
      front' ++ node :: back' ∧ front'.length = front.length := by
  induction reps generalizing front back with
  | nil => exact ⟨front, back, rfl, rfl⟩
  | cons r reps ih =>
    have bounds := descending.proper r List.mem_cons_self
    obtain ⟨front', back', eq, len, still⟩ :=
      putInNodes_missed bounds.1 (missed r List.mem_cons_self) back
    have missed' : ∀ r' ∈ reps,
        ¬Meets r' front'.flatten.length (front'.flatten.length + node.length) := by
      intro r' member
      rcases still with rfl | long
      · exact missed r' (List.mem_cons_of_mem _ member)
      · -- the others end before the place of the replacement, and the node is behind it
        have before := List.rel_of_pairwise_cons descending.apart member
        rw [Meets]
        omega
    obtain ⟨front'', back'', eq', len'⟩ :=
      ih (descending.tail (by omega)) missed' back'
    exact ⟨front'', back'', by rw [List.foldl_cons, eq, eq'], len'.trans len⟩

end RedactGate.Desktop
