import RedactGate.Library.Scan

/-!
# Rows of groups

A word boundary lets a pattern begin and end only where a group of word characters does, so
an identifier that is written in groups is a row of whole groups with one character between
two of them. The blocks of which a pattern is made tell where these characters may stand.
-/
namespace RedactGate.Library

/-- A row is divided into groups of word characters, with a single joining character, which is no
word character, between two of them. -/
inductive SplitsInto (isWord joins : Char → Bool) : Text → List Text → Prop
  | last {c : Char} (inner : isWord c = true) : SplitsInto isWord joins [c] [[c]]
  | word {c : Char} {text group : Text} {groups : List Text} (inner : isWord c = true)
    (rest : SplitsInto isWord joins text (group :: groups)) :
    SplitsInto isWord joins (c :: text) ((c :: group) :: groups)
  | join {c s : Char} {text : Text} {groups : List Text} (inner : isWord c = true)
    (joined : joins s = true) (outer : isWord s = false)
    (rest : SplitsInto isWord joins text groups) :
    SplitsInto isWord joins (c :: s :: text) ([c] :: groups)

/-- All groups but the last are made of blocks of one length, and the last one has at least
`tail` characters. -/
def cutBy (block tail : Nat) : List Text → Bool
  | [] => false
  | [group] => decide (tail ≤ group.length)
  | group :: groups => decide (group.length % block = 0) && cutBy block tail groups

/-- How an identifier is written: what joins two groups, how the groups are cut, and what
their characters are together. -/
structure Layout where
  joins : Char → Bool
  block : Nat
  tail : Nat
  fits : Text → Bool

namespace Layout

variable (isWord : Char → Bool) (layout : Layout)

/-- The text is a row of groups in the layout. -/
def Accepts (row : Text) : Prop :=
  ∃ groups, SplitsInto isWord layout.joins row groups ∧
    cutBy layout.block layout.tail groups = true ∧ layout.fits groups.flatten = true

/-- A row of whole groups that the layout accepts stands in the part `[i, j)` of a text, with no
word character on either side. -/
structure RowAt (text : Text) (i j : Nat) : Prop where
  ordered : i ≤ j
  inside : j ≤ text.length
  front : (text.take i).getLast?.any isWord = false
  back : (text.drop j).head?.any isWord = false
  row : layout.Accepts isWord (text.slice i j)

/-- The longest row that starts at `i`. -/
def LongestRow (text : Text) (i j : Nat) : Prop :=
  layout.RowAt isWord text i j ∧ ∀ k, layout.RowAt isWord text i k → k ≤ j

end Layout

/-! ## Texts that split into groups -/

section

variable {isWord joins : Char → Bool} {row : Text} {groups : List Text}

/-- The word characters of a row are those of its groups. -/
theorem SplitsInto.filter_eq (spelled : SplitsInto isWord joins row groups) :
    row.filter isWord = groups.flatten := by
  induction spelled with
  | last inner => simp [inner]
  | word inner _ ih => simp [inner, ih]
  | join inner _ outer _ ih => simp [inner, outer, ih]

theorem SplitsInto.head (spelled : SplitsInto isWord joins row groups) :
    row.head?.any isWord = true := by
  cases spelled with
  | last inner => exact inner
  | word inner _ => exact inner
  | join inner _ _ _ => exact inner

theorem SplitsInto.ne_nil (spelled : SplitsInto isWord joins row groups) : row ≠ [] := by
  rintro rfl
  cases spelled.head

theorem SplitsInto.getLast (spelled : SplitsInto isWord joins row groups) :
    row.getLast?.any isWord = true := by
  induction spelled with
  | last inner => exact inner
  | word inner rest ih => rwa [List.getLast?_cons_of_ne_nil rest.ne_nil]
  | join inner _ _ rest ih =>
    rwa [List.getLast?_cons_of_ne_nil (List.cons_ne_nil _ _),
      List.getLast?_cons_of_ne_nil rest.ne_nil]

/-- A row and a longer row with as many characters in its groups are the same row: what would stand
behind the shorter one is empty. -/
theorem SplitsInto.eq_nil_of_append {more : Text} {groups' : List Text}
    (spelled : SplitsInto isWord joins row groups)
    (spelled' : SplitsInto isWord joins (row ++ more) groups')
    (same : groups.flatten.length = groups'.flatten.length) : more = [] := by
  have counted := congrArg List.length spelled'.filter_eq
  rw [List.filter_append, spelled.filter_eq, List.length_append, ← same] at counted
  have none : more.filter isWord = [] := List.length_eq_zero_iff.mp (by omega)
  by_contra some
  -- the longer row would end with a word character
  have ends := spelled'.getLast
  rw [List.getLast?_append_of_ne_nil _ some] at ends
  obtain ⟨c, last, inner⟩ := (Option.any_eq_true _ _).mp ends
  have member := List.mem_filter.mpr ⟨List.mem_of_getLast? last, inner⟩
  rw [none] at member
  cases member

end

/-! ## Blocks -/

/-- Blocks in a row, with at most one joining character before each of them, whatever the blocks
consist of. -/
inductive BlockRow (joins : Char → Bool) : List Text → Text → Prop
  | nil : BlockRow joins [] []
  | cons {sep block rest : Text} {blocks : List Text}
    (free : sep = [] ∨ ∃ c, sep = [c] ∧ joins c = true) (later : BlockRow joins blocks rest) :
    BlockRow joins (block :: blocks) (sep ++ (block ++ rest))

theorem BlockRow.append {joins : Char → Bool} {blocks blocks' : List Text} {rest rest' : Text}
    (first : BlockRow joins blocks rest) (second : BlockRow joins blocks' rest') :
    BlockRow joins (blocks ++ blocks') (rest ++ rest') := by
  induction first with
  | nil => exact second
  | cons free _ ih => simpa using BlockRow.cons free ih

/-- Blocks in a row can be split anywhere between two of them, and the stretch of the row with them. -/
theorem BlockRow.split {joins : Char → Bool} {blocks blocks' : List Text} {rest : Text}
    (follows : BlockRow joins (blocks ++ blocks') rest) :
    ∃ front back, rest = front ++ back ∧ BlockRow joins blocks front ∧
      BlockRow joins blocks' back := by
  induction blocks generalizing rest with
  | nil => exact ⟨[], rest, rfl, .nil, follows⟩
  | cons block blocks ih =>
    cases follows with
    | cons free later =>
      obtain ⟨front, back, rfl, first, second⟩ := ih later
      exact ⟨_, back, by simp, .cons free first, second⟩

theorem length_flatten_of_lengths {blocks : List Text} {k size tail : Nat}
    (lengths : blocks.map List.length = List.replicate k size ++ [tail]) :
    blocks.flatten.length = size * k + tail := by
  rw [List.length_flatten, lengths, List.sum_append, List.sum_replicate_nat, List.sum_singleton,
    Nat.mul_comm]

section

variable {isWord joins : Char → Bool} {row rest group block : Text} {groups blocks : List Text}
  {size tail k : Nat}

theorem SplitsInto.pos_length (spelled : SplitsInto isWord joins row (group :: groups)) :
    0 < group.length := by
  cases spelled with
  | last _ => exact Nat.one_pos
  | word _ _ => exact Nat.succ_pos _
  | join _ _ _ _ => exact Nat.one_pos

theorem not_splitsInto_nil : ¬SplitsInto isWord joins row [] := by
  intro spelled
  cases spelled

/-- Word characters put in front of a row make its first group longer by just these characters. -/
theorem SplitsInto.prepend (spelled : SplitsInto isWord joins row (group :: groups))
    (inner : ∀ c ∈ block, isWord c = true) :
    SplitsInto isWord joins (block ++ row) ((block ++ group) :: groups) := by
  induction block with
  | nil => exact spelled
  | cons c block ih =>
    obtain ⟨here, later⟩ := List.forall_mem_cons.mp inner
    exact .word here (ih later)

theorem splitsInto_group (nonempty : block ≠ []) (inner : ∀ c ∈ block, isWord c = true) :
    SplitsInto isWord joins block [block] := by
  obtain ⟨init, c, rfl⟩ := List.eq_nil_or_concat' block |>.resolve_left nonempty
  obtain ⟨front, here⟩ := List.forall_mem_append.mp inner
  exact SplitsInto.prepend (.last (here c (List.mem_singleton_self c))) front

/-- A group in front of a row, with a joining character between them. -/
theorem SplitsInto.join_group (spelled : SplitsInto isWord joins row groups) (nonempty : block ≠ [])
    (inner : ∀ c ∈ block, isWord c = true) {s : Char} (joined : joins s = true)
    (outer : isWord s = false) : SplitsInto isWord joins (block ++ s :: row) (block :: groups) := by
  obtain ⟨init, c, rfl⟩ := List.eq_nil_or_concat' block |>.resolve_left nonempty
  obtain ⟨front, here⟩ := List.forall_mem_append.mp inner
  have last := SplitsInto.join (here c (List.mem_singleton_self c)) joined outer spelled
  simpa using last.prepend front

/-- A row that is divided into one group only is this group, without any joining character. -/
theorem SplitsInto.eq_of_single (spelled : SplitsInto isWord joins row [group]) : row = group := by
  induction row generalizing group with
  | nil => exact absurd rfl spelled.ne_nil
  | cons c row ih =>
    cases spelled with
    | last _ => rfl
    | word _ rest => rw [ih rest]
    | join _ _ _ rest => exact absurd rest not_splitsInto_nil

/-- A row whose first group is longer than a block begins with a block, and behind it is a row with
the rest of the group. -/
theorem SplitsInto.drop_block (spelled : SplitsInto isWord joins row (group :: groups))
    (longer : size < group.length) :
    row = group.take size ++ row.drop size ∧
      SplitsInto isWord joins (row.drop size) (group.drop size :: groups) := by
  induction size generalizing row group with
  | zero => exact ⟨rfl, spelled⟩
  | succ size ih =>
    cases spelled with
    | last _ => exact absurd longer (by simp)
    | word inner rest =>
      obtain ⟨split, spelled⟩ := ih rest (Nat.lt_of_succ_lt_succ longer)
      exact ⟨congrArg (List.cons _) split, spelled⟩
    | join _ _ _ _ => exact absurd longer (by simp)

/-- Behind the first group of several stands a joining character, and then a row with the other
groups. -/
theorem SplitsInto.drop_group {next : Text}
    (spelled : SplitsInto isWord joins row (group :: next :: groups)) :
    ∃ s rest, row = group ++ s :: rest ∧ joins s = true ∧
      SplitsInto isWord joins rest (next :: groups) := by
  induction row generalizing group with
  | nil => exact absurd rfl spelled.ne_nil
  | cons c row ih =>
    cases spelled with
    | word _ rest =>
      obtain ⟨s, after, split, joined, spelled⟩ := ih rest
      exact ⟨s, after, congrArg (List.cons c) split, joined, spelled⟩
    | join _ joined _ rest => exact ⟨_, _, rfl, joined, rest⟩

theorem cutBy_cons {next : Text} :
    cutBy size tail (group :: next :: groups) = true ↔
      group.length % size = 0 ∧ cutBy size tail (next :: groups) = true := by
  rw [cutBy, Bool.and_eq_true, decide_eq_true_eq]
  rintro ⟨⟩

theorem cutBy_single : cutBy size tail [group] = true ↔ tail ≤ group.length := decide_eq_true_iff

theorem le_of_cutBy (cut : cutBy size tail groups = true) : tail ≤ groups.flatten.length := by
  induction groups with
  | nil => cases cut
  | cons group groups ih =>
    cases groups with
    | nil => simpa using cutBy_single.mp cut
    | cons next groups =>
      have later := ih (cutBy_cons.mp cut).2
      rw [List.flatten_cons, List.length_append]
      omega

/-- Blocks of word characters in a row are divided into groups by the joining characters between
them, and the groups are cut between the blocks only. -/
theorem BlockRow.exists_splitsInto (follows : BlockRow joins blocks rest)
    (outer : ∀ c, joins c = true → isWord c = false)
    (inner : ∀ c ∈ (block :: blocks).flatten, isWord c = true) (pos : 0 < size)
    (tail_pos : 0 < tail)
    (lengths : (block :: blocks).map List.length = List.replicate k size ++ [tail]) :
    ∃ groups, SplitsInto isWord joins (block ++ rest) groups ∧ cutBy size tail groups = true ∧
      groups.flatten = (block :: blocks).flatten := by
  -- on the blocks; a block is kept with what follows it until it is known whether a sign stands
  -- between
  induction follows generalizing block k with
  | nil =>
    rw [List.flatten_singleton] at inner
    have single : block.length = tail := by
      cases k with
      | zero => simpa using lengths
      | succ k => simp [List.replicate_succ] at lengths
    have nonempty : block ≠ [] := List.ne_nil_of_length_pos (by omega)
    refine ⟨[block], ?_, cutBy_single.mpr single.ge, rfl⟩
    rw [List.append_nil]
    exact splitsInto_group nonempty inner
  | @cons sep next rest blocks free later ih =>
    obtain ⟨here, inner⟩ := List.forall_mem_append.mp inner
    obtain ⟨k, rfl⟩ : ∃ m, k = m + 1 := by
      cases k with
      | zero => simp at lengths
      | succ k => exact ⟨k, rfl⟩
    rw [List.map_cons, List.replicate_succ, List.cons_append] at lengths
    obtain ⟨full, lengths⟩ := List.cons.inj lengths
    have nonempty : block ≠ [] := List.ne_nil_of_length_pos (by omega)
    obtain ⟨groups, spelled, cut, same⟩ := ih inner lengths
    obtain ⟨first, groups, rfl⟩ : ∃ first others, groups = first :: others := by
      cases groups with
      | nil => exact absurd spelled not_splitsInto_nil
      | cons first others => exact ⟨first, others, rfl⟩
    rcases free with rfl | ⟨s, rfl, joined⟩
    · -- the block lengthens the first group
      refine ⟨(block ++ first) :: groups, spelled.prepend here, ?_, ?_⟩
      · cases groups with
        | nil =>
          have long := cutBy_single.mp cut
          rw [cutBy_single, List.length_append]
          omega
        | cons second groups =>
          obtain ⟨whole, cut⟩ := cutBy_cons.mp cut
          refine cutBy_cons.mpr ⟨?_, cut⟩
          rw [List.length_append, full, Nat.add_mod_left, whole]
      · rw [List.flatten_cons, List.append_assoc, ← List.flatten_cons, same, ← List.flatten_cons]
    · -- the block is a group of its own
      refine ⟨block :: first :: groups, spelled.join_group nonempty here joined (outer s joined),
        cutBy_cons.mpr ⟨?_, cut⟩, ?_⟩
      · rw [full, Nat.mod_self]
      · rw [List.flatten_cons, same, ← List.flatten_cons]

/-- A row of groups that are cut at the lengths of blocks consists of such blocks, with or without a
joining character between two of them. -/
theorem SplitsInto.exists_blockRow (spelled : SplitsInto isWord joins row groups)
    (cut : cutBy size tail groups = true) (tail_pos : 0 < tail)
    (total : groups.flatten.length = size * k + tail) :
    ∃ block blocks rest, row = block ++ rest ∧ BlockRow joins blocks rest ∧
      (block :: blocks).flatten = groups.flatten ∧
      (block :: blocks).map List.length = List.replicate k size ++ [tail] := by
  induction k generalizing row groups with
  | zero =>
    cases groups with
    | nil => cases cut
    | cons group groups =>
      cases groups with
      | nil =>
        refine ⟨row, [], [], (List.append_nil row).symm, .nil, ?_, ?_⟩
        · rw [spelled.eq_of_single]
        · rw [spelled.eq_of_single]
          simpa using total
      | cons next groups =>
        -- the groups behind the first one have the characters of the tail already
        have long := le_of_cutBy (cutBy_cons.mp cut).2
        have first := spelled.pos_length
        rw [List.flatten_cons, List.length_append] at total
        omega
  | succ k ih =>
    cases groups with
    | nil => cases cut
    | cons group groups =>
      rw [List.flatten_cons, List.length_append, Nat.mul_succ] at total
      have step : size < group.length ∨ group.length = size ∧ groups ≠ [] := by
        cases groups with
        | nil =>
          simp only [List.flatten_nil, List.length_nil] at total
          omega
        | cons next groups =>
          have whole := (cutBy_cons.mp cut).1
          have first := spelled.pos_length
          have least := Nat.le_of_dvd first (Nat.dvd_of_mod_eq_zero whole)
          rcases Nat.lt_or_eq_of_le least with longer | same
          · exact .inl longer
          · exact .inr ⟨same.symm, List.cons_ne_nil _ _⟩
      rcases step with longer | ⟨same, more⟩
      · obtain ⟨split, spelled⟩ := spelled.drop_block longer
        have cut : cutBy size tail (group.drop size :: groups) = true := by
          cases groups with
          | nil =>
            simp only [List.flatten_nil, List.length_nil] at total
            rw [cutBy_single, List.length_drop]
            omega
          | cons next groups =>
            obtain ⟨whole, cut⟩ := cutBy_cons.mp cut
            refine cutBy_cons.mpr ⟨?_, cut⟩
            rw [List.length_drop]
            exact Nat.sub_mod_eq_zero_of_mod_eq (whole.trans (Nat.mod_self size).symm)
        obtain ⟨block, blocks, rest, split', follows, flat, lengths⟩ := ih spelled cut (by
          rw [List.flatten_cons, List.length_append, List.length_drop]
          omega)
        have follows : BlockRow joins (block :: blocks) ([] ++ (block ++ rest)) :=
          .cons (.inl rfl) follows
        refine ⟨group.take size, block :: blocks, _, ?_, follows, ?_, ?_⟩
        · rw [List.nil_append, ← split']
          exact split
        · rw [List.flatten_cons, flat, List.flatten_cons, ← List.append_assoc,
            List.take_append_drop, ← List.flatten_cons]
        · rw [List.map_cons, lengths, List.length_take, Nat.min_eq_left (Nat.le_of_lt longer)]
          rfl
      · obtain ⟨next, groups, rfl⟩ := List.exists_cons_of_ne_nil more
        obtain ⟨s, after, split, joined, spelled⟩ := spelled.drop_group
        obtain ⟨block, blocks, rest, rfl, follows, flat, lengths⟩ :=
          ih spelled (cutBy_cons.mp cut).2 (by omega)
        have follows : BlockRow joins (block :: blocks) ([s] ++ (block ++ rest)) :=
          .cons (.inr ⟨s, rfl, joined⟩) follows
        refine ⟨group, block :: blocks, _, split, follows, ?_, ?_⟩
        · rw [List.flatten_cons, flat, ← List.flatten_cons]
        · rw [List.map_cons, lengths, same]
          rfl

theorem cutBy_mono {tail' : Nat} (cut : cutBy size tail groups = true) (less : tail' ≤ tail) :
    cutBy size tail' groups = true := by
  induction groups with
  | nil => cases cut
  | cons group groups ih =>
    cases groups with
    | nil => exact cutBy_single.mpr (Nat.le_trans less (cutBy_single.mp cut))
    | cons next groups =>
      obtain ⟨whole, later⟩ := cutBy_cons.mp cut
      exact cutBy_cons.mpr ⟨whole, ih later⟩

/-- The length of the last group follows from that of the row: groups that can be cut into blocks
with some last length can be cut with the one that the total leaves. -/
theorem cutBy_of_total {tail' : Nat} (cut : cutBy size tail groups = true) (tail_pos : 0 < tail)
    (total : groups.flatten.length = size * k + tail') (least : tail' ≤ size) :
    cutBy size tail' groups = true := by
  induction groups generalizing k with
  | nil => cases cut
  | cons group groups ih =>
    rw [List.flatten_cons, List.length_append] at total
    cases groups with
    | nil =>
      rw [List.flatten_nil, List.length_nil] at total
      rw [cutBy_single]
      omega
    | cons next groups =>
      obtain ⟨whole, later⟩ := cutBy_cons.mp cut
      have long := le_of_cutBy later
      obtain ⟨m, rfl⟩ : ∃ m, k = m + group.length / size := by
        -- the blocks of the first group are some of the row's
        refine ⟨k - group.length / size, (Nat.sub_add_cancel ?_).symm⟩
        have blocks := Nat.div_add_mod group.length size
        rw [whole, Nat.add_zero] at blocks
        by_contra more
        have least := Nat.mul_le_mul_left size (Nat.lt_of_not_ge more)
        rw [Nat.mul_succ] at least
        omega
      have blocks := Nat.div_add_mod group.length size
      rw [Nat.mul_add] at total
      exact cutBy_cons.mpr ⟨whole, @ih m later (by omega)⟩

end

/-! ## Rounds of blocks -/

/-- A repeated part of one block, with or without a joining character in front, accepts exactly as
many blocks in a row as there are rounds. -/
theorem rounds_iff_blockRow {joins : Char → Bool} {part : Regex} {Block : Text → Prop}
    (blocks : ∀ before w after, part.Matches before w after ↔ Block w) {k : Nat}
    {before w after : Text} :
    Regex.Rounds (Regex.seq (.opt (.char joins)) part).Matches k before w after ↔
      ∃ bs, BlockRow joins bs w ∧ bs.length = k ∧ ∀ b ∈ bs, Block b := by
  -- one round is one block with the sign before it, if there is one
  induction k generalizing before w with
  | zero =>
    constructor
    · intro nothing
      obtain rfl : w = [] := nothing
      exact ⟨[], .nil, rfl, by simp⟩
    · rintro ⟨bs, follows, none, _⟩
      obtain rfl := List.length_eq_zero_iff.mp none
      cases follows
      rfl
  | succ k ih =>
    constructor
    · rintro ⟨_, v, rfl, ⟨sep, block, rfl, free, fits⟩, later⟩
      obtain ⟨bs, follows, rfl, all⟩ := ih.mp later
      refine ⟨block :: bs, ?_, rfl, List.forall_mem_cons.mpr ⟨(blocks _ _ _).mp fits, all⟩⟩
      rw [List.append_assoc]
      exact .cons (Regex.matches_opt.mp free) follows
    · rintro ⟨bs, follows, length, all⟩
      cases follows with
      | nil => cases length
      | cons free later =>
        obtain ⟨here, all⟩ := List.forall_mem_cons.mp all
        refine ⟨_, _, (List.append_assoc _ _ _).symm,
          ⟨_, _, rfl, Regex.matches_opt.mpr free, (blocks _ _ _).mpr here⟩, ?_⟩
        exact ih.mpr ⟨_, later, Nat.succ.inj length, all⟩

/-- Blocks that each may have a joining character behind them, and a last block: together they are
blocks in a row, as where the character is written in front. -/
theorem blockRow_of_rounds {joins : Char → Bool} {part : Regex} {Block : Text → Prop}
    (blocks : ∀ before w after, part.Matches before w after → Block w) {k : Nat}
    {before sep w last after : Text} (free : sep = [] ∨ ∃ c, sep = [c] ∧ joins c = true)
    (rounds : Regex.Rounds (Regex.seq part (.opt (.char joins))).Matches k before w after) :
    ∃ bs, BlockRow joins (bs ++ [last]) (sep ++ (w ++ last)) ∧ bs.length = k ∧
      ∀ b ∈ bs, Block b := by
  induction k generalizing before sep w with
  | zero =>
    obtain rfl : w = [] := rounds
    refine ⟨[], ?_, rfl, by simp⟩
    have follows : BlockRow joins [last] (sep ++ (last ++ [])) := .cons free .nil
    rwa [List.append_nil] at follows
  | succ k ih =>
    -- a round is a block and the gap behind it, which belongs to the next block of the row
    obtain ⟨_, v, rfl, ⟨block, next, rfl, fits, free'⟩, later⟩ := rounds
    obtain ⟨bs, follows, rfl, all⟩ := ih (Regex.matches_opt.mp free') later
    refine ⟨block :: bs, ?_, rfl, List.forall_mem_cons.mpr ⟨blocks _ _ _ fits, all⟩⟩
    have follows : BlockRow joins (block :: (bs ++ [last]))
        (sep ++ (block ++ (next ++ (v ++ last)))) := .cons free follows
    simpa using follows

theorem rounds_of_blockRow {joins : Char → Bool} {part : Regex} {Block : Text → Prop}
    (blocks : ∀ before w after, Block w → part.Matches before w after) {bs : List Text}
    {before rest last after : Text} (follows : BlockRow joins (bs ++ [last]) rest)
    (all : ∀ b ∈ bs, Block b) :
    ∃ sep w, rest = sep ++ (w ++ last) ∧ (sep = [] ∨ ∃ c, sep = [c] ∧ joins c = true) ∧
      Regex.Rounds (Regex.seq part (.opt (.char joins))).Matches bs.length (before ++ sep) w
        after := by
  induction bs generalizing before rest with
  | nil =>
    cases follows with
    | cons free nothing =>
      cases nothing
      exact ⟨_, [], by simp, free, rfl⟩
  | cons block bs ih =>
    -- the gap in front of a block ends the round before it
    obtain ⟨here, all⟩ := List.forall_mem_cons.mp all
    cases follows with
    | @cons sep _ _ _ free later =>
      obtain ⟨next, w, rfl, free', rounds⟩ := @ih (before ++ sep ++ block) _ later all
      refine ⟨sep, (block ++ next) ++ w, by simp, free, block ++ next, w, rfl,
        ⟨block, next, rfl, blocks _ _ _ here, Regex.matches_opt.mpr free'⟩, ?_⟩
      rw [← List.append_assoc]
      exact rounds

/-! ## Rows in a text -/

namespace Layout

variable {isWord : Char → Bool} {layout : Layout} {text : Text} {i j k : Nat}

/-- Blocks of the lengths of a layout, in a row, whose characters fit it, are a row that the layout
accepts. -/
theorem accepts_of_blockRow {first rest : Text} {later : List Text} {k tail : Nat}
    (follows : BlockRow layout.joins later rest)
    (fits : layout.fits (first :: later).flatten = true)
    (lengths : (first :: later).map List.length = List.replicate k layout.block ++ [tail])
    (least : layout.tail ≤ tail) (tail_pos : 0 < tail) (pos : 0 < layout.block)
    (outer : ∀ c, layout.joins c = true → isWord c = false)
    (inner : ∀ c ∈ (first :: later).flatten, isWord c = true) :
    layout.Accepts isWord (first ++ rest) := by
  obtain ⟨groups, spelled, cut, flat⟩ := follows.exists_splitsInto outer inner pos tail_pos lengths
  exact ⟨groups, spelled, cutBy_mono cut least, flat ▸ fits⟩

/-- A row that a layout accepts has characters that fit the layout, and these make blocks in a row
of the layout's lengths. -/
theorem Accepts.exists_letters {row : Text} (accepts : layout.Accepts isWord row)
    (pos : 0 < layout.tail) :
    ∃ letters, layout.fits letters = true ∧ ∀ k tail, 0 < tail →
      tail = layout.tail ∨ tail ≤ layout.block → letters.length = layout.block * k + tail →
      ∃ first later rest, row = first ++ rest ∧ BlockRow layout.joins later rest ∧
        (first :: later).flatten = letters ∧
        (first :: later).map List.length = List.replicate k layout.block ++ [tail] := by
  obtain ⟨groups, spelled, cut, fits⟩ := accepts
  refine ⟨groups.flatten, fits, fun k tail tail_pos small total => ?_⟩
  have cut : cutBy layout.block tail groups = true := by
    rcases small with rfl | small
    · exact cut
    · exact cutBy_of_total cut pos total small
  exact spelled.exists_blockRow cut tail_pos total

/-- A row begins and ends with a word character. -/
theorem Accepts.ends {row : Text} (accepts : layout.Accepts isWord row) :
    row.head?.any isWord = true ∧ row.getLast?.any isWord = true := by
  obtain ⟨_, spelled, _⟩ := accepts
  exact ⟨spelled.head, spelled.getLast⟩

theorem RowAt.lt (row : layout.RowAt isWord text i j) : i < j := by
  obtain ⟨groups, spelled, _⟩ := row.row
  have some := List.length_pos_iff.mpr spelled.ne_nil
  rw [Text.length_slice row.inside] at some
  omega

/-- A layout that fixes the number of word characters leaves one row at a place, since a longer row
would have more of them. -/
theorem RowAt.unique (fixed : ∀ w w', layout.fits w = true → layout.fits w' = true →
    w.length = w'.length) (row : layout.RowAt isWord text i j)
    (row' : layout.RowAt isWord text i k) : j = k := by
  have ends {j k : Nat} (row : layout.RowAt isWord text i j)
      (row' : layout.RowAt isWord text i k) (le : j ≤ k) : j = k := by
    obtain ⟨groups, spelled, _, fits⟩ := row.row
    obtain ⟨groups', spelled', _, fits'⟩ := row'.row
    rw [← Text.slice_append_slice row.ordered le] at spelled'
    have nothing := spelled.eq_nil_of_append spelled' (fixed _ _ fits fits')
    have length := @Text.length_slice text j k row'.inside
    rw [nothing, List.length_nil] at length
    omega
  rcases Nat.le_total j k with le | ge
  · exact ends row row' le
  · exact (ends row' row ge).symm

end Layout

end RedactGate.Library
