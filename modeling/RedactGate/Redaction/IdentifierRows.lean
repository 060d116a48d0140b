import RedactGate.Library.LongestMatch
import RedactGate.Library.WordRows
import RedactGate.Redaction.Packs

/-!
# Identifiers as rows of groups

The patterns with a validator, outside the US pack, let digits and letters stand in groups.
Each of them accepts the rows of whole groups in one layout, and where it matches it takes the
longest one.
-/
namespace RedactGate

open Library

section

variable (unicode : Unicode)

/-! ## The layouts -/

/-- The rows that the SIN pattern accepts: nine digits in groups of three, six or nine. -/
def sinLayout : Layout where
  joins c := " -".toList.contains c
  block := 3
  tail := 3
  fits letters := decide (letters.length = 9) && letters.all unicode.isDecimal

/-- The rows that the card pattern accepts: thirteen to nineteen digits, with a blank or a hyphen
between any two of them or not. -/
def creditCardLayout : Layout where
  joins c := " -".toList.contains c
  block := 1
  tail := 1
  fits letters := decide (13 ≤ letters.length ∧ letters.length ≤ 19) &&
    letters.all unicode.isDecimal

/-- Two digits after the country, and then capital letters and digits. -/
def isIbanRest (letters : Text) : Bool :=
  (letters.take 2).all unicode.isDecimal && (letters.drop 2).all isAlnumUpper

/-- Twelve to thirty-five characters in groups whose lengths, but for the last one, are
multiples of four. -/
def euIbanLayout : Layout where
  joins c := " ".toList.contains c
  block := 4
  tail := 1
  fits letters := decide (12 ≤ letters.length ∧ letters.length ≤ 35) &&
    (letters.take 2).all Char.isUpper && isIbanRest unicode (letters.drop 2)

/-- The rows that the pattern of Ukrainian accounts accepts: twenty-nine characters in blocks of
four, of which the last five are not separated. -/
def ibanUaLayout : Layout where
  joins c := " ".toList.contains c
  block := 4
  tail := 5
  fits letters := decide (letters.length = 29) && letters.take 2 == "UA".toList &&
    isIbanRest unicode (letters.drop 2)

end

variable {unicode : Unicode}

/-! ## Between two boundaries -/

theorem not_isWord_of_space {c : Char} (joined : " ".toList.contains c = true) :
    unicode.isWord c = false := by
  obtain rfl : c = ' ' := by simpa using joined
  exact unicode.not_isWord_space

theorem not_isWord_of_separator {c : Char} (joined : " -".toList.contains c = true) :
    unicode.isWord c = false := by
  have separator : c = ' ' ∨ c = '-' := by simpa using joined
  rcases separator with rfl | rfl
  · exact unicode.not_isWord_space
  · exact unicode.not_isWord_hyphen

/-- A word boundary in front of a word character means that no word character stands before it. -/
theorem edge_front {before w after : Text} (inner : w.head?.any unicode.isWord = true) :
    (edge unicode).Matches before [] (w ++ after) ↔
      before.getLast?.any unicode.isWord = false := by
  have some : w ≠ [] := by
    rintro rfl
    cases inner
  rw [edge, Regex.boundary, Regex.matches_assert, List.head?_append_of_ne_nil _ some, inner]
  simp

/-- A word boundary behind a word character. -/
theorem edge_back {before w after : Text} (inner : w.getLast?.any unicode.isWord = true) :
    (edge unicode).Matches (before ++ w) [] after ↔ after.head?.any unicode.isWord = false := by
  have some : w ≠ [] := by
    rintro rfl
    cases inner
  rw [edge, Regex.boundary, Regex.matches_assert, List.getLast?_append_of_ne_nil _ some, inner]
  simp

/-- An expression between two boundaries that spells rows of a layout finds them where they
stand whole. -/
theorem acceptsAt_iff_rowAt {layout : Layout} (body : List Regex)
    (rows : ∀ before w after, (Regex.cat body).Matches before w after ↔
      layout.Accepts unicode.isWord w) {text : Text} {i j : Nat} :
    (Regex.cat (edge unicode :: (body ++ [edge unicode]))).AcceptsAt text i j ↔
      layout.RowAt unicode.isWord text i j := by
  constructor
  · rintro ⟨ordered, inside, _, _, part, ⟨rfl, front⟩, rest⟩
    obtain ⟨w, _, rfl, middle, _, _, rfl, ⟨rfl, back⟩, rfl⟩ := Regex.matches_cat_append.mp rest
    simp only [List.append_nil, List.nil_append] at part front middle back
    have accepts := (rows _ _ _).mp middle
    have ends := accepts.ends
    exact ⟨ordered, inside, (edge_front ends.1).mp ⟨rfl, front⟩,
      (edge_back ends.2).mp ⟨rfl, back⟩, part ▸ accepts⟩
  · rintro ⟨ordered, inside, front, back, accepts⟩
    have ends := accepts.ends
    refine ⟨ordered, inside, [], text.slice i j, rfl, (edge_front ends.1).mpr front, ?_⟩
    refine Regex.matches_cat_append.mpr ⟨text.slice i j, [], (List.append_nil _).symm,
      (rows _ _ _).mpr accepts, [], [], rfl, ?_, rfl⟩
    rw [List.append_nil]
    exact (edge_back ends.2).mpr back

/-- A pattern that reports the longest part it accepts reports the longest row. -/
theorem matchAt_iff_longestRow {layout : Layout} {r : Regex} {text : Text} {p q : Nat}
    (rows : ∀ k, r.AcceptsAt text p k ↔ layout.RowAt unicode.isWord text p k)
    (longest : r.matchAt text p = some q ↔
      r.AcceptsAt text p q ∧ ∀ k, r.AcceptsAt text p k → k ≤ q) :
    r.matchAt text p = some q ↔ layout.LongestRow unicode.isWord text p q := by
  rw [longest, Layout.LongestRow, rows q]
  exact and_congr_right fun _ => forall_congr' fun k => imp_congr_left (rows k)

theorem isWord_of_isDecimal {letters : Text} (digits : letters.all unicode.isDecimal = true) :
    ∀ c ∈ letters, unicode.isWord c = true :=
  fun c member => unicode.isWord_of_decimal c (List.all_eq_true.mp digits c member)

/-! ## SIN -/

theorem sinBody_iff {before w after : Text} :
    (Regex.cat [.times (decimalRe unicode) 3, .opt (among " -"), .times (decimalRe unicode) 3,
      .opt (among " -"), .times (decimalRe unicode) 3]).Matches before w after ↔
      (sinLayout unicode).Accepts unicode.isWord w := by
  constructor
  -- three blocks of three, each gap empty or one separator
  · rintro ⟨a, _, rfl, block_a, s, _, rfl, free, b, _, rfl, block_b, t, _, rfl, free', c, _, rfl,
      block_c, rfl⟩
    obtain ⟨three_a, digits_a⟩ := Regex.matches_times_char.mp block_a
    obtain ⟨three_b, digits_b⟩ := Regex.matches_times_char.mp block_b
    obtain ⟨three_c, digits_c⟩ := Regex.matches_times_char.mp block_c
    have digits : [a, b, c].flatten.all unicode.isDecimal = true := by
      simp only [List.flatten_cons, List.flatten_nil, List.all_append, List.all_nil, Bool.and_true,
        Bool.and_eq_true, List.all_eq_true]
      exact ⟨digits_a, digits_b, digits_c⟩
    have nine : [a, b, c].flatten.length = 9 := by simp [three_a, three_b, three_c]
    have lengths : [a, b, c].map List.length = List.replicate 2 3 ++ [3] := by
      simp [three_a, three_b, three_c, List.replicate_succ]
    exact Layout.accepts_of_blockRow
      (.cons (Regex.matches_opt.mp free) (.cons (Regex.matches_opt.mp free') .nil))
      (Bool.and_eq_true_iff.mpr ⟨decide_eq_true nine, digits⟩) lengths (Nat.le_refl 3) (by decide)
      (Nat.succ_pos 2) (fun _ => not_isWord_of_separator) (isWord_of_isDecimal digits)
  · intro accepts
    obtain ⟨letters, fits, blocks⟩ := accepts.exists_letters (Nat.succ_pos 2)
    obtain ⟨nine, digits⟩ := Bool.and_eq_true_iff.mp fits
    obtain ⟨a, later, rest, rfl, follows, rfl, lengths⟩ :=
      blocks 2 3 (by decide) (.inl rfl) (of_decide_eq_true nine)
    obtain ⟨three_a, lengths⟩ := List.cons.inj lengths
    obtain ⟨b, later, rfl, three_b, lengths⟩ := List.map_eq_cons_iff.mp lengths
    obtain ⟨c, later, rfl, three_c, lengths⟩ := List.map_eq_cons_iff.mp lengths
    obtain rfl := List.map_eq_nil_iff.mp lengths
    simp only [List.flatten_cons, List.flatten_nil, List.all_append, List.all_nil, Bool.and_true,
      Bool.and_eq_true, List.all_eq_true] at digits
    obtain ⟨digits_a, digits_b, digits_c⟩ := digits
    -- the row has exactly two gaps
    cases follows with
    | cons free follows =>
      cases follows with
      | cons free' follows =>
        cases follows
        exact ⟨a, _, rfl, Regex.matches_times_char.mpr ⟨three_a, digits_a⟩, _, _, rfl,
          Regex.matches_opt.mpr free, b, _, rfl, Regex.matches_times_char.mpr ⟨three_b, digits_b⟩,
          _, _, rfl, Regex.matches_opt.mpr free', c, [], rfl,
          Regex.matches_times_char.mpr ⟨three_c, digits_c⟩, rfl⟩

theorem sinRe_iff_row {text : Text} {p q : Nat} :
    (sinRe unicode).AcceptsAt text p q ↔ (sinLayout unicode).RowAt unicode.isWord text p q :=
  acceptsAt_iff_rowAt _ fun _ _ _ => sinBody_iff

theorem sinRe_matchAt_iff {text : Text} {p q : Nat} :
    (sinRe unicode).matchAt text p = some q ↔
      (sinLayout unicode).LongestRow unicode.isWord text p q := by
  refine matchAt_iff_longestRow (fun _ => sinRe_iff_row) ?_
  refine Regex.matchAt_eq_some_iff_of_unique rfl fun q k accepts accepts' => ?_
  refine Layout.RowAt.unique (fun w w' fits fits' => ?_) (sinRe_iff_row.mp accepts)
    (sinRe_iff_row.mp accepts')
  have nine := of_decide_eq_true (Bool.and_eq_true_iff.mp fits).1
  exact nine.trans (of_decide_eq_true (Bool.and_eq_true_iff.mp fits').1).symm

/-! ## Card numbers -/

theorem decimals_iff {before w after : Text} :
    (decimalRe unicode).Matches before w after ↔
      w.length = 1 ∧ ∀ c ∈ w, unicode.isDecimal c = true := by
  rw [decimalRe, Regex.matches_char]
  constructor
  · rintro ⟨c, rfl, digit⟩
    exact ⟨rfl, by simpa using digit⟩
  · rintro ⟨one, digits⟩
    obtain ⟨c, rfl⟩ := List.length_eq_one_iff.mp one
    exact ⟨c, rfl, digits c (List.mem_singleton_self c)⟩

theorem creditCardBody_iff {before w after : Text} :
    (Regex.cat [decimalRe unicode, .rep (.seq (.opt (among " -")) (decimalRe unicode)) 12
      (some 18)]).Matches before w after ↔
      (creditCardLayout unicode).Accepts unicode.isWord w := by
  constructor
  · rintro ⟨first, _, rfl, here, rest, _, rfl, ⟨k, least, most, rounds⟩, rfl⟩
    -- the rounds of the repetition are blocks of one digit
    obtain ⟨later, follows, rfl, all⟩ := (rounds_iff_blockRow fun _ _ _ => decimals_iff).mp rounds
    have most : later.length ≤ 18 := by simpa using most 18 rfl
    have blocks : ∀ b ∈ first :: later, b.length = 1 ∧ ∀ c ∈ b, unicode.isDecimal c = true :=
      List.forall_mem_cons.mpr ⟨decimals_iff.mp here, all⟩
    have lengths : (first :: later).map List.length = List.replicate later.length 1 ++ [1] := by
      rw [← List.replicate_succ', List.map_eq_replicate_iff.mpr fun b member => (blocks b member).1]
      rfl
    have total : (first :: later).flatten.length = later.length + 1 := by
      rw [List.length_flatten, lengths, ← List.replicate_succ', List.sum_replicate_nat, Nat.mul_one]
    have digits : (first :: later).flatten.all unicode.isDecimal = true := by
      refine List.all_eq_true.mpr fun c member => ?_
      obtain ⟨b, among, member⟩ := List.mem_flatten.mp member
      exact (blocks b among).2 c member
    rw [List.append_nil]
    exact Layout.accepts_of_blockRow follows
      (Bool.and_eq_true_iff.mpr ⟨decide_eq_true (by omega), digits⟩) lengths (Nat.le_refl 1)
      (by decide) Nat.one_pos (fun _ => not_isWord_of_separator) (isWord_of_isDecimal digits)
  · intro accepts
    obtain ⟨letters, fits, blocks⟩ := accepts.exists_letters Nat.one_pos
    obtain ⟨total, digits⟩ := Bool.and_eq_true_iff.mp fits
    have total := of_decide_eq_true total
    obtain ⟨first, later, rest, rfl, follows, rfl, lengths⟩ := blocks (letters.length - 1) 1
      (by decide) (.inl rfl) (by simp only [creditCardLayout]; omega)
    have lengths : (first :: later).map List.length =
        List.replicate ((first :: later).flatten.length - 1) 1 ++ [1] := lengths
    rw [← List.replicate_succ'] at lengths
    have count := congrArg List.length lengths
    rw [List.length_map, List.length_cons, List.length_replicate] at count
    have blocks : ∀ b ∈ first :: later, b.length = 1 ∧ ∀ c ∈ b, unicode.isDecimal c = true := by
      intro b member
      -- every block has one letter, as the length of the row says
      have one := List.eq_of_mem_replicate (lengths ▸ List.mem_map_of_mem member)
      exact ⟨one, fun c among =>
        List.all_eq_true.mp digits c (List.mem_flatten.mpr ⟨b, member, among⟩)⟩
    obtain ⟨here, all⟩ := List.forall_mem_cons.mp blocks
    refine ⟨first, rest, rfl, decimals_iff.mpr here, rest, [], (List.append_nil rest).symm,
      ⟨later.length, by omega, ?_, (rounds_iff_blockRow fun _ _ _ => decimals_iff).mpr
        ⟨later, follows, rfl, all⟩⟩, rfl⟩
    intro h most
    obtain rfl := Option.some.inj most
    omega

theorem creditCardRe_iff_row {text : Text} {p q : Nat} :
    (creditCardRe unicode).AcceptsAt text p q ↔
      (creditCardLayout unicode).RowAt unicode.isWord text p q :=
  acceptsAt_iff_rowAt _ fun _ _ _ => creditCardBody_iff

/-- A separator does not begin a digit. -/
theorem decimal_shuns (before : Text) (c : Char) (rest : Text)
    (joined : " -".toList.contains c = true) :
    (decimalRe unicode).ends before (c :: rest) = [] := by
  have other : unicode.isDecimal c = false :=
    Unicode.not_isDecimal_of_not_isWord (not_isWord_of_separator joined)
  simp [decimalRe, Regex.ends, other]

theorem creditCardRe_matchAt_iff {text : Text} {p q : Nat} :
    (creditCardRe unicode).matchAt text p = some q ↔
      (creditCardLayout unicode).LongestRow unicode.isWord text p q := by
  refine matchAt_iff_longestRow (fun _ => creditCardRe_iff_row) ?_
  refine Regex.matchAt_eq_some_iff_longest rfl ?_
  -- one digit more, with or without a separator, is tried before the boundary
  have digit : Regex.Single (decimalRe unicode).ends := Regex.single_char _
  have round : Regex.Single (Regex.seq (.opt (among " -")) (decimalRe unicode)).ends :=
    digit.opt_char decimal_shuns
  have rounds := (Regex.descending_rep round 12 (some 18)).assert_end
  exact (Regex.single_assert _).andThen_descending (digit.andThen_descending (rounds _))

/-! ## IBANs -/

/-- The country in the first block of an IBAN. -/
theorem take_iban {u d : Text} (two : u.length = 2) (later : List Text) :
    ((u ++ d) :: later).flatten.take 2 = u := by
  rw [List.flatten_cons, List.append_assoc, List.take_left' two]

/-- What follows the country, in the first block and in those behind it. -/
theorem isIbanRest_iff {u d : Text} (two : u.length = 2) (two' : d.length = 2)
    (later : List Text) :
    isIbanRest unicode (((u ++ d) :: later).flatten.drop 2) = true ↔
      (∀ c ∈ d, unicode.isDecimal c = true) ∧ ∀ b ∈ later, ∀ c ∈ b, isAlnumUpper c = true := by
  rw [List.flatten_cons, List.append_assoc, List.drop_left' two, isIbanRest, List.take_left' two',
    List.drop_left' two', Bool.and_eq_true, List.all_eq_true, List.all_flatten, List.all_eq_true]
  simp only [List.all_eq_true]

theorem isWord_of_isAlnumUpper (tables : unicode.WordTables) {c : Char}
    (alnum : isAlnumUpper c = true) : unicode.isWord c = true := by
  rcases (Bool.or_eq_true _ _).mp alnum with capital | digit
  · exact tables.isWord_of_upper c capital
  · exact unicode.isWord_of_decimal c (by rw [unicode.decimal_ascii c digit]; rfl)

theorem isWord_of_iban (tables : unicode.WordTables) {letters : Text}
    (country : (letters.take 2).all Char.isUpper = true)
    (rest : isIbanRest unicode (letters.drop 2) = true) :
    ∀ c ∈ letters, unicode.isWord c = true := by
  obtain ⟨check, body⟩ := (Bool.and_eq_true _ _).mp rest
  intro c member
  rw [← List.take_append_drop 2 letters, ← List.take_append_drop 2 (letters.drop 2)] at member
  rcases List.mem_append.mp member with first | later
  · exact tables.isWord_of_upper c (List.all_eq_true.mp country c first)
  · rcases List.mem_append.mp later with second | third
    · exact isWord_of_isDecimal check c second
    · exact isWord_of_isAlnumUpper tables (List.all_eq_true.mp body c third)

/-- Four characters of an IBAN. -/
theorem alnumBlock_iff {before w after : Text} :
    (Regex.times alnumRe 4).Matches before w after ↔
      w.length = 4 ∧ ∀ c ∈ w, isAlnumUpper c = true :=
  Regex.matches_times_char

/-- The pattern of an IBAN between its boundaries: country, check digits, blocks of four and a
shorter last one. -/
def euIbanBody (unicode : Unicode) : List Regex :=
  [.times upperRe 2, .times (decimalRe unicode) 2,
    .rep (.seq (.opt (among " ")) (.times alnumRe 4)) 2 (some 7),
    .opt (.seq (.opt (among " ")) (.rep alnumRe 1 (some 3)))]

theorem accepts_of_euIbanBody (tables : unicode.WordTables) {before w after : Text}
    (accepts : (Regex.cat (euIbanBody unicode)).Matches before w after) :
    (euIbanLayout unicode).Accepts unicode.isWord w := by
  obtain ⟨u, _, rfl, country, d, _, rfl, check, rest, _, rfl, ⟨k, least, most, rounds⟩, back, _,
    rfl, tail, rfl⟩ := accepts
  obtain ⟨two, country⟩ := Regex.matches_times_char.mp country
  obtain ⟨two', check⟩ := Regex.matches_times_char.mp check
  obtain ⟨later, follows, rfl, all⟩ := (rounds_iff_blockRow fun _ _ _ => alnumBlock_iff).mp rounds
  have most : later.length ≤ 7 := by simpa using most 7 rfl
  have four : (u ++ d).length = 4 := by rw [List.length_append, two, two']
  have whole : ((u ++ d) :: later).map List.length = List.replicate (later.length + 1) 4 := by
    refine List.map_eq_replicate_iff.mpr (List.forall_mem_cons.mpr ⟨four, fun b member => ?_⟩)
    exact (all b member).1
  -- the last block is one of four characters, or the shorter one at the end
  obtain ⟨last, m, t, follows', lengths, pos, total, alnum⟩ : ∃ last m t,
      BlockRow (euIbanLayout unicode).joins last back ∧
      ((u ++ d) :: (later ++ last)).map List.length = List.replicate m 4 ++ [t] ∧ 0 < t ∧
      (12 ≤ 4 * m + t ∧ 4 * m + t ≤ 35) ∧ ∀ b ∈ last, ∀ c ∈ b, isAlnumUpper c = true := by
    rcases Regex.matches_opt.mp tail with rfl | ⟨sep, x, rfl, free, short⟩
    · refine ⟨[], later.length, 4, .nil, ?_, by decide, by omega, by simp⟩
      rw [List.append_nil, whole, List.replicate_succ']
    · obtain ⟨some, few, alnum⟩ := Regex.matches_rep_char.mp short
      have few : x.length ≤ 3 := few 3 rfl
      have follows' : BlockRow (euIbanLayout unicode).joins [x] (sep ++ (x ++ [])) :=
        .cons (Regex.matches_opt.mp free) .nil
      rw [List.append_nil] at follows'
      refine ⟨[x], later.length + 1, x.length, follows', ?_, some, by omega, by simpa⟩
      rw [← List.cons_append, List.map_append, whole]
      rfl
  have capitals : (((u ++ d) :: (later ++ last)).flatten.take 2).all Char.isUpper = true := by
    rw [take_iban two]
    exact List.all_eq_true.mpr country
  have behind : isIbanRest unicode (((u ++ d) :: (later ++ last)).flatten.drop 2) = true :=
    (isIbanRest_iff two two' _).mpr
      ⟨check, List.forall_mem_append.mpr ⟨fun b member => (all b member).2, alnum⟩⟩
  have fits : (euIbanLayout unicode).fits ((u ++ d) :: (later ++ last)).flatten = true := by
    simp only [euIbanLayout, Bool.and_eq_true, decide_eq_true_eq]
    rw [length_flatten_of_lengths lengths]
    exact ⟨⟨total, capitals⟩, behind⟩
  rw [List.append_nil, ← List.append_assoc u]
  exact Layout.accepts_of_blockRow (follows.append follows') fits lengths pos pos (Nat.succ_pos 3)
    (fun _ => not_isWord_of_space) (isWord_of_iban tables capitals behind)

theorem euIbanBody_of_accepts {before w after : Text}
    (accepts : (euIbanLayout unicode).Accepts unicode.isWord w) :
    (Regex.cat (euIbanBody unicode)).Matches before w after := by
  obtain ⟨letters, fits, blocks⟩ := accepts.exists_letters Nat.one_pos
  simp only [euIbanLayout, Bool.and_eq_true, decide_eq_true_eq] at fits
  obtain ⟨⟨total, capitals⟩, behind⟩ := fits
  -- m whole blocks behind the first and a last one of t letters
  obtain ⟨m, t, count, pos, small⟩ : ∃ m t, letters.length = 4 * (m + 1) + t ∧ 0 < t ∧ t ≤ 4 :=
    ⟨(letters.length - 5) / 4, (letters.length - 1) % 4 + 1, by omega, by omega, by omega⟩
  obtain ⟨first, later, rest, rfl, follows, rfl, lengths⟩ := blocks (m + 1) t pos (.inr small) count
  have lengths : (first :: later).map List.length = 4 :: (List.replicate m 4 ++ [t]) := lengths
  obtain ⟨four, lengths⟩ := List.cons.inj lengths
  obtain ⟨middle, _, rfl, whole, ended⟩ := List.map_eq_append_iff.mp lengths
  obtain ⟨last, _, rfl, length, none⟩ := List.map_eq_cons_iff.mp ended
  obtain rfl := List.map_eq_nil_iff.mp none
  obtain ⟨number, whole⟩ := List.eq_replicate_iff.mp whole
  rw [List.length_map] at number
  obtain ⟨u, d, rfl, two, two'⟩ : ∃ u d, first = u ++ d ∧ u.length = 2 ∧ d.length = 2 :=
    ⟨first.take 2, first.drop 2, (List.take_append_drop 2 first).symm, by simp [four],
      by simp [four]⟩
  rw [take_iban two] at capitals
  obtain ⟨check, alnum⟩ := (isIbanRest_iff two two' _).mp behind
  have block : ∀ b ∈ middle, b.length = 4 ∧ ∀ c ∈ b, isAlnumUpper c = true := fun b among =>
    ⟨whole _ (List.mem_map_of_mem among), alnum b (List.mem_append_left _ among)⟩
  have alnum_last := alnum last (List.mem_append_right _ (List.mem_singleton_self last))
  have most {n : Nat} (few : n ≤ 7) : ∀ h ∈ some 7, n ≤ max 2 h := by
    intro h bound
    obtain rfl := Option.some.inj bound
    omega
  obtain ⟨front, back, rfl, rounds, tail⟩ : ∃ front back, rest = front ++ back ∧
      (Regex.rep (.seq (.opt (among " ")) (.times alnumRe 4)) 2 (some 7)).Matches
        (before ++ u ++ d) front (back ++ after) ∧
      (Regex.opt (.seq (.opt (among " ")) (.rep alnumRe 1 (some 3)))).Matches
        (before ++ u ++ d ++ front) back after := by
    rcases Nat.lt_or_eq_of_le small with short | rfl
    · -- a last block that is not whole is the optional one
      obtain ⟨front, back, rfl, follows, follows'⟩ := follows.split
      refine ⟨front, back, rfl, ⟨middle.length, by omega, most (by omega), ?_⟩, ?_⟩
      · exact (rounds_iff_blockRow fun _ _ _ => alnumBlock_iff).mpr ⟨middle, follows, rfl, block⟩
      · cases follows' with
        | cons free nothing =>
          cases nothing
          rw [List.append_nil]
          refine Regex.matches_opt.mpr (.inr ⟨_, last, rfl, Regex.matches_opt.mpr free, ?_⟩)
          refine Regex.matches_rep_char.mpr ⟨by omega, ?_, alnum_last⟩
          intro h bound
          obtain rfl := Option.some.inj bound
          omega
    · refine ⟨rest, [], (List.append_nil rest).symm, ⟨m + 1, by omega, most (by omega), ?_⟩,
        Regex.matches_opt.mpr (.inl rfl)⟩
      refine (rounds_iff_blockRow fun _ _ _ => alnumBlock_iff).mpr
        ⟨_, follows, by simp [number], ?_⟩
      refine List.forall_mem_append.mpr ⟨block, List.forall_mem_singleton.mpr ?_⟩
      exact ⟨length, alnum_last⟩
  refine ⟨u, _, List.append_assoc u d _, ?_, d, _, rfl, ?_, front, _, rfl, ?_, back, [],
    (List.append_nil back).symm, ?_, rfl⟩
  · exact Regex.matches_times_char.mpr ⟨two, List.all_eq_true.mp capitals⟩
  · exact Regex.matches_times_char.mpr ⟨two', check⟩
  · exact rounds
  · exact tail

theorem euIbanRe_iff_row (tables : unicode.WordTables) {text : Text} {p q : Nat} :
    (euIbanRe unicode).AcceptsAt text p q ↔
      (euIbanLayout unicode).RowAt unicode.isWord text p q :=
  acceptsAt_iff_rowAt (euIbanBody unicode) fun _ _ _ =>
    ⟨accepts_of_euIbanBody tables, euIbanBody_of_accepts⟩

/-- A space is none of the characters of an IBAN. -/
theorem not_isAlnumUpper_of_space {c : Char} (joined : " ".toList.contains c = true) :
    isAlnumUpper c = false := by
  obtain rfl : c = ' ' := by simpa using joined
  decide

theorem alnum_shuns {lo : Nat} {hi : Option Nat} (some : 0 < lo) (before : Text) (c : Char)
    (rest : Text) (joined : " ".toList.contains c = true) :
    (Regex.rep alnumRe lo hi).ends before (c :: rest) = [] := by
  refine List.eq_nil_iff_forall_not_mem.mpr fun n listed => ?_
  obtain ⟨w, after, split, _, accepts⟩ := (Regex.mem_ends _ _ _ _).mp listed
  obtain ⟨least, _, alnum⟩ := Regex.matches_rep_char.mp accepts
  cases w with
  | nil => exact absurd least (Nat.not_le_of_lt some)
  | cons d w =>
    obtain ⟨rfl, _⟩ := List.cons.inj split
    have other := alnum c List.mem_cons_self
    rw [not_isAlnumUpper_of_space joined] at other
    cases other

/-- Where another block of four follows, the optional last block, which has three characters at
most, is shorter than this block with its space. -/
theorem length_lt_block {before before' x y rest rest' after after' : Text}
    (block : (Regex.seq (.opt (among " ")) (.times alnumRe 4)).Matches before x after)
    (tail : (Regex.opt (.seq (.opt (among " ")) (.rep alnumRe 1 (some 3)))).Matches before' y
      after')
    (same : x ++ rest = y ++ rest') : y.length < x.length := by
  -- a block takes at least four characters, an optional tail at most four
  obtain ⟨sep, four, rfl, free, block⟩ := block
  obtain ⟨length, alnum⟩ := alnumBlock_iff.mp block
  rcases Regex.matches_opt.mp tail with rfl | ⟨sep', short, rfl, free', few⟩
  · rw [List.length_append]
    exact Nat.lt_of_lt_of_le (by decide : 0 < 4) (by omega)
  · obtain ⟨_, few, _⟩ := Regex.matches_rep_char.mp few
    have few : short.length ≤ 3 := few 3 rfl
    rw [List.length_append, List.length_append]
    rcases Regex.matches_opt.mp free with rfl | ⟨c, rfl, joined⟩
    · rcases Regex.matches_opt.mp free' with rfl | ⟨d, rfl, joined'⟩
      · omega
      · -- the block would begin with the space
        cases four with
        | nil => cases length
        | cons c four =>
          obtain ⟨rfl, _⟩ := List.cons.inj same
          have other := alnum c List.mem_cons_self
          rw [not_isAlnumUpper_of_space joined'] at other
          cases other
    · rcases Regex.matches_opt.mp free' with rfl | ⟨d, rfl, _⟩
      · simp only [List.length_nil, List.length_singleton]
        omega
      · simp only [List.length_singleton]
        omega

theorem euIbanRe_matchAt_iff (tables : unicode.WordTables) {text : Text} {p q : Nat} :
    (euIbanRe unicode).matchAt text p = some q ↔
      (euIbanLayout unicode).LongestRow unicode.isWord text p q := by
  refine matchAt_iff_longestRow (fun _ => euIbanRe_iff_row tables) ?_
  refine Regex.matchAt_eq_some_iff_longest rfl ?_
  have alnum : Regex.Single alnumRe.ends := Regex.single_char _
  have block : Regex.Single (Regex.seq (.opt (among " ")) (.times alnumRe 4)).ends :=
    (Regex.single_times alnum 4).opt_char (alnum_shuns (by decide))
  have short : Regex.Descending (Regex.seq (.opt (among " ")) (.rep alnumRe 1 (some 3))).ends :=
    (Regex.descending_rep alnum 1 (some 3)).opt_char (alnum_shuns (by decide))
  have tail := short.optional.assert_end
  have country : Regex.Single (Regex.times upperRe 2).ends :=
    Regex.single_times (Regex.single_char _) 2
  have check : Regex.Single (Regex.times (decimalRe unicode) 2).ends :=
    Regex.single_times (Regex.single_char _) 2
  refine (Regex.single_assert _).andThen_descending (country.andThen_descending
    (check.andThen_descending ((Regex.descending_rep block 2 (some 7)).andThen (tail _) ?_)))
  -- a longer run of blocks always ends further right than a shorter one with its tail
  intro before rest n listed n' listed' shorter m later
  obtain ⟨u, after, rfl, rfl, _, _, _, rounds⟩ := (Regex.mem_ends _ _ _ _).mp listed
  obtain ⟨v, after', same, rfl, _, _, _, rounds'⟩ := (Regex.mem_ends _ _ _ _).mp listed'
  obtain ⟨x, rest, rfl, another, reach⟩ := rounds.exists_next block rounds' same shorter
  rw [same, List.drop_left] at later
  obtain ⟨_, _, split, rfl, y, _, rfl, tail, _, _, rfl, ⟨rfl, _⟩, rfl⟩ :=
    (Regex.mem_ends _ _ _ _).mp later
  rw [List.append_nil, List.append_nil] at split ⊢
  have less := length_lt_block another tail split
  omega

/-! ## Ukrainian IBANs -/

/-- The pattern of a Ukrainian IBAN between its boundaries. -/
def ibanUaBody (unicode : Unicode) : List Regex :=
  [.word "UA".toList, .times (decimalRe unicode) 2, .opt (among " "),
    .times (.seq (.times alnumRe 4) (.opt (among " "))) 5, .times alnumRe 5]

theorem isUpper_of_ua {letters : Text} (country : letters.take 2 = "UA".toList) :
    (letters.take 2).all Char.isUpper = true := by
  rw [country]
  decide

theorem accepts_of_ibanUaBody (tables : unicode.WordTables) {before w after : Text}
    (accepts : (Regex.cat (ibanUaBody unicode)).Matches before w after) :
    (ibanUaLayout unicode).Accepts unicode.isWord w := by
  obtain ⟨u, _, rfl, country, d, _, rfl, check, sep, _, rfl, free, middle, _, rfl,
    ⟨k, least, most, rounds⟩, last, _, rfl, tail, rfl⟩ := accepts
  obtain rfl := Regex.matches_word.mp country
  obtain ⟨two, check⟩ := Regex.matches_times_char.mp check
  obtain ⟨five, alnum⟩ := Regex.matches_times_char.mp tail
  have most : k ≤ 5 := by simpa using most 5 rfl
  obtain ⟨bs, follows, rfl, all⟩ : ∃ bs, BlockRow (ibanUaLayout unicode).joins (bs ++ [last])
      (sep ++ (middle ++ last)) ∧ bs.length = k ∧
      ∀ b ∈ bs, b.length = 4 ∧ ∀ c ∈ b, isAlnumUpper c = true :=
    blockRow_of_rounds (fun _ _ _ => alnumBlock_iff.mp) (Regex.matches_opt.mp free) rounds
  -- UA and the check digits are one block of four, then five of four, then five letters
  have lengths : (("UA".toList ++ d) :: (bs ++ [last])).map List.length =
      List.replicate 6 4 ++ [5] := by
    have whole : bs.map List.length = List.replicate 5 4 := by
      rw [List.map_eq_replicate_iff.mpr fun b member => (all b member).1,
        Nat.le_antisymm most least]
    rw [List.map_cons, List.map_append, whole, List.length_append, two, List.map_singleton, five]
    rfl
  have taken : (("UA".toList ++ d) :: (bs ++ [last])).flatten.take 2 = "UA".toList :=
    take_iban rfl _
  have behind : isIbanRest unicode ((("UA".toList ++ d) :: (bs ++ [last])).flatten.drop 2) = true :=
    (isIbanRest_iff rfl two _).mpr ⟨check, List.forall_mem_append.mpr
      ⟨fun b member => (all b member).2, List.forall_mem_singleton.mpr alnum⟩⟩
  have fits :
      (ibanUaLayout unicode).fits (("UA".toList ++ d) :: (bs ++ [last])).flatten = true := by
    simp only [ibanUaLayout, Bool.and_eq_true, decide_eq_true_eq, beq_iff_eq]
    exact ⟨⟨length_flatten_of_lengths lengths, taken⟩, behind⟩
  rw [List.append_nil, ← List.append_assoc "UA".toList]
  exact Layout.accepts_of_blockRow follows fits lengths (Nat.le_refl 5) (by decide) (Nat.succ_pos 3)
    (fun _ => not_isWord_of_space) (isWord_of_iban tables (isUpper_of_ua taken) behind)

theorem ibanUaBody_of_accepts {before w after : Text}
    (accepts : (ibanUaLayout unicode).Accepts unicode.isWord w) :
    (Regex.cat (ibanUaBody unicode)).Matches before w after := by
  obtain ⟨letters, fits, blocks⟩ := accepts.exists_letters (Nat.succ_pos 4)
  simp only [ibanUaLayout, Bool.and_eq_true, decide_eq_true_eq, beq_iff_eq] at fits
  obtain ⟨⟨total, country⟩, behind⟩ := fits
  obtain ⟨first, later, rest, rfl, follows, rfl, lengths⟩ := blocks 6 5 (by decide) (.inl rfl) total
  have lengths : (first :: later).map List.length = 4 :: (List.replicate 5 4 ++ [5]) := lengths
  obtain ⟨four, lengths⟩ := List.cons.inj lengths
  obtain ⟨middle, _, rfl, whole, ended⟩ := List.map_eq_append_iff.mp lengths
  obtain ⟨last, _, rfl, five, none⟩ := List.map_eq_cons_iff.mp ended
  obtain rfl := List.map_eq_nil_iff.mp none
  obtain ⟨number, whole⟩ := List.eq_replicate_iff.mp whole
  rw [List.length_map] at number
  -- the first block is the country and the check digits
  obtain ⟨u, d, rfl, two, two'⟩ : ∃ u d, first = u ++ d ∧ u.length = 2 ∧ d.length = 2 :=
    ⟨first.take 2, first.drop 2, (List.take_append_drop 2 first).symm, by simp [four],
      by simp [four]⟩
  rw [take_iban two] at country
  obtain ⟨check, alnum⟩ := (isIbanRest_iff two two' _).mp behind
  have block : ∀ b ∈ middle, b.length = 4 ∧ ∀ c ∈ b, isAlnumUpper c = true := fun b among =>
    ⟨whole _ (List.mem_map_of_mem among), alnum b (List.mem_append_left _ among)⟩
  obtain ⟨sep, w, rfl, free, rounds⟩ :=
    rounds_of_blockRow (fun _ _ _ => alnumBlock_iff.mpr) follows block
  refine ⟨u, _, List.append_assoc u d _, Regex.matches_word.mpr country, d, _, rfl, ?_, sep, _, rfl,
    Regex.matches_opt.mpr free, w, _, rfl, ⟨5, Nat.le_refl 5, ?_, number ▸ rounds⟩, last, [],
    (List.append_nil last).symm, ?_, rfl⟩
  · exact Regex.matches_times_char.mpr ⟨two', check⟩
  · intro h bound
    obtain rfl := Option.some.inj bound
    exact Nat.le_max_left 5 5
  · exact Regex.matches_times_char.mpr
      ⟨five, alnum last (List.mem_append_right _ (List.mem_singleton_self last))⟩

theorem ibanUaRe_iff_row (tables : unicode.WordTables) {text : Text} {p q : Nat} :
    (ibanUaRe unicode).AcceptsAt text p q ↔
      (ibanUaLayout unicode).RowAt unicode.isWord text p q :=
  acceptsAt_iff_rowAt (ibanUaBody unicode) fun _ _ _ =>
    ⟨accepts_of_ibanUaBody tables, ibanUaBody_of_accepts⟩

theorem ibanUaRe_matchAt_iff (tables : unicode.WordTables) {text : Text} {p q : Nat} :
    (ibanUaRe unicode).matchAt text p = some q ↔
      (ibanUaLayout unicode).LongestRow unicode.isWord text p q := by
  refine matchAt_iff_longestRow (fun _ => ibanUaRe_iff_row tables) ?_
  refine Regex.matchAt_eq_some_iff_of_unique rfl fun q k accepts accepts' => ?_
  refine Layout.RowAt.unique (fun w w' fits fits' => ?_) ((ibanUaRe_iff_row tables).mp accepts)
    ((ibanUaRe_iff_row tables).mp accepts')
  simp only [ibanUaLayout, Bool.and_eq_true, decide_eq_true_eq] at fits fits'
  exact fits.1.1.trans fits'.1.1.symm

end RedactGate
