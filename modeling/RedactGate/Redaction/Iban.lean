import RedactGate.Redaction.Validators
import Mathlib.Tactic.Ring

/-!
# The number of an IBAN

Each character of the rotated text appends to a decimal number: a digit one place, a letter
two. The number is a fold over the characters, so a character in the middle counts as its
value times a power of ten.
-/
namespace RedactGate

open Library

/-- The value of a character: a digit its own, `A` to `Z` from 10 on. -/
def ibanValue (c : Char) : Nat := if c.isDigit then c.toNat - 48 else c.toNat - 55

/-- The decimal places of a character. -/
def ibanPlaces (c : Char) : Nat := if c.isDigit then 1 else 2

/-- The number that the characters of `s` append to `n`. -/
def ibanNumber (n : Nat) (s : Text) : Nat :=
  s.foldl (fun n c => 10 ^ ibanPlaces c * n + ibanValue c) n

/-- The decimal places of a text. -/
def ibanWidth (s : Text) : Nat := (s.map ibanPlaces).sum

theorem ibanNumber_append (n : Nat) (s t : Text) :
    ibanNumber n (s ++ t) = ibanNumber (ibanNumber n s) t := List.foldl_append

/-- The number of a text behind another one: what stands before it is shifted by as many places as
the text is converted to. -/
theorem ibanNumber_eq (n : Nat) (s : Text) :
    ibanNumber n s = n * 10 ^ ibanWidth s + ibanNumber 0 s := by
  induction s generalizing n with
  | nil => simp [ibanNumber, ibanWidth]
  | cons c s ih =>
    have head (m : Nat) : ibanNumber m (c :: s) =
        ibanNumber (10 ^ ibanPlaces c * m + ibanValue c) s := rfl
    have places : ibanWidth (c :: s) = ibanPlaces c + ibanWidth s := rfl
    rw [head, head, ih, ih (10 ^ ibanPlaces c * 0 + ibanValue c), places, Nat.pow_add]
    ring

theorem ibanWidth_cons (c : Char) (s : Text) : ibanWidth (c :: s) = ibanPlaces c + ibanWidth s :=
  rfl

theorem ibanWidth_le (s : Text) : ibanWidth s ≤ 2 * s.length := by
  induction s with
  | nil => exact Nat.le_refl _
  | cons c s ih =>
    have few : ibanPlaces c ≤ 2 := by
      unfold ibanPlaces
      split <;> omega
    rw [ibanWidth_cons, List.length_cons]
    omega

/-! ## The number is the one that `int` reads -/

theorem isAlnumUpper_cases {c : Char} (alnum : isAlnumUpper c = true) :
    c.isDigit = true ∨ (c.isUpper = true ∧ c.isDigit = false) := by
  rw [isAlnumUpper, Bool.or_eq_true] at alnum
  cases digit : c.isDigit with
  | true => exact .inl rfl
  | false => exact .inr ⟨alnum.resolve_right (by simp [digit]), rfl⟩

/-- Two decimal places of a letter. -/
theorem toDigits_letter : ∀ n < 36, 10 ≤ n →
    Nat.toDigits 10 n = [Nat.digitChar (n / 10), Nat.digitChar (n % 10)] := by
  decide

variable {unicode : Unicode}

theorem decimal_digitChar {d : Nat} (small : d < 10) :
    unicode.decimal (Nat.digitChar d) = some d := by
  have digit : (Nat.digitChar d).isDigit = true := by
    rw [Nat.isDigit_digitChar, decide_eq_true_eq]
    exact small
  rw [unicode.decimal_ascii _ digit, Nat.toNat_digitChar_of_lt_ten small, Nat.add_sub_cancel_left]

/-- The digits that a character is converted to are one or two, and appending them to a number is
shifting it by as many places and adding the character's value. -/
theorem mapM_convertedChar (tables : unicode.AsciiTables) {c : Char}
    (alnum : isAlnumUpper c = true) :
    ∃ ds, (convertedChar unicode c).mapM unicode.decimal = some ds ∧
      ∀ n, ds.foldl (fun n d => 10 * n + d) n = 10 ^ ibanPlaces c * n + ibanValue c := by
  rcases isAlnumUpper_cases alnum with digit | ⟨capital, no_digit⟩
  · refine ⟨[c.toNat - 48], ?_, fun n => ?_⟩
    · rw [convertedChar, if_pos (tables.isDigit_of_digit c digit)]
      simp [unicode.decimal_ascii c digit]
    · simp [ibanPlaces, ibanValue, digit]
  · have range := Unicode.toNat_of_isUpper capital
    have value : (c.toNat : Int) - 55 = ((c.toNat - 55 : Nat) : Int) := by omega
    have text : convertedChar unicode c = [Nat.digitChar ((c.toNat - 55) / 10),
        Nat.digitChar ((c.toNat - 55) % 10)] := by
      rw [convertedChar, tables.not_isDigit_of_upper c capital, if_neg Bool.false_ne_true, value]
      exact toDigits_letter (c.toNat - 55) (by omega) (by omega)
    refine ⟨[(c.toNat - 55) / 10, (c.toNat - 55) % 10], ?_, fun n => ?_⟩
    · simp [text, decimal_digitChar (show (c.toNat - 55) / 10 < 10 by omega),
        decimal_digitChar (show (c.toNat - 55) % 10 < 10 by omega)]
    · simp only [List.foldl_cons, List.foldl_nil, ibanPlaces, ibanValue, no_digit,
        Bool.false_eq_true, if_false]
      omega

theorem mapM_converted (tables : unicode.AsciiTables) {s : Text}
    (alnum : ∀ c ∈ s, isAlnumUpper c = true) :
    ∃ ds, (s.flatMap (convertedChar unicode)).mapM unicode.decimal = some ds ∧
      ∀ n, ds.foldl (fun n d => 10 * n + d) n = ibanNumber n s := by
  induction s with
  | nil => exact ⟨[], rfl, fun n => rfl⟩
  | cons c s ih =>
    obtain ⟨ds, read, fold⟩ := mapM_convertedChar tables (alnum c List.mem_cons_self)
    obtain ⟨es, read_rest, fold_rest⟩ := ih fun d member => alnum d (List.mem_cons_of_mem _ member)
    refine ⟨ds ++ es, ?_, fun n => ?_⟩
    · rw [List.flatMap_cons, List.mapM_append, read, read_rest]
      rfl
    · rw [List.foldl_append, fold, fold_rest]
      rfl

theorem int_converted (tables : unicode.AsciiTables) {s : Text}
    (alnum : ∀ c ∈ s, isAlnumUpper c = true) {n : Nat}
    (read : int unicode (s.flatMap (convertedChar unicode)) = .ok n) : n = ibanNumber 0 s := by
  obtain ⟨ds, values, fold⟩ := mapM_converted tables alnum
  rw [int, values] at read
  cases ds with
  | nil => cases read
  | cons d ds =>
    obtain rfl := Except.ok.inj read
    rw [← fold 0, List.foldl_cons, Nat.mul_zero, Nat.zero_add]

/-! ## What the check accepts -/

/-- The shape of an IBAN: two capital letters, two digits and up to thirty capital letters and
digits. -/
structure IbanShape (a b c d : Char) (body : Text) : Prop where
  country_a : a.isUpper = true
  country_b : b.isUpper = true
  check_c : c.isDigit = true
  check_d : d.isDigit = true
  short : body.length ≤ 30
  alnum : ∀ x ∈ body, isAlnumUpper x = true

/-- A character that `_digits` keeps and that is its own capital form. -/
structure PlainChar (unicode : Unicode) (c : Char) : Prop where
  no_space : unicode.isSpace c = false
  no_hyphen : c ≠ '-'
  upper_eq : unicode.upper c = [c]

theorem digits_of_plain {s : Text} (plain : ∀ c ∈ s, PlainChar unicode c) :
    (digits unicode s).upper unicode = s := by
  have kept : digits unicode s = s := List.filter_eq_self.mpr fun c member => by
    simp [(plain c member).no_space, (plain c member).no_hyphen]
  rw [kept, Text.upper]
  induction s with
  | nil => rfl
  | cons c s ih =>
    have rest := fun d member => plain d (List.mem_cons_of_mem c member)
    have tail : digits unicode s = s := List.filter_eq_self.mpr fun d member => by
      simp [(rest d member).no_space, (rest d member).no_hyphen]
    rw [List.flatMap_cons, (plain c List.mem_cons_self).upper_eq, ih rest tail]
    rfl

theorem shape_of_ibanRe {s : Text} {n : Nat} (no_newline : '\n' ∉ s)
    (found : ibanRe.matchAt s 0 = some n) :
    ∃ a b c d body, s = a :: b :: c :: d :: body ∧ IbanShape a b c d body := by
  obtain ⟨w, after, here, _, accepts⟩ := Regex.matchAt_spec found
  simp only [ibanRe, Regex.matches_cat_cons, Regex.matches_cat_nil, Regex.matches_times_char,
    Regex.matches_rep_char, Regex.matches_assert] at accepts
  obtain ⟨country, _, rfl, ⟨two, letters⟩, check, _, rfl, ⟨two', numbers⟩, body, _, rfl,
    ⟨_, most, alnum⟩, _, _, rfl, ⟨rfl, ended⟩, rfl⟩ := accepts
  have short : body.length ≤ 30 := by simpa using most 30 rfl
  obtain ⟨a, b, rfl⟩ := List.length_eq_two.mp two
  obtain ⟨c, d, rfl⟩ := List.length_eq_two.mp two'
  have rest : after = [] := by
    simp only [atEnd, Bool.or_eq_true, beq_iff_eq] at ended
    rcases ended with none | newline
    · simpa using none
    · rw [List.drop_zero] at here
      exact absurd (by simp [here, show after = ['\n'] by simpa using newline]) no_newline
  subst rest
  refine ⟨a, b, c, d, body, by simpa using here, ?_, ?_, ?_, ?_, short, alnum⟩
  · exact letters a (by simp)
  · exact letters b (by simp)
  · exact numbers c (by simp)
  · exact numbers d (by simp)

/-- The characters after the first four, and then those. -/
def rotate (s : Text) : Text := s.drop 4 ++ s.take 4

/-- An accepted text of plain characters has the shape of an IBAN, and the number that its rotated
form spells is 1 modulo 97. -/
theorem ibanMod97_spec (tables : unicode.AsciiTables) {s : Text}
    (plain : ∀ c ∈ s, PlainChar unicode c) (accepted : ibanMod97 unicode s = true) :
    (∃ a b c d body, s = a :: b :: c :: d :: body ∧ IbanShape a b c d body) ∧
      ibanNumber 0 (rotate s) % 97 = 1 := by
  have no_newline : '\n' ∉ s := fun member => by
    have space := (plain _ member).no_space
    rw [tables.isSpace_newline] at space
    cases space
  -- cleaning leaves a plain text as it is
  simp only [ibanMod97, digits_of_plain plain] at accepted
  cases found : ibanRe.matchAt s 0 with
  | none => simp [found] at accepted
  | some n =>
    obtain ⟨a, b, c, d, body, rfl, shape⟩ := shape_of_ibanRe no_newline found
    refine ⟨⟨a, b, c, d, body, rfl, shape⟩, ?_⟩
    have alnum : ∀ x ∈ rotate (a :: b :: c :: d :: body), isAlnumUpper x = true := by
      intro x member
      have letter {y : Char} (capital : y.isUpper = true) : isAlnumUpper y = true := by
        simp [isAlnumUpper, capital]
      have number {y : Char} (digit : y.isDigit = true) : isAlnumUpper y = true := by
        simp [isAlnumUpper, digit]
      simp only [rotate, List.drop_succ_cons, List.drop_zero, List.take_succ_cons, List.take_zero,
        List.mem_append, List.mem_cons, List.not_mem_nil, or_false] at member
      rcases member with inside | rfl | rfl | rfl | rfl
      · exact shape.alnum x inside
      · exact letter shape.country_a
      · exact letter shape.country_b
      · exact number shape.check_c
      · exact number shape.check_d
    simp only [found, Option.isNone_some, Bool.false_eq_true, if_false] at accepted
    -- the converted digits always read as a number
    split at accepted
    next n read =>
      rw [← int_converted tables alnum read]
      exact beq_iff_eq.mp accepted
    next => cases accepted

end RedactGate
