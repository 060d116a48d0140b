import RedactGate.Redaction.Checksum
import Mathlib.Algebra.GroupWithZero.Nat

/-!
# What the Luhn check detects

On ASCII digits the check notices every wrong digit and every swap of neighbours but that
of 0 and 9, and each number has one check digit. On digits of other scripts it does not
compute the checksum of the number: it lets in every character that `isdigit` accepts and
takes the code point less 48 for its value.
-/
namespace RedactGate

open Library

variable {unicode : Unicode}

/-! ## Single errors -/

theorem luhn_wrong_digit (tables : unicode.AsciiTables) {left right : Text} {c d : Char}
    (ascii : ∀ a ∈ left ++ c :: right, a.isDigit = true)
    (accepted : luhn unicode (left ++ c :: right) = true) (digit : d.isDigit = true)
    (other : d ≠ c) : luhn unicode (left ++ d :: right) = false := by
  rw [Bool.eq_false_iff]
  intro still
  have changed : ∀ a ∈ left ++ d :: right, a.isDigit = true := by
    intro a member
    simp only [List.mem_append, List.mem_cons] at member ascii
    rcases member with before | rfl | after
    · exact ascii a (.inl before)
    · exact digit
    · exact ascii a (.inr (.inr after))
  have first := ((luhn_iff_of_ascii tables ascii).mp accepted).2
  have second := ((luhn_iff_of_ascii tables changed).mp still).2
  rw [checksumFrom_at] at first second
  have digit_c : c.isDigit = true := ascii c (by simp)
  have same : (luhnTerm (0 + right.length) d - luhnTerm (0 + right.length) c) % 10 = 0 := by omega
  exact other (eq_of_luhnTerm digit digit_c same)

/-- Of two texts that differ in the order of two neighbours, with the first one accepted,
the second one is accepted when the swap goes unseen. -/
theorem luhn_swapped (tables : unicode.AsciiTables) {left right : Text} {c d : Char}
    (ascii : ∀ a ∈ left ++ c :: d :: right, a.isDigit = true)
    (accepted : luhn unicode (left ++ c :: d :: right) = true) :
    luhn unicode (left ++ d :: c :: right) = true ↔ Unseen c d := by
  have swapped : ∀ a ∈ left ++ d :: c :: right, a.isDigit = true := by
    intro a member
    refine ascii a ?_
    simp only [List.mem_append, List.mem_cons] at member ⊢
    tauto
  obtain ⟨two, divisible⟩ := (luhn_iff_of_ascii tables ascii).mp accepted
  have terms := luhnTerm_swap (i := right.length) (ascii c (by simp)) (ascii d (by simp))
  have lengths : (left ++ d :: c :: right).length = (left ++ c :: d :: right).length := by simp
  rw [luhn_iff_of_ascii tables swapped, lengths, ← terms]
  rw [checksumFrom_at, checksumFrom_cons] at divisible ⊢
  simp only [List.length_cons, Nat.zero_add] at divisible ⊢
  constructor
  · rintro ⟨_, still⟩
    omega
  · intro unseen
    exact ⟨two, by omega⟩

/-- Exactly one ASCII digit closes a number of ASCII digits: the one whose value brings the checksum
to a multiple of ten. -/
theorem luhn_check_digit (tables : unicode.AsciiTables) {s : Text} (nonempty : s ≠ [])
    (ascii : ∀ a ∈ s, a.isDigit = true) :
    ∃! d : Char, d.isDigit = true ∧ luhn unicode (s ++ [d]) = true := by
  -- behind the digit nothing is doubled that was not before, so it adds itself to the sum
  have closes (d : Char) (digit : d.isDigit = true) : luhn unicode (s ++ [d]) = true ↔
      (checksumFrom 1 s + ((d.toNat : Int) - 48)) % 10 = 0 := by
    have extended : ∀ a ∈ s ++ [d], a.isDigit = true := by
      intro a member
      rcases List.mem_append.mp member with old | new
      · exact ascii a old
      · exact List.mem_singleton.mp new ▸ digit
    have long : 2 ≤ (s ++ [d]).length := by
      have := List.length_pos_iff.mpr nonempty
      simp only [List.length_append, List.length_singleton]
      omega
    rw [luhn_iff_of_ascii tables extended, checksumFrom_append, checksumFrom_singleton,
      luhnTerm_zero]
    exact and_iff_right long
  have small : ((-checksumFrom 1 s) % 10).toNat < 10 := by omega
  have digit : (Nat.digitChar ((-checksumFrom 1 s) % 10).toNat).isDigit = true := by
    rw [Nat.isDigit_digitChar, decide_eq_true_eq]
    exact small
  refine ⟨Nat.digitChar ((-checksumFrom 1 s) % 10).toNat, ⟨digit, ?_⟩, ?_⟩
  · rw [closes _ digit, Nat.toNat_digitChar_of_lt_ten small]
    omega
  · rintro d ⟨digit_d, closed⟩
    rw [closes d digit_d] at closed
    have range := Unicode.toNat_of_isDigit digit_d
    apply Char.toNat_inj.mp
    rw [Nat.toNat_digitChar_of_lt_ten small]
    omega

/-- What the check digit catches. A text of ASCII digits that is accepted is rejected once one
digit has changed, and once two neighbours have changed places unless they are equal or are 0 and
9. Every text of ASCII digits that is not empty has exactly one check digit. The texts may be of
any length. -/
theorem luhn_detects (unicode : Unicode) (tables : unicode.AsciiTables) :
    (∀ s : Text, (∀ a ∈ s, a.isDigit = true) → luhn unicode s = true →
      (∀ left c right d, s = left ++ c :: right → d.isDigit = true → d ≠ c →
        luhn unicode (left ++ d :: right) = false) ∧
      (∀ left c d right, s = left ++ c :: d :: right →
        (luhn unicode (left ++ d :: c :: right) = true ↔
          c = d ∨ (c = '0' ∧ d = '9') ∨ (c = '9' ∧ d = '0')))) ∧
    (∀ s : Text, s ≠ [] → (∀ a ∈ s, a.isDigit = true) →
      ∃! d : Char, d.isDigit = true ∧ luhn unicode (s ++ [d]) = true) := by
  refine ⟨fun s ascii accepted => ⟨?_, ?_⟩, fun s nonempty ascii =>
    luhn_check_digit tables nonempty ascii⟩
  · rintro left c right d rfl digit other
    exact luhn_wrong_digit tables ascii accepted digit other
  · rintro left c d right rfl
    exact luhn_swapped tables ascii accepted

theorem luhn_detects_card :
    luhn Unicode.ascii "4539 1488 0343 6467".toList = true ∧
      luhn Unicode.ascii "4539148803436476".toList = false := by
  have ascii : ∀ a ∈ "4539148803436467".toList, a.isDigit = true :=
    List.all_eq_true.mp (by decide)
  have swap := ((luhn_detects Unicode.ascii Unicode.asciiTables_ascii).1
    "4539148803436467".toList ascii (by decide)).2 "45391488034364".toList '6' '7' [] (by decide)
  refine ⟨by decide, ?_⟩
  rw [Bool.eq_false_iff]
  exact fun still => absurd (swap.mp still) (by decide)

/-! ## Digits of other scripts -/

/-- What the `i`-th digit from the right adds to the sum of a number. -/
def digitTerm (i d : Nat) : Nat :=
  if i % 2 = 1 then (if 2 * d > 9 then 2 * d - 9 else 2 * d) else d

/-- Every second digit from the right doubled, less 9 when that is above 9. -/
def digitSum (ds : List Nat) : Nat :=
  (ds.reverse.zipIdx.map fun p => digitTerm p.2 p.1).sum

/-- The numeric definition: two digits at least, and a sum that ten divides. -/
def LuhnNumber (ds : List Nat) : Prop := 2 ≤ ds.length ∧ digitSum ds % 10 = 0

instance (ds : List Nat) : Decidable (LuhnNumber ds) := inferInstanceAs (Decidable (_ ∧ _))

/-- The values of the decimal digits of a text. -/
def digitValues (unicode : Unicode) (s : Text) : List Nat := s.filterMap unicode.decimal

/-- How far the code point of a digit, less 48, lies above its value: 0 in ASCII. -/
def scriptOffset (unicode : Unicode) (c : Char) : Int :=
  (c.toNat : Int) - 48 - (unicode.decimal c).getD 0

/-- What the offset adds to the sum at the `i`-th place from the right. A doubled digit below
five is one from which nothing is subtracted, until the offset lifts it above four. -/
def driftTerm (unicode : Unicode) (i : Nat) (c : Char) : Int :=
  if i % 2 = 1 then
    if (unicode.decimal c).getD 0 < 5 ∧ 4 < (unicode.decimal c).getD 0 + scriptOffset unicode c then
      2 * scriptOffset unicode c - 9
    else 2 * scriptOffset unicode c
  else scriptOffset unicode c

/-- What the scripts of the digits add to the sum of the number. -/
def drift (unicode : Unicode) (s : Text) : Int :=
  ((s.filter unicode.isDecimal).reverse.zipIdx.map fun p => driftTerm unicode p.2 p.1).sum

theorem luhnTerm_eq (tables : unicode.DecimalTables) {c : Char} {d : Nat}
    (value : unicode.decimal c = some d) (i : Nat) :
    luhnTerm i c = digitTerm i d + driftTerm unicode i c := by
  have above := tables.ascii_le c d value
  simp only [luhnTerm, digitTerm, driftTerm, scriptOffset, value, Option.getD_some]
  split
  · split <;> split <;> split <;> omega
  · omega

/-- The checksum of decimal digits is that of their values plus the drift, place by place: `ord(ch)
- 48` is the value of the ASCII digits only. -/
theorem sum_luhnTerm (tables : unicode.DecimalTables) (s : Text) :
    ∀ n, (∀ c ∈ s, unicode.isDecimal c = true) →
      ((s.zipIdx n).map fun p => luhnTerm p.2 p.1).sum =
        (((s.filterMap unicode.decimal).zipIdx n).map fun p => digitTerm p.2 p.1).sum +
          ((s.zipIdx n).map fun p => driftTerm unicode p.2 p.1).sum := by
  induction s with
  | nil => intro n _; rfl
  | cons c s ih =>
    intro n decimals
    obtain ⟨d, value⟩ := Option.isSome_iff_exists.mp (decimals c List.mem_cons_self)
    have rest := ih (n + 1) fun a member => decimals a (List.mem_cons_of_mem _ member)
    have here := luhnTerm_eq tables value n
    simp only [List.zipIdx_cons, List.map_cons, List.sum_cons, List.filterMap_cons_some value,
      Nat.cast_add] at rest ⊢
    omega

/-- What `_digits` leaves of separators and decimal digits are the digits: it takes away whitespace
and hyphens, and no digit is either. -/
theorem digits_eq_filter (tables : unicode.DecimalTables) {s : Text}
    (chars : ∀ c ∈ s, unicode.isSpace c = true ∨ c = '-' ∨ unicode.isDecimal c = true) :
    digits unicode s = s.filter unicode.isDecimal := by
  refine List.filter_congr fun c member => ?_
  cases decimal : unicode.isDecimal c with
  | true =>
    have no_space := tables.not_isSpace_of_isDecimal c decimal
    have no_hyphen : c ≠ '-' := by
      rintro rfl
      rw [Unicode.not_isDecimal_of_not_isWord unicode.not_isWord_hyphen] at decimal
      cases decimal
    simp [no_space, no_hyphen]
  | false =>
    rcases chars c member with space | hyphen | digit
    · simp [space]
    · simp [hyphen]
    · rw [decimal] at digit
      cases digit

theorem digitValues_filter (s : Text) :
    digitValues unicode (s.filter unicode.isDecimal) = digitValues unicode s := by
  rw [digitValues, List.filterMap_filter]
  refine List.filterMap_congr fun c _ => ?_
  unfold Unicode.isDecimal
  cases unicode.decimal c <;> rfl

theorem length_digitValues (s : Text) :
    (digitValues unicode s).length = (s.filter unicode.isDecimal).length := by
  rw [digitValues, List.length_filterMap_eq_countP, List.countP_eq_length_filter]
  rfl

theorem checksumFrom_filter (tables : unicode.DecimalTables) (s : Text) :
    checksumFrom 0 (s.filter unicode.isDecimal) =
      digitSum (digitValues unicode s) + drift unicode s := by
  have decimals : ∀ c ∈ (s.filter unicode.isDecimal).reverse, unicode.isDecimal c = true :=
    fun c member => (List.mem_filter.mp (List.mem_reverse.mp member)).2
  have sums := sum_luhnTerm tables (s.filter unicode.isDecimal).reverse 0 decimals
  rw [List.filterMap_reverse] at sums
  rw [checksumFrom, sums, digitSum, drift, ← digitValues_filter s]
  rfl

/-- On separators and decimal digits the check computes the sum of the number plus the
drift of its scripts. -/
theorem luhn_iff_drift (tables : unicode.DecimalTables) {s : Text}
    (chars : ∀ c ∈ s, unicode.isSpace c = true ∨ c = '-' ∨ unicode.isDecimal c = true) :
    luhn unicode s = true ↔ 2 ≤ (digitValues unicode s).length ∧
      ((digitSum (digitValues unicode s) : Int) + drift unicode s) % 10 = 0 := by
  rw [luhn_iff, digits_eq_filter tables chars, checksumFrom_filter tables, ← length_digitValues]
  constructor
  · rintro ⟨two, _, divisible⟩
    exact ⟨two, divisible⟩
  · rintro ⟨two, divisible⟩
    refine ⟨two, ?_, divisible⟩
    have nonempty : s.filter unicode.isDecimal ≠ [] := by
      intro none
      rw [length_digitValues, none] at two
      cases two
    have all : (s.filter unicode.isDecimal).all unicode.isDigit = true :=
      List.all_eq_true.mpr fun c member =>
        tables.isDigit_of_isDecimal c (List.mem_filter.mp member).2
    simp [isdigit, nonempty, all]

/-- The check gives the verdict of the numeric definition, for a text of digits, blanks and hyphens,
exactly when there are fewer than two digits, or the drift is a multiple of ten, or the sum of the
number is none and the drift does not make it one. The drift is what the scripts of the digits add
to the sum; it is zero for ASCII digits. -/
theorem luhn_numeric_iff (unicode : Unicode) (tables : unicode.DecimalTables) (s : Text)
    (chars : ∀ c ∈ s, unicode.isSpace c = true ∨ c = '-' ∨ unicode.isDecimal c = true) :
    (luhn unicode s = true ↔ LuhnNumber (digitValues unicode s)) ↔
      (digitValues unicode s).length < 2 ∨ drift unicode s % 10 = 0 ∨
        digitSum (digitValues unicode s) % 10 ≠ 0 ∧
          drift unicode s % 10 ≠ -digitSum (digitValues unicode s) % 10 := by
  rw [luhn_iff_drift tables chars, LuhnNumber]
  constructor
  · intro agrees
    by_contra apart
    simp only [not_or, not_and, not_not, not_lt] at apart
    obtain ⟨two, drifts, made_up⟩ := apart
    -- if the number is one the drift must not lift it, if it is none the drift must not make it one
    by_cases number : digitSum (digitValues unicode s) % 10 = 0
    · have still := agrees.mpr ⟨two, number⟩
      omega
    · have sums := made_up number
      exact number (agrees.mp ⟨two, by omega⟩).2
  · rintro (short | steady | ⟨no_number, apart⟩)
    · constructor <;> rintro ⟨two, _⟩ <;> omega
    · exact and_congr_right fun _ => by omega
    · constructor
      · rintro ⟨_, divisible⟩
        omega
      · rintro ⟨_, divisible⟩
        exact absurd divisible no_number

/-- ASCII with the ten Arabic-Indic digits, which are decimal digits but not the characters whose
codes the checksum reads. -/
def arabicIndic : Unicode where
  isSpace := Unicode.ascii.isSpace
  upper := Unicode.ascii.upper
  nfkc := Unicode.ascii.nfkc
  isWord c := Unicode.ascii.isWord c || decide (1632 ≤ c.toNat ∧ c.toNat ≤ 1641)
  decimal c :=
    if 1632 ≤ c.toNat ∧ c.toNat ≤ 1641 then some (c.toNat - 1632) else Unicode.ascii.decimal c
  isDigit c := Unicode.ascii.isDigit c || decide (1632 ≤ c.toNat ∧ c.toNat ≤ 1641)
  sameCase := Unicode.ascii.sameCase
  space_isSpace := Unicode.ascii.space_isSpace
  decimal_ascii c digit := by
    have range := Unicode.toNat_of_isDigit digit
    rw [if_neg (by omega)]
    exact Unicode.ascii.decimal_ascii c digit
  isWord_of_decimal c some := by
    split at some
    next here => simp [here]
    next => simp [Unicode.ascii.isWord_of_decimal c some]
  not_isWord_space := by decide
  not_isWord_hyphen := by decide

theorem decimalTables_arabicIndic : arabicIndic.DecimalTables := by
  -- the decimal digits of these tables are those of ASCII and the ten from U+0660 on
  have cases_of_decimal {c : Char} {d : Nat} (value : arabicIndic.decimal c = some d) :
      (1632 ≤ c.toNat ∧ c.toNat ≤ 1641 ∧ d = c.toNat - 1632) ∨
        (c.isDigit = true ∧ d = c.toNat - 48) := by
    simp only [arabicIndic, Unicode.ascii] at value
    split at value
    next here => exact .inl ⟨here.1, here.2, (Option.some.inj value).symm⟩
    next =>
      split at value
      next digit => exact .inr ⟨digit, (Option.some.inj value).symm⟩
      next => cases value
  refine ⟨fun c decimal => ?_, fun c decimal => ?_, fun c d value => ?_⟩
  · obtain ⟨d, value⟩ := Option.isSome_iff_exists.mp decimal
    rcases cases_of_decimal value with ⟨low, high, _⟩ | ⟨digit, _⟩
    · simp [arabicIndic, low, high]
    · simp [arabicIndic, Unicode.ascii, digit]
  · obtain ⟨d, value⟩ := Option.isSome_iff_exists.mp decimal
    rcases cases_of_decimal value with ⟨low, high, _⟩ | ⟨digit, _⟩
    · have no_space : c ≠ ' ' := by
        rintro rfl
        exact absurd low (by decide)
      simp only [arabicIndic, Unicode.ascii, Bool.or_eq_false_iff, beq_eq_false_iff_ne,
        decide_eq_false_iff_not]
      exact ⟨⟨no_space, by omega⟩, by omega⟩
    · exact Unicode.asciiTables_ascii.not_isSpace_of_digit c digit
  · rcases cases_of_decimal value with ⟨low, high, eq⟩ | ⟨digit, eq⟩
    · omega
    · have range := Unicode.toNat_of_isDigit digit
      omega

theorem luhn_numeric_iff_ascii :
    luhn arabicIndic "130 692 502".toList = true ∧
      LuhnNumber (digitValues arabicIndic "130 692 502".toList) := by
  have chars : ∀ c ∈ "130 692 502".toList, arabicIndic.isSpace c = true ∨ c = '-' ∨
      arabicIndic.isDecimal c = true := by
    have each : "130 692 502".toList.all (fun c => arabicIndic.isSpace c || c == '-' ||
        arabicIndic.isDecimal c) = true := by decide
    simpa [or_assoc] using each
  have agrees := (luhn_numeric_iff arabicIndic decimalTables_arabicIndic _ chars).mpr (by decide)
  exact ⟨agrees.mpr (by decide), by decide⟩

/-- A valid number in Arabic-Indic digits is rejected. -/
theorem luhn_rejects_arabicIndic :
    ¬(luhn arabicIndic "١٣٠ ٦٩٢ ٥٠٢".toList = true ↔
      LuhnNumber (digitValues arabicIndic "١٣٠ ٦٩٢ ٥٠٢".toList)) := by
  decide

end RedactGate
