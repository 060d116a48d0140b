import RedactGate.Redaction.Iban
import Mathlib.Tactic.NormNum.Prime
import Mathlib.Data.Nat.Prime.Int
import Mathlib.Tactic.Linarith

/-!
# What the IBAN check detects

An accepted text differs from a wrong one in one character or in the order of two
neighbours. The difference of their numbers is a power of ten times a small number, and 97
divides neither, unless the values of a digit and a letter are as 1 to 11. Where the
neighbours stand on either side of the rotation, one of them moves from the last place to
the first: there the difference is that of the digits times one less than a power of ten,
and 97 divides none of those below the ninety-sixth.
-/
namespace RedactGate

open Library

/-! ## Modulo 97 -/

theorem prime_97 : Prime (97 : ℤ) := Nat.prime_iff_prime_int.mp (by norm_num)

theorem dvd_of_dvd_mul_pow {x : ℤ} {k : Nat} (divides : 97 ∣ x * 10 ^ k) : 97 ∣ x := by
  rcases prime_97.dvd_or_dvd divides with left | right
  · exact left
  · exact absurd (prime_97.dvd_of_dvd_pow right) (by decide)

/-- Ten has order 96 modulo 97. -/
theorem pow_ten_mod : ∀ k < 96, 0 < k → 10 ^ k % 97 ≠ 1 := by decide

theorem dvd_of_dvd_mul_pow_sub {x : ℤ} {k : Nat} (pos : 0 < k) (small : k < 96)
    (divides : 97 ∣ x * (10 ^ k - 1)) : 97 ∣ x := by
  rcases prime_97.dvd_or_dvd divides with left | right
  · exact left
  · have power : ((10 ^ k : Nat) : ℤ) = 10 ^ k := by push_cast; rfl
    rw [← power] at right
    exact absurd (by omega) (pow_ten_mod k small pos)

/-! ## The number of a changed text -/

theorem ibanPlaces_eq {c d : Char} (same : c.isDigit = d.isDigit) : ibanPlaces c = ibanPlaces d := by
  rw [ibanPlaces, ibanPlaces, same]

theorem ibanNumber_cons (n : Nat) (c : Char) (s : Text) :
    ibanNumber n (c :: s) = ibanNumber (10 ^ ibanPlaces c * n + ibanValue c) s := rfl

/-- One character for another of its kind. -/
theorem ibanNumber_replaced {c d : Char} (kind : c.isDigit = d.isDigit) (left right : Text) :
    (ibanNumber 0 (left ++ c :: right) : ℤ) - ibanNumber 0 (left ++ d :: right) =
      ((ibanValue c : ℤ) - ibanValue d) * 10 ^ ibanWidth right := by
  rw [ibanNumber_append, ibanNumber_append, ibanNumber_cons, ibanNumber_cons, ibanPlaces_eq kind,
    ibanNumber_eq _ right, ibanNumber_eq (_ + ibanValue d) right]
  push_cast
  ring

/-- By how much the number differs when two neighbours are swapped: a multiple of the power that
stands for what is behind them. -/
theorem ibanNumber_swapped (c d : Char) (left right : Text) :
    (ibanNumber 0 (left ++ c :: d :: right) : ℤ) - ibanNumber 0 (left ++ d :: c :: right) =
      ((10 ^ ibanPlaces d - 1) * ibanValue c - (10 ^ ibanPlaces c - 1) * ibanValue d) *
        10 ^ ibanWidth right := by
  simp only [ibanNumber_append, ibanNumber_cons]
  rw [ibanNumber_eq _ right, ibanNumber_eq (_ + ibanValue c) right]
  push_cast
  ring

/-- By how much the number differs when two digits at its first and its last place are exchanged. -/
theorem ibanNumber_seam {c d : Char} (digit_c : c.isDigit = true) (digit_d : d.isDigit = true)
    (s : Text) : (ibanNumber 0 (c :: (s ++ [d])) : ℤ) - ibanNumber 0 (d :: (s ++ [c])) =
      ((ibanValue c : ℤ) - ibanValue d) * (10 ^ (ibanWidth s + 1) - 1) := by
  have places {x : Char} (digit : x.isDigit = true) : ibanPlaces x = 1 := by
    rw [ibanPlaces, if_pos digit]
  have last (n : Nat) {x : Char} (digit : x.isDigit = true) :
      ibanNumber n (s ++ [x]) = 10 * ibanNumber n s + ibanValue x := by
    rw [ibanNumber_append, ibanNumber_cons, places digit]
    rfl
  rw [ibanNumber_cons, ibanNumber_cons, last _ digit_d, last _ digit_c, ibanNumber_eq _ s,
    ibanNumber_eq (_ + ibanValue d) s, Nat.mul_zero, Nat.mul_zero, Nat.zero_add, Nat.zero_add]
  push_cast
  ring

/-! ## Values -/

theorem ibanValue_digit {c : Char} (digit : c.isDigit = true) :
    ibanValue c + 48 = c.toNat ∧ ibanValue c ≤ 9 := by
  have range := Unicode.toNat_of_isDigit digit
  rw [ibanValue, if_pos digit]
  omega

theorem ibanValue_letter {c : Char} (capital : c.isUpper = true) (no_digit : c.isDigit = false) :
    ibanValue c + 55 = c.toNat ∧ 10 ≤ ibanValue c ∧ ibanValue c ≤ 35 := by
  have range := Unicode.toNat_of_isUpper capital
  rw [ibanValue, no_digit, if_neg Bool.false_ne_true]
  omega

/-- Two digits, or two letters, whose values differ by a multiple of 97 are the same character. -/
theorem eq_of_ibanValue {c d : Char} (alnum_c : isAlnumUpper c = true)
    (alnum_d : isAlnumUpper d = true) (kind : c.isDigit = d.isDigit)
    (divides : (97 : ℤ) ∣ (ibanValue c : ℤ) - ibanValue d) : c = d := by
  apply Char.toNat_inj.mp
  rcases isAlnumUpper_cases alnum_c with digit | ⟨capital, no_digit⟩
  · have value_c := ibanValue_digit digit
    have value_d := ibanValue_digit (kind ▸ digit)
    omega
  · have value_c := ibanValue_letter capital no_digit
    rcases isAlnumUpper_cases alnum_d with digit | ⟨capital', no_digit'⟩
    · rw [kind, digit] at no_digit
      cases no_digit
    · have value_d := ibanValue_letter capital' no_digit'
      omega

/-- A digit and a letter whose values are as 1 to 11. -/
def Collides (c d : Char) : Prop :=
  (c, d) ∈ [('1', 'B'), ('B', '1'), ('2', 'M'), ('M', '2'), ('3', 'X'), ('X', '3')]

/-- A digit and a letter whose two orders have the same remainder: there are three such pairs only. -/
theorem collides_of_dvd {c d : Char} (digit : c.isDigit = true) (capital : d.isUpper = true)
    (no_digit : d.isDigit = false)
    (divides : (97 : ℤ) ∣ 99 * (ibanValue c : ℤ) - 9 * ibanValue d) :
    (c = '1' ∧ d = 'B') ∨ (c = '2' ∧ d = 'M') ∨ (c = '3' ∧ d = 'X') := by
  have value_c := ibanValue_digit digit
  have value_d := ibanValue_letter capital no_digit
  obtain ⟨code_c, small_c⟩ := value_c
  obtain ⟨code_d, low_d, high_d⟩ := value_d
  have codes : ('1'.toNat = 49 ∧ 'B'.toNat = 66) ∧ ('2'.toNat = 50 ∧ 'M'.toNat = 77) ∧
      '3'.toNat = 51 ∧ 'X'.toNat = 88 := by decide
  simp only [← Char.toNat_inj, codes]
  -- 97 divides 11 times the digit less the letter, which lies between -35 and 89
  have eleven : 11 * ibanValue c = ibanValue d := by omega
  omega

/-- Two neighbours that differ and do not collide tell the two orders apart: what swapping them adds
to the number is no multiple of 97. -/
theorem not_dvd_swapped {c d : Char} (alnum_c : isAlnumUpper c = true)
    (alnum_d : isAlnumUpper d = true) (other : c ≠ d) (apart : ¬Collides c d) :
    ¬(97 : ℤ) ∣ (10 ^ ibanPlaces d - 1) * ibanValue c - (10 ^ ibanPlaces c - 1) * ibanValue d := by
  intro divides
  rcases isAlnumUpper_cases alnum_c with digit_c | ⟨capital_c, no_digit_c⟩ <;>
    rcases isAlnumUpper_cases alnum_d with digit_d | ⟨capital_d, no_digit_d⟩
  · -- two digits: nine times the difference
    simp only [ibanPlaces, digit_c, digit_d, if_true] at divides
    exact other (eq_of_ibanValue alnum_c alnum_d (digit_c.trans digit_d.symm) (by omega))
  · simp only [ibanPlaces, digit_c, no_digit_d, if_true, Bool.false_eq_true, if_false] at divides
    rcases collides_of_dvd digit_c capital_d no_digit_d (by omega) with
      ⟨rfl, rfl⟩ | ⟨rfl, rfl⟩ | ⟨rfl, rfl⟩ <;> exact apart (by unfold Collides; decide)
  · simp only [ibanPlaces, no_digit_c, digit_d, if_true, Bool.false_eq_true, if_false] at divides
    rcases collides_of_dvd digit_d capital_c no_digit_c (by omega) with
      ⟨rfl, rfl⟩ | ⟨rfl, rfl⟩ | ⟨rfl, rfl⟩ <;> exact apart (by unfold Collides; decide)
  · -- two letters: ninety-nine times the difference
    simp only [ibanPlaces, no_digit_c, no_digit_d, Bool.false_eq_true, if_false] at divides
    exact other (eq_of_ibanValue alnum_c alnum_d (no_digit_c.trans no_digit_d.symm) (by omega))

/-! ## The rotation -/

/-- A character keeps its surroundings when it is replaced in a text that is rotated afterwards. -/
theorem rotate_at (left right : Text) :
    ∃ l r, ∀ x, rotate (left ++ x :: right) = l ++ x :: r := by
  by_cases early : left.length < 4
  · obtain ⟨k, places⟩ : ∃ k, 4 - left.length = k + 1 := ⟨3 - left.length, by omega⟩
    refine ⟨right.drop k ++ left, right.take k, fun x => ?_⟩
    rw [rotate, List.drop_append, List.drop_eq_nil_of_le (by omega), List.take_append,
      List.take_of_length_le (by omega), places]
    simp
  · refine ⟨left.drop 4, right ++ left.take 4, fun x => ?_⟩
    rw [rotate, List.drop_append_of_le_length (by omega), List.take_append_of_le_length (by omega)]
    simp

/-- Two neighbours are neighbours in the rotated text too, unless the rotation cuts between them. -/
theorem rotate_at_pair (left right : Text) (off_seam : left.length ≠ 3) :
    ∃ l r, ∀ x y, rotate (left ++ x :: y :: right) = l ++ x :: y :: r := by
  by_cases early : left.length < 4
  · obtain ⟨k, places⟩ : ∃ k, 4 - left.length = k + 2 := ⟨2 - left.length, by omega⟩
    refine ⟨right.drop k ++ left, right.take k, fun x y => ?_⟩
    rw [rotate, List.drop_append, List.drop_eq_nil_of_le (by omega), List.take_append,
      List.take_of_length_le (by omega), places]
    simp
  · refine ⟨left.drop 4, right ++ left.take 4, fun x y => ?_⟩
    rw [rotate, List.drop_append_of_le_length (by omega), List.take_append_of_le_length (by omega)]
    simp

theorem rotate_at_seam {left : Text} (seam : left.length = 3) (x y : Char) (right : Text) :
    rotate (left ++ x :: y :: right) = y :: ((right ++ left) ++ [x]) := by
  rw [rotate, List.drop_append, List.drop_eq_nil_of_le (by omega), List.take_append,
    List.take_of_length_le (by omega), seam]
  simp

/-! ## What is rejected -/

theorem IbanShape.alnum_all {a b c d : Char} {body : Text} (shape : IbanShape a b c d body) :
    ∀ x ∈ a :: b :: c :: d :: body, isAlnumUpper x = true := by
  intro x member
  simp only [List.mem_cons] at member
  rcases member with rfl | rfl | rfl | rfl | inside
  · simp [isAlnumUpper, shape.country_a]
  · simp [isAlnumUpper, shape.country_b]
  · simp [isAlnumUpper, shape.check_c]
  · simp [isAlnumUpper, shape.check_d]
  · exact shape.alnum x inside

variable {unicode : Unicode}

/-- What is accepted consists of capital letters and digits. -/
theorem alnum_of_accepted (tables : unicode.AsciiTables) {s : Text}
    (plain : ∀ c ∈ s, PlainChar unicode c) (accepted : ibanMod97 unicode s = true) :
    ∀ x ∈ s, isAlnumUpper x = true := by
  obtain ⟨⟨a, b, c, d, body, rfl, shape⟩, _⟩ := ibanMod97_spec tables plain accepted
  exact shape.alnum_all

/-- Two accepted texts have numbers that differ by a multiple of 97. -/
theorem dvd_of_accepted (tables : unicode.AsciiTables) {s t : Text}
    (plain_s : ∀ c ∈ s, PlainChar unicode c) (plain_t : ∀ c ∈ t, PlainChar unicode c)
    (accepted_s : ibanMod97 unicode s = true) (accepted_t : ibanMod97 unicode t = true) :
    (97 : ℤ) ∣ (ibanNumber 0 (rotate s) : ℤ) - ibanNumber 0 (rotate t) := by
  have one_s := (ibanMod97_spec tables plain_s accepted_s).2
  have one_t := (ibanMod97_spec tables plain_t accepted_t).2
  omega

/-- The kinds of capital letters and digits. -/
theorem isDigit_eq (tables : unicode.AsciiTables) {c : Char} (alnum : isAlnumUpper c = true) :
    unicode.isDigit c = c.isDigit := by
  rcases isAlnumUpper_cases alnum with digit | ⟨capital, no_digit⟩
  · rw [digit, tables.isDigit_of_digit c digit]
  · rw [no_digit, tables.not_isDigit_of_upper c capital]

theorem iban_replaced (tables : unicode.AsciiTables) {left right : Text} {c d : Char}
    (plain : ∀ x ∈ left ++ c :: right, PlainChar unicode x)
    (accepted : ibanMod97 unicode (left ++ c :: right) = true) (plain_d : PlainChar unicode d)
    (other : d ≠ c) (kind : unicode.isDigit d = unicode.isDigit c) :
    ibanMod97 unicode (left ++ d :: right) = false := by
  rw [Bool.eq_false_iff]
  intro still
  have plain' : ∀ x ∈ left ++ d :: right, PlainChar unicode x := by
    intro x member
    simp only [List.mem_append, List.mem_cons] at member plain
    rcases member with before | rfl | after
    · exact plain x (.inl before)
    · exact plain_d
    · exact plain x (.inr (.inr after))
  have alnum_c := alnum_of_accepted tables plain accepted c (by simp)
  have alnum_d := alnum_of_accepted tables plain' still d (by simp)
  rw [isDigit_eq tables alnum_c, isDigit_eq tables alnum_d] at kind
  have divides := dvd_of_accepted tables plain' plain still accepted
  obtain ⟨l, r, rotated⟩ := rotate_at left right
  rw [rotated, rotated, ibanNumber_replaced kind] at divides
  exact other (eq_of_ibanValue alnum_d alnum_c kind (dvd_of_dvd_mul_pow divides))

theorem iban_swapped (tables : unicode.AsciiTables) {left right : Text} {c d : Char}
    (plain : ∀ x ∈ left ++ c :: d :: right, PlainChar unicode x)
    (accepted : ibanMod97 unicode (left ++ c :: d :: right) = true) (other : c ≠ d)
    (apart : ¬Collides c d) : ibanMod97 unicode (left ++ d :: c :: right) = false := by
  rw [Bool.eq_false_iff]
  intro still
  have plain' : ∀ x ∈ left ++ d :: c :: right, PlainChar unicode x := by
    intro x member
    refine plain x ?_
    simp only [List.mem_append, List.mem_cons] at member ⊢
    tauto
  have alnum := alnum_of_accepted tables plain accepted
  have divides := dvd_of_accepted tables plain plain' accepted still
  by_cases seam : left.length = 3
  · -- the fourth character of an accepted text is a digit, here both before and after
    obtain ⟨⟨a, b, x, y, body, here, shape⟩, _⟩ := ibanMod97_spec tables plain accepted
    obtain ⟨⟨a', b', x', y', body', here', shape'⟩, _⟩ := ibanMod97_spec tables plain' still
    obtain ⟨l₁, l₂, l₃, rfl⟩ := List.length_eq_three.mp seam
    simp only [List.cons_append, List.nil_append, List.cons.injEq] at here here'
    obtain ⟨rfl, rfl, rfl, rfl, rfl⟩ := here
    obtain ⟨-, -, -, rfl, -⟩ := here'
    rw [rotate_at_seam rfl, rotate_at_seam rfl,
      ibanNumber_seam shape'.check_d shape.check_d] at divides
    have wide := ibanWidth_le (right ++ [l₁, l₂, l₃])
    have short := shape.short
    simp only [List.length_append, List.length_cons, List.length_nil] at wide short
    have same := dvd_of_dvd_mul_pow_sub (Nat.succ_pos _) (by omega) divides
    exact other (eq_of_ibanValue (alnum d (by simp)) (alnum c (by simp))
      (shape'.check_d.trans shape.check_d.symm) same).symm
  · obtain ⟨l, r, rotated⟩ := rotate_at_pair left right seam
    rw [rotated, rotated, ibanNumber_swapped] at divides
    exact not_dvd_swapped (alnum c (by simp)) (alnum d (by simp)) other apart
      (dvd_of_dvd_mul_pow divides)

/-- What the check digits catch, at every length. An accepted text without separators and small
letters is rejected after a digit has become another digit or a letter another letter, and after two
different neighbours have changed places, but for the pairs 1B, 2M and 3X, which spell out the same
digits in both orders. -/
theorem ibanMod97_detects (unicode : Unicode) (tables : unicode.AsciiTables) (s : Text)
    (plain : ∀ c ∈ s, PlainChar unicode c) (accepted : ibanMod97 unicode s = true) :
    (∀ left c right d, s = left ++ c :: right → PlainChar unicode d → d ≠ c →
      unicode.isDigit d = unicode.isDigit c → ibanMod97 unicode (left ++ d :: right) = false) ∧
    (∀ left c d right, s = left ++ c :: d :: right → c ≠ d → ¬Collides c d →
      ibanMod97 unicode (left ++ d :: c :: right) = false) := by
  constructor
  · rintro left c right d rfl plain_d other kind
    exact iban_replaced tables plain accepted plain_d other kind
  · rintro left c d right rfl other apart
    exact iban_swapped tables plain accepted other apart

theorem ibanMod97_detects_seam :
    ibanMod97 Unicode.ascii "DE89370400440532013000".toList = true ∧
      ibanMod97 Unicode.ascii "DE83970400440532013000".toList = false := by
  have plain : ∀ c ∈ "DE89370400440532013000".toList, PlainChar Unicode.ascii c := by
    have each : "DE89370400440532013000".toList.all (fun c => !Unicode.ascii.isSpace c &&
        c != '-' && Unicode.ascii.upper c == [c]) = true := by decide
    intro c member
    have here := List.all_eq_true.mp each c member
    simp only [Bool.and_eq_true, Bool.not_eq_true', bne_iff_ne, beq_iff_eq] at here
    exact ⟨here.1.1, here.1.2, here.2⟩
  have accepted : ibanMod97 Unicode.ascii "DE89370400440532013000".toList = true := by decide
  refine ⟨accepted, ?_⟩
  exact (ibanMod97_detects Unicode.ascii Unicode.asciiTables_ascii _ plain accepted).2
    "DE8".toList '9' '3' "70400440532013000".toList (by decide) (by decide)
    (by unfold Collides; decide)

end RedactGate
