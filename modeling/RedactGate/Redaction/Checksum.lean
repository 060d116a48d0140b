import RedactGate.Redaction.Validators
import Mathlib.Data.List.Basic

/-!
# The checksum as a sum over places

`luhn` counts places from the right, so what a digit adds depends on how many characters
follow it. The checksum of a text is cut at any place into the part before and the part
after, and a change of one digit shows as the change of one term.
-/
namespace RedactGate

open Library

/-- What `s` adds to the checksum when `n` characters follow it. -/
def checksumFrom (n : Nat) (s : Text) : Int :=
  ((s.reverse.zipIdx n).map fun p => luhnTerm p.2 p.1).sum

theorem checksumFrom_append (n : Nat) (left right : Text) :
    checksumFrom n (left ++ right) =
      checksumFrom (n + right.length) left + checksumFrom n right := by
  simp only [checksumFrom, List.reverse_append, List.zipIdx_append, List.map_append,
    List.sum_append, List.length_reverse]
  omega

theorem checksumFrom_singleton (n : Nat) (c : Char) : checksumFrom n [c] = luhnTerm n c := by
  simp [checksumFrom]

theorem checksumFrom_cons (n : Nat) (c : Char) (s : Text) :
    checksumFrom n (c :: s) = luhnTerm (n + s.length) c + checksumFrom n s := by
  rw [← List.singleton_append, checksumFrom_append, checksumFrom_singleton]

/-- The checksum around one digit. -/
theorem checksumFrom_at (n : Nat) (left : Text) (c : Char) (right : Text) :
    checksumFrom n (left ++ c :: right) = checksumFrom (n + right.length + 1) left +
      luhnTerm (n + right.length) c + checksumFrom n right := by
  rw [checksumFrom_append, checksumFrom_cons, List.length_cons, add_assoc, Nat.add_assoc]

variable {unicode : Unicode}

theorem luhn_iff {s : Text} : luhn unicode s = true ↔ 2 ≤ (digits unicode s).length ∧
    isdigit unicode (digits unicode s) = true ∧ checksumFrom 0 (digits unicode s) % 10 = 0 := by
  have shape : luhn unicode s =
      if (digits unicode s).length < 2 || !isdigit unicode (digits unicode s) then false
      else checksumFrom 0 (digits unicode s) % 10 == 0 := rfl
  rw [shape]
  split
  next refused =>
    simp only [Bool.or_eq_true, decide_eq_true_eq, Bool.not_eq_true'] at refused
    constructor
    · intro accepted
      cases accepted
    · rintro ⟨two, all, _⟩
      rcases refused with short | other
      · omega
      · rw [all] at other
        cases other
  next passed =>
    simp only [Bool.or_eq_true, decide_eq_true_eq, Bool.not_eq_true', not_or, not_lt,
      Bool.not_eq_false] at passed
    simp [passed.1, passed.2]

theorem digits_of_ascii (tables : unicode.AsciiTables) {s : Text}
    (ascii : ∀ c ∈ s, c.isDigit = true) : digits unicode s = s := by
  refine List.filter_eq_self.mpr fun c member => ?_
  have no_hyphen : c ≠ '-' := by
    rintro rfl
    exact absurd (ascii _ member) (by decide)
  simp [tables.not_isSpace_of_digit c (ascii c member), no_hyphen]

theorem luhn_iff_of_ascii (tables : unicode.AsciiTables) {s : Text}
    (ascii : ∀ c ∈ s, c.isDigit = true) :
    luhn unicode s = true ↔ 2 ≤ s.length ∧ checksumFrom 0 s % 10 = 0 := by
  rw [luhn_iff, digits_of_ascii tables ascii]
  constructor
  · rintro ⟨two, _, divisible⟩
    exact ⟨two, divisible⟩
  · rintro ⟨two, divisible⟩
    refine ⟨two, ?_, divisible⟩
    have nonempty : s ≠ [] := by
      rintro rfl
      cases two
    simpa [isdigit, nonempty] using fun c member => tables.isDigit_of_digit c (ascii c member)

/-! ## The doubling modulo ten -/

/-- Two digits that add the same to the checksum at one place, modulo ten, are the same digit. -/
theorem eq_of_luhnTerm {i : Nat} {c d : Char} (digit_c : c.isDigit = true)
    (digit_d : d.isDigit = true) (same : (luhnTerm i c - luhnTerm i d) % 10 = 0) : c = d := by
  have range_c := Unicode.toNat_of_isDigit digit_c
  have range_d := Unicode.toNat_of_isDigit digit_d
  apply Char.toNat_inj.mp
  simp only [luhnTerm] at same
  split at same
  · -- a doubled place: two digits that give the same are less than ten apart
    split at same <;> split at same <;> omega
  · omega

/-- Digits at neighbouring places can change places without notice: equal ones, 0 and 9. -/
def Unseen (c d : Char) : Prop := c = d ∨ (c = '0' ∧ d = '9') ∨ (c = '9' ∧ d = '0')

theorem luhnTerm_swap {i : Nat} {c d : Char} (digit_c : c.isDigit = true)
    (digit_d : d.isDigit = true) :
    (luhnTerm (i + 1) c + luhnTerm i d - (luhnTerm (i + 1) d + luhnTerm i c)) % 10 = 0 ↔
      Unseen c d := by
  have range_c := Unicode.toNat_of_isDigit digit_c
  have range_d := Unicode.toNat_of_isDigit digit_d
  have zero : '0'.toNat = 48 := rfl
  have nine : '9'.toNat = 57 := rfl
  simp only [Unseen, ← Char.toNat_inj, zero, nine, luhnTerm]
  -- one of the two places doubles, the other one does not
  rcases Nat.mod_two_eq_zero_or_one i with even | odd
  · have next : (i + 1) % 2 = 1 := by omega
    simp only [even, next, if_true, Nat.zero_ne_one, if_false]
    split <;> split <;> omega
  · have next : (i + 1) % 2 = 0 := by omega
    simp only [odd, next, if_true, Nat.zero_ne_one, if_false]
    split <;> split <;> omega

/-- What the last digit adds is its value. -/
theorem luhnTerm_zero (c : Char) : luhnTerm 0 c = (c.toNat : Int) - 48 := rfl

end RedactGate
