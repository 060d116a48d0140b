import RedactGate.Library.Text
import Mathlib.Data.List.DropRight

/-!
# Character tables

The tables of the Unicode database that string methods and character classes look
up, as a parameter, and the string methods themselves.
-/
namespace RedactGate.Library

structure Unicode where
  /-- White space: what `strip` removes and `\s` accepts. -/
  isSpace : Char → Bool
  /-- The upper-case form, which can be several characters long. -/
  upper : Char → Text
  /-- The normal form NFKC. -/
  nfkc : Text → Text
  /-- Letters, digits and the underscore: what `\w` accepts. -/
  isWord : Char → Bool
  /-- The value of a decimal digit of any script: what `\d` accepts and `int` reads. -/
  decimal : Char → Option Nat
  /-- What `isdigit` accepts: superscripts, for one, are digits without being decimal. -/
  isDigit : Char → Bool
  /-- Characters that a search takes for one another when it ignores case. -/
  sameCase : Char → Char → Bool
  space_isSpace : isSpace ' ' = true
  decimal_ascii : ∀ c, c.isDigit = true → decimal c = some (c.toNat - 48)
  isWord_of_decimal : ∀ c, (decimal c).isSome = true → isWord c = true
  not_isWord_space : isWord ' ' = false
  not_isWord_hyphen : isWord '-' = false

namespace Text

/-- The text without the white space around it. -/
def strip (unicode : Unicode) (text : Text) : Text :=
  (text.dropWhile unicode.isSpace).rdropWhile unicode.isSpace

def upper (unicode : Unicode) (text : Text) : Text := text.flatMap unicode.upper

/-- Replace one character by another. -/
def replaceChar (old new : Char) (text : Text) : Text :=
  text.map fun c => if c = old then new else c

/-- The first position from `start` on at which `value` stands. -/
def find (text value : Text) (start : Nat) : Option Nat :=
  (List.range (text.length + 1)).find? fun i => decide (start ≤ i) && value.isPrefixOf (text.drop i)

/-- `value` stands at position `i`. -/
def Occurs (text value : Text) (i : Nat) : Prop := ∃ rest, text.drop i = value ++ rest

theorem occurs_iff {text value : Text} {i : Nat} :
    value.isPrefixOf (text.drop i) = true ↔ Occurs text value i := by
  rw [List.isPrefixOf_iff_prefix]
  exact ⟨fun ⟨rest, eq⟩ => ⟨rest, eq.symm⟩, fun ⟨rest, eq⟩ => ⟨rest, eq.symm⟩⟩

theorem find_spec {text value : Text} {start i : Nat} (found : text.find value start = some i) :
    start ≤ i ∧ Occurs text value i := by
  have holds := List.find?_some found
  rw [Bool.and_eq_true, decide_eq_true_eq, occurs_iff] at holds
  exact holds

/-- The position that is found is the first one. -/
theorem find_first {text value : Text} {start i : Nat} (found : text.find value start = some i)
    {j : Nat} (from_start : start ≤ j) (before : j < i) : ¬Occurs text value j := by
  intro occurs
  have none_before := (List.find?_range_eq_some.mp found).2.2 j before
  rw [occurs_iff.mpr occurs, decide_eq_true from_start] at none_before
  cases none_before

/-- A text that occurs and is not empty ends inside. -/
theorem Occurs.inside {text value : Text} {i : Nat} (occurs : Occurs text value i)
    (nonempty : value ≠ []) : i + value.length ≤ text.length := by
  obtain ⟨rest, eq⟩ := occurs
  have lengths := congrArg List.length eq
  have pos := List.length_pos_iff.mpr nonempty
  rw [List.length_drop, List.length_append] at lengths
  omega

theorem find_none {text value : Text} {start : Nat} (missing : text.find value start = none)
    (nonempty : value ≠ []) {j : Nat} (from_start : start ≤ j) : ¬Occurs text value j := by
  intro occurs
  have inside := occurs.inside nonempty
  have nowhere := List.find?_range_eq_none.mp missing j (by omega)
  rw [Bool.not_eq_true', Bool.and_eq_false_iff, decide_eq_false_iff_not] at nowhere
  rcases nowhere with before | absent
  · exact before from_start
  · rw [occurs_iff.mpr occurs] at absent
    cases absent

end Text

namespace Unicode

/-- `\d`. -/
def isDecimal (unicode : Unicode) (c : Char) : Bool := (unicode.decimal c).isSome

theorem not_isDecimal_of_not_isWord {unicode : Unicode} {c : Char}
    (outside : unicode.isWord c = false) : unicode.isDecimal c = false := by
  cases accepted : unicode.isDecimal c with
  | false => rfl
  | true => rw [unicode.isWord_of_decimal c accepted] at outside; cases outside

/-- The tables of the ASCII characters, in which normalization does nothing and letters have one
form in each case. -/
def ascii : Unicode where
  isSpace c :=
    c == ' ' || decide (9 ≤ c.toNat ∧ c.toNat ≤ 13) || decide (28 ≤ c.toNat ∧ c.toNat ≤ 31)
  upper c := [c.toUpper]
  nfkc text := text
  isWord c := c.isAlphanum || c == '_'
  decimal c := if c.isDigit then some (c.toNat - 48) else none
  isDigit c := c.isDigit
  sameCase c d := c.toLower == d.toLower
  space_isSpace := by decide
  decimal_ascii c digit := if_pos digit
  isWord_of_decimal c some := by
    have digit : c.isDigit = true := by
      by_contra other
      rw [if_neg other] at some
      cases some
    simp [Char.isAlphanum, digit]
  not_isWord_space := by decide
  not_isWord_hyphen := by decide

/-- The tables hold what ASCII says of its digits, capital letters and line feed. -/
structure AsciiTables (unicode : Unicode) : Prop where
  isSpace_newline : unicode.isSpace '\n' = true
  isDigit_of_digit : ∀ c, c.isDigit = true → unicode.isDigit c = true
  not_isSpace_of_digit : ∀ c, c.isDigit = true → unicode.isSpace c = false
  not_isDigit_of_upper : ∀ c, c.isUpper = true → unicode.isDigit c = false

/-- The ASCII capital letters are word characters. -/
structure WordTables (unicode : Unicode) : Prop where
  isWord_of_upper : ∀ c, c.isUpper = true → unicode.isWord c = true

/-- What every decimal digit is: a digit, no white space, and no lower than the ASCII digit
of its value. -/
structure DecimalTables (unicode : Unicode) : Prop where
  isDigit_of_isDecimal : ∀ c, unicode.isDecimal c = true → unicode.isDigit c = true
  not_isSpace_of_isDecimal : ∀ c, unicode.isDecimal c = true → unicode.isSpace c = false
  ascii_le : ∀ c d, unicode.decimal c = some d → 48 + d ≤ c.toNat

/-- An ASCII digit by its code point. -/
theorem toNat_of_isDigit {c : Char} (digit : c.isDigit = true) :
    48 ≤ c.toNat ∧ c.toNat ≤ 57 := Char.isDigit_iff_toNat.mp digit

theorem toNat_of_isUpper {c : Char} (capital : c.isUpper = true) :
    65 ≤ c.toNat ∧ c.toNat ≤ 90 := by
  have range : c.val ≥ 'A'.val ∧ c.val ≤ 'Z'.val := of_decide_eq_true capital
  exact ⟨UInt32.le_iff_toNat_le.mp range.1, UInt32.le_iff_toNat_le.mp range.2⟩

theorem asciiTables_ascii : ascii.AsciiTables where
  isSpace_newline := by decide
  isDigit_of_digit _ digit := digit
  not_isSpace_of_digit c digit := by
    have range := toNat_of_isDigit digit
    have no_space : c ≠ ' ' := by
      rintro rfl
      cases digit
    simp only [ascii, Bool.or_eq_false_iff, beq_eq_false_iff_ne, decide_eq_false_iff_not]
    exact ⟨⟨no_space, by omega⟩, by omega⟩
  not_isDigit_of_upper c capital := by
    have range := toNat_of_isUpper capital
    rw [ascii, Bool.eq_false_iff]
    intro digit
    have low := toNat_of_isDigit digit
    omega

theorem wordTables_ascii : ascii.WordTables where
  isWord_of_upper c capital := by
    have letter : c.isAlpha = true := (Bool.or_eq_true _ _).mpr (.inl capital)
    have alnum : c.isAlphanum = true := (Bool.or_eq_true _ _).mpr (.inl letter)
    exact (Bool.or_eq_true _ _).mpr (.inl alnum)

end Unicode

end RedactGate.Library
