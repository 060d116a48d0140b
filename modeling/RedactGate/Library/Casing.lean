import RedactGate.Library.Unicode

/-!
# Case

What comparing texts without regard to case needs beside the character tables.
-/
namespace RedactGate.Library

structure Casing extends Unicode where
  /-- The folded form of a character, which can be several characters long. -/
  casefold : Char → Text
  /-- Words with a capital first letter: what `title` makes of a text. -/
  title : Text → Text

namespace Casing

def fold (casing : Casing) (text : Text) : Text := text.flatMap casing.casefold

/-- `[^\W\d_]`. -/
def isLetter (casing : Casing) (c : Char) : Bool :=
  casing.isWord c && !casing.isDecimal c && c != '_'

def isCyrillic (c : Char) : Bool := decide (0x400 ≤ c.toNat ∧ c.toNat ≤ 0x491)

/-- The small letter of a letter of the Latin or the Cyrillic alphabets; any other character is its
own. -/
def small (c : Char) : Char :=
  if c.isUpper then c.toLower
  else if 0x410 ≤ c.toNat ∧ c.toNat ≤ 0x42F then Char.ofNat (c.toNat + 0x20)
  else if 0x400 ≤ c.toNat ∧ c.toNat ≤ 0x40F then Char.ofNat (c.toNat + 0x50)
  else if c.toNat = 0x490 then Char.ofNat 0x491
  else c

/-- The tables of the ASCII characters and the Cyrillic letters, in which every letter has one
capital and one small form. -/
def cyrillic : Casing where
  isSpace := Unicode.ascii.isSpace
  upper c := if small c = c then
      [if c.isLower then c.toUpper
        -- а to я, then ѐ to џ, then ґ
        else if 0x430 ≤ c.toNat ∧ c.toNat ≤ 0x44F then Char.ofNat (c.toNat - 0x20)
        else if 0x450 ≤ c.toNat ∧ c.toNat ≤ 0x45F then Char.ofNat (c.toNat - 0x50)
        else if c.toNat = 0x491 then Char.ofNat 0x490
        else c]
    else [c]
  nfkc text := text
  isWord c := c.isAlphanum || c == '_' || isCyrillic c
  decimal := Unicode.ascii.decimal
  isDigit := Unicode.ascii.isDigit
  sameCase c d := small c == small d
  casefold c := [small c]
  title text := text
  space_isSpace := by decide
  decimal_ascii := Unicode.ascii.decimal_ascii
  isWord_of_decimal c some := by
    have word : (c.isAlphanum || c == '_') = true := Unicode.ascii.isWord_of_decimal c some
    rw [word, Bool.true_or]
  not_isWord_space := by decide
  not_isWord_hyphen := by decide

end Casing

end RedactGate.Library
