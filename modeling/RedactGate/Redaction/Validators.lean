import RedactGate.Redaction.Placeholders
import RedactGate.Library.JsonPrint
import RedactGate.Library.Unicode
import Mathlib.Algebra.Ring.Int.Defs

/-!
# Check digits

The validators of the regulated identifiers. Each gets the raw text of a match and strips
the separators itself. A pack refers to them by name.
-/
namespace RedactGate

open Library

/-- `int` was given something that is not a number. -/
inductive ValueError where
  | invalidLiteral (text : Text)
  deriving DecidableEq, Repr

abbrev Validator := Text → Except ValueError Bool

section

variable (unicode : Unicode)

/-- `_digits`: strip white space and hyphens. -/
def digits (s : Text) : Text := s.filter fun c => !(unicode.isSpace c || c == '-')

/-- `str.isdigit`. -/
def isdigit (s : Text) : Bool := !s.isEmpty && s.all unicode.isDigit

/-- `int()` on a text without signs, underscores and white space: it raises unless all characters
are decimal digits. -/
def int (s : Text) : Except ValueError Nat :=
  match s.mapM unicode.decimal with
  | some (d :: ds) => .ok (ds.foldl (fun n d => 10 * n + d) d)
  | _ => .error (.invalidLiteral s)

/-- What the `i`-th digit from the right adds to the checksum. -/
def luhnTerm (i : Nat) (ch : Char) : Int :=
  let d : Int := (ch.toNat : Int) - 48
  if i % 2 = 1 then (if d * 2 > 9 then d * 2 - 9 else d * 2) else d

def luhn (s : Text) : Bool :=
  let cleaned := digits unicode s
  if cleaned.length < 2 || !isdigit unicode cleaned then false
  else
    let total := (cleaned.reverse.zipIdx.map fun (ch, i) => luhnTerm i ch).sum
    total % 10 == 0

def sinCheck (s : Text) : Bool :=
  let cleaned := digits unicode s
  if cleaned.length ≠ 9 || !isdigit unicode cleaned then false
  -- a SIN never starts with 0 or 8
  else if cleaned.head? = some '0' || cleaned.head? = some '8' then false
  else luhn unicode cleaned

/-- `[A-Z0-9]`. -/
def isAlnumUpper (c : Char) : Bool := c.isUpper || c.isDigit

/-- `_IBAN_RE`, tried at the start of the text only. -/
def ibanRe : Regex :=
  .cat [.times (.char Char.isUpper) 2, .times (.char Char.isDigit) 2,
    .rep (.char isAlnumUpper) 1 (some 30), .assert atEnd]

/-- A letter counts as two digits, `A` as 10. -/
def convertedChar (ch : Char) : Text :=
  if unicode.isDigit ch then [ch] else JsonPrint.decimal ((ch.toNat : Int) - 55)

def ibanMod97 (s : Text) : Bool :=
  let cleaned := (digits unicode s).upper unicode
  if (ibanRe.matchAt cleaned 0).isNone then false
  else
    let rearranged := cleaned.drop 4 ++ cleaned.take 4
    match int unicode (rearranged.flatMap (convertedChar unicode)) with
    | .ok n => n % 97 == 1
    | .error _ => false

def ssnCheck (s : Text) : Bool :=
  let cleaned := digits unicode s
  if cleaned.length ≠ 9 || !isdigit unicode cleaned then false
  else
    let area := cleaned.slice 0 3
    let group := cleaned.slice 3 5
    let serial := cleaned.drop 5
    -- area 000, 666 and 900 to 999 are never issued
    if area = "000".toList || area = "666".toList || area.head? = some '9' then false
    else if group = "00".toList || serial = "0000".toList then false
    else true

/-- The prefixes that no IRS campus uses. -/
def invalidPrefixes : List Text :=
  ["07", "08", "09", "17", "18", "19", "28", "29", "49", "78", "79", "89"].map String.toList

def einCheck (s : Text) : Bool :=
  let cleaned := digits unicode s
  if cleaned.length ≠ 9 || !isdigit unicode cleaned then false
  else !invalidPrefixes.contains (cleaned.take 2)

/-- `itin_check`, the only validator that can raise: `isdigit` lets digits through that `int`
refuses. -/
def itinCheck (s : Text) : Except ValueError Bool :=
  let cleaned := digits unicode s
  if cleaned.length ≠ 9 || !isdigit unicode cleaned then .ok false
  else if cleaned.head? ≠ some '9' then .ok false
  else do
    let group ← int unicode (cleaned.slice 3 5)
    return decide (50 ≤ group ∧ group ≤ 65) || decide (70 ≤ group ∧ group ≤ 88) ||
      decide (90 ≤ group ∧ group ≤ 92) || decide (94 ≤ group ∧ group ≤ 99)

/-- `edrpou_check`, `ipn_check` and `uci_check`: nothing but a number of digits. -/
def lengthCheck (least most : Nat) (s : Text) : Bool :=
  let cleaned := digits unicode s
  decide (least ≤ cleaned.length) && decide (cleaned.length ≤ most) && isdigit unicode cleaned

def edrpouCheck : Text → Bool := lengthCheck unicode 8 8

def ipnCheck : Text → Bool := lengthCheck unicode 10 10

def uciCheck : Text → Bool := lengthCheck unicode 8 10

/-- `VALIDATORS`: the validators by the names that the packs give them; only one of them can raise. -/
def validators : List (String × Validator) :=
  [("luhn", fun s => .ok (luhn unicode s)),
   ("sin_check", fun s => .ok (sinCheck unicode s)),
   ("iban_mod97", fun s => .ok (ibanMod97 unicode s)),
   ("ssn_check", fun s => .ok (ssnCheck unicode s)),
   ("ein_check", fun s => .ok (einCheck unicode s)),
   ("itin_check", itinCheck unicode),
   ("edrpou_check", fun s => .ok (edrpouCheck unicode s)),
   ("ipn_check", fun s => .ok (ipnCheck unicode s)),
   ("uci_check", fun s => .ok (uciCheck unicode s))]

/-- `get_validator`: the validator of that name, or none. -/
def getValidator (name : String) : Option Validator := (validators unicode).lookup name

end

section

variable {unicode : Unicode}

theorem mapM_decimal {s : Text} (decimals : ∀ c ∈ s, unicode.isDecimal c = true) :
    ∃ ds, s.mapM unicode.decimal = some ds ∧ ds.length = s.length := by
  induction s with
  | nil => exact ⟨[], rfl, rfl⟩
  | cons c s ih =>
    obtain ⟨ds, read, len⟩ := ih fun d member => decimals d (List.mem_cons_of_mem _ member)
    obtain ⟨d, digit⟩ := Option.isSome_iff_exists.mp (decimals c List.mem_cons_self)
    exact ⟨d :: ds, by simp [digit, read], by simp [len]⟩

theorem int_ok {s : Text} (nonempty : s ≠ []) (decimals : ∀ c ∈ s, unicode.isDecimal c = true) :
    ∃ n, int unicode s = .ok n := by
  obtain ⟨ds, read, len⟩ := mapM_decimal decimals
  cases ds with
  | nil => exact absurd (List.length_eq_zero_iff.mp len.symm) nonempty
  | cons d ds => exact ⟨_, by rw [int, read]⟩

/-- Of digits and separators of the patterns `_digits` leaves the digits: no separator survives it. -/
theorem isDecimal_of_mem_digits {s : Text}
    (chars : ∀ c ∈ s, unicode.isDecimal c = true ∨ c = ' ' ∨ c = '-') {c : Char}
    (member : c ∈ digits unicode s) : unicode.isDecimal c = true := by
  obtain ⟨original, kept⟩ := List.mem_filter.mp member
  rcases chars c original with decimal | rfl | rfl
  · exact decimal
  · simp [unicode.space_isSpace] at kept
  · simp at kept

/-- `itin_check` does not raise on decimal digits and separators: what it slices out of them is read
by `int()`. -/
theorem itinCheck_ok {s : Text}
    (chars : ∀ c ∈ s, unicode.isDecimal c = true ∨ c = ' ' ∨ c = '-') :
    ∃ accepted, itinCheck unicode s = .ok accepted := by
  unfold itinCheck
  simp only
  split
  · exact ⟨false, rfl⟩
  next nine_digits =>
    split
    · exact ⟨false, rfl⟩
    · have len : (digits unicode s).length = 9 := by
        simp only [Bool.or_eq_true, decide_eq_true_eq, not_or, Decidable.not_not] at nine_digits
        exact nine_digits.1
      have two : ((digits unicode s).slice 3 5).length = 2 := by
        rw [Text.length_slice (by omega)]
      have decimals : ∀ c ∈ (digits unicode s).slice 3 5, unicode.isDecimal c = true := by
        intro c member
        exact isDecimal_of_mem_digits chars (List.mem_of_mem_take (List.mem_of_mem_drop member))
      obtain ⟨group, read⟩ := int_ok (fun none => by simp [none] at two) decimals
      rw [read]
      exact ⟨_, rfl⟩

end

end RedactGate
