import RedactGate.Desktop.Persons
import RedactGate.Redaction.Packs
import Mathlib.Algebra.Order.Ring.Rat
import Mathlib.Data.List.Flatten

/-!
# Amounts of money

The two rules for amounts: a number and a currency behind it, or a currency sign and a
number. A number has its digits in groups or in one run, and up to two decimals. The rules
tell where an amount stands; what it says, the number and the currency, is read here from
the parts that they accept.
-/
namespace RedactGate.Desktop

open Library

inductive Currency where
  | uah | usd | eur | cad | gbp | rub
  deriving DecidableEq

/-- A way to write a currency, with a character that can follow it, and the currency that it means. -/
structure CurrencyMark where
  text : Text
  tail : Option Char
  currency : Currency

def CurrencyMark.spellings (mark : CurrencyMark) : List Text :=
  mark.text :: mark.tail.toList.map fun c => mark.text ++ [c]

/-- `_CUR`: the words, codes and signs of currencies that stand behind a number, some with a full
stop that may be left out, and the currency that each of them means. -/
def currencyWords : List CurrencyMark :=
  [⟨"грн".toList, some '.', .uah⟩, ⟨"гривень".toList, none, .uah⟩, ⟨"гривні".toList, none, .uah⟩,
    ⟨"гривня".toList, none, .uah⟩, ⟨"UAH".toList, none, .uah⟩, ⟨"USD".toList, none, .usd⟩,
    ⟨"EUR".toList, none, .eur⟩, ⟨"CAD".toList, none, .cad⟩, ⟨"GBP".toList, none, .gbp⟩,
    ⟨"дол".toList, some '.', .usd⟩, ⟨"доларів".toList, none, .usd⟩,
    ⟨"долларов".toList, none, .usd⟩, ⟨"євро".toList, none, .eur⟩, ⟨"евро".toList, none, .eur⟩,
    ⟨"руб".toList, some '.', .rub⟩, ⟨"рублей".toList, none, .rub⟩, ⟨"₴".toList, none, .uah⟩,
    ⟨"$".toList, none, .usd⟩, ⟨"€".toList, none, .eur⟩, ⟨"£".toList, none, .gbp⟩]

/-- `[$€£₴]|CAD\$?|US\$|C\$`: the signs of currencies that stand in front of a number. -/
def currencySigns : List CurrencyMark :=
  [⟨"$".toList, none, .usd⟩, ⟨"€".toList, none, .eur⟩, ⟨"£".toList, none, .gbp⟩,
    ⟨"₴".toList, none, .uah⟩, ⟨"CAD".toList, some '$', .cad⟩, ⟨"US$".toList, none, .usd⟩,
    ⟨"C$".toList, none, .cad⟩]

/-- What stands between two groups of digits. -/
def groupSeparators : Text := [' ', '\u00a0', '\u202f', '.', ',', '\'']

def decimalSeparators : Text := ['.', ',']

/-! ## The rules -/

section

variable (casing : Casing)

def markRe (mark : CurrencyMark) : Regex :=
  .seq (.word mark.text) (mark.tail.elim .empty fun c => .opt (.lit c))

/-- `(?:[.,]\d{1,2})?`. -/
def decimalsRe : Regex :=
  .opt (.seq (.char (· ∈ decimalSeparators)) (.rep (.char casing.isDecimal) 1 (some 2)))

/-- `_NUM`: groups of three digits with a separator between them, or digits without groups, each
with or without decimals. -/
def numRe : Regex :=
  .alt
    (.cat [.rep (.char casing.isDecimal) 1 (some 3),
      .star (.seq (.char (· ∈ groupSeparators)) (.times (.char casing.isDecimal) 3)),
      decimalsRe casing])
    (.cat [.plus (.char casing.isDecimal), decimalsRe casing])

/-- `_AMOUNT`: a number with the word of a currency behind it, or a number with the sign of a
currency in front, and no word or digit that goes on beside it. -/
def amountRules : List Regex :=
  [.cat [.assert fun before _ => !before.getLast?.any fun c => casing.isWord c || c == '.' || c == ',',
      numRe casing, .opt (.char casing.isSpace), .oneOf (currencyWords.map markRe),
      .assert fun _ rest => !rest.head?.any casing.isWord],
    .cat [.assert fun before _ => !before.getLast?.any casing.isWord,
      .oneOf (currencySigns.map markRe), .opt (.char casing.isSpace), numRe casing,
      .assert fun _ rest => !rest.head?.any casing.isDecimal]]

/-- A surface that a rule for amounts accepts somewhere. -/
def IsAmount (s : Text) : Prop :=
  ∃ rule ∈ amountRules casing, ∃ before after, rule.Matches before s after

/-! ## What an amount says -/

def AllDecimal (s : Text) : Prop := ∀ c ∈ s, casing.isDecimal c = true

instance (s : Text) : Decidable (AllDecimal casing s) :=
  decidable_of_iff (s.all casing.isDecimal = true) List.all_eq_true

/-- A number in digits: the groups behind the first digits, and the decimals, each with the
separator in front. -/
structure Numeral where
  first : Text
  groups : List (Char × Text)
  decimals : Option (Char × Text)
  first_digits : first ≠ [] ∧ AllDecimal casing first
  grouped : ∀ g ∈ groups, g.1 ∈ groupSeparators ∧ g.2.length = 3 ∧ AllDecimal casing g.2
  few_first : groups ≠ [] → first.length ≤ 3
  few_decimals : ∀ d ∈ decimals, d.1 ∈ decimalSeparators ∧ 1 ≤ d.2.length ∧ d.2.length ≤ 2 ∧
    AllDecimal casing d.2

end

variable {casing : Casing}

namespace Numeral

def text (number : Numeral casing) : Text :=
  number.first ++ (number.groups.flatMap fun g => g.1 :: g.2) ++
    number.decimals.elim [] fun d => d.1 :: d.2

/-- The digits without the separators. -/
def digits (number : Numeral casing) : Text :=
  number.first ++ number.groups.flatMap Prod.snd ++ number.decimals.elim [] Prod.snd

/-- How many of the digits are decimals. -/
def places (number : Numeral casing) : Nat := number.decimals.elim 0 fun d => d.2.length

/-- The digits as one whole number. -/
def units (number : Numeral casing) : Nat :=
  number.digits.foldl (fun n c => 10 * n + (casing.decimal c).getD 0) 0

def value (number : Numeral casing) : ℚ := number.units / 10 ^ number.places

end Numeral

/-- An amount as one of the rules reads it: a number, and a currency that stands behind it as a word
or before it as a sign, with a space between them or none. -/
structure Amount (casing : Casing) where
  number : Numeral casing
  signInFront : Bool
  mark : CurrencyMark
  sign : Text
  gap : Text
  marked : mark ∈ if signInFront then currencySigns else currencyWords
  signed : sign ∈ mark.spellings
  spaced : gap = [] ∨ ∃ c, gap = [c] ∧ casing.isSpace c = true

namespace Amount

def text (amount : Amount casing) : Text :=
  if amount.signInFront then amount.sign ++ amount.gap ++ amount.number.text
  else amount.number.text ++ amount.gap ++ amount.sign

/-- The number and the currency. -/
def denote (amount : Amount casing) : ℚ × Currency := (amount.number.value, amount.mark.currency)

end Amount

/-! ## Every accepted amount is read -/

theorem matches_markRe {mark : CurrencyMark} {before w after : Text}
    (accepts : (markRe mark).Matches before w after) : w ∈ mark.spellings := by
  obtain ⟨u, v, rfl, spelled, rest⟩ := accepts
  obtain rfl := Regex.matches_word.mp spelled
  rw [CurrencyMark.spellings]
  cases tail : mark.tail with
  | none =>
    rw [tail] at rest
    obtain rfl : v = [] := rest
    simp
  | some c =>
    rw [tail] at rest
    rcases Regex.matches_opt.mp rest with rfl | followed
    · simp
    · obtain rfl := Regex.matches_lit.mp followed
      simp

/-- What the pattern of the decimals accepts is nothing, or a separator with one or two decimal
digits behind it. -/
theorem matches_decimalsRe {before w after : Text}
    (accepts : (decimalsRe casing).Matches before w after) :
    ∃ decimals : Option (Char × Text), w = decimals.elim [] (fun d => d.1 :: d.2) ∧
      ∀ d ∈ decimals, d.1 ∈ decimalSeparators ∧ 1 ≤ d.2.length ∧ d.2.length ≤ 2 ∧
        AllDecimal casing d.2 := by
  rcases Regex.matches_opt.mp accepts with rfl | ⟨_, ds, rfl, ⟨c, rfl, separator⟩, run⟩
  · exact ⟨none, rfl, by simp⟩
  · obtain ⟨least, most, all⟩ := Regex.matches_rep_char.mp run
    have few : ds.length ≤ 2 := by simpa using most 2 rfl
    refine ⟨some (c, ds), rfl, fun d same => ?_⟩
    obtain rfl := Option.some.inj same
    exact ⟨of_decide_eq_true separator, least, few, all⟩

/-- Rounds of a separator and three digits are groups of three digits, each behind its separator; by
induction on the rounds. -/
theorem groups_of_rounds {k : Nat} {before w after : Text}
    (run : Regex.Rounds (Regex.seq (.char (· ∈ groupSeparators))
      (.times (.char casing.isDecimal) 3)).Matches k before w after) :
    ∃ groups : List (Char × Text), w = groups.flatMap (fun g => g.1 :: g.2) ∧
      ∀ g ∈ groups, g.1 ∈ groupSeparators ∧ g.2.length = 3 ∧ AllDecimal casing g.2 := by
  induction k generalizing before w with
  | zero => exact ⟨[], run, by simp⟩
  | succ k ih =>
    obtain ⟨_, rest, rfl, ⟨_, ds, rfl, ⟨c, rfl, separator⟩, digits⟩, more⟩ := run
    obtain ⟨three, all⟩ := Regex.matches_times_char.mp digits
    obtain ⟨groups, rfl, grouped⟩ := ih more
    refine ⟨(c, ds) :: groups, by simp, ?_⟩
    rw [List.forall_mem_cons]
    exact ⟨⟨of_decide_eq_true separator, three, all⟩, grouped⟩

theorem exists_numeral {before w after : Text} (accepts : (numRe casing).Matches before w after) :
    ∃ number : Numeral casing, number.text = w := by
  rcases accepts with grouped | plain
  · obtain ⟨first, _, rfl, digits, _, _, rfl, ⟨k, _, _, run⟩, _, _, rfl, behind, rfl⟩ := grouped
    obtain ⟨least, most, all⟩ := Regex.matches_rep_char.mp digits
    have few : first.length ≤ 3 := by simpa using most 3 rfl
    obtain ⟨groups, rfl, grouped⟩ := groups_of_rounds run
    obtain ⟨decimals, rfl, few_decimals⟩ := matches_decimalsRe behind
    have nonempty : first ≠ [] := List.length_pos_iff.mp least
    refine ⟨⟨first, groups, decimals, ⟨nonempty, all⟩, grouped, fun _ => few, few_decimals⟩, ?_⟩
    simp [Numeral.text]
  · obtain ⟨first, _, rfl, digits, _, _, rfl, behind, rfl⟩ := plain
    obtain ⟨least, _, all⟩ := Regex.matches_rep_char.mp digits
    obtain ⟨decimals, rfl, few_decimals⟩ := matches_decimalsRe behind
    have nonempty : first ≠ [] := List.length_pos_iff.mp least
    refine ⟨⟨first, [], decimals, ⟨nonempty, all⟩, by simp, by simp, few_decimals⟩, ?_⟩
    simp [Numeral.text]

theorem spaced_of_matches {before w after : Text}
    (accepts : (Regex.opt (.char casing.isSpace)).Matches before w after) :
    w = [] ∨ ∃ c, w = [c] ∧ casing.isSpace c = true :=
  Regex.matches_opt.mp accepts

theorem exists_mark {marks : List CurrencyMark} {before w after : Text}
    (accepts : (Regex.oneOf (marks.map markRe)).Matches before w after) :
    ∃ mark ∈ marks, w ∈ mark.spellings := by
  obtain ⟨_, member, accepts⟩ := Regex.matches_oneOf.mp accepts
  obtain ⟨mark, among, rfl⟩ := List.mem_map.mp member
  exact ⟨mark, among, matches_markRe accepts⟩

/-- Every text that one of the amount rules of the engine accepts is the writing of an amount: a
number with a currency in front of it or behind it, and a space between them or none. -/
theorem exists_amount {s : Text} (accepted : IsAmount casing s) :
    ∃ amount : Amount casing, amount.text = s := by
  obtain ⟨rule, member, before, after, accepts⟩ := accepted
  rcases List.mem_pair.mp member with rfl | rfl
  · obtain ⟨_, _, rfl, ⟨rfl, _⟩, _, _, rfl, written, gap, _, rfl, space, sign, _, rfl, spelled,
      _, _, rfl, ⟨rfl, _⟩, rfl⟩ := accepts
    obtain ⟨number, rfl⟩ := exists_numeral written
    obtain ⟨mark, marked, signed⟩ := exists_mark spelled
    refine ⟨⟨number, false, mark, sign, gap, marked, signed, spaced_of_matches space⟩, ?_⟩
    simp [Amount.text]
  · obtain ⟨_, _, rfl, ⟨rfl, _⟩, sign, _, rfl, spelled, gap, _, rfl, space, _, _, rfl, written,
      _, _, rfl, ⟨rfl, _⟩, rfl⟩ := accepts
    obtain ⟨number, rfl⟩ := exists_numeral written
    obtain ⟨mark, marked, signed⟩ := exists_mark spelled
    refine ⟨⟨number, true, mark, sign, gap, marked, signed, spaced_of_matches space⟩, ?_⟩
    simp [Amount.text]

end RedactGate.Desktop
