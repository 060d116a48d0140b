import RedactGate.Desktop.Amounts
import RedactGate.Desktop.FiledValues
import Mathlib.Tactic.NormNum.Ineq

/-!
# Labels of different values

An amount is filed under its digits, and a phone number under the last nine of them. What
the separators and the currency of an amount say is lost, and so is the first digit of a
phone number with ten. Two amounts with the same digits get one label, whatever they say;
all others are told apart in every run.
-/
namespace RedactGate.Desktop

open Library

def amountCategory : Text := "AMOUNT".toList

def phoneCategory : Text := "PHONE".toList

/-- Two values of a category are told apart: their normal forms differ, they never share a
label, and in a run without edits the label of the first one never restores the second. -/
structure Anonymizer.ToldApart (anon : Anonymizer) (c a b : Text) : Prop where
  keys : normalize anon.casing c a ≠ normalize anon.casing c b
  labels : ∀ st key st₁ st₂ key' st₃, Reaches anon.step .new st →
    anon.resolve st c a .auto = some (key, st₁) →
    ReachesBy (fun _ action => action ≠ .delete key) anon.step st₁ st₂ →
    anon.resolve st₂ c b .auto = some (key', st₃) → key ≠ key'
  restored : ∀ st key st₁ st₂ e, ReachesBy (fun _ action => anon.KeepsValues action) anon.step .new st →
    anon.resolve st c a .auto = some (key, st₁) →
    ReachesBy (fun _ action => anon.KeepsValues action ∧ action ≠ .delete key) anon.step st₁ st₂ →
    st₂.entityOf anon.order key = some e → e.value ≠ b

/-- A surface that the pattern for phone numbers accepts somewhere. -/
def IsPhone (casing : Casing) (s : Text) : Prop :=
  ∃ before after, (phoneRe casing.toUnicode).Matches before s after

/-- The characters of an amount that are no digits, and the one that parts a category from a
normal form. -/
def literals : Text :=
  (currencyWords ++ currencySigns).flatMap (fun mark => mark.text ++ mark.tail.toList) ++
    groupSeparators ++ decimalSeparators ++ [':']

/-- What the tables say of the characters of amounts and phone numbers. -/
structure AmountTables (casing : Casing) : Prop where
  not_isSpace : ∀ c, casing.isDecimal c = true → casing.isSpace c = false
  literal : ∀ c ∈ literals, casing.isDecimal c = false

variable {anon : Anonymizer} {casing : Casing} {c a b : Text}

/-! ## Normal forms -/

/-- White space around a text has no digits, so that stripping the text takes no digit away. -/
theorem filter_strip (tables : AmountTables casing) (s : Text) :
    (Text.strip casing.toUnicode s).filter casing.isDecimal = s.filter casing.isDecimal := by
  have spaces {s : Text} (all : ∀ c ∈ s, casing.isSpace c = true) : s.filter casing.isDecimal = [] := by
    rw [List.filter_eq_nil_iff]
    intro c member digit
    cases (all c member).symm.trans (tables.not_isSpace c digit)
  have front (s : Text) : (s.dropWhile casing.isSpace).filter casing.isDecimal =
      s.filter casing.isDecimal := by
    conv_rhs => rw [← List.takeWhile_append_dropWhile (p := casing.isSpace) (l := s)]
    rw [List.filter_append, spaces fun c member => List.mem_takeWhile_imp member, List.nil_append]
  rw [Text.strip, List.rdropWhile, List.filter_reverse, front, ← List.filter_reverse,
    List.reverse_reverse, front]

theorem normalize_amount (tables : AmountTables casing) (s : Text) :
    normalize casing amountCategory s = s.filter casing.isDecimal := by
  rw [← filter_strip tables]
  rfl

theorem normalize_phone (tables : AmountTables casing) {s : Text}
    (ten : (s.filter casing.isDecimal).length = 10) :
    normalize casing phoneCategory s = (s.filter casing.isDecimal).tail := by
  have shape : normalize casing phoneCategory s =
      ((Text.strip casing.toUnicode s).filter casing.isDecimal).drop
        (((Text.strip casing.toUnicode s).filter casing.isDecimal).length - 9) := rfl
  rw [shape, filter_strip tables, ten, List.drop_one]

theorem filter_of_allDecimal {s : Text} (all : AllDecimal casing s) :
    s.filter casing.isDecimal = s := List.filter_eq_self.mpr all

/-- The digits of the text of a number are the digits of the number: neither separators nor the
decimal mark are digits. -/
theorem Numeral.filter_text (tables : AmountTables casing) (number : Numeral casing) :
    number.text.filter casing.isDecimal = number.digits := by
  have separator {c : Char} (member : c ∈ groupSeparators ∨ c ∈ decimalSeparators) :
      casing.isDecimal c = false := by
    apply tables.literal
    simp only [literals, List.mem_append]
    tauto
  have groups : (number.groups.flatMap fun g => g.1 :: g.2).filter casing.isDecimal =
      number.groups.flatMap Prod.snd := by
    rw [List.filter_flatMap]
    refine List.flatMap_congr fun g member => ?_
    obtain ⟨between, _, all⟩ := number.grouped g member
    rw [List.filter_cons_of_neg (by simp [separator (.inl between)]), filter_of_allDecimal all]
  have decimals : (number.decimals.elim [] fun d => d.1 :: d.2).filter casing.isDecimal =
      number.decimals.elim [] Prod.snd := by
    cases behind : number.decimals with
    | none => rfl
    | some d =>
      obtain ⟨point, _, _, all⟩ := number.few_decimals d behind
      rw [Option.elim_some, Option.elim_some,
        List.filter_cons_of_neg (by simp [separator (.inr point)]), filter_of_allDecimal all]
  rw [Numeral.text, List.filter_append, List.filter_append,
    filter_of_allDecimal number.first_digits.2, groups, decimals, Numeral.digits]

/-- None of the characters of a currency, in whichever of its spellings, is a digit, and so none is
left by the normal form of an amount. -/
theorem filter_sign (tables : AmountTables casing) {mark : CurrencyMark} {sign : Text}
    (marked : mark ∈ currencyWords ++ currencySigns) (signed : sign ∈ mark.spellings) :
    sign.filter casing.isDecimal = [] := by
  rw [List.filter_eq_nil_iff]
  intro c member
  have among : c ∈ mark.text ++ mark.tail.toList := by
    rcases List.mem_cons.mp signed with rfl | followed
    · exact List.mem_append_left _ member
    · obtain ⟨d, tail, rfl⟩ := List.mem_map.mp followed
      rcases List.mem_append.mp member with member | single
      · exact List.mem_append_left _ member
      · exact List.mem_append_right _ (List.mem_singleton.mp single ▸ tail)
  have literal : c ∈ literals := by
    simp only [literals, List.mem_append, List.mem_flatMap] at marked among ⊢
    exact .inl (.inl (.inl ⟨mark, marked, among⟩))
  rw [tables.literal c literal]
  exact Bool.false_ne_true

/-- An amount is filed under its digits alone: separators, decimal mark and currency are left out,
whichever side the currency stands on. -/
theorem Amount.normalize_text (tables : AmountTables casing) (amount : Amount casing) :
    normalize casing amountCategory amount.text = amount.number.digits := by
  have marked : amount.mark ∈ currencyWords ++ currencySigns := by
    have here := amount.marked
    split at here
    · exact List.mem_append_right _ here
    · exact List.mem_append_left _ here
  have sign := filter_sign tables marked amount.signed
  have gap : amount.gap.filter casing.isDecimal = [] := by
    rcases amount.spaced with none | ⟨c, single, space⟩
    · rw [none, List.filter_nil]
    · have other : casing.isDecimal c = false := by
        cases digit : casing.isDecimal c with
        | false => rfl
        | true => cases space.symm.trans (tables.not_isSpace c digit)
      rw [single, List.filter_cons_of_neg (by simp [other]), List.filter_nil]
  have number := amount.number.filter_text tables
  rw [normalize_amount tables, Amount.text]
  split
  · rw [List.filter_append, List.filter_append, sign, gap, number, List.nil_append, List.nil_append]
  · rw [List.filter_append, List.filter_append, sign, gap, number, List.append_nil, List.append_nil]

/-! ## Values told apart -/

/-- Two values of a category other than persons are told apart, if their normal forms differ and
neither the category nor the forms have a colon. -/
theorem toldApart_of_normalize_ne (hmac : HmacInjective anon.vault.crypto) (plain : ':' ∉ c)
    (other : c ≠ person) (free : ':' ∉ normalize anon.casing c a)
    (free' : ':' ∉ normalize anon.casing c b)
    (differ : normalize anon.casing c a ≠ normalize anon.casing c b) : anon.ToldApart c a b where
  keys := differ
  labels st key st₁ st₂ key' st₃ reached first run second := by
    rintro rfl
    have filing := filing_of_reaches hmac plain other reached
    exact differ (filing.normalize_eq hmac plain other free free' first run second)
  restored st key st₁ st₂ e reached first run found := by
    rintro rfl
    have filing := filing_of_reaches hmac plain other reached.reaches
    have filed : anon.FiledByValue st.tables := reached.invariant
      (P := fun st => anon.FiledByValue st.tables) (fun _ absent => absurd absent List.not_mem_nil)
      fun _ _ _ before keeps taken => filedByValue_step taken keeps before
    have stepped := step_of_resolve first
    have files : anon.Files c (anon.valueFp c a) := ⟨_, free, rfl⟩
    have registered := filing.registered_of_resolve other files first
    -- up to the restoring the label keeps the fingerprint, and every entity its value
    have kept : Filing anon c st₂ ∧ anon.FiledByValue st₂.tables ∧
        st₂.tables.Registered (anon.valueFp c a) key := by
      refine run.invariant (P := fun st => Filing anon c st ∧ anon.FiledByValue st.tables ∧
        st.tables.Registered (anon.valueFp c a) key) ?_ ?_
      · exact ⟨filing.step hmac plain other stepped, filedByValue_step stepped trivial filed,
          registered⟩
      · intro st action st' ⟨filing, filed, registered⟩ ⟨keeps, undeleted⟩ taken
        exact ⟨filing.step hmac plain other taken, filedByValue_step taken keeps filed,
          registered_of_step filing.good taken undeleted registered⟩
    obtain ⟨filing₂, filed₂, registered₂⟩ := kept
    exact differ (filing₂.normalize_value hmac plain other filed₂ free registered₂ found).symm

/-- Texts of digits have no colon. -/
theorem colon_notMem_filter (tables : AmountTables casing) (s : Text) :
    ':' ∉ s.filter casing.isDecimal := by
  intro member
  have colon : ':' ∈ literals := List.mem_append_right _ (List.mem_singleton_self _)
  cases (List.mem_filter.mp member).2.symm.trans (tables.literal ':' colon)

/-- Amounts with the same digits say the same if they have the same currency and as many
decimals, or if they are nothing. -/
theorem Amount.denote_eq_iff {x y : Amount casing} (same : x.number.digits = y.number.digits) :
    x.denote = y.denote ↔ x.mark.currency = y.mark.currency ∧
      (x.number.places = y.number.places ∨ x.number.units = 0) := by
  have units : x.number.units = y.number.units := by rw [Numeral.units, same, Numeral.units]
  have powers : (10 : ℚ) ^ x.number.places = 10 ^ y.number.places ↔
      x.number.places = y.number.places :=
    (pow_right_injective₀ (by norm_num) (by norm_num)).eq_iff
  have value : x.number.value = y.number.value ↔
      x.number.places = y.number.places ∨ x.number.units = 0 := by
    rw [Numeral.value, Numeral.value, ← units]
    by_cases zero : x.number.units = 0
    · simp [zero]
    · have nonzero : (x.number.units : ℚ) ≠ 0 := Nat.cast_ne_zero.mpr zero
      rw [div_eq_mul_inv, div_eq_mul_inv, mul_right_inj' nonzero, inv_inj, powers, or_iff_left zero]
  rw [Amount.denote, Amount.denote, Prod.mk.injEq, value, and_comm]

/-- Two amounts that say different things are told apart unless they have the same digits in the
same order; two phone numbers with ten digits are told apart unless they differ in the first digit
alone. Every text that the rule reads as an amount is one, with a number and a currency. -/
theorem values_told_apart_iff (anon : Anonymizer) (hmac : HmacInjective anon.vault.crypto)
    (tables : AmountTables anon.casing) :
    (∀ s, IsAmount anon.casing s → ∃ x : Amount anon.casing, x.text = s) ∧
    (∀ x y : Amount anon.casing,
      (x.denote ≠ y.denote → anon.ToldApart amountCategory x.text y.text) ↔
        (x.number.digits = y.number.digits → x.mark.currency = y.mark.currency ∧
          (x.number.places = y.number.places ∨ x.number.units = 0))) ∧
    ∀ s t, IsPhone anon.casing s → IsPhone anon.casing t →
      (s.filter anon.casing.isDecimal).length = 10 → (t.filter anon.casing.isDecimal).length = 10 →
      ((s.filter anon.casing.isDecimal ≠ t.filter anon.casing.isDecimal →
          anon.ToldApart phoneCategory s t) ↔
        ((s.filter anon.casing.isDecimal).tail = (t.filter anon.casing.isDecimal).tail →
          s.filter anon.casing.isDecimal = t.filter anon.casing.isDecimal)) := by
  -- amounts and ten-digit phones have a normal form free of colons, so equal keys mean equal normal
  -- forms
  refine ⟨fun s => exists_amount, fun x y => ?_, fun s t _ _ ten ten' => ?_⟩
  · have colon (z : Amount anon.casing) : ':' ∉ normalize anon.casing amountCategory z.text := by
      rw [normalize_amount tables]
      exact colon_notMem_filter tables z.text
    constructor
    · intro told same
      rw [← Amount.denote_eq_iff same]
      by_contra differ
      apply (told differ).keys
      rw [x.normalize_text tables, y.normalize_text tables, same]
    · intro agree differ
      apply toldApart_of_normalize_ne hmac (by decide) (by decide) (colon x) (colon y)
      rw [x.normalize_text tables, y.normalize_text tables]
      exact fun same => differ ((Amount.denote_eq_iff same).mpr (agree same))
  · have colon {s : Text} (ten : (s.filter anon.casing.isDecimal).length = 10) :
        ':' ∉ normalize anon.casing phoneCategory s := by
      rw [normalize_phone tables ten]
      exact fun member => colon_notMem_filter tables s (List.mem_of_mem_tail member)
    constructor
    · intro told same
      by_contra differ
      apply (told differ).keys
      rw [normalize_phone tables ten, normalize_phone tables ten', same]
    · intro agree differ
      apply toldApart_of_normalize_ne hmac (by decide) (by decide) (colon ten) (colon ten')
      rw [normalize_phone tables ten, normalize_phone tables ten']
      exact fun same => differ (agree same)

/-! ## Amounts and phone numbers -/

theorem amountTables_cyrillic : AmountTables Casing.cyrillic where
  not_isSpace c digit := by
    have decimal : (if c.isDigit then some (c.toNat - 48) else none).isSome = true := digit
    have ascii : c.isDigit = true := by
      by_contra other
      rw [if_neg other] at decimal
      cases decimal
    exact Unicode.asciiTables_ascii.not_isSpace_of_digit c ascii
  literal c member := by
    have all : literals.all (fun c => !Casing.cyrillic.isDecimal c) = true := by decide
    simpa using List.all_eq_true.mp all c member

/-- An amount behind which the word of a currency stands after a space, with a number in one group
and maybe decimals. -/
def amountIn (mark : CurrencyMark) (first : Text) (decimals : Option (Char × Text))
    (marked : mark ∈ currencyWords) (first_digits : first ≠ [] ∧ AllDecimal Casing.cyrillic first)
    (few_decimals : ∀ d ∈ decimals, d.1 ∈ decimalSeparators ∧ 1 ≤ d.2.length ∧ d.2.length ≤ 2 ∧
      AllDecimal Casing.cyrillic d.2) : Amount Casing.cyrillic where
  number := ⟨first, [], decimals, first_digits, by simp, by simp, few_decimals⟩
  signInFront := false
  mark := mark
  sign := mark.text
  gap := [' ']
  marked := marked
  signed := List.mem_cons_self
  spaced := .inr ⟨' ', rfl, by decide⟩

def dollars : CurrencyMark := ⟨"USD".toList, none, .usd⟩

def euros : CurrencyMark := ⟨"EUR".toList, none, .eur⟩

theorem dollars_mem : dollars ∈ currencyWords := by simp [currencyWords, dollars]

theorem euros_mem : euros ∈ currencyWords := by simp [currencyWords, euros]

/-- `1.50 USD`. -/
def oneAndAHalf : Amount Casing.cyrillic :=
  amountIn dollars ['1'] (some ('.', ['5', '0'])) dollars_mem (by decide) fun d same => by
    obtain rfl := Option.some.inj same
    decide

/-- `150 USD`. -/
def hundredAndFifty : Amount Casing.cyrillic :=
  amountIn dollars ['1', '5', '0'] none dollars_mem (by decide) (by simp)

/-- `150 EUR`. -/
def hundredAndFiftyEuros : Amount Casing.cyrillic :=
  amountIn euros ['1', '5', '0'] none euros_mem (by decide) (by simp)

/-- `9 USD`. -/
def nineDollars : Amount Casing.cyrillic :=
  amountIn dollars ['9'] none dollars_mem (by decide) (by simp)

theorem isAmount_of_mem_ends {casing : Casing} {s : Text} {rule : Regex}
    (member : rule ∈ amountRules casing) (whole : s.length ∈ rule.ends [] s) : IsAmount casing s :=
  ⟨rule, member, [], [], Regex.matches_of_mem_ends whole⟩

def torontoPhone : Text := "416-555-0123".toList

def newYorkPhone : Text := "212-555-0123".toList

def chicagoPhone : Text := "312-555-0123".toList

theorem isPhone_samples : IsPhone Casing.cyrillic torontoPhone ∧ IsPhone Casing.cyrillic newYorkPhone ∧
    IsPhone Casing.cyrillic chicagoPhone :=
  ⟨⟨[], [], Regex.matches_of_mem_ends (by decide)⟩, ⟨[], [], Regex.matches_of_mem_ends (by decide)⟩,
    ⟨[], [], Regex.matches_of_mem_ends (by decide)⟩⟩

/-- Two amounts with different digits are told apart, and so are two phone numbers with different
last digits. -/
theorem values_told_apart_iff_samples :
    sampleAnonymizer.ToldApart amountCategory nineDollars.text hundredAndFiftyEuros.text ∧
    sampleAnonymizer.ToldApart phoneCategory torontoPhone newYorkPhone := by
  have told := values_told_apart_iff sampleAnonymizer sampleVault_hmac amountTables_cyrillic
  constructor
  · apply (told.2.1 nineDollars hundredAndFiftyEuros).mpr
    · exact fun same => absurd same (by decide)
    · exact fun same => absurd (congrArg Prod.snd same) (by decide)
  · obtain ⟨toronto, newYork, _⟩ := isPhone_samples
    apply (told.2.2 torontoPhone newYorkPhone toronto newYork rfl rfl).mpr
    · exact fun same => absurd same (by decide)
    · decide

/-- One label for 1.50 and for 150 dollars, which is restored as 1.50 dollars; one for dollars and
euros; and one for two phone numbers with the same last digits. -/
theorem values_not_told_apart :
    (∃ x y : Amount Casing.cyrillic, x.text = "1.50 USD".toList ∧ y.text = "150 USD".toList ∧
      IsAmount Casing.cyrillic x.text ∧ IsAmount Casing.cyrillic y.text ∧ x.denote ≠ y.denote ∧
      ¬ sampleAnonymizer.ToldApart amountCategory x.text y.text ∧
      ∃ key st₁ st₂, sampleAnonymizer.resolve .new amountCategory x.text .auto = some (key, st₁) ∧
        sampleAnonymizer.resolve st₁ amountCategory y.text .auto = some (key, st₂) ∧
        (st₂.entityOf sampleAnonymizer.order key).map (·.value) = some x.text) ∧
    (∃ x y : Amount Casing.cyrillic, x.text = "150 USD".toList ∧ y.text = "150 EUR".toList ∧
      IsAmount Casing.cyrillic x.text ∧ IsAmount Casing.cyrillic y.text ∧ x.denote ≠ y.denote ∧
      ¬ sampleAnonymizer.ToldApart amountCategory x.text y.text) ∧
    IsPhone Casing.cyrillic newYorkPhone ∧ IsPhone Casing.cyrillic chicagoPhone ∧
      newYorkPhone.filter Casing.cyrillic.isDecimal ≠ chicagoPhone.filter Casing.cyrillic.isDecimal ∧
      ¬ sampleAnonymizer.ToldApart phoneCategory newYorkPhone chicagoPhone := by
  have trailing : (amountRules Casing.cyrillic)[0] ∈ amountRules Casing.cyrillic := List.getElem_mem _
  refine ⟨⟨oneAndAHalf, hundredAndFifty, rfl, rfl, isAmount_of_mem_ends trailing (by decide),
    isAmount_of_mem_ends trailing (by decide), ?_, fun told => told.keys (by decide), ?_⟩,
    ⟨hundredAndFifty, hundredAndFiftyEuros, rfl, rfl, isAmount_of_mem_ends trailing (by decide),
      isAmount_of_mem_ends trailing (by decide), ?_, fun told => told.keys (by decide)⟩,
    isPhone_samples.2.1, isPhone_samples.2.2, by decide, fun told => told.keys (by decide)⟩
  · exact (Amount.denote_eq_iff (by decide)).not.mpr (by decide)
  -- the second amount gets the first one's entity, and with it the first spelling
  · have shared : (sampleAnonymizer.resolve .new amountCategory oneAndAHalf.text .auto).any
        (fun first => (sampleAnonymizer.resolve first.2 amountCategory hundredAndFifty.text .auto).any
          fun second => decide (second.1 = first.1 ∧
            (second.2.entityOf sampleAnonymizer.order first.1).map (·.value) =
              some oneAndAHalf.text)) = true := by decide
    obtain ⟨⟨key, st₁⟩, first, shared⟩ := (Option.any_eq_true _ _).mp shared
    obtain ⟨⟨key', st₂⟩, second, shared⟩ := (Option.any_eq_true _ _).mp shared
    obtain ⟨rfl, restored⟩ := of_decide_eq_true shared
    exact ⟨key', st₁, st₂, first, second, restored⟩
  · exact (Amount.denote_eq_iff (by decide)).not.mpr (by decide)

end RedactGate.Desktop
