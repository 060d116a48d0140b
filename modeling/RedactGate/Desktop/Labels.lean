import RedactGate.Desktop.LabelVault

/-!
# Labels

The words that stand for the entities in a text, in one of three languages, and the search
for them, which accepts any of the languages, any case and the endings of a declension.
-/
namespace RedactGate.Desktop

open Library

/-- `CATEGORY_OF`: the category of labels for each type that a detector reports. A type that is not
listed is a category of its own. -/
def categoryOf : List (Text × Text) :=
  [("PERSON", "PERSON"), ("ORG", "ORG"), ("IBAN", "ACCOUNT"), ("IBAN_UA", "ACCOUNT"),
    ("BANK_ACCOUNT", "ACCOUNT"), ("ACCOUNT", "ACCOUNT"), ("CREDIT_CARD", "CARD"), ("CARD", "CARD"),
    ("EDRPOU", "EDRPOU"), ("IPN", "IPN"), ("SIN", "SIN"), ("SSN", "SSN"), ("EIN", "EIN"),
    ("ITIN", "ITIN"), ("BUSINESS_NUMBER", "BN"), ("GST_HST", "BN"), ("NEQ", "BN"), ("BN", "BN"),
    ("VAT", "VAT"), ("UCI", "UCI"), ("PASSPORT", "PASSPORT"), ("ADDRESS", "ADDRESS"),
    ("LOCATION", "ADDRESS"), ("PHONE", "PHONE"), ("EMAIL", "EMAIL"), ("AMOUNT", "AMOUNT"),
    ("DATE_OF_BIRTH", "DOB"), ("DOB", "DOB"), ("IP_ADDRESS", "IP"), ("IP_ADDRESS_V6", "IP"),
    ("IP", "IP")].map fun entry => (entry.1.toList, entry.2.toList)

/-- The words that stand in the labels of a category, one for each language of labels. -/
structure LabelWords where
  category : Text
  uk : Text
  ru : Text
  en : Text

/-- `WORDS`: the word that stands in a label, for each category, in Ukrainian, Russian and English. -/
def words : List LabelWords :=
  [⟨"PERSON".toList, "Фізособа".toList, "Физлицо".toList, "Person".toList⟩,
    ⟨"ORG".toList, "Юрособа".toList, "Юрлицо".toList, "Company".toList⟩,
    ⟨"ACCOUNT".toList, "Рахунок".toList, "Счёт".toList, "Account".toList⟩,
    ⟨"CARD".toList, "Картка".toList, "Карта".toList, "Card".toList⟩,
    ⟨"EDRPOU".toList, "ЄДРПОУ".toList, "ЕГРПОУ".toList, "EDRPOU".toList⟩,
    ⟨"IPN".toList, "ІПН".toList, "ИНН".toList, "TaxID".toList⟩,
    ⟨"SIN".toList, "SIN".toList, "SIN".toList, "SIN".toList⟩,
    ⟨"SSN".toList, "SSN".toList, "SSN".toList, "SSN".toList⟩,
    ⟨"EIN".toList, "EIN".toList, "EIN".toList, "EIN".toList⟩,
    ⟨"ITIN".toList, "ITIN".toList, "ITIN".toList, "ITIN".toList⟩,
    ⟨"BN".toList, "BN".toList, "BN".toList, "BN".toList⟩,
    ⟨"VAT".toList, "ПДВ".toList, "НДС".toList, "VAT".toList⟩,
    ⟨"UCI".toList, "UCI".toList, "UCI".toList, "UCI".toList⟩,
    ⟨"PASSPORT".toList, "Паспорт".toList, "Паспорт".toList, "Passport".toList⟩,
    ⟨"ADDRESS".toList, "Адреса".toList, "Адрес".toList, "Address".toList⟩,
    ⟨"PHONE".toList, "Телефон".toList, "Телефон".toList, "Phone".toList⟩,
    ⟨"EMAIL".toList, "Пошта".toList, "Почта".toList, "Email".toList⟩,
    ⟨"AMOUNT".toList, "Сума".toList, "Сумма".toList, "Amount".toList⟩,
    ⟨"DOB".toList, "ДатаНародження".toList, "ДатаРождения".toList, "BirthDate".toList⟩,
    ⟨"IP".toList, "IP".toList, "IP".toList, "IP".toList⟩]

/-- The word in a language; English where the language is another one. -/
def LabelWords.word (entry : LabelWords) (lang : Text) : Text :=
  if lang = "uk".toList then entry.uk
  else if lang = "ru".toList then entry.ru
  else entry.en

/-- The characters between the word and the number: `_HYPHEN`. -/
def isHyphen (c : Char) : Bool := c == '-' || decide (0x2010 ≤ c.toNat ∧ c.toNat ≤ 0x2014)

structure LabelHit where
  start : Nat
  stop : Nat
  category : Text
  number : Nat
  text : Text
  deriving DecidableEq

/-- What names the entity of a label. -/
def LabelHit.key (hit : LabelHit) : LabelKey := (hit.category, hit.number)

section

variable (casing : Casing)

/-- `category_for`. -/
def categoryFor (entityType : Text) : Text :=
  let name := Text.upper casing.toUnicode entityType
  (categoryOf.lookup name).getD name

/-- The word for a category in a language; a category that has none is written as a title. -/
def labelWord (category lang : Text) : Text :=
  match words.find? (·.category = category) with
  | some entry => entry.word lang
  | none => casing.title category

/-- `render`. -/
def render (category : Text) (number : Nat) (lang : Text) : Text :=
  labelWord casing category lang ++ '-' :: Nat.toDigits 10 number

/-- An ending of a declension, `\w{0,most}`. -/
def ending (most : Nat) : Regex := .rep (.char casing.isWord) 0 (some most)

/-- Letters in any case. -/
def spelled (letters : String) : Regex := anyCaseWord casing letters.toList

/-- `(?:'s)?`. -/
def genitive : Regex := .opt (spelled casing "'s")

/-- `_STEMS`: the patterns that read the word of a label back, with endings and plural forms, and
the category that each of them stands for. -/
def stems : List (Regex × Text) :=
  let declined (stem : String) (most : Nat) : Regex := .seq (spelled casing stem) (ending casing most)
  let plural (stem : String) : Regex := .seq (spelled casing stem) (.opt (spelled casing "s"))
  let oneOf (table : String) : Regex := .oneOf ((tableWords table).map (anyCaseWord casing))
  [(declined "Фізособ" 3, "PERSON".toList),
    (declined "Физлиц" 3, "PERSON".toList),
    (.seq (plural "Person") (genitive casing), "PERSON".toList),
    (declined "Юрособ" 3, "ORG".toList),
    (declined "Юрлиц" 3, "ORG".toList),
    (.cat [spelled casing "Compan", oneOf "y ies", genitive casing], "ORG".toList),
    (declined "Рахун" 3, "ACCOUNT".toList),
    (.cat [spelled casing "Сч", oneOf "е ё", spelled casing "т", ending casing 3], "ACCOUNT".toList),
    (plural "Account", "ACCOUNT".toList),
    (declined "Карт" 4, "CARD".toList),
    (plural "Card", "CARD".toList),
    (oneOf "ЄДРПОУ ЕГРПОУ ЕДРПОУ EDRPOU", "EDRPOU".toList),
    (oneOf "ІПН ИНН TaxID", "IPN".toList),
    (spelled casing "SIN", "SIN".toList),
    (spelled casing "SSN", "SSN".toList),
    (spelled casing "EIN", "EIN".toList),
    (spelled casing "ITIN", "ITIN".toList),
    (spelled casing "BN", "BN".toList),
    (oneOf "ПДВ НДС VAT", "VAT".toList),
    (spelled casing "UCI", "UCI".toList),
    (declined "Паспорт" 3, "PASSPORT".toList),
    (plural "Passport", "PASSPORT".toList),
    (declined "Адрес" 3, "ADDRESS".toList),
    (.seq (spelled casing "Address") (.opt (spelled casing "es")), "ADDRESS".toList),
    (declined "Телефон" 3, "PHONE".toList),
    (plural "Phone", "PHONE".toList),
    (declined "Пошт" 3, "EMAIL".toList),
    (declined "Почт" 3, "EMAIL".toList),
    (.cat [spelled casing "E", .opt (.lit '-'), plural "mail"], "EMAIL".toList),
    (declined "Сум" 4, "AMOUNT".toList),
    (plural "Amount", "AMOUNT".toList),
    (.oneOf [declined "ДатаНародж" 4, declined "ДатаРожд" 4,
      .cat [spelled casing "Дат", ending casing 2, declined "Народж" 4], plural "BirthDate"],
      "DOB".toList),
    (spelled casing "IP", "IP".toList)]

/-- `(?<![\w-])`, with all the hyphens: nothing that could belong to a label before it. -/
def freeBefore : Regex :=
  .assert fun before _ => before.getLast?.all fun c => !casing.isWord c && !isHyphen c

/-- `(?![\d\w])`. -/
def freeAfter : Regex :=
  .assert fun _ rest => rest.head?.all fun c => !casing.isDecimal c && !casing.isWord c

/-- `_LABEL_RE`. -/
def labelRe : Regex :=
  .cat [freeBefore casing, .oneOf ((stems casing).map Prod.fst), .char isHyphen,
    .rep (.char casing.isDecimal) 1 (some 6), freeAfter casing]

/-- `_stem_category`. -/
def stemCategory (stem : Text) : Option Text :=
  ((stems casing).find? fun entry => !(Regex.ends (.seq entry.1 atEnd) [] stem).isEmpty).map Prod.snd

/-- The group `stem` of a match, which is what stands before its last hyphen. -/
def stemOf (label : Text) : Text := (label.rdropWhile (!isHyphen ·)).dropLast

/-- The group `n` of a match, as a number. -/
def numberOf (label : Text) : Nat :=
  (label.rtakeWhile (!isHyphen ·)).foldl (fun n c => 10 * n + (casing.decimal c).getD 0) 0

/-- `find_labels`: the labels in a text from left to right; a match whose word no category claims is
passed over. -/
def findLabels (text : Text) : List LabelHit :=
  ((labelRe casing).finditer text).filterMap fun m =>
    let label := text.slice m.1 m.2
    (stemCategory casing (stemOf label)).map fun category =>
      ⟨m.1, m.2, category, numberOf casing label, label⟩

end

/-! ## Instances -/

example : (findLabels Casing.cyrillic "договір з Фізособою-1 та ЮРЛИЦОМ-12".toList).map LabelHit.key =
    [("PERSON".toList, 1), ("ORG".toList, 12)] := by decide

end RedactGate.Desktop
