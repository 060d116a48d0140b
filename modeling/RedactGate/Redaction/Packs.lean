import RedactGate.Redaction.RegexPacks

/-!
# The shipped packs

The patterns of the pack files, in their order, as compiled expressions.
-/
namespace RedactGate

open Library

section

variable (unicode : Unicode)

/-- `\d`. -/
def decimalRe : Regex := .char unicode.isDecimal

/-- `\b`. -/
def edge : Regex := .boundary unicode.isWord

/-- A class of single characters, such as `[ -]`. -/
def among (chars : String) : Regex := .char fun c => chars.toList.contains c

/-- `[A-Z]`. -/
def upperRe : Regex := .char Char.isUpper

/-- `[A-Z0-9]`. -/
def alnumRe : Regex := .char isAlnumUpper

/-- A literal under the flag `IGNORECASE`. -/
def wordIgnoringCase (s : String) : Regex := .cat (s.toList.map fun c => .char (unicode.sameCase c))

/-- A pattern of a pack file. -/
def rule (entityType : String) (regex : Expression) (validator : Option String) : CompiledPattern :=
  ⟨entityType.toList, regex, validator.bind (getValidator unicode)⟩

/-! ## CA -/

def sinRe : Regex :=
  .cat [edge unicode, .times (decimalRe unicode) 3, .opt (among " -"), .times (decimalRe unicode) 3,
    .opt (among " -"), .times (decimalRe unicode) 3, edge unicode]

def businessNumberRe : Regex :=
  .cat [edge unicode, .times (decimalRe unicode) 9, .opt (among " "),
    .oneOf [.seq (.lit 'R') (among "CTPMZ"), .word "RC".toList, .word "RP".toList,
      .word "RT".toList, .word "RM".toList, .word "RZ".toList],
    .opt (among " "), .times (decimalRe unicode) 4, edge unicode]

def gstHstRe : Regex :=
  .cat [edge unicode, .times (decimalRe unicode) 9, .opt (among " "), .word "RT".toList,
    .opt (among " "), .times (decimalRe unicode) 4, edge unicode]

def neqRe : Expression :=
  .valued (.cat [edge unicode, wordIgnoringCase unicode "NEQ", .star (among " :#")])
    (.cat [.times (decimalRe unicode) 4, .opt (among " -"), .times (decimalRe unicode) 3,
      .opt (among " -"), .times (decimalRe unicode) 3])
    (edge unicode)

def ca : Pack where
  code := "CA".toList
  patterns :=
    [rule unicode "SIN" (.plain (sinRe unicode)) "sin_check",
     rule unicode "BUSINESS_NUMBER" (.plain (businessNumberRe unicode)) none,
     rule unicode "GST_HST" (.plain (gstHstRe unicode)) none,
     rule unicode "NEQ" (neqRe unicode) none]

/-! ## EU -/

def euIbanRe : Regex :=
  .cat [edge unicode, .times upperRe 2, .times (decimalRe unicode) 2,
    .rep (.seq (.opt (among " ")) (.times alnumRe 4)) 2 (some 7),
    .opt (.seq (.opt (among " ")) (.rep alnumRe 1 (some 3))), edge unicode]

def vatCountries : List String :=
  ["AT", "BE", "BG", "CY", "CZ", "DE", "DK", "EE", "EL", "ES", "FI", "FR", "GB", "GR", "HR", "HU",
   "IE", "IT", "LT", "LU", "LV", "MT", "NL", "PL", "PT", "RO", "SE", "SI", "SK"]

def vatRe : Regex :=
  .cat [edge unicode, .oneOf (vatCountries.map fun country => .word country.toList),
    .opt (among " "), .rep alnumRe 2 (some 12), edge unicode]

def eu : Pack where
  code := "EU".toList
  patterns :=
    [rule unicode "IBAN" (.plain (euIbanRe unicode)) "iban_mod97",
     rule unicode "VAT" (.plain (vatRe unicode)) none]

/-! ## GENERIC -/

def isAsciiLetter (c : Char) : Bool := c.isUpper || c.isLower

def emailRe : Regex :=
  .cat [edge unicode,
    .plus (.char fun c => isAsciiLetter c || c.isDigit || "._%+-".toList.contains c), .lit '@',
    .plus (.char fun c => isAsciiLetter c || c.isDigit || ".-".toList.contains c), .lit '.',
    .rep (.char isAsciiLetter) 2 none, edge unicode]

def creditCardRe : Regex :=
  .cat [edge unicode, decimalRe unicode,
    .rep (.seq (.opt (among " -")) (decimalRe unicode)) 12 (some 18), edge unicode]

def phoneRe : Regex :=
  .cat [.opt (.cat [.opt (.lit '+'), .rep (decimalRe unicode) 1 (some 3), .opt (among " .-")]),
    .alt (.cat [.lit '(', .times (decimalRe unicode) 3, .lit ')']) (.times (decimalRe unicode) 3),
    among " .-", .times (decimalRe unicode) 3, among " .-", .times (decimalRe unicode) 4,
    edge unicode]

def octetRe : Regex :=
  .oneOf [.seq (.word "25".toList) (.char fun c => decide ('0' ≤ c ∧ c ≤ '5')),
    .cat [.lit '2', .char fun c => decide ('0' ≤ c ∧ c ≤ '4'), decimalRe unicode],
    .cat [.opt (.lit '1'), .opt (decimalRe unicode), decimalRe unicode]]

def ipAddressRe : Regex :=
  .cat [edge unicode, .times (.seq (octetRe unicode) (.lit '.')) 3, octetRe unicode, edge unicode]

/-- `[0-9a-fA-F]{1,4}`. -/
def hextetRe : Regex :=
  .rep (.char fun c => c.isDigit || decide ('a' ≤ c ∧ c ≤ 'f') || decide ('A' ≤ c ∧ c ≤ 'F')) 1
    (some 4)

def ipAddressV6Re : Regex :=
  .oneOf [.seq (.times (.seq hextetRe (.lit ':')) 7) hextetRe,
    .seq (.rep (.seq hextetRe (.lit ':')) 1 (some 7)) (.lit ':'),
    .cat [.rep (.seq hextetRe (.lit ':')) 1 (some 6), .lit ':', hextetRe],
    .cat [.word "::".toList, .rep (.seq hextetRe (.lit ':')) 0 (some 5), hextetRe],
    .word "::1".toList]

def genericIbanRe : Regex :=
  .cat [edge unicode, .times upperRe 2, .times (decimalRe unicode) 2, .opt (among " "),
    .rep (.seq (.times alnumRe 4) (.opt (among " "))) 1 (some 7), .rep alnumRe 1 (some 4),
    edge unicode]

def spaceRe : Regex := .char unicode.isSpace

def dateOfBirthRe : Regex :=
  .cat [.oneOf [.word "born".toList, .word "dob".toList,
      .seq (.word "birth".toList) (.opt (.word "date".toList)), .word "date of birth".toList,
      .cat [.word "дат".toList, .opt (.lit 'а'), .plus (spaceRe unicode),
        .alt (.word "народження".toList) (.word "рождения".toList)],
      .word "ДН".toList],
    .star (spaceRe unicode), .opt (among ":-"), .star (spaceRe unicode),
    .alt
      (.cat [.times (decimalRe unicode) 4, among "-/", .times (decimalRe unicode) 2, among "-/",
        .times (decimalRe unicode) 2])
      (.cat [.times (decimalRe unicode) 2, among "-/.", .times (decimalRe unicode) 2, among "-/.",
        .times (decimalRe unicode) 4])]

def generic : Pack where
  code := "GENERIC".toList
  patterns :=
    [rule unicode "EMAIL" (.plain (emailRe unicode)) none,
     -- the only validated pattern of the pack
     rule unicode "CREDIT_CARD" (.plain (creditCardRe unicode)) "luhn",
     rule unicode "PHONE" (.plain (phoneRe unicode)) none,
     rule unicode "IP_ADDRESS" (.plain (ipAddressRe unicode)) none,
     rule unicode "IP_ADDRESS_V6" (.plain ipAddressV6Re) none,
     rule unicode "IBAN" (.plain (genericIbanRe unicode)) none,
     rule unicode "DATE_OF_BIRTH" (.plain (dateOfBirthRe unicode)) none]

/-! ## IRCC -/

def uciRe : Expression :=
  .valued
    (.seq (.oneOf [wordIgnoringCase unicode "UCI", wordIgnoringCase unicode "Client ID",
      wordIgnoringCase unicode "Client Identifier"]) (.star (among " :#")))
    (.cat [.times (decimalRe unicode) 4, .opt (among " -"), .rep (decimalRe unicode) 4 (some 6)])
    (edge unicode)

def applicationNumberRe : Regex :=
  .cat [edge unicode, among "EFVWX", .rep (decimalRe unicode) 9 (some 10), edge unicode]

def ircc : Pack where
  code := "IRCC".toList
  patterns :=
    [rule unicode "UCI" (uciRe unicode) "uci_check",
     rule unicode "APPLICATION_NUMBER" (.plain (applicationNumberRe unicode)) none]

/-! ## UA -/

def ibanUaRe : Regex :=
  .cat [edge unicode, .word "UA".toList, .times (decimalRe unicode) 2, .opt (among " "),
    .times (.seq (.times alnumRe 4) (.opt (among " "))) 5, .times alnumRe 5, edge unicode]

def ipnRe : Expression :=
  .valued
    (.seq (.oneOf (["ІПН", "IPN", "ИНН", "РНОКПП", "РНУКПН"].map (wordIgnoringCase unicode)))
      (.star (among " :№#")))
    (.times (decimalRe unicode) 10) (edge unicode)

def edrpouRe : Expression :=
  .valued
    (.seq (.oneOf (["ЄДРПОУ", "ЕДРПОУ", "EDRPOU"].map (wordIgnoringCase unicode)))
      (.star (among " :№#")))
    (.times (decimalRe unicode) 8) (edge unicode)

def ua : Pack where
  code := "UA".toList
  patterns :=
    [rule unicode "IBAN_UA" (.plain (ibanUaRe unicode)) "iban_mod97",
     rule unicode "IPN" (ipnRe unicode) "ipn_check",
     rule unicode "EDRPOU" (edrpouRe unicode) "edrpou_check"]

/-! ## US -/

def itinRe : Regex :=
  .cat [edge unicode, .lit '9', .times (decimalRe unicode) 2, .opt (among " -"),
    .times (decimalRe unicode) 2, .opt (among " -"), .times (decimalRe unicode) 4, edge unicode]

def ssnRe : Regex :=
  .cat [edge unicode, .times (decimalRe unicode) 3, .lit '-', .times (decimalRe unicode) 2,
    .lit '-',
    .times (decimalRe unicode) 4, edge unicode]

def einRe : Regex :=
  .cat [edge unicode, .times (decimalRe unicode) 2, .lit '-', .times (decimalRe unicode) 7,
    edge unicode]

def us : Pack where
  code := "US".toList
  patterns :=
    [rule unicode "ITIN" (.plain (itinRe unicode)) "itin_check",
     rule unicode "SSN" (.plain (ssnRe unicode)) "ssn_check",
     rule unicode "EIN" (.plain (einRe unicode)) "ein_check"]

/-- The packs of `available_pack_codes`. -/
def shippedPacks : List Pack :=
  [ca unicode, eu unicode, generic unicode, ircc unicode, ua unicode, us unicode]

end

end RedactGate
