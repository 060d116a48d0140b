import RedactGate.Desktop.Gazetteer
import RedactGate.Library.Scan
import Mathlib.Algebra.Ring.Int.Defs

/-!
# Values and persons

What counts as the same value, by its category, and what a mention of a person tells: the
stem of the surname, the initials of the given name and of the patronymic, and the stem of
the given name, any of which can be missing.
-/
namespace RedactGate.Desktop

open Library

def idCategories : List Text :=
  ["ACCOUNT".toList, "CARD".toList, "EDRPOU".toList, "IPN".toList, "SIN".toList, "SSN".toList,
    "EIN".toList, "ITIN".toList, "BN".toList, "VAT".toList, "UCI".toList, "PASSPORT".toList,
    "IP".toList]

/-- `[0-9A-Za-zА-ЯІЇЄҐа-яіїєґ]`. -/
def isIdChar (c : Char) : Bool :=
  c.isAlphanum || decide ('А' ≤ c ∧ c ≤ 'Я') || decide ('а' ≤ c ∧ c ≤ 'я') ||
    decide (c ∈ "ІЇЄҐіїєґ".toList)

/-- The characters of `_PUNCT`. -/
def punctuation : Text := "\"«»“”„'’ʼ`.,;:()[]".toList

/-- `_WS.sub(" ", …)`: every run of white space becomes one blank; the flag tells whether one has
just been written. -/
def collapse (isSpace : Char → Bool) (behind : Bool) : Text → Text
  | [] => []
  | c :: rest =>
    if isSpace c then if behind then collapse isSpace true rest else ' ' :: collapse isSpace true rest
    else c :: collapse isSpace false rest

section

variable (casing : Casing)

/-- `re.findall`. -/
def findall (pattern : Regex) (text : Text) : List Text :=
  (pattern.finditer text).map fun m => text.slice m.1 m.2

/-- `[^\W\d_]+`. -/
def letters : Regex := .plus (.char casing.isLetter)

/-- `normalize`: the form of a value that it is filed under, by its category: identifiers in
capitals, digits of phones and amounts, stems of names, and else the folded text. -/
def normalize (category value : Text) : Text :=
  let v := Text.strip casing.toUnicode value
  if category ∈ idCategories then Text.upper casing.toUnicode (v.filter isIdChar)
  else if category = "PHONE".toList then
    let d := v.filter casing.isDecimal
    -- `d[-9:]`: the last nine digits
    d.drop (d.length - 9)
  -- an amount keeps its digits only, without point and currency
  else if category ∈ ["AMOUNT".toList, "DOB".toList] then v.filter casing.isDecimal
  else if category = "EMAIL".toList then casing.fold v
  else if category = "PERSON".toList then
    List.intercalate " ".toList ((findall (letters casing) v).map (stem casing))
  else
    let s := (casing.fold v).map fun c => if c ∈ punctuation then ' ' else c
    Text.strip casing.toUnicode (collapse casing.isSpace false s)

/-- A character in any case. -/
def anyCase (c : Char) : Regex := .char fun d => casing.sameCase d c

def anyCaseWord (text : Text) : Regex := .cat (text.map (anyCase casing))

/-- `$`: at the end, or before a line break at the end. -/
def atEnd : Regex := .assert fun _ rest => rest = [] || rest = ['\n']

def cyrillicSmall : Text := "абвгдежзийклмнопрстуфхцчшщъыьэюяіїєґ".toList

/-- `_PATR_RX`. -/
def patronymic : Regex :=
  .cat [.oneOf ((tableWords "ович евич івн ївн овн евн ічн ичн ич").map (anyCaseWord casing)),
    .rep (.char fun c => cyrillicSmall.any (casing.sameCase c)) 0 (some 3), atEnd]

/-- `_PATR_NOM`. -/
def patronymicNominative : Regex :=
  .cat [.oneOf ((tableWords "ович евич івна ївна овна евна ична ич").map (anyCaseWord casing)), atEnd]

/-- What `parse_person` tells: the stem of the surname, the initials, the stem of the given name,
and the number of words. An empty dictionary has nothing. -/
structure PersonMeta where
  s : Option Text
  g : Option Text
  p : Option Text
  gs : Option Text
  w : Nat
  deriving DecidableEq

def PersonMeta.empty : PersonMeta := ⟨none, none, none, none, 0⟩

/-- The initials and the words of a mention, so far. -/
structure PersonTokens where
  initials : List Text
  words : List Text

/-- One token of a mention: a single letter or a short form with a full stop is an initial, and
anything else a word. -/
def PersonTokens.add (tokens : PersonTokens) (t : Text) : PersonTokens :=
  match t.rdropWhile (· = '.') with
  -- one letter, with or without full stops, is an initial
  | [c] => { tokens with initials := tokens.initials ++ [casing.casefold c] }
  | core =>
    match core with
    | c :: _ =>
      if t.getLast? = some '.' ∧ core.length ≤ 2 then
        { tokens with initials := tokens.initials ++ [casing.casefold c] }
      else { tokens with words := tokens.words ++ [core] }
    | [] => { tokens with words := tokens.words ++ [core] }

def personTokens (surface : Text) : PersonTokens :=
  (findall (.seq (letters casing) (.opt (.lit '.'))) surface).foldl (PersonTokens.add casing) ⟨[], []⟩

/-- Who is who among the words of a mention so far; each of the three can be missing. -/
structure PersonNames where
  surname : Option Text
  given : Option Text
  patr : Option Text

/-- One word of a mention with `count` words: a patronymic, a given name or a surname, by its form
and by what is still missing. -/
def PersonNames.add (count : Nat) (names : PersonNames) (w : Text) : PersonNames :=
  if names.patr.isNone && ((patronymic casing).search w).isSome && decide (1 < count) then
    { names with patr := some w }
  else if names.given.isNone && isFirstName casing w &&
      !(names.surname.isNone && decide (count = 1)) then
    { names with given := some w }
  else if names.surname.isNone then { names with surname := some w }
  else if names.given.isNone then { names with given := some w }
  else names

/-- The words of a mention as names. Without a surname, the given name is taken for one if there are
two words. -/
def personNames (words : List Text) : PersonNames :=
  let names := words.foldl (PersonNames.add casing words.length) ⟨none, none, none⟩
  if names.surname.isNone && names.given.isSome && decide (2 ≤ words.length) then
    { names with surname := names.given, given := none }
  else names

/-- `name[0].casefold()`, of a name that is there and not empty. -/
def initialOf (name : Option Text) : Option Text :=
  match name with
  | some (c :: _) => some (casing.casefold c)
  | _ => none

/-- `parse_person`: the words of the mention are told apart by their forms, and initials stand in
for the names that are not spelled out. -/
def parsePerson (surface : Text) : PersonMeta :=
  let tokens := personTokens casing surface
  let names := personNames casing tokens.words
  { s := (names.surname.filter (!·.isEmpty)).map (stem casing)
    g := (initialOf casing names.given).or tokens.initials[0]?
    p := (initialOf casing names.patr).or tokens.initials[1]?
    gs := (names.given.filter (!·.isEmpty)).map (stem casing)
    w := tokens.words.length }

/-- What a word adds to the score of a mention, in halves: nominative forms of given names and
patronymics add to it, other forms take away. -/
def wordScore (w : Text) : Int :=
  if isFirstName casing w then
    if normToken casing w ∈ nominativeFirst casing then 6 else -4
  else if ((patronymic casing).search w).isSome then
    if ((patronymicNominative casing).search w).isSome then 4 else -4
  else 0

/-- `(?<![^\W\d_])[^\W\d_]\.`. -/
def initialWithStop : Regex :=
  .cat [.assert fun before _ => !before.getLast?.any casing.isLetter, .char casing.isLetter, .lit '.']

/-- `nominative_score` of a mention, in halves: its words, its initials, and how much its forms look
like nominatives. -/
def nominativeScore (surface : Text) : Int :=
  let words := (findall (letters casing) surface).filter fun w => decide (1 < w.length)
  words.length + (if (findall (initialWithStop casing) surface).isEmpty then 0 else 2) +
    (words.map (wordScore casing)).sum

end

/-- A part that is there and not empty. -/
def given? (part : Option Text) : Option Text := part.filter (!·.isEmpty)

/-- The parts of two mentions do not contradict each other: they are the same, or one of them is
missing. -/
def partsAgree (a b : Option Text) : Bool :=
  match given? a, given? b with
  | some x, some y => x = y
  | _, _ => true

/-- `_compatible`. -/
def compatible (a b : PersonMeta) : Bool :=
  (given? a.s).isSome && decide (a.s = b.s) && partsAgree a.g b.g && partsAgree a.p b.p &&
    partsAgree a.gs b.gs

end RedactGate.Desktop
