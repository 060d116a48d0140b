import RedactGate.Desktop.Labels
import RedactGate.Desktop.Replacements
import RedactGate.Desktop.Resolution
import RedactGate.Redaction.Merge
import Mathlib.Algebra.GroupWithZero.Nat
import Mathlib.Algebra.Order.Ring.Rat

/-!
# Engine

Detection in a text unit, the labels of what is found, and the way back. The regex packs and
the rules for people, companies, addresses and numbers are a parameter, and so is the hash of
the label sequences by which a document is known again.
-/
namespace RedactGate.Desktop

open Library

structure Options where
  categories : List Text
  packs : List Text

/-- A mention as it is recorded for a document: the label that was put in and the spelling that it
replaced. -/
structure Occurrence where
  category : Text
  n : Nat
  surface : Text
  deriving DecidableEq

def Occurrence.key (o : Occurrence) : LabelKey := (o.category, o.n)

/-- What is recorded of an anonymized document: its mentions, under a digest of the labels in their
order. -/
structure AnonDocument where
  digest : Text
  restore : List Occurrence
  deriving DecidableEq

/-- The state of a project: its entities, its anonymized documents from the newest to the
oldest, and the dictionary that the detector keeps with the version it was made for. -/
structure Project where
  file : VaultFile
  documents : List AnonDocument
  dictionary : Option (Nat × Dict Text Text)

/-- What happens across the text units of one document. A label is listed as often as it is
counted. -/
structure RunState where
  occurrences : List Occurrence
  counted : List LabelKey
  unitsOut : List Text
  unknownLabels : List Text

def RunState.empty : RunState := ⟨[], [], [], []⟩

structure Engine extends Anonymizer where
  sha256 : Bytes → Bytes
  /-- The spans of a forced category, of the regex packs and of the desktop rules. -/
  rules : Options → Option Text → Text → List (EntitySpan ℚ)

/-- What `label_digest` hashes. -/
def labelSequence (seq : List LabelKey) : Text :=
  seq.flatMap fun key => key.1 ++ ':' :: Nat.toDigits 10 key.2 ++ ['|']

/-- `restore_map`. -/
def restoreMap (documents : List AnonDocument) (digest : Text) : Option (List Occurrence) :=
  (documents.find? (·.digest = digest)).map AnonDocument.restore

/-- The counts of the labels. -/
def countsOf (counted : List LabelKey) : List (LabelKey × Nat) :=
  counted.dedup.map fun key => (key, counted.count key)

section Dictionary

variable (casing : Casing)

/-- A surface that goes into the dictionary. -/
def eligible (s : Text) : Bool :=
  let digits := !s.isEmpty && s.all casing.isDigit
  decide (3 ≤ s.length) && !digits || digits && decide (6 ≤ s.length)

/-- `[\w'’ʼ-]`: what a surface must not stand beside. -/
def isInner (c : Char) : Bool := casing.isWord c || "'’ʼ-".toList.contains c

/-- The surfaces of the entities in folded case with the categories; the first entity that
has a surface keeps it. -/
def surfaceTable (ents : List Entity) : Dict Text Text :=
  (ents.flatMap fun e => e.surfaces.map fun s => (Text.strip casing.toUnicode s, e.category)).foldl
    (fun d entry =>
      if eligible casing entry.1 ∧ (d.get? (casing.fold entry.1)).isNone then
        d.set (casing.fold entry.1) entry.2
      else d) Dict.empty

/-- The pattern of a dictionary: its surfaces in any case, longer ones first, between characters
that are none of a word. -/
def dictionaryRe (surfaces : Dict Text Text) : Regex :=
  let alts := (surfaces.entries.map Prod.fst).insertionSort fun a b => b.length ≤ a.length
  .cat [.assert fun before _ => before.getLast?.all fun c => !isInner casing c,
    .oneOf (alts.map (anyCaseWord casing)),
    .assert fun _ rest => rest.head?.all fun c => !isInner casing c]

/-- The score of every dictionary span, 0.99. -/
def dictionaryScore : ℚ := 99 / 100

/-- The mentions of known surfaces: what the search of the dictionary finds in a text, each match
with the category that its folded text is filed under. -/
def dictionarySpans (surfaces : Dict Text Text) (text : Text) : List (EntitySpan ℚ) :=
  if surfaces.entries.isEmpty then []
  else ((dictionaryRe casing surfaces).finditer text).filterMap fun m =>
    let found := text.slice m.1 m.2
    (surfaces.get? (casing.fold found)).map fun category =>
      ⟨m.1, m.2, category, found, dictionaryScore, .manual, none⟩

/-- `_DATE_IN`: a date in digits, with the year in front or at the end and either mark between its
parts. -/
def dateIn : Regex :=
  let digits (n : Nat) : Regex := .times (.char casing.isDecimal) n
  let mark : Regex := .char fun c => "-/.".toList.contains c
  .alt (.cat [digits 4, mark, digits 2, mark, digits 2])
    (.cat [digits 2, mark, digits 2, mark, digits 4])

/-- The span of a date of birth shrinks to the date in it, and loses its jurisdiction. -/
def dateSpan (s : EntitySpan ℚ) : Option (EntitySpan ℚ) :=
  ((dateIn casing).search s.text).map fun m =>
    ⟨s.start + m.1, s.start + m.2, s.entityType, s.text.slice m.1 m.2, s.score, s.source, none⟩

/-- The body of the loop over the spans that were found: the desktop category, the checks of
the category, no label in the span, and no white space or punctuation around it. -/
def refineSpan (options : Options) (text : Text) (labels : List LabelHit) (s : EntitySpan ℚ) :
    Option (EntitySpan ℚ) :=
  let category := categoryFor casing s.entityType
  if category ∉ options.categories then none
  else if category = "VAT".toList ∧ (s.text.filter casing.isDigit).length < 6 then none
  else (if category = "DOB".toList then dateSpan casing s else some s).bind fun s =>
    -- a span that touches a label of the text is dropped
    if labels.any fun h => h.start < s.stop && s.start < h.stop then none
    else
      let t := text.slice s.start s.stop
      let start := s.start + (t.length - (t.dropWhile casing.isSpace).length)
      -- leading white space and trailing punctuation are cut off, for every category alike
      let stop := s.start + (t.rdropWhile fun c => " \t\r\n,;:".toList.contains c).length
      if stop ≤ start then none
      else some { s with
        start := start, stop := stop, entityType := category, text := text.slice start stop }

end Dictionary

namespace Engine

variable (engine : Engine)

/-- `label_digest`. -/
def labelDigest (seq : List LabelKey) : Text := hex (engine.sha256 (utf8 (labelSequence seq)))

/-- `_dictionary`: the dictionary is made again when the number of entities and variants tells
that it is old. -/
def dictionaryOf (p : Project) : Dict Text Text × Project :=
  let file := p.file.load engine.order
  let ents := file.entities engine.order
  let version := (ents.map fun e => 1 + e.variants.entries.length).sum * 7 + ents.length
  match p.dictionary.filter (·.1 = version) with
  | some cached => (cached.2, { p with file := file })
  | none =>
    let surfaces := surfaceTable engine.casing ents
    (surfaces, { p with file := file, dictionary := some (version, surfaces) })

/-- `detect`: the spans of the rules and the mentions of the dictionary, filtered and trimmed one by
one and then merged. A blank text has none. -/
def detect (options : Options) (force : Option Text) (text : Text) (p : Project) :
    List (EntitySpan ℚ) × Project :=
  if Text.strip engine.casing.toUnicode text = [] then ([], p)
  else
    let (surfaces, p) := engine.dictionaryOf p
    let spans := engine.rules options force text ++ dictionarySpans engine.casing surfaces text
    let labels := findLabels engine.casing text
    (mergeSpans (spans.filterMap (refineSpan engine.casing options text labels)), p)

/-- `_resolve`; a new entity or a new link makes the detector drop its dictionary. -/
def resolveMention (category surface : Text) (p : Project) : Option (LabelKey × Project) :=
  let known := (p.file.load engine.order).byFingerprint engine.order
    (engine.valueFp category surface)
  (engine.resolve p.file category surface .auto).map fun (key, file) =>
    (key, { p with file := file, dictionary := if known.isSome then p.dictionary else none })

/-- The labels that replace the spans, in a state in which they are resolved one by one. A
span of an excluded entity stays. -/
def labelSpans (lang text : Text) : List (EntitySpan ℚ) → Project →
    Option (List Replacement × Project)
  | [], p => some ([], p)
  | s :: spans, p => do
    let surface := text.slice s.start s.stop
    let (key, p) ← engine.resolveMention s.entityType surface p
    let (reps, p') ← labelSpans lang text spans p
    -- the entity is resolved before the flag is read, so an excluded value is registered too
    if (p.file.entityOf engine.order key).any (·.excluded) then some (reps, p')
    else
      some (⟨⟨s.start, s.stop, render engine.casing key.1 key.2 lang⟩, key.1, key.2, surface⟩ :: reps,
        p')

/-- `anonymize_unit`: the spans of a unit are resolved and replaced by labels, and what was replaced
is added to the record of the document. -/
def anonymizeUnit (lang : Text) (options : Options) (force : Option Text) (text : Text)
    (run : RunState) (p : Project) : Option (List Replacement × RunState × Project) :=
  let (spans, p) := engine.detect options force text p
  (engine.labelSpans lang text spans p).map fun (reps, p) =>
    let reps := reps.insertionSort fun a b => a.start ≤ b.start
    (reps, { run with
      occurrences := run.occurrences ++ reps.map fun r => ⟨r.category, r.n, r.original⟩
      counted := run.counted ++ reps.map fun r => (r.category, r.n)
      unitsOut := run.unitsOut ++ [applyReplacements text (reps.map Replacement.toEdit)] }, p)

/-- `prescan_unit`: what the detector reports in a unit is resolved, so that its entities are there,
and nothing is rewritten. -/
def prescanUnit (options : Options) (force : Option Text) (text : Text) (p : Project) :
    Option Project :=
  let (spans, p) := engine.detect options force text p
  spans.foldlM (fun p s =>
    (engine.resolveMention s.entityType (text.slice s.start s.stop) p).map Prod.snd) p

/-- `anonymize_text`: the text is one unit, its labels are counted, and it is recorded as a document
under the digest of its labels. -/
def anonymizeText (lang : Text) (options : Options) (text : Text) (p : Project) :
    Option (Text × List Replacement × Project) :=
  (engine.anonymizeUnit lang options none text .empty p).map fun (reps, run, p) =>
    let document : AnonDocument :=
      ⟨engine.labelDigest (run.occurrences.map Occurrence.key), run.occurrences⟩
    (applyReplacements text (reps.map Replacement.toEdit), reps,
      { p with
        file := p.file.bump (countsOf run.counted)
        documents := document :: p.documents })

/-- `exact_map`: the record of the newest document with the labels of these texts, if there are any.
A digest that collides is told apart by its labels. -/
def exactMap (p : Project) (texts : List Text) : Option (List Occurrence) :=
  let seq := texts.flatMap fun t => (findLabels engine.casing t).map LabelHit.key
  if seq.isEmpty then none
  else (restoreMap p.documents (engine.labelDigest seq)).filter (·.map Occurrence.key = seq)

/-- What a unit is restored to so far, with the labels of no entity and the place in the
recorded list. -/
structure Restoring where
  reps : List Replacement
  unknown : List Text
  cursor : Nat

/-- The body of the loop over the labels of a unit: the spelling that the record has for the label,
or else the canonical value. A label without entity stays. -/
def restoreHit (file : VaultFile) (exact : Option (List Occurrence)) (acc : Restoring)
    (hit : LabelHit) : Restoring :=
  match file.entityOf engine.order hit.key with
  -- the loop goes on before the cursor moves: the recorded value of this label is left for the next
  | none => { acc with unknown := acc.unknown ++ [hit.text] }
  | some e =>
    let rep (value : Text) : Replacement :=
      ⟨⟨hit.start, hit.stop, value⟩, hit.category, hit.number, hit.text⟩
    match exact.bind (·[acc.cursor]?) with
    | some recorded =>
      -- the recorded spelling counts only where the label recorded there is the one read
      let value := if recorded.key = hit.key then recorded.surface else e.value
      ⟨acc.reps ++ [rep value], acc.unknown, acc.cursor + 1⟩
    | none => { acc with reps := acc.reps ++ [rep e.value] }

/-- `restore_unit`. -/
def restoreUnit (file : VaultFile) (exact : Option (List Occurrence)) (cursor : Nat) (text : Text) :
    Restoring :=
  (findLabels engine.casing text).foldl (engine.restoreHit file exact) ⟨[], [], cursor⟩

/-- The units of a document, restored one after the other with one cursor over the record of the
document. -/
def restoreUnits (file : VaultFile) (exact : Option (List Occurrence)) :
    Nat → List Text → List Restoring
  | _, [] => []
  | cursor, text :: texts =>
    let unit := engine.restoreUnit file exact cursor text
    unit :: restoreUnits file exact unit.cursor texts

/-- `restore_file`, of the text units of a file. -/
def restoreFile (p : Project) (texts : List Text) : List Restoring :=
  engine.restoreUnits p.file (engine.exactMap p texts) 0 texts

/-- `restore_text`. -/
def restoreText (p : Project) (text : Text) : Text :=
  let unit := engine.restoreUnit p.file (engine.exactMap p [text]) 0 text
  applyReplacements text (unit.reps.map Replacement.toEdit)

/-- The DELETE of an entity in the server. -/
def deleteEntity (p : Project) (key : LabelKey) : Option Project :=
  (engine.delete p.file key).map fun file => { p with file := file, dictionary := none }

end Engine

/-! ## Instances -/

/-- Of the rules for companies those for a name in quotes behind a legal form, which the sample
engine uses. -/
def quotedCompanies (text : Text) : List (EntitySpan ℚ) :=
  let form : Regex := .cat [.word "ТОВ «".toList, .plus (.char (· != '»')), .lit '»']
  (form.finditer text).map fun m =>
    ⟨m.1 + 5, m.2 - 1, organisation, text.slice (m.1 + 5) (m.2 - 1), 97 / 100, .regex, none⟩

def sampleEngine : Engine :=
  { sampleAnonymizer with sha256 := id, rules := fun _ _ text => quotedCompanies text }

def Project.new : Project := ⟨VaultFile.new, [], none⟩

def allCategories : Options := ⟨words.map LabelWords.category, []⟩

end RedactGate.Desktop
