import RedactGate.Desktop.Decoding
import RedactGate.Desktop.ProjectRuns

/-!
# Batches of files

A batch is anonymized in two passes: all of its files are scanned ahead, so that each of them
knows the names of the others, and then they are rewritten one by one. What the handlers of
the formats read and rewrite is a parameter, and so are the calls of the engine.
-/
namespace RedactGate.Desktop

open Library

/-- An exception that a file can raise: `UnsupportedFormat`, `OcrUnavailable`, or one of another
class, by its name. -/
inductive FileError where
  | unsupported
  | ocr
  | other (kind : Text)
  deriving DecidableEq

/-- What is reported for a file that raises: a word for the two exceptions of this module, else the
name of the class. -/
def FileError.report : FileError → Text
  | .unsupported => "unsupported".toList
  | .ocr => "ocr".toList
  | .other kind => kind

inductive Kind where
  | text | csv | docx | xlsx | pptx | docm | xlsm | pdf | image
  deriving DecidableEq

structure BatchFile where
  name : Text
  data : Bytes

/-! ## Names of files -/

/-- `Path(path).name`. -/
def pathName (path : Text) : Text :=
  ((path.splitOn '/').filter fun part => part ≠ [] && part ≠ ['.']).getLast?.getD []

/-- What stands before the last dot of a name, and behind it. -/
def lastDot (name : Text) : Text × Text :=
  ((name.rdropWhile (· != '.')).dropLast, name.rtakeWhile (· != '.'))

/-- `Path(path).suffix`: no suffix begins or ends a name. -/
def pathSuffix (path : Text) : Text :=
  let (front, back) := lastDot (pathName path)
  if front = [] ∨ back = [] then [] else '.' :: back

/-- `Path(path).stem`. -/
def pathStem (path : Text) : Text :=
  if pathSuffix path = [] then pathName path else (lastDot (pathName path)).1

/-- `CSV_EXT`, `OOXML_EXT`, `PDF_EXT`, `IMAGE_EXT` and `TEXT_EXT`, with the kinds that they have. -/
def kinds : List (Text × Kind) :=
  [(".csv", Kind.csv), (".tsv", .csv), (".docx", .docx), (".xlsx", .xlsx), (".pptx", .pptx),
    (".docm", .docm), (".xlsm", .xlsm), (".pdf", .pdf), (".png", .image), (".jpg", .image),
    (".jpeg", .image), (".tif", .image), (".tiff", .image), (".bmp", .image), (".webp", .image),
    (".txt", .text), (".md", .text), (".text", .text), (".log", .text), (".json", .text),
    (".xml", .text), (".html", .text), (".htm", .text), (".rtf", .text), (".eml", .text),
    ("", .text)].map fun entry => (entry.1.toList, entry.2)

/-- `kind_of`: the kind of a file by the ending of its name, in whatever case; another ending
raises. `lower` is `str.lower`. -/
def kindOf (lower : Text → Text) (name : Text) : Except FileError Kind :=
  match kinds.lookup (lower (pathSuffix name)) with
  | some kind => .ok kind
  | none => .error .unsupported

/-- Pages of these files can need OCR. -/
def Kind.paged (kind : Kind) : Bool := kind = .image || kind = .pdf

/-- `output_name`, of a name that has a kind: the stem with an addition and the old ending, but for
images, which become PDF. -/
def outputName (lower : Text → Text) (name more : Text) : Text :=
  let ext := match kindOf lower name with
    | .ok .image => ".pdf".toList
    | _ => pathSuffix name
  pathStem name ++ more ++ ext

/-- `stem_name.replace(".anon.", ".")`, from left to right and without looking at what has been
replaced. -/
def withoutAnon : Text → Text
  | '.' :: 'a' :: 'n' :: 'o' :: 'n' :: '.' :: rest => '.' :: withoutAnon rest
  | c :: rest => c :: withoutAnon rest
  | [] => []

/-! ## Handlers -/

structure TextUnit where
  text : Text
  force : Option Text

/-- The rewriting of a file by a handler: it asks for the replacements of one unit after the
other. -/
inductive Rewriting where
  | done (out : Bytes)
  | fail (error : FileError)
  | ask (text : Text) (force : Option Text) (next : List Replacement → Rewriting)

namespace Rewriting

/-- The rewriting of a handler with the answers of a function that has a state and can raise: the
first error ends it, and the state stays as it is by then. -/
def run {τ : Type} (fn : Text → Option Text → τ → Except FileError (List Replacement) × τ) :
    Rewriting → τ → Except FileError Bytes × τ
  | done out, t => (.ok out, t)
  | fail error, t => (.error error, t)
  | ask text force next, t =>
    match fn text force t with
    | (.ok reps, t) => (next reps).run fn t
    | (.error error, t) => (.error error, t)

/-- The rewriting raises whatever the answers are, though it may ask for some of them first. -/
inductive Fails : Rewriting → Prop
  | fail (error : FileError) : Fails (.fail error)
  | ask {text : Text} {force : Option Text} {next : List Replacement → Rewriting}
    (all : ∀ reps, Fails (next reps)) : Fails (.ask text force next)

end Rewriting

/-- `units` and `rewrite` of the handlers. Both read a file in the same way, so that one that has no
units cannot be rewritten. -/
structure Handlers where
  units : Kind → Text → Bytes → Except FileError (List TextUnit)
  rewrite : Kind → Text → Bytes → Rewriting
  fails_of_units : ∀ kind name data error, units kind name data = .error error →
    (rewrite kind name data).Fails

/-! ## Calls of the engine -/

/-- What goes from unit to unit of a file that is restored: the labels so far, and the cursor over
the record. -/
structure RestoreRun where
  restored : List LabelKey
  unknown : List Text
  cursor : Nat

/-- What a batch calls of the engine, each call with the state of the project that it finds and
leaves, and with the errors that it can raise. -/
structure Calls (σ : Type) where
  prescanUnit : Options → TextUnit → σ → Except FileError Unit × σ
  anonymizeUnit : Text → Options → Text → Option Text → RunState × σ →
    Except FileError (List Replacement) × (RunState × σ)
  /-- `finish_anon` and `record_document`. -/
  record : RunState → σ → σ
  exactMap : List Text → σ → Option (List Occurrence)
  restoreUnit : Option (List Occurrence) → Text → RestoreRun × σ →
    List Replacement × (RestoreRun × σ)

/-- An entity is added whose value belongs to another one. -/
def integrityError : FileError := .other "IntegrityError".toList

/-- The calls of the engine on a project. A broken unique index raises an `IntegrityError`, and the
other calls do not raise. -/
def Engine.calls (engine : Engine) : Calls Project where
  prescanUnit options unit p :=
    match engine.prescanUnit options unit.force unit.text p with
    | some p => (.ok (), p)
    | none => (.error integrityError, p)
  anonymizeUnit lang options text force t :=
    match engine.anonymizeUnit lang options force text t.1 t.2 with
    | some (reps, run, p) => (.ok reps, run, p)
    | none => (.error integrityError, t)
  record run p := engine.record run p
  exactMap texts p := engine.exactMap p texts
  restoreUnit exact text t :=
    -- the cursor over the recorded occurrences is carried from unit to unit
    let unit := engine.restoreUnit t.2.file exact t.1.cursor text
    (unit.reps, ⟨t.1.restored ++ unit.reps.map fun r => (r.category, r.n),
      t.1.unknown ++ unit.unknown, unit.cursor⟩,
      { t.2 with file := t.2.file.load engine.order })

/-! ## Files -/

def unicodeDecodeError : FileError := .other "UnicodeDecodeError".toList

/-- The previews of a text file or a table are decoded from its bytes, which can raise. -/
def previews (kind : Kind) (data out : Bytes) : Except FileError Unit :=
  if (kind = .text ∨ kind = .csv) ∧ ((decodeText data).isNone ∨ (decodeText out).isNone) then
    .error unicodeDecodeError
  else .ok ()

/-- What is returned for a file that went through: its data under a new name, what was counted, and
what restoring could not find. Texts of previews and times are left out. -/
structure FileResult where
  name : Text
  outName : Text
  kind : Kind
  data : Bytes
  counts : List (Text × Nat)
  labels : Nat
  exact : Option Bool
  unknown : List Text

/-- How often each category is among the labels. -/
def countsByCategory (keys : List LabelKey) : List (Text × Nat) :=
  (keys.map Prod.fst).dedup.map fun c => (c, (keys.map Prod.fst).count c)

inductive Direction where
  | anonymize
  | restore
  deriving DecidableEq

inductive Entry where
  | failed (name error : Text)
  | done (result : FileResult)

def Entry.name : Entry → Text
  | failed name _ => name
  | done result => result.name

def Entry.isFailed : Entry → Bool
  | failed _ _ => true
  | done _ => false

section

variable (lower : Text → Text) (handlers : Handlers)

/-- `units` of the handler of a file, which its name tells; a file without a handler raises. -/
def unitsOf (file : BatchFile) : Except FileError (List TextUnit) :=
  match kindOf lower file.name with
  | .ok kind => handlers.units kind file.name file.data
  | .error error => .error error

variable {σ : Type} (calls : Calls σ)

/-- The units of a file, scanned ahead one after the other in the project as the units before have
left it, up to the first that raises. -/
def prescanUnits (options : Options) : List TextUnit → σ → Except FileError Unit × σ
  | [], s => (.ok (), s)
  | unit :: units, s =>
    match calls.prescanUnit options unit s with
    | (.ok (), s) => prescanUnits options units s
    | raised => raised

/-- The rewriting of a file that is anonymized. -/
def anonymizing (lang : Text) (options : Options) (kind : Kind) (file : BatchFile) (s : σ) :
    Except FileError Bytes × (RunState × σ) :=
  (handlers.rewrite kind file.name file.data).run (calls.anonymizeUnit lang options) (.empty, s)

/-- `anonymize_file`. Its previews raise nothing: the file has been decoded, and a copy begins as
the file does or with a label, which no decoder takes for a mark. -/
def anonymizeFile (lang : Text) (options : Options) (file : BatchFile) (s : σ) :
    Except FileError FileResult × σ :=
  match kindOf lower file.name with
  | .error error => (.error error, s)
  | .ok kind =>
    match anonymizing handlers calls lang options kind file s with
    | (.error error, _, s) => (.error error, s)
    | (.ok out, run, s) =>
      -- the counts of the result are those of this run
      let seq := run.occurrences.map Occurrence.key
      (.ok ⟨file.name, outputName lower file.name ".anon".toList, kind, out, countsByCategory seq,
        seq.dedup.length, none, []⟩, calls.record run s)

/-- The rewriting of a file that is restored: every unit is answered by the engine, from the cursor
that the unit before has left. -/
def restoring (kind : Kind) (file : BatchFile) (exact : Option (List Occurrence)) (s : σ) :
    Except FileError Bytes × (RestoreRun × σ) :=
  (handlers.rewrite kind file.name file.data).run
    (fun text _ t => (.ok (calls.restoreUnit exact text t).1, (calls.restoreUnit exact text t).2))
    (⟨[], [], 0⟩, s)

/-- `restore_file`: the units are read for the exact map of the document, the handler then restores
them one by one, and the preview is decoded from the result. -/
def restoreFile (file : BatchFile) (s : σ) : Except FileError FileResult × σ :=
  match kindOf lower file.name with
  | .error error => (.error error, s)
  | .ok kind =>
    match handlers.units kind file.name file.data with
    | .error error => (.error error, s)
    | .ok units =>
      -- the units are read twice: once for the exact map, once by the handler
      let exact := calls.exactMap (units.map TextUnit.text) s
      match restoring handlers calls kind file exact s with
      | (.error error, _, s) => (.error error, s)
      | (.ok out, run, s) =>
        match previews kind file.data out with
        | .error error => (.error error, s)
        | .ok () =>
          (.ok ⟨file.name, outputName lower (withoutAnon file.name) ".restored".toList, kind, out,
            countsByCategory run.restored, run.restored.length, some exact.isSome,
            run.unknown.dedup.insertionSort fun a b => ¬b < a⟩, s)

/-! ## The two passes -/

/-- `prescan_files`: the units of all files are scanned ahead, file after file, and whatever raises
ends the pass. -/
def prescanFiles (options : Options) : List BatchFile → σ → Except FileError Unit × σ
  | [], s => (.ok (), s)
  | file :: files, s =>
    match unitsOf lower handlers file with
    | .error error => (.error error, s)
    | .ok units =>
      match prescanUnits calls options units s with
      | (.ok (), s) => prescanFiles options files s
      | raised => raised

/-- The files that are scanned ahead without OCR, which are those whose kind has no pages; a file of
no known kind raises. -/
def unpaged : List BatchFile → Except FileError (List BatchFile)
  | [] => .ok []
  | file :: files =>
    match kindOf lower file.name with
    | .error error => .error error
    | .ok kind => (unpaged files).map fun kept => if kind.paged then kept else file :: kept

/-- The first pass of `run_batch`: all files are scanned ahead, and if OCR is not there then those
without pages are scanned again. -/
def prescanBatch (options : Options) (files : List BatchFile) (s : σ) :
    Except FileError Unit × σ :=
  match prescanFiles lower handlers calls options files s with
  | (.error .ocr, s) =>
    match unpaged lower files with
    | .error error => (.error error, s)
    | .ok kept => prescanFiles lower handlers calls options kept s
  | outcome => outcome

/-- A file in the second pass of `run_batch`: it is anonymized or restored, and whatever it raises
is reported in its entry under its name. -/
def serve (direction : Direction) (lang : Text) (options : Options) (file : BatchFile) (s : σ) :
    Entry × σ :=
  let (outcome, s) := match direction with
    | .anonymize => anonymizeFile lower handlers calls lang options file s
    | .restore => restoreFile lower handlers calls file s
  match outcome with
  | .ok result => (.done result, s)
  | .error error => (.failed file.name error.report, s)

/-- The second pass of `run_batch`: each file in the state that the file before it leaves, and one
entry for each file. -/
def serveAll (direction : Direction) (lang : Text) (options : Options) :
    List BatchFile → σ → List Entry × σ
  | [], s => ([], s)
  | file :: files, s =>
    let (entry, s) := serve lower handlers calls direction lang options file s
    let (entries, s) := serveAll direction lang options files s
    (entry :: entries, s)

/-- `run_batch`: a batch to be anonymized is scanned ahead as a whole, and what this pass raises
ends it; then all files are served one by one. -/
def runBatch (direction : Direction) (lang : Text) (options : Options) (files : List BatchFile)
    (s : σ) : Except FileError (List Entry) × σ :=
  let (outcome, s) := match direction with
    -- only an anonymizing batch is scanned first
    | .anonymize => prescanBatch lower handlers calls options files s
    | .restore => (.ok (), s)
  match outcome with
  | .error error => (.error error, s)
  | .ok () =>
    let (entries, s) := serveAll lower handlers calls direction lang options files s
    (.ok entries, s)

end

end RedactGate.Desktop
