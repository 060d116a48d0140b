import RedactGate.Desktop.Batches
import RedactGate.Desktop.VaultKeys
import RedactGate.Library.Json
import RedactGate.Library.Procedures

/-!
# Server

The local server of the desktop program, one request after the other: who is let in, the
routes, and what they do with the vault, the projects, the batches that are uploaded and the
results that wait for a download. What the tables keep of a project stands here by itself.
-/
namespace RedactGate.Desktop

open Library

/-- `LANGS`. -/
def langs : List Text := ["uk".toList, "ru".toList, "en".toList]

/-- `PACKS`. -/
def allPacks : List Text :=
  ["GENERIC".toList, "UA".toList, "CA".toList, "US".toList, "EU".toList, "IRCC".toList]

/-! ## Bodies -/

/-- The items that a loop over a value goes through: those of a list, the characters of a text, the
keys of an object. -/
def iterate : Json → Option (List Json)
  | .arr items => some items
  | .str s => some (s.map fun c => .str [c])
  | .obj fields => some (fields.map fun field => .str field.1)
  | .null | .bool _ | .number _ => none

def hashable : Json → Bool
  | .arr _ | .obj _ => false
  | .null | .bool _ | .number _ | .str _ => true

def text? : Json → Option Text
  | .str s => some s
  | .null | .bool _ | .number _ | .arr _ | .obj _ => none

/-- What the categories and the packs are if nothing is said: all but the amounts. -/
def Options.standard : Options :=
  ⟨(words.map LabelWords.category).filter (· ≠ "AMOUNT".toList), allPacks⟩

/-- `Options.from_dict`: the categories and packs that a JSON value names, or the defaults where it
names none; nothing where it raises. -/
def Options.fromDict (d : Json) : Option Options :=
  if !d.truthy then some .standard
  else match d with
    | .obj fields => do
      let categories ← match Fields.getOrNull fields "categories".toList with
        | .null => some Options.standard.categories
        -- `set(...)` iterates whatever is there and wants its items hashable
        | value => ((iterate value).filter (·.all hashable)).map (·.filterMap text?)
      let packs ←
        -- an empty list of packs means all of them
        if (Fields.getOrNull fields "packs".toList).truthy then
          (iterate (Fields.getOrNull fields "packs".toList)).map (·.filterMap text?)
        else some allPacks
      some ⟨categories, packs⟩
    | _ => none

/-- A language that labels can have. -/
def lang? (value : Json) : Option Text := (text? value).filter (· ∈ langs)

/-- Digits with single underscores between them, as a number; nothing if there is anything else. -/
def digits? (unicode : Unicode) : Text → Option Nat
  | [] => none
  | text => if text.splitOn '_' |>.all (!·.isEmpty) then
      (text.filter (· ≠ '_')).foldlM (fun n c => (unicode.decimal c).map (n * 10 + ·)) 0
    else none

/-- `int()` of a text: digits behind a sign or none, with white space around them; nothing where it
raises. -/
def int? (unicode : Unicode) (text : Text) : Option Int :=
  match Text.strip unicode text with
  | '-' :: rest => (digits? unicode rest).map fun n => -(n : Int)
  | '+' :: rest => (digits? unicode rest).map fun n => (n : Int)
  | rest => (digits? unicode rest).map fun n => (n : Int)

/-! ## Requests and answers -/

inductive Method where
  | get | post | put | patch | delete
  deriving DecidableEq

/-- A request. A header that is not there is empty; the names are unquoted, and a body whose
length is wrong or too large cannot be read. -/
structure Request where
  method : Method
  host : Text
  origin : Text
  tokenHeader : Text
  tokenQuery : Text
  path : Text
  fileName : Text
  body : Option Bytes

/-- What a route raises, by the answers that the server has for it; an error of a file is passed on. -/
inductive Raised where
  | locked
  | badPassword
  | notFound
  | badRequest
  | internal
  | file (error : FileError)

/-- A row of the table `project`. -/
structure ProjectInfo where
  id : Text
  name : Text
  labelLang : Text
  options : Json

/-- An entity as it is shown to the user: its values and flags, and its label in each language. -/
structure EntityView where
  category : Text
  n : Nat
  value : Text
  occurrences : Nat
  excluded : Bool
  origin : Origin
  variants : List Text
  labels : List (Text × Text)

inductive Answer where
  | state (initialized unlocked : Bool) (lang : Text)
  | ok
  | settings (lang : Text)
  | vault (unlocked initialized : Bool)
  /-- The projects with the numbers of their entities. -/
  | projects (ps : List (ProjectInfo × Nat))
  | project (p : ProjectInfo) (entities : Nat)
  | entities (es : List EntityView)
  | entity (e : EntityView)
  | anonymized (text : Text) (marks : List Replacement) (counts : List (Text × Nat))
  | restored (text : Text) (marks : List Replacement) (unknown : List Text) (count : Nat)
  | batch (id : Text)
  | uploaded (files : Nat)
  /-- The entries of a batch with the names of the results that are kept. -/
  | results (entries : List (Option Text × Entry)) (project : ProjectInfo)
  | file (name : Text) (data : Bytes)
  | zip (files : List (Text × Bytes))
  /-- Pages, and lists and files whose contents are left out. -/
  | page
  | documents
  | exported
  | failed (kind : Text)
  | nothing

structure Response where
  status : Nat
  answer : Answer

/-! ## State -/

structure AppState where
  keys : KeyState
  dataKey : Option Bytes
  projects : List ProjectInfo
  stores : Text → Project
  batches : Dict Text (List BatchFile)
  results : Dict Text (Text × Bytes)
  lang : Text
  /-- How many identifiers have been drawn. -/
  drawn : Nat

namespace AppState

/-- The state of a server in a new data directory: no vault, no projects, and nothing that waits for
download. -/
def new : AppState where
  keys := KeyState.new
  dataKey := none
  projects := []
  stores _ := Project.new
  batches := Dict.empty
  results := Dict.empty
  lang := "uk".toList
  drawn := 0

/-- `lock` of the vault: the data key is forgotten, and with it what the stores of all projects have
in memory. -/
def lock (s : AppState) : AppState :=
  { s with
    dataKey := none
    stores := fun pid => { s.stores pid with file := (s.stores pid).file.lock } }

/-- `_install_keys`. -/
def install (s : AppState) (dataKey : Bytes) : AppState := { s with dataKey := some dataKey }

/-- `clear_memory`. -/
def clearMemory (s : AppState) : AppState := { s with batches := Dict.empty, results := Dict.empty }

def put (s : AppState) (pid : Text) (p : Project) : AppState :=
  { s with stores := Function.update s.stores pid p }

end AppState

/-- What the server rests on: `loads` parses a body, `str` is the conversion of a value to a
text, `uuid` draws identifiers, the demo has its files, `statusOf` is what a class of exceptions
is answered with, `unquote` decodes the escapes of a path, and `isPage` tells whether a name leads
to a file below the directory of the pages. -/
structure Server where
  engine : Engine
  keyVault : KeyVault
  lower : Text → Text
  handlers : Handlers
  loads : Bytes → Option Json
  str : Json → Text
  str_str : ∀ text, str (.str text) = text
  uuid : Nat → Text
  demoFiles : List BatchFile
  statusOf : Text → Nat × Text
  unquote : Text → Text
  isPage : Text → Bool
  port : Nat
  token : Text

abbrev Handler (α : Type) := Proc AppState Raised α

namespace Server

variable (server : Server)

/-- The engine of a project. -/
def engineOf (pid : Text) : Engine := { server.engine with pid := pid }

def unicode : Unicode := server.engine.casing.toUnicode

/-! ## Statements of the routes -/

/-- `_need`. -/
def need : Handler Unit := .require (·.dataKey.isSome) .locked

/-- A value that may be missing, or the exception that is raised where it is. -/
def given {α : Type} (value : Option α) (e : Raised) : Handler α :=
  .lift (match value with
    | some a => .ok a
    | none => .error e)

/-- `_jbody`. -/
def jbody (req : Request) : Handler Json :=
  given (req.body.bind fun raw => if raw.isEmpty then some (.obj []) else server.loads raw)
    .badRequest

/-- `b.get(name)`, with `null` where there is no such member; only an object has the method. -/
def member (b : Json) (name : String) : Handler Json :=
  given (match b with
    | .obj fields => some (Fields.getOrNull fields name.toList)
    | _ => none) .internal

/-- `str(b.get(name, ""))` of a body; one that is no object raises. -/
def text (b : Json) (name : String) : Handler Text :=
  given (match b with
    | .obj fields => some (server.str ((Fields.get? fields name.toList).getD (.str [])))
    | _ => none) .internal

/-- `b[name] if name in b`: nothing if the name is not there. A list or a text can have the name in
it but no member, which raises. -/
def memberIn (b : Json) (name : String) : Handler (Option Json) :=
  given (match b with
    | .obj fields => some (Fields.get? fields name.toList)
    | .arr items => if name.toList ∈ items.filterMap text? then none else some none
    | .str s => if name.toList <:+: s then none else some none
    | .null | .bool _ | .number _ => none) .internal

/-- `uuid.uuid4().hex`, cut to a length; the draws are numbered, so that no two of them are one
call. -/
def draw (length : Nat) : Handler Text := do
  let n ← Proc.read AppState.drawn
  Proc.change fun s => { s with drawn := s.drawn + 1 }
  pure ((server.uuid n).take length)

/-- What is done with the store of a project. -/
def onStore {α : Type} (pid : Text) (f : Project → Except Raised α × Project) : Handler α :=
  fun s => ((f (s.stores pid)).1, s.put pid (f (s.stores pid)).2)

/-- `get_project`: the row of the project, if the vault is open and there is one. -/
def getProject (pid : Text) : Handler ProjectInfo := do
  need
  let found ← Proc.read fun s => s.projects.find? (·.id = pid)
  given found .notFound

def entityView (e : Entity) : EntityView where
  category := e.category
  n := e.n
  value := e.value
  occurrences := e.occurrences
  excluded := e.excluded
  origin := e.origin
  variants := ((e.variants.entries.map Prod.snd).dedup.filter (· ≠ e.value)).insertionSort
    fun a b => ¬b < a
  labels := langs.map fun lang => (lang, render server.engine.casing e.category e.n lang)

def okay (answer : Answer) : Handler Response := pure ⟨200, answer⟩

/-- How many entities a project has. -/
def entityCount (pid : Text) : Handler Nat :=
  .read fun s => (s.stores pid).file.tables.entity.length

/-! ## Vault -/

def keyRaised : KeyError → Raised
  | .badPassword => .badPassword
  | .alreadyInitialized | .notInitialized | .invalidTag | .typeError => .internal

/-- `initialize`: the entries are written in their order, and the data key is installed. -/
def initializeVault (password : Text) : Handler Unit := fun s =>
  match server.keyVault.initializeVault s.keys password with
  | .error e => (.error (keyRaised e), s)
  | .ok (writes, dataKey, keys) =>
    (.ok (), { s.install dataKey with keys := keys.write writes writes.length })

/-- `unlock`: the password unwraps the data key. It is installed before the verifier is looked at,
and removed again if that reads wrong. -/
def unlock (password : Text) : Handler Unit := fun s =>
  match KeyVault.entry s.keys "salt".toList, KeyVault.entry s.keys "wrapped".toList with
  | some salt, some wrapped =>
    match server.keyVault.unwrap (server.keyVault.wrappingKey password salt) wrapped with
    | none => (.error .badPassword, s)
    | some dataKey =>
      match server.keyVault.decMeta dataKey (s.keys.entries.get? "verifier".toList) with
      -- a verifier that does not open leaves the keys installed, one that reads wrong locks again
      | .error e => (.error (keyRaised e), s.install dataKey)
      | .ok verifier =>
        if verifier = verifierText then (.ok (), s.install dataKey)
        else (.error .badPassword, (s.install dataKey).lock)
  | _, _ => (.error .internal, s)

/-- `change_password`: both entries are written, and the data key that is installed stays. -/
def changePassword (old new : Text) : Handler Unit := fun s =>
  match server.keyVault.changePassword s.keys old new with
  | .error e => (.error (keyRaised e), s)
  | .ok (writes, keys) => (.ok (), { s with keys := keys.write writes writes.length })

end Server

end RedactGate.Desktop
