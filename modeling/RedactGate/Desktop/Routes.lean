import RedactGate.Desktop.Server

/-!
# Routes

What the server does with a request, route by route, and whom it answers.
-/
namespace RedactGate.Desktop

open Library

inductive VaultRoute where
  | init | unlock | lock | password | download | unknown
  deriving DecidableEq

inductive ProjectRoute where
  | whole
  | entities
  | entity (category n : Text)
  | documents
  | anonymizeText
  | restoreText
  | batch (direction : Direction)
  | unknown
  deriving DecidableEq

inductive Route where
  | state | heartbeat | settings | quit | selfcheck
  | vault (route : VaultRoute)
  | projects
  | project (pid : Text) (route : ProjectRoute)
  | newBatch
  | upload (bid : Text)
  | result (rid : Text)
  | zip (ids : Text)
  | demo
  | unknown
  deriving DecidableEq

namespace Request

/-- The parts of the path behind `api`. -/
def parts (req : Request) : List Text := ((req.path.splitOn '/').filter (!·.isEmpty)).drop 1

def vaultRoute (req : Request) : List String → VaultRoute
  | ["init"] => .init
  | ["unlock"] => .unlock
  | ["lock"] => .lock
  | ["password"] => .password
  | ["export"] => if req.method = .get then .download else .unknown
  | _ => .unknown

def projectRoute : List String → ProjectRoute
  | [] => .whole
  | ["entities"] => .entities
  -- the label of an entity is the rest of its path
  | ["entities", category, n] => .entity category.toList n.toList
  | ["documents"] => .documents
  | ["anonymize-text"] => .anonymizeText
  | ["restore-text"] => .restoreText
  | ["anonymize"] => .batch .anonymize
  | ["restore"] => .batch .restore
  | _ => .unknown

/-- The conditions of `_route`, one after the other: what a path and a method ask for. A path that
fits none of them is unknown. -/
def route (req : Request) : Route :=
  match req.parts.map String.ofList with
  | ["state"] => .state
  | ["heartbeat"] => .heartbeat
  | ["settings"] => if req.method = .post then .settings else .unknown
  | ["quit"] => if req.method = .post then .quit else .unknown
  | ["selfcheck"] => .selfcheck
  | "vault" :: rest => .vault (req.vaultRoute rest)
  | ["projects"] => .projects
  | "projects" :: pid :: rest => .project pid.toList (projectRoute rest)
  | ["batch"] => if req.method = .post then .newBatch else .unknown
  | ["batch", bid, "file"] => if req.method = .put then .upload bid.toList else .unknown
  | ["results", rid] => if req.method = .get then .result rid.toList else .unknown
  | ["zip", ids] => if req.method = .get then .zip ids.toList else .unknown
  | ["demo"] => if req.method = .post then .demo else .unknown
  | _ => .unknown

end Request

namespace Server

variable (server : Server)

/-! ## Settings and vault -/

def settings (req : Request) : Handler Response := do
  let b ← server.jbody req
  let lang ← member b "lang"
  Proc.change fun s => { s with lang := (lang? lang).getD s.lang }
  let lang ← Proc.read AppState.lang
  okay (.settings lang)

/-- The body that `/api/vault` takes: that of a POST. -/
def vaultBody (req : Request) : Handler Json :=
  if req.method = .post then server.jbody req else pure (.obj [])

def vaultStatus : Handler Response :=
  .read fun s => ⟨200, .vault s.dataKey.isSome (KeyVault.initialized s.keys)⟩

def vault (req : Request) (route : VaultRoute) : Handler Response := do
  let b ← server.vaultBody req
  match route with
  | .init => do
    let password ← server.text b "password"
    server.initializeVault password
    vaultStatus
  | .unlock => do
    let password ← server.text b "password"
    server.unlock password
    vaultStatus
  -- the vault is locked first, then the memory of the server cleared
  | .lock => do
    Proc.change AppState.lock
    Proc.change AppState.clearMemory
    vaultStatus
  | .password => do
    let old ← server.text b "old"
    let new ← server.text b "new"
    server.changePassword old new
    vaultStatus
  | .download => do
    need
    okay .exported
  | .unknown => .raise .notFound

/-! ## Projects -/

/-- The INSERT of `create_project`. -/
def insert (info : ProjectInfo) : Handler Unit := fun s =>
  if s.projects.any (·.id = info.id) then (.error .internal, s)
  else (.ok (), { s with projects := s.projects ++ [info] })

/-- `create_project`: a new identifier is drawn, and a project with an empty store is put under it. -/
def createProject (name lang : Text) (options : Json) : Handler Text := do
  need
  let pid ← server.draw 12
  insert ⟨pid, name, lang, options⟩
  pure pid

/-- A name, or the one that a project has without one. -/
def projectName (name : Json) : Text :=
  let name := Text.strip server.unicode (if name.truthy then server.str name else [])
  if name.isEmpty then "Проєкт".toList else name

def projects (req : Request) : Handler Response :=
  match req.method with
  | .get => do
    need
    let ps ← Proc.read fun s =>
      s.projects.map fun p => (p, (s.stores p.id).file.tables.entity.length)
    okay (.projects ps)
  | .post => do
    let b ← server.jbody req
    let name ← member b "name"
    let lang ← member b "label_lang"
    -- an unknown label language falls back to the one of the settings
    let standard ← Proc.read AppState.lang
    let options ← member b "options"
    let pid ← server.createProject (server.projectName name) ((lang? lang).getD standard)
      (if options.truthy then options else .obj [])
    let p ← getProject pid
    let entities ← entityCount pid
    pure ⟨201, .project p entities⟩
  | .put | .patch | .delete => okay .nothing

/-- `update_project`: name, language and options of a project, each of which stays as it is if it is
not given. -/
def updateProject (pid : Text) (name : Option Text) (lang : Option Text) (options : Option Json) :
    Handler Unit :=
  .change fun s => { s with
    projects := s.projects.map fun p =>
      if p.id = pid then
        ⟨p.id, name.getD p.name, lang.getD p.labelLang, options.getD p.options⟩
      else p }

def wholeProject (req : Request) (pid : Text) (proj : ProjectInfo) : Handler Response :=
  match req.method with
  | .get => do
    let entities ← entityCount pid
    okay (.project proj entities)
  | .patch => do
    let b ← server.jbody req
    let name ← member b "name"
    let lang ← member b "label_lang"
    let options ← member b "options"
    -- a name that is not a text has no bytes to encrypt
    let name ← given (match name with
      | .null => some none
      | .str name => some (some name)
      | _ => none) .internal
    updateProject pid name (lang? lang) (match options with
      | .null => none
      | options => some options)
    let p ← getProject pid
    let entities ← entityCount pid
    okay (.project p entities)
  | .delete => do
    Proc.change fun s => { s.put pid .new with projects := s.projects.filter (·.id ≠ pid) }
    okay .ok
  | .post | .put => okay .nothing

/-! ## Entities -/

def listEntities (pid : Text) : Handler Response :=
  onStore pid fun p =>
    (.ok ⟨200, .entities ((p.file.entities (server.engineOf pid).order).map server.entityView)⟩,
      { p with file := p.file.load (server.engineOf pid).order })

def addEntity (req : Request) (pid : Text) : Handler Response := do
  let b ← server.jbody req
  let category ← server.text b "category"
  let category := Text.upper server.unicode category
  let value ← server.text b "value"
  Proc.require (fun _ => category ∈ words.map LabelWords.category &&
    !(Text.strip server.unicode value).isEmpty) .badRequest
  let excluded ← member b "excluded"
  onStore pid fun p =>
    match (server.engineOf pid).addManual p.file category value excluded.truthy with
    | none => (.error .internal, p)
    | some (key, file) =>
      -- `invalidate`: the next detection builds its dictionary anew
      let p := { p with file := file, dictionary := none }
      match file.entityOf (server.engineOf pid).order key with
      | some e => (.ok ⟨201, .entity (server.entityView e)⟩, p)
      | none => (.error .internal, p)

def changeEntity (req : Request) (pid : Text) (key : LabelKey) : Handler Response := do
  let b ← server.jbody req
  -- a member that is missing leaves its column alone, one that is null does not
  let value ← memberIn b "value"
  let excluded ← memberIn b "excluded"
  onStore pid fun p =>
    match (server.engineOf pid).edit p.file key (value.map server.str) (excluded.map Json.truthy) with
    | none => (.error .notFound, p)
    | some file =>
      let p := { p with file := file, dictionary := none }
      match file.entityOf (server.engineOf pid).order key with
      | some e => (.ok ⟨200, .entity (server.entityView e)⟩, p)
      | none => (.error .internal, p)

def deleteEntity (pid : Text) (key : LabelKey) : Handler Response :=
  onStore pid fun p =>
    match (server.engineOf pid).deleteEntity p key with
    | none => (.error .notFound, p)
    | some p => (.ok ⟨200, .ok⟩, p)

/-- The label of a path; no entity has a number below zero. -/
def keyOf (category : Text) (n : Int) : Option LabelKey :=
  if n < 0 then none else some (Text.upper server.unicode category, n.toNat)

def oneEntity (req : Request) (pid category n : Text) : Handler Response := do
  -- `int` takes spaces, signs and underscores, so one label has several paths
  let n ← given (int? server.unicode n) .badRequest
  let found ← onStore pid fun p =>
    (.ok ((server.keyOf category n).filter fun key =>
      (p.file.entityOf (server.engineOf pid).order key).isSome),
      { p with file := p.file.load (server.engineOf pid).order })
  let key ← given found .notFound
  match req.method with
  | .patch => server.changeEntity req pid key
  | .delete => server.deleteEntity pid key
  | .get | .post | .put => okay .nothing

/-! ## Texts -/

def anonymizeText (req : Request) (pid : Text) (proj : ProjectInfo) : Handler Response := do
  let b ← server.jbody req
  let options ← member b "options"
  -- options in the body stand in for those of the project
  let options ← given (Options.fromDict (if options.truthy then options else proj.options)) .internal
  let text ← server.text b "text"
  onStore pid fun p =>
    match (server.engineOf pid).anonymizeText proj.labelLang options text p with
    | none => (.error .internal, p)
    | some (copy, reps, p) =>
      (.ok ⟨200, .anonymized copy reps (countsByCategory (reps.map fun r => (r.category, r.n)))⟩, p)

def restoreText (req : Request) (pid : Text) : Handler Response := do
  let b ← server.jbody req
  let text ← server.text b "text"
  onStore pid fun p =>
    let engine := server.engineOf pid
    let unit := engine.restoreUnit p.file (engine.exactMap p [text]) 0 text
    (.ok ⟨200, .restored (engine.restoreText p text) unit.reps
      (unit.unknown.dedup.insertionSort fun a b => ¬b < a) unit.reps.length⟩,
      { p with file := p.file.load engine.order })

/-! ## Batches and results -/

/-- The results of the files of a batch, each kept under a new name that it can be fetched by; a
file that failed has none. -/
def keepResults : List Entry → Handler (List (Option Text × Entry))
  | [] => pure []
  -- a file that failed has no result to fetch
  | .failed name error :: entries => do
    let rest ← keepResults entries
    pure ((none, .failed name error) :: rest)
  | .done result :: entries => do
    let rid ← server.draw 16
    Proc.change fun s => { s with results := s.results.set rid (result.outName, result.data) }
    let rest ← keepResults entries
    pure ((some rid, .done result) :: rest)

/-- How many results are kept. -/
def resultLimit : Nat := 400

/-- The oldest results go. -/
def trimResults : Handler Unit :=
  .change fun s => { s with results := s.results.drop (s.results.entries.length - resultLimit) }

/-- `run_batch` on the store of a project, with the options of the request or else of the project,
and the results kept for download. -/
def serveBatch (pid : Text) (proj : ProjectInfo) (files : List BatchFile) (direction : Direction)
    (options : Json) : Handler Response := do
  let options ← given (Options.fromDict (if options.truthy then options else proj.options)) .internal
  -- what one file raises stands in its entry, what the scan of the batch raises ends the request
  let entries ← onStore pid fun p =>
    match runBatch server.lower server.handlers (server.engineOf pid).calls direction
        proj.labelLang options files p with
    | (.ok entries, p) => (.ok entries, p)
    | (.error e, p) => (.error (.file e), p)
  let kept ← server.keepResults entries
  trimResults
  let p ← getProject pid
  okay (.results kept p)

/-- A batch is anonymized or restored: it is taken away from those that wait before anything else is
done with it. -/
def batch (req : Request) (pid : Text) (proj : ProjectInfo) (direction : Direction) :
    Handler Response := do
  let b ← server.jbody req
  let name ← member b "batch"
  let files ← Proc.read fun s => s.batches.get? (server.str name)
  Proc.change fun s => { s with batches := s.batches.erase (server.str name) }
  let files ← given (files.filter (!·.isEmpty)) .badRequest
  let options ← member b "options"
  server.serveBatch pid proj files direction options

def newBatch : Handler Response := do
  let bid ← server.draw 12
  Proc.change fun s => { s with batches := s.batches.set bid [] }
  okay (.batch bid)

/-- The name of an uploaded file: the last component of what the request names, or a name for a text
file. -/
def uploadName (req : Request) : Text :=
  let name := if req.fileName.isEmpty then "file.txt".toList else req.fileName
  let name := pathName (Text.replaceChar '\\' '/' name)
  if name.isEmpty then "file.txt".toList else name

def upload (req : Request) (bid : Text) : Handler Response := do
  let files ← Proc.read fun s => s.batches.get? bid
  let files ← given files .notFound
  -- the name is checked before the body is read
  Proc.lift (match kindOf server.lower (uploadName req) with
    | .ok _ => .ok ()
    | .error e => .error (.file e))
  let data ← given req.body .badRequest
  let files := files ++ [⟨uploadName req, data⟩]
  Proc.change fun s => { s with batches := s.batches.set bid files }
  okay (.uploaded files.length)

def result (rid : Text) : Handler Response := do
  let found ← Proc.read fun s => s.results.get? rid
  let found ← given found .notFound
  okay (.file found.1 found.2)

def zip (ids : Text) : Handler Response := do
  let files ← Proc.read fun s => (ids.splitOn ',').filterMap s.results.get?
  okay (.zip files)

def demoName (lang : Text) : Text :=
  if lang = "uk".toList then "Демо: аудит (синтетичні дані)".toList
  else if lang = "ru".toList then "Демо: аудит (синтетические данные)".toList
  else "Demo: audit (synthetic data)".toList

/-- `make_demo`, without the sample of an answer: a new project in which the demo files are
anonymized. -/
def demo : Handler Response := do
  let lang ← Proc.read AppState.lang
  let pid ← server.createProject (demoName lang) lang (.obj [])
  let proj ← getProject pid
  server.serveBatch pid proj server.demoFiles .anonymize .null

/-! ## Dispatching -/

def project (req : Request) (pid : Text) (route : ProjectRoute) : Handler Response := do
  -- an unknown project is not found, on every route below it
  let proj ← getProject pid
  match route with
  | .whole => server.wholeProject req pid proj
  | .entities => if req.method = .get then server.listEntities pid else server.addEntity req pid
  | .entity category n => server.oneEntity req pid category n
  | .documents => okay .documents
  | .anonymizeText => server.anonymizeText req pid proj
  | .restoreText => server.restoreText req pid
  | .batch direction => server.batch req pid proj direction
  | .unknown => .raise .notFound

/-- `_route`: what each route of the server does, with the state it finds. What quitting sets off is
left out. -/
def serveRoute (req : Request) : Handler Response :=
  match req.route with
  | .state => do
    let answer ← Proc.read fun s =>
      Answer.state (KeyVault.initialized s.keys) s.dataKey.isSome s.lang
    okay answer
  | .heartbeat | .quit => okay .ok
  | .settings => server.settings req
  | .selfcheck => okay .page
  | .vault route => server.vault req route
  | .projects => server.projects req
  | .project pid route => server.project req pid route
  | .newBatch => server.newBatch
  | .upload bid => server.upload req bid
  | .result rid => result rid
  | .zip ids => zip ids
  | .demo => server.demo
  | .unknown => .raise .notFound

def failure : Raised → Response
  | .locked => ⟨423, .failed "locked".toList⟩
  | .badPassword => ⟨403, .failed "bad_password".toList⟩
  | .notFound => ⟨404, .failed "not_found".toList⟩
  | .badRequest => ⟨400, .failed "bad_request".toList⟩
  | .internal => ⟨500, .failed "internal".toList⟩
  | .file .unsupported => ⟨415, .failed "unsupported".toList⟩
  -- `OcrUnavailable` has no clause of its own
  | .file .ocr => ⟨500, .failed "internal".toList⟩
  | .file (.other kind) =>
    let answer := server.statusOf kind
    ⟨answer.1, .failed answer.2⟩

/-- `_host_ok`: the host of the request is the server itself, and so is its origin, if it names one. -/
def hostOk (req : Request) : Bool :=
  let hosts := ["127.0.0.1:".toList, "localhost:".toList].map (· ++ Nat.toDigits 10 server.port)
  decide (server.lower req.host ∈ hosts) &&
    (req.origin.isEmpty ||
      decide ((server.lower req.origin).rdropWhile (· == '/') ∈ hosts.map ("http://".toList ++ ·)))

def tokenOf (req : Request) : Text :=
  if req.tokenHeader.isEmpty then req.tokenQuery else req.tokenHeader

/-- The page that a path leads to. -/
def pageOf (path : Text) : Text :=
  if path = "/".toList ∨ path = [] then "index.html".toList
  else server.unquote (path.dropWhile (· = '/'))

/-- `_static`. -/
def static (path : Text) : Response :=
  if server.isPage (server.pageOf path) then ⟨200, .page⟩ else ⟨404, .failed "error".toList⟩

/-- `_dispatch`: the host, the static pages, the token and then the route, with an answer for
whatever is raised. Comparing a token with other than ASCII characters raises. -/
def dispatch (req : Request) (s : AppState) : Response × AppState :=
  if !server.hostOk req then (⟨403, .failed "forbidden".toList⟩, s)
  else if ¬"/api/".toList <+: req.path then
    (if req.method = .get then server.static req.path else ⟨405, .failed "error".toList⟩, s)
  else if !(tokenOf req).all (·.toNat < 128) then (⟨0, .nothing⟩, s)
  else if tokenOf req ≠ server.token then (⟨401, .failed "unauthorized".toList⟩, s)
  else match server.serveRoute req s with
    | (.ok response, s) => (response, s)
    | (.error e, s) => (server.failure e, s)

/-- Requests, one after the other, each in the state that the requests before it leave, with the
answers to them. -/
def run : AppState → List Request → List Response × AppState
  | s, [] => ([], s)
  | s, req :: reqs =>
    let (response, s) := server.dispatch req s
    let (responses, s) := run s reqs
    (response :: responses, s)

end Server

end RedactGate.Desktop
