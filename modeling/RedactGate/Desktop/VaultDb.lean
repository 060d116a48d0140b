import RedactGate.Desktop.Engine

/-!
# The vault of all projects

The tables of the vault have the rows of every project, told apart by a column, and the memory
has a part for every project that is loaded. Beside it stands the store of a single project
with the same calls.
-/
namespace RedactGate.Desktop

open Library

/-- `WHERE project_id=?`. -/
def owned {α : Type} (pid : Text) (rows : List (Text × α)) : List α :=
  (rows.filter (·.1 = pid)).map Prod.snd

/-- The tables with the column of the project, the documents from the newest to the oldest, and
`_cache` with `_fp_index`. -/
structure VaultDb where
  entity : List (Text × EntityRow)
  variant : List (Text × VariantRow)
  document : List (Text × AnonDocument)
  memory : Text → Option Memory

/-- What is called for a project. Where the code is handed an entity object, the call names it by
its label. -/
inductive StoreCall where
  | entities
  | entity (key : LabelKey)
  | byFingerprint (fp : Text)
  | addEntity (category canonical fp : Text) (personMeta : PersonMeta) (origin : Origin)
  | addVariant (key : LabelKey) (fp surface : Text)
  | setCanonical (key : LabelKey) (value : Text) (personMeta : Option PersonMeta)
  | setExcluded (key : LabelKey) (excluded : Bool)
  | deleteEntity (key : LabelKey)
  | deleteProject
  | recordDocument (document : AnonDocument)
  | restoreMap (digest : Text)

/-- What a call returns, as far as its caller looks at it: entities, the label of a new one, or the
record of a document. -/
inductive StoreAnswer where
  | entities (es : List Entity)
  | entity (e : Option Entity)
  /-- The label of a new entity; a call that breaks the unique index has none. -/
  | added (key : Option LabelKey)
  | restore (record : Option (List Occurrence))
  | done

/-- What is called of the vault. The counts of a run can be of several projects. -/
inductive VaultCall where
  | own (pid : Text) (call : StoreCall)
  | bump (counts : List ((Text × LabelKey) × Nat))
  | lock

namespace VaultDb

def new : VaultDb := ⟨[], [], [], fun _ => none⟩

section

variable (order : RowOrder) (db : VaultDb) (pid : Text)

/-- `_load`, the result. -/
def memoryOf : Memory :=
  (db.memory pid).getD (Tables.load order ⟨owned pid db.entity, owned pid db.variant⟩)

/-- Put the memory of a project. -/
def hold (m : Option Memory) : VaultDb := { db with memory := Function.update db.memory pid m }

/-- `_load`. -/
def load : VaultDb := db.hold pid (some (db.memoryOf order pid))

/-- `entity`. -/
def entityOf (key : LabelKey) : Option Entity := (db.memoryOf order pid).cache.get? key

/-- `entities`. -/
def entities : List Entity :=
  ((db.memoryOf order pid).cache.entries.map Prod.snd).insertionSort fun a b =>
    a.category < b.category ∨ a.category = b.category ∧ a.n ≤ b.n

/-- `by_fingerprint`. -/
def byFingerprint (fp : Text) : Option Entity :=
  ((db.memoryOf order pid).fpIndex.get? fp).bind (db.entityOf order pid)

/-- `SELECT COALESCE(MAX(n), 0) FROM entity WHERE project_id=? AND category=?`. -/
def maxN (category : Text) : Nat :=
  ((db.entity.filter fun r => r.1 = pid ∧ r.2.category = category).map (·.2.n)).foldl max 0

/-- `add_entity` for one project of the database. The unique index is on the project and the
fingerprint, and a call that breaks it raises. -/
def addEntity (category canonical fp : Text) (personMeta : PersonMeta) (origin : Origin) :
    Option (LabelKey × VaultDb) :=
  let row : EntityRow :=
    ⟨category, db.maxN pid category + 1, fp, canonical, personMeta, 0, false, origin⟩
  -- the insert raises IntegrityError
  if db.entity.any fun r => r.1 = pid && r.2.fingerprint = fp then none
  else
    let m := db.memoryOf order pid
    let m : Memory :=
      ⟨m.cache.set row.key { row with variants := Dict.empty }, m.fpIndex.set fp row.key⟩
    some (row.key, { db.hold pid (some m) with entity := db.entity ++ [(pid, row)] })

/-- `add_variant` for one project of the database: `INSERT OR IGNORE`, by the project and the
fingerprint, and the memory of the project. -/
def addVariant (key : LabelKey) (fp surface : Text) : VaultDb :=
  match db.entityOf order pid key with
  | none => db
  | some e =>
    if fp = e.fingerprint ∨ (e.variants.get? fp).isSome then db
    else
      let m := db.memoryOf order pid
      let m : Memory :=
        ⟨m.cache.set key { e with variants := e.variants.set fp surface }, m.fpIndex.set fp key⟩
      { db.hold pid (some m) with
        -- a row of another entity of the project stays
        variant :=
          if db.variant.any fun r => r.1 = pid && r.2.fingerprint = fp then db.variant
          else db.variant ++ [(pid, ⟨key.1, key.2, fp, surface⟩)] }

/-- `UPDATE entity SET … WHERE project_id=? AND category=? AND n=?`. -/
def update (key : LabelKey) (f : EntityRow → EntityRow) : VaultDb :=
  { db with entity := db.entity.map fun r => if r.1 = pid ∧ r.2.key = key then (r.1, f r.2) else r }

/-- Change the row of an entity of the project, in memory and in the table; an entity that is not
there is left alone. -/
def updateEntity (key : LabelKey) (f : EntityRow → EntityRow) : VaultDb :=
  match db.entityOf order pid key with
  | none => db
  | some e =>
    let m := db.memoryOf order pid
    (db.update pid key f).hold pid
      (some { m with cache := m.cache.set key { e with toEntityRow := f e.toEntityRow } })

/-- `set_canonical` for one project of the database; the name parts stay unless new ones are given. -/
def setCanonical (key : LabelKey) (value : Text) (personMeta : Option PersonMeta) : VaultDb :=
  match db.entityOf order pid key with
  | none => db
  | some e => db.updateEntity order pid key fun row =>
    { row with value := value, personMeta := personMeta.getD e.personMeta }

/-- `set_excluded`. -/
def setExcluded (key : LabelKey) (excluded : Bool) : VaultDb :=
  db.updateEntity order pid key fun row => { row with excluded := excluded }

/-- The body of the loop of `bump`: one label of the project, counted in the table and in the memory
that the project has. -/
def bumpOne (key : LabelKey) (count : Nat) : VaultDb :=
  (db.update pid key fun row => { row with occurrences := row.occurrences + count }).hold pid
    ((db.memory pid).map fun m =>
      match m.cache.get? key with
      | some e =>
        { m with cache := m.cache.set key { e with occurrences := e.occurrences + count } }
      | none => m)

/-- `delete_entity`: the rows of the entity and of its variants, in this project only, and the
memory of the project. -/
def deleteEntity (key : LabelKey) : VaultDb :=
  { db.hold pid none with
    entity := db.entity.filter fun r => ¬(r.1 = pid ∧ r.2.key = key)
    variant := db.variant.filter fun r => ¬(r.1 = pid ∧ r.2.key = key) }

/-- `delete_project`: all rows of the project in the three tables, and its memory. -/
def deleteProject : VaultDb :=
  { db.hold pid none with
    entity := db.entity.filter (·.1 ≠ pid)
    variant := db.variant.filter (·.1 ≠ pid)
    document := db.document.filter (·.1 ≠ pid) }

/-- `record_document`, of an anonymized document. -/
def recordDocument (document : AnonDocument) : VaultDb :=
  { db with document := (pid, document) :: db.document }

/-- `restore_map`: the newest document of the project with the digest. -/
def restoreMap (digest : Text) : Option (List Occurrence) :=
  (db.document.find? fun d => d.1 = pid ∧ d.2.digest = digest).map (·.2.restore)

end

/-- `bump`. -/
def bump (db : VaultDb) (counts : List ((Text × LabelKey) × Nat)) : VaultDb :=
  counts.foldl (fun db count => db.bumpOne count.1.1 count.1.2 count.2) db

/-- `lock`; the tables stay. -/
def lock (db : VaultDb) : VaultDb := { db with memory := fun _ => none }

/-- A call for a project of the database: what it answers, and the database after it. A call that
breaks the unique index has loaded the project and changed nothing else. -/
def serve (order : RowOrder) (db : VaultDb) (pid : Text) : StoreCall → StoreAnswer × VaultDb
  | .entities => (.entities (db.entities order pid), db.load order pid)
  | .entity key => (.entity (db.entityOf order pid key), db.load order pid)
  | .byFingerprint fp => (.entity (db.byFingerprint order pid fp), db.load order pid)
  | .addEntity category canonical fp personMeta origin =>
    match db.addEntity order pid category canonical fp personMeta origin with
    | some (key, db) => (.added (some key), db)
    | none => (.added none, db.load order pid)
  | .addVariant key fp surface => (.done, db.addVariant order pid key fp surface)
  | .setCanonical key value personMeta => (.done, db.setCanonical order pid key value personMeta)
  | .setExcluded key excluded => (.done, db.setExcluded order pid key excluded)
  | .deleteEntity key => (.done, db.deleteEntity pid key)
  | .deleteProject => (.done, db.deleteProject pid)
  | .recordDocument document => (.done, db.recordDocument pid document)
  | .restoreMap digest => (.restore (db.restoreMap pid digest), db)

/-- A call, with its answer and the project that gets it; counting and locking are for all projects. -/
def step (order : RowOrder) (db : VaultDb) : VaultCall → Option (Text × StoreAnswer) × VaultDb
  | .own pid call => (some (pid, (db.serve order pid call).1), (db.serve order pid call).2)
  | .bump counts => (none, db.bump counts)
  | .lock => (none, db.lock)

/-- The calls one after the other, each in the database that the calls before it leave, with what
they answer. -/
def run (order : RowOrder) : VaultDb → List VaultCall → List (Text × StoreAnswer) × VaultDb
  | db, [] => ([], db)
  | db, call :: calls =>
    let (answer, db) := db.step order call
    let (answers, db) := run order db calls
    (answer.toList ++ answers, db)

end VaultDb

/-! ## The store of one project -/

/-- The entities and the documents of a project. -/
structure ProjectStore where
  file : VaultFile
  documents : List AnonDocument

/-- What happens to the store of one project: a call of its own, or its part of what is done to all. -/
inductive StoreEvent where
  | call (call : StoreCall)
  | bump (counts : List (LabelKey × Nat))
  | lock

namespace ProjectStore

def new : ProjectStore := ⟨VaultFile.new, []⟩

/-- A call for the project of a store of its own: what it answers, and the store after it. A call
that breaks the unique index has loaded the project and changed nothing else. -/
def serve (order : RowOrder) (store : ProjectStore) : StoreCall → StoreAnswer × ProjectStore
  | .entities =>
    (.entities (store.file.entities order), { store with file := store.file.load order })
  | .entity key =>
    (.entity (store.file.entityOf order key), { store with file := store.file.load order })
  | .byFingerprint fp =>
    (.entity (store.file.byFingerprint order fp), { store with file := store.file.load order })
  | .addEntity category canonical fp personMeta origin =>
    match store.file.addEntity order category canonical fp personMeta origin with
    | some (key, file) => (.added (some key), { store with file := file })
    | none => (.added none, { store with file := store.file.load order })
  | .addVariant key fp surface =>
    (.done, { store with file := store.file.addVariant order key fp surface })
  | .setCanonical key value personMeta =>
    (.done, { store with file := store.file.setCanonical order key value personMeta })
  | .setExcluded key excluded =>
    (.done, { store with file := store.file.setExcluded order key excluded })
  | .deleteEntity key => (.done, { store with file := store.file.deleteEntity key })
  | .deleteProject => (.done, new)
  | .recordDocument document => (.done, { store with documents := document :: store.documents })
  | .restoreMap digest => (.restore (Desktop.restoreMap store.documents digest), store)

def step (order : RowOrder) (store : ProjectStore) : StoreEvent → Option StoreAnswer × ProjectStore
  | .call call => (some (store.serve order call).1, (store.serve order call).2)
  | .bump counts => (none, { store with file := store.file.bump counts })
  | .lock => (none, { store with file := store.file.lock })

def run (order : RowOrder) : ProjectStore → List StoreEvent → List StoreAnswer × ProjectStore
  | store, [] => ([], store)
  | store, event :: events =>
    let (answer, store) := store.step order event
    let (answers, store) := run order store events
    (answer.toList ++ answers, store)

end ProjectStore

end RedactGate.Desktop
