import RedactGate.Desktop.Persons
import RedactGate.Library.Dict

/-!
# Label vault

The entities of one project: two tables in a file, and a map of the entities and an index
of their fingerprints in memory, which are loaded when they are needed. What the tables
keep encrypted stands here as it is decrypted, and an entity object of the index is named by
its label.
-/
namespace RedactGate.Desktop

open Library

/-- A label: the category and the number. -/
abbrev LabelKey := Text × Nat

inductive Origin where
  | auto
  | manual
  deriving DecidableEq

/-- A row of the table `entity`: the label, the fingerprint that the entity is found by, its
canonical value, and what the user has set. -/
structure EntityRow where
  category : Text
  n : Nat
  fingerprint : Text
  value : Text
  personMeta : PersonMeta
  occurrences : Nat
  excluded : Bool
  origin : Origin
  deriving DecidableEq

def EntityRow.key (row : EntityRow) : LabelKey := (row.category, row.n)

/-- A row of the table `variant`: another spelling of an entity's value, under a fingerprint of its
own. -/
structure VariantRow where
  category : Text
  n : Nat
  fingerprint : Text
  value : Text
  deriving DecidableEq

def VariantRow.key (row : VariantRow) : LabelKey := (row.category, row.n)

/-- An entity in memory: its row and its variants, the surfaces by their fingerprints. -/
structure Entity extends EntityRow where
  variants : Dict Text Text

/-- The canonical value and the variants. -/
def Entity.surfaces (e : Entity) : List Text := e.value :: e.variants.entries.map Prod.snd

structure Tables where
  entity : List EntityRow
  variant : List VariantRow

structure Memory where
  cache : Dict LabelKey Entity
  fpIndex : Dict Text LabelKey

structure VaultFile where
  tables : Tables
  memory : Option Memory

/-- The order in which a query without `ORDER BY` returns rows: all of them, in whatever order the
store likes. -/
structure RowOrder where
  entity : List EntityRow → List EntityRow
  variant : List VariantRow → List VariantRow
  entity_perm : ∀ rows, (entity rows).Perm rows
  variant_perm : ∀ rows, (variant rows).Perm rows

def RowOrder.insertion : RowOrder := ⟨id, id, .refl, .refl⟩

namespace Tables

def empty : Tables := ⟨[], []⟩

/-- Give an entity the surface of a row, under its fingerprint; a row of no entity is passed over. -/
def attach (ents : Dict LabelKey Entity) (row : VariantRow) : Dict LabelKey Entity :=
  match ents.get? row.key with
  | some e => ents.set row.key { e with variants := e.variants.set row.fingerprint row.value }
  | none => ents

/-- What an entity writes into the index. -/
def indexed (entry : LabelKey × Entity) : List (Text × LabelKey) :=
  (entry.2.fingerprint, entry.1) :: entry.2.variants.entries.map fun v => (v.1, entry.1)

/-- The body of `_load`: the entities, then their variants, and the index over the fingerprints of
both. -/
def load (order : RowOrder) (tables : Tables) : Memory :=
  let ents := Dict.empty.setAll ((order.entity tables.entity).map fun row =>
    (row.key, { row with variants := Dict.empty : Entity }))
  let ents := (order.variant tables.variant).foldl attach ents
  ⟨ents, Dict.empty.setAll (ents.entries.flatMap indexed)⟩

/-- `UPDATE entity SET … WHERE category=? AND n=?`. -/
def update (tables : Tables) (key : LabelKey) (f : EntityRow → EntityRow) : Tables :=
  { tables with entity := tables.entity.map fun row => if row.key = key then f row else row }

/-- `SELECT COALESCE(MAX(n), 0) FROM entity WHERE category=?`. -/
def maxN (tables : Tables) (category : Text) : Nat :=
  ((tables.entity.filter (·.category = category)).map EntityRow.n).foldl max 0

end Tables

namespace VaultFile

def new : VaultFile := ⟨Tables.empty, none⟩

section

variable (order : RowOrder)

/-- `_load`. -/
def memoryOf (st : VaultFile) : Memory := st.memory.getD (st.tables.load order)

def load (st : VaultFile) : VaultFile := { st with memory := some (st.memoryOf order) }

def entityOf (st : VaultFile) (key : LabelKey) : Option Entity :=
  (st.memoryOf order).cache.get? key

/-- `entities`, by category and number. -/
def entities (st : VaultFile) : List Entity :=
  ((st.memoryOf order).cache.entries.map Prod.snd).insertionSort fun a b =>
    a.category < b.category ∨ a.category = b.category ∧ a.n ≤ b.n

def byFingerprint (st : VaultFile) (fp : Text) : Option Entity :=
  ((st.memoryOf order).fpIndex.get? fp).bind (st.entityOf order)

/-- `add_entity`: the next number of the category, in the table and in memory. A second entity of a
fingerprint breaks the unique index, and the call raises. -/
def addEntity (st : VaultFile) (category canonical fp : Text) (personMeta : PersonMeta)
    (origin : Origin) : Option (LabelKey × VaultFile) :=
  let row : EntityRow :=
    ⟨category, st.tables.maxN category + 1, fp, canonical, personMeta, 0, false, origin⟩
  if st.tables.entity.any (·.fingerprint = fp) then none
  else
    let m := st.memoryOf order
    some (row.key, ⟨{ st.tables with entity := st.tables.entity ++ [row] },
      some ⟨m.cache.set row.key { row with variants := Dict.empty }, m.fpIndex.set fp row.key⟩⟩)

/-- `add_variant`, of an entity that is in memory: the spelling is written to the table, unless
another entity has its fingerprint, and in any case to memory. -/
def addVariant (st : VaultFile) (key : LabelKey) (fp surface : Text) : VaultFile :=
  match st.entityOf order key with
  | none => st
  | some e =>
    -- a spelling that the entity has already is not written again
    if fp = e.fingerprint ∨ (e.variants.get? fp).isSome then st
    else
      let m := st.memoryOf order
      -- the fingerprint may belong to another entity: INSERT OR IGNORE keeps that row, the memory
      -- takes the new one
      ⟨if st.tables.variant.any (·.fingerprint = fp) then st.tables
        else { st.tables with
          variant := st.tables.variant ++ [⟨key.1, key.2, fp, surface⟩] },
        some ⟨m.cache.set key { e with variants := e.variants.set fp surface },
          m.fpIndex.set fp key⟩⟩

/-- Change the row of an entity that is in memory, both in memory and in the table; an entity that
is not there is left alone. -/
def updateEntity (st : VaultFile) (key : LabelKey) (f : EntityRow → EntityRow) : VaultFile :=
  match st.entityOf order key with
  | none => st
  | some e =>
    let m := st.memoryOf order
    ⟨st.tables.update key f,
      some { m with cache := m.cache.set key { e with toEntityRow := f e.toEntityRow } }⟩

/-- `set_canonical` of an entity that is there: its value is changed, and its name parts stay as
they are unless new ones are given. -/
def setCanonical (st : VaultFile) (key : LabelKey) (value : Text)
    (personMeta : Option PersonMeta) : VaultFile :=
  match st.entityOf order key with
  | none => st
  | some e => st.updateEntity order key fun row =>
    { row with value := value, personMeta := personMeta.getD e.personMeta }

def setExcluded (st : VaultFile) (key : LabelKey) (excluded : Bool) : VaultFile :=
  st.updateEntity order key fun row => { row with excluded := excluded }

end

/-- `bump`, of one label: its entity is counted in the table, and in memory too if the project is
loaded and the entity is there. -/
def bumpOne (st : VaultFile) (key : LabelKey) (count : Nat) : VaultFile where
  tables := st.tables.update key fun row => { row with occurrences := row.occurrences + count }
  memory := st.memory.map fun m =>
    match m.cache.get? key with
    | some e =>
      { m with cache := m.cache.set key { e with occurrences := e.occurrences + count } }
    | none => m

def bump (st : VaultFile) (counts : List (LabelKey × Nat)) : VaultFile :=
  counts.foldl (fun st count => st.bumpOne count.1 count.2) st

/-- `delete_entity`; the memory is dropped. -/
def deleteEntity (st : VaultFile) (key : LabelKey) : VaultFile where
  tables := ⟨st.tables.entity.filter (·.key ≠ key), st.tables.variant.filter (·.key ≠ key)⟩
  memory := none

/-- `lock`. -/
def lock (st : VaultFile) : VaultFile := { st with memory := none }

end VaultFile

end RedactGate.Desktop
