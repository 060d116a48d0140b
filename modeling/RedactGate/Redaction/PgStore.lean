import RedactGate.Redaction.Vault
import Mathlib.Data.List.Pairwise

/-!
# PostgreSQL token store

The rows of the token map under their two uniqueness constraints. Each operation is one
statement, and its effect is there for the next one.
-/
namespace RedactGate

open Library

/-- A uniqueness constraint: no two rows have the key. -/
def Unique (key : TokenRecord → Text × Text) (rows : List TokenRecord) : Prop :=
  rows.Pairwise fun r r' => key r ≠ key r'

structure PostgresTokenStore where
  rows : List TokenRecord
  uqTokenmapFp : Unique (fun r => (r.sessionId, r.valueFingerprint)) rows
  uqTokenmapPh : Unique (fun r => (r.sessionId, r.placeholder)) rows

namespace Unique

variable {key : TokenRecord → Text × Text} {rows : List TokenRecord}

theorem eq (unique : Unique key rows) {r r' : TokenRecord} (member : r ∈ rows)
    (member' : r' ∈ rows) (same : key r = key r') : r = r' := by
  by_contra ne
  have : Std.Symm fun r r' : TokenRecord => key r ≠ key r' := ⟨fun _ _ apart => apart.symm⟩
  exact List.Pairwise.forall unique member member' ne same

theorem concat (unique : Unique key rows) {record : TokenRecord}
    (new : ∀ r ∈ rows, key r ≠ key record) : Unique key (rows ++ [record]) := by
  refine List.pairwise_append.mpr ⟨unique, List.pairwise_singleton _ _, fun r member _ last => ?_⟩
  rw [List.mem_singleton.mp last]
  exact new r member

theorem map (unique : Unique key rows) {change : TokenRecord → TokenRecord}
    (kept : ∀ r, key (change r) = key r) : Unique key (rows.map change) := by
  refine List.pairwise_map.mpr (unique.imp fun apart => ?_)
  rwa [kept, kept]

end Unique

namespace PostgresTokenStore

def empty : PostgresTokenStore := ⟨[], .nil, .nil⟩

def getByFingerprint (store : PostgresTokenStore) (sessionId fingerprint : Text) :
    Option TokenRecord :=
  store.rows.find? fun r => (r.sessionId, r.valueFingerprint) = (sessionId, fingerprint)

def getByPlaceholder (store : PostgresTokenStore) (sessionId placeholder : Text) :
    Option TokenRecord :=
  store.rows.find? fun r => (r.sessionId, r.placeholder) = (sessionId, placeholder)

/-- A row whose fingerprint and placeholder are both new to the session is inserted, so that the two
unique indexes still hold. -/
def insert (store : PostgresTokenStore) (record : TokenRecord)
    (newFp : store.getByFingerprint record.sessionId record.valueFingerprint = none)
    (newPh : store.getByPlaceholder record.sessionId record.placeholder = none) :
    PostgresTokenStore where
  rows := store.rows ++ [record]
  uqTokenmapFp := store.uqTokenmapFp.concat fun r member => by
    simpa using List.find?_eq_none.mp newFp r member
  uqTokenmapPh := store.uqTokenmapPh.concat fun r member => by
    simpa using List.find?_eq_none.mp newPh r member

/-- `put`: nothing happens for a fingerprint that is there; a placeholder that is there for
another fingerprint is an `IntegrityError`. -/
def put (store : PostgresTokenStore) (record : TokenRecord) : Option PostgresTokenStore :=
  match newFp : store.getByFingerprint record.sessionId record.valueFingerprint with
  | some _ => some store
  | none =>
    match newPh : store.getByPlaceholder record.sessionId record.placeholder with
    | some _ => none
    | none => some (store.insert record newFp newPh)

/-- The row with its occurrences counted up, if it is the row of the fingerprint. -/
def bumped (sessionId fingerprint : Text) (r : TokenRecord) : TokenRecord :=
  if r.sessionId = sessionId ∧ r.valueFingerprint = fingerprint then
    { r with occurrences := r.occurrences + 1 }
  else r

theorem bumped_keys (sessionId fingerprint : Text) (r : TokenRecord) :
    (bumped sessionId fingerprint r).sessionId = r.sessionId ∧
    (bumped sessionId fingerprint r).valueFingerprint = r.valueFingerprint ∧
    (bumped sessionId fingerprint r).placeholder = r.placeholder ∧
    (bumped sessionId fingerprint r).valueCiphertext = r.valueCiphertext := by
  rw [bumped]
  split <;> exact ⟨rfl, rfl, rfl, rfl⟩

def bumpOccurrence (store : PostgresTokenStore) (sessionId fingerprint : Text) :
    PostgresTokenStore where
  rows := store.rows.map (bumped sessionId fingerprint)
  uqTokenmapFp := store.uqTokenmapFp.map fun r => by
    obtain ⟨session, fingerprint, _⟩ := bumped_keys sessionId fingerprint r
    rw [session, fingerprint]
  uqTokenmapPh := store.uqTokenmapPh.map fun r => by
    obtain ⟨session, _, placeholder, _⟩ := bumped_keys sessionId fingerprint r
    rw [session, placeholder]

/-! ## Rows found -/

variable {store : PostgresTokenStore} {sessionId : Text}

theorem of_getByFingerprint {fingerprint : Text} {r : TokenRecord}
    (found : store.getByFingerprint sessionId fingerprint = some r) :
    r ∈ store.rows ∧ r.sessionId = sessionId ∧ r.valueFingerprint = fingerprint := by
  have keys := List.find?_some found
  exact ⟨List.mem_of_find?_eq_some found, Prod.mk.inj (of_decide_eq_true keys)⟩

theorem of_getByPlaceholder {placeholder : Text} {r : TokenRecord}
    (found : store.getByPlaceholder sessionId placeholder = some r) :
    r ∈ store.rows ∧ r.sessionId = sessionId ∧ r.placeholder = placeholder := by
  have keys := List.find?_some found
  exact ⟨List.mem_of_find?_eq_some found, Prod.mk.inj (of_decide_eq_true keys)⟩

/-- A session has one row at most for a placeholder, and the lookup of the placeholder finds it. -/
theorem getByPlaceholder_of_mem {r : TokenRecord} (member : r ∈ store.rows) :
    store.getByPlaceholder r.sessionId r.placeholder = some r := by
  cases found : store.getByPlaceholder r.sessionId r.placeholder with
  | none =>
    have missed := List.find?_eq_none.mp found r member
    simp at missed
  | some r' =>
    obtain ⟨member', session, placeholder⟩ := of_getByPlaceholder found
    rw [store.uqTokenmapPh.eq member' member (by rw [session, placeholder])]

/-- Everything an insert can do: a row with the fingerprint is there already and nothing is done, or
the row is appended. -/
theorem put_cases {record : TokenRecord} {store' : PostgresTokenStore}
    (stored : store.put record = some store') :
    ((∃ r, store.getByFingerprint record.sessionId record.valueFingerprint = some r) ∧
      store' = store) ∨
    (store.getByFingerprint record.sessionId record.valueFingerprint = none ∧
      store'.rows = store.rows ++ [record]) := by
  unfold put at stored
  split at stored
  next r found => exact .inl ⟨⟨r, found⟩, (Option.some.inj stored).symm⟩
  next newFp =>
    split at stored
    · cases stored
    · exact .inr ⟨newFp, congrArg rows (Option.some.inj stored).symm⟩

end PostgresTokenStore

end RedactGate
