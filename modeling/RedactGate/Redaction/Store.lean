import RedactGate.Library.Bytes
import RedactGate.Library.Dict

/-!
# Token store

The in-memory store. Both indexes refer to shared records, so a change made
through one index is seen through the other; a record is a position in `records`.
-/
namespace RedactGate

open Library

structure TokenRecord where
  sessionId : Text
  placeholder : Text
  entityType : Text
  valueCiphertext : Bytes
  valueFingerprint : Text
  occurrences : Nat := 1
  deriving DecidableEq, Repr

/-- `InMemoryTokenStore`: the records in the order in which they came, and an index by fingerprint
and one by placeholder. -/
structure InMemoryTokenStore where
  records : List TokenRecord
  byFp : Dict (Text × Text) Nat
  byPh : Dict (Text × Text) Nat

namespace InMemoryTokenStore

def empty : InMemoryTokenStore := ⟨[], .empty, .empty⟩

def getByFingerprint (store : InMemoryTokenStore) (sessionId fingerprint : Text) :
    Option TokenRecord :=
  (store.byFp.get? (sessionId, fingerprint)).bind (store.records[·]?)

def getByPlaceholder (store : InMemoryTokenStore) (sessionId placeholder : Text) :
    Option TokenRecord :=
  (store.byPh.get? (sessionId, placeholder)).bind (store.records[·]?)

def put (store : InMemoryTokenStore) (record : TokenRecord) : InMemoryTokenStore where
  records := store.records ++ [record]
  byFp := store.byFp.set (record.sessionId, record.valueFingerprint) store.records.length
  byPh := store.byPh.set (record.sessionId, record.placeholder) store.records.length

def bumpOccurrence (store : InMemoryTokenStore) (sessionId fingerprint : Text) :
    InMemoryTokenStore :=
  match store.byFp.get? (sessionId, fingerprint) with
  | none => store
  | some i =>
    { store with
      records := store.records.modify i fun r => { r with occurrences := r.occurrences + 1 } }

def allForSession (store : InMemoryTokenStore) (sessionId : Text) : List TokenRecord :=
  store.byFp.entries.filterMap fun ((sid, _), i) =>
    if sid = sessionId then store.records[i]? else none

end InMemoryTokenStore

end RedactGate
