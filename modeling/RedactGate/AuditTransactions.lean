import RedactGate.Audit
import RedactGate.Library.LockedAppend

/-!
# Concurrent audit appends

`record_event` inside a database transaction: a transaction-scoped advisory lock on the
hash of the team id, the read of the last event hash, and the insert. What the transaction
inserted is visible to others once it has committed.
-/
namespace RedactGate

open Library

variable {Tx Key : Type} (crypto : Crypto) (key : Bytes) (hashtext : Text → Key)
  (payload : Tx → EventPayload)

/-- Recording an event, as a transaction that appends: it locks by the hash of the team, looks up
the last hash of the team, and inserts the event linked to it. -/
def recordEvents : Appender Tx Text Key Text AuditEvent where
  group t := (payload t).teamId
  rowGroup event := event.teamId
  lock := hashtext
  look events := (events.getLast?.map AuditEvent.eventHash).getD genesisHash
  row t prev :=
    { payload t with prevHash := prev, eventHash := computeEventHash crypto key prev (payload t) }
  rowGroup_row _ _ := rfl

/-- The rows of a team, ordered by id. -/
def teamEvents (teamId : Text) (rows : List (Nat × AuditEvent)) : List AuditEvent :=
  (recordEvents crypto key hashtext payload).select teamId rows

variable {crypto key hashtext payload}

/-- The transactions, one after the other, append what a run of the calls in the same order appends. -/
theorem serial_recordEvents (order : List Tx) :
    (recordEvents crypto key hashtext payload).serial order =
      recordAll crypto key (order.map payload) := by
  induction order using List.reverseRecOn with
  | nil => rfl
  | append_singleton order t ih =>
    have last : recordAll crypto key ((order ++ [t]).map payload) =
        recordEvent crypto key (recordAll crypto key (order.map payload)) (payload t) := by
      simp [recordAll]
    rw [last, ← ih, Appender.serial, List.foldl_append]
    rfl

end RedactGate
