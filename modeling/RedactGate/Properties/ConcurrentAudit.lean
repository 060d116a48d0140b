import RedactGate.AuditTransactions

/-!
# Concurrent audit appends

However the transactions interleave, and whichever of them roll back, the committed rows of
each team are the chain of its committed transactions.
-/
namespace RedactGate

open Library

variable {Tx Key : Type} [DecidableEq Tx] [DecidableEq Key]

/-- In every state that the transactions reach there is an order of the committed ones in
which each team has one row for each of its own, and the rows of each team verify. Teams
may share a lock key. -/
theorem concurrent_audit_linear (crypto : Crypto) (key : Bytes) (hashtext : Text → Key)
    (payload : Tx → EventPayload) {s : Appender.Table Tx Key Text AuditEvent}
    (reached : Reaches (recordEvents crypto key hashtext payload).step Appender.start s) :
    ∃ order : List Tx, order.Nodup ∧ (∀ t, t ∈ order ↔ s.stage t = .committed) ∧
      ∀ teamId,
        (teamEvents crypto key hashtext payload teamId s.rows).map AuditEvent.toEventPayload =
          (order.filter fun t => (payload t).teamId = teamId).map payload ∧
        verifyEvents crypto key genesisHash
          (teamEvents crypto key hashtext payload teamId s.rows) = true := by
  obtain ⟨order, nodup, committed, select⟩ := Appender.select_eq_serial reached
  refine ⟨order, nodup, committed, fun teamId => ?_⟩
  have rows : teamEvents crypto key hashtext payload teamId s.rows =
      eventsOf teamId (recordAll crypto key (order.map payload)) := by
    rw [teamEvents, select, serial_recordEvents]
    rfl
  constructor
  · have own : (fun event : AuditEvent => decide (event.teamId = teamId)) =
        (fun call : EventPayload => decide (call.teamId = teamId)) ∘ AuditEvent.toEventPayload :=
      rfl
    rw [rows, eventsOf, own, ← List.filter_map, payloads_recordAll, List.filter_map]
    rfl
  · rw [rows]
    exact verifyChain_recordAll crypto key _ _

/-- A transaction of each of two teams, interleaved, and one that rolls back its insert. -/
def threeAppends : List (Nat × Appender.Action) :=
  [(0, .takeLock), (2, .takeLock), (0, .look), (2, .look), (2, .insert), (0, .insert), (0, .commit),
    (1, .takeLock), (1, .look), (1, .insert), (2, .commit), (1, .rollback)]

def threeEvents (t : Nat) : EventPayload where
  teamId := if t = 2 then "b".toList else "a".toList
  apiKeyId := none
  sessionId := none
  route := "/v1/chat/completions".toList
  provider := "openai".toList
  entityCounts := ⟨[("SIN".toList, 1)], List.pairwise_singleton _ _⟩
  blocked := false
  promptTokens := none
  completionTokens := none
  latencyMs := none

theorem concurrent_audit_linear_threeAppends :
    ∃ s, runSteps (recordEvents sampleVault.crypto [1] id threeEvents).step Appender.start
        threeAppends = some s ∧ s.rows.map Prod.fst = [2, 1] ∧
      verifyEvents sampleVault.crypto [1] genesisHash
        (teamEvents sampleVault.crypto [1] id threeEvents "a".toList s.rows) = true := by
  have ids : (runSteps (recordEvents sampleVault.crypto [1] id threeEvents).step Appender.start
      threeAppends).map (fun s => s.rows.map Prod.fst) = some [2, 1] := by decide
  obtain ⟨s, run, ids⟩ := Option.map_eq_some_iff.mp ids
  obtain ⟨_, _, _, linear⟩ := concurrent_audit_linear sampleVault.crypto [1] id threeEvents
    (reaches_of_runSteps run)
  exact ⟨s, run, ids, (linear "a".toList).2⟩

end RedactGate
