import RedactGate.Audit

/-!
# Tamper evidence of the audit chain

Recorded chains verify, each depends on its own team's calls, and rows put together
without the key verify only as a prefix of what was recorded: their last hash was
produced for some team, and that hash determines everything before it.
-/
namespace RedactGate

open Library

variable {crypto : Crypto} {key : Bytes}

/-- Every row of the table holds the payload of one of the calls that were recorded. -/
theorem mem_calls_of_mem_recordAll {calls : List EventPayload} {r : AuditEvent}
    (member : r ∈ recordAll crypto key calls) : r.toEventPayload ∈ calls := by
  induction calls using List.reverseRecOn with
  | nil => cases member
  | append_singleton calls payload ih =>
    rw [recordAll, List.foldl_append, List.foldl_cons, List.foldl_nil, recordEvent] at member
    rcases List.mem_append.mp member with old | new
    · exact List.mem_append_left _ (ih old)
    · rw [List.mem_singleton.mp new]
      exact List.mem_append_right _ List.mem_cons_self

theorem eventsOf_recordAll_filter (calls : List EventPayload) (teamId : Text) :
    eventsOf teamId (recordAll crypto key calls) =
      recordAll crypto key (calls.filter (·.teamId = teamId)) := by
  have own : eventsOf teamId (recordAll crypto key (calls.filter (·.teamId = teamId))) =
      recordAll crypto key (calls.filter (·.teamId = teamId)) := by
    refine List.filter_eq_self.mpr fun r member => ?_
    exact (List.mem_filter.mp (mem_calls_of_mem_recordAll member)).2
  rw [← own]
  refine List.map_injective_iff.mpr AuditEvent.toEntry_injective ?_
  rw [eventsOf_recordAll, eventsOf_recordAll, List.filter_filter]
  simp only [Bool.and_self]

/-- Rows of a team whose last hash was recorded for any team verify only as a prefix of
the team's recorded chain. -/
theorem prefix_of_verifyChain (injective : HmacInjective crypto)
    (unforged : ∀ msg, hex (crypto.hmacSha256 key msg) ≠ genesisHash) (calls : List EventPayload)
    {teamId : Text} {forged : List AuditEvent} (own : ∀ r ∈ forged, r.teamId = teamId)
    (known : ∀ r ∈ forged, ∃ g ∈ recordAll crypto key calls, r.eventHash = g.eventHash)
    (verified : verifyChain crypto key forged teamId = true) :
    forged <+: eventsOf teamId (recordAll crypto key calls) := by
  have binding := computeEventHash_binding injective unforged
  have all : eventsOf teamId forged = forged :=
    List.filter_eq_self.mpr fun r member => decide_eq_true (own r member)
  rw [verifyChain, all, verifyEvents_eq] at verified
  -- the last row's hash was recorded, which pins everything before it
  rcases List.eq_nil_or_concat' forged with rfl | ⟨init, last, rfl⟩
  · exact List.nil_prefix
  obtain ⟨g, recorded, same⟩ := known last (List.mem_append_right _ List.mem_cons_self)
  have chain := verifyChain_recordAll crypto key calls g.teamId
  rw [verifyChain, verifyEvents_eq] at chain
  have entries : (init ++ [last]).map AuditEvent.toEntry <+:
      (eventsOf g.teamId (recordAll crypto key calls)).map AuditEvent.toEntry := by
    refine binding.prefix_of_mem verified chain (.inr ⟨g.toEntry, ?_, ?_⟩)
    · exact List.mem_map_of_mem (List.mem_filter.mpr ⟨recorded, decide_eq_true rfl⟩)
    · rw [List.map_append, List.map_cons, List.map_nil, HashChain.lastHash_append]
      exact same
  have rows := (List.prefix_map_iff_of_injective AuditEvent.toEntry_injective).mp entries
  -- the recorded row with that hash is of the same team
  have team : g.teamId = teamId := by
    have among := rows.subset (List.mem_append_right init List.mem_cons_self)
    have team_last := of_decide_eq_true (List.mem_filter.mp among).2
    exact team_last.symm.trans (own last (List.mem_append_right _ List.mem_cons_self))
  exact team ▸ rows

/-- Tamper evidence. For every run of `record_event` calls: each call leaves one row with its own
payload; every team's chain verifies and is what the team's own calls alone would have recorded; and
rows of a team, with any fields and with hashes from anywhere in the table, verify only if they are
a prefix of what was recorded for the team. -/
theorem audit_tamper_evident (injective : HmacInjective crypto)
    (unforged : ∀ msg, hex (crypto.hmacSha256 key msg) ≠ genesisHash) (calls : List EventPayload) :
    (recordAll crypto key calls).map AuditEvent.toEventPayload = calls ∧
    (∀ teamId, verifyChain crypto key (recordAll crypto key calls) teamId = true) ∧
    (∀ teamId, eventsOf teamId (recordAll crypto key calls) =
      recordAll crypto key (calls.filter (·.teamId = teamId))) ∧
    ∀ teamId (forged : List AuditEvent), (∀ r ∈ forged, r.teamId = teamId) →
      (∀ r ∈ forged, ∃ g ∈ recordAll crypto key calls, r.eventHash = g.eventHash) →
      verifyChain crypto key forged teamId = true →
      forged <+: eventsOf teamId (recordAll crypto key calls) :=
  ⟨payloads_recordAll crypto key calls, verifyChain_recordAll crypto key calls,
    eventsOf_recordAll_filter calls,
    fun _ _ own known verified => prefix_of_verifyChain injective unforged calls own known verified⟩

/-- An event of a team in which a number of names was redacted, with all other fields fixed. -/
def namesEvent (teamId : Text) (names : Int) : EventPayload where
  teamId := teamId
  apiKeyId := none
  sessionId := some "s1".toList
  route := "/v1/chat/completions".toList
  provider := "openai".toList
  entityCounts := ⟨[("PERSON".toList, names)], List.pairwise_singleton _ _⟩
  blocked := false
  promptTokens := some 12
  completionTokens := none
  latencyMs := some 340

/-- Two teams take turns. -/
def twoTeams : List EventPayload :=
  [namesEvent "a".toList 1, namesEvent "b".toList 2, namesEvent "a".toList 3]

/-- Rows with another number of tokens, and with the hashes that they had. -/
def retold (rows : List AuditEvent) : List AuditEvent :=
  rows.map fun r => { r with promptTokens := some 13 }

/-- Two teams whose calls are mixed in one table: the rows of one team do not verify once their
token counts are changed. -/
theorem audit_tamper_evident_twoTeams :
    verifyChain sampleVault.crypto [1]
      (retold (eventsOf "a".toList (recordAll sampleVault.crypto [1] twoTeams))) "a".toList =
        false := by
  have unforged : ∀ msg, hex (sampleVault.crypto.hmacSha256 [1] msg) ≠ genesisHash := by
    intro msg same
    have second := congrArg (·[1]?) same
    revert second
    simp [sampleVault, hex, genesisHash, Nat.digitChar]
  rw [← Bool.not_eq_true]
  intro verified
  have kept := (audit_tamper_evident sampleVault_hmac unforged twoTeams).2.2.2 "a".toList _
    (by decide +kernel) (by decide +kernel) verified
  have tokens := kept.map fun r : AuditEvent => r.promptTokens
  exact absurd tokens (by decide +kernel)

end RedactGate
