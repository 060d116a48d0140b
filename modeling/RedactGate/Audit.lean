import RedactGate.Library.HashChain
import RedactGate.Library.JsonPrint
import RedactGate.Redaction.Vault

/-!
# Audit log

A hash chain for each team over one table of events. The hash of an event is a MAC over
the hash before it and the canonical JSON of its business fields.
-/
namespace RedactGate

open Library Library.JsonPrint

/-- Chain anchor: 64 zeros. -/
def genesisHash : Text := List.replicate 64 '0'

/-- Entity type counts, as a dictionary whose order does not matter: the entries are kept
in the order of the types. -/
structure EntityCounts where
  entries : List (Text × Int)
  sorted : entries.Pairwise fun a b => a.1 < b.1
  deriving DecidableEq

def printCounts (counts : EntityCounts) : Text :=
  object (counts.entries.map fun e => member e.1 (decimal e.2))

/-- The dictionary that `_event_payload` builds. The ids are given in canonical form, so
that `str` leaves them alone. -/
structure EventPayload where
  teamId : Text
  apiKeyId : Option Text
  sessionId : Option Text
  route : Text
  provider : Text
  entityCounts : EntityCounts
  blocked : Bool
  promptTokens : Option Int
  completionTokens : Option Int
  latencyMs : Option Int
  deriving DecidableEq

/-- `canonical_json` of an event payload: `json.dumps` with the keys in order and no blanks between
them, and `null` for what is missing. -/
def canonicalJson (payload : EventPayload) : Text :=
  object [
    member "api_key_id".toList (nullOr quoted payload.apiKeyId),
    member "blocked".toList (printBool payload.blocked),
    member "completion_tokens".toList (nullOr decimal payload.completionTokens),
    member "entity_counts".toList (printCounts payload.entityCounts),
    member "latency_ms".toList (nullOr decimal payload.latencyMs),
    member "prompt_tokens".toList (nullOr decimal payload.promptTokens),
    member "provider".toList (quoted payload.provider),
    member "route".toList (quoted payload.route),
    member "session_id".toList (nullOr quoted payload.sessionId),
    member "team_id".toList (quoted payload.teamId)]

variable (crypto : Crypto) (key : Bytes)

/-- `compute_event_hash`. -/
def computeEventHash (prevHash : Text) (payload : EventPayload) : Text :=
  hex (crypto.hmacSha256 key (utf8 (prevHash ++ canonicalJson payload)))

/-- A row of the event table: the payload of the call, linked by its two hashes. The id is the row's
place in the table. -/
structure AuditEvent extends EventPayload where
  prevHash : Text
  eventHash : Text
  deriving DecidableEq

/-- `select … where team_id = … order by id`. -/
def eventsOf (teamId : Text) (rows : List AuditEvent) : List AuditEvent :=
  rows.filter (·.teamId = teamId)

/-- `last_hash`. -/
def lastHash (rows : List AuditEvent) (teamId : Text) : Text :=
  ((eventsOf teamId rows).getLast?.map AuditEvent.eventHash).getD genesisHash

/-- `record_event`. -/
def recordEvent (rows : List AuditEvent) (payload : EventPayload) : List AuditEvent :=
  let prev := lastHash rows payload.teamId
  rows ++ [{ payload with prevHash := prev, eventHash := computeEventHash crypto key prev payload }]

/-- The rows after a run of `record_event` calls. -/
def recordAll (calls : List EventPayload) : List AuditEvent :=
  calls.foldl (recordEvent crypto key) []

/-- The loop of `verify_chain`: it returns at the first event whose previous hash is not that of the
event before it, or whose own hash is not recomputed. -/
def verifyEvents : Text → List AuditEvent → Bool
  | _, [] => true
  | prev, event :: rest =>
    if event.prevHash ≠ prev then false
    else if event.eventHash ≠ computeEventHash crypto key prev event.toEventPayload then false
    else verifyEvents event.eventHash rest

/-- `verify_chain`. -/
def verifyChain (rows : List AuditEvent) (teamId : Text) : Bool :=
  verifyEvents crypto key genesisHash (eventsOf teamId rows)

/-! ## Canonical JSON -/

theorem unambiguous_printCounts : Unambiguous printCounts := by
  refine ⟨fun {a b rest rest'} delimited delimited' same => ?_⟩
  obtain ⟨entries, rest_eq⟩ :=
    (unambiguous_object unambiguous_decimal).inj delimited delimited' same
  cases a
  cases b
  cases entries
  exact ⟨rfl, rest_eq⟩

/-- Different payloads have different canonical JSON: the keys are written in one fixed order, every
value is escaped, and so the string can be read back field by field. -/
theorem canonicalJson_injective : Function.Injective canonicalJson := by
  intro a b same
  have whole : canonicalJson a ++ [] = canonicalJson b ++ [] := by rw [same]
  have all := moreMembers_of_object whole
  -- member by member, in the order of the keys: each value says itself where it ends
  obtain ⟨apiKeyId, all⟩ := unambiguous_nullOr_quoted.next all
  obtain ⟨blocked, all⟩ := unambiguous_printBool.next all
  obtain ⟨completionTokens, all⟩ := unambiguous_nullOr_decimal.next all
  obtain ⟨entityCounts, all⟩ := unambiguous_printCounts.next all
  obtain ⟨latencyMs, all⟩ := unambiguous_nullOr_decimal.next all
  obtain ⟨promptTokens, all⟩ := unambiguous_nullOr_decimal.next all
  obtain ⟨provider, all⟩ := unambiguous_quoted.next all
  obtain ⟨route, all⟩ := unambiguous_quoted.next all
  obtain ⟨sessionId, all⟩ := unambiguous_nullOr_quoted.next all
  obtain ⟨teamId, _⟩ := unambiguous_quoted.next all
  cases a
  cases b
  simp only [EventPayload.mk.injEq]
  exact ⟨teamId, apiKeyId, sessionId, route, provider, entityCounts, blocked, promptTokens,
    completionTokens, latencyMs⟩

/-! ## The table as hash chains -/

variable {crypto key}

/-- The hashes that occur in chains: none contains a brace, where the JSON begins. -/
def HashText (hash : Text) : Prop := '{' ∉ hash

/-- The MAC links events as a hash chain needs it, as long as the MAC is injective and none of its
values is the anchor of the chains. -/
theorem computeEventHash_binding (injective : HmacInjective crypto)
    (unforged : ∀ msg, hex (crypto.hmacSha256 key msg) ≠ genesisHash) :
    HashChain.Binding (computeEventHash crypto key) genesisHash HashText where
  genuine_anchor := by
    intro brace
    exact absurd (List.eq_of_mem_replicate brace) (by decide)
  genuine_link prev payload brace := absurd (isHexChar_of_mem_hex brace) (by decide)
  injective {prev prev' payload payload'} text text' same := by
    have msg := utf8_injective (injective key (hex_injective same))
    obtain ⟨prev_eq, rest⟩ := (Text.append_cons_inj text text').mp msg
    exact ⟨prev_eq, canonicalJson_injective (congrArg ('{' :: ·) rest)⟩
  fresh prev payload := unforged _

def AuditEvent.toEntry (event : AuditEvent) : ChainEntry EventPayload Text :=
  ⟨event.toEventPayload, event.prevHash, event.eventHash⟩

theorem AuditEvent.toEntry_injective : Function.Injective AuditEvent.toEntry := by
  rintro ⟨_, _, _⟩ ⟨_, _, _⟩ same
  simp only [AuditEvent.toEntry, ChainEntry.mk.injEq] at same
  obtain ⟨rfl, rfl, rfl⟩ := same
  rfl

theorem verifyEvents_eq (prev : Text) (events : List AuditEvent) :
    verifyEvents crypto key prev events =
      HashChain.verify (computeEventHash crypto key) prev (events.map AuditEvent.toEntry) := by
  induction events generalizing prev with
  | nil => rfl
  | cons event events ih =>
    rw [verifyEvents, List.map_cons, HashChain.verify, ih]
    rfl

theorem lastHash_eq (rows : List AuditEvent) (teamId : Text) : lastHash rows teamId =
    HashChain.lastHash genesisHash ((eventsOf teamId rows).map AuditEvent.toEntry) := by
  rw [lastHash, HashChain.lastHash, List.getLast?_map]
  cases (eventsOf teamId rows).getLast? <;> rfl

/-- Recording an event appends it to the chain of its team, linked to the last hash there, and
leaves the chains of other teams as they are. -/
theorem eventsOf_recordEvent (rows : List AuditEvent) (payload : EventPayload) (teamId : Text) :
    (eventsOf teamId (recordEvent crypto key rows payload)).map AuditEvent.toEntry =
      if payload.teamId = teamId then HashChain.append (computeEventHash crypto key) genesisHash
        ((eventsOf teamId rows).map AuditEvent.toEntry) payload
      else (eventsOf teamId rows).map AuditEvent.toEntry := by
  rw [recordEvent, eventsOf, List.filter_append]
  split
  next mine =>
    subst mine
    simp only [List.filter_cons, decide_true, if_true, List.filter_nil, List.map_append,
      HashChain.append, ← lastHash_eq]
    rfl
  next other => simp [other, eventsOf]

/-- The rows of a team are the chain of the team's own calls: calls of other teams stand between
them in the table and take no part in the hashes. -/
theorem eventsOf_recordAll (calls : List EventPayload) (teamId : Text) :
    (eventsOf teamId (recordAll crypto key calls)).map AuditEvent.toEntry =
      HashChain.build (computeEventHash crypto key) genesisHash
        (calls.filter (·.teamId = teamId)) := by
  induction calls using List.reverseRecOn with
  | nil => rfl
  | append_singleton calls payload ih =>
    rw [recordAll, List.foldl_append, List.foldl_cons, List.foldl_nil, eventsOf_recordEvent,
      List.filter_append]
    rw [recordAll] at ih
    split
    next mine =>
      rw [ih]
      simp [mine, HashChain.build]
    next other =>
      rw [ih]
      simp [other]

variable (crypto key) in
/-- What is recorded verifies. -/
theorem verifyChain_recordAll (calls : List EventPayload) (teamId : Text) :
    verifyChain crypto key (recordAll crypto key calls) teamId = true := by
  rw [verifyChain, verifyEvents_eq, eventsOf_recordAll]
  exact HashChain.verify_build _ _ _

variable (crypto key) in
/-- Every call leaves exactly one row, in the order of the calls, whatever teams the calls are of. -/
theorem payloads_recordAll (calls : List EventPayload) :
    (recordAll crypto key calls).map AuditEvent.toEventPayload = calls := by
  induction calls using List.reverseRecOn with
  | nil => rfl
  | append_singleton calls payload ih =>
    have last : recordAll crypto key (calls ++ [payload]) =
        recordEvent crypto key (recordAll crypto key calls) payload := by
      simp [recordAll]
    rw [last, recordEvent, List.map_append, ih]
    rfl

end RedactGate
