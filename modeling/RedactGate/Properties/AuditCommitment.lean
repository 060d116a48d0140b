import RedactGate.AuditRows

/-!
# What the audit hash commits to

The payload is rebuilt from a fixed list of columns, the counts through `int`. Two rows with
one team and one previous hash get one hash exactly when those columns agree and the counts
read alike; when the row was written and how the counts are spelled are not committed to.
-/
namespace RedactGate

open Library

section

variable (unicode : Unicode) (read : ℚ → ℚ)

/-- The value of a type in the counts comes to the integer `n`. -/
def CountsAs (counts : Json) (type : Text) (n : Int) : Prop :=
  ∃ fields value, counts = .obj fields ∧ (type, value) ∈ fields ∧
    intOfJson unicode read value = .ok n

/-- The counts name the same types, with values that come to the same integers. -/
def CountAlike (a b : Jsonb) : Prop :=
  ∀ type n, CountsAs unicode read a.value type n ↔ CountsAs unicode read b.value type n

/-- The rows agree in every column but the id and their own hash, so that they are one row but for
these. -/
structure SameColumns {Time : Type} (a b : AuditRow Time) : Prop where
  teamId : a.teamId = b.teamId
  apiKeyId : a.apiKeyId = b.apiKeyId
  sessionId : a.sessionId = b.sessionId
  route : a.route = b.route
  provider : a.provider = b.provider
  entityCounts : a.entityCounts.value = b.entityCounts.value
  blocked : a.blocked = b.blocked
  promptTokens : a.promptTokens = b.promptTokens
  completionTokens : a.completionTokens = b.completionTokens
  latencyMs : a.latencyMs = b.latencyMs
  prevHash : a.prevHash = b.prevHash
  createdAt : a.createdAt = b.createdAt

/-- The rows agree in the columns that the hash commits to, with the counts read as integers; the
time of creation is none of them. -/
structure SameCommitted {Time : Type} (a b : AuditRow Time) : Prop where
  apiKeyId : a.apiKeyId = b.apiKeyId
  sessionId : a.sessionId = b.sessionId
  route : a.route = b.route
  provider : a.provider = b.provider
  entityCounts : CountAlike unicode read a.entityCounts b.entityCounts
  blocked : a.blocked = b.blocked
  promptTokens : a.promptTokens = b.promptTokens
  completionTokens : a.completionTokens = b.completionTokens
  latencyMs : a.latencyMs = b.latencyMs

end

variable {unicode : Unicode} {read : ℚ → ℚ}

/-! ## Counts -/

theorem mem_readCounts {fields : Fields} : ∀ {entries : List (Text × Int)},
    readCounts unicode read fields = .ok entries → ∀ {type : Text} {n : Int},
      ((type, n) ∈ entries ↔
        ∃ value, (type, value) ∈ fields ∧ intOfJson unicode read value = .ok n) := by
  induction fields with
  | nil =>
    intro entries ok type n
    obtain rfl := Except.ok.inj ok
    simp
  | cons field rest ih =>
    intro entries ok type n
    obtain ⟨m, more, head, tail, rfl⟩ := readCounts_cons unicode read ok
    rw [List.mem_cons, ih tail]
    constructor
    · rintro (here | ⟨value, later, reads⟩)
      · obtain ⟨rfl, rfl⟩ := Prod.mk.inj here
        exact ⟨field.2, List.mem_cons_self, head⟩
      · exact ⟨value, List.mem_cons_of_mem _ later, reads⟩
    · rintro ⟨value, member, reads⟩
      rcases List.mem_cons.mp member with rfl | later
      · rw [head] at reads
        exact .inl (by rw [Except.ok.inj reads])
      · exact .inr ⟨value, later, reads⟩

/-- What the payload holds of the counts column is what the column counts: each type under its key,
with the number that `int()` reads from its value. -/
theorem mem_entityCountsOf {counts : Jsonb} {c : EntityCounts}
    (ok : entityCountsOf unicode read counts = .ok c) {type : Text} {n : Int} :
    (type, n) ∈ c.entries ↔ CountsAs unicode read counts.value type n := by
  obtain ⟨fields, items, entries⟩ := entityCountsOf_ok ok
  rw [mem_readCounts entries]
  cases shape : counts.value with
  | obj fields' =>
    rw [shape] at items
    obtain rfl := Option.some.inj items
    constructor
    · rintro ⟨value, member, reads⟩
      exact ⟨fields', value, rfl, member, reads⟩
    · rintro ⟨_, value, same, member, reads⟩
      obtain rfl := Json.obj.inj same
      exact ⟨value, member, reads⟩
  | null | bool | number | str | arr =>
    -- nothing but an object has items
    have none : fields = [] := by
      rw [shape, countItems] at items
      first
        | exact (Option.some.inj items).symm
        | (split at items <;> first | exact (Option.some.inj items).symm | cases items)
    subst none
    constructor
    · rintro ⟨_, member, _⟩
      cases member
    · rintro ⟨_, _, same, _⟩
      cases same

/-- Counts are sorted by their keys, and so they are determined by which entries they have. -/
theorem EntityCounts.ext_mem {c d : EntityCounts}
    (same : ∀ type n, (type, n) ∈ c.entries ↔ (type, n) ∈ d.entries) : c = d := by
  have nodup (e : EntityCounts) : e.entries.Nodup :=
    e.sorted.imp fun less same => absurd (same ▸ less) (List.lt_irrefl _)
  have perm : c.entries.Perm d.entries :=
    (List.perm_ext_iff_of_nodup (nodup c) (nodup d)).mpr fun entry => same entry.1 entry.2
  have entries : c.entries = d.entries :=
    perm.eq_of_pairwise (fun a b _ _ less more => absurd more (List.lt_asymm less))
      c.sorted d.sorted
  cases c
  cases d
  cases entries
  rfl

theorem entityCountsOf_eq_iff {a b : Jsonb} {c d : EntityCounts}
    (ok_a : entityCountsOf unicode read a = .ok c) (ok_b : entityCountsOf unicode read b = .ok d) :
    c = d ↔ CountAlike unicode read a b := by
  constructor
  · rintro rfl type n
    rw [← mem_entityCountsOf ok_a, mem_entityCountsOf ok_b]
  · intro alike
    refine EntityCounts.ext_mem fun type n => ?_
    rw [mem_entityCountsOf ok_a, mem_entityCountsOf ok_b]
    exact alike type n

/-! ## Rows -/

variable {Time : Type} {crypto : Crypto} {key : Bytes}

/-- Two rows of one team whose columns can be read have one payload if and only if the committed
columns agree; `created_at` is none of them. -/
theorem payload_eq_iff {a b : AuditRow Time} (team : a.teamId = b.teamId) {p q : EventPayload}
    (read_a : a.payload unicode read = .ok p) (read_b : b.payload unicode read = .ok q) :
    p = q ↔ SameCommitted unicode read a b := by
  obtain ⟨counts_a, team_a, key_a, session_a, route_a, provider_a, blocked_a, prompt_a,
    completion_a, latency_a⟩ := payload_ok read_a
  obtain ⟨counts_b, team_b, key_b, session_b, route_b, provider_b, blocked_b, prompt_b,
    completion_b, latency_b⟩ := payload_ok read_b
  constructor
  · rintro rfl
    exact ⟨key_a.symm.trans key_b, session_a.symm.trans session_b, route_a.symm.trans route_b,
      provider_a.symm.trans provider_b, (entityCountsOf_eq_iff counts_a counts_b).mp rfl,
      blocked_a.symm.trans blocked_b, prompt_a.symm.trans prompt_b,
      completion_a.symm.trans completion_b, latency_a.symm.trans latency_b⟩
  · intro same
    have counts := (entityCountsOf_eq_iff counts_a counts_b).mpr same.entityCounts
    cases p
    cases q
    -- a payload is its fields, each of them read from a column of its own
    simp only [EventPayload.mk.injEq] at *
    exact ⟨team_a.trans (team.trans team_b.symm), key_a.trans (same.apiKeyId.trans key_b.symm),
      session_a.trans (same.sessionId.trans session_b.symm),
      route_a.trans (same.route.trans route_b.symm),
      provider_a.trans (same.provider.trans provider_b.symm), counts,
      blocked_a.trans (same.blocked.trans blocked_b.symm),
      prompt_a.trans (same.promptTokens.trans prompt_b.symm),
      completion_a.trans (same.completionTokens.trans completion_b.symm),
      latency_a.trans (same.latencyMs.trans latency_b.symm)⟩

/-- After one previous hash, payloads with one hash are one payload. -/
theorem computeEventHash_inj (injective : HmacInjective crypto) {prev : Text} {p q : EventPayload}
    (same : computeEventHash crypto key prev p = computeEventHash crypto key prev q) : p = q :=
  canonicalJson_injective
    (List.append_cancel_left (utf8_injective (injective key (hex_injective same))))

variable (unicode read key) in
/-- Two rows of a team with one previous hash that differ in a column get different hashes
exactly when they differ in a committed column, the counts read as integers. The replacement
of a row in a verified chain by a row with its hashes verifies exactly when the committed
columns agree. -/
theorem audit_commits_iff (injective : HmacInjective crypto) (a b : AuditRow Time)
    (team : a.teamId = b.teamId) (prevs : a.prevHash = b.prevHash) (p q : EventPayload)
    (read_a : a.payload unicode read = .ok p) (read_b : b.payload unicode read = .ok q) :
    ((¬SameColumns a b →
        computeEventHash crypto key a.prevHash p ≠ computeEventHash crypto key b.prevHash q) ↔
      SameColumns a b ∨ ¬SameCommitted unicode read a b) ∧
    (a.eventHash = b.eventHash → ∀ prev front back,
      verifyRows unicode read crypto key prev (front ++ a :: back) = .ok true →
        (verifyRows unicode read crypto key prev (front ++ b :: back) = .ok true ↔
          SameCommitted unicode read a b)) := by
  -- both halves come down to this: the hash commits to the payload and to nothing else of the row
  have hashes : computeEventHash crypto key a.prevHash p = computeEventHash crypto key b.prevHash q ↔
      SameCommitted unicode read a b := by
    rw [← payload_eq_iff team read_a read_b, prevs]
    exact ⟨computeEventHash_inj injective, congrArg _⟩
  constructor
  · rw [← hashes]
    constructor
    · intro detected
      by_cases same : SameColumns a b
      · exact .inl same
      · exact .inr (detected same)
    · rintro (same | detected) differ
      · exact absurd same differ
      · exact detected
  · intro event prev front back verified
    rw [verifyRows_edit prevs.symm event.symm read_b front prev verified, ← hashes]
    constructor
    · rintro ⟨p', found, same⟩
      obtain rfl := Except.ok.inj (read_a.symm.trans found)
      exact same
    · intro same
      exact ⟨p, read_a, same⟩

/-- A row in which names are counted in some way, written at a given time, with all other columns
fixed. -/
def namesRow (names : Json) (plain : Canonical names) (createdAt : Nat) : AuditRow Nat where
  teamId := "a".toList
  apiKeyId := none
  sessionId := some "s1".toList
  route := "/v1/chat/completions".toList
  provider := "openai".toList
  entityCounts := ⟨.obj [("PERSON".toList, names)],
    .obj (List.pairwise_singleton _ _) (by simpa using plain)⟩
  blocked := false
  promptTokens := some 12
  completionTokens := none
  latencyMs := some 340
  prevHash := genesisHash
  eventHash := []
  createdAt := createdAt

/-- The payload of a row with one name counted, as `_event_payload` reads it, however the column has
the count. -/
def oneName : EventPayload where
  teamId := "a".toList
  apiKeyId := none
  sessionId := some "s1".toList
  route := "/v1/chat/completions".toList
  provider := "openai".toList
  entityCounts := ⟨[("PERSON".toList, 1)], List.pairwise_singleton _ _⟩
  blocked := false
  promptTokens := some 12
  completionTokens := none
  latencyMs := some 340

/-- The same row under another route. -/
def rerouted : AuditRow Nat := { namesRow (.number 1) (.number 1) 7 with route := [] }

theorem audit_commits_iff_rerouted : ∃ p q,
    (namesRow (.number 1) (.number 1) 7).payload Unicode.ascii id = .ok p ∧
      rerouted.payload Unicode.ascii id = .ok q ∧
      computeEventHash sampleVault.crypto [1] genesisHash p ≠
        computeEventHash sampleVault.crypto [1] genesisHash q := by
  refine ⟨oneName, { oneName with route := [] }, rfl, rfl, ?_⟩
  have pair := (audit_commits_iff Unicode.ascii id [1] sampleVault_hmac
    (namesRow (.number 1) (.number 1) 7) rerouted rfl rfl oneName { oneName with route := [] }
    rfl rfl).1
  exact pair.mpr (.inr fun same => absurd same.route (by decide)) fun same =>
    absurd same.route (by decide)

/-- Another time of writing, or a count spelled as `true`: the columns differ, the hash
does not. -/
theorem audit_hash_blind : ¬∀ (a b : AuditRow Nat), a.teamId = b.teamId → a.prevHash = b.prevHash →
    ¬SameColumns a b → ∀ p q, a.payload Unicode.ascii id = .ok p →
      b.payload Unicode.ascii id = .ok q →
        computeEventHash sampleVault.crypto [1] a.prevHash p ≠
          computeEventHash sampleVault.crypto [1] b.prevHash q := by
  intro commits
  refine commits (namesRow (.number 1) (.number 1) 7) (namesRow (.bool true) (.bool true) 8)
    rfl rfl (fun same => ?_) oneName oneName rfl rfl rfl
  exact absurd same.createdAt (by decide)

end RedactGate
