import RedactGate.Redaction.Mentions
import RedactGate.Redaction.RoundTrip

/-!
# The token store over whole runs

What the two indexes of the in-memory store hold after any sequence of `tokenize` calls,
session by session.
-/
namespace RedactGate

open Library

variable {Score : Type}

/-- The record of a type and value, as `tokenize` looks it up. -/
def Vault.recordFor (vault : Vault) (store : InMemoryTokenStore)
    (sessionId entityType value : Text) : Option TokenRecord :=
  store.getByFingerprint sessionId (vault.fingerprint sessionId entityType value)

/-- What a stored record reads back as. -/
def Vault.opened (vault : Vault) (sessionId : Text) (r : TokenRecord) : Text × Option Text :=
  (r.entityType, vault.decrypt sessionId r.valueCiphertext)

/-- The indexes, the counters and the snapshot of one session are in step with what has
been tokenized. -/
structure SessionInStep (vault : Vault) (done : List Mention) (store : InMemoryTokenStore)
    (sessionId : Text) : Prop where
  sameRecords : ∀ i, (∃ fp, store.byFp.get? (sessionId, fp) = some i) ↔
    ∃ ph, store.byPh.get? (sessionId, ph) = some i
  ownKeys : ∀ i fp ph, store.byFp.get? (sessionId, fp) = some i →
    store.byPh.get? (sessionId, ph) = some i → ∃ r, store.records[i]? = some r ∧
      r.sessionId = sessionId ∧ r.valueFingerprint = fp ∧ r.placeholder = ph
  recorded : ∀ entityType value, ':' ∉ entityType →
    ((vault.recordFor store sessionId entityType value).isSome ↔
      ⟨sessionId, entityType, value⟩ ∈ done)
  exact : ∀ entityType value r, ':' ∉ entityType →
    vault.recordFor store sessionId entityType value = some r →
      vault.opened sessionId r = (entityType, some value) ∧
        r.occurrences = done.count ⟨sessionId, entityType, value⟩
  everyRecord : ∀ r ∈ store.allForSession sessionId, ∃ entityType value, ':' ∉ entityType ∧
    vault.recordFor store sessionId entityType value = some r
  oneRecord : ((store.allForSession sessionId).map (vault.opened sessionId)).Nodup
  onePlaceholder : ((store.allForSession sessionId).map TokenRecord.placeholder).Nodup
  snapshot : ∃ resolved, vault.resolutionMap store sessionId = some resolved ∧ ∀ ph,
    resolved.get? ph = (store.getByPlaceholder sessionId ph).bind
        (fun r => vault.decrypt sessionId r.valueCiphertext) ∧
      ((resolved.get? ph).isSome ↔
        ph ∈ (store.allForSession sessionId).map TokenRecord.placeholder) ∧
      (IsPlaceholder ph → vault.detokenize store ph sessionId = some ((resolved.get? ph).getD ph))

section

variable {vault : Vault} {issues : List Issue} {store : InMemoryTokenStore}

/-- No two issues of a ledger that a store represents have one session and one fingerprint. -/
theorem Represents.nodup_fpKey (rep : Represents vault issues store) :
    (issues.map (fpKey vault)).Nodup := by
  have keys (es : List Issue) : (indexed (fpKey vault) es).map Prod.fst =
      (es.map (fpKey vault)).reverse := by
    induction es with
    | nil => rfl
    | cons e es ih => simp [indexed, ih]
  have distinct := store.byFp.distinct
  rwa [rep.byFp, keys, List.nodup_reverse] at distinct

/-- What can be said of the records of a session by their issues is said by the ledger: the records
stand in the order in which they were issued. -/
theorem Represents.map_allForSession (rep : Represents vault issues store) (sessionId : Text)
    {β : Type} (f : TokenRecord → β) (h : Issue → β)
    (same : ∀ e r, e.sessionId = sessionId → RecordOf vault e r → f r = h e) :
    (store.allForSession sessionId).map f =
      (issues.filter (·.sessionId = sessionId)).reverse.map h := by
  have mine : ∀ e ∈ (issues.filter (·.sessionId = sessionId)).reverse,
      e.sessionId = sessionId := by
    intro e member
    simpa using (List.mem_filter.mp (List.mem_reverse.mp member)).2
  have held := rep.allForSession sessionId
  generalize (issues.filter (·.sessionId = sessionId)).reverse = es at mine held
  generalize store.allForSession sessionId = rs at held
  induction held with
  | nil => rfl
  | cons record _ ih =>
    rw [List.map_cons, List.map_cons, same _ _ (mine _ List.mem_cons_self) record,
      ih fun e member => mine e (List.mem_cons_of_mem _ member)]

theorem Represents.map_opened (rep : Represents vault issues store) (sessionId : Text) :
    (store.allForSession sessionId).map (vault.opened sessionId) =
      (issues.filter (·.sessionId = sessionId)).reverse.map fun e => (e.entityType, some e.value) :=
  rep.map_allForSession sessionId _ _ fun e r mine record => by
    rw [Vault.opened, record.entityType, ← mine, record.opens]

theorem Represents.map_placeholder (rep : Represents vault issues store) (sessionId : Text) :
    (store.allForSession sessionId).map TokenRecord.placeholder =
      (issues.filter (·.sessionId = sessionId)).reverse.map Issue.placeholder :=
  rep.map_allForSession sessionId _ _ fun _ _ _ record => record.placeholder

theorem Represents.oneRecord (rep : Represents vault issues store) (sessionId : Text) :
    ((store.allForSession sessionId).map (vault.opened sessionId)).Nodup := by
  rw [rep.map_opened, List.map_reverse, List.nodup_reverse]
  -- the key of an issue is told from its type and value
  refine List.Nodup.of_map (fun x => (sessionId, vault.fingerprint sessionId x.1 (x.2.getD []))) ?_
  rw [List.map_map]
  have keys : (issues.filter (·.sessionId = sessionId)).map ((fun x : Text × Option Text =>
      (sessionId, vault.fingerprint sessionId x.1 (x.2.getD []))) ∘
        fun e => (e.entityType, some e.value)) =
      (issues.filter (·.sessionId = sessionId)).map (fpKey vault) := by
    refine List.map_congr_left fun e member => ?_
    have mine : e.sessionId = sessionId := by simpa using (List.mem_filter.mp member).2
    simp [fpKey, mine]
  rw [keys]
  exact rep.nodup_fpKey.sublist (List.filter_sublist.map _)

theorem Represents.onePlaceholder (rep : Represents vault issues store)
    (sound : Ledger.Sound issues) (sessionId : Text) :
    ((store.allForSession sessionId).map TokenRecord.placeholder).Nodup := by
  rw [rep.map_placeholder, List.map_reverse, List.nodup_reverse, List.Nodup, List.pairwise_map]
  refine (sound.distinct.sublist List.filter_sublist).imp_of_mem
    fun {e e'} member member' apart => ?_
  have mine : e.sessionId = sessionId := by simpa using (List.mem_filter.mp member).2
  have mine' : e'.sessionId = sessionId := by simpa using (List.mem_filter.mp member').2
  exact apart (mine.trans mine'.symm)

/-- A text that is a whole placeholder detokenizes to what it resolves to, and to itself if it does
not. -/
theorem Ledger.detokenize_placeholder (sessionId : Text) {p : Text}
    (placeholder : IsPlaceholder p) :
    Ledger.detokenize issues sessionId p = (Ledger.resolve issues sessionId p).getD p := by
  have found := placeholderAt_append placeholder []
  rw [List.append_nil] at found
  have whole : p.take p.length = p := List.take_length
  cases known : Ledger.resolve issues sessionId p with
  | none =>
    rw [Ledger.detokenize, substitute_unknown placeholderAt_laws found (by rw [whole, known]),
      whole,
      List.drop_length, substitute_nil, List.append_nil, Option.getD_none]
  | some value =>
    rw [Ledger.detokenize, substitute_known placeholderAt_laws found (by rw [whole, known]),
      List.drop_length, substitute_nil, List.append_nil, Option.getD_some]

/-- The snapshot that a stream takes and the live lookups agree on every placeholder: it has the
decrypted value of exactly the placeholders of the session. -/
theorem Represents.snapshot (rep : Represents vault issues store) (sessionId : Text) :
    ∃ resolved, vault.resolutionMap store sessionId = some resolved ∧ ∀ ph,
      resolved.get? ph = (store.getByPlaceholder sessionId ph).bind
          (fun r => vault.decrypt sessionId r.valueCiphertext) ∧
        ((resolved.get? ph).isSome ↔
          ph ∈ (store.allForSession sessionId).map TokenRecord.placeholder) ∧
        (IsPlaceholder ph →
          vault.detokenize store ph sessionId = some ((resolved.get? ph).getD ph)) := by
  obtain ⟨resolved, mapped, same⟩ := resolutionMap_refines rep sessionId
  refine ⟨resolved, mapped, fun ph => ⟨?_, ?_, fun placeholder => ?_⟩⟩
  · have lookup := rep.getByPlaceholder sessionId ph
    rw [same, Ledger.resolve]
    generalize found : issues.find? (Ledger.holds sessionId ph) = issue at lookup ⊢
    generalize store.getByPlaceholder sessionId ph = record at lookup ⊢
    cases lookup with
    | none => rfl
    | @some e r record =>
      have holds := List.find?_some found
      simp only [Ledger.holds, decide_eq_true_eq] at holds
      rw [Option.bind_some, ← holds.1, record.opens, Option.map_some]
  · rw [same, Ledger.resolve, Option.isSome_map, List.isSome_find?, List.any_eq_true,
      rep.map_placeholder, List.map_reverse, List.mem_reverse, List.mem_map]
    simp only [Ledger.holds, List.mem_filter, decide_eq_true_eq, and_assoc]
  · rw [detokenize_refines rep, Ledger.detokenize_placeholder sessionId placeholder, same]

/-! ## Records of types and values -/

theorem Represents.recordFor_isSome (rep : Represents vault issues store)
    (sessionId entityType value : Text) :
    (vault.recordFor store sessionId entityType value).isSome ↔ ∃ placeholder,
      Ledger.Covers vault.fingerprint issues sessionId entityType value placeholder := by
  have lookup := rep.getByFingerprint sessionId entityType value
  have found : (Ledger.find vault.fingerprint issues sessionId entityType value).isSome ↔
      ∃ placeholder,
        Ledger.Covers vault.fingerprint issues sessionId entityType value placeholder := by
    simp only [Ledger.find, List.find?_isSome, decide_eq_true_eq, Ledger.Covers]
    constructor
    · rintro ⟨e, member, session, same⟩
      exact ⟨_, e, member, session, rfl, same⟩
    · rintro ⟨_, e, member, session, _, same⟩
      exact ⟨e, member, session, same⟩
  rw [← found, Vault.recordFor]
  generalize Ledger.find vault.fingerprint issues sessionId entityType value = issue at lookup
  generalize store.getByFingerprint sessionId _ = record at lookup
  cases lookup <;> simp

theorem Represents.recordFor_eq_some (hmac : HmacInjective vault.crypto)
    (rep : Represents vault issues store) {sessionId entityType value : Text}
    (plain : PlainTypes issues sessionId) (plain_type : ':' ∉ entityType) {r : TokenRecord}
    (found : vault.recordFor store sessionId entityType value = some r) :
    ∃ e ∈ issues, e.sessionId = sessionId ∧ e.entityType = entityType ∧ e.value = value ∧
      RecordOf vault e r := by
  have lookup := rep.getByFingerprint sessionId entityType value
  rw [Vault.recordFor] at found
  rw [found] at lookup
  generalize known : Ledger.find vault.fingerprint issues sessionId entityType value = issue
    at lookup
  cases lookup with
  | @some e _ record =>
    have same := List.find?_some known
    simp only [decide_eq_true_eq] at same
    have member := List.mem_of_find?_eq_some known
    obtain ⟨type, value_eq⟩ := (Text.append_cons_inj (plain e member same.1) plain_type).mp
      ((Vault.fingerprint_eq_iff hmac _).mp same.2)
    exact ⟨e, member, same.1, type, value_eq, record⟩

/-- Where types have no colon, two mentions with one key are the same mention: session, type and
value. -/
theorem mentionKey_eq_iff (hmac : HmacInjective vault.crypto) {m m' : Mention}
    (plain : ':' ∉ m.entityType) (plain' : ':' ∉ m'.entityType) :
    vault.mentionKey m = vault.mentionKey m' ↔ m = m' := by
  obtain ⟨s, t, v⟩ := m
  obtain ⟨s', t', v'⟩ := m'
  constructor
  · intro same
    obtain ⟨rfl, fp⟩ := Prod.mk.inj same
    obtain ⟨rfl, rfl⟩ := (Text.append_cons_inj plain plain').mp
      ((Vault.fingerprint_eq_iff hmac _).mp fp)
    rfl
  · intro same
    cases same
    rfl

theorem sessionInStep_of_refines (hmac : HmacInjective vault.crypto) {done : List Mention}
    (rep : Represents vault issues store) (sound : Ledger.Sound issues)
    (origin : ∀ e ∈ issues, (⟨e.sessionId, e.entityType, e.value⟩ : Mention) ∈ done)
    (covers : ∀ m ∈ done, ∃ placeholder, Ledger.Covers vault.fingerprint issues m.sessionId
      m.entityType m.value placeholder)
    (tallied : Tallied vault done store) (plain : ∀ m ∈ done, ':' ∉ m.entityType)
    (sessionId : Text) : SessionInStep vault done store sessionId := by
  have plain_types : PlainTypes issues sessionId := fun e member _ => plain _ (origin e member)
  -- both indexes name the same rows, a mention is found when it was made, and a row counts its
  -- mentions
  refine ⟨fun i => ?_, fun i fp ph by_fp by_ph => ?_, fun t v plain_type => ?_,
    fun t v r plain_type found => ?_, fun r stored => ?_, rep.oneRecord sessionId,
    rep.onePlaceholder sound sessionId,
    rep.snapshot sessionId⟩
  · simp only [rep.byFp_iff, rep.byPh_iff sound]
    constructor
    · rintro ⟨fp, r, at_index, key⟩
      exact ⟨r.placeholder, r, at_index, by rw [← (Prod.mk.inj key).1]⟩
    · rintro ⟨ph, r, at_index, key⟩
      exact ⟨r.valueFingerprint, r, at_index, by rw [← (Prod.mk.inj key).1]⟩
  · obtain ⟨r, at_index, key⟩ := rep.byFp_iff.mp by_fp
    obtain ⟨r', at_index', key'⟩ := rep.of_byPh by_ph
    obtain rfl : r = r' := Option.some.inj (at_index.symm.trans at_index')
    exact ⟨r, at_index, (Prod.mk.inj key).1, (Prod.mk.inj key).2, (Prod.mk.inj key').2⟩
  · rw [rep.recordFor_isSome]
    constructor
    · rintro ⟨placeholder, covered⟩
      exact origin _ (covers_eq hmac plain_types plain_type covered)
    · exact fun member => covers _ member
  · obtain ⟨e, member, session, rfl, rfl, record⟩ :=
      rep.recordFor_eq_some hmac plain_types plain_type found
    obtain ⟨i, by_fp, at_index⟩ := Option.bind_eq_some_iff.mp found
    obtain ⟨r', at_index', key⟩ := rep.byFp_iff.mp by_fp
    obtain rfl : r' = r := Option.some.inj (at_index'.symm.trans at_index)
    refine ⟨by rw [Vault.opened, record.entityType, ← session, record.opens], ?_⟩
    -- the occurrences are counted by key, and keys tell plain mentions apart
    rw [tallied.exact r' (List.mem_of_getElem? at_index), key, List.count]
    refine List.countP_congr fun m in_done => ?_
    have told : vault.mentionKey m = vault.mentionKey ⟨sessionId, e.entityType, e.value⟩ ↔ _ :=
      mentionKey_eq_iff hmac (plain m in_done) plain_type
    simp only [decide_eq_true_eq, beq_iff_eq]
    exact told
  · obtain ⟨e, mine, record⟩ := (exists_of_forall₂ (rep.allForSession sessionId)).2 r stored
    obtain ⟨member, session⟩ := List.mem_filter.mp (List.mem_reverse.mp mine)
    obtain rfl : e.sessionId = sessionId := by simpa using session
    obtain ⟨⟨⟨sid, fp⟩, i⟩, entry, at_index⟩ := List.mem_filterMap.mp stored
    simp only [Option.ite_none_right_eq_some] at at_index
    obtain ⟨rfl, at_index⟩ := at_index
    have by_fp := Dict.mem_entries.mp entry
    obtain ⟨r', at_index', key⟩ := rep.byFp_iff.mp by_fp
    obtain rfl : r' = r := Option.some.inj (at_index'.symm.trans at_index)
    refine ⟨e.entityType, e.value, plain_types e member rfl, ?_⟩
    rw [Vault.recordFor, ← record.fingerprint, (Prod.mk.inj key).2,
      InMemoryTokenStore.getByFingerprint, by_fp, Option.bind_some, at_index]

end

/-- The counts do not depend on the order of the mentions. -/
theorem Tallied.perm {vault : Vault} {store : InMemoryTokenStore} {done done' : List Mention}
    (tallied : Tallied vault done store) (same : done.Perm done') : Tallied vault done' store :=
  ⟨fun m member => tallied.known m (same.mem_iff.mpr member),
    fun r member => (tallied.exact r member).trans (same.countP_eq _)⟩

/-- A run of a fresh vault refines a ledger that has grown by the mentions of its calls, and the
occurrences in its store are the numbers of these mentions. -/
theorem runCalls_fresh {vault : Vault} (laws : AesGcmLaws vault.crypto) (draws : Nat)
    (calls : List (TokenizeCall Score)) :
    ∃ ledger, Refines vault ledger (vault.runCalls ⟨.empty, draws, 0⟩ calls) ∧
      Ledger.Grows vault.fingerprint (mentions calls) ⟨[], draws, 0⟩ ledger ∧
      Tallied vault (mentions calls) (vault.runCalls ⟨.empty, draws, 0⟩ calls).store := by
  obtain ⟨ms, same, run⟩ := vault.runCalls_mentions calls
  have start : Refines vault ⟨[], draws, 0⟩ ⟨.empty, draws, 0⟩ := ⟨represents_empty, rfl, rfl⟩
  have nothing : Tallied vault [] InMemoryTokenStore.empty :=
    ⟨by simp, by simp [InMemoryTokenStore.empty]⟩
  have grown := Ledger.grows_foldl vault.fingerprint vault.urandom ms ⟨[], draws, 0⟩
  have tallied := tallied_foldl laws ms start nothing
  rw [List.append_nil] at tallied
  rw [run]
  exact ⟨_, refines_foldl laws ms start,
    ⟨grown.grows, grown.counted, grown.sound, fun e member =>
      (grown.origin e member).imp_right same.mem_iff.mp,
      fun m member => grown.covers m (same.mem_iff.mpr member)⟩,
    tallied.perm ((List.reverse_perm ms).trans same)⟩

section

variable {vault : Vault} {earlier : VaultState} {ledger : Ledger}

/-- Later mentions, of whatever sessions and values, keep the placeholder of a type and a value, if
no type of the session has a colon. -/
theorem placeholder_kept (laws : AesGcmLaws vault.crypto) (hmac : HmacInjective vault.crypto)
    (refines : Refines vault ledger earlier) (ms : List Mention) {sessionId entityType value : Text}
    (plain : PlainTypes (ms.foldl (Ledger.mention vault.fingerprint vault.urandom) ledger).issues
      sessionId)
    (plain_type : ':' ∉ entityType) {r : TokenRecord}
    (found : vault.recordFor earlier.store sessionId entityType value = some r) :
    ∃ r', vault.recordFor (ms.foldl vault.mention earlier).store sessionId entityType value =
      some r' ∧ r'.placeholder = r.placeholder := by
  have refines' := refines_foldl laws ms refines
  have grown := Ledger.grows_foldl vault.fingerprint vault.urandom ms ledger
  generalize ms.foldl (Ledger.mention vault.fingerprint vault.urandom) ledger = ledger' at *
  have plain_before : PlainTypes ledger.issues sessionId := fun e member =>
    plain e (grown.grows.subset member)
  obtain ⟨e, member, rfl, rfl, rfl, record⟩ :=
    refines.store.recordFor_eq_some hmac plain_before plain_type found
  have member' := grown.grows.subset member
  obtain ⟨r', found'⟩ := Option.isSome_iff_exists.mp
    ((refines'.store.recordFor_isSome e.sessionId e.entityType e.value).mpr
      ⟨e.placeholder, e, member', rfl, rfl, rfl⟩)
  obtain ⟨e', in_later, session, type, value, record'⟩ :=
    refines'.store.recordFor_eq_some hmac plain plain_type found'
  -- the ledger has one issue for each key
  obtain rfl : e' = e := by
    refine List.inj_on_of_nodup_map refines'.store.nodup_fpKey in_later member' ?_
    rw [fpKey, fpKey, session, type, value]
  exact ⟨r', found', record'.placeholder.trans record.placeholder.symm⟩

end

/-- The invariant of the token store. After any calls on a fresh store every session is in step with
what has been tokenized; later calls keep the placeholder of every type and value, and leave the
sessions they are not about as they were. No type has a colon, and no draw is exhausted. -/
theorem tokenStore_invariant (vault : Vault) (laws : AesGcmLaws vault.crypto)
    (hmac : HmacInjective vault.crypto) (draws : Nat) (calls : List (TokenizeCall Score))
    (plain : ∀ call ∈ calls, ∀ span ∈ call.spans, ':' ∉ span.entityType)
    (free : (vault.runCalls ⟨.empty, draws, 0⟩ calls).exhausted = 0) (sessionId : Text) :
    SessionInStep vault (mentions calls) (vault.runCalls ⟨.empty, draws, 0⟩ calls).store
        sessionId ∧
      ∀ earlier later, calls = earlier ++ later →
        (∀ entityType value r, ':' ∉ entityType →
          vault.recordFor (vault.runCalls ⟨.empty, draws, 0⟩ earlier).store sessionId entityType
              value = some r →
            ∃ r', vault.recordFor (vault.runCalls ⟨.empty, draws, 0⟩ calls).store sessionId
              entityType value = some r' ∧ r'.placeholder = r.placeholder) ∧
        ((∀ call ∈ later, call.sessionId ≠ sessionId) →
          SameSession sessionId (vault.runCalls ⟨.empty, draws, 0⟩ earlier).store
            (vault.runCalls ⟨.empty, draws, 0⟩ calls).store) := by
  have plain_mentions : ∀ m ∈ mentions calls, ':' ∉ m.entityType := by
    intro m member
    obtain ⟨call, in_calls, in_spans⟩ := List.mem_flatMap.mp member
    obtain ⟨span, in_span, rfl⟩ := List.mem_map.mp in_spans
    exact plain call in_calls span in_span
  constructor
  · obtain ⟨ledger, refines, grown, tallied⟩ := runCalls_fresh laws draws calls
    have origin : ∀ e ∈ ledger.issues,
        (⟨e.sessionId, e.entityType, e.value⟩ : Mention) ∈ mentions calls := fun e member =>
      (grown.origin e member).resolve_left List.not_mem_nil
    have sound := grown.sound (refines.exhausted.symm.trans free) ⟨by simp, .nil⟩
    exact sessionInStep_of_refines hmac refines.store sound origin grown.covers tallied
      plain_mentions sessionId
  · rintro earlier later rfl
    obtain ⟨ledger, refines, grown, _⟩ := runCalls_fresh laws draws earlier
    obtain ⟨ms, same, run⟩ := vault.runCalls_mentions later
    rw [vault.runCalls_append, run]
    refine ⟨fun t v r plain_type found => ?_, fun others => ?_⟩
    · refine placeholder_kept laws hmac refines ms (fun e member _ => ?_) plain_type found
      -- every issue of the whole run is for one of its mentions
      have later_grown := Ledger.grows_foldl vault.fingerprint vault.urandom ms ledger
      have mentioned : (⟨e.sessionId, e.entityType, e.value⟩ : Mention) ∈
          mentions (earlier ++ later) := by
        rw [mentions, List.flatMap_append, List.mem_append]
        rcases later_grown.origin e member with old | new
        · exact .inl ((grown.origin e old).resolve_left List.not_mem_nil)
        · exact .inr (same.mem_iff.mp new)
      exact plain_mentions _ mentioned
    · refine sameSession_foldl laws ms (fun m member => ?_) refines
      obtain ⟨call, in_calls, in_spans⟩ := List.mem_flatMap.mp (same.mem_iff.mp member)
      obtain ⟨span, _, rfl⟩ := List.mem_map.mp in_spans
      exact others call in_calls

/-- Three calls in two sessions, in which one value comes twice in the first session and once in the
second. -/
def threeCalls : List (TokenizeCall Unit) :=
  [⟨"Hi Ann".toList, [⟨3, 6, "PERSON".toList, "Ann".toList, (), .regex, none⟩], "s1".toList⟩,
   ⟨"Ann".toList, [⟨0, 3, "PERSON".toList, "Ann".toList, (), .regex, none⟩], "s2".toList⟩,
   ⟨"Ann, Bob".toList, [⟨0, 3, "PERSON".toList, "Ann".toList, (), .regex, none⟩,
     ⟨5, 8, "PERSON".toList, "Bob".toList, (), .regex, none⟩], "s1".toList⟩]

theorem tokenStore_invariant_threeCalls :
    SessionInStep sampleVault (mentions threeCalls)
      (sampleVault.runCalls ⟨.empty, 0, 0⟩ threeCalls).store "s1".toList :=
  (tokenStore_invariant sampleVault sampleVault_aesGcm sampleVault_hmac 0 threeCalls
    (by decide) (by decide) "s1".toList).1

end RedactGate
