import RedactGate.Redaction.LlmNer
import RedactGate.Redaction.TwinRequests

/-!
# What the provider learns of redacted values

Two requests that differ in their redacted values only should be sanitized alike if the
values of each type are equal alike. The vault tells values apart by a fingerprint of
session, type and value with colons between them. Where a type has a colon, values of
different types can share a fingerprint and with it a placeholder, so what is sent shows
more of the values than that.
-/
namespace RedactGate

open Library RedactionPipeline

variable {Score : Type}

/-- What a fingerprint is made of, besides the session. -/
def tagged (m : Mention) : Text := m.entityType ++ ':' :: m.value

/-- Values of one type are equal in one request if and only if they are in the other. -/
def SamePattern (pairs : List (Mention × Mention)) : Prop :=
  ∀ p ∈ pairs, ∀ q ∈ pairs, p.1.entityType = q.1.entityType →
    (p.1.value = q.1.value ↔ p.2.value = q.2.value)

/-- Values of different types are fingerprinted alike in one request if and only if they
are in the other. -/
def SameTags (pairs : List (Mention × Mention)) : Prop :=
  ∀ p ∈ pairs, ∀ q ∈ pairs, p.1.entityType ≠ q.1.entityType →
    (tagged p.1 = tagged q.1 ↔ tagged p.2 = tagged q.2)

/-- The vault tells the values of two requests apart alike if and only if no two types
are confused in one request only. -/
theorem alike_iff {vault : Vault} (hmac : HmacInjective vault.crypto) {sessionId : Text}
    {pairs : List (Mention × Mention)}
    (counterparts : ∀ p ∈ pairs, Ledger.Counterparts sessionId p) (pattern : SamePattern pairs) :
    Ledger.Alike vault.fingerprint pairs ↔ SameTags pairs := by
  -- the store asks for the fingerprint of type and value together, and that tells the joined
  -- strings apart
  have ident {m m' : Mention} (mine : m.sessionId = sessionId) (mine' : m'.sessionId = sessionId) :
      Ledger.identOf vault.fingerprint m = Ledger.identOf vault.fingerprint m' ↔
        tagged m = tagged m' := by
    rw [Ledger.identOf, Ledger.identOf, mine, mine', Vault.fingerprint_eq_iff hmac]
    rfl
  have compare {p q : Mention × Mention} (in_pairs : p ∈ pairs) (in_pairs' : q ∈ pairs) :
      (Ledger.identOf vault.fingerprint p.1 = Ledger.identOf vault.fingerprint q.1 ↔
          Ledger.identOf vault.fingerprint p.2 = Ledger.identOf vault.fingerprint q.2) ↔
        (tagged p.1 = tagged q.1 ↔ tagged p.2 = tagged q.2) := by
    rw [ident (counterparts p in_pairs).left (counterparts q in_pairs').left,
      ident (counterparts p in_pairs).right (counterparts q in_pairs').right]
  constructor
  · exact fun alike p in_pairs q in_pairs' _ =>
      (compare in_pairs in_pairs').mp (alike p in_pairs q in_pairs')
  · intro tags p in_pairs q in_pairs'
    refine (compare in_pairs in_pairs').mpr ?_
    by_cases types : p.1.entityType = q.1.entityType
    · -- of one type, the values themselves are compared
      have types' : p.2.entityType = q.2.entityType := by
        rw [(counterparts p in_pairs).types, (counterparts q in_pairs').types, types]
      have same := pattern p in_pairs q in_pairs' types
      simpa [tagged, types, types'] using same
    · exact tags p in_pairs q in_pairs' types

theorem counterparts_mentionPairs (sessionId : Text)
    {jobs jobs' : List (Text × List (EntitySpan Score))}
    (same : List.Forall₂ SameOutside jobs jobs') :
    ∀ p ∈ mentionPairs sessionId jobs jobs', Ledger.Counterparts sessionId p := by
  induction same with
  | nil => exact fun _ member => (List.not_mem_nil member).elim
  | @cons job job' jobs jobs' same _ ih =>
    intro p member
    rcases List.mem_append.mp member with first | rest
    · exact Ledger.counterparts_of_sameOutside same p first
    · exact ih p rest

variable [LinearOrder Score]

/-- Two requests of one shape, whose texts agree outside the spans to redact and whose
values have the same pattern. -/
structure Similar (unicode : Unicode) (decision : PolicyDecision) (sessionId : Text)
    (payload payload' : Fields) (passes passes' : Nat → PassResults Score)
    (texts texts' : List Text) : Prop where
  walks : RedactionPipeline.texts unicode payload = .ok texts
  walks' : RedactionPipeline.texts unicode payload' = .ok texts'
  skeleton : ∃ raw, injectTexts payload raw = .ok payload'
  reports : AllWellReported passes texts
  reports' : AllWellReported passes' texts'
  outside : List.Forall₂ SameOutside (jobs decision passes texts) (jobs decision passes' texts')
  pattern : SamePattern
    (mentionPairs sessionId (jobs decision passes texts) (jobs decision passes' texts'))

/-! ## One request -/

section

variable {unicode : Unicode} {vault : Vault} {decision : PolicyDecision}
  {passes : Nat → PassResults Score} {payload : Fields} {sessionId : Text} {st : VaultState}
  {texts : List Text}

theorem detectedTypes_eq (decision : PolicyDecision) (passes : Nat → PassResults Score)
    (texts : List Text) : detectedTypes decision passes texts =
      ((jobs decision passes texts).map fun job => job.2.map EntitySpan.entityType).flatten := by
  have filtered_eq :
      filtered decision passes texts = (jobs decision passes texts).map Prod.snd := by
    rw [jobs, List.map_snd_zip (by rw [filtered, List.length_mapIdx])]
  rw [detectedTypes, filtered_eq, List.map_flatten, List.map_map]
  rfl

/-- What is sent to the provider for a request, or the error with which the request ends. -/
def upstream (unicode : Unicode) (vault : Vault) (decision : PolicyDecision)
    (passes : Nat → PassResults Score) (payload : Fields) (sessionId : Text) (st : VaultState) :
    Except RequestError Fields :=
  (sanitizeRequest unicode vault decision passes payload sessionId st).1.map Prod.fst

variable (vault sessionId st) in
/-- A request with texts that the policy lets through sends the payload with the rewritten texts,
and the vault is left as rewriting the texts leaves it. -/
theorem upstream_passed (walks : RedactionPipeline.texts unicode payload = .ok texts)
    (some : texts ≠ [])
    (passed : evaluate decision (detectedTypes decision passes texts) = .ok ()) :
    (∃ out, injectTexts payload
        (tokenizeTexts vault sessionId (jobs decision passes texts) st).1 = .ok out ∧
      upstream unicode vault decision passes payload sessionId st = .ok out) ∧
    (sanitizeRequest unicode vault decision passes payload sessionId st).2 =
      (tokenizeTexts vault sessionId (jobs decision passes texts) st).2 := by
  cases extracted : extractTexts payload with
  | error e => simp [RedactionPipeline.texts, extracted, Except.map] at walks
  | ok raw =>
    rw [RedactionPipeline.texts, extracted] at walks
    obtain rfl : raw.map (normalizeText unicode) = texts := Except.ok.inj walks
    obtain ⟨goes, rfl⟩ := goes_of_extractTexts extracted
    have nonempty : (mapTexts payload).texts ≠ [] := fun empty => some (by rw [empty]; rfl)
    -- one copy for each text that was read, so they can be written back
    have written : injectTexts payload (tokenizeTexts vault sessionId
        (jobs decision passes ((mapTexts payload).texts.map (normalizeText unicode))) st).1 =
        .ok ((mapTexts payload).fill (tokenizeTexts vault sessionId
          (jobs decision passes ((mapTexts payload).texts.map (normalizeText unicode))) st).1) :=
      injectTexts_eq goes (by
        rw [length_tokenizeTexts, length_jobs, List.length_map])
    rw [upstream, sanitizeRequest_passed extracted nonempty passed]
    rw [jobs] at written ⊢
    simp only [written]
    exact ⟨⟨_, rfl, rfl⟩, trivial⟩

theorem upstream_blocked (walks : RedactionPipeline.texts unicode payload = .ok texts)
    (some : texts ≠ []) {e : HardBlockError}
    (blocked : evaluate decision (detectedTypes decision passes texts) = .error e) :
    upstream unicode vault decision passes payload sessionId st = .error (.hardBlock e) := by
  cases extracted : extractTexts payload with
  | error e => simp [RedactionPipeline.texts, extracted, Except.map] at walks
  | ok raw =>
    rw [RedactionPipeline.texts, extracted] at walks
    obtain rfl : raw.map (normalizeText unicode) = texts := Except.ok.inj walks
    have nonempty : raw ≠ [] := fun empty => some (by rw [empty]; rfl)
    rw [upstream, sanitizeRequest_blocked extracted nonempty blocked]
    rfl

/-- The issues of a session that no record belongs to. -/
theorem no_issues_of_fresh {issues : List Issue} {store : InMemoryTokenStore}
    (rep : Represents vault issues store) (fresh : store.allForSession sessionId = []) :
    issues.filter (·.sessionId = sessionId) = [] := by
  have held := rep.allForSession sessionId
  rw [fresh] at held
  exact List.reverse_eq_nil_iff.mp (List.forall₂_nil_right_iff.mp held)

end

/-! ## Two requests -/

section

variable {unicode : Unicode} {vault : Vault} {decision : PolicyDecision} {sessionId : Text}
  {payload payload' : Fields} {passes passes' : Nat → PassResults Score}
  {texts texts' : List Text} {st st' : VaultState}

/-- Similar requests have as many texts, with spans of the same types, so that the policy decides on
them alike. -/
theorem Similar.types (similar : Similar unicode decision sessionId payload payload' passes passes'
    texts texts') : texts'.length = texts.length ∧
      detectedTypes decision passes' texts' = detectedTypes decision passes texts := by
  have lengths := similar.outside.length_eq
  rw [length_jobs, length_jobs] at lengths
  refine ⟨lengths.symm, ?_⟩
  rw [detectedTypes_eq, detectedTypes_eq]
  congr 1
  have same := similar.outside
  generalize jobs decision passes texts = js at same
  generalize jobs decision passes' texts' = js' at same
  induction same with
  | nil => rfl
  | cons first _ ih => rw [List.map_cons, List.map_cons, first.types, ih]

/-- Two similar requests that the policy lets through are sent alike if and only if their texts are
rewritten alike: their payloads differ in the texts only. -/
theorem Similar.upstream_eq_iff (similar : Similar unicode decision sessionId payload payload'
    passes passes' texts texts') (some : texts ≠ [])
    (passed : evaluate decision (detectedTypes decision passes texts) = .ok ()) :
    upstream unicode vault decision passes payload sessionId st =
        upstream unicode vault decision passes' payload' sessionId st' ↔
      (tokenizeTexts vault sessionId (jobs decision passes' texts') st').1 =
        (tokenizeTexts vault sessionId (jobs decision passes texts) st).1 := by
  obtain ⟨lengths, types⟩ := similar.types
  obtain ⟨raw, skeleton⟩ := similar.skeleton
  have some' : texts' ≠ [] := by
    rw [← List.length_pos_iff] at some ⊢
    omega
  obtain ⟨⟨out, written, sent⟩, _⟩ := upstream_passed vault sessionId st
    similar.walks some passed
  obtain ⟨⟨out', written', sent'⟩, _⟩ := upstream_passed vault sessionId st'
    similar.walks' some' (types ▸ passed)
  -- the second payload is the first one with other texts, so both are written into one payload
  rw [injectTexts_injectTexts skeleton] at written'
  rw [sent, sent']
  constructor
  · intro same
    obtain rfl := Except.ok.inj same
    have read := extractTexts_injectTexts written
    rw [extractTexts_injectTexts written'] at read
    exact Except.ok.inj read
  · intro same
    rw [same, written] at written'
    rw [Except.ok.inj written']

/-- Similar requests without texts have the same payload, and are passed on as they are. -/
theorem Similar.payload_eq (similar : Similar unicode decision sessionId payload payload' passes
    passes' [] texts') : payload' = payload := by
  obtain ⟨raw, skeleton⟩ := similar.skeleton
  obtain ⟨goes, length, rfl⟩ := goes_of_injectTexts skeleton
  have none : (mapTexts payload).texts = [] := by
    have walks := similar.walks
    rw [RedactionPipeline.texts, extractTexts_eq, goes, if_neg Bool.false_ne_true] at walks
    exact List.map_eq_nil_iff.mp (Except.ok.inj walks)
  rw [none] at length
  rw [List.length_eq_zero_iff.mp length, ← none, mapTexts_rebuilds goes]

theorem upstream_no_texts (walks : RedactionPipeline.texts unicode payload = .ok []) :
    upstream unicode vault decision passes payload sessionId st = .ok payload := by
  rw [upstream, sanitizeRequest, walks]
  rfl

/-- The policy blocks the request, or the values of no two types are fingerprinted alike in
one of the requests only. -/
def Unconfused (decision : PolicyDecision) (sessionId : Text)
    (passes passes' : Nat → PassResults Score)
    (texts texts' : List Text) : Prop :=
  (∃ e, evaluate decision (detectedTypes decision passes texts) = .error e) ∨
    SameTags (mentionPairs sessionId (jobs decision passes texts) (jobs decision passes' texts'))

/-- The texts of two similar requests that are not blocked are rewritten alike if no types
are confused, and in no other case if the draws do not repeat. -/
theorem Similar.rewritten (aes : AesGcmLaws vault.crypto) (hmac : HmacInjective vault.crypto)
    (similar : Similar unicode decision sessionId payload payload' passes passes' texts texts')
    (reachable : vault.Reachable st) (reachable' : vault.Reachable st')
    (fresh : st.store.allForSession sessionId = [])
    (fresh' : st'.store.allForSession sessionId = []) (draws : st'.draws = st.draws)
    (free : (tokenizeTexts vault sessionId (jobs decision passes texts) st).2.exhausted =
      st.exhausted)
    (free' : (tokenizeTexts vault sessionId (jobs decision passes' texts') st').2.exhausted =
      st'.exhausted) :
    (SameTags (mentionPairs sessionId (jobs decision passes texts)
        (jobs decision passes' texts')) →
      (tokenizeTexts vault sessionId (jobs decision passes' texts') st').1 =
        (tokenizeTexts vault sessionId (jobs decision passes texts) st).1) ∧
    (Ledger.DistinctDraws vault.urandom st.draws
        (max (tokenizeTexts vault sessionId (jobs decision passes texts) st).2.draws
          (tokenizeTexts vault sessionId (jobs decision passes' texts') st').2.draws) →
      (tokenizeTexts vault sessionId (jobs decision passes' texts') st').1 =
        (tokenizeTexts vault sessionId (jobs decision passes texts) st).1 →
      SameTags (mentionPairs sessionId (jobs decision passes texts)
        (jobs decision passes' texts'))) := by
  obtain ⟨ledger, _, refines⟩ := reachable_refines aes reachable
  obtain ⟨ledger', _, refines'⟩ := reachable_refines aes reachable'
  obtain ⟨outs, after⟩ := tokenizeTexts_refines aes sessionId
    (readingOrder_jobs decision similar.reports) refines
  obtain ⟨outs', after'⟩ := tokenizeTexts_refines aes sessionId
    (readingOrder_jobs decision similar.reports') refines'
  -- both ledgers start without issues of the session and from the same draws
  have twin : Ledger.Twin vault.fingerprint vault.urandom sessionId ledger.draws [] [] ledger
      ledger' :=
    Ledger.twin_nil (by rw [← refines.draws, ← refines'.draws, draws])
      (no_issues_of_fresh refines.store fresh) (no_issues_of_fresh refines'.store fresh')
  rw [after.exhausted, refines.exhausted] at free
  rw [after'.exhausted, refines'.exhausted] at free'
  rw [outs, outs', after.draws, after'.draws, refines.draws,
    ← alike_iff hmac (counterparts_mentionPairs sessionId similar.outside) similar.pattern]
  constructor
  · intro alike
    exact twin.same_texts similar.outside (by rwa [List.append_nil]) free free'
  · intro distinct same
    have alike := twin.alike_texts similar.outside distinct (fun _ member => nomatch member) free
      free' (Nat.le_max_left _ _) (Nat.le_max_right _ _) same
    rwa [List.append_nil] at alike

end

/-- Two similar requests of a new session, with the same draws and none of them in vain,
are sent alike if no types are confused. Where the draws do not repeat, they are sent alike
in no other case. -/
theorem sanitizeRequest_noninterference (unicode : Unicode) (vault : Vault)
    (decision : PolicyDecision) (aes : AesGcmLaws vault.crypto) (hmac : HmacInjective vault.crypto)
    (sessionId : Text) (payload payload' : Fields) (passes passes' : Nat → PassResults Score)
    (texts texts' : List Text)
    (similar : Similar unicode decision sessionId payload payload' passes passes' texts texts')
    (st st' : VaultState) (reachable : vault.Reachable st) (reachable' : vault.Reachable st')
    (fresh : st.store.allForSession sessionId = [])
    (fresh' : st'.store.allForSession sessionId = []) (draws : st'.draws = st.draws)
    (after after' : VaultState)
    (runs : (sanitizeRequest unicode vault decision passes payload sessionId st).2 = after)
    (runs' : (sanitizeRequest unicode vault decision passes' payload' sessionId st').2 = after')
    (free : after.exhausted = st.exhausted) (free' : after'.exhausted = st'.exhausted) :
    (Unconfused decision sessionId passes passes' texts texts' →
      upstream unicode vault decision passes payload sessionId st =
        upstream unicode vault decision passes' payload' sessionId st') ∧
    (Ledger.DistinctDraws vault.urandom st.draws (max after.draws after'.draws) →
      upstream unicode vault decision passes payload sessionId st =
        upstream unicode vault decision passes' payload' sessionId st' →
      Unconfused decision sessionId passes passes' texts texts') := by
  obtain ⟨lengths, types⟩ := similar.types
  -- with no text the pipeline returns before the policy is asked
  by_cases some : texts = []
  · subst some
    obtain rfl := List.length_eq_zero_iff.mp lengths
    have same := similar.payload_eq
    rw [upstream_no_texts similar.walks, upstream_no_texts similar.walks', same]
    exact ⟨fun _ => rfl, fun _ _ => .inr fun _ member => nomatch member⟩
  have some' : texts' ≠ [] := by
    rw [← ne_eq, ← List.length_pos_iff] at some
    rw [← List.length_pos_iff]
    omega
  -- both requests have the same types, so the policy decides both alike
  match evaluated : evaluate decision (detectedTypes decision passes texts) with
  | .error e =>
    rw [upstream_blocked similar.walks some evaluated,
      upstream_blocked similar.walks' some' (types ▸ evaluated)]
    exact ⟨fun _ => rfl, fun _ _ => .inl ⟨e, evaluated⟩⟩
  | .ok () =>
    have passed : ¬∃ e, evaluate decision (detectedTypes decision passes texts) = .error e := by
      rintro ⟨e, blocked⟩
      rw [evaluated] at blocked
      cases blocked
    -- past the policy only the rewritten texts can differ
    have state := (upstream_passed vault sessionId st similar.walks some evaluated).2
    have state' := (upstream_passed vault sessionId st' similar.walks' some'
      (types ▸ evaluated)).2
    rw [runs] at state
    rw [runs'] at state'
    subst state state'
    obtain ⟨enough, needed⟩ := similar.rewritten aes hmac reachable reachable' fresh fresh' draws
      free free'
    rw [Unconfused, or_iff_right passed, similar.upstream_eq_iff some evaluated]
    exact ⟨enough, needed⟩

/-! ## Two pairs of requests -/

theorem similar_of_named (sessionId text text' : Text) (named named' : List (Text × Text))
    (walks : RedactionPipeline.texts Unicode.ascii (oneMessage text) = .ok [text])
    (walks' : RedactionPipeline.texts Unicode.ascii (oneMessage text') = .ok [text'])
    (same : List.Forall₂ SameOutside (jobs (policyOf .tokenize []) (namedBy text named) [text])
      (jobs (policyOf .tokenize []) (namedBy text' named') [text']))
    (pattern : SamePattern (mentionPairs sessionId
      (jobs (policyOf .tokenize []) (namedBy text named) [text])
      (jobs (policyOf .tokenize []) (namedBy text' named') [text']))) :
    Similar Unicode.ascii (policyOf .tokenize []) sessionId (oneMessage text) (oneMessage text')
      (namedBy text named) (namedBy text' named') [text] [text'] where
  walks := walks
  walks' := walks'
  skeleton := ⟨[text'], rfl⟩
  reports := allWellReported_namedBy text named
  reports' := allWellReported_namedBy text' named'
  outside := same
  pattern := pattern

/-- Two messages with two names each, in the same places: they are sent alike in new sessions,
although no name is the same. -/
theorem sanitizeRequest_noninterference_names :
    upstream Unicode.ascii sampleVault (policyOf .tokenize [])
        (namedBy "Ann met Bob".toList [("Ann".toList, "PERSON".toList),
          ("Bob".toList, "PERSON".toList)])
        (oneMessage "Ann met Bob".toList) "s1".toList ⟨.empty, 0, 0⟩ =
      upstream Unicode.ascii sampleVault (policyOf .tokenize [])
        (namedBy "Mary met Ed".toList [("Mary".toList, "PERSON".toList),
          ("Ed".toList, "PERSON".toList)])
        (oneMessage "Mary met Ed".toList) "s1".toList ⟨.empty, 0, 0⟩ := by
  have same : List.Forall₂ SameOutside
      (jobs (policyOf .tokenize []) (namedBy "Ann met Bob".toList
        [("Ann".toList, "PERSON".toList), ("Bob".toList, "PERSON".toList)]) ["Ann met Bob".toList])
      (jobs (policyOf .tokenize []) (namedBy "Mary met Ed".toList
        [("Mary".toList, "PERSON".toList), ("Ed".toList, "PERSON".toList)])
        ["Mary met Ed".toList]) :=
    .cons ⟨by decide, by decide⟩ .nil
  have pairs : mentionPairs "s1".toList
      (jobs (policyOf .tokenize []) (namedBy "Ann met Bob".toList
        [("Ann".toList, "PERSON".toList), ("Bob".toList, "PERSON".toList)]) ["Ann met Bob".toList])
      (jobs (policyOf .tokenize []) (namedBy "Mary met Ed".toList
        [("Mary".toList, "PERSON".toList), ("Ed".toList, "PERSON".toList)])
        ["Mary met Ed".toList]) =
      [(⟨"s1".toList, "PERSON".toList, "Ann".toList⟩,
          ⟨"s1".toList, "PERSON".toList, "Mary".toList⟩),
        (⟨"s1".toList, "PERSON".toList, "Bob".toList⟩,
          ⟨"s1".toList, "PERSON".toList, "Ed".toList⟩)] := by
    decide
  have similar := similar_of_named "s1".toList _ _ _ _ (by decide) (by decide) same
    (by rw [pairs, SamePattern]; decide)
  have sent := sanitizeRequest_noninterference Unicode.ascii sampleVault (policyOf .tokenize [])
    sampleVault_aesGcm sampleVault_hmac "s1".toList _ _ _ _ _ _ similar ⟨.empty, 0, 0⟩
    ⟨.empty, 0, 0⟩ (.fresh 0) (.fresh 0) rfl rfl rfl _ _ rfl rfl (by decide)
    (by decide)
  exact sent.1 (.inr (by rw [pairs, SameTags]; decide))

/-- The types `A` and `A:B` confuse `B:c` and `c`, but not `B:c` and `d`: both messages have
one value of each type, and what is sent for them is not the same. -/
theorem sanitizeRequest_interferes :
    Similar Unicode.ascii (policyOf .tokenize []) "s1".toList (oneMessage "B:c c".toList)
      (oneMessage "B:c d".toList)
      (namedBy "B:c c".toList [("B:c".toList, "A".toList), ("c".toList, "A:B".toList)])
      (namedBy "B:c d".toList [("B:c".toList, "A".toList), ("d".toList, "A:B".toList)])
      ["B:c c".toList] ["B:c d".toList] ∧
    (sanitizeRequest Unicode.ascii sampleVault (policyOf .tokenize [])
      (namedBy "B:c c".toList [("B:c".toList, "A".toList), ("c".toList, "A:B".toList)])
      (oneMessage "B:c c".toList) "s1".toList ⟨.empty, 0, 0⟩).2.exhausted = 0 ∧
    (sanitizeRequest Unicode.ascii sampleVault (policyOf .tokenize [])
      (namedBy "B:c d".toList [("B:c".toList, "A".toList), ("d".toList, "A:B".toList)])
      (oneMessage "B:c d".toList) "s1".toList ⟨.empty, 0, 0⟩).2.exhausted = 0 ∧
    upstream Unicode.ascii sampleVault (policyOf .tokenize [])
        (namedBy "B:c c".toList [("B:c".toList, "A".toList), ("c".toList, "A:B".toList)])
        (oneMessage "B:c c".toList) "s1".toList ⟨.empty, 0, 0⟩ ≠
      upstream Unicode.ascii sampleVault (policyOf .tokenize [])
        (namedBy "B:c d".toList [("B:c".toList, "A".toList), ("d".toList, "A:B".toList)])
        (oneMessage "B:c d".toList) "s1".toList ⟨.empty, 0, 0⟩ := by
  have pairs : mentionPairs "s1".toList
      (jobs (policyOf .tokenize []) (namedBy "B:c c".toList
        [("B:c".toList, "A".toList), ("c".toList, "A:B".toList)]) ["B:c c".toList])
      (jobs (policyOf .tokenize []) (namedBy "B:c d".toList
        [("B:c".toList, "A".toList), ("d".toList, "A:B".toList)]) ["B:c d".toList]) =
      [(⟨"s1".toList, "A".toList, "B:c".toList⟩, ⟨"s1".toList, "A".toList, "B:c".toList⟩),
        (⟨"s1".toList, "A:B".toList, "c".toList⟩, ⟨"s1".toList, "A:B".toList, "d".toList⟩)] := by
    decide
  have similar := similar_of_named "s1".toList "B:c c".toList "B:c d".toList
    [("B:c".toList, "A".toList), ("c".toList, "A:B".toList)]
    [("B:c".toList, "A".toList), ("d".toList, "A:B".toList)]
    (by decide) (by decide) (.cons ⟨by decide, by decide⟩ .nil)
    (by rw [pairs, SamePattern]; decide)
  refine ⟨similar, by decide, by decide, fun same => ?_⟩
  -- B:c of type A and c of type A:B share the key A:B:c, and only the first request asks for both
  have rewritten := (similar.upstream_eq_iff (by decide) (by decide)).mp same
  revert rewritten
  decide

end RedactGate
