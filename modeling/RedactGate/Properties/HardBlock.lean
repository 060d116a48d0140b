import RedactGate.Routes.Proxy
import Mathlib.Algebra.Order.Ring.Rat

/-!
# Hard blocks

When a request is refused. The pipeline returns a payload without any text before the
policy is evaluated, and the policy sees the types that survive overlap resolution only.
-/
namespace RedactGate

open Library RedactionPipeline

variable {Score : Type} [LinearOrder Score]

variable {unicode : Unicode} {vault : Vault} {decision : PolicyDecision}
  {passes : Nat → PassResults Score} {payload : Fields} {sessionId : Text} {st : VaultState}

/-- If the payload has texts, then the request is refused with an error if and only if the policy
raises this error over the types of all its texts. -/
theorem sanitizeRequest_blocks_iff {raw : List Text} (extracted : extractTexts payload = .ok raw)
    (some : raw ≠ []) {e : HardBlockError} :
    (sanitizeRequest unicode vault decision passes payload sessionId st).1 =
        .error (.hardBlock e) ↔
      evaluate decision (detectedTypes decision passes (raw.map (normalizeText unicode))) =
        .error e := by
  constructor
  · intro raised
    match evaluated : evaluate decision (detectedTypes decision passes
      (raw.map (normalizeText unicode))) with
    | .error e' =>
      rw [sanitizeRequest_blocked extracted some evaluated] at raised
      exact congrArg _ (RequestError.hardBlock.inj (Except.error.inj raised))
    | .ok () =>
      rw [sanitizeRequest_passed extracted some evaluated] at raised
      dsimp only at raised
      split at raised <;> cases raised
  · intro blocked
    rw [sanitizeRequest_blocked extracted some blocked]

/-! ## Hard-block mode -/

/-- The request is refused: the pipeline raises a hard block and the handler does not
call the provider, whatever the provider and the route are. -/
def Refused (unicode : Unicode) (vault : Vault) (decision : PolicyDecision)
    (passes : Nat → PassResults Score) (payload : Fields) (sessionId : Text) (st : VaultState) :
    Prop :=
  (∃ e, (sanitizeRequest unicode vault decision passes payload sessionId st).1 =
    .error (.hardBlock e)) ∧
  ∀ provider complete route, ¬InvokesProvider (handle unicode vault decision provider complete
    ⟨route, some (.obj payload), passes, sessionId⟩ st)

/-- A request for which the pipeline raises a hard block does not reach the provider: the route
answers with the error before it calls anyone. -/
theorem handle_of_blocked {e : HardBlockError}
    (blocked : (sanitizeRequest unicode vault decision passes payload sessionId st).1 =
      .error (.hardBlock e)) (provider : Text) (complete : Fields → Completion) (route : Text) :
    ¬InvokesProvider (handle unicode vault decision provider complete
      ⟨route, some (.obj payload), passes, sessionId⟩ st) := by
  match result : sanitizeRequest unicode vault decision passes payload sessionId st with
  | (.error (.hardBlock e'), st') =>
    rw [handle]
    split
    · simp [InvokesProvider]
    · simp [InvokesProvider, Request.payload, result]
  | (.error (.walk e'), st') =>
    rw [result] at blocked
    cases blocked
  | (.ok sanitized, st') =>
    rw [result] at blocked
    cases blocked

/-- In hard-block mode a request whose payload the walk can read is refused if and only if the
payload has a text. A payload without one is returned before the policy is evaluated. -/
theorem hardBlock_refuses_iff (unicode : Unicode) (vault : Vault) {decision : PolicyDecision}
    (passes : Nat → PassResults Score) {payload : Fields} (sessionId : Text) (st : VaultState)
    (mode : decision.mode = .hardBlock) {raw : List Text}
    (extracted : extractTexts payload = .ok raw) :
    Refused unicode vault decision passes payload sessionId st ↔ raw ≠ [] := by
  constructor
  · rintro ⟨⟨e, raised⟩, _⟩ rfl
    rw [sanitizeRequest_no_texts extracted] at raised
    cases raised
  · intro some
    obtain ⟨e, blocked⟩ := evaluate_hardBlock mode
      (detectedTypes decision passes (raw.map (normalizeText unicode)))
    have raised : (sanitizeRequest unicode vault decision passes payload sessionId st).1 = _ :=
      (sanitizeRequest_blocks_iff extracted some).mpr blocked
    exact ⟨⟨e, raised⟩, handle_of_blocked raised⟩

theorem hardBlock_refuses_hi :
    Refused .ascii sampleVault (policyOf .hardBlock []) (fun _ => ([] : PassResults ℚ))
      [("input".toList, .str "hi".toList)] "s1".toList ⟨.empty, 0, 0⟩ := by
  have extracted : extractTexts [("input".toList, .str "hi".toList)] = .ok ["hi".toList] := by
    decide
  exact (hardBlock_refuses_iff .ascii sampleVault _ _ _ rfl extracted).mpr (by decide)

/-- A message that is only an image. -/
def imageOnly : Fields :=
  [("messages".toList, .arr [.obj [("role".toList, .str "user".toList),
    ("content".toList, .arr [.obj [("type".toList, .str "image_url".toList)]])]])]

/-- A payload with an image and no text reaches the provider in hard-block mode, as the policy is
not evaluated. -/
theorem imageOnly_not_refused :
    extractTexts imageOnly = .ok [] ∧ ¬Refused .ascii sampleVault (policyOf .hardBlock [])
      (fun _ => ([] : PassResults ℚ)) imageOnly "s1".toList ⟨.empty, 0, 0⟩ := by
  have extracted : extractTexts imageOnly = .ok [] := by decide
  refine ⟨extracted, ?_⟩
  rintro ⟨⟨e, raised⟩, _⟩
  rw [sanitizeRequest_no_texts extracted] at raised
  cases raised

/-! ## Blocked types -/

theorem mem_detectedTypes {texts : List Text} {t : Text} :
    t ∈ detectedTypes decision passes texts ↔ ∃ i text, texts[i]? = some text ∧
      ∃ s ∈ filterSpans decision (Detector.detect text (passes i)).spans, s.entityType = t := by
  simp only [detectedTypes, filtered, List.mem_map, List.mem_flatten, List.mem_mapIdx]
  constructor
  · rintro ⟨s, ⟨_, ⟨i, bound, rfl⟩, member⟩, rfl⟩
    exact ⟨i, texts[i], List.getElem?_eq_getElem bound, s, member, rfl⟩
  · rintro ⟨i, text, at_i, s, member, rfl⟩
    obtain ⟨bound, rfl⟩ := List.getElem?_eq_some_iff.mp at_i
    exact ⟨s, ⟨_, ⟨i, bound, rfl⟩, member⟩, rfl⟩

/-- The request is blocked before any token record is written: an error is raised, and the vault is
as it was. -/
def Blocked (unicode : Unicode) (vault : Vault) (decision : PolicyDecision)
    (passes : Nat → PassResults Score) (payload : Fields) (sessionId : Text) (st : VaultState) :
    Prop :=
  ∃ e, sanitizeRequest unicode vault decision passes payload sessionId st =
    (.error (.hardBlock e), st)

/-- In tokenize mode a request is blocked if and only if a span of a blocked type
survives overlap resolution in one of the texts. -/
theorem blocked_iff_survives (mode : decision.mode = .tokenize) (all : decision.redactTypes = none)
    {raw : List Text} (extracted : extractTexts payload = .ok raw) :
    Blocked unicode vault decision passes payload sessionId st ↔
      ∃ i text, (raw.map (normalizeText unicode))[i]? = some text ∧
        ∃ s ∈ (Detector.detect text (passes i)).spans, s.entityType ∈ decision.blockedTypes := by
  have hit := @evaluate_error_iff decision (by rw [mode]; decide)
    (detectedTypes decision passes (raw.map (normalizeText unicode)))
  constructor
  · rintro ⟨e, raised⟩
    -- without a text the policy is not evaluated, and nothing survives either
    have some : raw ≠ [] := by
      rintro rfl
      rw [sanitizeRequest_no_texts extracted] at raised
      cases raised
    have evaluated := (sanitizeRequest_blocks_iff extracted some).mp (congrArg Prod.fst raised)
    obtain ⟨t, detected, blocked⟩ := hit.mp ⟨e, evaluated⟩
    obtain ⟨i, text, at_i, s, member, rfl⟩ := mem_detectedTypes.mp detected
    rw [filterSpans_all all] at member
    exact ⟨i, text, at_i, s, member, blocked⟩
  · rintro ⟨i, text, at_i, s, member, blocked⟩
    have some : raw ≠ [] := by
      rintro rfl
      cases at_i
    obtain ⟨e, evaluated⟩ := hit.mpr ⟨s.entityType,
      mem_detectedTypes.mpr ⟨i, text, at_i, s, (filterSpans_all all _).symm ▸ member, rfl⟩, blocked⟩
    exact ⟨e, sanitizeRequest_blocked extracted some evaluated⟩

/-- Blocked types in tokenize mode, with no list of types to redact. The request is blocked, and no
token record is written, if and only if a span of a blocked type survives overlap resolution. A span
of a blocked type that a pass reports for a text either blocks the request or loses, step by step,
to a returned span of another type that ranks at least as high; it blocks the request if it outranks
every other span it overlaps. -/
theorem blockedType_blocks_or_loses (unicode : Unicode) (vault : Vault) (sessionId : Text)
    (st : VaultState) (mode : decision.mode = .tokenize) (all : decision.redactTypes = none)
    {raw : List Text} (extracted : extractTexts payload = .ok raw) :
    (Blocked unicode vault decision passes payload sessionId st ↔
      ∃ i text, (raw.map (normalizeText unicode))[i]? = some text ∧
        ∃ s ∈ (Detector.detect text (passes i)).spans, s.entityType ∈ decision.blockedTypes) ∧
    ∀ i text, (raw.map (normalizeText unicode))[i]? = some text → text ≠ [] →
      (∀ t ∈ reported (passes i), t.Proper) →
      ∀ s ∈ reported (passes i), s.entityType ∈ decision.blockedTypes →
        (Blocked unicode vault decision passes payload sessionId st ∨
          ∃ winner ∈ (Detector.detect text (passes i)).spans,
            winner.entityType ∉ decision.blockedTypes ∧
            Relation.ReflTransGen (LosesTo (reported (passes i))) s winner ∧
            s.rankKey ≤ winner.rankKey) ∧
        ((∀ t ∈ reported (passes i), s.overlaps t → t ≠ s → t.rankKey < s.rankKey) →
          Blocked unicode vault decision passes payload sessionId st) := by
  have survives := @blocked_iff_survives Score _ unicode vault decision passes payload sessionId st
    mode all raw extracted
  refine ⟨survives, fun i text at_i nonempty proper s found blocked => ?_⟩
  -- the policy sees what overlap resolution returns, not what the passes report
  have merged : (Detector.detect text (passes i)).spans = mergeSpans (reported (passes i)) := by
    rw [Detector.detect, if_neg (by simpa using nonempty)]
  constructor
  · obtain ⟨winner, returned, link⟩ := mergeSpans_linked proper found
    rw [← merged] at returned
    by_cases also : winner.entityType ∈ decision.blockedTypes
    · exact .inl (survives.mpr ⟨i, text, at_i, winner, returned, also⟩)
    · exact .inr ⟨winner, returned, also, link, Sweep.rank_le_of_linked link⟩
  · intro dominant
    have returned := mem_mergeSpans_of_dominant proper found dominant
    exact survives.mpr ⟨i, text, at_i, s, merged ▸ returned, blocked⟩

/-- Two findings for the same nine digits, of equal rank. -/
def sinAndAccount : List (EntitySpan ℚ) :=
  [⟨0, 9, "SIN".toList, "130692502".toList, 19 / 20, .regex, none⟩,
   ⟨0, 9, "BANK_ACCOUNT".toList, "130692502".toList, 19 / 20, .regex, none⟩]

theorem blockedType_blocks_sin :
    Blocked .ascii sampleVault (policyOf .tokenize ["SIN".toList])
      (fun _ => [some sinAndAccount]) [("input".toList, .str "130692502".toList)] "s1".toList
      ⟨.empty, 0, 0⟩ := by
  have extracted : extractTexts [("input".toList, .str "130692502".toList)] =
    .ok ["130692502".toList] := by decide
  refine (blockedType_blocks_or_loses .ascii sampleVault _ _ rfl rfl extracted).1.mpr
    ⟨0, "130692502".toList, by decide, sinAndAccount.head (by decide), ?_, ?_⟩
  · decide +kernel
  · decide

/-- The second finding is masked by the first: a pass reports a span of a blocked type
and the request is not blocked. -/
theorem masked_not_blocked :
    ∃ s ∈ reported [some sinAndAccount], s.entityType ∈ ["BANK_ACCOUNT".toList] ∧
      ¬Blocked .ascii sampleVault (policyOf .tokenize ["BANK_ACCOUNT".toList])
        (fun _ => [some sinAndAccount]) [("input".toList, .str "130692502".toList)] "s1".toList
        ⟨.empty, 0, 0⟩ := by
  refine ⟨⟨0, 9, "BANK_ACCOUNT".toList, "130692502".toList, 19 / 20, .regex, none⟩,
    by decide +kernel, by decide +kernel, ?_⟩
  rintro ⟨e, raised⟩
  have passed : (sanitizeRequest .ascii sampleVault (policyOf .tokenize ["BANK_ACCOUNT".toList])
      (fun _ => [some sinAndAccount]) [("input".toList, .str "130692502".toList)] "s1".toList
      ⟨.empty, 0, 0⟩).1.toBool = true := by
    decide +kernel
  rw [raised] at passed
  cases passed

end RedactGate
