import RedactGate.Routes.Stream
import Mathlib.Algebra.Order.Ring.Rat

/-!
# Audit of forwarded requests

Which requests that reach the provider are audited. An exception other than
`ProviderError`, a completion that cannot be re-inflated and a caller that goes away
during a stream all pass the audit call by.
-/
namespace RedactGate

open Library RedactionPipeline

variable {Score : Type}

def auditCalls (effects : List Effect) : List AuditCall :=
  effects.filterMap fun
    | .audit call => some call
    | _ => none

/-- Exactly one audit call, with the entity counts of the request. -/
def AuditedOnce (ctx : PipelineContext Score) (effects : List Effect) : Prop :=
  ∃ call, auditCalls effects = [call] ∧ call.entityCounts = ctx.entityCounts.entries

/-- The provider is called with the payload. -/
def Forwarded (sanitized : Fields) (effects : List Effect) : Prop :=
  .complete sanitized ∈ effects ∨ .stream sanitized ∈ effects

/-- The test for `[[` does not raise on the value, and is false of what is not a string. -/
def searchable : Json → Bool
  | .str _ => true
  | .arr items => !items.any isOpening
  | .obj fields => !Fields.hasKey fields ['[', '[']
  | _ => false

/-- Re-inflation does not raise: the place of the assistant's text holds nothing, or
something that `detokenize` takes. -/
def Reinflatable (completion : Json) : Prop :=
  ∀ content, completion.at? completionText = some content → content.truthy = true →
    searchable content = true

/-- The ways through `_handle` and `_stream_response` that do not miss the audit call: nothing
raises on them, and the client of a stream stays to its end. -/
def AuditReached (upstream : Upstream) (client : Client) (payload sanitized : Fields) : Prop :=
  if ((payload.get? "stream".toList).getD .null).truthy then
    client = .reads ∧ (upstream.stream sanitized).2 ≠ .raises ∧
      ∀ chunk ∈ (upstream.stream sanitized).1, TextDelta chunk
  else match upstream.complete sanitized with
    | .ok completion => Reinflatable completion
    | .providerError _ _ => True
    | .raises => False

variable {vault : Vault} {store : InMemoryTokenStore} {issues : List Issue} {st : VaultState}

theorem detokenizeJson_isSome (rep : Represents vault issues st.store) (sessionId : Text)
    (content : Json) :
    (detokenizeJson vault st sessionId content).isSome = searchable content := by
  cases content with
  | str text => rw [detokenizeJson, detokenize_refines rep]; rfl
  | arr items => cases found : items.any isOpening <;> simp [detokenizeJson, searchable, found]
  | obj fields =>
    cases found : Fields.hasKey fields ['[', '['] <;> simp [detokenizeJson, searchable, found]
  | _ => rfl

theorem reinflate_isSome_iff (rep : Represents vault issues st.store) (completion : Json)
    (ctx : PipelineContext Score) :
    (reinflate vault st completion ctx).isSome = true ↔ Reinflatable completion := by
  rw [reinflate]
  cases found : completion.at? completionText with
  | none => simp [Reinflatable, found]
  | some content =>
    have raised := detokenizeJson_isSome rep ctx.sessionId content
    by_cases truthy : content.truthy = true
    · simp [Reinflatable, found, truthy, raised]
    · simp [Reinflatable, found, truthy]

/-- The generator makes its audit call exactly if it is read to the end and nothing but a
`ProviderError` stops it. -/
theorem streamEffects_audited_iff {detok : StreamDetokenizer} {g : Text → Option Text}
    (resolves : StreamDetokenizer.Substitutes vault store detok g) (upstream : Upstream)
    (client : Client) (route provider : Text) (sanitized : Fields) (ctx : PipelineContext Score) :
    AuditedOnce ctx
        (streamEffects vault store upstream client route provider sanitized detok ctx) ↔
      client = .reads ∧ (upstream.stream sanitized).2 ≠ .raises ∧
        ∀ chunk ∈ (upstream.stream sanitized).1, TextDelta chunk := by
  rw [← streamResponse_finished_iff resolves]
  simp only [streamEffects]
  split
  next reached =>
    simp only [Bool.and_eq_true, decide_eq_true_eq] at reached
    exact iff_of_true ⟨_, rfl, rfl⟩ reached
  next missed =>
    simp only [Bool.and_eq_true, decide_eq_true_eq] at missed
    refine iff_of_false ?_ missed
    rintro ⟨call, calls, _⟩
    cases calls

section

variable [LinearOrder Score] {unicode : Unicode} {decision : PolicyDecision} {provider : Text}
  {upstream : Upstream} {client : Client} {request : Request Score} {payload sanitized : Fields}
  {ctx : PipelineContext Score} {st' : VaultState}

theorem represents_of_passed (laws : AesGcmLaws vault.crypto) (reachable : vault.Reachable st)
    (passed : sanitizeRequest unicode vault decision request.passes payload request.sessionId st =
      (.ok (sanitized, ctx), st')) :
    ∃ issues, Represents vault issues st'.store := by
  have written : vault.Reachable st' := by
    have kept : vault.Reachable (sanitizeRequest unicode vault decision request.passes payload
        request.sessionId st).2 := sanitizeRequest_reachable reachable
    rwa [passed] at kept
  obtain ⟨ledger, _, refines⟩ := reachable_refines laws written
  exact ⟨ledger.issues, refines.store⟩

variable (provider upstream client) in
/-- A request for a stream that is passed on hands the snapshot of its session to the generator, and
what is done from there on depends on nothing else. -/
theorem serve_stream (rep : Represents vault issues st'.store)
    (allowed : providerAllowed decision provider = true) (body : request.payload = some payload)
    (passed : sanitizeRequest unicode vault decision request.passes payload request.sessionId st =
      (.ok (sanitized, ctx), st'))
    (streaming : ((payload.get? "stream".toList).getD .null).truthy = true) :
    ∃ detok, StreamDetokenizer.Substitutes vault st'.store detok
        (Ledger.resolve issues ctx.sessionId) ∧
      serve unicode vault decision provider upstream client request st =
        streamEffects vault st'.store upstream client request.route provider sanitized detok
          ctx := by
  obtain ⟨detok, prepared, _, resolves⟩ := StreamDetokenizer.prepared_substitutes rep ctx.sessionId
  refine ⟨detok, resolves st'.store, ?_⟩
  unfold serve handle
  simp only [allowed, body, passed, Bool.not_true, Bool.false_eq_true, if_false, streaming, if_true,
    prepared, List.nil_append]

/-- The calls for a request that is answered at once: the provider, and one audit call if the
provider answers and the answer can be reinflated. -/
theorem serve_complete (allowed : providerAllowed decision provider = true)
    (body : request.payload = some payload)
    (passed : sanitizeRequest unicode vault decision request.passes payload request.sessionId st =
      (.ok (sanitized, ctx), st'))
    (at_once : ((payload.get? "stream".toList).getD .null).truthy = false) :
    serve unicode vault decision provider upstream client request st = .complete sanitized ::
      match upstream.complete sanitized with
      | .raises => []
      | .providerError _ _ => [.audit (passedCall request.route provider ctx (none, none))]
      | .ok completion =>
        match reinflate vault st' completion ctx with
        | none => []
        | some reinflated =>
          [.audit (passedCall request.route provider ctx (usage reinflated))] := by
  unfold serve handle
  simp only [allowed, body, passed, Bool.not_true, Bool.false_eq_true, if_false, at_once]
  cases upstream.complete sanitized with
  | ok completion => simp only; cases reinflate vault st' completion ctx <;> rfl
  | _ => rfl

end

theorem streamEffects_forwarded (detok : StreamDetokenizer) (upstream : Upstream) (client : Client)
    (route provider : Text) (sanitized : Fields) (ctx : PipelineContext Score) :
    Forwarded sanitized
      (streamEffects vault store upstream client route provider sanitized detok ctx) := by
  simp only [streamEffects]
  split <;> exact .inr List.mem_cons_self

/-- A request that the pipeline passes on is forwarded, to a provider that the policy allows, and it
is audited exactly once if and only if its audit is reached: a client that streams reads to the end
and nothing raises in the loop, and without a stream the completion can be re-inflated or the
provider has failed. -/
theorem forwarded_audited_iff [LinearOrder Score] (unicode : Unicode) (vault : Vault)
    (laws : AesGcmLaws vault.crypto) (decision : PolicyDecision) (provider : Text)
    (upstream : Upstream) (client : Client) (request : Request Score) (st : VaultState)
    (reachable : vault.Reachable st) (allowed : providerAllowed decision provider = true)
    {payload : Fields} (body : request.payload = some payload) {sanitized : Fields}
    {ctx : PipelineContext Score} {st' : VaultState}
    (passed : sanitizeRequest unicode vault decision request.passes payload request.sessionId st =
      (.ok (sanitized, ctx), st')) :
    Forwarded sanitized (serve unicode vault decision provider upstream client request st) ∧
      (AuditedOnce ctx (serve unicode vault decision provider upstream client request st) ↔
        AuditReached upstream client payload sanitized) := by
  obtain ⟨issues, rep⟩ := represents_of_passed laws reachable passed
  unfold AuditReached
  cases streaming : ((payload.get? "stream".toList).getD .null).truthy with
  | true =>
    obtain ⟨detok, resolves, effects⟩ :=
      serve_stream provider upstream client rep allowed body passed streaming
    rw [effects, if_pos rfl]
    exact ⟨streamEffects_forwarded _ _ _ _ _ _ _, streamEffects_audited_iff resolves _ _ _ _ _ _⟩
  | false =>
    rw [serve_complete allowed body passed streaming, if_neg Bool.false_ne_true]
    refine ⟨.inl List.mem_cons_self, ?_⟩
    have unaudited : ¬AuditedOnce ctx [.complete sanitized] := by
      rintro ⟨_, calls, _⟩
      cases calls
    -- one case for each way `complete` can end
    cases completed : upstream.complete sanitized with
    | raises => exact iff_of_false unaudited id
    | providerError statusCode message => exact iff_of_true ⟨_, rfl, rfl⟩ trivial
    | ok completion =>
      have restored := reinflate_isSome_iff rep completion ctx
      simp only
      cases reinflated : reinflate vault st' completion ctx with
      | none =>
        rw [reinflated] at restored
        exact iff_of_false unaudited fun can => Bool.false_ne_true (restored.mpr can)
      | some result =>
        rw [reinflated] at restored
        exact iff_of_true ⟨_, rfl, rfl⟩ (restored.mp rfl)

/-! ## A stream that is read to its end, and one that is not -/

/-- A request for a stream with an input in which nothing is found. -/
def streamRequest : Request ℚ :=
  ⟨"/v1/chat/completions".toList,
    some (.obj [("stream".toList, .bool true), ("input".toList, .str "hi".toList)]),
    fun _ => [], "s1".toList⟩

/-- A provider that streams one empty chunk. -/
def oneChunk : Upstream := ⟨fun _ => .raises, fun _ => ([.obj []], .ends)⟩

theorem streamRequest_passes : ∃ sanitized ctx st',
    sanitizeRequest .ascii sampleVault (policyOf .tokenize []) streamRequest.passes
      [("stream".toList, .bool true), ("input".toList, .str "hi".toList)] streamRequest.sessionId
      ⟨.empty, 0, 0⟩ = (.ok (sanitized, ctx), st') := by
  have passes : (sanitizeRequest .ascii sampleVault (policyOf .tokenize []) streamRequest.passes
      [("stream".toList, .bool true), ("input".toList, .str "hi".toList)] streamRequest.sessionId
      ⟨.empty, 0, 0⟩).1.toBool = true := by
    decide
  match result : sanitizeRequest .ascii sampleVault (policyOf .tokenize []) streamRequest.passes
    [("stream".toList, .bool true), ("input".toList, .str "hi".toList)] streamRequest.sessionId
    ⟨.empty, 0, 0⟩ with
  | (.ok (sanitized, ctx), st') => exact ⟨sanitized, ctx, st', rfl⟩
  | (.error e, st') =>
    rw [result] at passes
    cases passes

theorem forwarded_audited_streamRequest : ∃ sanitized, ∃ ctx : PipelineContext ℚ,
    Forwarded sanitized (serve .ascii sampleVault (policyOf .tokenize []) "mock".toList oneChunk
      .reads streamRequest ⟨.empty, 0, 0⟩) ∧
    AuditedOnce ctx (serve .ascii sampleVault (policyOf .tokenize []) "mock".toList oneChunk
      .reads streamRequest ⟨.empty, 0, 0⟩) := by
  obtain ⟨sanitized, ctx, st', passed⟩ := streamRequest_passes
  obtain ⟨forwarded, audited⟩ := forwarded_audited_iff .ascii sampleVault sampleVault_aesGcm
    (policyOf .tokenize []) "mock".toList oneChunk .reads streamRequest _ (.fresh 0) rfl rfl passed
  refine ⟨sanitized, ctx, forwarded, audited.mpr ?_⟩
  rw [AuditReached, if_pos (by decide)]
  refine ⟨rfl, StreamEnd.noConfusion, fun chunk member delta found => ?_⟩
  obtain rfl := List.mem_singleton.mp member
  cases found

/-- The caller of a stream goes away after its first chunk: the provider has been called, the code
behind the loop is not reached, and no audit call is made. -/
theorem streamRequest_unaudited : ∃ sanitized ctx st',
    sanitizeRequest .ascii sampleVault (policyOf .tokenize []) streamRequest.passes
      [("stream".toList, .bool true), ("input".toList, .str "hi".toList)] streamRequest.sessionId
      ⟨.empty, 0, 0⟩ = (.ok (sanitized, ctx), st') ∧
    Forwarded sanitized (serve .ascii sampleVault (policyOf .tokenize []) "mock".toList oneChunk
      (.leaves 0) streamRequest ⟨.empty, 0, 0⟩) ∧
    ¬AuditedOnce ctx (serve .ascii sampleVault (policyOf .tokenize []) "mock".toList oneChunk
      (.leaves 0) streamRequest ⟨.empty, 0, 0⟩) := by
  obtain ⟨sanitized, ctx, st', passed⟩ := streamRequest_passes
  obtain ⟨issues, rep⟩ := represents_of_passed sampleVault_aesGcm (.fresh 0) passed
  obtain ⟨detok, resolves, effects⟩ := serve_stream "mock".toList oneChunk (.leaves 0) rep rfl rfl
    passed (by decide)
  refine ⟨sanitized, ctx, st', passed, ?_⟩
  rw [effects]
  refine ⟨streamEffects_forwarded _ _ _ _ _ _ _, fun audited => ?_⟩
  exact Client.noConfusion ((streamEffects_audited_iff resolves _ _ _ _ _ _).mp audited).1

end RedactGate
