import RedactGate.Redaction.Pipeline
import RedactGate.Redaction.StreamDetokenizer

/-!
# Proxy route

The handler of a request: the policy's provider gate, the sanitized payload, the upstream
call, re-inflation and the audit writes. Time is left out, so audit events carry no
latency; the generator of a streaming response runs after the handler has returned.
-/
namespace RedactGate

open Library

variable {Score : Type} [LinearOrder Score]

/-- What `_safe_audit` is called with: the session, route and provider of the call, what was
counted, and the tokens that the provider reports. -/
structure AuditCall where
  sessionId : Option Text
  route : Text
  provider : Text
  entityCounts : List (Text × Nat)
  blocked : Bool
  promptTokens : Option Json
  completionTokens : Option Json

/-- What `provider.complete` does: it returns a completion, raises a `ProviderError`, or raises
anything else. -/
inductive Completion where
  | ok (completion : Json)
  | providerError (statusCode : Nat) (message : Text)
  | raises

inductive Effect where
  | complete (payload : Fields)
  | stream (payload : Fields)
  | audit (call : AuditCall)

/-- The answer of the handler; `serverError` stands for an exception it lets through, and
`streaming` holds what the generator is started with. -/
inductive Response (Score : Type) where
  | json (statusCode : Nat) (content : Json)
  | streaming (sanitized : Fields) (detok : StreamDetokenizer) (ctx : PipelineContext Score)
  | serverError

/-- `error_body`: an error as the clients of the provider expect it, with a message and maybe a
code. -/
def errorBody (message : Text) (code : Option Text) : Json :=
  .obj [("error".toList, .obj [
    ("message".toList, .str message),
    ("type".toList, .str "redactgate_error".toList),
    ("code".toList, (code.map Json.str).getD .null),
    ("param".toList, .null)])]

/-- `_usage`: the two counts of tokens that a completion reports, each of which may be missing. -/
def usage (completion : Json) : Option Json × Option Json :=
  match completion.at? [.key "usage".toList] with
  | some (.obj fields) =>
    (Fields.get? fields "prompt_tokens".toList, Fields.get? fields "completion_tokens".toList)
  | _ => (none, none)

/-- The audit call for a request that was passed on. -/
def passedCall (route provider : Text) (ctx : PipelineContext Score)
    (usage : Option Json × Option Json) : AuditCall :=
  ⟨some ctx.sessionId, route, provider, ctx.entityCounts.entries, false, usage.1, usage.2⟩

/-- A request as `_handle` gets it: the parsed body, if it parses, what the detection
passes report for each text and the session id that is minted. -/
structure Request (Score : Type) where
  route : Text
  body : Option Json
  passes : Nat → PassResults Score
  sessionId : Text

/-- `_read_payload`: the body of a request, if it is a JSON object. -/
def Request.payload (request : Request Score) : Option Fields :=
  match request.body with
  | some (.obj fields) => some fields
  | _ => none

/-- `_handle`, with the calls it makes: the provider is checked, the request sanitized, and then
answered at once or handed to the generator. -/
def handle (unicode : Unicode) (vault : Vault) (decision : PolicyDecision) (provider : Text)
    (complete : Fields → Completion) (request : Request Score) (st : VaultState) :
    Response Score × List Effect × VaultState :=
  if !providerAllowed decision provider then
    (.json 400 (errorBody ("provider '".toList ++ provider ++ "' is not permitted by policy".toList)
      "provider_not_allowed".toList), [], st)
  else match request.payload with
  | none => (.json 400 (errorBody "request body must be a JSON object".toList none), [], st)
  | some payload =>
    match RedactionPipeline.sanitizeRequest unicode vault decision request.passes payload
      request.sessionId st with
    | (.error (.walk _), st) => (.serverError, [], st)
    | (.error (.hardBlock e), st) =>
      let blocked : AuditCall := ⟨none, request.route, provider,
        (sortedTypes e.blockedTypes).map fun t => (t, 1), true, none, none⟩
      (.json 422 (errorBody "request blocked by redaction policy".toList "hard_blocked".toList),
        [.audit blocked], st)
    | (.ok (sanitized, ctx), st) =>
      let audited (usage : Option Json × Option Json) : Effect :=
        .audit (passedCall request.route provider ctx usage)
      if ((payload.get? "stream".toList).getD .null).truthy then
        -- the token map is resolved before the handler returns
        match vault.streamDetokenizerPrepared st.store ctx.sessionId with
        | none => (.serverError, [], st)
        | some detok => (.streaming sanitized detok ctx, [], st)
      else match complete sanitized with
      | .raises => (.serverError, [.complete sanitized], st)
      | .providerError statusCode message =>
        (.json statusCode (errorBody message "provider_error".toList),
          [.complete sanitized, audited (none, none)], st)
      | .ok completion =>
        match RedactionPipeline.reinflate vault st completion ctx with
        | none => (.serverError, [.complete sanitized], st)
        | some reinflated =>
          (.json 200 reinflated, [.complete sanitized, audited (usage reinflated)], st)

/-- The provider is called, or will be by the generator of a streaming response. -/
def InvokesProvider (outcome : Response Score × List Effect × VaultState) : Prop :=
  (∃ payload, .complete payload ∈ outcome.2.1) ∨
    ∃ sanitized detok ctx, outcome.1 = .streaming sanitized detok ctx

end RedactGate
