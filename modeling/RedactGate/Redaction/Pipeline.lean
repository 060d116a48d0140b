import RedactGate.Redaction.Detect
import RedactGate.Redaction.Normalize
import RedactGate.Redaction.Policy
import RedactGate.Redaction.Vault
import RedactGate.Schemas.OpenAI

/-!
# Redaction pipeline

One request: extract the texts, normalize them, detect, filter and evaluate the policy
over the types of all texts, tokenize every text under one session and rebuild the
payload.
-/
namespace RedactGate

open Library

variable {Score : Type} [LinearOrder Score]

structure PipelineContext (Score : Type) where
  sessionId : Text
  entityCounts : Dict Text Nat
  blocked : Bool
  spans : List (EntitySpan Score)

/-- What `sanitize_request` raises: an error of the walk over the payload, or the policy's hard
block. -/
inductive RequestError where
  | walk (e : WalkError)
  | hardBlock (e : HardBlockError)
  deriving DecidableEq

/-- `_count_types`. -/
def countTypes (spans : List (EntitySpan Score)) : Dict Text Nat :=
  spans.foldl (fun out sp => out.set sp.entityType ((out.get? sp.entityType).getD 0 + 1)) Dict.empty

namespace RedactionPipeline

variable (unicode : Unicode) (vault : Vault)

/-- The texts of a payload, as they are detected on. -/
def texts (payload : Fields) : Except WalkError (List Text) :=
  (extractTexts payload).map (·.map (normalizeText unicode))

/-- The spans to redact in each text, given what the passes report for the text of each
index. -/
def filtered (decision : PolicyDecision) (passes : Nat → PassResults Score) (texts : List Text) :
    List (List (EntitySpan Score)) :=
  texts.mapIdx fun i text => filterSpans decision (Detector.detect text (passes i)).spans

/-- The loop that tokenizes each text under the session; a text without spans is left as it is, and
the vault is not called. -/
def tokenizeTexts (sessionId : Text) :
    List (Text × List (EntitySpan Score)) → VaultState → List Text × VaultState
  | [], st => ([], st)
  | (text, spans) :: rest, st =>
    let (out, st) := if spans.isEmpty then (text, st) else vault.tokenize st text spans sessionId
    let (outs, st) := tokenizeTexts sessionId rest st
    (out :: outs, st)

/-- `sanitize_request`, under the session id that `create_session` mints: the payload as it is to be
sent, or what was raised. -/
def sanitizeRequest (decision : PolicyDecision) (passes : Nat → PassResults Score)
    (payload : Fields) (sessionId : Text) (st : VaultState) :
    Except RequestError (Fields × PipelineContext Score) × VaultState :=
  match texts unicode payload with
  | .error e => (.error (.walk e), st)
  | .ok texts =>
    let ctx : PipelineContext Score := ⟨sessionId, Dict.empty, false, []⟩
    -- the early return: the policy is not evaluated
    if texts.isEmpty then (.ok (payload, ctx), st)
    else
      let filtered := filtered decision passes texts
      let allSpans := filtered.flatten
      -- the policy sees the types of the spans that merging and its own filter have left
      match evaluate decision (allSpans.map EntitySpan.entityType) with
      | .error e => (.error (.hardBlock e), st)
      | .ok () =>
        let (sanitizedTexts, st) := tokenizeTexts vault sessionId (texts.zip filtered) st
        match injectTexts payload sanitizedTexts with
        | .error e => (.error (.walk e), st)
        | .ok sanitized =>
          (.ok (sanitized, { ctx with spans := allSpans, entityCounts := countTypes allSpans }), st)

variable {unicode vault} {decision : PolicyDecision} {passes : Nat → PassResults Score}
  {payload : Fields} {sessionId : Text} {st : VaultState}

/-- A payload without texts is returned as it is. -/
theorem sanitizeRequest_no_texts (extracted : extractTexts payload = .ok []) :
    sanitizeRequest unicode vault decision passes payload sessionId st =
      (.ok (payload, ⟨sessionId, Dict.empty, false, []⟩), st) := by
  rw [sanitizeRequest, texts, extracted]
  rfl

omit [LinearOrder Score] in
theorem tokenizeTexts_reachable (sessionId : Text) (jobs : List (Text × List (EntitySpan Score))) :
    ∀ {st : VaultState}, vault.Reachable st →
      vault.Reachable (tokenizeTexts vault sessionId jobs st).2 := by
  induction jobs with
  | nil => exact fun reachable => reachable
  | cons job jobs ih =>
    intro st reachable
    rw [tokenizeTexts]
    by_cases none : job.2.isEmpty
    · simp only [none, if_true]
      exact ih reachable
    · simp only [none]
      exact ih (.tokenize _ _ _ reachable)

/-- Whatever becomes of a request, blocked, failed or passed on, the tokens of the state that it
leaves were written by calls of `tokenize`. -/
theorem sanitizeRequest_reachable (reachable : vault.Reachable st) :
    vault.Reachable
      (sanitizeRequest unicode vault decision passes payload sessionId st).2 := by
  unfold sanitizeRequest
  split
  next => exact reachable
  next texts _ =>
    dsimp only
    split
    next => exact reachable
    next =>
      split
      next => exact reachable
      next =>
        have written := tokenizeTexts_reachable sessionId
          (texts.zip (filtered decision passes texts)) reachable
        split <;> exact written

/-- The types that the policy is evaluated over. -/
def detectedTypes (decision : PolicyDecision) (passes : Nat → PassResults Score)
    (texts : List Text) : List Text :=
  (filtered decision passes texts).flatten.map EntitySpan.entityType

/-- A policy that raises over the types of the texts ends the request before anything is tokenized. -/
theorem sanitizeRequest_blocked {raw : List Text} (extracted : extractTexts payload = .ok raw)
    (some : raw ≠ []) {e : HardBlockError}
    (blocked : evaluate decision (detectedTypes decision passes (raw.map (normalizeText unicode))) =
      .error e) :
    sanitizeRequest unicode vault decision passes payload sessionId st =
      (.error (.hardBlock e), st) := by
  rw [detectedTypes] at blocked
  rw [sanitizeRequest, texts, extracted]
  simp only [Except.map, List.isEmpty_map, List.isEmpty_iff, some, if_false, blocked]

/-- A request with texts over which the policy does not raise: its texts are normalized, tokenized
by the spans that are kept, and put back into the payload. -/
theorem sanitizeRequest_passed {raw : List Text} (extracted : extractTexts payload = .ok raw)
    (some : raw ≠ [])
    (passed : evaluate decision (detectedTypes decision passes (raw.map (normalizeText unicode))) =
      .ok ()) :
    sanitizeRequest unicode vault decision passes payload sessionId st =
      let texts := raw.map (normalizeText unicode)
      let spans := filtered decision passes texts
      let tokenized := tokenizeTexts vault sessionId (texts.zip spans) st
      match injectTexts payload tokenized.1 with
      | .error e => (.error (.walk e), tokenized.2)
      | .ok sanitized => (.ok (sanitized, ⟨sessionId, countTypes spans.flatten, false,
          spans.flatten⟩), tokenized.2) := by
  rw [detectedTypes] at passed
  rw [sanitizeRequest, texts, extracted]
  simp only [Except.map, List.isEmpty_map, List.isEmpty_iff, some, if_false, passed]

/-- The place of the assistant's text in a completion. -/
def completionText : Json.Path :=
  [.key "choices".toList, .index 0, .key "message".toList, .key "content".toList]

/-- The string that `detokenize` looks for first. -/
def isOpening : Json → Bool
  | .str text => text == ['[', '[']
  | _ => false

/-- `detokenize` on any JSON value: the test for `[[` is also defined for lists and
dictionaries, which are returned when they do not contain it. -/
def detokenizeJson (vault : Vault) (st : VaultState) (sessionId : Text) : Json → Option Json
  | .str text => (vault.detokenize st.store text sessionId).map .str
  | .arr items => if items.any isOpening then none else some (.arr items)
  | .obj fields => if Fields.hasKey fields ['[', '['] then none else some (.obj fields)
  | _ => none

/-- `reinflate`: the text of the first choice is detokenized. A completion that has no such place is
left alone; `none` if it raises. -/
def reinflate (vault : Vault) (st : VaultState) (completion : Json) (ctx : PipelineContext Score) :
    Option Json :=
  match completion.at? completionText with
  | none => some completion
  | some content =>
    if content.truthy then
      (detokenizeJson vault st ctx.sessionId content).map (completion.setAt completionText ·)
    else some completion

end RedactionPipeline

end RedactGate
