import RedactGate.Redaction.SessionViews
import RedactGate.Routes.Stream

/-!
# Requests that share a store

Requests are served one after the other on one store, each in a session of its own; the
generator of a streaming response may run when other requests have been served.
-/
namespace RedactGate

open Library

variable {Score : Type} [LinearOrder Score]

/-- A request in its session, with the policy and the provider that it is served with, and the
client that waits for the answer. -/
structure Exchange (Score : Type) where
  decision : PolicyDecision
  provider : Text
  upstream : Upstream
  client : Client
  request : Request Score

/-- What is answered to a request, what a generator yields for it and what calls are made. -/
structure Outcome (Score : Type) where
  response : Response Score
  items : List SseItem
  effects : List Effect

namespace Exchange

variable (unicode : Unicode) (vault : Vault)

def sessionId (x : Exchange Score) : Text := x.request.sessionId

def handled (x : Exchange Score) (st : VaultState) :
    Response Score × List Effect × VaultState :=
  handle unicode vault x.decision x.provider x.upstream.complete x.request st

/-- The exchange from the request to the end of its generator, which finds the store as it is by
then. -/
def outcome (x : Exchange Score) (st : VaultState) (later : InMemoryTokenStore) : Outcome Score :=
  match x.handled unicode vault st with
  | (.streaming sanitized detok ctx, effects, _) =>
    let (received, ending) := x.upstream.stream sanitized
    ⟨.streaming sanitized detok ctx, (streamResponse vault later detok received ending).items,
      effects ++ streamEffects vault later x.upstream x.client x.request.route x.provider
        sanitized detok ctx⟩
  | (response, effects, _) => ⟨response, [], effects⟩

/-- The state after all of them. -/
def serveAll (xs : List (Exchange Score)) (st : VaultState) : VaultState :=
  xs.foldl (fun st x => (x.handled unicode vault st).2.2) st

variable {unicode vault} {x : Exchange Score} {st st' : VaultState}

/-- The state that a request leaves is the one it found, if it never comes to the pipeline, or else
the one that its rewriting leaves. -/
theorem handled_state (x : Exchange Score) (st : VaultState) :
    (x.handled unicode vault st).2.2 = st ∨ ∃ payload, (x.handled unicode vault st).2.2 =
      (RedactionPipeline.sanitizeRequest unicode vault x.decision x.request.passes payload
        x.sessionId st).2 := by
  unfold handled handle
  split
  · exact .inl rfl
  · split
    · exact .inl rfl
    · next payload _ =>
      refine .inr ⟨payload, ?_⟩
      rw [sessionId]
      split
      · next rewritten => rw [rewritten]
      · next rewritten => rw [rewritten]
      · next rewritten =>
        rw [rewritten]
        dsimp only
        split
        · split <;> rfl
        · split
          · rfl
          · rfl
          · split <;> rfl

end Exchange

end RedactGate
