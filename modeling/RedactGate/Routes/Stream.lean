import RedactGate.Routes.Proxy

/-!
# Streaming route

The generator of a streaming response, run after the handler has returned: every chunk
of the provider is passed on with its delta re-inflated, the buffered tail follows, and
the audit call is made once the generator has run to its end.
-/
namespace RedactGate

open Library

variable {Score : Type} [LinearOrder Score]

/-- How `provider.stream` ends after its last chunk: by itself, with a `ProviderError`, or with
anything else. -/
inductive StreamEnd where
  | ends
  | providerError (message : Text)
  | raises
  deriving DecidableEq

/-- What the provider does with a request of either kind. -/
structure Upstream where
  complete : Fields → Completion
  stream : Fields → List Json × StreamEnd

/-- The caller reads a stream to its end, or goes away at one of its items: at the one
with this number, or at the last one if there are fewer. -/
inductive Client where
  | reads
  | leaves (item : Nat)
  deriving DecidableEq

inductive SseItem where
  | chunk (content : Json)
  | done

/-- What `_stream_response` yields, and whether it gets past its `finally`. -/
structure Streamed where
  items : List SseItem
  finished : Bool

/-- The place of the incremental text in a chunk. -/
def deltaText : Json.Path :=
  [.key "choices".toList, .index 0, .key "delta".toList, .key "content".toList]

/-- The chunk that carries the tail that was held back, as a delta of the first choice. -/
def tailChunk (tail : Text) : Json :=
  .obj [("object".toList, .str "chat.completion.chunk".toList),
    ("choices".toList, .arr [.obj [("index".toList, .number 0),
      ("delta".toList, .obj [("content".toList, .str tail)]),
      ("finish_reason".toList, .null)]])]

section

variable (vault : Vault) (store : InMemoryTokenStore)

/-- The body of the `async for`: the chunk with what its delta becomes, or as it is if it has none;
`none` if `push` raises. -/
def streamChunk (detok : StreamDetokenizer) (chunk : Json) : Option (Json × StreamDetokenizer) :=
  match chunk.at? deltaText with
  | none => some (chunk, detok)
  | some delta =>
    if delta.truthy then
      match delta with
      | .str text => (detok.push vault store text).map fun (out, detok) =>
          (chunk.setAt deltaText (.str out), detok)
      -- a buffer takes strings only
      | _ => none
    else some (chunk, detok)

/-- The `async for` over the chunks that are received: those that are yielded, and the detokenizer,
unless a push raised. -/
def streamChunks (detok : StreamDetokenizer) : List Json → List Json × Option StreamDetokenizer
  | [] => ([], some detok)
  | chunk :: chunks =>
    match streamChunk vault store detok chunk with
    | none => ([], none)
    | some (out, detok) =>
      let (outs, detok) := streamChunks detok chunks
      (out :: outs, detok)

/-- The `try` with its handler: the chunks yielded, and whether it ended without an
exception. -/
def streamBody (detok : StreamDetokenizer) (received : List Json) (ending : StreamEnd) :
    List Json × Bool :=
  match streamChunks vault store detok received, ending with
  | (outs, none), _ => (outs, false)
  | (outs, some detok), .ends =>
    match detok.flush vault store with
    | none => (outs, false)
    | some (tail, _) => (if tail.isEmpty then outs else outs ++ [tailChunk tail], true)
  -- the handler yields an error chunk and does not flush
  | (outs, some _), .providerError message =>
    (outs ++ [errorBody message "provider_error".toList], true)
  | (outs, some _), .raises => (outs, false)

/-- `_stream_response`, read to the end: the chunks that are yielded and the closing mark. -/
def streamResponse (detok : StreamDetokenizer) (received : List Json) (ending : StreamEnd) :
    Streamed :=
  let (outs, finished) := streamBody vault store detok received ending
  ⟨outs.map .chunk ++ [.done], finished⟩

/-- The calls of the generator. Where the caller goes away the generator is closed at a
`yield`, so the code behind the `finally` is not reached. -/
def streamEffects (upstream : Upstream) (client : Client) (route provider : Text)
    (sanitized : Fields) (detok : StreamDetokenizer) (ctx : PipelineContext Score) : List Effect :=
  let (received, ending) := upstream.stream sanitized
  let streamed := streamResponse vault store detok received ending
  if client = .reads && streamed.finished then
    [.stream sanitized, .audit (passedCall route provider ctx (none, none))]
  else [.stream sanitized]

end

/-! ## When the generator gets past its `finally` -/

/-- The delta of the chunk is a string, if there is anything in it. -/
def TextDelta (chunk : Json) : Prop :=
  ∀ delta, chunk.at? deltaText = some delta → delta.truthy = true → ∃ text, delta = .str text

variable {vault : Vault} {store : InMemoryTokenStore} {detok : StreamDetokenizer}
  {g : Text → Option Text}

theorem streamChunk_cases (resolves : StreamDetokenizer.Substitutes vault store detok g)
    (chunk : Json) :
    (∃ out buffer, streamChunk vault store detok chunk =
        some (out, { detok with buffer := buffer }) ∧ TextDelta chunk) ∨
      streamChunk vault store detok chunk = none ∧ ¬TextDelta chunk := by
  rw [streamChunk]
  cases found : chunk.at? deltaText with
  | none => exact .inl ⟨chunk, detok.buffer, rfl, by simp [TextDelta, found]⟩
  | some delta =>
    by_cases truthy : delta.truthy = true
    · simp only [truthy, if_true]
      cases delta with
      | str text =>
        simp only [StreamDetokenizer.push_eq resolves text, Option.map_some]
        exact .inl ⟨_, _, rfl, by simp [TextDelta, found]⟩
      | _ => exact .inr ⟨rfl, by simp [TextDelta, found, truthy]⟩
    · exact .inl ⟨chunk, detok.buffer, by simp [truthy], by simp [TextDelta, found, truthy]⟩

/-- The loop over the received chunks goes to its end if every delta is a string, and it is left by
an exception of `push` exactly if some delta is not. -/
theorem streamChunks_cases (received : List Json) : ∀ {detok : StreamDetokenizer},
    StreamDetokenizer.Substitutes vault store detok g →
      (∃ outs buffer, streamChunks vault store detok received =
          (outs, some { detok with buffer := buffer }) ∧ ∀ chunk ∈ received, TextDelta chunk) ∨
        ∃ outs, streamChunks vault store detok received = (outs, none) ∧
          ¬∀ chunk ∈ received, TextDelta chunk := by
  induction received with
  | nil => exact fun _ => .inl ⟨[], _, rfl, by simp⟩
  | cons chunk received ih =>
    intro detok resolves
    rw [streamChunks]
    rcases streamChunk_cases resolves chunk with ⟨out, buffer, eq, text⟩ | ⟨eq, other⟩
    · have resolves' : StreamDetokenizer.Substitutes vault store
          { detok with buffer := buffer } g := resolves
      rcases ih resolves' with ⟨outs, buffer', rest, texts⟩ | ⟨outs, rest, other⟩
      · exact .inl ⟨out :: outs, buffer', by simp [eq, rest],
          List.forall_mem_cons.mpr ⟨text, texts⟩⟩
      · exact .inr ⟨out :: outs, by simp [eq, rest],
          fun all => other fun c member => all c (List.mem_cons_of_mem _ member)⟩
    · exact .inr ⟨[], by simp [eq], fun all => other (all chunk List.mem_cons_self)⟩

/-- A detokenizer that resolves by substitution is flushed without an exception, and its buffer is
empty then. -/
theorem flush_isSome (resolves : StreamDetokenizer.Substitutes vault store detok g) :
    ∃ tail, detok.flush vault store = some (tail, { detok with buffer := [] }) ∧
      tail = substitute placeholderAt g detok.buffer := by
  rw [StreamDetokenizer.flush]
  split
  next empty =>
    obtain ⟨sessionId, resolved, buffer⟩ := detok
    obtain rfl : buffer = [] := List.isEmpty_iff.mp empty
    exact ⟨[], rfl, (substitute_nil).symm⟩
  next => exact ⟨_, by rw [resolves detok.buffer detok.buffer]; rfl, rfl⟩

theorem streamResponse_finished_iff (resolves : StreamDetokenizer.Substitutes vault store detok g)
    (received : List Json) (ending : StreamEnd) :
    (streamResponse vault store detok received ending).finished = true ↔
      ending ≠ .raises ∧ ∀ chunk ∈ received, TextDelta chunk := by
  unfold streamResponse streamBody
  rcases streamChunks_cases received resolves with ⟨outs, buffer, eq, texts⟩ | ⟨outs, eq, other⟩
  · have resolves' : StreamDetokenizer.Substitutes vault store
        { detok with buffer := buffer } g := resolves
    obtain ⟨tail, flushed, _⟩ := flush_isSome resolves'
    have finished : ending ≠ .raises ↔ ending ≠ .raises ∧ ∀ chunk ∈ received, TextDelta chunk :=
      (and_iff_left texts).symm
    rw [← finished, eq]
    cases ending with
    | ends => simp [flushed]
    | providerError message => simp
    | raises => simp
  · have unfinished : ¬(ending ≠ .raises ∧ ∀ chunk ∈ received, TextDelta chunk) :=
      fun both => other both.2
    simp [eq, unfinished]

/-- A request from the handler to the end of its generator, with the calls to the provider and to
the audit log that it makes. -/
def serve (unicode : Unicode) (vault : Vault) (decision : PolicyDecision) (provider : Text)
    (upstream : Upstream) (client : Client) (request : Request Score) (st : VaultState) :
    List Effect :=
  match handle unicode vault decision provider upstream.complete request st with
  | (.streaming sanitized detok ctx, effects, st) =>
    effects ++
      streamEffects vault st.store upstream client request.route provider sanitized detok ctx
  | (_, effects, _) => effects

end RedactGate
