import RedactGate.Redaction.Replacements
import RedactGate.Routes.Exchanges

/-!
# Isolation of sessions

Requests share a store, each in a session of its own. What becomes of a request is what would
become of it on an empty store, with the draws that come next, whatever was stored before; and
what its placeholders stand for stays as it was, whatever is stored afterwards.
-/
namespace RedactGate

open Library RedactionPipeline

variable {Score : Type} [LinearOrder Score] {unicode : Unicode} {vault : Vault}
  {st st' : VaultState}

/-! ## Streams -/

section

variable {detok detok' : StreamDetokenizer} {later later' : InMemoryTokenStore}

/-- A snapshot is read in place of the store. -/
theorem resolve_snapshot (snapshot : detok.resolved.isSome) (text : Text) :
    detok.resolve vault later text = detok.resolve vault later' text := by
  obtain ⟨resolved, eq⟩ := Option.isSome_iff_exists.mp snapshot
  rw [StreamDetokenizer.resolve, StreamDetokenizer.resolve, eq]

theorem push_snapshot (snapshot : detok.resolved.isSome) (chunk : Text) :
    detok.push vault later chunk = detok.push vault later' chunk := by
  unfold StreamDetokenizer.push
  dsimp only
  split
  · rfl
  · exact congrArg (Option.map _) (resolve_snapshot snapshot _)

theorem flush_snapshot (snapshot : detok.resolved.isSome) :
    detok.flush vault later = detok.flush vault later' := by
  unfold StreamDetokenizer.flush
  rw [@resolve_snapshot vault _ later later' snapshot]

/-- A push changes the buffer of a detokenizer alone, and not what its placeholders resolve to. -/
theorem resolved_of_push {chunk out : Text}
    (pushed : detok.push vault later chunk = some (out, detok')) :
    detok'.resolved = detok.resolved := by
  unfold StreamDetokenizer.push at pushed
  dsimp only at pushed
  split at pushed
  · cases pushed
    rfl
  · obtain ⟨_, _, same⟩ := Option.map_eq_some_iff.mp pushed
    cases same
    rfl

theorem streamChunk_snapshot (snapshot : detok.resolved.isSome) (chunk : Json) :
    streamChunk vault later detok chunk = streamChunk vault later' detok chunk ∧
      ∀ out detok', streamChunk vault later detok chunk = some (out, detok') →
        detok'.resolved = detok.resolved := by
  unfold streamChunk
  cases chunk.at? deltaText with
  | none =>
    refine ⟨rfl, fun out detok' same => ?_⟩
    cases same
    rfl
  | some delta =>
    by_cases truthy : delta.truthy = true
    · simp only [truthy, if_true]
      cases delta with
      | str text =>
        refine ⟨congrArg (Option.map _) (push_snapshot snapshot text), fun out detok' same => ?_⟩
        obtain ⟨pushed, eq, same⟩ := Option.map_eq_some_iff.mp same
        cases same
        exact resolved_of_push eq
      | _ => exact ⟨rfl, fun _ _ same => by cases same⟩
    · simp only [truthy]
      refine ⟨rfl, fun out detok' same => ?_⟩
      cases same
      rfl

theorem streamChunks_snapshot (received : List Json) : ∀ {detok : StreamDetokenizer},
    detok.resolved.isSome →
      streamChunks vault later detok received = streamChunks vault later' detok received ∧
      ∀ detok', (streamChunks vault later detok received).2 = some detok' →
        detok'.resolved.isSome := by
  induction received with
  | nil =>
    intro detok snapshot
    refine ⟨rfl, fun detok' same => ?_⟩
    cases same
    exact snapshot
  | cons chunk received ih =>
    intro detok snapshot
    obtain ⟨same, kept⟩ := @streamChunk_snapshot vault detok later later' snapshot chunk
    rw [streamChunks, streamChunks, ← same]
    cases read : streamChunk vault later detok chunk with
    | none => exact ⟨rfl, fun _ same => by cases same⟩
    | some result =>
      obtain ⟨out, detok'⟩ := result
      obtain ⟨rest, kept'⟩ := ih (kept out detok' read ▸ snapshot)
      exact ⟨by simp only [rest], kept'⟩

/-- The generator of a prepared stream resolves through its snapshot and does not look at the store,
so that what other requests write meanwhile makes no difference. -/
theorem streamResponse_snapshot (snapshot : detok.resolved.isSome) (received : List Json)
    (ending : StreamEnd) :
    streamResponse vault later detok received ending =
      streamResponse vault later' detok received ending := by
  obtain ⟨same, kept⟩ := @streamChunks_snapshot vault later later' received detok snapshot
  unfold streamResponse streamBody
  rw [← same]
  generalize streamChunks vault later detok received = result at kept
  obtain ⟨outs, rest⟩ := result
  cases rest with
  | none => rfl
  | some detok' =>
    cases ending with
    | ends => simp only [@flush_snapshot vault detok' later later' (kept detok' rfl)]
    | providerError message => rfl
    | raises => rfl

end

/-! ## One request -/

omit [LinearOrder Score] in
theorem SameView.reinflate {ctx : PipelineContext Score}
    (view : SameView vault ctx.sessionId st st') (completion : Json) :
    RedactionPipeline.reinflate vault st' completion ctx =
      RedactionPipeline.reinflate vault st completion ctx := by
  have read (content : Json) : detokenizeJson vault st' ctx.sessionId content =
      detokenizeJson vault st ctx.sessionId content := by
    cases content with
    | str text => exact congrArg (Option.map Json.str) (view.detokenize text)
    | _ => rfl
  unfold RedactionPipeline.reinflate
  cases completion.at? completionText with
  | none => rfl
  | some content => simp only [read]

namespace Exchange

variable {x : Exchange Score}

/-- A request is answered in the same way in states that are alike for its session, and the states
that it leaves are alike for the session again. -/
theorem handled_congr (laws : AesGcmLaws vault.crypto) (alike : Alike vault x.sessionId st st') :
    (x.handled unicode vault st').1 = (x.handled unicode vault st).1 ∧
      (x.handled unicode vault st').2.1 = (x.handled unicode vault st).2.1 := by
  have lockstep : Lockstep vault x.sessionId (Alike vault x.sessionId) :=
    fun st st' entityType value alike => alike.placeholderOf laws entityType value
  unfold handled handle
  -- a body that does not parse, then one that is refused, reach no session
  split
  · exact ⟨rfl, rfl⟩
  · split
    · exact ⟨rfl, rfl⟩
    · next payload _ =>
      obtain ⟨same, next⟩ := lockstep.sanitizeRequest unicode x.decision x.request.passes payload
        alike
      have session {sanitized : Fields} {ctx : PipelineContext Score} :=
        @sessionId_of_sanitizeRequest Score vault x.sessionId st _ unicode x.decision
          x.request.passes payload sanitized ctx
      rw [sessionId] at same next session
      generalize sanitizeRequest unicode vault x.decision x.request.passes payload
        x.request.sessionId st = result at same next session
      generalize sanitizeRequest unicode vault x.decision x.request.passes payload
        x.request.sessionId st' = result' at same next
      obtain ⟨rewritten, st₁⟩ := result
      obtain ⟨rewritten', st₁'⟩ := result'
      obtain rfl : rewritten' = rewritten := same
      cases rewritten' with
      | error failure =>
        cases failure with
        | walk _ => exact ⟨rfl, rfl⟩
        | hardBlock _ => exact ⟨rfl, rfl⟩
      | ok made =>
        obtain ⟨sanitized, ctx⟩ := made
        -- what is left reads the session's own records only
        have view : SameView vault ctx.sessionId st₁ st₁' := by
          rw [session rfl]
          exact next.view
        dsimp only
        rw [view.prepared]
        simp only [view.reinflate]
        split
        · split <;> exact ⟨rfl, rfl⟩
        · split
          · exact ⟨rfl, rfl⟩
          · exact ⟨rfl, rfl⟩
          · split <;> exact ⟨rfl, rfl⟩

theorem snapshot_of_handled {sanitized : Fields} {detok : StreamDetokenizer}
    {ctx : PipelineContext Score}
    (streams : (x.handled unicode vault st).1 = .streaming sanitized detok ctx) :
    detok.resolved.isSome := by
  unfold handled handle at streams
  dsimp only at streams
  split at streams
  · cases streams
  · split at streams
    · cases streams
    · split at streams
      · cases streams
      · cases streams
      · split at streams
        · split at streams
          · cases streams
          · next prepared =>
            cases streams
            obtain ⟨_, _, rfl⟩ := Option.map_eq_some_iff.mp prepared
            rfl
        · split at streams
          · cases streams
          · cases streams
          · split at streams <;> cases streams

theorem outcome_congr (laws : AesGcmLaws vault.crypto) (alike : Alike vault x.sessionId st st')
    (later later' : InMemoryTokenStore) :
    x.outcome unicode vault st' later' = x.outcome unicode vault st later := by
  obtain ⟨response, effects⟩ := x.handled_congr laws alike
  have snapshot {sanitized : Fields} {detok : StreamDetokenizer} {ctx : PipelineContext Score} :=
    @snapshot_of_handled Score _ unicode vault st x sanitized detok ctx
  unfold outcome
  generalize x.handled unicode vault st = result at response effects snapshot
  generalize x.handled unicode vault st' = result' at response effects
  obtain ⟨answer, calls, _⟩ := result
  obtain ⟨answer', calls', _⟩ := result'
  obtain rfl : answer' = answer := response
  obtain rfl : calls' = calls := effects
  cases answer' with
  | json statusCode content => rfl
  | serverError => rfl
  | streaming sanitized detok ctx =>
    have same (received : List Json) (ending : StreamEnd) :=
      @streamResponse_snapshot vault detok later' later (snapshot rfl) received ending
    simp only [streamEffects, same]

/-- Handling a request of another session leaves everything as it was that requests of this session
can see. -/
theorem view_handled (laws : AesGcmLaws vault.crypto) {sessionId : Text}
    (view : SameView vault sessionId st st') {y : Exchange Score}
    (apart : y.sessionId ≠ sessionId) :
    SameView vault sessionId st (y.handled unicode vault st').2.2 := by
  rcases y.handled_state st' with same | ⟨payload, same⟩
  · rw [same]
    exact view
  · have lockstep : Lockstep vault y.sessionId fun a b =>
        a = b ∧ SameView vault sessionId st b := by
      rintro a _ entityType value ⟨rfl, view⟩
      exact ⟨rfl, rfl, view.placeholderOf laws apart entityType value⟩
    rw [same]
    exact (lockstep.sanitizeRequest unicode y.decision y.request.passes payload ⟨rfl, view⟩).2.2

theorem view_serveAll (laws : AesGcmLaws vault.crypto) {sessionId : Text}
    {xs : List (Exchange Score)} (apart : ∀ y ∈ xs, y.sessionId ≠ sessionId)
    (view : SameView vault sessionId st st') :
    SameView vault sessionId st (serveAll unicode vault xs st') := by
  induction xs generalizing st' with
  | nil => exact view
  | cons y ys ih =>
    obtain ⟨here, others⟩ := List.forall_mem_cons.mp apart
    exact ih others (view_handled laws view here)

theorem handled_reachable (reachable : vault.Reachable st) :
    vault.Reachable (x.handled unicode vault st).2.2 := by
  rcases x.handled_state  st with same | ⟨payload, same⟩
  · rw [same]
    exact reachable
  · rw [same]
    exact sanitizeRequest_reachable reachable

theorem serveAll_reachable (xs : List (Exchange Score)) (reachable : vault.Reachable st) :
    vault.Reachable (serveAll unicode vault xs st) := by
  induction xs generalizing st with
  | nil => exact reachable
  | cons y ys ih => exact ih (handled_reachable reachable)

theorem refines_empty (vault : Vault) (draws : Nat) :
    Refines vault ⟨[], draws, 0⟩ ⟨.empty, draws, 0⟩ := ⟨represents_empty, rfl, rfl⟩

/-- In every run of requests, each in a session of its own, a request gets what it would get of an
empty store at the same draws, also while its stream is read from any later store; and later
requests leave what its placeholders stand for. -/
theorem outcome_isolated (unicode : Unicode) (vault : Vault) (laws : AesGcmLaws vault.crypto)
    (draws : Nat) (earlier more : List (Exchange Score)) (x : Exchange Score)
    (apart : ∀ y ∈ earlier ++ more, y.sessionId ≠ x.sessionId)
    (later later' : InMemoryTokenStore) :
    let st := serveAll unicode vault earlier ⟨.empty, draws, 0⟩
    let after := (x.handled unicode vault st).2.2
    x.outcome unicode vault st later =
        x.outcome unicode vault ⟨.empty, st.draws, 0⟩ later' ∧
      ∀ text, vault.detokenize (serveAll unicode vault more after).store text x.sessionId =
        vault.detokenize after.store text x.sessionId := by
  intro st after
  obtain ⟨before, afterwards⟩ := List.forall_mem_append.mp apart
  constructor
  · obtain ⟨ledger, ledger', refines, refines', same⟩ :=
      view_serveAll laws before (.refl (refines_empty vault draws))
    have empty : ledger.issues = [] := List.eq_nil_of_length_eq_zero refines.store.length.symm
    rw [empty] at same
    have alike : Alike vault x.sessionId ⟨.empty, st.draws, 0⟩ st :=
      ⟨⟨_, ledger', refines_empty vault st.draws, refines', same⟩, rfl⟩
    exact outcome_congr laws alike later' later
  · have reachable : vault.Reachable after :=
      handled_reachable (serveAll_reachable earlier (.fresh draws))
    obtain ⟨ledger, _, refines⟩ := reachable_refines laws reachable
    exact fun text => (view_serveAll laws afterwards (.refl refines)).detokenize text

/-! ## Two sessions -/

/-- A message about Ann, in the session of the given name, to a provider that answers with the
placeholder of a person. -/
def aboutAnn (sessionId : String) : Exchange ℚ where
  decision := policyOf .tokenize []
  provider := "mock".toList
  upstream := ⟨fun _ => .ok (.obj [("choices".toList, .arr [.obj [("message".toList,
    .obj [("content".toList, .str "Hi [[PERSON_000000]]".toList)])]])]), fun _ => ([], .ends)⟩
  client := .reads
  request := ⟨"/v1/chat/completions".toList, some (.obj (oneMessage "Hi Ann".toList)),
    namedBy "Hi Ann".toList [("Ann".toList, "PERSON".toList)], sessionId.toList⟩

/-- The answer to the second request has a placeholder in it that the first session was issued, and
it is left as it is. -/
theorem outcome_isolated_ann :
    (aboutAnn "s2").outcome .ascii sampleVault
        (serveAll .ascii sampleVault [aboutAnn "s1"] ⟨.empty, 0, 0⟩) .empty =
      (aboutAnn "s2").outcome .ascii sampleVault ⟨.empty, 2, 0⟩ .empty := by
  have draws : (serveAll .ascii sampleVault [aboutAnn "s1"] ⟨.empty, 0, 0⟩).draws = 2 := by
    decide +kernel
  have isolated := (outcome_isolated .ascii sampleVault sampleVault_aesGcm 0 [aboutAnn "s1"] []
    (aboutAnn "s2") (by decide +kernel) .empty .empty).1
  rwa [draws] at isolated

end Exchange

end RedactGate
