import RedactGate.Properties.Reinflation
import RedactGate.Properties.Reversibility
import RedactGate.Redaction.Mentions
import RedactGate.Redaction.Replacements
import RedactGate.Routes.Exchanges
import RedactGate.Routes.StreamDeltas

/-!
# Texts that the provider gives back

The provider is sent placeholders for the values of a request. If it says one of the texts it was
sent, the client reads the text it had written, whether the answer comes at once or as a stream.
-/
namespace RedactGate

open Library RedactionPipeline

variable {Score : Type}

/-! ## The texts of one request -/

section

variable {vault : Vault} {sessionId : Text} {jobs : List (Text × List (EntitySpan Score))}

/-- The type and value of a span of one of the texts. -/
def SpannedIn (jobs : List (Text × List (EntitySpan Score))) (entityType value : Text) : Prop :=
  ∃ job ∈ jobs, Ledger.Spanned job.1 job.2 entityType value

/-- Each text is patched with placeholders that cover its values, also when the texts after it
have been rewritten. -/
theorem tokenizeTexts_patched (laws : AesGcmLaws vault.crypto)
    (placed : ∀ job ∈ jobs, Placed job.1 job.2) : ∀ {ledger : Ledger} {st : VaultState},
      Refines vault ledger st → ∃ after,
        Refines vault after (tokenizeTexts vault sessionId jobs st).2 ∧
        Ledger.Extends vault.fingerprint vault.urandom sessionId (SpannedIn jobs) ledger after ∧
        ∀ (i : Nat) job out, jobs[i]? = some job →
          (tokenizeTexts vault sessionId jobs st).1[i]? = some out →
          ∃ edits, out = Edit.patch job.1 0 edits ∧ Edit.Ordered job.1 0 edits ∧
            ∀ e ∈ edits, ∃ span ∈ job.2,
              Ledger.Replaces vault.fingerprint after.issues sessionId job.1 span e := by
  induction jobs with
  | nil => exact fun refines => ⟨_, refines, .refl _ _ _, fun _ _ _ absent => nomatch absent⟩
  | cons job jobs ih =>
    obtain ⟨text, spans⟩ := job
    obtain ⟨here, others⟩ := List.forall_mem_cons.mp placed
    intro ledger st refines
    obtain ⟨text_eq, next⟩ := tokenize_refines laws refines text spans sessionId
    obtain ⟨edits, between, tokenized, ordered, _, extend, _, replaced⟩ :=
      tokenize_eq_patch vault.fingerprint vault.urandom here ledger sessionId
    rw [tokenized] at text_eq next
    obtain ⟨after, refines', extend', patched⟩ := ih others next
    rw [tokenizeTexts_cons]
    -- placeholders that are issued for later texts take none from earlier ones
    refine ⟨after, refines', ?_, fun i job out at_i out_i => ?_⟩
    · refine (extend.mono fun t v spanned => ?_).trans (extend'.mono fun t v spanned => ?_)
      · exact ⟨_, List.mem_cons_self, spanned⟩
      · obtain ⟨job, member, spanned⟩ := spanned
        exact ⟨job, List.mem_cons_of_mem _ member, spanned⟩
    · cases i with
      | zero =>
        obtain rfl : (text, spans) = job := Option.some.inj at_i
        obtain rfl : (vault.tokenize st text spans sessionId).1 = out := Option.some.inj out_i
        refine ⟨edits, text_eq, ordered, fun e member => ?_⟩
        obtain ⟨span, in_spans, start, stop, covers⟩ := replaced e member
        exact ⟨span, in_spans, start, stop, Ledger.Covers.mono extend'.grows covers⟩
      | succ i => exact patched i job out at_i out_i

/-- A request of a session that is new, with types that the reader knows, and without a
look-alike of a placeholder that is put in. -/
structure Sendable (vault : Vault) (sessionId : Text) (jobs : List (Text × List (EntitySpan Score)))
    (st st' : VaultState) : Prop where
  unseen : ∀ r ∈ st.store.records, r.sessionId ≠ sessionId
  typed : ∀ job ∈ jobs, ∀ s ∈ job.2,
    isTypeName s.entityType = true ∧ s.entityType.length ≤ maxTypeLen
  free : st'.exhausted = 0
  lookalikes : ∀ job ∈ jobs, ∀ p, IsPlaceholder p → p <:+: job.1 →
    st'.store.getByPlaceholder sessionId p = none

/-- After a request that may be sent, its session resolves placeholders of at most the stream's
limit only, and each rewritten text reads back as the text it was. -/
theorem Sendable.detokenized (laws : AesGcmLaws vault.crypto) (hmac : HmacInjective vault.crypto)
    {st : VaultState} (reachable : vault.Reachable st)
    (placed : ∀ job ∈ jobs, Placed job.1 job.2)
    (sendable : Sendable vault sessionId jobs st (tokenizeTexts vault sessionId jobs st).2) :
    ∃ issues, Represents vault issues (tokenizeTexts vault sessionId jobs st).2.store ∧
      (∀ p, (Ledger.resolve issues sessionId p).isSome → p.length ≤ maxPlaceholderLen) ∧
      ∀ (i : Nat) job out, jobs[i]? = some job →
        (tokenizeTexts vault sessionId jobs st).1[i]? = some out →
        Ledger.detokenize issues sessionId out = job.1 := by
  obtain ⟨ledger, ledger_reachable, refines⟩ := reachable_refines laws reachable
  obtain ⟨after, refines', extend, patched⟩ :=
    @tokenizeTexts_patched Score vault sessionId jobs laws placed ledger st refines
  have zero : after.exhausted = 0 := refines'.exhausted.symm.trans sendable.free
  have low := extend.counted
  have sound : Ledger.Sound after.issues :=
    extend.sound (by omega) (ledger_reachable.sound (by omega))
  have unseen : ∀ e ∈ ledger.issues, e.sessionId ≠ sessionId := by
    intro e member
    obtain ⟨es, suffix⟩ := exists_suffix_of_mem member
    obtain ⟨r, at_index, record⟩ := refines.store.records e es suffix
    exact record.sessionId ▸ sendable.unseen r (List.mem_of_getElem? at_index)
  -- every issue of the session is for one of the spans
  have typed : ∀ e ∈ after.issues, e.sessionId = sessionId →
      isTypeName e.entityType = true ∧ e.entityType.length ≤ maxTypeLen := by
    intro e member mine
    rcases extend.origin e member with old | ⟨_, ⟨job, in_jobs, span, in_spans, same, _⟩, _⟩
    · exact absurd mine (unseen e old)
    · exact same ▸ sendable.typed job in_jobs span in_spans
  have plain : PlainTypes after.issues sessionId := fun e member mine =>
    colon_not_mem_typeName (typed e member mine).1
  refine ⟨after.issues, refines'.store, fun p known => ?_, fun i job out at_i out_i => ?_⟩
  · rw [Ledger.resolve, Option.isSome_map] at known
    obtain ⟨e, found⟩ := Option.isSome_iff_exists.mp known
    have holds := List.find?_some found
    simp only [Ledger.holds, decide_eq_true_eq] at holds
    have member := List.mem_of_find?_eq_some found
    obtain ⟨tokenHex, token_hex, made⟩ := sound.drawn e member
    have short := (typed e member holds.1).2
    simp only [isTokenHex, Bool.and_eq_true, decide_eq_true_eq] at token_hex
    rw [← holds.2, made, length_makePlaceholder]
    simp only [maxTypeLen, maxPlaceholderLen] at short ⊢
    omega
  · obtain ⟨edits, rfl, ordered, replaced⟩ := patched i job out at_i out_i
    have in_jobs := List.mem_of_getElem? at_i
    have types : ∀ s ∈ job.2, isTypeName s.entityType = true :=
      fun s in_spans => (sendable.typed job in_jobs s in_spans).1
    exact detokenize_patch hmac sound sound List.suffix_rfl (plain.unmistaken hmac types) types
      ordered replaced fun p placeholder within => refines'.store.getByPlaceholder_eq_none.mp
        (sendable.lookalikes job in_jobs p placeholder within)

end

/-! ## What the client reads -/

/-- The string at the place of the assistant's text in a completion, if there is a string. -/
def replyText (completion : Json) : Option Text :=
  match completion.at? completionText with
  | some (.str text) => some text
  | _ => none

/-- The text that the client reads: the content of a completion, or the deltas of a stream. -/
def Outcome.text (outcome : Outcome Score) : Option Text :=
  match outcome.response with
  | .json statusCode content => if statusCode = 200 then replyText content else none
  | .streaming _ _ _ => some (deltasText (emitted outcome.items))
  | .serverError => none

/-- The provider says a text: in the deltas of one choice if a stream is asked for, else as the
content of a completion. -/
def Tells (upstream : Upstream) (payload : Fields) (streams : Bool) (text : Text) : Prop :=
  if streams then
    ∃ (index : Nat) (received : List Text) (chunks : List Json),
      upstream.stream payload = (chunks, .ends) ∧
      List.Forall₂ IsDelta (received.map fun text => (index, text)) chunks ∧
      received.flatten = text
  else ∃ completion, upstream.complete payload = .ok completion ∧ replyText completion = some text

/-- A stream is asked for. -/
def Streams (payload : Fields) : Bool := ((payload.get? "stream".toList).getD .null).truthy

section

variable [LinearOrder Score] {unicode : Unicode} {vault : Vault} {st st' : VaultState}
  {x : Exchange Score} {payload sanitized : Fields} {ctx : PipelineContext Score}

/-- A request that is passed on leaves the state in which the loop over its texts ends: nothing else
of the pipeline writes to the vault. -/
theorem state_of_sanitizeRequest {decision : PolicyDecision} {passes : Nat → PassResults Score}
    {sessionId : Text} {texts : List Text}
    (walks : RedactionPipeline.texts unicode payload = .ok texts)
    (passed : sanitizeRequest unicode vault decision passes payload sessionId st =
      (.ok (sanitized, ctx), st')) :
    st' = (tokenizeTexts vault sessionId (RedactionPipeline.jobs decision passes texts) st).2 := by
  rw [sanitizeRequest, walks] at passed
  dsimp only at passed
  split at passed
  next empty =>
    obtain rfl := List.isEmpty_iff.mp empty
    exact (Prod.mk.inj passed).2.symm
  next =>
    split at passed
    next => cases (Prod.mk.inj passed).1
    next =>
      split at passed
      next => cases (Prod.mk.inj passed).1
      next => exact (Prod.mk.inj passed).2.symm

theorem text_of_complete (allowed : providerAllowed x.decision x.provider = true)
    (body : x.request.payload = some payload)
    (passed : sanitizeRequest unicode vault x.decision x.request.passes payload x.sessionId st =
      (.ok (sanitized, ctx), st'))
    (at_once : Streams payload = false) {completion reinflated : Json}
    (completed : x.upstream.complete sanitized = .ok completion)
    (restored : reinflate vault st' completion ctx = some reinflated)
    (later : InMemoryTokenStore) :
    (x.outcome unicode vault st later).text = replyText reinflated := by
  have answered : (x.handled unicode vault st).1 = .json 200 reinflated := by
    rw [Exchange.sessionId] at passed
    rw [Streams] at at_once
    unfold Exchange.handled handle
    simp only [allowed, body, passed, Bool.not_true, Bool.false_eq_true, if_false, at_once,
      completed, restored]
  unfold Exchange.outcome
  generalize x.handled unicode vault st = result at answered
  obtain ⟨response, effects, _⟩ := result
  obtain rfl : response = .json 200 reinflated := answered
  rfl

theorem text_of_stream (allowed : providerAllowed x.decision x.provider = true)
    (body : x.request.payload = some payload)
    (passed : sanitizeRequest unicode vault x.decision x.request.passes payload x.sessionId st =
      (.ok (sanitized, ctx), st'))
    (streams : Streams payload = true) {detok : StreamDetokenizer}
    (prepared : vault.streamDetokenizerPrepared st'.store ctx.sessionId = some detok)
    {received : List Json} {ending : StreamEnd}
    (streamed : x.upstream.stream sanitized = (received, ending)) (later : InMemoryTokenStore) :
    (x.outcome unicode vault st later).text =
      some (deltasText (emitted (streamResponse vault later detok received ending).items)) := by
  have answered : (x.handled unicode vault st).1 = .streaming sanitized detok ctx := by
    rw [Exchange.sessionId] at passed
    rw [Streams] at streams
    unfold Exchange.handled handle
    simp only [allowed, body, passed, Bool.not_true, Bool.false_eq_true, if_false, streams,
      if_true, prepared]
  unfold Exchange.outcome
  generalize x.handled unicode vault st = result at answered
  obtain ⟨response, effects, _⟩ := result
  obtain rfl : response = .streaming sanitized detok ctx := answered
  simp only [streamed, Outcome.text]

/-- If the provider says one of the texts it was sent, as a whole or in pieces, the client reads the
text that it wrote. The policy lets the request pass, the walk goes over its payload, and the passes
report spans that are not empty and lie in their texts. The request is sendable: its session is new,
the types of the spans can be read back, no draw is exhausted, and no text holds a look-alike that is
a placeholder of the session. -/
theorem echoed_text_comes_back (unicode : Unicode) (vault : Vault)
    (laws : AesGcmLaws vault.crypto) (hmac : HmacInjective vault.crypto)
    (reachable : vault.Reachable st) (x : Exchange Score)
    (allowed : providerAllowed x.decision x.provider = true)
    (body : x.request.payload = some payload) {texts : List Text}
    (walks : RedactionPipeline.texts unicode payload = .ok texts)
    (reports : AllWellReported x.request.passes texts)
    (passed : sanitizeRequest unicode vault x.decision x.request.passes payload x.sessionId st =
      (.ok (sanitized, ctx), st'))
    (sendable : Sendable vault x.sessionId
      (RedactionPipeline.jobs x.decision x.request.passes texts) st st')
    (later : InMemoryTokenStore) :
    ∃ outs, extractTexts sanitized = .ok outs ∧ outs.length = texts.length ∧
      ∀ (i : Nat) text out, texts[i]? = some text → outs[i]? = some out →
        Tells x.upstream sanitized (Streams payload) out →
        (x.outcome unicode vault st later).text = some text := by
  have session : ctx.sessionId = x.sessionId :=
    sessionId_of_sanitizeRequest (by rw [passed])
  have placed : ∀ job ∈ RedactionPipeline.jobs x.decision x.request.passes texts,
      Placed job.1 job.2 :=
    fun job member => (readingOrder_jobs x.decision reports job member).placed
  obtain rfl := state_of_sanitizeRequest walks passed
  obtain ⟨issues, rep, short, reads⟩ := sendable.detokenized laws hmac reachable placed
  refine ⟨_, extractTexts_sanitized walks (by rw [passed]), ?_,
    fun i text out text_i out_i tells => ?_⟩
  · rw [length_tokenizeTexts, length_jobs]
  · have restored : Ledger.detokenize issues x.sessionId out = text :=
      reads i (text, _) out (by rw [getElem?_jobs, text_i]; rfl) out_i
    rw [← session] at short restored
    rw [Tells] at tells
    split at tells
    next streams =>
      obtain ⟨index, received, chunks, streamed, carry, rfl⟩ := tells
      obtain ⟨detok, prepared, fresh, resolves⟩ :=
        StreamDetokenizer.prepared_substitutes rep ctx.sessionId
      rw [text_of_stream allowed body passed streams prepared streamed]
      have out := emitted_streamResponse (resolves later) fresh carry .ends
      have whole := deltasText_pushDeltas short (received.map fun text => (index, text)) []
      have inert := StreamDetokenizer.substitute_foldl_pushBuffer
        (Ledger.resolve issues ctx.sessionId) received
      have alone : (received.map fun text => (index, text)).map Prod.snd = received := by
        simp [Function.comp_def]
      have joined : deltasText (received.map fun text => (index, text)) = received.flatten := by
        simp [deltasText, List.flatMap_map, List.flatMap_id']
      rw [alone] at out
      rw [alone, inert, joined, List.nil_append, ← Ledger.detokenize, restored] at whole
      rw [out, deltasText_append, deltasText_map, ← whole]
      -- the tail is the buffer, which is empty if nothing was held back
      generalize received.foldl StreamDetokenizer.pushBuffer [] = buffer
      by_cases empty : buffer = [] <;> simp [empty, deltasText]
    next at_once =>
      obtain ⟨completion, completed, content⟩ := tells
      have found : completion.at? completionText = some (.str out) := by
        rw [replyText] at content
        split at content
        next found => rw [found, Option.some.inj content]
        next => cases content
      have shaped : TextCompletion completion := by
        intro content same
        exact .inr ⟨out, Option.some.inj (same.symm.trans found)⟩
      obtain ⟨reinflated, done, absent | ⟨text', found', same⟩⟩ := reinflate_eq rep ctx shaped
      · exact absurd found (absent.1 out)
      · obtain rfl : text' = out := Json.str.inj (Option.some.inj (found'.symm.trans found))
        rw [text_of_complete allowed body passed (Bool.eq_false_iff.mpr at_once) completed done,
          same, restored, replyText, Json.at?_setAt_self found]

end

/-! ## A provider that repeats what it is told -/

/-- It streams one chunk for each character. -/
def parrot : Upstream where
  complete payload := .ok (choicesOf ((extractTexts payload).toOption.getD []))
  stream payload :=
    (((extractTexts payload).toOption.getD []).flatten.map (deltaChunk 0 [·]), .ends)

theorem tells_parrot {payload : Fields} {text : Text} (told : extractTexts payload = .ok [text]) :
    Tells parrot payload true text := by
  refine ⟨0, text.map ([·]), text.map (deltaChunk 0 [·]), ?_, ?_, ?_⟩
  · simp only [parrot, told, Except.toOption, Option.getD_some, List.flatten_cons,
      List.flatten_nil, List.append_nil]
  · rw [List.map_map, List.forall₂_map_left_iff, List.forall₂_map_right_iff]
    exact List.forall₂_same.mpr fun c _ => isDelta_deltaChunk 0 [c]
  · rw [← List.flatMap_def, List.flatMap_singleton']

/-- A request for a stream. -/
def streamOfAnn : Fields := ("stream".toList, .bool true) :: oneMessage "Hi Ann".toList

def parrotOfAnn : Exchange ℚ where
  decision := policyOf .tokenize []
  provider := "mock".toList
  upstream := parrot
  client := .reads
  request := ⟨"/v1/chat/completions".toList, some (.obj streamOfAnn),
    namedBy "Hi Ann".toList [("Ann".toList, "PERSON".toList)], "s1".toList⟩

theorem echoed_text_comes_back_ann :
    (parrotOfAnn.outcome .ascii sampleVault ⟨.empty, 0, 0⟩ .empty).text =
      some "Hi Ann".toList := by
  have walks : RedactionPipeline.texts .ascii streamOfAnn = .ok ["Hi Ann".toList] := by
    decide +kernel
  have passes : (sanitizeRequest .ascii sampleVault (policyOf .tokenize [])
      parrotOfAnn.request.passes streamOfAnn "s1".toList ⟨.empty, 0, 0⟩).1.toBool = true := by
    decide +kernel
  have free : (sanitizeRequest .ascii sampleVault (policyOf .tokenize []) parrotOfAnn.request.passes
      streamOfAnn "s1".toList ⟨.empty, 0, 0⟩).2.exhausted = 0 := by
    decide +kernel
  have typed : ((RedactionPipeline.jobs (policyOf .tokenize []) parrotOfAnn.request.passes
      ["Hi Ann".toList]).all fun job => job.2.all fun s =>
        isTypeName s.entityType && decide (s.entityType.length ≤ maxTypeLen)) = true := by
    decide +kernel
  -- without two opening brackets in a row the text has no look-alike
  have plain : ¬['[', '['] <:+: "Hi Ann".toList := by decide
  generalize passed : sanitizeRequest .ascii sampleVault (policyOf .tokenize [])
    parrotOfAnn.request.passes streamOfAnn "s1".toList ⟨.empty, 0, 0⟩ = result at passes free
  obtain ⟨_ | ⟨sanitized, ctx⟩, st'⟩ := result
  · cases passes
  · have sendable : Sendable sampleVault "s1".toList (RedactionPipeline.jobs (policyOf .tokenize [])
        parrotOfAnn.request.passes ["Hi Ann".toList]) ⟨.empty, 0, 0⟩ st' := by
      refine ⟨fun r member => absurd member List.not_mem_nil, fun job in_jobs s in_spans => ?_,
        free, fun job in_jobs p placeholder within => ?_⟩
      · have both := List.all_eq_true.mp (List.all_eq_true.mp typed job in_jobs) s in_spans
        obtain ⟨named, short⟩ := (Bool.and_eq_true _ _).mp both
        exact ⟨named, of_decide_eq_true short⟩
      · obtain ⟨i, at_i⟩ := List.mem_iff_getElem?.mp in_jobs
        rw [RedactionPipeline.getElem?_jobs] at at_i
        obtain ⟨text, text_i, rfl⟩ := Option.map_eq_some_iff.mp at_i
        obtain rfl := List.mem_singleton.mp (List.mem_of_getElem? text_i)
        exact absurd within (placeholder.not_infix plain)
    obtain ⟨outs, told, count, comes⟩ := echoed_text_comes_back .ascii sampleVault
      sampleVault_aesGcm sampleVault_hmac (.fresh 0) parrotOfAnn rfl rfl walks
      (allWellReported_namedBy _ _) passed sendable .empty
    obtain ⟨out, rfl⟩ := List.length_eq_one_iff.mp count
    exact comes 0 _ out rfl rfl (tells_parrot told)

end RedactGate
