import RedactGate.Redaction.LlmNer
import RedactGate.Redaction.Pipeline
import RedactGate.Redaction.RoundTrip

/-!
# What a request puts in

The edits of a request: each sanitized text is the normalized one with a placeholder in
place of every span that is to be redacted, and nothing else is changed. Detection
returns the spans in reading order and apart from each other, so the order in which
`tokenize` takes them is the reverse of the order in which it gets them.
-/
namespace RedactGate

open Library

variable {Score : Type}

/-! ## The spans of a text -/

/-- Spans as detection returns them: within the text, none of them empty, in reading
order and without overlaps. -/
structure InReadingOrder (text : Text) (spans : List (EntitySpan Score)) : Prop where
  inside : ∀ s ∈ spans, s.start < s.stop ∧ s.stop ≤ text.length
  apart : spans.Pairwise fun a b => a.stop ≤ b.start

theorem InReadingOrder.placed {text : Text} {spans : List (EntitySpan Score)}
    (reading : InReadingOrder text spans) : Placed text spans := by
  refine
    ⟨fun s member => ⟨Nat.le_of_lt (reading.inside s member).1, (reading.inside s member).2⟩, ?_⟩
  refine reading.apart.imp_of_mem fun {a b} ha _ apart => ?_
  have first := (reading.inside a ha).1
  simp only [EntitySpan.overlaps, Bool.and_eq_false_iff, decide_eq_false_iff_not]
  omega

/-- Spans in reading order, sorted by descending start, are the reversed list: no two of them start
at one place. -/
theorem InReadingOrder.rightToLeft {text : Text} {spans : List (EntitySpan Score)}
    (reading : InReadingOrder text spans) : Vault.rightToLeft spans = spans.reverse := by
  have backward : (Vault.rightToLeft spans).Pairwise fun a b => b.stop ≤ a.start :=
    reading.placed.rightToLeft
  have perm : (Vault.rightToLeft spans).Perm spans.reverse :=
    (rightToLeft_perm spans).trans (List.reverse_perm spans).symm
  refine perm.eq_of_pairwise (fun a b ha hb before after => ?_) backward
    (List.pairwise_reverse.mpr reading.apart)
  -- a span that is not empty cannot stand before and behind another one
  have first := (reading.inside a ((rightToLeft_perm spans).mem_iff.mp ha)).1
  have second := (reading.inside b (List.mem_reverse.mp hb)).1
  omega

section

variable [LinearOrder Score]

/-- What the passes report lies within the text, and no span is empty. -/
def WellReported (text : Text) (results : PassResults Score) : Prop :=
  ∀ s ∈ reported results, s.start < s.stop ∧ s.stop ≤ text.length

theorem readingOrder_mergeSpans {text : Text} {spans : List (EntitySpan Score)}
    (inside : ∀ s ∈ spans, s.start < s.stop ∧ s.stop ≤ text.length) :
    InReadingOrder text (mergeSpans spans) := by
  have proper : ∀ s ∈ spans, s.Proper := fun s member => (inside s member).1
  exact ⟨fun s member => inside s (mem_of_mem_mergeSpans proper member),
    mergeSpans_separated proper⟩

/-- The spans that are redacted are in reading order, whatever the passes report, as long as it lies
in the text. -/
theorem readingOrder_filtered {text : Text} {results : PassResults Score}
    (reports : WellReported text results) (decision : PolicyDecision) :
    InReadingOrder text (filterSpans decision (Detector.detect text results).spans) := by
  have merged : InReadingOrder text (Detector.detect text results).spans := by
    rw [Detector.detect]
    split
    · exact ⟨by simp, .nil⟩
    · exact readingOrder_mergeSpans reports
  exact ⟨fun s member => merged.inside s (List.mem_filter.mp member).1, merged.apart.filter _⟩

end

/-! ## The edits of a call -/

namespace Vault

variable (vault : Vault)

/-- The edits that the loop of `tokenize` makes for the spans still to come, in the state that the
spans before leave. -/
def edits (sessionId text : Text) : List (EntitySpan Score) → VaultState → List Edit
  | [], _ => []
  | span :: spans, st =>
    let (placeholder, st) :=
      vault.placeholderOf st sessionId span.entityType (text.slice span.start span.stop)
    ⟨span.start, span.stop, placeholder⟩ :: edits sessionId text spans st

/-- What `tokenize` puts in place of the spans, from left to right. -/
def replacements (st : VaultState) (text : Text) (spans : List (EntitySpan Score))
    (sessionId : Text) : List Edit :=
  (vault.edits sessionId text (rightToLeft spans) st).reverse

variable {vault}

theorem stretches_edits (sessionId text : Text) (todo : List (EntitySpan Score)) :
    ∀ st, (vault.edits sessionId text todo st).map Edit.stretch = todo.map EntitySpan.stretch := by
  induction todo with
  | nil => exact fun _ => rfl
  | cons span todo ih => exact fun st => congrArg (span.stretch :: ·) (ih _)

theorem new_edits (sessionId text : Text) (todo : List (EntitySpan Score)) :
    ∀ st, (vault.edits sessionId text todo st).map Edit.new =
      vault.insertedPlaceholders sessionId text todo st := by
  induction todo with
  | nil => exact fun _ => rfl
  | cons span todo ih => exact fun st => congrArg (_ :: ·) (ih _)

/-- The loop splices its edits one after the other. -/
theorem foldl_tokenizeSpan (sessionId text : Text) (todo : List (EntitySpan Score)) :
    ∀ out st, (todo.foldl (vault.tokenizeSpan sessionId text) (out, st)).1 =
      (vault.edits sessionId text todo st).foldl (fun out e => Edit.splice e out) out := by
  induction todo with
  | nil => exact fun _ _ => rfl
  | cons span todo ih => exact fun out st => ih _ _

theorem tokenize_eq_foldl (st : VaultState) (text : Text) (spans : List (EntitySpan Score))
    (sessionId : Text) : vault.tokenize st text spans sessionId =
      (rightToLeft spans).foldl (vault.tokenizeSpan sessionId text) (text, st) := by
  rw [tokenize]
  split
  next empty =>
    obtain rfl := List.isEmpty_iff.mp empty
    rfl
  next => rfl

variable (vault) in
/-- A call of `tokenize` patches its text with its replacements, which are ordered in the text. -/
theorem tokenize_eq_patch (st : VaultState) {text : Text} {spans : List (EntitySpan Score)}
    (placed : Placed text spans) (sessionId : Text) :
    (vault.tokenize st text spans sessionId).1 =
        Edit.patch text 0 (vault.replacements st text spans sessionId) ∧
      Edit.Ordered text 0 (vault.replacements st text spans sessionId) := by
  have ordered : Edit.Ordered text 0 (vault.replacements st text spans sessionId) :=
    ordered_of_stretches placed (stretches_edits sessionId text _ st)
  have spliced := Edit.foldr_splice ordered
  rw [replacements, List.foldr_reverse] at spliced
  refine ⟨?_, ordered⟩
  rw [tokenize_eq_foldl, foldl_tokenizeSpan, spliced, List.take_zero, List.nil_append]
  rfl

theorem stretches_replacements (st : VaultState) {text : Text} {spans : List (EntitySpan Score)}
    (reading : InReadingOrder text spans) (sessionId : Text) :
    (vault.replacements st text spans sessionId).map Edit.stretch =
      spans.map EntitySpan.stretch := by
  rw [replacements, List.map_reverse, stretches_edits, reading.rightToLeft, List.map_reverse,
    List.reverse_reverse]

/-! ## Brackets -/

/-- A text that opens with a bracket and closes with one. -/
def Bracketed (p : Text) : Prop := ∃ body, p = '[' :: (body ++ [']'])

theorem bracketed_makePlaceholder (entityType tokenHex : Text) :
    Bracketed (makePlaceholder entityType tokenHex) :=
  ⟨'[' :: (entityType ++ '_' :: tokenHex ++ [']']), by simp [makePlaceholder]⟩

/-- Every stored placeholder is bracketed. -/
def AllBracketed (st : VaultState) : Prop := ∀ r ∈ st.store.records, Bracketed r.placeholder

variable (vault) in
/-- The step lemma: in a state whose placeholders all stand in brackets, a value gets such a
placeholder, be it known or new. -/
theorem placeholderOf_bracketed {st : VaultState} (bracketed : AllBracketed st)
    (sessionId entityType value : Text) :
    Bracketed (vault.placeholderOf st sessionId entityType value).1 ∧
      AllBracketed (vault.placeholderOf st sessionId entityType value).2 := by
  cases found : st.store.getByFingerprint sessionId
    (vault.fingerprint sessionId entityType value) with
  | some existing =>
    obtain ⟨i, _, at_index⟩ := Option.bind_eq_some_iff.mp found
    simp only [placeholderOf, found]
    refine ⟨bracketed existing (List.mem_of_getElem? at_index), fun r member => ?_⟩
    simp only [InMemoryTokenStore.bumpOccurrence] at member
    split at member
    · exact bracketed r member
    · -- the counted record keeps its placeholder
      obtain ⟨k, at_k⟩ := List.mem_iff_getElem?.mp member
      rw [List.getElem?_modify] at at_k
      obtain ⟨r', at_k', rfl⟩ := Option.map_eq_some_iff.mp at_k
      have kept := bracketed r' (List.mem_of_getElem? at_k')
      split <;> exact kept
  | none =>
    -- drawn or derived from the fingerprint, it is made by makePlaceholder
    have drawn : Bracketed (vault.allocatePlaceholder st sessionId entityType
        (vault.fingerprint sessionId entityType value)).1 := by
      rw [allocatePlaceholder]
      split
      next placeholder draws drawn =>
        obtain ⟨_, _, _, _, rfl⟩ := Ledger.drawPlaceholder_spec drawn
        exact bracketed_makePlaceholder _ _
      next => exact bracketed_makePlaceholder _ _
    have kept : (vault.allocatePlaceholder st sessionId entityType
        (vault.fingerprint sessionId entityType value)).2.store = st.store := by
      rw [allocatePlaceholder]
      split <;> rfl
    simp only [placeholderOf, found]
    refine ⟨drawn, fun r member => ?_⟩
    simp only [InMemoryTokenStore.put, encrypt, kept] at member
    rcases List.mem_append.mp member with old | new
    · exact bracketed r old
    · rw [List.mem_singleton.mp new]
      exact drawn

variable (vault) in
/-- The run lemma: in a state whose placeholders all stand in brackets, all edits of the loop put in
such placeholders. -/
theorem edits_bracketed (sessionId text : Text) (todo : List (EntitySpan Score)) :
    ∀ (out : Text) {st : VaultState}, AllBracketed st →
      (∀ e ∈ vault.edits sessionId text todo st, Bracketed e.new) ∧
        AllBracketed (todo.foldl (vault.tokenizeSpan sessionId text) (out, st)).2 := by
  induction todo with
  | nil => exact fun _ _ bracketed => ⟨fun _ member => (List.not_mem_nil member).elim, bracketed⟩
  | cons span todo ih =>
    intro out st bracketed
    obtain ⟨first, next⟩ := placeholderOf_bracketed vault bracketed sessionId
      span.entityType (text.slice span.start span.stop)
    obtain ⟨rest, after⟩ := ih (out.splice span.start span.stop
      (vault.placeholderOf st sessionId span.entityType (text.slice span.start span.stop)).1) next
    exact ⟨List.forall_mem_cons.mpr ⟨first, rest⟩, after⟩

variable (vault) in
theorem tokenize_bracketed {st : VaultState} (bracketed : AllBracketed st) (text : Text)
    (spans : List (EntitySpan Score)) (sessionId : Text) :
    (∀ e ∈ vault.replacements st text spans sessionId, Bracketed e.new) ∧
      AllBracketed (vault.tokenize st text spans sessionId).2 := by
  obtain ⟨news, after⟩ := edits_bracketed vault sessionId text (rightToLeft spans) text
    bracketed
  rw [tokenize_eq_foldl]
  exact ⟨fun e member => news e (List.mem_reverse.mp member), after⟩

theorem Reachable.bracketed {st : VaultState} (reachable : vault.Reachable st) :
    AllBracketed st := by
  induction reachable with
  | fresh draws => exact fun _ member => (List.not_mem_nil member).elim
  | tokenize text spans sessionId _ ih => exact (tokenize_bracketed vault ih text spans sessionId).2

end Vault

/-! ## The edits of a request -/

namespace RedactionPipeline

variable (vault : Vault)

/-- The replacements in each text that the loop of `sanitize_request` tokenizes, in the state that
the texts before leave. -/
def replacements (sessionId : Text) :
    List (Text × List (EntitySpan Score)) → VaultState → List (List Edit)
  | [], _ => []
  | (text, spans) :: rest, st =>
    vault.replacements st text spans sessionId ::
      replacements sessionId rest (vault.tokenize st text spans sessionId).2

variable {vault}

theorem tokenizeTexts_cons (sessionId text : Text) (spans : List (EntitySpan Score))
    (rest : List (Text × List (EntitySpan Score))) (st : VaultState) :
    tokenizeTexts vault sessionId ((text, spans) :: rest) st =
      ((vault.tokenize st text spans sessionId).1 ::
          (tokenizeTexts vault sessionId rest (vault.tokenize st text spans sessionId).2).1,
        (tokenizeTexts vault sessionId rest (vault.tokenize st text spans sessionId).2).2) := by
  cases spans with
  | nil => rfl
  | cons span spans => rfl

theorem length_tokenizeTexts (sessionId : Text) (jobs : List (Text × List (EntitySpan Score))) :
    ∀ st, (tokenizeTexts vault sessionId jobs st).1.length = jobs.length := by
  induction jobs with
  | nil => exact fun _ => rfl
  | cons job jobs ih => exact fun st => congrArg (· + 1) (ih _)

/-- What is done to one text: ordered edits stand for the spans, put in bracketed texts, and make of
the text what comes out. -/
structure Rewrites (job : Text × List (EntitySpan Score)) (edits : List Edit) (out : Text) :
    Prop where
  stretches : edits.map Edit.stretch = job.2.map EntitySpan.stretch
  ordered : Edit.Ordered job.1 0 edits
  bracketed : ∀ e ∈ edits, Vault.Bracketed e.new
  patched : out = Edit.patch job.1 0 edits

variable (vault) in
/-- The run lemma, by induction on the texts of a request: each is rewritten by its replacements, in
the state that the texts before it leave. -/
theorem tokenizeTexts_rewrites (sessionId : Text) {jobs : List (Text × List (EntitySpan Score))}
    (reading : ∀ job ∈ jobs, InReadingOrder job.1 job.2) : ∀ {st}, Vault.AllBracketed st →
      ∀ (i : Nat) job out, jobs[i]? = some job →
        (tokenizeTexts vault sessionId jobs st).1[i]? = some out →
        ∃ edits, (replacements vault sessionId jobs st)[i]? = some edits ∧
          Rewrites job edits out := by
  induction jobs with
  | nil => exact fun _ _ _ _ absent => nomatch absent
  | cons job jobs ih =>
    obtain ⟨text, spans⟩ := job
    obtain ⟨here, later⟩ := List.forall_mem_cons.mp reading
    intro st bracketed
    obtain ⟨news, next⟩ := Vault.tokenize_bracketed vault bracketed text spans sessionId
    obtain ⟨patched, ordered⟩ := Vault.tokenize_eq_patch vault st here.placed sessionId
    rw [tokenizeTexts_cons]
    intro i job out at_i out_i
    cases i with
    | zero =>
      obtain rfl : (text, spans) = job := Option.some.inj at_i
      obtain rfl : (vault.tokenize st text spans sessionId).1 = out := Option.some.inj out_i
      exact ⟨_, rfl, Vault.stretches_replacements st here sessionId, ordered, news, patched⟩
    | succ i => exact ih later next i job out at_i out_i

section

variable [LinearOrder Score] {unicode : Unicode} {decision : PolicyDecision}
  {passes : Nat → PassResults Score} {payload : Fields} {sessionId : Text} {st : VaultState}

/-- The texts of a request with the spans to redact in each. -/
def jobs (decision : PolicyDecision) (passes : Nat → PassResults Score) (texts : List Text) :
    List (Text × List (EntitySpan Score)) :=
  texts.zip (filtered decision passes texts)

theorem getElem?_jobs (texts : List Text) (i : Nat) : (jobs decision passes texts)[i]? =
    texts[i]?.map fun text =>
      (text, filterSpans decision (Detector.detect text (passes i)).spans) := by
  rw [jobs, List.zip, List.getElem?_zipWith, filtered, List.getElem?_mapIdx]
  cases texts[i]? <;> rfl

theorem length_jobs (texts : List Text) : (jobs decision passes texts).length = texts.length := by
  rw [jobs, List.length_zip, filtered, List.length_mapIdx, Nat.min_self]

/-- The passes report well-formed spans for every text. -/
def AllWellReported (passes : Nat → PassResults Score) (texts : List Text) : Prop :=
  ∀ (i : Nat) text, texts[i]? = some text → WellReported text (passes i)

theorem readingOrder_jobs (decision : PolicyDecision) {texts : List Text}
    (reports : AllWellReported passes texts) :
    ∀ job ∈ jobs decision passes texts, InReadingOrder job.1 job.2 := by
  intro job member
  obtain ⟨i, at_i⟩ := List.mem_iff_getElem?.mp member
  rw [getElem?_jobs] at at_i
  obtain ⟨text, text_i, rfl⟩ := Option.map_eq_some_iff.mp at_i
  exact readingOrder_filtered (reports i text text_i) decision

/-- The texts that the walk finds in a sanitized payload are those that the loop over the texts has
written, in the same order. -/
theorem extractTexts_sanitized {texts : List Text}
    (walks : RedactionPipeline.texts unicode payload = .ok texts) {sanitized : Fields}
    {ctx : PipelineContext Score}
    (done : (sanitizeRequest unicode vault decision passes payload sessionId st).1 =
      .ok (sanitized, ctx)) :
    extractTexts sanitized =
      .ok (tokenizeTexts vault sessionId (jobs decision passes texts) st).1 := by
  rw [sanitizeRequest, walks] at done
  dsimp only at done
  -- no texts, a blocked request, a failed injection, or the rewritten payload
  split at done
  next empty =>
    obtain rfl := List.isEmpty_iff.mp empty
    obtain ⟨rfl, -⟩ := Prod.mk.inj (Except.ok.inj done)
    cases read : extractTexts payload with
    | error e => simp [RedactionPipeline.texts, read, Except.map] at walks
    | ok raw =>
      rw [RedactionPipeline.texts, read] at walks
      obtain rfl := List.map_eq_nil_iff.mp (Except.ok.inj walks)
      rfl
  next =>
    split at done
    next => cases done
    next =>
      split at done
      next => cases done
      next out written =>
        obtain ⟨rfl, -⟩ := Prod.mk.inj (Except.ok.inj done)
        exact extractTexts_injectTexts written

end

end RedactionPipeline

/-! ## Sample requests -/

/-- A payload of one message. -/
def oneMessage (text : Text) : Fields :=
  [("messages".toList, .arr [.obj [("content".toList, .str text)]])]

/-- What is reported of a text if a model names entities in it, each with its type. -/
def namedBy (text : Text) (named : List (Text × Text)) (_ : Nat) : PassResults ℚ :=
  [some (anchorSpans Unicode.ascii text (named.map fun entity =>
    [("text".toList, .str entity.1), ("type".toList, .str entity.2)]))]

theorem allWellReported_namedBy (text : Text) (named : List (Text × Text)) :
    RedactionPipeline.AllWellReported (namedBy text named) [text] := by
  intro i text' at_i
  obtain rfl : text' = text := by
    simpa using List.mem_of_getElem? at_i
  intro s member
  rw [namedBy, reported, List.flatMap_singleton, Option.getD_some] at member
  exact anchorSpans_inside s member

end RedactGate
