import RedactGate.Library.Copies
import RedactGate.Redaction.LlmNer
import RedactGate.Redaction.Replacements

/-!
# Copies of a redacted value

Redaction replaces spans, not values. A pass that reports one mention of a value says
nothing about the others, so what a sanitized text still shows of a value are the copies
in the normalized text that no redacted span meets, those and no others.
-/
namespace RedactGate

open Library RedactionPipeline

variable {Score : Type}

/-- An edit that puts in a bracketed text delimits what stands beside it, if brackets are no word
characters. -/
theorem delimits_of_bracketed {word : Char → Bool} (opening : word '[' = false)
    (closing : word ']' = false) {e : Edit} (bracketed : Vault.Bracketed e.new) :
    e.Delimits word := by
  obtain ⟨body, new⟩ := bracketed
  refine ⟨by simp [new], fun c head => ?_, fun c last => ?_⟩
  · rw [new, List.head?_cons] at head
    rwa [← Option.some.inj head]
  · rw [new, ← List.cons_append, List.getLast?_concat] at last
    rwa [← Option.some.inj last]

/-- The copies of a value that are left in a rewritten text are those that the text has between its
spans. -/
theorem contains_rewritten_iff {word : Char → Bool} (opening : word '[' = false)
    (closing : word ']' = false) {job : Text × List (EntitySpan Score)} {edits : List Edit}
    {out : Text} (rewrites : Rewrites job edits out) {value : Text} (nonempty : value ≠ []) :
    Contains word (Edit.inserted 0 edits) value out ↔
      ContainsBetween word (job.2.map EntitySpan.stretch) value job.1 := by
  rw [rewrites.patched, ← rewrites.stretches]
  exact Edit.contains_patch_iff_between nonempty rewrites.ordered fun e member =>
    delimits_of_bracketed opening closing (rewrites.bracketed e member)

variable [LinearOrder Score]

/-- In every text of a sanitized request a value stands outside the inserted placeholders, between
characters that are not word characters, if and only if the normalized text has a copy of it that no
redacted span meets, between such characters or redacted spans. The brackets of a placeholder are no
word characters, and the passes report spans that lie in their texts. -/
theorem sanitizeRequest_copies (unicode : Unicode) (vault : Vault) (decision : PolicyDecision)
    (passes : Nat → PassResults Score) (payload : Fields) (sessionId : Text) (st : VaultState)
    (reachable : vault.Reachable st) (word : Char → Bool) (opening : word '[' = false)
    (closing : word ']' = false) (texts : List Text)
    (walks : RedactionPipeline.texts unicode payload = .ok texts)
    (reports : AllWellReported passes texts) (sanitized : Fields) (ctx : PipelineContext Score)
    (done : (sanitizeRequest unicode vault decision passes payload sessionId st).1 =
      .ok (sanitized, ctx)) :
    ∃ outs, extractTexts sanitized = .ok outs ∧ outs.length = texts.length ∧
      ∀ (i : Nat) text spans out, (jobs decision passes texts)[i]? = some (text, spans) →
        outs[i]? = some out →
        ∃ edits, (replacements vault sessionId (jobs decision passes texts) st)[i]? = some edits ∧
          edits.map Edit.stretch = spans.map EntitySpan.stretch ∧
          out = Edit.patch text 0 edits ∧
          ∀ value, value ≠ [] → (Contains word (Edit.inserted 0 edits) value out ↔
            ContainsBetween word (spans.map EntitySpan.stretch) value text) := by
  have rewritten := tokenizeTexts_rewrites vault sessionId
    (readingOrder_jobs decision reports) reachable.bracketed
  refine ⟨_, extractTexts_sanitized walks done, ?_, ?_⟩
  · rw [length_tokenizeTexts, length_jobs]
  intro i text spans out job out_i
  obtain ⟨edits, edits_i, rewrites⟩ := rewritten i (text, spans) out job out_i
  exact ⟨edits, edits_i, rewrites.stretches, rewrites.patched, fun value nonempty =>
    contains_rewritten_iff opening closing rewrites nonempty⟩

/-- A message in which a name stands twice. -/
def annTwice : Text := "Ann met Ann".toList

/-- A model names the person once. -/
def annOnce : Nat → PassResults ℚ := namedBy annTwice [("Ann".toList, "PERSON".toList)]

theorem annTwice_sanitized : ∃ sanitized ctx,
    (sanitizeRequest Unicode.ascii sampleVault (policyOf .tokenize []) annOnce
      (oneMessage annTwice) "s1".toList ⟨.empty, 0, 0⟩).1 = .ok (sanitized, ctx) := by
  have succeeds : (sanitizeRequest Unicode.ascii sampleVault (policyOf .tokenize []) annOnce
      (oneMessage annTwice) "s1".toList ⟨.empty, 0, 0⟩).1.isOk = true := by
    decide
  generalize (sanitizeRequest Unicode.ascii sampleVault (policyOf .tokenize []) annOnce
    (oneMessage annTwice) "s1".toList ⟨.empty, 0, 0⟩).1 = result at succeeds
  cases result with
  | error e => cases succeeds
  | ok pair => exact ⟨pair.1, pair.2, rfl⟩

/-- A name that the text has twice and the report once: the copy that is left in the sanitized text
is the one that the text has outside the span. -/
theorem sanitizeRequest_copies_annTwice : ∃ edits,
    (replacements sampleVault "s1".toList (jobs (policyOf .tokenize []) annOnce [annTwice])
      ⟨.empty, 0, 0⟩)[0]? = some edits ∧
    Contains Unicode.ascii.isWord (Edit.inserted 0 edits) "Ann".toList
      (Edit.patch annTwice 0 edits) := by
  obtain ⟨sanitized, ctx, done⟩ := annTwice_sanitized
  obtain ⟨outs, _, length, texts⟩ := sanitizeRequest_copies Unicode.ascii sampleVault
    (policyOf .tokenize []) annOnce (oneMessage annTwice) "s1".toList ⟨.empty, 0, 0⟩ (.fresh 0)
    Unicode.ascii.isWord (by decide) (by decide) [annTwice] (by decide)
    (allWellReported_namedBy _ _) sanitized ctx done
  obtain ⟨out, rfl⟩ := List.length_eq_one_iff.mp length
  obtain ⟨edits, at_zero, _, rfl, copies⟩ := texts 0 annTwice
    (filterSpans (policyOf .tokenize []) (Detector.detect annTwice (annOnce 0)).spans) out
    (by rw [getElem?_jobs]; rfl) rfl
  refine ⟨edits, at_zero, (copies "Ann".toList (by decide)).mpr ?_⟩
  refine ⟨"Ann met ".toList, [], by decide, ?_, .inl ?_, .inl startsOpen_nil⟩
  · rw [Outside]
    decide
  · intro c last
    obtain rfl : ' ' = c := Option.some.inj last
    decide

/-- No sanitized text has a copy of a redacted value left, outside the inserted
placeholders and between characters that are not word characters. -/
def NoCopyLeft (unicode : Unicode) (vault : Vault) (decision : PolicyDecision)
    (passes : Nat → PassResults Score) (payload : Fields) (sessionId : Text) (st : VaultState) :
    Prop :=
  ∀ texts sanitized ctx outs, RedactionPipeline.texts unicode payload = .ok texts →
    (sanitizeRequest unicode vault decision passes payload sessionId st).1 =
      .ok (sanitized, ctx) →
    extractTexts sanitized = .ok outs →
    -- every redacted value against every sanitized text, not its own alone
    ∀ job ∈ jobs decision passes texts, ∀ span ∈ job.2, ∀ (i : Nat) edits out,
      (replacements vault sessionId (jobs decision passes texts) st)[i]? = some edits →
      outs[i]? = some out →
      ¬Contains unicode.isWord (Edit.inserted 0 edits) (job.1.slice span.start span.stop) out

/-- A model that names a person once, in a text with two mentions, is well reported on, and the
second mention is sent to the provider. -/
theorem sanitizeRequest_leaves_copy : sampleVault.Reachable ⟨.empty, 0, 0⟩ ∧
    AllWellReported annOnce [annTwice] ∧
    ¬NoCopyLeft Unicode.ascii sampleVault (policyOf .tokenize []) annOnce (oneMessage annTwice)
      "s1".toList ⟨.empty, 0, 0⟩ := by
  refine ⟨.fresh 0, allWellReported_namedBy _ _, fun none_left => ?_⟩
  obtain ⟨sanitized, ctx, done⟩ := annTwice_sanitized
  have walks : RedactionPipeline.texts Unicode.ascii (oneMessage annTwice) = .ok [annTwice] := by
    decide
  have job : jobs (policyOf .tokenize []) annOnce [annTwice] =
      [(annTwice, [⟨0, 3, "PERSON".toList, "Ann".toList, llmScore, .llm, none⟩])] := by
    decide +kernel
  have outs : (tokenizeTexts sampleVault "s1".toList
      (jobs (policyOf .tokenize []) annOnce [annTwice]) ⟨.empty, 0, 0⟩).1 =
      ["[[PERSON_000000]] met Ann".toList] := by
    decide
  have edits : replacements sampleVault "s1".toList
      (jobs (policyOf .tokenize []) annOnce [annTwice]) ⟨.empty, 0, 0⟩ =
      [[⟨0, 3, "[[PERSON_000000]]".toList⟩]] := by
    decide
  have read := extractTexts_sanitized walks done
  rw [outs] at read
  refine none_left _ sanitized ctx _ walks done read _ (by rw [job]; exact List.mem_cons_self) _
    List.mem_cons_self 0 _ _ (by rw [edits]; rfl) rfl ?_
  -- the second Ann stands at the end of the sanitized text, between word boundaries
  refine ⟨"[[PERSON_000000]] met ".toList, [], by decide, ?_, ?_, startsOpen_nil⟩
  · rw [Outside]
    decide
  · intro c last
    obtain rfl : ' ' = c := Option.some.inj last
    decide

end RedactGate
