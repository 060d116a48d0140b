import RedactGate.Properties.Streaming
import RedactGate.Redaction.Pipeline

/-!
# Re-inflation of completions

The texts of a completion that mirror the texts of a request, and the one among them
that `reinflate` restores.
-/
namespace RedactGate

open Library RedactionPipeline

variable {Score : Type}

/-- The places of a completion that the request side would redact in a message: contents, and the
arguments of tool and function calls. -/
inductive AssistantText : Json.Path → Prop
  | content (i : Nat) : AssistantText
      [.key "choices".toList, .index i, .key "message".toList, .key "content".toList]
  | toolCall (i j : Nat) : AssistantText
      [.key "choices".toList, .index i, .key "message".toList, .key "tool_calls".toList, .index j,
        .key "function".toList, .key "arguments".toList]
  | functionCall (i : Nat) : AssistantText
      [.key "choices".toList, .index i, .key "message".toList, .key "function_call".toList,
        .key "arguments".toList]

/-- Every string at a place of the assistant's text is detokenized, and nothing else in the
completion changes. -/
structure Mirrors (detok : Text → Option Text) (completion out : Json) : Prop where
  restored : ∀ p text, AssistantText p → completion.at? p = some (.str text) →
    ∃ value, detok text = some value ∧ out.at? p = some (.str value)
  frame : ∀ p, ¬(AssistantText p ∧ ∃ text, completion.at? p = some (.str text)) →
    out.shapeAt p = completion.shapeAt p

/-- The first choice has a string for its content, or no content. -/
def TextCompletion (completion : Json) : Prop :=
  ∀ content, completion.at? completionText = some content →
    content = .null ∨ ∃ text, content = .str text

/-- Where the store represents a ledger, reinflating detokenizes the text of the first choice
through this ledger, and a completion without one is returned as it is. -/
theorem reinflate_eq {vault : Vault} {issues : List Issue} {st : VaultState}
    (rep : Represents vault issues st.store) (ctx : PipelineContext Score) {completion : Json}
    (shaped : TextCompletion completion) :
    ∃ out, reinflate vault st completion ctx = some out ∧
      ((∀ text, completion.at? completionText ≠ some (.str text)) ∧ out = completion ∨
        ∃ text, completion.at? completionText = some (.str text) ∧ out = completion.setAt
          completionText (.str (Ledger.detokenize issues ctx.sessionId text))) := by
  unfold reinflate
  cases found : completion.at? completionText with
  | none => exact ⟨completion, rfl, .inl ⟨by simp, rfl⟩⟩
  | some content =>
    rcases shaped content found with rfl | ⟨text, rfl⟩
    · exact ⟨completion, rfl, .inl ⟨by simp, rfl⟩⟩
    · by_cases empty : text = []
      · -- an empty text is not looked at, and detokenizes to itself
        subst empty
        refine ⟨completion, rfl, .inr ⟨[], rfl, ?_⟩⟩
        rw [Ledger.detokenize, substitute_nil, Json.setAt_of_at? found]
      · have truthy : (Json.str text).truthy = true := by simpa [Json.truthy] using empty
        refine ⟨_, ?_, .inr ⟨text, rfl, rfl⟩⟩
        simp only [truthy, if_true, detokenizeJson, detokenize_refines rep, Option.map_some]

/-- Re-inflation mirrors redaction if and only if detokenizing changes none of the other strings:
those of the other choices, and the arguments of tool and function calls. The first choice has a
string for its content or none, and the vault reaches the state. -/
theorem reinflate_mirrors_iff (vault : Vault) (laws : AesGcmLaws vault.crypto) (st : VaultState)
    (reachable : vault.Reachable st) (ctx : PipelineContext Score) (completion : Json)
    (shaped : TextCompletion completion) :
    (∃ out, reinflate vault st completion ctx = some out ∧
        Mirrors (vault.detokenize st.store · ctx.sessionId) completion out) ↔
      ∀ p text, AssistantText p → p ≠ completionText → completion.at? p = some (.str text) →
        vault.detokenize st.store text ctx.sessionId = some text := by
  obtain ⟨ledger, _, refines⟩ := reachable_refines laws reachable
  have rep := refines.store
  have first : AssistantText completionText := .content 0
  obtain ⟨out, reinflated, written⟩ := reinflate_eq rep ctx shaped
  rw [reinflated]
  simp only [Option.some.injEq, exists_eq_left']
  -- outside the first content the completion is as it was
  have elsewhere : ∀ p, p ≠ completionText → out.shapeAt p = completion.shapeAt p := by
    rcases written with ⟨_, rfl⟩ | ⟨text, found, rfl⟩
    · exact fun _ _ => rfl
    · exact fun p other => Json.shapeAt_setAt found _ other
  have kept {p : Json.Path} {text : Text} (other : p ≠ completionText) :
      completion.at? p = some (.str text) → out.at? p = some (.str text) := fun found =>
    Json.at?_of_shapeAt_str ((elsewhere p other).trans (Json.shapeAt_of_str found))
  constructor
  · intro mirrors p text assistant other found
    obtain ⟨value, detokenized, restored⟩ := mirrors.restored p text assistant found
    rw [kept other found, Option.some.injEq, Json.str.injEq] at restored
    rw [detokenized, restored]
  · intro untouched
    refine ⟨fun p text assistant found => ?_, fun p outside => ?_⟩
    · by_cases other : p = completionText
      · subst other
        rcases written with ⟨absent, _⟩ | ⟨text', found', rfl⟩
        · exact absurd found (absent text)
        · obtain rfl : text' = text := Json.str.inj (Option.some.inj (found'.symm.trans found))
          exact ⟨_, detokenize_refines rep _ _, Json.at?_setAt_self found'⟩
      · exact ⟨text, untouched p text assistant other found, kept other found⟩
    · by_cases other : p = completionText
      · subst other
        rcases written with ⟨_, rfl⟩ | ⟨text, found, _⟩
        · rfl
        · exact absurd ⟨first, text, found⟩ outside
      · exact elsewhere p other

/-- A completion with these contents, one for each choice. -/
def choicesOf (contents : List Text) : Json :=
  .obj [("choices".toList, .arr (contents.map fun content =>
    .obj [("message".toList, .obj [("content".toList, .str content)])]))]

/-- The context of the session that `oneToken` has a token for. -/
def oneTokenContext : PipelineContext Unit := ⟨"s1".toList, Dict.empty, false, []⟩

theorem reinflate_mirrors_oneChoice : ∃ out,
    reinflate sampleVault oneToken (choicesOf ["Hi [[PERSON_000000]]".toList]) oneTokenContext =
        some out ∧
      Mirrors (sampleVault.detokenize oneToken.store · "s1".toList)
        (choicesOf ["Hi [[PERSON_000000]]".toList]) out := by
  refine (reinflate_mirrors_iff sampleVault sampleVault_aesGcm oneToken
    (.tokenize _ _ _ (.fresh 0)) oneTokenContext _ ?_).mpr ?_
  · rintro content found
    exact .inr ⟨_, (Option.some.inj found).symm⟩
  · rintro p text (⟨_ | i⟩ | ⟨_ | i, j⟩ | ⟨_ | i⟩) other found
    · exact absurd rfl other
    all_goals cases found

/-- A completion with two choices: the second choice keeps its placeholder, as only the first one is
detokenized. -/
theorem second_choice_not_restored : ¬∃ out,
    reinflate sampleVault oneToken
        (choicesOf ["Hi".toList, "Hi [[PERSON_000000]]".toList]) oneTokenContext = some out ∧
      Mirrors (sampleVault.detokenize oneToken.store · "s1".toList)
        (choicesOf ["Hi".toList, "Hi [[PERSON_000000]]".toList]) out := by
  rintro ⟨out, reinflated, mirrors⟩
  obtain ⟨value, detokenized, restored⟩ := mirrors.restored _ _ (.content 1) rfl
  have stays : (reinflate sampleVault oneToken
      (choicesOf ["Hi".toList, "Hi [[PERSON_000000]]".toList]) oneTokenContext).bind
        (·.shapeAt [.key "choices".toList, .index 1, .key "message".toList,
          .key "content".toList]) = some (.str "Hi [[PERSON_000000]]".toList) := by
    decide
  have known : sampleVault.detokenize oneToken.store "Hi [[PERSON_000000]]".toList "s1".toList =
      some "Hi Ann".toList := by
    decide
  rw [reinflated, Option.bind_some, Json.shapeAt_of_str restored, Option.some.injEq,
    Json.Shape.str.injEq] at stays
  rw [known, Option.some.injEq, stays] at detokenized
  exact absurd detokenized (by decide)

end RedactGate
