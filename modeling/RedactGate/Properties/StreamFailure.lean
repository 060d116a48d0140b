import RedactGate.Properties.Streaming
import RedactGate.Routes.StreamDeltas

/-!
# Streams that fail

A stream that ends by itself gives out all of its text. One that ends in a
`ProviderError` leaves what the buffer holds back: the `flush` stands behind the loop, in
the same `try`.
-/
namespace RedactGate

open Library StreamDetokenizer

/-- The text of the deltas of one choice reaches the client whole, if and only if the stream ends
normally or nothing is held back when it fails. The placeholders of the session have at most 64
characters, and the stream does not break off with an error of another kind. -/
theorem stream_text_iff (vault : Vault) (laws : AesGcmLaws vault.crypto) (st : VaultState)
    (reachable : vault.Reachable st) (sessionId : Text)
    (short : ∀ r ∈ st.store.allForSession sessionId, r.placeholder.length ≤ maxPlaceholderLen)
    {detok : StreamDetokenizer}
    (prepared : vault.streamDetokenizerPrepared st.store sessionId = some detok)
    (index : Nat) (received : List Text) {chunks : List Json}
    (carry : List.Forall₂ IsDelta (received.map fun text => (index, text)) chunks)
    {ending : StreamEnd} (cause : ending ≠ .raises) (later : InMemoryTokenStore) :
    vault.detokenize st.store received.flatten sessionId =
        some (deltasText (emitted (streamResponse vault later detok chunks ending).items)) ↔
      ending = .ends ∨ ¬HeldBack received := by
  obtain ⟨ledger, _, refines⟩ := reachable_refines laws reachable
  have rep := refines.store
  have bound := length_le_of_resolve rep short
  obtain ⟨detok', prepared', fresh, resolves⟩ := prepared_substitutes rep sessionId
  obtain rfl : detok' = detok := Option.some.inj (prepared'.symm.trans prepared)
  have out := emitted_streamResponse (resolves later) fresh carry ending
  have whole := deltasText_pushDeltas bound (received.map fun text => (index, text)) []
  have texts : (received.map fun text => (index, text)).map Prod.snd = received := by
    simp [Function.comp_def]
  have joined : deltasText (received.map fun text => (index, text)) = received.flatten := by
    simp [deltasText, List.flatMap_map, List.flatMap_id']
  rw [texts, joined, List.nil_append] at whole
  rw [texts] at out
  have empty_iff := (foldl_pushBuffer received).2
  rw [substitute_foldl_pushBuffer] at whole
  rw [detokenize_refines rep, Ledger.detokenize, ← whole, out, deltasText_append, deltasText_map,
    Option.some.injEq]
  generalize received.foldl pushBuffer [] = buffer at empty_iff
  rw [← empty_iff, List.append_cancel_left_eq]
  -- the end flushes the buffer, a provider error drops it
  cases ending with
  | raises => exact absurd rfl cause
  | ends => by_cases empty : buffer = [] <;> simp [empty, deltasText]
  | providerError message => simp [deltasText]

/-- The provider fails between two halves of a placeholder's suffix that are followed by
plain text: nothing is held back. -/
theorem stream_text_oneToken : ∃ detok,
    sampleVault.streamDetokenizerPrepared oneToken.store "s1".toList = some detok ∧
    sampleVault.detokenize oneToken.store "a [[PERSON_0 b".toList "s1".toList =
      some (deltasText (emitted (streamResponse sampleVault oneToken.store detok
        [deltaChunk 0 "a [[PER".toList, deltaChunk 0 "SON_0 b".toList]
        (.providerError "gone".toList)).items)) := by
  obtain ⟨ledger, _, refines⟩ := reachable_refines sampleVault_aesGcm
    (.tokenize "Hi Ann".toList [⟨3, 6, "PERSON".toList, "Ann".toList, (), .regex, none⟩]
      "s1".toList (.fresh 0) : sampleVault.Reachable oneToken)
  obtain ⟨detok, prepared, _⟩ := prepared_substitutes refines.store "s1".toList
  refine ⟨detok, prepared, ?_⟩
  refine (stream_text_iff sampleVault sampleVault_aesGcm oneToken (.tokenize _ _ _ (.fresh 0))
    "s1".toList (by decide) prepared 0 ["a [[PER".toList, "SON_0 b".toList]
    (.cons (isDelta_deltaChunk _ _) (.cons (isDelta_deltaChunk _ _) .nil))
    StreamEnd.noConfusion oneToken.store).mpr (.inr ?_)
  exact fun held => absurd held.1 (by decide)

/-- A provider that fails after `Hi [`: the client does not get the bracket. -/
theorem stream_text_lost : ∃ detok,
    sampleVault.streamDetokenizerPrepared .empty "s1".toList = some detok ∧
    sampleVault.detokenize .empty "Hi [".toList "s1".toList ≠
      some (deltasText (emitted (streamResponse sampleVault .empty detok
        [deltaChunk 0 "Hi [".toList] (.providerError "gone".toList)).items)) :=
  ⟨⟨"s1".toList, some .empty, []⟩, rfl, by decide⟩

end RedactGate
