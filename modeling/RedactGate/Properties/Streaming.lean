import RedactGate.Redaction.StreamDetokenizer

/-!
# Streaming re-inflation

However a text is cut into chunks, the stream gives what detokenizing it at once
gives, and it never buffers more than a placeholder's length.
-/
namespace RedactGate

open Library

variable {vault : Vault}

/-- The session resolves only placeholders that one of its records stores, so that they are no
longer than these. -/
theorem length_le_of_resolve {issues : List Issue} {store : InMemoryTokenStore}
    (rep : Represents vault issues store) {sessionId : Text} {bound : Nat}
    (short : ∀ r ∈ store.allForSession sessionId, r.placeholder.length ≤ bound) (p : Text)
    (resolved : (Ledger.resolve issues sessionId p).isSome) : p.length ≤ bound := by
  rw [Ledger.resolve, Option.isSome_map] at resolved
  obtain ⟨e, found⟩ := Option.isSome_iff_exists.mp resolved
  have holds := List.find?_some found
  simp only [Ledger.holds, decide_eq_true_eq] at holds
  have mine : e ∈ (issues.filter (·.sessionId = sessionId)).reverse := by
    simp [List.mem_of_find?_eq_some found, holds.1]
  obtain ⟨r, member, record⟩ := (exists_of_forall₂ (rep.allForSession sessionId)).1 e mine
  have stored := short r member
  rwa [record.placeholder, holds.2] at stored

/-- However a text is cut, streaming it gives what detokenizing it at once gives, with the store
asked at each chunk and with the pairs prepared beforehand, whatever becomes of the store then; and
no more than 64 characters are ever held back. The placeholders of the session have at most 64
characters. -/
theorem stream_eq_detokenize (vault : Vault) (laws : AesGcmLaws vault.crypto) (st : VaultState)
    (reachable : vault.Reachable st) (sessionId : Text)
    (short : ∀ r ∈ st.store.allForSession sessionId, r.placeholder.length ≤ maxPlaceholderLen)
    (text : Text) (chunks : List Text) (cut : chunks.flatten = text) :
    ∃ whole prepared, vault.detokenize st.store text sessionId = some whole ∧
      vault.streamDetokenizerPrepared st.store sessionId = some prepared ∧
      (Vault.streamDetokenizer sessionId).stream vault st.store chunks = some whole ∧
      (∀ later, prepared.stream vault later chunks = some whole) ∧
      ∀ pushed, pushed <+: chunks →
        (∃ out sd, (Vault.streamDetokenizer sessionId).pushAll vault st.store pushed =
          some (out, sd) ∧ sd.buffer.length ≤ maxPlaceholderLen) ∧
        ∀ later, ∃ out sd, prepared.pushAll vault later pushed = some (out, sd) ∧
          sd.buffer.length ≤ maxPlaceholderLen := by
  obtain ⟨ledger, _, refines⟩ := reachable_refines laws reachable
  have rep := refines.store
  have bound := length_le_of_resolve rep short
  -- the two detokenizers, on the live store and on a snapshot, substitute alike
  have live := StreamDetokenizer.live_substitutes rep sessionId
  obtain ⟨prepared, snapshot, fresh, substitutes⟩ :=
    StreamDetokenizer.prepared_substitutes rep sessionId
  subst cut
  refine ⟨_, prepared, detokenize_refines rep _ sessionId, snapshot,
    StreamDetokenizer.stream_eq bound live rfl chunks,
    fun later => StreamDetokenizer.stream_eq bound (substitutes later) fresh chunks,
    fun pushed _ => ⟨?_, fun later => ?_⟩⟩
  · obtain ⟨out, buffer, eq, small, _⟩ :=
      StreamDetokenizer.pushAll_eq bound pushed live (Nat.zero_le _)
    exact ⟨out, _, eq, small⟩
  · obtain ⟨out, buffer, eq, small, _⟩ := StreamDetokenizer.pushAll_eq bound pushed
      (substitutes later) (by rw [fresh]; exact Nat.zero_le _)
    exact ⟨out, _, eq, small⟩

/-- A session that has issued one placeholder, `[[PERSON_000000]]`. -/
def oneToken : VaultState :=
  (sampleVault.tokenize ⟨.empty, 0, 0⟩ "Hi Ann".toList
    [⟨3, 6, "PERSON".toList, "Ann".toList, (), .regex, none⟩] "s1".toList).2

theorem stream_eq_detokenize_oneToken :
    ∃ whole, sampleVault.detokenize oneToken.store "a [[PERSON_000000]] b".toList "s1".toList =
        some whole ∧
      (Vault.streamDetokenizer "s1".toList).stream sampleVault oneToken.store
        ["a [[PER".toList, [], "SON_000000]".toList, "] b".toList] = some whole := by
  obtain ⟨whole, _, at_once, _, streamed, _⟩ := stream_eq_detokenize sampleVault
    sampleVault_aesGcm oneToken (.tokenize _ _ _ (.fresh 0)) "s1".toList (by decide)
    "a [[PERSON_000000]] b".toList
    ["a [[PER".toList, [], "SON_000000]".toList, "] b".toList] (by decide)
  exact ⟨whole, at_once, streamed⟩

end RedactGate
