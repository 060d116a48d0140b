import RedactGate.Redaction.RoundTrip

/-!
# Tokenize and detokenize round trip

What a call writes reads back as the original text, then and after any later calls,
as long as none of the look-alikes that the text already holds is a placeholder of
the session when it is read back. The vault never compares a draw with the text, so
the look-alikes have to be checked in the later state, not in the state before the
call.
-/
namespace RedactGate

open Library

variable {Score : Type}

/-- What a call of `tokenize` writes reads back as the original text in its session, then and after
any later calls, if no look-alike in the text is a placeholder of the session when it is read back;
another session, of which the output has no placeholder, reads it unchanged. The types are such as
the reader finds, no record of the session has the fingerprint of a span's value under another type,
and no draw is exhausted. -/
theorem tokenize_round_trip (vault : Vault) (aes : AesGcmLaws vault.crypto)
    (hmac : HmacInjective vault.crypto) (st : VaultState) (reachable : vault.Reachable st)
    (sessionId text : Text) (spans : List (EntitySpan Score)) (placed : Placed text spans)
    (typed : ∀ s ∈ spans, isTypeName s.entityType = true)
    (told : ∀ s ∈ spans, ∀ r ∈ st.store.allForSession sessionId,
      r.valueFingerprint = vault.fingerprint sessionId s.entityType (text.slice s.start s.stop) →
      r.entityType = s.entityType) (later : VaultState)
    (runs : vault.Later (vault.tokenize st text spans sessionId).2 later)
    (free : later.exhausted = 0) :
    ((∀ p, IsPlaceholder p → p <:+: text → later.store.getByPlaceholder sessionId p = none) →
      vault.detokenize later.store (vault.tokenize st text spans sessionId).1 sessionId =
        some text) ∧
    ∀ other, (∀ p, IsPlaceholder p → p <:+: (vault.tokenize st text spans sessionId).1 →
        later.store.getByPlaceholder other p = none) →
      vault.detokenize later.store (vault.tokenize st text spans sessionId).1 other =
        some (vault.tokenize st text spans sessionId).1 := by
  obtain ⟨ledger, ledger_reachable, refines⟩ := reachable_refines aes reachable
  obtain ⟨text_eq, refines'⟩ := tokenize_refines aes refines text spans sessionId
  obtain ⟨edits, after, tokenized, ordered, _, extend, _, replaced⟩ :=
    tokenize_eq_patch vault.fingerprint vault.urandom placed ledger sessionId
  rw [tokenized] at text_eq refines'
  obtain ⟨ledger', refines'', grows, counted, sound_later⟩ := later_refines aes refines' runs
  rw [text_eq]
  constructor
  · intro lookalikes
    -- the counter only grows, so no draw of the call was exhausted either
    have low := extend.counted
    have high : after.exhausted ≤ ledger'.exhausted := counted
    have zero := refines''.exhausted
    have sound : Ledger.Sound after.issues :=
      extend.sound (by omega) (ledger_reachable.sound (by omega))
    rw [detokenize_refines refines''.store, detokenize_patch hmac sound
      (sound_later (show ledger'.exhausted = after.exhausted by omega) sound) grows
      ((refines.store.unmistaken told).extend hmac typed extend) typed ordered replaced]
    exact fun p placeholder within => refines''.store.getByPlaceholder_eq_none.mp
      (lookalikes p placeholder within)
  · intro other unknown
    -- another session resolves nothing that the text contains
    rw [detokenize_refines refines''.store, Ledger.detokenize, substitute_eq_self]
    intro i k found
    obtain ⟨p, rest, here, rfl, placeholder⟩ := placeholderAt_spec found.1
    have within : p <:+: Edit.patch text 0 edits :=
      (List.prefix_append p rest).isInfix.trans (here ▸ (List.drop_suffix i _).isInfix)
    have resolved := found.2
    rw [here, List.take_left, refines''.store.getByPlaceholder_eq_none.mp
      (unknown p placeholder within)] at resolved
    cases resolved

theorem tokenize_round_trip_ann :
    sampleVault.detokenize
      (sampleVault.tokenize ⟨.empty, 0, 0⟩ "Hi Ann".toList
        [⟨3, 6, "PERSON".toList, "Ann".toList, (), .regex, none⟩] "s1".toList).2.store
      (sampleVault.tokenize ⟨.empty, 0, 0⟩ "Hi Ann".toList
        [⟨3, 6, "PERSON".toList, "Ann".toList, (), .regex, none⟩] "s1".toList).1 "s1".toList =
      some "Hi Ann".toList := by
  have placed : Placed "Hi Ann".toList
      [⟨3, 6, "PERSON".toList, "Ann".toList, (), .regex, none⟩] :=
    ⟨by decide, List.pairwise_singleton _ _⟩
  have trip := tokenize_round_trip sampleVault sampleVault_aesGcm sampleVault_hmac
    ⟨.empty, 0, 0⟩ (.fresh 0) "s1".toList _ _ placed (by decide) (by decide) _ .refl
    (by decide)
  exact trip.1 fun p placeholder within => absurd within (placeholder.not_infix (by decide))

/-- The round trip of one call, with the look-alikes compared with the state before the call instead
of the one after it. -/
def RoundTripsFrom (vault : Vault) (st : VaultState) (sessionId text : Text)
    (spans : List (EntitySpan Score)) : Prop :=
  (∀ s ∈ spans, s.start ≤ s.stop ∧ s.stop ≤ text.length) →
  spans.Pairwise (fun a b => a.overlaps b = false) →
  (∀ s ∈ spans, isTypeName s.entityType = true) →
  (∀ p, IsPlaceholder p → p <:+: text → st.store.getByPlaceholder sessionId p = none) →
  (vault.tokenize st text spans sessionId).2.exhausted = 0 →
  vault.detokenize (vault.tokenize st text spans sessionId).2.store
    (vault.tokenize st text spans sessionId).1 sessionId = some text

/-- A session in which a value of the type `A:B` has been stored. -/
def colonSession : VaultState :=
  (sampleVault.tokenize ⟨.empty, 0, 0⟩ "C".toList
    [⟨0, 1, "A:B".toList, "C".toList, (), .llm, none⟩] "s1".toList).2

/-- Three ways in which that round trip fails: a draw hits a look-alike in the text, a
stored type with a colon shares its fingerprint, an empty span shares its start. -/
theorem roundTripsFrom_fails :
    ¬RoundTripsFrom sampleVault ⟨.empty, 0, 0⟩ "s1".toList "[[SIN_000000]] 123".toList
        [⟨15, 18, "SIN".toList, "123".toList, (), .regex, none⟩] ∧
      sampleVault.Reachable colonSession ∧
      ¬RoundTripsFrom sampleVault colonSession "s1".toList "x B:C".toList
        [⟨2, 5, "A".toList, "B:C".toList, (), .regex, none⟩] ∧
      ¬RoundTripsFrom sampleVault ⟨.empty, 0, 0⟩ "s1".toList "abcdef".toList
        [⟨3, 3, "A".toList, [], (), .regex, none⟩,
          ⟨3, 6, "B".toList, "def".toList, (), .regex, none⟩] := by
  refine ⟨fun trips => ?_, .tokenize _ _ _ (.fresh 0), fun trips => ?_, fun trips => ?_⟩
  · have trip := trips (by decide) (List.pairwise_singleton _ _) (by decide)
      (fun _ _ _ => rfl) (by decide)
    revert trip
    decide
  · have trip := trips (by decide) (List.pairwise_singleton _ _) (by decide)
      (fun p placeholder within => absurd within (placeholder.not_infix (by decide)))
      (by decide)
    revert trip
    decide
  · have trip := trips (by decide) (by decide) (by decide) (fun _ _ _ => rfl) (by decide)
    revert trip
    decide

end RedactGate
