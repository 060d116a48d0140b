import RedactGate.Redaction.LlmNer
import RedactGate.Redaction.Merge
import RedactGate.Redaction.RoundTrip

/-!
# Reversibility of LLM redactions

The writer puts any type into a placeholder, the reader knows upper snake case only
and the stream buffer 64 characters. What an LLM reply asks for is reversible in every
session exactly when each type that survives is in the reader's grammar and leaves
room for the longest suffix.
-/
namespace RedactGate

open Library

variable {Score : Type}

/-- Every placeholder inserted is one that the reader matches and the stream buffer
holds, and the text is restored if no allocation ran out of draws. -/
structure Reversible (vault : Vault) (st : VaultState) (sessionId text : Text)
    (spans : List (EntitySpan Score)) : Prop where
  readable : ∀ p ∈ vault.insertedPlaceholders sessionId text (Vault.rightToLeft spans) st,
    placeholderRe.fullmatch p = true ∧ p.length ≤ maxPlaceholderLen
  restored : (vault.tokenize st text spans sessionId).2.exhausted = 0 →
    vault.detokenize (vault.tokenize st text spans sessionId).2.store
      (vault.tokenize st text spans sessionId).1 sessionId = some text

/-- Reversible for every vault whose primitives obey their laws, in every state of it and every
session that stores no type with a colon. -/
def AlwaysReversible (text : Text) (spans : List (EntitySpan Score)) : Prop :=
  ∀ vault : Vault, AesGcmLaws vault.crypto → HmacInjective vault.crypto →
    HmacDigest vault.crypto → ∀ st, vault.Reachable st → ∀ sessionId,
    (∀ r ∈ st.store.allForSession sessionId, ':' ∉ r.entityType) →
    Reversible vault st sessionId text spans

/-- The longest type name whose placeholder fits with a suffix of 12 characters. -/
def maxTypeLen : Nat := 47

theorem placed_of_llm (unicode : Unicode) (text : Text) (items : List Fields) :
    Placed text (mergeSpans (anchorSpans unicode text items)) := by
  have inside : ∀ s ∈ anchorSpans unicode text items, s.start < s.stop ∧ s.stop ≤ text.length :=
    anchorSpans_inside
  have proper : ∀ s ∈ anchorSpans unicode text items, s.Proper := fun s hs => (inside s hs).1
  have known := fun s hs => inside s (mem_of_mem_mergeSpans proper (s := s) hs)
  refine ⟨fun s hs => ⟨Nat.le_of_lt (known s hs).1, (known s hs).2⟩, ?_⟩
  refine (mergeSpans_separated proper).imp_of_mem fun {a b} ha _ apart => ?_
  have first := (known a ha).1
  simp only [EntitySpan.overlaps, Bool.and_eq_false_iff, decide_eq_false_iff_not]
  omega

/-! ## Types in the grammar are reversible -/

variable {vault : Vault}

theorem reversible_of_typed (aes : AesGcmLaws vault.crypto) (hmac : HmacInjective vault.crypto)
    (digest : HmacDigest vault.crypto) {st : VaultState} (reachable : vault.Reachable st)
    {sessionId text : Text} {spans : List (EntitySpan Score)} (placed : Placed text spans)
    (none : ¬['[', '['] <:+: text)
    (plain : ∀ r ∈ st.store.allForSession sessionId, ':' ∉ r.entityType)
    (typed : ∀ s ∈ spans, isTypeName s.entityType = true ∧ s.entityType.length ≤ maxTypeLen) :
    Reversible vault st sessionId text spans := by
  obtain ⟨ledger, ledger_reachable, refines⟩ := reachable_refines aes reachable
  obtain ⟨text_eq, refines'⟩ := tokenize_refines aes refines text spans sessionId
  have reachable' := ledger_reachable.tokenize text spans sessionId
  obtain ⟨edits, after, tokenized, ordered, inserted, extend, _, replaced⟩ :=
    tokenize_eq_patch vault.fingerprint vault.urandom placed ledger sessionId
  rw [tokenized] at text_eq refines' reachable'
  have type_names : ∀ s ∈ spans, isTypeName s.entityType = true := fun s hs => (typed s hs).1
  have plain' := (refines.store.plainTypes plain).extend type_names extend
  -- the placeholders are readable, and the text comes back
  constructor
  · intro p member
    rw [insertedPlaceholders_refines aes sessionId text _ refines, ← inserted,
      List.mem_reverse, List.mem_map] at member
    obtain ⟨e, in_edits, rfl⟩ := member
    obtain ⟨span, in_spans, _, _, covers⟩ := replaced e in_edits
    have issued := covers_eq hmac plain' (colon_not_mem_typeName (type_names span in_spans)) covers
    obtain ⟨tokenHex, token_hex, made⟩ :=
      reachable'.made (Vault.isTokenHex_fallback digest) _ issued
    simp only at made
    have placeholder : IsPlaceholder e.new :=
      ⟨_, tokenHex, type_names span in_spans, token_hex, made⟩
    refine ⟨Regex.fullmatch_iff.mpr (matches_placeholderRe.mpr placeholder), ?_⟩
    have short := (typed span in_spans).2
    simp only [isTokenHex, Bool.and_eq_true, decide_eq_true_eq] at token_hex
    rw [made, length_makePlaceholder]
    simp only [maxTypeLen, maxPlaceholderLen] at short ⊢
    omega
  · intro free
    -- without an exhausted draw no placeholder was issued twice
    have low := extend.counted
    have zero : after.exhausted = 0 := refines'.exhausted.symm.trans free
    have sound : Ledger.Sound after.issues :=
      extend.sound (by omega) (ledger_reachable.sound (by omega))
    rw [text_eq, detokenize_refines refines'.store, detokenize_patch hmac sound sound
      List.suffix_rfl (plain'.unmistaken hmac type_names) type_names ordered replaced]
    exact fun p placeholder within => absurd within (placeholder.not_infix none)

/-! ## A vault whose draws never repeat -/

/-- The base-256 digits of a number, lowest first. -/
def base256 : Nat → Nat → Bytes
  | 0, _ => []
  | n + 1, x => UInt8.ofNat (x % 256) :: base256 n (x / 256)

theorem length_base256 (n x : Nat) : (base256 n x).length = n := by
  induction n generalizing x with
  | zero => rfl
  | succ n ih => rw [base256, List.length_cons, ih]

theorem base256_injective {n x y : Nat} (hx : x < 256 ^ n) (hy : y < 256 ^ n)
    (same : base256 n x = base256 n y) : x = y := by
  induction n generalizing x y with
  | zero => omega
  | succ n ih =>
    obtain ⟨low, high⟩ := List.cons.inj same
    rw [Nat.pow_succ] at hx hy
    have rest := ih (by omega) (by omega) high
    have byte := congrArg UInt8.toNat low
    simp only [UInt8.toNat_ofNat'] at byte
    omega

/-- The sample vault with the number of the call as the random bytes. -/
def countingVault : Vault :=
  { sampleVault with
    urandom := ⟨fun call nbytes => base256 nbytes call, fun call n => length_base256 n call⟩ }

/-- Every placeholder so far came from the first attempt of an earlier draw. -/
def Counted (ledger : Ledger) : Prop :=
  ∀ e ∈ ledger.issues, ∃ call < ledger.draws,
    e.placeholder = makePlaceholder e.entityType (hex (base256 3 call))

theorem counting_step {ledger : Ledger} (counted : Counted ledger)
    (room : ledger.draws < 256 ^ 3) (ident : Text → Text → Text → Text)
    (sessionId entityType value : Text) :
    Counted (ledger.placeholderOf ident countingVault.urandom sessionId entityType value).2 ∧
      (ledger.placeholderOf ident countingVault.urandom sessionId entityType value).2.exhausted =
        ledger.exhausted ∧
      (ledger.placeholderOf ident countingVault.urandom sessionId entityType value).2.draws ≤
        ledger.draws + 2 := by
  -- a placeholder issued before carries a smaller draw, so the next one is free
  have free : Ledger.taken ledger.issues sessionId
      (makePlaceholder entityType (hex (base256 3 ledger.draws))) = false := by
    rw [Ledger.taken, List.any_eq_false]
    intro e member held
    simp only [Ledger.holds, decide_eq_true_eq] at held
    obtain ⟨call, earlier, made⟩ := counted e member
    rw [made] at held
    have same := (makePlaceholder_inj (underscore_not_mem_hex _) (underscore_not_mem_hex _)
      held.2).2
    have call_eq := base256_injective (by omega) room (hex_injective same)
    omega
  have drawn : drawPlaceholder countingVault.urandom (Ledger.taken ledger.issues sessionId)
      entityType drawSizes ledger.draws =
        (some (makePlaceholder entityType (hex (base256 3 ledger.draws))), ledger.draws + 1) := by
    rw [show drawSizes = 3 :: drawSizes.tail from rfl, drawPlaceholder]
    exact if_neg (by rw [show countingVault.urandom.bytes ledger.draws 3 = base256 3 ledger.draws
      from rfl, free]; decide)
  rw [Ledger.placeholderOf]
  cases Ledger.find ident ledger.issues sessionId entityType value with
  | some e => exact ⟨counted, rfl, Nat.le_add_right _ _⟩
  | none =>
    simp only [drawn, true_and]
    refine ⟨fun e member => ?_, Nat.le_refl _⟩
    rcases List.mem_cons.mp member with rfl | member
    · exact ⟨ledger.draws, by simp only; omega, rfl⟩
    · obtain ⟨call, earlier, made⟩ := counted e member
      exact ⟨call, by simp only; omega, made⟩

theorem counting_run (ident : Text → Text → Text → Text) (sessionId text : Text)
    (todo : List (EntitySpan Score)) : ∀ (out : Text) {ledger : Ledger}, Counted ledger →
      ledger.draws + 2 * todo.length ≤ 256 ^ 3 →
      (todo.foldl (Ledger.tokenizeSpan ident countingVault.urandom sessionId text)
        (out, ledger)).2.exhausted = ledger.exhausted := by
  induction todo with
  | nil => exact fun _ _ _ _ => rfl
  | cons span todo ih =>
    intro out ledger counted room
    rw [List.length_cons] at room
    obtain ⟨counted', exhausted, draws⟩ := counting_step counted (by omega) ident sessionId
      span.entityType (text.slice span.start span.stop)
    rw [List.foldl_cons, Ledger.tokenizeSpan]
    simp only
    rw [ih _ counted' (by omega), exhausted]

/-- With draws that never repeat nothing is exhausted, so a reversible call restores
the text. No restored value is shorter than its span, hence none is longer, and each
type is the one its placeholder shows. -/
theorem typeNames_of_reversible {text : Text} {spans : List (EntitySpan Score)}
    (placed : Placed text spans) (none : ¬['[', '['] <:+: text) (few : spans.length ≤ 2 ^ 23)
    (reversible : Reversible countingVault ⟨.empty, 0, 0⟩ [] text spans) :
    ∀ s ∈ spans, isTypeName s.entityType = true := by
  have aes : AesGcmLaws countingVault.crypto := sampleVault_aesGcm
  have hmac : HmacInjective countingVault.crypto := sampleVault_hmac
  have refines : Refines countingVault ⟨[], 0, 0⟩ ⟨.empty, 0, 0⟩ := ⟨represents_empty, rfl, rfl⟩
  have start : Ledger.Reachable countingVault.fingerprint countingVault.urandom ⟨[], 0, 0⟩ :=
    .fresh 0
  obtain ⟨text_eq, refines'⟩ := tokenize_refines aes refines text spans []
  have reachable := start.tokenize text spans []
  have counted : Counted ⟨[], 0, 0⟩ := by simp [Counted]
  have exhausted := counting_run countingVault.fingerprint [] text (Vault.rightToLeft spans) text
    counted (by rw [(rightToLeft_perm spans).length_eq]; simp only; omega)
  obtain ⟨edits, after, tokenized, ordered, inserted, _, covered, replaced⟩ :=
    tokenize_eq_patch countingVault.fingerprint countingVault.urandom placed ⟨[], 0, 0⟩ []
  have free : after.exhausted = 0 := by
    have same := congrArg (fun r => r.2.exhausted) tokenized
    exact same.symm.trans exhausted
  rw [tokenized] at text_eq refines' reachable
  have sound := reachable.sound free
  have readable : ∀ e ∈ edits, IsPlaceholder e.new := by
    intro e member
    have listed : e.new ∈ countingVault.insertedPlaceholders [] text (Vault.rightToLeft spans)
        ⟨.empty, 0, 0⟩ := by
      rw [insertedPlaceholders_refines aes [] text _ refines, ← inserted, List.mem_reverse]
      exact List.mem_map_of_mem member
    exact matches_placeholderRe.mp (Regex.fullmatch_iff.mp (reversible.readable _ listed).1)
  -- what the issue behind an edit has to do with the span of the edit
  have behind : ∀ span ∈ spans, ∀ e ∈ edits,
      Ledger.Replaces countingVault.fingerprint after.issues [] text span e →
      ∃ issue : Issue, isTypeName issue.entityType = true ∧
        Ledger.resolve after.issues [] e.new = some issue.value ∧
        issue.entityType ++ ':' :: issue.value =
          span.entityType ++ ':' :: text.slice e.start e.stop := by
    rintro span _ e in_edits ⟨at_start, at_stop, issue, issued, session, same_placeholder, same⟩
    obtain ⟨tokenHex, token_hex, made⟩ := sound.drawn issue issued
    have placeholder := readable e in_edits
    rw [← same_placeholder, made] at placeholder
    have resolved := sound.resolve issued
    rw [session, same_placeholder] at resolved
    rw [at_start, at_stop]
    exact ⟨issue, isTypeName_of_isPlaceholder token_hex placeholder, resolved,
      (Vault.fingerprint_eq_iff hmac _).mp same⟩
  have longer : ∀ span ∈ spans, ∀ e ∈ edits,
      Ledger.Replaces countingVault.fingerprint after.issues [] text span e →
      e.stop - e.start = (text.slice e.start e.stop).length ∧
        e.stop - e.start ≤ (restore (Ledger.resolve after.issues []) e).new.length := by
    intro span in_spans e in_edits replaces
    obtain ⟨issue, type_name, resolved, same⟩ := behind span in_spans e in_edits replaces
    have inside := (placed.inside span in_spans).2
    have len : (text.slice e.start e.stop).length = e.stop - e.start :=
      Text.length_slice (replaces.2.1 ▸ inside)
    have short := Text.length_le_of_append_cons_eq (colon_not_mem_typeName type_name) same
    have total := congrArg List.length same
    simp only [List.length_append, List.length_cons] at total
    simp only [restore, resolved, Option.getD_some]
    omega
  have whole := reversible.restored (by rw [refines'.exhausted]; exact free)
  rw [text_eq, detokenize_refines refines'.store, Option.some.injEq, Ledger.detokenize,
    substitute_patch
      (fun p placeholder within => absurd within (placeholder.not_infix none)) ?_] at whole
  · intro span in_spans
    obtain ⟨e, in_edits, replaces⟩ := covered span in_spans
    obtain ⟨issue, type_name, resolved, same⟩ := behind span in_spans e in_edits replaces
    have equal := Edit.length_eq_of_patch_length (ordered_restore ordered) (fun e' member => by
      obtain ⟨e'', in_edits', rfl⟩ := List.mem_map.mp member
      obtain ⟨span', in_spans', replaces'⟩ := replaced e'' in_edits'
      exact (longer span' in_spans' e'' in_edits' replaces').2) (by rw [whole]; simp)
      (restore (Ledger.resolve after.issues []) e) (List.mem_map_of_mem in_edits)
    have len := (longer span in_spans e in_edits replaces).1
    simp only [restore, resolved, Option.getD_some] at equal
    have types := List.append_inj' same (by simp only [List.length_cons]; omega)
    exact types.1 ▸ type_name
  · intro e in_edits
    obtain ⟨span, in_spans, replaces⟩ := replaced e in_edits
    obtain ⟨issue, _, resolved, _⟩ := behind span in_spans e in_edits replaces
    exact ⟨readable e in_edits, by rw [resolved]; rfl⟩

/-! ## A vault whose draws always repeat -/

/-- The sample vault with zeros as the random bytes. -/
def zerosVault : Vault :=
  { sampleVault with urandom := ⟨fun _ nbytes => List.replicate nbytes 0, by simp⟩ }

def zeroToken (entityType : Text) (nbytes : Nat) : Text :=
  makePlaceholder entityType (hex (List.replicate nbytes 0))

theorem drawPlaceholder_zeros (taken : Text → Bool) (entityType : Text) (sizes : List Nat)
    (draws : Nat) : (drawPlaceholder zerosVault.urandom taken entityType sizes draws).1 =
      (sizes.find? fun n => !taken (zeroToken entityType n)).map (zeroToken entityType) := by
  induction sizes generalizing draws with
  | nil => rfl
  | cons n sizes ih =>
    have bytes : zerosVault.urandom.bytes draws n = List.replicate n 0 := rfl
    rw [drawPlaceholder, bytes]
    cases used : taken (zeroToken entityType n) with
    | true =>
      have used' := used
      rw [zeroToken] at used'
      simp only [used', if_true, ih, List.find?_cons, used, Bool.not_true]
    | false =>
      have used' := used
      rw [zeroToken] at used'
      simp only [used', Bool.false_eq_true, if_false, List.find?_cons, used, Bool.not_false,
        Option.map_some]
      rfl

/-- The suffixes of 3 up to `2 + k` bytes are used up for the type. -/
def Filled (k : Nat) (issues : List Issue) (sessionId entityType : Text) : Prop :=
  ∀ n, 3 ≤ n → n < 3 + k → Ledger.taken issues sessionId (zeroToken entityType n) = true

/-- A value that is new to the session takes the next of the four suffixes that this vault draws, if
fewer than four of them are used up. -/
theorem fill_step {k : Nat} (few : k < 4) {ledger : Ledger} {sessionId entityType value : Text}
    (filled : Filled k ledger.issues sessionId entityType) {ident : Text → Text → Text → Text}
    (fresh : Ledger.find ident ledger.issues sessionId entityType value = none) :
    Filled (k + 1) (ledger.placeholderOf ident zerosVault.urandom sessionId entityType
      value).2.issues sessionId entityType := by
  have drawn := drawPlaceholder_zeros (Ledger.taken ledger.issues sessionId) entityType drawSizes
    ledger.draws
  intro n low high
  -- the draw takes the shortest suffix that is free, which is the k-th
  by_cases before : Ledger.taken ledger.issues sessionId (zeroToken entityType n) = true
  · obtain ⟨older, member, held⟩ := List.any_eq_true.mp before
    have grows := (Ledger.placeholderOf_step ident zerosVault.urandom ledger sessionId entityType
      value).2.grows
    exact List.any_eq_true.mpr ⟨older, grows.subset member, held⟩
  · have next : n = 3 + k := by
      by_contra other
      exact before (filled n low (by omega))
    have first : (drawSizes.find? fun m =>
        !Ledger.taken ledger.issues sessionId (zeroToken entityType m)) = some n := by
      subst next
      have free := Bool.eq_false_iff.mpr before
      rcases (by omega : k = 0 ∨ k = 1 ∨ k = 2 ∨ k = 3) with rfl | rfl | rfl | rfl
      · simp [drawSizes, List.replicate, free]
      · have three := filled 3 (by decide) (by decide)
        simp [drawSizes, List.replicate, free, three]
      · have three := filled 3 (by decide) (by decide)
        have four := filled 4 (by decide) (by decide)
        simp [drawSizes, List.replicate, free, three, four]
      · have three := filled 3 (by decide) (by decide)
        have four := filled 4 (by decide) (by decide)
        have five := filled 5 (by decide) (by decide)
        simp [drawSizes, List.replicate, free, three, four, five]
    rw [first] at drawn
    rw [Ledger.placeholderOf, fresh]
    match result : drawPlaceholder zerosVault.urandom (Ledger.taken ledger.issues sessionId)
      entityType drawSizes ledger.draws with
    | (some placeholder, draws) =>
      rw [result] at drawn
      obtain rfl : placeholder = zeroToken entityType n := by simpa using drawn
      simp [Ledger.taken, Ledger.holds]
    | (none, draws) =>
      rw [result] at drawn
      cases drawn

/-- A call whose only span is the whole text allocates for that text, and for nothing else. -/
theorem tokenize_whole (vault : Vault) (st : VaultState) (entityType value sessionId : Text) :
    (vault.tokenize st value
        [(⟨0, value.length, entityType, value, 0, .regex, none⟩ : EntitySpan ℚ)] sessionId).2 =
      (vault.placeholderOf st sessionId entityType value).2 := by
  have whole : value.slice 0 value.length = value := by simp [Text.slice]
  rw [Vault.tokenize, if_neg (by simp), Vault.rightToLeft]
  simp only [List.insertionSort_cons, List.insertionSort_nil, List.orderedInsert_nil,
    List.foldl_cons, List.foldl_nil, Vault.tokenizeSpan, whole]

/-- For each `k` up to four there is a reachable session in which the first `k` suffixes of a type
are used up, by values that are all longer than a given text. -/
theorem exists_filled (text entityType : Text) (k : Nat) (few : k ≤ 4) :
    ∃ st ledger, zerosVault.Reachable st ∧ Refines zerosVault ledger st ∧
      Filled k ledger.issues [] entityType ∧
      ∀ e ∈ ledger.issues, e.sessionId = [] ∧ e.entityType = entityType ∧
        text.length < e.value.length ∧ e.value.length ≤ text.length + k := by
  have aes : AesGcmLaws zerosVault.crypto := sampleVault_aesGcm
  have hmac : HmacInjective zerosVault.crypto := sampleVault_hmac
  -- by induction on the suffixes taken: each new value, longer than all before, takes the next one
  induction k with
  | zero =>
    refine ⟨⟨.empty, 0, 0⟩, ⟨[], 0, 0⟩, .fresh 0, ⟨represents_empty, rfl, rfl⟩, ?_, by simp⟩
    intro n low high
    omega
  | succ k ih =>
    obtain ⟨st, ledger, reachable, refines, filled, values⟩ := ih (by omega)
    obtain ⟨value, len⟩ : ∃ value : Text, value.length = text.length + k + 1 :=
      ⟨List.replicate (text.length + k + 1) 'x', List.length_replicate⟩
    have fresh : Ledger.find zerosVault.fingerprint ledger.issues [] entityType value = none := by
      refine List.find?_eq_none.mpr fun e member => ?_
      obtain ⟨_, type_eq, _, short⟩ := values e member
      rw [type_eq, decide_eq_true_eq]
      rintro ⟨_, same⟩
      have equal := congrArg List.length ((Vault.fingerprint_eq_iff hmac []).mp same)
      simp only [List.length_append, List.length_cons] at equal
      omega
    have step := Ledger.placeholderOf_step zerosVault.fingerprint zerosVault.urandom ledger []
      entityType value
    have next := placeholderOf_refines aes refines [] entityType value
    have reached := reachable.tokenize value
      [(⟨0, value.length, entityType, value, 0, .regex, none⟩ : EntitySpan ℚ)] []
    rw [tokenize_whole] at reached
    refine ⟨_, _, reached, next.2, fill_step (by omega) filled fresh, fun e member => ?_⟩
    rcases step.2.origin e member with old | ⟨session, ⟨type_eq, rfl⟩, _⟩
    · obtain ⟨session, type_eq, above, below⟩ := values e old
      exact ⟨session, type_eq, above, by omega⟩
    · exact ⟨session, type_eq, by omega, by omega⟩

/-- In a session with the short suffixes used up, the placeholder of a new value has
the longest suffix. -/
theorem typeLen_of_reversible {text : Text} {spans : List (EntitySpan Score)}
    (placed : Placed text spans) (typed : ∀ s ∈ spans, isTypeName s.entityType = true)
    (reversible : AlwaysReversible text spans) :
    ∀ s ∈ spans, s.entityType.length ≤ maxTypeLen := by
  have aes : AesGcmLaws zerosVault.crypto := sampleVault_aesGcm
  have hmac : HmacInjective zerosVault.crypto := sampleVault_hmac
  have digest : HmacDigest zerosVault.crypto := sampleVault_digest
  intro span in_spans
  have colon := colon_not_mem_typeName (typed span in_spans)
  -- a state where the three shorter suffixes of the type are taken
  obtain ⟨st, ledger, reachable, refines, filled, values⟩ :=
    exists_filled text span.entityType 3 (by decide)
  have plain : ∀ r ∈ st.store.allForSession [], ':' ∉ r.entityType := by
    intro r stored
    obtain ⟨e, mine, record⟩ := (exists_of_forall₂ (refines.store.allForSession [])).2 r stored
    have issued := (List.mem_filter.mp (List.mem_reverse.mp mine)).1
    rw [record.entityType, (values e issued).2.1]
    exact colon
  have readable := (reversible zerosVault aes hmac digest st reachable [] plain).readable
  obtain ⟨edits, after, tokenized, ordered, inserted, extend, covered, _⟩ :=
    tokenize_eq_patch zerosVault.fingerprint zerosVault.urandom placed ledger []
  obtain ⟨e, in_edits, _, _, covers⟩ := covered span in_spans
  have short : e.new.length ≤ maxPlaceholderLen := by
    refine (readable e.new ?_).2
    rw [insertedPlaceholders_refines aes [] text _ refines, ← inserted, List.mem_reverse]
    exact List.mem_map_of_mem in_edits
  have issued := covers_eq hmac ((refines.store.plainTypes plain).extend typed extend)
    (colon_not_mem_typeName (typed span in_spans)) covers
  -- the placeholder is an older one, a fresh draw or the fallback
  rcases extend.origin _ issued with old | ⟨_, _, ⟨free, nbytes, size, call, made⟩ | made⟩
  · have long := (values _ old).2.2.1
    have inside := placed.inside span in_spans
    simp only [Text.length_slice inside.2] at long
    omega
  · -- a free draw has the longest suffix, since the shorter ones are taken
    have bounds : ∀ n ∈ drawSizes, 3 ≤ n ∧ n ≤ 6 := by decide
    obtain ⟨low, high⟩ := bounds nbytes size
    have longest : nbytes = 6 := by
      by_contra other
      have taken := filled nbytes low (by omega)
      have zeros : zerosVault.urandom.bytes call nbytes = List.replicate nbytes 0 := rfl
      simp only at free made
      rw [made, zeros] at free
      rw [zeroToken, free] at taken
      cases taken
    simp only at made
    rw [made, length_makePlaceholder, length_hex, zerosVault.urandom.length_bytes] at short
    simp only [maxPlaceholderLen, maxTypeLen] at short ⊢
    omega
  · have suffix := Vault.isTokenHex_fallback digest [] span.entityType
      (text.slice span.start span.stop)
    have long := digest zerosVault.fingerprintKey (utf8 ([] ++ ':' :: (span.entityType ++
      ':' :: text.slice span.start span.stop)))
    have len : ((zerosVault.fingerprint [] span.entityType
        (text.slice span.start span.stop)).take 12).length = 12 := by
      rw [List.length_take, Vault.fingerprint, length_hex]
      omega
    simp only at made
    rw [made, length_makePlaceholder, len] at short
    simp only [maxPlaceholderLen, maxTypeLen] at short ⊢
    omega

/-- What an LLM reply asks for is reversible in every session if each type that survives is in the
grammar of placeholders and has at most 47 characters, and, as far as a reply has no more items than
there are draws, only then. The text does not hold two opening brackets in a row. -/
theorem anchored_alwaysReversible (unicode : Unicode) (text : Text) (items : List Fields)
    (none : ¬['[', '['] <:+: text) :
    ((∀ s ∈ mergeSpans (anchorSpans unicode text items),
        isTypeName s.entityType = true ∧ s.entityType.length ≤ maxTypeLen) →
      AlwaysReversible text (mergeSpans (anchorSpans unicode text items))) ∧
    ((mergeSpans (anchorSpans unicode text items)).length ≤ 2 ^ 23 →
      AlwaysReversible text (mergeSpans (anchorSpans unicode text items)) →
      ∀ s ∈ mergeSpans (anchorSpans unicode text items),
        isTypeName s.entityType = true ∧ s.entityType.length ≤ maxTypeLen) := by
  have placed := placed_of_llm unicode text items
  constructor
  · intro typed vault aes hmac digest st reachable sessionId plain
    exact reversible_of_typed aes hmac digest reachable placed none plain typed
  · intro few reversible s in_spans
    have fresh := reversible countingVault sampleVault_aesGcm sampleVault_hmac sampleVault_digest
      ⟨.empty, 0, 0⟩ (.fresh 0) [] (by simp [InMemoryTokenStore.allForSession,
        InMemoryTokenStore.empty, Dict.empty])
    have typed := typeNames_of_reversible placed none few fresh
    exact ⟨typed s in_spans, typeLen_of_reversible placed typed reversible s in_spans⟩

theorem anchored_alwaysReversible_person :
    AlwaysReversible "Hi Ann".toList (mergeSpans (anchorSpans .ascii "Hi Ann".toList
      [[("text".toList, .str "Ann".toList), ("type".toList, .str "person".toList)]])) :=
  (anchored_alwaysReversible .ascii _ _ (by decide)).1 (by decide)

/-- A type with a hyphen, as a model may report it: the text has no double brackets, the placeholder
is written, and the reader never finds it again. -/
theorem hyphenated_not_reversible :
    ¬['[', '['] <:+: "born 1 May".toList ∧ ¬Reversible sampleVault ⟨.empty, 0, 0⟩ "s1".toList
      "born 1 May".toList (mergeSpans (anchorSpans .ascii "born 1 May".toList
        [[("text".toList, .str "1 May".toList),
          ("type".toList, .str "date-of-birth".toList)]])) := by
  refine ⟨by decide, fun reversible => ?_⟩
  have lost : sampleVault.detokenize
      (sampleVault.tokenize ⟨.empty, 0, 0⟩ "born 1 May".toList (mergeSpans (anchorSpans .ascii
        "born 1 May".toList [[("text".toList, .str "1 May".toList),
          ("type".toList, .str "date-of-birth".toList)]])) "s1".toList).2.store
      (sampleVault.tokenize ⟨.empty, 0, 0⟩ "born 1 May".toList (mergeSpans (anchorSpans .ascii
        "born 1 May".toList [[("text".toList, .str "1 May".toList),
          ("type".toList, .str "date-of-birth".toList)]])) "s1".toList).1 "s1".toList ≠
      some "born 1 May".toList := by
    decide
  exact lost (reversible.restored (by decide))

end RedactGate
