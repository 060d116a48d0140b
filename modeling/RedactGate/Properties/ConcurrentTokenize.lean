import RedactGate.Redaction.ConcurrentVault

/-!
# Concurrent calls and referential consistency

A call that finds no record of a value draws a placeholder and inserts it. When another
call has stored the value in between, the insert does nothing, but the placeholder that was
drawn is in the output all the same. As long as no call loses its placeholder so, all calls
agree on the placeholder of a value and every inserted placeholder is resolved.
-/
namespace RedactGate

open Library

variable {ι Score : Type} [DecidableEq ι]

/-- The outputs are the texts with placeholders put in for spans, from right to left, the calls use
the same placeholder for the same value, and `detokenize` puts the value in the place of each of
these placeholders, while it treats what stands between them as it would alone. -/
structure Consistent (vault : Vault) (sessionId : Text) (texts : ι → Text)
    (spans : ι → List (EntitySpan Score)) (s : VaultSystem ι Score) : Prop where
  covered : ∀ i, (s.writers i).inserted.map Insertion.span ++ (s.writers i).todo =
    Vault.rightToLeft (spans i)
  values : ∀ i, ∀ x ∈ (s.writers i).inserted,
    x.value = (texts i).slice x.span.start x.span.stop
  written : ∀ i, (s.writers i).out =
    Edit.patch (texts i) 0 ((s.writers i).inserted.reverse.map Insertion.edit)
  same : ∀ i j, ∀ x ∈ (s.writers i).inserted, ∀ y ∈ (s.writers j).inserted,
    x.span.entityType = y.span.entityType → x.value = y.value → x.placeholder = y.placeholder
  resolved : ∀ i, ∃ gaps, List.Forall₂
      (fun piece gap => vault.detokenizeRows sessionId s.store piece = some gap)
      (pieces (texts i) 0
        (((s.writers i).inserted.reverse.map Insertion.edit).map Edit.stretch)) gaps ∧
    vault.detokenizeRows sessionId s.store (s.writers i).out =
      some (Edit.weave gaps ((s.writers i).inserted.reverse.map Insertion.value))

/-- The steps of the calls at which none loses its placeholder: no insert is refused for another
call's row. -/
def winningStep (vault : Vault) (sessionId : Text) (urandom : ι → Urandom)
    (s : VaultSystem ι Score) (i : ι) : Option (VaultSystem ι Score) :=
  if Vault.keepsPlaceholder vault sessionId s.store (s.writers i) then
    vault.step sessionId urandom s i
  else none

/-- A store that holds what earlier calls stored, and calls that begin. -/
def startCalls (store : PostgresTokenStore) (texts : ι → Text)
    (spans : ι → List (EntitySpan Score)) : VaultSystem ι Score :=
  ⟨store, fun i => .start (texts i) (spans i)⟩

/-- The rows of the session hold values of their fingerprints, and each call has its
placeholders in the store. -/
structure AllBacked (vault : Vault) (sessionId : Text) (texts : ι → Text)
    (spans : ι → List (EntitySpan Score)) (s : VaultSystem ι Score) : Prop where
  sound : Vault.Sound vault sessionId s.store
  backed : ∀ i, Vault.Backed vault sessionId (texts i) (spans i) s.store (s.writers i)

variable {vault : Vault} {sessionId : Text} {urandom : ι → Urandom} {texts : ι → Text}
  {spans : ι → List (EntitySpan Score)}

omit [DecidableEq ι] in
theorem AllBacked.start {store : PostgresTokenStore} (sound : Vault.Sound vault sessionId store)
    (texts : ι → Text) (spans : ι → List (EntitySpan Score)) :
    AllBacked vault sessionId texts spans (startCalls store texts spans) where
  sound := sound
  backed i := .start vault sessionId (texts i) (spans i) store

theorem AllBacked.step (laws : AesGcmLaws vault.crypto) (digest : HmacDigest vault.crypto)
    (typed : ∀ i, ∀ s ∈ spans i, isTypeName s.entityType = true) {s s' : VaultSystem ι Score}
    {i : ι} (all : AllBacked vault sessionId texts spans s)
    (taken : winningStep vault sessionId urandom s i = some s') :
    AllBacked vault sessionId texts spans s' := by
  rw [winningStep] at taken
  split at taken
  next wins =>
    obtain ⟨⟨store, w⟩, operated, rfl⟩ := Option.map_eq_some_iff.mp taken
    obtain ⟨sound, backed, keeps⟩ :=
      Vault.operate_keeps laws digest (typed i) all.sound (all.backed i) wins operated
    refine ⟨sound, fun j => ?_⟩
    by_cases own : j = i
    · subst own
      simpa only [Function.update_self] using backed
    · simpa only [Function.update_of_ne own] using (all.backed j).mono keeps
  next => cases taken

omit [DecidableEq ι] in
/-- The output of a call is its text patched by its insertions: the spans are handled from the last
to the first, so that each write leaves the offsets before it alone. -/
theorem AllBacked.written {s : VaultSystem ι Score} (all : AllBacked vault sessionId texts spans s)
    {i : ι} (placed : Placed (texts i) (spans i)) :
    (s.writers i).out =
      Edit.patch (texts i) 0 ((s.writers i).inserted.reverse.map Insertion.edit) := by
  have part : ((s.writers i).inserted.map Insertion.span).Sublist
      (Vault.rightToLeft (spans i)) :=
    (all.backed i).covered ▸ List.sublist_append_left _ _
  have descending := List.pairwise_map.mp (placed.rightToLeft.sublist part)
  have ordered : Edit.Ordered (texts i) 0
      ((s.writers i).inserted.reverse.map Insertion.edit) := by
    refine Edit.ordered_of_pairwise (fun e member => ?_) ?_ (Nat.zero_le _)
    · obtain ⟨x, among, rfl⟩ := List.mem_map.mp member
      have own := part.subset (List.mem_map_of_mem (List.mem_reverse.mp among))
      have inside := placed.inside x.span ((rightToLeft_perm _).mem_iff.mp own)
      exact ⟨Nat.zero_le _, inside.1, inside.2⟩
    · rw [List.map_reverse, List.pairwise_reverse]
      exact List.pairwise_map.mpr descending
  have spliced := Edit.foldr_splice ordered
  rw [List.map_reverse, List.foldr_reverse] at spliced
  rw [(all.backed i).spliced, List.map_reverse]
  exact spliced

omit [DecidableEq ι] in
/-- Each insertion of each call is a placeholder that the session resolves to the value it stands
for, if the types are names. -/
theorem AllBacked.resolve (hmac : HmacInjective vault.crypto)
    (typed : ∀ i, ∀ s ∈ spans i, isTypeName s.entityType = true) {s : VaultSystem ι Score}
    (all : AllBacked vault sessionId texts spans s) {i : ι} {x : Insertion Score}
    (member : x ∈ (s.writers i).inserted) : IsPlaceholder x.placeholder ∧
      vault.resolve sessionId s.store x.placeholder = some x.value := by
  have own : x.span ∈ Vault.rightToLeft (spans i) := by
    rw [← (all.backed i).covered]
    exact List.mem_append_left _ (List.mem_map_of_mem member)
  exact all.sound.resolve hmac (typed i _ ((rightToLeft_perm _).mem_iff.mp own))
    ((all.backed i).inserted x member)

omit [DecidableEq ι] in
theorem AllBacked.consistent (hmac : HmacInjective vault.crypto)
    (placed : ∀ i, Placed (texts i) (spans i))
    (typed : ∀ i, ∀ s ∈ spans i, isTypeName s.entityType = true) {s : VaultSystem ι Score}
    (all : AllBacked vault sessionId texts spans s) :
    Consistent vault sessionId texts spans s where
  covered i := (all.backed i).covered
  values i := (all.backed i).values
  written i := all.written (placed i)
  same i j x member y member' type value := by
    have row := (all.backed i).inserted x member
    have row' := (all.backed j).inserted y member'
    rw [← type, ← value] at row'
    exact row.unique row'
  resolved i := by
    -- what was put in is read from the store, by a reader that knows its type
    have known : ∀ e ∈ (s.writers i).inserted.reverse.map Insertion.edit,
        IsPlaceholder e.new ∧ (vault.resolve sessionId s.store e.new).isSome := by
      intro e member
      obtain ⟨x, among, rfl⟩ := List.mem_map.mp member
      obtain ⟨shape, resolved⟩ := all.resolve hmac typed (List.mem_reverse.mp among)
      exact ⟨shape, by rw [Insertion.edit, resolved]; rfl⟩
    have values : ((s.writers i).inserted.reverse.map Insertion.edit).map
        (fun e => (restore (vault.resolve sessionId s.store) e).new) =
        (s.writers i).inserted.reverse.map Insertion.value := by
      rw [List.map_map]
      refine List.map_congr_left fun x among => ?_
      obtain ⟨_, resolved⟩ := all.resolve hmac typed (List.mem_reverse.mp among)
      simp only [Function.comp_apply, restore, Insertion.edit, resolved, Option.getD_some]
    refine ⟨_, List.forall₂_map_right_iff.mpr (List.forall₂_same.mpr fun piece _ =>
      all.sound.detokenizeRows piece), ?_⟩
    -- between the placeholders stand pieces of the text, in which the reader sees what it sees
    -- alone
    rw [all.sound.detokenizeRows, all.written (placed i), substitute_patch_eq_weave known, values]

/-- In every run in which no call loses its placeholder to another one, the calls stay consistent,
and `detokenize` reads what a finished call has put out. There may be any number of calls,
interleaved in any order, on any sound store. The spans lie in the texts apart from each other, and
their types are such as the reader finds. -/
theorem concurrent_tokenize_consistent (laws : AesGcmLaws vault.crypto)
    (hmac : HmacInjective vault.crypto) (digest : HmacDigest vault.crypto)
    {store : PostgresTokenStore} (sound : Vault.Sound vault sessionId store) (texts : ι → Text)
    (spans : ι → List (EntitySpan Score)) (placed : ∀ i, Placed (texts i) (spans i))
    (typed : ∀ i, ∀ s ∈ spans i, isTypeName s.entityType = true) {s : VaultSystem ι Score}
    (reached : Reaches (winningStep vault sessionId urandom) (startCalls store texts spans) s) :
    Consistent vault sessionId texts spans s := by
  have all : AllBacked vault sessionId texts spans s :=
    reached.invariant (AllBacked.start sound texts spans) fun _ _ _ =>
      AllBacked.step laws digest typed
  exact all.consistent hmac placed typed

/-! ## Two calls -/

/-- One span over the whole of a text of one character. -/
def oneSpan : EntitySpan Nat := ⟨0, 1, "PERSON".toList, "A".toList, 1, .llm, none⟩

/-- Each of two calls draws bytes of its own. -/
def twoDraws (i : Bool) : Urandom where
  bytes _ nbytes := List.replicate nbytes (if i then 1 else 0)
  length_bytes _ _ := List.length_replicate

def textA : Bool → Text := fun _ => "A".toList

def spansA : Bool → List (EntitySpan Nat) := fun _ => [oneSpan]

def twoCalls : VaultSystem Bool Nat := startCalls .empty textA spansA

/-- Two calls on one value, one after the other: the second counts an occurrence, and both outputs
are resolved. -/
theorem concurrent_tokenize_consistent_serial : ∃ s : VaultSystem Bool Nat,
    runSteps (winningStep sampleVault "s".toList twoDraws) twoCalls
      [false, false, false, true, true] = some s ∧
    (∀ i, (s.writers i).out = "[[PERSON_000000]]".toList) ∧
    Consistent sampleVault "s".toList textA spansA s := by
  have ends : (runSteps (winningStep sampleVault "s".toList twoDraws) twoCalls
      [false, false, false, true, true]).any (fun s =>
        decide (∀ i, (s.writers i).out = "[[PERSON_000000]]".toList)) = true := by decide
  obtain ⟨s, run, outs⟩ := (Option.any_eq_true _ _).mp ends
  refine ⟨s, run, of_decide_eq_true outs, concurrent_tokenize_consistent sampleVault_aesGcm
    sampleVault_hmac sampleVault_digest (fun _ member => absurd member List.not_mem_nil) textA
    spansA (fun _ => ⟨?_, List.pairwise_singleton _ _⟩) (fun _ => ?_) (reaches_of_runSteps run)⟩
  · exact List.forall_mem_singleton.mpr (show 0 ≤ 1 ∧ 1 ≤ "A".toList.length by decide)
  · exact List.forall_mem_singleton.mpr rfl

/-- Two calls of one session look for the same value before either stores it. The second insert does
nothing, and the placeholder that its call writes is never resolved. -/
theorem concurrent_tokenize_lost : ∃ s : VaultSystem Bool Nat,
    runSteps (sampleVault.step "s".toList twoDraws) twoCalls
      [false, true, false, true, false, true] = some s ∧
    (∀ i, (s.writers i).todo = []) ∧ ¬Consistent sampleVault "s".toList textA spansA s := by
  have ends : (runSteps (sampleVault.step "s".toList twoDraws) twoCalls
      [false, true, false, true, false, true]).any (fun s =>
        decide ((∀ i, (s.writers i).todo = []) ∧
          (s.writers true).out = "[[PERSON_010101]]".toList ∧
          sampleVault.detokenizeRows "s".toList s.store "[[PERSON_010101]]".toList =
            some "[[PERSON_010101]]".toList ∧
          (s.writers true).inserted.map Insertion.value = ["A".toList] ∧
          (s.writers true).inserted.map Insertion.edit =
            [⟨0, 1, "[[PERSON_010101]]".toList⟩])) = true := by
    decide
  obtain ⟨s, run, ends⟩ := (Option.any_eq_true _ _).mp ends
  obtain ⟨done, out, unknown, values, edits⟩ := of_decide_eq_true ends
  refine ⟨s, run, done, fun consistent => ?_⟩
  -- the placeholder in the second output is not resolved
  obtain ⟨gaps, read, whole⟩ := consistent.resolved true
  rw [List.map_reverse, edits] at read
  rw [out, unknown, List.map_reverse, values] at whole
  have empty : sampleVault.detokenizeRows "s".toList s.store [] = some [] := rfl
  obtain ⟨first, rest, front, later, rfl⟩ := List.forall₂_cons_left_iff.mp read
  obtain ⟨last, none, back, nothing, rfl⟩ := List.forall₂_cons_left_iff.mp later
  obtain rfl := List.forall₂_nil_left_iff.mp nothing
  obtain rfl : ([] : Text) = first := Option.some.inj (empty.symm.trans front)
  obtain rfl : ([] : Text) = last := Option.some.inj (empty.symm.trans back)
  exact absurd (Option.some.inj whole) (by decide)

end RedactGate
