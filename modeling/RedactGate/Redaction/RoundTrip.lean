import RedactGate.Redaction.Refinement

/-!
# Patching a text with placeholders and back

The right-to-left splices of `tokenize` patch the text with one placeholder a span.
A placeholder cannot be straddled by another, whatever text stands next to it, so
substituting the patched text substitutes the placeholders one by one.
-/
namespace RedactGate

open Library

variable {Score : Type}

/-- Spans that can be replaced one by one: within the text, with distinct starts and
without overlaps. -/
structure Placed (text : Text) (spans : List (EntitySpan Score)) : Prop where
  inside : ∀ s ∈ spans, s.start ≤ s.stop ∧ s.stop ≤ text.length
  apart : spans.Pairwise fun a b => a.start ≠ b.start ∧ a.overlaps b = false

theorem rightToLeft_perm (spans : List (EntitySpan Score)) :
    (Vault.rightToLeft spans).Perm spans :=
  List.perm_insertionSort _ _

/-- In the order in which placed spans are replaced, each ends before the previous one starts, so
that no replacement moves the next one. -/
theorem Placed.rightToLeft {text : Text} {spans : List (EntitySpan Score)}
    (placed : Placed text spans) :
    (Vault.rightToLeft spans).Pairwise fun a b => b.stop ≤ a.start := by
  have total : Std.Total fun a b : EntitySpan Score => b.start ≤ a.start :=
    ⟨fun a b => Nat.le_total _ _⟩
  have trans : IsTrans (EntitySpan Score) fun a b => b.start ≤ a.start :=
    ⟨fun _ _ _ h h' => Nat.le_trans h' h⟩
  have sorted := List.pairwise_insertionSort (fun a b : EntitySpan Score => b.start ≤ a.start) spans
  have apart : (Vault.rightToLeft spans).Pairwise
      fun a b => a.start ≠ b.start ∧ a.overlaps b = false := by
    refine ((rightToLeft_perm spans).pairwise_iff fun {a b} h => ⟨h.1.symm, ?_⟩).mpr placed.apart
    rw [EntitySpan.overlaps, Bool.and_comm]
    exact h.2
  refine (sorted.and apart).imp_of_mem fun {a b} ha _ h => ?_
  obtain ⟨descending, distinct, clear⟩ := h
  have proper := (placed.inside a ((rightToLeft_perm spans).mem_iff.mp ha)).1
  simp only [EntitySpan.overlaps, Bool.and_eq_false_iff, decide_eq_false_iff_not] at clear
  omega

/-- The stretch of the text that a span covers. -/
def EntitySpan.stretch (s : EntitySpan Score) : Stretch := (s.start, s.stop)

/-- Edits over the stretches of placed spans, made from right to left and then reversed, are ordered
in the text from its beginning on. -/
theorem ordered_of_stretches {text : Text} {spans : List (EntitySpan Score)}
    (placed : Placed text spans) {edits : List Edit}
    (same : edits.map Edit.stretch = (Vault.rightToLeft spans).map EntitySpan.stretch) :
    Edit.Ordered text 0 edits.reverse := by
  refine Edit.ordered_of_pairwise (fun e member => ?_) ?_ (Nat.zero_le _)
  · have stretch : e.stretch ∈ edits.map Edit.stretch :=
      List.mem_map_of_mem (List.mem_reverse.mp member)
    rw [same, List.mem_map] at stretch
    obtain ⟨s, in_spans, eq⟩ := stretch
    obtain ⟨start, stop⟩ := Prod.mk.inj eq
    have inside := placed.inside s ((rightToLeft_perm spans).mem_iff.mp in_spans)
    omega
  · have pairs : ((Vault.rightToLeft spans).map EntitySpan.stretch).Pairwise
        fun a b => b.2 ≤ a.1 := List.pairwise_map.mpr placed.rightToLeft
    rw [← same, List.pairwise_map] at pairs
    exact List.pairwise_reverse.mpr pairs

variable {ident : Text → Text → Text → Text}

theorem stretches_of_replaces {text : Text} {spans : List (EntitySpan Score)}
    {issues : List Issue} {sessionId : Text} {edits : List Edit}
    (replaced : List.Forall₂ (Ledger.Replaces ident issues sessionId text) spans edits) :
    edits.map Edit.stretch = spans.map EntitySpan.stretch := by
  induction replaced with
  | nil => rfl
  | cons h _ ih =>
    rw [List.map_cons, List.map_cons, ih, Edit.stretch, h.1, h.2.1]
    rfl

variable (ident) (urandom : Urandom)

/-- `tokenize` patches the text with a placeholder for each of its placed spans: every span has its
edit, every edit its span, and the placeholders are those that the ledger gives. -/
theorem tokenize_eq_patch {text : Text} {spans : List (EntitySpan Score)}
    (placed : Placed text spans) (ledger : Ledger) (sessionId : Text) :
    ∃ edits after, ledger.tokenize ident urandom text spans sessionId =
        (Edit.patch text 0 edits, after) ∧ Edit.Ordered text 0 edits ∧
      (edits.map Edit.new).reverse =
        Ledger.inserted ident urandom sessionId text (Vault.rightToLeft spans) ledger ∧
      Ledger.Extends ident urandom sessionId (Ledger.Spanned text spans) ledger after ∧
      (∀ span ∈ spans, ∃ e ∈ edits, Ledger.Replaces ident after.issues sessionId text span e) ∧
      ∀ e ∈ edits, ∃ span ∈ spans, Ledger.Replaces ident after.issues sessionId text span e := by
  obtain ⟨edits, after, folded, new, extend, replaced⟩ := Ledger.foldl_tokenizeSpan ident urandom
    sessionId text (Vault.rightToLeft spans) text ledger
  have ordered := ordered_of_stretches placed (stretches_of_replaces replaced)
  -- the code walks the spans right to left, the patch lists its edits left to right
  have members {s : EntitySpan Score} : s ∈ Vault.rightToLeft spans ↔ s ∈ spans :=
    (rightToLeft_perm spans).mem_iff
  refine ⟨edits.reverse, after, ?_, ordered, by rw [List.map_reverse, List.reverse_reverse, new],
    extend.mono fun t v spanned => ?_, ?_, ?_⟩
  · have spliced := Edit.foldr_splice ordered
    rw [List.foldr_reverse] at spliced
    rw [Ledger.tokenize, folded, spliced]
    rfl
  · obtain ⟨span, member, same⟩ := spanned
    exact ⟨span, members.mp member, same⟩
  · intro span member
    obtain ⟨e, in_edits, h⟩ := (exists_of_forall₂ replaced).1 span (members.mpr member)
    exact ⟨e, List.mem_reverse.mpr in_edits, h⟩
  · intro e member
    obtain ⟨span, in_spans, h⟩ := (exists_of_forall₂ replaced).2 e (List.mem_reverse.mp member)
    exact ⟨span, members.mp in_spans, h⟩

/-! ## Substituting a patched text -/

/-- The edit with its placeholder put back. -/
def restore (g : Text → Option Text) (e : Edit) : Edit := { e with new := (g e.new).getD e.new }

theorem ordered_restore {g : Text → Option Text} {text : Text} {pos : Nat} {edits : List Edit}
    (ordered : Edit.Ordered text pos edits) : Edit.Ordered text pos (edits.map (restore g)) := by
  induction edits generalizing pos with
  | nil => exact ordered
  | cons e edits ih => exact ⟨ordered.1, ordered.2.1, ih ordered.2.2⟩

/-- Substituting a patched text substitutes the pieces between the edits one by one, and puts
back the value of each edit's placeholder. -/
theorem substitute_patch_eq_weave {g : Text → Option Text} {text : Text} {pos : Nat}
    {edits : List Edit} (known : ∀ e ∈ edits, IsPlaceholder e.new ∧ (g e.new).isSome) :
    substitute placeholderAt g (Edit.patch text pos edits) =
      Edit.weave ((pieces text pos (edits.map Edit.stretch)).map (substitute placeholderAt g))
        (edits.map fun e => (restore g e).new) := by
  induction edits generalizing pos with
  | nil => rfl
  | cons e edits ih =>
    obtain ⟨placeholder, resolved⟩ := known e List.mem_cons_self
    obtain ⟨value, found⟩ := Option.isSome_iff_exists.mp resolved
    have token := placeholderAt_append placeholder (Edit.patch text e.stop edits)
    have tail := @ih e.stop fun e' member => known e' (List.mem_cons_of_mem _ member)
    rw [Edit.patch, List.append_assoc,
      substitute_append placeholderAt_laws _ _ (uncut_before_token placeholderAt_laws token),
      substitute_known placeholderAt_laws token (by rw [List.take_left, found]), List.drop_left,
      tail]
    simp only [List.map_cons, pieces, Edit.stretch, Edit.weave, restore, found, Option.getD_some,
      List.append_assoc]

/-- If the text itself holds no known placeholder, substituting the patched text puts
back the value of each edit's placeholder and nothing else. -/
theorem substitute_patch {g : Text → Option Text} {text : Text} {pos : Nat} {edits : List Edit}
    (clear : ∀ p, IsPlaceholder p → p <:+: text → g p = none)
    (known : ∀ e ∈ edits, IsPlaceholder e.new ∧ (g e.new).isSome) :
    substitute placeholderAt g (Edit.patch text pos edits) =
      Edit.patch text pos (edits.map (restore g)) := by
  have gap (w : Text) (within : w <:+: text) : substitute placeholderAt g w = w := by
    refine substitute_eq_self fun i k found => ?_
    obtain ⟨p, rest, here, rfl, placeholder⟩ := placeholderAt_spec found.1
    have part : p <:+: text := by
      refine List.IsInfix.trans ?_ within
      exact (List.prefix_append p rest).isInfix.trans (here ▸ (List.drop_suffix i w).isInfix)
    have resolved := found.2
    rw [here, List.take_left, clear p placeholder part] at resolved
    cases resolved
  have stretches : (edits.map (restore g)).map Edit.stretch = edits.map Edit.stretch := by
    rw [List.map_map]
    rfl
  have copied : (pieces text pos (edits.map Edit.stretch)).map (substitute placeholderAt g) =
      pieces text pos (edits.map Edit.stretch) :=
    List.map_congr_left (g := id) (fun w member => gap w (infix_of_mem_pieces member)) |>.trans
      (List.map_id _)
  rw [substitute_patch_eq_weave known, copied, Edit.patch_eq_weave, stretches, List.map_map]
  rfl

/-! ## Reading a call back -/

/-- No issue of the session has a type with a colon, the separator of the fingerprint. -/
def PlainTypes (issues : List Issue) (sessionId : Text) : Prop :=
  ∀ e ∈ issues, e.sessionId = sessionId → ':' ∉ e.entityType

variable {ident urandom} {vault : Vault}

theorem Represents.plainTypes {issues : List Issue} {store : InMemoryTokenStore}
    (rep : Represents vault issues store) {sessionId : Text}
    (plain : ∀ r ∈ store.allForSession sessionId, ':' ∉ r.entityType) :
    PlainTypes issues sessionId := by
  intro e member session
  have mine : e ∈ (issues.filter (·.sessionId = sessionId)).reverse := by simp [member, session]
  obtain ⟨r, stored, record⟩ := (exists_of_forall₂ (rep.allForSession sessionId)).1 e mine
  exact record.entityType ▸ plain r stored

theorem PlainTypes.extend {before after : Ledger} {sessionId text : Text}
    {spans : List (EntitySpan Score)} (plain : PlainTypes before.issues sessionId)
    (typed : ∀ s ∈ spans, isTypeName s.entityType = true)
    (extend : Ledger.Extends ident urandom sessionId (Ledger.Spanned text spans) before after) :
    PlainTypes after.issues sessionId := by
  intro e member session
  rcases extend.origin e member with old | ⟨_, ⟨span, in_spans, same, _⟩, _⟩
  · exact plain e old session
  · exact same ▸ colon_not_mem_typeName (typed span in_spans)

/-- No issue of the session has the fingerprint of a span's value under another type, as types with
colons can bring about. -/
def Unmistaken (vault : Vault) (issues : List Issue) (sessionId text : Text)
    (spans : List (EntitySpan Score)) : Prop :=
  ∀ span ∈ spans, ∀ e ∈ issues, e.sessionId = sessionId →
    vault.fingerprint sessionId e.entityType e.value =
      vault.fingerprint sessionId span.entityType (text.slice span.start span.stop) →
    e.entityType = span.entityType

/-- Without colons in either type, one fingerprint means one type. -/
theorem type_eq_of_fingerprint (hmac : HmacInjective vault.crypto)
    {sessionId entityType entityType' value value' : Text} (plain : ':' ∉ entityType)
    (plain' : ':' ∉ entityType')
    (same : vault.fingerprint sessionId entityType value =
      vault.fingerprint sessionId entityType' value') : entityType = entityType' :=
  ((Text.append_cons_inj plain plain').mp ((Vault.fingerprint_eq_iff hmac _).mp same)).1

theorem PlainTypes.unmistaken (hmac : HmacInjective vault.crypto) {issues : List Issue}
    {sessionId text : Text} {spans : List (EntitySpan Score)}
    (plain : PlainTypes issues sessionId) (typed : ∀ s ∈ spans, isTypeName s.entityType = true) :
    Unmistaken vault issues sessionId text spans :=
  fun span in_spans e member session same => type_eq_of_fingerprint hmac (plain e member session)
    (colon_not_mem_typeName (typed span in_spans)) same

theorem Represents.unmistaken {issues : List Issue} {store : InMemoryTokenStore}
    (rep : Represents vault issues store) {sessionId text : Text}
    {spans : List (EntitySpan Score)}
    (told : ∀ s ∈ spans, ∀ r ∈ store.allForSession sessionId,
      r.valueFingerprint =
        vault.fingerprint sessionId s.entityType (text.slice s.start s.stop) →
      r.entityType = s.entityType) : Unmistaken vault issues sessionId text spans := by
  intro span in_spans e member session same
  have mine : e ∈ (issues.filter (·.sessionId = sessionId)).reverse := by simp [member, session]
  obtain ⟨r, stored, record⟩ := (exists_of_forall₂ (rep.allForSession sessionId)).1 e mine
  rw [← record.entityType]
  refine told span in_spans r stored ?_
  rw [record.fingerprint, session]
  exact same

/-- What a call issues has the types of its spans, which have no colon, and so it is mistaken for no
value of another type. -/
theorem Unmistaken.extend (hmac : HmacInjective vault.crypto) {before after : Ledger}
    {sessionId text : Text} {spans : List (EntitySpan Score)}
    (told : Unmistaken vault before.issues sessionId text spans)
    (typed : ∀ s ∈ spans, isTypeName s.entityType = true)
    (extend : Ledger.Extends vault.fingerprint urandom sessionId (Ledger.Spanned text spans)
      before after) : Unmistaken vault after.issues sessionId text spans := by
  intro span in_spans e member session same
  rcases extend.origin e member with old | ⟨_, ⟨own, in_own, issued, _⟩, _⟩
  · exact told span in_spans e old session same
  · refine type_eq_of_fingerprint hmac ?_ (colon_not_mem_typeName (typed span in_spans)) same
    rw [issued]
    exact colon_not_mem_typeName (typed own in_own)

/-- Where no issue has the fingerprint under another type, an issue that covers a value is an issue
of that value. -/
theorem issue_of_covers (hmac : HmacInjective vault.crypto) {issues : List Issue}
    {sessionId entityType value placeholder : Text}
    (told : ∀ e ∈ issues, e.sessionId = sessionId →
      vault.fingerprint sessionId e.entityType e.value =
        vault.fingerprint sessionId entityType value → e.entityType = entityType)
    (covers : Ledger.Covers vault.fingerprint issues sessionId entityType value placeholder) :
    ⟨sessionId, entityType, value, placeholder⟩ ∈ issues := by
  obtain ⟨e, member, rfl, rfl, same⟩ := covers
  obtain rfl := told e member rfl same
  obtain rfl : e.value = value := by
    have whole := (Vault.fingerprint_eq_iff hmac _).mp same
    exact (List.cons.inj (List.append_cancel_left whole)).2
  exact member

/-- Without colons in types, an issue that covers a value is an issue of that type and
value. -/
theorem covers_eq (hmac : HmacInjective vault.crypto) {issues : List Issue}
    {sessionId entityType value placeholder : Text} (plain : PlainTypes issues sessionId)
    (plain_type : ':' ∉ entityType)
    (covers : Ledger.Covers vault.fingerprint issues sessionId entityType value placeholder) :
    ⟨sessionId, entityType, value, placeholder⟩ ∈ issues :=
  issue_of_covers hmac (fun e member session same =>
    type_eq_of_fingerprint hmac (plain e member session) plain_type same) covers

/-- What a call writes reads back as the text in the ledger after the call and in any later one, if
nothing in the text looks like a placeholder of the session. -/
theorem detokenize_patch (hmac : HmacInjective vault.crypto) {issues later : List Issue}
    (sound : Ledger.Sound issues) (sound_later : Ledger.Sound later) (grows : issues <:+ later)
    {sessionId text : Text} {spans : List (EntitySpan Score)} {edits : List Edit}
    (told : Unmistaken vault issues sessionId text spans)
    (typed : ∀ s ∈ spans, isTypeName s.entityType = true) (ordered : Edit.Ordered text 0 edits)
    (replaced : ∀ e ∈ edits, ∃ span ∈ spans,
      Ledger.Replaces vault.fingerprint issues sessionId text span e)
    (lookalikes : ∀ p, IsPlaceholder p → p <:+: text →
      Ledger.resolve later sessionId p = none) :
    Ledger.detokenize later sessionId (Edit.patch text 0 edits) = text := by
  -- every inserted placeholder resolves to the stretch it replaced
  have known : ∀ e ∈ edits, IsPlaceholder e.new ∧
      Ledger.resolve later sessionId e.new = some (text.slice e.start e.stop) := by
    intro e member
    obtain ⟨span, in_spans, start, stop, covers⟩ := replaced e member
    have issued := issue_of_covers hmac (told span in_spans) covers
    obtain ⟨tokenHex, token_hex, made⟩ := sound.drawn _ issued
    rw [start, stop]
    exact ⟨⟨_, tokenHex, typed span in_spans, token_hex, made⟩,
      sound_later.resolve (grows.subset issued)⟩
  rw [Ledger.detokenize, substitute_patch lookalikes
    (fun e member => ⟨(known e member).1, by rw [(known e member).2]; rfl⟩),
    Edit.patch_self (ordered_restore ordered), List.drop_zero]
  intro e member
  obtain ⟨e, in_edits, rfl⟩ := List.mem_map.mp member
  simp [restore, (known e in_edits).2]

end RedactGate
