import RedactGate.Library.Edits
import RedactGate.Redaction.Vault

/-!
# The ledger of issued placeholders

What the vault is for, without its indexes and its cryptography: a session hands
out placeholders and remembers, newest first, which value each one stands for. A
value that was seen before keeps its placeholder; two values count as the same
when `ident` says so. The vault refines this ledger.
-/
namespace RedactGate

open Library

structure Issue where
  sessionId : Text
  entityType : Text
  value : Text
  placeholder : Text
  deriving DecidableEq, Repr

/-- The abstract vault: the issues of placeholders, newest first, with the counters of the vault's
state. -/
structure Ledger where
  issues : List Issue
  draws : Nat
  exhausted : Nat

namespace Ledger

variable (ident : Text → Text → Text → Text) (urandom : Urandom)

/-- The issue that covers a value, if the session has one: the newest whose identifier is that of
the value. -/
def find (issues : List Issue) (sessionId entityType value : Text) : Option Issue :=
  issues.find? fun e =>
    e.sessionId = sessionId ∧
      ident sessionId e.entityType e.value = ident sessionId entityType value

def holds (sessionId placeholder : Text) (e : Issue) : Bool :=
  e.sessionId = sessionId ∧ e.placeholder = placeholder

/-- The value a placeholder stands for: that of the newest issue. -/
def resolve (issues : List Issue) (sessionId placeholder : Text) : Option Text :=
  (issues.find? (holds sessionId placeholder)).map Issue.value

def taken (issues : List Issue) (sessionId placeholder : Text) : Bool :=
  issues.any (holds sessionId placeholder)

/-- The placeholder of one value of a session: that of its issue, or a draw that is free, or else
one with a suffix cut from the fingerprint. -/
def placeholderOf (ledger : Ledger) (sessionId entityType value : Text) : Text × Ledger :=
  match find ident ledger.issues sessionId entityType value with
  | some e => (e.placeholder, ledger)
  | none =>
    match drawPlaceholder urandom (taken ledger.issues sessionId) entityType drawSizes
        ledger.draws with
    | (some placeholder, draws) =>
      (placeholder, ⟨⟨sessionId, entityType, value, placeholder⟩ :: ledger.issues, draws + 1,
        ledger.exhausted⟩)
    -- every draw was taken: the suffix is cut from the fingerprint, and it may be taken too
    | (none, draws) =>
      let placeholder := makePlaceholder entityType ((ident sessionId entityType value).take 12)
      (placeholder, ⟨⟨sessionId, entityType, value, placeholder⟩ :: ledger.issues, draws + 1,
        ledger.exhausted + 1⟩)

variable {Score : Type}

def tokenizeSpan (sessionId text : Text) (acc : Text × Ledger) (span : EntitySpan Score) :
    Text × Ledger :=
  let (placeholder, ledger) :=
    placeholderOf ident urandom acc.2 sessionId span.entityType (text.slice span.start span.stop)
  (acc.1.splice span.start span.stop placeholder, ledger)

def tokenize (ledger : Ledger) (text : Text) (spans : List (EntitySpan Score))
    (sessionId : Text) : Text × Ledger :=
  (Vault.rightToLeft spans).foldl (tokenizeSpan ident urandom sessionId text) (text, ledger)

/-- Put back the value of every placeholder that the session can resolve. -/
def detokenize (issues : List Issue) (sessionId text : Text) : Text :=
  substitute placeholderAt (resolve issues sessionId) text

/-- The ledgers that calls reach from a fresh one, of whatever sessions and texts the calls are. -/
inductive Reachable : Ledger → Prop
  | fresh (draws : Nat) : Reachable ⟨[], draws, 0⟩
  | tokenize {Score : Type} {ledger : Ledger} (text : Text) (spans : List (EntitySpan Score))
      (sessionId : Text) : Reachable ledger →
      Reachable (ledger.tokenize ident urandom text spans sessionId).2

variable {ident urandom}

/-! ## What one issue can do -/

/-- A placeholder that is drawn is free, and it is the type with the suffix of one of the draws
between the counters before and after, in one of the given sizes. -/
theorem drawPlaceholder_call {taken : Text → Bool} {entityType placeholder : Text}
    {sizes : List Nat} {draws draws' : Nat}
    (drawn : drawPlaceholder urandom taken entityType sizes draws = (some placeholder, draws')) :
    taken placeholder = false ∧ ∃ nbytes ∈ sizes, ∃ call, draws ≤ call ∧ call < draws' ∧
      placeholder = makePlaceholder entityType (hex (urandom.bytes call nbytes)) := by
  induction sizes generalizing draws with
  | nil => simp [drawPlaceholder] at drawn
  | cons nbytes sizes ih =>
    simp only [drawPlaceholder] at drawn
    split at drawn
    next =>
      obtain ⟨free, n, member, call, low, high, eq⟩ := ih drawn
      exact ⟨free, n, List.mem_cons_of_mem _ member, call, by omega, high, eq⟩
    next free =>
      obtain ⟨rfl, rfl⟩ : _ = placeholder ∧ _ = draws' := by simpa using drawn
      exact ⟨by simpa using free, nbytes, List.mem_cons_self, draws, Nat.le_refl _,
        Nat.lt_succ_self _, rfl⟩

theorem drawPlaceholder_spec {taken : Text → Bool} {entityType placeholder : Text}
    {sizes : List Nat} {draws draws' : Nat}
    (drawn : drawPlaceholder urandom taken entityType sizes draws = (some placeholder, draws')) :
    taken placeholder = false ∧ ∃ nbytes ∈ sizes, ∃ call,
      placeholder = makePlaceholder entityType (hex (urandom.bytes call nbytes)) := by
  obtain ⟨free, nbytes, size, call, _, _, made⟩ := drawPlaceholder_call drawn
  exact ⟨free, nbytes, size, call, made⟩

variable (ident urandom) in
/-- The three outcomes: the value is known and gets its placeholder; a draw was free and is issued;
or the draws ran out, and a suffix cut from the fingerprint is issued unchecked. -/
theorem placeholderOf_cases (ledger : Ledger) (sessionId entityType value : Text) :
    (∃ e ∈ ledger.issues, e.sessionId = sessionId ∧
        ident sessionId e.entityType e.value = ident sessionId entityType value ∧
        placeholderOf ident urandom ledger sessionId entityType value =
          (e.placeholder, ledger)) ∨
    (∃ placeholder draws,
        (∀ e ∈ ledger.issues, e.sessionId = sessionId →
          ident sessionId e.entityType e.value ≠ ident sessionId entityType value) ∧
        drawPlaceholder urandom (taken ledger.issues sessionId) entityType drawSizes
          ledger.draws = (some placeholder, draws) ∧
        placeholderOf ident urandom ledger sessionId entityType value =
          (placeholder, ⟨⟨sessionId, entityType, value, placeholder⟩ :: ledger.issues,
            draws + 1, ledger.exhausted⟩)) ∨
    (∃ placeholder draws,
        (∀ e ∈ ledger.issues, e.sessionId = sessionId →
          ident sessionId e.entityType e.value ≠ ident sessionId entityType value) ∧
        placeholder = makePlaceholder entityType ((ident sessionId entityType value).take 12) ∧
        placeholderOf ident urandom ledger sessionId entityType value =
          (placeholder, ⟨⟨sessionId, entityType, value, placeholder⟩ :: ledger.issues,
            draws + 1, ledger.exhausted + 1⟩)) := by
  unfold placeholderOf
  cases known : find ident ledger.issues sessionId entityType value with
  | some e =>
    have same := List.find?_some known
    simp only [decide_eq_true_eq] at same
    exact .inl ⟨e, List.mem_of_find?_eq_some known, same.1, same.2, rfl⟩
  | none =>
    have unknown : ∀ e ∈ ledger.issues, e.sessionId = sessionId →
        ident sessionId e.entityType e.value ≠ ident sessionId entityType value := by
      intro e member session same
      have absent := List.find?_eq_none.mp known e member
      simp [session, same] at absent
    right
    -- an unknown value gets a free draw, or the fingerprint when all draws are taken
    match drawn : drawPlaceholder urandom (taken ledger.issues sessionId) entityType drawSizes
      ledger.draws with
    | (some placeholder, draws) => exact .inl ⟨placeholder, draws, unknown, rfl, rfl⟩
    | (none, draws) => exact .inr ⟨_, draws, unknown, rfl, rfl⟩

/-! ## What a call keeps -/

/-- Every placeholder was drawn for its type, and no two issues of a session share one. -/
structure Sound (issues : List Issue) : Prop where
  drawn : ∀ e ∈ issues, ∃ tokenHex, isTokenHex tokenHex = true ∧
    e.placeholder = makePlaceholder e.entityType tokenHex
  distinct : issues.Pairwise fun newer older =>
    newer.sessionId = older.sessionId → newer.placeholder ≠ older.placeholder

/-- In a sound ledger a placeholder resolves to the value that it was issued for, since no two
issues of a session share one. -/
theorem Sound.resolve {issues : List Issue} (sound : Sound issues) {e : Issue}
    (member : e ∈ issues) : resolve issues e.sessionId e.placeholder = some e.value := by
  have distinct := sound.distinct
  clear sound
  rw [Ledger.resolve, Option.map_eq_some_iff]
  refine ⟨e, ?_, rfl⟩
  induction issues with
  | nil => cases member
  | cons newest older ih =>
    rw [List.find?_cons]
    rcases List.mem_cons.mp member with rfl | member
    · simp [holds]
    · have apart := List.rel_of_pairwise_cons distinct member
      have other : holds e.sessionId e.placeholder newest = false := by
        simpa [holds] using apart
      rw [other]
      exact ih member distinct.of_cons

variable (ident urandom) in
/-- How the placeholder of an issue came about: a draw that the session did not have
yet, or the fallback. -/
def Made (issues : List Issue) (e : Issue) : Prop :=
  (taken issues e.sessionId e.placeholder = false ∧ ∃ nbytes ∈ drawSizes, ∃ call,
    e.placeholder = makePlaceholder e.entityType (hex (urandom.bytes call nbytes))) ∨
  e.placeholder =
    makePlaceholder e.entityType ((ident e.sessionId e.entityType e.value).take 12)

theorem Made.anti {issues newer : List Issue} {e : Issue} (made : Made ident urandom newer e)
    (grows : issues <:+ newer) : Made ident urandom issues e := by
  refine made.imp_left fun drawn => ⟨?_, drawn.2⟩
  have free := drawn.1
  rw [taken, List.any_eq_false] at free ⊢
  exact fun older member => free older (grows.subset member)

variable (ident urandom) in
/-- `after` is `before` with issues of the session added, each for a type and value
that `wanted` describes. -/
structure Extends (sessionId : Text) (wanted : Text → Text → Prop) (before after : Ledger) :
    Prop where
  grows : before.issues <:+ after.issues
  counted : before.exhausted ≤ after.exhausted
  sound : after.exhausted = before.exhausted → Sound before.issues → Sound after.issues
  origin : ∀ e ∈ after.issues, e ∈ before.issues ∨
    e.sessionId = sessionId ∧ wanted e.entityType e.value ∧ Made ident urandom before.issues e

theorem Extends.refl (sessionId : Text) (wanted : Text → Text → Prop) (ledger : Ledger) :
    Extends ident urandom sessionId wanted ledger ledger :=
  ⟨List.suffix_rfl, Nat.le_refl _, fun _ sound => sound, fun _ member => .inl member⟩

theorem Extends.trans {sessionId : Text} {wanted : Text → Text → Prop}
    {first second third : Ledger} (h : Extends ident urandom sessionId wanted first second)
    (h' : Extends ident urandom sessionId wanted second third) :
    Extends ident urandom sessionId wanted first third where
  grows := h.grows.trans h'.grows
  counted := Nat.le_trans h.counted h'.counted
  sound same sound := by
    have low := h.counted
    have high := h'.counted
    exact h'.sound (by omega) (h.sound (by omega) sound)
  origin e member := by
    rcases h'.origin e member with old | ⟨session, new, made⟩
    · exact h.origin e old
    · exact .inr ⟨session, new, made.anti h.grows⟩

theorem Extends.mono {sessionId : Text} {wanted wanted' : Text → Text → Prop}
    (weaker : ∀ t v, wanted t v → wanted' t v) {before after : Ledger}
    (h : Extends ident urandom sessionId wanted before after) :
    Extends ident urandom sessionId wanted' before after where
  grows := h.grows
  counted := h.counted
  sound := h.sound
  origin e member := (h.origin e member).imp_right fun new =>
    ⟨new.1, weaker _ _ new.2.1, new.2.2⟩

/-- The session has an issue of this placeholder that counts as the given value. -/
def Covers (ident : Text → Text → Text → Text) (issues : List Issue)
    (sessionId entityType value placeholder : Text) : Prop :=
  ∃ e ∈ issues, e.sessionId = sessionId ∧ e.placeholder = placeholder ∧
    ident sessionId e.entityType e.value = ident sessionId entityType value

theorem isTokenHex_hex {bytes : Bytes} (size : bytes.length ∈ drawSizes) :
    isTokenHex (hex bytes) = true := by
  have bounds : ∀ n ∈ drawSizes, 3 ≤ n ∧ n ≤ 6 := by decide
  obtain ⟨low, high⟩ := bounds _ size
  simp only [isTokenHex, length_hex, Bool.and_eq_true, decide_eq_true_eq, List.all_eq_true]
  exact ⟨⟨by omega, by omega⟩, fun c member => isHexChar_of_mem_hex member⟩

variable (ident urandom) in
/-- The step lemma: one value is covered afterwards by the placeholder that is returned, and the
ledger grows by the issue of this value at most. -/
theorem placeholderOf_step (ledger : Ledger) (sessionId entityType value : Text) :
    Covers ident (placeholderOf ident urandom ledger sessionId entityType value).2.issues
        sessionId entityType value
        (placeholderOf ident urandom ledger sessionId entityType value).1 ∧
      Extends ident urandom sessionId (fun t v => t = entityType ∧ v = value) ledger
        (placeholderOf ident urandom ledger sessionId entityType value).2 := by
  -- nothing is issued for a known value, and one entry otherwise
  rcases placeholderOf_cases ident urandom ledger sessionId entityType value with
    ⟨e, member, session, same, eq⟩ | ⟨placeholder, draws, _, drawn, eq⟩ |
    ⟨placeholder, draws, _, fallback, eq⟩
  · rw [eq]
    exact ⟨⟨e, member, session, rfl, same⟩, .refl _ _ _⟩
  · rw [eq]
    refine ⟨⟨_, List.mem_cons_self, rfl, rfl, rfl⟩,
      ⟨List.suffix_cons _ _, Nat.le_refl _, fun _ sound => ⟨?_, ?_⟩, ?_⟩⟩
    · obtain ⟨_, nbytes, size, call, made⟩ := drawPlaceholder_spec drawn
      intro e member
      rcases List.mem_cons.mp member with rfl | member
      · exact ⟨_, isTokenHex_hex (by rwa [urandom.length_bytes]), made⟩
      · exact sound.drawn e member
    · have free := (drawPlaceholder_spec drawn).1
      refine List.pairwise_cons.mpr ⟨fun older member session same => ?_, sound.distinct⟩
      rw [taken, List.any_eq_false] at free
      exact free older member (by simpa [holds] using ⟨session.symm, same.symm⟩)
    · intro e member
      rcases List.mem_cons.mp member with rfl | member
      · exact .inr ⟨rfl, ⟨rfl, rfl⟩, .inl (drawPlaceholder_spec drawn)⟩
      · exact .inl member
  · rw [eq]
    refine ⟨⟨_, List.mem_cons_self, rfl, rfl, rfl⟩,
      ⟨List.suffix_cons _ _, Nat.le_succ _, fun same => ?_, ?_⟩⟩
    · exact absurd same (Nat.succ_ne_self _)
    · intro e member
      rcases List.mem_cons.mp member with rfl | member
      · exact .inr ⟨rfl, ⟨rfl, rfl⟩, .inr fallback⟩
      · exact .inl member

variable (ident urandom) in
/-- The placeholders that the loop of `tokenize` inserts, span after span, in the ledger as the
spans before leave it. -/
def inserted (sessionId text : Text) : List (EntitySpan Score) → Ledger → List Text
  | [], _ => []
  | span :: spans, ledger =>
    let (placeholder, ledger) :=
      placeholderOf ident urandom ledger sessionId span.entityType (text.slice span.start span.stop)
    placeholder :: inserted sessionId text spans ledger

/-- The edit that a span asks for: it replaces the span by a placeholder that covers the span's
value. -/
def Replaces (ident : Text → Text → Text → Text) (issues : List Issue) (sessionId text : Text)
    (span : EntitySpan Score) (e : Edit) : Prop :=
  e.start = span.start ∧ e.stop = span.stop ∧
    Covers ident issues sessionId span.entityType (text.slice span.start span.stop) e.new

/-- The type and value of one of the spans. -/
def Spanned (text : Text) (spans : List (EntitySpan Score)) (entityType value : Text) : Prop :=
  ∃ span ∈ spans, entityType = span.entityType ∧ value = text.slice span.start span.stop

variable (ident urandom) in
/-- The run lemma: the loop of `tokenize` splices one placeholder a span, from right
to left, and every placeholder still covers its value in the final ledger. -/
theorem foldl_tokenizeSpan (sessionId text : Text) (todo : List (EntitySpan Score)) :
    ∀ (out : Text) (ledger : Ledger), ∃ edits after,
      todo.foldl (tokenizeSpan ident urandom sessionId text) (out, ledger) =
          (edits.foldl (fun out e => Edit.splice e out) out, after) ∧
        edits.map Edit.new = inserted ident urandom sessionId text todo ledger ∧
        Extends ident urandom sessionId (Spanned text todo) ledger after ∧
        List.Forall₂ (Replaces ident after.issues sessionId text) todo edits := by
  -- by induction on the spans left: what the first one issued stays issued
  induction todo with
  | nil => exact fun out ledger => ⟨[], ledger, rfl, rfl, .refl _ _ _, .nil⟩
  | cons span todo ih =>
    intro out ledger
    have step := placeholderOf_step ident urandom ledger sessionId span.entityType
      (text.slice span.start span.stop)
    generalize found : placeholderOf ident urandom ledger sessionId span.entityType
      (text.slice span.start span.stop) = result at step
    obtain ⟨placeholder, next⟩ := result
    obtain ⟨edits, after, folded, new, extend, replaced⟩ :=
      ih (out.splice span.start span.stop placeholder) next
    refine ⟨⟨span.start, span.stop, placeholder⟩ :: edits, after, ?_, ?_, ?_, .cons ?_ replaced⟩
    · simp only [List.foldl_cons, tokenizeSpan, found]
      exact folded
    · simp only [List.map_cons, inserted, found, new]
    · refine (step.2.mono fun t v same => ?_).trans (extend.mono fun t v spanned => ?_)
      · exact ⟨span, List.mem_cons_self, same.1, same.2⟩
      · obtain ⟨span', member, same⟩ := spanned
        exact ⟨span', List.mem_cons_of_mem _ member, same⟩
    · obtain ⟨e, member, covers⟩ := step.1
      exact ⟨rfl, rfl, e, extend.grows.subset member, covers⟩

variable (ident urandom) in
theorem tokenize_extends (ledger : Ledger) (text : Text) (spans : List (EntitySpan Score))
    (sessionId : Text) :
    Extends ident urandom sessionId (Spanned text (Vault.rightToLeft spans)) ledger
      (ledger.tokenize ident urandom text spans sessionId).2 := by
  obtain ⟨edits, after, folded, _, extend, _⟩ :=
    foldl_tokenizeSpan ident urandom sessionId text (Vault.rightToLeft spans) text ledger
  rw [tokenize, folded]
  exact extend

/-- A ledger that calls lead to is sound, as long as every allocation has found a free draw. -/
theorem Reachable.sound {ledger : Ledger} (reachable : Reachable ident urandom ledger) :
    ledger.exhausted = 0 → Sound ledger.issues := by
  induction reachable with
  | fresh draws => exact fun _ => ⟨by simp, .nil⟩
  | @tokenize _ earlier text spans sessionId _ ih =>
    intro free
    have extend := tokenize_extends ident urandom earlier text spans sessionId
    have counted := extend.counted
    exact extend.sound (by omega) (ih (by omega))

/-- Every placeholder of a ledger that calls lead to is a type with a readable suffix, be it drawn
or cut from a fingerprint. -/
theorem Reachable.made {ledger : Ledger} (reachable : Reachable ident urandom ledger)
    (fallback : ∀ s t v, isTokenHex ((ident s t v).take 12) = true) :
    ∀ e ∈ ledger.issues, ∃ tokenHex, isTokenHex tokenHex = true ∧
      e.placeholder = makePlaceholder e.entityType tokenHex := by
  induction reachable with
  | fresh draws => simp
  | @tokenize _ earlier text spans sessionId _ ih =>
    intro e member
    rcases (tokenize_extends ident urandom earlier text spans sessionId).origin e member with
      old | ⟨_, _, ⟨_, nbytes, size, call, made⟩ | made⟩
    · exact ih e old
    · exact ⟨_, isTokenHex_hex (by rwa [urandom.length_bytes]), made⟩
    · exact ⟨_, fallback _ _ _, made⟩

end Ledger

end RedactGate
