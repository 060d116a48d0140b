import RedactGate.Redaction.Pipeline
import RedactGate.Redaction.StreamDetokenizer
import RedactGate.Redaction.TwinLedgers

/-!
# The view of one session

What a session gets from the vault depends on the issues of that session and on the draws that
are still to come. Two states that are alike in these give the same placeholders, the same
values and the same snapshots, whatever else they hold.
-/
namespace RedactGate

open Library

/-! ## Ledgers -/

namespace Ledger

variable {ident : Text → Text → Text → Text} {urandom : Urandom} {sessionId : Text}
  {issues issues' : List Issue} {ledger ledger' : Ledger}

/-- The issues of a session. -/
def own (sessionId : Text) (issues : List Issue) : List Issue :=
  issues.filter (·.sessionId = sessionId)

theorem own_cons (sessionId : Text) (e : Issue) (issues : List Issue) :
    own sessionId (e :: issues) =
      if e.sessionId = sessionId then e :: own sessionId issues else own sessionId issues := by
  simp only [own, List.filter_cons, decide_eq_true_eq]

theorem find_congr (same : own sessionId issues' = own sessionId issues)
    (entityType value : Text) : find ident issues' sessionId entityType value =
      find ident issues sessionId entityType value := by
  have known := @find_eq ident issues ⟨sessionId, entityType, value⟩
  have known' := @find_eq ident issues' ⟨sessionId, entityType, value⟩
  exact known'.trans ((congrArg (List.find? _) same).trans known.symm)

theorem resolve_congr (same : own sessionId issues' = own sessionId issues) :
    resolve issues' sessionId = resolve issues sessionId := by
  have holds_eq (placeholder : Text) (issues : List Issue) :
      issues.find? (holds sessionId placeholder) =
        (own sessionId issues).find? (·.placeholder = placeholder) := by
    rw [own, List.find?_filter]
    congr 1
    funext e
    simp [holds]
  funext placeholder
  rw [resolve, resolve, holds_eq, holds_eq, same]

theorem detokenize_congr (same : own sessionId issues' = own sessionId issues) (text : Text) :
    detokenize issues' sessionId text = detokenize issues sessionId text := by
  rw [detokenize, detokenize, resolve_congr same]

/-- What placeholder a value gets depends on the issues of its own session and on the next draws
only, and so do the issues and draws after it. -/
theorem placeholderOf_congr (same : own sessionId ledger'.issues = own sessionId ledger.issues)
    (draws : ledger'.draws = ledger.draws) (entityType value : Text) :
    (placeholderOf ident urandom ledger' sessionId entityType value).1 =
        (placeholderOf ident urandom ledger sessionId entityType value).1 ∧
      own sessionId (placeholderOf ident urandom ledger' sessionId entityType value).2.issues =
        own sessionId (placeholderOf ident urandom ledger sessionId entityType value).2.issues ∧
      (placeholderOf ident urandom ledger' sessionId entityType value).2.draws =
        (placeholderOf ident urandom ledger sessionId entityType value).2.draws := by
  have used : taken ledger'.issues sessionId = taken ledger.issues sessionId := by
    rw [taken_eq, taken_eq, ← own, ← own, same]
  unfold placeholderOf
  rw [find_congr same, used, draws]
  cases find ident ledger.issues sessionId entityType value with
  | some e => exact ⟨rfl, same, draws⟩
  | none =>
    match drawPlaceholder urandom (taken ledger.issues sessionId) entityType drawSizes
      ledger.draws with
    | (some placeholder, _) => exact ⟨rfl, by simp only [own_cons, if_true, same], rfl⟩
    | (none, _) => exact ⟨rfl, by simp only [own_cons, if_true, same], rfl⟩

/-- What another session is issued is no issue of this session, and leaves these as they are. -/
theorem own_placeholderOf (ledger : Ledger) {other : Text} (apart : other ≠ sessionId)
    (entityType value : Text) :
    own sessionId (placeholderOf ident urandom ledger other entityType value).2.issues =
      own sessionId ledger.issues := by
  rcases placeholderOf_cases ident urandom ledger other entityType value with
    ⟨_, _, _, _, eq⟩ | ⟨_, _, _, _, eq⟩ | ⟨_, _, _, _, eq⟩
  · rw [eq]
  · rw [eq, own_cons, if_neg apart]
  · rw [eq, own_cons, if_neg apart]

end Ledger

/-! ## Vaults -/

section

variable {vault : Vault} {sessionId : Text} {st st' : VaultState}

/-- Both states hold the same for the session. -/
def SameView (vault : Vault) (sessionId : Text) (st st' : VaultState) : Prop :=
  ∃ ledger ledger', Refines vault ledger st ∧ Refines vault ledger' st' ∧
    Ledger.own sessionId ledger'.issues = Ledger.own sessionId ledger.issues

/-- They go on in the same way for it. -/
structure Alike (vault : Vault) (sessionId : Text) (st st' : VaultState) : Prop where
  view : SameView vault sessionId st st'
  draws : st'.draws = st.draws

theorem SameView.refl {ledger : Ledger} (refines : Refines vault ledger st) :
    SameView vault sessionId st st :=
  ⟨ledger, ledger, refines, refines, rfl⟩

theorem SameView.detokenize (view : SameView vault sessionId st st') (text : Text) :
    vault.detokenize st'.store text sessionId = vault.detokenize st.store text sessionId := by
  obtain ⟨ledger, ledger', refines, refines', same⟩ := view
  rw [detokenize_refines refines.store, detokenize_refines refines'.store,
    Ledger.detokenize_congr same]

/-- Records of the same issues are opened to the same values, whatever nonces they were sealed with,
and so the snapshots made of them are the same. -/
theorem opened_congr {issues : List Issue} {records records' : List TokenRecord}
    (held : List.Forall₂ (RecordOf vault) issues records)
    (held' : List.Forall₂ (RecordOf vault) issues records')
    (mine : ∀ e ∈ issues, e.sessionId = sessionId) (out : Dict Text Text) :
    records'.foldlM (fun out record =>
        (vault.decrypt sessionId record.valueCiphertext).map (out.set record.placeholder ·)) out =
      records.foldlM (fun out record =>
        (vault.decrypt sessionId record.valueCiphertext).map
          (out.set record.placeholder ·)) out := by
  induction held generalizing records' out with
  | nil =>
    cases held'
    rfl
  | cons record _ ih =>
    cases held' with
    | cons record' held' =>
      obtain ⟨here, later⟩ := List.forall_mem_cons.mp mine
      have opens := record.opens
      have opens' := record'.opens
      rw [here] at opens opens'
      rw [List.foldlM_cons, List.foldlM_cons, opens, opens', record.placeholder,
        record'.placeholder]
      exact ih held' later _

theorem SameView.prepared (view : SameView vault sessionId st st') :
    vault.streamDetokenizerPrepared st'.store sessionId =
      vault.streamDetokenizerPrepared st.store sessionId := by
  obtain ⟨ledger, ledger', refines, refines', same⟩ := view
  have held := refines.store.allForSession sessionId
  have held' := refines'.store.allForSession sessionId
  rw [← Ledger.own] at held held'
  rw [same] at held'
  have mine : ∀ e ∈ (Ledger.own sessionId ledger.issues).reverse, e.sessionId = sessionId := by
    intro e member
    exact of_decide_eq_true (List.mem_filter.mp (List.mem_reverse.mp member)).2
  rw [Vault.streamDetokenizerPrepared, Vault.streamDetokenizerPrepared, Vault.resolutionMap,
    Vault.resolutionMap, opened_congr held held' mine]

/-- One value of the session gets the same placeholder in states that are alike for it, and the
states after it are alike again. -/
theorem Alike.placeholderOf (laws : AesGcmLaws vault.crypto)
    (alike : Alike vault sessionId st st') (entityType value : Text) :
    (vault.placeholderOf st' sessionId entityType value).1 =
        (vault.placeholderOf st sessionId entityType value).1 ∧
      Alike vault sessionId (vault.placeholderOf st sessionId entityType value).2
        (vault.placeholderOf st' sessionId entityType value).2 := by
  obtain ⟨⟨ledger, ledger', refines, refines', same⟩, draws⟩ := alike
  obtain ⟨out, next⟩ := placeholderOf_refines laws refines sessionId entityType value
  obtain ⟨out', next'⟩ := placeholderOf_refines laws refines' sessionId entityType value
  obtain ⟨placeholder, view, ahead⟩ := @Ledger.placeholderOf_congr vault.fingerprint vault.urandom
    sessionId ledger ledger' same (refines'.draws.symm.trans (draws.trans refines.draws))
    entityType value
  exact ⟨out'.trans (placeholder.trans out.symm), ⟨_, _, next, next', view⟩,
    next'.draws.trans (ahead.trans next.draws.symm)⟩

/-- What another session is issued changes nothing for this one. -/
theorem SameView.placeholderOf (laws : AesGcmLaws vault.crypto)
    (view : SameView vault sessionId st st') {other : Text} (apart : other ≠ sessionId)
    (entityType value : Text) :
    SameView vault sessionId st (vault.placeholderOf st' other entityType value).2 := by
  obtain ⟨ledger, ledger', refines, refines', same⟩ := view
  have next := (placeholderOf_refines laws refines' other entityType value).2
  exact ⟨ledger, _, refines, next, (Ledger.own_placeholderOf ledger' apart _ _).trans same⟩

end

/-! ## Requests -/

section

variable {Score : Type} {vault : Vault} {sessionId : Text}
  {R : VaultState → VaultState → Prop} {st st' : VaultState}

/-- Related states give every value of the session the same placeholder, and the states after it are
related again. -/
def Lockstep (vault : Vault) (sessionId : Text) (R : VaultState → VaultState → Prop) : Prop :=
  ∀ st st' entityType value, R st st' →
    (vault.placeholderOf st' sessionId entityType value).1 =
        (vault.placeholderOf st sessionId entityType value).1 ∧
      R (vault.placeholderOf st sessionId entityType value).2
        (vault.placeholderOf st' sessionId entityType value).2

theorem Lockstep.tokenize (lockstep : Lockstep vault sessionId R) (related : R st st')
    (text : Text) (spans : List (EntitySpan Score)) :
    (vault.tokenize st' text spans sessionId).1 = (vault.tokenize st text spans sessionId).1 ∧
      R (vault.tokenize st text spans sessionId).2 (vault.tokenize st' text spans sessionId).2 := by
  have run (todo : List (EntitySpan Score)) : ∀ (out : Text) (st st' : VaultState), R st st' →
      (todo.foldl (vault.tokenizeSpan sessionId text) (out, st')).1 =
          (todo.foldl (vault.tokenizeSpan sessionId text) (out, st)).1 ∧
        R (todo.foldl (vault.tokenizeSpan sessionId text) (out, st)).2
          (todo.foldl (vault.tokenizeSpan sessionId text) (out, st')).2 := by
    induction todo with
    | nil => exact fun _ _ _ related => ⟨rfl, related⟩
    | cons span todo ih =>
      intro out st st' related
      obtain ⟨placeholder, next⟩ := lockstep st st' span.entityType
        (text.slice span.start span.stop) related
      simp only [List.foldl_cons, Vault.tokenizeSpan, placeholder]
      exact ih _ _ _ next
  rw [Vault.tokenize, Vault.tokenize]
  split
  · exact ⟨rfl, related⟩
  · exact run _ _ _ _ related

theorem Lockstep.tokenizeTexts (lockstep : Lockstep vault sessionId R)
    (jobs : List (Text × List (EntitySpan Score))) : ∀ {st st' : VaultState}, R st st' →
      (RedactionPipeline.tokenizeTexts vault sessionId jobs st').1 =
          (RedactionPipeline.tokenizeTexts vault sessionId jobs st).1 ∧
        R (RedactionPipeline.tokenizeTexts vault sessionId jobs st).2
          (RedactionPipeline.tokenizeTexts vault sessionId jobs st').2 := by
  induction jobs with
  | nil => exact fun related => ⟨rfl, related⟩
  | cons job jobs ih =>
    intro st st' related
    obtain ⟨text, spans⟩ := job
    rw [RedactionPipeline.tokenizeTexts, RedactionPipeline.tokenizeTexts]
    by_cases none : spans.isEmpty = true
    · obtain ⟨outs, next⟩ := ih related
      simp only [none, if_true]
      exact ⟨congrArg (text :: ·) outs, next⟩
    · obtain ⟨out, written⟩ := lockstep.tokenize related text spans
      obtain ⟨outs, next⟩ := ih written
      simp only [none]
      exact ⟨congrArg₂ List.cons out outs, next⟩

variable [LinearOrder Score]

/-- A request is rewritten in the same way in two states that are in lockstep for its session, and
the states after it are in lockstep again. -/
theorem Lockstep.sanitizeRequest (lockstep : Lockstep vault sessionId R) (unicode : Unicode)
    (decision : PolicyDecision) (passes : Nat → PassResults Score) (payload : Fields)
    (related : R st st') :
    (RedactionPipeline.sanitizeRequest unicode vault decision passes payload sessionId st').1 =
        (RedactionPipeline.sanitizeRequest unicode vault decision passes payload sessionId st).1 ∧
      R (RedactionPipeline.sanitizeRequest unicode vault decision passes payload sessionId st).2
        (RedactionPipeline.sanitizeRequest unicode vault decision passes payload
          sessionId st').2 := by
  unfold RedactionPipeline.sanitizeRequest
  -- the walk and the policy look at the request alone; only tokenizing touches the state
  split
  next => exact ⟨rfl, related⟩
  next texts _ =>
    dsimp only
    split
    next => exact ⟨rfl, related⟩
    next =>
      split
      next => exact ⟨rfl, related⟩
      next =>
        obtain ⟨outs, next⟩ := lockstep.tokenizeTexts
          (texts.zip (RedactionPipeline.filtered decision passes texts)) related
        rw [outs]
        split
        next => exact ⟨rfl, next⟩
        next => exact ⟨rfl, next⟩

/-- The context of a request that is passed on names the session of the request, whatever its texts
are. -/
theorem sessionId_of_sanitizeRequest {unicode : Unicode} {decision : PolicyDecision}
    {passes : Nat → PassResults Score} {payload sanitized : Fields} {ctx : PipelineContext Score}
    (passed : (RedactionPipeline.sanitizeRequest unicode vault decision passes payload
      sessionId st).1 = .ok (sanitized, ctx)) : ctx.sessionId = sessionId := by
  unfold RedactionPipeline.sanitizeRequest at passed
  split at passed
  · cases passed
  · dsimp only at passed
    split at passed
    · cases passed
      rfl
    · split at passed
      · cases passed
      · split at passed
        · cases passed
        · cases passed
          rfl

end

end RedactGate
