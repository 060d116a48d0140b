import RedactGate.Redaction.Ledger
import Mathlib.Data.List.Forall2

/-!
# The vault refines the ledger

`Represents` relates the store's indexes and records to the ledger's issues. The
vault's operations keep the relation and give the ledger's answers; no decryption
fails in a store that represents a ledger.
-/
namespace RedactGate

open Library

/-- The record holds the issue: its session, type and placeholder, the fingerprint of its value, and
a ciphertext that opens to the value. -/
structure RecordOf (vault : Vault) (e : Issue) (r : TokenRecord) : Prop where
  sessionId : r.sessionId = e.sessionId
  placeholder : r.placeholder = e.placeholder
  entityType : r.entityType = e.entityType
  fingerprint : r.valueFingerprint = vault.fingerprint e.sessionId e.entityType e.value
  opens : vault.decrypt e.sessionId r.valueCiphertext = some e.value

def fpKey (vault : Vault) (e : Issue) : Text × Text :=
  (e.sessionId, vault.fingerprint e.sessionId e.entityType e.value)

def phKey (e : Issue) : Text × Text := (e.sessionId, e.placeholder)

/-- The keys of the issues with their positions in the record list, oldest first. -/
def indexed (key : Issue → Text × Text) : List Issue → List ((Text × Text) × Nat)
  | [] => []
  | e :: es => indexed key es ++ [(key e, es.length)]

/-- The position of the newest issue under a key. -/
def newestIndex (key : Issue → Text × Text) (k : Text × Text) : List Issue → Option Nat
  | [] => none
  | e :: es => if key e = k then some es.length else newestIndex key k es

/-- The store holds the issues of a ledger, the newest of which comes first there: each one's record
stands at the number of its elders, and the indexes find it. -/
structure Represents (vault : Vault) (issues : List Issue) (store : InMemoryTokenStore) :
    Prop where
  length : store.records.length = issues.length
  records : ∀ e es, e :: es <:+ issues →
    ∃ r, store.records[es.length]? = some r ∧ RecordOf vault e r
  byFp : store.byFp.entries = indexed (fpKey vault) issues
  byPh : ∀ k, store.byPh.get? k = newestIndex phKey k issues

structure Refines (vault : Vault) (ledger : Ledger) (st : VaultState) : Prop where
  store : Represents vault ledger.issues st.store
  draws : st.draws = ledger.draws
  exhausted : st.exhausted = ledger.exhausted

variable {vault : Vault}

/-- If two lists are related element by element, then each element of either list is related to an
element of the other one. -/
theorem exists_of_forall₂ {α β : Type} {R : α → β → Prop} {as : List α} {bs : List β}
    (related : List.Forall₂ R as bs) :
    (∀ a ∈ as, ∃ b ∈ bs, R a b) ∧ ∀ b ∈ bs, ∃ a ∈ as, R a b := by
  induction related with
  | nil => simp
  | cons h _ ih =>
    constructor
    · intro a member
      rcases List.mem_cons.mp member with rfl | member
      · exact ⟨_, List.mem_cons_self, h⟩
      · obtain ⟨b, in_bs, related⟩ := ih.1 a member
        exact ⟨b, List.mem_cons_of_mem _ in_bs, related⟩
    · intro b member
      rcases List.mem_cons.mp member with rfl | member
      · exact ⟨_, List.mem_cons_self, h⟩
      · obtain ⟨a, in_as, related⟩ := ih.2 b member
        exact ⟨a, List.mem_cons_of_mem _ in_as, related⟩

/-! ## Lookups -/

theorem mem_indexed {key : Issue → Text × Text} {issues : List Issue} {k : Text × Text} {i : Nat} :
    (k, i) ∈ indexed key issues ↔ ∃ e es, e :: es <:+ issues ∧ key e = k ∧ es.length = i := by
  induction issues with
  | nil => simp [indexed]
  | cons e es ih =>
    simp only [indexed, List.mem_append, ih, List.mem_singleton, Prod.mk.injEq]
    constructor
    · rintro (⟨e', es', older, key_eq, len⟩ | ⟨rfl, rfl⟩)
      · exact ⟨e', es', older.trans (List.suffix_cons e es), key_eq, len⟩
      · exact ⟨e, es, List.suffix_rfl, rfl, rfl⟩
    · rintro ⟨e', es', suffix, key_eq, len⟩
      rcases List.suffix_cons_iff.mp suffix with same | older
      · obtain ⟨rfl, rfl⟩ := List.cons.inj same
        exact .inr ⟨key_eq.symm, len.symm⟩
      · exact .inl ⟨e', es', older, key_eq, len⟩

theorem newestIndex_eq (key : Issue → Text × Text) (issues : List Issue) (k : Text × Text) :
    match issues.find? (key · = k) with
    | none => newestIndex key k issues = none
    | some e => ∃ es, e :: es <:+ issues ∧ newestIndex key k issues = some es.length := by
  induction issues with
  | nil => rfl
  | cons e es ih =>
    by_cases found : key e = k
    · simp only [List.find?_cons, found, decide_true]
      exact ⟨es, List.suffix_rfl, by simp [newestIndex, found]⟩
    · simp only [List.find?_cons, found, decide_false, newestIndex, if_false]
      cases older : es.find? (key · = k) with
      | none => simpa [older] using ih
      | some e' =>
        simp only [older] at ih
        obtain ⟨es', suffix, index⟩ := ih
        exact ⟨es', suffix.trans (List.suffix_cons e es), index⟩

theorem exists_suffix_of_mem {e : Issue} {issues : List Issue} (member : e ∈ issues) :
    ∃ es, e :: es <:+ issues := by
  obtain ⟨newer, older, rfl⟩ := List.append_of_mem member
  exact ⟨older, newer, rfl⟩

/-- The placeholder index finds the record of the newest issue of the placeholder in the session, as
the ledger does. -/
theorem Represents.getByPlaceholder {issues : List Issue} {store : InMemoryTokenStore}
    (rep : Represents vault issues store) (sessionId placeholder : Text) :
    Option.Rel (RecordOf vault) (issues.find? (Ledger.holds sessionId placeholder))
      (store.getByPlaceholder sessionId placeholder) := by
  have holds_eq : Ledger.holds sessionId placeholder =
      fun e => decide (phKey e = (sessionId, placeholder)) := by
    funext e
    simp [Ledger.holds, phKey]
  have index := rep.byPh (sessionId, placeholder)
  have newest := newestIndex_eq phKey issues (sessionId, placeholder)
  rw [holds_eq, InMemoryTokenStore.getByPlaceholder]
  cases found : issues.find? fun e => decide (phKey e = (sessionId, placeholder)) with
  | none =>
    simp only [found] at newest
    rw [index, newest]
    exact .none
  | some e =>
    simp only [found] at newest
    obtain ⟨es, suffix, at_index⟩ := newest
    obtain ⟨r, record, holds⟩ := rep.records e es suffix
    rw [index, at_index, Option.bind_some, record]
    exact .some holds

/-- The fingerprint index finds the record of the issue that covers the value in the session, and
nothing if no issue does. -/
theorem Represents.getByFingerprint {issues : List Issue} {store : InMemoryTokenStore}
    (rep : Represents vault issues store) (sessionId entityType value : Text) :
    Option.Rel (RecordOf vault)
      (Ledger.find vault.fingerprint issues sessionId entityType value)
      (store.getByFingerprint sessionId (vault.fingerprint sessionId entityType value)) := by
  rw [InMemoryTokenStore.getByFingerprint]
  cases found : Ledger.find vault.fingerprint issues sessionId entityType value with
  | none =>
    cases index : store.byFp.get? (sessionId, vault.fingerprint sessionId entityType value) with
    | none => exact .none
    | some i =>
      -- an indexed issue under this key would have been found
      have entry := Dict.mem_entries.mpr index
      rw [rep.byFp] at entry
      obtain ⟨e, es, suffix, key_eq, _⟩ := mem_indexed.mp entry
      obtain ⟨session, same⟩ := Prod.mk.inj key_eq
      have absent := List.find?_eq_none.mp found e (suffix.subset List.mem_cons_self)
      subst session
      simp [same] at absent
  | some e =>
    have same := List.find?_some found
    simp only [decide_eq_true_eq] at same
    obtain ⟨es, suffix⟩ := exists_suffix_of_mem (List.mem_of_find?_eq_some found)
    have entry : ((sessionId, vault.fingerprint sessionId entityType value), es.length) ∈
        store.byFp.entries := by
      rw [rep.byFp]
      refine mem_indexed.mpr ⟨e, es, suffix, ?_, rfl⟩
      rw [fpKey, same.1, same.2]
    obtain ⟨r, record, holds⟩ := rep.records e es suffix
    rw [Dict.mem_entries.mp entry, Option.bind_some, record]
    exact .some holds

theorem Represents.taken {issues : List Issue} {store : InMemoryTokenStore}
    (rep : Represents vault issues store) (sessionId : Text) :
    (fun placeholder => (store.getByPlaceholder sessionId placeholder).isSome) =
      Ledger.taken issues sessionId := by
  funext placeholder
  have related := rep.getByPlaceholder sessionId placeholder
  rw [Ledger.taken, ← List.isSome_find?]
  revert related
  generalize issues.find? _ = a
  generalize store.getByPlaceholder _ _ = b
  rintro (_ | _) <;> rfl

/-! ## Writes -/

theorem represents_empty : Represents vault [] .empty where
  length := rfl
  records := by
    intro e es suffix
    have nothing := List.suffix_nil.mp suffix
    cases nothing
  byFp := rfl
  byPh _ := rfl

/-- A record of a new issue is stored: if its fingerprint has no record yet, then the store
represents the ledger with this issue in front. -/
theorem Represents.put {issues : List Issue} {store : InMemoryTokenStore}
    (rep : Represents vault issues store) {e : Issue} {r : TokenRecord}
    (record : RecordOf vault e r) (fresh : store.byFp.get? (fpKey vault e) = none) :
    Represents vault (e :: issues) (store.put r) where
  length := by simp [InMemoryTokenStore.put, rep.length]
  records := by
    intro e' es suffix
    rcases List.suffix_cons_iff.mp suffix with same | older
    · obtain ⟨rfl, rfl⟩ := List.cons.inj same
      exact ⟨r, by simp [InMemoryTokenStore.put, ← rep.length], record⟩
    · obtain ⟨r', at_index, holds⟩ := rep.records e' es older
      have inside := (List.getElem?_eq_some_iff.mp at_index).1
      exact ⟨r', by rw [InMemoryTokenStore.put, List.getElem?_append_left inside, at_index], holds⟩
  -- the fingerprint is new, so its entry goes to the end of the index
  byFp := by
    have key : (r.sessionId, r.valueFingerprint) = fpKey vault e := by
      rw [record.sessionId, record.fingerprint]
      rfl
    simp only [InMemoryTokenStore.put, key]
    rw [Dict.entries_set_of_fresh fresh, rep.byFp, rep.length]
    rfl
  byPh := by
    intro k
    have key : (r.sessionId, r.placeholder) = phKey e := by
      rw [record.sessionId, record.placeholder]
      rfl
    simp only [InMemoryTokenStore.put, key, newestIndex]
    rw [Dict.get?_set, rep.byPh, rep.length]

/-- Counting an occurrence touches no field of a record that an issue fixes, and none of the
indexes. -/
theorem Represents.bumpOccurrence {issues : List Issue} {store : InMemoryTokenStore}
    (rep : Represents vault issues store) (sessionId fp : Text) :
    Represents vault issues (store.bumpOccurrence sessionId fp) := by
  rw [InMemoryTokenStore.bumpOccurrence]
  split
  · exact rep
  next i _ =>
    refine ⟨by simpa using rep.length, fun e es suffix => ?_, rep.byFp, rep.byPh⟩
    obtain ⟨r, at_index, holds⟩ := rep.records e es suffix
    simp only [List.getElem?_modify, at_index]
    by_cases bumped : i = es.length
    · exact ⟨{ r with occurrences := r.occurrences + 1 }, by simp [bumped],
        ⟨holds.sessionId, holds.placeholder, holds.entityType, holds.fingerprint, holds.opens⟩⟩
    · exact ⟨r, by simp [bumped], holds⟩

/-! ## Tokenizing -/

/-- One value gets the placeholder that the ledger gives it, and the state after it refines the
ledger after it; one case for each outcome. -/
theorem placeholderOf_refines (laws : AesGcmLaws vault.crypto) {ledger : Ledger} {st : VaultState}
    (refines : Refines vault ledger st) (sessionId entityType value : Text) :
    (vault.placeholderOf st sessionId entityType value).1 =
        (ledger.placeholderOf vault.fingerprint vault.urandom sessionId entityType value).1 ∧
      Refines vault
        (ledger.placeholderOf vault.fingerprint vault.urandom sessionId entityType value).2
        (vault.placeholderOf st sessionId entityType value).2 := by
  obtain ⟨store, draws, exhausted⟩ := st
  obtain ⟨rep, draws_eq, exhausted_eq⟩ := refines
  simp only at rep draws_eq exhausted_eq
  subst draws exhausted
  have lookup := rep.getByFingerprint sessionId entityType value
  unfold Vault.placeholderOf Ledger.placeholderOf
  simp only
  generalize found : Ledger.find vault.fingerprint ledger.issues sessionId entityType value = issue
    at lookup ⊢
  generalize stored : store.getByFingerprint sessionId
    (vault.fingerprint sessionId entityType value) = record at lookup ⊢
  -- both sides find the value, or both draw the same bytes
  cases lookup with
  | some record_of =>
    exact ⟨record_of.placeholder, rep.bumpOccurrence _ _, rfl, rfl⟩
  | none =>
    have fresh : store.byFp.get? (sessionId, vault.fingerprint sessionId entityType value) =
        none := by
      cases index : store.byFp.get? (sessionId, vault.fingerprint sessionId entityType value) with
      | none => rfl
      | some i =>
        have entry := Dict.mem_entries.mpr index
        rw [rep.byFp] at entry
        obtain ⟨e, es, suffix, _, rfl⟩ := mem_indexed.mp entry
        obtain ⟨r, at_index, _⟩ := rep.records e es suffix
        simp [InMemoryTokenStore.getByFingerprint, index, at_index] at stored
    have stores (st : VaultState) (kept : st.store = store) (placeholder : Text) :
        Represents vault (⟨sessionId, entityType, value, placeholder⟩ :: ledger.issues)
          (store.put ⟨sessionId, placeholder, entityType, (vault.encrypt st sessionId value).1,
            vault.fingerprint sessionId entityType value, 1⟩) :=
      rep.put ⟨rfl, rfl, rfl, rfl, Vault.decrypt_encrypt laws st sessionId value⟩ fresh
    simp only [Vault.allocatePlaceholder, rep.taken sessionId]
    match drawn : drawPlaceholder vault.urandom (Ledger.taken ledger.issues sessionId) entityType
      drawSizes ledger.draws with
    | (some placeholder, _) => exact ⟨rfl, stores _ rfl _, rfl, rfl⟩
    | (none, _) => exact ⟨rfl, stores _ rfl _, rfl, rfl⟩

variable {Score : Type}

/-- The run lemma: a call of `tokenize`, span after span, returns the text that the ledger returns
and keeps refining it. -/
theorem tokenize_refines (laws : AesGcmLaws vault.crypto) {ledger : Ledger} {st : VaultState}
    (refines : Refines vault ledger st) (text : Text) (spans : List (EntitySpan Score))
    (sessionId : Text) :
    (vault.tokenize st text spans sessionId).1 =
        (ledger.tokenize vault.fingerprint vault.urandom text spans sessionId).1 ∧
      Refines vault (ledger.tokenize vault.fingerprint vault.urandom text spans sessionId).2
        (vault.tokenize st text spans sessionId).2 := by
  -- the two folds run in lockstep, span by span
  have run (todo : List (EntitySpan Score)) : ∀ (out : Text) (ledger : Ledger) (st : VaultState),
      Refines vault ledger st →
      (todo.foldl (vault.tokenizeSpan sessionId text) (out, st)).1 =
          (todo.foldl (Ledger.tokenizeSpan vault.fingerprint vault.urandom sessionId text)
            (out, ledger)).1 ∧
        Refines vault
          (todo.foldl (Ledger.tokenizeSpan vault.fingerprint vault.urandom sessionId text)
            (out, ledger)).2
          (todo.foldl (vault.tokenizeSpan sessionId text) (out, st)).2 := by
    induction todo with
    | nil => exact fun _ _ _ refines => ⟨rfl, refines⟩
    | cons span todo ih =>
      intro out ledger st refines
      have step := placeholderOf_refines laws refines sessionId span.entityType
        (text.slice span.start span.stop)
      simp only [List.foldl_cons, Vault.tokenizeSpan, Ledger.tokenizeSpan, step.1]
      exact ih _ _ _ step.2
  rw [Vault.tokenize, Ledger.tokenize]
  split
  next empty =>
    obtain rfl := List.isEmpty_iff.mp empty
    exact ⟨rfl, refines⟩
  next => exact run _ _ _ _ refines

theorem insertedPlaceholders_refines (laws : AesGcmLaws vault.crypto) (sessionId text : Text)
    (spans : List (EntitySpan Score)) : ∀ {ledger : Ledger} {st : VaultState},
      Refines vault ledger st → vault.insertedPlaceholders sessionId text spans st =
        Ledger.inserted vault.fingerprint vault.urandom sessionId text spans ledger := by
  induction spans with
  | nil => exact fun _ => rfl
  | cons span spans ih =>
    intro ledger st refines
    have step := placeholderOf_refines laws refines sessionId span.entityType
      (text.slice span.start span.stop)
    simp only [Vault.insertedPlaceholders, Ledger.inserted, step.1, ih step.2]

/-- Every state that calls lead to refines a ledger that calls lead to, by induction on the calls. -/
theorem reachable_refines (laws : AesGcmLaws vault.crypto) {st : VaultState}
    (reachable : vault.Reachable st) :
    ∃ ledger, Ledger.Reachable vault.fingerprint vault.urandom ledger ∧
      Refines vault ledger st := by
  induction reachable with
  | fresh draws => exact ⟨_, .fresh draws, represents_empty, rfl, rfl⟩
  | tokenize text spans sessionId _ ih =>
    obtain ⟨ledger, reachable, refines⟩ := ih
    exact ⟨_, .tokenize text spans sessionId reachable,
      (tokenize_refines laws refines text spans sessionId).2⟩

/-- A later state refines a later ledger. This one has all the issues of the earlier one, and it is
sound like that one if no draws ran out in between. -/
theorem later_refines (laws : AesGcmLaws vault.crypto) {ledger : Ledger} {st later : VaultState}
    (refines : Refines vault ledger st) (runs : vault.Later st later) :
    ∃ ledger', Refines vault ledger' later ∧ ledger.issues <:+ ledger'.issues ∧
      ledger.exhausted ≤ ledger'.exhausted ∧
      (ledger'.exhausted = ledger.exhausted → Ledger.Sound ledger.issues →
        Ledger.Sound ledger'.issues) := by
  induction runs with
  | refl => exact ⟨ledger, refines, List.suffix_rfl, Nat.le_refl _, fun _ sound => sound⟩
  | tokenize text spans sessionId _ ih =>
    obtain ⟨ledger', refines', grows, counted, sound⟩ := ih
    have extend :=
      Ledger.tokenize_extends vault.fingerprint vault.urandom ledger' text spans sessionId
    refine ⟨_, (tokenize_refines laws refines' text spans sessionId).2,
      grows.trans extend.grows, Nat.le_trans counted extend.counted, fun same start => ?_⟩
    have high := extend.counted
    exact extend.sound (by omega) (sound (by omega) start)

/-! ## Reading back -/

theorem placeholderRe_plain : placeholderRe.Plain := by
  simp [placeholderRe, Regex.cat, Regex.Plain, Regex.lit, Regex.star]

/-- The matches that `detokenize` walks through are what a scan for placeholder tokens reports. -/
theorem finditer_placeholderRe (text : Text) :
    placeholderRe.finditer text =
      scan (fun i => (placeholderAt (text.drop i)).map (i + ·)) (text.length + 1) 0 := by
  have same : placeholderRe.matchAt text =
      fun i => (placeholderAt (text.drop i)).map (i + ·) := by
    funext i
    rw [Regex.matchAt, Regex.ends_before placeholderRe_plain, placeholderAt]
  rw [Regex.finditer, same]

/-- Rewriting the matches of a text substitutes its placeholders. -/
theorem rewriteMatches_placeholders (text : Text) (g : Text → Option Text) :
    rewriteMatches text g 0 (placeholderRe.finditer text) = substitute placeholderAt g text := by
  rw [finditer_placeholderRe,
    rewriteMatches_scan placeholderAt_laws text g (text.length + 1) 0 0 (Nat.le_refl _) (by omega)]
  simp [Text.slice]

theorem substitute_without_brackets {g : Text → Option Text} {text : Text}
    (none : ¬['[', '['] <:+: text) : substitute placeholderAt g text = text := by
  refine substitute_eq_self fun i k known => ?_
  obtain ⟨p, rest, eq, _, placeholder⟩ := placeholderAt_spec known.1
  exact placeholder.not_infix none
    ((List.prefix_append p rest).isInfix.trans (eq ▸ (List.drop_suffix i text).isInfix))

theorem detokenizeFrom_refines {issues : List Issue} {store : InMemoryTokenStore}
    (rep : Represents vault issues store) (sessionId text : Text) (spans : List (Nat × Nat)) :
    ∀ last, vault.detokenizeFrom (store.getByPlaceholder sessionId) sessionId text last spans =
      some (rewriteMatches text (Ledger.resolve issues sessionId) last spans) := by
  induction spans with
  | nil => intro last; rfl
  | cons span spans ih =>
    intro last
    obtain ⟨start, stop⟩ := span
    have lookup := rep.getByPlaceholder sessionId (text.slice start stop)
    rw [Vault.detokenizeFrom, rewriteMatches, Ledger.resolve]
    generalize found : issues.find? (Ledger.holds sessionId (text.slice start stop)) = issue
      at lookup ⊢
    generalize store.getByPlaceholder sessionId (text.slice start stop) = record at lookup ⊢
    cases lookup with
    | none => exact ih last
    | @some e r record_of =>
      have session : e.sessionId = sessionId := by
        have holds := List.find?_some found
        simp only [Ledger.holds, decide_eq_true_eq] at holds
        exact holds.1
      have opens := record_of.opens
      rw [session] at opens
      simp [opens, ih stop]

/-- Detokenizing never fails in a store that represents a ledger, and substitutes
what the ledger resolves. -/
theorem detokenize_refines {issues : List Issue} {store : InMemoryTokenStore}
    (rep : Represents vault issues store) (text sessionId : Text) :
    vault.detokenize store text sessionId = some (Ledger.detokenize issues sessionId text) := by
  rw [Vault.detokenize, Vault.detokenizeBy, Ledger.detokenize]
  split
  next => rw [detokenizeFrom_refines rep, rewriteMatches_placeholders]
  next none => rw [substitute_without_brackets none]

/-- Over any store whose records of the session can be decrypted, detokenizing never fails, and
substitutes the values of the records. -/
theorem detokenizeBy_eq {lookup : Text → Option TokenRecord} {sessionId : Text}
    (opens : ∀ p r, lookup p = some r → (vault.decrypt sessionId r.valueCiphertext).isSome)
    (text : Text) : vault.detokenizeBy lookup text sessionId =
      some (substitute placeholderAt
        (fun p => (lookup p).bind fun r => vault.decrypt sessionId r.valueCiphertext) text) := by
  have loop (spans : List (Nat × Nat)) (last : Nat) :
      vault.detokenizeFrom lookup sessionId text last spans = some (rewriteMatches text
        (fun p => (lookup p).bind fun r => vault.decrypt sessionId r.valueCiphertext)
        last spans) := by
    induction spans generalizing last with
    | nil => rfl
    | cons span spans ih =>
      obtain ⟨start, stop⟩ := span
      rw [Vault.detokenizeFrom, rewriteMatches]
      cases found : lookup (text.slice start stop) with
      | none => exact ih last
      | some record =>
        obtain ⟨value, opened⟩ := Option.isSome_iff_exists.mp (opens _ _ found)
        simp [opened, ih stop]
  rw [Vault.detokenizeBy]
  split
  next => rw [loop, rewriteMatches_placeholders]
  next none => rw [substitute_without_brackets none]

theorem Represents.getByPlaceholder_eq_none {issues : List Issue} {store : InMemoryTokenStore}
    (rep : Represents vault issues store) {sessionId placeholder : Text} :
    store.getByPlaceholder sessionId placeholder = none ↔
      Ledger.resolve issues sessionId placeholder = none := by
  have related := rep.getByPlaceholder sessionId placeholder
  rw [Ledger.resolve, Option.map_eq_none_iff]
  generalize issues.find? (Ledger.holds sessionId placeholder) = issue at related ⊢
  generalize store.getByPlaceholder sessionId placeholder = record at related ⊢
  cases related with
  | none => simp
  | some _ => simp

/-- The records of a session that the store lists are those of the session's issues, with the oldest
one first. -/
theorem Represents.allForSession {issues : List Issue} {store : InMemoryTokenStore}
    (rep : Represents vault issues store) (sessionId : Text) :
    List.Forall₂ (RecordOf vault) (issues.filter (·.sessionId = sessionId)).reverse
      (store.allForSession sessionId) := by
  -- the index lists the issues oldest first
  have run (es : List Issue) (older : es <:+ issues) :
      List.Forall₂ (RecordOf vault) (es.filter (·.sessionId = sessionId)).reverse
        ((indexed (fpKey vault) es).filterMap fun entry =>
          if entry.1.1 = sessionId then store.records[entry.2]? else none) := by
    induction es with
    | nil => exact .nil
    | cons e es ih =>
      have tail := ih ((List.suffix_cons e es).trans older)
      obtain ⟨r, at_index, record⟩ := rep.records e es older
      rw [indexed, List.filterMap_append]
      by_cases mine : e.sessionId = sessionId
      · have head : (e :: es).filter (·.sessionId = sessionId) =
            e :: es.filter (·.sessionId = sessionId) := by simp [mine]
        rw [head, List.reverse_cons]
        refine List.rel_append tail ?_
        simp only [List.filterMap_cons, fpKey, mine, if_true, at_index, List.filterMap_nil]
        exact .cons record .nil
      · have head : (e :: es).filter (·.sessionId = sessionId) =
            es.filter (·.sessionId = sessionId) := by simp [mine]
        simpa [head, fpKey, mine] using tail
  rw [InMemoryTokenStore.allForSession, rep.byFp]
  exact run issues List.suffix_rfl

/-- The snapshot of a session can be taken, as every record can be decrypted, and it resolves every
placeholder as the ledger does. -/
theorem resolutionMap_refines {issues : List Issue} {store : InMemoryTokenStore}
    (rep : Represents vault issues store) (sessionId : Text) :
    ∃ resolved, vault.resolutionMap store sessionId = some resolved ∧
      ∀ placeholder, resolved.get? placeholder = Ledger.resolve issues sessionId placeholder := by
  -- every record of the session decrypts, so the fold never fails
  have folds {es : List Issue} {rs : List TokenRecord} (held : List.Forall₂ (RecordOf vault) es rs)
      (mine : ∀ e ∈ es, e.sessionId = sessionId) (out : Dict Text Text) :
      rs.foldlM (fun out record =>
          (vault.decrypt sessionId record.valueCiphertext).map (out.set record.placeholder ·)) out =
        some (out.setAll (es.map fun e => (e.placeholder, e.value))) := by
    induction held generalizing out with
    | nil => rfl
    | @cons e r es rs record _ ih =>
      have opens := record.opens
      rw [mine e List.mem_cons_self] at opens
      rw [List.foldlM_cons, opens, Option.map_some, record.placeholder]
      exact ih (fun e' member => mine e' (List.mem_cons_of_mem _ member)) _
  have mine : ∀ e ∈ (issues.filter (·.sessionId = sessionId)).reverse,
      e.sessionId = sessionId := by
    intro e member
    simpa using (List.mem_filter.mp (List.mem_reverse.mp member)).2
  refine ⟨_, folds (rep.allForSession sessionId) mine Dict.empty, fun placeholder => ?_⟩
  rw [Dict.get?_setAll, Dict.get?_empty, Option.or_none, ← List.map_reverse, List.reverse_reverse,
    List.find?_map, List.find?_filter, Ledger.resolve, Option.map_map]
  have holds_eq : Ledger.holds sessionId placeholder = fun e => decide
      (decide (e.sessionId = sessionId) = true ∧ decide (e.placeholder = placeholder) = true) := by
    funext e
    simp [Ledger.holds]
  rw [holds_eq]
  rfl

end RedactGate
