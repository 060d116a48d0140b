import RedactGate.Redaction.Refinement
import Mathlib.Data.List.Perm.Basic

/-!
# Runs of the vault

A sequence of `tokenize` calls looks its values up one after the other. What the store
holds afterwards is told from the list of these mentions.
-/
namespace RedactGate

open Library

/-- A value that is to be replaced, with its type and its session; where it stands does not matter. -/
structure Mention where
  sessionId : Text
  entityType : Text
  value : Text
  deriving DecidableEq, Repr

/-- A call of `tokenize` with all of its arguments, as a run of calls is given it. -/
structure TokenizeCall (Score : Type) where
  text : Text
  spans : List (EntitySpan Score)
  sessionId : Text

variable {Score : Type}

def mentionOf (sessionId text : Text) (span : EntitySpan Score) : Mention :=
  ⟨sessionId, span.entityType, text.slice span.start span.stop⟩

/-- What the spans of the calls cover. -/
def mentions (calls : List (TokenizeCall Score)) : List Mention :=
  calls.flatMap fun call => call.spans.map (mentionOf call.sessionId call.text)

namespace Vault

variable (vault : Vault)

def runCalls (st : VaultState) (calls : List (TokenizeCall Score)) : VaultState :=
  calls.foldl (fun st call => (vault.tokenize st call.text call.spans call.sessionId).2) st

/-- What looking up one value does to the state. -/
def mention (st : VaultState) (m : Mention) : VaultState :=
  (vault.placeholderOf st m.sessionId m.entityType m.value).2

/-- The key of a mention in the fingerprint index. -/
def mentionKey (m : Mention) : Text × Text :=
  (m.sessionId, vault.fingerprint m.sessionId m.entityType m.value)

theorem tokenize_mentions (st : VaultState) (text : Text) (spans : List (EntitySpan Score))
    (sessionId : Text) : (vault.tokenize st text spans sessionId).2 =
      ((rightToLeft spans).map (mentionOf sessionId text)).foldl vault.mention st := by
  have loop (todo : List (EntitySpan Score)) : ∀ out st,
      (todo.foldl (vault.tokenizeSpan sessionId text) (out, st)).2 =
        (todo.map (mentionOf sessionId text)).foldl vault.mention st := by
    induction todo with
    | nil => exact fun _ _ => rfl
    | cons span todo ih => exact fun out st => ih _ _
  rw [tokenize]
  split
  next empty =>
    obtain rfl := List.isEmpty_iff.mp empty
    rfl
  next => exact loop _ _ _

/-- A run of calls looks up the values that its spans cover, those of each text from right to left. -/
theorem runCalls_mentions (calls : List (TokenizeCall Score)) :
    ∃ ms : List Mention, ms.Perm (mentions calls) ∧
      ∀ st, vault.runCalls st calls = ms.foldl vault.mention st := by
  refine ⟨calls.flatMap fun call =>
      (rightToLeft call.spans).map (mentionOf call.sessionId call.text),
    ?_, ?_⟩
  · refine List.Perm.flatMap_left calls fun call _ => ?_
    exact (List.perm_insertionSort _ _).map _
  · induction calls with
    | nil => exact fun _ => rfl
    | cons call calls ih =>
      intro st
      rw [runCalls, List.foldl_cons, List.flatMap_cons, List.foldl_append, ← tokenize_mentions]
      exact ih _

theorem runCalls_append (st : VaultState) (earlier later : List (TokenizeCall Score)) :
    vault.runCalls st (earlier ++ later) = vault.runCalls (vault.runCalls st earlier) later :=
  List.foldl_append

/-- What a mention does to the store: it counts one more occurrence of a value that is stored, or it
stores a record of a new value with one occurrence. -/
theorem mention_cases (st : VaultState) (m : Mention) :
    ((st.store.getByFingerprint m.sessionId (vault.mentionKey m).2).isSome ∧
        (vault.mention st m).store =
          st.store.bumpOccurrence m.sessionId (vault.mentionKey m).2) ∨
      (st.store.getByFingerprint m.sessionId (vault.mentionKey m).2 = none ∧
        ∃ r : TokenRecord, (vault.mention st m).store = st.store.put r ∧
          (r.sessionId, r.valueFingerprint) = vault.mentionKey m ∧ r.occurrences = 1) := by
  simp only [mention, mentionKey]
  unfold placeholderOf
  cases found : st.store.getByFingerprint m.sessionId
    (vault.fingerprint m.sessionId m.entityType m.value) with
  | some r => exact .inl ⟨rfl, by simp only [found]⟩
  | none =>
    refine .inr ⟨rfl, ?_⟩
    simp only [found, allocatePlaceholder]
    split <;> exact ⟨_, rfl, rfl, rfl⟩

end Vault

/-! ## Records and indexes -/

section

variable {vault : Vault} {issues : List Issue} {store : InMemoryTokenStore}

theorem exists_suffix_of_lt {i : Nat} (inside : i < issues.length) :
    ∃ e es, e :: es <:+ issues ∧ es.length = i := by
  induction issues with
  | nil => cases inside
  | cons e es ih =>
    by_cases newest : i = es.length
    · exact ⟨e, es, List.suffix_rfl, newest.symm⟩
    · rw [List.length_cons] at inside
      obtain ⟨e', es', older, len⟩ := ih (by omega)
      exact ⟨e', es', older.trans (List.suffix_cons e es), len⟩

theorem newestIndex_eq_some {key : Issue → Text × Text} {k : Text × Text} {i : Nat}
    (found : newestIndex key k issues = some i) :
    ∃ e es, e :: es <:+ issues ∧ key e = k ∧ es.length = i := by
  induction issues with
  | nil => cases found
  | cons e es ih =>
    rw [newestIndex] at found
    split at found
    next same => exact ⟨e, es, List.suffix_rfl, same, Option.some.inj found⟩
    next =>
      obtain ⟨e', es', older, rest⟩ := ih found
      exact ⟨e', es', older.trans (List.suffix_cons e es), rest⟩

/-- The fingerprint index of a store that represents a ledger finds exactly the records, by their
sessions and fingerprints. -/
theorem Represents.byFp_iff (rep : Represents vault issues store) {k : Text × Text} {i : Nat} :
    store.byFp.get? k = some i ↔
      ∃ r, store.records[i]? = some r ∧ (r.sessionId, r.valueFingerprint) = k := by
  have keyed {e : Issue} {r : TokenRecord} (record : RecordOf vault e r) :
      (r.sessionId, r.valueFingerprint) = fpKey vault e := by
    rw [record.sessionId, record.fingerprint]
    rfl
  rw [← Dict.mem_entries, rep.byFp, mem_indexed]
  constructor
  · rintro ⟨e, es, suffix, rfl, rfl⟩
    obtain ⟨r, at_index, record⟩ := rep.records e es suffix
    exact ⟨r, at_index, keyed record⟩
  · rintro ⟨r, at_index, rfl⟩
    have inside := (List.getElem?_eq_some_iff.mp at_index).1
    obtain ⟨e, es, suffix, rfl⟩ := exists_suffix_of_lt (rep.length ▸ inside)
    obtain ⟨r', at_index', record⟩ := rep.records e es suffix
    obtain rfl : r' = r := Option.some.inj (at_index'.symm.trans at_index)
    exact ⟨e, es, suffix, (keyed record).symm, rfl⟩

/-- What the placeholder index finds has the placeholder. -/
theorem Represents.of_byPh (rep : Represents vault issues store) {k : Text × Text} {i : Nat}
    (found : store.byPh.get? k = some i) :
    ∃ r, store.records[i]? = some r ∧ (r.sessionId, r.placeholder) = k := by
  rw [rep.byPh] at found
  obtain ⟨e, es, suffix, rfl, rfl⟩ := newestIndex_eq_some found
  obtain ⟨r, at_index, record⟩ := rep.records e es suffix
  exact ⟨r, at_index, by rw [record.sessionId, record.placeholder]; rfl⟩

/-- If no two issues of the ledger share a placeholder, then the placeholder index finds exactly the
records, and no record is hidden by a newer one. -/
theorem Represents.byPh_iff (rep : Represents vault issues store) (sound : Ledger.Sound issues)
    {k : Text × Text} {i : Nat} :
    store.byPh.get? k = some i ↔
      ∃ r, store.records[i]? = some r ∧ (r.sessionId, r.placeholder) = k := by
  refine ⟨rep.of_byPh, ?_⟩
  rintro ⟨r, at_index, rfl⟩
  have inside := (List.getElem?_eq_some_iff.mp at_index).1
  obtain ⟨e, es, suffix, rfl⟩ := exists_suffix_of_lt (rep.length ▸ inside)
  obtain ⟨r', at_index', record⟩ := rep.records e es suffix
  obtain rfl : r' = r := Option.some.inj (at_index'.symm.trans at_index)
  have distinct := sound.distinct
  -- a placeholder issued once is indexed by its only entry
  have newest (issues : List Issue) (suffix : e :: es <:+ issues)
      (distinct : issues.Pairwise fun newer older =>
        newer.sessionId = older.sessionId → newer.placeholder ≠ older.placeholder) :
      newestIndex phKey (phKey e) issues = some es.length := by
    induction issues with
    | nil => cases List.suffix_nil.mp suffix
    | cons e' es' ih =>
      rcases List.suffix_cons_iff.mp suffix with same | older
      · obtain ⟨rfl, rfl⟩ := List.cons.inj same
        simp [newestIndex]
      · have apart := List.rel_of_pairwise_cons distinct (older.subset List.mem_cons_self)
        rw [newestIndex, if_neg, ih older distinct.of_cons]
        intro shared
        obtain ⟨session, placeholder⟩ := Prod.mk.inj shared
        exact apart session placeholder
  rw [rep.byPh, record.sessionId, record.placeholder]
  exact newest issues suffix distinct

end

/-! ## Occurrences -/

/-- The store has counted the mentions: each has its record, and a record has as many
occurrences as there are mentions with its fingerprint. -/
structure Tallied (vault : Vault) (done : List Mention) (store : InMemoryTokenStore) : Prop where
  known : ∀ m ∈ done, (store.byFp.get? (vault.mentionKey m)).isSome
  exact : ∀ r ∈ store.records, r.occurrences =
    done.countP fun m => vault.mentionKey m = (r.sessionId, r.valueFingerprint)

/-- The lookups and the records of one session are the same in both stores, whatever else differs. -/
structure SameSession (sessionId : Text) (store store' : InMemoryTokenStore) : Prop where
  byFingerprint : ∀ fp, store'.getByFingerprint sessionId fp = store.getByFingerprint sessionId fp
  byPlaceholder : ∀ ph, store'.getByPlaceholder sessionId ph = store.getByPlaceholder sessionId ph
  all : store'.allForSession sessionId = store.allForSession sessionId

section

variable {vault : Vault} {issues : List Issue} {store : InMemoryTokenStore}

theorem Represents.getByFingerprint_none (rep : Represents vault issues store)
    {sessionId fp : Text} :
    store.getByFingerprint sessionId fp = none ↔ store.byFp.get? (sessionId, fp) = none := by
  rw [InMemoryTokenStore.getByFingerprint, Option.bind_eq_none_iff]
  constructor
  · intro none
    cases found : store.byFp.get? (sessionId, fp) with
    | none => rfl
    | some i =>
      obtain ⟨r, at_index, _⟩ := rep.byFp_iff.mp found
      exact absurd (none i found) (by simp [at_index])
  · intro none i found
    rw [none] at found
    cases found

/-- One more occurrence of a stored value is counted: the record of this mention has one more, and
every other record has as many as before. -/
theorem Tallied.bump (rep : Represents vault issues store) {done : List Mention}
    (tallied : Tallied vault done store) {m : Mention}
    (stored : (store.getByFingerprint m.sessionId (vault.mentionKey m).2).isSome) :
    Tallied vault (m :: done) (store.bumpOccurrence m.sessionId (vault.mentionKey m).2) := by
  have key : (m.sessionId, (vault.mentionKey m).2) = vault.mentionKey m := rfl
  cases found : store.byFp.get? (vault.mentionKey m) with
  | none =>
    have none : store.getByFingerprint m.sessionId (vault.mentionKey m).2 = none :=
      rep.getByFingerprint_none.mpr found
    rw [none] at stored
    cases stored
  | some i =>
    simp only [InMemoryTokenStore.bumpOccurrence, key, found]
    refine ⟨List.forall_mem_cons.mpr ⟨by rw [found]; rfl, tallied.known⟩, fun r member => ?_⟩
    obtain ⟨j, at_index⟩ := List.mem_iff_getElem?.mp member
    rw [List.getElem?_modify] at at_index
    obtain ⟨r', at_index', eq⟩ := Option.map_eq_some_iff.mp at_index
    have count := tallied.exact r' (List.mem_of_getElem? at_index')
    have index := rep.byFp_iff.mpr ⟨r', at_index', rfl⟩
    -- the counted row gains the new mention, the others have another key
    by_cases here : i = j
    · subst here
      obtain ⟨r₀, at_i, key_eq⟩ := rep.byFp_iff.mp found
      obtain rfl : r₀ = r' := Option.some.inj (at_i.symm.trans at_index')
      rw [if_pos rfl] at eq
      subst eq
      rw [List.countP_cons_of_pos (by simpa using key_eq.symm), ← count]
    · rw [if_neg here] at eq
      subst eq
      have apart : vault.mentionKey m ≠ (r'.sessionId, r'.valueFingerprint) := by
        intro same
        rw [same, index, Option.some.injEq] at found
        exact here found.symm
      exact count.trans (List.countP_cons_of_neg (by simpa using apart)).symm

/-- The record of a new value is stored with one occurrence: the mention is the first with its
fingerprint, and no other record is touched. -/
theorem Tallied.put (rep : Represents vault issues store) {done : List Mention}
    (tallied : Tallied vault done store) {m : Mention} {r : TokenRecord}
    (fresh : store.byFp.get? (vault.mentionKey m) = none)
    (key : (r.sessionId, r.valueFingerprint) = vault.mentionKey m) (once : r.occurrences = 1) :
    Tallied vault (m :: done) (store.put r) := by
  -- a fresh key was never mentioned, so the new row starts at one
  have unknown : ∀ m' ∈ done, vault.mentionKey m' ≠ vault.mentionKey m := by
    intro m' member same
    have known := tallied.known m' member
    rw [same, fresh] at known
    cases known
  simp only [InMemoryTokenStore.put, key]
  refine ⟨fun m' member => ?_, fun r' member => ?_⟩
  · rw [Dict.get?_set]
    split
    · rfl
    next other =>
      rcases List.mem_cons.mp member with rfl | member
      · exact absurd rfl other
      · exact tallied.known m' member
  · rcases List.mem_append.mp member with member | member
    · obtain ⟨j, at_index⟩ := List.mem_iff_getElem?.mp member
      have index := rep.byFp_iff.mpr ⟨r', at_index, rfl⟩
      rw [List.countP_cons_of_neg, tallied.exact r' member]
      simp only [decide_eq_true_eq]
      intro same
      rw [← same, fresh] at index
      cases index
    · obtain rfl := List.mem_singleton.mp member
      have none : done.countP (fun m' => vault.mentionKey m' =
          (r'.sessionId, r'.valueFingerprint)) = 0 := by
        rw [List.countP_eq_zero]
        intro m' member
        simpa [key] using unknown m' member
      rw [List.countP_cons_of_pos (by simp [key]), none, once]

/-- The step lemma: looking up a value counts one occurrence of it and none of any other value. -/
theorem Tallied.mention {ledger : Ledger} {st : VaultState} (refines : Refines vault ledger st)
    {done : List Mention} (tallied : Tallied vault done st.store) (m : Mention) :
    Tallied vault (m :: done) (vault.mention st m).store := by
  rcases vault.mention_cases st m with ⟨stored, eq⟩ | ⟨fresh, r, eq, key, once⟩
  · rw [eq]
    exact tallied.bump refines.store stored
  · rw [eq]
    exact tallied.put refines.store (refines.store.getByFingerprint_none.mp fresh) key once

/-- A change that leaves the index entries and the records of a session as they are leaves
everything that a request of the session can see. -/
theorem SameSession.of_indexes (rep : Represents vault issues store) {store' : InMemoryTokenStore}
    {sessionId : Text}
    (byFp : store'.byFp.entries.filter (·.1.1 = sessionId) =
      store.byFp.entries.filter (·.1.1 = sessionId))
    (byPh : ∀ ph, store'.byPh.get? (sessionId, ph) = store.byPh.get? (sessionId, ph))
    (records : ∀ (i : Nat) (r : TokenRecord), store.records[i]? = some r → r.sessionId = sessionId →
      store'.records[i]? = some r) : SameSession sessionId store store' := by
  -- a lookup for the session reads the session's own entries only
  have entries (d : Dict (Text × Text) Nat) (fp : Text) : d.get? (sessionId, fp) =
      ((d.entries.filter (·.1.1 = sessionId)).find? (·.1 = (sessionId, fp))).map Prod.snd := by
    rw [Dict.get?, List.find?_filter]
    congr 2
    funext entry
    by_cases same : entry.1 = (sessionId, fp) <;> simp [same]
  have lookup {i : Nat} {r : TokenRecord} (at_index : store.records[i]? = some r)
      (mine : r.sessionId = sessionId) : store'.records[i]? = store.records[i]? := by
    rw [records i r at_index mine, at_index]
  refine ⟨fun fp => ?_, fun ph => ?_, ?_⟩
  · rw [InMemoryTokenStore.getByFingerprint, InMemoryTokenStore.getByFingerprint, entries, byFp,
      ← entries]
    cases found : store.byFp.get? (sessionId, fp) with
    | none => rfl
    | some i =>
      obtain ⟨r, at_index, key⟩ := rep.byFp_iff.mp found
      exact lookup at_index (Prod.mk.inj key).1
  · rw [InMemoryTokenStore.getByPlaceholder, InMemoryTokenStore.getByPlaceholder, byPh]
    cases found : store.byPh.get? (sessionId, ph) with
    | none => rfl
    | some i =>
      obtain ⟨r, at_index, key⟩ := rep.of_byPh found
      exact lookup at_index (Prod.mk.inj key).1
  · have read (records : List TokenRecord) (es : List ((Text × Text) × Nat)) :
        es.filterMap (fun e => if e.1.1 = sessionId then records[e.2]? else none) =
          (es.filter (·.1.1 = sessionId)).filterMap fun e => records[e.2]? := by
      rw [List.filterMap_filter]
      congr 1
      funext entry
      by_cases mine : entry.1.1 = sessionId <;> simp [mine]
    rw [InMemoryTokenStore.allForSession, InMemoryTokenStore.allForSession, read, read, byFp]
    refine List.filterMap_congr fun entry member => ?_
    obtain ⟨within, mine⟩ := List.mem_filter.mp member
    obtain ⟨r, at_index, key⟩ := rep.byFp_iff.mp (Dict.mem_entries.mp within)
    refine lookup at_index ?_
    rw [← key] at mine
    simpa using mine

theorem SameSession.refl (sessionId : Text) (store : InMemoryTokenStore) :
    SameSession sessionId store store :=
  ⟨fun _ => rfl, fun _ => rfl, rfl⟩

theorem SameSession.trans {sessionId : Text} {first second third : InMemoryTokenStore}
    (h : SameSession sessionId first second) (h' : SameSession sessionId second third) :
    SameSession sessionId first third :=
  ⟨fun fp => (h'.byFingerprint fp).trans (h.byFingerprint fp),
    fun ph => (h'.byPlaceholder ph).trans (h.byPlaceholder ph), h'.all.trans h.all⟩

/-- The step lemma: looking up or storing a value of one session leaves everything as it is for the
other sessions. -/
theorem SameSession.mention {ledger : Ledger} {st : VaultState} (refines : Refines vault ledger st)
    {m : Mention} {sessionId : Text} (other : m.sessionId ≠ sessionId) :
    SameSession sessionId st.store (vault.mention st m).store := by
  have rep := refines.store
  -- the mention counts a row of its own session or appends one
  rcases vault.mention_cases st m with ⟨stored, eq⟩ | ⟨fresh, r, eq, key, once⟩
  · rw [eq, InMemoryTokenStore.bumpOccurrence]
    split
    · exact .refl _ _
    next i found =>
      obtain ⟨r, at_index, key⟩ := rep.byFp_iff.mp found
      refine .of_indexes rep rfl (fun _ => rfl) fun j r' at_index' mine => ?_
      have apart : i ≠ j := by
        rintro rfl
        obtain rfl := Option.some.inj (at_index.symm.trans at_index')
        exact other ((Prod.mk.inj key).1.symm.trans mine)
      simp [apart, at_index']
  · have unknown : st.store.byFp.get? (vault.mentionKey m) = none :=
      rep.getByFingerprint_none.mp fresh
    have theirs : r.sessionId ≠ sessionId := fun mine =>
      other ((congrArg Prod.fst key).symm.trans mine)
    rw [eq]
    refine .of_indexes rep ?_ (fun ph => ?_) fun i r' at_index mine => ?_
    · simp only [InMemoryTokenStore.put, key]
      rw [Dict.entries_set_of_fresh unknown, List.filter_append]
      simp [Vault.mentionKey, other]
    · simp only [InMemoryTokenStore.put]
      rw [Dict.get?_set, if_neg fun same => theirs (Prod.mk.inj same).1]
    · have inside := (List.getElem?_eq_some_iff.mp at_index).1
      rw [InMemoryTokenStore.put, List.getElem?_append_left inside, at_index]

end

/-! ## Runs of the ledger -/

namespace Ledger

variable (ident : Text → Text → Text → Text) (urandom : Urandom)

def mention (ledger : Ledger) (m : Mention) : Ledger :=
  (ledger.placeholderOf ident urandom m.sessionId m.entityType m.value).2

/-- What a run of mentions leaves: the ledger has grown by issues of these mentions, covers all of
them, and is still sound unless draws ran out. -/
structure Grows (ms : List Mention) (before after : Ledger) : Prop where
  grows : before.issues <:+ after.issues
  counted : before.exhausted ≤ after.exhausted
  sound : after.exhausted = before.exhausted → Sound before.issues → Sound after.issues
  origin : ∀ e ∈ after.issues, e ∈ before.issues ∨ ⟨e.sessionId, e.entityType, e.value⟩ ∈ ms
  covers : ∀ m ∈ ms, ∃ placeholder,
    Covers ident after.issues m.sessionId m.entityType m.value placeholder

variable {ident urandom} in
theorem Covers.mono {issues newer : List Issue} (grows : issues <:+ newer)
    {sessionId entityType value placeholder : Text}
    (covers : Covers ident issues sessionId entityType value placeholder) :
    Covers ident newer sessionId entityType value placeholder := by
  obtain ⟨e, member, rest⟩ := covers
  exact ⟨e, grows.subset member, rest⟩

/-- The run lemma, by induction on the mentions: a ledger through which they go grows by issues of
these mentions only, and covers all of them. -/
theorem grows_foldl (ms : List Mention) : ∀ ledger,
    Grows ident ms ledger (ms.foldl (mention ident urandom) ledger) := by
  induction ms with
  | nil =>
    intro ledger
    exact ⟨List.suffix_rfl, Nat.le_refl _, fun _ sound => sound, fun _ member => .inl member,
      by simp⟩
  | cons m ms ih =>
    intro ledger
    have step := placeholderOf_step ident urandom ledger m.sessionId m.entityType m.value
    have next_eq : (ledger.placeholderOf ident urandom m.sessionId m.entityType m.value).2 =
        mention ident urandom ledger m := rfl
    rw [List.foldl_cons]
    rw [next_eq] at step
    -- the first mention extends the ledger, the rest extend that
    obtain ⟨covers, extend⟩ := step
    generalize mention ident urandom ledger m = next at covers extend
    have rest := ih next
    have low := extend.counted
    have high := rest.counted
    refine ⟨extend.grows.trans rest.grows, Nat.le_trans extend.counted rest.counted,
      fun same sound => ?_, fun e member => ?_, List.forall_mem_cons.mpr ⟨?_, rest.covers⟩⟩
    · exact rest.sound (by omega) (extend.sound (by omega) sound)
    · rcases rest.origin e member with old | new
      · rcases extend.origin e old with older | ⟨session, ⟨type, value⟩, _⟩
        · exact .inl older
        · exact .inr (by rw [session, type, value]; exact List.mem_cons_self)
      · exact .inr (List.mem_cons_of_mem _ new)
    · exact ⟨_, covers.mono rest.grows⟩

end Ledger

theorem refines_foldl {vault : Vault} (laws : AesGcmLaws vault.crypto) (ms : List Mention) :
    ∀ {ledger : Ledger} {st : VaultState}, Refines vault ledger st →
      Refines vault (ms.foldl (Ledger.mention vault.fingerprint vault.urandom) ledger)
        (ms.foldl vault.mention st) := by
  induction ms with
  | nil => exact fun refines => refines
  | cons m ms ih =>
    intro ledger st refines
    exact ih (placeholderOf_refines laws refines m.sessionId m.entityType m.value).2

/-- The run lemma of the counts: each record has been counted once for each mention with its
fingerprint. -/
theorem tallied_foldl {vault : Vault} (laws : AesGcmLaws vault.crypto) (ms : List Mention) :
    ∀ {ledger : Ledger} {st : VaultState} {done : List Mention}, Refines vault ledger st →
      Tallied vault done st.store →
      Tallied vault (ms.reverse ++ done) (ms.foldl vault.mention st).store := by
  induction ms with
  | nil => exact fun _ tallied => tallied
  | cons m ms ih =>
    intro ledger st done refines tallied
    have next := placeholderOf_refines laws refines m.sessionId m.entityType m.value
    rw [List.reverse_cons, List.append_assoc]
    exact ih next.2 (tallied.mention refines m)

/-- The run lemma of the sessions that are left alone: mentions of other sessions change nothing
that a session can see. -/
theorem sameSession_foldl {vault : Vault} (laws : AesGcmLaws vault.crypto) {sessionId : Text}
    (ms : List Mention) (others : ∀ m ∈ ms, m.sessionId ≠ sessionId) :
    ∀ {ledger : Ledger} {st : VaultState}, Refines vault ledger st →
      SameSession sessionId st.store (ms.foldl vault.mention st).store := by
  induction ms with
  | nil => exact fun _ => .refl _ _
  | cons m ms ih =>
    intro ledger st refines
    have next := placeholderOf_refines laws refines m.sessionId m.entityType m.value
    have rest := ih (fun m' member => others m' (List.mem_cons_of_mem _ member)) next.2
    exact (SameSession.mention refines (others m List.mem_cons_self)).trans rest

end RedactGate
