import RedactGate.Library.System
import RedactGate.Redaction.PgStore
import RedactGate.Redaction.RoundTrip

/-!
# Concurrent calls of `tokenize`

Calls of `tokenize` on one session over the PostgreSQL store. A call awaits each operation
of the store, and another call may run its own operations in between; what a call computes
between two operations touches nobody else.
-/
namespace RedactGate

open Library

/-- A placeholder that went into the output of a call, with the span it replaced and the value found
there. -/
structure Insertion (Score : Type) where
  span : EntitySpan Score
  value : Text
  placeholder : Text

def Insertion.edit {Score : Type} (x : Insertion Score) : Edit :=
  ⟨x.span.start, x.span.stop, x.placeholder⟩

/-- The next operation of a call on the store, for the span at the head of those to come; between
two operations another call may run. -/
inductive TokenizeStage where
  | getByFingerprint
  | bumpOccurrence (placeholder : Text)
  | getByPlaceholder (nbytes : Nat) (sizes : List Nat)
  | put (placeholder : Text)
  | raised
  deriving DecidableEq

/-- A call of `tokenize` between two of its operations. The insertions so far are a ghost, which no
operation reads. -/
structure Writer (Score : Type) where
  text : Text
  out : Text
  todo : List (EntitySpan Score)
  stage : TokenizeStage
  draws : Nat
  inserted : List (Insertion Score)

namespace Writer

variable {Score : Type}

def start (text : Text) (spans : List (EntitySpan Score)) : Writer Score :=
  ⟨text, text, Vault.rightToLeft spans, .getByFingerprint, 0, []⟩

/-- The end of the loop body: the placeholder is written over the span, and the call goes on with
the next span. -/
def splice (w : Writer Score) (span : EntitySpan Score) (placeholder : Text) : Writer Score :=
  { w with
    out := w.out.splice span.start span.stop placeholder
    todo := w.todo.tail
    stage := .getByFingerprint
    inserted := w.inserted ++ [⟨span, w.text.slice span.start span.stop, placeholder⟩] }

end Writer

/-- The attempts still to come, or the fallback when there are none. -/
def drawStage (entityType fp : Text) : List Nat → TokenizeStage
  | [] => .put (makePlaceholder entityType (fp.take 12))
  | nbytes :: sizes => .getByPlaceholder nbytes sizes

/-- The store and the calls on it. -/
structure VaultSystem (ι Score : Type) where
  store : PostgresTokenStore
  writers : ι → Writer Score

namespace Vault

variable {ι Score : Type} (vault : Vault) (sessionId : Text)

/-- `_encrypt`, with the nonce that is drawn for it. -/
def sealValue (nonce : Bytes) (value : Text) : Bytes :=
  nonce ++ vault.crypto.aesGcmEncrypt (vault.deriveDek sessionId) nonce (utf8 value)

/-- The next operation of a call, with all that it computes before the one after that; a call that
has raised goes no further. -/
def operate (urandom : Urandom) (store : PostgresTokenStore) (w : Writer Score) :
    Option (PostgresTokenStore × Writer Score) :=
  match w.todo with
  | [] => none
  | span :: _ =>
    let value := w.text.slice span.start span.stop
    let fp := vault.fingerprint sessionId span.entityType value
    match w.stage with
    | .getByFingerprint =>
      match store.getByFingerprint sessionId fp with
      -- the counter is a second operation, and another call may come between
      | some existing => some (store, { w with stage := .bumpOccurrence existing.placeholder })
      | none => some (store, { w with stage := drawStage span.entityType fp drawSizes })
    | .bumpOccurrence placeholder =>
      some (store.bumpOccurrence sessionId fp, w.splice span placeholder)
    | .getByPlaceholder nbytes sizes =>
      let placeholder := makePlaceholder span.entityType (hex (urandom.bytes w.draws nbytes))
      let stage :=
        if (store.getByPlaceholder sessionId placeholder).isSome then
          drawStage span.entityType fp sizes
        else .put placeholder
      some (store, { w with stage := stage, draws := w.draws + 1 })
    | .put placeholder =>
      let nonce := urandom.bytes w.draws nonceLen
      match store.put
        { sessionId := sessionId, placeholder := placeholder, entityType := span.entityType,
          valueCiphertext := vault.sealValue sessionId nonce value, valueFingerprint := fp } with
      -- `put` may have done nothing: the call splices its own placeholder all the same
      | some store => some (store, { w.splice span placeholder with draws := w.draws + 1 })
      | none => some (store, { w with stage := .raised, draws := w.draws + 1 })
    | .raised => none

/-- One operation of one call. The calls may draw from one source, in the order in which
they come, or each from its own: `urandom i` is what the call `i` draws. -/
def step [DecidableEq ι] (urandom : ι → Urandom) (s : VaultSystem ι Score) (i : ι) :
    Option (VaultSystem ι Score) :=
  (vault.operate sessionId (urandom i) s.store (s.writers i)).map fun (store, w) =>
    ⟨store, Function.update s.writers i w⟩

/-- `detokenize` over the PostgreSQL store. -/
def detokenizeRows (store : PostgresTokenStore) (text : Text) : Option Text :=
  vault.detokenizeBy (store.getByPlaceholder sessionId) text sessionId

/-- What `detokenize` puts in the place of a placeholder. -/
def resolve (store : PostgresTokenStore) (placeholder : Text) : Option Text :=
  (store.getByPlaceholder sessionId placeholder).bind fun record =>
    vault.decrypt sessionId record.valueCiphertext

/-! ## One operation -/

variable {vault : Vault} {sessionId : Text}

/-- The fingerprint a call looks up for the span at the head. -/
def headFp (vault : Vault) (sessionId : Text) (w : Writer Score) (span : EntitySpan Score) : Text :=
  vault.fingerprint sessionId span.entityType (w.text.slice span.start span.stop)

theorem drawStage_ne_bump (entityType fp : Text) (sizes : List Nat) (placeholder : Text) :
    drawStage entityType fp sizes ≠ .bumpOccurrence placeholder := by
  cases sizes <;> simp [drawStage]

/-- Where a call goes on that neither finds a row of its value nor stores one, so that the store
stays as it is. -/
inductive Idles (entityType fp : Text) : TokenizeStage → TokenizeStage → Prop
  | unknown : Idles entityType fp .getByFingerprint (drawStage entityType fp drawSizes)
  | taken (nbytes : Nat) (sizes : List Nat) :
      Idles entityType fp (.getByPlaceholder nbytes sizes) (drawStage entityType fp sizes)
  | free (bytes : Bytes) (sizes : List Nat) :
      Idles entityType fp (.getByPlaceholder bytes.length sizes)
        (.put (makePlaceholder entityType (hex bytes)))
  | refused (placeholder : Text) : Idles entityType fp (.put placeholder) .raised

theorem Idles.ne_bump {entityType fp : Text} {stage stage' : TokenizeStage}
    (idles : Idles entityType fp stage stage') (placeholder : Text) :
    stage' ≠ .bumpOccurrence placeholder := by
  cases idles with
  | unknown => exact drawStage_ne_bump _ _ _ _
  | taken => exact drawStage_ne_bump _ _ _ _
  | free => exact TokenizeStage.noConfusion
  | refused => exact TokenizeStage.noConfusion

/-- Everything an operation can do: look, count an occurrence, or store a record, unless
the placeholder is another's. -/
theorem operate_cases {urandom : Urandom} {store store' : PostgresTokenStore}
    {w w' : Writer Score} (taken : vault.operate sessionId urandom store w = some (store', w')) :
    ∃ span rest, w.todo = span :: rest ∧
      ((∃ existing, w.stage = .getByFingerprint ∧
          store.getByFingerprint sessionId (headFp vault sessionId w span) = some existing ∧
          store' = store ∧ w' = { w with stage := .bumpOccurrence existing.placeholder }) ∨
        (∃ stage draws, Idles span.entityType (headFp vault sessionId w span) w.stage stage ∧
          store' = store ∧ w' = { w with stage := stage, draws := draws }) ∨
        (∃ placeholder, w.stage = .bumpOccurrence placeholder ∧
          store' = store.bumpOccurrence sessionId (headFp vault sessionId w span) ∧
          w' = w.splice span placeholder) ∨
        ∃ placeholder nonce, w.stage = .put placeholder ∧ nonce.length = nonceLen ∧
          store.put
            { sessionId := sessionId, placeholder := placeholder, entityType := span.entityType,
              valueCiphertext := vault.sealValue sessionId nonce
                (w.text.slice span.start span.stop),
              valueFingerprint := headFp vault sessionId w span } = some store' ∧
          w' = { w.splice span placeholder with draws := w.draws + 1 }) := by
  unfold operate at taken
  split at taken
  · cases taken
  next span rest todo =>
    refine ⟨span, rest, todo, ?_⟩
    simp only at taken
    split at taken
    -- one branch for each stage of the call
    next looking =>
      split at taken
      next existing found =>
        obtain ⟨rfl, rfl⟩ := Prod.mk.inj (Option.some.inj taken)
        exact .inl ⟨existing, looking, found, rfl, rfl⟩
      next =>
        obtain ⟨rfl, rfl⟩ := Prod.mk.inj (Option.some.inj taken)
        exact .inr (.inl ⟨_, _, looking ▸ .unknown, rfl, rfl⟩)
    next placeholder bumping =>
      obtain ⟨rfl, rfl⟩ := Prod.mk.inj (Option.some.inj taken)
      exact .inr (.inr (.inl ⟨placeholder, bumping, rfl, rfl⟩))
    next nbytes sizes drawing =>
      obtain ⟨rfl, rfl⟩ := Prod.mk.inj (Option.some.inj taken)
      refine .inr (.inl ⟨_, _, ?_, rfl, rfl⟩)
      rw [drawing]
      split
      · exact .taken nbytes sizes
      · have drawn : Idles span.entityType (headFp vault sessionId w span) _ _ :=
          .free (urandom.bytes w.draws nbytes) sizes
        rwa [urandom.length_bytes] at drawn
    next placeholder putting =>
      split at taken
      next after stored =>
        obtain ⟨rfl, rfl⟩ := Prod.mk.inj (Option.some.inj taken)
        exact .inr (.inr (.inr ⟨placeholder, _, putting, urandom.length_bytes _ _, stored, rfl⟩))
      next =>
        obtain ⟨rfl, rfl⟩ := Prod.mk.inj (Option.some.inj taken)
        exact .inr (.inl ⟨_, _, putting ▸ .refused placeholder, rfl, rfl⟩)
    next => cases taken

/-! ## The invariant -/

/-- The session has a row of the fingerprint with the placeholder. -/
def HasRow (sessionId : Text) (store : PostgresTokenStore) (fp placeholder : Text) : Prop :=
  ∃ r ∈ store.rows, r.sessionId = sessionId ∧ r.valueFingerprint = fp ∧ r.placeholder = placeholder

/-- The rows of the session hold encrypted values of their fingerprints, under placeholders that
the reader finds, for types that it can read. -/
def Sound (vault : Vault) (sessionId : Text) (store : PostgresTokenStore) : Prop :=
  ∀ r ∈ store.rows, r.sessionId = sessionId → IsPlaceholder r.placeholder ∧
    ∃ entityType value, isTypeName entityType = true ∧
      r.valueFingerprint = vault.fingerprint sessionId entityType value ∧
      vault.decrypt sessionId r.valueCiphertext = some value

/-- What the stage of a call has drawn so far makes a placeholder of the type of its span. -/
def Drawn : TokenizeStage → Prop
  | .getByPlaceholder nbytes sizes => nbytes ∈ drawSizes ∧ sizes ⊆ drawSizes
  | .put placeholder => IsPlaceholder placeholder
  | .getByFingerprint | .bumpOccurrence _ | .raised => True

/-- What a call has inserted, and what it is about to insert, is in the store, and its output is
its text with the insertions spliced in. -/
structure Backed (vault : Vault) (sessionId : Text) (text : Text) (spans : List (EntitySpan Score))
    (store : PostgresTokenStore) (w : Writer Score) : Prop where
  text_eq : w.text = text
  covered : w.inserted.map Insertion.span ++ w.todo = rightToLeft spans
  values : ∀ x ∈ w.inserted, x.value = text.slice x.span.start x.span.stop
  spliced : w.out = (w.inserted.map Insertion.edit).foldl (fun out e => e.splice out) text
  inserted : ∀ x ∈ w.inserted,
    HasRow sessionId store (vault.fingerprint sessionId x.span.entityType x.value) x.placeholder
  found : ∀ placeholder span rest, w.stage = .bumpOccurrence placeholder → w.todo = span :: rest →
    HasRow sessionId store (headFp vault sessionId w span) placeholder
  drawn : Drawn w.stage

theorem Backed.start (vault : Vault) (sessionId text : Text) (spans : List (EntitySpan Score))
    (store : PostgresTokenStore) :
    Backed vault sessionId text spans store (.start text spans) where
  text_eq := rfl
  covered := rfl
  values _ member := absurd member List.not_mem_nil
  spliced := rfl
  inserted _ member := absurd member List.not_mem_nil
  found _ _ _ bumping := TokenizeStage.noConfusion bumping
  drawn := trivial

/-- The call does not lose its placeholder at its next operation: an insert finds no row of
the fingerprint with another one. -/
def keepsPlaceholder (vault : Vault) (sessionId : Text) (store : PostgresTokenStore)
    (w : Writer Score) : Bool :=
  match w.todo, w.stage with
  | span :: _, .put placeholder =>
    match store.getByFingerprint sessionId (headFp vault sessionId w span) with
    | some existing => existing.placeholder = placeholder
    | none => true
  | _, _ => true

/-! ## What an operation keeps -/

/-- The store has every row it had, its occurrences apart. -/
def Keeps (sessionId : Text) (store store' : PostgresTokenStore) : Prop :=
  ∀ fp placeholder, HasRow sessionId store fp placeholder → HasRow sessionId store' fp placeholder

theorem HasRow.unique {store : PostgresTokenStore} {fp placeholder placeholder' : Text}
    (row : HasRow sessionId store fp placeholder) (row' : HasRow sessionId store fp placeholder') :
    placeholder = placeholder' := by
  obtain ⟨r, member, session, fingerprint, rfl⟩ := row
  obtain ⟨r', member', session', fingerprint', rfl⟩ := row'
  have same : (r.sessionId, r.valueFingerprint) = (r'.sessionId, r'.valueFingerprint) := by
    rw [session, session', fingerprint, fingerprint']
  rw [store.uqTokenmapFp.eq member member' same]

variable (sessionId) in
theorem keeps_bumpOccurrence (store : PostgresTokenStore) (fp : Text) :
    Keeps sessionId store (store.bumpOccurrence sessionId fp) := by
  rintro fp' placeholder ⟨r, member, session, fingerprint, holder⟩
  obtain ⟨session', fingerprint', holder', _⟩ := PostgresTokenStore.bumped_keys sessionId fp r
  exact ⟨_, List.mem_map_of_mem member, session'.trans session, fingerprint'.trans fingerprint,
    holder'.trans holder⟩

theorem Sound.bumpOccurrence {store : PostgresTokenStore} (sound : Sound vault sessionId store)
    (fp : Text) : Sound vault sessionId (store.bumpOccurrence sessionId fp) := by
  intro r' member session
  obtain ⟨r, among, rfl⟩ := List.mem_map.mp member
  obtain ⟨session', fingerprint, holder, ciphertext⟩ :=
    PostgresTokenStore.bumped_keys sessionId fp r
  obtain ⟨placeholder, entityType, value, typed, named, opened⟩ :=
    sound r among (session'.symm.trans session)
  exact ⟨holder ▸ placeholder, entityType, value, typed, fingerprint.trans named,
    by rw [ciphertext, opened]⟩

variable (sessionId) in
theorem keeps_put {store store' : PostgresTokenStore} {record : TokenRecord}
    (stored : store.put record = some store') : Keeps sessionId store store' := by
  rintro fp placeholder ⟨r, member, keys⟩
  rcases PostgresTokenStore.put_cases stored with ⟨_, rfl⟩ | ⟨_, rows⟩
  · exact ⟨r, member, keys⟩
  · refine ⟨r, ?_, keys⟩
    rw [rows]
    exact List.mem_append_left _ member

theorem decrypt_sealValue (laws : AesGcmLaws vault.crypto) {nonce : Bytes}
    (len : nonce.length = nonceLen) (value : Text) :
    vault.decrypt sessionId (vault.sealValue sessionId nonce value) = some value := by
  have opened := laws.decrypt_encrypt (vault.deriveDek sessionId) nonce (utf8 value)
    (laws.dek_length _ _ _) len
  simp only [decrypt, sealValue, List.take_left' len, List.drop_left' len, opened,
    Option.bind_some, utf8Decode_utf8]

/-- A record whose value is sealed for the session under a well-formed placeholder may be stored,
and if the store has its fingerprint already then nothing is inserted. -/
theorem Sound.put (laws : AesGcmLaws vault.crypto) {store store' : PostgresTokenStore}
    (sound : Sound vault sessionId store) {nonce : Bytes} (len : nonce.length = nonceLen)
    {placeholder entityType value : Text} (drawn : IsPlaceholder placeholder)
    (typed : isTypeName entityType = true)
    (stored : store.put ⟨sessionId, placeholder, entityType, vault.sealValue sessionId nonce value,
      vault.fingerprint sessionId entityType value, 1⟩ = some store') :
    Sound vault sessionId store' := by
  rcases PostgresTokenStore.put_cases stored with ⟨_, rfl⟩ | ⟨_, rows⟩
  · exact sound
  · intro r member session
    rw [rows] at member
    rcases List.mem_append.mp member with old | new
    · exact sound r old session
    · rw [List.mem_singleton.mp new]
      exact ⟨drawn, entityType, value, typed, rfl, decrypt_sealValue laws len value⟩

/-- Where a call goes on without storing anything, what it draws next is for the same type, and
makes a placeholder of it. -/
theorem Drawn.idles (digest : HmacDigest vault.crypto) {entityType value : Text}
    {stage stage' : TokenizeStage} (typed : isTypeName entityType = true) (drawn : Drawn stage)
    (idles : Idles entityType (vault.fingerprint sessionId entityType value) stage stage') :
    Drawn stage' := by
  have draw {sizes : List Nat} (within : sizes ⊆ drawSizes) :
      Drawn (drawStage entityType (vault.fingerprint sessionId entityType value) sizes) := by
    cases sizes with
    | nil => exact ⟨entityType, _, typed, isTokenHex_fallback digest sessionId entityType value, rfl⟩
    | cons nbytes sizes => exact List.cons_subset.mp within
  cases idles with
  | unknown => exact draw fun _ member => member
  | taken nbytes sizes => exact draw drawn.2
  | free bytes sizes => exact ⟨entityType, _, typed, Ledger.isTokenHex_hex drawn.1, rfl⟩
  | refused => trivial

variable {text : Text} {spans : List (EntitySpan Score)}

theorem Backed.mono {store store' : PostgresTokenStore} {w : Writer Score}
    (backed : Backed vault sessionId text spans store w) (keeps : Keeps sessionId store store') :
    Backed vault sessionId text spans store' w :=
  { backed with
    inserted := fun x member => keeps _ _ (backed.inserted x member)
    found := fun placeholder span rest bumping todo =>
      keeps _ _ (backed.found placeholder span rest bumping todo) }

/-- The span at the head is one of the call. -/
theorem Backed.mem_head {store : PostgresTokenStore} {w : Writer Score}
    (backed : Backed vault sessionId text spans store w) {span : EntitySpan Score}
    {rest : List (EntitySpan Score)} (todo : w.todo = span :: rest) : span ∈ spans := by
  refine (rightToLeft_perm spans).mem_iff.mp ?_
  rw [← backed.covered, todo]
  exact List.mem_append_right _ List.mem_cons_self

/-- A loop body may end when some row of the store has the fingerprint of its span with the
placeholder that is written, whichever call has inserted it. -/
theorem Backed.splice {store : PostgresTokenStore} {w : Writer Score}
    (backed : Backed vault sessionId text spans store w) {span : EntitySpan Score}
    {rest : List (EntitySpan Score)} (todo : w.todo = span :: rest) {placeholder : Text}
    (row : HasRow sessionId store (headFp vault sessionId w span) placeholder) (draws : Nat) :
    Backed vault sessionId text spans store { w.splice span placeholder with draws := draws } where
  text_eq := backed.text_eq
  -- the span moves from the front of the work to the end of the edits
  covered := by
    have before := backed.covered
    rw [todo] at before
    simp only [Writer.splice, todo, List.map_append, List.map_singleton, List.tail_cons,
      List.append_assoc, List.singleton_append, before]
  values x member := by
    rcases List.mem_append.mp member with old | new
    · exact backed.values x old
    · rw [List.mem_singleton.mp new, backed.text_eq]
  spliced := by
    simp only [Writer.splice, List.map_append, List.map_singleton, List.foldl_append,
      List.foldl_cons, List.foldl_nil, ← backed.spliced]
    rfl
  inserted x member := by
    rcases List.mem_append.mp member with old | new
    · exact backed.inserted x old
    · rw [List.mem_singleton.mp new]
      exact row
  found _ _ _ bumping := TokenizeStage.noConfusion bumping
  drawn := trivial

theorem operate_keeps (laws : AesGcmLaws vault.crypto) (digest : HmacDigest vault.crypto)
    {urandom : Urandom} {store store' : PostgresTokenStore} {w w' : Writer Score}
    (typed : ∀ s ∈ spans, isTypeName s.entityType = true)
    (sound : Sound vault sessionId store)
    (backed : Backed vault sessionId text spans store w)
    (wins : keepsPlaceholder vault sessionId store w = true)
    (taken : vault.operate sessionId urandom store w = some (store', w')) :
    Sound vault sessionId store' ∧ Backed vault sessionId text spans store' w' ∧
      Keeps sessionId store store' := by
  -- only the put can break the invariant, where another call's row won
  obtain ⟨span, rest, todo, looked | idle | bumped | stored⟩ := operate_cases taken
  · obtain ⟨existing, _, found, rfl, rfl⟩ := looked
    refine ⟨sound, { backed with found := ?_, drawn := trivial }, fun _ _ row => row⟩
    intro placeholder span' rest' bumping todo'
    obtain ⟨rfl, _⟩ := List.cons.inj (todo.symm.trans todo')
    obtain ⟨member, session, fingerprint⟩ := PostgresTokenStore.of_getByFingerprint found
    exact ⟨existing, member, session, fingerprint, TokenizeStage.bumpOccurrence.inj bumping⟩
  · obtain ⟨stage, draws, idles, rfl, rfl⟩ := idle
    refine ⟨sound, { backed with found := ?_, drawn := ?_ }, fun _ _ row => row⟩
    · exact fun placeholder _ _ bumping => absurd bumping (idles.ne_bump placeholder)
    · exact backed.drawn.idles digest (typed span (backed.mem_head todo)) idles
  · obtain ⟨placeholder, bumping, rfl, rfl⟩ := bumped
    have keeps := keeps_bumpOccurrence sessionId store (headFp vault sessionId w span)
    have row := keeps _ _ (backed.found placeholder span rest bumping todo)
    exact ⟨sound.bumpOccurrence _, (backed.mono keeps).splice todo row w.draws, keeps⟩
  · obtain ⟨placeholder, nonce, putting, len, stored, rfl⟩ := stored
    have keeps := keeps_put sessionId stored
    have row : HasRow sessionId store' (headFp vault sessionId w span) placeholder := by
      rcases PostgresTokenStore.put_cases stored with ⟨⟨r, found⟩, rfl⟩ | ⟨_, rows⟩
      · -- the row of the fingerprint is another call's, with the same placeholder
        obtain ⟨member, session, fingerprint⟩ := PostgresTokenStore.of_getByFingerprint found
        rw [keepsPlaceholder, todo, putting] at wins
        simp only at wins found
        rw [found] at wins
        exact ⟨r, member, session, fingerprint, of_decide_eq_true wins⟩
      · exact ⟨_, rows ▸ List.mem_append_right _ (List.mem_singleton_self _), rfl, rfl, rfl⟩
    have drawn : IsPlaceholder placeholder := by
      have drawn := backed.drawn
      rwa [putting] at drawn
    exact ⟨sound.put laws len drawn (typed span (backed.mem_head todo)) stored,
      (backed.mono keeps).splice todo row _, keeps⟩

/-! ## Reading back -/

/-- A row of the session that has the fingerprint of a value is resolved to this value, and its
placeholder can be read. -/
theorem Sound.resolve (hmac : HmacInjective vault.crypto) {store : PostgresTokenStore}
    (sound : Sound vault sessionId store) {entityType value placeholder : Text}
    (typed : isTypeName entityType = true)
    (row : HasRow sessionId store (vault.fingerprint sessionId entityType value) placeholder) :
    IsPlaceholder placeholder ∧ vault.resolve sessionId store placeholder = some value := by
  obtain ⟨r, stored, session, fingerprint, holder⟩ := row
  obtain ⟨shape, entityType', value', typed', named, opened⟩ := sound r stored session
  have same := (fingerprint_eq_iff hmac sessionId).mp (named.symm.trans fingerprint)
  obtain ⟨_, rfl⟩ := (Text.append_cons_inj (colon_not_mem_typeName typed')
    (colon_not_mem_typeName typed)).mp same
  have found := PostgresTokenStore.getByPlaceholder_of_mem stored
  rw [session, holder] at found
  exact ⟨holder ▸ shape, by rw [Vault.resolve, found, Option.bind_some, opened]⟩

theorem Sound.detokenizeRows {store : PostgresTokenStore} (sound : Sound vault sessionId store)
    (text : Text) : vault.detokenizeRows sessionId store text =
      some (substitute placeholderAt (vault.resolve sessionId store) text) := by
  refine detokenizeBy_eq (fun placeholder r found => ?_) text
  obtain ⟨member, session, _⟩ := PostgresTokenStore.of_getByPlaceholder found
  obtain ⟨_, _, _, _, _, opened⟩ := sound r member session
  rw [opened]
  rfl

end Vault

end RedactGate
