import RedactGate.Desktop.LabelVault
import RedactGate.Library.System
import RedactGate.Redaction.Vault

/-!
# Resolution of mentions

The same value gets the same label: a mention is looked up by the fingerprint of its
normalized value, a person also by a single entity that does not contradict it, and what is
not found becomes a new entity. The user can add entities, edit, exclude and delete them.
-/
namespace RedactGate.Desktop

open Library

structure Anonymizer where
  casing : Casing
  vault : Vault
  pid : Text
  order : RowOrder

def person : Text := "PERSON".toList

/-- The name parts of a linked person: each part that the mention has, or that of the entity where
the mention has none. -/
def mergeMeta (personMeta old : PersonMeta) : PersonMeta where
  s := (given? personMeta.s).or old.s
  g := (given? personMeta.g).or old.g
  p := (given? personMeta.p).or old.p
  gs := (given? personMeta.gs).or old.gs
  w := personMeta.w

namespace Anonymizer

variable (anon : Anonymizer)

/-- `fingerprint`, of a normalized value. -/
def fingerprint (category norm : Text) : Text := anon.vault.fingerprint anon.pid category norm

/-- The fingerprint under which a value is looked up. -/
def valueFp (category value : Text) : Text :=
  anon.fingerprint category (normalize anon.casing category value)

/-- The fingerprint of a spelling. -/
def surfaceFp (category surface : Text) : Text :=
  anon.fingerprint category ("surface:".toList ++ surface)

/-- The entity a person is linked to without its fingerprint: the only one of all that is
compatible. -/
def aliasOf (st : VaultFile) (category surface : Text) : Option Entity :=
  if category = person ∧ (given? (parsePerson anon.casing surface).s).isSome then
    match (st.entities anon.order).filter fun x =>
        decide (x.category = person) && compatible (parsePerson anon.casing surface) x.personMeta with
    | [e] => some e
    | _ => none
  else none

/-- Whether the spelling is to become the canonical value. -/
def prefers (e : Entity) (surface : Text) : Bool :=
  decide (nominativeScore anon.casing e.value < nominativeScore anon.casing surface)

/-- Link a person to an entity: the mention is recorded as a spelling. If it is the better form then
it becomes canonical, and the old value is kept as a spelling. -/
def linkAlias (st : VaultFile) (e : Entity) (category surface : Text) : VaultFile :=
  let st := st.addVariant anon.order e.key (anon.valueFp category surface) surface
  if anon.prefers e surface then
    let st := st.setCanonical anon.order e.key surface
      (some (mergeMeta (parsePerson anon.casing surface) e.personMeta))
    st.addVariant anon.order e.key (anon.surfaceFp category e.value) e.value
  else st

/-- `_resolve`, with the label of the entity: one that has the value, a person who is compatible, or
a new one. A call that raises returns nothing. -/
def resolve (st : VaultFile) (category surface : Text) (origin : Origin) :
    Option (LabelKey × VaultFile) :=
  let st := st.load anon.order
  let fp := anon.valueFp category surface
  match st.byFingerprint anon.order fp with
  | some e =>
    -- a new spelling of a known value is registered under its own fingerprint
    if surface ∈ e.surfaces then some (e.key, st)
    else some (e.key, st.addVariant anon.order e.key (anon.surfaceFp category surface) surface)
  | none =>
    match anon.aliasOf st category surface with
    | some e => some (e.key, anon.linkAlias st e category surface)
    | none => st.addEntity anon.order category surface fp
        (if category = person then parsePerson anon.casing surface else .empty) origin

/-- `add_manual`: the stripped value is resolved like a mention of the category, and the entity is
excluded or taken back in. -/
def addManual (st : VaultFile) (category value : Text) (excluded : Bool) :
    Option (LabelKey × VaultFile) :=
  match anon.resolve st category (Text.strip anon.casing.toUnicode value) .manual with
  | none => none
  | some (key, st) =>
    match st.entityOf anon.order key with
    | some e =>
      some (key, if excluded ≠ e.excluded then st.setExcluded anon.order key excluded else st)
    | none => some (key, st)

/-- The new value of a request to edit an entity, if there is one. -/
def newValue (value : Option Text) : Option Text :=
  (value.map (Text.strip anon.casing.toUnicode)).filter (!·.isEmpty)

/-- The PATCH of an entity in the server: a new value, after which the old one is kept as a
spelling, and then the flag, if given. -/
def edit (st : VaultFile) (key : LabelKey) (value : Option Text) (excluded : Option Bool) :
    Option VaultFile :=
  let st := st.load anon.order
  match st.entityOf anon.order key with
  | none => none
  | some e =>
    let st := match anon.newValue value with
      -- the value before the edit stays as a variant
      | some value =>
        (st.setCanonical anon.order key value none).addVariant anon.order key
          (anon.surfaceFp e.category e.value) e.value
      | none => st
    some (match excluded with
      | some excluded => st.setExcluded anon.order key excluded
      | none => st)

/-- The DELETE of an entity in the server, with all of its rows; one that is not there is answered
with an error. -/
def delete (st : VaultFile) (key : LabelKey) : Option VaultFile :=
  let st := st.load anon.order
  match st.entityOf anon.order key with
  | none => none
  | some e => some (st.deleteEntity e.key)

end Anonymizer

/-- What is done with the entities of a project: mentions and manual entries, edits by the user,
counting, deleting and locking. -/
inductive VaultAction where
  | resolve (category surface : Text)
  | addManual (category value : Text) (excluded : Bool)
  | edit (key : LabelKey) (value : Option Text) (excluded : Option Bool)
  | bump (counts : List (LabelKey × Nat))
  | delete (key : LabelKey)
  | lock

namespace Anonymizer

/-- A step of a project, which is a call on its vault; a call that raises has no state after it. -/
def step (anon : Anonymizer) (st : VaultFile) : VaultAction → Option VaultFile
  | .resolve category surface => (anon.resolve st category surface .auto).map Prod.snd
  | .addManual category value excluded => (anon.addManual st category value excluded).map Prod.snd
  | .edit key value excluded => anon.edit st key value excluded
  | .bump counts => some (st.bump counts)
  | .delete key => anon.delete st key
  | .lock => some st.lock

end Anonymizer

/-! ## The ways an operation can go -/

variable {anon : Anonymizer} {st st' : VaultFile} {category surface : Text} {origin : Origin}
  {key : LabelKey}

/-- The ways to resolve a mention in a state that is loaded: the value is known, with its spelling
or without, a person is linked, or an entity is added. -/
inductive Resolves (anon : Anonymizer) (st : VaultFile) (category surface : Text)
    (origin : Origin) : LabelKey → VaultFile → Prop
  | known (e : Entity) (found : st.byFingerprint anon.order (anon.valueFp category surface) = some e)
      (has : surface ∈ e.surfaces) : Resolves anon st category surface origin e.key st
  | spelled (e : Entity)
      (found : st.byFingerprint anon.order (anon.valueFp category surface) = some e)
      (lacks : surface ∉ e.surfaces) : Resolves anon st category surface origin e.key
        (st.addVariant anon.order e.key (anon.surfaceFp category surface) surface)
  | linked (e : Entity)
      (unknown : st.byFingerprint anon.order (anon.valueFp category surface) = none)
      (found : anon.aliasOf st category surface = some e) :
      Resolves anon st category surface origin e.key (anon.linkAlias st e category surface)
  | created {key : LabelKey} {st' : VaultFile}
      (unknown : st.byFingerprint anon.order (anon.valueFp category surface) = none)
      (alone : anon.aliasOf st category surface = none)
      (added : st.addEntity anon.order category surface (anon.valueFp category surface)
        (if category = person then parsePerson anon.casing surface else .empty) origin =
          some (key, st')) :
      Resolves anon st category surface origin key st'

theorem resolves_of_resolve (resolved : anon.resolve st category surface origin = some (key, st')) :
    Resolves anon (st.load anon.order) category surface origin key st' := by
  rw [Anonymizer.resolve] at resolved
  split at resolved
  · next e found =>
    split at resolved
    · next has =>
      obtain ⟨rfl, rfl⟩ := Prod.mk.inj (Option.some.inj resolved)
      exact .known e found has
    · next lacks =>
      obtain ⟨rfl, rfl⟩ := Prod.mk.inj (Option.some.inj resolved)
      exact .spelled e found lacks
  · next unknown =>
    split at resolved
    · next e found =>
      obtain ⟨rfl, rfl⟩ := Prod.mk.inj (Option.some.inj resolved)
      exact .linked e unknown found
    · next alone => exact .created unknown alone resolved

/-- What adding a manual entity does: its stripped value is resolved like a mention, and the entity
is then excluded or taken back in as the form says. -/
theorem addManual_cases {value : Text} {excluded : Bool}
    (added : anon.addManual st category value excluded = some (key, st')) :
    ∃ st₁, anon.resolve st category (Text.strip anon.casing.toUnicode value) .manual =
        some (key, st₁) ∧
      (st' = st₁ ∨ st' = st₁.setExcluded anon.order key excluded) := by
  rw [Anonymizer.addManual] at added
  split at added
  · cases added
  · next key₁ st₁ resolved =>
    split at added
    · obtain ⟨rfl, rfl⟩ := Prod.mk.inj (Option.some.inj added)
      refine ⟨st₁, resolved, ?_⟩
      split
      · exact .inr rfl
      · exact .inl rfl
    · obtain ⟨rfl, rfl⟩ := Prod.mk.inj (Option.some.inj added)
      exact ⟨st₁, resolved, .inl rfl⟩

/-- What an edit of an entity does: a new value becomes the canonical one and the old value remains
as a spelling; the flag is set if the form has one. -/
theorem edit_cases {value : Option Text} {excluded : Option Bool}
    (edited : anon.edit st key value excluded = some st') :
    ∃ e, st.entityOf anon.order key = some e ∧ ∃ st₁,
      (anon.newValue value = none ∧ st₁ = st.load anon.order ∨
        ∃ new, anon.newValue value = some new ∧ st₁ =
          ((st.load anon.order).setCanonical anon.order key new none).addVariant anon.order key
            (anon.surfaceFp e.category e.value) e.value) ∧
      (st' = st₁ ∨ ∃ flag, st' = st₁.setExcluded anon.order key flag) := by
  rw [Anonymizer.edit] at edited
  split at edited
  · cases edited
  · next e found =>
    obtain rfl := Option.some.inj edited
    refine ⟨e, found, ?_⟩
    -- the value is changed first, and then the flag, each only where it is given
    cases changed : anon.newValue value with
    | none =>
      refine ⟨_, .inl ⟨rfl, rfl⟩, ?_⟩
      cases excluded with
      | none => exact .inl rfl
      | some flag => exact .inr ⟨flag, rfl⟩
    | some new =>
      refine ⟨_, .inr ⟨new, rfl, rfl⟩, ?_⟩
      cases excluded with
      | none => exact .inl rfl
      | some flag => exact .inr ⟨flag, rfl⟩

theorem delete_cases (deleted : anon.delete st key = some st') :
    ∃ e, st.entityOf anon.order key = some e ∧ st' = (st.load anon.order).deleteEntity e.key := by
  rw [Anonymizer.delete] at deleted
  split at deleted
  · cases deleted
  · next e found => exact ⟨e, found, (Option.some.inj deleted).symm⟩

/-! ## An instance -/

def sampleAnonymizer : Anonymizer := ⟨Casing.cyrillic, sampleVault, "p".toList, .insertion⟩

def organisation : Text := "ORG".toList

end RedactGate.Desktop
