import RedactGate.Desktop.Resolution
import RedactGate.Desktop.Coherence

/-!
# Spellings

A step records at most one spelling of an entity under a fingerprint of its own: the new
spelling of a known value, or the old canonical value where it is replaced. As long as no
other entity has that fingerprint, every step keeps memory and tables coherent.
-/
namespace RedactGate.Desktop

open Library

namespace Anonymizer

variable (anon : Anonymizer)

/-- The entity and the fingerprint under which a mention makes its resolution record a
spelling. -/
def mentionSpelling (st : VaultFile) (category surface : Text) : Option (LabelKey × Text) :=
  match st.byFingerprint anon.order (anon.valueFp category surface) with
  | some e =>
    if surface ∈ e.surfaces then none else some (e.key, anon.surfaceFp category surface)
  | none =>
    match anon.aliasOf st category surface with
    | some e =>
      if anon.prefers e surface then some (e.key, anon.surfaceFp category e.value) else none
    | none => none

/-- The entity and the fingerprint under which a step records a spelling, as far as the state before
the step tells; most steps record none. -/
def spelling (st : VaultFile) : VaultAction → Option (LabelKey × Text)
  | .resolve category surface => anon.mentionSpelling st category surface
  | .addManual category value _ =>
    anon.mentionSpelling st category (Text.strip anon.casing.toUnicode value)
  | .edit key value _ => (anon.newValue value).bind fun _ =>
    (st.entityOf anon.order key).map fun e => (key, anon.surfaceFp e.category e.value)
  | .bump _ | .delete _ | .lock => none

/-- A spelling of a kind is recorded for an entity only where no other one has its
fingerprint. -/
def ClearOn (T : Text → Prop) (st : VaultFile) (action : VaultAction) : Prop :=
  ∀ key fp, anon.spelling st action = some (key, fp) → T fp → st.tables.Free fp key

/-- No entity but the one that a step records a spelling for has its fingerprint. -/
def Clear (st : VaultFile) (action : VaultAction) : Prop :=
  ∀ key fp, anon.spelling st action = some (key, fp) → st.tables.Free fp key

instance (st : VaultFile) (action : VaultAction) :
    Decidable (anon.Clear st action) :=
  decidable_of_iff (∀ p ∈ (anon.spelling st action).toList, st.tables.Free p.2 p.1) <| by
    simp only [Option.mem_toList, Prod.forall, Clear]

end Anonymizer

variable {T : Text → Prop} {anon : Anonymizer} {order : RowOrder} {st st' : VaultFile}
  {key key' : LabelKey} {fp fp' : Text}

/-! ## What is registered -/

/-- Adding a variant gives the tables one row more for it, or leaves them as they are. -/
theorem tables_addVariant (order : RowOrder) (st : VaultFile) (key : LabelKey) (fp surface : Text) :
    (st.addVariant order key fp surface).tables = st.tables ∨
      (st.addVariant order key fp surface).tables =
        { st.tables with variant := st.tables.variant ++ [⟨key.1, key.2, fp, surface⟩] } := by
  cases found : st.entityOf order key with
  | none => exact .inl (congrArg VaultFile.tables (addVariant_of_none found fp surface))
  | some e =>
    rcases addVariant_cases found fp surface with ⟨_, same⟩ | ⟨_, same⟩
    · exact .inl (congrArg VaultFile.tables same)
    · rw [same]
      by_cases taken : st.tables.variant.any (·.fingerprint = fp)
      · exact .inl (if_pos taken)
      · exact .inr (if_neg taken)

theorem entity_addVariant {surface : Text} :
    (st.addVariant order key fp surface).tables.entity = st.tables.entity := by
  rcases tables_addVariant order st key fp surface with same | same
  · rw [same]
  · rw [same]

theorem registered_addVariant {surface : Text}
    (registered : (st.addVariant order key fp surface).tables.Registered fp' key') :
    st.tables.Registered fp' key' ∨ fp' = fp ∧ key' = key := by
  rcases tables_addVariant order st key fp surface with same | same
  · exact .inl (same ▸ registered)
  · rw [same, registered_append_variant] at registered
    exact registered.imp_right fun here => ⟨here.1.symm, here.2.symm⟩

theorem Tables.Registered.addVariant {surface : Text} (registered : st.tables.Registered fp' key') :
    (st.addVariant order key fp surface).tables.Registered fp' key' := by
  rcases tables_addVariant order st key fp surface with same | same
  · rwa [same]
  · rw [same, registered_append_variant]
    exact .inl registered

theorem registered_updateEntity {f : EntityRow → EntityRow} (keeps : Keeps f) :
    (st.updateEntity order key' f).tables.Registered fp key ↔ st.tables.Registered fp key := by
  rw [VaultFile.updateEntity]
  split
  · exact Iff.rfl
  · exact registered_update keeps

theorem registered_setCanonical {value : Text} {personMeta : Option PersonMeta} :
    (st.setCanonical order key' value personMeta).tables.Registered fp key ↔
      st.tables.Registered fp key := by
  rw [VaultFile.setCanonical]
  split
  · exact Iff.rfl
  · exact registered_updateEntity ⟨fun _ => rfl, fun _ => rfl⟩

/-- What is free for an entity stays so where the entity gets a variant. -/
theorem Tables.Free.addVariant {surface : Text} (free : st.tables.Free fp' key) :
    (st.addVariant order key fp surface).tables.Free fp' key := by
  intro key' registered
  rcases registered_addVariant registered with registered | ⟨_, same⟩
  · exact free key' registered
  · exact same

theorem Tables.Free.setCanonical {value : Text} {personMeta : Option PersonMeta}
    (free : st.tables.Free fp key) :
    (st.setCanonical order key' value personMeta).tables.Free fp key :=
  fun key'' registered => free key'' (registered_setCanonical.mp registered)

theorem GoodOn.entityOf_of_byFingerprint (good : GoodOn T st) {e : Entity}
    (found : st.byFingerprint order fp = some e) : st.entityOf order e.key = some e := by
  obtain ⟨key, _, present⟩ := Option.bind_eq_some_iff.mp found
  obtain rfl := (good.row present).2
  exact present

theorem GoodOn.registered_of_byFingerprint (good : GoodOn T st) (kind : T fp) {e : Entity}
    (found : st.byFingerprint order fp = some e) : st.tables.Registered fp e.key := by
  obtain ⟨key, indexed, present⟩ := Option.bind_eq_some_iff.mp found
  obtain rfl := (good.row present).2
  exact (good.memoryOf.index fp kind e.key).mp indexed

theorem GoodOn.unregistered_of_byFingerprint (good : GoodOn T st) (kind : T fp)
    (absent : st.byFingerprint order fp = none) (key : LabelKey) :
    ¬ st.tables.Registered fp key := by
  intro registered
  have coherent : CoherentOn T (st.memoryOf order) st.tables := good.memoryOf
  have indexed := (coherent.index fp kind key).mpr registered
  obtain ⟨row, member, same⟩ := good.sound.owner registered
  obtain ⟨e, present, _⟩ := (coherent.rows key row).mpr ⟨member, same⟩
  rw [VaultFile.byFingerprint, indexed, Option.bind_some] at absent
  cases absent.symm.trans present

/-- A variant whose fingerprint no other entity has is registered for its entity once it is added:
memory and table both lead from the fingerprint to the label. -/
theorem GoodOn.registered_of_addVariant (good : GoodOn T st) (kind : T fp) {e : Entity}
    (found : st.entityOf order key = some e) (surface : Text) (free : st.tables.Free fp key) :
    (st.addVariant order key fp surface).tables.Registered fp key := by
  have here := good.row found
  rcases addVariant_cases found fp surface with ⟨has, same⟩ | ⟨⟨other, absent⟩, same⟩
  · rw [same]
    rcases has with rfl | has
    · exact .inl ⟨e.toEntityRow, here.1, rfl, here.2⟩
    · obtain ⟨old, has⟩ := Option.isSome_iff_exists.mp has
      have member := (good.memoryOf.variants key e found fp kind old).mp has
      exact .inr ⟨_, member, rfl, rfl⟩
  · have unclaimed := good.unclaimed found kind other absent free
    have fresh : ¬ st.tables.variant.any (·.fingerprint = fp) := fun taken => by
      obtain ⟨row, member, named⟩ := List.any_eq_true.mp taken
      exact unclaimed row.key (.inr ⟨row, member, of_decide_eq_true named, rfl⟩)
    rw [same, if_neg fresh]
    exact registered_append_variant.mpr (.inr ⟨rfl, rfl⟩)

/-- Every row of the table of entities is in memory. -/
theorem GoodOn.entityOf_of_mem (good : GoodOn T st) {row : EntityRow}
    (member : row ∈ st.tables.entity) :
    ∃ e, st.entityOf order row.key = some e ∧ e.toEntityRow = row :=
  (good.memoryOf.rows row.key row).mpr ⟨member, rfl⟩

/-- The rows after a change of the canonical value of an entity are the rows before it, but for the
one of this entity, whose value and name parts are new. -/
theorem GoodOn.mem_setCanonical (good : GoodOn T st) {row : EntityRow}
    (member : row ∈ st.tables.entity) (key : LabelKey) (value : Text) (personMeta : PersonMeta) :
    (if row.key = key then { row with value := value, personMeta := personMeta } else row) ∈
      (st.setCanonical order key value (some personMeta)).tables.entity := by
  rw [VaultFile.setCanonical]
  split
  · next absent =>
    have other : row.key ≠ key := by
      rintro rfl
      obtain ⟨e, present, _⟩ : ∃ e, st.entityOf order row.key = some e ∧ e.toEntityRow = row :=
        good.entityOf_of_mem member
      cases absent.symm.trans present
    rwa [if_neg other]
  · next e present =>
    rw [VaultFile.updateEntity, present]
    exact mem_update.mpr ⟨row, member, rfl⟩

/-- The entities that a coherent project lists are those that are found in memory under their own
labels. -/
theorem GoodOn.mem_entities (good : GoodOn T st) {e : Entity} :
    e ∈ st.entities order ↔ st.entityOf order e.key = some e := by
  rw [VaultFile.entities, List.mem_insertionSort, List.mem_map]
  constructor
  · rintro ⟨⟨key, e⟩, member, rfl⟩
    have found : st.entityOf order key = some e := Dict.mem_entries.mp member
    rwa [(good.row found).2]
  · exact fun found => ⟨(e.key, e), Dict.mem_entries.mpr found, rfl⟩

/-- The entity that a person is linked to: the mention has a surname, and this entity is the only
person that is compatible with it. -/
theorem aliasOf_mem {category surface : Text} {e : Entity}
    (linked : anon.aliasOf st category surface = some e) :
    category = person ∧ (given? (parsePerson anon.casing surface).s).isSome ∧
      (st.entities anon.order).filter (fun x => decide (x.category = person) &&
        compatible (parsePerson anon.casing surface) x.personMeta) = [e] := by
  rw [Anonymizer.aliasOf] at linked
  split at linked
  · next mention =>
    split at linked
    · next single =>
      obtain rfl := Option.some.inj linked
      exact ⟨mention.1, mention.2, single⟩
    · cases linked
  · cases linked

theorem aliasOf_category {category surface : Text} {e : Entity}
    (linked : anon.aliasOf st category surface = some e) :
    e ∈ st.entities anon.order ∧ e.category = category ∧
      compatible (parsePerson anon.casing surface) e.personMeta := by
  obtain ⟨rfl, _, single⟩ := aliasOf_mem linked
  have member : e ∈ (st.entities anon.order).filter _ := single ▸ List.mem_singleton_self e
  rw [List.mem_filter, Bool.and_eq_true, decide_eq_true_eq] at member
  exact member

/-! ## Steps -/

/-- Resolving a mention keeps memory and tables coherent, if the spelling that it records is claimed
by no other entity; a new entity brings no conflict. -/
theorem GoodOn.resolves (good : GoodOn T st) {category surface : Text} {origin : Origin}
    (resolves : Resolves anon st category surface origin key st')
    (clear : ∀ key fp, anon.mentionSpelling st category surface = some (key, fp) → T fp →
      st.tables.Free fp key) : GoodOn T st' := by
  cases resolves with
  | known e found has => exact good
  | spelled e found lacks =>
    refine good.addVariant surface fun kind => clear _ _ ?_ kind
    simp only [Anonymizer.mentionSpelling, found, if_neg lacks]
  | linked e unknown found =>
    have first : GoodOn T
        (st.addVariant anon.order e.key (anon.valueFp category surface) surface) :=
      good.addVariant surface fun kind key registered =>
        absurd registered (good.unregistered_of_byFingerprint kind unknown key)
    rw [Anonymizer.linkAlias]
    split
    · next preferred =>
      -- the old canonical value is recorded, in a state that has only got the new spelling
      refine (first.setCanonical _ _).addVariant e.value fun kind => ?_
      have free := clear e.key (anon.surfaceFp category e.value)
        (by simp only [Anonymizer.mentionSpelling, unknown, found, if_pos preferred]) kind
      exact free.addVariant.setCanonical
    · exact first
  | created unknown alone added =>
    exact good.addEntity added fun kind => good.unregistered_of_byFingerprint kind unknown

/-- Every action of the vault that is clear keeps memory and tables coherent, one case for each
action: a step is clear if the fingerprints that it writes are free for their entity. -/
theorem GoodOn.step (good : GoodOn T st) {action : VaultAction}
    (clear : anon.ClearOn T st action) (taken : anon.step st action = some st') :
    GoodOn T st' := by
  cases action with
  | resolve category surface =>
    obtain ⟨⟨key, _⟩, resolved, rfl⟩ := Option.map_eq_some_iff.mp taken
    exact good.load.resolves (resolves_of_resolve resolved) clear
  | addManual category value excluded =>
    obtain ⟨⟨key, _⟩, added, rfl⟩ := Option.map_eq_some_iff.mp taken
    obtain ⟨st₁, resolved, same⟩ := addManual_cases added
    have resolvedGood := good.load.resolves (resolves_of_resolve resolved) clear
    rcases same with rfl | rfl
    · exact resolvedGood
    · exact resolvedGood.setExcluded excluded
  | edit key value excluded =>
    obtain ⟨e, found, st₁, changed, same⟩ := edit_cases taken
    have edited : GoodOn T st₁ := by
      rcases changed with ⟨_, rfl⟩ | ⟨new, given, rfl⟩
      · exact good.load
      · refine (good.load.setCanonical _ _).addVariant e.value fun kind => ?_
        -- the old value is filed as a spelling, and `clear` says that nobody else has its
        -- fingerprint
        have free : (st.load anon.order).tables.Free (anon.surfaceFp e.category e.value) key :=
          clear _ _ (by simp only [Anonymizer.spelling, given, found, Option.bind_some,
            Option.map_some]) kind
        exact free.setCanonical
    rcases same with rfl | ⟨flag, rfl⟩
    · exact edited
    · exact edited.setExcluded flag
  | bump counts => exact Option.some.inj taken ▸ good.bump counts
  | delete key =>
    obtain ⟨e, _, rfl⟩ := delete_cases taken
    exact good.load.deleteEntity e.key
  | lock => exact Option.some.inj taken ▸ good.lock

end RedactGate.Desktop
