import RedactGate.Desktop.Spellings

/-!
# Labels in use

What a step does to the labels of the entities of a project. Only a deletion takes one away,
and the label that a mention is resolved to is in use.
-/
namespace RedactGate.Desktop

open Library

variable {T : Text → Prop} {anon : Anonymizer} {order : RowOrder} {st st' : VaultFile}
  {key : LabelKey}

theorem keys_updateEntity {f : EntityRow → EntityRow} (keeps : Keeps f) :
    (st.updateEntity order key f).tables.keys = st.tables.keys := by
  rw [VaultFile.updateEntity]
  split
  · rfl
  · exact keys_update keeps

theorem keys_setCanonical {value : Text} {personMeta : Option PersonMeta} :
    (st.setCanonical order key value personMeta).tables.keys = st.tables.keys := by
  rw [VaultFile.setCanonical]
  split
  · rfl
  · exact keys_updateEntity ⟨fun _ => rfl, fun _ => rfl⟩

theorem keys_setExcluded {excluded : Bool} :
    (st.setExcluded order key excluded).tables.keys = st.tables.keys :=
  keys_updateEntity ⟨fun _ => rfl, fun _ => rfl⟩

theorem keys_addVariant {fp surface : Text} :
    (st.addVariant order key fp surface).tables.keys = st.tables.keys :=
  congrArg (List.map EntityRow.key) entity_addVariant

theorem keys_bump (st : VaultFile) (counts : List (LabelKey × Nat)) :
    (st.bump counts).tables.keys = st.tables.keys := by
  induction counts generalizing st with
  | nil => rfl
  | cons count counts ih =>
    exact (ih (st.bumpOne count.1 count.2)).trans (keys_update ⟨fun _ => rfl, fun _ => rfl⟩)

/-! ## Steps -/

/-- What a step does to the labels in use: nothing, or it issues the next number of a
category, or it deletes a label. -/
inductive KeysChange (st st' : VaultFile) (action : VaultAction) : Prop
  | kept (same : st'.tables.keys = st.tables.keys)
  | issued (category : Text) (more : st'.tables.keys =
      st.tables.keys ++ [(category, st.tables.maxN category + 1)])
  | deleted (key : LabelKey) (named : action = .delete key)
      (less : st'.tables.keys = st.tables.keys.filter (· ≠ key))

theorem keysChange_resolve {category surface : Text} {origin : Origin} (action : VaultAction)
    (resolved : anon.resolve st category surface origin = some (key, st')) :
    KeysChange st st' action := by
  cases resolves_of_resolve resolved with
  | known e found has => exact .kept rfl
  | spelled e found lacks => exact .kept keys_addVariant
  | linked e unknown found =>
    refine .kept ?_
    rw [Anonymizer.linkAlias]
    split
    · rw [keys_addVariant, keys_setCanonical, keys_addVariant]
      rfl
    · exact keys_addVariant
  | created unknown alone added =>
    obtain ⟨row, shape, rfl, _, rfl⟩ := addEntity_cases added
    subst shape
    exact .issued category List.map_append

theorem KeysChange.then {st₁ : VaultFile} {action : VaultAction} (change : KeysChange st st₁ action)
    (same : st'.tables.keys = st₁.tables.keys) : KeysChange st st' action := by
  cases change with
  | kept here => exact .kept (same.trans here)
  | issued category more => exact .issued category (same.trans more)
  | deleted key named less => exact .deleted key named (same.trans less)

theorem keysChange_step (good : GoodOn T st) {action : VaultAction}
    (taken : anon.step st action = some st') : KeysChange st st' action := by
  cases action with
  | resolve category surface =>
    obtain ⟨⟨key, _⟩, resolved, rfl⟩ := Option.map_eq_some_iff.mp taken
    exact keysChange_resolve _ resolved
  | addManual category value excluded =>
    obtain ⟨⟨key, _⟩, added, rfl⟩ := Option.map_eq_some_iff.mp taken
    obtain ⟨st₁, resolved, same⟩ := addManual_cases added
    rcases same with rfl | rfl
    · exact keysChange_resolve _ resolved
    · exact (keysChange_resolve _ resolved).then keys_setExcluded
  | edit key value excluded =>
    obtain ⟨e, found, st₁, changed, same⟩ := edit_cases taken
    -- an edit changes values and spellings, never a key
    have kept : st₁.tables.keys = st.tables.keys := by
      rcases changed with ⟨_, rfl⟩ | ⟨new, given, rfl⟩
      · rfl
      · rw [keys_addVariant, keys_setCanonical]
        rfl
    rcases same with rfl | ⟨flag, rfl⟩
    · exact .kept kept
    · exact .kept (keys_setExcluded.trans kept)
  | bump counts => exact .kept (Option.some.inj taken ▸ keys_bump _ counts)
  | delete key =>
    obtain ⟨e, found, rfl⟩ := delete_cases taken
    refine .deleted key rfl ?_
    rw [(good.row found).2, Tables.keys, Tables.keys, List.filter_map]
    rfl
  | lock => exact .kept (Option.some.inj taken ▸ rfl)

/-! ## What stays in use -/

/-- Only a deletion takes a label away. -/
theorem KeysChange.mem {action : VaultAction} (change : KeysChange st st' action)
    (keeps : ∀ key, action ≠ .delete key) {key : LabelKey} (used : key ∈ st.tables.keys) :
    key ∈ st'.tables.keys := by
  cases change with
  | kept same => exact same ▸ used
  | issued category more => exact more ▸ List.mem_append_left _ used
  | deleted key named less => exact absurd named (keeps key)

theorem GoodOn.mem_keys (good : GoodOn T st) {e : Entity}
    (found : st.entityOf order key = some e) : key ∈ st.tables.keys := by
  obtain ⟨member, same⟩ := good.row found
  exact same ▸ List.mem_map_of_mem member

/-- A label in use has an entity. -/
theorem GoodOn.isSome_entityOf (good : GoodOn T st) (used : key ∈ st.tables.keys) :
    (st.entityOf order key).isSome := by
  obtain ⟨row, member, rfl⟩ := List.mem_map.mp used
  obtain ⟨e, found, _⟩ : ∃ e, st.entityOf order row.key = some e ∧ e.toEntityRow = row :=
    good.entityOf_of_mem member
  exact Option.isSome_iff_exists.mpr ⟨e, found⟩

/-- The label that a mention is resolved to is in use afterwards, whether the entity was found by
its value, by its spelling or by the name of a person, or made anew. -/
theorem GoodOn.resolved_mem_keys (good : GoodOn T st) {category surface : Text} {origin : Origin}
    (resolved : anon.resolve st category surface origin = some (key, st')) :
    key ∈ st'.tables.keys := by
  -- the entity was there, or it is the one that was added
  cases resolves_of_resolve resolved with
  | known e found has => exact good.load.mem_keys (good.load.entityOf_of_byFingerprint found)
  | spelled e found lacks =>
    rw [keys_addVariant]
    exact good.load.mem_keys (good.load.entityOf_of_byFingerprint found)
  | linked e unknown found =>
    have there : e.key ∈ (st.load anon.order).tables.keys :=
      good.load.mem_keys (good.load.mem_entities.mp (aliasOf_category found).1)
    rw [Anonymizer.linkAlias]
    split
    · rwa [keys_addVariant, keys_setCanonical, keys_addVariant]
    · rwa [keys_addVariant]
  | created unknown alone added =>
    obtain ⟨row, shape, rfl, _, rfl⟩ := addEntity_cases added
    exact List.mem_map_of_mem (List.mem_append_right _ (List.mem_singleton_self row))

/-- Resolving a mention keeps memory and tables in step, as far as the rows go, and takes no
label away. -/
theorem resolved_keeps (good : GoodOn (fun _ => False) st) {category surface : Text} {origin : Origin}
    (resolved : anon.resolve st category surface origin = some (key, st')) :
    GoodOn (fun _ => False) st' ∧ ∀ key ∈ st.tables.keys, key ∈ st'.tables.keys := by
  refine ⟨good.load.resolves (resolves_of_resolve resolved) fun _ _ _ never => never.elim, ?_⟩
  exact fun key used => (keysChange_resolve .lock resolved).mem (fun _ => nofun) used

end RedactGate.Desktop
