import RedactGate.Desktop.LabelsInUse

/-!
# Values filed under their category

The fingerprint of a normal form without a colon tells the category and the normal form. Of
such fingerprints of a category other than that of the persons an entity has at most one,
its own, since spellings and linked persons are filed under others. So two values of the
category whose normal forms differ never share a label.
-/
namespace RedactGate.Desktop

open Library

namespace Anonymizer

variable (anon : Anonymizer)

/-- The fingerprints of the normal forms of a category that have no colon. -/
def Files (c fp : Text) : Prop := ∃ norm, ':' ∉ norm ∧ fp = anon.fingerprint c norm

/-- The fingerprints under which a step records a surface of an entity that it has already. -/
def Spells (fp : Text) : Prop :=
  (∃ category spelled, fp = anon.surfaceFp category spelled) ∨
    ∃ surface, fp = anon.valueFp person surface

/-- No value is edited by hand. -/
def KeepsValues : VaultAction → Prop
  | .edit _ value _ => anon.newValue value = none
  | _ => True

/-- Each entity is filed in its category, and one that is no person under its value. -/
def FiledByValue (tables : Tables) : Prop :=
  ∀ row ∈ tables.entity, ∃ norm, row.fingerprint = anon.fingerprint row.category norm ∧
    (row.category ≠ person → norm = normalize anon.casing row.category row.value)

end Anonymizer

variable {T : Text → Prop} {anon : Anonymizer} {order : RowOrder} {st st' : VaultFile}
  {key : LabelKey} {c fp surface : Text} {origin : Origin}

/-! ## What a step registers -/

theorem variant_addVariant {row : VariantRow}
    (member : row ∈ (st.addVariant order key fp surface).tables.variant) :
    row ∈ st.tables.variant ∨ row.fingerprint = fp := by
  rcases tables_addVariant order st key fp surface with same | same
  · exact .inl (same ▸ member)
  · rw [same] at member
    rcases List.mem_append.mp member with member | single
    · exact .inl member
    · exact .inr (congrArg VariantRow.fingerprint (List.mem_singleton.mp single))

theorem variant_updateEntity {f : EntityRow → EntityRow} :
    (st.updateEntity order key f).tables.variant = st.tables.variant := by
  rw [VaultFile.updateEntity]
  split
  · rfl
  · rfl

theorem variant_setCanonical {value : Text} {personMeta : Option PersonMeta} :
    (st.setCanonical order key value personMeta).tables.variant = st.tables.variant := by
  rw [VaultFile.setCanonical]
  split
  · rfl
  · exact variant_updateEntity

theorem variant_bump (st : VaultFile) (counts : List (LabelKey × Nat)) :
    (st.bump counts).tables.variant = st.tables.variant := by
  induction counts generalizing st with
  | nil => rfl
  | cons count counts ih => exact ih (st.bumpOne count.1 count.2)

theorem surfaceFp_of_mentionSpelling
    (recorded : anon.mentionSpelling st c surface = some (key, fp)) :
    ∃ spelled, fp = anon.surfaceFp c spelled := by
  rw [Anonymizer.mentionSpelling] at recorded
  split at recorded
  · split at recorded
    · cases recorded
    · exact ⟨surface, (Prod.mk.inj (Option.some.inj recorded)).2.symm⟩
  · split at recorded
    · split at recorded
      · exact ⟨_, (Prod.mk.inj (Option.some.inj recorded)).2.symm⟩
      · cases recorded
    · cases recorded

theorem surfaceFp_of_spelling {action : VaultAction}
    (recorded : anon.spelling st action = some (key, fp)) :
    ∃ category spelled, fp = anon.surfaceFp category spelled := by
  cases action with
  | resolve category surface => exact ⟨category, surfaceFp_of_mentionSpelling recorded⟩
  | addManual category value excluded => exact ⟨category, surfaceFp_of_mentionSpelling recorded⟩
  | edit key value excluded =>
    obtain ⟨new, given, recorded⟩ := Option.bind_eq_some_iff.mp recorded
    obtain ⟨e, found, same⟩ := Option.map_eq_some_iff.mp recorded
    exact ⟨_, _, (Prod.mk.inj same).2.symm⟩
  | bump counts => cases recorded
  | delete key => cases recorded
  | lock => cases recorded

/-- Resolving a mention adds rows of two kinds only: a row of the table of variants was there
before, or it is the spelling or the value of the mention that is resolved. -/
theorem variant_of_resolves (resolves : Resolves anon st c surface origin key st')
    {row : VariantRow} (member : row ∈ st'.tables.variant) :
    row ∈ st.tables.variant ∨ anon.Spells row.fingerprint := by
  cases resolves with
  | known e found has => exact .inl member
  | spelled e found lacks =>
    exact (variant_addVariant member).imp_right fun same => .inl ⟨_, _, same⟩
  | linked e unknown found =>
    have single := (aliasOf_mem found).1
    subst single
    -- linking writes up to two variants: the alias, and the old name
    have linked (member : row ∈ (st.addVariant anon.order e.key (anon.valueFp person surface)
        surface).tables.variant) : row ∈ st.tables.variant ∨ anon.Spells row.fingerprint :=
      (variant_addVariant member).imp_right fun same => .inr ⟨surface, same⟩
    rw [Anonymizer.linkAlias] at member
    split at member
    · rcases variant_addVariant member with member | same
      · exact linked (variant_setCanonical ▸ member)
      · exact .inr (.inl ⟨_, _, same⟩)
    · exact linked member
  | created unknown alone added =>
    obtain ⟨row', shape, rfl, _, rfl⟩ := addEntity_cases added
    exact .inl member

theorem variant_of_step {action : VaultAction} (taken : anon.step st action = some st')
    {row : VariantRow} (member : row ∈ st'.tables.variant) :
    row ∈ st.tables.variant ∨ anon.Spells row.fingerprint := by
  cases action with
  | resolve category surface =>
    obtain ⟨⟨key, _⟩, resolved, rfl⟩ := Option.map_eq_some_iff.mp taken
    exact variant_of_resolves (resolves_of_resolve resolved) member
  | addManual category value excluded =>
    obtain ⟨⟨key, _⟩, added, rfl⟩ := Option.map_eq_some_iff.mp taken
    obtain ⟨st₁, resolved, same⟩ := addManual_cases added
    -- excluding changes no variant
    have before : row ∈ st₁.tables.variant := by
      rcases same with rfl | rfl
      · exact member
      · exact variant_updateEntity ▸ member
    exact variant_of_resolves (resolves_of_resolve resolved) before
  | edit key value excluded =>
    obtain ⟨e, found, st₁, changed, same⟩ := edit_cases taken
    have before : row ∈ st₁.tables.variant := by
      rcases same with rfl | ⟨flag, rfl⟩
      · exact member
      · exact variant_updateEntity ▸ member
    rcases changed with ⟨_, rfl⟩ | ⟨new, given, rfl⟩
    · exact .inl before
    -- an edit files the old value as a spelling
    · rcases variant_addVariant before with before | same
      · rw [variant_setCanonical] at before
        exact .inl before
      · exact .inr (.inl ⟨_, _, same⟩)
  | bump counts =>
    obtain rfl := Option.some.inj taken
    exact .inl (variant_bump st counts ▸ member)
  | delete key =>
    obtain ⟨e, found, rfl⟩ := delete_cases taken
    exact .inl (List.mem_filter.mp member).1
  | lock =>
    obtain rfl := Option.some.inj taken
    exact .inl member

/-- Only a deletion takes a fingerprint from an entity: whatever way a mention is resolved, what was
registered stays so. -/
theorem registered_of_resolves (resolves : Resolves anon st c surface origin key st')
    {fp : Text} {key' : LabelKey} (registered : st.tables.Registered fp key') :
    st'.tables.Registered fp key' := by
  cases resolves with
  | known e found has => exact registered
  | spelled e found lacks => exact registered.addVariant
  | linked e unknown found =>
    rw [Anonymizer.linkAlias]
    split
    · exact (registered_setCanonical.mpr registered.addVariant).addVariant
    · exact registered.addVariant
  | created unknown alone added =>
    obtain ⟨row, shape, rfl, _, rfl⟩ := addEntity_cases added
    exact registered_append_entity.mpr (.inl registered)

theorem registered_setExcluded {excluded : Bool} {key' : LabelKey} :
    (st.setExcluded order key' excluded).tables.Registered fp key ↔ st.tables.Registered fp key :=
  registered_updateEntity ⟨fun _ => rfl, fun _ => rfl⟩

theorem registered_bumpOne {count : Nat} {key' : LabelKey} :
    (st.bumpOne key' count).tables.Registered fp key ↔ st.tables.Registered fp key := by
  rw [VaultFile.bumpOne, registered_update]
  exact ⟨fun _ => rfl, fun _ => rfl⟩

theorem registered_bump (st : VaultFile) (counts : List (LabelKey × Nat))
    (registered : st.tables.Registered fp key) : (st.bump counts).tables.Registered fp key := by
  induction counts generalizing st with
  | nil => exact registered
  | cons count counts ih => exact ih (st.bumpOne count.1 count.2) (registered_bumpOne.mpr registered)

theorem registered_of_step (good : GoodOn T st) {action : VaultAction}
    (taken : anon.step st action = some st') (keeps : action ≠ .delete key)
    (registered : st.tables.Registered fp key) : st'.tables.Registered fp key := by
  cases action with
  | resolve category surface =>
    obtain ⟨⟨key', _⟩, resolved, rfl⟩ := Option.map_eq_some_iff.mp taken
    exact registered_of_resolves (resolves_of_resolve resolved) registered
  | addManual category value excluded =>
    obtain ⟨⟨key', _⟩, added, rfl⟩ := Option.map_eq_some_iff.mp taken
    obtain ⟨st₁, resolved, same⟩ := addManual_cases added
    have before := registered_of_resolves (resolves_of_resolve resolved) registered
    rcases same with rfl | rfl
    · exact before
    · exact registered_setExcluded.mpr before
  | edit key' value flag =>
    obtain ⟨e, found, st₁, changed, same⟩ := edit_cases taken
    have before : st₁.tables.Registered fp key := by
      rcases changed with ⟨_, rfl⟩ | ⟨new, given, rfl⟩
      · exact registered
      -- a new value replaces no fingerprint: the entity keeps the one it was made with
      · apply Tables.Registered.addVariant
        exact registered_setCanonical.mpr registered
    rcases same with rfl | ⟨flag, rfl⟩
    · exact before
    · exact registered_setExcluded.mpr before
  | bump counts =>
    obtain rfl := Option.some.inj taken
    exact registered_bump st counts registered
  | delete key' =>
    obtain ⟨e, found, rfl⟩ := delete_cases taken
    -- the only way to lose a fingerprint is the deletion of its entity
    have named : e.key = key' := (good.row found).2
    refine registered_filter.mpr ⟨registered, ?_⟩
    rintro rfl
    exact keeps (congrArg VaultAction.delete named.symm)
  | lock =>
    obtain rfl := Option.some.inj taken
    exact registered

/-! ## One fingerprint for an entity -/

/-- The fingerprints of a category are coherent, and none of them is that of a variant. -/
structure Filing (anon : Anonymizer) (c : Text) (st : VaultFile) : Prop where
  good : GoodOn (anon.Files c) st
  variants : ∀ row ∈ st.tables.variant, ¬ anon.Files c row.fingerprint

section

variable (hmac : HmacInjective anon.vault.crypto) (plain : ':' ∉ c)

include hmac plain

/-- A fingerprint files a value of the category if it is a fingerprint of this category and of a
normal form without colon, and in no other way. -/
theorem files_fingerprint {category norm : Text} :
    anon.Files c (anon.fingerprint category norm) ↔ category = c ∧ ':' ∉ norm := by
  constructor
  · rintro ⟨norm', free, same⟩
    have split := (Vault.fingerprint_eq_iff hmac anon.pid).mp same.symm
    obtain ⟨rfl, rfl⟩ := (Text.append_cons_inj_of_single plain free).mp split
    exact ⟨rfl, free⟩
  · rintro ⟨rfl, free⟩
    exact ⟨norm, free, rfl⟩

theorem not_files_of_spells (other : c ≠ person) (spells : anon.Spells fp) : ¬ anon.Files c fp := by
  intro files
  rcases spells with ⟨category, spelled, rfl⟩ | ⟨surface, rfl⟩
  · have colon := ((files_fingerprint hmac plain).mp files).2
    exact colon (List.mem_append_left _ (by decide))
  · exact other ((files_fingerprint hmac plain).mp files).1.symm

theorem Filing.step (other : c ≠ person) (filing : Filing anon c st) {action : VaultAction}
    (taken : anon.step st action = some st') : Filing anon c st' where
  good := by
    refine filing.good.step (fun key fp recorded files => ?_) taken
    have spelled := surfaceFp_of_spelling recorded
    exact absurd files (not_files_of_spells hmac plain other (.inl spelled))
  variants row member := by
    rcases variant_of_step taken member with before | spells
    · exact filing.variants row before
    · exact not_files_of_spells hmac plain other spells

theorem filing_of_reaches (other : c ≠ person) (reaches : Reaches anon.step VaultFile.new st) :
    Filing anon c st :=
  reaches.invariant ⟨goodOn_new, fun _ absent => absurd absent List.not_mem_nil⟩
    fun _ _ _ filing taken => filing.step hmac plain other taken

end

/-- An entity that was filed by values of the category has one such fingerprint at most, whatever
spellings were recorded for it. -/
theorem Filing.eq_of_registered (filing : Filing anon c st) {fp' : Text} (files : anon.Files c fp)
    (files' : anon.Files c fp') (registered : st.tables.Registered fp key)
    (registered' : st.tables.Registered fp' key) : fp = fp' := by
  have row_of {fp : Text} (files : anon.Files c fp) (registered : st.tables.Registered fp key) :
      ∃ row ∈ st.tables.entity, row.fingerprint = fp ∧ row.key = key := by
    rcases registered with own | ⟨row, member, rfl, _⟩
    · exact own
    · exact absurd files (filing.variants row member)
  obtain ⟨row, member, rfl, named⟩ := row_of files registered
  obtain ⟨row', member', rfl, named'⟩ := row_of files' registered'
  have same : row = row' :=
    eq_of_nodup_map filing.good.sound.keys member member' (named.trans named'.symm)
  exact congrArg EntityRow.fingerprint same

/-- A value that is no person is resolved to the entity that has its fingerprint, or to a new one
that gets it. -/
theorem Filing.registered_of_resolve (filing : Filing anon c st) (other : c ≠ person)
    (files : anon.Files c (anon.valueFp c surface))
    (resolved : anon.resolve st c surface origin = some (key, st')) :
    st'.tables.Registered (anon.valueFp c surface) key := by
  cases resolves_of_resolve resolved with
  | known e found has => exact filing.good.load.registered_of_byFingerprint files found
  | spelled e found lacks =>
    exact (filing.good.load.registered_of_byFingerprint files found).addVariant
  | linked e unknown found => exact absurd (aliasOf_mem found).1 other
  | created unknown alone added =>
    obtain ⟨row, shape, rfl, _, rfl⟩ := addEntity_cases added
    subst shape
    exact registered_append_entity.mpr (.inr ⟨rfl, rfl⟩)

theorem step_of_resolve (resolved : anon.resolve st c surface .auto = some (key, st')) :
    anon.step st (.resolve c surface) = some st' := by
  rw [Anonymizer.step, resolved, Option.map_some]

/-- Two values of a category other than persons that are resolved to one label have one normal form,
whatever was done in between but for deleting the label. -/
theorem Filing.normalize_eq (hmac : HmacInjective anon.vault.crypto) (plain : ':' ∉ c)
    (other : c ≠ person) {a b : Text} {st₁ st₂ st₃ : VaultFile}
    (free : ':' ∉ normalize anon.casing c a) (free' : ':' ∉ normalize anon.casing c b)
    (filing : Filing anon c st) (first : anon.resolve st c a .auto = some (key, st₁))
    (run : ReachesBy (fun _ action => action ≠ .delete key) anon.step st₁ st₂)
    (second : anon.resolve st₂ c b .auto = some (key, st₃)) :
    normalize anon.casing c a = normalize anon.casing c b := by
  have files : anon.Files c (anon.valueFp c a) := ⟨_, free, rfl⟩
  have files' : anon.Files c (anon.valueFp c b) := ⟨_, free', rfl⟩
  have filing₁ := filing.step hmac plain other (step_of_resolve first)
  have registered₁ := filing.registered_of_resolve other files first
  -- the first label keeps its fingerprint up to the second resolution
  have kept : Filing anon c st₂ ∧ st₂.tables.Registered (anon.valueFp c a) key := by
    refine run.invariant (P := fun st => Filing anon c st ∧ st.tables.Registered _ key)
      ⟨filing₁, registered₁⟩ fun st action st' before keeps taken => ?_
    have registered := registered_of_step before.1.good taken keeps before.2
    exact ⟨before.1.step hmac plain other taken, registered⟩
  have stepped := step_of_resolve second
  have filing₃ := kept.1.step hmac plain other stepped
  have registered₃ := registered_of_step kept.1.good stepped nofun kept.2
  have same := filing₃.eq_of_registered files files' registered₃
    (kept.1.registered_of_resolve other files' second)
  have split := (Vault.fingerprint_eq_iff hmac anon.pid).mp same
  exact ((Text.append_cons_inj plain plain).mp split).2

/-! ## Values that are not edited -/

theorem filedByValue_update {tables : Tables} {f : EntityRow → EntityRow} (keeps : Keeps f)
    (filed : anon.FiledByValue tables)
    (same : key.1 = person ∨ ∀ row, (f row).value = row.value) :
    anon.FiledByValue (tables.update key f) := by
  intro row' member
  obtain ⟨row, among, rfl⟩ := mem_update.mp member
  obtain ⟨norm, named, own⟩ := filed row among
  by_cases here : row.key = key
  · rw [if_pos here]
    have category : (f row).category = row.category := congrArg Prod.fst (keeps.key row)
    rw [keeps.fingerprint, category]
    refine ⟨norm, named, fun other => ?_⟩
    rcases same with single | same
    · exact absurd ((congrArg Prod.fst here).trans single) other
    · exact same row ▸ own other
  · rw [if_neg here]
    exact ⟨norm, named, own⟩

theorem filedByValue_addVariant (filed : anon.FiledByValue st.tables) :
    anon.FiledByValue (st.addVariant order key fp surface).tables :=
  fun row member => filed row (entity_addVariant ▸ member)

theorem filedByValue_setCanonical {value : Text} {personMeta : Option PersonMeta}
    (single : key.1 = person) (filed : anon.FiledByValue st.tables) :
    anon.FiledByValue (st.setCanonical order key value personMeta).tables := by
  rw [VaultFile.setCanonical]
  split
  · exact filed
  · rw [VaultFile.updateEntity]
    split
    · exact filed
    · exact filedByValue_update ⟨fun _ => rfl, fun _ => rfl⟩ filed (.inl single)

theorem filedByValue_setExcluded {excluded : Bool} (filed : anon.FiledByValue st.tables) :
    anon.FiledByValue (st.setExcluded order key excluded).tables := by
  rw [VaultFile.setExcluded, VaultFile.updateEntity]
  split
  · exact filed
  · exact filedByValue_update ⟨fun _ => rfl, fun _ => rfl⟩ filed (.inr fun _ => rfl)

theorem filedByValue_bump (st : VaultFile) (counts : List (LabelKey × Nat))
    (filed : anon.FiledByValue st.tables) : anon.FiledByValue (st.bump counts).tables := by
  induction counts generalizing st with
  | nil => exact filed
  | cons count counts ih =>
    refine ih (st.bumpOne count.1 count.2) ?_
    exact filedByValue_update ⟨fun _ => rfl, fun _ => rfl⟩ filed (.inr fun _ => rfl)

theorem filedByValue_resolves (resolves : Resolves anon st c surface origin key st')
    (filed : anon.FiledByValue st.tables) : anon.FiledByValue st'.tables := by
  -- an entity is filed under its value when it is made, and only a person's value changes later
  cases resolves with
  | known e found has => exact filed
  | spelled e found lacks => exact filedByValue_addVariant filed
  | linked e unknown found =>
    have single : e.key.1 = person := (aliasOf_category found).2.1.trans (aliasOf_mem found).1
    rw [Anonymizer.linkAlias]
    split
    · apply filedByValue_addVariant
      apply filedByValue_setCanonical single
      exact filedByValue_addVariant filed
    · exact filedByValue_addVariant filed
  | created unknown alone added =>
    obtain ⟨row, shape, rfl, _, rfl⟩ := addEntity_cases added
    intro row' member
    rcases List.mem_append.mp member with member | last
    · exact filed row' member
    · obtain rfl := List.mem_singleton.mp last
      subst shape
      exact ⟨_, rfl, fun _ => rfl⟩

theorem filedByValue_step {action : VaultAction} (taken : anon.step st action = some st')
    (keeps : anon.KeepsValues action) (filed : anon.FiledByValue st.tables) :
    anon.FiledByValue st'.tables := by
  cases action with
  | resolve category surface =>
    obtain ⟨⟨key, _⟩, resolved, rfl⟩ := Option.map_eq_some_iff.mp taken
    exact filedByValue_resolves (resolves_of_resolve resolved) filed
  | addManual category value excluded =>
    obtain ⟨⟨key, _⟩, added, rfl⟩ := Option.map_eq_some_iff.mp taken
    obtain ⟨st₁, resolved, same⟩ := addManual_cases added
    have before : anon.FiledByValue st₁.tables :=
      filedByValue_resolves (resolves_of_resolve resolved) filed
    rcases same with rfl | rfl
    · exact before
    · exact filedByValue_setExcluded before
  | edit key value excluded =>
    obtain ⟨e, found, st₁, changed, same⟩ := edit_cases taken
    have before : anon.FiledByValue st₁.tables := by
      rcases changed with ⟨_, rfl⟩ | ⟨new, given, _⟩
      · exact filed
      -- an edit that gives a new value is not among the actions that keep them
      · cases given.symm.trans keeps
    rcases same with rfl | ⟨flag, rfl⟩
    · exact before
    · exact filedByValue_setExcluded before
  | bump counts =>
    obtain rfl := Option.some.inj taken
    exact filedByValue_bump st counts filed
  | delete key =>
    obtain ⟨e, found, rfl⟩ := delete_cases taken
    exact fun row member => filed row (List.mem_filter.mp member).1
  | lock =>
    obtain rfl := Option.some.inj taken
    exact filed

/-- What an entity of a category other than persons restores has the normal form that it is filed
under, as long as every entity is filed by its value. -/
theorem Filing.normalize_value (hmac : HmacInjective anon.vault.crypto) (plain : ':' ∉ c)
    (other : c ≠ person) (filing : Filing anon c st) (filed : anon.FiledByValue st.tables)
    (free : ':' ∉ normalize anon.casing c surface)
    (registered : st.tables.Registered (anon.valueFp c surface) key) {e : Entity}
    (found : st.entityOf order key = some e) :
    normalize anon.casing c e.value = normalize anon.casing c surface := by
  have files : anon.Files c (anon.valueFp c surface) := ⟨_, free, rfl⟩
  have here := filing.good.row found
  obtain ⟨norm, named, own⟩ := filed e.toEntityRow here.1
  have own_fp : st.tables.Registered e.fingerprint key := .inl ⟨e.toEntityRow, here.1, rfl, here.2⟩
  -- the fingerprint is the entity's own, since no variant is filed by value
  obtain ⟨row, member, named', key_eq⟩ | ⟨row, member, named', _⟩ := registered
  · have same : row = e.toEntityRow :=
      eq_of_nodup_map filing.good.sound.keys member here.1 (key_eq.trans here.2.symm)
    subst same
    have equal := named.symm.trans named'
    obtain ⟨category, _⟩ := (files_fingerprint hmac plain).mp (equal ▸ files)
    have split := (Vault.fingerprint_eq_iff hmac anon.pid).mp equal
    rw [category] at split own
    obtain ⟨_, norm_eq⟩ := (Text.append_cons_inj plain plain).mp split
    exact (own other).symm.trans norm_eq
  · exact absurd files (named' ▸ filing.variants row member)

end RedactGate.Desktop
