import RedactGate.Desktop.Spellings

/-!
# Known surfaces

A mention is looked up by the fingerprint of its normalized value. Resolving and adding by
hand register that fingerprint for every surface an entity gets, but an edit of the value
registers the old value only. In a run whose edits give an entity a value that already finds
it, every surface of an entity leads back to it.
-/
namespace RedactGate.Desktop

open Library

/-- An action that cannot part an entity from a surface: its category has no colon in it,
and the value of an edit is one under which the entity is registered. -/
def Anonymizer.KeepsHome (anon : Anonymizer) (st : VaultFile) : VaultAction → Prop
  | .resolve category _ | .addManual category _ _ => ':' ∉ category
  | .edit key value _ => ∀ new ∈ anon.newValue value, ∀ e ∈ st.entityOf anon.order key,
    st.tables.Registered (anon.valueFp e.category new) key
  | .bump _ | .delete _ | .lock => True

/-- A step that is clear and cannot part an entity from a surface. -/
def Anonymizer.StaysHome (anon : Anonymizer) (st : VaultFile) (action : VaultAction) : Prop :=
  anon.Clear st action ∧ anon.KeepsHome st action

/-- Every surface of the tables is registered under its own normalized value, in the
category of its entity. -/
structure Homed (anon : Anonymizer) (tables : Tables) : Prop where
  filed : ∀ fp key, tables.Registered fp key →
    ':' ∉ key.1 ∧ ∃ norm, fp = anon.fingerprint key.1 norm
  rows : ∀ row ∈ tables.entity, tables.Registered (anon.valueFp row.category row.value) row.key
  variants : ∀ row ∈ tables.variant,
    tables.Registered (anon.valueFp row.category row.value) row.key

variable {anon : Anonymizer} {order : RowOrder} {tables : Tables} {st st' : VaultFile}
  {key : LabelKey} {c fp surface : Text} {origin : Origin}

/-- A fingerprint of a category belongs to an entity of the category. -/
theorem Homed.category (homed : Homed anon tables) (hmac : HmacInjective anon.vault.crypto)
    {norm : Text} (plain : ':' ∉ c) (registered : tables.Registered (anon.fingerprint c norm) key) :
    c = key.1 := by
  obtain ⟨plain', norm', same⟩ := homed.filed _ key registered
  have equal := (Vault.fingerprint_eq_iff hmac anon.pid).mp same
  exact ((Text.append_cons_inj plain plain').mp equal).1

theorem homed_empty : Homed anon Tables.empty where
  filed fp key registered := by
    rcases registered with ⟨row, member, _⟩ | ⟨row, member, _⟩
    · cases member
    · cases member
  rows row member := by cases member
  variants row member := by cases member

/-! ## Operations -/

theorem Homed.append_entity {row : EntityRow} (homed : Homed anon tables)
    (plain : ':' ∉ row.category) (own : row.fingerprint = anon.valueFp row.category row.value) :
    Homed anon { tables with entity := tables.entity ++ [row] } where
  filed fp key registered := by
    rcases registered_append_entity.mp registered with registered | ⟨rfl, rfl⟩
    · exact homed.filed fp key registered
    · exact ⟨plain, _, own⟩
  rows row' member := by
    rcases List.mem_append.mp member with member | single
    · exact registered_append_entity.mpr (.inl (homed.rows row' member))
    · obtain rfl := List.mem_singleton.mp single
      exact registered_append_entity.mpr (.inr ⟨own, rfl⟩)
  variants row' member := registered_append_entity.mpr (.inl (homed.variants row' member))

/-- A variant that an entity gets under a fingerprint of its own category leaves every surface at
home, as the value of the surface leads to the entity too. -/
theorem Homed.addVariant (homed : Homed anon st.tables) (category : key.1 = c) (plain : ':' ∉ c)
    (norm : Text) (named : fp = anon.fingerprint c norm)
    (known : (st.addVariant order key fp surface).tables.Registered (anon.valueFp c surface) key) :
    Homed anon (st.addVariant order key fp surface).tables where
  filed fp' key' registered := by
    rcases registered_addVariant registered with registered | ⟨rfl, rfl⟩
    · exact homed.filed fp' key' registered
    · exact category ▸ ⟨plain, norm, named⟩
  rows row member := (homed.rows row (entity_addVariant ▸ member)).addVariant
  variants row member := by
    rcases tables_addVariant order st key fp surface with same | same
    · exact (homed.variants row (same ▸ member)).addVariant
    · rw [same] at member
      rcases List.mem_append.mp member with member | single
      · exact (homed.variants row member).addVariant
      · obtain rfl := List.mem_singleton.mp single
        subst category
        exact known

theorem Homed.update {f : EntityRow → EntityRow} (homed : Homed anon tables) (keeps : Keeps f)
    (known : ∀ row ∈ tables.entity, row.key = key →
      tables.Registered (anon.valueFp row.category (f row).value) key) :
    Homed anon (tables.update key f) where
  filed fp key' registered := homed.filed fp key' ((registered_update keeps).mp registered)
  rows row' member := by
    obtain ⟨row, among, rfl⟩ := mem_update.mp member
    apply (registered_update keeps).mpr
    split
    · next here =>
      have category : (f row).category = row.category := congrArg Prod.fst (keeps.key row)
      rw [keeps.key, here, category]
      exact known row among here
    · exact homed.rows row among
  variants row member := (registered_update keeps).mpr (homed.variants row member)

theorem Homed.filter (homed : Homed anon tables) : Homed anon
    ⟨tables.entity.filter (·.key ≠ key), tables.variant.filter (·.key ≠ key)⟩ where
  filed fp key' registered := homed.filed fp key' (registered_filter.mp registered).1
  rows row member := by
    obtain ⟨member, other⟩ := List.mem_filter.mp member
    exact registered_filter.mpr ⟨homed.rows row member, of_decide_eq_true other⟩
  variants row member := by
    obtain ⟨member, other⟩ := List.mem_filter.mp member
    exact registered_filter.mpr ⟨homed.variants row member, of_decide_eq_true other⟩

theorem Homed.setCanonical {value : Text} {personMeta : Option PersonMeta}
    (homed : Homed anon st.tables) (category : key.1 = c)
    (known : st.tables.Registered (anon.valueFp c value) key) :
    Homed anon (st.setCanonical order key value personMeta).tables := by
  rw [VaultFile.setCanonical]
  split
  · exact homed
  · rw [VaultFile.updateEntity]
    split
    · exact homed
    · refine homed.update ⟨fun _ => rfl, fun _ => rfl⟩ fun row _ here => ?_
      have filed : row.category = c := (congrArg Prod.fst here).trans category
      exact filed ▸ known

/-- A change that leaves the values alone. -/
theorem Homed.update_same {f : EntityRow → EntityRow} (homed : Homed anon tables) (keeps : Keeps f)
    (same : ∀ row, (f row).value = row.value) : Homed anon (tables.update key f) :=
  homed.update keeps fun row member here => by
    rw [same, ← here]
    exact homed.rows row member

theorem Homed.setExcluded (homed : Homed anon st.tables) (excluded : Bool) :
    Homed anon (st.setExcluded order key excluded).tables := by
  rw [VaultFile.setExcluded, VaultFile.updateEntity]
  split
  · exact homed
  · exact homed.update_same ⟨fun _ => rfl, fun _ => rfl⟩ fun _ => rfl

theorem Homed.bump (homed : Homed anon st.tables) (counts : List (LabelKey × Nat)) :
    Homed anon (st.bump counts).tables := by
  induction counts generalizing st with
  | nil => exact homed
  | cons count counts ih =>
    exact ih (homed.update_same ⟨fun _ => rfl, fun _ => rfl⟩ fun _ => rfl)

/-! ## Steps -/

/-- The new canonical value of an entity, with the old one recorded as a spelling: both are
registered under their own values before. -/
theorem Homed.respell {value old : Text} {personMeta : Option PersonMeta}
    (homed : Homed anon st.tables) (category : key.1 = c)
    (known : st.tables.Registered (anon.valueFp c value) key)
    (old_known : st.tables.Registered (anon.valueFp c old) key) :
    Homed anon ((st.setCanonical order key value personMeta).addVariant order key
      (anon.surfaceFp c old) old).tables := by
  refine (homed.setCanonical category known).addVariant category ?_ _ rfl ?_
  · exact category ▸ (homed.filed _ _ known).1
  · exact (registered_setCanonical.mpr old_known).addVariant

variable (hmac : HmacInjective anon.vault.crypto)

include hmac

theorem Homed.resolves (homed : Homed anon st.tables) (good : GoodOn (fun _ => True) st)
    (resolves : Resolves anon st c surface origin key st') (plain : ':' ∉ c) :
    Homed anon st'.tables := by
  cases resolves with
  | known e found has => exact homed
  | spelled e found lacks =>
    have known := good.registered_of_byFingerprint trivial found
    obtain rfl : c = e.category := homed.category hmac plain known
    exact homed.addVariant rfl plain _ rfl known.addVariant
  | linked e unknown found =>
    obtain ⟨member, rfl, _⟩ := aliasOf_category found
    have present := good.mem_entities.mp member
    have unclaimed := good.unregistered_of_byFingerprint trivial unknown
    have known := good.registered_of_addVariant trivial present surface fun key here =>
      absurd here (unclaimed key)
    have first := homed.addVariant rfl plain _ rfl known
    -- when the alias becomes canonical the old value must be registered already: it was the value
    -- of the row
    have old := homed.rows e.toEntityRow (good.row present).1
    rw [Anonymizer.linkAlias]
    split
    · exact first.respell rfl known old.addVariant
    · exact first
  | created unknown alone added =>
    obtain ⟨row, shape, rfl, _, rfl⟩ := addEntity_cases added
    subst shape
    exact homed.append_entity plain rfl

theorem Homed.resolve (homed : Homed anon st.tables) (good : GoodOn (fun _ => True) st)
    (resolved : anon.resolve st c surface origin = some (key, st')) (plain : ':' ∉ c) :
    Homed anon st'.tables :=
  have loaded : Homed anon (st.load anon.order).tables := homed
  loaded.resolves hmac good.load (resolves_of_resolve resolved) plain

/-- A step that does not part an entity from a surface keeps every surface at home, one case for
each action of the vault. -/
theorem Homed.step (homed : Homed anon st.tables) (good : GoodOn (fun _ => True) st)
    {action : VaultAction} (keeps : anon.KeepsHome st action)
    (taken : anon.step st action = some st') : Homed anon st'.tables := by
  cases action with
  | resolve category surface =>
    obtain ⟨⟨key, _⟩, resolved, rfl⟩ := Option.map_eq_some_iff.mp taken
    exact homed.resolve hmac good resolved keeps
  | addManual category value excluded =>
    obtain ⟨⟨key, _⟩, added, rfl⟩ := Option.map_eq_some_iff.mp taken
    obtain ⟨st₁, resolved, same⟩ := addManual_cases added
    have kept := homed.resolve hmac good resolved keeps
    rcases same with rfl | rfl
    · exact kept
    · exact kept.setExcluded excluded
  | edit key value excluded =>
    obtain ⟨e, found, st₁, changed, same⟩ := edit_cases taken
    have loaded : Homed anon (st.load anon.order).tables := homed
    have kept : Homed anon st₁.tables := by
      rcases changed with ⟨_, rfl⟩ | ⟨new, given, rfl⟩
      · exact loaded
      -- an edit adds no fingerprint for the new value, so it must have one already
      · obtain ⟨member, rfl⟩ := good.row found
        exact loaded.respell rfl (keeps new given e found) (homed.rows e.toEntityRow member)
    rcases same with rfl | ⟨flag, rfl⟩
    · exact kept
    · exact kept.setExcluded flag
  | bump counts => exact Option.some.inj taken ▸ homed.bump counts
  | delete key =>
    obtain ⟨e, _, rfl⟩ := delete_cases taken
    exact homed.filter
  | lock => exact Option.some.inj taken ▸ homed

omit hmac

/-- In a run whose steps leave the surfaces at home, resolving any surface of an entity gives the
entity, and changes nothing but that the project is loaded. A step does so if it is clear, no
category has a colon, and an edit gives an entity a value under which it is registered. -/
theorem resolve_known_surface (anon : Anonymizer) (hmac : HmacInjective anon.vault.crypto)
    {st : VaultFile} (run : ReachesBy anon.StaysHome anon.step VaultFile.new st) {e : Entity}
    (live : e ∈ st.entities anon.order) {surface : Text}
    (known : surface ∈ e.surfaces) (origin : Origin) :
    anon.resolve st e.category surface origin = some (e.key, st.load anon.order) := by
  obtain ⟨good, homed⟩ : GoodOn (fun _ => True) st ∧ Homed anon st.tables := by
    refine run.invariant (P := fun st => GoodOn (fun _ => True) st ∧ Homed anon st.tables)
      ⟨goodOn_new, homed_empty⟩ ?_
    intro st action st' kept allowed taken
    exact ⟨kept.1.step (fun key fp recorded _ => allowed.1 key fp recorded) taken,
      kept.2.step hmac kept.1 allowed.2 taken⟩
  have present := good.mem_entities.mp live
  have registered : st.tables.Registered (anon.valueFp e.category surface) e.key := by
    -- the canonical value is filed with the entity, the other spellings with their variants
    rcases List.mem_cons.mp known with rfl | known
    · exact homed.rows e.toEntityRow (good.row present).1
    · obtain ⟨⟨fp, _⟩, variant, rfl⟩ := List.mem_map.mp known
      have member := (good.memoryOf.variants e.key e present fp trivial _).mp
        (Dict.mem_entries.mp variant)
      exact homed.variants _ member
  -- the index in memory leads from a registered fingerprint to its one entity
  have found : st.byFingerprint anon.order (anon.valueFp e.category surface) = some e := by
    rw [VaultFile.byFingerprint, (good.memoryOf.index _ trivial e.key).mpr registered]
    exact present
  have loaded : (st.load anon.order).byFingerprint anon.order (anon.valueFp e.category surface) =
      some e := found
  simp only [Anonymizer.resolve, loaded, if_pos known]

/-! ## Two runs -/

instance (tables : Tables) (fp : Text) (key : LabelKey) : Decidable (tables.Registered fp key) :=
  inferInstanceAs (Decidable (_ ∨ _))

instance (anon : Anonymizer) (st : VaultFile) (action : VaultAction) :
    Decidable (anon.KeepsHome st action) :=
  match action with
  | .resolve _ _ | .addManual _ _ _ => inferInstanceAs (Decidable (_ ∉ _))
  | .edit _ _ _ => inferInstanceAs (Decidable (∀ new ∈ _, ∀ e ∈ _, Tables.Registered _ _ _))
  | .bump _ | .delete _ | .lock => inferInstanceAs (Decidable True)

instance (anon : Anonymizer) (st : VaultFile) (action : VaultAction) :
    Decidable (anon.StaysHome st action) := inferInstanceAs (Decidable (_ ∧ _))

/-- A value that comes in another spelling, which becomes the canonical one. -/
def respelledValue : List VaultAction :=
  [.resolve organisation "Alpha".toList, .resolve organisation "ALPHA".toList,
    .edit (organisation, 1) (some "ALPHA".toList) none]

theorem resolve_known_surface_respelled : ∃ st, runAllowed sampleAnonymizer.StaysHome
    sampleAnonymizer.step VaultFile.new respelledValue = some st ∧
    ∃ e ∈ st.entities .insertion, "Alpha".toList ∈ e.surfaces ∧
      sampleAnonymizer.resolve st e.category "Alpha".toList .auto =
        some (e.key, st.load .insertion) := by
  have home : (runAllowed sampleAnonymizer.StaysHome sampleAnonymizer.step VaultFile.new
      respelledValue).any (fun st => (st.entities .insertion).any fun e =>
        decide ("Alpha".toList ∈ e.surfaces)) = true := by decide
  obtain ⟨st, run, live⟩ := (Option.any_eq_true _ _).mp home
  obtain ⟨e, live, known⟩ := List.any_eq_true.mp live
  exact ⟨st, run, e, live, of_decide_eq_true known, resolve_known_surface sampleAnonymizer
    sampleVault_hmac (reachesBy_of_runAllowed run) live (of_decide_eq_true known) .auto⟩

/-- A value that the user corrects. -/
def correctedValue : List VaultAction :=
  [.resolve organisation "Alpha".toList, .edit (organisation, 1) (some "Beta".toList) none]

theorem corrected_value_strays : ∃ st, runSteps sampleAnonymizer.step VaultFile.new
    correctedValue = some st ∧ ∃ e ∈ st.entities .insertion, "Beta".toList ∈ e.surfaces ∧
      (sampleAnonymizer.resolve st e.category "Beta".toList .auto).map Prod.fst =
        some (organisation, 2) ∧ e.key = (organisation, 1) := by
  have strays : (runSteps sampleAnonymizer.step VaultFile.new correctedValue).any (fun st =>
      (st.entities .insertion).any fun e => decide ("Beta".toList ∈ e.surfaces ∧
        (sampleAnonymizer.resolve st e.category "Beta".toList .auto).map Prod.fst =
          some (organisation, 2) ∧ e.key = (organisation, 1))) = true := by decide
  obtain ⟨st, run, strays⟩ := (Option.any_eq_true _ _).mp strays
  obtain ⟨e, live, strays⟩ := List.any_eq_true.mp strays
  exact ⟨st, run, e, live, of_decide_eq_true strays⟩

end RedactGate.Desktop
