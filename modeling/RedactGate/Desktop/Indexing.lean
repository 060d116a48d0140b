import RedactGate.Desktop.LabelsInUse

/-!
# The index of fingerprints

A new entity is added where the index in memory does not have its fingerprint. So the unique
index of the table holds if the memory has the fingerprint of every entity of the table.
-/
namespace RedactGate.Desktop

open Library

/-- The memory has the fingerprint of every entity, and the entities that its index names. -/
structure Indexed (m : Memory) (tables : Tables) : Prop where
  owned : ∀ row ∈ tables.entity, (m.fpIndex.get? row.fingerprint).isSome
  live : ∀ fp key, m.fpIndex.get? fp = some key → (m.cache.get? key).isSome

/-- What is in memory is in step with the rows and has their fingerprints. -/
structure Ready (st : VaultFile) : Prop where
  good : GoodOn (fun _ => False) st
  indexed : ∀ m, st.memory = some m → Indexed m st.tables

variable {T : Text → Prop} {order : RowOrder} {m : Memory} {tables : Tables}

/-! ## Memories -/

theorem indexed_load (sound : SoundOn T tables) : Indexed (tables.load order) tables where
  owned row member := by
    have written : (row.fingerprint, row.key) ∈
        (tables.load order).cache.entries.flatMap Tables.indexed := by
      rw [mem_flatMap_indexed]
      exact ⟨_, (get?_load sound row.key _).mpr ⟨row, member, rfl, rfl⟩, .inl rfl⟩
    exact Dict.isSome_setAll written _
  live fp key found := by
    obtain ⟨e, here, _⟩ := mem_flatMap_indexed.mp (Dict.mem_of_setAll found)
    exact Option.isSome_iff_exists.mpr ⟨e, here⟩

/-- An entity is put into memory together with one of its fingerprints: the index still leads to
entities that are there. -/
theorem Indexed.put (indexed : Indexed m tables) (key : LabelKey) (e : Entity) (fp : Text) :
    Indexed ⟨m.cache.set key e, m.fpIndex.set fp key⟩ tables where
  owned row member := Dict.isSome_get?_set _ (indexed.owned row member)
  live fp' key' found := by
    rw [Dict.get?_set] at found
    split at found
    · obtain rfl := Option.some.inj found
      rw [Dict.get?_set, if_pos rfl]
      rfl
    · exact Dict.isSome_get?_set _ (indexed.live fp' key' found)

theorem Indexed.recache (indexed : Indexed m tables) (key : LabelKey) (e : Entity) :
    Indexed { m with cache := m.cache.set key e } tables where
  owned := indexed.owned
  live fp' key' found := Dict.isSome_get?_set _ (indexed.live fp' key' found)

theorem Indexed.update (indexed : Indexed m tables) {f : EntityRow → EntityRow} (keeps : Keeps f)
    (key : LabelKey) : Indexed m (tables.update key f) where
  owned row member := by
    obtain ⟨old, among, rfl⟩ := mem_update.mp member
    rw [keeps.if_fingerprint]
    exact indexed.owned old among
  live := indexed.live

/-! ## States -/

variable {st st' : VaultFile} {key : LabelKey}

theorem ready_new : Ready VaultFile.new where
  good := goodOn_new
  indexed _ loaded := by cases loaded

namespace Ready

theorem memoryOf (ready : Ready st) : Indexed (st.memoryOf order) st.tables := by
  rw [VaultFile.memoryOf]
  cases found : st.memory with
  | none => exact indexed_load ready.good.sound
  | some m => exact ready.indexed m found

theorem load (ready : Ready st) : Ready (st.load order) where
  good := ready.good.load
  indexed _ found := Option.some.inj found ▸ ready.memoryOf

theorem addEntity {category canonical fp : Text} {personMeta : PersonMeta} {origin : Origin}
    (ready : Ready st)
    (added : st.addEntity order category canonical fp personMeta origin = some (key, st')) :
    Ready st' := by
  refine ⟨ready.good.addEntity added fun never => never.elim, fun m found => ?_⟩
  obtain ⟨row, _, _, _, rfl⟩ := addEntity_cases added
  obtain rfl := Option.some.inj found
  have before : Indexed (st.memoryOf order) st.tables := ready.memoryOf
  have indexed := before.put row.key ⟨row, Dict.empty⟩ row.fingerprint
  refine ⟨fun other member => ?_, indexed.live⟩
  rcases List.mem_append.mp member with among | new
  · exact indexed.owned other among
  · obtain rfl := List.mem_singleton.mp new
    rw [Dict.get?_set, if_pos rfl]
    rfl

theorem addVariant (ready : Ready st) (fp surface : Text) :
    Ready (st.addVariant order key fp surface) := by
  refine ⟨ready.good.addVariant surface fun never => never.elim, fun m loaded => ?_⟩
  have entity : (st.addVariant order key fp surface).tables.entity = st.tables.entity :=
    entity_addVariant
  suffices indexed : Indexed m st.tables from ⟨entity ▸ indexed.owned, indexed.live⟩
  cases found : st.entityOf order key with
  | none =>
    rw [addVariant_of_none found] at loaded
    exact ready.indexed m loaded
  | some e =>
    rcases addVariant_cases found fp surface with ⟨_, same⟩ | ⟨_, same⟩
    · rw [same] at loaded
      exact ready.indexed m loaded
    · rw [same] at loaded
      obtain rfl := Option.some.inj loaded
      exact ready.memoryOf.put key _ fp

theorem updateEntity (ready : Ready st) {f : EntityRow → EntityRow} (keeps : Keeps f) :
    Ready (st.updateEntity order key f) := by
  refine ⟨ready.good.updateEntity keeps, ?_⟩
  rw [VaultFile.updateEntity]
  split
  · exact ready.indexed
  · next e _ =>
    intro m loaded
    obtain rfl := Option.some.inj loaded
    exact (ready.memoryOf.update keeps key).recache key _

theorem setCanonical (ready : Ready st) (value : Text) (personMeta : Option PersonMeta) :
    Ready (st.setCanonical order key value personMeta) := by
  rw [VaultFile.setCanonical]
  split
  · exact ready
  · exact ready.updateEntity ⟨fun _ => rfl, fun _ => rfl⟩

theorem setExcluded (ready : Ready st) (excluded : Bool) :
    Ready (st.setExcluded order key excluded) :=
  ready.updateEntity ⟨fun _ => rfl, fun _ => rfl⟩

theorem bumpOne (ready : Ready st) (count : Nat) : Ready (st.bumpOne key count) := by
  refine ⟨ready.good.bumpOne count, fun m loaded => ?_⟩
  obtain ⟨m, held, rfl⟩ := Option.map_eq_some_iff.mp loaded
  have updated := (ready.indexed m held).update (f := fun row =>
    { row with occurrences := row.occurrences + count }) ⟨fun _ => rfl, fun _ => rfl⟩ key
  split
  · exact updated.recache key _
  · exact updated

theorem bump (ready : Ready st) (counts : List (LabelKey × Nat)) : Ready (st.bump counts) := by
  induction counts generalizing st with
  | nil => exact ready
  | cons count counts ih => exact ih (ready.bumpOne count.2)

theorem deleteEntity (ready : Ready st) (key : LabelKey) : Ready (st.deleteEntity key) where
  good := ready.good.deleteEntity key
  indexed _ loaded := by cases loaded

theorem lock (ready : Ready st) : Ready st.lock where
  good := ready.good.lock
  indexed _ loaded := by cases loaded

/-! ## Resolving -/

variable {anon : Anonymizer} {category surface : Text} {origin : Origin}

/-- A fingerprint that the index does not have is the fingerprint of no entity in the table. -/
theorem fresh (ready : Ready st) {fp : Text} (unknown : st.byFingerprint order fp = none) :
    ∀ row ∈ st.tables.entity, row.fingerprint ≠ fp := by
  rintro row member rfl
  have indexed : Indexed (st.memoryOf order) st.tables := ready.memoryOf
  obtain ⟨key, found⟩ := Option.isSome_iff_exists.mp (indexed.owned row member)
  obtain ⟨e, here⟩ := Option.isSome_iff_exists.mp (indexed.live _ key found)
  have known : st.byFingerprint order row.fingerprint = some e := by
    rw [VaultFile.byFingerprint, found]
    exact here
  cases unknown.symm.trans known

theorem isSome_addEntity (ready : Ready st) {fp : Text}
    (unknown : st.byFingerprint order fp = none) (canonical : Text) (personMeta : PersonMeta) :
    (st.addEntity order category canonical fp personMeta origin).isSome := by
  rw [VaultFile.addEntity, if_neg]
  · rfl
  · intro taken
    obtain ⟨row, member, same⟩ := List.any_eq_true.mp taken
    exact ready.fresh unknown row member (of_decide_eq_true same)

theorem isSome_resolve (ready : Ready st) (category surface : Text) (origin : Origin) :
    (anon.resolve st category surface origin).isSome := by
  rw [Anonymizer.resolve]
  split
  · split <;> rfl
  · next unknown =>
    split
    · rfl
    · exact ready.load.isSome_addEntity unknown surface _

theorem resolve (ready : Ready st)
    (resolved : anon.resolve st category surface origin = some (key, st')) : Ready st' := by
  cases resolves_of_resolve resolved with
  | known e found has => exact ready.load
  | spelled e found lacks => exact ready.load.addVariant _ _
  | linked e unknown found =>
    rw [Anonymizer.linkAlias]
    split
    · exact ((ready.load.addVariant _ _).setCanonical _ _).addVariant _ _
    · exact ready.load.addVariant _ _
  | created unknown alone added => exact ready.load.addEntity added

theorem isSome_addManual (ready : Ready st) (category value : Text) (excluded : Bool) :
    (anon.addManual st category value excluded).isSome := by
  obtain ⟨⟨key, st₁⟩, resolved⟩ := Option.isSome_iff_exists.mp
    (@isSome_resolve st anon ready category (Text.strip anon.casing.toUnicode value) .manual)
  rw [Anonymizer.addManual, resolved]
  dsimp only
  split <;> rfl

theorem addManual (ready : Ready st) {value : Text} {excluded : Bool}
    (added : anon.addManual st category value excluded = some (key, st')) : Ready st' := by
  obtain ⟨st₁, resolved, same⟩ := addManual_cases added
  rcases same with rfl | rfl
  · exact ready.resolve resolved
  · exact (ready.resolve resolved).setExcluded excluded

theorem edit (ready : Ready st) {value : Option Text} {excluded : Option Bool}
    (edited : anon.edit st key value excluded = some st') : Ready st' := by
  obtain ⟨e, _, st₁, changed, same⟩ := edit_cases edited
  have ready₁ : Ready st₁ := by
    rcases changed with ⟨_, rfl⟩ | ⟨new, _, rfl⟩
    · exact ready.load
    · exact (ready.load.setCanonical _ _).addVariant _ _
  rcases same with rfl | ⟨flag, rfl⟩
  · exact ready₁
  · exact ready₁.setExcluded flag

theorem delete (ready : Ready st) (deleted : anon.delete st key = some st') : Ready st' := by
  obtain ⟨e, _, rfl⟩ := delete_cases deleted
  exact ready.load.deleteEntity e.key

end Ready

end RedactGate.Desktop
