import RedactGate.Desktop.LabelVault

/-!
# Coherence of memory and tables

What is in memory agrees with the tables when every fingerprint belongs to one entity. Where
it does not, the last one to register it has it in memory, the first one has it in the
table, and loading gives it to whichever comes last. So coherence is kept for all
fingerprints of a kind as long as none of the kind is registered for a second entity.
-/
namespace RedactGate.Desktop

open Library

/-- The tables give the fingerprint to the entity of the key. -/
def Tables.Registered (tables : Tables) (fp : Text) (key : LabelKey) : Prop :=
  (∃ row ∈ tables.entity, row.fingerprint = fp ∧ row.key = key) ∨
    ∃ row ∈ tables.variant, row.fingerprint = fp ∧ row.key = key

/-- The labels that are in use. -/
abbrev Tables.keys (tables : Tables) : List LabelKey := tables.entity.map EntityRow.key

/-- What the tables guarantee by their indexes and foreign keys, and, for a kind `T` of
fingerprints, that each of them is registered for one entity at most. -/
structure SoundOn (T : Text → Prop) (tables : Tables) : Prop where
  keys : tables.keys.Nodup
  owned : (tables.entity.map EntityRow.fingerprint).Nodup
  variants : (tables.variant.map VariantRow.fingerprint).Nodup
  live : ∀ row ∈ tables.variant, ∃ owner ∈ tables.entity, owner.key = row.key
  single : ∀ fp, T fp → ∀ key key', tables.Registered fp key → tables.Registered fp key' → key = key'

/-- The memory has the rows of the tables, and for the fingerprints of a kind also the
variants and the entities of the tables. -/
structure CoherentOn (T : Text → Prop) (m : Memory) (tables : Tables) : Prop where
  rows : ∀ key row, (∃ e, m.cache.get? key = some e ∧ e.toEntityRow = row) ↔
    row ∈ tables.entity ∧ row.key = key
  variants : ∀ key e, m.cache.get? key = some e → ∀ fp, T fp → ∀ surface,
    e.variants.get? fp = some surface ↔ (⟨key.1, key.2, fp, surface⟩ : VariantRow) ∈ tables.variant
  index : ∀ fp, T fp → ∀ key, m.fpIndex.get? fp = some key ↔ tables.Registered fp key

/-- The state is sound, and what is in memory is coherent. -/
structure GoodOn (T : Text → Prop) (st : VaultFile) : Prop where
  sound : SoundOn T st.tables
  coherent : ∀ m, st.memory = some m → CoherentOn T m st.tables

variable {T : Text → Prop} {order : RowOrder}

/-! ## Loading -/

theorem eq_of_nodup_map {α β : Type} {f : α → β} {xs : List α} (nodup : (xs.map f).Nodup) {a b : α}
    (ha : a ∈ xs) (hb : b ∈ xs) (same : f a = f b) : a = b :=
  List.inj_on_of_nodup_map nodup ha hb same

/-- The row that a variant is read from. -/
theorem variantRow_eta (row : VariantRow) :
    (⟨row.key.1, row.key.2, row.fingerprint, row.value⟩ : VariantRow) = row := rfl

/-- The second query of `load`, row after row: each entity gets the variants of its own key, and
rows whose entity is not there are passed over. -/
theorem get?_foldl_attach (rows : List VariantRow) (ents : Dict LabelKey Entity) (key : LabelKey) :
    (rows.foldl Tables.attach ents).get? key = (ents.get? key).map fun e =>
      ⟨e.toEntityRow, e.variants.setAll
        ((rows.filter (·.key = key)).map fun row => (row.fingerprint, row.value))⟩ := by
  induction rows generalizing ents with
  | nil =>
    rw [List.foldl_nil]
    cases ents.get? key <;> rfl
  | cons row rows ih =>
    rw [List.foldl_cons, ih, Tables.attach]
    -- a variant goes to its own entity and leaves the others as they are
    by_cases same : row.key = key
    · rw [List.filter_cons_of_pos (by simpa using same), same]
      cases found : ents.get? key with
      | none => simp only [found, Option.map_none]
      | some e =>
        simp only [Dict.get?_set, if_true, Option.map_some]
        rfl
    · rw [List.filter_cons_of_neg (by simpa using same)]
      cases ents.get? row.key with
      | none => rfl
      | some e => simp only [Dict.get?_set, if_neg same]

theorem mem_flatMap_indexed {ents : Dict LabelKey Entity} {fp : Text} {key : LabelKey} :
    (fp, key) ∈ ents.entries.flatMap Tables.indexed ↔ ∃ e, ents.get? key = some e ∧
      (e.fingerprint = fp ∨ ∃ surface, e.variants.get? fp = some surface) := by
  rw [List.mem_flatMap]
  constructor
  · rintro ⟨⟨key', e⟩, among, written⟩
    rw [Dict.mem_entries] at among
    rw [Tables.indexed, List.mem_cons, List.mem_map] at written
    rcases written with same | ⟨⟨fp', surface⟩, variant, same⟩
    · obtain ⟨rfl, rfl⟩ := Prod.mk.inj same
      exact ⟨e, among, .inl rfl⟩
    · obtain ⟨rfl, rfl⟩ := Prod.mk.inj same
      exact ⟨e, among, .inr ⟨surface, Dict.mem_entries.mp variant⟩⟩
  · rintro ⟨e, found, written⟩
    refine ⟨(key, e), Dict.mem_entries.mpr found, ?_⟩
    rw [Tables.indexed, List.mem_cons, List.mem_map]
    rcases written with rfl | ⟨surface, variant⟩
    · exact .inl rfl
    · exact .inr ⟨(fp, surface), Dict.mem_entries.mpr variant, rfl⟩

section Load

variable {tables : Tables}

/-- The entities of the first query are the rows of the table, under their keys. No two rows have
one key, so that the order in which the store lists them does not matter. -/
theorem get?_rows (sound : SoundOn T tables) (key : LabelKey) (e : Entity) :
    (Dict.empty.setAll ((order.entity tables.entity).map fun row =>
      (row.key, ⟨row, Dict.empty⟩))).get? key = some e ↔
    ∃ row ∈ tables.entity, row.key = key ∧ e = ⟨row, Dict.empty⟩ := by
  -- with one row a key, the dictionary holds exactly what is listed
  have listed (e : Entity) : (key, e) ∈ ((order.entity tables.entity).map fun row =>
      (row.key, (⟨row, Dict.empty⟩ : Entity))) ↔
      ∃ row ∈ tables.entity, row.key = key ∧ e = ⟨row, Dict.empty⟩ := by
    rw [List.mem_map]
    constructor
    · rintro ⟨row, member, same⟩
      obtain ⟨rfl, rfl⟩ := Prod.mk.inj same
      exact ⟨row, (order.entity_perm _).mem_iff.mp member, rfl, rfl⟩
    · rintro ⟨row, member, rfl, rfl⟩
      exact ⟨row, (order.entity_perm _).mem_iff.mpr member, rfl⟩
  rw [Dict.get?_setAll_empty, listed]
  intro e e' first second
  obtain ⟨row, member, rfl, rfl⟩ := (listed e).mp first
  obtain ⟨row', member', same, rfl⟩ := (listed e').mp second
  rw [eq_of_nodup_map sound.keys member' member same]

/-- The variants of an entity that the second query gives are its rows of the table: a fingerprint
of the entity has one row, in whatever order the store lists them. -/
theorem get?_variants (sound : SoundOn T tables) (key : LabelKey) (fp surface : Text) :
    ((Dict.empty : Dict Text Text).setAll (((order.variant tables.variant).filter
      (·.key = key)).map fun row => (row.fingerprint, row.value))).get? fp = some surface ↔
    (⟨key.1, key.2, fp, surface⟩ : VariantRow) ∈ tables.variant := by
  have listed (surface : Text) : (fp, surface) ∈ (((order.variant tables.variant).filter
      (·.key = key)).map fun row => (row.fingerprint, row.value)) ↔
      (⟨key.1, key.2, fp, surface⟩ : VariantRow) ∈ tables.variant := by
    simp only [List.mem_map, List.mem_filter, (order.variant_perm _).mem_iff, decide_eq_true_eq]
    constructor
    · rintro ⟨row, ⟨member, rfl⟩, same⟩
      obtain ⟨rfl, rfl⟩ := Prod.mk.inj same
      exact member
    · exact fun member => ⟨_, ⟨member, rfl⟩, rfl⟩
  rw [Dict.get?_setAll_empty, listed]
  intro surface surface' first second
  -- no fingerprint stands in two variant rows
  have rows := eq_of_nodup_map sound.variants ((listed surface).mp first)
    ((listed surface').mp second) rfl
  exact congrArg VariantRow.value rows

/-- The entities that are loaded are the rows of the table, each with the variants that the table
has of it. -/
theorem get?_load (sound : SoundOn T tables) (key : LabelKey) (e : Entity) :
    (tables.load order).cache.get? key = some e ↔ ∃ row ∈ tables.entity, row.key = key ∧
      e = ⟨row, Dict.empty.setAll (((order.variant tables.variant).filter
        (·.key = key)).map fun row => (row.fingerprint, row.value))⟩ := by
  rw [Tables.load, get?_foldl_attach, Option.map_eq_some_iff]
  constructor
  · rintro ⟨e', found, rfl⟩
    obtain ⟨row, member, rfl, rfl⟩ := (get?_rows sound key e').mp found
    exact ⟨row, member, rfl, rfl⟩
  · rintro ⟨row, member, rfl, rfl⟩
    exact ⟨_, (get?_rows sound row.key _).mpr ⟨row, member, rfl, rfl⟩, rfl⟩

/-- Loading tables that are sound for the kind of fingerprints gives a memory that is coherent with
them on this kind. -/
theorem load_coherentOn (sound : SoundOn T tables) :
    CoherentOn T (tables.load order) tables where
  rows key row := by
    constructor
    · rintro ⟨e, found, rfl⟩
      obtain ⟨row, member, rfl, rfl⟩ := (get?_load sound key e).mp found
      exact ⟨member, rfl⟩
    · rintro ⟨member, rfl⟩
      exact ⟨_, (get?_load sound row.key _).mpr ⟨row, member, rfl, rfl⟩, rfl⟩
  variants key e found fp _ surface := by
    obtain ⟨row, _, rfl, rfl⟩ := (get?_load sound key e).mp found
    exact get?_variants sound row.key fp surface
  index fp kind key := by
    -- what is written to the index in the loop over the entities is what the tables register
    have written (key : LabelKey) :
        (fp, key) ∈ (tables.load order).cache.entries.flatMap Tables.indexed ↔
          tables.Registered fp key := by
      rw [mem_flatMap_indexed]
      constructor
      · rintro ⟨e, found, has⟩
        obtain ⟨row, member, rfl, rfl⟩ := (get?_load sound key e).mp found
        rcases has with rfl | ⟨surface, variant⟩
        · exact .inl ⟨row, member, rfl, rfl⟩
        · exact .inr ⟨_, (get?_variants sound row.key fp surface).mp variant, rfl, rfl⟩
      · rintro (⟨row, member, rfl, rfl⟩ | ⟨variant, member, rfl, rfl⟩)
        · exact ⟨_, (get?_load sound row.key _).mpr ⟨row, member, rfl, rfl⟩, .inl rfl⟩
        · obtain ⟨owner, among, same⟩ := sound.live variant member
          refine ⟨_, (get?_load sound variant.key _).mpr ⟨owner, among, same, rfl⟩, .inr
            ⟨variant.value, (get?_variants sound variant.key variant.fingerprint variant.value).mpr
              member⟩⟩
    have index : (tables.load order).fpIndex = Dict.empty.setAll
        ((tables.load order).cache.entries.flatMap Tables.indexed) := rfl
    rw [index, Dict.get?_setAll_empty, written]
    intro key key' first second
    -- the last entry of a fingerprint wins, which is no choice where only one entity has it
    exact sound.single fp kind key key' ((written key).mp first) ((written key').mp second)

end Load

/-! ## States -/

theorem GoodOn.memoryOf {st : VaultFile} (good : GoodOn T st) :
    CoherentOn T (st.memoryOf order) st.tables := by
  rw [VaultFile.memoryOf]
  cases found : st.memory with
  | none => exact load_coherentOn good.sound
  | some m => exact good.coherent m found

/-- An entity in memory, with its row. -/
theorem GoodOn.row {st : VaultFile} (good : GoodOn T st) {key : LabelKey} {e : Entity}
    (found : st.entityOf order key = some e) :
    e.toEntityRow ∈ st.tables.entity ∧ e.key = key :=
  (good.memoryOf.rows key e.toEntityRow).mp ⟨e, found, rfl⟩

theorem GoodOn.load {st : VaultFile} (good : GoodOn T st) : GoodOn T (st.load order) where
  sound := good.sound
  coherent _ found := Option.some.inj found ▸ good.memoryOf

theorem goodOn_new : GoodOn T VaultFile.new where
  sound := {
    keys := List.nodup_nil
    owned := List.nodup_nil
    variants := List.nodup_nil
    live row member := absurd member List.not_mem_nil
    single fp kind key key' first second := by
      rcases first with ⟨row, member, _⟩ | ⟨row, member, _⟩
      · cases member
      · cases member }
  coherent m found := by cases found

/-! ## What the operations do to the tables -/

/-- No other entity has the fingerprint. -/
def Tables.Free (tables : Tables) (fp : Text) (key : LabelKey) : Prop :=
  ∀ key', tables.Registered fp key' → key' = key

section Registered

variable {tables : Tables} {fp : Text} {key : LabelKey}

theorem free_iff : tables.Free fp key ↔
    (∀ row ∈ tables.entity, row.fingerprint = fp → row.key = key) ∧
      ∀ row ∈ tables.variant, row.fingerprint = fp → row.key = key := by
  constructor
  · intro free
    exact ⟨fun row member named => free _ (.inl ⟨row, member, named, rfl⟩),
      fun row member named => free _ (.inr ⟨row, member, named, rfl⟩)⟩
  · rintro ⟨rows, variants⟩ key' (⟨row, member, named, rfl⟩ | ⟨row, member, named, rfl⟩)
    · exact rows row member named
    · exact variants row member named

instance : Decidable (tables.Free fp key) := decidable_of_iff _ free_iff.symm

theorem registered_append_entity {row : EntityRow} :
    ({ tables with entity := tables.entity ++ [row] } : Tables).Registered fp key ↔
      tables.Registered fp key ∨ row.fingerprint = fp ∧ row.key = key := by
  simp only [Tables.Registered, List.mem_append, List.mem_singleton, or_and_right, exists_or,
    exists_eq_left]
  exact or_right_comm

theorem registered_append_variant {row : VariantRow} :
    ({ tables with variant := tables.variant ++ [row] } : Tables).Registered fp key ↔
      tables.Registered fp key ∨ row.fingerprint = fp ∧ row.key = key := by
  simp only [Tables.Registered, List.mem_append, List.mem_singleton, or_and_right, exists_or,
    exists_eq_left]
  exact or_assoc.symm

theorem mem_update {f : EntityRow → EntityRow} {row' : EntityRow} :
    row' ∈ (tables.update key f).entity ↔
      ∃ row ∈ tables.entity, (if row.key = key then f row else row) = row' := List.mem_map

theorem update_of_absent {f : EntityRow → EntityRow} (absent : ∀ row ∈ tables.entity, row.key ≠ key) :
    tables.update key f = tables := by
  have same : (tables.entity.map fun row => if row.key = key then f row else row) =
      tables.entity.map id := List.map_congr_left fun row member => if_neg (absent row member)
  rw [Tables.update, same, List.map_id]

/-- A change of rows that keeps what they are found by. -/
structure Keeps (f : EntityRow → EntityRow) : Prop where
  key : ∀ row, (f row).key = row.key
  fingerprint : ∀ row, (f row).fingerprint = row.fingerprint

theorem Keeps.if_key {f : EntityRow → EntityRow} (keeps : Keeps f) (row : EntityRow) :
    (if row.key = key then f row else row).key = row.key := by
  split
  · exact keeps.key row
  · rfl

theorem Keeps.if_fingerprint {f : EntityRow → EntityRow} (keeps : Keeps f) (row : EntityRow) :
    (if row.key = key then f row else row).fingerprint = row.fingerprint := by
  split
  · exact keeps.fingerprint row
  · rfl

theorem registered_update {f : EntityRow → EntityRow} (keeps : Keeps f) {key' : LabelKey} :
    (tables.update key' f).Registered fp key ↔ tables.Registered fp key := by
  have same : (∃ row ∈ (tables.update key' f).entity, row.fingerprint = fp ∧ row.key = key) ↔
      ∃ row ∈ tables.entity, row.fingerprint = fp ∧ row.key = key := by
    constructor
    · rintro ⟨row', member, rfl, rfl⟩
      obtain ⟨row, among, rfl⟩ := mem_update.mp member
      exact ⟨row, among, (keeps.if_fingerprint row).symm, (keeps.if_key row).symm⟩
    · rintro ⟨row, member, rfl, rfl⟩
      exact ⟨_, mem_update.mpr ⟨row, member, rfl⟩, keeps.if_fingerprint row, keeps.if_key row⟩
  exact or_congr same Iff.rfl

theorem keys_update {f : EntityRow → EntityRow} (keeps : Keeps f) :
    (tables.update key f).keys = tables.keys := by
  rw [Tables.keys, Tables.update, List.map_map]
  exact List.map_congr_left fun row _ => keeps.if_key row

theorem registered_filter {key' : LabelKey} :
    (⟨tables.entity.filter (·.key ≠ key'), tables.variant.filter (·.key ≠ key')⟩ :
      Tables).Registered fp key ↔ tables.Registered fp key ∧ key ≠ key' := by
  simp only [Tables.Registered, List.mem_filter, decide_not, Bool.not_eq_true',
    decide_eq_false_iff_not]
  constructor
  · rintro (⟨row, ⟨member, other⟩, rfl, rfl⟩ | ⟨row, ⟨member, other⟩, rfl, rfl⟩)
    · exact ⟨.inl ⟨row, member, rfl, rfl⟩, other⟩
    · exact ⟨.inr ⟨row, member, rfl, rfl⟩, other⟩
  · rintro ⟨⟨row, member, rfl, rfl⟩ | ⟨row, member, rfl, rfl⟩, other⟩
    · exact .inl ⟨row, ⟨member, other⟩, rfl, rfl⟩
    · exact .inr ⟨row, ⟨member, other⟩, rfl, rfl⟩

theorem foldl_max (ns : List Nat) (start : Nat) :
    (start ≤ ns.foldl max start ∧ ∀ n ∈ ns, n ≤ ns.foldl max start) ∧
      (ns.foldl max start = start ∨ ns.foldl max start ∈ ns) := by
  induction ns generalizing start with
  | nil => exact ⟨⟨Nat.le_refl start, fun n absent => absurd absent List.not_mem_nil⟩, .inl rfl⟩
  | cons n ns ih =>
    obtain ⟨⟨first, rest⟩, reached⟩ := ih (max start n)
    refine ⟨⟨Nat.le_trans (Nat.le_max_left start n) first, fun n' among => ?_⟩, ?_⟩
    · rcases List.mem_cons.mp among with rfl | among
      · exact Nat.le_trans (Nat.le_max_right start n') first
      · exact rest n' among
    · rw [List.foldl_cons]
      rcases reached with same | among
      · rw [same]
        rcases Nat.le_total start n with order | order
        · rw [Nat.max_eq_right order]
          exact .inr List.mem_cons_self
        · exact .inl (Nat.max_eq_left order)
      · exact .inr (List.mem_cons_of_mem n among)

theorem le_maxN {row : EntityRow} (member : row ∈ tables.entity) :
    row.n ≤ tables.maxN row.category := by
  apply (foldl_max _ 0).1.2
  exact List.mem_map_of_mem (List.mem_filter.mpr ⟨member, decide_eq_true rfl⟩)

/-- The highest number of a category is in use, or there is none. -/
theorem maxN_mem (tables : Tables) (category : Text) :
    tables.maxN category = 0 ∨ (category, tables.maxN category) ∈ tables.keys := by
  refine (foldl_max _ 0).2.imp_right fun among => ?_
  obtain ⟨row, member, same⟩ := List.mem_map.mp among
  obtain ⟨member, filed⟩ := List.mem_filter.mp member
  exact List.mem_map.mpr ⟨row, member, Prod.ext (of_decide_eq_true filed) same⟩

/-- The number of a new entity is that of no row. -/
theorem ne_key_of_mem {category : Text} {row : EntityRow} (member : row ∈ tables.entity) :
    row.key ≠ (category, tables.maxN category + 1) := by
  intro same
  have bound := le_maxN member
  obtain ⟨rfl, number⟩ := Prod.mk.inj same
  omega

/-- A fingerprint that is registered belongs to a row of the table of entities. -/
theorem SoundOn.owner (sound : SoundOn T tables) (registered : tables.Registered fp key) :
    ∃ row ∈ tables.entity, row.key = key := by
  rcases registered with ⟨row, member, _, same⟩ | ⟨row, member, _, rfl⟩
  · exact ⟨row, member, same⟩
  · exact sound.live row member

end Registered

/-! ## What the operations keep -/

section Rows

variable {tables : Tables} {m : Memory} {row : EntityRow}

theorem SoundOn.append_entity (sound : SoundOn T tables)
    (unused : ∀ other ∈ tables.entity, other.key ≠ row.key)
    (fresh : ∀ other ∈ tables.entity, other.fingerprint ≠ row.fingerprint)
    (unclaimed : T row.fingerprint → ∀ key, ¬ tables.Registered row.fingerprint key) :
    SoundOn T { tables with entity := tables.entity ++ [row] } where
  keys := by
    rw [Tables.keys, List.map_append, List.nodup_append]
    refine ⟨sound.keys, List.nodup_singleton row.key, fun a member b single => ?_⟩
    obtain ⟨other, among, rfl⟩ := List.mem_map.mp member
    exact List.mem_singleton.mp single ▸ unused other among
  owned := by
    rw [List.map_append, List.nodup_append]
    refine ⟨sound.owned, List.nodup_singleton row.fingerprint, fun a member b single => ?_⟩
    obtain ⟨other, among, rfl⟩ := List.mem_map.mp member
    exact List.mem_singleton.mp single ▸ fresh other among
  variants := sound.variants
  live variant member := by
    obtain ⟨owner, among, same⟩ := sound.live variant member
    exact ⟨owner, List.mem_append_left _ among, same⟩
  single fp kind key key' first second := by
    -- a fingerprint of the kind cannot be both old and that of the new row
    rcases registered_append_entity.mp first with first | ⟨rfl, rfl⟩
    · rcases registered_append_entity.mp second with second | ⟨rfl, rfl⟩
      · exact sound.single fp kind key key' first second
      · exact absurd first (unclaimed kind key)
    · rcases registered_append_entity.mp second with second | ⟨_, same⟩
      · exact absurd second (unclaimed kind key')
      · exact same

theorem CoherentOn.append_entity (coherent : CoherentOn T m tables) (sound : SoundOn T tables)
    (unused : ∀ other ∈ tables.entity, other.key ≠ row.key)
    (unclaimed : T row.fingerprint → ∀ key, ¬ tables.Registered row.fingerprint key) :
    CoherentOn T ⟨m.cache.set row.key ⟨row, Dict.empty⟩, m.fpIndex.set row.fingerprint row.key⟩
      { tables with entity := tables.entity ++ [row] } where
  rows key row' := by
    rw [Dict.get?_set, List.mem_append, List.mem_singleton]
    by_cases same : row.key = key
    · rw [if_pos same]
      constructor
      · rintro ⟨e, found, rfl⟩
        obtain rfl := Option.some.inj found
        exact ⟨.inr rfl, same⟩
      · rintro ⟨member | rfl, rfl⟩
        · exact absurd same.symm (unused row' member)
        · exact ⟨_, rfl, rfl⟩
    · rw [if_neg same, coherent.rows]
      refine and_congr_left fun here => (or_iff_left ?_).symm
      rintro rfl
      exact same here
  variants key e found fp kind surface := by
    rw [Dict.get?_set] at found
    by_cases same : row.key = key
    · rw [if_pos same] at found
      obtain rfl := Option.some.inj found
      -- the new entity has no variants, and no variant is of an entity that was not there
      refine ⟨fun found => absurd found (by simp), fun member => ?_⟩
      obtain ⟨owner, among, here⟩ := sound.live _ member
      exact absurd (here.trans same.symm) (unused owner among)
    · rw [if_neg same] at found
      exact coherent.variants key e found fp kind surface
  index fp kind key := by
    rw [Dict.get?_set, registered_append_entity]
    by_cases same : row.fingerprint = fp
    · subst same
      rw [if_pos rfl, Option.some_inj]
      refine ⟨fun here => .inr ⟨rfl, here⟩, ?_⟩
      rintro (registered | ⟨_, here⟩)
      · exact absurd registered (unclaimed kind key)
      · exact here
    · rw [if_neg same, coherent.index fp kind, or_iff_left fun here => same here.1]

theorem SoundOn.append_variant {row : VariantRow} (sound : SoundOn T tables)
    (fresh : ∀ other ∈ tables.variant, other.fingerprint ≠ row.fingerprint)
    (owner : ∃ owner ∈ tables.entity, owner.key = row.key)
    (free : T row.fingerprint → tables.Free row.fingerprint row.key) :
    SoundOn T { tables with variant := tables.variant ++ [row] } where
  keys := sound.keys
  owned := sound.owned
  variants := by
    rw [List.map_append, List.nodup_append]
    refine ⟨sound.variants, List.nodup_singleton row.fingerprint, fun a member b single => ?_⟩
    obtain ⟨other, among, rfl⟩ := List.mem_map.mp member
    exact List.mem_singleton.mp single ▸ fresh other among
  live variant member := by
    rcases List.mem_append.mp member with member | single
    · exact sound.live variant member
    · exact List.mem_singleton.mp single ▸ owner
  single fp kind key key' first second := by
    -- where both are new they are one row; where one is old, `free` says whose it is
    rcases registered_append_variant.mp first with first | ⟨rfl, rfl⟩
    · rcases registered_append_variant.mp second with second | ⟨rfl, rfl⟩
      · exact sound.single fp kind key key' first second
      · exact free kind key first
    · rcases registered_append_variant.mp second with second | ⟨_, same⟩
      · exact (free kind key' second).symm
      · exact same

/-- A variant that an entity gets in memory. If its fingerprint is of the kind, then the table gets
the same row and no entity has claimed the fingerprint before; of other kinds nothing is asked. -/
theorem CoherentOn.set_variant {tables' : Tables} {key : LabelKey} {e : Entity} {fp surface : Text}
    (coherent : CoherentOn T m tables) (found : m.cache.get? key = some e)
    (rows : tables'.entity = tables.entity)
    (others : ∀ row : VariantRow, row.fingerprint ≠ fp →
      (row ∈ tables'.variant ↔ row ∈ tables.variant))
    (written : T fp → ∀ row : VariantRow, row.fingerprint = fp →
      (row ∈ tables'.variant ↔ row = ⟨key.1, key.2, fp, surface⟩))
    (unclaimed : T fp → ∀ key', ¬ tables.Registered fp key') :
    CoherentOn T ⟨m.cache.set key ⟨e.toEntityRow, e.variants.set fp surface⟩, m.fpIndex.set fp key⟩
      tables' where
  rows key' row := by
    rw [Dict.get?_set, rows, ← coherent.rows]
    by_cases same : key = key'
    · subst same
      simp [found]
    · rw [if_neg same]
  variants key' e' found' fp' kind surface' := by
    rw [Dict.get?_set] at found'
    by_cases same : key = key'
    · subst same
      rw [if_pos rfl] at found'
      obtain rfl := Option.some.inj found'
      rw [Dict.get?_set]
      -- the entity itself: the new variant, or one that it had
      by_cases here : fp = fp'
      · subst here
        rw [if_pos rfl, written kind _ rfl, Option.some_inj, VariantRow.mk.injEq]
        exact ⟨fun same => ⟨rfl, rfl, rfl, same.symm⟩, fun same => same.2.2.2.symm⟩
      · rw [if_neg here, others _ fun same => here same.symm]
        exact coherent.variants key e found fp' kind surface'
    · rw [if_neg same] at found'
      rw [coherent.variants key' e' found' fp' kind surface']
      by_cases here : fp = fp'
      · subst here
        rw [written kind _ rfl, VariantRow.mk.injEq]
        constructor
        -- another entity cannot have the new fingerprint: nobody had it before
        · exact fun member => absurd (.inr ⟨_, member, rfl, rfl⟩) (unclaimed kind key')
        · exact fun eqs => absurd (Prod.ext eqs.1 eqs.2.1).symm same
      · exact (others _ fun same => here same.symm).symm
  index fp' kind key' := by
    rw [Dict.get?_set]
    by_cases here : fp = fp'
    · subst here
      rw [if_pos rfl, Option.some_inj]
      constructor
      · rintro rfl
        exact .inr ⟨⟨key.1, key.2, fp, surface⟩, (written kind _ rfl).mpr rfl, rfl, rfl⟩
      · rintro (⟨row, member, named, rfl⟩ | ⟨row, member, named, rfl⟩)
        · exact absurd (.inl ⟨row, rows ▸ member, named, rfl⟩) (unclaimed kind row.key)
        · rw [(written kind row named).mp member]
          rfl
    · rw [if_neg here, coherent.index fp' kind]
      refine or_congr (by rw [rows]) (exists_congr fun row => and_congr_left fun named => ?_)
      exact (others row fun same => here (same.symm.trans named.1)).symm

theorem SoundOn.update {f : EntityRow → EntityRow} {key : LabelKey} (sound : SoundOn T tables)
    (keeps : Keeps f) : SoundOn T (tables.update key f) where
  -- the update keeps keys and fingerprints, and that is all the tables are sound by
  keys := by
    rw [keys_update keeps]
    exact sound.keys
  owned := by
    have same : (tables.update key f).entity.map EntityRow.fingerprint =
        tables.entity.map EntityRow.fingerprint := by
      rw [Tables.update, List.map_map]
      exact List.map_congr_left fun row _ => keeps.if_fingerprint row
    exact same ▸ sound.owned
  variants := sound.variants
  live variant member := by
    obtain ⟨owner, among, same⟩ := sound.live variant member
    exact ⟨_, mem_update.mpr ⟨owner, among, rfl⟩, (keeps.if_key owner).trans same⟩
  single fp kind key key' first second :=
    sound.single fp kind key key' ((registered_update keeps).mp first)
      ((registered_update keeps).mp second)

/-- An entity of the memory is changed in the columns that no key or fingerprint depends on, and its
row is changed in the same way: both remain coherent. -/
theorem CoherentOn.update {f : EntityRow → EntityRow} {key : LabelKey} {e : Entity}
    (coherent : CoherentOn T m tables) (keeps : Keeps f) (found : m.cache.get? key = some e) :
    CoherentOn T { m with cache := m.cache.set key ⟨f e.toEntityRow, e.variants⟩ }
      (tables.update key f) where
  rows key' row' := by
    rw [Dict.get?_set, mem_update]
    by_cases same : key = key'
    · subst same
      rw [if_pos rfl]
      have here := (coherent.rows key e.toEntityRow).mp ⟨e, found, rfl⟩
      constructor
      · rintro ⟨e', found', rfl⟩
        obtain rfl := Option.some.inj found'
        exact ⟨⟨e.toEntityRow, here.1, if_pos here.2⟩, (keeps.key _).trans here.2⟩
      · rintro ⟨⟨row, member, rfl⟩, named⟩
        -- an update leaves the keys, so the row that it changes is the one of the entity
        rw [keeps.if_key] at named
        obtain ⟨e', found', rfl⟩ := (coherent.rows key row).mpr ⟨member, named⟩
        obtain rfl := Option.some.inj (found.symm.trans found')
        exact ⟨_, rfl, (if_pos named).symm⟩
    · rw [if_neg same, coherent.rows]
      constructor
      · rintro ⟨member, rfl⟩
        exact ⟨⟨row', member, if_neg fun here => same here.symm⟩, rfl⟩
      · rintro ⟨⟨row, member, rfl⟩, rfl⟩
        have other : row.key ≠ key := fun here => same (here.symm.trans (keeps.if_key row).symm)
        rw [if_neg other]
        exact ⟨member, rfl⟩
  variants key' e' found' fp kind surface := by
    rw [Dict.get?_set] at found'
    by_cases same : key = key'
    · subst same
      rw [if_pos rfl] at found'
      obtain rfl := Option.some.inj found'
      exact coherent.variants key e found fp kind surface
    · rw [if_neg same] at found'
      exact coherent.variants key' e' found' fp kind surface
  index fp kind key' := (coherent.index fp kind key').trans (registered_update keeps).symm

theorem SoundOn.filter {key : LabelKey} (sound : SoundOn T tables) :
    SoundOn T ⟨tables.entity.filter (·.key ≠ key), tables.variant.filter (·.key ≠ key)⟩ where
  keys := sound.keys.sublist (List.filter_sublist.map _)
  owned := sound.owned.sublist (List.filter_sublist.map _)
  variants := sound.variants.sublist (List.filter_sublist.map _)
  live variant member := by
    obtain ⟨member, other⟩ := List.mem_filter.mp member
    obtain ⟨owner, among, same⟩ := sound.live variant member
    exact ⟨owner, List.mem_filter.mpr ⟨among, same ▸ other⟩, same⟩
  single fp kind key key' first second :=
    sound.single fp kind key key' (registered_filter.mp first).1 (registered_filter.mp second).1

end Rows

section Operations

variable {st st' : VaultFile} {key : LabelKey}

/-- The state that adding an entity leads to: one row more with the next number of its category,
under a fingerprint that no entity had. -/
theorem addEntity_cases {category canonical fp : Text} {personMeta : PersonMeta} {origin : Origin}
    (added : st.addEntity order category canonical fp personMeta origin = some (key, st')) :
    ∃ row : EntityRow, row = ⟨category, st.tables.maxN category + 1, fp, canonical, personMeta, 0,
        false, origin⟩ ∧ key = row.key ∧ (∀ other ∈ st.tables.entity, other.fingerprint ≠ fp) ∧
      st' = ⟨{ st.tables with entity := st.tables.entity ++ [row] },
        some ⟨(st.memoryOf order).cache.set row.key ⟨row, Dict.empty⟩,
          (st.memoryOf order).fpIndex.set row.fingerprint row.key⟩⟩ := by
  rw [VaultFile.addEntity] at added
  split at added
  · cases added
  · next fresh =>
    obtain ⟨rfl, rfl⟩ := Prod.mk.inj (Option.some.inj added)
    refine ⟨_, rfl, rfl, fun other member same => fresh ?_, rfl⟩
    exact List.any_eq_true.mpr ⟨other, member, decide_eq_true same⟩

theorem GoodOn.addEntity {category canonical fp : Text} {personMeta : PersonMeta} {origin : Origin}
    (good : GoodOn T st)
    (added : st.addEntity order category canonical fp personMeta origin = some (key, st'))
    (unclaimed : T fp → ∀ key', ¬ st.tables.Registered fp key') : GoodOn T st' := by
  obtain ⟨row, shape, rfl, fresh, rfl⟩ := addEntity_cases added
  have named : row.fingerprint = fp := by rw [shape]
  have unused : ∀ other ∈ st.tables.entity, other.key ≠ row.key := fun other member => by
    rw [shape]
    exact ne_key_of_mem member
  subst named
  refine ⟨good.sound.append_entity unused fresh unclaimed, fun m found => ?_⟩
  obtain rfl := Option.some.inj found
  exact good.memoryOf.append_entity good.sound unused unclaimed

/-- What adding a variant does: nothing where the entity has the fingerprint, and otherwise
the table may have it of another entity already. -/
theorem addVariant_cases {e : Entity} (found : st.entityOf order key = some e)
    (fp surface : Text) :
    (fp = e.fingerprint ∨ (e.variants.get? fp).isSome) ∧ st.addVariant order key fp surface = st ∨
    (fp ≠ e.fingerprint ∧ e.variants.get? fp = none) ∧ st.addVariant order key fp surface =
      ⟨if st.tables.variant.any (·.fingerprint = fp) then st.tables
        else { st.tables with variant := st.tables.variant ++ [⟨key.1, key.2, fp, surface⟩] },
        some ⟨(st.memoryOf order).cache.set key ⟨e.toEntityRow, e.variants.set fp surface⟩,
          (st.memoryOf order).fpIndex.set fp key⟩⟩ := by
  simp only [VaultFile.addVariant, found]
  split
  · next has => exact .inl ⟨has, rfl⟩
  · next lacks =>
    obtain ⟨other, absent⟩ := not_or.mp lacks
    exact .inr ⟨⟨other, Option.not_isSome_iff_eq_none.mp absent⟩, rfl⟩

theorem addVariant_of_none (absent : st.entityOf order key = none) (fp surface : Text) :
    st.addVariant order key fp surface = st := by
  rw [VaultFile.addVariant, absent]

/-- A fingerprint of the kind that is free for an entity, and that the entity does not have itself,
is registered for nobody. -/
theorem GoodOn.unclaimed (good : GoodOn T st) {e : Entity} (found : st.entityOf order key = some e)
    {fp : Text} (kind : T fp) (other : fp ≠ e.fingerprint) (absent : e.variants.get? fp = none)
    (free : st.tables.Free fp key) (key' : LabelKey) : ¬ st.tables.Registered fp key' := by
  intro registered
  obtain rfl := free key' registered
  rcases registered with ⟨row, member, named, rfl⟩ | ⟨row, member, named, rfl⟩
  · have same := eq_of_nodup_map good.sound.keys member (good.row found).1 (good.row found).2.symm
    exact other (named.symm.trans (congrArg EntityRow.fingerprint same))
  · have has := (good.memoryOf.variants row.key e found fp kind row.value).mpr
      (named ▸ variantRow_eta row ▸ member)
    cases absent.symm.trans has

theorem GoodOn.addVariant (good : GoodOn T st) {fp : Text} (surface : Text)
    (free : T fp → st.tables.Free fp key) : GoodOn T (st.addVariant order key fp surface) := by
  cases found : st.entityOf order key with
  | none => rwa [addVariant_of_none found]
  | some e =>
    rcases addVariant_cases found fp surface with ⟨_, same⟩ | ⟨⟨other, absent⟩, same⟩
    · rwa [same]
    · have unclaimed (kind : T fp) := good.unclaimed found kind other absent (free kind)
      have owner : ∃ owner ∈ st.tables.entity, owner.key = key :=
        ⟨e.toEntityRow, good.row found⟩
      rw [same]
      by_cases taken : st.tables.variant.any (·.fingerprint = fp)
      · rw [if_pos taken]
        -- the table keeps the variant it has, so the fingerprint is not of the kind
        obtain ⟨row, member, named⟩ := List.any_eq_true.mp taken
        have never (kind : T fp) : False :=
          unclaimed kind row.key (.inr ⟨row, member, of_decide_eq_true named, rfl⟩)
        refine ⟨good.sound, fun m loaded => ?_⟩
        obtain rfl := Option.some.inj loaded
        exact good.memoryOf.set_variant found rfl (fun _ _ => Iff.rfl)
          (fun kind => (never kind).elim) unclaimed
      · rw [if_neg taken]
        have fresh : ∀ row ∈ st.tables.variant, row.fingerprint ≠ fp := fun row member named =>
          taken (List.any_eq_true.mpr ⟨row, member, decide_eq_true named⟩)
        refine ⟨good.sound.append_variant fresh owner free, fun m loaded => ?_⟩
        obtain rfl := Option.some.inj loaded
        refine good.memoryOf.set_variant found rfl (fun row named => ?_) (fun _ row named => ?_)
          unclaimed
        · rw [List.mem_append, List.mem_singleton, or_iff_left]
          rintro rfl
          exact named rfl
        · rw [List.mem_append, List.mem_singleton, or_iff_right]
          exact fun member => fresh row member named

theorem GoodOn.updateEntity (good : GoodOn T st) {f : EntityRow → EntityRow} (keeps : Keeps f) :
    GoodOn T (st.updateEntity order key f) := by
  rw [VaultFile.updateEntity]
  split
  · exact good
  · next e found =>
    refine ⟨good.sound.update keeps, fun m loaded => ?_⟩
    obtain rfl := Option.some.inj loaded
    exact good.memoryOf.update keeps found

theorem GoodOn.setCanonical (good : GoodOn T st) (value : Text) (personMeta : Option PersonMeta) :
    GoodOn T (st.setCanonical order key value personMeta) := by
  rw [VaultFile.setCanonical]
  split
  · exact good
  · exact good.updateEntity ⟨fun _ => rfl, fun _ => rfl⟩

theorem GoodOn.setExcluded (good : GoodOn T st) (excluded : Bool) :
    GoodOn T (st.setExcluded order key excluded) :=
  good.updateEntity ⟨fun _ => rfl, fun _ => rfl⟩

theorem GoodOn.bumpOne (good : GoodOn T st) (count : Nat) : GoodOn T (st.bumpOne key count) := by
  have keeps : Keeps fun row => { row with occurrences := row.occurrences + count } :=
    ⟨fun _ => rfl, fun _ => rfl⟩
  refine ⟨good.sound.update keeps, fun m loaded => ?_⟩
  obtain ⟨m, held, rfl⟩ := Option.map_eq_some_iff.mp loaded
  have coherent := good.coherent m held
  cases found : m.cache.get? key with
  | some e => exact coherent.update keeps found
  | none =>
    rw [VaultFile.bumpOne, update_of_absent]
    · exact coherent
    · rintro row member rfl
      obtain ⟨e, present, _⟩ := (coherent.rows row.key row).mpr ⟨member, rfl⟩
      cases found.symm.trans present

theorem GoodOn.bump (good : GoodOn T st) (counts : List (LabelKey × Nat)) :
    GoodOn T (st.bump counts) := by
  induction counts generalizing st with
  | nil => exact good
  | cons count counts ih => exact ih (good.bumpOne count.2)

theorem GoodOn.deleteEntity (good : GoodOn T st) (key : LabelKey) :
    GoodOn T (st.deleteEntity key) where
  sound := good.sound.filter
  coherent m loaded := by cases loaded

theorem GoodOn.lock (good : GoodOn T st) : GoodOn T st.lock where
  sound := good.sound
  coherent m loaded := by cases loaded

end Operations

end RedactGate.Desktop
