import RedactGate.Desktop.ConcurrentUnits

/-!
# Concurrent calls and labels

A call that finds no entity of a value registers the value for a new entity, or for a
person it finds among the entities. When another call has registered the value in
between, the unique index raises for a new entity, and an old one gets a value that is
another's already. As long as no call is overtaken so, every value has one entity, and
the copies of all calls have its label in the place of every mention of the value,
unless the entity is excluded.
-/
namespace RedactGate.Desktop

open Library

variable {ι Score : Type}

/-- The entity of the key is excluded. -/
def Tables.isExcluded (tables : Tables) (key : LabelKey) : Bool :=
  tables.entity.any fun row => row.key = key && row.excluded

/-- The spans that the detector found lie in the text in reading order, as merged spans do. -/
structure UnitCall.InOrder (call : UnitCall Score) : Prop where
  bounds : ∀ s ∈ call.spans, s.start < s.stop ∧ s.stop ≤ call.text.length
  apart : call.spans.Pairwise fun a b => a.stop ≤ b.start

namespace Anonymizer

variable (anon : Anonymizer)

/-- The fingerprints that values are looked up by. -/
def IsValueFp (fp : Text) : Prop := ∃ category value, fp = anon.valueFp category value

/-- A call is not overtaken at its next operation: a value that it registers is registered
for no other entity. -/
def NotOvertaken (s : UnitSystem ι Score) (turn : Turn ι Score) : Prop :=
  ∀ fp owner, anon.registers (s.calls turn.call) = some (fp, owner) → anon.IsValueFp fp →
    ∀ key, s.file.tables.Registered fp key → owner = some key

/-- What a call has to put in: the labels of its mentions, those of excluded entities left out. -/
def labels (tables : Tables) (call : UnitCall Score) : List Replacement :=
  (call.mentions.filter fun m => !tables.isExcluded m.key).map (call.replacement anon.casing)

/-- No call has failed, every value that a call has resolved has one entity, every span that the
detector found is resolved or still to come, and the copies have the labels of the entities in
the places of the mentions. -/
structure AgreesOnLabels (s : UnitSystem ι Score) : Prop where
  running : ∀ i, (s.calls i).stage ≠ .raised
  single : ∀ i, ∀ m ∈ (s.calls i).mentions, ∀ key, s.file.tables.Registered
    (anon.valueFp m.span.entityType ((s.calls i).surface m.span)) key ↔ key = m.key
  resolved : ∀ i, (s.calls i).mentions.map ResolvedMention.span ++ (s.calls i).todo =
    (s.calls i).spans
  labelled : ∀ i, (s.calls i).reps = anon.labels s.file.tables (s.calls i)
  copied : ∀ i, (s.calls i).InOrder → (s.calls i).output = Edit.patch (s.calls i).text 0
    ((anon.labels s.file.tables (s.calls i)).map Replacement.toEdit)

end Anonymizer

/-- Calls that begin on a project. -/
def startUnits (file : VaultFile) (units : ι → Text × Text) : UnitSystem ι Score :=
  ⟨file, fun i => .start (units i).1 (units i).2⟩

/-! ## What a call relies on -/

/-- The entity that a call has already found for the span at the head. -/
def UnitStage.found : UnitStage → Option LabelKey
  | .spell key | .setCanonical key _ _ | .keepOld key _ => some key
  | _ => none

/-- What a call has resolved so far, and the entity that it has found for its next span, is in the
tables, as is every person that it may link. -/
structure Grounded (anon : Anonymizer) (tables : Tables) (call : UnitCall Score) : Prop where
  running : call.stage ≠ .raised
  fresh : call.stage = .detect → call.mentions = []
  mentions : ∀ m ∈ call.mentions,
    tables.Registered (anon.valueFp m.span.entityType (call.surface m.span)) m.key
  found : ∀ span rest key, call.todo = span :: rest → call.stage.found = some key →
    tables.Registered (anon.valueFp span.entityType (call.surface span)) key
  candidate : ∀ key, call.stage = .link key → ∃ fp, tables.Registered fp key
  resolved : call.mentions.map ResolvedMention.span ++ call.todo = call.spans
  labelled : call.reps = anon.labels tables call

/-- Nothing that is registered gets lost, and no entity is excluded or no longer so. -/
structure Grows (tables tables' : Tables) : Prop where
  registered : ∀ fp key, tables.Registered fp key → tables'.Registered fp key
  excluded : ∀ key, tables'.isExcluded key = tables.isExcluded key

variable {anon : Anonymizer} {st st' : VaultFile} {call call' : UnitCall Score}
  {span : EntitySpan Score} {rest : List (EntitySpan Score)} {key : LabelKey}

theorem grows_refl (tables : Tables) : Grows tables tables :=
  ⟨fun _ _ registered => registered, fun _ => rfl⟩

theorem isExcluded_of_entity {tables tables' : Tables} (same : tables'.entity = tables.entity)
    (key : LabelKey) : tables'.isExcluded key = tables.isExcluded key := by
  rw [Tables.isExcluded, same, Tables.isExcluded]

theorem isExcluded_update {tables : Tables} {f : EntityRow → EntityRow} (keeps : Keeps f)
    (same : ∀ row, (f row).excluded = row.excluded) (changed key : LabelKey) :
    (tables.update changed f).isExcluded key = tables.isExcluded key := by
  rw [Tables.isExcluded, Tables.update, List.any_map, Tables.isExcluded]
  refine congrArg (List.any tables.entity) (funext fun row => ?_)
  rw [Function.comp_apply]
  split
  · rw [same, keeps.key]
  · rfl

theorem isExcluded_setCanonical (order : RowOrder) (st : VaultFile) (changed : LabelKey)
    (value : Text) (personMeta : Option PersonMeta) (key : LabelKey) :
    (st.setCanonical order changed value personMeta).tables.isExcluded key =
      st.tables.isExcluded key := by
  rw [VaultFile.setCanonical]
  split
  · rfl
  · next e _ =>
    rw [VaultFile.updateEntity]
    split
    · rfl
    · have keeps : Keeps fun row : EntityRow =>
          { row with value := value, personMeta := personMeta.getD e.personMeta } :=
        ⟨fun _ => rfl, fun _ => rfl⟩
      exact isExcluded_update keeps (fun _ => rfl) changed key

/-- A new entity is not excluded. -/
theorem isExcluded_append {tables : Tables} {row : EntityRow} (open_ : row.excluded = false)
    (key : LabelKey) : ({ tables with entity := tables.entity ++ [row] } : Tables).isExcluded key =
      tables.isExcluded key := by
  rw [Tables.isExcluded, List.any_append, List.any_cons, List.any_nil, open_, Bool.and_false,
    Bool.or_false, Bool.or_false, Tables.isExcluded]

/-- Where memory and tables are coherent, what the memory says of an entity's exclusion is what its
row says. -/
theorem any_entityOf {T : Text → Prop} {order : RowOrder} (good : GoodOn T st) (key : LabelKey) :
    (st.entityOf order key).any (·.excluded) = st.tables.isExcluded key := by
  -- what is in memory has the rows of the table, and no two rows share a key
  cases found : st.entityOf order key with
  | none =>
    symm
    refine List.any_eq_false.mpr fun row member here => ?_
    obtain ⟨same, _⟩ := (Bool.and_eq_true _ _).mp here
    obtain ⟨e, present, _⟩ : ∃ e, st.entityOf order row.key = some e ∧ e.toEntityRow = row :=
      good.entityOf_of_mem member
    rw [of_decide_eq_true same, found] at present
    cases present
  | some e =>
    obtain ⟨member, same⟩ := good.row found
    rw [Option.any_some]
    cases value : e.excluded with
    | true =>
      symm
      exact List.any_eq_true.mpr ⟨e.toEntityRow, member, by
        rw [decide_eq_true same, Bool.true_and, value]⟩
    | false =>
      symm
      refine List.any_eq_false.mpr fun row there here => ?_
      obtain ⟨same', excluded⟩ := (Bool.and_eq_true _ _).mp here
      obtain rfl : row = e.toEntityRow := eq_of_nodup_map good.sound.keys there member
        ((of_decide_eq_true same').trans same.symm)
      rw [value] at excluded
      cases excluded

theorem grows_addVariant (order : RowOrder) (st : VaultFile) (key : LabelKey) (fp surface : Text) :
    Grows st.tables (st.addVariant order key fp surface).tables :=
  ⟨fun _ _ registered => registered.addVariant, isExcluded_of_entity entity_addVariant⟩

theorem Grounded.start (anon : Anonymizer) (tables : Tables) (text lang : Text) :
    Grounded anon tables (UnitCall.start text lang : UnitCall Score) where
  running := UnitStage.noConfusion
  fresh _ := rfl
  mentions _ member := absurd member List.not_mem_nil
  found _ _ _ none := by cases none
  candidate _ linking := UnitStage.noConfusion linking
  resolved := rfl
  labelled := rfl

theorem labels_congr {tables tables' : Tables} (grows : Grows tables tables') :
    anon.labels tables' call = anon.labels tables call := by
  rw [Anonymizer.labels, Anonymizer.labels]
  simp only [grows.excluded]

theorem Grounded.mono {tables tables' : Tables} (grounded : Grounded anon tables call)
    (grows : Grows tables tables') : Grounded anon tables' call where
  running := grounded.running
  fresh := grounded.fresh
  mentions m member := grows.registered _ _ (grounded.mentions m member)
  found span rest key todo stage := grows.registered _ _ (grounded.found span rest key todo stage)
  candidate key linking := by
    obtain ⟨fp, registered⟩ := grounded.candidate key linking
    exact ⟨fp, grows.registered _ _ registered⟩
  resolved := grounded.resolved
  labelled := grounded.labelled.trans (labels_congr grows).symm

/-- A call may go on to a stage for which it has found what the stage needs: a registered value, or
some fingerprint of the candidate to be linked. -/
theorem Grounded.goOn {tables : Tables} (grounded : Grounded anon tables call) {stage : UnitStage}
    (todo : call.todo = span :: rest) (running : stage ≠ .raised) (further : stage ≠ .detect)
    (found : ∀ key, stage.found = some key →
      tables.Registered (anon.valueFp span.entityType (call.surface span)) key)
    (candidate : ∀ key, stage = .link key → ∃ fp, tables.Registered fp key) :
    Grounded anon tables { call with stage := stage } where
  running := running
  fresh back := absurd back further
  mentions := grounded.mentions
  found span' rest' key todo' here := by
    obtain ⟨rfl, _⟩ := List.cons.inj (todo.symm.trans todo')
    exact found key here
  candidate := candidate
  resolved := grounded.resolved
  labelled := grounded.labelled

/-- A loop body may end when the value of its span is registered for the entity: the mention that is
noted down can be found again by its value. -/
theorem Grounded.finish (good : GoodOn anon.IsValueFp st) (grounded : Grounded anon st.tables call)
    (todo : call.todo = span :: rest)
    (registered : st.tables.Registered (anon.valueFp span.entityType (call.surface span)) key) :
    Grounded anon st.tables (anon.finish st call span key) where
  running := UnitStage.noConfusion
  fresh := UnitStage.noConfusion
  mentions m member := by
    rcases List.mem_append.mp member with old | new
    · exact grounded.mentions m old
    · rw [List.mem_singleton.mp new]
      exact registered
  found _ _ _ _ none := by cases none
  candidate _ linking := UnitStage.noConfusion linking
  resolved := by
    have before := grounded.resolved
    rw [todo] at before
    simp only [Anonymizer.finish, todo, List.map_append, List.map_singleton, List.tail_cons,
      List.append_assoc, List.singleton_append, before]
  labelled := by
    have before := grounded.labelled
    simp only [Anonymizer.labels] at before
    simp only [Anonymizer.finish, Anonymizer.labels, any_entityOf good, before,
      List.filter_append, List.map_append]
    -- an excluded entity makes a mention and no replacement
    cases excluded : st.tables.isExcluded key with
    | true => simp [excluded, UnitCall.replacement, UnitCall.surface]
    | false => simp [excluded, UnitCall.replacement, UnitCall.surface]

/-! ## One operation -/

/-- The condition on the next operation of a call. -/
def Anonymizer.Clears (anon : Anonymizer) (tables : Tables) (call : UnitCall Score) : Prop :=
  ∀ fp owner, anon.registers call = some (fp, owner) → anon.IsValueFp fp →
    ∀ key, tables.Registered fp key → owner = some key

theorem isValueFp (anon : Anonymizer) (category value : Text) :
    anon.IsValueFp (anon.valueFp category value) := ⟨category, value, rfl⟩

/-- What an operation keeps: memory and tables stay coherent, the call stays grounded, and what was
registered stays so. -/
structure Keeping (anon : Anonymizer) (st st' : VaultFile) (call' : UnitCall Score) : Prop where
  good : GoodOn anon.IsValueFp st'
  grounded : Grounded anon st'.tables call'
  grows : Grows st.tables st'.tables

/-- A call that is not overtaken registers a fingerprint for an entity, and what it has found by
then remains found. -/
theorem keeping_addVariant (good : GoodOn anon.IsValueFp st)
    (grounded : Grounded anon st.tables call) (clears : anon.Clears st.tables call)
    {fp : Text} (surface : Text) (here : anon.registers call = some (fp, some key)) :
    Keeping anon st (st.addVariant anon.order key fp surface) call where
  good := good.addVariant surface fun kind key' registered =>
    (Option.some.inj (clears fp _ here kind key' registered)).symm
  grounded := grounded.mono (grows_addVariant _ _ _ _ _)
  grows := grows_addVariant _ _ _ _ _

/-- The end of a loop body keeps what the operation before it keeps. -/
theorem Keeping.finish (keeping : Keeping anon st st' call) (todo : call.todo = span :: rest)
    (registered : st'.tables.Registered (anon.valueFp span.entityType (call.surface span)) key) :
    Keeping anon st st' (anon.finish st' call span key) where
  good := keeping.good
  grounded := keeping.grounded.finish keeping.good todo registered
  grows := keeping.grows

theorem Keeping.goOn (keeping : Keeping anon st st' call) {stage : UnitStage}
    (todo : call.todo = span :: rest) (running : stage ≠ .raised) (further : stage ≠ .detect)
    (found : ∀ key, stage.found = some key →
      st'.tables.Registered (anon.valueFp span.entityType (call.surface span)) key)
    (candidate : ∀ key, stage = .link key → ∃ fp, st'.tables.Registered fp key) :
    Keeping anon st st' { call with stage := stage } where
  good := keeping.good
  grounded := keeping.grounded.goOn todo running further found candidate
  grows := keeping.grows

/-- A stage that stands for nothing found. -/
theorem Keeping.goOn_plain (keeping : Keeping anon st st' call) {stage : UnitStage}
    (todo : call.todo = span :: rest) (running : stage ≠ .raised) (further : stage ≠ .detect)
    (plain : stage.found = none) (other : ∀ key, stage ≠ .link key) :
    Keeping anon st st' { call with stage := stage } := by
  refine keeping.goOn todo running further (fun key here => ?_) fun key here =>
    absurd here (other key)
  cases plain.symm.trans here

/-- A value that is registered for none gets a new entity and is then registered for it. What was
registered before remains so, and the call stays grounded. -/
theorem keeping_addEntity (good : GoodOn anon.IsValueFp st)
    (grounded : Grounded anon st.tables call) {category value : Text} {personMeta : PersonMeta}
    (unclaimed : ∀ key, ¬ st.tables.Registered (anon.valueFp category value) key) :
    ∃ key st', st.addEntity anon.order category value (anon.valueFp category value) personMeta
        .auto = some (key, st') ∧ Keeping anon st st' call ∧
      st'.tables.Registered (anon.valueFp category value) key := by
  have fresh : ¬ st.tables.entity.any (·.fingerprint = anon.valueFp category value) := by
    intro taken
    obtain ⟨row, member, named⟩ := List.any_eq_true.mp taken
    exact unclaimed row.key (.inl ⟨row, member, of_decide_eq_true named, rfl⟩)
  obtain ⟨⟨key, st'⟩, added⟩ : ∃ added, st.addEntity anon.order category value
      (anon.valueFp category value) personMeta .auto = some added := by
    rw [VaultFile.addEntity, if_neg fresh]
    exact ⟨_, rfl⟩
  refine ⟨key, st', added, ?_⟩
  have good' := good.addEntity added fun _ => unclaimed
  obtain ⟨row, shape, rfl, _, rfl⟩ := addEntity_cases added
  have grows : Grows st.tables { st.tables with entity := st.tables.entity ++ [row] } :=
    ⟨fun fp key registered => registered_append_entity.mpr (.inl registered),
      isExcluded_append (by rw [shape])⟩
  refine ⟨⟨good', grounded.mono grows, grows⟩, registered_append_entity.mpr (.inr ⟨?_, rfl⟩)⟩
  rw [shape]

/-- Loading the project first changes nothing that is registered. -/
theorem Keeping.of_load (keeping : Keeping anon (st.load anon.order) st' call) :
    Keeping anon st st' call := ⟨keeping.good, keeping.grounded, keeping.grows⟩

section Stages

variable (good : GoodOn anon.IsValueFp st) (grounded : Grounded anon st.tables call)
  (todo : call.todo = span :: rest) (taken : anon.resolveStep st call span = some (st', call'))

include good grounded in
theorem keeping_load : Keeping anon st (st.load anon.order) call :=
  ⟨good.load, grounded, grows_refl _⟩

include good grounded todo taken

theorem keeping_byFingerprint (stage : call.stage = .byFingerprint) :
    Keeping anon st st' call' := by
  have loaded := keeping_load good grounded
  simp only [Anonymizer.resolveStep, stage] at taken
  split at taken
  next e found =>
    have known := loaded.good.registered_of_byFingerprint (isValueFp anon _ _) found
    split at taken
    · obtain ⟨rfl, rfl⟩ := Prod.mk.inj (Option.some.inj taken)
      exact loaded.finish todo known
    · obtain ⟨rfl, rfl⟩ := Prod.mk.inj (Option.some.inj taken)
      refine loaded.goOn todo UnitStage.noConfusion UnitStage.noConfusion
        (fun key here => ?_) fun _ linking => nomatch linking
      exact Option.some.inj here ▸ known
  next =>
    split at taken
    · obtain ⟨rfl, rfl⟩ := Prod.mk.inj (Option.some.inj taken)
      exact loaded.goOn_plain todo UnitStage.noConfusion UnitStage.noConfusion rfl
        fun _ => UnitStage.noConfusion
    · obtain ⟨rfl, rfl⟩ := Prod.mk.inj (Option.some.inj taken)
      exact loaded.goOn_plain todo UnitStage.noConfusion UnitStage.noConfusion rfl
        fun _ => UnitStage.noConfusion

theorem keeping_entities (stage : call.stage = .entities) : Keeping anon st st' call' := by
  have loaded := keeping_load good grounded
  simp only [Anonymizer.resolveStep, stage] at taken
  split at taken
  next e found =>
    obtain ⟨rfl, rfl⟩ := Prod.mk.inj (Option.some.inj taken)
    refine loaded.goOn todo UnitStage.noConfusion UnitStage.noConfusion
      (fun _ none => nomatch none) fun key linking => ?_
    obtain rfl := UnitStage.link.inj linking
    have live := loaded.good.mem_entities.mp (aliasOf_category found).1
    have row := loaded.good.row live
    exact ⟨e.fingerprint, .inl ⟨e.toEntityRow, row.1, rfl, row.2⟩⟩
  next =>
    obtain ⟨rfl, rfl⟩ := Prod.mk.inj (Option.some.inj taken)
    exact loaded.goOn_plain todo UnitStage.noConfusion UnitStage.noConfusion rfl
      fun _ => UnitStage.noConfusion

theorem keeping_setCanonical {key : LabelKey} {old : Text} {merged : PersonMeta}
    (stage : call.stage = .setCanonical key old merged) : Keeping anon st st' call' := by
  simp only [Anonymizer.resolveStep, stage] at taken
  obtain ⟨rfl, rfl⟩ := Prod.mk.inj (Option.some.inj taken)
  have known := grounded.found span rest key todo (by rw [stage]; rfl)
  have grows : Grows st.tables ((st.load anon.order).setCanonical anon.order key
      (call.surface span) (some merged)).tables :=
    ⟨fun fp key registered => registered_setCanonical.mpr registered,
      isExcluded_setCanonical _ _ _ _ _⟩
  have renamed : Keeping anon st ((st.load anon.order).setCanonical anon.order key
      (call.surface span) (some merged)) call :=
    ⟨good.load.setCanonical _ _, grounded.mono grows, grows⟩
  refine renamed.goOn todo UnitStage.noConfusion UnitStage.noConfusion
    (fun key here => ?_) fun _ linking => nomatch linking
  exact Option.some.inj here ▸ grows.registered _ _ known

variable (clears : anon.Clears (st.load anon.order).tables call)

include clears

theorem keeping_spell {key : LabelKey} (stage : call.stage = .spell key) :
    Keeping anon st st' call' := by
  have here : anon.registers call =
      some (anon.surfaceFp span.entityType (call.surface span), some key) := by
    simp only [Anonymizer.registers, todo, stage, List.head?_cons, Option.bind_some]
  have known := grounded.found span rest key todo (by rw [stage]; rfl)
  have spelled := keeping_addVariant good.load grounded clears (call.surface span) here
  simp only [Anonymizer.resolveStep, stage] at taken
  obtain ⟨rfl, rfl⟩ := Prod.mk.inj (Option.some.inj taken)
  exact spelled.of_load.finish todo (spelled.grows.registered _ _ known)

theorem keeping_keepOld {key : LabelKey} {old : Text} (stage : call.stage = .keepOld key old) :
    Keeping anon st st' call' := by
  have here : anon.registers call = some (anon.surfaceFp span.entityType old, some key) := by
    simp only [Anonymizer.registers, todo, stage, List.head?_cons, Option.bind_some]
  have known := grounded.found span rest key todo (by rw [stage]; rfl)
  have kept := keeping_addVariant good.load grounded clears old here
  simp only [Anonymizer.resolveStep, stage] at taken
  obtain ⟨rfl, rfl⟩ := Prod.mk.inj (Option.some.inj taken)
  exact kept.of_load.finish todo (kept.grows.registered _ _ known)

/-- The operation that adds an entity: the value is registered for no entity, as the call is not
overtaken, and so the unique index does not raise. -/
theorem keeping_new (stage : call.stage = .addEntity) : Keeping anon st st' call' := by
  have here : anon.registers call =
      some (anon.valueFp span.entityType (call.surface span), none) := by
    simp only [Anonymizer.registers, todo, stage, List.head?_cons, Option.bind_some]
  have unclaimed (key : LabelKey) : ¬ (st.load anon.order).tables.Registered
      (anon.valueFp span.entityType (call.surface span)) key := fun registered => by
    cases clears _ _ here (isValueFp anon _ _) key registered
  simp only [Anonymizer.resolveStep, stage] at taken
  obtain ⟨key, added, same, kept, registered⟩ := keeping_addEntity good.load grounded unclaimed
  rw [same] at taken
  obtain ⟨rfl, rfl⟩ := Prod.mk.inj (Option.some.inj taken)
  exact kept.of_load.finish todo registered

/-- The operation that links a person registers the value for the candidate. No other entity has it,
as the call is not overtaken, and the call has found what it needs to go on. -/
theorem keeping_link {key : LabelKey} (stage : call.stage = .link key) :
    Keeping anon st st' call' := by
  have here : anon.registers call =
      some (anon.valueFp span.entityType (call.surface span), some key) := by
    simp only [Anonymizer.registers, todo, stage, List.head?_cons, Option.bind_some]
  have linked := keeping_addVariant good.load grounded clears (call.surface span) here
  obtain ⟨fp, registered⟩ := grounded.candidate key stage
  obtain ⟨row, member, rfl⟩ := good.sound.owner registered
  obtain ⟨e, present, _⟩ : ∃ e, (st.load anon.order).entityOf anon.order row.key = some e ∧
      e.toEntityRow = row := good.load.entityOf_of_mem member
  have known := good.load.registered_of_addVariant (isValueFp anon _ _) present (call.surface span)
    fun key' taken => (Option.some.inj (clears _ _ here (isValueFp anon _ _) key' taken)).symm
  simp only [Anonymizer.resolveStep, stage] at taken
  split at taken
  next e prefers =>
    obtain ⟨rfl, rfl⟩ := Prod.mk.inj (Option.some.inj taken)
    refine linked.of_load.goOn todo UnitStage.noConfusion UnitStage.noConfusion
      (fun key here => ?_) fun _ linking => nomatch linking
    exact Option.some.inj here ▸ known
  next =>
    obtain ⟨rfl, rfl⟩ := Prod.mk.inj (Option.some.inj taken)
    exact linked.of_load.finish todo known

/-- What an operation in `_resolve` keeps if the call is not overtaken, one case for each of its
stages. -/
theorem resolveStep_keeping : Keeping anon st st' call' := by
  cases stage : call.stage with
  | detect =>
    simp only [Anonymizer.resolveStep, stage] at taken
    cases taken
  | byFingerprint => exact keeping_byFingerprint good grounded todo taken stage
  | spell key => exact keeping_spell good grounded todo taken clears stage
  | entities => exact keeping_entities good grounded todo taken stage
  | addEntity => exact keeping_new good grounded todo taken clears stage
  | link key => exact keeping_link good grounded todo taken clears stage
  | setCanonical key old merged => exact keeping_setCanonical good grounded todo taken stage
  | keepOld key old => exact keeping_keepOld good grounded todo taken clears stage
  | raised => exact absurd stage grounded.running

end Stages

/-- What the next operation of a call keeps, one case for each stage, if no other call has
registered the value or changed the exclusion in the meantime. -/
theorem operate_keeping (good : GoodOn anon.IsValueFp st) (grounded : Grounded anon st.tables call)
    (clears : anon.Clears st.tables call) {spans : List (EntitySpan Score)}
    (taken : anon.operate st call spans = some (st', call')) : Keeping anon st st' call' := by
  rw [Anonymizer.operate] at taken
  split at taken
  next detecting =>
    obtain ⟨rfl, rfl⟩ := Prod.mk.inj (Option.some.inj taken)
    refine ⟨good.load, ?_, grows_refl _⟩
    exact { running := UnitStage.noConfusion
            fresh := UnitStage.noConfusion
            mentions := grounded.mentions
            found := fun _ _ _ _ none => nomatch none
            candidate := fun _ linking => nomatch linking
            resolved := by simp only [grounded.fresh detecting, List.map_nil, List.nil_append]
            labelled := grounded.labelled }
  next =>
    split at taken
    next => cases taken
    next span rest todo => exact resolveStep_keeping good grounded todo taken clears

/-! ## Runs -/

/-- The tables are sound for the values, and every call has in them what it relies on. -/
structure AllGrounded (anon : Anonymizer) (s : UnitSystem ι Score) : Prop where
  good : GoodOn anon.IsValueFp s.file
  grounded : ∀ i, Grounded anon s.file.tables (s.calls i)

theorem AllGrounded.start {file : VaultFile} (good : GoodOn anon.IsValueFp file)
    (units : ι → Text × Text) : AllGrounded anon (startUnits file units : UnitSystem ι Score) where
  good := good
  grounded i := .start anon file.tables (units i).1 (units i).2

theorem AllGrounded.step [DecidableEq ι] {s s' : UnitSystem ι Score} {turn : Turn ι Score}
    (all : AllGrounded anon s) (allowed : anon.NotOvertaken s turn)
    (taken : anon.unitStep s turn = some s') : AllGrounded anon s' := by
  obtain ⟨⟨file, call⟩, operated, rfl⟩ := Option.map_eq_some_iff.mp taken
  have keeping := operate_keeping all.good (all.grounded turn.call) allowed operated
  refine ⟨keeping.good, fun j => ?_⟩
  by_cases own : j = turn.call
  · subst own
    simpa only [Function.update_self] using keeping.grounded
  · simpa only [Function.update_of_ne own] using (all.grounded j).mono keeping.grows

/-- The labels of a call stand in its text one after the other, as the mentions do: they are the
reported spans in their order, without the excluded ones. -/
theorem Grounded.placed {tables : Tables} (grounded : Grounded anon tables call)
    (order : call.InOrder) :
    Placed call.text ((anon.labels tables call).map Replacement.toEdit) := by
  have part : (call.mentions.map ResolvedMention.span).Sublist call.spans :=
    grounded.resolved ▸ List.sublist_append_left _ _
  have inside : ∀ e ∈ (anon.labels tables call).map Replacement.toEdit,
      e.start < e.stop ∧ e.stop ≤ call.text.length := by
    intro e member
    rw [Anonymizer.labels, List.map_map, List.mem_map] at member
    obtain ⟨m, among, rfl⟩ := member
    exact order.bounds m.span
      (part.subset (List.mem_map_of_mem (List.mem_filter.mp among).1))
  refine ⟨Edit.ordered_of_pairwise (fun e member => ?_) ?_ (Nat.zero_le _), fun e member =>
    (inside e member).1⟩
  · have here := inside e member
    omega
  · rw [Anonymizer.labels, List.map_map, List.pairwise_map]
    exact ((List.pairwise_map.mp (order.apart.sublist part)).filter _).imp fun apart => apart

theorem AllGrounded.agrees {s : UnitSystem ι Score} (all : AllGrounded anon s) :
    anon.AgreesOnLabels s where
  running i := (all.grounded i).running
  single i m member key := by
    have registered := (all.grounded i).mentions m member
    refine ⟨fun other => ?_, fun same => same ▸ registered⟩
    exact all.good.sound.single _ (isValueFp anon _ _) key m.key other registered
  resolved i := (all.grounded i).resolved
  labelled i := (all.grounded i).labelled
  copied i order := by
    have placed := (all.grounded i).placed order
    rw [UnitCall.output, (all.grounded i).labelled, insertionSort_of_placed placed]
    exact applyReplacements_eq placed

/-- In every run of concurrent calls on a project in which no call is overtaken, the calls agree on
labels: for one value all of them put one label into their copies. There may be any number of calls,
and their operations may interleave in any order. A call is overtaken if a value that it registers
is registered for another entity by then. -/
theorem concurrent_units_agree [DecidableEq ι] (anon : Anonymizer) {file : VaultFile}
    (project : ReachesBy (anon.ClearOn anon.IsValueFp) anon.step VaultFile.new file)
    (units : ι → Text × Text) {s : UnitSystem ι Score}
    (run : ReachesBy anon.NotOvertaken anon.unitStep (startUnits file units) s) :
    anon.AgreesOnLabels s := by
  have good : GoodOn anon.IsValueFp file :=
    project.invariant goodOn_new fun _ _ _ good clear taken => good.step clear taken
  have all : AllGrounded anon s :=
    run.invariant (AllGrounded.start good units) fun _ _ _ all allowed taken =>
      all.step allowed taken
  exact all.agrees

/-! ## Two calls -/

/-- What the detector finds in a text that is the name of an organisation. -/
def nameOnly : List (EntitySpan Nat) :=
  [⟨0, 5, organisation, "Alpha".toList, 1, .presidio, none⟩]

def twoUnits : UnitSystem Bool Nat := startUnits VaultFile.new fun _ => ("Alpha".toList, "en".toList)

/-- The turns of the calls, where the detector finds the name whenever it looks. -/
def turns (calls : List Bool) : List (Turn Bool Nat) := calls.map fun call => ⟨call, nameOnly⟩

/-- What a call registers at its next operation is nowhere in the tables, neither as an entity's nor
as a variant's. -/
def RegistersNew (anon : Anonymizer) (s : UnitSystem ι Score) (turn : Turn ι Score) : Prop :=
  ∀ p ∈ (anon.registers (s.calls turn.call)).toList,
    (∀ row ∈ s.file.tables.entity, row.fingerprint ≠ p.1) ∧
      ∀ row ∈ s.file.tables.variant, row.fingerprint ≠ p.1

instance (anon : Anonymizer) (s : UnitSystem ι Score) (turn : Turn ι Score) :
    Decidable (RegistersNew anon s turn) := inferInstanceAs (Decidable (∀ p ∈ _, _ ∧ _))

theorem notOvertaken_of_registersNew {anon : Anonymizer} {s : UnitSystem ι Score}
    {turn : Turn ι Score} (fresh : RegistersNew anon s turn) : anon.NotOvertaken s turn := by
  intro fp owner here _ key registered
  obtain ⟨rows, variants⟩ := fresh (fp, owner) (Option.mem_toList.mpr here)
  rcases registered with ⟨row, member, named, _⟩ | ⟨row, member, named, _⟩
  · exact absurd named (rows row member)
  · exact absurd named (variants row member)

/-- Two calls on one name, one after the other: the second one finds the entity of the first, and
both texts get its label. -/
theorem concurrent_units_agree_serial : ∃ s, runSteps sampleAnonymizer.unitStep twoUnits
    (turns [false, false, false, true, true]) = some s ∧
    (∀ i, (s.calls i).output = "Company-1".toList) ∧ sampleAnonymizer.AgreesOnLabels s := by
  have ends : (runAllowed (RegistersNew sampleAnonymizer) sampleAnonymizer.unitStep twoUnits
      (turns [false, false, false, true, true])).any (fun s =>
        decide (∀ i, (s.calls i).output = "Company-1".toList)) = true := by decide
  obtain ⟨s, run, outputs⟩ := (Option.any_eq_true _ _).mp ends
  refine ⟨s, ?_, of_decide_eq_true outputs, concurrent_units_agree sampleAnonymizer .refl _
    ((reachesBy_of_runAllowed run).imp fun _ _ => notOvertaken_of_registersNew)⟩
  exact runSteps_of_runAllowed run

/-- Both calls look the name up before either registers it. The first one adds an entity, and the
second one raises on the unique index. -/
theorem concurrent_units_overtaken : ∃ s, runSteps sampleAnonymizer.unitStep twoUnits
    (turns [false, true, false, true, false, true]) = some s ∧
    (s.calls true).stage = .raised ∧ ¬ sampleAnonymizer.AgreesOnLabels s := by
  have ends : (runSteps sampleAnonymizer.unitStep twoUnits
      (turns [false, true, false, true, false, true])).any (fun s =>
        decide ((s.calls true).stage = .raised)) = true := by decide
  obtain ⟨s, run, raised⟩ := (Option.any_eq_true _ _).mp ends
  have raised := of_decide_eq_true raised
  exact ⟨s, run, raised, fun agrees => agrees.running true raised⟩

end RedactGate.Desktop
