import RedactGate.Desktop.ProjectRuns

/-!
# The dictionary is never stale

The detector keeps its dictionary as long as the number of entities and spellings is the same.
Whatever changes them makes it drop the dictionary, but for a new spelling of a known value,
which makes the number larger; and numbers do not go back while the dictionary is kept.
-/
namespace RedactGate.Desktop

open Library

/-- What an entity gives to the dictionary, and the label by which it has its place there. -/
def Entity.shape (e : Entity) : LabelKey × List Text := (e.key, e.surfaces)

/-- The version that a dictionary of the entities has. -/
def dictionaryVersion (ents : List Entity) : Nat :=
  (ents.map fun e => 1 + e.variants.entries.length).sum * 7 + ents.length

theorem length_surfaces (e : Entity) : e.surfaces.length = 1 + e.variants.entries.length := by
  rw [Entity.surfaces, List.length_cons, List.length_map, Nat.add_comm]

/-- The version counts the surfaces. -/
theorem dictionaryVersion_eq (ents : List Entity) : dictionaryVersion ents =
    ((ents.map Entity.shape).map fun s => s.2.length).sum * 7 + (ents.map Entity.shape).length := by
  rw [dictionaryVersion, List.map_map, List.length_map]
  have counts : ents.map (fun e => 1 + e.variants.entries.length) =
      ents.map ((fun s => s.2.length) ∘ Entity.shape) :=
    List.map_congr_left fun e _ => (length_surfaces e).symm
  rw [counts]

theorem surfaceTable_congr {casing : Casing} {ents ents' : List Entity}
    (same : ents.map Entity.shape = ents'.map Entity.shape) :
    surfaceTable casing ents = surfaceTable casing ents' := by
  have listed (ents : List Entity) : (ents.flatMap fun e => e.surfaces.map fun s =>
      (Text.strip casing.toUnicode s, e.category)) =
      (ents.map Entity.shape).flatMap fun s => s.2.map fun surface =>
        (Text.strip casing.toUnicode surface, s.1.1) := by
    rw [List.flatMap_map]
    rfl
  rw [surfaceTable, surfaceTable, listed, listed, same]

/-! ## The entities in memory -/

/-- By category and number. -/
def Entity.before (a b : Entity) : Prop :=
  a.category < b.category ∨ a.category = b.category ∧ a.n ≤ b.n

instance : DecidableRel Entity.before := fun _ _ => inferInstanceAs (Decidable (_ ∨ _))

variable {order : RowOrder} {st : VaultFile}

/-- A change of an entity in memory that its shape does not show leaves the shapes of all entities
as they are. -/
theorem map_shape_entities {m : Memory} {key : LabelKey} {e e' : Entity}
    (found : m.cache.get? key = some e) (same : e'.shape = e.shape) (tables tables' : Tables)
    (index : Dict Text LabelKey) :
    (VaultFile.entities order ⟨tables', some ⟨m.cache.set key e', index⟩⟩).map Entity.shape =
      (VaultFile.entities order ⟨tables, some m⟩).map Entity.shape := by
  obtain ⟨front, back, entries, after⟩ := Dict.entries_set_of_known found e'
  have sorted (ents : List Entity) : (ents.insertionSort Entity.before).map Entity.shape =
      (ents.map Entity.shape).insertionSort fun a b =>
        a.1.1 < b.1.1 ∨ a.1.1 = b.1.1 ∧ a.1.2 ≤ b.1.2 :=
    List.map_insertionSort _ _ _ _ fun _ _ _ _ => Iff.rfl
  refine (sorted _).trans (Eq.trans ?_ (sorted _).symm)
  simp only [VaultFile.memoryOf, Option.getD_some, entries, after, List.map_append, List.map_cons,
    same]

/-- Counting the labels of a document changes nothing that the dictionary is made of: neither the
categories nor the surfaces of the entities. -/
theorem map_shape_bump (loaded : st.memory.isSome) (counts : List (LabelKey × Nat)) :
    ((st.bump counts).entities order).map Entity.shape = (st.entities order).map Entity.shape := by
  induction counts generalizing st with
  | nil => rfl
  | cons count counts ih =>
    obtain ⟨tables, memory⟩ := st
    obtain ⟨m, rfl⟩ := Option.isSome_iff_exists.mp loaded
    have still : (VaultFile.bumpOne ⟨tables, some m⟩ count.1 count.2).memory.isSome := rfl
    refine (ih still).trans ?_
    simp only [VaultFile.bumpOne, Option.map_some]
    split
    · next e found =>
      have same : ({ e with occurrences := e.occurrences + count.2 } : Entity).shape = e.shape := rfl
      exact map_shape_entities found same _ _ _
    · rfl

/-- A new spelling makes the version of the dictionary larger, and one that the entity has already
leaves the whole project as it is. -/
theorem version_addVariant (key : LabelKey) (fp surface : Text) :
    st.addVariant order key fp surface = st ∨
      dictionaryVersion (st.entities order) <
        dictionaryVersion ((st.addVariant order key fp surface).entities order) := by
  rw [VaultFile.addVariant]
  split
  · exact .inl rfl
  · next e found =>
    split
    · exact .inl rfl
    · next fresh =>
      right
      have new : e.variants.get? fp = none := by
        rw [← Option.not_isSome_iff_eq_none]
        exact fun known => fresh (.inr known)
      obtain ⟨front, back, entries, after⟩ := Dict.entries_set_of_known found
        { e with variants := e.variants.set fp surface }
      have version (m : Memory) (tables : Tables) :
          dictionaryVersion (VaultFile.entities order ⟨tables, some m⟩) =
            ((m.cache.entries.map Prod.snd).map fun e => 1 + e.variants.entries.length).sum * 7 +
              (m.cache.entries.map Prod.snd).length := by
        have perm := List.perm_insertionSort Entity.before (m.cache.entries.map Prod.snd)
        exact congrArg₂ (fun a b => a * 7 + b) (perm.map _).sum_nat perm.length_eq
      rw [version]
      have here : dictionaryVersion (st.entities order) = _ := version (st.memoryOf order) st.tables
      rw [here, entries, after]
      simp only [List.map_append, List.map_cons, List.sum_append, List.sum_cons,
        List.length_append, List.length_cons, Dict.entries_set_of_fresh new]
      -- one variant more counts seven
      omega

/-! ## Steps -/

/-- The dictionary that is kept was made for no later version, and is the one of the entities
if it was made for theirs. -/
def Fresh (engine : Engine) (p : Project) : Prop :=
  ∀ version surfaces, p.dictionary = some (version, surfaces) →
    version ≤ dictionaryVersion (p.file.entities engine.order) ∧
      (version = dictionaryVersion (p.file.entities engine.order) →
        surfaces = surfaceTable engine.casing (p.file.entities engine.order))

variable {engine : Engine} {p p' : Project}

theorem fresh_of_none (dropped : p.dictionary = none) : Fresh engine p := by
  intro version surfaces kept
  rw [dropped] at kept
  cases kept

/-- What the dictionary is made of stays, and so does the dictionary. -/
theorem Fresh.of_shape (fresh : Fresh engine p) (kept : p'.dictionary = p.dictionary)
    (same : (p'.file.entities engine.order).map Entity.shape =
      (p.file.entities engine.order).map Entity.shape) : Fresh engine p' := by
  intro version surfaces cached
  rw [dictionaryVersion_eq, same, ← dictionaryVersion_eq, surfaceTable_congr same]
  exact fresh version surfaces (kept ▸ cached)

/-- The dictionary that is returned for a fresh project is that of its entities, be it the one kept
or one made anew. -/
theorem Fresh.dictionaryOf_fst (fresh : Fresh engine p) :
    (engine.dictionaryOf p).1 = surfaceTable engine.casing (p.file.entities engine.order) := by
  rw [Engine.dictionaryOf]
  split
  · next cached found =>
    obtain ⟨held, current⟩ := Option.filter_eq_some_iff.mp found
    exact (fresh cached.1 cached.2 held).2 (of_decide_eq_true current)
  · rfl

theorem Fresh.dictionaryOf (fresh : Fresh engine p) : Fresh engine (engine.dictionaryOf p).2 := by
  rw [Engine.dictionaryOf]
  split
  · exact fresh.of_shape rfl rfl
  · intro version surfaces cached
    obtain ⟨rfl, rfl⟩ := Prod.mk.inj (Option.some.inj cached)
    exact ⟨Nat.le_refl _, fun _ => rfl⟩

/-- A mention whose value is unknown makes the detector drop its dictionary, and one that is known
adds at most a spelling, which the version shows. -/
theorem Fresh.resolveMention (fresh : Fresh engine p) {category surface : Text} {key : LabelKey}
    (resolved : engine.resolveMention category surface p = some (key, p')) : Fresh engine p' := by
  obtain ⟨⟨key', file⟩, entered, same⟩ := Option.map_eq_some_iff.mp resolved
  obtain ⟨rfl, rfl⟩ := Prod.mk.inj same
  have loaded : Fresh engine { p with file := p.file.load engine.order } := fresh.of_shape rfl rfl
  cases resolves_of_resolve entered with
  | known e found has =>
    rw [found]
    exact loaded
  | spelled e found lacks =>
    rw [found]
    rcases version_addVariant e.key (engine.surfaceFp category surface) surface with same | larger
    · rw [same]
      exact loaded
    · -- the dictionary that is kept is older than the spelling
      intro version surfaces cached
      obtain ⟨before, _⟩ := loaded version surfaces cached
      have outdated := Nat.lt_of_le_of_lt before larger
      exact ⟨Nat.le_of_lt outdated, fun current => absurd current (Nat.ne_of_lt outdated)⟩
  -- a value that is not known makes the detector drop its dictionary
  | linked e unknown found =>
    rw [unknown]
    exact fresh_of_none rfl
  | created unknown alone added =>
    rw [unknown]
    exact fresh_of_none rfl

theorem stable_fresh : engine.Stable (Fresh engine) where
  dictionary := Fresh.dictionaryOf
  mention := fun fresh resolved => fresh.resolveMention resolved

/-! ## Documents -/

/-- Labels are counted in a project that is in memory. -/
def Counted (run : RunState) (p : Project) : Prop := run.counted = [] ∨ p.file.memory.isSome

theorem stable_memory : engine.Stable fun p => p.file.memory.isSome where
  dictionary := fun {p} _ => by
    rw [Engine.dictionaryOf]
    split <;> rfl
  mention := fun _ resolved => Engine.memory_resolveMention resolved

theorem Counted.anonymizeUnit {lang : Text} {options : Options} {force : Option Text} {text : Text}
    {run run' : RunState} {reps : List Replacement} (counted : Counted run p)
    (done : engine.anonymizeUnit lang options force text run p = some (reps, run', p')) :
    Counted run' p' := by
  have kept : run.counted = [] ∨ p'.file.memory.isSome :=
    counted.imp_right fun loaded => stable_memory.anonymizeUnit loaded done
  simp only [Engine.anonymizeUnit, Engine.labelSpans_eq, Option.map_map,
    Option.map_eq_some_iff] at done
  obtain ⟨⟨mentions, resolved⟩, mentioned, made⟩ := done
  obtain ⟨_, rfl, rfl⟩ := made
  by_cases none : mentions = []
  · subst none
    exact kept.imp_left fun none => by simp [none, Engine.replacementsOf]
  · exact .inr (Engine.memory_resolveSpans mentioned (.inl none))

theorem Counted.anonymizeUnits {lang : Text} {options : Options}
    {units : List (Option Text × Text)} {run run' : RunState} {reps : List (List Replacement)}
    (counted : Counted run p)
    (done : engine.anonymizeUnits lang options units run p = some (reps, run', p')) :
    Counted run' p' := by
  induction units generalizing run p reps with
  | nil =>
    obtain ⟨_, rfl, rfl⟩ := done
    exact counted
  | cons unit units ih =>
    obtain ⟨⟨reps₁, run₁, p₁⟩, first, rest⟩ := Option.bind_eq_some_iff.mp done
    obtain ⟨⟨reps₂, run₂, p₂⟩, later, same⟩ := Option.bind_eq_some_iff.mp rest
    obtain ⟨_, rfl, rfl⟩ := same
    exact ih (counted.anonymizeUnit first) later

theorem Fresh.record (fresh : Fresh engine p) {run : RunState} (counted : Counted run p) :
    Fresh engine (engine.record run p) := by
  rcases counted with none | loaded
  · have nothing : (engine.record run p).file = p.file := by
      rw [Engine.record, none]
      rfl
    exact fresh.of_shape rfl (by rw [nothing])
  · exact fresh.of_shape rfl (map_shape_bump loaded _)

/-! ## Runs -/

/-- What can be done while the vault stays unlocked. -/
def Unlocked (_ : Project) : ProjectAction → Prop
  | .lock => False
  | _ => True

theorem Fresh.act (fresh : Fresh engine p) {action : ProjectAction} (unlocked : Unlocked p action)
    (taken : engine.act p action = some p') : Fresh engine p' := by
  cases action with
  | detect options force text => exact Option.some.inj taken ▸ stable_fresh.detect fresh _ _ _
  | mention category surface =>
    obtain ⟨⟨key, _⟩, resolved, rfl⟩ := Option.map_eq_some_iff.mp taken
    exact fresh.resolveMention resolved
  | prescan options force text => exact stable_fresh.prescanUnit fresh taken
  | anonymizeText lang options text =>
    obtain ⟨⟨copy, reps, _⟩, done, rfl⟩ := Option.map_eq_some_iff.mp taken
    rw [Engine.anonymizeText_eq] at done
    obtain ⟨⟨reps', run, q⟩, unit, same⟩ := Option.map_eq_some_iff.mp done
    obtain ⟨_, _, rfl⟩ := same
    exact (stable_fresh.anonymizeUnit fresh unit).record
      (Counted.anonymizeUnit (.inl rfl) unit)
  | anonymizeFile lang options units =>
    obtain ⟨⟨reps, _⟩, done, rfl⟩ := Option.map_eq_some_iff.mp taken
    obtain ⟨⟨reps', run, q⟩, made, same⟩ := Option.map_eq_some_iff.mp done
    obtain ⟨_, rfl⟩ := same
    exact (stable_fresh.anonymizeUnits fresh made).record
      (Counted.anonymizeUnits (.inl rfl) made)
  | restore texts => exact Option.some.inj taken ▸ fresh.of_shape rfl rfl
  -- the routes that change entities by hand drop the dictionary as well
  | addManual category value excluded =>
    obtain ⟨_, _, rfl⟩ := Option.map_eq_some_iff.mp taken
    exact fresh_of_none rfl
  | edit key value excluded =>
    obtain ⟨_, _, rfl⟩ := Option.map_eq_some_iff.mp taken
    exact fresh_of_none rfl
  | delete key =>
    obtain ⟨_, _, rfl⟩ := Option.map_eq_some_iff.mp taken
    exact fresh_of_none rfl
  | deleteProject => exact Option.some.inj taken ▸ fresh_of_none rfl
  | lock => exact unlocked.elim

/-- In every state of a project that is reached while the vault stays unlocked, the dictionary that
the detector uses is the one that the entities of the state make, although it is kept from one
detection to the next and made again only when the number of entities and variants tells that it is
old. -/
theorem dictionaryOf_fresh (engine : Engine) {p : Project}
    (run : ReachesBy Unlocked engine.act Project.new p) :
    (engine.dictionaryOf p).1 = surfaceTable engine.casing (p.file.entities engine.order) := by
  have fresh : Fresh engine p := run.invariant (fresh_of_none rfl)
    fun _ _ _ fresh unlocked taken => fresh.act unlocked taken
  exact fresh.dictionaryOf_fst

instance (p : Project) (action : ProjectAction) : Decidable (Unlocked p action) :=
  match action with
  | .lock => inferInstanceAs (Decidable False)
  | .detect _ _ _ | .mention _ _ | .prescan _ _ _ | .anonymizeText _ _ _ | .anonymizeFile _ _ _
  | .restore _ | .addManual _ _ _ | .edit _ _ _ | .delete _ | .deleteProject =>
    inferInstanceAs (Decidable True)

/-- A dictionary that is kept, and a known value in a new spelling. -/
def spelledAnew : List ProjectAction :=
  [.mention organisation "Alpha".toList, .detect allCategories none "Beta".toList,
    .mention organisation "ALPHA ".toList]

theorem dictionaryOf_fresh_spelledAnew : ∃ p, runAllowed Unlocked sampleEngine.act Project.new
    spelledAnew = some p ∧ p.dictionary.isSome ∧
    (sampleEngine.dictionaryOf p).1 = surfaceTable .cyrillic (p.file.entities .insertion) := by
  have kept : (runAllowed Unlocked sampleEngine.act Project.new spelledAnew).any
      (·.dictionary.isSome) = true := by decide
  obtain ⟨p, ran, kept⟩ := (Option.any_eq_true _ _).mp kept
  exact ⟨p, ran, kept, dictionaryOf_fresh sampleEngine (reachesBy_of_runAllowed ran)⟩

end RedactGate.Desktop
