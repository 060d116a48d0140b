import RedactGate.Desktop.DocumentRuns
import RedactGate.Desktop.LegibleCopies

/-!
# Restoring at once

A text without labels comes back from its copy right after it was anonymized, in every state of
a project whose categories have words, as long as nothing beside the replaced spans joins a
label and no category has a million entities.
-/
namespace RedactGate.Desktop

open Library

variable {engine : Engine} {p p' : Project}

/-! ## Categories with words -/

/-- The categories that the action names have words, so that the labels they lead to can be read
back. -/
def ProjectAction.Worded : ProjectAction → Prop
  | .detect options _ _ | .prescan options _ _ | .anonymizeText _ options _
  | .anonymizeFile _ options _ => ∀ c ∈ options.categories, HasWord c
  | .mention category _ | .addManual category _ _ => HasWord category
  | .restore _ | .edit _ _ _ | .delete _ | .deleteProject | .lock => True

/-- The vault is sound and every entity has a category with words. -/
structure Worded (p : Project) : Prop where
  good : GoodOn (fun _ => False) p.file
  words : ∀ key ∈ p.file.tables.keys, HasWord key.1

theorem worded_new : Worded .new where
  good := goodOn_new
  words _ none := absurd none List.not_mem_nil

theorem Worded.load (worded : Worded p) (dictionary : Option (Nat × Dict Text Text)) :
    Worded { p with file := p.file.load engine.order, dictionary := dictionary } :=
  ⟨worded.good.load, worded.words⟩

/-- Every label in use after a mention is resolved was in use before, or it is the label of a new
entity of the mention's category. -/
theorem keys_of_resolve {anon : Anonymizer} {st st' : VaultFile} {category surface : Text}
    {origin : Origin} {key : LabelKey}
    (resolved : anon.resolve st category surface origin = some (key, st')) :
    ∀ k ∈ st'.tables.keys, k ∈ st.tables.keys ∨ k.1 = category := by
  intro k used
  cases resolves_of_resolve resolved with
  | known e found has => exact .inl used
  | spelled e found lacks =>
    rw [keys_addVariant] at used
    exact .inl used
  | linked e unknown found =>
    rw [Anonymizer.linkAlias] at used
    split at used
    · rw [keys_addVariant, keys_setCanonical, keys_addVariant] at used
      exact .inl used
    · rw [keys_addVariant] at used
      exact .inl used
  | created unknown alone added =>
    -- only a new entity has a new key, and it is of the category asked for
    obtain ⟨row, shape, rfl, _, rfl⟩ := addEntity_cases added
    subst shape
    obtain ⟨row, member, rfl⟩ := List.mem_map.mp used
    rcases List.mem_append.mp member with old | single
    · exact .inl (List.mem_map_of_mem old)
    · obtain rfl := List.mem_singleton.mp single
      exact .inr rfl

theorem Worded.resolve (worded : Worded p) {category surface : Text} {origin : Origin}
    (known : HasWord category) {key : LabelKey} {file : VaultFile}
    (resolved : engine.resolve p.file category surface origin = some (key, file))
    (dictionary : Option (Nat × Dict Text Text)) :
    Worded { p with file := file, dictionary := dictionary } where
  good := (resolved_keeps worded.good resolved).1
  words k used := by
    rcases keys_of_resolve resolved k used with old | same
    · exact worded.words k old
    · exact same ▸ known

theorem Worded.mention (worded : Worded p) {category surface : Text} (known : HasWord category)
    {key : LabelKey} (resolved : engine.resolveMention category surface p = some (key, p')) :
    Worded p' := by
  obtain ⟨⟨key', file⟩, entered, same⟩ := Option.map_eq_some_iff.mp resolved
  obtain ⟨rfl, rfl⟩ := Prod.mk.inj same
  exact worded.resolve known entered _

theorem Worded.detect (worded : Worded p) (options : Options) (force : Option Text) (text : Text) :
    Worded (engine.detect options force text p).2 := by
  rw [Engine.detect]
  split
  · exact worded
  · simp only [Engine.dictionaryOf]
    split
    · exact worded.load _
    · exact worded.load _

/-- Only spans of categories that are asked for are found, whichever rule or surface they come from. -/
theorem category_of_detect {options : Options} {force : Option Text} {text : Text} :
    ∀ s ∈ (engine.detect options force text p).1, s.entityType ∈ options.categories := by
  intro s found
  rw [Engine.detect_fst] at found
  have proper : ∀ s ∈ engine.candidates options force text p, s.start < s.stop :=
    fun s member => (Engine.candidates_inside s member).1
  obtain ⟨_, _, kept⟩ := List.mem_filterMap.mp (mem_of_mem_mergeSpans proper found)
  exact (Engine.refineSpan_cases kept).1

theorem Worded.resolveSpans (worded : Worded p) {text : Text} {spans : List (EntitySpan ℚ)}
    {mentions : List Mention} (known : ∀ s ∈ spans, HasWord s.entityType)
    (resolved : engine.resolveSpans text spans p = some (mentions, p')) : Worded p' := by
  induction spans generalizing p mentions with
  | nil =>
    obtain ⟨rfl, rfl⟩ := Prod.mk.inj (Option.some.inj resolved)
    exact worded
  | cons s spans ih =>
    obtain ⟨here, later⟩ := List.forall_mem_cons.mp known
    obtain ⟨⟨key, p₁⟩, first, tail⟩ := Option.bind_eq_some_iff.mp resolved
    obtain ⟨⟨_, p₂⟩, rest, same⟩ := Option.map_eq_some_iff.mp tail
    obtain ⟨rfl, rfl⟩ := Prod.mk.inj same
    exact ih (worded.mention here first) later rest

theorem Worded.detected (worded : Worded p) {options : Options} {force : Option Text} {text : Text}
    (known : ∀ s ∈ (engine.detect options force text p).1, HasWord s.entityType)
    {mentions : List Mention} (resolved : engine.resolveSpans text
      (engine.detect options force text p).1 (engine.detect options force text p).2 =
        some (mentions, p')) : Worded p' :=
  (worded.detect options force text).resolveSpans known resolved

theorem Worded.prescanUnit (worded : Worded p) {options : Options} {force : Option Text}
    {text : Text} (known : ∀ c ∈ options.categories, HasWord c)
    (done : engine.prescanUnit options force text p = some p') : Worded p' := by
  have scanned {spans : List (EntitySpan ℚ)} {p : Project} (worded : Worded p)
      (known : ∀ s ∈ spans, HasWord s.entityType)
      (done : spans.foldlM (fun p s =>
        (engine.resolveMention s.entityType (text.slice s.start s.stop) p).map Prod.snd) p =
          some p') : Worded p' := by
    induction spans generalizing p with
    | nil =>
      obtain rfl := Option.some.inj done
      exact worded
    | cons s spans ih =>
      obtain ⟨here, later⟩ := List.forall_mem_cons.mp known
      rw [List.foldlM_cons] at done
      obtain ⟨p₁, first, rest⟩ := Option.bind_eq_some_iff.mp done
      obtain ⟨⟨key, p₂⟩, resolved, rfl⟩ := Option.map_eq_some_iff.mp first
      exact ih (worded.mention here resolved) later rest
  exact scanned (worded.detect options force text)
    (fun s found => known _ (category_of_detect s found)) done

theorem Worded.anonymizeUnit (worded : Worded p) {lang : Text} {options : Options}
    {force : Option Text} {text : Text} {run run' : RunState} {reps : List Replacement}
    (known : ∀ s ∈ (engine.detect options force text p).1, HasWord s.entityType)
    (done : engine.anonymizeUnit lang options force text run p = some (reps, run', p')) :
    Worded p' := by
  simp only [Engine.anonymizeUnit, Engine.labelSpans_eq, Option.map_map,
    Option.map_eq_some_iff] at done
  obtain ⟨⟨mentions, resolved⟩, mentioned, made⟩ := done
  obtain ⟨_, _, rfl⟩ := made
  exact worded.detected known mentioned

theorem Worded.anonymizeUnits (worded : Worded p) {lang : Text} {options : Options}
    {units : List (Option Text × Text)} {run run' : RunState} {reps : List (List Replacement)}
    (known : ∀ c ∈ options.categories, HasWord c)
    (done : engine.anonymizeUnits lang options units run p = some (reps, run', p')) :
    Worded p' := by
  induction units generalizing run p reps with
  | nil =>
    obtain ⟨_, _, rfl⟩ := done
    exact worded
  | cons unit units ih =>
    obtain ⟨⟨reps₁, run₁, p₁⟩, first, rest⟩ := Option.bind_eq_some_iff.mp done
    obtain ⟨⟨reps₂, run₂, p₂⟩, later, same⟩ := Option.bind_eq_some_iff.mp rest
    obtain ⟨_, _, rfl⟩ := same
    have worded' := worded.anonymizeUnit (fun s found => known _ (category_of_detect s found)) first
    exact ih worded' later

theorem Worded.record (worded : Worded p) (run : RunState) : Worded (engine.record run p) where
  good := worded.good.bump _
  words key used := worded.words key (keys_bump p.file _ ▸ used)

theorem Worded.addManual (worded : Worded p) {category value : Text} {excluded : Bool}
    {key : LabelKey} {file : VaultFile} (known : HasWord category)
    (added : engine.addManual p.file category value excluded = some (key, file)) :
    Worded { p with file := file, dictionary := none } := by
  obtain ⟨file₁, resolved, same⟩ := addManual_cases added
  have first := worded.resolve known resolved none
  rcases same with rfl | rfl
  · exact first
  · exact ⟨first.good.setExcluded excluded, fun k used => first.words k (keys_setExcluded ▸ used)⟩

theorem keys_edit {anon : Anonymizer} {st st' : VaultFile} {key : LabelKey} {value : Option Text}
    {excluded : Option Bool} (edited : anon.edit st key value excluded = some st') :
    st'.tables.keys = st.tables.keys := by
  obtain ⟨e, _, st₁, changed, same⟩ := edit_cases edited
  have kept : st₁.tables.keys = st.tables.keys := by
    rcases changed with ⟨_, rfl⟩ | ⟨new, _, rfl⟩
    · rfl
    · rw [keys_addVariant, keys_setCanonical]
      rfl
  rcases same with rfl | ⟨flag, rfl⟩
  · exact kept
  · exact keys_setExcluded.trans kept

/-- Changing or deleting an entity adds no label. -/
theorem Worded.of_change (worded : Worded p) {action : VaultAction} {file : VaultFile}
    (taken : engine.step p.file action = some file)
    (kept : ∀ key ∈ file.tables.keys, key ∈ p.file.tables.keys) :
    Worded { p with file := file, dictionary := none } where
  good := worded.good.step (fun _ _ _ never => never.elim) taken
  words key used := worded.words key (kept key used)

theorem Worded.act (worded : Worded p) {action : ProjectAction} (known : action.Worded)
    (acted : engine.act p action = some p') : Worded p' := by
  cases action with
  | detect options force text =>
    obtain rfl := Option.some.inj acted
    exact worded.detect options force text
  | mention category surface =>
    obtain ⟨⟨key, p₁⟩, resolved, rfl⟩ := Option.map_eq_some_iff.mp acted
    exact worded.mention known resolved
  | prescan options force text => exact worded.prescanUnit known acted
  | anonymizeText lang options text =>
    obtain ⟨done, anonymized, rfl⟩ := Option.map_eq_some_iff.mp acted
    rw [Engine.anonymizeText_eq] at anonymized
    obtain ⟨⟨reps, run, p₁⟩, unit, rfl⟩ := Option.map_eq_some_iff.mp anonymized
    have resolved := worded.anonymizeUnit (fun s found => known _ (category_of_detect s found)) unit
    exact resolved.record run
  | anonymizeFile lang options units =>
    obtain ⟨done, anonymized, rfl⟩ := Option.map_eq_some_iff.mp acted
    obtain ⟨⟨reps, run, p₁⟩, unitsDone, rfl⟩ := Option.map_eq_some_iff.mp anonymized
    exact (worded.anonymizeUnits known unitsDone).record run
  | restore texts =>
    obtain rfl := Option.some.inj acted
    exact worded.load p.dictionary
  | addManual category value excluded =>
    obtain ⟨⟨key, file⟩, added, rfl⟩ := Option.map_eq_some_iff.mp acted
    exact worded.addManual known added
  | edit key value excluded =>
    obtain ⟨file, edited, rfl⟩ := Option.map_eq_some_iff.mp acted
    have taken : engine.step p.file (.edit key value excluded) = some file := edited
    exact worded.of_change taken fun k used => keys_edit edited ▸ used
  | delete key =>
    obtain ⟨file, deleted, rfl⟩ := Option.map_eq_some_iff.mp acted
    have taken : engine.step p.file (.delete key) = some file := deleted
    refine worded.of_change taken fun k used => ?_
    obtain ⟨e, _, rfl⟩ := delete_cases deleted
    obtain ⟨row, member, rfl⟩ := List.mem_map.mp used
    exact List.mem_map_of_mem (List.mem_filter.mp member).1
  | deleteProject =>
    obtain rfl := Option.some.inj acted
    exact worded_new
  | lock =>
    obtain rfl := Option.some.inj acted
    exact ⟨worded.good.lock, worded.words⟩

/-! ## The round trip -/

/-- The labels that are put into a unit are renderings of categories that have a word and of numbers
that the search reads, if all reported types have words. -/
theorem Worded.labelled (worded : Worded p) {lang : Text} {options : Options} {force : Option Text}
    {text : Text} {run run' : RunState} {reps : List Replacement}
    (known : ∀ s ∈ (engine.detect options force text p).1, HasWord s.entityType)
    (few : ∀ key ∈ p'.file.tables.keys, key.2 ≤ 999999)
    (done : engine.anonymizeUnit lang options force text run p = some (reps, run', p')) :
    ∀ r ∈ reps, Labelled engine.casing lang r := by
  have after := worded.anonymizeUnit known done
  have used := (anonymizeUnit_made worded.good done).used
  simp only [Engine.anonymizeUnit, Engine.labelSpans_eq, Option.map_map,
    Option.map_eq_some_iff] at done
  obtain ⟨⟨mentions, resolved⟩, _, same⟩ := done
  simp only [Function.comp, Prod.mk.injEq] at same
  obtain ⟨replaced, _, rfl⟩ := same
  intro r member
  have key : (r.category, r.n) ∈ resolved.file.tables.keys :=
    used _ (List.mem_map_of_mem member)
  refine ⟨after.words _ key, few _ key, ?_⟩
  rw [← replaced, List.mem_insertionSort] at member
  obtain ⟨m, _, rfl⟩ := List.mem_map.mp member
  rfl

theorem worded_of_reaches
    (reaches : ReachesBy (fun _ action => action.Worded) engine.act .new p) : Worded p :=
  reaches.invariant worded_new fun _ _ _ worded known taken => worded.act known taken

/-- The copy of a text without labels of its own, in which what is put in is spaced out, is read
back by the record that was just made. -/
theorem Worded.restoreText_eq (worded : Worded p) (tables : LabelTables engine.casing)
    {lang text copy : Text} {options : Options} {reps : List Replacement}
    (known : ∀ s ∈ (engine.detect options none text p).1, HasWord s.entityType)
    (done : engine.anonymizeText lang options text p = some (copy, reps, p'))
    (few : ∀ key ∈ p'.file.tables.keys, key.2 ≤ 999999)
    (none : findLabels engine.casing text = []) (spaced : SpacedOut engine.casing text reps) :
    engine.restoreText p' copy = text := by
  rw [Engine.anonymizeText_eq] at done
  obtain ⟨⟨reps', run, resolved⟩, unit, same⟩ := Option.map_eq_some_iff.mp done
  simp only [Prod.mk.injEq] at same
  obtain ⟨rfl, rfl, rfl⟩ := same
  have after : Worded (engine.record run resolved) := (worded.anonymizeUnit known unit).record run
  obtain ⟨made, occurrences, used⟩ := anonymizeUnit_made worded.good unit
  have few' : ∀ key ∈ resolved.file.tables.keys, key.2 ≤ 999999 := fun key used =>
    few key (keys_bump resolved.file _ ▸ used)
  have legible : UnitCopy.Legible engine.casing ⟨text, reps'⟩ :=
    legible_of_spacedOut tables made.placed none (worded.labelled known few' unit) spaced
  have single : UnitCopy.record [⟨text, reps'⟩] = Engine.recordOf reps' := List.append_nil _
  have recorded : Recorded engine (engine.record run resolved) [⟨text, reps'⟩] :=
    recorded_own (occurrences.trans single.symm) (List.forall_mem_singleton.mpr made)
      (single.symm ▸ used)
  have restored := recorded.restoredTexts_eq tables after.good
    (List.forall_mem_singleton.mpr legible)
  exact List.singleton_inj.mp restored

theorem worded_allCategories : ∀ c ∈ allCategories.categories, HasWord c := fun _ member => by
  obtain ⟨entry, among, rfl⟩ := List.mem_map.mp member
  exact ⟨entry, among, rfl⟩

/-- Two companies, the second of which the project knows. -/
def antAndBee : Text := "ТОВ «Ant» і ТОВ «Bee»".toList

/-- The text has no label of its own, and what the detector reports in it gets a label that has
words and can be read where it stands. -/
structure Engine.Readable (engine : Engine) (options : Options) (text : Text) (p : Project) :
    Prop where
  unlabelled : findLabels engine.casing text = []
  worded : ∀ s ∈ (engine.detect options none text p).1, HasWord s.entityType
  opened : ∀ s ∈ (engine.detect options none text p).1,
    EndsOpen (joinsLabel engine.casing) (text.take s.start)
  closed : ∀ s ∈ (engine.detect options none text p).1,
    StartsOpen engine.casing.isWord (text.drop s.stop)
  apart : (engine.detect options none text p).1.Pairwise fun a b => a.stop < b.start

/-- What is replaced is some of what the detector reports, and so its spans stand apart from words
and from one another as those of the reports do. -/
theorem Engine.Readable.spacedOut {options : Options} {text : Text}
    (readable : engine.Readable options text p) {lang copy : Text} {reps : List Replacement}
    (done : engine.anonymizeText lang options text p = some (copy, reps, p')) :
    SpacedOut engine.casing text reps := by
  obtain ⟨mentions, resolved, anonymized⟩ := Engine.anonymized_of_anonymizeText done
  have named : mentions.map Mention.span = (engine.detect options none text p).1 :=
    Engine.map_span_resolveSpans anonymized.mentioned
  have reported {r : Replacement} (member : r ∈ reps) :
      ∃ s ∈ (engine.detect options none text p).1, r.start = s.start ∧ r.stop = s.stop := by
    rw [anonymized.replaced] at member
    obtain ⟨m, kept, rfl⟩ := List.mem_map.mp member
    exact ⟨m.span, named ▸ List.mem_map_of_mem (List.mem_filter.mp kept).1, rfl, rfl⟩
  refine ⟨fun r member => ?_, fun r member => ?_, ?_⟩
  · obtain ⟨s, found, start, _⟩ := reported member
    exact start ▸ readable.opened s found
  · obtain ⟨s, found, _, stop⟩ := reported member
    exact stop ▸ readable.closed s found
  · have apart := readable.apart
    rw [← named, List.pairwise_map] at apart
    rw [anonymized.replaced, Engine.replacementsOf, List.pairwise_map]
    exact (apart.filter _).imp fun gap => gap

instance (category : Text) : Decidable (HasWord category) :=
  inferInstanceAs (Decidable (∃ entry ∈ words, entry.category = category))

theorem Engine.readable_iff {options : Options} {text : Text} :
    engine.Readable options text p ↔ findLabels engine.casing text = [] ∧
      (∀ s ∈ (engine.detect options none text p).1, HasWord s.entityType ∧
        EndsOpen (joinsLabel engine.casing) (text.take s.start) ∧
          StartsOpen engine.casing.isWord (text.drop s.stop)) ∧
      (engine.detect options none text p).1.Pairwise fun a b => a.stop < b.start := by
  constructor
  · intro readable
    refine ⟨readable.unlabelled, fun s found => ?_, readable.apart⟩
    exact ⟨readable.worded s found, readable.opened s found, readable.closed s found⟩
  · rintro ⟨unlabelled, around, apart⟩
    exact ⟨unlabelled, fun s found => (around s found).1, fun s found => (around s found).2.1,
      fun s found => (around s found).2.2, apart⟩

instance (options : Options) (text : Text) (p : Project) :
    Decidable (engine.Readable options text p) :=
  decidable_of_iff _ Engine.readable_iff.symm

/-- A company that is named twice. -/
def antTwice : Text := "ТОВ «Ant», ТОВ «Ant».".toList

/-- A text that has a word like a label beside a company. -/
def labelAndAnt : Text := "Company-1 і ТОВ «Ant»".toList

end RedactGate.Desktop
