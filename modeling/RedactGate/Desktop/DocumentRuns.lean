import RedactGate.Desktop.RecordedDocuments

/-!
# Runs with the documents that were made

What is done with a project, one call after the other, beside the documents that the calls have
made: their units and what was replaced in them.
-/
namespace RedactGate.Desktop

open Library

variable {engine : Engine} {p p' : Project}

/-! ## What only grows -/

/-- The vault stays sound, no label is lost, and no document is recorded: what any action does that
makes no document and deletes nothing. -/
structure Grown (p p' : Project) : Prop where
  good : GoodOn (fun _ => False) p'.file
  keys : ∀ key ∈ p.file.tables.keys, key ∈ p'.file.tables.keys
  documents : p'.documents = p.documents

theorem Grown.refl (good : GoodOn (fun _ => False) p.file) : Grown p p := ⟨good, fun _ h => h, rfl⟩

theorem Grown.mention {p₁ : Project} (grown : Grown p p₁) {category surface : Text} {key : LabelKey}
    (resolved : engine.resolveMention category surface p₁ = some (key, p')) :
    Grown p p' ∧ key ∈ p'.file.tables.keys := by
  obtain ⟨⟨key', file⟩, entered, same⟩ := Option.map_eq_some_iff.mp resolved
  obtain ⟨rfl, rfl⟩ := Prod.mk.inj same
  obtain ⟨good, keys⟩ := resolved_keeps grown.good entered
  exact ⟨⟨good, fun key used => keys key (grown.keys key used), grown.documents⟩,
    grown.good.resolved_mem_keys entered⟩

theorem Grown.dictionary {p₁ : Project} (grown : Grown p p₁) :
    Grown p (engine.dictionaryOf p₁).2 := by
  rw [Engine.dictionaryOf]
  split
  · exact ⟨grown.good.load, grown.keys, grown.documents⟩
  · exact ⟨grown.good.load, grown.keys, grown.documents⟩

variable (engine) in
theorem stable_grown (p : Project) : engine.Stable (Grown p) where
  dictionary grown := grown.dictionary
  mention grown resolved := (grown.mention resolved).1

theorem resolveSpans_mem_keys (good : GoodOn (fun _ => False) p.file) {text : Text}
    {spans : List (EntitySpan ℚ)} {mentions : List Mention}
    (resolved : engine.resolveSpans text spans p = some (mentions, p')) :
    ∀ m ∈ mentions, m.key ∈ p'.file.tables.keys := by
  induction spans generalizing p mentions with
  | nil =>
    obtain ⟨rfl, rfl⟩ := Prod.mk.inj (Option.some.inj resolved)
    exact fun _ none => absurd none List.not_mem_nil
  | cons s spans ih =>
    obtain ⟨⟨key, p₁⟩, first, tail⟩ := Option.bind_eq_some_iff.mp resolved
    obtain ⟨⟨later, p₂⟩, rest, same⟩ := Option.map_eq_some_iff.mp tail
    obtain ⟨rfl, rfl⟩ := Prod.mk.inj same
    obtain ⟨grown, used⟩ := (Grown.refl good).mention first
    have still := (stable_grown engine p₁).resolveSpans (Grown.refl grown.good) rest
    exact List.forall_mem_cons.mpr ⟨still.keys key used, ih grown.good rest⟩

/-! ## What is made of the units -/

/-- What one unit adds to the run of its document: its own record, whose labels are all in use
afterwards. -/
structure UnitMade (run : RunState) (unit : UnitCopy) (run' : RunState) (p' : Project) : Prop where
  made : unit.Made
  occurrences : run'.occurrences = run.occurrences ++ Engine.recordOf unit.reps
  used : ∀ o ∈ Engine.recordOf unit.reps, o.key ∈ p'.file.tables.keys

theorem anonymizeUnit_made (good : GoodOn (fun _ => False) p.file) {lang : Text} {options : Options}
    {force : Option Text} {text : Text} {run run' : RunState} {reps : List Replacement}
    (done : engine.anonymizeUnit lang options force text run p = some (reps, run', p')) :
    UnitMade run ⟨text, reps⟩ run' p' := by
  simp only [Engine.anonymizeUnit, Engine.labelSpans_eq, Option.map_map,
    Option.map_eq_some_iff] at done
  obtain ⟨⟨mentions, resolved⟩, mentioned, same⟩ := done
  -- the spans that were found are inside the text and apart, and so are the labels put in for them
  have bounds := Engine.detect_bounds (rfl : engine.detect options force text p = _)
  have placed : Placed text ((engine.replacementsOf lang text mentions).map Replacement.toEdit) :=
    Engine.placed_of_bounds (Engine.map_span_resolveSpans mentioned) bounds.1 bounds.2
  have detected := (stable_grown engine p).detect (Grown.refl good) options force text
  simp only [Function.comp, insertionSort_of_placed placed, Prod.mk.injEq] at same
  obtain ⟨rfl, rfl, rfl⟩ := same
  refine ⟨⟨placed, fun r member => ?_⟩, rfl, fun o member => ?_⟩
  · obtain ⟨m, _, rfl⟩ := List.mem_map.mp member
    rfl
  · obtain ⟨r, among, rfl⟩ := List.mem_map.mp member
    obtain ⟨m, named, rfl⟩ := List.mem_map.mp among
    exact resolveSpans_mem_keys detected.good mentioned m (List.mem_filter.mp named).1

/-- The units of a file with what is replaced in them. -/
def copiesOf (units : List (Option Text × Text)) (reps : List (List Replacement)) :
    List UnitCopy :=
  List.zipWith (fun unit reps => ⟨unit.2, reps⟩) units reps

theorem anonymizeUnits_made (good : GoodOn (fun _ => False) p.file) {lang : Text}
    {options : Options} {units : List (Option Text × Text)} {run run' : RunState}
    {reps : List (List Replacement)}
    (done : engine.anonymizeUnits lang options units run p = some (reps, run', p')) :
    (∀ unit ∈ copiesOf units reps, unit.Made) ∧
      run'.occurrences = run.occurrences ++ UnitCopy.record (copiesOf units reps) ∧
        ∀ o ∈ UnitCopy.record (copiesOf units reps), o.key ∈ p'.file.tables.keys := by
  induction units generalizing run p reps with
  | nil =>
    obtain ⟨rfl, rfl, rfl⟩ := done
    exact ⟨fun _ none => absurd none List.not_mem_nil, (List.append_nil _).symm,
      fun _ none => absurd none List.not_mem_nil⟩
  | cons unit units ih =>
    obtain ⟨⟨reps₁, run₁, p₁⟩, first, rest⟩ := Option.bind_eq_some_iff.mp done
    obtain ⟨⟨reps₂, run₂, p₂⟩, later, same⟩ := Option.bind_eq_some_iff.mp rest
    obtain ⟨rfl, rfl, rfl⟩ := same
    -- labels of earlier units stay in use while the later ones are made
    have grown := (stable_grown engine p).anonymizeUnit (Grown.refl good) first
    have still := (stable_grown engine p₁).anonymizeUnits (Grown.refl grown.good) later
    obtain ⟨made, occurrences, used⟩ := anonymizeUnit_made good first
    obtain ⟨others, more, used'⟩ := ih grown.good later
    refine ⟨List.forall_mem_cons.mpr ⟨made, others⟩, ?_, ?_⟩
    · rw [more, occurrences, List.append_assoc]
      rfl
    · intro o member
      rcases List.mem_append.mp member with here | there
      · exact still.keys o.key (used o here)
      · exact used' o there

theorem restoreMap_cons (document : AnonDocument) (documents : List AnonDocument) (digest : Text) :
    restoreMap (document :: documents) digest =
      if document.digest = digest then some document.restore else restoreMap documents digest := by
  rw [restoreMap, restoreMap, List.find?_cons]
  split
  · next same => rw [if_pos (of_decide_eq_true same), Option.map_some]
  · next other => rw [if_neg (of_decide_eq_false other)]

/-- A document is recorded when its units are made: its record is the newest under its digest, and
every label in it is in use. -/
theorem recorded_own {units : List UnitCopy} {run : RunState}
    (occurrences : run.occurrences = UnitCopy.record units) (made : ∀ unit ∈ units, unit.Made)
    (used : ∀ o ∈ UnitCopy.record units, o.key ∈ p.file.tables.keys) :
    Recorded engine (engine.record run p) units where
  made := made
  used o member := keys_bump p.file _ ▸ used o member
  newest := by
    rw [Engine.record, restoreMap_cons, occurrences]
    exact if_pos rfl

/-! ## The run -/

/-- A project with the documents that were made in it. -/
structure DocumentRun where
  project : Project
  documents : List (List UnitCopy)

namespace DocumentRun

def new : DocumentRun := ⟨Project.new, []⟩

variable (engine)

/-- The document that an action makes, as its units with their replacements; only anonymizing a text
or a file makes one. -/
def documentOf (p : Project) : ProjectAction → Option (List UnitCopy)
  | .anonymizeText lang options text =>
    (engine.anonymizeText lang options text p).map fun done => [⟨text, done.2.1⟩]
  | .anonymizeFile lang options units =>
    (engine.anonymizeFile lang options units p).map fun done => copiesOf units done.1
  | .detect _ _ _ | .mention _ _ | .prescan _ _ _ | .restore _ | .addManual _ _ _ | .edit _ _ _
  | .delete _ | .deleteProject | .lock => none

def step (run : DocumentRun) (action : ProjectAction) : Option DocumentRun :=
  (engine.act run.project action).map fun p =>
    ⟨p, (documentOf engine run.project action).toList ++ run.documents⟩

/-- A document that was recorded under the same digest has the same labels in the same
spellings. -/
def Apart (run : DocumentRun) (units : List UnitCopy) : Prop :=
  restoreMap run.project.documents (engine.digestOf units) ∈ [none, some (UnitCopy.record units)]

/-- No label that a document of the run shows is taken away by the action; deleting another entity
is allowed. -/
def Spares (run : DocumentRun) : ProjectAction → Prop
  | .delete key => ∀ units ∈ run.documents, ∀ o ∈ UnitCopy.record units, o.key ≠ key
  | .deleteProject => run.documents = []
  | .detect _ _ _ | .mention _ _ | .prescan _ _ _ | .anonymizeText _ _ _ | .anonymizeFile _ _ _
  | .restore _ | .addManual _ _ _ | .edit _ _ _ | .lock => True

/-- An action that leaves the way back to the documents open. -/
structure Keeps (run : DocumentRun) (action : ProjectAction) : Prop where
  spares : run.Spares action
  apart : ∀ units, documentOf engine run.project action = some units → run.Apart engine units

end DocumentRun

end RedactGate.Desktop
