import RedactGate.Desktop.DocumentRuns
import RedactGate.Desktop.RenderedLabels

/-!
# The documents of a project

Every document that was made in a project comes back from its copies, whatever was done in the
project since: other documents, scans, edits, additions by hand, deletions of entities that it
does not show, locking. What must not happen is that a document with the same labels in the
same order and other spellings takes its record over.
-/
namespace RedactGate.Desktop

open Library

variable {engine : Engine} {p p' : Project} {units : List UnitCopy}

/-! ## What keeps a record -/

theorem Recorded.grown (recorded : Recorded engine p units) (grown : Grown p p') :
    Recorded engine p' units where
  made := recorded.made
  used o member := grown.keys o.key (recorded.used o member)
  newest := by rw [grown.documents, recorded.newest]

/-- Calls on the vault of a project that delete nothing. -/
theorem grown_of_step {anon : Anonymizer} (good : GoodOn (fun _ => False) p.file)
    {action : VaultAction} {file : VaultFile} (taken : anon.step p.file action = some file)
    (keeps : ∀ key, action ≠ .delete key) (dictionary : Option (Nat × Dict Text Text)) :
    Grown p { p with file := file, dictionary := dictionary } where
  good := good.step (fun _ _ _ never => never.elim) taken
  keys _ used := (keysChange_step good taken).mem keeps used
  documents := rfl

/-- Another document is recorded. The record of the first one remains: the other one has another
digest, or it has the same record under the same digest. -/
theorem Recorded.record (recorded : Recorded engine p units) {others : List UnitCopy}
    {state : RunState} (occurrences : state.occurrences = UnitCopy.record others)
    (apart : restoreMap p.documents (engine.digestOf others) ∈
      [none, some (UnitCopy.record others)]) :
    Recorded engine (engine.record state p) units where
  made := recorded.made
  used o member := keys_bump p.file _ ▸ recorded.used o member
  newest := by
    have newest := recorded.newest
    rw [Engine.record, restoreMap_cons, occurrences]
    split
    · next same =>
      -- the document was found under the digest, so the spellings are its own
      have same : engine.digestOf others = engine.digestOf units := same
      rw [same, newest] at apart
      simpa [eq_comm] using apart
    · exact newest

/-! ## Runs -/

/-- Every document that was made has its record. -/
structure Restorable (engine : Engine) (run : DocumentRun) : Prop where
  good : GoodOn (fun _ => False) run.project.file
  recorded : ∀ units ∈ run.documents, Recorded engine run.project units

theorem restorable_new : Restorable engine .new where
  good := goodOn_new
  recorded _ none := absurd none List.not_mem_nil

theorem Restorable.grown {run : DocumentRun} (restorable : Restorable engine run)
    (grown : Grown run.project p') : Restorable engine ⟨p', run.documents⟩ where
  good := grown.good
  recorded units member := (restorable.recorded units member).grown grown

/-- A document is made and recorded: it can be restored itself, and so can the others, if it shares
its digest with no other record. -/
theorem Restorable.record {run : DocumentRun} (restorable : Restorable engine run)
    (grown : Grown run.project p') {state : RunState}
    (occurrences : state.occurrences = UnitCopy.record units) (made : ∀ unit ∈ units, unit.Made)
    (used : ∀ o ∈ UnitCopy.record units, o.key ∈ p'.file.tables.keys)
    (apart : run.Apart engine units) :
    Restorable engine ⟨engine.record state p', units :: run.documents⟩ where
  good := grown.good.bump _
  recorded := by
    rw [DocumentRun.Apart, ← grown.documents] at apart
    refine List.forall_mem_cons.mpr ⟨recorded_own occurrences made used, fun others member => ?_⟩
    exact ((restorable.recorded others member).grown grown).record occurrences apart

/-- An entity that no document shows is deleted: all records keep their entities, and so each
document can be restored as before. -/
theorem Restorable.delete {run : DocumentRun} (restorable : Restorable engine run) {key : LabelKey}
    (unseen : ∀ units ∈ run.documents, ∀ o ∈ UnitCopy.record units, o.key ≠ key)
    (deleted : engine.deleteEntity run.project key = some p') :
    Restorable engine ⟨p', run.documents⟩ := by
  obtain ⟨file, taken, rfl⟩ := Option.map_eq_some_iff.mp deleted
  have taken : engine.step run.project.file (.delete key) = some file := taken
  refine ⟨restorable.good.step (fun _ _ _ never => never.elim) taken, fun units member => ?_⟩
  obtain ⟨made, used, newest⟩ := restorable.recorded units member
  refine ⟨made, fun o among => ?_, newest⟩
  have before := used o among
  cases keysChange_step restorable.good taken with
  | kept same => exact same ▸ before
  | issued category more => exact more ▸ List.mem_append_left _ before
  | deleted key' named less =>
    obtain rfl : key = key' := by injection named
    exact less ▸ List.mem_filter.mpr ⟨before, decide_eq_true (unseen units member o among)⟩

theorem Restorable.step {run run' : DocumentRun} (restorable : Restorable engine run)
    {action : ProjectAction} (keeps : run.Keeps engine action)
    (taken : DocumentRun.step engine run action = some run') : Restorable engine run' := by
  obtain ⟨p', acted, rfl⟩ := Option.map_eq_some_iff.mp taken
  have good := restorable.good
  have same : Grown run.project run.project := .refl good
  have stable := stable_grown engine run.project
  -- only the two kinds of anonymizing record a document; the others must leave its labels in use
  cases action with
  | detect options force text =>
    obtain rfl := Option.some.inj acted
    exact restorable.grown (stable.detect same options force text)
  | mention category surface =>
    obtain ⟨⟨key, p₁⟩, resolved, rfl⟩ := Option.map_eq_some_iff.mp acted
    exact restorable.grown (same.mention resolved).1
  | prescan options force text => exact restorable.grown (stable.prescanUnit same acted)
  | anonymizeText lang options text =>
    obtain ⟨⟨copy, reps, p₁⟩, done, rfl⟩ := Option.map_eq_some_iff.mp acted
    have document : DocumentRun.documentOf engine run.project (.anonymizeText lang options text) =
        some [⟨text, reps⟩] := by
      rw [DocumentRun.documentOf, done, Option.map_some]
    have apart := keeps.apart _ document
    rw [document]
    rw [Engine.anonymizeText_eq] at done
    obtain ⟨⟨reps', state, p₂⟩, unit, outcome⟩ := Option.map_eq_some_iff.mp done
    simp only [Prod.mk.injEq] at outcome
    obtain ⟨rfl, rfl, rfl⟩ := outcome
    obtain ⟨made, occurrences, used⟩ := anonymizeUnit_made good unit
    have single : UnitCopy.record [⟨text, reps'⟩] = Engine.recordOf reps' := List.append_nil _
    refine restorable.record (stable.anonymizeUnit same unit) (occurrences.trans single.symm) ?_ ?_
      apart
    · exact List.forall_mem_singleton.mpr made
    · exact single.symm ▸ used
  | anonymizeFile lang options units =>
    obtain ⟨⟨reps, p₁⟩, done, rfl⟩ := Option.map_eq_some_iff.mp acted
    have document : DocumentRun.documentOf engine run.project (.anonymizeFile lang options units) =
        some (copiesOf units reps) := by
      rw [DocumentRun.documentOf, done, Option.map_some]
    have apart := keeps.apart _ document
    rw [document]
    obtain ⟨⟨reps', state, p₂⟩, unitsDone, outcome⟩ := Option.map_eq_some_iff.mp done
    obtain ⟨rfl, rfl⟩ := Prod.mk.inj outcome
    obtain ⟨made, occurrences, used⟩ := anonymizeUnits_made good unitsDone
    exact restorable.record (stable.anonymizeUnits same unitsDone) occurrences made used apart
  | restore texts =>
    obtain rfl := Option.some.inj acted
    exact restorable.grown ⟨good.load, fun _ used => used, rfl⟩
  | addManual category value excluded =>
    obtain ⟨⟨key, file⟩, added, rfl⟩ := Option.map_eq_some_iff.mp acted
    have taken : engine.step run.project.file (.addManual category value excluded) = some file :=
      congrArg (Option.map Prod.snd) added
    exact restorable.grown (grown_of_step good taken (fun _ => nofun) none)
  | edit key value excluded =>
    obtain ⟨file, edited, rfl⟩ := Option.map_eq_some_iff.mp acted
    have taken : engine.step run.project.file (.edit key value excluded) = some file := edited
    exact restorable.grown (grown_of_step good taken (fun _ => nofun) none)
  | delete key => exact restorable.delete keeps.spares acted
  | deleteProject =>
    obtain rfl := Option.some.inj acted
    -- a project is deleted with its documents, so it may have none to give back
    have none : run.documents = [] := keeps.spares
    refine ⟨goodOn_new, fun units member => ?_⟩
    rw [none] at member
    cases member
  | lock =>
    obtain rfl := Option.some.inj acted
    exact restorable.grown ⟨good.lock, fun _ used => used, rfl⟩

theorem restorable_of_run {run : DocumentRun}
    (reaches : ReachesBy (DocumentRun.Keeps engine) (DocumentRun.step engine) .new run) :
    Restorable engine run :=
  reaches.invariant restorable_new fun _ _ _ restorable keeps taken => restorable.step keeps taken

theorem Restorable.restoredTexts_eq {run : DocumentRun} (restorable : Restorable engine run)
    (tables : LabelTables engine.casing) (member : units ∈ run.documents)
    (legible : ∀ unit ∈ units, unit.Legible engine.casing) :
    engine.restoredTexts run.project (units.map UnitCopy.copy) = units.map UnitCopy.text :=
  (restorable.recorded units member).restoredTexts_eq tables restorable.good legible

/-- Every document that was made in a project comes back from its copies, unit by unit, whatever was
done since. No step makes a document whose labels another document has in the same order with other
spellings, or deletes an entity that a document shows; in the copies the search finds the labels
that were put in and no others. -/
theorem restoredTexts_of_run (engine : Engine) (tables : LabelTables engine.casing)
    {run : DocumentRun}
    (reaches : ReachesBy (DocumentRun.Keeps engine) (DocumentRun.step engine) .new run) :
    ∀ units ∈ run.documents, (∀ unit ∈ units, unit.Legible engine.casing) →
      engine.restoredTexts run.project (units.map UnitCopy.copy) = units.map UnitCopy.text :=
  fun _ member legible => (restorable_of_run reaches).restoredTexts_eq tables member legible

/-! ## Two runs -/

instance (run : DocumentRun) (action : ProjectAction) : Decidable (run.Spares action) :=
  match action with
  | .delete key => inferInstanceAs (Decidable (∀ units ∈ run.documents,
      ∀ o ∈ UnitCopy.record units, o.key ≠ key))
  | .deleteProject => inferInstanceAs (Decidable (run.documents = []))
  | .detect _ _ _ | .mention _ _ | .prescan _ _ _ | .anonymizeText _ _ _ | .anonymizeFile _ _ _
  | .restore _ | .addManual _ _ _ | .edit _ _ _ | .lock => inferInstanceAs (Decidable True)

instance (run : DocumentRun) (units : List UnitCopy) : Decidable (run.Apart engine units) :=
  inferInstanceAs (Decidable (_ ∈ _))

theorem DocumentRun.keeps_iff {run : DocumentRun} {action : ProjectAction} :
    run.Keeps engine action ↔ run.Spares action ∧
      (DocumentRun.documentOf engine run.project action).all fun units =>
        decide (run.Apart engine units) := by
  rw [Option.all_eq_true]
  constructor
  · exact fun keeps => ⟨keeps.spares, fun units made => decide_eq_true (keeps.apart units made)⟩
  · exact fun ⟨spares, apart⟩ => ⟨spares, fun units made => of_decide_eq_true (apart units made)⟩

instance (run : DocumentRun) (action : ProjectAction) : Decidable (run.Keeps engine action) :=
  decidable_of_iff _ DocumentRun.keeps_iff.symm

/-- A file of two units, a change of one of its companies, and another document. -/
def fileThenText : List ProjectAction :=
  [.anonymizeFile "en".toList allCategories
      [(none, "ТОВ «Ant».".toList), (none, "ТОВ «Bee», ТОВ «BEE»".toList)],
    .edit (organisation, 2) (some "Wasp".toList) none, .lock,
    .anonymizeText "uk".toList allCategories "Від ТОВ «Bee»".toList]

theorem restoredTexts_fileThenText : ∃ run,
    runAllowed (DocumentRun.Keeps sampleEngine) (DocumentRun.step sampleEngine) .new
      fileThenText = some run ∧
    sampleEngine.restoredTexts run.project
        ["ТОВ «Company-1».".toList, "ТОВ «Company-2», ТОВ «Company-2»".toList] =
      ["ТОВ «Ant».".toList, "ТОВ «Bee», ТОВ «BEE»".toList] := by
  have made : (runAllowed (DocumentRun.Keeps sampleEngine) (DocumentRun.step sampleEngine) .new
      fileThenText).any (fun run => run.documents[1]?.any fun units =>
        decide (units.map UnitCopy.copy =
          ["ТОВ «Company-1».".toList, "ТОВ «Company-2», ТОВ «Company-2»".toList] ∧
        units.map UnitCopy.text = ["ТОВ «Ant».".toList, "ТОВ «Bee», ТОВ «BEE»".toList]) &&
        units.all fun unit => decide (unit.Legible sampleEngine.casing)) = true := by
    decide +kernel
  obtain ⟨run, reached, made⟩ := (Option.any_eq_true _ _).mp made
  obtain ⟨units, there, made⟩ := (Option.any_eq_true _ _).mp made
  obtain ⟨named, legible⟩ := (Bool.and_eq_true _ _).mp made
  obtain ⟨copies, texts⟩ := of_decide_eq_true named
  refine ⟨run, reached, ?_⟩
  rw [← copies, ← texts]
  exact restoredTexts_of_run sampleEngine labelTables_cyrillic (reachesBy_of_runAllowed reached)
    units (List.mem_of_getElem? there) fun unit member =>
      of_decide_eq_true (List.all_eq_true.mp legible unit member)

/-! ## Texts -/

/-- Every text that was anonymized in a run comes back from its own copy, whatever was anonymized
since. Two conditions are put on it: no step makes a document whose labels another document has in
the same order with other spellings, or deletes an entity that a document shows; and the search
finds in the copy the labels that were put in and no others. -/
theorem restoreText_of_run (engine : Engine) (tables : LabelTables engine.casing)
    {run : DocumentRun}
    (reaches : ReachesBy (DocumentRun.Keeps engine) (DocumentRun.step engine) .new run) :
    ∀ unit : UnitCopy, [unit] ∈ run.documents → unit.Legible engine.casing →
      engine.restoreText run.project unit.copy = unit.text := by
  intro unit member legible
  have restored := (restorable_of_run reaches).restoredTexts_eq tables member
    (List.forall_mem_singleton.mpr legible)
  exact List.singleton_inj.mp restored

/-- Two texts with one company, the second one with another label in front. -/
def beeTwice : List ProjectAction :=
  [.anonymizeText "en".toList allCategories "ТОВ «Bee»".toList,
    .anonymizeText "en".toList allCategories "ТОВ «Ant» і ТОВ «BEE»".toList, .lock]

/-- A company that another text spells in another way, with another label in front: the first text
still comes back in its own spelling. -/
theorem restoreText_of_run_beeTwice : ∃ run,
    runAllowed (DocumentRun.Keeps sampleEngine) (DocumentRun.step sampleEngine) .new beeTwice =
      some run ∧
    sampleEngine.restoreText run.project "ТОВ «Company-1»".toList = "ТОВ «Bee»".toList := by
  have made : (runAllowed (DocumentRun.Keeps sampleEngine) (DocumentRun.step sampleEngine) .new
      beeTwice).any (fun run => run.documents[1]?.any fun units => units.any fun unit =>
        decide (units = [unit] ∧ unit.copy = "ТОВ «Company-1»".toList ∧
          unit.text = "ТОВ «Bee»".toList ∧ unit.Legible sampleEngine.casing)) = true := by
    decide +kernel
  obtain ⟨run, reached, made⟩ := (Option.any_eq_true _ _).mp made
  obtain ⟨units, there, made⟩ := (Option.any_eq_true _ _).mp made
  obtain ⟨unit, _, made⟩ := List.any_eq_true.mp made
  obtain ⟨rfl, copied, text, legible⟩ := of_decide_eq_true made
  refine ⟨run, reached, ?_⟩
  rw [← copied, ← text]
  exact restoreText_of_run sampleEngine labelTables_cyrillic (reachesBy_of_runAllowed reached) unit
    (List.mem_of_getElem? there) legible

/-- Two texts with the same labels in different spellings. -/
def spelledTwice : List ProjectAction :=
  [.anonymizeText "en".toList allCategories "ТОВ «Bee»".toList,
    .anonymizeText "en".toList allCategories "ТОВ «BEE»".toList]

/-- The second document takes the record of the first one over: both have the same copy, whose
label is recognised, and it comes back in the spelling of the second. -/
theorem restoreText_spelledTwice : ∃ run,
    runSteps (DocumentRun.step sampleEngine) .new spelledTwice = some run ∧
    run.documents.map (List.map UnitCopy.text) = [["ТОВ «BEE»".toList], ["ТОВ «Bee»".toList]] ∧
    run.documents.map (List.map UnitCopy.copy) =
      [["ТОВ «Company-1»".toList], ["ТОВ «Company-1»".toList]] ∧
    (∀ units ∈ run.documents, ∀ unit ∈ units, unit.Legible sampleEngine.casing) ∧
    sampleEngine.restoreText run.project "ТОВ «Company-1»".toList = "ТОВ «BEE»".toList := by
  have made : (runSteps (DocumentRun.step sampleEngine) .new spelledTwice).any (fun run =>
      decide (run.documents.map (List.map UnitCopy.text) =
          [["ТОВ «BEE»".toList], ["ТОВ «Bee»".toList]] ∧
        run.documents.map (List.map UnitCopy.copy) =
          [["ТОВ «Company-1»".toList], ["ТОВ «Company-1»".toList]] ∧
        (∀ units ∈ run.documents, ∀ unit ∈ units, unit.Legible sampleEngine.casing) ∧
        sampleEngine.restoreText run.project "ТОВ «Company-1»".toList = "ТОВ «BEE»".toList)) =
      true := by
    decide +kernel
  obtain ⟨run, reached, made⟩ := (Option.any_eq_true _ _).mp made
  exact ⟨run, reached, of_decide_eq_true made⟩

end RedactGate.Desktop
