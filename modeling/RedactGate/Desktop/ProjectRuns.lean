import RedactGate.Desktop.Units

/-!
# Runs of a project

What is done with a project in the desktop program, one call after the other. A call that
raises is no step: what it has done before it raised, it did by detections and mentions.
-/
namespace RedactGate.Desktop

open Library

namespace Engine

variable (engine : Engine)

/-- `finish_anon` and `record_document`: the labels of the document are counted, and its record is
put in front of the others. -/
def record (run : RunState) (p : Project) : Project :=
  { p with
    file := p.file.bump (countsOf run.counted)
    documents :=
      ⟨engine.labelDigest (run.occurrences.map Occurrence.key), run.occurrences⟩ :: p.documents }

/-- The units of a file, each with the category that is forced on it, one after the other; a unit
that raises ends the file. -/
def anonymizeUnits (lang : Text) (options : Options) : List (Option Text × Text) → RunState →
    Project → Option (List (List Replacement) × RunState × Project)
  | [], run, p => some ([], run, p)
  | unit :: units, run, p => do
    let (reps, run, p) ← engine.anonymizeUnit lang options unit.1 unit.2 run p
    let (rest, run, p) ← anonymizeUnits lang options units run p
    some (reps :: rest, run, p)

/-- `anonymize_file`, of the text units of a file: unit after unit in one run, and then the document
is recorded. -/
def anonymizeFile (lang : Text) (options : Options) (units : List (Option Text × Text))
    (p : Project) : Option (List (List Replacement) × Project) :=
  (engine.anonymizeUnits lang options units .empty p).map fun (reps, run, p) =>
    (reps, engine.record run p)

end Engine

/-- What is done with a project: by the detector, by anonymizing and restoring, by the user's edits,
and by locking it. -/
inductive ProjectAction where
  | detect (options : Options) (force : Option Text) (text : Text)
  | mention (category surface : Text)
  | prescan (options : Options) (force : Option Text) (text : Text)
  | anonymizeText (lang : Text) (options : Options) (text : Text)
  | anonymizeFile (lang : Text) (options : Options) (units : List (Option Text × Text))
  | restore (texts : List Text)
  | addManual (category value : Text) (excluded : Bool)
  | edit (key : LabelKey) (value : Option Text) (excluded : Option Bool)
  | delete (key : LabelKey)
  | deleteProject
  | lock

namespace Engine

variable (engine : Engine)

/-- A step of a project, and none if it raises. The server drops the dictionary of the detector
whenever it changes an entity. -/
def act (p : Project) : ProjectAction → Option Project
  | .detect options force text => some (engine.detect options force text p).2
  | .mention category surface => (engine.resolveMention category surface p).map Prod.snd
  | .prescan options force text => engine.prescanUnit options force text p
  | .anonymizeText lang options text =>
    (engine.anonymizeText lang options text p).map fun done => done.2.2
  | .anonymizeFile lang options units => (engine.anonymizeFile lang options units p).map Prod.snd
  -- restoring only loads the memory
  | .restore _ => some { p with file := p.file.load engine.order }
  | .addManual category value excluded =>
    (engine.addManual p.file category value excluded).map fun added =>
      { p with file := added.2, dictionary := none }
  | .edit key value excluded =>
    (engine.edit p.file key value excluded).map fun file =>
      { p with file := file, dictionary := none }
  | .delete key => engine.deleteEntity p key
  | .deleteProject => some Project.new
  | .lock => some { p with file := p.file.lock }

theorem anonymizeText_eq (lang : Text) (options : Options) (text : Text) (p : Project) :
    engine.anonymizeText lang options text p =
      (engine.anonymizeUnit lang options none text .empty p).map fun (reps, run, p) =>
        (applyReplacements text (reps.map Replacement.toEdit), reps, engine.record run p) := rfl

/-! ## What units keep -/

/-- A property of projects that detections and mentions keep, and with them everything that is made
of these. -/
structure Stable (P : Project → Prop) : Prop where
  dictionary : ∀ {p}, P p → P (engine.dictionaryOf p).2
  mention : ∀ {category surface p key p'}, P p →
    engine.resolveMention category surface p = some (key, p') → P p'

namespace Stable

variable {engine} {P : Project → Prop} (stable : engine.Stable P) {p p' : Project} (holds : P p)

include stable holds

theorem detect (options : Options) (force : Option Text) (text : Text) :
    P (engine.detect options force text p).2 := by
  rw [Engine.detect]
  split
  · exact holds
  · exact stable.dictionary holds

theorem resolveSpans {text : Text} {spans : List (EntitySpan ℚ)} {mentions : List Mention}
    (resolved : engine.resolveSpans text spans p = some (mentions, p')) : P p' := by
  induction spans generalizing p mentions with
  | nil =>
    obtain ⟨rfl, rfl⟩ := Prod.mk.inj (Option.some.inj resolved)
    exact holds
  | cons s spans ih =>
    obtain ⟨⟨key, p₁⟩, first, tail⟩ := Option.bind_eq_some_iff.mp resolved
    obtain ⟨⟨later, p₂⟩, rest, same⟩ := Option.map_eq_some_iff.mp tail
    obtain ⟨rfl, rfl⟩ := Prod.mk.inj same
    exact ih (stable.mention holds first) rest

theorem prescanUnit {options : Options} {force : Option Text} {text : Text}
    (done : engine.prescanUnit options force text p = some p') : P p' := by
  have scanned {spans : List (EntitySpan ℚ)} {p : Project} (holds : P p)
      (done : spans.foldlM (fun p s =>
        (engine.resolveMention s.entityType (text.slice s.start s.stop) p).map Prod.snd) p =
          some p') : P p' := by
    induction spans generalizing p with
    | nil =>
      obtain rfl := Option.some.inj done
      exact holds
    | cons s spans ih =>
      rw [List.foldlM_cons] at done
      obtain ⟨p₁, first, rest⟩ := Option.bind_eq_some_iff.mp done
      obtain ⟨⟨key, p₂⟩, resolved, rfl⟩ := Option.map_eq_some_iff.mp first
      exact ih (stable.mention holds resolved) rest
  exact scanned (stable.detect holds options force text) done

theorem anonymizeUnit {lang : Text} {options : Options} {force : Option Text} {text : Text}
    {run run' : RunState} {reps : List Replacement}
    (done : engine.anonymizeUnit lang options force text run p = some (reps, run', p')) : P p' := by
  simp only [Engine.anonymizeUnit, labelSpans_eq, Option.map_map, Option.map_eq_some_iff] at done
  obtain ⟨⟨mentions, resolved⟩, mentioned, made⟩ := done
  obtain ⟨_, _, rfl⟩ := made
  exact stable.resolveSpans (stable.detect holds options force text) mentioned

theorem anonymizeUnits {lang : Text} {options : Options} {units : List (Option Text × Text)}
    {run run' : RunState} {reps : List (List Replacement)}
    (done : engine.anonymizeUnits lang options units run p = some (reps, run', p')) : P p' := by
  induction units generalizing run p reps with
  | nil =>
    obtain ⟨_, _, rfl⟩ := done
    exact holds
  | cons unit units ih =>
    obtain ⟨⟨reps₁, run₁, p₁⟩, first, rest⟩ := Option.bind_eq_some_iff.mp done
    obtain ⟨⟨reps₂, run₂, p₂⟩, later, same⟩ := Option.bind_eq_some_iff.mp rest
    obtain ⟨_, _, rfl⟩ := same
    exact ih (stable.anonymizeUnit holds first) later

end Stable

end Engine

end RedactGate.Desktop
