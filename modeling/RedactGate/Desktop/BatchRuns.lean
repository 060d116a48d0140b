import RedactGate.Desktop.Batches

/-!
# Batches as runs of the project

Whatever happens to the files of a batch, what it does to the project is done by detections,
mentions, scans and whole files: a file that fails has done some of its detections and
mentions, and a file that is written is one document.
-/
namespace RedactGate.Desktop

open Library

variable {engine : Engine} {p p' : Project}

/-- The states that actions of a kind lead a project to. -/
abbrev Engine.Reached (engine : Engine) (kind : ProjectAction → Prop) (p p' : Project) : Prop :=
  ReachesBy (fun _ action => kind action) engine.act p p'

theorem reached_act {kind : ProjectAction → Prop} {action : ProjectAction} (fits : kind action)
    (acted : engine.act p action = some p') : engine.Reached kind p p' :=
  .step action .refl fits acted

/-- What a batch does with a project when it is anonymized: its first pass scans units ahead, its
second one anonymizes files. -/
def ProjectAction.Anonymizes : ProjectAction → Prop
  | .detect _ _ _ | .mention _ _ | .prescan _ _ _ | .anonymizeFile _ _ _ => True
  | .anonymizeText _ _ _ | .restore _ | .addManual _ _ _ | .edit _ _ _ | .delete _
  | .deleteProject | .lock => False

/-- What a batch does with a project when it is restored, which only brings its tables into memory. -/
def ProjectAction.Loads : ProjectAction → Prop
  | .restore _ => True
  | .detect _ _ _ | .mention _ _ | .prescan _ _ _ | .anonymizeFile _ _ _ | .anonymizeText _ _ _
  | .addManual _ _ _ | .edit _ _ _ | .delete _ | .deleteProject | .lock => False

/-- What a batch does. -/
def Direction.Does : Direction → ProjectAction → Prop
  | .anonymize => ProjectAction.Anonymizes
  | .restore => ProjectAction.Loads

theorem reached_resolveSpans {text : Text} {spans : List (EntitySpan ℚ)} {mentions : List Mention}
    (resolved : engine.resolveSpans text spans p = some (mentions, p')) :
    engine.Reached ProjectAction.Anonymizes p p' := by
  induction spans generalizing p mentions with
  | nil =>
    obtain ⟨rfl, rfl⟩ := Prod.mk.inj (Option.some.inj resolved)
    exact .refl
  | cons s spans ih =>
    obtain ⟨⟨key, p₁⟩, first, tail⟩ := Option.bind_eq_some_iff.mp resolved
    obtain ⟨⟨later, p₂⟩, rest, same⟩ := Option.map_eq_some_iff.mp tail
    obtain ⟨rfl, rfl⟩ := Prod.mk.inj same
    have mentioned :
        engine.act p (.mention s.entityType (text.slice s.start s.stop)) = some p₁ := by
      rw [Engine.act, first, Option.map_some]
    exact (reached_act trivial mentioned).trans (ih rest)

theorem reached_anonymizeUnit {lang : Text} {options : Options} {force : Option Text} {text : Text}
    {run run' : RunState} {reps : List Replacement}
    (done : engine.anonymizeUnit lang options force text run p = some (reps, run', p')) :
    engine.Reached ProjectAction.Anonymizes p p' := by
  simp only [Engine.anonymizeUnit, Engine.labelSpans_eq, Option.map_map,
    Option.map_eq_some_iff] at done
  obtain ⟨⟨mentions, resolved⟩, mentioned, made⟩ := done
  obtain ⟨_, _, rfl⟩ := made
  have detected : engine.act p (.detect options force text) =
      some (engine.detect options force text p).2 := rfl
  exact (reached_act trivial detected).trans (reached_resolveSpans mentioned)

/-! ## Files -/

variable {lower : Text → Text} {handlers : Handlers}

/-- The rewriting of a file that is anonymized: it has done some actions, and where it comes to
its end, it has anonymized units. -/
theorem run_anonymizeUnit (lang : Text) (options : Options) (rewriting : Rewriting) (run : RunState)
    (p : Project) :
    engine.Reached ProjectAction.Anonymizes p
        (rewriting.run (engine.calls.anonymizeUnit lang options) (run, p)).2.2 ∧
      ∀ out run' p', rewriting.run (engine.calls.anonymizeUnit lang options) (run, p) =
        (.ok out, run', p') →
        ∃ units reps, engine.anonymizeUnits lang options units run p = some (reps, run', p') := by
  -- on what the handler has still to ask for; run state and project are those of the questions
  -- before
  induction rewriting generalizing run p with
  | done out =>
    refine ⟨.refl, fun out' run' p' outcome => ?_⟩
    obtain ⟨_, rfl, rfl⟩ := outcome
    exact ⟨[], [], rfl⟩
  | fail error => exact ⟨.refl, fun _ _ _ outcome => by cases (Prod.mk.inj outcome).1⟩
  | ask text force next ih =>
    cases unit : engine.anonymizeUnit lang options force text run p with
    -- the engine refuses the unit: the handler does not catch it, so the file ends here
    | none =>
      have failed : (Rewriting.ask text force next).run (engine.calls.anonymizeUnit lang options)
          (run, p) = (.error integrityError, run, p) := by
        simp only [Rewriting.run, Engine.calls, unit]
      rw [failed]
      exact ⟨.refl, fun _ _ _ outcome => by cases (Prod.mk.inj outcome).1⟩
    | some made =>
      obtain ⟨reps, run₁, p₁⟩ := made
      have asked : (Rewriting.ask text force next).run (engine.calls.anonymizeUnit lang options)
          (run, p) = (next reps).run (engine.calls.anonymizeUnit lang options) (run₁, p₁) := by
        simp only [Rewriting.run, Engine.calls, unit]
      rw [asked]
      obtain ⟨reached, ended⟩ := ih reps run₁ p₁
      refine ⟨(reached_anonymizeUnit unit).trans reached, fun out run' p' outcome => ?_⟩
      obtain ⟨units, rest, later⟩ := ended out run' p' outcome
      exact ⟨(force, text) :: units, reps :: rest, by simp [Engine.anonymizeUnits, unit, later]⟩

theorem reached_anonymizeFile (lang : Text) (options : Options) (file : BatchFile) (p : Project) :
    engine.Reached ProjectAction.Anonymizes p
      (anonymizeFile lower handlers engine.calls lang options file p).2 := by
  rw [anonymizeFile]
  split
  · exact .refl
  · next kind _ =>
    obtain ⟨reached, ended⟩ := @run_anonymizeUnit engine lang options
      (handlers.rewrite kind file.name file.data) .empty p
    split
    · next error run p₁ failed =>
      rw [anonymizing] at failed
      rwa [failed] at reached
    · next out run p₁ written =>
      -- a file that was written is one action of the project, with the units the handler asked for
      obtain ⟨units, reps, made⟩ := ended out run p₁ written
      have acted : engine.act p (.anonymizeFile lang options units) =
          some (engine.record run p₁) := by
        rw [Engine.act, Engine.anonymizeFile, made, Option.map_some, Option.map_some]
      exact @reached_act engine p _ _ (.anonymizeFile lang options units) trivial acted

theorem reached_restoreFile (file : BatchFile) (p : Project) :
    engine.Reached ProjectAction.Loads p (restoreFile lower handlers engine.calls file p).2 := by
  -- whatever the handler asks for, restoring a unit does no more than load the project
  have loads (rewriting : Rewriting) (recorded : Option (List Occurrence)) (run : RestoreRun)
      (p : Project) : engine.Reached ProjectAction.Loads p (rewriting.run (fun text _ t =>
        (.ok (engine.calls.restoreUnit recorded text t).1,
          (engine.calls.restoreUnit recorded text t).2)) (run, p)).2.2 := by
    induction rewriting generalizing run p with
    | done out => exact .refl
    | fail error => exact .refl
    | ask text force next ih =>
      exact (@reached_act engine p _ _ (.restore []) trivial rfl).trans (ih _ _ _)
  rw [restoreFile]
  split
  · exact .refl
  · next kind _ =>
    split
    · exact .refl
    · next units _ =>
      have reached := loads (handlers.rewrite kind file.name file.data)
        (engine.calls.exactMap (units.map TextUnit.text) p) ⟨[], [], 0⟩ p
      dsimp only
      split
      · next error run p₁ failed =>
        rw [restoring] at failed
        rwa [failed] at reached
      · next out run p₁ written =>
        rw [restoring] at written
        rw [written] at reached
        split
        · exact reached
        · exact reached

/-! ## Batches -/

theorem reached_prescanUnits (options : Options) (units : List TextUnit) (p : Project) :
    engine.Reached ProjectAction.Anonymizes p (prescanUnits engine.calls options units p).2 := by
  induction units generalizing p with
  | nil => exact .refl
  | cons unit units ih =>
    cases scanned : engine.prescanUnit options unit.force unit.text p with
    | none =>
      have failed : prescanUnits engine.calls options (unit :: units) p =
          (.error integrityError, p) := by
        simp only [prescanUnits, Engine.calls, scanned]
      exact failed ▸ .refl
    | some p₁ =>
      have went : prescanUnits engine.calls options (unit :: units) p =
          prescanUnits engine.calls options units p₁ := by
        simp only [prescanUnits, Engine.calls, scanned]
      have acted : engine.act p (.prescan options unit.force unit.text) = some p₁ := scanned
      exact went ▸ (reached_act trivial acted).trans (ih p₁)

theorem reached_prescanFiles (options : Options) (files : List BatchFile) (p : Project) :
    engine.Reached ProjectAction.Anonymizes p
      (prescanFiles lower handlers engine.calls options files p).2 := by
  induction files generalizing p with
  | nil => exact .refl
  | cons file files ih =>
    rw [prescanFiles]
    split
    · exact .refl
    · next units _ =>
      have reached := @reached_prescanUnits engine options units p
      split
      · next p₁ scanned =>
        rw [scanned] at reached
        exact reached.trans (ih p₁)
      · next raised _ => exact reached

theorem reached_prescanBatch (options : Options) (files : List BatchFile) (p : Project) :
    engine.Reached ProjectAction.Anonymizes p
      (prescanBatch lower handlers engine.calls options files p).2 := by
  have reached := @reached_prescanFiles engine lower handlers options files p
  rw [prescanBatch]
  split
  · next p₁ failed =>
    rw [failed] at reached
    split
    · exact reached
    · next kept _ => exact reached.trans (reached_prescanFiles options kept p₁)
  · exact reached

theorem reached_serve (direction : Direction) (lang : Text) (options : Options) (file : BatchFile)
    (p : Project) :
    engine.Reached direction.Does p
      (serve lower handlers engine.calls direction lang options file p).2 := by
  cases direction with
  | anonymize =>
    have reached := @reached_anonymizeFile engine lower handlers lang options file p
    rw [serve]
    dsimp only
    split
    · exact reached
    · exact reached
  | restore =>
    have reached := @reached_restoreFile engine lower handlers file p
    rw [serve]
    dsimp only
    split
    · exact reached
    · exact reached

theorem reached_serveAll (direction : Direction) (lang : Text) (options : Options)
    (files : List BatchFile) (p : Project) :
    engine.Reached direction.Does p
      (serveAll lower handlers engine.calls direction lang options files p).2 := by
  induction files generalizing p with
  | nil => exact .refl
  | cons file files ih => exact (reached_serve direction lang options file p).trans (ih _)

theorem reached_runBatch (direction : Direction) (lang : Text) (options : Options)
    (files : List BatchFile) (p : Project) :
    engine.Reached direction.Does p
      (runBatch lower handlers engine.calls direction lang options files p).2 := by
  cases direction with
  | anonymize =>
    have scanned := @reached_prescanBatch engine lower handlers options files p
    rw [runBatch]
    dsimp only
    split
    · exact scanned
    · exact scanned.trans (reached_serveAll .anonymize lang options files _)
  | restore => exact reached_serveAll .restore lang options files p

end RedactGate.Desktop
