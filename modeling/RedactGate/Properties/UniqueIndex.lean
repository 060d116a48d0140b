import RedactGate.Desktop.Indexing
import RedactGate.Desktop.ProjectRuns

/-!
# Nothing breaks the unique index

In every state of a project every mention can be resolved, so texts and files are always
anonymized: no call raises because a fingerprint is already in the table. Only an entity that
is not there can be neither changed nor deleted.
-/
namespace RedactGate.Desktop

open Library

variable {engine : Engine} {p p' : Project}

variable (engine) in
theorem stable_ready : engine.Stable fun p => Ready p.file where
  dictionary ready := by
    rw [Engine.dictionaryOf]
    split
    · exact ready.load
    · exact ready.load
  mention ready resolved := by
    obtain ⟨⟨key, file⟩, entered, same⟩ := Option.map_eq_some_iff.mp resolved
    obtain ⟨_, rfl⟩ := Prod.mk.inj same
    exact ready.resolve entered

theorem Ready.act (ready : Ready p.file) {action : ProjectAction}
    (acted : engine.act p action = some p') : Ready p'.file := by
  have stable := stable_ready engine
  -- readiness is stable under resolving; the calls that change tables by hand have their own lemma
  cases action with
  | detect options force text =>
    obtain rfl := Option.some.inj acted
    exact stable.detect ready options force text
  | mention category surface =>
    obtain ⟨⟨key, p₁⟩, resolved, rfl⟩ := Option.map_eq_some_iff.mp acted
    exact stable.mention ready resolved
  | prescan options force text => exact stable.prescanUnit ready acted
  | anonymizeText lang options text =>
    obtain ⟨done, anonymized, rfl⟩ := Option.map_eq_some_iff.mp acted
    rw [Engine.anonymizeText_eq] at anonymized
    obtain ⟨⟨reps, run, p₁⟩, unit, rfl⟩ := Option.map_eq_some_iff.mp anonymized
    exact (stable.anonymizeUnit ready unit).bump _
  | anonymizeFile lang options units =>
    obtain ⟨done, anonymized, rfl⟩ := Option.map_eq_some_iff.mp acted
    obtain ⟨⟨reps, run, p₁⟩, unitsDone, rfl⟩ := Option.map_eq_some_iff.mp anonymized
    exact (stable.anonymizeUnits ready unitsDone).bump _
  | restore texts =>
    obtain rfl := Option.some.inj acted
    exact ready.load
  | addManual category value excluded =>
    obtain ⟨⟨key, file⟩, added, rfl⟩ := Option.map_eq_some_iff.mp acted
    exact ready.addManual added
  | edit key value excluded =>
    obtain ⟨file, edited, rfl⟩ := Option.map_eq_some_iff.mp acted
    exact ready.edit edited
  | delete key =>
    obtain ⟨file, deleted, rfl⟩ := Option.map_eq_some_iff.mp acted
    exact ready.delete deleted
  | deleteProject =>
    obtain rfl := Option.some.inj acted
    exact ready_new
  | lock =>
    obtain rfl := Option.some.inj acted
    exact ready.lock

/-! ## Every unit is anonymized -/

theorem Ready.isSome_resolveMention (ready : Ready p.file) (category surface : Text) :
    (engine.resolveMention category surface p).isSome := by
  rw [Engine.resolveMention, Option.isSome_map]
  exact ready.isSome_resolve category surface .auto

theorem Ready.isSome_resolveSpans (ready : Ready p.file) (text : Text)
    (spans : List (EntitySpan ℚ)) : (engine.resolveSpans text spans p).isSome := by
  induction spans generalizing p with
  | nil => rfl
  | cons s spans ih =>
    obtain ⟨⟨key, p₁⟩, first⟩ := Option.isSome_iff_exists.mp
      (@Ready.isSome_resolveMention engine p ready s.entityType (text.slice s.start s.stop))
    have ready₁ := (stable_ready engine).mention ready first
    obtain ⟨⟨mentions, p₂⟩, rest⟩ := Option.isSome_iff_exists.mp (ih ready₁)
    simp [Engine.resolveSpans, first, rest]

theorem Ready.isSome_prescanUnit (ready : Ready p.file) (options : Options) (force : Option Text)
    (text : Text) : (engine.prescanUnit options force text p).isSome := by
  have scanned {p : Project} (ready : Ready p.file) (spans : List (EntitySpan ℚ)) :
      (spans.foldlM (fun p s => (engine.resolveMention s.entityType (text.slice s.start s.stop)
        p).map Prod.snd) p).isSome := by
    induction spans generalizing p with
    | nil => rfl
    | cons s spans ih =>
      obtain ⟨⟨key, p₁⟩, first⟩ := Option.isSome_iff_exists.mp
        (@Ready.isSome_resolveMention engine p ready s.entityType (text.slice s.start s.stop))
      rw [List.foldlM_cons, first]
      exact ih ((stable_ready engine).mention ready first)
  exact scanned ((stable_ready engine).detect ready options force text) _

theorem Ready.isSome_anonymizeUnit (ready : Ready p.file) (lang : Text) (options : Options)
    (force : Option Text) (text : Text) (run : RunState) :
    (engine.anonymizeUnit lang options force text run p).isSome := by
  have detected := (stable_ready engine).detect ready options force text
  simp only [Engine.anonymizeUnit, Engine.labelSpans_eq, Option.map_map, Option.isSome_map]
  exact detected.isSome_resolveSpans text _

theorem Ready.isSome_anonymizeUnits (ready : Ready p.file) (lang : Text) (options : Options)
    (units : List (Option Text × Text)) (run : RunState) :
    (engine.anonymizeUnits lang options units run p).isSome := by
  induction units generalizing run p with
  | nil => rfl
  | cons unit units ih =>
    obtain ⟨⟨reps, run₁, p₁⟩, first⟩ := Option.isSome_iff_exists.mp
      (@Ready.isSome_anonymizeUnit engine p ready lang options unit.1 unit.2 run)
    have ready₁ := (stable_ready engine).anonymizeUnit ready first
    obtain ⟨⟨rest, run₂, p₂⟩, later⟩ := Option.isSome_iff_exists.mp (ih ready₁ run₁)
    simp [Engine.anonymizeUnits, first, later]

/-! ## What is refused -/

theorem entityOf_eq_none_iff {st : VaultFile} {order : RowOrder} (ready : Ready st)
    {key : LabelKey} : st.entityOf order key = none ↔ key ∉ st.tables.keys := by
  rw [← Option.not_isSome_iff_eq_none, not_iff_not]
  constructor
  · intro found
    obtain ⟨e, here⟩ := Option.isSome_iff_exists.mp found
    exact ready.good.mem_keys here
  · exact ready.good.isSome_entityOf

/-- Whether the action is to change or to delete the entity of the label, which has to be there for
it. -/
def ProjectAction.OnEntity (key : LabelKey) : ProjectAction → Prop
  | .edit named _ _ | .delete named => named = key
  | .detect _ _ _ | .mention _ _ | .prescan _ _ _ | .anonymizeText _ _ _ | .anonymizeFile _ _ _
  | .restore _ | .addManual _ _ _ | .deleteProject | .lock => False

theorem Ready.act_eq_none_iff (ready : Ready p.file) (action : ProjectAction) :
    engine.act p action = none ↔ ∃ key, action.OnEntity key ∧ key ∉ p.file.tables.keys := by
  -- only the two actions that name an entity can fail, and only for an entity that is gone
  have never {P : Prop} (done : (engine.act p action).isSome) (absurd : ¬P) :
      engine.act p action = none ↔ P :=
    ⟨fun none => by simp [none] at done, fun holds => (absurd holds).elim⟩
  have other (off : ∀ key, ¬action.OnEntity key) :
      ¬∃ key, action.OnEntity key ∧ key ∉ p.file.tables.keys := by
    rintro ⟨key, on, _⟩
    exact off key on
  cases action with
  | detect options force text => exact never rfl (other fun _ => id)
  | mention category surface =>
    refine never ?_ (other fun _ => id)
    rw [Engine.act, Option.isSome_map]
    exact ready.isSome_resolveMention category surface
  | prescan options force text =>
    exact never (ready.isSome_prescanUnit options force text) (other fun _ => id)
  | anonymizeText lang options text =>
    refine never ?_ (other fun _ => id)
    rw [Engine.act, Option.isSome_map, Engine.anonymizeText_eq, Option.isSome_map]
    exact ready.isSome_anonymizeUnit lang options none text .empty
  | anonymizeFile lang options units =>
    refine never ?_ (other fun _ => id)
    rw [Engine.act, Option.isSome_map, Engine.anonymizeFile, Option.isSome_map]
    exact ready.isSome_anonymizeUnits lang options units .empty
  | restore texts => exact never rfl (other fun _ => id)
  | addManual category value excluded =>
    refine never ?_ (other fun _ => id)
    rw [Engine.act, Option.isSome_map]
    exact ready.isSome_addManual category value excluded
  | edit key value excluded =>
    have absent : engine.edit p.file key value excluded = none ↔
        (p.file.load engine.order).entityOf engine.order key = none := by
      rw [Anonymizer.edit]
      cases (p.file.load engine.order).entityOf engine.order key with
      | none => exact iff_of_true rfl rfl
      | some e => exact iff_of_false (Option.some_ne_none _) (Option.some_ne_none _)
    have keys : (p.file.load engine.order).tables = p.file.tables := rfl
    rw [Engine.act, Option.map_eq_none_iff, absent, entityOf_eq_none_iff ready.load, keys]
    constructor
    · exact fun missing => ⟨key, rfl, missing⟩
    · rintro ⟨_, rfl, missing⟩
      exact missing
  | delete key =>
    have absent : engine.delete p.file key = none ↔
        (p.file.load engine.order).entityOf engine.order key = none := by
      rw [Anonymizer.delete]
      cases (p.file.load engine.order).entityOf engine.order key with
      | none => exact iff_of_true rfl rfl
      | some e => exact iff_of_false (Option.some_ne_none _) (Option.some_ne_none _)
    have keys : (p.file.load engine.order).tables = p.file.tables := rfl
    rw [Engine.act, Engine.deleteEntity, Option.map_eq_none_iff, absent,
      entityOf_eq_none_iff ready.load, keys]
    constructor
    · exact fun missing => ⟨key, rfl, missing⟩
    · rintro ⟨_, rfl, missing⟩
      exact missing
  | deleteProject => exact never rfl (other fun _ => id)
  | lock => exact never rfl (other fun _ => id)

theorem ready_of_reaches (reaches : Reaches engine.act .new p) : Ready p.file :=
  reaches.invariant (P := fun p => Ready p.file) ready_new
    fun _ _ _ ready acted => ready.act acted

/-- Of everything that is done with a project only the change and the deletion of an entity that is
not there are refused, in every state that actions lead to. -/
theorem refused_iff (engine : Engine) {p : Project} (reaches : Reaches engine.act .new p)
    (action : ProjectAction) :
    engine.act p action = none ↔ ∃ key, action.OnEntity key ∧ key ∉ p.file.tables.keys :=
  (ready_of_reaches reaches).act_eq_none_iff action

theorem refused_onlyAnt : ∃ p,
    runSteps sampleEngine.act .new [.mention organisation "Ant".toList] = some p ∧
    sampleEngine.act p (.delete (organisation, 2)) = none ∧
    ∀ lang text, sampleEngine.act p (.anonymizeText lang allCategories text) ≠ none := by
  have made : (runSteps sampleEngine.act .new [.mention organisation "Ant".toList]).any (fun p =>
      decide (p.file.tables.keys = [(organisation, 1)])) = true := by
    decide +kernel
  obtain ⟨p, run, keys⟩ := (Option.any_eq_true _ _).mp made
  have refused := refused_iff sampleEngine (reaches_of_runSteps run)
  refine ⟨p, run, (refused _).mpr ⟨(organisation, 2), rfl, ?_⟩, fun lang text none => ?_⟩
  · rw [of_decide_eq_true keys]
    decide
  · obtain ⟨_, never, _⟩ := (refused _).mp none
    exact never

end RedactGate.Desktop
