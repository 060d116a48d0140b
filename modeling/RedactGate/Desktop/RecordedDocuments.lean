import RedactGate.Desktop.InsertedLabels
import RedactGate.Desktop.LabelsInUse
import RedactGate.Desktop.ProjectRuns
import RedactGate.Desktop.Restoring

/-!
# Recorded documents

A document comes back from its copies, unit by unit, as long as its labels are in use, the newest
record under its digest is its own, and the search finds in the copies the labels that were put
in and no others.
-/
namespace RedactGate.Desktop

open Library

/-- A text unit of a document with what is replaced in it, from which its copy can be made. -/
structure UnitCopy where
  text : Text
  reps : List Replacement
  deriving DecidableEq

namespace UnitCopy

/-- What the unit is rewritten to. -/
def copy (unit : UnitCopy) : Text :=
  applyReplacements unit.text (unit.reps.map Replacement.toEdit)

/-- What is recorded of a document. -/
def record (units : List UnitCopy) : List Occurrence :=
  units.flatMap fun unit => Engine.recordOf unit.reps

/-- The search finds the labels that are put in and no others. -/
def Legible (casing : Casing) (unit : UnitCopy) : Prop :=
  findLabels casing unit.copy = insertedHits 0 0 unit.reps

instance (casing : Casing) (unit : UnitCopy) : Decidable (unit.Legible casing) :=
  inferInstanceAs (Decidable (_ = _))

/-- The replacements lie in the text and stand for what is there. -/
structure Made (unit : UnitCopy) : Prop where
  placed : Placed unit.text (unit.reps.map Replacement.toEdit)
  originals : ∀ r ∈ unit.reps, r.original = unit.text.slice r.start r.stop

end UnitCopy

variable {engine : Engine} {file : VaultFile} {units : List UnitCopy}

/-! ## A unit -/

theorem UnitCopy.Legible.filled (tables : LabelTables engine.casing) {unit : UnitCopy}
    (legible : unit.Legible engine.casing) : ∀ r ∈ unit.reps, r.new ≠ [] := by
  rw [UnitCopy.Legible] at legible
  intro r member
  have texts : r.new ∈ (findLabels engine.casing unit.copy).map LabelHit.text := by
    rw [legible, map_text_insertedHits]
    exact List.mem_map_of_mem member
  obtain ⟨hit, found, same⟩ := List.mem_map.mp texts
  obtain ⟨_, s, h, d, shape⟩ := label_of_mem_findLabels tables found
  obtain ⟨c, rest, begins, _⟩ := shape.head tables
  rw [← same, begins]
  exact List.cons_ne_nil _ _

/-- Putting back in the copy of a unit what was replaced gives the text of the unit, if no new text
is empty. -/
theorem UnitCopy.Made.undo_eq {unit : UnitCopy} (made : unit.Made)
    (filled : ∀ r ∈ unit.reps, r.new ≠ []) :
    applyReplacements unit.copy (Edit.undo unit.text 0 0 (unit.reps.map Replacement.toEdit)) =
      unit.text := by
  have filled' : ∀ e ∈ unit.reps.map Replacement.toEdit, e.new ≠ [] := fun e member => by
    obtain ⟨r, among, rfl⟩ := List.mem_map.mp member
    exact filled r among
  have undone : Placed (Edit.patch unit.text 0 (unit.reps.map Replacement.toEdit))
      (Edit.undo unit.text 0 0 (unit.reps.map Replacement.toEdit)) :=
    ⟨(Edit.patch_undo made.placed.ordered []).1, Edit.undo_proper filled'⟩
  rw [UnitCopy.copy, applyReplacements_eq made.placed, applyReplacements_eq undone]
  exact Edit.patch_undo_all made.placed.ordered

/-! ## The cursor -/

/-- Where every label has its entity, the cursor is at the place of the label. -/
theorem liveBefore_eq {keys : List LabelKey} (live : ∀ key ∈ keys, engine.live file key = true)
    {j : Nat} (inside : j ≤ keys.length) : engine.liveBefore file keys j = j := by
  have all : ∀ key ∈ keys.take j, engine.live file key = true := fun key member =>
    live key (List.mem_of_mem_take member)
  rw [Engine.liveBefore, List.countP_eq_length.mpr all, List.length_take, Nat.min_eq_left inside]

/-- If every entity of the record is live then every label gets the spelling that is recorded at its
place. -/
theorem cursorValue_of_live {exact : List Occurrence}
    (live : ∀ o ∈ exact, engine.live file o.key = true) {j : Nat} {o : Occurrence}
    (here : exact[j]? = some o) : engine.cursorValue file exact j o.key = o.surface := by
  have inside := (List.getElem?_eq_some_iff.mp here).1
  have live' : ∀ key ∈ exact.map Occurrence.key, engine.live file key = true := fun key member => by
    obtain ⟨o, among, rfl⟩ := List.mem_map.mp member
    exact live o among
  rw [Engine.cursorValue, liveBefore_eq live' (by rw [List.length_map]; omega), here]
  exact if_pos rfl

/-- The cursor stands where the record of a unit begins and every entity of it is live: then the
replacements for the unit's labels are those that undo the edits. -/
theorem placed_insertedHits {exact front back : List Occurrence} {text : Text}
    {reps : List Replacement} {pos pos' : Nat}
    (live : ∀ o ∈ exact, engine.live file o.key = true)
    (split : exact = front ++ Engine.recordOf reps ++ back)
    (originals : ∀ r ∈ reps, r.original = text.slice r.start r.stop) :
    (engine.placed file (fun j hit => engine.cursorValue file exact j hit.key) front.length
      (insertedHits pos pos' reps)).map Replacement.toEdit =
        Edit.undo text pos pos' (reps.map Replacement.toEdit) := by
  -- on the replacements; the cursor is as far as the entries in front of them
  induction reps generalizing front pos pos' with
  | nil => rfl
  | cons r reps ih =>
    obtain ⟨original, later⟩ := List.forall_mem_cons.mp originals
    have split' :
        exact = front ++ [⟨r.category, r.n, r.original⟩] ++ Engine.recordOf reps ++ back := by
      simp [split, Engine.recordOf]
    have here : exact[front.length]? = some ⟨r.category, r.n, r.original⟩ := by
      rw [split', List.append_assoc, List.append_assoc,
        List.getElem?_append_right (Nat.le_refl _), Nat.sub_self]
      rfl
    -- no entity is gone, so no label is passed over and the cursor stays in step
    have alive : engine.live file (r.category, r.n) = true := live _ (List.mem_of_getElem? here)
    have value : engine.cursorValue file exact front.length (r.category, r.n) = r.original :=
      cursorValue_of_live live here
    have rest := @ih _ r.stop (pos' + (r.start - pos) + r.new.length) split' later
    rw [List.length_append, List.length_singleton] at rest
    refine (congrArg (List.map Replacement.toEdit) (if_pos alive)).trans ?_
    rw [List.map_cons, rest]
    exact congrArg (fun new => (⟨_, _, new⟩ : Edit) :: _) (value.trans original)

/-- The units of a recorded document, by induction: each starts in the record where the units before
it have ended, and its replacements undo its own edits. -/
theorem placedUnits_copies {exact front back : List Occurrence}
    (live : ∀ o ∈ exact, engine.live file o.key = true)
    (split : exact = front ++ UnitCopy.record units ++ back)
    (legible : ∀ unit ∈ units, unit.Legible engine.casing) (made : ∀ unit ∈ units, unit.Made) :
    (engine.placedUnits file (fun j hit => engine.cursorValue file exact j hit.key) front.length
      (engine.unitHits (units.map UnitCopy.copy))).map (List.map Replacement.toEdit) =
        units.map fun unit => Edit.undo unit.text 0 0 (unit.reps.map Replacement.toEdit) := by
  induction units generalizing front with
  | nil => rfl
  | cons unit units ih =>
    obtain ⟨here, later⟩ := List.forall_mem_cons.mp legible
    obtain ⟨first, others⟩ := List.forall_mem_cons.mp made
    have split' : exact = front ++ Engine.recordOf unit.reps ++ UnitCopy.record units ++ back := by
      rw [split, UnitCopy.record, List.flatMap_cons, ← List.append_assoc]
      rfl
    have head := @placed_insertedHits _ _ _ _ _ _ _ 0 0 live
      (by rw [split', List.append_assoc _ _ back]) first.originals
    have rest := ih split' later others
    -- one entry for each label: behind the unit the cursor is where the next one begins
    have width : (Engine.recordOf unit.reps).length = (insertedHits 0 0 unit.reps).length := by
      rw [← List.length_map LabelHit.key, map_key_insertedHits, Engine.recordOf, List.length_map,
        List.length_map]
    rw [List.length_append, width] at rest
    rw [UnitCopy.Legible] at here
    simp only [List.map_cons, Engine.unitHits, Engine.placedUnits, here, head]
    exact congrArg _ rest

/-! ## A document -/

namespace Engine

variable (engine)

/-- What `restore_file` makes of the text units of a file. -/
def restoredTexts (p : Project) (texts : List Text) : List Text :=
  List.zipWith (fun text unit => applyReplacements text (unit.reps.map Replacement.toEdit)) texts
    (engine.restoreFile p texts)

/-- The digest under which a document is recorded. -/
def digestOf (units : List UnitCopy) : Text :=
  engine.labelDigest ((UnitCopy.record units).map Occurrence.key)

theorem restoreText_eq (p : Project) (text : Text) :
    [engine.restoreText p text] = engine.restoredTexts p [text] := rfl

end Engine

/-- What a project has to keep of a document for its copies to come back: its labels, and its record
as the newest under its digest. -/
structure Recorded (engine : Engine) (p : Project) (units : List UnitCopy) : Prop where
  made : ∀ unit ∈ units, unit.Made
  used : ∀ o ∈ UnitCopy.record units, o.key ∈ p.file.tables.keys
  newest : restoreMap p.documents (engine.digestOf units) = some (UnitCopy.record units)

/-- The labels that the search finds in the copies of a legible document are those of its record, in
order. -/
theorem flatMap_findLabels (legible : ∀ unit ∈ units, unit.Legible engine.casing) :
    (units.map UnitCopy.copy).flatMap (fun t => (findLabels engine.casing t).map LabelHit.key) =
      (UnitCopy.record units).map Occurrence.key := by
  induction units with
  | nil => rfl
  | cons unit units ih =>
    obtain ⟨here, later⟩ := List.forall_mem_cons.mp legible
    rw [UnitCopy.Legible] at here
    rw [List.map_cons, List.flatMap_cons, here, map_key_insertedHits, ih later, UnitCopy.record,
      UnitCopy.record, List.flatMap_cons, List.map_append, Engine.recordOf, List.map_map]
    rfl

/-- A document in which nothing was replaced has an empty record. Its copies are its texts, the
search finds no label in them, and restoring changes nothing. -/
theorem restoredTexts_of_no_label {p : Project} (empty : UnitCopy.record units = [])
    (legible : ∀ unit ∈ units, unit.Legible engine.casing) :
    engine.restoredTexts p (units.map UnitCopy.copy) = units.map UnitCopy.text := by
  have none : engine.exactMap p (units.map UnitCopy.copy) = none := by
    rw [Engine.exactMap, flatMap_findLabels legible, empty]
    rfl
  rw [Engine.restoredTexts, Engine.restoreFile, none]
  clear none
  -- without labels the cursor never moves, but the induction must not know that it is zero
  generalize 0 = cursor
  induction units generalizing cursor with
  | nil => rfl
  | cons unit units ih =>
    obtain ⟨here, later⟩ := List.forall_mem_cons.mp legible
    rw [UnitCopy.record, List.flatMap_cons, List.append_eq_nil_iff] at empty
    have no_rep : unit.reps = [] := List.map_eq_nil_iff.mp empty.1
    rw [UnitCopy.Legible, no_rep] at here
    have nothing : engine.restoreUnit p.file Option.none cursor unit.copy = ⟨[], [], cursor⟩ := by
      rw [Engine.restoreUnit, here]
      rfl
    have same : unit.copy = unit.text := by
      rw [UnitCopy.copy, no_rep]
      rfl
    rw [List.map_cons, Engine.restoreUnits, nothing, List.zipWith_cons_cons, List.map_cons,
      ih empty.2 later, same]
    rfl

/-- The copies of a recorded document come back as its texts, if every entity of the record is still
live and the search finds in each copy exactly the labels that were put in. -/
theorem Recorded.restoredTexts_eq (tables : LabelTables engine.casing) {p : Project}
    (good : GoodOn (fun _ => False) p.file) (recorded : Recorded engine p units)
    (legible : ∀ unit ∈ units, unit.Legible engine.casing) :
    engine.restoredTexts p (units.map UnitCopy.copy) = units.map UnitCopy.text := by
  by_cases empty : UnitCopy.record units = []
  · exact restoredTexts_of_no_label empty legible
  have live : ∀ o ∈ UnitCopy.record units, engine.live p.file o.key = true := fun o member =>
    good.isSome_entityOf (recorded.used o member)
  have keys := flatMap_findLabels legible
  have newest := recorded.newest
  -- the digest of the copies is that of the record, and the record is the newest one with it
  have exact_eq : engine.exactMap p (units.map UnitCopy.copy) = some (UnitCopy.record units) := by
    have filled : ((UnitCopy.record units).map Occurrence.key).isEmpty = false := by
      rw [List.isEmpty_eq_false_iff, Ne, List.map_eq_nil_iff]
      exact empty
    rw [Engine.digestOf] at newest
    simp only [Engine.exactMap, keys, filled, newest, Bool.false_eq_true, if_false]
    exact Option.filter_eq_some_iff.mpr ⟨rfl, decide_eq_true rfl⟩
  have here : At ((UnitCopy.record units).map Occurrence.key) 0
      (engine.unitHits (units.map UnitCopy.copy)).flatten := by
    refine ⟨[], [], ?_, rfl⟩
    rw [List.nil_append, List.append_nil, ← keys, Engine.unitHits, List.map_flatten, List.map_map]
    rfl
  have reps := (restoreUnits_eq engine p.file here).1
  have start : engine.liveBefore p.file ((UnitCopy.record units).map Occurrence.key) 0 = 0 := rfl
  have whole : UnitCopy.record units = [] ++ UnitCopy.record units ++ [] := by
    rw [List.nil_append, List.append_nil]
  -- every label is replaced by the spelling of its entry, and that undoes the edits
  have undone := placedUnits_copies live whole legible recorded.made
  rw [start] at reps
  rw [List.length_nil, ← reps, List.map_map] at undone
  have edits : (engine.restoreFile p (units.map UnitCopy.copy)).map
      (fun unit => unit.reps.map Replacement.toEdit) =
        units.map fun unit => Edit.undo unit.text 0 0 (unit.reps.map Replacement.toEdit) := by
    rw [Engine.restoreFile, exact_eq]
    exact undone
  calc engine.restoredTexts p (units.map UnitCopy.copy)
      = List.zipWith applyReplacements (units.map UnitCopy.copy)
          ((engine.restoreFile p (units.map UnitCopy.copy)).map
            fun unit => unit.reps.map Replacement.toEdit) := by
        rw [Engine.restoredTexts, List.zipWith_map_right]
    _ = units.map fun unit => applyReplacements unit.copy
          (Edit.undo unit.text 0 0 (unit.reps.map Replacement.toEdit)) := by
        rw [edits, List.zipWith_map, List.zipWith_self]
    _ = units.map UnitCopy.text := by
        refine List.map_congr_left fun unit member => ?_
        exact (recorded.made unit member).undo_eq ((legible unit member).filled tables)

end RedactGate.Desktop
