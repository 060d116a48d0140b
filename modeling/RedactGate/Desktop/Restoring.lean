import RedactGate.Desktop.Engine

/-!
# Restoring

The labels of a document are restored in step with the list of its mentions: a cursor moves
through the list, but it stands still at the label of an entity that is gone.
-/
namespace RedactGate.Desktop

open Library

variable (engine : Engine) (file : VaultFile)

/-- The entity of the label is there. -/
def Engine.live (key : LabelKey) : Bool := (file.entityOf engine.order key).isSome

namespace Engine

/-- The replacements of the labels of a unit the first of which is at the place `j` of the
document, each with the value for its place. -/
def placed (value : Nat → LabelHit → Text) : Nat → List LabelHit → List Replacement
  | _, [] => []
  | j, hit :: hits =>
    if engine.live file hit.key then
      ⟨⟨hit.start, hit.stop, value j hit⟩, hit.category, hit.number, hit.text⟩ ::
        placed value (j + 1) hits
    else placed value (j + 1) hits

/-- The replacements of the units of a document, where every label is told its place among all
labels of the document. -/
def placedUnits (value : Nat → LabelHit → Text) : Nat → List (List LabelHit) →
    List (List Replacement)
  | _, [] => []
  | j, hits :: units =>
    engine.placed file value j hits :: placedUnits value (j + hits.length) units

/-- The labels of the units. -/
def unitHits (texts : List Text) : List (List LabelHit) := texts.map (findLabels engine.casing)

/-- How many labels before a place still have their entities. -/
def liveBefore (keys : List LabelKey) (j : Nat) : Nat := (keys.take j).countP (engine.live file)

/-- What the cursor makes of the label at a place: the spelling recorded where the cursor is, if it
is of this label, else the canonical value. -/
def cursorValue (exact : List Occurrence) (j : Nat) (key : LabelKey) : Text :=
  let canonical := ((file.entityOf engine.order key).map (·.value)).getD []
  match exact[engine.liveBefore file (exact.map Occurrence.key) j]? with
  | some recorded => if recorded.key = key then recorded.surface else canonical
  | none => canonical

end Engine

variable {engine file}

/-! ## Places -/

/-- The labels stand at the places from `j` on. -/
def At (keys : List LabelKey) (j : Nat) (hits : List LabelHit) : Prop :=
  ∃ front back, keys = front ++ hits.map LabelHit.key ++ back ∧ front.length = j

theorem At.head {keys : List LabelKey} {j : Nat} {hit : LabelHit} {hits : List LabelHit}
    (here : At keys j (hit :: hits)) : keys[j]? = some hit.key := by
  obtain ⟨front, back, rfl, rfl⟩ := here
  simp

theorem At.tail {keys : List LabelKey} {j : Nat} {hit : LabelHit} {hits : List LabelHit}
    (here : At keys j (hit :: hits)) : At keys (j + 1) hits := by
  obtain ⟨front, back, rfl, rfl⟩ := here
  exact ⟨front ++ [hit.key], back, by simp, by simp⟩

theorem At.append {keys : List LabelKey} {j : Nat} {first rest : List LabelHit}
    (here : At keys j (first ++ rest)) : At keys j first ∧ At keys (j + first.length) rest := by
  obtain ⟨front, back, rfl, rfl⟩ := here
  refine ⟨⟨front, rest.map LabelHit.key ++ back, by simp, rfl⟩, ?_⟩
  exact ⟨front ++ first.map LabelHit.key, back, by simp, by simp⟩

theorem liveBefore_succ {keys : List LabelKey} {j : Nat} {key : LabelKey}
    (here : keys[j]? = some key) : engine.liveBefore file keys (j + 1) =
      engine.liveBefore file keys j + if engine.live file key then 1 else 0 := by
  rw [Engine.liveBefore, Engine.liveBefore, List.take_add_one, here, List.countP_append]
  simp [List.countP_cons]

variable (engine file) in
theorem liveBefore_le (keys : List LabelKey) (j : Nat) : engine.liveBefore file keys j ≤ j :=
  Nat.le_trans List.countP_le_length (by simp)

variable (engine file) in
/-- The cursor never leaves the list before the labels do. -/
theorem exists_at_cursor {exact : List Occurrence} {j : Nat} {key : LabelKey}
    (here : (exact.map Occurrence.key)[j]? = some key) :
    ∃ recorded, exact[engine.liveBefore file (exact.map Occurrence.key) j]? = some recorded := by
  obtain ⟨inside, _⟩ := List.getElem?_eq_some_iff.mp here
  rw [List.length_map] at inside
  have before := liveBefore_le engine file (exact.map Occurrence.key) j
  exact ⟨_, List.getElem?_eq_getElem (by omega)⟩

/-! ## What the units are restored to -/

/-- One label of the copy. The cursor counts the live entities of the record before it, and it moves
on if the label is live; a label that is not is noted as unknown. -/
theorem restoreHit_eq {exact : List Occurrence} {hit : LabelHit} {hits : List LabelHit} {j : Nat}
    (here : At (exact.map Occurrence.key) j (hit :: hits)) {acc : Engine.Restoring}
    (cursor : acc.cursor = engine.liveBefore file (exact.map Occurrence.key) j) :
    engine.restoreHit file (some exact) acc hit =
      ⟨acc.reps ++ engine.placed file (fun j hit => engine.cursorValue file exact j hit.key) j [hit],
        acc.unknown ++ ([hit].filter fun hit => !engine.live file hit.key).map LabelHit.text,
        engine.liveBefore file (exact.map Occurrence.key) (j + 1)⟩ := by
  have at_j := here.head
  obtain ⟨recorded, found⟩ := exists_at_cursor engine file at_j
  rw [liveBefore_succ at_j, Engine.restoreHit]
  cases entity : file.entityOf engine.order hit.key with
  | none =>
    have gone : engine.live file hit.key = false := by rw [Engine.live, entity]; rfl
    simp [Engine.placed, gone, cursor]
  | some e =>
    have live : engine.live file hit.key = true := by rw [Engine.live, entity]; rfl
    simp [Engine.placed, live, cursor, found, Engine.cursorValue, entity]

/-- The labels of a unit, by induction: what one label does, label after label, with the cursor at
the number of live entities before the next one. -/
theorem foldl_restoreHit_eq {exact : List Occurrence} {hits : List LabelHit} {j : Nat}
    (here : At (exact.map Occurrence.key) j hits) (acc : Engine.Restoring)
    (cursor : acc.cursor = engine.liveBefore file (exact.map Occurrence.key) j) :
    hits.foldl (engine.restoreHit file (some exact)) acc =
      ⟨acc.reps ++ engine.placed file (fun j hit => engine.cursorValue file exact j hit.key) j hits,
        acc.unknown ++ (hits.filter fun hit => !engine.live file hit.key).map LabelHit.text,
        engine.liveBefore file (exact.map Occurrence.key) (j + hits.length)⟩ := by
  induction hits generalizing acc j with
  | nil => simp [Engine.placed, ← cursor]
  | cons hit hits ih =>
    rw [List.foldl_cons, restoreHit_eq here cursor, ih here.tail _ rfl]
    have count : j + 1 + hits.length = j + (hit :: hits).length := by
      rw [List.length_cons]
      omega
    rw [count]
    -- a label of a deleted entity moves neither the cursor nor the copy
    cases live : engine.live file hit.key with
    | true => simp [Engine.placed, live]
    | false => simp [Engine.placed, live]

variable (engine file) in
/-- The units of a document whose labels are those of the recorded list: the replacements of each
unit, and the labels that stay in place as unknown. -/
theorem restoreUnits_eq {exact : List Occurrence} {texts : List Text} {j : Nat}
    (here : At (exact.map Occurrence.key) j (engine.unitHits texts).flatten) :
    (engine.restoreUnits file (some exact) (engine.liveBefore file (exact.map Occurrence.key) j)
        texts).map Engine.Restoring.reps =
      engine.placedUnits file (fun j hit => engine.cursorValue file exact j hit.key) j
        (engine.unitHits texts) ∧
    (engine.restoreUnits file (some exact) (engine.liveBefore file (exact.map Occurrence.key) j)
        texts).flatMap Engine.Restoring.unknown =
      ((engine.unitHits texts).flatten.filter fun hit => !engine.live file hit.key).map
        LabelHit.text := by
  induction texts generalizing j with
  | nil => exact ⟨rfl, rfl⟩
  | cons text texts ih =>
    obtain ⟨first, rest⟩ := here.append
    have unit := foldl_restoreHit_eq first
      ⟨[], [], engine.liveBefore file (exact.map Occurrence.key) j⟩ rfl
    obtain ⟨reps, unknown⟩ := ih rest
    simp only [Engine.restoreUnits, Engine.restoreUnit, unit, List.map_cons, List.flatMap_cons,
      Engine.unitHits, Engine.placedUnits, List.flatten_cons, List.filter_append,
      List.map_append, List.nil_append]
    exact ⟨congrArg _ reps, congrArg _ unknown⟩

theorem live_iff {key : LabelKey} :
    engine.live file key = true ↔ ∃ e, file.entityOf engine.order key = some e :=
  Option.isSome_iff_exists

/-- The recorded list that is found for some units is of their labels: a record counts only where
its labels are those of the units. -/
theorem keys_of_exactMap {p : Project} {texts : List Text} {exact : List Occurrence}
    (found : engine.exactMap p texts = some exact) :
    exact.map Occurrence.key = (engine.unitHits texts).flatten.map LabelHit.key := by
  simp only [Engine.exactMap] at found
  split at found
  · cases found
  · obtain ⟨_, same⟩ := Option.filter_eq_some_iff.mp found
    rw [of_decide_eq_true same, Engine.unitHits, List.map_flatten, List.map_map,
      List.flatMap_def]
    rfl

end RedactGate.Desktop
