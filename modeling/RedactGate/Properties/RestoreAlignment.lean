import RedactGate.Desktop.Restoring

/-!
# Restoring after a deletion

The labels of a document are restored in step with the list of its mentions: a cursor moves
through the list, but it stands still at the label of an entity that is gone. From there on
every label meets the entry of an earlier one.
-/
namespace RedactGate.Desktop

open Library

variable (engine : Engine) (file : VaultFile)

namespace Engine

/-- The labels that still have their entities are restored to what is recorded for their
places, and the others are left alone and reported. -/
structure Aligned (exact : List Occurrence) (texts : List Text) (units : List Restoring) : Prop where
  restored : units.map Restoring.reps = engine.placedUnits file
    (fun j _ => (exact[j]?.map Occurrence.surface).getD []) 0 (engine.unitHits texts)
  reported : units.flatMap Restoring.unknown =
    (((engine.unitHits texts).flatten).filter fun hit => !engine.live file hit.key).map LabelHit.text

/-- At every label that still has its entity, the entry as many places back as entities are
gone before it is of the same label with the same spelling, or of another label while the
canonical value is the spelling that is recorded. -/
def KeepsStep (exact : List Occurrence) : Prop :=
  ∀ (j : Nat) (o recorded : Occurrence) (e : Entity), exact[j]? = some o →
    file.entityOf engine.order o.key = some e →
    exact[engine.liveBefore file (exact.map Occurrence.key) j]? = some recorded →
    (recorded.key = o.key → recorded.surface = o.surface) ∧
      (recorded.key ≠ o.key → e.value = o.surface)

end Engine

variable {engine file}

/-! ## When the values agree -/

/-- Something holds at all places of a list if it holds at the first one, and at the rest with their
places counted on. -/
theorem forall_places_cons {α : Type} {P : Nat → α → Prop} {x : α} {xs : List α} {j : Nat} :
    (∀ (i : Nat) (y : α), (x :: xs)[i]? = some y → P (j + i) y) ↔
      P j x ∧ ∀ (i : Nat) (y : α), xs[i]? = some y → P (j + 1 + i) y := by
  constructor
  · intro all
    refine ⟨all 0 x rfl, fun i y there => ?_⟩
    have later := all (i + 1) y there
    rwa [Nat.add_comm i 1, ← Nat.add_assoc] at later
  · rintro ⟨first, rest⟩ i y there
    cases i with
    | zero => exact Option.some.inj there ▸ first
    | succ i =>
      have later := rest i y there
      rwa [Nat.add_assoc, Nat.add_comm 1 i] at later

theorem placed_eq_iff {value value' : Nat → LabelHit → Text} {hits : List LabelHit} {j : Nat} :
    engine.placed file value j hits = engine.placed file value' j hits ↔
      ∀ (i : Nat) (hit : LabelHit), hits[i]? = some hit → engine.live file hit.key = true →
        value (j + i) hit = value' (j + i) hit := by
  induction hits generalizing j with
  | nil => simp [Engine.placed]
  | cons hit hits ih =>
    rw [forall_places_cons (P := fun k hit => engine.live file hit.key = true →
      value k hit = value' k hit), ← ih, Engine.placed, Engine.placed]
    cases live : engine.live file hit.key with
    | true => simp
    | false => simp

theorem forall_places_append {α : Type} {P : Nat → α → Prop} {xs ys : List α} {j : Nat} :
    (∀ (i : Nat) (y : α), (xs ++ ys)[i]? = some y → P (j + i) y) ↔
      (∀ (i : Nat) (y : α), xs[i]? = some y → P (j + i) y) ∧
        ∀ (i : Nat) (y : α), ys[i]? = some y → P (j + xs.length + i) y := by
  induction xs generalizing j with
  | nil => simp
  | cons x xs ih =>
    have count : j + 1 + xs.length = j + (x :: xs).length := by
      rw [List.length_cons]
      omega
    rw [List.cons_append, forall_places_cons, ih, forall_places_cons, count, and_assoc]

theorem placedUnits_eq_iff {value value' : Nat → LabelHit → Text} {units : List (List LabelHit)}
    {j : Nat} :
    engine.placedUnits file value j units = engine.placedUnits file value' j units ↔
      ∀ (i : Nat) (hit : LabelHit), units.flatten[i]? = some hit →
        engine.live file hit.key = true → value (j + i) hit = value' (j + i) hit := by
  induction units generalizing j with
  | nil => simp [Engine.placedUnits]
  | cons hits units ih =>
    rw [Engine.placedUnits, Engine.placedUnits, List.cons.injEq, placed_eq_iff, ih,
      List.flatten_cons, forall_places_append (P := fun k hit => engine.live file hit.key = true →
        value k hit = value' k hit)]

theorem cursorValue_eq_iff {exact : List Occurrence} {j : Nat} {key : LabelKey} {value : Text}
    {recorded : Occurrence} {e : Entity} (found : file.entityOf engine.order key = some e)
    (there : exact[engine.liveBefore file (exact.map Occurrence.key) j]? = some recorded) :
    engine.cursorValue file exact j key = value ↔
      (recorded.key = key → recorded.surface = value) ∧ (recorded.key ≠ key → e.value = value) := by
  simp only [Engine.cursorValue, there, found, Option.map_some, Option.getD_some]
  by_cases same : recorded.key = key
  · simp [same]
  · simp [same]

/-- The cursor keeps step with the record if and only if it makes of every label of a live entity
what is recorded for it. -/
theorem keepsStep_iff {exact : List Occurrence} : engine.KeepsStep file exact ↔
    ∀ (j : Nat) (o : Occurrence), exact[j]? = some o → engine.live file o.key = true →
      engine.cursorValue file exact j o.key = o.surface := by
  constructor
  · intro keeps j o here live
    obtain ⟨e, found⟩ := live_iff.mp live
    have here' : (exact.map Occurrence.key)[j]? = some o.key := by
      rw [List.getElem?_map, here, Option.map_some]
    obtain ⟨recorded, there⟩ := exists_at_cursor engine file here'
    exact (cursorValue_eq_iff found there).mpr (keeps j o recorded e here found there)
  · intro values j o recorded e here found there
    exact (cursorValue_eq_iff found there).mp (values j o here (live_iff.mpr ⟨e, found⟩))

/-- A document that is recorded is restored as it is recorded, whatever entities are gone, if and
only if the cursor keeps step with the labels that are left: the entry it is at, as many places back
as entities are gone before, is of the same label and spelling, or of another label while the
canonical value is the spelling. -/
theorem restoreFile_aligned_iff (engine : Engine) (p : Project) (texts : List Text)
    (exact : List Occurrence) (found : engine.exactMap p texts = some exact) :
    engine.Aligned p.file exact texts (engine.restoreFile p texts) ↔
      engine.KeepsStep p.file exact := by
  have keys := keys_of_exactMap found
  have here : At (exact.map Occurrence.key) 0 (engine.unitHits texts).flatten :=
    ⟨[], [], by rw [keys, List.nil_append, List.append_nil], rfl⟩
  obtain ⟨reps, unknown⟩ := restoreUnits_eq engine p.file here
  have start : engine.liveBefore p.file (exact.map Occurrence.key) 0 = 0 := rfl
  have file : engine.restoreFile p texts = engine.restoreUnits p.file (some exact)
      (engine.liveBefore p.file (exact.map Occurrence.key) 0) texts := by
    rw [Engine.restoreFile, found, start]
  rw [← file] at reps unknown
  -- both sides place one value a hit: the cursor's and the recorded one
  have aligned : engine.Aligned p.file exact texts (engine.restoreFile p texts) ↔
      engine.placedUnits p.file (fun j hit => engine.cursorValue p.file exact j hit.key) 0
        (engine.unitHits texts) = engine.placedUnits p.file
          (fun j _ => (exact[j]?.map Occurrence.surface).getD []) 0 (engine.unitHits texts) :=
    ⟨fun aligned => reps.symm.trans aligned.restored, fun same => ⟨reps.trans same, unknown⟩⟩
  -- the j-th hit carries the j-th recorded key
  have keys_at (j : Nat) : exact[j]?.map Occurrence.key =
      (engine.unitHits texts).flatten[j]?.map LabelHit.key := by
    rw [← List.getElem?_map, keys, List.getElem?_map]
  rw [aligned, placedUnits_eq_iff, keepsStep_iff]
  simp only [Nat.zero_add]
  constructor
  · intro same j o recorded live
    have key := keys_at j
    rw [recorded, Option.map_some] at key
    obtain ⟨hit, there, here⟩ := Option.map_eq_some_iff.mp key.symm
    have value := same j hit there (here ▸ live)
    rwa [here, recorded] at value
  · intro keeps j hit there live
    have key := keys_at j
    rw [there, Option.map_some] at key
    obtain ⟨o, recorded, here⟩ := Option.map_eq_some_iff.mp key
    have value := keeps j o recorded (here ▸ live)
    rw [here] at value
    rw [value, recorded]
    rfl

/-! ## Two deletions -/

/-- Two companies, one of them in two spellings. -/
def threeNames : Text := "ТОВ «Ant», ТОВ «Bee», ТОВ «BEE»".toList

/-- The text is anonymized in a new project, an entity is deleted, and the copy comes back. -/
def afterDeletion (n : Nat) : Option (Project × Text) :=
  (sampleEngine.anonymizeText "en".toList allCategories threeNames .new).bind fun done =>
    (sampleEngine.deleteEntity done.2.2 (organisation, n)).map fun p => (p, done.1)

def recordedNames : List Occurrence :=
  [⟨organisation, 1, "Ant".toList⟩, ⟨organisation, 2, "Bee".toList⟩, ⟨organisation, 2, "BEE".toList⟩]

/-- What the labels of the copy would be restored to, and those of the other entities. -/
def alignedNames (p : Project) (copy : Text) : List (List Replacement) :=
  sampleEngine.placedUnits p.file (fun j _ => (recordedNames[j]?.map Occurrence.surface).getD []) 0
    (sampleEngine.unitHits [copy])

/-- The entity of the last two mentions is deleted. No label that is left comes after them, and so
the cursor stays in step with the record. -/
theorem restoreFile_aligned_iff_last : ∃ p copy, afterDeletion 2 = some (p, copy) ∧
    sampleEngine.exactMap p [copy] = some recordedNames ∧
    sampleEngine.KeepsStep p.file recordedNames := by
  have ends : (afterDeletion 2).any (fun after =>
      decide (sampleEngine.exactMap after.1 [after.2] = some recordedNames ∧
        (sampleEngine.restoreFile after.1 [after.2]).map Engine.Restoring.reps =
          alignedNames after.1 after.2 ∧
        (sampleEngine.restoreFile after.1 [after.2]).flatMap Engine.Restoring.unknown =
          ((sampleEngine.unitHits [after.2]).flatten.filter fun hit =>
            !sampleEngine.live after.1.file hit.key).map LabelHit.text)) = true := by
    decide +kernel
  obtain ⟨⟨p, copy⟩, deleted, ends⟩ := (Option.any_eq_true _ _).mp ends
  obtain ⟨found, restored, reported⟩ := of_decide_eq_true ends
  exact ⟨p, copy, deleted, found,
    (restoreFile_aligned_iff sampleEngine p [copy] recordedNames found).mp ⟨restored, reported⟩⟩

/-- The entity of the first mention is deleted, and the second mention of the other company gets the
spelling of its first one. -/
theorem restoreFile_misaligned : ∃ p copy, afterDeletion 1 = some (p, copy) ∧
    sampleEngine.exactMap p [copy] = some recordedNames ∧
    sampleEngine.restoreText p copy = "ТОВ «Company-1», ТОВ «Bee», ТОВ «Bee»".toList ∧
    ¬ sampleEngine.Aligned p.file recordedNames [copy] (sampleEngine.restoreFile p [copy]) := by
  have ends : (afterDeletion 1).any (fun after =>
      decide (sampleEngine.exactMap after.1 [after.2] = some recordedNames ∧
        sampleEngine.restoreText after.1 after.2 = "ТОВ «Company-1», ТОВ «Bee», ТОВ «Bee»".toList ∧
        (sampleEngine.restoreFile after.1 [after.2]).map Engine.Restoring.reps ≠
          alignedNames after.1 after.2)) = true := by
    decide +kernel
  obtain ⟨⟨p, copy⟩, deleted, ends⟩ := (Option.any_eq_true _ _).mp ends
  obtain ⟨found, restored, differs⟩ := of_decide_eq_true ends
  exact ⟨p, copy, deleted, found, restored, fun aligned => differs aligned.restored⟩

end RedactGate.Desktop
