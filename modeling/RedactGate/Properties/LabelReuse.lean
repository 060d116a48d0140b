import RedactGate.Desktop.LabelsInUse

/-!
# Labels are not issued again

A new entity gets the number after the highest one of its category. As long as no entity
with the highest number of its category is deleted, that number only grows, and no label is
issued twice. Deleting the highest one sets the number free for another value.

The run keeps beside the project the labels that were issued, with the values they were
issued for.
-/
namespace RedactGate.Desktop

open Library

structure IssueRun where
  file : VaultFile
  issued : List (LabelKey × Text)

namespace IssueRun

def new : IssueRun := ⟨VaultFile.new, []⟩

/-- The labels that one state has more than another, with their values. -/
def issuedBetween (old new : Tables) : List (LabelKey × Text) :=
  (new.entity.filter (·.key ∉ old.keys)).map fun row => (row.key, row.value)

def step (anon : Anonymizer) (run : IssueRun) (action : VaultAction) : Option IssueRun :=
  (anon.step run.file action).map fun file =>
    ⟨file, run.issued ++ issuedBetween run.file.tables file.tables⟩

/-- A label is issued for values that are the same after normalization. -/
def Unmixed (anon : Anonymizer) (run : IssueRun) : Prop :=
  run.issued.Pairwise fun a b => a.1 = b.1 →
    normalize anon.casing a.1.1 a.2 = normalize anon.casing b.1.1 b.2

/-- An entity that is deleted has not the highest number of its category. -/
def KeepsTop (run : IssueRun) : VaultAction → Prop
  | .delete key => key.2 ≠ run.file.tables.maxN key.1
  | _ => True

end IssueRun

variable {anon : Anonymizer}

namespace IssueRun

theorem map_issuedBetween (old new : Tables) :
    (issuedBetween old new).map Prod.fst = new.keys.filter (· ∉ old.keys) := by
  rw [issuedBetween, List.map_map, Tables.keys, List.filter_map]
  rfl

/-- What is issued in a step that adds no label. -/
theorem issuedBetween_of_subset {old new : Tables} (fewer : ∀ key ∈ new.keys, key ∈ old.keys) :
    issuedBetween old new = [] := by
  rw [← List.map_eq_nil_iff (f := Prod.fst), map_issuedBetween, List.filter_eq_nil_iff]
  intro key member fresh
  exact of_decide_eq_true fresh (fewer key member)

/-- No label has been issued twice, and none has a number above the highest in use. -/
structure Fresh (run : IssueRun) : Prop where
  good : GoodOn (fun _ => False) run.file
  once : (run.issued.map Prod.fst).Nodup
  below : ∀ key ∈ run.issued.map Prod.fst, key.2 ≤ run.file.tables.maxN key.1

theorem fresh_new : Fresh new where
  good := goodOn_new
  once := List.nodup_nil
  below _ absent := absurd absent List.not_mem_nil

theorem key_le_maxN {tables : Tables} {key : LabelKey} (used : key ∈ tables.keys) :
    key.2 ≤ tables.maxN key.1 := by
  obtain ⟨row, member, rfl⟩ := List.mem_map.mp used
  exact le_maxN member

/-- The highest number of a category does not fall while it stays in use. -/
theorem maxN_le_of_mem {old new : Tables} {category : Text}
    (kept : (category, old.maxN category) ∈ old.keys → (category, old.maxN category) ∈ new.keys) :
    old.maxN category ≤ new.maxN category := by
  rcases maxN_mem old category with zero | used
  · rw [zero]
    exact Nat.zero_le _
  · exact key_le_maxN (kept used)

/-- A step that does not delete the highest number of a category issues no label that was
issued before. -/
theorem Fresh.step {run run' : IssueRun} (fresh : run.Fresh) {action : VaultAction}
    (keeps : run.KeepsTop action) (stepped : IssueRun.step anon run action = some run') :
    run'.Fresh := by
  obtain ⟨file, taken, rfl⟩ := Option.map_eq_some_iff.mp stepped
  have good : GoodOn (fun _ => False) file :=
    fresh.good.step (fun key fp recorded never => never.elim) taken
  cases keysChange_step fresh.good taken with
  | kept same =>
    have no_label : issuedBetween run.file.tables file.tables = [] :=
      issuedBetween_of_subset fun key used => same ▸ used
    rw [no_label, List.append_nil]
    refine ⟨good, fresh.once, fun key member => ?_⟩
    exact Nat.le_trans (fresh.below key member) (maxN_le_of_mem fun used => same ▸ used)
  | issued category more =>
    have unused : (category, run.file.tables.maxN category + 1) ∉ run.file.tables.keys := by
      intro used
      have bound := key_le_maxN used
      simp only at bound
      omega
    have label : (issuedBetween run.file.tables file.tables).map Prod.fst =
        [(category, run.file.tables.maxN category + 1)] := by
      rw [map_issuedBetween, more, List.filter_append]
      have old : run.file.tables.keys.filter (· ∉ run.file.tables.keys) = [] :=
        List.filter_eq_nil_iff.mpr fun key used fresh => of_decide_eq_true fresh used
      have fresh : [(category, run.file.tables.maxN category + 1)].filter
          (· ∉ run.file.tables.keys) = [(category, run.file.tables.maxN category + 1)] :=
        List.filter_eq_self.mpr fun key single =>
          decide_eq_true (List.mem_singleton.mp single ▸ unused)
      rw [old, List.nil_append, fresh]
    have grows (key : LabelKey) : run.file.tables.maxN key.1 ≤ file.tables.maxN key.1 :=
      maxN_le_of_mem fun used => more ▸ List.mem_append_left _ used
    refine ⟨good, ?_, fun key member => ?_⟩
    · rw [List.map_append, label, List.nodup_append]
      refine ⟨fresh.once, List.nodup_singleton _, fun key member key' single => ?_⟩
      rintro rfl
      -- an earlier label of the category has a lower number
      obtain rfl := List.mem_singleton.mp single
      have bound := fresh.below _ member
      simp only at bound
      omega
    · rw [List.map_append, label] at member
      rcases List.mem_append.mp member with member | single
      · exact Nat.le_trans (fresh.below key member) (grows key)
      · obtain rfl := List.mem_singleton.mp single
        exact key_le_maxN (more ▸ List.mem_append_right _ (List.mem_singleton_self _))
  | deleted key named less =>
    subst named
    have no_label : issuedBetween run.file.tables file.tables = [] :=
      issuedBetween_of_subset fun key' used => (List.mem_filter.mp (less ▸ used)).1
    rw [no_label, List.append_nil]
    refine ⟨good, fresh.once, fun key' member => ?_⟩
    refine Nat.le_trans (fresh.below key' member) (maxN_le_of_mem fun used => ?_)
    rw [less, List.mem_filter]
    refine ⟨used, decide_eq_true ?_⟩
    rintro rfl
    exact keeps rfl

end IssueRun

/-- In a run in which no entity with the highest number of its category is deleted, a label is
issued for one value only: any two values that it was issued for normalize alike. All other steps
are allowed. -/
theorem labels_unmixed (anon : Anonymizer) {run : IssueRun}
    (reaches : ReachesBy IssueRun.KeepsTop (IssueRun.step anon) IssueRun.new run) :
    run.Unmixed anon := by
  have fresh : run.Fresh := reaches.invariant IssueRun.fresh_new fun _ _ _ kept allowed taken =>
    kept.step allowed taken
  refine (List.pairwise_map.mp fresh.once).imp fun other same => ?_
  exact absurd same other

/-! ## Two runs -/

instance (run : IssueRun) (action : VaultAction) : Decidable (run.KeepsTop action) :=
  match action with
  | .delete _ => inferInstanceAs (Decidable (_ ≠ _))
  | .resolve _ _ | .addManual _ _ _ | .edit _ _ _ | .bump _ | .lock => inferInstanceAs (Decidable True)

/-- An entity that is deleted while a later one of its category is there. -/
def deletedFirst : List VaultAction :=
  [.resolve organisation "Alpha".toList, .resolve organisation "Beta".toList,
    .delete (organisation, 1), .lock, .resolve organisation "Gamma".toList]

theorem labels_unmixed_deletedFirst : ∃ run, runAllowed IssueRun.KeepsTop
    (IssueRun.step sampleAnonymizer) IssueRun.new deletedFirst = some run ∧
    run.issued.map Prod.fst = [(organisation, 1), (organisation, 2), (organisation, 3)] ∧
    run.Unmixed sampleAnonymizer := by
  have issued : (runAllowed IssueRun.KeepsTop (IssueRun.step sampleAnonymizer) IssueRun.new
      deletedFirst).any (fun run => decide (run.issued.map Prod.fst =
        [(organisation, 1), (organisation, 2), (organisation, 3)])) = true := by decide
  obtain ⟨run, reached, issued⟩ := (Option.any_eq_true _ _).mp issued
  exact ⟨run, reached, of_decide_eq_true issued,
    labels_unmixed sampleAnonymizer (reachesBy_of_runAllowed reached)⟩

/-- The only entity is deleted and another one is made. -/
def deletedLast : List VaultAction :=
  [.resolve organisation "Alpha".toList, .delete (organisation, 1),
    .resolve organisation "Beta".toList]

theorem labels_mixed_deletedLast : ∃ run, runSteps (IssueRun.step sampleAnonymizer) IssueRun.new
    deletedLast = some run ∧ run.issued = [((organisation, 1), "Alpha".toList),
      ((organisation, 1), "Beta".toList)] ∧ ¬ run.Unmixed sampleAnonymizer := by
  have issued : (runSteps (IssueRun.step sampleAnonymizer) IssueRun.new deletedLast).any
      (fun run => decide (run.issued = [((organisation, 1), "Alpha".toList),
        ((organisation, 1), "Beta".toList)])) = true := by decide
  obtain ⟨run, reached, issued⟩ := (Option.any_eq_true _ _).mp issued
  have issued := of_decide_eq_true issued
  refine ⟨run, reached, issued, fun unmixed => ?_⟩
  rw [IssueRun.Unmixed, issued] at unmixed
  have same := List.rel_of_pairwise_cons unmixed (List.mem_singleton_self _) rfl
  exact absurd same (by decide)

end RedactGate.Desktop
