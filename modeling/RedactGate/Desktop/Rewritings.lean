import RedactGate.Desktop.Batches
import RedactGate.Desktop.RecordedDocuments

/-!
# Rewritings by the engine

A rewriting asks for the replacements of one unit after the other. What it asks and is answered
is a conversation; the engine holds it unit by unit, as it does with the units of a document.
-/
namespace RedactGate.Desktop

open Library

/-- A unit that was asked for, with the answer. -/
structure UnitAnswer where
  unit : TextUnit
  reps : List Replacement

namespace UnitAnswer

variable (answer : UnitAnswer)

def edits : List Edit := answer.reps.map Replacement.toEdit

/-- The unit with what it is replaced by. -/
def rewritten : TextUnit := ⟨applyReplacements answer.unit.text answer.edits, answer.unit.force⟩

end UnitAnswer

namespace Rewriting

/-- The rewriting comes to its end with these answers, one for each unit that it asks for, and gives
these bytes. -/
inductive Answered : Rewriting → List UnitAnswer → Bytes → Prop
  | done (out : Bytes) : Answered (.done out) [] out
  | ask {text : Text} {force : Option Text} {next : List Replacement → Rewriting}
      {reps : List Replacement} {answers : List UnitAnswer} {out : Bytes}
      (rest : Answered (next reps) answers out) :
      Answered (.ask text force next) (⟨⟨text, force⟩, reps⟩ :: answers) out

variable {τ : Type} (fn : Text → Option Text → τ → Except FileError (List Replacement) × τ)

/-- A function with a state gives the answers one after the other, and none of its calls raises. -/
inductive Serves : List UnitAnswer → τ → τ → Prop
  | nil (t : τ) : Serves [] t t
  | cons {answer : UnitAnswer} {answers : List UnitAnswer} {t t₁ t' : τ}
      (first : fn answer.unit.text answer.unit.force t = (.ok answer.reps, t₁))
      (rest : Serves answers t₁ t') : Serves (answer :: answers) t t'

variable {fn} {r : Rewriting} {answers : List UnitAnswer} {out : Bytes} {t t' : τ}

theorem answered_of_run (done : r.run fn t = (.ok out, t')) :
    ∃ answers, r.Answered answers out ∧ Serves fn answers t t' := by
  induction r generalizing t with
  | done out' =>
    obtain ⟨same, rfl⟩ := Prod.mk.inj done
    obtain rfl := Except.ok.inj same
    exact ⟨[], .done out', .nil t⟩
  | fail error => cases (Prod.mk.inj done).1
  | ask text force next ih =>
    rw [Rewriting.run] at done
    -- a run that ends well was answered at every question
    cases served : fn text force t with
    | mk outcome t₁ =>
      cases outcome with
      | error error =>
        simp only [served] at done
        cases (Prod.mk.inj done).1
      | ok reps =>
        simp only [served] at done
        obtain ⟨answers, answered, serves⟩ := ih reps done
        exact ⟨⟨⟨text, force⟩, reps⟩ :: answers, .ask answered, .cons served serves⟩

end Rewriting

/-! ## The engine as the one that answers -/

section

variable {engine : Engine}

/-- If the project serves every unit that a handler asks for, then the file is anonymized as the
list of these units is: the same replies and the same project after them. -/
theorem anonymizeUnits_of_serves {lang : Text} {options : Options} {answers : List UnitAnswer}
    {t t' : RunState × Project}
    (serves : Rewriting.Serves (engine.calls.anonymizeUnit lang options) answers t t') :
    engine.anonymizeUnits lang options (answers.map fun a => (a.unit.force, a.unit.text)) t.1 t.2 =
      some (answers.map UnitAnswer.reps, t'.1, t'.2) := by
  induction serves with
  | nil t => rfl
  | @cons answer answers t t₁ t' first _ ih =>
    have made : engine.anonymizeUnit lang options answer.unit.force answer.unit.text t.1 t.2 =
        some (answer.reps, t₁.1, t₁.2) := by
      simp only [Engine.calls] at first
      split at first
      · next reps run p found =>
        obtain ⟨same, rfl⟩ := Prod.mk.inj first
        obtain rfl := Except.ok.inj same
        exact found
      · cases (Prod.mk.inj first).1
    simp only [List.map_cons, Engine.anonymizeUnits, made, Option.bind_eq_bind, Option.bind_some,
      ih]

end

end RedactGate.Desktop
