import RedactGate.Schemas.Entities
import Mathlib.Data.Char
import Mathlib.Data.List.Dedup
import Mathlib.Data.List.Lex
import Mathlib.Data.List.Sort

/-!
# Policy engine

The hard-block check and the span filter. Both see entity types only, never values.
-/
namespace RedactGate

open Library

variable {Score : Type}

/-- `HardBlockError`, with the offending types. -/
structure HardBlockError where
  blockedTypes : List Text
  deriving DecidableEq

/-- `sorted` of a set of types. -/
def sortedTypes (types : List Text) : List Text := types.dedup.insertionSort (· ≤ ·)

/-- `evaluate`: in hard-block mode it always raises, in the others if a blocked type was detected;
the error names the types. -/
def evaluate (decision : PolicyDecision) (detectedTypes : List Text) : Except HardBlockError Unit :=
  let blockedHit := detectedTypes.filter (decision.blockedTypes.contains ·)
  if decision.mode = .hardBlock || !blockedHit.isEmpty then
    throw ⟨if blockedHit.isEmpty then sortedTypes detectedTypes else sortedTypes blockedHit⟩
  else pure ()

def filterSpans (decision : PolicyDecision) (spans : List (EntitySpan Score)) :
    List (EntitySpan Score) :=
  spans.filter fun span => decision.shouldRedact span.entityType

/-- An empty allow-list permits every provider. -/
def providerAllowed (decision : PolicyDecision) (provider : Text) : Bool :=
  decision.allowedProviders.isEmpty || decision.allowedProviders.contains provider

/-- A policy in the given mode that blocks the given types and redacts everything. -/
def policyOf (mode : PolicyMode) (blockedTypes : List Text) : PolicyDecision :=
  ⟨mode, false, blockedTypes, [], none⟩

theorem evaluate_hardBlock {decision : PolicyDecision} (mode : decision.mode = .hardBlock)
    (types : List Text) : ∃ e, evaluate decision types = .error e := by
  rw [evaluate, if_pos (by rw [mode]; rfl)]
  exact ⟨_, rfl⟩

/-- Outside hard-block mode the policy raises if and only if one of the types is blocked. -/
theorem evaluate_error_iff {decision : PolicyDecision} (mode : decision.mode ≠ .hardBlock)
    {types : List Text} :
    (∃ e, evaluate decision types = .error e) ↔ ∃ t ∈ types, t ∈ decision.blockedTypes := by
  have hit : (types.filter (decision.blockedTypes.contains ·)).isEmpty = false ↔
      ∃ t ∈ types, t ∈ decision.blockedTypes := by
    rw [List.isEmpty_eq_false_iff_exists_mem]
    simp only [List.mem_filter, List.contains_iff_mem]
  rw [← hit, evaluate]
  cases (types.filter (decision.blockedTypes.contains ·)).isEmpty with
  | true => simp [mode, pure, Except.pure]
  | false =>
    rw [if_pos (by simp)]
    exact iff_of_true ⟨_, rfl⟩ rfl

theorem filterSpans_all {decision : PolicyDecision} (all : decision.redactTypes = none)
    (spans : List (EntitySpan Score)) : filterSpans decision spans = spans :=
  List.filter_eq_self.mpr fun span _ => by rw [PolicyDecision.shouldRedact, all]

end RedactGate
