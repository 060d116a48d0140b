import RedactGate.Redaction.Merge
import Mathlib.Data.Rat.Defs
import Mathlib.Algebra.Order.Ring.Rat

/-!
# What overlap resolution keeps and loses

A staircase of overlapping spans with rising scores collapses to its last
span: each winner is displaced by the next, and the first loser touches no
survivor. Every loser is still linked to a survivor by a chain of overlaps along
which the rank never falls.
-/
namespace RedactGate

open Library

variable {Score : Type} [LinearOrder Score]

/-- Every input span is linked, through overlaps of input spans with ranks that
never fall, to a returned span that ranks at least as high. A span that outranks
every other span it overlaps is returned itself. -/
theorem mergeSpans_links_every_span (spans : List (EntitySpan Score))
    (proper : ∀ s ∈ spans, s.Proper) (s : EntitySpan Score) (input : s ∈ spans) :
    (∃ winner ∈ mergeSpans spans,
      Relation.ReflTransGen (LosesTo spans) s winner ∧ s.rankKey ≤ winner.rankKey) ∧
    ((∀ t ∈ spans, s.overlaps t → t ≠ s → t.rankKey < s.rankKey) → s ∈ mergeSpans spans) := by
  obtain ⟨winner, returned, link⟩ := mergeSpans_linked proper input
  exact ⟨⟨winner, returned, link, Sweep.rank_le_of_linked link⟩,
    mem_mergeSpans_of_dominant proper input⟩

/-- Three findings, each of which overlaps the next one and is beaten by it, while the first and the
last are apart. -/
def staircase : List (EntitySpan ℚ) :=
  [⟨0, 6, "PERSON".toList, "Ann Le".toList, 1 / 2, .presidio, none⟩,
   ⟨4, 10, "ORG".toList, "Lee Gr".toList, 5 / 8, .presidio, none⟩,
   ⟨8, 14, "LOCATION".toList, "Graz 1".toList, 3 / 4, .presidio, none⟩]

theorem mergeSpans_links_every_span_staircase :
    (∀ s ∈ staircase, s.Proper) ∧ ∃ winner ∈ mergeSpans staircase,
      Relation.ReflTransGen (LosesTo staircase) (staircase.head (by decide)) winner ∧
        (staircase.head (by decide)).rankKey ≤ winner.rankKey := by
  have proper : ∀ s ∈ staircase, s.Proper := by
    unfold EntitySpan.Proper
    decide
  exact ⟨proper, (mergeSpans_links_every_span staircase proper _ (List.head_mem _)).1⟩

/-- Three spans like a staircase: the middle one beats the first and loses to the last. The first
one is lost, and no returned span overlaps it. -/
theorem mergeSpans_loses_staircase :
    ¬ ∀ spans : List (EntitySpan ℚ), (∀ s ∈ spans, s.start < s.stop) →
      ∀ s ∈ spans, s ∉ mergeSpans spans →
        ∃ r ∈ mergeSpans spans, s.overlaps r ∧ s.rankKey ≤ r.rankKey := by
  intro covered
  have touched := covered staircase (by decide) (staircase.head (by decide))
    (List.head_mem _) (by decide +kernel)
  revert touched
  decide +kernel

end RedactGate
