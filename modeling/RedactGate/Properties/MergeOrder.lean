import RedactGate.Redaction.Merge
import Mathlib.Data.Rat.Defs
import Mathlib.Algebra.Order.Ring.Rat

/-!
# What overlap resolution returns

The result is sorted, free of overlaps and made of spans of the input. A list without
overlaps comes back as it is, sorted by start; the order in which the passes found the
spans decides nothing that a reader of the result can see but labels.

The sort breaks ties by arrival, so two runs over a list and a permutation of it meet equal
keys in different orders. Equal keys mean equal places, and the scan looks at places only.
-/
namespace RedactGate

open Library

variable {Score : Type} [LinearOrder Score]

/-! ## The result -/

theorem mergeSpans_subperm {spans : List (EntitySpan Score)} (proper : ∀ s ∈ spans, s.Proper) :
    (mergeSpans spans).Subperm spans := by
  rw [mergeSpans_eq_sweep proper]
  exact (sweepSpans_swept proper).sublist.subperm.trans (orderedSpans_perm spans).subperm

omit [LinearOrder Score] in
theorem EntitySpan.overlaps_symm {a b : EntitySpan Score} (apart : ¬a.overlaps b) :
    ¬b.overlaps a := by
  simp only [overlaps, Bool.and_eq_true, decide_eq_true_eq] at apart ⊢
  exact fun meets => apart ⟨meets.2, meets.1⟩

omit [LinearOrder Score] in
/-- Of two spans that do not overlap, the one that starts no later comes first. -/
theorem EntitySpan.before_of_apart {a b : EntitySpan Score} (proper : b.Proper)
    (apart : ¬a.overlaps b) (sorted : a.start ≤ b.start) : a.stop ≤ b.start := by
  by_contra inside
  have overlap : a.overlaps b := by
    simp only [overlaps, Bool.and_eq_true, decide_eq_true_eq]
    exact ⟨sorted.trans_lt proper, lt_of_not_ge inside⟩
  exact apart overlap

omit [LinearOrder Score] in
/-- Spans that lie one after the other are sorted by start and do not overlap. -/
theorem sorted_and_apart_of_separated {spans : List (EntitySpan Score)}
    (proper : ∀ s ∈ spans, s.Proper) (separated : spans.Pairwise fun a b => a.stop ≤ b.start) :
    spans.Pairwise (fun a b => a.start ≤ b.start) ∧
      spans.Pairwise (fun a b => ¬a.overlaps b) := by
  refine ⟨separated.imp_of_mem fun {a _} member _ before => ?_, separated.imp fun before => ?_⟩
  · exact (proper a member).le.trans before
  · simp [EntitySpan.overlaps, before]

/-- Spans without overlaps are all kept by the scan, and come out in their order. -/
theorem mergeSpans_eq_orderedSpans {spans : List (EntitySpan Score)}
    (proper : ∀ s ∈ spans, s.Proper) (apart : spans.Pairwise fun a b => ¬a.overlaps b) :
    mergeSpans spans = orderedSpans spans := by
  have ordered_apart : (orderedSpans spans).Pairwise fun a b => ¬a.overlaps b :=
    ((orderedSpans_perm spans).pairwise_iff EntitySpan.overlaps_symm).mpr apart
  have separated : (orderedSpans spans).Pairwise (Sweep.Before EntitySpan.start EntitySpan.stop) :=
    (ordered_apart.and (orderedSpans_sorted spans)).imp_of_mem fun {_ b} _ member both =>
      EntitySpan.before_of_apart (proper b (mem_orderedSpans.mp member)) both.1 both.2
  rw [mergeSpans_eq_sweep proper, sweepSpans, Sweep.sweep_of_separated _ separated,
    List.reverse_reverse]

/-- Without overlaps no two spans of the list start together, so the rest of the sort key
decides nothing. -/
theorem orderedSpans_eq_sorted {spans : List (EntitySpan Score)}
    (proper : ∀ s ∈ spans, s.Proper) (apart : spans.Pairwise fun a b => ¬a.overlaps b) :
    orderedSpans spans = spans.insertionSort fun a b => a.start ≤ b.start := by
  have perm : (orderedSpans spans).Perm (spans.insertionSort fun a b => a.start ≤ b.start) :=
    (orderedSpans_perm spans).trans (List.perm_insertionSort _ _).symm
  have : Std.Symm fun a b : EntitySpan Score => ¬a.overlaps b :=
    ⟨fun _ _ => EntitySpan.overlaps_symm⟩
  have : Std.Total fun a b : EntitySpan Score => a.start ≤ b.start := ⟨fun a b => le_total _ _⟩
  have : IsTrans (EntitySpan Score) fun a b => a.start ≤ b.start := ⟨fun _ _ _ => le_trans⟩
  refine perm.eq_of_pairwise (fun a b in_a in_b before after => ?_) (orderedSpans_sorted spans)
    (List.pairwise_insertionSort _ spans)
  have in_a : a ∈ spans := mem_orderedSpans.mp in_a
  have in_b : b ∈ spans := (List.perm_insertionSort _ _).mem_iff.mp in_b
  by_contra different
  have together : a.start = b.start := le_antisymm before after
  have proper_a : a.start < a.stop := proper a in_a
  have proper_b : b.start < b.stop := proper b in_b
  have overlap : a.overlaps b := by
    simp only [EntitySpan.overlaps, Bool.and_eq_true, decide_eq_true_eq]
    omega
  exact apart.forall in_a in_b different overlap

/-- The normal form that overlap resolution gives: the result is sorted by start, free of overlaps
and made of occurrences of the input; an input without overlaps is returned sorted by start; a
second pass changes nothing. All spans of the input cover something. -/
theorem mergeSpans_normal (spans : List (EntitySpan Score)) (proper : ∀ s ∈ spans, s.Proper) :
    (mergeSpans spans).Pairwise (fun a b => a.start ≤ b.start) ∧
    (mergeSpans spans).Pairwise (fun a b => ¬a.overlaps b) ∧
    (mergeSpans spans).Subperm spans ∧
    (spans.Pairwise (fun a b => ¬a.overlaps b) →
      mergeSpans spans = spans.insertionSort fun a b => a.start ≤ b.start) ∧
    mergeSpans (mergeSpans spans) = mergeSpans spans := by
  have returned : ∀ s ∈ mergeSpans spans, s.Proper := fun s member =>
    proper s (mem_of_mem_mergeSpans proper member)
  obtain ⟨sorted, apart⟩ := sorted_and_apart_of_separated returned (mergeSpans_separated proper)
  refine ⟨sorted, apart, mergeSpans_subperm proper, fun input_apart => ?_, ?_⟩
  · rw [mergeSpans_eq_orderedSpans proper input_apart, orderedSpans_eq_sorted proper input_apart]
  · rw [mergeSpans_eq_orderedSpans returned apart, orderedSpans_eq_sorted returned apart]
    exact sorted.insertionSort_eq

/-- A name that one pass finds under two types, with nothing else to tell the two spans apart, and
another finding behind it. -/
def namesakes : List (EntitySpan ℚ) :=
  [⟨4, 10, "ORG".toList, "Lee Gr".toList, 3 / 4, .presidio, none⟩,
   ⟨0, 3, "PERSON".toList, "Ann".toList, 1 / 2, .llm, none⟩,
   ⟨0, 3, "NAME".toList, "Ann".toList, 1 / 2, .llm, none⟩]

theorem namesakes_proper : ∀ s ∈ namesakes, s.Proper := by
  unfold EntitySpan.Proper
  decide

theorem mergeSpans_normal_namesakes :
    (∀ s ∈ namesakes, s.Proper) ∧
      mergeSpans (mergeSpans namesakes) = mergeSpans namesakes :=
  ⟨namesakes_proper, (mergeSpans_normal namesakes namesakes_proper).2.2.2.2⟩

/-! ## The order of the passes -/

/-- What the scan can tell of a span: start, end, score and source rank. -/
def EntitySpan.place (s : EntitySpan Score) : Nat × Nat × Score × Nat :=
  (s.start, s.stop, s.score, sourceRank s.source)

/-- The sort key of a place: its start, and then the better score, the greater length and the higher
rank of the source first. -/
def placeOrder (p : Nat × Nat × Score × Nat) :
    Lex (Nat × Lex (OrderDual Score × Lex (Int × Int))) :=
  toLex (p.1, toLex (OrderDual.toDual p.2.2.1,
    toLex (-((p.2.1 : Int) - p.1), -(p.2.2.2 : Int))))

/-- The rank of a place. -/
def placeRank (p : Nat × Nat × Score × Nat) : Lex (Score × Lex (Int × Nat)) :=
  toLex (p.2.2.1, toLex ((p.2.1 : Int) - p.1, p.2.2.2))

omit [LinearOrder Score] in
/-- Spans with one sort key stand in one place. -/
theorem placeOrder_injective : Function.Injective (placeOrder : Nat × Nat × Score × Nat → _) := by
  rintro ⟨start, stop, score, rank⟩ ⟨start', stop', score', rank'⟩ same
  simp only [placeOrder, EmbeddingLike.apply_eq_iff_eq, Prod.mk.injEq, neg_inj] at same
  obtain ⟨rfl, rfl, lengths, ranks⟩ := same
  have stops : stop = stop' := by omega
  have ranks : rank = rank' := by omega
  rw [stops, ranks]

/-- The places that the scan goes through are those of the input, sorted. -/
theorem map_place_orderedSpans (spans : List (EntitySpan Score)) :
    (orderedSpans spans).map EntitySpan.place =
      (spans.map EntitySpan.place).insertionSort fun p q => placeOrder p ≤ placeOrder q :=
  List.map_insertionSort _ _ _ _ fun _ _ _ _ => Iff.rfl

theorem orderedSpans_places {spans others : List (EntitySpan Score)} (perm : spans.Perm others) :
    (orderedSpans spans).map EntitySpan.place = (orderedSpans others).map EntitySpan.place := by
  have : Std.Total fun p q : Nat × Nat × Score × Nat => placeOrder p ≤ placeOrder q :=
    ⟨fun p q => le_total _ _⟩
  have : IsTrans (Nat × Nat × Score × Nat) fun p q => placeOrder p ≤ placeOrder q :=
    ⟨fun _ _ _ => le_trans⟩
  rw [map_place_orderedSpans, map_place_orderedSpans]
  refine List.Perm.eq_of_pairwise (fun p q _ _ le ge => placeOrder_injective (le_antisymm le ge))
    (List.pairwise_insertionSort _ _) (List.pairwise_insertionSort _ _) ?_
  exact (List.perm_insertionSort _ _).trans
    ((perm.map EntitySpan.place).trans (List.perm_insertionSort _ _).symm)

/-- The places of the spans that are kept are the sweep of the sorted places: types and texts decide
nothing. -/
theorem map_place_mergeSpans {spans : List (EntitySpan Score)} (proper : ∀ s ∈ spans, s.Proper) :
    (mergeSpans spans).map EntitySpan.place =
      (Sweep.sweep (fun p => p.1) (fun p => p.2.1) placeRank
        ((orderedSpans spans).map EntitySpan.place)).reverse := by
  have places : (sweepSpans spans).map EntitySpan.place = _ :=
    Sweep.map_sweep (fun p => p.1) (fun p => p.2.1) placeRank (fun _ => rfl) (fun _ => rfl)
      (fun _ => rfl) (orderedSpans spans)
  rw [mergeSpans_eq_sweep proper, List.map_reverse, places]

/-- However the spans were ordered, the results agree in start, end, score and source rank. Each
span covers something; spans that agree in these four may come with another type or text. -/
theorem mergeSpans_order_independent (spans others : List (EntitySpan Score))
    (perm : spans.Perm others) (proper : ∀ s ∈ spans, s.Proper) :
    (mergeSpans spans).map EntitySpan.place = (mergeSpans others).map EntitySpan.place := by
  have others_proper : ∀ s ∈ others, s.Proper := fun s member => proper s (perm.mem_iff.mpr member)
  rw [map_place_mergeSpans proper, map_place_mergeSpans others_proper, orderedSpans_places perm]

theorem mergeSpans_order_independent_namesakes :
    (∀ s ∈ namesakes, s.Proper) ∧ namesakes.Perm namesakes.reverse ∧
      (mergeSpans namesakes).map EntitySpan.place =
        (mergeSpans namesakes.reverse).map EntitySpan.place :=
  ⟨namesakes_proper, (List.reverse_perm _).symm,
    mergeSpans_order_independent namesakes _ (List.reverse_perm _).symm namesakes_proper⟩

end RedactGate
