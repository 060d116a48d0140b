import RedactGate.Schemas.Entities
import RedactGate.Library.Sweep
import Mathlib.Data.List.Sort

/-!
# Span overlap resolution

`mergeSpans` as the detector runs it: a stable sort, then a scan that compares
each span with the spans already kept, from the last one backwards. Under the
sort the scan meets the last kept span only, so the whole pass is the sweep of
`Library.Sweep` over spans ranked by score, length and source.
-/
namespace RedactGate

open Library

variable {Score : Type} [LinearOrder Score]

def sourceRank (source : DetectionSource) : Nat :=
  match source with
  | .manual => 4
  | .regex => 3
  | .llm => 2
  | .presidio => 1
  | .other _ => 0

/-- The key that `_better` compares: score, then length, then source priority. -/
def EntitySpan.rankKey (s : EntitySpan Score) : Lex (Score × Lex (Int × Nat)) :=
  toLex (s.score, toLex (s.length, sourceRank s.source))

/-- The winner of `_better` between two overlapping spans is the first; a tie goes to it. -/
def betterIsFirst (a b : EntitySpan Score) : Bool := b.rankKey ≤ a.rankKey

/-- The sort key: start, then descending quality. -/
def EntitySpan.orderKey (s : EntitySpan Score) :
    Lex (Nat × Lex (OrderDual Score × Lex (Int × Int))) :=
  toLex (s.start, toLex (OrderDual.toDual s.score, toLex (-s.length, -(sourceRank s.source : Int))))

/-- The backward scan of one span over the kept list, from index `i - 1` down.
Returns the kept list after its removals, and the flags `replaced` and `drop`. -/
def scanBack (span : EntitySpan Score) :
    Nat → List (EntitySpan Score) → Bool → List (EntitySpan Score) × Bool × Bool
  | 0, kept, replaced => (kept, replaced, false)
  | i + 1, kept, replaced =>
    match kept[i]? with
    | none => (kept, replaced, false)
    | some existing =>
      -- the scan stops at the first kept span that ends before this one begins
      if existing.stop ≤ span.start then (kept, replaced, false)
      else if !existing.overlaps span then scanBack span i kept replaced
      -- a kept span that is no worse drops the new one, else it is removed and the scan goes on
      else if betterIsFirst existing span then (kept, replaced, true)
      else scanBack span i (kept.eraseIdx i) true

/-- The body of the outer loop: the span is compared with those that are kept, and it is dropped,
put in place of some of them, or appended. -/
def mergeStep (kept : List (EntitySpan Score)) (span : EntitySpan Score) :
    List (EntitySpan Score) :=
  let (kept, replaced, drop) := scanBack span kept.length kept false
  if drop then kept
  else if replaced then (kept ++ [span]).insertionSort fun a b => a.start ≤ b.start
  else kept ++ [span]

/-- `merge_spans`: the spans in the order of their starts, each compared with those that are kept so
far, and the result ordered again. -/
def mergeSpans (spans : List (EntitySpan Score)) : List (EntitySpan Score) :=
  if spans.isEmpty then []
  else
    let ordered := spans.insertionSort fun a b => a.orderKey ≤ b.orderKey
    (ordered.foldl mergeStep []).insertionSort
      fun a b => toLex (a.start, a.stop) ≤ toLex (b.start, b.stop)

/-! ## The scan is a sweep -/

/-- The sweep step at spans. -/
abbrev pushSpan (stack : List (EntitySpan Score)) (span : EntitySpan Score) :
    List (EntitySpan Score) :=
  Sweep.push EntitySpan.start EntitySpan.stop EntitySpan.rankKey stack span

abbrev Ready (stack : List (EntitySpan Score)) (span : EntitySpan Score) : Prop :=
  Sweep.Ready EntitySpan.start EntitySpan.stop stack span

omit [LinearOrder Score] in
theorem overlaps_iff (a b : EntitySpan Score) :
    a.overlaps b = true ↔ Sweep.Overlaps EntitySpan.start EntitySpan.stop a b := by
  simp [EntitySpan.overlaps, Sweep.Overlaps]

/-- A span that meets no kept span stops the scan at once. -/
theorem scanBack_clear (span : EntitySpan Score) (kept : List (EntitySpan Score))
    (replaced : Bool) (clear : ∀ s ∈ kept, s.stop ≤ span.start) :
    scanBack span kept.length kept replaced = (kept, replaced, false) := by
  rcases List.eq_nil_or_concat kept with rfl | ⟨init, last, rfl⟩
  · rfl
  · have last_clear : last.stop ≤ span.start := clear last (by simp)
    simp [scanBack, last_clear]

/-- One round of the outer loop of `merge_spans` is one step of the sweep on the reversed list: only
the last span that is kept can overlap the next one. -/
theorem mergeStep_eq_push (stack : List (EntitySpan Score)) (span : EntitySpan Score)
    (ready : Ready stack span) (proper : span.Proper) :
    mergeStep stack.reverse span = (pushSpan stack span).reverse := by
  rcases Sweep.push_cases EntitySpan.start EntitySpan.stop EntitySpan.rankKey stack span with
    ⟨eq, clear⟩ | ⟨top, rest, rfl, touch, loses, eq⟩ | ⟨top, rest, rfl, touch, wins, eq⟩
  · have all_clear : ∀ s ∈ stack.reverse, s.stop ≤ span.start := fun s member =>
      ready.all_before clear s (List.mem_reverse.mp member)
    rw [mergeStep, scanBack_clear span _ false all_clear, pushSpan, eq, List.reverse_cons]
    rfl
  · have overlap : top.overlaps span = true :=
      (overlaps_iff top span).mpr ⟨(ready.started top (by simp)).trans_lt proper, touch⟩
    have scanned : scanBack span (top :: rest).reverse.length (top :: rest).reverse false =
        ((top :: rest).reverse, false, true) := by
      simp [scanBack, betterIsFirst, not_le_of_gt touch, overlap, loses]
    rw [mergeStep, scanned, pushSpan, eq]
    rfl
  · have overlap : top.overlaps span = true :=
      (overlaps_iff top span).mpr ⟨(ready.started top (by simp)).trans_lt proper, touch⟩
    have rest_clear : ∀ s ∈ rest.reverse, s.stop ≤ span.start := fun s member =>
      ready.rest_before s (List.mem_reverse.mp member)
    have scanned : scanBack span (top :: rest).reverse.length (top :: rest).reverse false =
        (rest.reverse, true, false) := by
      have deeper := scanBack_clear span rest.reverse true rest_clear
      simp only [List.length_reverse] at deeper
      simp [scanBack, betterIsFirst, not_le_of_gt touch, overlap, not_le_of_gt wins,
        List.eraseIdx_append, deeper]
    -- the kept list is still sorted by start, so sorting it again changes nothing
    have sorted : (rest.reverse ++ [span]).Pairwise fun a b => a.start ≤ b.start := by
      have pushed := Sweep.push_separated EntitySpan.rankKey ready
      rw [eq] at pushed
      have proper_all : ∀ s ∈ span :: rest, s.start < s.stop := by
        intro s member
        rcases List.mem_cons.mp member with rfl | deeper
        · exact proper
        · exact ready.proper s (List.mem_cons_of_mem _ deeper)
      have descending : (span :: rest).Pairwise fun later earlier => earlier.start ≤ later.start :=
        pushed.imp_of_mem fun _ earlier apart => (proper_all _ earlier).le.trans apart
      simpa using List.pairwise_reverse.mpr descending
    rw [mergeStep, scanned, pushSpan, eq, List.reverse_cons]
    exact sorted.insertionSort_eq

/-- The run lemma: over a sorted list of proper spans the outer loop is the sweep, by induction on
the spans still to come. -/
theorem foldl_mergeStep_eq (todo : List (EntitySpan Score)) :
    ∀ stack : List (EntitySpan Score), todo.Pairwise (fun a b => a.start ≤ b.start) →
      (∀ s ∈ todo, s.Proper) → (∀ s ∈ todo, Ready stack s) →
      todo.foldl mergeStep stack.reverse = (todo.foldl pushSpan stack).reverse := by
  induction todo with
  | nil => intro stack _ _ _; rfl
  | cons span todo ih =>
    intro stack sorted proper ready
    have ready_span := ready span (by simp)
    have proper_span := proper span (by simp)
    rw [List.foldl_cons, List.foldl_cons, mergeStep_eq_push stack span ready_span proper_span]
    exact ih (pushSpan stack span) sorted.of_cons
      (fun s hs => proper s (List.mem_cons_of_mem _ hs))
      (fun s hs => Sweep.push_ready ready_span proper_span (List.rel_of_pairwise_cons sorted hs))

/-- The list `merge_spans` scans. -/
def orderedSpans (spans : List (EntitySpan Score)) : List (EntitySpan Score) :=
  spans.insertionSort fun a b => a.orderKey ≤ b.orderKey

theorem orderedSpans_perm (spans : List (EntitySpan Score)) :
    (orderedSpans spans).Perm spans :=
  List.perm_insertionSort _ _

theorem mem_orderedSpans {spans : List (EntitySpan Score)} {s : EntitySpan Score} :
    s ∈ orderedSpans spans ↔ s ∈ spans :=
  (orderedSpans_perm spans).mem_iff

theorem orderedSpans_sorted (spans : List (EntitySpan Score)) :
    (orderedSpans spans).Pairwise fun a b => a.start ≤ b.start := by
  have : Std.Total fun a b : EntitySpan Score => a.orderKey ≤ b.orderKey :=
    ⟨fun a b => le_total _ _⟩
  have : IsTrans (EntitySpan Score) fun a b => a.orderKey ≤ b.orderKey :=
    ⟨fun _ _ _ => le_trans⟩
  refine (List.pairwise_insertionSort _ spans).imp fun {a b} le => ?_
  rcases Prod.Lex.le_iff.mp le with lt | ⟨eq, _⟩
  · exact le_of_lt lt
  · exact le_of_eq eq

/-- The kept stack after the sweep, most recent span first. -/
abbrev sweepSpans (spans : List (EntitySpan Score)) : List (EntitySpan Score) :=
  Sweep.sweep EntitySpan.start EntitySpan.stop EntitySpan.rankKey (orderedSpans spans)

theorem sweepSpans_swept {spans : List (EntitySpan Score)} (proper : ∀ s ∈ spans, s.Proper) :
    Sweep.Swept EntitySpan.start EntitySpan.stop EntitySpan.rankKey
      (orderedSpans spans) (orderedSpans spans) (sweepSpans spans) :=
  Sweep.sweep_swept (orderedSpans_sorted spans) fun s hs => proper s (mem_orderedSpans.mp hs)

/-- `merge_spans` is the sweep over the spans ordered by their starts: the re-sorts in the loop
change nothing, as a replacement starts no later. -/
theorem mergeSpans_eq_sweep {spans : List (EntitySpan Score)} (proper : ∀ s ∈ spans, s.Proper) :
    mergeSpans spans = (sweepSpans spans).reverse := by
  have scanned : (orderedSpans spans).foldl mergeStep [] = (sweepSpans spans).reverse :=
    foldl_mergeStep_eq (orderedSpans spans) [] (orderedSpans_sorted spans)
      (fun s hs => proper s (mem_orderedSpans.mp hs)) (fun s _ => Sweep.ready_nil s)
  have separated := Sweep.sweep_separated EntitySpan.rankKey
    (orderedSpans_sorted spans) (fun s hs => proper s (mem_orderedSpans.mp hs))
  have known : sweepSpans spans ⊆ orderedSpans spans := (sweepSpans_swept proper).known
  have sorted : (sweepSpans spans).reverse.Pairwise
      fun a b => toLex (a.start, a.stop) ≤ toLex (b.start, b.stop) := by
    refine List.pairwise_reverse.mpr (separated.imp_of_mem fun {later earlier} _ hm apart => ?_)
    have covers : earlier.start < earlier.stop := proper earlier (mem_orderedSpans.mp (known hm))
    exact Prod.Lex.le_iff.mpr (.inl (covers.trans_le apart))
  unfold mergeSpans
  split
  next empty =>
    have none : spans = [] := List.isEmpty_iff.mp empty
    subst none
    rfl
  next => exact (congrArg _ scanned).trans sorted.insertionSort_eq

theorem mem_of_mem_mergeSpans {spans : List (EntitySpan Score)}
    (proper : ∀ s ∈ spans, s.Proper) {s : EntitySpan Score} (member : s ∈ mergeSpans spans) :
    s ∈ spans := by
  rw [mergeSpans_eq_sweep proper, List.mem_reverse] at member
  exact mem_orderedSpans.mp ((sweepSpans_swept proper).known member)

/-- `a` loses to `b` in some overlap of the input. -/
abbrev LosesTo (spans : List (EntitySpan Score)) (a b : EntitySpan Score) : Prop :=
  Sweep.Yields EntitySpan.start EntitySpan.stop EntitySpan.rankKey spans a b

/-- Every input span loses, in some number of steps, to a span that is returned; one that is
returned does so in none. -/
theorem mergeSpans_linked {spans : List (EntitySpan Score)} (proper : ∀ s ∈ spans, s.Proper)
    {s : EntitySpan Score} (input : s ∈ spans) :
    ∃ winner ∈ mergeSpans spans, Relation.ReflTransGen (LosesTo spans) s winner := by
  obtain ⟨winner, kept, link⟩ := (sweepSpans_swept proper).linked s (mem_orderedSpans.mpr input)
  have widen : ∀ a b, LosesTo (orderedSpans spans) a b → LosesTo spans a b :=
    fun _ _ yields => yields.mono fun _ h => mem_orderedSpans.mp h
  refine ⟨winner, ?_, Relation.ReflTransGen.mono widen s winner link⟩
  rw [mergeSpans_eq_sweep proper]
  exact List.mem_reverse.mpr kept

/-- A span that outranks every other span it overlaps is returned, as nothing can take its place. -/
theorem mem_mergeSpans_of_dominant {spans : List (EntitySpan Score)}
    (proper : ∀ s ∈ spans, s.Proper) {s : EntitySpan Score} (input : s ∈ spans)
    (dominant : ∀ t ∈ spans, s.overlaps t → t ≠ s → t.rankKey < s.rankKey) :
    s ∈ mergeSpans spans := by
  obtain ⟨winner, returned, link⟩ := mergeSpans_linked proper input
  have same : winner = s := by
    apply Sweep.eq_of_linked_of_dominant _ link
    intro t member overlap le
    by_contra other
    exact absurd le (not_le_of_gt (dominant t member ((overlaps_iff s t).mpr overlap) other))
  exact same ▸ returned

/-- The result is separated: each span ends before the next one starts. -/
theorem mergeSpans_separated {spans : List (EntitySpan Score)}
    (proper : ∀ s ∈ spans, s.Proper) :
    (mergeSpans spans).Pairwise fun a b => a.stop ≤ b.start := by
  rw [mergeSpans_eq_sweep proper, List.pairwise_reverse]
  exact Sweep.sweep_separated EntitySpan.rankKey (orderedSpans_sorted spans)
    fun s hs => proper s (mem_orderedSpans.mp hs)

end RedactGate
