import Mathlib.Data.List.Nodup
import Mathlib.Data.List.Range
import Mathlib.Order.Bounds.Basic

/-!
# First fit

The elements of one list are paired with those of another, each with the first one that fits
it and is free. Where pairs that fit never cross, no other choice makes more pairs: the pairs
that a choice of the first fit takes away from a matching are at most one.
-/
namespace RedactGate.Library

variable {α β : Type}

/-- Pairs of indexes of elements that fit, with no index twice on either side: each element has one
partner at most. -/
structure Matching (fits : α → β → Bool) (as : List α) (bs : List β) (pairs : List (Nat × Nat)) :
    Prop where
  left : (pairs.map Prod.fst).Nodup
  right : (pairs.map Prod.snd).Nodup
  fits : ∀ p ∈ pairs, ∃ a b, as[p.1]? = some a ∧ bs[p.2]? = some b ∧ fits a b = true

/-- The first element that fits and is not used. -/
def freeFit (fits : α → β → Bool) (bs : List β) (used : List Nat) (a : α) : Option Nat :=
  (List.range bs.length).find? fun j => decide (j ∉ used) && bs[j]?.any (fits a)

def fitStep (fits : α → β → Bool) (bs : List β) (used : List Nat) (a : α) : List Nat :=
  match freeFit fits bs used a with
  | some j => j :: used
  | none => used

/-- The indexes that are used after every element had its choice. -/
def firstFit (fits : α → β → Bool) (bs : List β) (used : List Nat) (as : List α) : List Nat :=
  as.foldl (fitStep fits bs) used

/-- If an element fits a later partner, no later element fits an earlier one. -/
def NonCrossing (fits : α → β → Bool) (as : List α) (bs : List β) : Prop :=
  as.Pairwise fun a a' => bs.Pairwise fun b b' => fits a b' = true → fits a' b = false

variable {fits : α → β → Bool} {as : List α} {bs : List β} {used : List Nat} {a : α}
  {pairs : List (Nat × Nat)}

theorem freeFit_eq_some {j : Nat} (found : freeFit fits bs used a = some j) :
    (∃ b, bs[j]? = some b ∧ fits a b = true) ∧ j ∉ used ∧
      ∀ k < j, k ∉ used → ∀ b, bs[k]? = some b → fits a b = false := by
  obtain ⟨fit, _, before⟩ := List.find?_range_eq_some.mp found
  obtain ⟨free, fit⟩ := Bool.and_eq_true_iff.mp fit
  refine ⟨(Option.any_eq_true _ _).mp fit, of_decide_eq_true free, fun k earlier free b there => ?_⟩
  have none := before k earlier
  rw [decide_eq_true free, there, Bool.true_and, Option.any_some, Bool.not_eq_true'] at none
  exact none

theorem freeFit_eq_none (missing : freeFit fits bs used a = none) {j : Nat} (free : j ∉ used) {b : β}
    (there : bs[j]? = some b) : fits a b = false := by
  have inside := (List.getElem?_eq_some_iff.mp there).1
  have none := List.find?_range_eq_none.mp missing j inside
  rw [decide_eq_true free, there, Bool.true_and, Option.any_some, Bool.not_eq_true'] at none
  exact none

theorem Matching.sublist {pairs' : List (Nat × Nat)} (matching : Matching fits as bs pairs)
    (part : pairs'.Sublist pairs) : Matching fits as bs pairs' where
  left := matching.left.sublist (part.map Prod.fst)
  right := matching.right.sublist (part.map Prod.snd)
  fits p member := matching.fits p (part.subset member)

/-- The pairs of a matching that do not use the first element are a matching of the other elements,
with their positions counted from the second one on. -/
theorem Matching.tail (matching : Matching fits (a :: as) bs pairs) (behind : ∀ p ∈ pairs, p.1 ≠ 0) :
    Matching fits as bs (pairs.map fun p => (p.1 - 1, p.2)) where
  left := by
    rw [List.map_map]
    refine List.Nodup.map_on (fun p member q member' same => ?_) matching.left.of_map
    -- no pair uses the first element, so the indexes can all go down by one
    have pos := behind p member
    have pos' := behind q member'
    simp only [Function.comp] at same
    exact List.inj_on_of_nodup_map matching.left member member' (by omega)
  right := by
    rw [List.map_map]
    exact matching.right
  fits := by
    intro p member
    obtain ⟨q, among, rfl⟩ := List.mem_map.mp member
    obtain ⟨a', b, left, right, fit⟩ := matching.fits q among
    obtain ⟨k, same⟩ := Nat.exists_eq_succ_of_ne_zero (behind q among)
    rw [same] at left
    exact ⟨a', b, by rw [same]; exact left, right, fit⟩

/-- A filter that any two elements it takes away make equal takes at most one element of a list
without repetitions. -/
theorem length_le_filter_add_one {γ : Type} {l : List γ} (once : l.Nodup) {keep : γ → Bool}
    (single : ∀ x ∈ l, ∀ y ∈ l, keep x = false → keep y = false → x = y) :
    l.length ≤ (l.filter keep).length + 1 := by
  induction l with
  | nil => exact Nat.zero_le _
  | cons x l ih =>
    obtain ⟨other, once⟩ := List.nodup_cons.mp once
    have later := ih once fun y member z member' =>
      single y (List.mem_cons_of_mem _ member) z (List.mem_cons_of_mem _ member')
    cases kept : keep x with
    | true =>
      rw [List.filter_cons_of_pos kept, List.length_cons, List.length_cons]
      omega
    | false =>
      -- everything behind it is kept
      have rest : l.filter keep = l := List.filter_eq_self.mpr fun y member => by
        by_contra gone
        rw [Bool.not_eq_true] at gone
        have same := single x List.mem_cons_self y (List.mem_cons_of_mem _ member) kept gone
        exact other (same ▸ member)
      rw [List.filter_cons_of_neg (by simp [kept]), rest, List.length_cons]

/-- Of the pairs of a matching, at most one uses the first element or its first fit: two such pairs
would cross. -/
theorem eq_of_first {j : Nat} (crossing : NonCrossing fits (a :: as) bs)
    (matching : Matching fits (a :: as) bs pairs) (free : ∀ p ∈ pairs, p.2 ∉ used)
    (found : freeFit fits bs used a = some j) {p q : Nat × Nat} (hp : p ∈ pairs) (hq : q ∈ pairs)
    (first : p.1 = 0 ∨ p.2 = j) (second : q.1 = 0 ∨ q.2 = j) : p = q := by
  have same_left {p q : Nat × Nat} (hp : p ∈ pairs) (hq : q ∈ pairs) (same : p.1 = q.1) : p = q :=
    List.inj_on_of_nodup_map matching.left hp hq same
  have same_right {p q : Nat × Nat} (hp : p ∈ pairs) (hq : q ∈ pairs) (same : p.2 = q.2) : p = q :=
    List.inj_on_of_nodup_map matching.right hp hq same
  -- the first element and its first fit are not paired with others, as these pairs would cross
  have apart {p q : Nat × Nat} (hp : p ∈ pairs) (hq : q ∈ pairs) (first : p.1 = 0)
      (second : q.2 = j) : p = q := by
    by_contra other
    obtain ⟨⟨b, at_j, fit⟩, _, before⟩ := freeFit_eq_some found
    obtain ⟨_, b', left, right, fit'⟩ := matching.fits p hp
    obtain ⟨a', b₀, left', right', fit''⟩ := matching.fits q hq
    rw [first] at left
    obtain rfl := Option.some.inj left
    rw [second, at_j] at right'
    obtain rfl := Option.some.inj right'
    have later : j < p.2 := by
      by_contra early
      rcases Nat.lt_or_eq_of_le (Nat.not_lt.mp early) with earlier | same
      · have none := before p.2 earlier (free p hp) b' right
        rw [none] at fit'
        cases fit'
      · exact other (same_right hp hq (same.trans second.symm))
    have pos : 0 < q.1 := Nat.pos_of_ne_zero fun zero => other (same_left hp hq (first.trans zero.symm))
    obtain ⟨k, same⟩ := Nat.exists_eq_succ_of_ne_zero (Nat.ne_of_gt pos)
    rw [same, List.getElem?_cons_succ] at left'
    have cross := List.rel_of_pairwise_cons crossing (List.mem_of_getElem? left')
    obtain ⟨inside, value⟩ := List.getElem?_eq_some_iff.mp at_j
    obtain ⟨inside', value'⟩ := List.getElem?_eq_some_iff.mp right
    have never := List.pairwise_iff_getElem.mp cross j p.2 inside inside' later
    rw [value, value'] at never
    rw [never fit'] at fit''
    cases fit''
  rcases first with zero | same
  · rcases second with zero' | same'
    · exact same_left hp hq (zero.trans zero'.symm)
    · exact apart hp hq zero same'
  · rcases second with zero' | same'
    · exact (apart hq hp zero' same).symm
    · exact same_right hp hq (same.trans same'.symm)

/-- No matching of the elements with places that are still free has more pairs than the first fit
makes, by induction on the elements. -/
theorem Matching.length_le (crossing : NonCrossing fits as bs) (matching : Matching fits as bs pairs)
    (free : ∀ p ∈ pairs, p.2 ∉ used) :
    pairs.length + used.length ≤ (firstFit fits bs used as).length := by
  induction as generalizing used pairs with
  | nil =>
    have none : pairs = [] := List.eq_nil_iff_forall_not_mem.mpr fun p member => by
      obtain ⟨_, _, left, _⟩ := matching.fits p member
      cases left
    rw [none, List.length_nil, Nat.zero_add]
    exact Nat.le_refl _
  | cons a as ih =>
    have rest : NonCrossing fits as bs := crossing.of_cons
    rw [firstFit, List.foldl_cons, fitStep]
    cases found : freeFit fits bs used a with
    | none =>
      -- an item without a free partner is in no pair
      have behind : ∀ p ∈ pairs, p.1 ≠ 0 := fun p member zero => by
        obtain ⟨_, b, left, right, fit⟩ := matching.fits p member
        rw [zero] at left
        obtain rfl := Option.some.inj left
        rw [freeFit_eq_none found (free p member) right] at fit
        cases fit
      have bound := ih rest (matching.tail behind) fun p member => by
        obtain ⟨q, among, rfl⟩ := List.mem_map.mp member
        exact free q among
      rwa [List.length_map] at bound
    | some j =>
      -- the greedy pair can cost the matching one pair only: that of the item, or that of its
      -- partner
      let keep : Nat × Nat → Bool := fun p => decide (p.1 ≠ 0) && decide (p.2 ≠ j)
      have gone {p : Nat × Nat} (lost : keep p = false) : p.1 = 0 ∨ p.2 = j := by
        simpa only [keep, Bool.and_eq_false_iff, decide_eq_false_iff_not, not_not] using lost
      have kept {p : Nat × Nat} (member : p ∈ pairs.filter keep) : p ∈ pairs ∧ p.1 ≠ 0 ∧ p.2 ≠ j := by
        simpa only [keep, List.mem_filter, Bool.and_eq_true, decide_eq_true_eq] using member
      have almost := length_le_filter_add_one matching.left.of_map fun p hp q hq lost lost' =>
        eq_of_first crossing matching free found hp hq (gone lost) (gone lost')
      have bound := @ih (j :: used) _ rest
        ((matching.sublist List.filter_sublist).tail fun p member => (kept member).2.1)
        fun p member => by
          obtain ⟨q, among, rfl⟩ := List.mem_map.mp member
          obtain ⟨among, _, other⟩ := kept among
          exact List.not_mem_cons_of_ne_of_not_mem other (free q among)
      rw [List.length_map, List.length_cons] at bound
      exact Nat.le_trans (by omega) bound

/-- The first fit makes a matching: each element that fits takes a place of its own, none of which
was used before. -/
theorem exists_matching (fits : α → β → Bool) (as : List α) (bs : List β) (used : List Nat) :
    ∃ pairs, Matching fits as bs pairs ∧ (∀ p ∈ pairs, p.2 ∉ used) ∧
      pairs.length + used.length = (firstFit fits bs used as).length := by
  induction as generalizing used with
  | nil => exact ⟨[], ⟨.nil, .nil, nofun⟩, nofun, Nat.zero_add _⟩
  | cons a as ih =>
    rw [firstFit, List.foldl_cons, fitStep]
    -- the pairs of the rest, counted with one more item in front
    have shifted {pairs : List (Nat × Nat)} (matching : Matching fits as bs pairs) :
        Matching fits (a :: as) bs (pairs.map fun p => (p.1 + 1, p.2)) := by
      refine ⟨?_, ?_, fun p member => ?_⟩
      · rw [List.map_map]
        refine List.Nodup.map_on (fun p member q member' same => ?_) matching.left.of_map
        simp only [Function.comp] at same
        exact List.inj_on_of_nodup_map matching.left member member' (by omega)
      · rw [List.map_map]
        exact matching.right
      · obtain ⟨q, among, rfl⟩ := List.mem_map.mp member
        exact matching.fits q among
    cases found : freeFit fits bs used a with
    | none =>
      obtain ⟨pairs, matching, free, length⟩ := ih used
      refine ⟨_, shifted matching, fun p member => ?_, ?_⟩
      · obtain ⟨q, among, rfl⟩ := List.mem_map.mp member
        exact free q among
      · rw [List.length_map]
        exact length
    | some j =>
      obtain ⟨⟨b, at_j, fit⟩, fresh, _⟩ := freeFit_eq_some found
      obtain ⟨pairs, matching, free, length⟩ := ih (j :: used)
      have others : ∀ q ∈ pairs.map fun p => (p.1 + 1, p.2), q.2 ∉ j :: used := fun q member => by
        obtain ⟨p, among, rfl⟩ := List.mem_map.mp member
        exact free p among
      refine ⟨(0, j) :: pairs.map fun p => (p.1 + 1, p.2), ⟨?_, ?_, ?_⟩, ?_, ?_⟩
      · refine List.nodup_cons.mpr ⟨fun zero => ?_, (shifted matching).left⟩
        obtain ⟨q, among, same⟩ := List.mem_map.mp zero
        obtain ⟨p, _, rfl⟩ := List.mem_map.mp among
        cases same
      · refine List.nodup_cons.mpr ⟨fun again => ?_, (shifted matching).right⟩
        obtain ⟨q, among, same⟩ := List.mem_map.mp again
        exact others q among (List.mem_cons.mpr (.inl same))
      · exact List.forall_mem_cons.mpr ⟨⟨a, b, rfl, at_j, fit⟩, (shifted matching).fits⟩
      · exact List.forall_mem_cons.mpr
          ⟨fresh, fun q member => fun old => others q member (List.mem_cons_of_mem _ old)⟩
      · rw [List.length_cons, List.length_map, Nat.add_right_comm, Nat.add_assoc]
        exact length

/-- The first fit makes as many pairs as any matching has. -/
theorem isGreatest_firstFit (crossing : NonCrossing fits as bs) :
    IsGreatest {n | ∃ pairs, Matching fits as bs pairs ∧ pairs.length = n}
      (firstFit fits bs [] as).length := by
  obtain ⟨pairs, matching, _, length⟩ := exists_matching fits as bs []
  refine ⟨⟨pairs, matching, length⟩, ?_⟩
  rintro _ ⟨pairs, matching, rfl⟩
  exact matching.length_le crossing fun _ _ => List.not_mem_nil

end RedactGate.Library
