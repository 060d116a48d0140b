import Mathlib.Order.Lattice
import Mathlib.Data.List.Basic
import Mathlib.Data.List.Pairwise
import Mathlib.Logic.Relation

/-!
# Sweeping ranked intervals

A left-to-right sweep over items that occupy half-open intervals and carry a
rank. The sweep keeps a stack of pairwise separated items, most recent first.
A new item meets only the top of the stack: it is pushed when it starts after
the top stops, dropped when the top ranks at least as high, and otherwise it
replaces the top.

A replaced item can be replaced by one that the first loser never touched, so
"every loser overlaps a survivor" is not preserved by a step. What is preserved
is a chain: every item ever seen yields, step by step, to some survivor.
-/
namespace RedactGate.Library.Sweep

variable {α ι κ : Type} [LinearOrder ι] [LinearOrder κ]
variable (start stop : α → ι) (rank : α → κ)

/-- Half-open intervals overlap; intervals that only touch do not. -/
def Overlaps (a b : α) : Prop := start a < stop b ∧ start b < stop a

/-- The first interval lies entirely before the second. -/
def Before (a b : α) : Prop := stop a ≤ start b

/-- `a` yields to `b`: they overlap and `b` is an item ranking at least as high. -/
def Yields (items : List α) (a b : α) : Prop :=
  b ∈ items ∧ Overlaps start stop a b ∧ rank a ≤ rank b

/-- One step of the sweep, on a stack with the most recent item first: an item that overlaps the top
is dropped, or it takes its place if it ranks higher. -/
def push (stack : List α) (x : α) : List α :=
  match stack with
  | [] => [x]
  | top :: rest =>
    if stop top ≤ start x then x :: top :: rest
    else if rank x ≤ rank top then top :: rest
    else x :: rest

def sweep (xs : List α) : List α := xs.foldl (push start stop rank) []

/-- What one step can do, with the guard of each case: the item is put on the stack, it yields to
the top, or it takes the place of the top. -/
theorem push_cases (stack : List α) (x : α) :
    (push start stop rank stack x = x :: stack ∧ ∀ top ∈ stack.head?, stop top ≤ start x) ∨
    (∃ top rest, stack = top :: rest ∧ start x < stop top ∧ rank x ≤ rank top ∧
      push start stop rank stack x = stack) ∨
    (∃ top rest, stack = top :: rest ∧ start x < stop top ∧ rank top < rank x ∧
      push start stop rank stack x = x :: rest) := by
  cases stack with
  | nil => exact .inl ⟨rfl, by simp⟩
  | cons top rest =>
    simp only [push]
    split
    next clear => exact .inl ⟨rfl, by simpa using clear⟩
    next meets =>
      have touch : start x < stop top := lt_of_not_ge meets
      split
      next loses => exact .inr (.inl ⟨top, rest, rfl, touch, loses, rfl⟩)
      next wins => exact .inr (.inr ⟨top, rest, rfl, touch, lt_of_not_ge wins, rfl⟩)

/-- The stack as the sweep keeps it: separated, proper and started no later than `x`. -/
structure Ready (stack : List α) (x : α) : Prop where
  separated : stack.Pairwise fun later earlier => Before start stop earlier later
  proper : ∀ s ∈ stack, start s < stop s
  started : ∀ s ∈ stack, start s ≤ start x

/-- Invariant of the sweep: what the stack holds once the items `done` have been seen. -/
structure Swept (items done stack : List α) : Prop where
  known : stack ⊆ items
  sublist : stack.reverse.Sublist done
  linked : ∀ y ∈ done, ∃ w ∈ stack, Relation.ReflTransGen (Yields start stop rank items) y w

variable {start stop rank}

theorem mem_push {stack : List α} {x y : α} (member : y ∈ push start stop rank stack x) :
    y = x ∨ y ∈ stack := by
  rcases push_cases start stop rank stack x with
    ⟨eq, _⟩ | ⟨top, rest, rfl, _, _, eq⟩ | ⟨top, rest, rfl, _, _, eq⟩
  · simpa [eq] using member
  · rw [eq] at member
    exact .inr member
  · rw [eq] at member
    rcases List.mem_cons.mp member with rfl | old
    · exact .inl rfl
    · exact .inr (List.mem_cons_of_mem _ old)

/-- If the top of the stack ends before an item starts, then so does everything below it. -/
theorem Ready.all_before {stack : List α} {x : α} (ready : Ready start stop stack x)
    (clear : ∀ top ∈ stack.head?, stop top ≤ start x) : ∀ s ∈ stack, stop s ≤ start x := by
  intro s member
  cases stack with
  | nil => simp at member
  | cons top rest =>
    have top_clear : stop top ≤ start x := clear top (by simp)
    rcases List.mem_cons.mp member with rfl | deeper
    · exact top_clear
    · have apart : stop s ≤ start top := List.rel_of_pairwise_cons ready.separated deeper
      exact apart.trans (ready.started top (by simp))

/-- Below a top that started no later than `x`, everything ends before `x` starts. -/
theorem Ready.rest_before {top x : α} {rest : List α}
    (ready : Ready start stop (top :: rest) x) : ∀ s ∈ rest, stop s ≤ start x := by
  intro s member
  have apart : stop s ≤ start top := List.rel_of_pairwise_cons ready.separated member
  exact apart.trans (ready.started top (by simp))

variable (rank) in
theorem push_separated {stack : List α} {x : α} (ready : Ready start stop stack x) :
    (push start stop rank stack x).Pairwise
      fun later earlier => Before start stop earlier later := by
  rcases push_cases start stop rank stack x with
    ⟨eq, clear⟩ | ⟨top, rest, rfl, _, _, eq⟩ | ⟨top, rest, rfl, _, _, eq⟩
  · rw [eq]
    exact List.pairwise_cons.mpr ⟨ready.all_before clear, ready.separated⟩
  · rw [eq]
    exact ready.separated
  · rw [eq]
    exact List.pairwise_cons.mpr ⟨ready.rest_before, ready.separated.of_cons⟩

/-- The step keeps the stack ready for every later item, whether the new item was pushed, dropped or
put in place of the top. -/
theorem push_ready {stack : List α} {x y : α} (ready : Ready start stop stack x)
    (proper : start x < stop x) (sorted : start x ≤ start y) :
    Ready start stop (push start stop rank stack x) y where
  separated := push_separated rank ready
  proper := by
    intro s member
    rcases mem_push member with rfl | old
    · exact proper
    · exact ready.proper s old
  started := by
    intro s member
    rcases mem_push member with rfl | old
    · exact sorted
    · exact (ready.started s old).trans sorted

/-- Links survive when more items are known. -/
theorem Yields.mono {items more : List α} (included : items ⊆ more) {a b : α}
    (yields : Yields start stop rank items a b) : Yields start stop rank more a b :=
  ⟨included yields.1, yields.2⟩

/-- The step lemma: an item that yields to a survivor, through a chain of others, still does so when
the survivor itself has to yield to the new item. -/
theorem push_linked {items stack : List α} {x : α} (ready : Ready start stop stack x)
    (proper : start x < stop x) (known : x ∈ items) (stack_known : stack ⊆ items)
    {y : α} (seen : y = x ∨ ∃ w ∈ stack, Relation.ReflTransGen (Yields start stop rank items) y w) :
    ∃ w ∈ push start stop rank stack x,
      Relation.ReflTransGen (Yields start stop rank items) y w := by
  rcases push_cases start stop rank stack x with
    ⟨eq, _⟩ | ⟨top, rest, rfl, touch, loses, eq⟩ | ⟨top, rest, rfl, touch, wins, eq⟩
  · rw [eq]
    rcases seen with rfl | ⟨w, member, link⟩
    · exact ⟨y, by simp, .refl⟩
    · exact ⟨w, List.mem_cons_of_mem _ member, link⟩
  · rw [eq]
    rcases seen with rfl | old
    · -- the new item is dropped: it overlaps the top, which ranks at least as high
      have overlap : Overlaps start stop y top :=
        ⟨touch, (ready.started top (by simp)).trans_lt proper⟩
      exact ⟨top, by simp, .single ⟨stack_known (by simp), overlap, loses⟩⟩
    · exact old
  · rw [eq]
    rcases seen with rfl | ⟨w, member, link⟩
    · exact ⟨y, by simp, .refl⟩
    · rcases List.mem_cons.mp member with rfl | deeper
      · -- the survivor of `y` is replaced: the chain grows by the replacement
        have overlap : Overlaps start stop w x :=
          ⟨(ready.started w (by simp)).trans_lt proper, touch⟩
        exact ⟨x, by simp, link.tail ⟨known, overlap, wins.le⟩⟩
      · exact ⟨w, List.mem_cons_of_mem _ deeper, link⟩

theorem push_reverse_sublist {done stack : List α} (sub : stack.reverse.Sublist done) (x : α) :
    (push start stop rank stack x).reverse.Sublist (done ++ [x]) := by
  rcases push_cases start stop rank stack x with
    ⟨eq, _⟩ | ⟨top, rest, rfl, _, _, eq⟩ | ⟨top, rest, rfl, _, _, eq⟩
  · rw [eq, List.reverse_cons]
    exact sub.append (.refl _)
  · rw [eq]
    exact sub.trans (List.sublist_append_left _ _)
  · rw [eq, List.reverse_cons]
    have rest_sub : rest.reverse.Sublist done := by
      rw [List.reverse_cons] at sub
      exact (List.sublist_append_left _ _).trans sub
    exact rest_sub.append (.refl _)

theorem push_swept {items done stack : List α} {x : α}
    (swept : Swept start stop rank items done stack)
    (ready : Ready start stop stack x) (proper : start x < stop x) (known : x ∈ items) :
    Swept start stop rank items (done ++ [x])
      (push start stop rank stack x) where
  known := by
    intro y member
    rcases mem_push member with rfl | old
    · exact known
    · exact swept.known old
  sublist := push_reverse_sublist swept.sublist x
  linked := by
    intro y member
    apply push_linked ready proper known swept.known
    rcases List.mem_append.mp member with old | new
    · exact .inr (swept.linked y old)
    · exact .inl (by simpa using new)

/-- The run lemma, by induction on the items that are left: folding the step over a sorted list of
proper items keeps the invariant. -/
theorem foldl_push_swept {items : List α} (todo : List α) :
    ∀ (done stack : List α), todo ⊆ items →
      todo.Pairwise (fun a b => start a ≤ start b) → (∀ x ∈ todo, start x < stop x) →
      (∀ x ∈ todo, Ready start stop stack x) →
      Swept start stop rank items done stack →
      Swept start stop rank items (done ++ todo)
        (todo.foldl (push start stop rank) stack) := by
  induction todo with
  | nil => intro done stack _ _ _ _ swept; simpa using swept
  | cons x todo ih =>
    intro done stack included sorted proper ready swept
    have ready_x := ready x (by simp)
    have proper_x := proper x (by simp)
    -- one push keeps the invariant, and the items behind stay ready for the new stack
    have next := push_swept swept ready_x proper_x (included (by simp))
    have step := ih (done ++ [x]) (push start stop rank stack x)
      (fun y hy => included (List.mem_cons_of_mem _ hy)) sorted.of_cons
      (fun y hy => proper y (List.mem_cons_of_mem _ hy))
      (fun y hy => push_ready ready_x proper_x (List.rel_of_pairwise_cons sorted hy)) next
    simpa using step

theorem ready_nil (x : α) : Ready start stop ([] : List α) x where
  separated := .nil
  proper := by simp
  started := by simp

/-- A sweep of a sorted, proper list keeps a sublist and links every item to a survivor. -/
theorem sweep_swept {xs : List α} (sorted : xs.Pairwise fun a b => start a ≤ start b)
    (proper : ∀ x ∈ xs, start x < stop x) :
    Swept start stop rank xs xs (sweep start stop rank xs) := by
  have initial : Swept start stop rank xs [] [] :=
    ⟨by simp, by simp, by simp⟩
  simpa [sweep] using
    foldl_push_swept xs [] [] (fun _ h => h) sorted proper (fun x _ => ready_nil x) initial

variable (rank) in
/-- A sweep of a sorted list of proper items leaves items that lie one after the other, in the
reversed order of the stack. -/
theorem sweep_separated {xs : List α} (sorted : xs.Pairwise fun a b => start a ≤ start b)
    (proper : ∀ x ∈ xs, start x < stop x) :
    (sweep start stop rank xs).Pairwise fun later earlier => Before start stop earlier later := by
  -- by induction on what is still to be pushed
  have run (todo : List α) : ∀ stack : List α, todo.Pairwise (fun a b => start a ≤ start b) →
      (∀ x ∈ todo, start x < stop x) → (∀ x ∈ todo, Ready start stop stack x) →
      stack.Pairwise (fun later earlier => Before start stop earlier later) →
      (todo.foldl (push start stop rank) stack).Pairwise
        fun later earlier => Before start stop earlier later := by
    induction todo with
    | nil => intro stack _ _ _ separated; exact separated
    | cons x todo ih =>
      intro stack sorted proper ready _
      have ready_x := ready x (by simp)
      have proper_x := proper x (by simp)
      exact ih _ sorted.of_cons (fun y hy => proper y (List.mem_cons_of_mem _ hy))
        (fun y hy => push_ready ready_x proper_x (List.rel_of_pairwise_cons sorted hy))
        (push_separated rank ready_x)
  exact run xs [] sorted proper (fun x _ => ready_nil x) .nil

/-- Following links never lowers the rank. -/
theorem rank_le_of_linked {items : List α} {a b : α}
    (link : Relation.ReflTransGen (Yields start stop rank items) a b) : rank a ≤ rank b := by
  induction link with
  | refl => exact le_rfl
  | tail _ yields ih => exact ih.trans yields.2.2

/-- An item that outranks everything it overlaps yields to nobody but itself, through however many
others. -/
theorem eq_of_linked_of_dominant {items : List α} {a b : α}
    (dominant : ∀ c ∈ items, Overlaps start stop a c → rank a ≤ rank c → c = a)
    (link : Relation.ReflTransGen (Yields start stop rank items) a b) : b = a := by
  induction link with
  | refl => rfl
  | tail _ yields ih =>
    subst ih
    exact dominant _ yields.1 yields.2.1 yields.2.2

/-! ## Separated items and images -/

variable (rank) in
/-- Items that lie one after the other all survive the sweep, so that sweeping once more changes
nothing. -/
theorem foldl_push_of_separated (todo : List α) :
    ∀ stack : List α, (stack.reverse ++ todo).Pairwise (Before start stop) →
      todo.foldl (push start stop rank) stack = todo.reverse ++ stack := by
  induction todo with
  | nil => intro stack _; rfl
  | cons x todo ih =>
    intro stack apart
    have pushed : push start stop rank stack x = x :: stack := by
      cases stack with
      | nil => rfl
      | cons top rest =>
        have clear : stop top ≤ start x :=
          (List.pairwise_append.mp apart).2.2 top (by simp) x (by simp)
        simp [push, clear]
    rw [List.foldl_cons, pushed, ih (x :: stack) (by simpa using apart)]
    simp

variable (rank) in
theorem sweep_of_separated {xs : List α} (apart : xs.Pairwise (Before start stop)) :
    sweep start stop rank xs = xs.reverse := by
  simpa [sweep] using foldl_push_of_separated rank xs [] (by simpa using apart)

section

variable {β : Type} (start' stop' : β → ι) (rank' : β → κ) {f : α → β}

/-- A step looks at nothing of an item but its interval and its rank, so that it commutes with any
map that keeps these. -/
theorem map_push (starts : ∀ a, start' (f a) = start a) (stops : ∀ a, stop' (f a) = stop a)
    (ranks : ∀ a, rank' (f a) = rank a) (stack : List α) (x : α) :
    (push start stop rank stack x).map f = push start' stop' rank' (stack.map f) (f x) := by
  cases stack with
  | nil => rfl
  | cons top rest =>
    simp only [push, List.map_cons, starts, stops, ranks]
    split
    · rfl
    · split <;> rfl

theorem map_sweep (starts : ∀ a, start' (f a) = start a) (stops : ∀ a, stop' (f a) = stop a)
    (ranks : ∀ a, rank' (f a) = rank a) (xs : List α) :
    (sweep start stop rank xs).map f = sweep start' stop' rank' (xs.map f) := by
  have run (todo : List α) : ∀ stack : List α, (todo.foldl (push start stop rank) stack).map f =
      (todo.map f).foldl (push start' stop' rank') (stack.map f) := by
    induction todo with
    | nil => intro stack; rfl
    | cons x todo ih =>
      intro stack
      rw [List.foldl_cons, List.map_cons, List.foldl_cons, ih,
        map_push start' stop' rank' starts stops ranks]
  exact run xs []

end

end RedactGate.Library.Sweep
