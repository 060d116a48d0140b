import RedactGate.Library.System
import Mathlib.Data.List.Sort

/-!
# Appending under a lock

Transactions that each take a lock, look at the committed rows of their group, insert one
row that follows from what they saw, and end. Rows get fresh increasing ids when they are
inserted and become visible when their transaction commits; a lock is released when the
transaction ends. All rows of a group are guarded by one lock, several groups may share it.

Ordered by id, the rows of each group are then what the committed transactions would have
appended one after the other.
-/
namespace RedactGate.Library

/-- What the transactions `Tx` do: which group they append to, by which key they lock it, what they
look at and what row they make of it. -/
structure Appender (Tx Group Key Seen Row : Type) where
  group : Tx → Group
  rowGroup : Row → Group
  lock : Group → Key
  /-- What is read off the rows of the group, in the order of their ids. -/
  look : List Row → Seen
  row : Tx → Seen → Row
  rowGroup_row : ∀ t seen, rowGroup (row t seen) = group t

namespace Appender

/-- Where a transaction stands, from waiting for its lock to the commit of its row or to its
rollback. -/
inductive Stage (Seen Row : Type) where
  | waiting
  | locked
  | looked (seen : Seen)
  | inserted (id : Nat) (row : Row)
  | committed
  | rolledBack

structure Table (Tx Key Seen Row : Type) where
  /-- The committed rows with their ids, in the order of the commits. -/
  rows : List (Nat × Row)
  nextId : Nat
  owner : Key → Option Tx
  stage : Tx → Stage Seen Row

inductive Action where
  | takeLock
  | look
  | insert
  | commit
  | rollback

variable {Tx Group Key Seen Row : Type} [DecidableEq Group]
variable (app : Appender Tx Group Key Seen Row)

def start : Table Tx Key Seen Row := ⟨[], 1, fun _ => none, fun _ => .waiting⟩

/-- The committed rows of a group. -/
def rowsOf (g : Group) (rows : List (Nat × Row)) : List (Nat × Row) :=
  rows.filter fun r => app.rowGroup r.2 = g

/-- `select … where group = … order by id`. -/
def select (g : Group) (rows : List (Nat × Row)) : List Row :=
  ((app.rowsOf g rows).insertionSort fun a b => a.1 ≤ b.1).map Prod.snd

/-- The locks after a transaction ends. -/
def release [DecidableEq Tx] (owner : Key → Option Tx) (t : Tx) : Key → Option Tx :=
  fun k => if owner k = some t then none else owner k

/-- One step of one transaction, and none where it is not enabled: the lock, the look at the
committed rows, the insert, the commit or the rollback. -/
def step [DecidableEq Tx] [DecidableEq Key] (s : Table Tx Key Seen Row) (a : Tx × Action) :
    Option (Table Tx Key Seen Row) :=
  let t := a.1
  let moved (stage : Stage Seen Row) := Function.update s.stage t stage
  match a.2, s.stage t with
  | .takeLock, .waiting =>
    -- the lock is waited for: the step is enabled once it is free
    match s.owner (app.lock (app.group t)) with
    | none => some { s with
        owner := Function.update s.owner (app.lock (app.group t)) (some t)
        stage := moved .locked }
    | some _ => none
  | .look, .locked =>
    some { s with stage := moved (.looked (app.look (app.select (app.group t) s.rows))) }
  | .insert, .looked seen =>
    some { s with nextId := s.nextId + 1, stage := moved (.inserted s.nextId (app.row t seen)) }
  | .commit, .inserted id row =>
    some { s with
      rows := s.rows ++ [(id, row)]
      owner := release s.owner t
      stage := moved .committed }
  | .rollback, .committed => none
  | .rollback, .rolledBack => none
  | .rollback, _ => some { s with owner := release s.owner t, stage := moved .rolledBack }
  | _, _ => none

/-- The rows of the transactions, executed one after the other. -/
def serial (order : List Tx) : List Row :=
  order.foldl (fun rows t =>
    rows ++ [app.row t (app.look (rows.filter fun r => app.rowGroup r = app.group t))]) []

/-! ## One step -/

/-- A transaction between taking its lock and its end. -/
def Stage.Active : Stage Seen Row → Prop
  | .locked | .looked _ | .inserted _ _ => True
  | .waiting | .committed | .rolledBack => False

/-- Everything a step can do, with the guard of each case: take the lock, look at the rows of the
group, insert, commit, or roll back and release the lock. -/
theorem step_cases [DecidableEq Tx] [DecidableEq Key] {s s' : Table Tx Key Seen Row} {t : Tx}
    {k : Action}
    (taken : app.step s (t, k) = some s') :
    (s.stage t = .waiting ∧ s.owner (app.lock (app.group t)) = none ∧
      s' = { s with
        owner := Function.update s.owner (app.lock (app.group t)) (some t)
        stage := Function.update s.stage t .locked }) ∨
    (s.stage t = .locked ∧ s' = { s with
      stage := Function.update s.stage t
        (.looked (app.look (app.select (app.group t) s.rows))) }) ∨
    (∃ seen, s.stage t = .looked seen ∧ s' = { s with
      nextId := s.nextId + 1
      stage := Function.update s.stage t (.inserted s.nextId (app.row t seen)) }) ∨
    (∃ id row, s.stage t = .inserted id row ∧ s' = { s with
      rows := s.rows ++ [(id, row)]
      owner := release s.owner t
      stage := Function.update s.stage t .committed }) ∨
    (s.stage t ≠ .committed ∧ s' = { s with
      owner := release s.owner t
      stage := Function.update s.stage t .rolledBack }) := by
  unfold step at taken
  simp only at taken
  split at taken
  next waiting =>
    split at taken
    next free => exact .inl ⟨waiting, free, (Option.some.inj taken).symm⟩
    next => cases taken
  next locked => exact .inr (.inl ⟨locked, (Option.some.inj taken).symm⟩)
  -- the kinds of step are told apart by the stage, but for the roll back, which any but a committed
  -- transaction may make
  next seen looked => exact .inr (.inr (.inl ⟨seen, looked, (Option.some.inj taken).symm⟩))
  next id row inserted =>
    exact .inr (.inr (.inr (.inl ⟨id, row, inserted, (Option.some.inj taken).symm⟩)))
  next => cases taken
  next => cases taken
  next committed rolledBack =>
    exact .inr (.inr (.inr (.inr ⟨committed, (Option.some.inj taken).symm⟩)))
  next => cases taken

/-! ## The invariant -/

/-- The committed rows of a group, in the order of the commits. -/
def current (s : Table Tx Key Seen Row) (g : Group) : List Row :=
  (app.rowsOf g s.rows).map Prod.snd

/-- The transactions `order` have committed, in this order, and each group holds the rows that they
would have appended one after the other. -/
structure Inv (s : Table Tx Key Seen Row) (order : List Tx) : Prop where
  nodup : order.Nodup
  committed : ∀ t, t ∈ order ↔ s.stage t = .committed
  serial : ∀ g, app.current s g = (app.serial order).filter fun r => app.rowGroup r = g
  sorted : ∀ g, (app.rowsOf g s.rows).Pairwise fun a b => a.1 < b.1
  below : ∀ r ∈ s.rows, r.1 < s.nextId
  holds : ∀ t, (s.stage t).Active → s.owner (app.lock (app.group t)) = some t
  looked : ∀ t seen, s.stage t = .looked seen → seen = app.look (app.current s (app.group t))
  inserted : ∀ t id row, s.stage t = .inserted id row →
    row = app.row t (app.look (app.current s (app.group t))) ∧ id < s.nextId ∧
      ∀ r ∈ app.rowsOf (app.group t) s.rows, r.1 < id

variable {app}

theorem inv_start : app.Inv start [] where
  nodup := List.nodup_nil
  committed t := by simp [start]
  serial g := rfl
  sorted g := .nil
  below r member := by cases member
  holds t active := active.elim
  looked t seen looked := by cases looked
  inserted t id row inserted := by cases inserted

theorem rowsOf_append (g : Group) (rows : List (Nat × Row)) (id : Nat) (row : Row) :
    app.rowsOf g (rows ++ [(id, row)]) =
      app.rowsOf g rows ++ if app.rowGroup row = g then [(id, row)] else [] := by
  rw [rowsOf, List.filter_append]
  by_cases mine : app.rowGroup row = g <;> simp [rowsOf, mine]

/-- Where the ids increase, ordering by id changes nothing. -/
theorem Inv.select_eq {s : Table Tx Key Seen Row} {order : List Tx} (inv : app.Inv s order)
    (g : Group) : app.select g s.rows = app.current s g := by
  have ordered : (app.rowsOf g s.rows).Pairwise fun a b => a.1 ≤ b.1 :=
    (inv.sorted g).imp fun less => Nat.le_of_lt less
  rw [select, ordered.insertionSort_eq, current]

theorem Inv.active_of_inserted {s : Table Tx Key Seen Row} {t : Tx} {id : Nat} {row : Row}
    (inserted : s.stage t = .inserted id row) : (s.stage t).Active := by
  rw [inserted]
  trivial

section

variable [DecidableEq Tx]

/-- A step that commits nothing keeps the invariant if the transaction that makes it
still satisfies its part. -/
theorem Inv.of_rows_eq {s s' : Table Tx Key Seen Row} {order : List Tx} {t : Tx}
    (inv : app.Inv s order) (rows : s'.rows = s.rows) (next : s.nextId ≤ s'.nextId)
    (others : ∀ t' ≠ t, s'.stage t' = s.stage t') (before : s.stage t ≠ .committed)
    (after : s'.stage t ≠ .committed)
    (holds : ∀ t', (s'.stage t').Active → s'.owner (app.lock (app.group t')) = some t')
    (looked : ∀ seen, s'.stage t = .looked seen → seen = app.look (app.current s (app.group t)))
    (inserted : ∀ id row, s'.stage t = .inserted id row →
      row = app.row t (app.look (app.current s (app.group t))) ∧ id < s'.nextId ∧
        ∀ r ∈ app.rowsOf (app.group t) s.rows, r.1 < id) : app.Inv s' order where
  nodup := inv.nodup
  committed t' := by
    -- only the stage of one transaction changes
    by_cases mine : t' = t
    · subst mine
      simp only [inv.committed, before, after]
    · rw [inv.committed, others t' mine]
  serial g := by rw [current, rows]; exact inv.serial g
  sorted g := by rw [rows]; exact inv.sorted g
  below r member := by
    rw [rows] at member
    exact Nat.lt_of_lt_of_le (inv.below r member) next
  holds := holds
  looked t' seen stage := by
    rw [current, rows]
    by_cases mine : t' = t
    · subst mine
      exact looked seen stage
    · rw [others t' mine] at stage
      exact inv.looked t' seen stage
  inserted t' id row stage := by
    rw [current, rows]
    by_cases mine : t' = t
    · subst mine
      exact inserted id row stage
    · rw [others t' mine] at stage
      obtain ⟨made, fresh, last⟩ := inv.inserted t' id row stage
      exact ⟨made, Nat.lt_of_lt_of_le fresh next, last⟩

/-- The end of one transaction leaves the locks of the others alone. -/
theorem release_eq {owner : Key → Option Tx} {t t' : Tx} {k : Key} (other : t' ≠ t)
    (held : owner k = some t') : release owner t k = some t' := by
  rw [release, held, if_neg]
  intro same
  exact other (Option.some.inj same)

omit [DecidableEq Tx] in
/-- Of two transactions on one group only one is active. -/
theorem Inv.eq_of_active {s : Table Tx Key Seen Row} {order : List Tx} (inv : app.Inv s order)
    {t t' : Tx} (active : (s.stage t).Active) (active' : (s.stage t').Active)
    (same : app.group t' = app.group t) : t' = t := by
  have held := inv.holds t active
  have held' := inv.holds t' active'
  rw [same, held] at held'
  exact (Option.some.inj held').symm

/-- The commit of the row that a transaction has inserted: the transaction holds the lock of its
group, and so nobody has committed to the group since it looked at the rows. -/
theorem Inv.commit {s : Table Tx Key Seen Row} {order : List Tx} (inv : app.Inv s order) {t : Tx}
    {id : Nat} {row : Row} (inserted : s.stage t = .inserted id row) :
    app.Inv { s with
      rows := s.rows ++ [(id, row)]
      owner := release s.owner t
      stage := Function.update s.stage t .committed } (order ++ [t]) := by
  obtain ⟨made, fresh, last⟩ := inv.inserted t id row inserted
  have active := Inv.active_of_inserted inserted
  have group : app.rowGroup row = app.group t := by rw [made, app.rowGroup_row]
  -- another active transaction works on another group, whose rows are as before
  have apart {t' : Tx} (other : t' ≠ t) (active' : (s.stage t').Active) :
      app.rowsOf (app.group t') (s.rows ++ [(id, row)]) = app.rowsOf (app.group t') s.rows := by
    have differ : app.rowGroup row ≠ app.group t' := by
      rw [group]
      exact fun same => other (inv.eq_of_active active active' same.symm)
    rw [rowsOf_append, if_neg differ, List.append_nil]
  refine ⟨?_, ?_, ?_, ?_, ?_, ?_, ?_, ?_⟩
  · have new : t ∉ order := by rw [inv.committed, inserted]; simp
    refine List.nodup_append.mpr ⟨inv.nodup, List.nodup_singleton t, fun u member v last same => ?_⟩
    rw [List.mem_singleton.mp last] at same
    exact new (same ▸ member)
  · intro t'
    by_cases mine : t' = t
    · simp [mine]
    · simp [mine, inv.committed]
  · intro g
    have serial := inv.serial g
    rw [current] at serial
    simp only [current, Appender.serial, List.foldl_append, List.foldl_cons, List.foldl_nil,
      rowsOf_append, List.map_append, List.filter_append, serial]
    congr 1
    have seen := inv.serial (app.group t)
    rw [Appender.serial] at seen
    rw [← seen, ← made]
    by_cases mine : app.rowGroup row = g <;> simp [mine]
  · intro g
    simp only [rowsOf_append]
    split
    next mine =>
      refine List.pairwise_append.mpr ⟨inv.sorted g, List.pairwise_singleton _ _, ?_⟩
      intro r member r' new
      obtain rfl := List.mem_singleton.mp new
      rw [← mine, group] at member
      exact last r member
    next => simpa using inv.sorted g
  · intro r member
    rcases List.mem_append.mp member with old | new
    · exact inv.below r old
    · obtain rfl := List.mem_singleton.mp new
      exact fresh
  · intro t' active'
    by_cases mine : t' = t
    · simp [mine, Stage.Active] at active'
    · simp only [Function.update_of_ne mine] at active'
      exact release_eq mine (inv.holds t' active')
  · intro t' seen looked
    by_cases mine : t' = t
    · simp [mine] at looked
    · simp only [Function.update_of_ne mine] at looked
      rw [current, apart mine (by rw [looked]; trivial)]
      exact inv.looked t' seen looked
  · intro t' id' row' inserted'
    by_cases mine : t' = t
    · simp [mine] at inserted'
    · simp only [Function.update_of_ne mine] at inserted'
      rw [current, apart mine (by rw [inserted']; trivial)]
      exact inv.inserted t' id' row' inserted'

variable [DecidableEq Key]

/-- The step lemma: whatever one transaction does, the invariant is kept for the same order of
commits, or for this order with one more commit at its end. -/
theorem Inv.step {s s' : Table Tx Key Seen Row} {order : List Tx} (inv : app.Inv s order)
    {a : Tx × Action} (taken : app.step s a = some s') : ∃ order', app.Inv s' order' := by
  obtain ⟨t, k⟩ := a
  rcases step_cases app taken with ⟨waiting, free, rfl⟩ | ⟨locked, rfl⟩ | ⟨seen, looked, rfl⟩ |
    ⟨id, row, inserted, rfl⟩ | ⟨running, rfl⟩
  · refine ⟨order, inv.of_rows_eq (t := t) rfl (Nat.le_refl _)
      (fun t' other => Function.update_of_ne other _ _) (by rw [waiting]; simp) (by simp) ?_
      (by simp) (by simp)⟩
    intro t' active
    by_cases mine : t' = t
    · subst mine
      exact Function.update_self _ _ _
    · simp only [Function.update_of_ne mine] at active
      have held := inv.holds t' active
      -- another active transaction holds a lock, and the lock that is taken was free
      have apart : app.lock (app.group t') ≠ app.lock (app.group t) := by
        intro same
        rw [same, free] at held
        cases held
      exact (Function.update_of_ne apart _ _).trans held
  · refine ⟨order, inv.of_rows_eq (t := t) rfl (Nat.le_refl _)
      (fun t' other => Function.update_of_ne other _ _) (by rw [locked]; simp) (by simp) ?_ ?_
      (by simp)⟩
    · intro t' active
      by_cases mine : t' = t
      · subst mine
        exact inv.holds t' (by rw [locked]; trivial)
      · simp only [Function.update_of_ne mine] at active
        exact inv.holds t' active
    · intro seen stage
      simp only [Function.update_self, Stage.looked.injEq] at stage
      rw [← stage, inv.select_eq]
  · refine ⟨order, inv.of_rows_eq (t := t) rfl (Nat.le_succ _)
      (fun t' other => Function.update_of_ne other _ _) (by rw [looked]; simp) (by simp) ?_
      (by simp) ?_⟩
    · intro t' active
      by_cases mine : t' = t
      · subst mine
        exact inv.holds t' (by rw [looked]; trivial)
      · simp only [Function.update_of_ne mine] at active
        exact inv.holds t' active
    · intro id row stage
      simp only [Function.update_self, Stage.inserted.injEq] at stage
      obtain ⟨rfl, rfl⟩ := stage
      rw [← inv.looked t seen looked]
      refine ⟨rfl, Nat.lt_succ_self _, fun r member => ?_⟩
      -- the id is drawn while the lock is held, so no row of the group can come in between
      exact inv.below r (List.mem_of_mem_filter member)
  · exact ⟨order ++ [t], inv.commit inserted⟩
  · refine ⟨order, inv.of_rows_eq (t := t) rfl (Nat.le_refl _)
      (fun t' other => Function.update_of_ne other _ _) running (by simp) ?_ (by simp) (by simp)⟩
    intro t' active
    by_cases mine : t' = t
    · simp [mine, Stage.Active] at active
    · simp only [Function.update_of_ne mine] at active
      exact release_eq mine (inv.holds t' active)

/-- The run lemma: under every interleaving, what each group shows is what the committed
transactions append one after the other. -/
theorem select_eq_serial {s : Table Tx Key Seen Row} (reached : Reaches app.step start s) :
    ∃ order : List Tx, order.Nodup ∧ (∀ t, t ∈ order ↔ s.stage t = .committed) ∧
      ∀ g, app.select g s.rows = (app.serial order).filter fun r => app.rowGroup r = g := by
  obtain ⟨order, inv⟩ : ∃ order, app.Inv s order :=
    reached.invariant (P := fun s => ∃ order, app.Inv s order) ⟨[], inv_start⟩
      fun _ _ _ ⟨_, inv⟩ taken => inv.step taken
  exact ⟨order, inv.nodup, inv.committed, fun g => by rw [inv.select_eq, inv.serial]⟩

end

end Appender

end RedactGate.Library
