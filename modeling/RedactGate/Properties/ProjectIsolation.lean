import RedactGate.Desktop.VaultDb

/-!
# Projects of one vault

The vault with the rows of all projects does for each of them what a store of its own would do:
the same answers and the same state, whatever is called for the other projects in between.
-/
namespace RedactGate.Desktop

open Library

/-! ## The rows of a project -/

section

variable {α : Type} {pid : Text} {rows : List (Text × α)}

theorem owned_cons (pid' : Text) (row : α) :
    owned pid ((pid', row) :: rows) =
      if pid' = pid then row :: owned pid rows else owned pid rows := by
  rw [owned, List.filter_cons]
  by_cases own : pid' = pid
  · rw [if_pos (decide_eq_true own), if_pos own]
    rfl
  · rw [if_neg (by simpa using own), if_neg own]
    rfl

theorem owned_concat (pid' : Text) (row : α) :
    owned pid (rows ++ [(pid', row)]) =
      if pid' = pid then owned pid rows ++ [row] else owned pid rows := by
  have single := @owned_cons α pid [] pid' row
  have split : owned pid (rows ++ [(pid', row)]) = owned pid rows ++ owned pid [(pid', row)] := by
    rw [owned, owned, owned, List.filter_append, List.map_append]
  rw [split, single]
  split
  · rfl
  · exact List.append_nil _

theorem owned_update (pid' : Text) (named : α → Prop) [DecidablePred named] (f : α → α) :
    owned pid (rows.map fun r => if r.1 = pid' ∧ named r.2 then (r.1, f r.2) else r) =
      if pid' = pid then (owned pid rows).map fun row => if named row then f row else row
      else owned pid rows := by
  induction rows with
  | nil => split <;> rfl
  | cons r rows ih =>
    obtain ⟨own, row⟩ := r
    have head : (if own = pid' ∧ named row then (own, f row) else (own, row)) =
        (own, if own = pid' ∧ named row then f row else row) := by
      split <;> rfl
    rw [List.map_cons, head, owned_cons, ih, owned_cons]
    by_cases here : own = pid
    · subst here
      by_cases same : pid' = own
      · subst same
        simp
      · have other : ¬own = pid' := fun eq => same eq.symm
        simp [same, other]
    · simp [here]

theorem owned_filter (pid' : Text) (named : α → Prop) [DecidablePred named] :
    owned pid (rows.filter fun r => ¬(r.1 = pid' ∧ named r.2)) =
      if pid' = pid then (owned pid rows).filter fun row => ¬named row else owned pid rows := by
  induction rows with
  | nil => split <;> rfl
  | cons r rows ih =>
    obtain ⟨own, row⟩ := r
    rw [List.filter_cons, owned_cons]
    by_cases here : own = pid
    · subst here
      by_cases same : pid' = own
      · subst same
        rw [if_pos rfl] at ih
        rw [if_pos rfl, if_pos rfl, List.filter_cons]
        by_cases hit : named row
        · rw [if_neg (by simpa using hit), if_neg (by simpa using hit), ih]
        · rw [if_pos (by simpa using hit), if_pos (by simpa using hit), owned_cons, if_pos rfl, ih]
      · rw [if_neg same] at ih
        rw [if_pos (by simp [Ne.symm same]), owned_cons, if_pos rfl, if_pos rfl, if_neg same, ih]
    · rw [if_neg here, ← ih]
      split
      · rw [owned_cons, if_neg here]
      · rfl

theorem owned_delete (pid' : Text) :
    owned pid (rows.filter (·.1 ≠ pid')) = if pid' = pid then [] else owned pid rows := by
  have all := @owned_filter α pid rows pid' (fun _ => True) _
  simpa using all

theorem any_owned (p : α → Bool) :
    (rows.any fun r => r.1 = pid && p r.2) = (owned pid rows).any p := by
  rw [owned, List.any_map, List.any_filter]
  rfl

theorem find?_owned (p : α → Bool) :
    (rows.find? fun r => r.1 = pid ∧ p r.2).map Prod.snd = (owned pid rows).find? p := by
  rw [owned, List.find?_map, List.find?_filter]
  congr 2
  funext r
  simp

theorem filter_owned (p : α → Bool) :
    (rows.filter fun r => r.1 = pid ∧ p r.2).map Prod.snd = (owned pid rows).filter p := by
  rw [owned, List.filter_map, List.filter_filter]
  congr 2
  funext r
  simp [Bool.and_comm]

end

/-! ## What a call does to the projects -/

/-- The store of a project in the vault. -/
def VaultDb.view (db : VaultDb) (pid : Text) : ProjectStore :=
  ⟨⟨⟨owned pid db.entity, owned pid db.variant⟩, db.memory pid⟩, owned pid db.document⟩

/-- The project has the store, and the others have what they had. -/
structure VaultDb.Puts (db db' : VaultDb) (pid : Text) (store : ProjectStore) : Prop where
  own : db'.view pid = store
  others : ∀ other, other ≠ pid → db'.view other = db.view other

variable {order : RowOrder} {db : VaultDb} {pid : Text}

theorem maxN_view (category : Text) :
    db.maxN pid category = (db.view pid).file.tables.maxN category := by
  have rows := @filter_owned _ pid db.entity fun row => decide (row.category = category)
  simp only [decide_eq_true_eq] at rows
  have numbers := congrArg (List.map EntityRow.n) rows
  rw [List.map_map] at numbers
  exact congrArg (List.foldl max 0) numbers

theorem puts_refl : db.Puts db pid (db.view pid) := ⟨rfl, fun _ _ => rfl⟩

theorem puts_hold (m : Option Memory) :
    db.Puts (db.hold pid m) pid
      { db.view pid with file := { (db.view pid).file with memory := m } } where
  own := by simp [VaultDb.view, VaultDb.hold]
  others other differs := by simp [VaultDb.view, VaultDb.hold, Function.update_of_ne differs]

theorem puts_load : db.Puts (db.load order pid) pid
    { db.view pid with file := (db.view pid).file.load order } := puts_hold _

theorem puts_update (key : LabelKey) (f : EntityRow → EntityRow) :
    db.Puts (db.update pid key f) pid
      { db.view pid with
        file := { (db.view pid).file with tables := (db.view pid).file.tables.update key f } } where
  own := by
    simp only [VaultDb.view, VaultDb.update, Tables.update, owned_update pid (·.key = key) f,
      if_true]
  others other differs := by
    simp only [VaultDb.view, VaultDb.update, owned_update pid (·.key = key) f,
      if_neg (Ne.symm differs)]

theorem VaultDb.Puts.trans {db₁ db₂ : VaultDb} {store store' : ProjectStore}
    (first : db.Puts db₁ pid store) (second : db₁.Puts db₂ pid store') :
    db.Puts db₂ pid store' where
  own := second.own
  others other differs := (second.others other differs).trans (first.others other differs)

theorem VaultDb.Puts.hold {db' : VaultDb} {store : ProjectStore} (first : db.Puts db' pid store)
    (m : Option Memory) : db.Puts (db'.hold pid m) pid
      { store with file := { store.file with memory := m } } := by
  have held := @puts_hold db' pid m
  rw [first.own] at held
  exact first.trans held

theorem puts_entity (row : EntityRow) :
    db.Puts { db with entity := db.entity ++ [(pid, row)] } pid { db.view pid with
      file := { (db.view pid).file with tables := { (db.view pid).file.tables with
        entity := (db.view pid).file.tables.entity ++ [row] } } } where
  own := by simp [VaultDb.view, owned_concat]
  others other differs := by simp [VaultDb.view, owned_concat, Ne.symm differs]

theorem puts_variant (row : VariantRow) :
    db.Puts { db with variant := db.variant ++ [(pid, row)] } pid { db.view pid with
      file := { (db.view pid).file with tables := { (db.view pid).file.tables with
        variant := (db.view pid).file.tables.variant ++ [row] } } } where
  own := by simp [VaultDb.view, owned_concat]
  others other differs := by simp [VaultDb.view, owned_concat, Ne.symm differs]

/-! ## The calls -/

theorem puts_updateEntity (key : LabelKey) (f : EntityRow → EntityRow) :
    db.Puts (db.updateEntity order pid key f) pid
      { db.view pid with file := (db.view pid).file.updateEntity order key f } := by
  have same : (db.view pid).file.entityOf order key = db.entityOf order pid key := rfl
  cases found : db.entityOf order pid key with
  | none =>
    simp only [VaultDb.updateEntity, VaultFile.updateEntity, same, found]
    exact puts_refl
  | some e =>
    simp only [VaultDb.updateEntity, VaultFile.updateEntity, same, found]
    exact (puts_update key f).hold _

theorem puts_setCanonical (key : LabelKey) (value : Text) (personMeta : Option PersonMeta) :
    db.Puts (db.setCanonical order pid key value personMeta) pid { db.view pid with
      file := (db.view pid).file.setCanonical order key value personMeta } := by
  have same : (db.view pid).file.entityOf order key = db.entityOf order pid key := rfl
  cases found : db.entityOf order pid key with
  | none =>
    simp only [VaultDb.setCanonical, VaultFile.setCanonical, same, found]
    exact puts_refl
  | some e =>
    simp only [VaultDb.setCanonical, VaultFile.setCanonical, same, found]
    exact puts_updateEntity key _

theorem puts_bumpOne (key : LabelKey) (count : Nat) :
    db.Puts (db.bumpOne pid key count) pid
      { db.view pid with file := (db.view pid).file.bumpOne key count } :=
  (puts_update key fun row => { row with occurrences := row.occurrences + count }).hold _

theorem puts_addVariant (key : LabelKey) (fp surface : Text) :
    db.Puts (db.addVariant order pid key fp surface) pid
      { db.view pid with file := (db.view pid).file.addVariant order key fp surface } := by
  have same : (db.view pid).file.entityOf order key = db.entityOf order pid key := rfl
  have taken : (db.view pid).file.tables.variant.any (·.fingerprint = fp) =
      db.variant.any fun r => r.1 = pid && r.2.fingerprint = fp := (any_owned _).symm
  cases found : db.entityOf order pid key with
  | none =>
    simp only [VaultDb.addVariant, VaultFile.addVariant, same, found]
    exact puts_refl
  | some e =>
    simp only [VaultDb.addVariant, VaultFile.addVariant, same, found, taken]
    split
    · exact puts_refl
    · split
      · exact puts_hold _
      · exact (puts_variant _).hold _

/-- A new entity breaks the unique index of the table if and only if it breaks that of its project's
own store; else both get the same row. -/
theorem puts_addEntity (category canonical fp : Text) (personMeta : PersonMeta) (origin : Origin) :
    (db.addEntity order pid category canonical fp personMeta origin = none ∧
      (db.view pid).file.addEntity order category canonical fp personMeta origin = none) ∨
    ∃ key db' file, db.addEntity order pid category canonical fp personMeta origin =
        some (key, db') ∧
      (db.view pid).file.addEntity order category canonical fp personMeta origin =
        some (key, file) ∧
      db.Puts db' pid { db.view pid with file := file } := by
  have taken : (db.view pid).file.tables.entity.any (·.fingerprint = fp) =
      db.entity.any fun r => r.1 = pid && r.2.fingerprint = fp := (any_owned _).symm
  simp only [VaultDb.addEntity, VaultFile.addEntity, taken, maxN_view]
  cases db.entity.any fun r => r.1 = pid && r.2.fingerprint = fp with
  | true => exact .inl ⟨rfl, rfl⟩
  | false => exact .inr ⟨_, _, _, rfl, rfl, (puts_entity _).hold _⟩

theorem puts_deleteEntity (key : LabelKey) : db.Puts (db.deleteEntity pid key) pid
    { db.view pid with file := (db.view pid).file.deleteEntity key } where
  own := by
    have entities := @owned_filter EntityRow pid db.entity pid (·.key = key) _
    have variants := @owned_filter VariantRow pid db.variant pid (·.key = key) _
    rw [if_pos rfl] at entities variants
    rw [VaultDb.view, VaultDb.deleteEntity, entities, variants]
    simp [VaultDb.hold, VaultDb.view, VaultFile.deleteEntity]
  others other differs := by
    have entities := @owned_filter EntityRow other db.entity pid (·.key = key) _
    have variants := @owned_filter VariantRow other db.variant pid (·.key = key) _
    rw [if_neg (Ne.symm differs)] at entities variants
    rw [VaultDb.view, VaultDb.deleteEntity, entities, variants]
    simp [VaultDb.hold, VaultDb.view, Function.update_of_ne differs]

theorem puts_deleteProject : db.Puts (db.deleteProject pid) pid .new where
  own := by
    simp only [VaultDb.view, VaultDb.deleteProject, owned_delete, if_true, VaultDb.hold,
      Function.update_self]
    rfl
  others other differs := by
    simp only [VaultDb.view, VaultDb.deleteProject, owned_delete, if_neg (Ne.symm differs),
      VaultDb.hold, Function.update_of_ne differs]

theorem puts_recordDocument (document : AnonDocument) : db.Puts (db.recordDocument pid document) pid
    { db.view pid with documents := document :: (db.view pid).documents } where
  own := by simp [VaultDb.view, VaultDb.recordDocument, owned_cons]
  others other differs := by
    simp [VaultDb.view, VaultDb.recordDocument, owned_cons, Ne.symm differs]

theorem restoreMap_view (digest : Text) :
    db.restoreMap pid digest = restoreMap (db.view pid).documents digest := by
  have found := @find?_owned _ pid db.document fun document => decide (document.digest = digest)
  simp only [decide_eq_true_eq] at found
  have records := congrArg (Option.map AnonDocument.restore) found
  rwa [Option.map_map] at records

/-- A call for a project is answered as the project's own store answers it, and it leaves the rows
of every other project as they are. -/
theorem puts_serve (call : StoreCall) :
    (db.serve order pid call).1 = ((db.view pid).serve order call).1 ∧
      db.Puts (db.serve order pid call).2 pid ((db.view pid).serve order call).2 := by
  cases call with
  | entities => exact ⟨rfl, puts_load⟩
  | entity key => exact ⟨rfl, puts_load⟩
  | byFingerprint fp => exact ⟨rfl, puts_load⟩
  | addEntity category canonical fp personMeta origin =>
    simp only [VaultDb.serve, ProjectStore.serve]
    rcases @puts_addEntity order db pid category canonical fp personMeta origin with
      ⟨here, there⟩ | ⟨key, db', file, here, there, puts⟩
    · rw [here, there]
      exact ⟨rfl, puts_load⟩
    · rw [here, there]
      exact ⟨rfl, puts⟩
  | addVariant key fp surface => exact ⟨rfl, puts_addVariant key fp surface⟩
  | setCanonical key value personMeta => exact ⟨rfl, puts_setCanonical key value personMeta⟩
  | setExcluded key excluded => exact ⟨rfl, puts_updateEntity key _⟩
  | deleteEntity key => exact ⟨rfl, puts_deleteEntity key⟩
  | deleteProject => exact ⟨rfl, puts_deleteProject⟩
  | recordDocument document => exact ⟨rfl, puts_recordDocument document⟩
  | restoreMap digest => exact ⟨congrArg StoreAnswer.restore (restoreMap_view digest), puts_refl⟩

/-! ## Runs -/

/-- The counts of a project. -/
def countsFor (pid : Text) (counts : List ((Text × LabelKey) × Nat)) : List (LabelKey × Nat) :=
  counts.filterMap fun count => if count.1.1 = pid then some (count.1.2, count.2) else none

/-- What of a call happens to a project: its own calls, its labels among those that are counted, and
every lock. -/
def VaultCall.eventFor (pid : Text) : VaultCall → Option StoreEvent
  | .own pid' call => if pid' = pid then some (.call call) else none
  | .bump counts => some (.bump (countsFor pid counts))
  | .lock => some .lock

/-- What the answers to a project are. -/
def answersFor (pid : Text) (answers : List (Text × StoreAnswer)) : List StoreAnswer :=
  owned pid answers

theorem view_bump (counts : List ((Text × LabelKey) × Nat)) :
    (db.bump counts).view pid =
      { db.view pid with file := (db.view pid).file.bump (countsFor pid counts) } := by
  induction counts generalizing db with
  | nil => rfl
  | cons count counts ih =>
    obtain ⟨⟨pid', key⟩, n⟩ := count
    have one := @puts_bumpOne db pid' key n
    have rest := @ih (db.bumpOne pid' key n)
    refine rest.trans ?_
    by_cases own : pid' = pid
    · subst own
      rw [one.own]
      simp [countsFor, VaultFile.bump]
    · rw [one.others pid (Ne.symm own)]
      simp [countsFor, own]

/-- One step of the database, seen from one project: a call for this project happens to a store of
its own, and any other call does not happen at all. -/
theorem view_step (call : VaultCall) :
    answersFor pid (db.step order call).1.toList =
        ((call.eventFor pid).map fun event => ((db.view pid).step order event).1.toList).getD [] ∧
      (db.step order call).2.view pid =
        ((call.eventFor pid).map fun event => ((db.view pid).step order event).2).getD
          (db.view pid) := by
  cases call with
  | own pid' call =>
    obtain ⟨answer, puts⟩ := @puts_serve order db pid' call
    by_cases own : pid' = pid
    · subst own
      simp only [VaultDb.step, VaultCall.eventFor, if_true, Option.map_some, Option.getD_some,
        ProjectStore.step, puts.own, answer]
      exact ⟨by simp [answersFor, owned], trivial⟩
    · simp only [VaultDb.step, VaultCall.eventFor, if_neg own, Option.map_none, Option.getD_none,
        puts.others pid (Ne.symm own)]
      exact ⟨by simp [answersFor, owned, own], trivial⟩
  | bump counts => exact ⟨rfl, view_bump counts⟩
  | lock => exact ⟨rfl, rfl⟩

/-- Every project of the vault gets the answers, and ends in the state, of a store of its own for
which the calls for other projects are left out. This holds of every sequence of calls and every
order in which queries return rows. -/
theorem vaultDb_run (order : RowOrder) (calls : List VaultCall) (db : VaultDb) (pid : Text) :
    answersFor pid (db.run order calls).1 =
        ((db.view pid).run order (calls.filterMap (VaultCall.eventFor pid))).1 ∧
      (db.run order calls).2.view pid =
        ((db.view pid).run order (calls.filterMap (VaultCall.eventFor pid))).2 := by
  induction calls generalizing db with
  | nil => exact ⟨rfl, rfl⟩
  | cons call calls ih =>
    -- a call on another project answers nobody here and keeps the view
    obtain ⟨answer, state⟩ := @view_step order db pid call
    obtain ⟨answers, after⟩ := ih (db.step order call).2
    have split : answersFor pid (db.run order (call :: calls)).1 =
        answersFor pid (db.step order call).1.toList ++
          answersFor pid ((db.step order call).2.run order calls).1 := by
      rw [answersFor, answersFor, answersFor, owned, owned, owned, VaultDb.run, List.filter_append,
        List.map_append]
    rw [split, answer, answers]
    refine ⟨?_, after.trans ?_⟩
    · rw [state]
      cases event : call.eventFor pid with
      | none => simp [event]
      | some event' => simp [event, ProjectStore.run]
    · rw [state]
      cases event : call.eventFor pid with
      | none => simp [event]
      | some event' => simp [event, ProjectStore.run]

end RedactGate.Desktop
