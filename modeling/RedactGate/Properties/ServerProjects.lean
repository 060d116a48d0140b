import RedactGate.Desktop.BatchRuns
import RedactGate.Desktop.Routes

/-!
# The projects of a server

Whatever requests come, and in whatever order, the store of a project is in a state that the
actions of its engine lead to, and only the requests that name the project act on it.
-/
namespace RedactGate.Desktop

open Library

/-! ## What requests may do -/

namespace ProjectAction

def Adds : ProjectAction → Prop
  | .addManual _ _ _ => True
  | .detect _ _ _ | .mention _ _ | .prescan _ _ _ | .anonymizeText _ _ _ | .anonymizeFile _ _ _
  | .restore _ | .edit _ _ _ | .delete _ | .deleteProject | .lock => False

def Edits (key : LabelKey) : ProjectAction → Prop
  | .edit edited _ _ => edited = key
  | .detect _ _ _ | .mention _ _ | .prescan _ _ _ | .anonymizeText _ _ _ | .anonymizeFile _ _ _
  | .restore _ | .addManual _ _ _ | .delete _ | .deleteProject | .lock => False

def Deletes (key : LabelKey) : ProjectAction → Prop
  | .delete deleted => deleted = key
  | .detect _ _ _ | .mention _ _ | .prescan _ _ _ | .anonymizeText _ _ _ | .anonymizeFile _ _ _
  | .restore _ | .addManual _ _ _ | .edit _ _ _ | .deleteProject | .lock => False

end ProjectAction

/-- The label that a path names. -/
def Server.named (server : Server) (category n : Text) : Option LabelKey :=
  (int? server.unicode n).bind (server.keyOf category)

/-- What a route of a project may do with the project, by the method of the request and by the label
that its path names. -/
def ProjectRoute.May (server : Server) (req : Request) : ProjectRoute → ProjectAction → Prop
  | .whole, action => req.method = .delete ∧ action = .deleteProject
  | .entities, action => req.method = .get ∧ action.Loads ∨ ¬req.method = .get ∧ action.Adds
  | .entity category n, action => action.Loads ∨ ∃ key, server.named category n = some key ∧
    (req.method = .patch ∧ action.Edits key ∨ req.method = .delete ∧ action.Deletes key)
  | .anonymizeText, action => ∃ lang options text, action = .anonymizeText lang options text
  | .restoreText, action => action.Loads
  | .batch direction, action => direction.Does action
  | .documents, _ | .unknown, _ => False

/-- What a request may do with a project: that of its route if it names the project, and a demo
is started in a project that is not there yet. -/
def Request.May (req : Request) (server : Server) (s : AppState) (pid : Text)
    (action : ProjectAction) : Prop :=
  (∃ route, req.route = .project pid route ∧ route.May server req action) ∨
    req.route = .demo ∧ (∀ p ∈ s.projects, p.id ≠ pid) ∧ action.Anonymizes

namespace Server

variable {req : Request} {server : Server} {may : Text → ProjectAction → Prop}
  {s s' s'' : AppState} {α β : Type}

/-! ## What the procedures do to the stores -/

/-- The stores have taken steps: what may be done with them, and locking. -/
def Moved (server : Server) (may : Text → ProjectAction → Prop) (s s' : AppState) : Prop :=
  ∀ pid, (server.engineOf pid).Reached (fun action => action = .lock ∨ may pid action)
    (s.stores pid) (s'.stores pid)

theorem moved_of_eq (same : s'.stores = s.stores) : Moved server may s s' := fun pid => by
  rw [same]
  exact .refl

theorem Moved.trans (first : Moved server may s s') (next : Moved server may s' s'') :
    Moved server may s s'' := fun pid => (first pid).trans (next pid)

theorem moved_lock (s : AppState) : Moved server may s s.lock := fun _ =>
  @reached_act _ _ _ _ .lock (.inl rfl) rfl

theorem moved_put {pid : Text} {kind : ProjectAction → Prop} (permitted : ∀ a, kind a → may pid a)
    {p : Project} (reached : (server.engineOf pid).Reached kind (s.stores pid) p) :
    Moved server may s (s.put pid p) := fun other => by
  by_cases same : other = pid
  · subst same
    simp only [AppState.put, Function.update_self]
    exact reached.imp fun _ a fits => .inr (permitted a fits)
  · simp only [AppState.put, Function.update_of_ne same]
    exact .refl

/-- The procedure leaves the stores alone. -/
abbrev Still (m : Handler α) : Prop := Proc.Moves (fun s s' => s'.stores = s.stores) m

theorem still_bind {m : Handler α} {f : α → Handler β} (first : Still m) (next : ∀ a, Still (f a)) :
    Still (m >>= f) :=
  first.bind (fun same later => later.trans same) next

theorem still_pure (a : α) : Still (pure a : Handler α) := fun _ => rfl

theorem still_read (f : AppState → α) : Still (Proc.read f : Handler α) := fun _ => rfl

theorem still_given (value : Option α) (e : Raised) : Still (given value e) := fun _ => rfl

theorem still_draw (length : Nat) : Still (server.draw length) := fun _ => rfl

theorem still_change {f : AppState → AppState} (same : ∀ s, (f s).stores = s.stores) :
    Still (Proc.change f : Handler Unit) := same

theorem still_trimResults : Still trimResults := still_change fun _ => rfl

theorem still_getProject (pid : Text) : Still (getProject pid) :=
  still_bind (fun _ => rfl) fun _ => still_bind (still_read _) fun _ => still_given _ _

theorem Still.moved {m : Handler α} (still : Still m) : Proc.Moves (Moved server may) m :=
  Proc.Moves.imp still moved_of_eq

theorem moves_bind {m : Handler α} {f : α → Handler β} (first : Proc.Moves (Moved server may) m)
    (next : ∀ a, Proc.Moves (Moved server may) (f a)) : Proc.Moves (Moved server may) (m >>= f) :=
  first.bind Moved.trans next

theorem still_then {m : Handler α} {f : α → Handler β} (first : Still m)
    (next : ∀ a, Proc.Moves (Moved server may) (f a)) : Proc.Moves (Moved server may) (m >>= f) :=
  moves_bind first.moved next

theorem moves_onStore {pid : Text} {kind : ProjectAction → Prop}
    (permitted : ∀ a, kind a → may pid a) {f : Project → Except Raised α × Project}
    (reached : ∀ p, (server.engineOf pid).Reached kind p (f p).2) :
    Proc.Moves (Moved server may) (onStore pid f) :=
  fun s => moved_put permitted (reached (s.stores pid))

/-! ## What statements return -/

theorem given_returned {value : Option α} {e : Raised} {a : α}
    (returned : given value e s = (.ok a, s')) : value = some a ∧ s' = s := by
  obtain ⟨outcome, rfl⟩ := Prod.mk.inj returned
  cases value with
  | none => cases outcome
  | some b =>
    obtain rfl := Except.ok.inj outcome
    exact ⟨rfl, rfl⟩

theorem onStore_returned {f : Project → Except Raised α × Project} {a : α}
    (returned : onStore pid f s = (.ok a, s')) :
    (f (s.stores pid)).1 = .ok a ∧ s'.stores pid = (f (s.stores pid)).2 := by
  obtain ⟨outcome, rfl⟩ := Prod.mk.inj returned
  exact ⟨outcome, Function.update_self _ _ _⟩

/-! ## Routes without a project -/

theorem still_settings (req : Request) : Still (server.settings req) :=
  still_bind (still_given _ _) fun _ => still_bind (still_given _ _) fun _ =>
    still_bind (fun _ => rfl) fun _ => still_bind (still_read _) fun _ => still_pure _

theorem still_initializeVault (password : Text) : Still (server.initializeVault password) := by
  intro s
  unfold initializeVault
  split <;> rfl

theorem still_changePassword (old new : Text) : Still (server.changePassword old new) := by
  intro s
  unfold changePassword
  split <;> rfl

/-- Unlocking the vault moves no store of a project: it installs the key, and a verifier that does
not match locks the vault again. -/
theorem moves_unlock (password : Text) :
    Proc.Moves (Moved server may) (server.unlock password) := by
  intro s
  rw [unlock]
  split
  · split
    · exact moved_of_eq rfl
    · split
      · exact moved_of_eq rfl
      · split
        · exact moved_of_eq rfl
        · exact (moved_of_eq rfl).trans (moved_lock _)
  · exact moved_of_eq rfl

theorem moves_vault (req : Request) (route : VaultRoute) :
    Proc.Moves (Moved server may) (server.vault req route) := by
  have body : Still (server.vaultBody req) := by
    rw [vaultBody]
    split
    · exact still_given _ _
    · exact still_pure _
  refine still_then body fun b => ?_
  cases route with
  | init =>
    exact still_then (still_given _ _) fun _ => still_then (still_initializeVault _) fun _ =>
      (still_read _).moved
  | unlock =>
    exact still_then (still_given _ _) fun _ => moves_bind (moves_unlock _) fun _ =>
      (still_read _).moved
  | lock =>
    exact moves_bind (fun s => moved_lock s) fun _ =>
      still_then (still_change fun _ => rfl) fun _ => (still_read _).moved
  | password =>
    exact still_then (still_given _ _) fun _ => still_then (still_given _ _) fun _ =>
      still_then (still_changePassword _ _) fun _ => (still_read _).moved
  | download => exact Still.moved (still_bind (fun _ => rfl) fun _ => still_pure _)
  | unknown => exact fun _ => moved_of_eq rfl

theorem still_insert (info : ProjectInfo) : Still (insert info) := by
  intro s
  unfold insert
  split <;> rfl

theorem still_createProject (name lang : Text) (options : Json) :
    Still (server.createProject name lang options) :=
  still_bind (fun _ => rfl) fun _ => still_bind (still_draw _) fun _ =>
    still_bind (still_insert _) fun _ => still_pure _

theorem still_projects (req : Request) : Still (server.projects req) := by
  rw [projects]
  split
  · exact still_bind (fun _ => rfl) fun _ => still_bind (still_read _) fun _ => still_pure _
  · exact still_bind (still_given _ _) fun _ => still_bind (still_given _ _) fun _ =>
      still_bind (still_given _ _) fun _ => still_bind (still_read _) fun _ =>
      still_bind (still_given _ _) fun _ => still_bind (still_createProject _ _ _) fun pid =>
      still_bind (still_getProject pid) fun _ => still_bind (still_read _) fun _ => still_pure _
  · exact still_pure _
  · exact still_pure _
  · exact still_pure _

theorem still_newBatch : Still server.newBatch :=
  still_bind (still_draw _) fun _ => still_bind (fun _ => rfl) fun _ => still_pure _

theorem still_upload (req : Request) (bid : Text) : Still (server.upload req bid) :=
  still_bind (still_read _) fun _ => still_bind (still_given _ _) fun _ =>
    still_bind (fun _ => rfl) fun _ => still_bind (still_given _ _) fun _ =>
    still_bind (fun _ => rfl) fun _ => still_pure _

theorem still_keepResults (entries : List Entry) : Still (server.keepResults entries) := by
  induction entries with
  | nil => exact still_pure _
  | cons entry entries ih =>
    cases entry with
    | failed name error => exact still_bind ih fun _ => still_pure _
    | done result =>
      exact still_bind (still_draw _) fun _ => still_bind (fun _ => rfl) fun _ =>
        still_bind ih fun _ => still_pure _

/-! ## Routes of a project -/

section Project

variable {pid : Text}

theorem moves_wholeProject (permitted : ∀ a, ProjectRoute.May server req .whole a → may pid a)
    (proj : ProjectInfo) : Proc.Moves (Moved server may) (server.wholeProject req pid proj) := by
  rw [wholeProject]
  split
  · exact Still.moved (still_bind (still_read _) fun _ => still_pure _)
  · exact Still.moved (still_bind (still_given _ _) fun _ => still_bind (still_given _ _) fun _ =>
      still_bind (still_given _ _) fun _ => still_bind (still_given _ _) fun _ =>
      still_bind (still_given _ _) fun _ => still_bind (fun _ => rfl) fun _ =>
      still_bind (still_getProject pid) fun _ => still_bind (still_read _) fun _ => still_pure _)
  · next deletes =>
    refine moves_bind (fun s => ?_) fun _ => (still_pure _).moved
    have emptied : Moved server may s (s.put pid .new) := moved_put permitted
      (@reached_act _ _ _ _ .deleteProject ⟨deletes, rfl⟩ rfl)
    exact fun other => emptied other
  · exact (still_pure _).moved
  · exact (still_pure _).moved

theorem moves_listEntities (permitted : ∀ a, a.Loads → may pid a) :
    Proc.Moves (Moved server may) (server.listEntities pid) :=
  moves_onStore permitted fun _ => @reached_act _ _ _ _ (.restore []) trivial rfl

theorem moves_addEntity (permitted : ∀ a, a.Adds → may pid a) :
    Proc.Moves (Moved server may) (server.addEntity req pid) := by
  refine still_then (still_given _ _) fun b => still_then (still_given _ _) fun category =>
    still_then (still_given _ _) fun value => still_then (fun _ => rfl) fun _ =>
    still_then (still_given _ _) fun excluded => moves_onStore permitted fun p => ?_
  split
  · exact .refl
  · next key file added =>
    have acted : (server.engineOf pid).act p
        (.addManual (Text.upper server.unicode category) value excluded.truthy) =
          some { p with file := file, dictionary := none } := by
      rw [Engine.act, added, Option.map_some]
    split
    · exact @reached_act _ _ _ _ (.addManual _ _ _) trivial acted
    · exact @reached_act _ _ _ _ (.addManual _ _ _) trivial acted

theorem moves_changeEntity {key : LabelKey} (permitted : ∀ a, a.Edits key → may pid a) :
    Proc.Moves (Moved server may) (server.changeEntity req pid key) := by
  refine still_then (still_given _ _) fun b => still_then (still_given _ _) fun value =>
    still_then (still_given _ _) fun excluded => moves_onStore permitted fun p => ?_
  split
  · exact .refl
  · next file edited =>
    have acted : (server.engineOf pid).act p
        (.edit key (value.map server.str) (excluded.map Json.truthy)) =
          some { p with file := file, dictionary := none } := by
      rw [Engine.act, edited, Option.map_some]
    split
    · exact @reached_act _ _ _ _ (.edit _ _ _) rfl acted
    · exact @reached_act _ _ _ _ (.edit _ _ _) rfl acted

theorem moves_deleteEntity {key : LabelKey} (permitted : ∀ a, a.Deletes key → may pid a) :
    Proc.Moves (Moved server may) (server.deleteEntity pid key) := by
  refine moves_onStore permitted fun p => ?_
  split
  · exact .refl
  · next p' deleted => exact @reached_act _ _ _ _ (.delete key) rfl deleted

theorem moves_oneEntity {category n : Text}
    (permitted : ∀ a, ProjectRoute.May server req (.entity category n) a → may pid a) :
    Proc.Moves (Moved server may) (server.oneEntity req pid category n) := by
  have loads : ∀ a : ProjectAction, a.Loads → may pid a := fun a fits => permitted a (.inl fits)
  refine Proc.Moves.bind_returned (still_given _ _).moved Moved.trans fun {_ _ _} read => ?_
  refine Proc.Moves.bind_returned (moves_onStore loads fun _ =>
    @reached_act _ _ _ _ (.restore []) trivial rfl) Moved.trans (fun {_ _ _} looked => ?_) _
  refine Proc.Moves.bind_returned (still_given _ _).moved Moved.trans (fun {key _ _} taken => ?_) _
  -- the entity that is changed is that of the path
  have named : server.named category n = some key := by
    obtain ⟨number, _⟩ := given_returned read
    obtain ⟨found, _⟩ := onStore_returned looked
    obtain ⟨known, _⟩ := given_returned taken
    obtain rfl := Except.ok.inj found
    rw [Server.named, number, Option.bind_some]
    exact (Option.filter_eq_some_iff.mp known).1
  cases method : req.method with
  | patch =>
    exact moves_changeEntity (fun a fits => permitted a (.inr ⟨_, named, .inl ⟨method, fits⟩⟩)) _
  | delete =>
    exact moves_deleteEntity (fun a fits => permitted a (.inr ⟨_, named, .inr ⟨method, fits⟩⟩)) _
  | get | post | put => exact (still_pure _).moved _

theorem moves_anonymizeText
    (permitted : ∀ a, ProjectRoute.May server req .anonymizeText a → may pid a)
    (proj : ProjectInfo) : Proc.Moves (Moved server may) (server.anonymizeText req pid proj) := by
  refine still_then (still_given _ _) fun b => still_then (still_given _ _) fun raw =>
    still_then (still_given _ _) fun options => still_then (still_given _ _) fun text =>
    moves_onStore permitted fun p => ?_
  split
  · exact .refl
  · next copy reps p' done =>
    have acted : (server.engineOf pid).act p (.anonymizeText proj.labelLang options text) =
        some p' := by
      rw [Engine.act, done, Option.map_some]
    exact @reached_act _ _ _ _ (.anonymizeText _ _ _) ⟨_, _, _, rfl⟩ acted

theorem moves_restoreText (permitted : ∀ a, a.Loads → may pid a) :
    Proc.Moves (Moved server may) (server.restoreText req pid) :=
  still_then (still_given _ _) fun _ => still_then (still_given _ _) fun text =>
    moves_onStore permitted fun _ => @reached_act _ _ _ _ (.restore [text]) trivial rfl

theorem moves_serveBatch {direction : Direction} (permitted : ∀ a, direction.Does a → may pid a)
    (proj : ProjectInfo) (files : List BatchFile) (options : Json) :
    Proc.Moves (Moved server may) (server.serveBatch pid proj files direction options) := by
  refine still_then (still_given _ _) fun options =>
    moves_bind (moves_onStore permitted fun p => ?_) fun entries =>
     still_then (still_keepResults _) fun _ => still_then still_trimResults fun _ =>
    still_then (still_getProject pid) fun _ => (still_pure _).moved
  have reached := @reached_runBatch (server.engineOf pid) server.lower server.handlers direction
    proj.labelLang options files p
  split
  · next entries p' ran => rwa [ran] at reached
  · next e p' ran => rwa [ran] at reached

theorem moves_batch {direction : Direction} (permitted : ∀ a, direction.Does a → may pid a)
    (proj : ProjectInfo) :
    Proc.Moves (Moved server may) (server.batch req pid proj direction) :=
  still_then (still_given _ _) fun _ => still_then (still_given _ _) fun _ =>
    still_then (still_read _) fun _ => still_then (fun _ => rfl) fun _ =>
    still_then (still_given _ _) fun files => still_then (still_given _ _) fun options =>
    moves_serveBatch permitted proj files options

theorem moves_project {route : ProjectRoute}
    (permitted : ∀ a, ProjectRoute.May server req route a → may pid a) :
    Proc.Moves (Moved server may) (server.project req pid route) := by
  refine still_then (still_getProject pid) fun proj => ?_
  cases route with
  | whole => exact moves_wholeProject permitted proj
  | entities =>
    dsimp only
    split
    · next gets => exact moves_listEntities fun a fits => permitted a (.inl ⟨gets, fits⟩)
    · next other => exact moves_addEntity fun a fits => permitted a (.inr ⟨other, fits⟩)
  | entity category n => exact moves_oneEntity permitted
  | documents => exact (still_pure _).moved
  | anonymizeText => exact moves_anonymizeText permitted proj
  | restoreText => exact moves_restoreText permitted
  | batch direction => exact moves_batch permitted proj
  | unknown => exact fun _ => moved_of_eq rfl

end Project

/-! ## Requests -/

/-- A new project that is created has an identifier that no other project has, and no store is
touched by creating it. -/
theorem createProject_fresh {name lang pid : Text} {options : Json}
    (created : server.createProject name lang options s = (.ok pid, s')) :
    s'.stores = s.stores ∧ ∀ p ∈ s.projects, p.id ≠ pid := by
  obtain ⟨_, s₁, needed, created⟩ := Proc.returned_of_bind created
  obtain rfl : s = s₁ := (Prod.mk.inj needed).2
  obtain ⟨pid', s₂, drawn, created⟩ := Proc.returned_of_bind created
  obtain ⟨_, s₃, inserted, created⟩ := Proc.returned_of_bind created
  obtain ⟨same, rfl⟩ := Prod.mk.inj created
  obtain rfl : pid' = pid := Except.ok.inj same
  have projects : s₂.projects = s.projects ∧ s₂.stores = s.stores := by
    obtain ⟨_, rfl⟩ := Prod.mk.inj drawn
    exact ⟨rfl, rfl⟩
  unfold insert at inserted
  split at inserted
  · cases (Prod.mk.inj inserted).1
  · next fresh =>
    obtain ⟨_, rfl⟩ := Prod.mk.inj inserted
    refine ⟨projects.2, fun p member taken => fresh ?_⟩
    rw [projects.1]
    exact List.any_eq_true.mpr ⟨p, member, decide_eq_true taken⟩

/-- The demo creates a project and anonymizes in it, and so it moves the store of a project that was
not there before and no other store. -/
theorem moved_demo (s : AppState) :
    Moved server (fun pid action => (∀ p ∈ s.projects, p.id ≠ pid) ∧ action.Anonymizes) s
      (server.demo s).2 := by
  have read : server.demo s =
      (server.createProject (demoName s.lang) s.lang (.obj []) >>= fun pid =>
      getProject pid >>= fun proj =>
        server.serveBatch pid proj server.demoFiles .anonymize .null) s := rfl
  rw [read]
  -- a failed creation changes nothing, and a new id is nobody's yet
  cases created : server.createProject (demoName s.lang) s.lang (.obj []) s with
  | mk outcome s₁ =>
    cases outcome with
    | error e =>
      rw [Proc.bind_of_raised created]
      have still := @still_createProject server (demoName s.lang) s.lang (.obj []) s
      rw [created] at still
      exact moved_of_eq still
    | ok pid =>
      obtain ⟨same, fresh⟩ := createProject_fresh created
      rw [Proc.bind_of_returned created]
      have moves : Proc.Moves
          (Moved server fun pid action => (∀ p ∈ s.projects, p.id ≠ pid) ∧ action.Anonymizes)
          (getProject pid >>= fun proj =>
            server.serveBatch pid proj server.demoFiles .anonymize .null) :=
        still_then (still_getProject pid) fun proj =>
          moves_serveBatch (fun a fits => ⟨fresh, fits⟩) _ _ _
      exact (moved_of_eq same).trans (moves s₁)

theorem moved_serveRoute (req : Request) (s : AppState) :
    Moved server (req.May server s) s (server.serveRoute req s).2 := by
  unfold serveRoute
  cases kind : req.route with
  | state => exact moved_of_eq rfl
  | heartbeat => exact moved_of_eq rfl
  | quit => exact moved_of_eq rfl
  | settings => exact moved_of_eq (still_settings req s)
  | selfcheck => exact moved_of_eq rfl
  | vault route => exact moves_vault req route s
  | projects => exact moved_of_eq (still_projects req s)
  | project pid route => exact moves_project (fun a fits => .inl ⟨route, kind, fits⟩) s
  | newBatch => exact moved_of_eq (still_newBatch s)
  | upload bid => exact moved_of_eq (still_upload req bid s)
  | result rid =>
    exact moved_of_eq (still_bind (still_read _) (fun _ => still_bind (still_given _ _) fun _ =>
      still_pure _) s)
  | zip ids => exact moved_of_eq rfl
  | demo =>
    have moved := @moved_demo server s
    exact fun pid => (moved pid).imp fun _ a fits => fits.imp_right fun fits => .inr ⟨kind, fits⟩
  | unknown => exact moved_of_eq rfl

theorem moved_dispatch (req : Request) (s : AppState) :
    Moved server (req.May server s) s (server.dispatch req s).2 := by
  rw [dispatch]
  split
  · exact moved_of_eq rfl
  · split
    · exact moved_of_eq rfl
    · split
      · exact moved_of_eq rfl
      · split
        · exact moved_of_eq rfl
        · have moved := @moved_serveRoute server req s
          split
          · next response s' done => rwa [done] at moved
          · next e s' done => rwa [done] at moved

theorem reaches_run (reqs : List Request) (s : AppState) (pid : Text) :
    Reaches (server.engineOf pid).act (s.stores pid) ((server.run s reqs).2.stores pid) := by
  induction reqs generalizing s with
  | nil => exact .refl
  | cons req reqs ih => exact (moved_dispatch req s pid).reaches.trans (ih _)

/-- In every run the store of a project is in a state that its engine leads to, and the next request
takes it on by what the request may do with the project, and by locking. For a request that names
another project, that is by locking alone. -/
theorem stores_of_run (server : Server) (reqs : List Request) (pid : Text) :
    Reaches (server.engineOf pid).act .new ((server.run .new reqs).2.stores pid) ∧
      ∀ req, ReachesBy
        (fun _ action => action = .lock ∨ req.May server (server.run .new reqs).2 pid action)
        (server.engineOf pid).act ((server.run .new reqs).2.stores pid)
        ((server.dispatch req (server.run .new reqs).2).2.stores pid) :=
  ⟨reaches_run reqs .new pid, fun req => moved_dispatch req _ pid⟩

end Server

end RedactGate.Desktop
