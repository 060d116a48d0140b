import RedactGate.Desktop.TextFiles
import RedactGate.Properties.DocumentHistory
import RedactGate.Properties.PasswordChange
import RedactGate.Properties.ServerProjects
import RedactGate.Properties.UniqueIndex

/-!
# Texts that come back from the server

A text that a request has anonymized comes back when a later request restores its copy, also
after the vault was locked and opened again and whatever else was asked for, as long as nothing
is deleted in the project and no other document of it is made.
-/
namespace RedactGate.Desktop

open Library

/-! ## The project -/

section

variable {engine : Engine} {p p' : Project}

/-- The action deletes nothing and makes no document, so that the records of documents stay as they
are. -/
def ProjectAction.Harmless : ProjectAction → Prop
  | .detect _ _ _ | .mention _ _ | .prescan _ _ _ | .restore _ | .addManual _ _ _ | .edit _ _ _
  | .lock => True
  | .anonymizeText _ _ _ | .anonymizeFile _ _ _ | .delete _ | .deleteProject => False

theorem Restorable.harmless {documents : List (List UnitCopy)}
    (restorable : Restorable engine ⟨p, documents⟩) {action : ProjectAction}
    (harmless : action.Harmless) (acted : engine.act p action = some p') :
    Restorable engine ⟨p', documents⟩ := by
  have makes : DocumentRun.documentOf engine p action = none := by
    cases action with
    | detect | mention | prescan | restore | addManual | edit | lock => rfl
    | anonymizeText | anonymizeFile | delete | deleteProject => exact harmless.elim
  have spares : DocumentRun.Spares ⟨p, documents⟩ action := by
    cases action with
    | detect | mention | prescan | restore | addManual | edit | lock => trivial
    | anonymizeText | anonymizeFile | delete | deleteProject => exact harmless.elim
  refine restorable.step ⟨spares, fun units made => ?_⟩ ?_
  · cases makes.symm.trans made
  · rw [DocumentRun.step, acted, Option.map_some, makes]
    rfl

/-- A text that is anonymized in a coherent project is a document that can be restored from then on. -/
theorem restorable_of_anonymizeText (good : GoodOn (fun _ => False) p.file) {lang text copy : Text}
    {options : Options} {reps : List Replacement}
    (done : engine.anonymizeText lang options text p = some (copy, reps, p')) :
    Restorable engine ⟨p', [[⟨text, reps⟩]]⟩ ∧ copy = UnitCopy.copy ⟨text, reps⟩ := by
  rw [Engine.anonymizeText_eq] at done
  obtain ⟨⟨reps', run, resolved⟩, unit, same⟩ := Option.map_eq_some_iff.mp done
  simp only [Prod.mk.injEq] at same
  obtain ⟨rfl, rfl, rfl⟩ := same
  obtain ⟨made, occurrences, used⟩ := anonymizeUnit_made good unit
  have grown := (stable_grown engine p).anonymizeUnit (Grown.refl good) unit
  have single : UnitCopy.record [⟨text, reps'⟩] = Engine.recordOf reps' := List.append_nil _
  refine ⟨⟨grown.good.bump _, List.forall_mem_singleton.mpr ?_⟩, rfl⟩
  exact recorded_own (occurrences.trans single.symm) (List.forall_mem_singleton.mpr made)
    (single.symm ▸ used)

theorem Restorable.restoreText_eq {unit : UnitCopy} (restorable : Restorable engine ⟨p, [[unit]]⟩)
    (tables : LabelTables engine.casing) (legible : unit.Legible engine.casing) :
    engine.restoreText p unit.copy = unit.text :=
  List.singleton_inj.mp (restorable.restoredTexts_eq tables (List.mem_singleton_self _)
    (List.forall_mem_singleton.mpr legible))

end

/-! ## The requests -/

namespace Server

variable {server : Server} {s s' : AppState} {req : Request} {pid : Text} {α : Type}

/-- The body of the request is an object that has the text. -/
def Carries (server : Server) (req : Request) (text : Text) : Prop :=
  ∃ raw fields, req.body = some raw ∧ raw.isEmpty = false ∧ server.loads raw = some (.obj fields) ∧
    Fields.get? fields "text".toList = some (.str text)

theorem getProject_returned {proj : ProjectInfo} (returned : getProject pid s = (.ok proj, s')) :
    s' = s := by
  obtain ⟨_, s₁, needed, returned⟩ := Proc.returned_of_bind returned
  obtain rfl : s = s₁ := (Prod.mk.inj needed).2
  obtain ⟨found, s₂, looked, returned⟩ := Proc.returned_of_bind returned
  obtain rfl : s = s₂ := (Prod.mk.inj looked).2
  exact (given_returned returned).2

/-- The statements of a route that take the text out of the body find the text that the request
carries, and leave the state alone. -/
theorem Carries.body {text : Text} (carries : server.Carries req text) {b : Json}
    (returned : server.jbody req s = (.ok b, s')) :
    s' = s ∧ ∀ {text' : Text} {s₁ s₂ : AppState},
      server.text b "text" s₁ = (.ok text', s₂) → s₂ = s₁ ∧ text' = text := by
  obtain ⟨raw, fields, body, filled, loaded, found⟩ := carries
  obtain ⟨value, rfl⟩ := given_returned returned
  rw [body, Option.bind_some, if_neg (by rw [filled]; exact Bool.false_ne_true), loaded] at value
  obtain rfl := Option.some.inj value
  refine ⟨rfl, fun returned' => ?_⟩
  obtain ⟨value', rfl⟩ := given_returned returned'
  obtain rfl := Option.some.inj value'
  exact ⟨rfl, by rw [found, Option.getD_some, server.str_str]⟩

theorem answer_static (server : Server) (path : Text) :
    (server.static path).answer = .page ∨ (server.static path).answer = .failed "error".toList := by
  rw [static]
  split
  · exact .inl rfl
  · exact .inr rfl

/-- An answer that tells of no failure comes from a route: it is neither a page, nor the answer to
an unknown address, nor what an exception is turned into. -/
theorem serveRoute_of_dispatch {response : Response}
    (done : server.dispatch req s = (response, s')) (page : response.answer ≠ .page)
    (some : response.answer ≠ .nothing) (fine : ∀ kind, response.answer ≠ .failed kind) :
    server.serveRoute req s = (.ok response, s') := by
  -- every other branch of dispatch answers a page, nothing or a failure
  rw [dispatch] at done
  split at done
  · obtain ⟨rfl, _⟩ := Prod.mk.inj done
    exact absurd rfl (fine _)
  · split at done
    · split at done
      · obtain ⟨rfl, _⟩ := Prod.mk.inj done
        rcases server.answer_static req.path with shown | missing
        · exact absurd shown page
        · exact absurd missing (fine _)
      · obtain ⟨rfl, _⟩ := Prod.mk.inj done
        exact absurd rfl (fine _)
    · split at done
      · obtain ⟨rfl, _⟩ := Prod.mk.inj done
        exact absurd rfl some
      · split at done
        · obtain ⟨rfl, _⟩ := Prod.mk.inj done
          exact absurd rfl (fine _)
        · split at done
          · next served =>
            obtain ⟨rfl, rfl⟩ := Prod.mk.inj done
            exact served
          · next e s₁ raised =>
            obtain ⟨rfl, _⟩ := Prod.mk.inj done
            have failed : ∃ kind, (server.failure e).answer = .failed kind := by
              cases e with
              | file error => cases error <;> exact ⟨_, rfl⟩
              | locked | badPassword | notFound | badRequest | internal => exact ⟨_, rfl⟩
            obtain ⟨kind, same⟩ := failed
            exact absurd same (fine kind)

theorem project_of_serveRoute {route : ProjectRoute} (names : req.route = .project pid route)
    {response : Response} (served : server.serveRoute req s = (.ok response, s')) :
    server.project req pid route s = (.ok response, s') := by
  rw [← served]
  unfold serveRoute
  rw [names]

/-- A request to anonymize a text that is answered with a copy: the copy is what the engine of this
project makes of the text, and the project is left as it leaves it. -/
theorem anonymizeText_of_dispatch (asks : req.route = .project pid .anonymizeText) {text : Text}
    (carries : server.Carries req text) {copy : Text} {marks : List Replacement}
    {counts : List (Text × Nat)}
    (done : server.dispatch req s = (⟨200, .anonymized copy marks counts⟩, s')) :
    ∃ lang options, (server.engineOf pid).anonymizeText lang options text (s.stores pid) =
      some (copy, marks, s'.stores pid) := by
  have routed := serveRoute_of_dispatch done (fun same => by cases same) (fun same => by cases same)
    fun _ same => by cases same
  obtain ⟨proj, s₁, found, rest₁⟩ := Proc.returned_of_bind (project_of_serveRoute asks routed)
  obtain rfl := getProject_returned found
  have served : server.anonymizeText req pid proj s₁ =
    (.ok ⟨200, .anonymized copy marks counts⟩, s') := rest₁
  -- the handler reads the body, two optional fields and the text, then runs on the store
  obtain ⟨b, s₂, read, rest₂⟩ := Proc.returned_of_bind served
  obtain ⟨rfl, texts⟩ := carries.body read
  obtain ⟨raw, s₃, named, rest₃⟩ := Proc.returned_of_bind rest₂
  obtain ⟨_, rfl⟩ := given_returned named
  obtain ⟨options, s₄, chosen, rest₄⟩ := Proc.returned_of_bind rest₃
  obtain ⟨_, rfl⟩ := given_returned chosen
  obtain ⟨text', s₅, taken, rest₅⟩ := Proc.returned_of_bind rest₄
  obtain ⟨rfl, rfl⟩ := texts taken
  obtain ⟨outcome, after⟩ := onStore_returned rest₅
  refine ⟨proj.labelLang, options, ?_⟩
  split at outcome
  · cases outcome
  · next copy' reps p' made =>
    rw [made] at after
    obtain ⟨rfl, rfl, _⟩ := Answer.anonymized.inj (Response.mk.inj (Except.ok.inj outcome)).2
    rw [made, after]

/-- A request to restore a text that is answered: the answer is what the engine of this project
restores from the text in the project's store. -/
theorem restoreText_of_dispatch (asks : req.route = .project pid .restoreText) {text : Text}
    (carries : server.Carries req text) {out : Text} {marks : List Replacement}
    {unknown : List Text} {count : Nat}
    (done : server.dispatch req s = (⟨200, .restored out marks unknown count⟩, s')) :
    out = (server.engineOf pid).restoreText (s.stores pid) text := by
  have routed := serveRoute_of_dispatch done (fun same => by cases same) (fun same => by cases same)
    fun _ same => by cases same
  obtain ⟨proj, s₁, found, rest₁⟩ := Proc.returned_of_bind (project_of_serveRoute asks routed)
  obtain rfl := getProject_returned found
  have served : server.restoreText req pid s₁ =
    (.ok ⟨200, .restored out marks unknown count⟩, s') := rest₁
  obtain ⟨b, s₂, read, rest₂⟩ := Proc.returned_of_bind served
  obtain ⟨rfl, texts⟩ := carries.body read
  obtain ⟨text', s₃, taken, rest₃⟩ := Proc.returned_of_bind rest₂
  obtain ⟨rfl, rfl⟩ := texts taken
  obtain ⟨outcome, _⟩ := onStore_returned rest₃
  exact (Answer.restored.inj (Response.mk.inj (Except.ok.inj outcome)).2).1.symm

/-- None of the requests deletes in the project or makes a document of it, each in the state in
which it is answered. -/
def Spares (server : Server) (pid : Text) : AppState → List Request → Prop
  | _, [] => True
  | s, req :: reqs => (∀ action, req.May server s pid action → action.Harmless) ∧
      Spares server pid (server.dispatch req s).2 reqs

theorem restorable_run {documents : List (List UnitCopy)} {reqs : List Request}
    (restorable : Restorable (server.engineOf pid) ⟨s.stores pid, documents⟩)
    (spares : server.Spares pid s reqs) :
    Restorable (server.engineOf pid) ⟨(server.run s reqs).2.stores pid, documents⟩ := by
  induction reqs generalizing s with
  | nil => exact restorable
  | cons req reqs ih =>
    refine ih ?_ spares.2
    refine (moved_dispatch req s pid).invariant
      (P := fun p => Restorable (server.engineOf pid) ⟨p, documents⟩) restorable ?_
    intro p action p' restorable fits acted
    refine restorable.harmless ?_ acted
    rcases fits with rfl | may
    · trivial
    · exact spares.1 action may

theorem spares_of_elsewhere {reqs : List Request}
    (elsewhere : ∀ req ∈ reqs, (∀ route, req.route ≠ .project pid route) ∧ req.route ≠ .demo) :
    server.Spares pid s reqs := by
  induction reqs generalizing s with
  | nil => trivial
  | cons req reqs ih =>
    obtain ⟨here, later⟩ := List.forall_mem_cons.mp elsewhere
    refine ⟨fun action may => ?_, ih later⟩
    rcases may with ⟨route, names, _⟩ | ⟨starts, _⟩
    · exact absurd names (here.1 route)
    · exact absurd starts here.2

end Server

/-! ## An instance -/

/-- What the bodies of some requests are parsed to; the parser of the sample server knows no others. -/
def sampleBodies : List (Text × Json) :=
  [("\x7b\"password\": \"first1\"\x7d".toList,
      .obj [("password".toList, .str "first1".toList)]),
    ("\x7b\"text\": \"ТОВ «Ant»\"\x7d".toList, .obj [("text".toList, .str "ТОВ «Ant»".toList)]),
    ("\x7b\"text\": \"ТОВ «Юрособа-1»\"\x7d".toList,
      .obj [("text".toList, .str "ТОВ «Юрособа-1»".toList)])]

def sampleServer : Server where
  engine := sampleEngine
  keyVault := plainVault
  lower := id
  handlers := textHandlers noHandlers
  loads raw := (sampleBodies.find? fun entry => utf8 entry.1 = raw).map Prod.snd
  str
    | .str s => s
    | _ => "None".toList
  str_str _ := rfl
  uuid n := 'p' :: Nat.toDigits 10 n
  demoFiles := []
  statusOf _ := (500, "internal".toList)
  unquote := id
  isPage _ := false
  port := 80
  token := "token".toList

/-- A POST from the pages of the server, with its own host and token and a body in UTF-8. -/
def samplePost (path body : String) : Request where
  method := .post
  host := "127.0.0.1:80".toList
  origin := []
  tokenHeader := "token".toList
  tokenQuery := []
  path := path.toList
  fileName := []
  body := some (utf8 body.toList)

def postInit : Request := samplePost "/api/vault/init" "\x7b\"password\": \"first1\"\x7d"

def postUnlock : Request := samplePost "/api/vault/unlock" "\x7b\"password\": \"first1\"\x7d"

def postLock : Request := samplePost "/api/vault/lock" ""

def postProject : Request := samplePost "/api/projects" ""

def postAnonymize : Request :=
  samplePost "/api/projects/p0/anonymize-text" "\x7b\"text\": \"ТОВ «Ant»\"\x7d"

def postRestore : Request :=
  samplePost "/api/projects/p0/restore-text" "\x7b\"text\": \"ТОВ «Юрособа-1»\"\x7d"

def Answer.anonymized? : Answer → Option (Text × List Replacement × List (Text × Nat))
  | .anonymized text marks counts => some (text, marks, counts)
  | _ => none

def Answer.restored? : Answer → Option (Text × List Replacement × List Text × Nat)
  | .restored text marks unknown count => some (text, marks, unknown, count)
  | _ => none

theorem response_of_anonymized? {response : Response} {copy : Text} {marks : List Replacement}
    {counts : List (Text × Nat)} (status : response.status = 200)
    (shown : response.answer.anonymized? = some (copy, marks, counts)) :
    response = ⟨200, .anonymized copy marks counts⟩ := by
  obtain ⟨code, answer⟩ := response
  cases answer with
  | anonymized text marks' counts' =>
    obtain ⟨rfl, rfl, rfl⟩ := shown
    exact congrArg (Response.mk · _) status
  | _ => cases shown

theorem response_of_restored? {response : Response} {out : Text} {marks : List Replacement}
    {unknown : List Text} {count : Nat} (status : response.status = 200)
    (shown : response.answer.restored? = some (out, marks, unknown, count)) :
    response = ⟨200, .restored out marks unknown count⟩ := by
  obtain ⟨code, answer⟩ := response
  cases answer with
  | restored text marks' unknown' count' =>
    obtain ⟨rfl, rfl, rfl, rfl⟩ := shown
    exact congrArg (Response.mk · _) status
  | _ => cases shown

/-- What the text is anonymized to, and what is kept. -/
def sampleCopied : Response × AppState :=
  sampleServer.dispatch postAnonymize (sampleServer.run .new [postInit, postProject]).2

/-- What its copy is restored to, after the vault was locked and opened again. -/
def sampleRestored : Response × AppState :=
  sampleServer.dispatch postRestore (sampleServer.run sampleCopied.2 [postLock, postUnlock]).2

def sampleLegible (shown : Text × List Replacement × List (Text × Nat)) : Bool :=
  decide (shown.1 = "ТОВ «Юрособа-1»".toList ∧
    UnitCopy.Legible Casing.cyrillic ⟨"ТОВ «Ant»".toList, shown.2.1⟩)

end RedactGate.Desktop
