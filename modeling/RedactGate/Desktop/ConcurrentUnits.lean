import RedactGate.Desktop.Labels
import RedactGate.Desktop.Replacements
import RedactGate.Desktop.Spellings
import RedactGate.Schemas.Entities

/-!
# Concurrent calls of `anonymize_unit`

Calls of `anonymize_unit` on one project. The label vault locks each of its operations, but
nothing between two of them, so another call may run its own operations there. What a call
computes between two operations touches nobody else.
-/
namespace RedactGate.Desktop

open Library

/-- The next operation of a call on the vault, for the span at the head of those to come; between
two operations another call may run. -/
inductive UnitStage where
  /-- `entities`, for the dictionary of the detector. -/
  | detect
  | byFingerprint
  /-- `add_variant`, of a known value. -/
  | spell (key : LabelKey)
  /-- `entities`, for the candidates of a person. -/
  | entities
  | addEntity
  /-- `add_variant`, of a person who is found among the entities. -/
  | link (key : LabelKey)
  | setCanonical (key : LabelKey) (old : Text) (merged : PersonMeta)
  /-- `add_variant`, of the old canonical value. -/
  | keepOld (key : LabelKey) (old : Text)
  | raised
  deriving DecidableEq

/-- A span with the label of the entity that it was resolved to. -/
structure ResolvedMention (Score : Type) where
  span : EntitySpan Score
  key : LabelKey

/-- A call of `anonymize_unit` between two of its operations. What the detector found and the
mentions so far are ghosts, which no operation reads. -/
structure UnitCall (Score : Type) where
  text : Text
  lang : Text
  todo : List (EntitySpan Score)
  stage : UnitStage
  reps : List Replacement
  spans : List (EntitySpan Score)
  mentions : List (ResolvedMention Score)

/-- The project and the calls on it. -/
structure UnitSystem (ι Score : Type) where
  file : VaultFile
  calls : ι → UnitCall Score

/-- Whose operation is next, and what the detector finds if it is that of the detector. The
spans are any: they depend on the rules, and on a dictionary that may be of an earlier call. -/
structure Turn (ι Score : Type) where
  call : ι
  spans : List (EntitySpan Score)

namespace UnitCall

variable {Score : Type}

def start (text lang : Text) : UnitCall Score := ⟨text, lang, [], .detect, [], [], []⟩

def surface (call : UnitCall Score) (span : EntitySpan Score) : Text :=
  call.text.slice span.start span.stop

/-- The label of a mention, rendered in the language of the call and put in the place of its span. -/
def replacement (casing : Casing) (call : UnitCall Score) (m : ResolvedMention Score) :
    Replacement :=
  ⟨⟨m.span.start, m.span.stop, render casing m.key.1 m.key.2 call.lang⟩, m.key.1, m.key.2,
    call.surface m.span⟩

/-- The unit with its replacements, from left to right. -/
def output (call : UnitCall Score) : Text :=
  applyReplacements call.text
    ((call.reps.insertionSort fun a b => a.start ≤ b.start).map Replacement.toEdit)

end UnitCall

namespace Anonymizer

variable {ι Score : Type} (anon : Anonymizer)

/-- The end of the loop body: the label of the entity replaces the mention, unless the entity
is excluded. -/
def finish (st : VaultFile) (call : UnitCall Score) (span : EntitySpan Score) (key : LabelKey) :
    UnitCall Score :=
  { call with
    todo := call.todo.tail
    stage := .byFingerprint
    reps := if (st.entityOf anon.order key).any (·.excluded) then call.reps
      else call.reps ++ [call.replacement anon.casing ⟨span, key⟩]
    mentions := call.mentions ++ [⟨span, key⟩] }

/-- One operation in `_resolve`, with all that is computed before the next one: it looks up the
value, adds a spelling or an entity, or links a person. -/
def resolveStep (st : VaultFile) (call : UnitCall Score) (span : EntitySpan Score) :
    Option (VaultFile × UnitCall Score) :=
  let category := span.entityType
  let surface := call.surface span
  let fp := anon.valueFp category surface
  let st := st.load anon.order
  match call.stage with
  | .detect | .raised => none
  | .byFingerprint =>
    match st.byFingerprint anon.order fp with
    | some e =>
      if surface ∈ e.surfaces then some (st, anon.finish st call span e.key)
      else some (st, { call with stage := .spell e.key })
    | none =>
      -- only a person with a surname is compared with the others
      if category = person ∧ (given? (parsePerson anon.casing surface).s).isSome then
        some (st, { call with stage := .entities })
      else some (st, { call with stage := .addEntity })
  -- the fingerprint is known, the spelling is new
  | .spell key =>
    let st := st.addVariant anon.order key (anon.surfaceFp category surface) surface
    some (st, anon.finish st call span key)
  | .entities =>
    match anon.aliasOf st category surface with
    | some e => some (st, { call with stage := .link e.key })
    | none => some (st, { call with stage := .addEntity })
  | .addEntity =>
    match st.addEntity anon.order category surface fp
        (if category = person then parsePerson anon.casing surface else .empty) .auto with
    | some (key, st) => some (st, anon.finish st call span key)
    | none => some (st, { call with stage := .raised })
  -- the alias is registered before its name is compared
  | .link key =>
    let st := st.addVariant anon.order key fp surface
    match (st.entityOf anon.order key).filter (anon.prefers · surface) with
    | some e => some (st, { call with
        stage := .setCanonical key e.value
          (mergeMeta (parsePerson anon.casing surface) e.personMeta) })
    | none => some (st, anon.finish st call span key)
  | .setCanonical key old merged =>
    some (st.setCanonical anon.order key surface (some merged),
      { call with stage := .keepOld key old })
  -- the old name stays as a variant
  | .keepOld key old =>
    let st := st.addVariant anon.order key (anon.surfaceFp category old) old
    some (st, anon.finish st call span key)

/-- The next operation of a call: the detector reports the spans, or the span at the head of those
to come is resolved one operation further. -/
def operate (st : VaultFile) (call : UnitCall Score) (spans : List (EntitySpan Score)) :
    Option (VaultFile × UnitCall Score) :=
  if call.stage = .detect then
    some (st.load anon.order, { call with todo := spans, stage := .byFingerprint, spans := spans })
  else
    match call.todo with
    | [] => none
    | span :: _ => anon.resolveStep st call span

/-- One operation of one call, whichever's turn it is; all calls share the vault of the project. -/
def unitStep [DecidableEq ι] (s : UnitSystem ι Score) (turn : Turn ι Score) :
    Option (UnitSystem ι Score) :=
  (anon.operate s.file (s.calls turn.call) turn.spans).map fun (file, call) =>
    ⟨file, Function.update s.calls turn.call call⟩

/-- The fingerprint that a call is about to register, and the entity it registers it for: a
new one has no label yet. -/
def registers (call : UnitCall Score) : Option (Text × Option LabelKey) :=
  call.todo.head?.bind fun span =>
    let category := span.entityType
    let surface := call.surface span
    match call.stage with
    | .addEntity => some (anon.valueFp category surface, none)
    | .link key => some (anon.valueFp category surface, some key)
    | .spell key => some (anon.surfaceFp category surface, some key)
    | .keepOld key old => some (anon.surfaceFp category old, some key)
    | _ => none

end Anonymizer

end RedactGate.Desktop
