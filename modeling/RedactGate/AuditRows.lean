import RedactGate.Audit
import RedactGate.Library.Json
import RedactGate.Library.Unicode

/-!
# Audit rows as stored

A row of `audit_event` with all its columns, and what `verify_chain` makes of it: the counts
are a JSON column, read back as a dictionary of integers.
-/
namespace RedactGate

open Library

/-- The objects of a `JSONB` value hold each key once, here in the order of the keys; what was
written twice or in another order is not kept. -/
inductive Canonical : Json → Prop
  | null : Canonical .null
  | bool (b : Bool) : Canonical (.bool b)
  | number (n : ℚ) : Canonical (.number n)
  | str (s : Text) : Canonical (.str s)
  | arr {items : List Json} (inside : ∀ item ∈ items, Canonical item) : Canonical (.arr items)
  | obj {fields : Fields} (sorted : fields.Pairwise fun a b => a.1 < b.1)
      (inside : ∀ field ∈ fields, Canonical field.2) : Canonical (.obj fields)

structure Jsonb where
  value : Json
  canonical : Canonical value

/-- What `_event_payload` raises on counts that are no dictionary of numbers, by the class of the
exception. -/
inductive CountsError where
  | attributeError
  | typeError
  | valueError (text : Text)
  deriving DecidableEq

/-- A row of the table `audit_event` with all its columns but the id, which is its place in the
table. -/
structure AuditRow (Time : Type) where
  teamId : Text
  apiKeyId : Option Text
  sessionId : Option Text
  route : Text
  provider : Text
  entityCounts : Jsonb
  blocked : Bool
  promptTokens : Option Int
  completionTokens : Option Int
  latencyMs : Option Int
  prevHash : Text
  eventHash : Text
  createdAt : Time

section

/- `read` is the number that the JSON parser makes of a number: itself for an integer, the
nearest float for any other. -/
variable (unicode : Unicode) (read : ℚ → ℚ)

/-- The digits of an integer literal, which single underscores may separate; `int()` raises on more
than 4300 of them. -/
def natOfText (s : Text) : Option Nat :=
  let groups := s.splitOn '_'
  if groups.any List.isEmpty then none
  -- more digits than this raise, too
  else if 4300 < groups.flatten.length then none
  else (groups.flatten.mapM unicode.decimal).map fun ds => ds.foldl (fun n d => 10 * n + d) 0

/-- `int()` of a string: digits behind a sign or none, with white space around them; nothing where
it raises. -/
def intOfText (s : Text) : Option Int :=
  match Text.strip unicode s with
  | '-' :: ds => (natOfText unicode ds).map fun n => -(n : Int)
  | '+' :: ds => (natOfText unicode ds).map Int.ofNat
  | ds => (natOfText unicode ds).map Int.ofNat

/-- `int()` of a value that was read from JSON: a float loses what stands after the point, a text
has to be a literal, and anything else raises. -/
def intOfJson : Json → Except CountsError Int
  | .bool b => .ok (if b then 1 else 0)
  | .number n => .ok ((read n).num.tdiv (read n).den)
  | .str s =>
    match intOfText unicode s with
    | some n => .ok n
    | none => .error (.valueError s)
  | .null | .arr _ | .obj _ => .error .typeError

/-- The items of `entity_counts or {}`: a value that counts as false has none of them, and another
one that is no object has no `items` and raises. -/
def countItems : Json → Option Fields
  | .obj fields => some fields
  | .null => some []
  | .bool b => if b then none else some []
  | .number n => if read n = 0 then some [] else none
  | .str s => if s.isEmpty then some [] else none
  | .arr items => if items.isEmpty then some [] else none

/-- The values of the items through `int()`, under their keys; the first value that it refuses ends
the loop. -/
def readCounts : Fields → Except CountsError (List (Text × Int))
  | [] => .ok []
  | (type, value) :: rest => do
    let n ← intOfJson unicode read value
    let more ← readCounts rest
    return (type, n) :: more

theorem readCounts_cons {type : Text} {value : Json} {rest : Fields} {entries : List (Text × Int)}
    (ok : readCounts unicode read ((type, value) :: rest) = .ok entries) :
    ∃ n more, intOfJson unicode read value = .ok n ∧ readCounts unicode read rest = .ok more ∧
      entries = (type, n) :: more := by
  rw [readCounts] at ok
  cases head : intOfJson unicode read value with
  | error e =>
    rw [head] at ok
    cases ok
  | ok n =>
    cases tail : readCounts unicode read rest with
    | error e =>
      rw [head, tail] at ok
      cases ok
    | ok more =>
      rw [head, tail] at ok
      exact ⟨n, more, rfl, rfl, (Except.ok.inj ok).symm⟩

/-- Reading the counts keeps their keys, in the same order, since only the values go through
`int()`. -/
theorem keys_readCounts {fields : Fields} : ∀ {entries : List (Text × Int)},
    readCounts unicode read fields = .ok entries →
      entries.map Prod.fst = fields.map Prod.fst := by
  induction fields with
  | nil =>
    intro entries ok
    obtain rfl := Except.ok.inj ok
    rfl
  | cons field rest ih =>
    intro entries ok
    obtain ⟨n, more, _, tail, rfl⟩ := readCounts_cons unicode read ok
    rw [List.map_cons, List.map_cons, ih tail]

theorem sorted_countItems {counts : Json} (canonical : Canonical counts) {fields : Fields}
    (items : countItems read counts = some fields) :
    fields.Pairwise fun a b => a.1 < b.1 := by
  cases canonical with
  | obj sorted _ =>
    obtain rfl := Option.some.inj items
    exact sorted
  | null =>
    obtain rfl := Option.some.inj items
    exact .nil
  | bool | number | str | arr =>
    rw [countItems] at items
    split at items
    all_goals cases items
    try exact .nil

theorem sorted_readCounts {counts : Json} (canonical : Canonical counts) {fields : Fields}
    (items : countItems read counts = some fields) {entries : List (Text × Int)}
    (ok : readCounts unicode read fields = .ok entries) :
    entries.Pairwise fun a b => a.1 < b.1 := by
  have sorted := sorted_countItems read canonical items
  have keys : (entries.map Prod.fst).Pairwise (· < ·) := by
    rw [keys_readCounts unicode read ok]
    exact List.pairwise_map.mpr sorted
  exact List.pairwise_map.mp keys

/-- `{str(k): int(v) for k, v in (entity_counts or {}).items()}` on the column, with the errors that
it can raise; the keys come in order. -/
def entityCountsOf (counts : Jsonb) : Except CountsError EntityCounts :=
  match items : countItems read counts.value with
  | none => .error .attributeError
  | some fields =>
    match ok : readCounts unicode read fields with
    | .error e => .error e
    | .ok entries => .ok ⟨entries, sorted_readCounts unicode read counts.canonical items ok⟩

/-- `_event_payload` on the columns of a row: what the hash commits to. The time of creation is not
read. -/
def AuditRow.payload {Time : Type} (row : AuditRow Time) : Except CountsError EventPayload :=
  match entityCountsOf unicode read row.entityCounts with
  | .error e => .error e
  | .ok counts => .ok {
      teamId := row.teamId
      apiKeyId := row.apiKeyId
      sessionId := row.sessionId
      route := row.route
      provider := row.provider
      entityCounts := counts
      blocked := row.blocked
      promptTokens := row.promptTokens
      completionTokens := row.completionTokens
      latencyMs := row.latencyMs }

/-- The loop of `verify_chain` over the rows of a team, from the hash before them on; what reading a
payload raises ends it with the error. -/
def verifyRows {Time : Type} (crypto : Crypto) (key : Bytes) :
    Text → List (AuditRow Time) → Except CountsError Bool
  | _, [] => .ok true
  | prev, row :: rest =>
    match row.payload unicode read with
    | .error e => .error e
    | .ok payload =>
      -- the first row that does not fit ends the loop with False
      if row.prevHash ≠ prev then .ok false
      else if row.eventHash ≠ computeEventHash crypto key prev payload then .ok false
      else verifyRows crypto key row.eventHash rest

end

/-! ## What is read of the counts -/

section

variable {unicode : Unicode} {read : ℚ → ℚ}

theorem entityCountsOf_ok {counts : Jsonb} {c : EntityCounts}
    (ok : entityCountsOf unicode read counts = .ok c) :
    ∃ fields, countItems read counts.value = some fields ∧
      readCounts unicode read fields = .ok c.entries := by
  unfold entityCountsOf at ok
  split at ok
  · cases ok
  next fields items =>
    split at ok
    · cases ok
    next entries read_eq =>
      obtain rfl := Except.ok.inj ok
      exact ⟨fields, items, read_eq⟩

theorem payload_ok {Time : Type} {row : AuditRow Time} {payload : EventPayload}
    (ok : row.payload unicode read = .ok payload) :
    entityCountsOf unicode read row.entityCounts = .ok payload.entityCounts ∧
      payload.teamId = row.teamId ∧ payload.apiKeyId = row.apiKeyId ∧
      payload.sessionId = row.sessionId ∧ payload.route = row.route ∧
      payload.provider = row.provider ∧ payload.blocked = row.blocked ∧
      payload.promptTokens = row.promptTokens ∧
      payload.completionTokens = row.completionTokens ∧ payload.latencyMs = row.latencyMs := by
  rw [AuditRow.payload] at ok
  cases counts : entityCountsOf unicode read row.entityCounts with
  | error e =>
    rw [counts] at ok
    cases ok
  | ok c =>
    rw [counts] at ok
    obtain rfl := Except.ok.inj ok
    exact ⟨rfl, rfl, rfl, rfl, rfl, rfl, rfl, rfl, rfl, rfl⟩

/-- One row of a verified chain is replaced by another one that carries the same two hashes. The
chain verifies again if and only if both rows have the same event hash over what `_event_payload`
reads of them. -/
theorem verifyRows_edit {Time : Type} {crypto : Crypto} {key : Bytes} {a b : AuditRow Time}
    (prevs : b.prevHash = a.prevHash) (hashes : b.eventHash = a.eventHash)
    {back : List (AuditRow Time)} {q : EventPayload} (read_b : b.payload unicode read = .ok q)
    (front : List (AuditRow Time)) : ∀ prev,
      verifyRows unicode read crypto key prev (front ++ a :: back) = .ok true →
      (verifyRows unicode read crypto key prev (front ++ b :: back) = .ok true ↔
        ∃ p, a.payload unicode read = .ok p ∧
          computeEventHash crypto key a.prevHash p = computeEventHash crypto key b.prevHash q) := by
  induction front with
  | nil =>
    intro prev verified
    rw [List.nil_append, verifyRows] at verified ⊢
    cases read_a : a.payload unicode read with
    | error e =>
      rw [read_a] at verified
      cases verified
    | ok p =>
      simp only [read_a, read_b] at verified ⊢
      split at verified
      · cases verified
      next linked =>
        split at verified
        · cases verified
        next hashed =>
          -- both rows are linked; what is left to compare is the recomputed hash
          rw [Decidable.not_not] at linked hashed
          subst linked
          rw [if_neg (by simpa using prevs), hashes, hashed]
          constructor
          · intro passes
            split at passes
            · cases passes
            next same => exact ⟨p, rfl, by rw [prevs]; exact Decidable.not_not.mp same⟩
          · rintro ⟨p', found, same⟩
            obtain rfl := Except.ok.inj found
            rw [if_neg (by rw [Decidable.not_not, same, prevs]), ← hashed]
            exact verified
  | cons row front ih =>
    intro prev verified
    rw [List.cons_append, verifyRows] at verified ⊢
    cases read_row : row.payload unicode read with
    | error e =>
      rw [read_row] at verified
      cases verified
    | ok p =>
      simp only [read_row] at verified ⊢
      split at verified
      · cases verified
      next linked =>
        split at verified
        · cases verified
        next hashed =>
          rw [if_neg linked, if_neg hashed]
          exact ih row.eventHash verified

end

end RedactGate
