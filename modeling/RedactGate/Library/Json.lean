import RedactGate.Library.Text
import Mathlib.Data.Rat.Defs

/-!
# JSON values

Parsed JSON. An object is the list of its members in order; a lookup finds the first
member of a name and an assignment replaces it in place, as dictionaries do.
-/
namespace RedactGate.Library

inductive Json where
  | null
  | bool (b : Bool)
  | number (n : ℚ)
  | str (s : Text)
  | arr (items : List Json)
  | obj (fields : List (Text × Json))

abbrev Fields := List (Text × Json)

namespace Fields

/-- `dict.get`. -/
def get? (fields : Fields) (key : Text) : Option Json :=
  (fields.find? (·.1 = key)).map Prod.snd

/-- `dict.get`, with `None` for a key that is not there. -/
def getOrNull (fields : Fields) (key : Text) : Json := (fields.get? key).getD .null

/-- `key in dict`. -/
def hasKey (fields : Fields) (key : Text) : Bool := (fields.get? key).isSome

/-- `dict[key] = value`: a key that is there keeps its place, and a new one goes to the end. -/
def set (fields : Fields) (key : Text) (value : Json) : Fields :=
  match fields with
  | [] => [(key, value)]
  | (k, v) :: rest => if k = key then (k, value) :: rest else (k, v) :: set rest key value

theorem get?_cons (k : Text) (v : Json) (rest : Fields) (key : Text) :
    get? ((k, v) :: rest) key = if k = key then some v else get? rest key := by
  by_cases same : k = key <;> simp [get?, same]

theorem get?_of_not_mem_keys {fields : Fields} {key : Text}
    (absent : key ∉ fields.map Prod.fst) : get? fields key = none := by
  rw [get?, Option.map_eq_none_iff, List.find?_eq_none]
  intro entry member same
  exact absent (of_decide_eq_true same ▸ List.mem_map_of_mem member)

theorem get?_set (fields : Fields) (key other : Text) (value : Json) :
    (fields.set key value).get? other = if key = other then some value else fields.get? other := by
  induction fields with
  | nil => rw [set, get?_cons]
  | cons field rest ih =>
    obtain ⟨k, v⟩ := field
    by_cases here : k = key
    · subst here
      rw [set, if_pos rfl, get?_cons, get?_cons]
      split <;> rfl
    · rw [set, if_neg here, get?_cons, ih, get?_cons]
      by_cases same : k = other
      · rw [if_pos same, if_neg (fun eq => here (same.trans eq.symm)), if_pos same]
      · rw [if_neg same, if_neg same]

@[simp] theorem get?_set_self (fields : Fields) (key : Text) (value : Json) :
    (fields.set key value).get? key = some value := by
  rw [get?_set, if_pos rfl]

theorem get?_set_of_ne {key other : Text} (ne : key ≠ other) (fields : Fields) (value : Json) :
    (fields.set key value).get? other = fields.get? other := by
  rw [get?_set, if_neg ne]

/-- Assigning to a key the value that it has already changes nothing, as the key keeps its place. -/
theorem set_get? {fields : Fields} {key : Text} {value : Json}
    (found : fields.get? key = some value) : fields.set key value = fields := by
  induction fields with
  | nil => cases found
  | cons field rest ih =>
    obtain ⟨k, v⟩ := field
    rw [get?_cons] at found
    by_cases here : k = key
    · rw [if_pos here, Option.some.injEq] at found
      rw [set, if_pos here, found]
    · rw [if_neg here] at found
      rw [set, if_neg here, ih found]

/-- Of two assignments to one key the last one wins, and the key has the place that the first one
gave it. -/
theorem set_set (fields : Fields) (key : Text) (first second : Json) :
    (fields.set key first).set key second = fields.set key second := by
  induction fields with
  | nil => rw [set, set, set, if_pos rfl]
  | cons field rest ih =>
    obtain ⟨k, v⟩ := field
    by_cases here : k = key
    · simp only [set, if_pos here]
    · simp only [set, if_neg here, ih]

/-- Assigning to a key that is there keeps the names of an object and their order. -/
theorem keys_set {fields : Fields} {key : Text} {old : Json} (found : fields.get? key = some old)
    (value : Json) : (fields.set key value).map Prod.fst = fields.map Prod.fst := by
  induction fields with
  | nil => cases found
  | cons field rest ih =>
    obtain ⟨k, v⟩ := field
    rw [get?_cons] at found
    by_cases here : k = key
    · simp only [set, if_pos here, List.map_cons]
    · rw [if_neg here] at found
      simp only [set, if_neg here, List.map_cons, ih found]

/-- Assignments to two different keys commute if the first key is there: it keeps its place, and
only a key that is new is put at the end. -/
theorem set_comm {fields : Fields} {key other : Text} (ne : key ≠ other)
    (there : fields.hasKey key = true) (first second : Json) :
    (fields.set key first).set other second = (fields.set other second).set key first := by
  induction fields with
  | nil => cases there
  | cons field rest ih =>
    obtain ⟨k, v⟩ := field
    by_cases here : k = key
    · subst here
      simp only [set, if_true, if_neg ne]
    · have within : hasKey rest key = true := by
        rwa [hasKey, get?_cons, if_neg here] at there
      by_cases same : k = other
      · simp only [set, if_neg here, if_pos same]
      · simp only [set, if_neg here, if_neg same, ih within]

end Fields

namespace Json

/-- The truth value of a value, as `or` and `if` take it: zero, `null` and whatever is empty count
as false. -/
def truthy : Json → Bool
  | null => false
  | bool b => b
  | number n => n ≠ 0
  | str s => !s.isEmpty
  | arr items => !items.isEmpty
  | obj fields => !fields.isEmpty

/-- One step down into a value: to the member of a name, or to the item of an index. -/
inductive Step where
  | key (name : Text)
  | index (i : Nat)
  deriving DecidableEq

abbrev Path := List Step

/-- The value at a path, step by step, if the path leads anywhere. -/
def at? : Json → Path → Option Json
  | json, [] => some json
  | .obj fields, .key name :: path => (Fields.get? fields name).bind (at? · path)
  | .arr items, .index i :: path => items[i]?.bind (at? · path)
  | _, _ => none

/-- Assign to a place that is there; at a path that leads to no place, nothing is changed. -/
def setAt : Json → Path → Json → Json
  | _, [], value => value
  | .obj fields, .key name :: path, value =>
    match Fields.get? fields name with
    | some member => .obj (Fields.set fields name (member.setAt path value))
    -- a place that is not there is left out
    | none => .obj fields
  | .arr items, .index i :: path, value =>
    match items[i]? with
    | some item => .arr (items.set i (item.setAt path value))
    | none => .arr items
  | json, _, _ => json

theorem at?_key_eq_some {json : Json} {name : Text} {path : Path} {value : Json} :
    json.at? (.key name :: path) = some value ↔ ∃ fields member, json = .obj fields ∧
      Fields.get? fields name = some member ∧ member.at? path = some value := by
  cases json with
  | obj fields =>
    rw [at?, Option.bind_eq_some_iff]
    constructor
    · rintro ⟨member, found, rest⟩
      exact ⟨fields, member, rfl, found, rest⟩
    · rintro ⟨_, member, same, found, rest⟩
      exact ⟨member, obj.inj same ▸ found, rest⟩
  | _ => simp [at?]

theorem at?_index_eq_some {json : Json} {i : Nat} {path : Path} {value : Json} :
    json.at? (.index i :: path) = some value ↔ ∃ items item, json = .arr items ∧
      items[i]? = some item ∧ item.at? path = some value := by
  cases json with
  | arr items =>
    rw [at?, Option.bind_eq_some_iff]
    constructor
    · rintro ⟨item, found, rest⟩
      exact ⟨items, item, rfl, found, rest⟩
    · rintro ⟨_, item, same, found, rest⟩
      exact ⟨item, arr.inj same ▸ found, rest⟩
  | _ => simp [at?]

@[simp] theorem at?_nil (json : Json) : json.at? [] = some json := by
  cases json <;> rfl

/-! ## Assignments -/

/-- What a value is, its items and members apart: a list tells how many items it has, an object the
keys in their order. -/
inductive Shape where
  | null
  | bool (b : Bool)
  | number (n : ℚ)
  | str (s : Text)
  | arr (length : Nat)
  | obj (keys : List Text)
  deriving DecidableEq

def shape : Json → Shape
  | null => .null
  | bool b => .bool b
  | number n => .number n
  | str s => .str s
  | arr items => .arr items.length
  | obj fields => .obj (fields.map Prod.fst)

/-- The shape of the value at a path, if the path leads anywhere. -/
def shapeAt (json : Json) (path : Path) : Option Shape := (json.at? path).map shape

theorem shapeAt_of_str {json : Json} {path : Path} {text : Text}
    (there : json.at? path = some (.str text)) : json.shapeAt path = some (.str text) := by
  rw [shapeAt, there]
  rfl

theorem at?_of_shapeAt_str {json : Json} {path : Path} {text : Text}
    (there : json.shapeAt path = some (.str text)) : json.at? path = some (.str text) := by
  obtain ⟨value, found, same⟩ := Option.map_eq_some_iff.mp there
  cases value with
  | str s => rw [found, Shape.str.inj same]
  | _ => cases same

theorem shapeAt_key (fields : Fields) (name : Text) (path : Path) :
    (obj fields).shapeAt (.key name :: path) = (fields.get? name).bind (·.shapeAt path) := by
  rw [shapeAt, at?, Option.map_bind]
  rfl

theorem shapeAt_index (items : List Json) (i : Nat) (path : Path) :
    (arr items).shapeAt (.index i :: path) = items[i]?.bind (·.shapeAt path) := by
  rw [shapeAt, at?, Option.map_bind]
  rfl

/-- An assignment at a place that is there is read back at the same path, by induction on the path. -/
theorem at?_setAt_self {json old value : Json} {path : Path} (there : json.at? path = some old) :
    (json.setAt path value).at? path = some value := by
  induction path generalizing json with
  | nil => cases json <;> rfl
  | cons step path ih =>
    cases step with
    | key name =>
      obtain ⟨fields, member, rfl, found, inner⟩ := at?_key_eq_some.mp there
      simp only [setAt, found, at?, Fields.get?_set_self, Option.bind_some]
      exact ih inner
    | index i =>
      obtain ⟨items, item, rfl, found, inner⟩ := at?_index_eq_some.mp there
      have inside := (List.getElem?_eq_some_iff.mp found).1
      simp only [setAt, found, at?, List.getElem?_set_self inside, Option.bind_some]
      exact ih inner

/-- Assigning to a place the value that is there changes nothing, by induction on the path: no key
changes its place in its object. -/
theorem setAt_of_at? {json value : Json} {path : Path} (there : json.at? path = some value) :
    json.setAt path value = json := by
  induction path generalizing json with
  | nil =>
    rw [at?_nil, Option.some.injEq] at there
    subst there
    cases json <;> rfl
  | cons step path ih =>
    cases step with
    | key name =>
      obtain ⟨fields, member, rfl, found, inner⟩ := at?_key_eq_some.mp there
      simp only [setAt, found, ih inner, Fields.set_get? found]
    | index i =>
      obtain ⟨items, item, rfl, found, inner⟩ := at?_index_eq_some.mp there
      obtain ⟨inside, rfl⟩ := List.getElem?_eq_some_iff.mp found
      simp only [setAt, found, ih inner, List.set_getElem_self]

/-- The frame: a string that replaces a string changes no other place, neither above it, where the
shape only says that there is an object or a list, nor beside it. -/
theorem shapeAt_setAt {json : Json} {path : Path} {old : Text}
    (there : json.at? path = some (.str old)) (new : Text) {other : Path} (ne : other ≠ path) :
    (json.setAt path (.str new)).shapeAt other = json.shapeAt other := by
  induction path generalizing json other with
  | nil =>
    rw [at?_nil, Option.some.injEq] at there
    subst there
    -- at the path itself the string has changed; below a string there is nothing
    cases other with
    | nil => exact absurd rfl ne
    | cons step rest => cases step <;> rfl
  | cons step path ih =>
    cases step with
    | key name =>
      obtain ⟨fields, member, rfl, found, inner⟩ := at?_key_eq_some.mp there
      simp only [setAt, found]
      match other with
      | [] => simp only [shapeAt, at?_nil, Option.map_some, shape, Fields.keys_set found]
      | .index _ :: _ => rfl
      | .key k :: rest =>
        simp only [shapeAt, at?, Fields.get?_set]
        -- both paths go on into the same member, or they part here
        by_cases same : name = k
        · subst same
          rw [if_pos rfl, found, Option.bind_some, Option.bind_some]
          exact ih inner fun eq => ne (by rw [eq])
        · rw [if_neg same]
    | index i =>
      obtain ⟨items, item, rfl, found, inner⟩ := at?_index_eq_some.mp there
      simp only [setAt, found]
      match other with
      | [] => simp only [shapeAt, at?_nil, Option.map_some, shape, List.length_set]
      | .key _ :: _ => rfl
      | .index k :: rest =>
        simp only [shapeAt, at?, List.getElem?_set]
        by_cases same : i = k
        · subst same
          have inside := (List.getElem?_eq_some_iff.mp found).1
          rw [if_pos rfl, if_pos inside, found, Option.bind_some, Option.bind_some]
          exact ih inner fun eq => ne (by rw [eq])
        · rw [if_neg same]

end Json

end RedactGate.Library
