import RedactGate.Library.Json
import Mathlib.Data.List.Nodup

/-!
# Walks over the texts of a value

A walk hands texts of a value to a callback, one after the other, and rebuilds the
value from what comes back. It never looks at an answer before the next call, so it is
given by its calls, whether it raises after them, and the rebuilding. The path of each
text is a ghost beside it.
-/
namespace RedactGate.Library

open Json (Step Path)

@[ext]
structure Walk (α : Type) where
  calls : List (Path × Text)
  raises : Bool
  fill : List Text → α

namespace Walk

variable {α β γ : Type}

/-- Run a walk with a callback; nothing is rebuilt when the walk raises. -/
def run {m : Type → Type} [Monad m] (w : Walk α) (fn : Path → Text → m Text) : m (Option α) := do
  let texts ← w.calls.mapM fun c => fn c.1 c.2
  pure (if w.raises then none else some (w.fill texts))

def paths (w : Walk α) : List Path := w.calls.map Prod.fst

def texts (w : Walk α) : List Text := w.calls.map Prod.snd

/-- The walk with other texts at the same places. -/
def refill (w : Walk α) (new : List Text) : Walk α := ⟨w.paths.zip new, w.raises, w.fill⟩

/-! ## Building walks -/

def done (a : α) : Walk α := ⟨[], false, fun _ => a⟩

/-- Raise, with the value as it is so far. -/
def raise (a : α) : Walk α := ⟨[], true, fun _ => a⟩

/-- Hand one text to the callback. -/
def call (text : Text) : Walk Text := ⟨[([], text)], false, fun new => new.headD []⟩

def map (f : α → β) (w : Walk α) : Walk β := ⟨w.calls, w.raises, f ∘ w.fill⟩

/-- One walk and then, unless it raises, another one: the calls follow one another, and so do the
answers. -/
def both (f : α → β → γ) (w : Walk α) (w' : Walk β) : Walk γ where
  calls := if w.raises then w.calls else w.calls ++ w'.calls
  raises := w.raises || w'.raises
  fill new := f (w.fill (new.take w.calls.length)) (w'.fill (new.drop w.calls.length))

/-- A walk of the value one step down. -/
def under (step : Step) (w : Walk α) : Walk α :=
  ⟨w.calls.map fun c => (step :: c.1, c.2), w.raises, w.fill⟩

/-- Hand a string to the callback and leave any other value alone. -/
def text : Json → Walk Json
  | .str s => map .str (call s)
  | json => done json

/-- Walk the elements of a list, the first of which has the index `i`. -/
def items (walk : Json → Walk Json) : Nat → List Json → Walk (List Json)
  | _, [] => done []
  | i, item :: rest => both List.cons (under (.index i) (walk item)) (items walk (i + 1) rest)

/-- Walk the members of the named keys, in the order of the names and not of the object; a key that
is not there is passed over. -/
def members : List (Text × (Json → Walk Json)) → Fields → Walk Fields
  | [], fields => done fields
  | (key, walk) :: rest, fields =>
    match fields.get? key with
    | none => members rest fields
    | some value =>
      both (fun value' fields' => fields'.set key value') (under (.key key) (walk value))
        (members rest fields)

/-- Walk the elements of a list and leave any other value alone. -/
def list (walk : Json → Walk Json) : Json → Walk Json
  | .arr xs => map .arr (items walk 0 xs)
  | json => done json

/-- A string is one text, a list is walked by its elements. -/
def textOrList (walk : Json → Walk Json) : Json → Walk Json
  | .str s => text (.str s)
  | json => list walk json

/-- Walk members of an object and leave any other value alone. -/
def object (keys : List (Text × (Json → Walk Json))) : Json → Walk Json
  | .obj fields => map .obj (members keys fields)
  | json => done json

/-! ## Calls of a run -/

/-- The callback with a log of its calls. -/
def traced {σ : Type} (fn : Path → Text → StateM σ Text) (path : Path) (text : Text) :
    StateM (List (Path × Text) × σ) Text :=
  fun (log, s) => (((fn path text).run s).1, (log ++ [(path, text)], ((fn path text).run s).2))

/-- Whatever the callback does and returns, a run makes the calls of the walk, in the walk's order. -/
theorem run_traced {σ : Type} (w : Walk α) (fn : Path → Text → StateM σ Text) (s : σ) :
    ((w.run (traced fn)).run ([], s)).2.1 = w.calls := by
  have logged (calls : List (Path × Text)) : ∀ (log : List (Path × Text)) (s : σ),
      ((calls.mapM fun c => traced fn c.1 c.2).run (log, s)).2.1 = log ++ calls := by
    induction calls with
    | nil => exact fun log s => (List.append_nil log).symm
    | cons c calls ih =>
      intro log s
      rw [List.mapM_cons]
      exact (ih (log ++ [c]) _).trans (List.append_assoc log [c] calls)
  exact logged w.calls [] s

/-- A run with a callback that has no effects. -/
theorem run_pure (w : Walk α) (fn : Path → Text → Text) : w.run (m := Id) fn =
    if w.raises then none else some (w.fill (w.calls.map fun c => fn c.1 c.2)) := by
  have answers : (w.calls.mapM (m := Id) fun c => fn c.1 c.2) = w.calls.map fun c => fn c.1 c.2 :=
    List.mapM_pure
  rw [run, answers]
  rfl

/-! ## Places -/

theorem mem_paths {w : Walk α} {p : Path} : p ∈ w.paths ↔ ∃ t, (p, t) ∈ w.calls := by
  simp [paths]

@[simp] theorem length_paths (w : Walk α) : w.paths.length = w.calls.length := List.length_map _

theorem mem_paths_under {w : Walk α} {step : Step} {p : Path} :
    p ∈ (under step w).paths ↔ ∃ q, p = step :: q ∧ q ∈ w.paths := by
  simp only [paths, under, List.map_map, List.mem_map, Function.comp]
  constructor
  · rintro ⟨c, member, rfl⟩
    exact ⟨c.1, rfl, c, member, rfl⟩
  · rintro ⟨_, rfl, c, member, rfl⟩
    exact ⟨c, member, rfl⟩

theorem mem_paths_both {f : α → β → γ} {w : Walk α} {w' : Walk β} {p : Path} :
    p ∈ (both f w w').paths ↔ p ∈ w.paths ∨ w.raises = false ∧ p ∈ w'.paths := by
  cases raises : w.raises <;> simp [paths, both, raises]

theorem nodup_under {w : Walk α} {step : Step} (nodup : w.paths.Nodup) :
    (under step w).paths.Nodup := by
  have paths_eq : (under step w).paths = w.paths.map (step :: ·) := by simp [paths, under]
  rw [paths_eq]
  exact nodup.map (List.cons_injective)

theorem nodup_both {f : α → β → γ} {w : Walk α} {w' : Walk β} (nodup : w.paths.Nodup)
    (nodup' : w'.paths.Nodup) (apart : ∀ p ∈ w.paths, p ∉ w'.paths) :
    (both f w w').paths.Nodup := by
  cases raises : w.raises with
  | true => simpa [paths, both, raises] using nodup
  | false =>
    have paths_eq : (both f w w').paths = w.paths ++ w'.paths := by simp [paths, both, raises]
    rw [paths_eq, List.nodup_append]
    exact ⟨nodup, nodup', fun p member q member' same => apart p member (same ▸ member')⟩

/-- The places that a walk over a list reaches: those in an element, under its index, as long as the
walk raises in no element before it. -/
theorem mem_paths_items {walk : Json → Walk Json} {i : Nat} {xs : List Json} {p : Path} :
    p ∈ (items walk i xs).paths ↔ ∃ k x q, xs[k]? = some x ∧ p = .index (i + k) :: q ∧
      q ∈ (walk x).paths ∧ ∀ y ∈ xs.take k, (walk y).raises = false := by
  induction xs generalizing i with
  | nil => simp [items, done, paths]
  | cons x xs ih =>
    rw [items, mem_paths_both, mem_paths_under, ih]
    constructor
    -- an item is reached when no item before it stops the walk
    · rintro (⟨q, rfl, member⟩ | ⟨goes, k, y, q, at_k, rfl, member, before⟩)
      · exact ⟨0, x, q, rfl, rfl, member, by simp⟩
      · refine ⟨k + 1, y, q, at_k, by rw [Nat.add_assoc, Nat.add_comm 1], member, ?_⟩
        exact fun z within => (List.mem_cons.mp within).elim (fun eq => eq ▸ goes) (before z)
    · rintro ⟨k, y, q, at_k, rfl, member, before⟩
      cases k with
      | zero =>
        cases at_k
        exact .inl ⟨q, rfl, member⟩
      | succ k =>
        refine .inr ⟨before x List.mem_cons_self, k, y, q, at_k, ?_, member, fun z within =>
          before z (List.mem_cons_of_mem x within)⟩
        rw [Nat.add_assoc, Nat.add_comm 1]

theorem mem_paths_members_cons {key : Text} {walk : Json → Walk Json}
    {rest : List (Text × (Json → Walk Json))} {fields : Fields} {p : Path} :
    p ∈ (members ((key, walk) :: rest) fields).paths ↔
      (∃ value q, fields.get? key = some value ∧ p = .key key :: q ∧ q ∈ (walk value).paths) ∨
      (∀ value, fields.get? key = some value → (walk value).raises = false) ∧
        p ∈ (members rest fields).paths := by
  rw [members]
  -- a member that is missing is passed over
  cases found : fields.get? key with
  | none => simp
  | some value =>
    simp only [mem_paths_both, mem_paths_under, Option.some.injEq]
    constructor
    · rintro (⟨q, rfl, member⟩ | ⟨goes, member⟩)
      · exact .inl ⟨value, q, rfl, rfl, member⟩
      · exact .inr ⟨fun v same => same ▸ goes, member⟩
    · rintro (⟨v, q, rfl, rfl, member⟩ | ⟨goes, member⟩)
      · exact .inl ⟨q, rfl, member⟩
      · exact .inr ⟨goes value rfl, member⟩

@[simp] theorem mem_paths_members_nil {fields : Fields} {p : Path} :
    ¬p ∈ (members [] fields).paths := by
  simp [members, done, paths]

/-- The first step of a place that a walk over members reaches is one of the keys it names. -/
theorem head_mem_of_mem_members {keys : List (Text × (Json → Walk Json))} {fields : Fields}
    {p : Path} (member : p ∈ (members keys fields).paths) :
    ∃ key ∈ keys.map Prod.fst, ∃ q, p = .key key :: q := by
  induction keys with
  | nil => exact absurd member mem_paths_members_nil
  | cons entry rest ih =>
    rcases mem_paths_members_cons.mp member with ⟨_, q, _, rfl, _⟩ | ⟨_, member⟩
    · exact ⟨entry.1, List.mem_cons_self, q, rfl⟩
    · obtain ⟨key, among, q, rfl⟩ := ih member
      exact ⟨key, List.mem_cons_of_mem _ among, q, rfl⟩

theorem mem_paths_text {json : Json} {p : Path} :
    p ∈ (text json).paths ↔ p = [] ∧ ∃ s, json = .str s := by
  cases json <;> simp [text, call, done, map, paths]

theorem mem_paths_list {walk : Json → Walk Json} {json : Json} {p : Path} :
    p ∈ (list walk json).paths ↔ ∃ xs k x q, json = .arr xs ∧ xs[k]? = some x ∧
      p = .index k :: q ∧ q ∈ (walk x).paths ∧ ∀ y ∈ xs.take k, (walk y).raises = false := by
  cases json with
  | arr xs =>
    refine Iff.trans mem_paths_items ⟨?_, ?_⟩
    · rintro ⟨k, x, q, at_k, rfl, member, before⟩
      exact ⟨xs, k, x, q, rfl, at_k, by rw [Nat.zero_add], member, before⟩
    · rintro ⟨_, k, x, q, same, at_k, rfl, member, before⟩
      obtain rfl := Json.arr.inj same
      exact ⟨k, x, q, at_k, by rw [Nat.zero_add], member, before⟩
  | _ => simp [list, done, paths]

theorem mem_paths_object {keys : List (Text × (Json → Walk Json))} {json : Json} {p : Path} :
    p ∈ (object keys json).paths ↔
      ∃ fields, json = .obj fields ∧ p ∈ (members keys fields).paths := by
  cases json with
  | obj fields => simp [object, map, paths]
  | _ => simp [object, done, paths]

theorem mem_paths_textOrList {walk : Json → Walk Json} {json : Json} {p : Path} :
    p ∈ (textOrList walk json).paths ↔
      (p = [] ∧ ∃ s, json = .str s) ∨ p ∈ (list walk json).paths := by
  cases json with
  | str s =>
    rw [textOrList, mem_paths_text]
    simp [list, done, paths]
  | _ => simp [textOrList]

theorem mem_paths_member {key : Text} {walk : Json → Walk Json} {json : Json} {p : Path} :
    p ∈ (object [(key, walk)] json).paths ↔ ∃ fields value q, json = .obj fields ∧
      Fields.get? fields key = some value ∧ p = .key key :: q ∧ q ∈ (walk value).paths := by
  rw [mem_paths_object]
  constructor
  · rintro ⟨fields, rfl, member⟩
    rcases mem_paths_members_cons.mp member with ⟨value, q, found, rfl, here⟩ | ⟨_, nowhere⟩
    · exact ⟨fields, value, q, rfl, found, rfl, here⟩
    · exact absurd nowhere mem_paths_members_nil
  · rintro ⟨fields, value, q, rfl, found, rfl, here⟩
    exact ⟨fields, rfl, mem_paths_members_cons.mpr (.inl ⟨value, q, found, rfl, here⟩)⟩

/-- The walk of a string member reaches one place, that of the member, if there is a string. -/
theorem mem_paths_textMember {key : Text} {json : Json} {p : Path} :
    p ∈ (object [(key, text)] json).paths ↔ p = [.key key] ∧ ∃ s, json.at? p = some (.str s) := by
  rw [mem_paths_member]
  constructor
  · rintro ⟨fields, value, q, rfl, found, rfl, here⟩
    obtain ⟨rfl, s, rfl⟩ := mem_paths_text.mp here
    exact ⟨rfl, s, Json.at?_key_eq_some.mpr ⟨fields, _, rfl, found, rfl⟩⟩
  · rintro ⟨rfl, s, there⟩
    obtain ⟨fields, value, rfl, found, same⟩ := Json.at?_key_eq_some.mp there
    rw [Json.at?_nil, Option.some.injEq] at same
    exact ⟨fields, value, [], rfl, found, rfl, mem_paths_text.mpr ⟨rfl, s, same⟩⟩

/-! ## Raising -/

/-- A walk that never raises. -/
def Calm (walk : Json → Walk Json) : Prop := ∀ json, (walk json).raises = false

theorem calm_text : Calm text := fun json => by cases json <;> rfl

theorem calm_members {keys : List (Text × (Json → Walk Json))}
    (calm : ∀ entry ∈ keys, Calm entry.2) (fields : Fields) :
    (members keys fields).raises = false := by
  induction keys with
  | nil => rfl
  | cons entry rest ih =>
    have ih := ih fun entry among => calm entry (List.mem_cons_of_mem _ among)
    rw [members]
    cases fields.get? entry.1 with
    | none => exact ih
    | some value => exact Bool.or_eq_false_iff.mpr ⟨calm entry List.mem_cons_self value, ih⟩

theorem calm_object {keys : List (Text × (Json → Walk Json))}
    (calm : ∀ entry ∈ keys, Calm entry.2) : Calm (object keys) := fun json => by
  cases json with
  | obj fields => exact calm_members calm fields
  | _ => rfl

theorem raises_items {walk : Json → Walk Json} (i : Nat) (xs : List Json) :
    (items walk i xs).raises = xs.any fun x => (walk x).raises := by
  induction xs generalizing i with
  | nil => rfl
  | cons x xs ih => exact congrArg ((walk x).raises || ·) (ih (i + 1))

theorem calm_list {walk : Json → Walk Json} (calm : Calm walk) : Calm (list walk) := fun json => by
  cases json with
  | arr xs => exact (raises_items 0 xs).trans (List.any_eq_false.mpr fun x _ => by simp [calm x])
  | _ => rfl

theorem calm_textOrList {walk : Json → Walk Json} (calm : Calm walk) : Calm (textOrList walk) :=
  fun json => by
    cases json with
    | str s => rfl
    | arr xs => exact calm_list calm (.arr xs)
    | _ => rfl

/-! ## Laws -/

/-- A walk of JSON values that reads what stands at its places, no place twice, and
finds the same places again after its texts have been replaced. -/
structure Lawful (walk : Json → Walk Json) : Prop where
  sound : ∀ {json p t}, (p, t) ∈ (walk json).calls → json.at? p = some (.str t)
  distinct : ∀ json, (walk json).paths.Nodup
  stable : ∀ {json new}, (walk json).raises = false → new.length = (walk json).calls.length →
    walk ((walk json).fill new) = (walk json).refill new

theorem Lawful.string_of_mem {walk : Json → Walk Json} (lawful : Lawful walk) {json : Json}
    {p : Path} (member : p ∈ (walk json).paths) : ∃ s, json.at? p = some (.str s) := by
  obtain ⟨s, called⟩ := mem_paths.mp member
  exact ⟨s, lawful.sound called⟩

theorem mem_calls_both {f : α → β → γ} {w : Walk α} {w' : Walk β} {c : Path × Text}
    (member : c ∈ (both f w w').calls) : c ∈ w.calls ∨ c ∈ w'.calls := by
  cases raises : w.raises with
  | true => exact .inl (by simpa [both, raises] using member)
  | false => simpa [both, raises] using member

theorem refill_both {f : α → β → γ} {w : Walk α} {w' : Walk β} {new : List Text}
    (goes : w.raises = false) (length : new.length = w.calls.length + w'.calls.length) :
    (both f w w').refill new =
      both f (w.refill (new.take w.calls.length)) (w'.refill (new.drop w.calls.length)) := by
  have firsts : (new.take w.calls.length).length = w.paths.length := by
    rw [List.length_take, length_paths]
    omega
  have zipped : (w.paths ++ w'.paths).zip new =
      w.paths.zip (new.take w.calls.length) ++ w'.paths.zip (new.drop w.calls.length) := by
    rw [← List.zip_append firsts.symm, List.take_append_drop]
  ext1
  · simpa [refill, both, goes, paths] using zipped
  · rfl
  · have width : min w.calls.length (new.length) = w.calls.length := by omega
    simp only [refill, both, List.length_zip, length_paths, List.length_take, width, Nat.min_self]

theorem refill_under {w : Walk α} {step : Step} (new : List Text) :
    (under step w).refill new = under step (w.refill new) := by
  have calls : ∀ (ps : List (Path × Text)) (new : List Text),
      (ps.map fun c => step :: c.1).zip new =
        (((ps.map Prod.fst).zip new).map fun c => (step :: c.1, c.2)) := by
    intro ps
    induction ps with
    | nil => exact fun _ => rfl
    | cons c ps ih =>
      intro new
      cases new with
      | nil => rfl
      | cons t new => simp [ih]
  ext1
  · simpa [refill, under, paths, Function.comp_def] using calls w.calls new
  · rfl
  · rfl

theorem stable_done {json : Json} {new : List Text} (length : new.length = 0) :
    (done json).refill new = done json := by
  rw [List.length_eq_zero_iff.mp length]
  rfl

theorem lawful_text : Lawful text where
  sound {json p t} member := by
    cases json with
    | str s =>
      obtain ⟨rfl, rfl⟩ := Prod.mk.inj (List.mem_singleton.mp member)
      rfl
    | _ => cases member
  distinct json := by cases json <;> simp [text, call, done, map, paths]
  stable {json new} _ length := by
    cases json with
    | str s =>
      obtain ⟨t, rfl⟩ := List.length_eq_one_iff.mp length
      rfl
    | _ => cases new <;> trivial

section Items

variable {walk : Json → Walk Json} (lawful : Lawful walk)

include lawful

theorem sound_items {i : Nat} {xs : List Json} {p : Path} {t : Text}
    (member : (p, t) ∈ (items walk i xs).calls) :
    ∃ k q, p = .index (i + k) :: q ∧ xs[k]?.bind (·.at? q) = some (.str t) := by
  induction xs generalizing i with
  | nil => cases member
  | cons x xs ih =>
    rcases mem_calls_both member with here | later
    · obtain ⟨c, within, eq⟩ := List.mem_map.mp here
      obtain ⟨rfl, rfl⟩ := Prod.mk.inj eq
      exact ⟨0, c.1, rfl, lawful.sound within⟩
    · obtain ⟨k, q, rfl, found⟩ := ih later
      exact ⟨k + 1, q, by rw [Nat.add_assoc, Nat.add_comm 1], found⟩

theorem distinct_items (i : Nat) (xs : List Json) : (items walk i xs).paths.Nodup := by
  induction xs generalizing i with
  | nil => exact List.nodup_nil
  | cons x xs ih =>
    refine nodup_both (nodup_under (lawful.distinct x)) (ih (i + 1)) fun p here later => ?_
    obtain ⟨q, rfl, _⟩ := mem_paths_under.mp here
    obtain ⟨k, _, _, _, same, _⟩ := mem_paths_items.mp later
    have index := Step.index.inj (List.cons.inj same).1
    omega

theorem stable_items {i : Nat} {xs : List Json} {new : List Text}
    (goes : (items walk i xs).raises = false)
    (length : new.length = (items walk i xs).calls.length) :
    items walk i ((items walk i xs).fill new) = (items walk i xs).refill new := by
  induction xs generalizing i new with
  | nil =>
    ext1
    · rfl
    · rfl
    · rfl
  | cons x xs ih =>
    obtain ⟨first, rest⟩ : (walk x).raises = false ∧ (items walk (i + 1) xs).raises = false := by
      simpa [items, both, under] using goes
    have lengths : new.length = (walk x).calls.length + (items walk (i + 1) xs).calls.length := by
      simpa [items, both, under, first] using length
    have width : (under (.index i) (walk x)).calls.length = (walk x).calls.length := by
      simp [under]
    -- each item gets the strings of its own calls, and the walk goes over the filled item as before
    have head : walk ((walk x).fill (new.take (walk x).calls.length)) = _ :=
      lawful.stable first (by rw [List.length_take]; omega)
    have tail : items walk (i + 1) ((items walk (i + 1) xs).fill
        (new.drop (walk x).calls.length)) = _ := ih rest (by rw [List.length_drop]; omega)
    have goes' : (under (.index i) (walk x)).raises = false := first
    rw [items, refill_both goes' (by rw [width]; exact lengths), width, refill_under, ← tail,
      ← head]
    simp only [both, width]
    rfl

end Items

section Members

variable {keys : List (Text × (Json → Walk Json))}

theorem members_cons_some {key : Text} {walk : Json → Walk Json} {fields : Fields} {value : Json}
    (found : fields.get? key = some value) :
    members ((key, walk) :: keys) fields =
      both (fun value' fields' => fields'.set key value') (under (.key key) (walk value))
        (members keys fields) := by
  rw [members, found]

theorem members_cons_none {key : Text} {walk : Json → Walk Json} {fields : Fields}
    (absent : fields.get? key = none) :
    members ((key, walk) :: keys) fields = members keys fields := by
  rw [members, absent]

/-- A walk over members leaves the value of any key that it does not name as it is. -/
theorem get?_members {fields : Fields} {other : Text} (apart : other ∉ keys.map Prod.fst)
    (new : List Text) : ((members keys fields).fill new).get? other = fields.get? other := by
  induction keys generalizing new with
  | nil => rfl
  | cons entry rest ih =>
    obtain ⟨key, walk⟩ := entry
    obtain ⟨ne, apart⟩ := not_or.mp (mt List.mem_cons.mpr apart)
    cases found : fields.get? key with
    | none => rw [members_cons_none found]; exact ih apart new
    | some value =>
      rw [members_cons_some found]
      exact (Fields.get?_set_of_ne (Ne.symm ne) _ _).trans (ih apart _)

/-- A walk over members of an object writes to keys that are there only, and so the same keys are
there afterwards. -/
theorem hasKey_members (fields : Fields) (other : Text) (new : List Text) :
    ((members keys fields).fill new).hasKey other = fields.hasKey other := by
  induction keys generalizing new with
  | nil => rfl
  | cons entry rest ih =>
    obtain ⟨key, walk⟩ := entry
    cases found : fields.get? key with
    | none => rw [members_cons_none found]; exact ih new
    | some value =>
      rw [members_cons_some found]
      simp only [both, Fields.hasKey, Fields.get?_set]
      by_cases same : key = other
      · rw [if_pos same, ← same, found]
        rfl
      · rw [if_neg same]
        exact ih _

theorem sound_members (lawful : ∀ entry ∈ keys, Lawful entry.2) {fields : Fields} {p : Path}
    {t : Text} (member : (p, t) ∈ (members keys fields).calls) :
    (Json.obj fields).at? p = some (.str t) := by
  induction keys with
  | nil => cases member
  | cons entry rest ih =>
    obtain ⟨key, walk⟩ := entry
    have ih := ih fun entry among => lawful entry (List.mem_cons_of_mem _ among)
    -- the text was read at the member, or at a later one
    cases found : fields.get? key with
    | none => rw [members_cons_none found] at member; exact ih member
    | some value =>
      rw [members_cons_some found] at member
      rcases mem_calls_both member with here | later
      · obtain ⟨c, within, eq⟩ := List.mem_map.mp here
        obtain ⟨rfl, rfl⟩ := Prod.mk.inj eq
        have at_value := (lawful (key, walk) List.mem_cons_self).sound within
        rw [Json.at?, found, Option.bind_some, at_value]
      · exact ih later

theorem distinct_members (lawful : ∀ entry ∈ keys, Lawful entry.2)
    (nodup : (keys.map Prod.fst).Nodup) (fields : Fields) : (members keys fields).paths.Nodup := by
  induction keys with
  | nil => exact List.nodup_nil
  | cons entry rest ih =>
    obtain ⟨key, walk⟩ := entry
    obtain ⟨fresh, nodup⟩ := List.nodup_cons.mp nodup
    have ih := ih (fun entry among => lawful entry (List.mem_cons_of_mem _ among)) nodup
    cases found : fields.get? key with
    | none => rw [members_cons_none found]; exact ih
    | some value =>
      rw [members_cons_some found]
      refine nodup_both (nodup_under ((lawful (key, walk) List.mem_cons_self).distinct value)) ih
        fun p here later => ?_
      obtain ⟨q, rfl, _⟩ := mem_paths_under.mp here
      obtain ⟨other, among, _, same⟩ := head_mem_of_mem_members later
      exact fresh (Step.key.inj (List.cons.inj same).1 ▸ among)

/-- A walk over members and an assignment to another key that is there can be done in either order:
neither of them sees the other. -/
theorem members_set {fields : Fields} {key : Text} (apart : key ∉ keys.map Prod.fst)
    (there : fields.hasKey key = true) (value : Json) :
    members keys (fields.set key value) =
      map (fun fields' => fields'.set key value) (members keys fields) := by
  induction keys with
  | nil => rfl
  | cons entry rest ih =>
    obtain ⟨other, walk⟩ := entry
    obtain ⟨ne, apart⟩ := not_or.mp (mt List.mem_cons.mpr apart)
    have kept := Fields.get?_set_of_ne ne fields value
    -- the walk reads other members than the one that is set
    cases found : fields.get? other with
    | none =>
      rw [members_cons_none found, members_cons_none (kept.trans found)]
      exact ih apart
    | some v =>
      rw [members_cons_some found, members_cons_some (kept.trans found), ih apart]
      ext1
      · rfl
      · rfl
      · funext new
        exact Fields.set_comm ne ((hasKey_members fields key _).trans there) value _

/-- A later assignment to the same key hides an earlier one, wherever the walk has made it. -/
theorem both_set_map (key : Text) (value : Json) (w : Walk Json) (w' : Walk Fields) :
    both (fun value' fields' => fields'.set key value') w
        (map (fun fields' => fields'.set key value) w') =
      both (fun value' fields' => fields'.set key value') w w' := by
  ext1
  · rfl
  · rfl
  · funext new
    exact Fields.set_set _ key value _

theorem stable_members (lawful : ∀ entry ∈ keys, Lawful entry.2)
    (nodup : (keys.map Prod.fst).Nodup) {fields : Fields} {new : List Text}
    (goes : (members keys fields).raises = false)
    (length : new.length = (members keys fields).calls.length) :
    members keys ((members keys fields).fill new) = (members keys fields).refill new := by
  induction keys generalizing new with
  | nil =>
    ext1
    · rfl
    · rfl
    · rfl
  | cons entry rest ih =>
    obtain ⟨key, walk⟩ := entry
    obtain ⟨fresh, nodup⟩ := List.nodup_cons.mp nodup
    have ih := @ih (fun entry among => lawful entry (List.mem_cons_of_mem _ among)) nodup
    cases found : fields.get? key with
    | none =>
      rw [members_cons_none found] at goes length ⊢
      have absent : ((members rest fields).fill new).get? key = none :=
        (get?_members fresh new).trans found
      rw [members_cons_none absent]
      exact ih goes length
    | some value =>
      rw [members_cons_some found] at goes length ⊢
      obtain ⟨first, others⟩ :
          (walk value).raises = false ∧ (members rest fields).raises = false := by
        simpa [both, under] using goes
      have law : Lawful walk := lawful (key, walk) List.mem_cons_self
      have goes' : (under (.key key) (walk value)).raises = false := first
      have width : (under (.key key) (walk value)).calls.length = (walk value).calls.length := by
        simp [under]
      have lengths :
          new.length = (walk value).calls.length + (members rest fields).calls.length := by
        simpa [both, under, first] using length
      have head : walk ((walk value).fill (new.take (walk value).calls.length)) = _ :=
        law.stable first (by rw [List.length_take]; omega)
      have tail : members rest ((members rest fields).fill
          (new.drop (walk value).calls.length)) = _ := ih others (by rw [List.length_drop]; omega)
      -- filling the later members keeps this one in its place
      have there : ((members rest fields).fill (new.drop (walk value).calls.length)).hasKey key =
          true := (hasKey_members fields key _).trans (by rw [Fields.hasKey, found]; rfl)
      have filled : (both (fun value' fields' => fields'.set key value')
          (under (.key key) (walk value)) (members rest fields)).fill new =
          ((members rest fields).fill (new.drop (walk value).calls.length)).set key
            ((walk value).fill (new.take (walk value).calls.length)) := by
        simp only [both, width]
        rfl
      rw [filled, members_cons_some (Fields.get?_set_self _ _ _), members_set fresh there, tail,
        both_set_map, head, refill_both goes' (by rw [width]; exact lengths), width, refill_under]

theorem lawful_object (lawful : ∀ entry ∈ keys, Lawful entry.2)
    (nodup : (keys.map Prod.fst).Nodup) : Lawful (object keys) where
  sound {json p t} member := by
    -- anything but an object is left alone
    cases json with
    | obj fields => exact sound_members lawful member
    | _ => cases member
  distinct json := by
    cases json with
    | obj fields => exact distinct_members lawful nodup fields
    | _ => exact List.nodup_nil
  stable {json new} goes length := by
    cases json with
    | obj fields =>
      have again := stable_members lawful nodup goes length
      have same : object keys ((object keys (.obj fields)).fill new) =
        map .obj (members keys ((members keys fields).fill new)) := rfl
      rw [same, again]
      rfl
    | _ => exact (stable_done length).symm

end Members

theorem lawful_list {walk : Json → Walk Json} (lawful : Lawful walk) : Lawful (list walk) where
  sound {json p t} member := by
    -- anything but a list is left alone
    cases json with
    | arr xs =>
      obtain ⟨k, q, rfl, found⟩ := sound_items lawful member
      rwa [Nat.zero_add]
    | _ => cases member
  distinct json := by
    cases json with
    | arr xs => exact distinct_items lawful 0 xs
    | _ => exact List.nodup_nil
  stable {json new} goes length := by
    cases json with
    | arr xs =>
      have again := stable_items lawful goes length
      have same : list walk ((list walk (.arr xs)).fill new) =
        map .arr (items walk 0 ((items walk 0 xs).fill new)) := rfl
      rw [same, again]
      rfl
    | _ => exact (stable_done length).symm

theorem lawful_textOrList {walk : Json → Walk Json} (lawful : Lawful walk) :
    Lawful (textOrList walk) where
  sound {json p t} member := by
    -- a string is one text, a list is walked
    cases json with
    | str s => exact lawful_text.sound member
    | _ => exact (lawful_list lawful).sound member
  distinct json := by
    cases json with
    | str s => exact lawful_text.distinct _
    | _ => exact (lawful_list lawful).distinct _
  stable {json new} goes length := by
    cases json with
    | str s =>
      obtain ⟨t, rfl⟩ := List.length_eq_one_iff.mp length
      rfl
    | arr xs =>
      have same : textOrList walk (.arr xs) = list walk (.arr xs) := rfl
      rw [same] at goes length ⊢
      exact (lawful_list lawful).stable goes length
    | _ => exact (lawful_list lawful).stable goes length

/-- Two lawful walks with a test that chooses between them are one lawful walk, if the test only
looks at what neither of the two changes. -/
theorem lawful_choice {walk other : Json → Walk Json} (lawful : Lawful walk)
    (lawful' : Lawful other) {test : Json → Bool}
    (blind : ∀ json new, test ((walk json).fill new) = test json)
    (blind' : ∀ json new, test ((other json).fill new) = test json) :
    Lawful fun json => if test json then walk json else other json where
  sound {json p t} member := by
    -- filling in texts does not change the outcome of the test
    cases holds : test json with
    | true => exact lawful.sound (by simpa only [holds, if_true] using member)
    | false => exact lawful'.sound (by simpa [holds] using member)
  distinct json := by
    cases test json with
    | true => simpa only [if_true] using lawful.distinct json
    | false => simpa using lawful'.distinct json
  stable {json new} goes length := by
    cases holds : test json with
    | true =>
      simp only [holds, if_true] at goes length ⊢
      rw [blind, holds, if_pos rfl]
      exact lawful.stable goes length
    | false =>
      simp only [holds, Bool.false_eq_true, if_false] at goes length ⊢
      rw [blind', holds, if_neg Bool.false_ne_true]
      exact lawful'.stable goes length

theorem lawful_done : Lawful done where
  sound member := nomatch member
  distinct _ := List.nodup_nil
  stable _ length := (stable_done length).symm

end Walk

end RedactGate.Library
