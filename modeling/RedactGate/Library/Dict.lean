import Mathlib.Data.List.Nodup

/-!
# Insertion-ordered dictionaries

Association lists with distinct keys. Writing a known key replaces its value in
place; writing a new key adds it at the end. Iteration follows the entries.
-/
namespace RedactGate.Library

structure Dict (κ ν : Type) where
  entries : List (κ × ν)
  distinct : (entries.map Prod.fst).Nodup

namespace Dict

variable {κ ν : Type} [DecidableEq κ]

def empty : Dict κ ν := ⟨[], List.nodup_nil⟩

def get? (d : Dict κ ν) (k : κ) : Option ν := (d.entries.find? (·.1 = k)).map Prod.snd

def setEntries (k : κ) (v : ν) : List (κ × ν) → List (κ × ν)
  | [] => [(k, v)]
  | (k', v') :: es => if k' = k then (k, v) :: es else (k', v') :: setEntries k v es

theorem keys_setEntries (k : κ) (v : ν) (es : List (κ × ν)) :
    (setEntries k v es).map Prod.fst =
      if k ∈ es.map Prod.fst then es.map Prod.fst else es.map Prod.fst ++ [k] := by
  induction es with
  | nil => simp [setEntries]
  | cons e es ih =>
    obtain ⟨k', v'⟩ := e
    by_cases same : k' = k
    · simp [setEntries, same]
    · have other : k ≠ k' := fun h => same h.symm
      simp only [setEntries, same, if_false, List.map_cons, List.mem_cons, other, false_or, ih]
      split <;> rfl

def set (d : Dict κ ν) (k : κ) (v : ν) : Dict κ ν where
  entries := setEntries k v d.entries
  distinct := by
    rw [keys_setEntries]
    -- a known key keeps its place, a new one goes to the end
    split
    · exact d.distinct
    next fresh => exact List.nodup_append.mpr ⟨d.distinct, List.nodup_singleton k,
        fun a member b single => by
          rintro rfl
          exact fresh (List.mem_singleton.mp single ▸ member)⟩

/-- The writes of a list, one after the other. -/
def setAll (d : Dict κ ν) (writes : List (κ × ν)) : Dict κ ν :=
  writes.foldl (fun d w => d.set w.1 w.2) d

/-- `pop`, of a key. -/
def erase (d : Dict κ ν) (k : κ) : Dict κ ν where
  entries := d.entries.filter (·.1 ≠ k)
  distinct := d.distinct.sublist (List.filter_sublist.map _)

/-- The dictionary without its first entries. -/
def drop (d : Dict κ ν) (count : Nat) : Dict κ ν where
  entries := d.entries.drop count
  distinct := d.distinct.sublist ((List.drop_sublist count _).map _)

@[simp] theorem get?_empty (k : κ) : (empty : Dict κ ν).get? k = none := rfl

theorem get?_set (d : Dict κ ν) (k k' : κ) (v : ν) :
    (d.set k v).get? k' = if k = k' then some v else d.get? k' := by
  obtain ⟨es, distinct⟩ := d
  simp only [get?, set]
  induction es with
  | nil => by_cases same : k = k' <;> simp [setEntries, same]
  | cons e es ih =>
    obtain ⟨k₀, v₀⟩ := e
    have tail := ih distinct.of_cons
    by_cases replaced : k₀ = k
    · by_cases same : k = k' <;> simp [setEntries, replaced, same]
    · by_cases found : k₀ = k'
      · subst found
        have other : k ≠ k₀ := fun h => replaced h.symm
        simp [setEntries, replaced, other]
      · simpa [setEntries, replaced, found] using tail

theorem mem_entries {d : Dict κ ν} {k : κ} {v : ν} : (k, v) ∈ d.entries ↔ d.get? k = some v := by
  obtain ⟨es, distinct⟩ := d
  simp only [get?]
  induction es with
  | nil => simp
  | cons e es ih =>
    obtain ⟨k₀, v₀⟩ := e
    have tail := ih distinct.of_cons
    have fresh : k₀ ∉ es.map Prod.fst := (List.nodup_cons.mp distinct).1
    by_cases found : k₀ = k
    · have absent : (k, v) ∉ es := fun member =>
        fresh (found ▸ List.mem_map_of_mem (f := Prod.fst) member)
      simp [found, absent, eq_comm]
    · have other : k ≠ k₀ := fun h => found h.symm
      simpa [found, other] using tail

/-- A new key goes to the end of a dictionary, behind all keys that are there. -/
theorem entries_set_of_fresh {d : Dict κ ν} {k : κ} (fresh : d.get? k = none) (v : ν) :
    (d.set k v).entries = d.entries ++ [(k, v)] := by
  obtain ⟨es, distinct⟩ := d
  simp only [get?, set] at fresh ⊢
  induction es with
  | nil => rfl
  | cons e es ih =>
    obtain ⟨k₀, v₀⟩ := e
    have other : k₀ ≠ k := by
      rintro rfl
      simp at fresh
    have tail := ih distinct.of_cons (by simpa [other] using fresh)
    simp [setEntries, other, tail]

/-- The value of a known key is replaced where it stands: what is before it and what is behind it
remain, and in particular the order of the keys. -/
theorem entries_set_of_known {d : Dict κ ν} {k : κ} {old : ν} (known : d.get? k = some old) (v : ν) :
    ∃ front back, d.entries = front ++ (k, old) :: back ∧
      (d.set k v).entries = front ++ (k, v) :: back := by
  obtain ⟨es, distinct⟩ := d
  simp only [get?, set] at known ⊢
  induction es with
  | nil => simp at known
  | cons e es ih =>
    obtain ⟨k₀, v₀⟩ := e
    by_cases here : k₀ = k
    · subst here
      obtain rfl : v₀ = old := by simpa using known
      exact ⟨[], es, rfl, by simp [setEntries]⟩
    · obtain ⟨front, back, same, after⟩ := ih distinct.of_cons (by simpa [here] using known)
      exact ⟨(k₀, v₀) :: front, back, by rw [same, List.cons_append],
        by rw [setEntries, if_neg here, after, List.cons_append]⟩

/-- Of several writes to a key the last one counts, and a key that is not written keeps its value. -/
theorem get?_setAll (d : Dict κ ν) (writes : List (κ × ν)) (k : κ) :
    (d.setAll writes).get? k =
      ((writes.reverse.find? (·.1 = k)).map Prod.snd).or (d.get? k) := by
  induction writes generalizing d with
  | nil => simp [setAll]
  | cons w writes ih =>
    have rest := ih (d.set w.1 w.2)
    rw [setAll, List.foldl_cons]
    rw [setAll] at rest
    rw [rest, get?_set, List.reverse_cons, List.find?_append]
    by_cases same : w.1 = k
    · cases writes.reverse.find? (·.1 = k) <;> simp [same]
    · cases writes.reverse.find? (·.1 = k) <;> simp [same]

theorem mem_of_setAll {writes : List (κ × ν)} {k : κ} {v : ν}
    (found : ((empty : Dict κ ν).setAll writes).get? k = some v) : (k, v) ∈ writes := by
  rw [get?_setAll, get?_empty, Option.or_none] at found
  obtain ⟨w, among, rfl⟩ := Option.map_eq_some_iff.mp found
  obtain rfl : w.1 = k := by simpa using List.find?_some among
  exact List.mem_reverse.mp (List.mem_of_find?_eq_some among)

theorem isSome_setAll {writes : List (κ × ν)} {k : κ} {v : ν} (member : (k, v) ∈ writes)
    (d : Dict κ ν) : ((d.setAll writes).get? k).isSome := by
  have some : (writes.reverse.find? (·.1 = k)).isSome := by
    rw [List.find?_isSome]
    exact ⟨(k, v), List.mem_reverse.mpr member, decide_eq_true rfl⟩
  obtain ⟨w, found⟩ := Option.isSome_iff_exists.mp some
  rw [get?_setAll, found]
  rfl

theorem isSome_get?_set {d : Dict κ ν} {k k' : κ} (v : ν) (known : (d.get? k').isSome) :
    ((d.set k v).get? k').isSome := by
  rw [get?_set]
  split
  · rfl
  · exact known

/-- Where the writes of a key agree, the dictionary that is made of the writes has exactly this
value under the key, whatever their order is. -/
theorem get?_setAll_empty {writes : List (κ × ν)} {k : κ}
    (single : ∀ v v', (k, v) ∈ writes → (k, v') ∈ writes → v = v') (v : ν) :
    ((empty : Dict κ ν).setAll writes).get? k = some v ↔ (k, v) ∈ writes := by
  rw [get?_setAll, get?_empty, Option.or_none, Option.map_eq_some_iff]
  constructor
  · rintro ⟨w, found, rfl⟩
    have key : w.1 = k := by simpa using List.find?_some found
    exact key ▸ List.mem_reverse.mp (List.mem_of_find?_eq_some found)
  · intro member
    cases found : writes.reverse.find? (·.1 = k) with
    | none =>
      have absent := List.find?_eq_none.mp found (k, v) (List.mem_reverse.mpr member)
      exact absurd (decide_eq_true rfl) absent
    | some w =>
      have key : w.1 = k := by simpa using List.find?_some found
      have among := List.mem_reverse.mp (List.mem_of_find?_eq_some found)
      exact ⟨w, rfl, single _ _ (key ▸ among) member⟩

end Dict

end RedactGate.Library
