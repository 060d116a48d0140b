import Mathlib.Data.List.Induction
import Mathlib.Data.List.Basic

/-!
# Hash chains

Entries that each carry the hash of the one before. Where the linking function is
injective and never returns the anchor, the last hash of a chain determines the whole
chain.
-/
namespace RedactGate.Library

structure ChainEntry (Payload Hash : Type) where
  payload : Payload
  prev : Hash
  hash : Hash
  deriving DecidableEq

namespace HashChain

variable {Payload Hash : Type}

/-- The hash that the next entry links to. -/
def lastHash (anchor : Hash) (entries : List (ChainEntry Payload Hash)) : Hash :=
  (entries.getLast?.map ChainEntry.hash).getD anchor

@[simp] theorem lastHash_nil (anchor : Hash) :
    lastHash anchor ([] : List (ChainEntry Payload Hash)) = anchor := rfl

@[simp] theorem lastHash_append (anchor : Hash) (entries : List (ChainEntry Payload Hash))
    (entry : ChainEntry Payload Hash) : lastHash anchor (entries ++ [entry]) = entry.hash := by
  simp [lastHash]

theorem lastHash_cons (anchor : Hash) (entry : ChainEntry Payload Hash)
    (rest : List (ChainEntry Payload Hash)) :
    lastHash anchor (entry :: rest) = lastHash entry.hash rest := by
  rcases List.eq_nil_or_concat' rest with rfl | ⟨init, last, rfl⟩
  · rfl
  · rw [← List.cons_append, lastHash_append, lastHash_append]

variable (link : Hash → Payload → Hash)

def append (anchor : Hash) (entries : List (ChainEntry Payload Hash)) (payload : Payload) :
    List (ChainEntry Payload Hash) :=
  entries ++ [⟨payload, lastHash anchor entries, link (lastHash anchor entries) payload⟩]

/-- The chain of a list of payloads. -/
def build (anchor : Hash) (payloads : List Payload) : List (ChainEntry Payload Hash) :=
  payloads.foldl (append link anchor) []

variable [DecidableEq Hash]

/-- Recompute a chain from the hash before it on: each entry has to name the hash of the entry
before it and to carry its own. -/
def verify (prev : Hash) : List (ChainEntry Payload Hash) → Bool
  | [] => true
  | entry :: rest =>
    if entry.prev ≠ prev then false
    else if entry.hash ≠ link prev entry.payload then false
    else verify entry.hash rest

/-- A chain with one more entry verifies if and only if the chain does and the entry links to its
last hash. -/
theorem verify_append {prev : Hash} {entries : List (ChainEntry Payload Hash)}
    {entry : ChainEntry Payload Hash} : verify link prev (entries ++ [entry]) = true ↔
      verify link prev entries = true ∧ entry.prev = lastHash prev entries ∧
        entry.hash = link (lastHash prev entries) entry.payload := by
  induction entries generalizing prev with
  | nil => simp [verify]
  | cons first rest ih =>
    rw [List.cons_append, verify, verify, lastHash_cons]
    split
    · simp
    · split
      · simp
      · exact ih

theorem verify_front {prev : Hash} {front back : List (ChainEntry Payload Hash)}
    (verified : verify link prev (front ++ back) = true) : verify link prev front = true := by
  induction front generalizing prev with
  | nil => rfl
  | cons first rest ih =>
    rw [List.cons_append, verify] at verified
    rw [verify]
    split at verified
    · cases verified
    next linked =>
      split at verified
      · cases verified
      next hashed =>
        rw [if_neg linked, if_neg hashed]
        exact ih verified

theorem verify_build (anchor : Hash) (payloads : List Payload) :
    verify link anchor (build link anchor payloads) = true := by
  induction payloads using List.reverseRecOn with
  | nil => rfl
  | append_singleton payloads payload ih =>
    rw [build, List.foldl_append]
    exact (verify_append link).mpr ⟨ih, rfl, rfl⟩

/-- What the linking function must satisfy, on the hashes that occur in chains: it is injective
there, and never gives the anchor. -/
structure Binding (anchor : Hash) (genuine : Hash → Prop) : Prop where
  genuine_anchor : genuine anchor
  genuine_link : ∀ prev payload, genuine (link prev payload)
  injective : ∀ {prev prev' payload payload'}, genuine prev → genuine prev' →
    link prev payload = link prev' payload' → prev = prev' ∧ payload = payload'
  fresh : ∀ prev payload, link prev payload ≠ anchor

variable {link} {anchor : Hash} {genuine : Hash → Prop}

theorem Binding.genuine_lastHash (binding : Binding link anchor genuine)
    {entries : List (ChainEntry Payload Hash)} (verified : verify link anchor entries = true) :
    genuine (lastHash anchor entries) := by
  rcases List.eq_nil_or_concat' entries with rfl | ⟨init, last, rfl⟩
  · exact binding.genuine_anchor
  · obtain ⟨_, _, hash⟩ := (verify_append link).mp verified
    rw [lastHash_append, hash]
    exact binding.genuine_link _ _

/-- The last hash of a verified chain determines the whole chain, by induction from its end, if the
links bind: no two genuine links have one hash, and none has the anchor's. -/
theorem Binding.eq_of_lastHash_eq (binding : Binding link anchor genuine)
    {entries entries' : List (ChainEntry Payload Hash)}
    (verified : verify link anchor entries = true) (verified' : verify link anchor entries' = true)
    (same : lastHash anchor entries = lastHash anchor entries') : entries = entries' := by
  -- from the end: equal hashes give equal payloads and equal hashes before them
  induction entries using List.reverseRecOn generalizing entries' with
  | nil =>
    rcases List.eq_nil_or_concat' entries' with rfl | ⟨init, last, rfl⟩
    · rfl
    · obtain ⟨_, _, hash⟩ := (verify_append link).mp verified'
      rw [lastHash_append, hash, lastHash_nil] at same
      -- no entry has the hash that a chain starts from
      exact absurd same.symm (binding.fresh _ _)
  | append_singleton init last ih =>
    obtain ⟨before, prev, hash⟩ := (verify_append link).mp verified
    rcases List.eq_nil_or_concat' entries' with rfl | ⟨init', last', rfl⟩
    · rw [lastHash_append, hash, lastHash_nil] at same
      exact absurd same (binding.fresh _ _)
    · obtain ⟨before', prev', hash'⟩ := (verify_append link).mp verified'
      rw [lastHash_append, lastHash_append] at same
      obtain ⟨last_eq, payload⟩ := binding.injective (binding.genuine_lastHash before)
        (binding.genuine_lastHash before') (hash.symm.trans (same.trans hash'))
      have init_eq := ih before before' last_eq
      have entry_eq : last = last' := by
        obtain ⟨_, _, _⟩ := last
        obtain ⟨_, _, _⟩ := last'
        simp only [ChainEntry.mk.injEq] at prev prev' payload same ⊢
        exact ⟨payload, by rw [prev, prev', init_eq], same⟩
      rw [init_eq, entry_eq]

/-- A verified chain whose last hash is the hash of some entry of another verified chain is a prefix
of that chain. -/
theorem Binding.prefix_of_mem (binding : Binding link anchor genuine)
    {entries recorded : List (ChainEntry Payload Hash)}
    (verified : verify link anchor entries = true) (verified' : verify link anchor recorded = true)
    (known : entries = [] ∨ ∃ e ∈ recorded, lastHash anchor entries = e.hash) :
    entries <+: recorded := by
  rcases known with rfl | ⟨e, member, same⟩
  · exact List.nil_prefix
  · obtain ⟨before, after, rfl⟩ := List.append_of_mem member
    have upTo : before ++ [e] <+: before ++ e :: after := ⟨after, by simp⟩
    have whole : verify link anchor ((before ++ [e]) ++ after) = true := by simpa using verified'
    rw [binding.eq_of_lastHash_eq verified (verify_front link whole)
      (same.trans (lastHash_append anchor before e).symm)]
    exact upTo

end HashChain

end RedactGate.Library
