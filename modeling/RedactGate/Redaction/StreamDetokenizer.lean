import RedactGate.Redaction.Refinement

/-!
# Stream-safe re-inflation

The buffer keeps back a tail that may still grow into a placeholder. Where it is
cut, no placeholder that the session can resolve is divided, so what has been
emitted and what is still buffered substitute to the substitution of the whole.
-/
namespace RedactGate

open Library

/-- A stream of a session, in live mode (`resolved = none`) or with a prepared snapshot, and what it
holds back. -/
structure StreamDetokenizer where
  sessionId : Text
  resolved : Option (Dict Text Text)
  buffer : Text

namespace Vault

variable (vault : Vault)

def streamDetokenizer (sessionId : Text) : StreamDetokenizer := ⟨sessionId, none, []⟩

def streamDetokenizerPrepared (store : InMemoryTokenStore) (sessionId : Text) :
    Option StreamDetokenizer :=
  (vault.resolutionMap store sessionId).map fun resolved => ⟨sessionId, some resolved, []⟩

end Vault

namespace StreamDetokenizer

variable (vault : Vault) (store : InMemoryTokenStore)

def resolve (sd : StreamDetokenizer) (text : Text) : Option Text :=
  match sd.resolved with
  | none => vault.detokenize store text sd.sessionId
  | some resolved =>
    if ['[', '['] <:+: text then
      some (rewriteMatches text (fun p => some ((resolved.get? p).getD p)) 0
        (placeholderRe.finditer text))
    else some text

/-- `_hold_len`, of the current buffer. -/
def holdLen (buffer : Text) : Nat := min (trailingPartialLen buffer) maxPlaceholderLen

def push (sd : StreamDetokenizer) (chunk : Text) : Option (Text × StreamDetokenizer) :=
  let sd := { sd with buffer := sd.buffer ++ chunk }
  let hold := holdLen sd.buffer
  if sd.buffer.length ≤ hold then some ([], sd)
  else
    let cut := sd.buffer.length - hold
    let emitSrc := if hold = 0 then sd.buffer else sd.buffer.take cut
    let sd' := { sd with buffer := if hold = 0 then [] else sd.buffer.drop cut }
    (sd'.resolve vault store emitSrc).map (·, sd')

def flush (sd : StreamDetokenizer) : Option (Text × StreamDetokenizer) :=
  if sd.buffer.isEmpty then some ([], sd)
  else (sd.resolve vault store sd.buffer).map (·, { sd with buffer := [] })

/-- What a list of pushes returns, joined into one text, with the detokenizer after them; none if a
push raises. -/
def pushAll (sd : StreamDetokenizer) : List Text → Option (Text × StreamDetokenizer)
  | [] => some ([], sd)
  | chunk :: chunks => do
    let (out, sd) ← sd.push vault store chunk
    let (rest, sd) ← sd.pushAll chunks
    return (out ++ rest, sd)

/-- The pushes of all chunks followed by the flush, with what they return joined into one text. -/
def stream (sd : StreamDetokenizer) (chunks : List Text) : Option Text := do
  let (out, sd) ← sd.pushAll vault store chunks
  let (rest, _) ← sd.flush vault store
  return out ++ rest

variable {vault store}

/-! ## Where the buffer is cut -/

def cutAt (buffer : Text) : Nat := buffer.length - holdLen buffer

theorem length_drop_cutAt (buffer : Text) :
    (buffer.drop (cutAt buffer)).length = holdLen buffer := by
  have few := trailingPartialLen_le buffer
  rw [List.length_drop, cutAt, holdLen]
  omega

/-- The buffer is never cut inside a placeholder that can be resolved, whatever
follows it: a placeholder inside the buffer ends before the held tail, and one that
reaches beyond the buffer is held from its start. -/
theorem uncut_cutAt (buffer : Text) {g : Text → Option Text}
    (short : ∀ p, (g p).isSome → p.length ≤ maxPlaceholderLen) (future : Text) :
    Uncut placeholderAt g (buffer.take (cutAt buffer)) (buffer.drop (cutAt buffer) ++ future) := by
  intro i hi k known
  rw [← List.append_assoc, List.take_append_drop] at known
  rw [List.length_take, cutAt] at hi ⊢
  have inside : i < buffer.length := by omega
  obtain ⟨p, rest, here, rfl, placeholder⟩ := placeholderAt_spec known.1
  have bound : p.length ≤ maxPlaceholderLen := by
    have resolved := known.2
    rw [here, List.take_left] at resolved
    exact short p resolved
  rw [List.drop_append_of_le_length (Nat.le_of_lt inside)] at here
  have tail_le := trailingPartialLen_le buffer
  rw [holdLen] at hi ⊢
  rcases List.append_eq_append_iff.mp here with ⟨v, rfl, rest_eq⟩ | ⟨w, within, _⟩
  · -- the buffer's tail is the beginning of `p`
    by_cases complete : v = []
    · subst complete
      rw [List.append_nil] at placeholder ⊢
      have before := placeholder.before_tail (List.append_nil _).symm
      omega
    · have held := placeholder.held complete inside rfl
      have longer : (buffer.drop i).length < (buffer.drop i ++ v).length := by
        rw [List.length_append]
        have pos := List.length_pos_iff.mpr complete
        omega
      rw [List.length_drop] at longer
      omega
  · have before := placeholder.before_tail within
    omega

/-- The stream resolves texts by substitution with `g`, whatever its buffer holds, and never raises. -/
def Substitutes (vault : Vault) (store : InMemoryTokenStore) (sd : StreamDetokenizer)
    (g : Text → Option Text) : Prop :=
  ∀ text buffer, ({ sd with buffer := buffer } : StreamDetokenizer).resolve vault store text =
    some (substitute placeholderAt g text)

/-- One push emits the substitution of what it cuts off from the buffer with the new chunk, and it
keeps the rest in the buffer. -/
theorem push_eq {sd : StreamDetokenizer} {g : Text → Option Text}
    (resolves : Substitutes vault store sd g) (chunk : Text) :
    let buffer := sd.buffer ++ chunk
    sd.push vault store chunk = some (substitute placeholderAt g (buffer.take (cutAt buffer)),
      { sd with buffer := buffer.drop (cutAt buffer) }) := by
  dsimp only [push, cutAt]
  generalize sd.buffer ++ chunk = buffer
  generalize holdLen buffer = hold
  by_cases all : buffer.length ≤ hold
  · have none : buffer.length - hold = 0 := by omega
    simp [all, none]
  · by_cases zero : hold = 0
    · have kept := resolves buffer []
      have nonempty : buffer ≠ [] := by
        rintro rfl
        exact all (Nat.zero_le _)
      simp [zero, nonempty, kept]
    · have kept :=
        resolves (buffer.take (buffer.length - hold)) (buffer.drop (buffer.length - hold))
      simp [all, zero, kept]

/-- The run lemma: after any pushes the emitted text, with the substitution of the
buffer and of what is still to come, is the substitution of the whole text. -/
theorem pushAll_eq {g : Text → Option Text}
    (short : ∀ p, (g p).isSome → p.length ≤ maxPlaceholderLen) (chunks : List Text) :
    ∀ {sd : StreamDetokenizer}, Substitutes vault store sd g →
      sd.buffer.length ≤ maxPlaceholderLen →
      ∃ out buffer, sd.pushAll vault store chunks = some (out, { sd with buffer := buffer }) ∧
        buffer.length ≤ maxPlaceholderLen ∧
        out ++ substitute placeholderAt g buffer =
          substitute placeholderAt g (sd.buffer ++ chunks.flatten) := by
  induction chunks with
  | nil => exact fun _ small => ⟨[], _, rfl, small, by simp⟩
  | cons chunk chunks ih =>
    intro sd resolves _
    have pushed := push_eq resolves chunk
    -- no known placeholder crosses the cut, whatever is pushed later
    have uncut := uncut_cutAt (sd.buffer ++ chunk) short chunks.flatten
    have kept := length_drop_cutAt (sd.buffer ++ chunk)
    dsimp only at pushed
    generalize cutAt (sd.buffer ++ chunk) = cut at pushed uncut kept
    have small : ((sd.buffer ++ chunk).drop cut).length ≤ maxPlaceholderLen :=
      kept ▸ Nat.min_le_right _ _
    have resolves' : Substitutes vault store
        { sd with buffer := (sd.buffer ++ chunk).drop cut } g := resolves
    obtain ⟨out, buffer, rest, small', joined⟩ := ih resolves' small
    refine ⟨substitute placeholderAt g ((sd.buffer ++ chunk).take cut) ++ out, buffer,
      by rw [pushAll, pushed]; simp [rest], small', ?_⟩
    have whole := substitute_append placeholderAt_laws _ _ uncut
    rw [← List.append_assoc, List.take_append_drop] at whole
    rw [List.append_assoc, joined, ← whole, List.flatten_cons, List.append_assoc]

/-- The chunks of a text stream to its substitution, wherever it is cut, if no placeholder that
resolves is longer than the buffer's limit. -/
theorem stream_eq {g : Text → Option Text}
    (short : ∀ p, (g p).isSome → p.length ≤ maxPlaceholderLen) {sd : StreamDetokenizer}
    (resolves : Substitutes vault store sd g) (fresh : sd.buffer = []) (chunks : List Text) :
    sd.stream vault store chunks = some (substitute placeholderAt g chunks.flatten) := by
  obtain ⟨out, buffer, pushed, _, joined⟩ :=
    pushAll_eq short chunks resolves (by rw [fresh]; exact Nat.zero_le _)
  rw [fresh, List.nil_append] at joined
  have resolved := resolves buffer buffer
  rw [stream, pushed, ← joined]
  simp only [Option.bind_eq_bind, Option.bind_some, flush]
  split
  next empty => simp [List.isEmpty_iff.mp empty]
  next => simp [resolved]

/-! ## Both modes substitute what the ledger resolves -/

variable {issues : List Issue}

theorem live_substitutes (rep : Represents vault issues store) (sessionId : Text) :
    Substitutes vault store (Vault.streamDetokenizer sessionId)
      (Ledger.resolve issues sessionId) := by
  intro text buffer
  simp only [Vault.streamDetokenizer, resolve]
  exact detokenize_refines rep text sessionId

/-- A prepared detokenizer substitutes by the snapshot of its session, whatever store there is
later. -/
theorem prepared_substitutes (rep : Represents vault issues store) (sessionId : Text) :
    ∃ sd, vault.streamDetokenizerPrepared store sessionId = some sd ∧ sd.buffer = [] ∧
      ∀ later, Substitutes vault later sd (Ledger.resolve issues sessionId) := by
  obtain ⟨resolved, mapped, same⟩ := resolutionMap_refines rep sessionId
  refine ⟨⟨sessionId, some resolved, []⟩, by rw [Vault.streamDetokenizerPrepared, mapped]; rfl, rfl,
    fun later text buffer => ?_⟩
  simp only [resolve]
  split
  next =>
    rw [rewriteMatches_placeholders, substitute_getD placeholderAt_laws, funext same]
  next none => rw [substitute_without_brackets none]

end StreamDetokenizer

end RedactGate
