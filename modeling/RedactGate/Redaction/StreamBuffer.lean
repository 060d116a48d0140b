import RedactGate.Redaction.StreamDetokenizer
import Mathlib.Data.List.Induction

/-!
# What a stream holds back

The buffer after any pushes, told from the text received so far. A tail of up to
`maxPlaceholderLen` characters is held whole. A longer one cannot become a placeholder
any more: its end is held once, and given out by the next push.
-/
namespace RedactGate

open Library

namespace StreamDetokenizer

/-- The buffer after a push; the route pushes no empty delta. -/
def pushBuffer (buffer chunk : Text) : Text :=
  if chunk.isEmpty then buffer else (buffer ++ chunk).drop (cutAt (buffer ++ chunk))

/-- The length of the last chunk that is not empty. -/
def lastLength (chunks : List Text) : Nat :=
  ((chunks.filter fun chunk => !chunk.isEmpty).getLastD []).length

/-- Some of the received text is still held back after its last chunk. -/
def HeldBack (chunks : List Text) : Prop :=
  0 < trailingPartialLen chunks.flatten ∧
    trailingPartialLen chunks.flatten ≤ maxPlaceholderLen + lastLength chunks

/-- The invariant of the buffer: it holds the end of what was received, no more than the limit, and
the whole tail if this fits. -/
structure Keeps (received buffer : Text) : Prop where
  suffix : buffer <:+ received
  few : buffer.length ≤ maxPlaceholderLen
  whole : trailingPartialLen received ≤ maxPlaceholderLen →
    buffer.length = trailingPartialLen received

/-- The tail of the end of a text is the tail of the whole text if that begins inside it. If it
begins before, then the end has no tail, or there are brackets only. -/
theorem trailingPartialLen_of_suffix (before : Text) {text : Text} (some : text ≠ []) :
    (trailingPartialLen (before ++ text) ≤ text.length →
        trailingPartialLen text = trailingPartialLen (before ++ text)) ∧
      (text.length < trailingPartialLen (before ++ text) →
        trailingPartialLen text = 0 ∨ trailingPartialLen (before ++ text) ≤ 3) := by
  have few := trailingPartialLen_le text
  have all := trailingPartialLen_le (before ++ text)
  have pos := List.length_pos_iff.mpr some
  have tail := isPartial_trailing text
  have tail' := isPartial_trailing (before ++ text)
  have longest := @le_trailingPartialLen text
  have longest' := @le_trailingPartialLen (before ++ text)
  generalize trailingPartialLen text = k at *
  generalize trailingPartialLen (before ++ text) = n at *
  rw [List.length_append] at all tail' longest'
  -- a tail of the end is a tail of the text
  have up : k ≤ n := by
    by_cases zero : k = 0
    · omega
    have found := longest' (i := before.length + (text.length - k)) (by omega)
      (by rw [List.drop_length_add_append]; exact tail (by omega))
    omega
  constructor
  · intro inside
    by_cases zero : n = 0
    · omega
    have offset : before.length + text.length - n = before.length + (text.length - n) := by omega
    rw [offset, List.drop_length_add_append] at tail'
    have found := longest (i := text.length - n) (by omega) (tail' (by omega))
    omega
  · intro outside
    by_cases zero : k = 0
    · exact .inl zero
    right
    have inner :
        IsPartial (((before ++ text).drop (before.length + text.length - n)).drop (n - k)) := by
      have offset : before.length + text.length - n + (n - k) =
          before.length + (text.length - k) := by omega
      rw [List.drop_drop, offset, List.drop_length_add_append]
      exact tail (by omega)
    have short := (tail' (by omega)).length_le_of_drop inner (by omega)
    rw [List.length_drop, List.length_append] at short
    omega

/-- A tail that is longer than the last chunk has grown from the tail of the text so far, unless
that consists of brackets only. -/
theorem trailingPartialLen_of_append {text chunk : Text}
    (longer : chunk.length < trailingPartialLen (text ++ chunk)) :
    trailingPartialLen (text ++ chunk) - chunk.length ≤ trailingPartialLen text ∧
      (trailingPartialLen text = trailingPartialLen (text ++ chunk) - chunk.length ∨
        trailingPartialLen text ≤ 3) := by
  have few := trailingPartialLen_le text
  have all := trailingPartialLen_le (text ++ chunk)
  have tail := isPartial_trailing text
  have tail' := isPartial_trailing (text ++ chunk)
  have longest := @le_trailingPartialLen text
  generalize trailingPartialLen text = k at *
  generalize trailingPartialLen (text ++ chunk) = n at *
  rw [List.length_append] at all tail'
  -- without the chunk, what is left of the longer tail is a partial one of the shorter text
  have grown : IsPartial (text.drop (text.length + chunk.length - n)) := by
    have whole := tail' (by omega)
    rw [List.drop_append_of_le_length (by omega)] at whole
    refine whole.of_append ?_
    rw [Ne, List.drop_eq_nil_iff]
    omega
  have least := longest (by omega) grown
  refine ⟨by omega, ?_⟩
  by_cases same : k = n - chunk.length
  · exact .inl same
  right
  have offset : text.length - k + (k - (n - chunk.length)) = text.length + chunk.length - n := by
    omega
  -- one partial tail inside another: brackets only, so at most three of them
  have inner : IsPartial ((text.drop (text.length - k)).drop (k - (n - chunk.length))) := by
    rwa [List.drop_drop, offset]
  have short := (tail (by omega)).length_le_of_drop inner (by omega)
  rw [List.length_drop] at short
  omega

/-- The step lemma: a push keeps the invariant, and empties the buffer unless the text
ends in a tail that the pushed chunk may still complete. -/
theorem Keeps.push {received buffer chunk : Text} (keeps : Keeps received buffer)
    (some : chunk ≠ []) :
    Keeps (received ++ chunk) (pushBuffer buffer chunk) ∧
      (pushBuffer buffer chunk = [] ↔ trailingPartialLen (received ++ chunk) = 0 ∨
        maxPlaceholderLen + chunk.length < trailingPartialLen (received ++ chunk)) := by
  obtain ⟨⟨before, rfl⟩, few, whole⟩ := keeps
  have pushed : pushBuffer buffer chunk = (buffer ++ chunk).drop (cutAt (buffer ++ chunk)) := by
    rw [pushBuffer, if_neg (by simpa using some)]
  have len := length_drop_cutAt (buffer ++ chunk)
  rw [← pushed, holdLen] at len
  have nonempty : buffer ++ chunk ≠ [] := by simp [some]
  have pos := List.length_pos_iff.mpr some
  obtain ⟨inside, outside⟩ := trailingPartialLen_of_suffix before nonempty
  have grown := @trailingPartialLen_of_append (before ++ buffer) chunk
  rw [← List.append_assoc, List.length_append] at inside outside
  have suffix : pushBuffer buffer chunk <:+ before ++ buffer ++ chunk := by
    rw [pushed, List.append_assoc]
    exact (List.drop_suffix _ _).trans (List.suffix_append _ _)
  have bound : maxPlaceholderLen = 64 := rfl
  -- the tail is in the buffer, or its beginning was given up for being too long
  have few' : (pushBuffer buffer chunk).length ≤ maxPlaceholderLen := by omega
  have whole' : trailingPartialLen (before ++ buffer ++ chunk) ≤ maxPlaceholderLen →
      (pushBuffer buffer chunk).length = trailingPartialLen (before ++ buffer ++ chunk) := by
    omega
  refine ⟨⟨suffix, few', whole'⟩, ?_⟩
  rw [← List.length_eq_zero_iff]
  omega

/-- After some pushes the buffer holds the tail of the text so far, by induction on the chunks, and
it is empty if and only if nothing is held back. -/
theorem foldl_pushBuffer (chunks : List Text) :
    Keeps chunks.flatten (chunks.foldl pushBuffer []) ∧
      (chunks.foldl pushBuffer [] = [] ↔ ¬HeldBack chunks) := by
  induction chunks using List.reverseRecOn with
  | nil =>
    exact ⟨⟨List.suffix_rfl, Nat.zero_le _, fun _ => rfl⟩, by simp [HeldBack, trailingPartialLen]⟩
  | append_singleton chunks chunk ih =>
    rw [List.foldl_append, List.foldl_cons, List.foldl_nil, List.flatten_append,
      List.flatten_singleton]
    by_cases empty : chunk = []
    · subst empty
      have same : HeldBack (chunks ++ [[]]) ↔ HeldBack chunks := by simp [HeldBack, lastLength]
      rw [same, List.append_nil]
      exact ih
    · obtain ⟨keeps, empty_iff⟩ := ih.1.push empty
      refine ⟨keeps, empty_iff.trans ?_⟩
      have last : lastLength (chunks ++ [chunk]) = chunk.length := by
        simp [lastLength, empty, List.filter_append]
      rw [HeldBack, last, List.flatten_append, List.flatten_singleton]
      omega

/-- What is held back contains no whole placeholder, so that substituting in it changes nothing. -/
theorem substitute_drop_cutAt (g : Text → Option Text) (buffer : Text) :
    substitute placeholderAt g (buffer.drop (cutAt buffer)) = buffer.drop (cutAt buffer) := by
  refine substitute_eq_self fun i k known => ?_
  obtain ⟨p, rest, here, rfl, placeholder⟩ := placeholderAt_spec known.1
  rw [List.drop_drop] at here
  have before := placeholder.before_tail here
  obtain ⟨body, rfl, _⟩ := placeholder.shape
  have held := length_drop_cutAt buffer
  rw [List.length_drop] at held
  rw [cutAt, holdLen] at before held
  simp only [List.length_cons] at before
  omega

theorem substitute_foldl_pushBuffer (g : Text → Option Text) (chunks : List Text) :
    substitute placeholderAt g (chunks.foldl pushBuffer []) = chunks.foldl pushBuffer [] := by
  induction chunks using List.reverseRecOn with
  | nil => exact substitute_nil
  | append_singleton chunks chunk ih =>
    rw [List.foldl_append, List.foldl_cons, List.foldl_nil, pushBuffer]
    split
    · exact ih
    · exact substitute_drop_cutAt g _

end StreamDetokenizer

end RedactGate
