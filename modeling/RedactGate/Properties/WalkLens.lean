import RedactGate.Schemas.OpenAI

/-!
# The text walk as a lens

`extractTexts` reads the texts of a payload and `injectTexts` writes them. A payload is
rebuilt from its own texts, what was written is read back, a second write hides the
first, and a write changes nothing but the strings the walk visits.
-/
namespace RedactGate

open Library Library.Json

/-- The laws of the walk, for every payload that it goes over without raising and whatever strings
are written: what was read may be written again, as many strings are taken as were read, what was
written is read back, the last writing wins, and nothing changes but strings at the places that are
visited. -/
theorem walk_lens {payload : Fields} {texts : List Text}
    (walks : extractTexts payload = .ok texts) :
    injectTexts payload texts = .ok payload ∧
    (∀ new, (∃ error, injectTexts payload new = .error error) ↔ new.length ≠ texts.length) ∧
    ∀ new, new.length = texts.length → ∃ out, injectTexts payload new = .ok out ∧
      extractTexts out = .ok new ∧
      (∀ newer, injectTexts out newer = injectTexts payload newer) ∧
      ∀ p, (Json.obj out).shapeAt p ≠ (Json.obj payload).shapeAt p →
        p ∈ (mapTexts payload).paths ∧
        (∃ text, (Json.obj payload).at? p = some (.str text)) ∧
        ∃ text, (Json.obj out).at? p = some (.str text) := by
  obtain ⟨goes, rfl⟩ := goes_of_extractTexts walks
  refine ⟨?_, fun new => ?_, fun new length => ?_⟩
  · rw [injectTexts_eq goes rfl, mapTexts_rebuilds goes]
  · rw [injectTexts_of_goes goes]
    by_cases length : new.length = (mapTexts payload).texts.length <;> simp [length]
  have written : injectTexts payload new = .ok ((mapTexts payload).fill new) :=
    injectTexts_eq goes length
  refine ⟨_, written, extractTexts_injectTexts written, injectTexts_injectTexts written,
    fun p differs => ?_⟩
  -- the frame lemma: a path the walk does not visit keeps its shape
  have visited : p ∈ (mapTexts payload).paths := by
    by_contra outside
    exact differs (mapTexts_frame goes outside new)
  obtain ⟨text, called⟩ := Walk.mem_paths.mp visited
  exact ⟨visited, ⟨text, mapTexts_sound called⟩, at?_fill goes length visited⟩

/-- A payload with a message that has a string and one that has a list of parts, the second of which
is an image. -/
def twoMessages : Fields :=
  [("messages".toList, .arr [
    .obj [("role".toList, .str "system".toList), ("content".toList, .str "be brief".toList)],
    .obj [("content".toList, .arr [
      .obj [("type".toList, .str "text".toList), ("text".toList, .str "call Ann".toList)],
      .obj [("type".toList, .str "image_url".toList)]])]])]

theorem walk_lens_twoMessages :
    injectTexts twoMessages ["be brief".toList, "call Ann".toList] = .ok twoMessages ∧
    ∃ out, injectTexts twoMessages ["be brief".toList, "call [A]".toList] = .ok out ∧
      extractTexts out = .ok ["be brief".toList, "call [A]".toList] := by
  have walks : extractTexts twoMessages = .ok ["be brief".toList, "call Ann".toList] := by
    decide
  obtain ⟨rebuilt, _, written⟩ := walk_lens walks
  obtain ⟨out, done, read, _⟩ := written ["be brief".toList, "call [A]".toList] (by simp)
  exact ⟨rebuilt, out, done, read⟩

end RedactGate
