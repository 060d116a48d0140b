import RedactGate.Desktop.Batches
import RedactGate.Desktop.RecordedDocuments

/-!
# Text files

The handler of plain text: one unit, from the bytes of the file to bytes in the same code.
Anonymizing and restoring such a file is what the engine does with its text.
-/
namespace RedactGate.Desktop

open Library

namespace TextHandler

/-- `units`: the whole text is one unit, with no category forced on it; data that cannot be decoded
raise. -/
def units (data : Bytes) : Except FileError (List TextUnit) :=
  match decodeText data with
  | some (text, _, _) => .ok [⟨text, none⟩]
  | none => .error unicodeDecodeError

/-- `rewrite`: the text is asked for as one unit and encoded again as it was found, with the mark it
had. -/
def rewrite (data : Bytes) : Rewriting :=
  match decodeText data with
  | some (text, codec, bom) => .ask text none fun reps =>
      .done (encodeText (applyReplacements text (reps.map Replacement.toEdit)) codec bom)
  | none => .fail unicodeDecodeError

theorem fails_of_units {data : Bytes} {error : FileError} (failed : units data = .error error) :
    (rewrite data).Fails := by
  rw [units] at failed
  rw [rewrite]
  split at failed
  · cases failed
  · exact .fail _

end TextHandler

/-- `handler_for`: the handler of plain text beside those of the other kinds, which remain as they
are given. -/
def textHandlers (others : Handlers) : Handlers where
  units kind name data :=
    if kind = .text then TextHandler.units data else others.units kind name data
  rewrite kind name data :=
    if kind = .text then TextHandler.rewrite data else others.rewrite kind name data
  fails_of_units kind name data error failed := by
    split at failed
    · next text =>
      rw [if_pos text]
      exact TextHandler.fails_of_units failed
    · next other =>
      rw [if_neg other]
      exact others.fails_of_units kind name data error failed

/-- Handlers of no other kind. -/
def noHandlers : Handlers where
  units _ _ _ := .error .unsupported
  rewrite _ _ _ := .fail .unsupported
  fails_of_units _ _ _ _ _ := .fail _

/-! ## The copy is read again -/

/-- The codes of Unicode. -/
def Codec.unicode : Codec → Bool
  | .utf8 | .utf16 => true
  | .cp1251 | .cp1252 | .latin1 => false

/-- A text that does not begin with a byte order mark is written in UTF-8 without one, of either
encoding. -/
theorem unmarked_utf8 {text : Text} (unmarked : text.head? ≠ some '\uFEFF') :
    ¬utf8Mark <+: utf8 text ∧ ¬([0xFF, 0xFE] <+: utf8 text ∨ [0xFE, 0xFF] <+: utf8 text) := by
  refine ⟨fun ⟨rest, same⟩ => ?_, ?_⟩
  · have mark : utf8Mark = String.utf8EncodeChar '\uFEFF' := by decide
    rw [mark] at same
    exact unmarked (head?_of_utf8 same.symm)
  -- neither byte of a mark of UTF-16 begins a character
  · rintro (⟨rest, same⟩ | ⟨rest, same⟩)
    · exact absurd (isUTF8FirstByte_of_utf8 same.symm) (by decide)
    · exact absurd (isUTF8FirstByte_of_utf8 same.symm) (by decide)

/-- A text in the code of a file is read in that code again, if it does not begin with what is
taken for a mark. -/
theorem decodeText_encodeText {data : Bytes} {text : Text} {codec : Codec} {bom : Bytes}
    (decoded : decodeText data = some (text, codec, bom)) (unicode : codec.unicode = true)
    {copy : Text} (unmarked : copy.head? ≠ some '\uFEFF') :
    decodeText (encodeText copy codec bom) = some (copy, codec, bom) := by
  have utf8_eq : encodeText copy .utf8 bom = bom ++ utf8 copy := rfl
  rw [decodeText] at decoded
  split at decoded
  -- UTF-8 with a mark, which is written again
  · next marked =>
    obtain ⟨_, _, same⟩ := Option.map_eq_some_iff.mp decoded
    obtain ⟨_, rfl, rfl⟩ := same
    obtain ⟨rest, rfl⟩ := marked
    have mark : (utf8Mark ++ rest).take 3 = utf8Mark := rfl
    have behind : (utf8Mark ++ utf8 copy).drop 3 = utf8 copy := rfl
    have kept : (utf8Mark ++ utf8 copy).take 3 = utf8Mark := rfl
    rw [utf8_eq, mark, decodeText, if_pos (List.prefix_append _ _), behind, kept, Codec.decode,
      utf8Decode_utf8, Option.map_some]
  · split at decoded
    · obtain ⟨_, _, same⟩ := Option.map_eq_some_iff.mp decoded
      obtain ⟨_, rfl, rfl⟩ := same
      have utf16_eq : encodeText copy .utf16 [] = utf16 copy := rfl
      have marked : [0xFF, 0xFE] <+: utf16 copy := ⟨_, rfl⟩
      have other : ¬utf8Mark <+: utf16 copy := fun ⟨rest, same⟩ => by cases same
      rw [utf16_eq, decodeText, if_neg other, if_pos (.inl marked), Codec.decode,
        utf16Decode_utf16, Option.map_some]
    · obtain ⟨_, among, tried⟩ := List.exists_of_findSome?_eq_some decoded
      obtain ⟨_, _, same⟩ := Option.map_eq_some_iff.mp tried
      obtain ⟨_, rfl, rfl⟩ := same
      obtain ⟨plain, little⟩ := unmarked_utf8 unmarked
      -- without a mark UTF-8 is the only Unicode codec that is tried
      obtain rfl : codec = .utf8 := by
        simp only [List.mem_cons, List.not_mem_nil, or_false] at among
        rcases among with rfl | rfl | rfl | rfl
        · rfl
        · cases unicode
        · cases unicode
        · cases unicode
      rw [utf8_eq, List.nil_append, decodeText, if_neg plain, if_neg little, List.findSome?_cons,
        Codec.decode, utf8Decode_utf8]
      rfl

/-! ## Anonymizing and restoring -/

section

variable (lower : Text → Text) (others : Handlers) (engine : Engine)

/-- Anonymizing a text file that succeeds has decoded the data, has anonymized the text as one unit,
and has encoded the copy with the codec and the mark that were found. -/
theorem anonymizeFile_text {file : BatchFile} (kind : kindOf lower file.name = .ok .text)
    {lang : Text} {options : Options} {p p' : Project} {result : FileResult}
    (done : anonymizeFile lower (textHandlers others) engine.calls lang options file p =
      (.ok result, p')) :
    ∃ (unit : UnitCopy) (codec : Codec) (bom : Bytes),
      decodeText file.data = some (unit.text, codec, bom) ∧
      engine.anonymizeFile lang options [(none, unit.text)] p = some ([unit.reps], p') ∧
        result.data = encodeText unit.copy codec bom := by
  have handled : (textHandlers others).rewrite .text file.name file.data =
      TextHandler.rewrite file.data := rfl
  simp only [Desktop.anonymizeFile, kind, anonymizing, handled, TextHandler.rewrite] at done
  cases decoded : decodeText file.data with
  | none =>
    simp only [decoded, Rewriting.run] at done
    cases (Prod.mk.inj done).1
  | some found =>
    obtain ⟨text, codec, bom⟩ := found
    simp only [decoded, Rewriting.run, Engine.calls] at done
    -- a text file is one unit, so the run of the file is that of the unit
    cases made : engine.anonymizeUnit lang options none text .empty p with
    | none =>
      simp only [made] at done
      cases (Prod.mk.inj done).1
    | some unit =>
      obtain ⟨reps, run, p₁⟩ := unit
      simp only [made] at done
      obtain ⟨outcome, rfl⟩ := Prod.mk.inj done
      obtain rfl := Except.ok.inj outcome
      refine ⟨⟨text, reps⟩, codec, bom, rfl, ?_, rfl⟩
      simp [Engine.anonymizeFile, Engine.anonymizeUnits, made]

/-- Restoring a text file is restoring its text as one unit and encoding it as before. The result is
shown as a preview, and so what comes back has to be readable again. -/
theorem restoreFile_text {name : Text} (kind : kindOf lower name = .ok .text) {data : Bytes}
    {copy : Text} {codec : Codec} {bom : Bytes}
    (decoded : decodeText data = some (copy, codec, bom)) {p : Project}
    (shown : ∀ text ∈ engine.restoredTexts p [copy],
      (decodeText (encodeText text codec bom)).isSome) :
    ∃ result p', restoreFile lower (textHandlers others) engine.calls ⟨name, data⟩ p =
      (.ok result, p') ∧ [result.data] =
        (engine.restoredTexts p [copy]).map fun text => encodeText text codec bom := by
  have units : (textHandlers others).units .text name data = .ok [⟨copy, none⟩] := by
    have handled : (textHandlers others).units .text name data = TextHandler.units data := rfl
    rw [handled, TextHandler.units, decoded]
  have handled : (textHandlers others).rewrite .text name data = TextHandler.rewrite data := rfl
  have single : engine.restoredTexts p [copy] = [applyReplacements copy
      ((engine.restoreUnit p.file (engine.exactMap p [copy]) 0 copy).reps.map
        Replacement.toEdit)] := rfl
  have replaced (exact : Option (List Occurrence)) (t : RestoreRun × Project) :
      (engine.calls.restoreUnit exact copy t).1 =
        (engine.restoreUnit t.2.file exact t.1.cursor copy).reps := rfl
  have looked (texts : List Text) : engine.calls.exactMap texts p = engine.exactMap p texts := rfl
  rw [single, List.forall_mem_singleton] at shown
  -- the previews read the copy and what is restored; both can be decoded
  have previewed : previews .text data (encodeText (applyReplacements copy
      ((engine.restoreUnit p.file (engine.exactMap p [copy]) 0 copy).reps.map
        Replacement.toEdit)) codec bom) = .ok () := by
    refine if_neg ?_
    rintro ⟨_, unread | unread⟩
    · rw [decoded] at unread
      cases unread
    · rw [Option.isNone_iff_eq_none.mp unread] at shown
      cases shown
  simp only [Desktop.restoreFile, kind, units, restoring, handled, TextHandler.rewrite, decoded,
    Rewriting.run, replaced, List.map_cons, List.map_nil, looked, previewed]
  exact ⟨_, _, rfl, rfl⟩

end

end RedactGate.Desktop
