import RedactGate.Desktop.Decoding

/-!
# Decoding loses nothing but a byte order

What is decoded and encoded again is the same bytes, in every codec that a file can have. The
exception is UTF-16 in big-endian order, which is written little-endian.
-/
namespace RedactGate.Desktop

open Library

/-- The codecs that need no mark give back the bytes that they have decoded: no two byte strings
have one text. -/
theorem Codec.encode_of_decode {codec : Codec} (plain : codec ≠ .utf16) {bytes : Bytes}
    {text : Text} (decoded : codec.decode bytes = some text) : codec.encode text = some bytes := by
  cases codec with
  | utf8 => exact congrArg some (utf8_of_utf8Decode decoded)
  | utf16 => exact absurd rfl plain
  | cp1251 => exact Charmap.encode_of_decode decoded
  | cp1252 => exact Charmap.encode_of_decode decoded
  | latin1 => exact Charmap.encode_of_decode decoded

/-- The ways in which a file is decoded: as UTF-16 because of its mark, with the mark left to the
codec, or with another codec, behind a mark that is remembered. -/
theorem decodeText_cases {data : Bytes} {text : Text} {codec : Codec} {bom : Bytes}
    (decoded : decodeText data = some (text, codec, bom)) :
    (codec = .utf16 ∧ bom = [] ∧ utf16Decode data = some text ∧
      ([0xFF, 0xFE] <+: data ∨ [0xFE, 0xFF] <+: data)) ∨
    (codec ≠ .utf16 ∧ ¬[0xFE, 0xFF] <+: data ∧
      ∃ rest, bom ++ rest = data ∧ codec.decode rest = some text) := by
  rw [decodeText] at decoded
  split at decoded
  -- the mark of UTF-8 is cut off and kept beside the codec; those of UTF-16 are left to the codec
  · next marked =>
    right
    obtain ⟨text', found, same⟩ := Option.map_eq_some_iff.mp decoded
    obtain ⟨rfl, rfl, rfl⟩ := same
    refine ⟨nofun, fun big => ?_, data.drop 3, List.take_append_drop 3 data, found⟩
    obtain ⟨rest, rfl⟩ := marked
    obtain ⟨rest', same⟩ := big
    cases same
  · split at decoded
    · next marked =>
      left
      obtain ⟨text', found, same⟩ := Option.map_eq_some_iff.mp decoded
      obtain ⟨rfl, rfl, rfl⟩ := same
      exact ⟨rfl, rfl, found, marked⟩
    · next unmarked =>
      right
      obtain ⟨codec', among, tried⟩ := List.exists_of_findSome?_eq_some decoded
      obtain ⟨text', found, same⟩ := Option.map_eq_some_iff.mp tried
      obtain ⟨rfl, rfl, rfl⟩ := same
      refine ⟨?_, fun big => unmarked (.inr big), data, rfl, found⟩
      rintro rfl
      exact absurd among (by decide)

/-- A file comes back as it was, with the codec and the mark that were found when it was decoded,
unless it is UTF-16 in big-endian order: that one is written in little-endian order. -/
theorem decodeText_lossless_iff {data : Bytes} {text : Text} {codec : Codec} {bom : Bytes}
    (decoded : decodeText data = some (text, codec, bom)) :
    encodeText text codec bom = data ↔ ¬[0xFE, 0xFF] <+: data := by
  rcases decodeText_cases decoded with ⟨rfl, rfl, found, marked⟩ | ⟨plain, little, rest, rfl, found⟩
  · have written : encodeText text .utf16 [] = utf16 text := rfl
    rw [written]
    rcases marked with ⟨rest, rfl⟩ | ⟨rest, rfl⟩
    · have back : utf16 text = [0xFF, 0xFE] ++ rest := utf16_of_little found
      refine ⟨fun _ big => ?_, fun _ => back⟩
      obtain ⟨rest', same⟩ := big
      cases same
    · -- what is written starts with the other mark
      refine ⟨fun same => ?_, fun little => absurd ⟨rest, rfl⟩ little⟩
      rw [utf16] at same
      cases same
  · rw [encodeText, Codec.encode_of_decode plain found]
    exact ⟨fun _ => little, fun _ => rfl⟩

/-- A name in code page 1251. -/
def windowsName : Bytes := [0xB2, 0xE2, 0xE0, 0xED]

theorem decodeText_lossless_windowsName :
    decodeText windowsName = some ("Іван".toList, .cp1251, []) ∧
      encodeText "Іван".toList .cp1251 [] = windowsName := by
  have decoded : decodeText windowsName = some ("Іван".toList, .cp1251, []) := by decide
  exact ⟨decoded, (decodeText_lossless_iff decoded).mpr (by decide)⟩

/-- A letter in UTF-16, the high byte first. -/
def bigEndianLetter : Bytes := [0xFE, 0xFF, 0x00, 0x41]

theorem bigEndianLetter_lost : decodeText bigEndianLetter = some (['A'], .utf16, []) ∧
    encodeText ['A'] .utf16 [] = [0xFF, 0xFE, 0x41, 0x00] ∧
    encodeText ['A'] .utf16 [] ≠ bigEndianLetter := by decide

end RedactGate.Desktop
