import RedactGate.Library.Codecs

/-!
# Decoding of text files

A text file is decoded with the first codec that takes all of its bytes, and what becomes of
it is encoded with the same codec.
-/
namespace RedactGate.Desktop

open Library

/-- Windows code page 1251 from 0x80 on, where 0 stands for the one byte that has no character and
on which decoding raises. -/
def cp1251 : Charmap where
  upper := [0x402, 0x403, 0x201A, 0x453, 0x201E, 0x2026, 0x2020, 0x2021, 0x20AC, 0x2030, 0x409, 0x2039,
    0x40A, 0x40C, 0x40B, 0x40F, 0x452, 0x2018, 0x2019, 0x201C, 0x201D, 0x2022, 0x2013, 0x2014,
    0, 0x2122, 0x459, 0x203A, 0x45A, 0x45C, 0x45B, 0x45F, 0xA0, 0x40E, 0x45E, 0x408,
    0xA4, 0x490, 0xA6, 0xA7, 0x401, 0xA9, 0x404, 0xAB, 0xAC, 0xAD, 0xAE, 0x407,
    0xB0, 0xB1, 0x406, 0x456, 0x491, 0xB5, 0xB6, 0xB7, 0x451, 0x2116, 0x454, 0xBB,
    0x458, 0x405, 0x455, 0x457, 0x410, 0x411, 0x412, 0x413, 0x414, 0x415, 0x416, 0x417,
    0x418, 0x419, 0x41A, 0x41B, 0x41C, 0x41D, 0x41E, 0x41F, 0x420, 0x421, 0x422, 0x423,
    0x424, 0x425, 0x426, 0x427, 0x428, 0x429, 0x42A, 0x42B, 0x42C, 0x42D, 0x42E, 0x42F,
    0x430, 0x431, 0x432, 0x433, 0x434, 0x435, 0x436, 0x437, 0x438, 0x439, 0x43A, 0x43B,
    0x43C, 0x43D, 0x43E, 0x43F, 0x440, 0x441, 0x442, 0x443, 0x444, 0x445, 0x446, 0x447,
    0x448, 0x449, 0x44A, 0x44B, 0x44C, 0x44D, 0x44E, 0x44F]
  length := rfl
  valid := by decide +kernel
  distinct := by decide +kernel

/-- Windows code page 1252 from 0x80 on, where 0 stands for the five bytes that have no character
and on which decoding raises. -/
def cp1252 : Charmap where
  upper := [0x20AC, 0, 0x201A, 0x192, 0x201E, 0x2026, 0x2020, 0x2021, 0x2C6, 0x2030, 0x160, 0x2039,
    0x152, 0, 0x17D, 0, 0, 0x2018, 0x2019, 0x201C, 0x201D, 0x2022, 0x2013, 0x2014,
    0x2DC, 0x2122, 0x161, 0x203A, 0x153, 0, 0x17E, 0x178, 0xA0, 0xA1, 0xA2, 0xA3,
    0xA4, 0xA5, 0xA6, 0xA7, 0xA8, 0xA9, 0xAA, 0xAB, 0xAC, 0xAD, 0xAE, 0xAF,
    0xB0, 0xB1, 0xB2, 0xB3, 0xB4, 0xB5, 0xB6, 0xB7, 0xB8, 0xB9, 0xBA, 0xBB,
    0xBC, 0xBD, 0xBE, 0xBF, 0xC0, 0xC1, 0xC2, 0xC3, 0xC4, 0xC5, 0xC6, 0xC7,
    0xC8, 0xC9, 0xCA, 0xCB, 0xCC, 0xCD, 0xCE, 0xCF, 0xD0, 0xD1, 0xD2, 0xD3,
    0xD4, 0xD5, 0xD6, 0xD7, 0xD8, 0xD9, 0xDA, 0xDB, 0xDC, 0xDD, 0xDE, 0xDF,
    0xE0, 0xE1, 0xE2, 0xE3, 0xE4, 0xE5, 0xE6, 0xE7, 0xE8, 0xE9, 0xEA, 0xEB,
    0xEC, 0xED, 0xEE, 0xEF, 0xF0, 0xF1, 0xF2, 0xF3, 0xF4, 0xF5, 0xF6, 0xF7,
    0xF8, 0xF9, 0xFA, 0xFB, 0xFC, 0xFD, 0xFE, 0xFF]
  length := rfl
  valid := by decide +kernel
  distinct := by decide +kernel

/-- The code points themselves: every byte is read as the character with its number. -/
def latin1 : Charmap where
  upper := (List.range 128).map (128 + ·)
  length := rfl
  valid := by decide +kernel
  distinct := by decide +kernel

/-- The codecs that `decode_text` tries, and by whose names a file that was decoded is encoded
again. -/
inductive Codec where
  | utf8
  | utf16
  | cp1251
  | cp1252
  | latin1
  deriving DecidableEq

/-- `bytes.decode` by the name of the codec, and nothing where it raises; the code pages read each
byte on its own. -/
def Codec.decode : Codec → Bytes → Option Text
  | .utf8 => utf8Decode
  | .utf16 => utf16Decode
  | .cp1251 => Desktop.cp1251.decode
  | .cp1252 => Desktop.cp1252.decode
  | .latin1 => Desktop.latin1.decode

/-- `str.encode` by the name of the codec, and nothing where it raises; UTF-16 writes its mark first
and is little-endian. -/
def Codec.encode : Codec → Text → Option Bytes
  | .utf8 => fun text => some (Library.utf8 text)
  | .utf16 => fun text => some (Library.utf16 text)
  | .cp1251 => Desktop.cp1251.encode
  | .cp1252 => Desktop.cp1252.encode
  | .latin1 => Desktop.latin1.encode

def utf8Mark : Bytes := [0xEF, 0xBB, 0xBF]

/-- `decode_text`: the text, the codec and the byte order mark that is remembered. A mark decides
the codec; else UTF-8 and the code pages are tried. None where it raises. -/
def decodeText (data : Bytes) : Option (Text × Codec × Bytes) :=
  if utf8Mark <+: data then
    (Codec.utf8.decode (data.drop 3)).map fun text => (text, .utf8, data.take 3)
  else if [0xFF, 0xFE] <+: data ∨ [0xFE, 0xFF] <+: data then
    (Codec.utf16.decode data).map fun text => (text, .utf16, [])
  else
    [Codec.utf8, .cp1251, .cp1252, .latin1].findSome? fun codec =>
      (codec.decode data).map fun text => (text, codec, [])

/-- `encode_text`: the mark and the encoded text; a text that the codec cannot write is written in
UTF-8 with a mark of its own. -/
def encodeText (text : Text) (codec : Codec) (bom : Bytes) : Bytes :=
  match codec.encode text with
  | some bytes => bom ++ bytes
  | none => utf8Mark ++ utf8 text

end RedactGate.Desktop
