import RedactGate.Library.Bytes
import Mathlib.Data.List.Pairwise

/-!
# Codecs

Text as bytes: UTF-8, UTF-16 with a byte order mark, and character maps. What is decoded is
encoded to the bytes that it was decoded from, but for the byte order of UTF-16, which is
always little-endian when it is written.
-/
namespace RedactGate.Library

theorem utf8_of_utf8Decode {bytes : Bytes} {text : Text} (decoded : utf8Decode bytes = some text) :
    utf8 text = bytes := by
  obtain ⟨chars, found, rfl⟩ := Option.map_eq_some_iff.mp decoded
  have valid : bytes.toByteArray.utf8Decode?.isSome := Option.isSome_iff_exists.mpr ⟨chars, found⟩
  have back := @ByteArray.utf8Encode_get_utf8Decode? bytes.toByteArray valid
  simp only [found, Option.get_some] at back
  exact List.toByteArray_inj.mp back

/-- The encoding of a text begins with a byte that begins a character: no encoding of a character
begins with a continuation byte. -/
theorem isUTF8FirstByte_of_utf8 {text : Text} {b : UInt8} {rest : Bytes}
    (same : utf8 text = b :: rest) : b.IsUTF8FirstByte := by
  cases text with
  | nil => cases same
  | cons c text =>
    have width : 0 < (String.utf8EncodeChar c).length := by
      rw [String.length_utf8EncodeChar]
      exact c.utf8Size_pos
    have first := UInt8.isUTF8FirstByte_getElem_zero_utf8EncodeChar (c := c)
    have head : (utf8 (c :: text)).head? = some ((String.utf8EncodeChar c)[0]) := by
      rw [utf8, List.flatMap_cons, List.head?_append, List.head?_eq_getElem?,
        List.getElem?_eq_getElem width]
      rfl
    rw [same] at head
    exact (Option.some.inj head) ▸ first

/-- A text whose encoding begins with the encoding of a character begins with this character, as no
encoding of a character goes on as that of another one. -/
theorem head?_of_utf8 {text : Text} {c : Char} {rest : Bytes}
    (same : utf8 text = String.utf8EncodeChar c ++ rest) : text.head? = some c := by
  cases text with
  | nil =>
    have width := congrArg List.length same
    rw [List.length_append, String.length_utf8EncodeChar] at width
    have some := c.utf8Size_pos
    simp only [utf8, List.flatMap_nil, List.length_nil] at width
    omega
  | cons d text =>
    have bytes := congrArg List.toByteArray same
    rw [utf8, List.flatMap_cons] at bytes
    simp only [List.toByteArray_append] at bytes
    have decoded := congrArg (fun b => ByteArray.utf8DecodeChar? b 0) bytes
    simp only [ByteArray.utf8DecodeChar?_utf8EncodeChar_append] at decoded
    exact decoded

/-! ## UTF-16 -/

inductive ByteOrder where
  | little
  | big
  deriving DecidableEq

/-- The two bytes for a unit, in the order that is given. -/
def ByteOrder.bytes (order : ByteOrder) (unit : Nat) : Bytes :=
  match order with
  | .little => [UInt8.ofNat (unit % 256), UInt8.ofNat (unit / 256)]
  | .big => [UInt8.ofNat (unit / 256), UInt8.ofNat (unit % 256)]

def ByteOrder.unit (order : ByteOrder) (a b : UInt8) : Nat :=
  match order with
  | .little => a.toNat + 256 * b.toNat
  | .big => 256 * a.toNat + b.toNat

/-- The units that bytes spell in the order that is given; an odd number of bytes spells none. -/
def ByteOrder.units (order : ByteOrder) : Bytes → Option (List Nat)
  | [] => some []
  | [_] => none
  | a :: b :: rest => (order.units rest).map (order.unit a b :: ·)

/-- The units of a character: one, or two surrogates. -/
def utf16Units (c : Char) : List Nat :=
  if c.toNat < 0x10000 then [c.toNat]
  else [0xD800 + (c.toNat - 0x10000) / 0x400, 0xDC00 + (c.toNat - 0x10000) % 0x400]

/-- The text that the units spell, in which every surrogate belongs to a pair; units with a lone
surrogate spell none. -/
def utf16Text : List Nat → Option Text
  | [] => some []
  | u :: units =>
    if u < 0xD800 ∨ 0xE000 ≤ u then (utf16Text units).map (Char.ofNat u :: ·)
    else
      match units with
      | [] => none
      | v :: units =>
        -- a high surrogate and then a low one
        if u < 0xDC00 ∧ 0xDC00 ≤ v ∧ v < 0xE000 then
          (utf16Text units).map
            (Char.ofNat (0x10000 + (u - 0xD800) * 0x400 + (v - 0xDC00)) :: ·)
        else none

/-- The text of bytes in UTF-16, in the order that a mark in front tells, or little-endian without a
mark. -/
def utf16Decode : Bytes → Option Text
  | 0xFF :: 0xFE :: bytes => (ByteOrder.little.units bytes).bind utf16Text
  | 0xFE :: 0xFF :: bytes => (ByteOrder.big.units bytes).bind utf16Text
  | bytes => (ByteOrder.little.units bytes).bind utf16Text

/-- A byte order mark and the units, little-endian. -/
def utf16 (text : Text) : Bytes :=
  0xFF :: 0xFE :: (text.flatMap utf16Units).flatMap ByteOrder.little.bytes

theorem toNat_ofNat {n : Nat} (valid : n.isValidChar) : (Char.ofNat n).toNat = n := by
  rw [Char.ofNat, dif_pos valid]
  rfl

theorem ByteOrder.bytes_unit (order : ByteOrder) (a b : UInt8) :
    order.bytes (order.unit a b) = [a, b] := by
  have first := a.toNat_lt
  have second := b.toNat_lt
  cases order with
  | little =>
    have low : (a.toNat + 256 * b.toNat) % 256 = a.toNat := by omega
    have high : (a.toNat + 256 * b.toNat) / 256 = b.toNat := by omega
    simp only [bytes, unit, low, high, UInt8.ofNat_toNat]
  | big =>
    have low : (256 * a.toNat + b.toNat) % 256 = b.toNat := by omega
    have high : (256 * a.toNat + b.toNat) / 256 = a.toNat := by omega
    simp only [bytes, unit, low, high, UInt8.ofNat_toNat]

theorem ByteOrder.unit_lt (order : ByteOrder) (a b : UInt8) : order.unit a b < 0x10000 := by
  have first := a.toNat_lt
  have second := b.toNat_lt
  cases order <;> simp only [unit] <;> omega

theorem ByteOrder.bytes_of_units {order : ByteOrder} {bytes : Bytes} {units : List Nat}
    (read : order.units bytes = some units) :
    units.flatMap order.bytes = bytes ∧ ∀ u ∈ units, u < 0x10000 := by
  induction bytes using ByteOrder.units.induct generalizing units with
  | case1 =>
    obtain rfl := Option.some.inj read
    exact ⟨rfl, fun u none => absurd none List.not_mem_nil⟩
  | case2 a => cases read
  | case3 a b rest ih =>
    obtain ⟨tail, found, rfl⟩ := Option.map_eq_some_iff.mp read
    obtain ⟨back, bound⟩ := ih found
    rw [List.flatMap_cons, order.bytes_unit, back]
    exact ⟨rfl, List.forall_mem_cons.mpr ⟨order.unit_lt a b, bound⟩⟩

theorem units_of_utf16Text {units : List Nat} {text : Text} (bound : ∀ u ∈ units, u < 0x10000)
    (decoded : utf16Text units = some text) : text.flatMap utf16Units = units := by
  induction units using utf16Text.induct generalizing text with
  | case1 =>
    obtain rfl := Option.some.inj decoded
    rfl
  -- a unit that is no surrogate is a character
  | case2 u units single ih =>
    have step : utf16Text (u :: units) = (utf16Text units).map (Char.ofNat u :: ·) := by
      cases units <;> simp only [utf16Text, if_pos single]
    rw [step] at decoded
    obtain ⟨tail, found, rfl⟩ := Option.map_eq_some_iff.mp decoded
    obtain ⟨here, later⟩ := List.forall_mem_cons.mp bound
    have code : (Char.ofNat u).toNat = u := toNat_ofNat (by rw [Nat.isValidChar]; omega)
    rw [List.flatMap_cons, utf16Units, code, if_pos here, ih later found]
    rfl
  | case3 u pair =>
    rw [utf16Text, if_neg pair] at decoded
    cases decoded
  -- a pair: ten bits of the offset in each half, and the halves are found again by division
  | case4 u pair v units high ih =>
    rw [utf16Text, if_neg pair] at decoded
    simp only [if_pos high] at decoded
    obtain ⟨tail, found, rfl⟩ := Option.map_eq_some_iff.mp decoded
    have later : ∀ u ∈ units, u < 0x10000 := fun w member =>
      bound w (List.mem_cons_of_mem _ (List.mem_cons_of_mem _ member))
    have code : (Char.ofNat (0x10000 + (u - 0xD800) * 0x400 + (v - 0xDC00))).toNat =
        0x10000 + (u - 0xD800) * 0x400 + (v - 0xDC00) :=
      toNat_ofNat (by rw [Nat.isValidChar]; omega)
    have first : 0xD800 + (0x10000 + (u - 0xD800) * 0x400 + (v - 0xDC00) - 0x10000) / 0x400 = u := by
      omega
    have second : 0xDC00 + (0x10000 + (u - 0xD800) * 0x400 + (v - 0xDC00) - 0x10000) % 0x400 = v := by
      omega
    rw [List.flatMap_cons, utf16Units, code, if_neg (by omega), first, second, ih later found]
    rfl
  | case5 u pair v units low =>
    rw [utf16Text, if_neg pair] at decoded
    simp only [if_neg low] at decoded
    cases decoded

/-- Little-endian bytes come back. -/
theorem utf16_of_little {bytes : Bytes} {text : Text}
    (decoded : (ByteOrder.little.units bytes).bind utf16Text = some text) :
    utf16 text = 0xFF :: 0xFE :: bytes := by
  obtain ⟨units, read, found⟩ := Option.bind_eq_some_iff.mp decoded
  obtain ⟨back, bound⟩ := ByteOrder.bytes_of_units read
  rw [utf16, units_of_utf16Text bound found, back]

theorem ByteOrder.unit_bytes {order : ByteOrder} {u : Nat} (bound : u < 0x10000) (rest : Bytes) :
    order.units (order.bytes u ++ rest) = (order.units rest).map (u :: ·) := by
  have byte {n : Nat} (small : n < 256) : (UInt8.ofNat n).toNat = n := by
    rw [UInt8.toNat_ofNat', Nat.mod_eq_of_lt small]
  have low : u % 256 < 256 := Nat.mod_lt u (by decide)
  have high : u / 256 < 256 := by omega
  cases order with
  | little =>
    have whole : u % 256 + 256 * (u / 256) = u := by omega
    simp only [bytes, List.cons_append, List.nil_append, units, unit, byte low, byte high, whole]
  | big =>
    have whole : 256 * (u / 256) + u % 256 = u := by omega
    simp only [bytes, List.cons_append, List.nil_append, units, unit, byte low, byte high, whole]

theorem ByteOrder.units_of_bytes {order : ByteOrder} {us : List Nat}
    (bound : ∀ u ∈ us, u < 0x10000) : order.units (us.flatMap order.bytes) = some us := by
  induction us with
  | nil => rfl
  | cons u us ih =>
    obtain ⟨here, later⟩ := List.forall_mem_cons.mp bound
    rw [List.flatMap_cons, ByteOrder.unit_bytes here, ih later, Option.map_some]

theorem utf16Units_lt (c : Char) : ∀ u ∈ utf16Units c, u < 0x10000 := by
  have valid : c.toNat < 0x110000 := by
    rcases c.valid with low | high
    · exact Nat.lt_of_lt_of_le low (by decide)
    · exact high.2
  rw [utf16Units]
  split
  · next small => exact List.forall_mem_singleton.mpr small
  · refine List.forall_mem_cons.mpr ⟨?_, List.forall_mem_singleton.mpr ?_⟩
    · omega
    · omega

/-- The one or two units of a character are read as this character, whatever follows: the halves of
a surrogate pair are told apart from other units. -/
theorem utf16Text_append (c : Char) (rest : List Nat) :
    utf16Text (utf16Units c ++ rest) = (utf16Text rest).map (c :: ·) := by
  rw [utf16Units]
  split
  -- no character is a surrogate, so a single unit is never taken for half of a pair
  · next small =>
    have single : c.toNat < 0xD800 ∨ 0xE000 ≤ c.toNat := by
      rcases c.valid with low | high
      · exact .inl low
      · exact .inr high.1
    cases rest <;> simp only [List.cons_append, List.nil_append, utf16Text, if_pos single,
      Char.ofNat_toNat]
  · next large =>
    have valid : c.toNat < 0x110000 := by
      rcases c.valid with low | high
      · exact Nat.lt_of_lt_of_le low (by decide)
      · exact high.2
    have first : ¬(0xD800 + (c.toNat - 0x10000) / 0x400 < 0xD800 ∨
        0xE000 ≤ 0xD800 + (c.toNat - 0x10000) / 0x400) := by omega
    have pair : 0xD800 + (c.toNat - 0x10000) / 0x400 < 0xDC00 ∧
        0xDC00 ≤ 0xDC00 + (c.toNat - 0x10000) % 0x400 ∧
          0xDC00 + (c.toNat - 0x10000) % 0x400 < 0xE000 := by omega
    have whole : 0x10000 + (0xD800 + (c.toNat - 0x10000) / 0x400 - 0xD800) * 0x400 +
        (0xDC00 + (c.toNat - 0x10000) % 0x400 - 0xDC00) = c.toNat := by omega
    simp only [List.cons_append, List.nil_append, utf16Text, if_neg first, if_pos pair, whole,
      Char.ofNat_toNat]

/-- What is written is read again. -/
@[simp] theorem utf16Decode_utf16 (text : Text) : utf16Decode (utf16 text) = some text := by
  have bound : ∀ u ∈ text.flatMap utf16Units, u < 0x10000 := fun u member => by
    obtain ⟨c, _, among⟩ := List.mem_flatMap.mp member
    exact utf16Units_lt c u among
  have read : utf16Text (text.flatMap utf16Units) = some text := by
    clear bound
    induction text with
    | nil => rfl
    | cons c text ih => rw [List.flatMap_cons, utf16Text_append, ih, Option.map_some]
  rw [utf16, utf16Decode, ByteOrder.units_of_bytes bound, Option.bind_some, read]

/-! ## Character maps -/

/-- A code of one byte for a character: ASCII, and the code points of the other bytes, where 0
stands for none. -/
structure Charmap where
  upper : List Nat
  length : upper.length = 128
  valid : ∀ n ∈ upper, n = 0 ∨ 128 ≤ n ∧ n.isValidChar
  distinct : upper.Pairwise fun a b => a ≠ 0 → a ≠ b

namespace Charmap

variable (map : Charmap)

def decodeByte (b : UInt8) : Option Char :=
  if b.toNat < 128 then some (Char.ofNat b.toNat)
  else (map.upper[b.toNat - 128]?).bind fun n => if n = 0 then none else some (Char.ofNat n)

def encodeChar (c : Char) : Option UInt8 :=
  if c.toNat < 128 then some (UInt8.ofNat c.toNat)
  else
    let i := map.upper.idxOf c.toNat
    if i < map.upper.length then some (UInt8.ofNat (128 + i)) else none

def decode (bytes : Bytes) : Option Text := bytes.mapM map.decodeByte

def encode (text : Text) : Option Bytes := text.mapM map.encodeChar

variable {map}

theorem encodeChar_of_decodeByte {b : UInt8} {c : Char} (decoded : map.decodeByte b = some c) :
    map.encodeChar c = some b := by
  have small := b.toNat_lt
  rw [decodeByte] at decoded
  split at decoded
  · next ascii =>
    obtain rfl := Option.some.inj decoded
    have code : (Char.ofNat b.toNat).toNat = b.toNat := toNat_ofNat (.inl (by omega))
    rw [encodeChar, code, if_pos ascii, UInt8.ofNat_toNat]
  · next upper =>
    obtain ⟨n, here, decoded⟩ := Option.bind_eq_some_iff.mp decoded
    split at decoded
    · cases decoded
    next given =>
    obtain rfl := Option.some.inj decoded
    have member : n ∈ map.upper := List.mem_of_getElem? here
    obtain ⟨high, code⟩ := (map.valid n member).resolve_left given
    have found := List.idxOf_lt_length_of_mem member
    -- the code point stands in the map once, so the first place is the one that was read
    have place : map.upper.idxOf n = b.toNat - 128 := by
      obtain ⟨inside, value⟩ := List.getElem?_eq_some_iff.mp here
      rcases Nat.lt_trichotomy (map.upper.idxOf n) (b.toNat - 128) with before | same | behind
      · have other := List.pairwise_iff_getElem.mp map.distinct _ _ found inside before
        rw [List.getElem_idxOf found, value] at other
        exact absurd rfl (other given)
      · exact same
      · have other := List.pairwise_iff_getElem.mp map.distinct _ _ inside found behind
        rw [List.getElem_idxOf found, value] at other
        exact absurd rfl (other given)
    have back : 128 + (b.toNat - 128) = b.toNat := by omega
    rw [place] at found
    rw [encodeChar, toNat_ofNat code, if_neg (by omega)]
    simp only [place, back, if_pos found, UInt8.ofNat_toNat]

theorem encode_of_decode {bytes : Bytes} {text : Text} (decoded : map.decode bytes = some text) :
    map.encode text = some bytes := by
  induction bytes generalizing text with
  | nil =>
    obtain rfl := Option.some.inj decoded
    rfl
  | cons b bytes ih =>
    rw [decode, List.mapM_cons] at decoded
    obtain ⟨c, first, rest⟩ := Option.bind_eq_some_iff.mp decoded
    obtain ⟨tail, later, same⟩ := Option.bind_eq_some_iff.mp rest
    obtain rfl := Option.some.inj same
    have back := ih later
    rw [encode] at back ⊢
    rw [List.mapM_cons, encodeChar_of_decodeByte first, back]
    rfl

end Charmap

end RedactGate.Library
