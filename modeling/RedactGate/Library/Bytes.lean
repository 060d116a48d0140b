import RedactGate.Library.Text

/-!
# Byte strings

UTF-8 encoding of text and lowercase hexadecimal notation.
-/
namespace RedactGate.Library

abbrev Bytes := List UInt8

/-- UTF-8 encoding. -/
def utf8 (text : Text) : Bytes := text.flatMap String.utf8EncodeChar

def utf8Decode (bytes : Bytes) : Option Text := bytes.toByteArray.utf8Decode?.map Array.toList

@[simp] theorem utf8Decode_utf8 (text : Text) : utf8Decode (utf8 text) = some text := by
  have encoded : (utf8 text).toByteArray = text.utf8Encode := rfl
  rw [utf8Decode, encoded, List.utf8Decode?_utf8Encode]
  rfl

theorem utf8_injective : Function.Injective utf8 := by
  intro a b same
  have decoded := congrArg utf8Decode same
  simpa using decoded

/-- Two lowercase hexadecimal digits a byte. -/
def hex (bytes : Bytes) : Text :=
  bytes.flatMap fun b => [Nat.digitChar (b.toNat / 16), Nat.digitChar (b.toNat % 16)]

@[simp] theorem length_hex (bytes : Bytes) : (hex bytes).length = 2 * bytes.length := by
  induction bytes with
  | nil => rfl
  | cons b bytes ih =>
    rw [hex] at ih ⊢
    rw [List.flatMap_cons, List.length_append, ih]
    simp only [List.length_cons, List.length_nil]
    omega

theorem digitChar_injective {m n : Nat} (hm : m < 16) (hn : n < 16)
    (same : Nat.digitChar m = Nat.digitChar n) : m = n := by
  have all : ∀ a b : Fin 16, Nat.digitChar a = Nat.digitChar b → a = b := by decide
  exact congrArg Fin.val (all ⟨m, hm⟩ ⟨n, hn⟩ same)

theorem hex_injective : Function.Injective hex := by
  intro as
  induction as with
  | nil =>
    intro bs same
    have short := congrArg List.length same
    rw [length_hex, length_hex, List.length_nil] at short
    exact (List.length_eq_zero_iff.mp (by omega)).symm
  | cons a as ih =>
    intro bs same
    cases bs with
    | nil => simp [hex] at same
    | cons b bs =>
      simp only [hex, List.flatMap_cons, List.cons_append, List.nil_append, List.cons.injEq]
        at same
      obtain ⟨high, low, rest⟩ := same
      have bound : ∀ x : UInt8, x.toNat < 256 := fun x => x.toNat_lt
      -- two digits a byte, the high one first
      have high := digitChar_injective (by have := bound a; omega) (by have := bound b; omega) high
      have low := digitChar_injective (Nat.mod_lt _ (by decide)) (Nat.mod_lt _ (by decide)) low
      have byte : a = b := UInt8.toNat.inj (by omega)
      rw [byte, ih rest]

end RedactGate.Library
