import RedactGate.Redaction.Placeholders
import RedactGate.Redaction.Store
import RedactGate.Schemas.Entities
import Mathlib.Data.List.Infix
import Mathlib.Data.List.Sort

/-!
# Redaction vault

Reversible tokenization scoped by session: a fingerprint finds the placeholder a
value already has, a random draw makes a new one, and the value itself is kept
encrypted. The cryptographic primitives and the operating system's randomness are
parameters.
-/
namespace RedactGate

open Library

/-- The primitives that the vault calls, which are not modelled; their laws are stated where they
are used. -/
structure Crypto where
  hmacSha256 : (key msg : Bytes) → Bytes
  hkdfSha256 : (length : Nat) → (salt info keyMaterial : Bytes) → Bytes
  aesGcmEncrypt : (key nonce plaintext : Bytes) → Bytes
  aesGcmDecrypt : (key nonce ciphertext : Bytes) → Option Bytes

/-- `os.urandom`: the answer to each call, in the order of the calls. -/
structure Urandom where
  bytes : (call nbytes : Nat) → Bytes
  length_bytes : ∀ call nbytes, (bytes call nbytes).length = nbytes

structure Vault where
  crypto : Crypto
  urandom : Urandom
  masterKey : Bytes
  fingerprintKey : Bytes

/-- The store, the number of random draws so far and, as a ghost that the code does
not keep, the number of allocations that ran out of draws. -/
structure VaultState where
  store : InMemoryTokenStore
  draws : Nat
  exhausted : Nat

def nonceLen : Nat := 12

def dekLen : Nat := 32

def hkdfInfo : Bytes := utf8 "redactgate-dek-v1".toList

/-- The attempts of `_allocate_placeholder`: eight each of 3, 4, 5 and 6 bytes. -/
def drawSizes : List Nat := [3, 4, 5, 6].flatMap (List.replicate 8)

/-- Draw suffixes of the given sizes until a placeholder is free, with the number of draws after it;
none if all are taken. -/
def drawPlaceholder (urandom : Urandom) (taken : Text → Bool) (entityType : Text) :
    List Nat → Nat → Option Text × Nat
  | [], draws => (none, draws)
  | nbytes :: sizes, draws =>
    let placeholder := makePlaceholder entityType (hex (urandom.bytes draws nbytes))
    if taken placeholder then drawPlaceholder urandom taken entityType sizes (draws + 1)
    else (some placeholder, draws + 1)

namespace Vault

variable (vault : Vault)

def deriveDek (sessionId : Text) : Bytes :=
  vault.crypto.hkdfSha256 dekLen (utf8 sessionId) hkdfInfo vault.masterKey

def fingerprint (sessionId entityType value : Text) : Text :=
  hex (vault.crypto.hmacSha256 vault.fingerprintKey
    (utf8 (sessionId ++ ':' :: (entityType ++ ':' :: value))))

def allocatePlaceholder (st : VaultState) (sessionId entityType fp : Text) : Text × VaultState :=
  let taken placeholder := (st.store.getByPlaceholder sessionId placeholder).isSome
  match drawPlaceholder vault.urandom taken entityType drawSizes st.draws with
  | (some placeholder, draws) => (placeholder, { st with draws := draws })
  | (none, draws) =>
    (makePlaceholder entityType (fp.take 12),
      { st with draws := draws, exhausted := st.exhausted + 1 })

def encrypt (st : VaultState) (sessionId value : Text) : Bytes × VaultState :=
  let nonce := vault.urandom.bytes st.draws nonceLen
  let ct := vault.crypto.aesGcmEncrypt (vault.deriveDek sessionId) nonce (utf8 value)
  (nonce ++ ct, { st with draws := st.draws + 1 })

/-- `_decrypt`; `none` where the library raises. -/
def decrypt (sessionId : Text) (blob : Bytes) : Option Text :=
  (vault.crypto.aesGcmDecrypt (vault.deriveDek sessionId) (blob.take nonceLen)
    (blob.drop nonceLen)).bind utf8Decode

/-- The placeholder of one value: the stored one, whose occurrences are counted, or a new one that
is stored with the encrypted value. -/
def placeholderOf (st : VaultState) (sessionId entityType value : Text) : Text × VaultState :=
  let fp := vault.fingerprint sessionId entityType value
  match st.store.getByFingerprint sessionId fp with
  | some existing =>
    -- a known value keeps its placeholder and is counted again
    (existing.placeholder, { st with store := st.store.bumpOccurrence sessionId fp })
  | none =>
    let (placeholder, st) := vault.allocatePlaceholder st sessionId entityType fp
    let (ciphertext, st) := vault.encrypt st sessionId value
    (placeholder, { st with
      store := st.store.put
        { sessionId := sessionId, placeholder := placeholder, entityType := entityType,
          valueCiphertext := ciphertext, valueFingerprint := fp } })

variable {Score : Type}

/-- The loop body of `tokenize`: the value is read from the original text, the
placeholder goes into the rewritten one. -/
def tokenizeSpan (sessionId text : Text) (acc : Text × VaultState) (span : EntitySpan Score) :
    Text × VaultState :=
  let (placeholder, st) :=
    vault.placeholderOf acc.2 sessionId span.entityType (text.slice span.start span.stop)
  (acc.1.splice span.start span.stop placeholder, st)

/-- The placeholders that the loop of `tokenize` inserts for the spans still to come, in the state
that the spans before leave. -/
def insertedPlaceholders (sessionId text : Text) : List (EntitySpan Score) → VaultState → List Text
  | [], _ => []
  | span :: spans, st =>
    let (placeholder, st) :=
      vault.placeholderOf st sessionId span.entityType (text.slice span.start span.stop)
    placeholder :: insertedPlaceholders sessionId text spans st

/-- `sorted(spans, key=start, reverse=True)`, which keeps equal starts in order. -/
def rightToLeft (spans : List (EntitySpan Score)) : List (EntitySpan Score) :=
  spans.insertionSort fun a b => b.start ≤ a.start

def tokenize (st : VaultState) (text : Text) (spans : List (EntitySpan Score))
    (sessionId : Text) : Text × VaultState :=
  if spans.isEmpty then (text, st)
  else (rightToLeft spans).foldl (vault.tokenizeSpan sessionId text) (text, st)

/-- The loop of `detokenize` over the matches still to come; a placeholder that the session does not
hold stays in the text. -/
def detokenizeFrom (getByPlaceholder : Text → Option TokenRecord) (sessionId text : Text) :
    Nat → List (Nat × Nat) → Option Text
  | last, [] => some (text.drop last)
  | last, (start, stop) :: rest =>
    match getByPlaceholder (text.slice start stop) with
    -- a placeholder the session does not hold stays in the text
    | none => detokenizeFrom getByPlaceholder sessionId text last rest
    | some record => do
      let value ← vault.decrypt sessionId record.valueCiphertext
      let tail ← detokenizeFrom getByPlaceholder sessionId text stop rest
      return text.slice last start ++ value ++ tail

/-- `detokenize`, over any store: what the store looks up in the session is a parameter. -/
def detokenizeBy (getByPlaceholder : Text → Option TokenRecord) (text sessionId : Text) :
    Option Text :=
  if ['[', '['] <:+: text then
    vault.detokenizeFrom getByPlaceholder sessionId text 0 (placeholderRe.finditer text)
  else some text

def detokenize (store : InMemoryTokenStore) (text sessionId : Text) : Option Text :=
  vault.detokenizeBy (store.getByPlaceholder sessionId) text sessionId

/-- `resolution_map`: the values of all placeholders of a session; nothing if one of them cannot be
decrypted. -/
def resolutionMap (store : InMemoryTokenStore) (sessionId : Text) : Option (Dict Text Text) :=
  (store.allForSession sessionId).foldlM (fun out record =>
    (vault.decrypt sessionId record.valueCiphertext).map (out.set record.placeholder ·))
    Dict.empty

/-- The states a fresh vault reaches by tokenizing, whatever the session, the text
and the spans of each call. -/
inductive Reachable : VaultState → Prop
  | fresh (draws : Nat) : Reachable ⟨.empty, draws, 0⟩
  | tokenize {Score : Type} {st : VaultState} (text : Text) (spans : List (EntitySpan Score))
      (sessionId : Text) : Reachable st → Reachable (vault.tokenize st text spans sessionId).2

/-- The states that further calls of `tokenize` reach from a state, of whatever sessions they are. -/
inductive Later (st : VaultState) : VaultState → Prop
  | refl : Later st st
  | tokenize {Score : Type} {st' : VaultState} (text : Text) (spans : List (EntitySpan Score))
      (sessionId : Text) : Later st st' → Later st (vault.tokenize st' text spans sessionId).2

end Vault

/-- AES-GCM opens what it sealed, for keys and nonces of the lengths the vault uses. -/
structure AesGcmLaws (crypto : Crypto) : Prop where
  dek_length : ∀ salt info keyMaterial,
    (crypto.hkdfSha256 dekLen salt info keyMaterial).length = dekLen
  decrypt_encrypt : ∀ key nonce plaintext, key.length = dekLen → nonce.length = nonceLen →
    crypto.aesGcmDecrypt key nonce (crypto.aesGcmEncrypt key nonce plaintext) = some plaintext

/-- Distinct messages have distinct fingerprints. -/
def HmacInjective (crypto : Crypto) : Prop :=
  ∀ key, Function.Injective (crypto.hmacSha256 key)

/-- A digest is long enough for the fallback suffix to be cut from its hex form. -/
def HmacDigest (crypto : Crypto) : Prop := ∀ key msg, 32 ≤ (crypto.hmacSha256 key msg).length

theorem isHexChar_of_mem_hex {bytes : Bytes} {c : Char} (member : c ∈ hex bytes) :
    isHexChar c = true := by
  have digits : ∀ n < 16, isHexChar (Nat.digitChar n) = true := by decide
  obtain ⟨b, _, member⟩ := List.mem_flatMap.mp member
  have bound := b.toNat_lt
  rcases List.mem_pair.mp member with rfl | rfl
  · exact digits _ (by omega)
  · exact digits _ (Nat.mod_lt _ (by decide))

theorem underscore_not_mem_hex (bytes : Bytes) : '_' ∉ hex bytes :=
  fun member => absurd (isHexChar_of_mem_hex member) (by decide)

namespace Vault

variable {vault : Vault}

theorem isTokenHex_fallback (digest : HmacDigest vault.crypto) (sessionId entityType value : Text) :
    isTokenHex ((vault.fingerprint sessionId entityType value).take 12) = true := by
  have long := digest vault.fingerprintKey
    (utf8 (sessionId ++ ':' :: (entityType ++ ':' :: value)))
  have len : ((vault.fingerprint sessionId entityType value).take 12).length = 12 := by
    rw [List.length_take, fingerprint, length_hex]
    omega
  simp only [isTokenHex, len, Bool.and_eq_true, List.all_eq_true]
  exact ⟨by decide, fun c member => isHexChar_of_mem_hex (List.mem_of_mem_take member)⟩

/-- What a state's encryption of a value stores is decrypted to the value, under the session it was
stored for. -/
theorem decrypt_encrypt (laws : AesGcmLaws vault.crypto) (st : VaultState)
    (sessionId value : Text) :
    vault.decrypt sessionId (vault.encrypt st sessionId value).1 = some value := by
  have len := vault.urandom.length_bytes st.draws nonceLen
  have opened := laws.decrypt_encrypt (vault.deriveDek sessionId)
    (vault.urandom.bytes st.draws nonceLen) (utf8 value) (laws.dek_length _ _ _) len
  simp only [decrypt, encrypt, List.take_left' len, List.drop_left' len, opened,
    Option.bind_some, utf8Decode_utf8]

/-- Equal fingerprints in a session come from equal `type:value` strings, and only a colon in a type
can be mistaken in these. -/
theorem fingerprint_eq_iff (injective : HmacInjective vault.crypto) (sessionId : Text)
    {entityType value entityType' value' : Text} :
    vault.fingerprint sessionId entityType value =
        vault.fingerprint sessionId entityType' value' ↔
      entityType ++ ':' :: value = entityType' ++ ':' :: value' := by
  constructor
  · intro same
    have msg := utf8_injective (injective _ (hex_injective same))
    exact (List.cons.inj (List.append_cancel_left msg)).2
  · intro same
    rw [fingerprint, fingerprint, same]

end Vault

/-! ## An instance of the assumptions -/

/-- A transparent vault, whose primitives hide nothing: every law that the proofs use holds of it,
and it can be evaluated. -/
def sampleVault : Vault where
  crypto :=
    { hmacSha256 := fun key msg => key ++ (msg ++ List.replicate 32 0)
      hkdfSha256 := fun length _ _ _ => List.replicate length 0
      aesGcmEncrypt := fun _ _ plaintext => plaintext
      aesGcmDecrypt := fun _ _ ciphertext => some ciphertext }
  urandom := ⟨fun call nbytes => List.replicate nbytes (UInt8.ofNat call), by simp⟩
  masterKey := []
  fingerprintKey := []

theorem sampleVault_aesGcm : AesGcmLaws sampleVault.crypto where
  dek_length := by simp [sampleVault]
  decrypt_encrypt _ _ _ _ _ := rfl

theorem sampleVault_digest : HmacDigest sampleVault.crypto := by
  intro key msg
  simp only [sampleVault, List.length_append, List.length_replicate]
  omega

theorem sampleVault_hmac : HmacInjective sampleVault.crypto :=
  fun key _ _ same => List.append_cancel_right ((List.append_right_inj key).mp same)

end RedactGate
