import RedactGate.Redaction.Vault
import RedactGate.Library.Dict

/-!
# Password and keys of the desktop vault

The file of a vault has three entries for its keys: a salt, the data key wrapped by a key
that is derived from the password and the salt, and a verifier sealed with the data key.
Each entry is written and committed by itself.
-/
namespace RedactGate.Desktop

open Library

/-- The primitives of the key handling, which are not modelled. A seal has associated data or none. -/
structure KeyCrypto where
  scrypt : (password salt : Bytes) → Bytes
  hkdfSha256 : (length : Nat) → (salt info keyMaterial : Bytes) → Bytes
  aesGcmEncrypt : (key nonce plaintext : Bytes) → (associated : Option Bytes) → Bytes
  aesGcmDecrypt : (key nonce ciphertext : Bytes) → (associated : Option Bytes) → Option Bytes

/-- What the calls raise: `VaultError`s for the states and passwords, and what the primitives raise
on entries that are missing or broken. -/
inductive KeyError where
  | alreadyInitialized
  | notInitialized
  | badPassword
  | invalidTag
  | typeError
  deriving DecidableEq

/-- The entries of the file, and the number of random draws so far. -/
structure KeyState where
  entries : Dict Text Bytes
  draws : Nat

structure KeyVault where
  crypto : KeyCrypto
  urandom : Urandom

def verifierText : Bytes := utf8 "redactgate-desktop-vault-v1".toList

def saltLen : Nat := 16

def keyLen : Nat := 32

/-- `_hkdf`. -/
def KeyCrypto.hkdf (crypto : KeyCrypto) (key info : Bytes) : Bytes :=
  crypto.hkdfSha256 keyLen (utf8 "redactgate-desktop".toList) info key

namespace KeyVault

variable (vault : KeyVault)

/-- The key that wraps the data key. -/
def wrappingKey (password : Text) (salt : Bytes) : Bytes :=
  vault.crypto.hkdf (vault.crypto.scrypt (utf8 password) salt) (utf8 "key-wrap".toList)

/-- The key of the metadata, once `_install_keys` has been called with the data key. -/
def metaKey (dataKey : Bytes) : Bytes :=
  vault.crypto.hkdf dataKey (utf8 "metadata-encryption".toList)

/-- The wrapped data key, behind its nonce. -/
def wrap (key nonce dataKey : Bytes) : Bytes :=
  nonce ++ vault.crypto.aesGcmEncrypt key nonce dataKey (some verifierText)

def unwrap (key wrapped : Bytes) : Option Bytes :=
  vault.crypto.aesGcmDecrypt key (wrapped.take nonceLen) (wrapped.drop nonceLen) (some verifierText)

/-- `_enc_meta`, with its nonce. -/
def encMeta (dataKey nonce plaintext : Bytes) : Bytes :=
  nonce ++ vault.crypto.aesGcmEncrypt (vault.metaKey dataKey) nonce plaintext none

/-- `_dec_meta`: an entry is opened with the key for metadata. Nothing or an empty entry is read as
an empty text; a wrong seal raises. -/
def decMeta (dataKey : Bytes) : Option Bytes → Except KeyError Bytes
  | none => .ok []
  | some blob =>
    if blob.isEmpty then .ok []
    else match vault.crypto.aesGcmDecrypt (vault.metaKey dataKey) (blob.take nonceLen)
        (blob.drop nonceLen) none with
      | some text => .ok text
      | none => .error .invalidTag

/-- `if not salt or not wrapped`. -/
def entry (st : KeyState) (name : Text) : Option Bytes :=
  (st.entries.get? name).filter (!·.isEmpty)

/-- The `initialized` property. -/
def initialized (st : KeyState) : Bool := (st.entries.get? "verifier".toList).isSome

/-- `initialize`: the writes in their order, and the data key. A vault that is there already is
refused, and so is a short password. -/
def initializeVault (st : KeyState) (password : Text) :
    Except KeyError (List (Text × Bytes) × Bytes × KeyState) := do
  if initialized st then throw .alreadyInitialized
  if password.length < 6 then throw .badPassword
  let salt := vault.urandom.bytes st.draws saltLen
  let dataKey := vault.urandom.bytes (st.draws + 1) keyLen
  let nonce := vault.urandom.bytes (st.draws + 2) nonceLen
  let nonce' := vault.urandom.bytes (st.draws + 3) nonceLen
  pure ([("salt".toList, salt),
    ("wrapped".toList, vault.wrap (vault.wrappingKey password salt) nonce dataKey),
    ("verifier".toList, vault.encMeta dataKey nonce' verifierText)], dataKey,
    { st with draws := st.draws + 4 })

/-- `unlock`, with the data key that it installs: the password has to unwrap the key, and the key to
open the verifier. -/
def unlock (st : KeyState) (password : Text) : Except KeyError Bytes := do
  match entry st "salt".toList, entry st "wrapped".toList with
  | some salt, some wrapped =>
    match vault.unwrap (vault.wrappingKey password salt) wrapped with
    | none => throw .badPassword
    | some dataKey =>
      -- the key opens the verifier before it counts as the right one
      let verifier ← vault.decMeta dataKey (st.entries.get? "verifier".toList)
      if verifier ≠ verifierText then throw .badPassword
      pure dataKey
  | _, _ => throw .notInitialized

/-- `change_password`: its two writes in their order. The data key is unwrapped with the old
password and wrapped again with the new one and a new salt. -/
def changePassword (st : KeyState) (old new : Text) :
    Except KeyError (List (Text × Bytes) × KeyState) := do
  if new.length < 6 then throw .badPassword
  -- no check that the vault is initialized: a missing entry is a TypeError
  match st.entries.get? "salt".toList, st.entries.get? "wrapped".toList with
  | some salt, some wrapped =>
    match vault.unwrap (vault.wrappingKey old salt) wrapped with
    | none => throw .badPassword
    | some dataKey =>
      let salt' := vault.urandom.bytes st.draws saltLen
      let nonce := vault.urandom.bytes (st.draws + 1) nonceLen
      pure ([("salt".toList, salt'),
        ("wrapped".toList, vault.wrap (vault.wrappingKey new salt') nonce dataKey)],
        { st with draws := st.draws + 2 })
  | _, _ => throw .typeError

end KeyVault

/-- The entries after the first `count` of the writes. -/
def KeyState.write (st : KeyState) (writes : List (Text × Bytes)) (count : Nat) : KeyState :=
  { st with entries := st.entries.setAll (writes.take count) }

/-- A new file. -/
def KeyState.new : KeyState := ⟨Dict.empty, 0⟩

end RedactGate.Desktop
