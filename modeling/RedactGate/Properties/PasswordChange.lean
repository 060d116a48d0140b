import RedactGate.Desktop.VaultKeys
import RedactGate.Library.System
import Mathlib.Tactic.IntervalCases

/-!
# Interrupted password changes

The salt and the wrapped data key of a vault belong together, and are written one after
the other. A change of the password that is cut off between the two leaves a new salt
beside a key that was wrapped with the old one, which no password opens. Wherever else a
call is cut off, the data key stays within reach.

The run keeps beside the file what the users of the vault know: the password that was set
last, the new password of a call that was cut off since, and the data key.
-/
namespace RedactGate.Desktop

open Library

inductive KeyCall where
  | initializeVault (password : Text)
  | changePassword (old new : Text)
  deriving DecidableEq

/-- The password that a call is to set. -/
def KeyCall.new : KeyCall → Text
  | initializeVault password => password
  | changePassword _ new => new

/-- A call that returns, or that is cut off after the write of an index. -/
structure KeyAction where
  call : KeyCall
  cut : Option Nat

structure KeyRun where
  file : KeyState
  lastSet : Option Text
  interrupted : Option Text
  dataKey : Option Bytes

namespace KeyRun

def new : KeyRun := ⟨KeyState.new, none, none, none⟩

/-- How many writes an action persists. -/
def persisted (writes : List (Text × Bytes)) : Option Nat → Nat
  | none => writes.length
  | some i => min (i + 1) writes.length

theorem persisted_le (writes : List (Text × Bytes)) (cut : Option Nat) :
    persisted writes cut ≤ writes.length := by
  cases cut with
  | none => exact Nat.le_refl _
  | some i => exact Nat.min_le_right _ _

/-- What the users know after a call that writes: the password that was set, or one whose call was
cut short. -/
def close (run : KeyRun) (a : KeyAction) (file : KeyState) (dataKey : Option Bytes) : KeyRun where
  file := file
  lastSet := if a.cut.isNone then some a.call.new else run.lastSet
  interrupted := if a.cut.isNone then none else some a.call.new
  dataKey := dataKey

/-- A call that raises leaves everything as it is. The data key is that of the first call of
`initialize` all of whose writes are there. -/
def step (vault : KeyVault) (run : KeyRun) (a : KeyAction) : Option KeyRun :=
  match a.call with
  | .initializeVault password =>
    match vault.initializeVault run.file password with
    | .error _ => some run
    | .ok (writes, dataKey, file) =>
      some (run.close a (file.write writes (persisted writes a.cut))
        -- a call that was cut short keeps the data key the run had
        (if persisted writes a.cut = writes.length then some dataKey else run.dataKey))
  | .changePassword old new =>
    match vault.changePassword run.file old new with
    | .error _ => some run
    | .ok (writes, file) =>
      some (run.close a (file.write writes (persisted writes a.cut)) run.dataKey)

end KeyRun

/-- The vault opens with the password that was set last or with that of the interrupted
call, and the data key is in it. A vault whose first call of `initialize` did not get to
its last write has none and is not initialized. -/
def Recoverable (vault : KeyVault) (run : KeyRun) : Prop :=
  match run.dataKey with
  | none => KeyVault.initialized run.file = false
  | some dataKey => ∃ password, (run.lastSet = some password ∨ run.interrupted = some password) ∧
      vault.unlock run.file password = .ok dataKey

/-- A change of the password of an initialized vault, cut off between its two writes. -/
def Torn (vault : KeyVault) (run : KeyRun) (a : KeyAction) : Prop :=
  KeyVault.initialized run.file = true ∧ a.cut = some 0 ∧ ∃ old new,
    a.call = .changePassword old new ∧ (vault.changePassword run.file old new).isOk = true

/-- Keys and nonces of the lengths that the vault uses open what they sealed, and no other
key does. -/
structure KeyLaws (crypto : KeyCrypto) : Prop where
  key_length : ∀ salt info keyMaterial,
    (crypto.hkdfSha256 keyLen salt info keyMaterial).length = keyLen
  decrypt_encrypt : ∀ key nonce plaintext associated, key.length = keyLen →
    nonce.length = nonceLen → crypto.aesGcmDecrypt key nonce
      (crypto.aesGcmEncrypt key nonce plaintext associated) associated = some plaintext
  same_key : ∀ key key' nonce plaintext associated plaintext', key.length = keyLen →
    key'.length = keyLen → nonce.length = nonceLen → crypto.aesGcmDecrypt key' nonce
      (crypto.aesGcmEncrypt key nonce plaintext associated) associated = some plaintext' →
    key' = key

/-! ## Seals -/

section Laws

variable {vault : KeyVault} (laws : KeyLaws vault.crypto)

include laws

theorem unwrap_wrap (password : Text) (salt dataKey : Bytes) {nonce : Bytes}
    (len : nonce.length = nonceLen) :
    vault.unwrap (vault.wrappingKey password salt)
      (vault.wrap (vault.wrappingKey password salt) nonce dataKey) = some dataKey := by
  rw [KeyVault.unwrap, KeyVault.wrap, List.take_left' len, List.drop_left' len]
  exact laws.decrypt_encrypt _ _ _ _ (laws.key_length _ _ _) len

/-- Whatever password opens a wrapped key finds the data key that was wrapped, since the seal is
authentic. -/
theorem unwrap_eq_some {old password : Text} {salt dataKey dataKey' nonce : Bytes}
    (len : nonce.length = nonceLen)
    (opened : vault.unwrap (vault.wrappingKey old salt)
      (vault.wrap (vault.wrappingKey password salt) nonce dataKey) = some dataKey') :
    dataKey' = dataKey := by
  have key : vault.wrappingKey old salt = vault.wrappingKey password salt := by
    rw [KeyVault.unwrap, KeyVault.wrap, List.take_left' len, List.drop_left' len] at opened
    exact laws.same_key _ _ _ _ _ _ (laws.key_length _ _ _) (laws.key_length _ _ _) len opened
  rw [key, unwrap_wrap laws password salt dataKey len] at opened
  exact (Option.some.inj opened).symm

theorem decMeta_encMeta (dataKey : Bytes) {nonce : Bytes} (len : nonce.length = nonceLen)
    (plaintext : Bytes) :
    vault.decMeta dataKey (some (vault.encMeta dataKey nonce plaintext)) = .ok plaintext := by
  have some : (vault.encMeta dataKey nonce plaintext).isEmpty = false := by
    cases nonce with
    | nil => cases len
    | cons b nonce => rfl
  have opened := laws.decrypt_encrypt (vault.metaKey dataKey) nonce plaintext none
    (laws.key_length _ _ _) len
  rw [KeyVault.decMeta, some, if_neg Bool.false_ne_true, KeyVault.encMeta, List.take_left' len,
    List.drop_left' len, opened]

end Laws

/-! ## The invariant -/

/-- The three entries belong together: the data key is wrapped with the password, with the
salt that is beside it, and the verifier is sealed with it. -/
structure Holds (vault : KeyVault) (file : KeyState) (password : Text) (dataKey : Bytes) :
    Prop where
  salt : ∃ salt nonce, salt.length = saltLen ∧ nonce.length = nonceLen ∧
    file.entries.get? "salt".toList = some salt ∧
    file.entries.get? "wrapped".toList =
      some (vault.wrap (vault.wrappingKey password salt) nonce dataKey)
  verifier : ∃ nonce, nonce.length = nonceLen ∧
    file.entries.get? "verifier".toList = some (vault.encMeta dataKey nonce verifierText)

/-- The invariant of the runs: a password that the users know holds the data key, once there is one. -/
def KeysKept (vault : KeyVault) (run : KeyRun) : Prop :=
  match run.dataKey with
  | none => run.file.entries.get? "verifier".toList = none
  | some dataKey => ∃ password, (run.lastSet = some password ∨ run.interrupted = some password) ∧
      Holds vault run.file password dataKey

theorem Holds.unlock {vault : KeyVault} (laws : KeyLaws vault.crypto) {file : KeyState}
    {password : Text} {dataKey : Bytes} (holds : Holds vault file password dataKey) :
    vault.unlock file password = .ok dataKey := by
  obtain ⟨⟨salt, nonce, saltLength, len, hasSalt, hasKey⟩, nonce', len', hasVerifier⟩ := holds
  have salted : KeyVault.entry file "salt".toList = some salt := by
    cases salt with
    | nil => cases saltLength
    | cons b salt => rw [KeyVault.entry, hasSalt]; rfl
  have wrapped : KeyVault.entry file "wrapped".toList =
      some (vault.wrap (vault.wrappingKey password salt) nonce dataKey) := by
    rw [KeyVault.entry, hasKey, KeyVault.wrap]
    cases nonce with
    | nil => cases len
    | cons b nonce => rfl
  simp only [KeyVault.unlock, salted, wrapped, unwrap_wrap laws password salt dataKey len,
    hasVerifier, decMeta_encMeta laws dataKey len']
  rfl

theorem KeysKept.recoverable {vault : KeyVault} (laws : KeyLaws vault.crypto) {run : KeyRun}
    (kept : KeysKept vault run) : Recoverable vault run := by
  rw [KeysKept] at kept
  rw [Recoverable]
  cases found : run.dataKey with
  | none =>
    rw [found] at kept
    simp only at kept ⊢
    rw [KeyVault.initialized, kept]
    rfl
  | some dataKey =>
    rw [found] at kept
    obtain ⟨password, known, holds⟩ := kept
    exact ⟨password, known, holds.unlock laws⟩

/-! ## One call -/

theorem initializeVault_eq_ok {vault : KeyVault} {file file' : KeyState} {password : Text}
    {writes : List (Text × Bytes)} {dataKey : Bytes}
    (done : vault.initializeVault file password = .ok (writes, dataKey, file')) :
    file.entries.get? "verifier".toList = none ∧ file'.entries = file.entries ∧
      ∃ salt nonce nonce', salt.length = saltLen ∧ nonce.length = nonceLen ∧
        nonce'.length = nonceLen ∧ writes = [("salt".toList, salt),
          ("wrapped".toList, vault.wrap (vault.wrappingKey password salt) nonce dataKey),
          ("verifier".toList, vault.encMeta dataKey nonce' verifierText)] := by
  rw [KeyVault.initializeVault] at done
  -- the guards of the source, in its order: a fresh vault, then a password of six characters
  cases there : KeyVault.initialized file with
  | true =>
    rw [there] at done
    cases done
  | false =>
    by_cases short : password.length < 6
    · rw [there, if_pos short] at done
      cases done
    · rw [there, if_neg short] at done
      obtain ⟨rfl, same⟩ := Prod.mk.inj (Except.ok.inj done)
      obtain ⟨rfl, rfl⟩ := Prod.mk.inj same
      refine ⟨Option.isNone_iff_eq_none.mp ?_, rfl, _, _, _, vault.urandom.length_bytes _ _,
        vault.urandom.length_bytes _ _, vault.urandom.length_bytes _ _, rfl⟩
      rw [KeyVault.initialized] at there
      rw [← Option.not_isSome, there]
      rfl

theorem changePassword_eq_ok {vault : KeyVault} {file file' : KeyState} {old new : Text}
    {writes : List (Text × Bytes)}
    (done : vault.changePassword file old new = .ok (writes, file')) :
    file'.entries = file.entries ∧ ∃ salt wrapped dataKey salt' nonce,
      file.entries.get? "salt".toList = some salt ∧
      file.entries.get? "wrapped".toList = some wrapped ∧
      vault.unwrap (vault.wrappingKey old salt) wrapped = some dataKey ∧
      salt'.length = saltLen ∧ nonce.length = nonceLen ∧ writes = [("salt".toList, salt'),
        ("wrapped".toList, vault.wrap (vault.wrappingKey new salt') nonce dataKey)] := by
  rw [KeyVault.changePassword] at done
  -- four ways to fail come first: a short password, no salt, no wrapped key, the old password wrong
  by_cases short : new.length < 6
  · rw [if_pos short] at done
    cases done
  · rw [if_neg short] at done
    cases hasSalt : file.entries.get? "salt".toList with
    | none =>
      rw [hasSalt] at done
      cases done
    | some salt =>
      cases hasKey : file.entries.get? "wrapped".toList with
      | none =>
        rw [hasSalt, hasKey] at done
        cases done
      | some wrapped =>
        rw [hasSalt, hasKey] at done
        cases opened : vault.unwrap (vault.wrappingKey old salt) wrapped with
        | none =>
          simp only [opened] at done
          cases done
        | some dataKey =>
          simp only [opened] at done
          obtain ⟨rfl, rfl⟩ := Prod.mk.inj (Except.ok.inj done)
          exact ⟨rfl, salt, wrapped, dataKey, _, _, rfl, rfl, opened,
            vault.urandom.length_bytes _ _, vault.urandom.length_bytes _ _, rfl⟩

/-- The users know the password that a call was to set. -/
theorem known_close (run : KeyRun) (a : KeyAction) (file : KeyState) (dataKey : Option Bytes) :
    (run.close a file dataKey).lastSet = some a.call.new ∨
      (run.close a file dataKey).interrupted = some a.call.new := by
  rw [KeyRun.close]
  cases a.cut <;> simp

/-- After all three writes of `initialize` the password holds the data key that the verifier is
sealed with. -/
theorem holds_of_initialize {vault : KeyVault} {file : KeyState} {password : Text}
    {salt dataKey nonce nonce' : Bytes} (saltLength : salt.length = saltLen)
    (len : nonce.length = nonceLen) (len' : nonce'.length = nonceLen) :
    Holds vault (file.write [("salt".toList, salt),
      ("wrapped".toList, vault.wrap (vault.wrappingKey password salt) nonce dataKey),
      ("verifier".toList, vault.encMeta dataKey nonce' verifierText)] 3) password dataKey := by
  refine ⟨⟨salt, nonce, saltLength, len, ?_, ?_⟩, nonce', len', ?_⟩
  all_goals
    rw [KeyState.write, Dict.get?_setAll]
    rfl

/-- After both writes of a change the new password unwraps the data key of the old one, and the
verifier, which is not written again, still opens with it. -/
theorem holds_of_change {vault : KeyVault} {file : KeyState} {new : Text}
    {dataKey salt' nonce verifier : Bytes} (saltLength : salt'.length = saltLen)
    (len : nonce.length = nonceLen) (len' : verifier.length = nonceLen)
    (sealed : file.entries.get? "verifier".toList =
      some (vault.encMeta dataKey verifier verifierText)) :
    Holds vault (file.write [("salt".toList, salt'),
      ("wrapped".toList, vault.wrap (vault.wrappingKey new salt') nonce dataKey)] 2)
      new dataKey := by
  refine ⟨⟨salt', nonce, saltLength, len, ?_, ?_⟩, verifier, len', ?_⟩
  · rw [KeyState.write, Dict.get?_setAll]
    rfl
  · rw [KeyState.write, Dict.get?_setAll]
    rfl
  · rw [← sealed, KeyState.write, Dict.get?_setAll]
    rfl

/-- A step that does not leave a new salt beside an old wrapped key keeps the entries together, one
case for each action: a cut before or after both writes does no harm. -/
theorem KeysKept.step {vault : KeyVault} (laws : KeyLaws vault.crypto) {run run' : KeyRun}
    {a : KeyAction} (kept : KeysKept vault run) (whole : ¬Torn vault run a)
    (taken : KeyRun.step vault run a = some run') : KeysKept vault run' := by
  obtain ⟨call, cut⟩ := a
  cases call with
  | initializeVault password =>
    cases done : vault.initializeVault run.file password with
    | error e =>
      rw [KeyRun.step] at taken
      simp only [done, Option.some.injEq] at taken
      exact taken ▸ kept
    | ok result =>
      obtain ⟨writes, dataKey, file'⟩ := result
      obtain ⟨unset, same, salt, nonce, nonce', saltLength, len, len', rfl⟩ :=
        initializeVault_eq_ok done
      rw [KeyRun.step] at taken
      simp only [done, Option.some.injEq] at taken
      subst taken
      have fresh : run.dataKey = none := by
        cases found : run.dataKey with
        | none => rfl
        | some dataKey =>
          rw [KeysKept, found] at kept
          obtain ⟨_, _, holds⟩ := kept
          obtain ⟨_, _, sealed⟩ := holds.verifier
          rw [unset] at sealed
          cases sealed
      have bound := KeyRun.persisted_le [("salt".toList, salt),
        ("wrapped".toList, vault.wrap (vault.wrappingKey password salt) nonce dataKey),
        ("verifier".toList, vault.encMeta dataKey nonce' verifierText)] cut
      generalize KeyRun.persisted _ cut = count at bound ⊢
      by_cases all : count = 3
      · subst all
        exact ⟨password, known_close run _ _ _, holds_of_initialize saltLength len len'⟩
      · -- the verifier is written last
        have absent : (file'.write [("salt".toList, salt),
            ("wrapped".toList, vault.wrap (vault.wrappingKey password salt) nonce dataKey),
            ("verifier".toList, vault.encMeta dataKey nonce' verifierText)] count).entries.get?
              "verifier".toList = none := by
          rw [KeyState.write, Dict.get?_setAll, same, unset]
          have few : count < 3 := Nat.lt_of_le_of_ne bound all
          interval_cases count <;> rfl
        have unknown : (if count = 3 then some dataKey else run.dataKey) = none := by
          rw [if_neg all, fresh]
        rw [KeysKept, KeyRun.close]
        simp only [List.length_cons, List.length_nil, unknown]
        exact absent
  | changePassword old new =>
    cases done : vault.changePassword run.file old new with
    | error e =>
      rw [KeyRun.step] at taken
      simp only [done, Option.some.injEq] at taken
      exact taken ▸ kept
    | ok result =>
      obtain ⟨writes, file'⟩ := result
      obtain ⟨same, salt, wrapped, dataKey, salt', nonce, hasSalt, hasKey, opened, saltLength, len,
        rfl⟩ := changePassword_eq_ok done
      rw [KeyRun.step] at taken
      simp only [done, Option.some.injEq] at taken
      subst taken
      cases found : run.dataKey with
      | none =>
        -- a vault that is not initialized stays so
        rw [KeysKept, found] at kept
        rw [KeysKept, KeyRun.close]
        simp only at kept ⊢
        rw [KeyState.write, Dict.get?_setAll, same, kept]
        have bound := KeyRun.persisted_le [("salt".toList, salt'),
          ("wrapped".toList, vault.wrap (vault.wrappingKey new salt') nonce dataKey)] cut
        generalize KeyRun.persisted _ cut = count at bound ⊢
        simp only [List.length_cons, List.length_nil] at bound
        interval_cases count <;> rfl
      | some original =>
        rw [KeysKept, found] at kept
        obtain ⟨password, known, ⟨salt₀, nonce₀, _, len₀, hasSalt₀, hasKey₀⟩, nonce', len', sealed⟩ :=
          kept
        obtain rfl : salt₀ = salt := Option.some.inj (hasSalt₀.symm.trans hasSalt)
        obtain rfl := Option.some.inj (hasKey₀.symm.trans hasKey)
        obtain rfl : dataKey = original := unwrap_eq_some laws len₀ opened
        have both : KeyRun.persisted [("salt".toList, salt'),
            ("wrapped".toList, vault.wrap (vault.wrappingKey new salt') nonce dataKey)] cut = 2 := by
          cases cut with
          | none => rfl
          | some i =>
            have later : i ≠ 0 := by
              rintro rfl
              have there : KeyVault.initialized run.file = true := by
                rw [KeyVault.initialized, sealed]
                rfl
              exact whole ⟨there, rfl, old, new, rfl, by rw [done]; rfl⟩
            simp only [KeyRun.persisted, List.length_cons, List.length_nil]
            omega
        rw [both]
        refine ⟨new, known_close run _ _ _, holds_of_change saltLength len len' ?_⟩
        rw [same]
        exact sealed

/-- The keys of a vault survive every run in which no change of the password is torn. -/
theorem keysKept_of_reachesBy {vault : KeyVault} (laws : KeyLaws vault.crypto) {run : KeyRun}
    (reaches : ReachesBy (fun run a => ¬Torn vault run a) (KeyRun.step vault) KeyRun.new run) :
    KeysKept vault run :=
  reaches.invariant rfl fun _ _ _ kept whole taken => kept.step laws whole taken

/-- Wherever the calls are cut off, the password that was set last, or that of the interrupted call,
opens the vault and the data key is in it, as long as no change of the password is cut off between
its two writes. -/
theorem passwordChange_recoverable (vault : KeyVault) (laws : KeyLaws vault.crypto)
    (run : KeyRun)
    (reaches : ReachesBy (fun run a => ¬Torn vault run a) (KeyRun.step vault) KeyRun.new run) :
    Recoverable vault run :=
  (keysKept_of_reachesBy laws reaches).recoverable laws

/-! ## A vault with plain seals -/

/-- Bytes of a length, the first of which are given. -/
def padded (length : Nat) (bytes : Bytes) : Bytes :=
  bytes.take length ++ List.replicate (length - bytes.length) 0

/-- Primitives that show what they are given: a seal is the key and the text behind it, and opens
with this key only. -/
def plainCrypto : KeyCrypto where
  scrypt password salt := password ++ salt
  hkdfSha256 length _ info keyMaterial := padded length (keyMaterial ++ info)
  aesGcmEncrypt key _ plaintext _ := key ++ plaintext
  aesGcmDecrypt key _ ciphertext _ :=
    if ciphertext.take keyLen = key then some (ciphertext.drop keyLen) else none

theorem plainCrypto_laws : KeyLaws plainCrypto where
  key_length salt info keyMaterial := by
    simp only [plainCrypto, padded, List.length_append, List.length_take, List.length_replicate]
    omega
  decrypt_encrypt key nonce plaintext associated length _ := by
    simp only [plainCrypto]
    rw [List.take_left' length, List.drop_left' length, if_pos rfl]
  same_key key key' nonce plaintext associated plaintext' length _ _ opened := by
    simp only [plainCrypto] at opened
    rw [List.take_left' length] at opened
    split at opened
    next same => exact same.symm
    next => cases opened

/-- Draws that tell their number. -/
def plainVault : KeyVault where
  crypto := plainCrypto
  urandom := sampleVault.urandom

def firstPassword : KeyAction := ⟨.initializeVault "first1".toList, none⟩

/-- The change is cut off after the write of an index. -/
def cutChange (i : Nat) : KeyAction :=
  ⟨.changePassword "first1".toList "second".toList, some i⟩

theorem passwordChange_recoverable_cutLate : ∃ run,
    runSteps (KeyRun.step plainVault) KeyRun.new [firstPassword, cutChange 1] = some run ∧
      Recoverable plainVault run := by
  have first : (KeyRun.step plainVault KeyRun.new firstPassword).isSome = true := by decide
  obtain ⟨run, set⟩ := Option.isSome_iff_exists.mp first
  have second : (KeyRun.step plainVault KeyRun.new firstPassword).all
      (fun run => (KeyRun.step plainVault run (cutChange 1)).isSome) = true := by decide
  rw [set] at second
  obtain ⟨run', changed⟩ := Option.isSome_iff_exists.mp second
  refine ⟨run', ?_, passwordChange_recoverable plainVault plainCrypto_laws run' ?_⟩
  · simp only [runSteps, set, Option.bind_some, changed]
  · refine (ReachesBy.refl.step firstPassword ?_ set).step (cutChange 1) ?_ changed
    · rintro ⟨_, cut, _⟩
      cases cut
    · rintro ⟨_, cut, _⟩
      cases cut

/-- A change of the password is cut between its two writes. The new salt is there, the new wrapped
key is not, and neither the old nor the new password opens the vault. -/
theorem passwordChange_torn : KeyLaws plainCrypto ∧ ∃ run,
    Reaches (KeyRun.step plainVault) KeyRun.new run ∧ ¬Recoverable plainVault run := by
  have lost : (runSteps (KeyRun.step plainVault) KeyRun.new [firstPassword, cutChange 0]).map
      (fun run => run.dataKey.isSome && decide (run.lastSet = some "first1".toList) &&
        decide (run.interrupted = some "second".toList) &&
        (plainVault.unlock run.file "first1".toList).toOption.isNone &&
        (plainVault.unlock run.file "second".toList).toOption.isNone) = some true := by
    decide
  obtain ⟨run, steps, fields⟩ := Option.map_eq_some_iff.mp lost
  simp only [Bool.and_eq_true, decide_eq_true_eq, Option.isNone_iff_eq_none] at fields
  obtain ⟨⟨⟨⟨key, set⟩, interrupted⟩, old⟩, new⟩ := fields
  refine ⟨plainCrypto_laws, run, reaches_of_runSteps steps, fun recoverable => ?_⟩
  obtain ⟨dataKey, found⟩ := Option.isSome_iff_exists.mp key
  rw [Recoverable, found] at recoverable
  obtain ⟨password, known, opened⟩ := recoverable
  rcases known with known | known
  · rw [set] at known
    rw [← Option.some.inj known] at opened
    rw [opened] at old
    cases old
  · rw [interrupted] at known
    rw [← Option.some.inj known] at opened
    rw [opened] at new
    cases new

end RedactGate.Desktop
