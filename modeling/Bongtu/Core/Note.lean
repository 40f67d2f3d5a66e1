import Bongtu.Outcome
import Bongtu.PublicVector
import Bongtu.Sponge

namespace Bongtu.Core

open Outcome

abbrev Point := ℕ × ℕ

-- The hash, the curve and the key encapsulation the notes rest on. `decapsulate` gives nothing
-- where it throws.
structure Primitives where
  poseidonN : List ℕ → ℕ
  poseidonPerm : Sponge.State ℕ → Sponge.State ℕ
  base8 : Point
  mulPointEscalar : Point → ℕ → Point
  encapsulate : Bytes → Bytes → Bytes × Bytes
  decapsulate : Bytes → Bytes → Option Bytes

def two128 : ℕ := 2 ^ 128

def consumerCtLen : ℕ := 4

def tagRk0 : ℕ := 15911670041651909454486960207337169366505934455020053916031847212914070689294

def tagRk1 : ℕ := 18959445568053998966444410456355743824415104493789084861475706421378089710793

def tagViewtag : ℕ := 4236837455644426462098222144565872234823396873019476831333450393757091506254

inductive NoteError where
  | nonceEscapes (nonce : ℕ)
  | tagOutOfRange (tagField : ℕ)
  | sharedSecretLength (got : ℕ)
  | decapsulation
  | cipherTextLength (got : ℕ)
deriving DecidableEq, Repr

def addMod (a b : ℕ) : ℕ :=
  (a % snarkScalarField + b % snarkScalarField) % snarkScalarField

-- `addMod(a, -b)`
def subMod (a b : ℕ) : ℕ :=
  (a % snarkScalarField + (snarkScalarField - b % snarkScalarField) % snarkScalarField) %
    snarkScalarField

def padMessage (message : List ℕ) : List ℕ :=
  message ++ List.replicate ((3 - message.length % 3) % 3) 0

def kemSsToLimbs (ss : Bytes) : Except NoteError Point := do
  require (ss.length = 32) (.sharedSecretLength ss.length)
  let le (bytes : Bytes) : ℕ := bytes.foldr (fun b v => v * 256 + b.toNat) 0
  return (le (ss.take 16), le (ss.drop 16))

def offsetNonce (encryptionNonce index : ℕ) : Except NoteError ℕ := do
  let nonce := encryptionNonce + index
  require (nonce < two128) (.nonceEscapes nonce)
  return nonce

def viewTagFromField (tagField : ℕ) : Except NoteError ℕ := do
  require (tagField < snarkScalarField) (.tagOutOfRange tagField)
  return tagField % 256

def plainPadding : Bytes := List.replicate 1056 0

-- Primitives to run the model with: a hash that pairs, points that scale, a key encapsulation in the
-- clear.
def plainPrimitives : Primitives where
  poseidonN xs :=
    if xs.length = 3 ∧ xs.head? = some tagViewtag then xs.sum % 256
    else xs.foldr (fun x n => Nat.pair x n + 1) 0
  poseidonPerm s := s
  base8 := (1, 1)
  mulPointEscalar q k := (q.1 * k, q.2 * k)
  encapsulate _ seed := (seed ++ plainPadding, (seed ++ plainPadding).take 32)
  decapsulate ciphertext _ := some (ciphertext.take 32)

namespace Primitives

variable (p : Primitives)

def commitment (value salt : ℕ) (publicKey : Point) : ℕ :=
  p.poseidonN [value, salt, publicKey.1, publicKey.2]

def nullifier (value salt formattedPrivateKey : ℕ) : ℕ :=
  p.poseidonN [value, salt, formattedPrivateKey]

def publicKey (formattedPrivateKey : ℕ) : Point := p.mulPointEscalar p.base8 formattedPrivateKey

def ecdhSharedSecret (privScalar : ℕ) (pubPoint : Point) : Point :=
  p.mulPointEscalar pubPoint privScalar

def spongeStart (key : Point) (nonce length : ℕ) : Sponge.State ℕ :=
  ⟨0, key.1, key.2, nonce + length * two128⟩

def poseidonEncrypt (message : List ℕ) (key : Point) (nonce : ℕ) : List ℕ :=
  Sponge.encrypt p.poseidonPerm addMod (padMessage message) (spongeStart key nonce message.length)

def poseidonDecrypt (ciphertext : List ℕ) (key : Point) (nonce length : ℕ) : List ℕ :=
  (Sponge.decrypt p.poseidonPerm subMod ciphertext (spongeStart key nonce length)).take length

def hybridReceiverKey (ecdhShared kemSs : Point) : Point :=
  let tail := [ecdhShared.1, ecdhShared.2, kemSs.1, kemSs.2]
  (p.poseidonN (tagRk0 :: tail), p.poseidonN (tagRk1 :: tail))

def consumerViewTag (ecdhShared : Point) : Except NoteError ℕ :=
  viewTagFromField (p.poseidonN [tagViewtag, ecdhShared.1, ecdhShared.2])

def encryptConsumerNote (value salt : ℕ) (receiverKey : Point) (encryptionNonce index : ℕ) :
    Except NoteError (List ℕ) := do
  let nonce ← offsetNonce encryptionNonce index
  return p.poseidonEncrypt [value, salt] receiverKey nonce

def decryptConsumerNote (cipherText : List ℕ) (receiverKey : Point) (encryptionNonce index : ℕ) :
    Except NoteError (ℕ × ℕ) := do
  require (cipherText.length = consumerCtLen) (.cipherTextLength cipherText.length)
  let nonce ← offsetNonce encryptionNonce index
  let message := p.poseidonDecrypt cipherText receiverKey nonce 2
  return (message.getD 0 0, message.getD 1 0)

structure SealedConsumerOutput where
  cipherText : List ℕ
  viewTag : ℕ
  kemCiphertext : Bytes
  kemSs : Point
  receiverKey : Point
  ecdhShared : Point
deriving DecidableEq

def sealConsumerOutput (value salt ephemeralPriv : ℕ) (viewPub : Point) (kemEk : Bytes)
    (encryptionNonce index : ℕ) (encapSeed : Bytes) : Except NoteError SealedConsumerOutput := do
  let ecdhShared := p.ecdhSharedSecret ephemeralPriv viewPub
  let (kemCiphertext, sharedSecret) := p.encapsulate kemEk encapSeed
  let kemSs ← kemSsToLimbs sharedSecret
  let receiverKey := p.hybridReceiverKey ecdhShared kemSs
  let cipherText ← p.encryptConsumerNote value salt receiverKey encryptionNonce index
  let viewTag ← p.consumerViewTag ecdhShared
  return ⟨cipherText, viewTag, kemCiphertext, kemSs, receiverKey, ecdhShared⟩

structure OpenedConsumerOutput where
  value : ℕ
  salt : ℕ
  viewTag : ℕ
deriving DecidableEq

def openConsumerOutput (cipherText : List ℕ) (ecdhPublicKey : Point) (viewPriv : ℕ)
    (kemDk kemCiphertext : Bytes) (encryptionNonce index : ℕ) :
    Except NoteError OpenedConsumerOutput := do
  let ecdhShared := p.ecdhSharedSecret viewPriv ecdhPublicKey
  let sharedSecret ← (p.decapsulate kemCiphertext kemDk).elim (.error .decapsulation) .ok
  let kemSs ← kemSsToLimbs sharedSecret
  let receiverKey := p.hybridReceiverKey ecdhShared kemSs
  let (value, salt) ← p.decryptConsumerNote cipherText receiverKey encryptionNonce index
  let viewTag ← p.consumerViewTag ecdhShared
  return ⟨value, salt, viewTag⟩

end Primitives

theorem snarkScalarField_pos : 0 < snarkScalarField := by
  decide

theorem subMod_addMod (a b : ℕ) : subMod (addMod a b) b = a % snarkScalarField := by
  have hb := Nat.mod_lt b snarkScalarField_pos
  unfold subMod addMod
  rw [Nat.mod_mod, ← Nat.add_mod, Nat.add_assoc]
  conv_lhs => rw [Nat.add_mod, Nat.mod_mod]
  have hcancel : (b % snarkScalarField + (snarkScalarField - b % snarkScalarField)) =
      snarkScalarField := by omega
  rw [← Nat.add_mod, hcancel, Nat.add_mod_right]

section RoundTrip

variable {p : Primitives} {value salt nonce index : ℕ} {key : Point} {cipherText : List ℕ}

theorem length_padMessage (message : List ℕ) :
    (padMessage message).length = message.length + (3 - message.length % 3) % 3 := by
  rw [padMessage, List.length_append, List.length_replicate]

theorem three_dvd_padMessage (message : List ℕ) : 3 ∣ (padMessage message).length := by
  rw [length_padMessage]
  omega

theorem length_poseidonEncrypt (message : List ℕ) : (p.poseidonEncrypt message key nonce).length =
    message.length + (3 - message.length % 3) % 3 + 1 := by
  obtain ⟨blocks, hblocks⟩ := three_dvd_padMessage message
  rw [Primitives.poseidonEncrypt, Sponge.encrypt, List.length_append, Sponge.length_absorb blocks _ _ hblocks,
    ← hblocks, length_padMessage, List.length_singleton]

theorem poseidonDecrypt_poseidonEncrypt {message : List ℕ} (hfield : ∀ m ∈ message, m < snarkScalarField) :
    p.poseidonDecrypt (p.poseidonEncrypt message key nonce) key nonce message.length = message := by
  have hdecrypt : Sponge.decrypt p.poseidonPerm subMod (p.poseidonEncrypt message key nonce)
      (Primitives.spongeStart key nonce message.length) = (padMessage message).map (· % snarkScalarField) :=
    Sponge.decrypt_encrypt subMod_addMod _ (three_dvd_padMessage message)
  have hsame : message.map (· % snarkScalarField) = message := by
    conv_rhs => rw [← List.map_id message]
    exact List.map_congr_left fun m hm => Nat.mod_eq_of_lt (hfield m hm)
  rw [Primitives.poseidonDecrypt, hdecrypt, padMessage, List.map_append, hsame, List.take_left]

theorem poseidonDecrypt_encrypt (hvalue : value < snarkScalarField) (hsalt : salt < snarkScalarField) :
    p.poseidonDecrypt (p.poseidonEncrypt [value, salt] key nonce) key nonce 2 = [value, salt] :=
  poseidonDecrypt_poseidonEncrypt (by simp [hvalue, hsalt])

theorem offsetNonce_ok {nonce' : ℕ} :
    offsetNonce nonce index = .ok nonce' ↔ nonce + index < two128 ∧ nonce' = nonce + index := by
  simp only [offsetNonce, bind_ok, require_ok]
  constructor
  · rintro ⟨_, hlt, ⟨⟩⟩
    exact ⟨hlt, rfl⟩
  · rintro ⟨hlt, rfl⟩
    exact ⟨(), hlt, rfl⟩

theorem encryptConsumerNote_ok (h : p.encryptConsumerNote value salt key nonce index = .ok cipherText) :
    nonce + index < two128 ∧ cipherText = p.poseidonEncrypt [value, salt] key (nonce + index) := by
  simp only [Primitives.encryptConsumerNote, bind_ok, offsetNonce_ok] at h
  obtain ⟨_, ⟨hlt, rfl⟩, ⟨⟩⟩ := h
  exact ⟨hlt, rfl⟩

theorem decryptConsumerNote_ok (hlen : cipherText.length = consumerCtLen) (hlt : nonce + index < two128) :
    p.decryptConsumerNote cipherText key nonce index =
      .ok ((p.poseidonDecrypt cipherText key (nonce + index) 2).getD 0 0,
        (p.poseidonDecrypt cipherText key (nonce + index) 2).getD 1 0) := by
  simp only [Primitives.decryptConsumerNote, bind_ok, require_ok, offsetNonce_ok]
  exact ⟨(), hlen, nonce + index, ⟨hlt, rfl⟩, rfl⟩

theorem decrypt_encryptConsumerNote (hvalue : value < snarkScalarField) (hsalt : salt < snarkScalarField)
    (h : p.encryptConsumerNote value salt key nonce index = .ok cipherText) :
    p.decryptConsumerNote cipherText key nonce index = .ok (value, salt) := by
  obtain ⟨hlt, rfl⟩ := encryptConsumerNote_ok h
  rw [decryptConsumerNote_ok rfl hlt, poseidonDecrypt_encrypt hvalue hsalt]
  rfl

theorem sealConsumerOutput_ok {ephemeralPriv : ℕ} {viewPub : Point} {kemEk encapSeed : Bytes}
    {out : Primitives.SealedConsumerOutput}
    (h : p.sealConsumerOutput value salt ephemeralPriv viewPub kemEk nonce index encapSeed = .ok out) :
    out.kemCiphertext = (p.encapsulate kemEk encapSeed).1 ∧
    kemSsToLimbs (p.encapsulate kemEk encapSeed).2 = .ok out.kemSs ∧
    p.consumerViewTag (p.ecdhSharedSecret ephemeralPriv viewPub) = .ok out.viewTag ∧
    p.encryptConsumerNote value salt
      (p.hybridReceiverKey (p.ecdhSharedSecret ephemeralPriv viewPub) out.kemSs) nonce index =
      .ok out.cipherText := by
  simp only [Primitives.sealConsumerOutput, bind_ok] at h
  obtain ⟨kemSs, hss, cipherText, hct, viewTag, htag, hout⟩ := h
  cases hout
  exact ⟨rfl, hss, htag, hct⟩

-- A note sealed to a view key and an encapsulation key opens under their private halves.
theorem open_sealConsumerOutput {ephemeralPriv viewPriv : ℕ} {kemEk kemDk encapSeed : Bytes}
    {out : Primitives.SealedConsumerOutput} (hvalue : value < snarkScalarField)
    (hsalt : salt < snarkScalarField)
    (hecdh : p.mulPointEscalar (p.mulPointEscalar p.base8 ephemeralPriv) viewPriv =
      p.mulPointEscalar (p.mulPointEscalar p.base8 viewPriv) ephemeralPriv)
    (hkem : p.decapsulate (p.encapsulate kemEk encapSeed).1 kemDk = some (p.encapsulate kemEk encapSeed).2)
    (h : p.sealConsumerOutput value salt ephemeralPriv (p.publicKey viewPriv) kemEk nonce index encapSeed =
      .ok out) :
    p.openConsumerOutput out.cipherText (p.publicKey ephemeralPriv) viewPriv kemDk out.kemCiphertext
      nonce index = .ok ⟨value, salt, out.viewTag⟩ := by
  obtain ⟨hct, hss, htag, hencrypt⟩ := sealConsumerOutput_ok h
  have hshared : p.ecdhSharedSecret viewPriv (p.publicKey ephemeralPriv) =
      p.ecdhSharedSecret ephemeralPriv (p.publicKey viewPriv) := hecdh
  simp only [Primitives.openConsumerOutput, bind_ok, hct, hkem, hshared]
  refine ⟨_, rfl, out.kemSs, hss, (value, salt), ?_, ?_⟩
  · exact decrypt_encryptConsumerNote hvalue hsalt hencrypt
  · exact ⟨out.viewTag, htag, rfl⟩

theorem openConsumerOutput_total {viewPriv : ℕ} {eph : Point} {kemDk kem ss : Bytes}
    (hkem : p.decapsulate kem kemDk = some ss) (hss : ss.length = 32)
    (htag : p.poseidonN [tagViewtag, (p.ecdhSharedSecret viewPriv eph).1,
      (p.ecdhSharedSecret viewPriv eph).2] < snarkScalarField)
    (hlen : cipherText.length = consumerCtLen) :
    (∃ opened, p.openConsumerOutput cipherText eph viewPriv kemDk kem nonce index = .ok opened) ↔
      nonce + index < two128 := by
  constructor
  · rintro ⟨opened, h⟩
    simp only [Primitives.openConsumerOutput, Primitives.decryptConsumerNote, bind_ok, require_ok,
      offsetNonce_ok] at h
    obtain ⟨_, -, _, -, _, ⟨_, -, _, ⟨hlt, -⟩, -⟩, -⟩ := h
    exact hlt
  · intro hlt
    have htag' : ∃ tag, p.consumerViewTag (p.ecdhSharedSecret viewPriv eph) = .ok tag := by
      simp only [Primitives.consumerViewTag, viewTagFromField, bind_ok, require_ok]
      exact ⟨_, (), htag, rfl⟩
    obtain ⟨tag, htag'⟩ := htag'
    have hlimbs : ∃ limbs, kemSsToLimbs ss = .ok limbs := by
      simp only [kemSsToLimbs, bind_ok, require_ok]
      exact ⟨_, (), hss, rfl⟩
    obtain ⟨limbs, hlimbs⟩ := hlimbs
    simp only [Primitives.openConsumerOutput, bind_ok, hkem]
    exact ⟨_, _, rfl, limbs, hlimbs, _, decryptConsumerNote_ok hlen hlt, tag, htag', rfl⟩

end RoundTrip

end Bongtu.Core
