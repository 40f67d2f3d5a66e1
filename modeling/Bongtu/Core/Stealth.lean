import Bongtu.Core.AddressTrip
import Bongtu.Utf8
import Mathlib.Data.ZMod.Basic

namespace Bongtu.Core

open Outcome ByteOrder

def secp256k1Order : ℕ := 0xfffffffffffffffffffffffffffffffebaaedce6af48a03bbfd25e8cd0364141

-- The spend half's curve, as its library gives it; a point's bytes are compressed with the flag.
structure Secp256k1 (P : Type) where
  base : P
  toBytes : P → Bool → Bytes
  fromBytes : Bytes → Option P

structure Secp256k1.Lawful {P : Type} [AddCommGroup P] (c : Secp256k1 P) : Prop where
  order : addOrderOf c.base = secp256k1Order
  fromBytes_toBytes : ∀ p ≠ 0, c.fromBytes (c.toBytes p true) = some p

inductive StealthError where
  | outOfRange (name : String)
  | pubkey (e : PubkeyError)
  | spendPubHex
  | spendPubPoint
  | zeroTweak
  | infinity
  | zeroSpendKey
  | invalidScalar
  | portalSalt
  | badHex (name : String) (byteLen : ℕ)
deriving DecidableEq, Repr

structure StealthMetaAddress where
  viewPub : String
  spendPub : String
deriving DecidableEq, Repr

structure StealthKeys where
  viewPriv : ℕ
  spendPriv : ℕ
  metaAddress : StealthMetaAddress
deriving DecidableEq, Repr

structure StealthDerivation where
  ephemeralPub : String
  viewTag : UInt8
  address : String
deriving DecidableEq, Repr

structure SharedDigest where
  viewTag : UInt8
  tweak : ℕ

structure StealthScan where
  viewTag : UInt8
  address : String
deriving DecidableEq, Repr

structure StealthSpend where
  privateKey : String
  address : String
deriving DecidableEq, Repr

def checkScalarRange (name : String) (value : ℤ) (order : ℕ) : Except StealthError ℕ :=
  if value ≤ 0 ∨ order ≤ value then .error (.outOfRange name) else .ok value.toNat

def hexText (bytes : Bytes) : String := bytesToHex (bytes.map UInt8.toNat)

def stealthDomainTag : Bytes := Utf8.encode "bongtu/stealth-v1".toList

section Derivation

variable {P : Type} [AddCommGroup P] [DecidableEq P] (c : Secp256k1 P) (keccak256 : Bytes → Digest)

-- `BASE.multiply` of the library.
def Secp256k1.multiply (n : ℕ) : Except StealthError P :=
  if 0 < n ∧ n < secp256k1Order then .ok (n • c.base) else .error .invalidScalar

def stealthKeysFromScalars (viewPriv spendPriv : ℤ) : Except StealthError StealthKeys := do
  let v ← checkScalarRange "viewPriv" viewPriv subgroupOrder
  let s ← checkScalarRange "spendPriv" spendPriv secp256k1Order
  let spendPub ← c.multiply s
  return ⟨v, s, ⟨packPubkey (babyJub.mulPointEscalar babyJub.base8 v), hexText (c.toBytes spendPub true)⟩⟩

def sharedSecretDigest (shared : Point) : Except StealthError SharedDigest :=
  let h := (keccak256 (stealthDomainTag ++ toLE 32 shared.1 ++ toLE 32 shared.2)).1
  let tweak := fromBE h % secp256k1Order
  if tweak = 0 then .error .zeroTweak else .ok ⟨h.headD 0, tweak⟩

def addressFromPoint (p : P) : Except StealthError String :=
  if p = 0 then .error .infinity
  else .ok (hexText ((keccak256 ((c.toBytes p false).drop 1)).1.drop 12))

def parseSpendPub (spendPub : String) : Except StealthError P :=
  match hexBytes (strip0x spendPub) with
  | none => .error .spendPubHex
  | some bytes => (c.fromBytes (bytes.map UInt8.ofNat)).elim (.error .spendPubPoint) .ok

def tweakToAddress (spendPubPoint : P) (shared : Point) : Except StealthError StealthScan := do
  let digest ← sharedSecretDigest keccak256 shared
  let tweaked ← c.multiply digest.tweak
  let address ← addressFromPoint c keccak256 (spendPubPoint + tweaked)
  return ⟨digest.viewTag, address⟩

def deriveStealthAddress (metaAddress : StealthMetaAddress) (ephemeralPriv : ℤ) :
    Except StealthError StealthDerivation := do
  let r ← checkScalarRange "ephemeralPriv" ephemeralPriv subgroupOrder
  let viewPubPoint ← (babyJub.unpackPubkey metaAddress.viewPub).mapError .pubkey
  let spendPubPoint ← parseSpendPub c metaAddress.spendPub
  let derived ← tweakToAddress c keccak256 spendPubPoint (babyJub.mulPointEscalar viewPubPoint r)
  return ⟨packPubkey (babyJub.mulPointEscalar babyJub.base8 r), derived.viewTag, derived.address⟩

def scanStealthAnnouncement (viewPriv : ℤ) (spendPub ephemeralPub : String) : Except StealthError StealthScan := do
  let v ← checkScalarRange "viewPriv" viewPriv subgroupOrder
  let spendPubPoint ← parseSpendPub c spendPub
  let ephemeral ← (babyJub.unpackPubkey ephemeralPub).mapError .pubkey
  tweakToAddress c keccak256 spendPubPoint (babyJub.mulPointEscalar ephemeral v)

def recoverStealthKey (viewPriv spendPriv : ℤ) (ephemeralPub : String) : Except StealthError StealthSpend := do
  let v ← checkScalarRange "viewPriv" viewPriv subgroupOrder
  let s ← checkScalarRange "spendPriv" spendPriv secp256k1Order
  let ephemeral ← (babyJub.unpackPubkey ephemeralPub).mapError .pubkey
  let digest ← sharedSecretDigest keccak256 (babyJub.mulPointEscalar ephemeral v)
  let p := (s + digest.tweak) % secp256k1Order
  require (p ≠ 0) .zeroSpendKey
  let point ← c.multiply p
  let address ← addressFromPoint c keccak256 point
  return ⟨hexText (toLE 32 p).reverse, address⟩

-- The account a private key's text controls.
def keyAddress (privateKey : String) : Except StealthError String :=
  match hexBytes (strip0x privateKey) with
  | none => .error .invalidScalar
  | some bytes => c.multiply (fromBE (bytes.map UInt8.ofNat)) >>= addressFromPoint c keccak256

end Derivation

section Portal

-- `0x` and two hex digits for each byte.
def hexBody (byteLen : ℕ) (value : String) : Option (List Char) :=
  match value.toList with
  | '0' :: 'x' :: h => if h.length = 2 * byteLen ∧ h.all fun c => (hexDigit c).isSome then some h else none
  | _ => none

def portalSalt (stealthAddress : String) : Except StealthError String :=
  match hexBody 20 stealthAddress with
  | none => .error .portalSalt
  | some h => .ok ("0x" ++ String.ofList (List.replicate 24 '0' ++ h.map lowerChar))

def parseHexBytes (name value : String) (byteLen : ℕ) : Except StealthError Bytes :=
  match (hexBody byteLen value).bind hexBytes with
  | none => .error (.badHex name byteLen)
  | some bytes => .ok (bytes.map UInt8.ofNat)

variable (keccak256 : Bytes → Digest)

def toChecksumAddress (lower : String) : String :=
  let body := lower.toList.drop 2
  let digest := byteDigits ((keccak256 (Utf8.encode body)).1.map UInt8.toNat)
  "0x" ++ String.ofList (body.mapIdx fun i ch => if (digest[i]?.bind hexDigit).any (8 ≤ ·) then ch.toUpper else ch)

def create2Address (factory salt initCodeHash : String) : Except StealthError String := do
  let factoryBytes ← parseHexBytes "factory" factory 20
  let saltBytes ← parseHexBytes "salt" salt 32
  let hashBytes ← parseHexBytes "initCodeHash" initCodeHash 32
  let digest := (keccak256 (0xff :: (factoryBytes ++ saltBytes ++ hashBytes))).1
  return toChecksumAddress keccak256 (hexText (digest.drop 12))

structure PortalFactory where
  this : ℕ
  sweeperInitCodeHash : ℕ

def PortalFactory.addressOf (f : PortalFactory) (salt : ℕ) : ℕ :=
  fromBE (keccak256 (0xff :: (toBE 20 f.this ++ toBE 32 salt ++ toBE 32 f.sweeperInitCodeHash))).1 % 2 ^ 160

end Portal

section Agreement

variable {P : Type} [AddCommGroup P] {c : Secp256k1 P} {keccak256 : Bytes → Digest}

theorem checkScalarRange_ok {name : String} {value : ℤ} {order : ℕ} (hpos : 0 < value) (hlt : value < order) :
    checkScalarRange name value order = .ok value.toNat := if_neg (by omega)

theorem hexBytes_hexText (bytes : Bytes) : hexBytes (strip0x (hexText bytes)) = some (bytes.map UInt8.toNat) := by
  rw [hexText, strip0x_bytesToHex, hexBytes_byteDigits]
  intro b hb
  obtain ⟨b, -, rfl⟩ := List.mem_map.1 hb
  exact b.toNat_lt

theorem ofNat_toNat (bytes : Bytes) : (bytes.map UInt8.toNat).map UInt8.ofNat = bytes := by
  rw [List.map_map]
  exact (List.map_congr_left fun b _ => UInt8.ofNat_toNat).trans (List.map_id _)

theorem parseSpendPub_hexText (h : c.Lawful) {p : P} (hp : p ≠ 0) :
    parseSpendPub c (hexText (c.toBytes p true)) = .ok p := by
  simp only [parseSpendPub, hexBytes_hexText, ofNat_toNat, h.fromBytes_toBytes p hp, Option.elim_some]

-- A multiple of the base point is the point at infinity when the order divides its number.
theorem nsmul_base_eq_zero (h : c.Lawful) {n : ℕ} : n • c.base = 0 ↔ n % secp256k1Order = 0 := by
  rw [← addOrderOf_dvd_iff_nsmul_eq_zero, h.order, Nat.dvd_iff_mod_eq_zero]

theorem nsmul_mod (h : c.Lawful) (n : ℕ) : (n % secp256k1Order) • c.base = n • c.base := by
  rw [← h.order, mod_addOrderOf_nsmul]

theorem sharedSecretDigest_ok {shared : Point} {digest : SharedDigest}
    (h : sharedSecretDigest keccak256 shared = .ok digest) : 0 < digest.tweak ∧ digest.tweak < secp256k1Order := by
  unfold sharedSecretDigest at h
  dsimp only at h
  split at h
  · exact absurd h (by simp)
  · next hzero =>
    obtain rfl := Except.ok.inj h
    exact ⟨Nat.pos_of_ne_zero hzero, Nat.mod_lt _ (by decide)⟩

theorem multiply_ok {n : ℕ} (hpos : 0 < n) (hlt : n < secp256k1Order) : c.multiply n = .ok (n • c.base) :=
  if_pos ⟨hpos, hlt⟩

theorem stealthKeysFromScalars_ok {v s : ℤ} (hv : 0 < v ∧ v < subgroupOrder) (hs : 0 < s ∧ s < secp256k1Order) :
    stealthKeysFromScalars c v s =
    .ok ⟨v.toNat, s.toNat, ⟨packPubkey (babyJub.mulPointEscalar babyJub.base8 v.toNat),
      hexText (c.toBytes (s.toNat • c.base) true)⟩⟩ := by
  rw [stealthKeysFromScalars, checkScalarRange_ok hv.1 hv.2, checkScalarRange_ok hs.1 hs.2]
  change (c.multiply s.toNat >>= _) = _
  rw [multiply_ok (by omega) (by omega)]
  rfl

variable [DecidableEq P]

theorem tweakToAddress_eq {s : ℕ} {shared : Point} {digest : SharedDigest}
    (hdigest : sharedSecretDigest keccak256 shared = .ok digest) :
    tweakToAddress c keccak256 (s • c.base) shared =
      (addressFromPoint c keccak256 ((s + digest.tweak) • c.base)).map (⟨digest.viewTag, ·⟩) := by
  obtain ⟨hpos, hlt⟩ := sharedSecretDigest_ok hdigest
  rw [tweakToAddress, hdigest]
  change (c.multiply digest.tweak >>= _) = _
  rw [multiply_ok hpos hlt, add_nsmul]
  change (addressFromPoint c keccak256 _ >>= _) = _
  cases addressFromPoint c keccak256 (s • c.base + digest.tweak • c.base) <;> rfl

theorem addressFromPoint_nsmul (keccak256 : Bytes → Digest) (h : c.Lawful) (n : ℕ) :
    (addressFromPoint c keccak256 (n • c.base)).toOption =
      if n % secp256k1Order = 0 then none
      else some (hexText ((keccak256 ((c.toBytes (n • c.base) false).drop 1)).1.drop 12)) := by
  simp only [addressFromPoint, nsmul_base_eq_zero h]
  split <;> rfl

section Ranges

variable {v s : ℤ} (hv : 0 < v ∧ v < subgroupOrder) (hs : 0 < s ∧ s < secp256k1Order)
include hv hs

theorem scan_eq (h : c.Lawful) (ephemeralPub : String) :
    scanStealthAnnouncement c keccak256 v (hexText (c.toBytes (s.toNat • c.base) true)) ephemeralPub =
      (babyJub.unpackPubkey ephemeralPub).mapError .pubkey >>= fun ephemeral =>
        tweakToAddress c keccak256 (s.toNat • c.base) (babyJub.mulPointEscalar ephemeral v.toNat) := by
  have hpoint : s.toNat • c.base ≠ 0 := by
    rw [ne_eq, nsmul_base_eq_zero h, Nat.mod_eq_of_lt (by omega)]
    omega
  rw [scanStealthAnnouncement, checkScalarRange_ok hv.1 hv.2]
  change (parseSpendPub c _ >>= _) = _
  rw [parseSpendPub_hexText h hpoint]
  rfl

-- The spend key is the sum of the scalar and the tweak, where it is not zero.
theorem recover_eq (h : c.Lawful) {ephemeralPub : String} {ephemeral : Point} {digest : SharedDigest}
    (hephemeral : babyJub.unpackPubkey ephemeralPub = .ok ephemeral)
    (hdigest : sharedSecretDigest keccak256 (babyJub.mulPointEscalar ephemeral v.toNat) = .ok digest) :
    recoverStealthKey c keccak256 v s ephemeralPub =
      if (s.toNat + digest.tweak) % secp256k1Order = 0 then .error .zeroSpendKey
      else (addressFromPoint c keccak256 ((s.toNat + digest.tweak) • c.base)).map
        (⟨hexText (toLE 32 ((s.toNat + digest.tweak) % secp256k1Order)).reverse, ·⟩) := by
  have hlt : (s.toNat + digest.tweak) % secp256k1Order < secp256k1Order := Nat.mod_lt _ (by decide)
  rw [recoverStealthKey, checkScalarRange_ok hv.1 hv.2, checkScalarRange_ok hs.1 hs.2]
  change ((babyJub.unpackPubkey ephemeralPub).mapError StealthError.pubkey >>= _) = _
  rw [hephemeral]
  change (sharedSecretDigest keccak256 _ >>= _) = _
  rw [hdigest]
  change (require ((s.toNat + digest.tweak) % secp256k1Order ≠ 0) StealthError.zeroSpendKey >>= _) = _
  split
  · next hzero =>
    rw [require, if_neg (not_not.2 hzero)]
    rfl
  · next hzero =>
    rw [require, if_pos hzero]
    change (c.multiply ((s.toNat + digest.tweak) % secp256k1Order) >>= _) = _
    rw [multiply_ok (Nat.pos_of_ne_zero hzero) hlt, nsmul_mod h]
    change (addressFromPoint c keccak256 _ >>= _) = _
    cases addressFromPoint c keccak256 ((s.toNat + digest.tweak) • c.base) <;> rfl

theorem scan_agrees_recover (keccak256 : Bytes → Digest) (h : c.Lawful) (ephemeralPub : String) :
    (scanStealthAnnouncement c keccak256 v (hexText (c.toBytes (s.toNat • c.base) true)) ephemeralPub).toOption.map
        StealthScan.address =
      (recoverStealthKey c keccak256 v s ephemeralPub).toOption.map StealthSpend.address := by
  rw [scan_eq hv hs h]
  cases hephemeral : babyJub.unpackPubkey ephemeralPub with
  | error e =>
    rw [recoverStealthKey, checkScalarRange_ok hv.1 hv.2, checkScalarRange_ok hs.1 hs.2]
    change none = Option.map _ (Except.toOption ((babyJub.unpackPubkey ephemeralPub).mapError StealthError.pubkey >>= _))
    rw [hephemeral]
    rfl
  | ok ephemeral =>
    change Option.map _ (tweakToAddress c keccak256 _ _).toOption = _
    cases hdigest : sharedSecretDigest keccak256 (babyJub.mulPointEscalar ephemeral v.toNat) with
    | error e =>
      rw [tweakToAddress, hdigest, recoverStealthKey, checkScalarRange_ok hv.1 hv.2, checkScalarRange_ok hs.1 hs.2]
      change none = Option.map _ (Except.toOption ((babyJub.unpackPubkey ephemeralPub).mapError StealthError.pubkey >>= _))
      rw [hephemeral]
      change none = Option.map _ (Except.toOption (sharedSecretDigest keccak256 _ >>= _))
      rw [hdigest]
      rfl
    | ok digest =>
      have haddress := addressFromPoint_nsmul keccak256 h (s.toNat + digest.tweak)
      rw [tweakToAddress_eq hdigest, recover_eq hv hs h hephemeral hdigest]
      split
      · next hzero =>
        rw [if_pos hzero] at haddress
        cases hpoint : addressFromPoint c keccak256 ((s.toNat + digest.tweak) • c.base) with
        | error e => rfl
        | ok address => exact absurd (hpoint ▸ haddress) (by simp [Except.toOption])
      · cases addressFromPoint c keccak256 ((s.toNat + digest.tweak) • c.base) <;> rfl

theorem recover_ok (h : c.Lawful) {ephemeralPub : String} {spend : StealthSpend}
    (hspend : recoverStealthKey c keccak256 v s ephemeralPub = .ok spend) :
    keyAddress c keccak256 spend.privateKey = .ok spend.address := by
  have hrun := hspend
  rw [recoverStealthKey, checkScalarRange_ok hv.1 hv.2, checkScalarRange_ok hs.1 hs.2] at hrun
  change ((babyJub.unpackPubkey ephemeralPub).mapError StealthError.pubkey >>= _) = _ at hrun
  obtain ⟨ephemeral, hephemeral, hrun⟩ := bind_ok.1 hrun
  obtain ⟨digest, hdigest, -⟩ := bind_ok.1 hrun
  rw [recover_eq hv hs h (mapError_ok.1 hephemeral) hdigest] at hspend
  split at hspend
  · exact absurd hspend (by simp)
  · next hzero =>
    have hlt : (s.toNat + digest.tweak) % secp256k1Order < secp256k1Order := Nat.mod_lt _ (by decide)
    cases haddress : addressFromPoint c keccak256 ((s.toNat + digest.tweak) • c.base) with
    | error e => exact absurd (haddress ▸ hspend) (by simp [Except.map])
    | ok address =>
      rw [haddress] at hspend
      obtain rfl := Except.ok.inj hspend
      have hnumber : fromBE (toLE 32 ((s.toNat + digest.tweak) % secp256k1Order)).reverse =
          (s.toNat + digest.tweak) % secp256k1Order := by
        rw [fromBE_eq, List.reverse_reverse, fromLE_toLE, Nat.mod_eq_of_lt (hlt.trans (by decide))]
      simp only [keyAddress, hexBytes_hexText, ofNat_toNat, hnumber]
      rw [multiply_ok (Nat.pos_of_ne_zero hzero) hlt, nsmul_mod h]
      exact haddress

theorem derive_eq_scan (h : c.Lawful) {r : ℤ} (hr : 0 < r ∧ r < subgroupOrder) :
    deriveStealthAddress c keccak256 ⟨packPubkey (babyJub.mulPointEscalar babyJub.base8 v.toNat),
        hexText (c.toBytes (s.toNat • c.base) true)⟩ r =
      (scanStealthAnnouncement c keccak256 v (hexText (c.toBytes (s.toNat • c.base) true))
        (packPubkey (babyJub.mulPointEscalar babyJub.base8 r.toNat))).map fun found =>
          ⟨packPubkey (babyJub.mulPointEscalar babyJub.base8 r.toNat), found.viewTag, found.address⟩ := by
  have hpoint : s.toNat • c.base ≠ 0 := by
    rw [ne_eq, nsmul_base_eq_zero h, Nat.mod_eq_of_lt (by omega)]
    omega
  rw [scan_eq hv hs h, unpackPubkey_publicKey, deriveStealthAddress, checkScalarRange_ok hr.1 hr.2]
  change (_ >>= _ : Except _ _) = Except.map _ (tweakToAddress c keccak256 _ _)
  rw [unpackPubkey_publicKey, shared_eq r.toNat v.toNat]
  change (parseSpendPub c _ >>= _) = _
  rw [parseSpendPub_hexText h hpoint]
  change (tweakToAddress c keccak256 _ _ >>= _) = _
  cases tweakToAddress c keccak256 (s.toNat • c.base)
    (babyJub.mulPointEscalar (babyJub.mulPointEscalar babyJub.base8 v.toNat) r.toNat) <;> rfl

end Ranges

end Agreement

section Create2

-- The big-endian number a text of `byteLen` bytes stands for.
def hexWord (byteLen : ℕ) (value : String) : Option ℕ :=
  ((hexBody byteLen value).bind hexBytes).map fun bytes => fromBE (bytes.map UInt8.ofNat)

theorem isSome_hexDigit {bytes : List ℕ} (h : ∀ b ∈ bytes, b < 256) {d : Char} (hd : d ∈ byteDigits bytes) :
    ∃ n < 16, d = hexChar n := by
  obtain ⟨b, hb, hd⟩ := List.mem_flatMap.1 hd
  have hsmall := h b hb
  rcases List.mem_pair.1 hd with rfl | rfl
  · exact ⟨b / 16, by omega, rfl⟩
  · exact ⟨b % 16, by omega, rfl⟩

-- Digits are read by their values alone, whatever their case.
theorem hexBytes_congr {cs ds : List Char} (h : cs.map hexDigit = ds.map hexDigit) : hexBytes cs = hexBytes ds := by
  induction cs using hexBytes.induct generalizing ds with
  | case1 =>
    obtain rfl := List.map_eq_nil_iff.1 h.symm
    rfl
  | case2 c =>
    obtain ⟨d, rfl⟩ := List.length_eq_one_iff.1 ((by simpa using (congrArg List.length h).symm) : ds.length = 1)
    rfl
  | case3 c c' rest ih =>
    rcases ds with _ | ⟨d, _ | ⟨d', ds⟩⟩
    · simp at h
    · simp at h
    · simp only [List.map_cons, List.cons.injEq] at h
      rw [hexBytes, hexBytes, h.1, h.2.1, ih h.2.2]

theorem hexBody_of_digits {byteLen : ℕ} {cs ds : List Char} (hlen : cs.length = 2 * byteLen)
    (h : cs.map hexDigit = ds.map hexDigit) (hds : ∀ d ∈ ds, (hexDigit d).isSome) :
    hexBody byteLen ("0x" ++ String.ofList cs) = some cs := by
  have htext : ("0x" ++ String.ofList cs).toList = '0' :: 'x' :: cs := by simp
  have hall : cs.all fun c => (hexDigit c).isSome := by
    refine List.all_eq_true.2 fun c hc => ?_
    obtain ⟨d, hd, hdigit⟩ := List.mem_map.1 (h ▸ List.mem_map_of_mem hc)
    rw [← hdigit]
    exact hds d hd
  rw [hexBody, htext]
  exact if_pos ⟨hlen, hall⟩

theorem hexBytes_length {cs : List Char} {bytes : List ℕ} (h : hexBytes cs = some bytes) : cs.length = 2 * bytes.length := by
  rw [← length_byteDigits, ← (hexBytes_some h).2, List.length_map]

theorem hexBody_some {byteLen : ℕ} {value : String} {h : List Char} (hbody : hexBody byteLen value = some h) :
    h.length = 2 * byteLen ∧ ∀ c ∈ h, (hexDigit c).isSome := by
  unfold hexBody at hbody
  split at hbody
  · split at hbody
    · next hh =>
      obtain rfl := Option.some.inj hbody
      exact ⟨hh.1, List.all_eq_true.1 hh.2⟩
    · exact absurd hbody (by simp)
  · exact absurd hbody (by simp)

theorem hexWord_some {byteLen n : ℕ} {value : String} (h : hexWord byteLen value = some n) :
    ∃ body bytes, hexBody byteLen value = some body ∧ hexBytes body = some bytes ∧
      bytes.map UInt8.ofNat = toBE byteLen n ∧ n < 256 ^ byteLen := by
  simp only [hexWord, Option.map_eq_some_iff, Option.bind_eq_some_iff] at h
  obtain ⟨bytes, ⟨body, hbody, hbytes⟩, rfl⟩ := h
  have hlen : (bytes.map UInt8.ofNat).length = byteLen := by
    have hdigits := hexBytes_length hbytes
    rw [(hexBody_some hbody).1] at hdigits
    rw [List.length_map]
    omega
  have hbound := fromBE_lt (bytes.map UInt8.ofNat)
  have hback := toBE_fromBE (bytes.map UInt8.ofNat)
  rw [hlen] at hbound hback
  exact ⟨body, bytes, hbody, hbytes, hback.symm, hbound⟩

theorem parseHexBytes_ok {name value : String} {byteLen n : ℕ} (h : hexWord byteLen value = some n) :
    parseHexBytes name value byteLen = .ok (toBE byteLen n) := by
  obtain ⟨body, bytes, hbody, hbytes, hword, -⟩ := hexWord_some h
  simp only [parseHexBytes, hbody, Option.bind_some, hbytes, hword]

theorem byteDigits_append (bytes bytes' : List ℕ) : byteDigits (bytes ++ bytes') = byteDigits bytes ++ byteDigits bytes' :=
  List.flatMap_append

theorem toNat_lt (bytes : Bytes) : ∀ b ∈ bytes.map UInt8.toNat, b < 256 := fun _ => byte_lt

theorem hexWord_text {bytes : Bytes} {cs : List Char}
    (h : cs.map hexDigit = (byteDigits (bytes.map UInt8.toNat)).map hexDigit) :
    hexWord bytes.length ("0x" ++ String.ofList cs) = some (fromBE bytes) := by
  have hlen : cs.length = 2 * bytes.length := by
    rw [← List.length_map (f := hexDigit), h, List.length_map, length_byteDigits, List.length_map]
  have hbody := hexBody_of_digits hlen h fun d hd => by
    obtain ⟨n, hn, rfl⟩ := isSome_hexDigit (toNat_lt bytes) hd
    rw [hexDigit_hexChar hn]
    rfl
  rw [hexWord, hbody, Option.bind_some, hexBytes_congr h, hexBytes_byteDigits (toNat_lt bytes), Option.map_some, ofNat_toNat]

theorem hexWord_hexText (bytes : Bytes) : hexWord bytes.length (hexText bytes) = some (fromBE bytes) :=
  hexWord_text rfl

theorem hexDigit_toUpper {n : ℕ} (h : n < 16) : hexDigit (hexChar n).toUpper = hexDigit (hexChar n) := by
  interval_cases n <;> rfl

-- The checksum changes the case of letters and nothing else.
theorem hexWord_toChecksumAddress (keccak256 : Bytes → Digest) (bytes : Bytes) :
    hexWord bytes.length (toChecksumAddress keccak256 (hexText bytes)) = some (fromBE bytes) := by
  have hbody : (hexText bytes).toList.drop 2 = byteDigits (bytes.map UInt8.toNat) := by
    simp [hexText, bytesToHex_eq]
  rw [toChecksumAddress, hbody]
  refine hexWord_text (List.ext_getElem? fun i => ?_)
  simp only [List.getElem?_map, List.getElem?_mapIdx, Option.map_map]
  cases hd : (byteDigits (bytes.map UInt8.toNat))[i]? with
  | none => rfl
  | some d =>
    obtain ⟨n, hn, rfl⟩ := isSome_hexDigit (toNat_lt bytes) (List.mem_of_getElem? hd)
    simp only [Option.map_some, Function.comp_apply]
    split
    · rw [hexDigit_toUpper hn]
    · rfl

theorem portalSalt_ok {stealthAddress : String} {a : ℕ} (h : hexWord 20 stealthAddress = some a) :
    ∃ salt, portalSalt stealthAddress = .ok salt ∧ hexWord 32 salt = some a := by
  obtain ⟨body, bytes, hbody, hbytes, hword, hlt⟩ := hexWord_some h
  obtain ⟨hsmall, hlower⟩ := hexBytes_some hbytes
  have hdigits : List.replicate 24 '0' ++ body.map lowerChar =
      byteDigits ((List.replicate 12 0 ++ toBE 20 a).map UInt8.toNat) := by
    have hback : bytes = (toBE 20 a).map UInt8.toNat := by
      rw [← hword, List.map_map]
      exact ((List.map_congr_left fun b hb => UInt8.toNat_ofNat_of_lt' (hsmall b hb)).trans (List.map_id _)).symm
    rw [hlower, List.map_append, byteDigits_append, ← hback]
    rfl
  refine ⟨_, by rw [portalSalt, hbody], ?_⟩
  have hsalt : hexWord (List.replicate 12 0 ++ toBE 20 a).length _ = _ := hexWord_text (congrArg (List.map hexDigit) hdigits)
  rwa [List.length_append, List.length_replicate, length_toBE, fromBE_zeros, fromBE_toBE, Nat.mod_eq_of_lt hlt] at hsalt

theorem create2Address_ok (keccak256 : Bytes → Digest) (f : PortalFactory) {factory salt initCodeHash : String} {a : ℕ}
    (hfactory : hexWord 20 factory = some f.this) (hsalt : hexWord 32 salt = some a)
    (hhash : hexWord 32 initCodeHash = some f.sweeperInitCodeHash) :
    ∃ text, create2Address keccak256 factory salt initCodeHash = .ok text ∧
      hexWord 20 text = some (f.addressOf keccak256 a) := by
  have hrun : create2Address keccak256 factory salt initCodeHash = .ok (toChecksumAddress keccak256 (hexText
      ((keccak256 (0xff :: (toBE 20 f.this ++ toBE 32 a ++ toBE 32 f.sweeperInitCodeHash))).1.drop 12))) :=
    bind_ok.2 ⟨_, parseHexBytes_ok hfactory, bind_ok.2 ⟨_, parseHexBytes_ok hsalt,
      bind_ok.2 ⟨_, parseHexBytes_ok hhash, rfl⟩⟩⟩
  refine ⟨_, hrun, ?_⟩
  rw [PortalFactory.addressOf]
  generalize keccak256 (0xff :: (toBE 20 f.this ++ toBE 32 a ++ toBE 32 f.sweeperInitCodeHash)) = digest
  have hlen : (digest.1.drop 12).length = 20 := by rw [List.length_drop, digest.2]
  have htext := hexWord_toChecksumAddress keccak256 (digest.1.drop 12)
  have hnumber := fromBE_append (digest.1.take 12) (digest.1.drop 12)
  rw [List.take_append_drop, hlen] at hnumber
  have hlow := fromBE_lt (digest.1.drop 12)
  rw [hlen] at htext hlow
  rw [htext, hnumber, show (2 : ℕ) ^ 160 = 256 ^ 20 by norm_num, Nat.mul_add_mod_self_right, Nat.mod_eq_of_lt hlow]

theorem address_of_derive {P : Type} [AddCommGroup P] [DecidableEq P] {c : Secp256k1 P} {keccak256 : Bytes → Digest}
    {metaAddress : StealthMetaAddress} {r : ℤ} {derived : StealthDerivation}
    (h : deriveStealthAddress c keccak256 metaAddress r = .ok derived) : ∃ a, hexWord 20 derived.address = some a := by
  obtain ⟨r, -, h⟩ := bind_ok.1 h
  obtain ⟨viewPubPoint, -, h⟩ := bind_ok.1 h
  obtain ⟨spendPubPoint, -, h⟩ := bind_ok.1 h
  obtain ⟨found, hfound, h⟩ := bind_ok.1 h
  obtain rfl := Except.ok.inj h
  obtain ⟨digest, -, hfound⟩ := bind_ok.1 hfound
  obtain ⟨tweaked, -, hfound⟩ := bind_ok.1 hfound
  obtain ⟨address, haddress, hfound⟩ := bind_ok.1 hfound
  obtain rfl := Except.ok.inj hfound
  unfold addressFromPoint at haddress
  split at haddress
  · exact absurd haddress (by simp)
  · obtain rfl := Except.ok.inj haddress
    generalize keccak256 _ = digest
    have htext := hexWord_hexText (digest.1.drop 12)
    rw [List.length_drop, digest.2] at htext
    exact ⟨_, htext⟩

-- 5 times the base point, and the point that the sample's tweak takes it to.
def sampleSpendPub : Bytes := toBE 33 0x022f8bde4d1a07209355b4a7250a5c5128e88b84bddc619ab7cba8d569b240efe4

def sampleTweaked : Bytes := toBE 64 0xa4f8bb0f9aee48e1602f667954a69230d573cbbe480898d1e8fd37cc55e55dad42dafd6b727dfc21c830a1f13d7e5bf78e7403f555e35c9bb1ccedcbe9dfaa7d

-- The multiples of the base point, by their numbers.
def sampleSecp : Secp256k1 (ZMod secp256k1Order) where
  base := 1
  toBytes p compressed :=
    if p.val = 5 ∧ compressed then sampleSpendPub
    else if p.val = 68576709157345757630437548797665071033218987292179445234403341050144679269852 ∧ !compressed then 4 :: sampleTweaked
    else 5 :: toBE 32 p.val
  fromBytes bytes :=
    if bytes = sampleSpendPub then some 5
    else match bytes with
      | 5 :: rest => some (fromBE rest : ℕ)
      | _ => none

def sampleKeccak (bytes : Bytes) : Digest :=
  if bytes = stealthDomainTag ++
      toLE 32 10483991165196995731760716870725509190315033255344071753161464961897900552628 ++
      toLE 32 16822899191463256771813724222715007505997804748105685077895991386716774358231 then
    ⟨toBE 32 0x979d0aba00d7cf1706829e7d3f58046f4c90ee25c96c37a24a03d380c9e015d7, length_toBE _ _⟩
  else if bytes = sampleTweaked then
    ⟨toBE 32 0x0cc25cf71605d9bab9499144fe525f10fc437aecd3f845fe8618d0bc9c935f3c, length_toBE _ _⟩
  else if bytes = 0xff :: (toBE 20 0xc0ffee01 ++ toBE 32 0x1111111111111111111111111111111111111111 ++
      toBE 32 0xba3462dadd893a779c089632a4959372f7003b7eb40b31d83b98254d56729265) then
    ⟨toBE 32 0x9926a729baad3f0f970757b14d8bced42ccce66201128569967cd497a64c483d, length_toBE _ _⟩
  else if bytes = Utf8.encode "4d8bced42ccce66201128569967cd497a64c483d".toList then
    ⟨toBE 32 0x72cd76b764de08b454cd1bdbf0c08d3a9bd10126e1016b5492fea8d9193b6074, length_toBE _ _⟩
  else ⟨List.replicate 32 0, rfl⟩

theorem sampleSecp_lawful : sampleSecp.Lawful where
  order := ZMod.addOrderOf_one secp256k1Order
  fromBytes_toBytes p _ := by
    have := NeZero.of_pos (by decide : 0 < secp256k1Order)
    by_cases hp : p.val = 5
    · have hcast := ZMod.natCast_zmod_val p
      rw [hp] at hcast
      have hbytes : sampleSecp.toBytes p true = sampleSpendPub := if_pos ⟨hp, rfl⟩
      rw [hbytes]
      simp only [sampleSecp, if_true]
      rw [← hcast, Nat.cast_ofNat]
    · have hbytes : sampleSecp.toBytes p true = 5 :: toBE 32 p.val :=
        (if_neg fun h => hp h.1).trans (if_neg fun h => absurd h.2 (by decide))
      have hhead : sampleSpendPub.head? = some 2 := by decide
      have hne : 5 :: toBE 32 p.val ≠ sampleSpendPub := by
        intro h
        rw [← h] at hhead
        exact absurd hhead (by simp)
      have hlt : p.val < 256 ^ 32 := p.val_lt.trans (by decide)
      rw [hbytes]
      simp only [sampleSecp, if_neg hne, fromBE_toBE, Nat.mod_eq_of_lt hlt, ZMod.natCast_zmod_val]

-- The sender's destination, the recipient's scan and the spend key agree, and the destination's portal is
-- the factory's.
theorem stealth_agrees {P : Type} [AddCommGroup P] [DecidableEq P] {c : Secp256k1 P} (h : c.Lawful)
    (keccak256 : Bytes → Digest) :
    (∀ v s r : ℤ, 0 < v ∧ v < subgroupOrder → 0 < s ∧ s < secp256k1Order → 0 < r ∧ r < subgroupOrder →
      ∃ keys, stealthKeysFromScalars c v s = .ok keys ∧
        let ephemeralPub := packPubkey (babyJub.mulPointEscalar babyJub.base8 r.toNat)
        ((deriveStealthAddress c keccak256 keys.metaAddress r).toOption = none ↔
          (recoverStealthKey c keccak256 v s ephemeralPub).toOption = none) ∧
        ∀ derived, deriveStealthAddress c keccak256 keys.metaAddress r = .ok derived →
          derived.ephemeralPub = ephemeralPub ∧
          scanStealthAnnouncement c keccak256 v keys.metaAddress.spendPub ephemeralPub =
            .ok ⟨derived.viewTag, derived.address⟩ ∧
          ∃ privateKey, recoverStealthKey c keccak256 v s ephemeralPub = .ok ⟨privateKey, derived.address⟩ ∧
            keyAddress c keccak256 privateKey = .ok derived.address) ∧
    (∀ v s : ℤ, 0 < v ∧ v < subgroupOrder → 0 < s ∧ s < secp256k1Order → ∀ keys,
      stealthKeysFromScalars c v s = .ok keys → ∀ ephemeralPub,
        (scanStealthAnnouncement c keccak256 v keys.metaAddress.spendPub ephemeralPub).toOption.map
            StealthScan.address =
          (recoverStealthKey c keccak256 v s ephemeralPub).toOption.map StealthSpend.address) ∧
    (∀ (f : PortalFactory) (factory initCodeHash : String), hexWord 20 factory = some f.this →
      hexWord 32 initCodeHash = some f.sweeperInitCodeHash → ∀ stealthAddress a,
        hexWord 20 stealthAddress = some a → ∃ salt text, portalSalt stealthAddress = .ok salt ∧
          hexWord 32 salt = some a ∧ create2Address keccak256 factory salt initCodeHash = .ok text ∧
          hexWord 20 text = some (f.addressOf keccak256 a)) ∧
    ∀ metaAddress r derived, deriveStealthAddress c keccak256 metaAddress r = .ok derived →
      ∃ a, hexWord 20 derived.address = some a := by
  refine ⟨fun v s r hv hs hr => ⟨_, stealthKeysFromScalars_ok hv hs, ?_⟩, fun v s hv hs keys hkeys ephemeralPub => ?_,
    fun f factory initCodeHash hfactory hhash stealthAddress a ha => ?_, fun metaAddress r derived => address_of_derive⟩
  · intro ephemeralPub
    have hagree := scan_agrees_recover hv hs keccak256 h ephemeralPub
    dsimp only
    rw [derive_eq_scan hv hs h hr]
    cases hscan : scanStealthAnnouncement c keccak256 v (hexText (c.toBytes (s.toNat • c.base) true)) ephemeralPub with
    | error e =>
      rw [hscan] at hagree
      refine ⟨iff_of_true rfl (Option.map_eq_none_iff.1 hagree.symm), fun derived hderived => ?_⟩
      exact absurd hderived (by simp [Except.map])
    | ok found =>
      rw [hscan] at hagree
      obtain ⟨spend, hspend, haddress⟩ := Option.map_eq_some_iff.1 hagree.symm
      have hrecover : recoverStealthKey c keccak256 v s ephemeralPub = .ok spend := by
        cases hrun : recoverStealthKey c keccak256 v s ephemeralPub with
        | error e =>
          rw [hrun] at hspend
          exact absurd hspend (by simp [Except.toOption])
        | ok spend' =>
          rw [hrun] at hspend
          exact congrArg Except.ok (Option.some.inj hspend)
      refine ⟨iff_of_false (by simp [Except.map, Except.toOption]) (by simp [hspend]), fun derived hderived => ?_⟩
      obtain rfl := Except.ok.inj hderived
      obtain ⟨privateKey, address⟩ := spend
      obtain rfl : address = found.address := haddress
      exact ⟨rfl, rfl, privateKey, hrecover, recover_ok hv hs h hrecover⟩
  · rw [stealthKeysFromScalars_ok hv hs] at hkeys
    obtain rfl := Except.ok.inj hkeys
    exact scan_agrees_recover hv hs keccak256 h ephemeralPub
  · obtain ⟨salt, hsalt, hword⟩ := portalSalt_ok ha
    obtain ⟨text, htext, haddress⟩ := create2Address_ok keccak256 f hfactory hword hhash
    exact ⟨salt, text, hsalt, hword, htext, haddress⟩

theorem stealth_agrees_sample :
    (∃ keys, stealthKeysFromScalars sampleSecp 3 5 = .ok keys ∧
      let ephemeralPub := packPubkey (babyJub.mulPointEscalar babyJub.base8 2)
      ((deriveStealthAddress sampleSecp sampleKeccak keys.metaAddress 2).toOption = none ↔
        (recoverStealthKey sampleSecp sampleKeccak 3 5 ephemeralPub).toOption = none) ∧
      ∀ derived, deriveStealthAddress sampleSecp sampleKeccak keys.metaAddress 2 = .ok derived →
        derived.ephemeralPub = ephemeralPub ∧
        scanStealthAnnouncement sampleSecp sampleKeccak 3 keys.metaAddress.spendPub ephemeralPub =
          .ok ⟨derived.viewTag, derived.address⟩ ∧
        ∃ privateKey, recoverStealthKey sampleSecp sampleKeccak 3 5 ephemeralPub =
            .ok ⟨privateKey, derived.address⟩ ∧
          keyAddress sampleSecp sampleKeccak privateKey = .ok derived.address) ∧
    ∃ salt text, portalSalt "0x1111111111111111111111111111111111111111" = .ok salt ∧
      hexWord 32 salt = some 0x1111111111111111111111111111111111111111 ∧
      create2Address sampleKeccak "0x00000000000000000000000000000000c0ffee01" salt
        "0xba3462dadd893a779c089632a4959372f7003b7eb40b31d83b98254d56729265" = .ok text ∧
      hexWord 20 text = some (PortalFactory.addressOf sampleKeccak
        ⟨0xc0ffee01, 0xba3462dadd893a779c089632a4959372f7003b7eb40b31d83b98254d56729265⟩
        0x1111111111111111111111111111111111111111) := by
  obtain ⟨hkeys, -, hportal, -⟩ := stealth_agrees sampleSecp_lawful sampleKeccak
  exact ⟨hkeys 3 5 2 (by decide) (by decide) (by decide), hportal _ _ _ (by decide) (by decide) _ _ (by decide)⟩

end Create2

end Bongtu.Core
