import Bongtu.Client.OpData
import Bongtu.Indexer.SolanaIngest
import Bongtu.Solana.Dispatch

namespace Bongtu.Indexer

open ByteOrder Core Outcome
open Solana (Word)

-- `Number` of a bigint: the nearest double, ties to the even one.
def number (n : ℕ) : ℕ :=
  if n < 2 ^ 53 then n
  else
    let unit := 2 ^ (n.log2 - 52)
    let below := n / unit
    let rest := n % unit
    if 2 * rest < unit ∨ 2 * rest = unit ∧ below % 2 = 0 then below * unit else (below + 1) * unit

def be32 (bytes : Bytes) (off : ℕ) : ℕ := fromBE (readAt off 32 bytes)

def le64 (bytes : Bytes) (off : ℕ) : ℕ := number (fromLE (readAt off 8 bytes))

def familyDisburse256 : ℕ := (solanaOps .disburse256).familyTagOf

def decodeDisburse (family : ℕ) (d : Bytes) : Except String (SolanaEventAnchor ℕ) :=
  if d.length ≠ 2 + 8 + 5 * 32 + 8 then
    .error s!"decodeEvent: disburse event payload is {d.length} bytes"
  else .ok (.disburse family (le64 d 2) (be32 d 10) (be32 d 42) (be32 d 74) (be32 d 106) (be32 d 138)
    (le64 d 170))

-- An index past the end reads `undefined`, and no length equals it.
def decodeAnchor (family : ℕ) (d : Bytes) : Except String (SolanaEventAnchor ℕ) :=
  match d[10]?, d[43]? with
  | some leafCount, some nfCount =>
    if d.length ≠ 44 + 32 * nfCount.toNat then
      .error s!"decodeEvent: op event payload is {d.length} bytes for {nfCount} nullifiers"
    else .ok (.op family (le64 d 2) leafCount.toNat (be32 d 11)
      ((List.range nfCount.toNat).map fun i => be32 d (44 + 32 * i)))
  | _, _ => .error s!"decodeEvent: op event payload is {d.length} bytes for undefined nullifiers"

def decodeEvent (d : Bytes) : Except String (SolanaEventAnchor ℕ) :=
  if d[0]? ≠ some Solana.eventDiscriminator then .error "decodeEvent: not an event instruction"
  else
    match d[1]? with
    | some family =>
      if family.toNat = familyDisburse256 then decodeDisburse family.toNat d
      else decodeAnchor family.toNat d
    | none => .error s!"decodeEvent: op event payload is {d.length} bytes for undefined nullifiers"

structure StealthTail where
  ephemeralPub : Bytes
  viewTag : ℕ
deriving DecidableEq, Repr

structure OpBase where
  family : ℕ
  ecdhPublicKey : ℕ × ℕ
  encryptionNonce : ℕ
deriving DecidableEq, Repr

-- One pool op instruction as the decoder types it.
inductive SolanaOp where
  | depositPriv (base : OpBase) (cts viewTags : List ℕ) (outputCommitments : ℕ × ℕ)
      (kemCiphertexts : List Bytes)
  | transferPriv (base : OpBase) (cts viewTags nullifiers : List ℕ) (outputCommitments : ℕ × ℕ)
      (kemCiphertexts : List Bytes)
  | transfer10x2Priv (base : OpBase) (cts viewTags nullifiers : List ℕ) (outputCommitments : ℕ × ℕ)
      (kemCiphertexts : List Bytes)
  | withdrawPriv (base : OpBase) (cts viewTags nullifiers : List ℕ) (changeCommitment : ℕ)
      (kemCiphertexts : List Bytes) (stealth : StealthTail) (recipientTokenAccount : Option Bytes)
  | deposit (base : OpBase) (outputCommitments : ℕ × ℕ)
  | withdraw (base : OpBase) (nullifiers : List ℕ) (changeCommitment : ℕ) (stealth : StealthTail)
      (recipientTokenAccount : Option Bytes)
  | disburse (base : OpBase) (disclosureHash subtreeRoot kemBinding nullifier : ℕ)
  | transfer (base : OpBase) (receiverCts authorityCt nullifiers : List ℕ) (outputCommitments : ℕ × ℕ)
  | transfer10x2 (base : OpBase) (receiverCts authorityCt nullifiers : List ℕ)
      (outputCommitments : ℕ × ℕ)
deriving DecidableEq, Repr

-- Reads by full index; asking for an injected one is a decoder bug.
def fullReader (d : Bytes) (l : SolanaOpLayout) (i : ℕ) : Except String ℕ :=
  if i ∈ l.carried then .ok (be32 d (1 + proofLen + 32 * l.carried.idxOf i))
  else .error s!"decodeOp: public {i} is injected, not carried"

section Decode

variable (d : Bytes) (l : SolanaOpLayout)

def kemsOf : List Bytes :=
  let base := 1 + proofLen + 32 * l.carried.length
  (List.range l.kemCtCount).map fun i => readAt (base + i * kemCiphertextLen) kemCiphertextLen d

def stealthOf : StealthTail :=
  let off := d.length - l.stealthTailLen
  ⟨readAt off 32 d, ((d[off + 32]?).map UInt8.toNat).getD 0⟩

def readAll (f : OpField) : Except String (List ℕ) := (l.field f).mapM (fullReader d l)

def readOne (f : OpField) : Except String ℕ := fullReader d l ((l.field f).headD 0)

def readPair (f : OpField) : Except String (ℕ × ℕ) := do
  let x ← fullReader d l ((l.field f).getD 0 0)
  let y ← fullReader d l ((l.field f).getD 1 0)
  return (x, y)

def readBase : Except String OpBase := do
  let ecdhPublicKey ← readPair d l .ecdhPublicKey
  let encryptionNonce ← readOne d l .encryptionNonce
  return ⟨l.familyTagOf, ecdhPublicKey, encryptionNonce⟩

end Decode

def solanaOpNames : List SolanaOpName :=
  [.depositPriv, .transferPriv, .transfer10x2Priv, .withdrawPriv, .deposit, .withdraw, .disburse256,
    .transfer, .transfer10x2]

def expectLen (d : Bytes) (want : ℕ) (kind : String) : Except String Unit :=
  require (d.length = want) s!"decodeOp: {kind} instruction is {d.length} bytes, wire says {want}"

def decodeBody (d : Bytes) (accounts : Option (List Bytes)) (op : SolanaOpName) : Except String SolanaOp := do
  let l := solanaOps op
  let base ← readBase d l
  match op with
  | .depositPriv => do
    let cts ← readAll d l .cts
    let viewTags ← readAll d l .viewTags
    let outputCommitments ← readPair d l .outputCommitments
    return .depositPriv base cts viewTags outputCommitments (kemsOf d l)
  | .transferPriv => do
    let cts ← readAll d l .cts
    let viewTags ← readAll d l .viewTags
    let nullifiers ← readAll d l .nullifiers
    let outputCommitments ← readPair d l .outputCommitments
    return .transferPriv base cts viewTags nullifiers outputCommitments (kemsOf d l)
  | .transfer10x2Priv => do
    let cts ← readAll d l .cts
    let viewTags ← readAll d l .viewTags
    let nullifiers ← readAll d l .nullifiers
    let outputCommitments ← readPair d l .outputCommitments
    return .transfer10x2Priv base cts viewTags nullifiers outputCommitments (kemsOf d l)
  | .withdrawPriv => do
    let cts ← readAll d l .cts
    let viewTags ← readAll d l .viewTags
    let nullifiers ← readAll d l .nullifiers
    let changeCommitment ← readOne d l .changeCommitment
    return .withdrawPriv base cts viewTags nullifiers changeCommitment (kemsOf d l) (stealthOf d l)
      (accounts.bind fun keys => keys[11]?)
  | .deposit => do
    let outputCommitments ← readPair d l .outputCommitments
    return .deposit base outputCommitments
  | .withdraw => do
    let nullifiers ← readAll d l .nullifiers
    let changeCommitment ← readOne d l .changeCommitment
    return .withdraw base nullifiers changeCommitment (stealthOf d l) (accounts.bind fun keys => keys[11]?)
  | .disburse256 => do
    let disclosureHash ← readOne d l .disclosureHash
    let subtreeRoot ← readOne d l .subtreeRoot
    let kemBinding ← readOne d l .kemBinding
    let nullifier ← readOne d l .nullifiers
    return .disburse base disclosureHash subtreeRoot kemBinding nullifier
  | .transfer => do
    let receiverCts ← readAll d l .receiverCts
    let authorityCt ← readAll d l .authorityCt
    let nullifiers ← readAll d l .nullifiers
    let outputCommitments ← readPair d l .outputCommitments
    return .transfer base receiverCts authorityCt nullifiers outputCommitments
  | .transfer10x2 => do
    let receiverCts ← readAll d l .receiverCts
    let authorityCt ← readAll d l .authorityCt
    let nullifiers ← readAll d l .nullifiers
    let outputCommitments ← readPair d l .outputCommitments
    return .transfer10x2 base receiverCts authorityCt nullifiers outputCommitments

-- `null` for a discriminator this build does not know.
def decodeOp (d : Bytes) (accounts : Option (List Bytes)) : Except String (Option SolanaOp) :=
  match solanaOpNames.find? fun op => (d[0]?).map UInt8.toNat = some (solanaOps op).discriminator with
  | none => .ok none
  | some op => do
    expectLen d (solanaOps op).wireLenOf op.name
    let decoded ← decodeBody d accounts op
    return some decoded

namespace SolanaOp

def base : SolanaOp → OpBase
  | depositPriv base _ _ _ _ => base
  | transferPriv base _ _ _ _ _ => base
  | transfer10x2Priv base _ _ _ _ _ => base
  | withdrawPriv base _ _ _ _ _ _ _ => base
  | deposit base _ => base
  | withdraw base _ _ _ _ => base
  | disburse base _ _ _ _ => base
  | transfer base _ _ _ _ => base
  | transfer10x2 base _ _ _ _ => base

def nullifiers : SolanaOp → List ℕ
  | depositPriv _ _ _ _ _ | deposit _ _ => []
  | transferPriv _ _ _ nfs _ _ | transfer10x2Priv _ _ _ nfs _ _ => nfs
  | withdrawPriv _ _ _ nfs _ _ _ _ | withdraw _ nfs _ _ _ => nfs
  | transfer _ _ _ nfs _ | transfer10x2 _ _ _ nfs _ => nfs
  | disburse _ _ _ _ nf => [nf]

-- The leaves it adds, or the root of the block it attaches.
def commitments : SolanaOp → List ℕ
  | depositPriv _ _ _ oc _ | deposit _ oc => [oc.1, oc.2]
  | transferPriv _ _ _ _ oc _ | transfer10x2Priv _ _ _ _ oc _ => [oc.1, oc.2]
  | withdrawPriv _ _ _ _ change _ _ _ | withdraw _ _ change _ _ => [change]
  | transfer _ _ _ _ oc | transfer10x2 _ _ _ _ oc => [oc.1, oc.2]
  | disburse _ _ subtreeRoot _ _ => [subtreeRoot]

-- The view the dispatch takes of a decoded op.
def ix : SolanaOp → SolanaOpIx ℕ
  | depositPriv base _ _ oc _ => ⟨.depositPriv, base.family, [oc.1, oc.2], 0, [], 0, 0, 0, 0⟩
  | transferPriv base _ _ nfs oc _ => ⟨.transferPriv, base.family, [oc.1, oc.2], 0, nfs, 0, 0, 0, 0⟩
  | transfer10x2Priv base _ _ nfs oc _ => ⟨.transfer10x2Priv, base.family, [oc.1, oc.2], 0, nfs, 0, 0, 0, 0⟩
  | withdrawPriv base _ _ nfs change _ _ _ => ⟨.withdrawPriv, base.family, [], change, nfs, 0, 0, 0, 0⟩
  | deposit base oc => ⟨.deposit, base.family, [oc.1, oc.2], 0, [], 0, 0, 0, 0⟩
  | withdraw base nfs change _ _ => ⟨.withdraw, base.family, [], change, nfs, 0, 0, 0, 0⟩
  | disburse base dh subtree kb nf => ⟨.disburse, base.family, [], 0, [], subtree, dh, kb, nf⟩
  | transfer base _ _ nfs oc => ⟨.transfer, base.family, [oc.1, oc.2], 0, nfs, 0, 0, 0, 0⟩
  | transfer10x2 base _ _ nfs oc => ⟨.transfer10x2, base.family, [oc.1, oc.2], 0, nfs, 0, 0, 0, 0⟩

end SolanaOp

end Bongtu.Indexer
