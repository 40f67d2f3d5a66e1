import Bongtu.Core.Note

namespace Bongtu.Core

abbrev TxHash := ℕ

inductive EventKind where
  | deposit
  | transfer
  | transfer10
  | transfer10x2
  | disburse
  | withdraw
  | depositPriv
  | transferPriv
  | transfer10x2Priv
  | withdrawPriv
  | disbursePriv
deriving DecidableEq, Repr

def EventKind.isConsumer : EventKind → Bool
  | .depositPriv | .transferPriv | .transfer10x2Priv | .withdrawPriv | .disbursePriv => true
  | _ => false

-- `leafIndex` is null on the authority envelope tail, which is not a tree leaf.
structure Slice where
  offset : ℕ
  elts : ℕ
  leafIndex : Option ℕ
deriving DecidableEq, Repr

inductive DisclosureStatus where
  | verified
  | mismatch
  | unverifiable
  | withheld
deriving DecidableEq, Repr

inductive KemStatus where
  | complete
  | pending
  | withheld
  | acceptedUnassembled
deriving DecidableEq, Repr

structure KemTransport where
  status : KemStatus
  chunkCount : ℕ
  acceptedCount : ℕ
  kemCiphertexts : Option (List Bytes)
deriving DecidableEq, Repr

structure Announcement where
  recipient : ℕ
  ephemeralPub : ℕ
  viewTag : ℕ
deriving DecidableEq, Repr

structure FeedEvent where
  seq : ℕ
  txHash : TxHash
  blockNumber : ℕ
  kind : EventKind
  epoch : Option ℕ
  ecdhPublicKey : Option Point
  encryptionNonce : Option ℕ
  slices : List Slice
  ciphertext : List ℕ
  disclosure : Option DisclosureStatus
  announcement : Option Announcement
  viewTags : Option (List ℕ)
  kemCiphertexts : Option (List Bytes)
  batchId : Option ℕ
  outputCommitments : Option (List ℕ)
  kem : Option KemTransport
deriving DecidableEq, Repr

structure Head where
  root : ℕ
  nextLeafIndex : ℕ
deriving DecidableEq, Repr

structure PathResult where
  siblings : List ℕ
  pathIndices : List ℕ
  root : ℕ
deriving DecidableEq, Repr

end Bongtu.Core
