import Bongtu.Core.Disclosure

namespace Bongtu.Indexer

open Bongtu.Core

structure FeedPosition where
  txHash : TxHash
  blockNumber : ℕ
  logIndex : ℕ
deriving DecidableEq, Repr

-- A feed entry before the store gives it its seq.
structure FeedEntry extends FeedPosition where
  kind : EventKind
  epoch : Option ℕ := none
  ecdhPublicKey : Option Point := none
  encryptionNonce : Option ℕ := none
  slices : List Slice := []
  ciphertext : List ℕ := []
  disclosure : Option DisclosureStatus := none
  announcement : Option Announcement := none
  viewTags : Option (List ℕ) := none
  kemCiphertexts : Option (List Bytes) := none
  batchId : Option ℕ := none
  outputCommitments : Option (List ℕ) := none
deriving DecidableEq, Repr

inductive EnterpriseTransfer where
  | transfer
  | transfer10
  | transfer10x2
deriving DecidableEq, Repr

def EnterpriseTransfer.kind : EnterpriseTransfer → EventKind
  | .transfer => .transfer
  | .transfer10 => .transfer10
  | .transfer10x2 => .transfer10x2

inductive ConsumerSmall where
  | depositPriv
  | transferPriv
  | transfer10x2Priv
deriving DecidableEq, Repr

def ConsumerSmall.kind : ConsumerSmall → EventKind
  | .depositPriv => .depositPriv
  | .transferPriv => .transferPriv
  | .transfer10x2Priv => .transfer10x2Priv

inductive OpProjection where
  | deposit
  | withdraw (announcement : Option Announcement)
  | transfer (family : EnterpriseTransfer) (epoch : ℕ) (ecdhPublicKey : Point) (encryptionNonce : ℕ)
      (outputLeafIndices receiverCts authorityCt : List ℕ)
  | consumer (family : ConsumerSmall) (ecdhPublicKey : Point) (encryptionNonce : ℕ)
      (outputLeafIndex0 outputLeafIndex1 : ℕ) (cts viewTags : List ℕ) (kemCiphertexts : List Bytes)
  | withdrawPriv (ecdhPublicKey : Point) (encryptionNonce changeLeafIndex : ℕ) (cts viewTags : List ℕ)
      (kemCiphertexts : List Bytes) (announcement : Option Announcement)
  | disbursePriv (ecdhPublicKey : Point) (encryptionNonce startLeafIndex batchSize : ℕ)
      (disclosure : List ℕ) (verdict : DisclosureStatus)
deriving DecidableEq, Repr

def leafSlices (leafIndices : List ℕ) : List Slice :=
  leafIndices.zipIdx.map fun leaf => ⟨leaf.2 * 4, 4, some leaf.1⟩

def projectFeedEntry (at' : FeedPosition) : OpProjection → FeedEntry
  | .deposit => { at' with kind := .deposit }
  | .withdraw announcement => { at' with kind := .withdraw, announcement := announcement }
  | .transfer family epoch ecdhPublicKey encryptionNonce outputLeafIndices receiverCts authorityCt =>
    { at' with
      kind := family.kind
      epoch := some epoch
      ecdhPublicKey := some ecdhPublicKey
      encryptionNonce := some encryptionNonce
      slices := leafSlices outputLeafIndices ++
        [⟨4 * outputLeafIndices.length, authorityCt.length, none⟩]
      ciphertext := receiverCts ++ authorityCt }
  | .consumer family ecdhPublicKey encryptionNonce leaf0 leaf1 cts viewTags kemCiphertexts =>
    { at' with
      kind := family.kind
      ecdhPublicKey := some ecdhPublicKey
      encryptionNonce := some encryptionNonce
      slices := [⟨0, 4, some leaf0⟩, ⟨4, 4, some leaf1⟩]
      ciphertext := cts
      viewTags := some viewTags
      kemCiphertexts := some kemCiphertexts }
  | .withdrawPriv ecdhPublicKey encryptionNonce changeLeafIndex cts viewTags kemCiphertexts announcement =>
    { at' with
      kind := .withdrawPriv
      ecdhPublicKey := some ecdhPublicKey
      encryptionNonce := some encryptionNonce
      slices := [⟨0, 4, some changeLeafIndex⟩]
      ciphertext := cts
      viewTags := some viewTags
      kemCiphertexts := some kemCiphertexts
      announcement := announcement }
  | .disbursePriv ecdhPublicKey encryptionNonce start B disclosure verdict =>
    let full : Bool := disclosure.length = consumerDisclosureLen B
    { at' with
      kind := .disbursePriv
      ecdhPublicKey := some ecdhPublicKey
      encryptionNonce := some encryptionNonce
      slices := if full then leafSlices ((List.range B).map (start + ·)) else []
      ciphertext := disclosure.take (4 * B)
      disclosure := some verdict
      viewTags := if full then some ((disclosure.drop (4 * B)).take B) else none
      outputCommitments := if full then some ((disclosure.drop (5 * B)).take B) else none
      batchId := some start }

-- The enterprise disburse entry, built by the EVM rail itself.
def disburseEntry (at' : FeedPosition) (epoch : ℕ) (ecdhPublicKey : Point) (encryptionNonce start B : ℕ)
    (ct : List ℕ) (verdict : DisclosureStatus) : FeedEntry :=
  { at' with
    kind := .disburse
    epoch := some epoch
    ecdhPublicKey := some ecdhPublicKey
    encryptionNonce := some encryptionNonce
    slices :=
      if ct = [] then []
      else leafSlices ((List.range B).map (start + ·)) ++
        if ct.length > B * 4 then [⟨B * 4, ct.length - B * 4, none⟩] else []
    ciphertext := ct
    disclosure := some verdict }

-- What `/events` serves for a stored entry; the kem transport is joined in at serve time.
def serveEvent (seq : ℕ) (entry : FeedEntry) (disclosure : Option DisclosureStatus)
    (kem : Option KemTransport) : FeedEvent where
  seq := seq
  txHash := entry.txHash
  blockNumber := entry.blockNumber
  kind := entry.kind
  epoch := entry.epoch
  ecdhPublicKey := entry.ecdhPublicKey
  encryptionNonce := entry.encryptionNonce
  slices := entry.slices
  ciphertext := entry.ciphertext
  disclosure := disclosure
  announcement := entry.announcement
  viewTags := entry.viewTags
  kemCiphertexts := entry.kemCiphertexts
  batchId := entry.batchId
  outputCommitments := entry.outputCommitments
  kem := if entry.kind = .disbursePriv ∧ entry.batchId ≠ none then kem else none

end Bongtu.Indexer
