import Bongtu.Core.Disclosure
import Bongtu.Core.Envelope

namespace Bongtu.Indexer

open Bongtu.Core

structure DisclosureResult where
  status : DisclosureStatus
  txHash : TxHash
  startLeafIndex : ℕ
  emittedCount : ℕ
  receiverCount : ℕ
  recomputed : ℕ
  expected : ℕ
deriving DecidableEq, Repr

variable (p : Primitives)

def verifyDisclosure (emitted : List ℕ) (onchainDH batchSize : ℕ) (txHash : TxHash)
    (startLeafIndex : ℕ) : DisclosureResult where
  status :=
    if emitted.length = 0 then .withheld
    else if p.disclosureChain emitted = onchainDH then .verified
    else if emitted.length = batchSize * 4 then .unverifiable
    else .mismatch
  txHash := txHash
  startLeafIndex := startLeafIndex
  emittedCount := emitted.length
  receiverCount := batchSize * 4
  recomputed := p.disclosureChain emitted
  expected := onchainDH

structure ConsumerDisclosureVerdict where
  result : DisclosureResult
  leaves : Option (List ℕ)
deriving DecidableEq, Repr

-- The pairwise fold; `fuel` bounds the levels of a run whose length is no power of two.
def foldPairs : ℕ → List ℕ → List ℕ
  | 0, level => level
  | fuel + 1, level =>
    if level.length = 1 then level
    else foldPairs fuel ((List.range (level.length / 2)).map fun m =>
      p.poseidon2 (level.getD (2 * m) 0) (level.getD (2 * m + 1) 0))

def foldRun (leaves : List ℕ) : ℕ := (foldPairs p leaves.length leaves).getD 0 0

def verifyConsumerDisclosure (disclosure : List ℕ) (onchainDH subtreeRoot batchSize : ℕ) (txHash : TxHash)
    (startLeafIndex : ℕ) : ConsumerDisclosureVerdict :=
  let fail (status : DisclosureStatus) (recomputed expected : ℕ) : ConsumerDisclosureVerdict :=
    ⟨⟨status, txHash, startLeafIndex, disclosure.length, 4 * batchSize, recomputed, expected⟩, none⟩
  let recomputed := p.disclosureChain disclosure
  let leaves := (disclosure.drop (5 * batchSize)).take batchSize
  if disclosure.length = 0 then fail .withheld 0 onchainDH
  else if disclosure.length ≠ consumerDisclosureLen batchSize then fail .unverifiable 0 onchainDH
  else if disclosure.any (snarkScalarField ≤ ·) then fail .mismatch 0 onchainDH
  else if recomputed ≠ onchainDH then fail .mismatch recomputed onchainDH
  else if foldRun p leaves ≠ subtreeRoot then fail .mismatch (foldRun p leaves) subtreeRoot
  else ⟨⟨.verified, txHash, startLeafIndex, disclosure.length, 4 * batchSize, recomputed, onchainDH⟩,
    some leaves⟩

end Bongtu.Indexer
