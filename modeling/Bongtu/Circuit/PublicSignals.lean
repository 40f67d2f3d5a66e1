import Mathlib.Data.List.Basic
import Mathlib.Data.Nat.Notation

namespace Bongtu.Circuit

inductive Signal where
  | nullifiers
  | inputCommitments
  | inputValues
  | inputSalts
  | inputOwnerPrivateKey
  | ecdhPrivateKey
  | kemSs
  | root
  | pathElements
  | leafIndices
  | enabled
  | outputCommitments
  | outputValues
  | outputSalts
  | outputOwnerPublicKeys
  | outputViewPublicKeys
  | encryptionNonce
  | authorityPublicKey
  | recipient
  | out
  | ecdhPublicKey
  | cipherTexts
  | cipherTextAuthority
  | viewTags
  | disclosureHash
  | subtreeRoot
  | kemBinding
deriving DecidableEq, Repr

-- The signals a template declares, in order, each with the number of field elements it spans.
structure Template where
  inputs : List (Signal × ℕ)
  outputs : List (Signal × ℕ)
deriving DecidableEq, Repr

-- `component main { public [ .. ] } = template`
structure Main where
  exposed : List Signal
  template : Template
deriving DecidableEq, Repr

-- The public vector of a compiled circuit: every output, then the inputs that main exposes, both as
-- the template declares them.
def Main.publicSignals (m : Main) : List (Signal × ℕ) :=
  m.template.outputs ++ m.template.inputs.filter fun s => s.1 ∈ m.exposed

-- The index run of each signal when the first one starts at `start`.
def indexRuns : ℕ → List (Signal × ℕ) → List (Signal × List ℕ)
  | _, [] => []
  | start, s :: rest => (s.1, List.range' start s.2) :: indexRuns (start + s.2) rest

def Main.declared (m : Main) : List (Signal × List ℕ) := indexRuns 0 m.publicSignals

-- The sponge-padded envelope of `plain` elements and its tag.
def authorityCipherLength (plain : ℕ) : ℕ :=
  (if plain % 3 ≠ 0 then plain + (3 - plain % 3) else plain) + 1

def consumerDeposit (nOutputs : ℕ) : Template where
  inputs := [(.outputCommitments, nOutputs), (.outputValues, nOutputs), (.outputSalts, nOutputs),
    (.outputOwnerPublicKeys, nOutputs * 2), (.outputViewPublicKeys, nOutputs * 2), (.ecdhPrivateKey, 1),
    (.kemSs, nOutputs * 2), (.encryptionNonce, 1)]
  outputs := [(.out, 1), (.ecdhPublicKey, 2), (.cipherTexts, nOutputs * 4), (.viewTags, nOutputs)]

def consumerTransfer (nInputs nOutputs nLevels : ℕ) : Template where
  inputs := [(.nullifiers, nInputs), (.inputCommitments, nInputs), (.inputValues, nInputs),
    (.inputSalts, nInputs), (.inputOwnerPrivateKey, 1), (.ecdhPrivateKey, 1), (.kemSs, nOutputs * 2),
    (.root, 1), (.pathElements, nInputs * nLevels), (.leafIndices, nInputs), (.enabled, nInputs),
    (.outputCommitments, nOutputs), (.outputValues, nOutputs), (.outputSalts, nOutputs),
    (.outputOwnerPublicKeys, nOutputs * 2), (.outputViewPublicKeys, nOutputs * 2), (.encryptionNonce, 1)]
  outputs := [(.ecdhPublicKey, 2), (.cipherTexts, nOutputs * 4), (.viewTags, nOutputs)]

def consumerWithdraw (nInputs nOutputs nLevels : ℕ) : Template where
  inputs := [(.nullifiers, nInputs), (.inputCommitments, nInputs), (.inputValues, nInputs),
    (.inputSalts, nInputs), (.inputOwnerPrivateKey, 1), (.root, 1), (.pathElements, nInputs * nLevels),
    (.leafIndices, nInputs), (.enabled, nInputs), (.outputCommitments, nOutputs), (.outputValues, nOutputs),
    (.outputSalts, nOutputs), (.outputOwnerPublicKeys, nOutputs * 2), (.outputViewPublicKeys, nOutputs * 2),
    (.ecdhPrivateKey, 1), (.kemSs, nOutputs * 2), (.encryptionNonce, 1), (.recipient, 1)]
  outputs := [(.out, 1), (.ecdhPublicKey, 2), (.cipherTexts, nOutputs * 4), (.viewTags, nOutputs)]

def depositAuthority (nOutputs : ℕ) : Template where
  inputs := [(.outputCommitments, nOutputs), (.outputValues, nOutputs), (.outputSalts, nOutputs),
    (.outputOwnerPublicKeys, nOutputs * 2), (.ecdhPrivateKey, 1), (.kemSs, 2), (.encryptionNonce, 1),
    (.authorityPublicKey, 2)]
  outputs := [(.out, 1), (.ecdhPublicKey, 2), (.cipherTextAuthority, authorityCipherLength (4 * nOutputs)),
    (.kemBinding, 1)]

def authorityWithdraw (nInputs nOutputs nLevels : ℕ) : Template where
  inputs := [(.nullifiers, nInputs), (.inputCommitments, nInputs), (.inputValues, nInputs),
    (.inputSalts, nInputs), (.inputOwnerPrivateKey, 1), (.root, 1), (.pathElements, nInputs * nLevels),
    (.leafIndices, nInputs), (.enabled, nInputs), (.outputCommitments, nOutputs), (.outputValues, nOutputs),
    (.outputSalts, nOutputs), (.outputOwnerPublicKeys, nOutputs * 2), (.ecdhPrivateKey, 1), (.kemSs, 2),
    (.encryptionNonce, 1), (.authorityPublicKey, 2), (.recipient, 1)]
  outputs := [(.out, 1), (.ecdhPublicKey, 2),
    (.cipherTextAuthority, authorityCipherLength (2 + 2 * nInputs + 4 * nOutputs)), (.kemBinding, 1)]

-- The private inputs are the same for both arities of `Zeto` and for `ZetoTransferSmall`.
def zetoInputs (nInputs nOutputs nLevels : ℕ) : List (Signal × ℕ) :=
  [(.nullifiers, nInputs), (.inputCommitments, nInputs), (.inputValues, nInputs), (.inputSalts, nInputs),
    (.inputOwnerPrivateKey, 1), (.ecdhPrivateKey, 1), (.kemSs, 2), (.root, 1),
    (.pathElements, nInputs * nLevels), (.leafIndices, nInputs), (.enabled, nInputs),
    (.outputCommitments, nOutputs), (.outputValues, nOutputs), (.outputSalts, nOutputs),
    (.outputOwnerPublicKeys, nOutputs * 2), (.encryptionNonce, 1), (.authorityPublicKey, 2)]

def zeto (nInputs nOutputs nLevels : ℕ) : Template where
  inputs := zetoInputs nInputs nOutputs nLevels
  outputs := [(.ecdhPublicKey, 2), (.disclosureHash, 1), (.subtreeRoot, 1), (.kemBinding, 1)]

def zetoTransferSmall (nInputs nOutputs nLevels : ℕ) : Template where
  inputs := zetoInputs nInputs nOutputs nLevels
  outputs := [(.ecdhPublicKey, 2), (.cipherTexts, nOutputs * 4),
    (.cipherTextAuthority, authorityCipherLength (2 + 2 * nInputs + 4 * nOutputs)), (.kemBinding, 1)]

def depositPrivMain : Main := ⟨[.outputCommitments, .encryptionNonce], consumerDeposit 2⟩

def transferPrivMain : Main :=
  ⟨[.nullifiers, .root, .enabled, .outputCommitments, .encryptionNonce], consumerTransfer 2 2 32⟩

def transfer10x2PrivMain : Main :=
  ⟨[.nullifiers, .root, .enabled, .outputCommitments, .encryptionNonce], consumerTransfer 10 2 32⟩

def withdrawPrivMain : Main :=
  ⟨[.nullifiers, .root, .enabled, .outputCommitments, .encryptionNonce, .recipient],
    consumerWithdraw 2 1 32⟩

def depositMain : Main :=
  ⟨[.outputCommitments, .encryptionNonce, .authorityPublicKey], depositAuthority 2⟩

def withdrawMain : Main :=
  ⟨[.nullifiers, .root, .enabled, .outputCommitments, .encryptionNonce, .authorityPublicKey, .recipient],
    authorityWithdraw 2 1 32⟩

def disburse256Main : Main :=
  ⟨[.nullifiers, .encryptionNonce, .root, .enabled, .authorityPublicKey], zeto 1 256 32⟩

def transferMain : Main :=
  ⟨[.nullifiers, .outputCommitments, .encryptionNonce, .root, .enabled, .authorityPublicKey],
    zetoTransferSmall 2 2 32⟩

def transfer10x2Main : Main :=
  ⟨[.nullifiers, .outputCommitments, .encryptionNonce, .root, .enabled, .authorityPublicKey],
    zetoTransferSmall 10 2 32⟩

end Bongtu.Circuit
