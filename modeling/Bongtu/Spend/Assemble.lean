import Bongtu.Core.MerklePath
import Bongtu.Core.Stealth
import Bongtu.Spend.Plan

namespace Bongtu.Spend

open Bongtu.Core Outcome

def H : ℕ := 32

structure MembershipWitness where
  root : ℕ
  pathElements : List ℕ
  leafIndex : ℤ
deriving DecidableEq, Repr

-- The spending half of an identity; its public key and the text of it follow.
structure WalletIdentity where
  formattedPrivateKey : ℕ
deriving DecidableEq, Repr

def WalletIdentity.publicKey (i : WalletIdentity) : Point := babyJub.mulPointEscalar babyJub.base8 i.formattedPrivateKey

def WalletIdentity.compressedPubkey (i : WalletIdentity) : String := packPubkey i.publicKey

structure ConsumerWalletIdentity extends WalletIdentity where
  viewPrivateKey : ℕ
  kemEk : Bytes

def ConsumerWalletIdentity.compressedViewPubkey (i : ConsumerWalletIdentity) : String :=
  packPubkey (babyJub.mulPointEscalar babyJub.base8 i.viewPrivateKey)

structure SpendCrypto where
  ecdhPrivateKey : ℕ
  encryptionNonce : ℕ
  authorityPubKey : Point
  kemSs : Point
  kemCiphertext : Bytes
  changeSalt : String
  padSalts : List String
  payeeSalt : Option String

structure ConsumerSpendCrypto where
  ecdhPrivateKey : ℕ
  encryptionNonce : ℕ
  payeeSalt : Option String
  changeSalt : String
  padSalts : List String
  encapSeeds : List Bytes

inductive BuildError where
  | noPayeeSalt
  | inputCount (arity got : ℕ)
  | membershipCount (got want : ℕ)
  | padSalts (need got : ℕ)
  | rootsDiffer
  | pathLength (got : ℕ)
  | notInteger (text : String)
  | pubkey (field : String) (e : PubkeyError)
  | kemEk
  | seal (e : NoteError)
  | amountNotPositive (amount : ℤ)
  | exceedsTotal (amount : ℤ) (total : ℕ)
  | badRecipient (recipient : ℤ)
deriving DecidableEq

-- Field elements travel as decimal text.
def fieldText (s : String) : Except BuildError ℕ :=
  match bigIntOf s with
  | some (.ofNat n) => .ok n
  | _ => .error (.notInteger s)

structure InputSlot where
  nullifier : ℕ
  commitment : ℕ
  value : ℕ
  salt : ℕ
  enabled : ℕ
  pathElements : List ℕ
  leafIndex : ℤ
  pathOk : Bool

structure AssembledInputs where
  nullifiers : List ℕ
  inputCommitments : List ℕ
  inputValues : List ℕ
  inputSalts : List ℕ
  enabled : List ℕ
  pathElements : List (List ℕ)
  leafIndices : List ℤ
  root : ℕ
  inputTotal : ℕ
  membershipOk : Bool

section Inputs

variable (p : Primitives) (identity : WalletIdentity)

def inputSlot (root : ℕ) (input : WalletInputNote × MembershipWitness) : Except BuildError InputSlot := do
  let (note, membership) := input
  let s ← fieldText note.salt
  let c := p.commitment note.value s identity.publicKey
  return {
    nullifier := p.nullifier note.value s identity.formattedPrivateKey
    commitment := c
    value := note.value
    salt := s
    enabled := 1
    pathElements := membership.pathElements
    leafIndex := membership.leafIndex
    pathOk := decide (foldToRoot p.poseidon2 c membership.pathElements membership.leafIndex.toNat = root) }

-- A value-0 note of the wallet's own, on a salt of its own.
def padSlot (salt : String) : Except BuildError InputSlot := do
  let s ← fieldText salt
  return ⟨0, p.commitment 0 s identity.publicKey, 0, s, 0, List.replicate H 0, 0, true⟩

def assembleInputs (inputs : List WalletInputNote) (memberships : List MembershipWitness) (padSalts : List String)
    (arity : ℕ) : Except BuildError AssembledInputs := do
  require (1 ≤ inputs.length ∧ inputs.length ≤ arity) (.inputCount arity inputs.length)
  require (memberships.length = inputs.length) (.membershipCount memberships.length inputs.length)
  let padCount := arity - inputs.length
  require (padCount ≤ padSalts.length) (.padSalts padCount padSalts.length)
  let root := (memberships.head?.map (·.root)).getD 0
  memberships.forM fun m => do
    require (m.root = root) .rootsDiffer
    require (m.pathElements.length = H) (.pathLength m.pathElements.length)
  let reals ← (inputs.zip memberships).mapM (inputSlot p identity root)
  let pads ← (padSalts.take padCount).mapM (padSlot p identity)
  let slots := reals ++ pads
  return {
    nullifiers := slots.map (·.nullifier)
    inputCommitments := slots.map (·.commitment)
    inputValues := slots.map (·.value)
    inputSalts := slots.map (·.salt)
    enabled := slots.map (·.enabled)
    pathElements := slots.map (·.pathElements)
    leafIndices := slots.map (·.leafIndex)
    root := root
    inputTotal := (reals.map (·.value)).sum
    membershipOk := reals.all (·.pathOk) }

end Inputs

-- The fields a circuit lacks are empty.
structure SpendInput where
  inputs : AssembledInputs
  inputOwnerPrivateKey : ℕ
  ecdhPrivateKey : ℕ
  outputCommitments : List ℕ
  outputValues : List ℕ
  outputSalts : List ℕ
  outputOwnerPublicKeys : List Point
  outputViewPublicKeys : List Point
  kemSs : List Point
  encryptionNonce : ℕ
  authorityPublicKey : Option Point
  recipient : Option ℤ

structure ProvingRequest where
  circuit : String
  input : SpendInput

structure SpendResult where
  request : ProvingRequest
  amount : ℤ
  changeValue : ℕ
  kemCiphertexts : List Bytes

section Builders

variable (p : Primitives)

def parsePoint (text field : String) : Except BuildError Point :=
  (babyJub.unpackPubkey (trim text)).mapError (.pubkey field)

-- The amount that leaves the inputs, and the change.
def split (amount : ℤ) (inputTotal : ℕ) : Except BuildError (ℕ × ℕ) := do
  require (0 < amount) (.amountNotPositive amount)
  require (amount ≤ inputTotal) (.exceedsTotal amount inputTotal)
  return (amount.toNat, inputTotal - amount.toNat)

-- What the two enterprise transfers share: output 0 the payment, output 1 the change.
def transferParts (circuit : String) (arity : ℕ) (identity : WalletIdentity) (inputs : List WalletInputNote)
    (memberships : List MembershipWitness) (recipientCompressed : String) (amount : ℤ) (crypto : SpendCrypto) :
    Except BuildError SpendResult := do
  let payeeSaltText ← crypto.payeeSalt.elim (.error .noPayeeSalt) .ok
  let ins ← assembleInputs p identity inputs memberships crypto.padSalts arity
  let payee ← parsePoint recipientCompressed "recipient pubkey"
  let (payVal, changeVal) ← split amount ins.inputTotal
  let payeeSalt ← fieldText payeeSaltText
  let changeSalt ← fieldText crypto.changeSalt
  return {
    request := {
      circuit := circuit
      input := {
        inputs := ins
        inputOwnerPrivateKey := identity.formattedPrivateKey
        ecdhPrivateKey := crypto.ecdhPrivateKey
        outputCommitments := [p.commitment payVal payeeSalt payee, p.commitment changeVal changeSalt identity.publicKey]
        outputValues := [payVal, changeVal]
        outputSalts := [payeeSalt, changeSalt]
        outputOwnerPublicKeys := [payee, identity.publicKey]
        outputViewPublicKeys := []
        kemSs := [crypto.kemSs]
        encryptionNonce := crypto.encryptionNonce
        authorityPublicKey := some crypto.authorityPubKey
        recipient := none } }
    amount := amount
    changeValue := changeVal
    kemCiphertexts := [crypto.kemCiphertext] }

def buildTransferRequest (identity : WalletIdentity) (inputs : List WalletInputNote)
    (memberships : List MembershipWitness) (recipientCompressed : String) (amount : ℤ) (crypto : SpendCrypto) :
    Except BuildError SpendResult :=
  transferParts p "transfer" 2 identity inputs memberships recipientCompressed amount crypto

def buildTransfer10x2Request (identity : WalletIdentity) (inputs : List WalletInputNote)
    (memberships : List MembershipWitness) (recipientCompressed : String) (amount : ℤ) (crypto : SpendCrypto) :
    Except BuildError SpendResult :=
  transferParts p "transfer10x2" transfer10Arity identity inputs memberships recipientCompressed amount crypto

def buildWithdrawRequest (identity : WalletIdentity) (inputs : List WalletInputNote)
    (memberships : List MembershipWitness) (amount : ℤ) (crypto : SpendCrypto) (recipient : ℤ) :
    Except BuildError SpendResult := do
  require (¬ (recipient = 0 ∨ 2 ^ 160 - 1 < recipient)) (.badRecipient recipient)
  let ins ← assembleInputs p identity inputs memberships crypto.padSalts 2
  let (_, changeVal) ← split amount ins.inputTotal
  let changeSalt ← fieldText crypto.changeSalt
  return {
    request := {
      circuit := "withdraw"
      input := {
        inputs := ins
        inputOwnerPrivateKey := identity.formattedPrivateKey
        ecdhPrivateKey := crypto.ecdhPrivateKey
        outputCommitments := [p.commitment changeVal changeSalt identity.publicKey]
        outputValues := [changeVal]
        outputSalts := [changeSalt]
        outputOwnerPublicKeys := [identity.publicKey]
        outputViewPublicKeys := []
        kemSs := [crypto.kemSs]
        encryptionNonce := crypto.encryptionNonce
        authorityPublicKey := some crypto.authorityPubKey
        recipient := some recipient } }
    amount := amount
    changeValue := changeVal
    kemCiphertexts := [crypto.kemCiphertext] }

structure ConsumerRecipient where
  owner : String
  noteViewPub : String
  kemEk : String

def selfConsumerRecipient (identity : ConsumerWalletIdentity) : ConsumerRecipient :=
  ⟨identity.compressedPubkey, identity.compressedViewPubkey, hexText identity.kemEk⟩

structure ConsumerOutputSpec where
  recipient : ConsumerRecipient
  value : ℕ
  salt : ℕ

structure PlannedConsumerOutput where
  value : ℕ
  salt : ℕ
  spendPub : Point
  viewPub : Point
  sealed : Primitives.SealedConsumerOutput
  commitment : ℕ

def planConsumerOutput (crypto : ConsumerSpendCrypto) (spec : ConsumerOutputSpec × ℕ) :
    Except BuildError PlannedConsumerOutput := do
  let (spec, i) := spec
  let spendPub ← parsePoint spec.recipient.owner "recipient owner pubkey"
  let viewPub ← parsePoint spec.recipient.noteViewPub "recipient noteViewPub"
  let ek ← (hexBytes (strip0x spec.recipient.kemEk)).elim (.error .kemEk) .ok
  let out ← (p.sealConsumerOutput spec.value spec.salt crypto.ecdhPrivateKey viewPub (ek.map UInt8.ofNat)
    crypto.encryptionNonce i (crypto.encapSeeds.getD i [])).mapError .seal
  return ⟨spec.value, spec.salt, spendPub, viewPub, out, p.commitment spec.value spec.salt spendPub⟩

def planConsumerOutputs (specs : List ConsumerOutputSpec) (crypto : ConsumerSpendCrypto) :
    Except BuildError (List PlannedConsumerOutput) :=
  specs.zipIdx.mapM (planConsumerOutput p crypto)

def consumerResult (circuit : String) (identity : ConsumerWalletIdentity) (ins : AssembledInputs) (amount : ℤ)
    (changeVal : ℕ) (recipient : Option ℤ) (crypto : ConsumerSpendCrypto) (outs : List PlannedConsumerOutput) :
    SpendResult where
  request := {
    circuit := circuit
    input := {
      inputs := ins
      inputOwnerPrivateKey := identity.formattedPrivateKey
      ecdhPrivateKey := crypto.ecdhPrivateKey
      outputCommitments := outs.map (·.commitment)
      outputValues := outs.map (·.value)
      outputSalts := outs.map (·.salt)
      outputOwnerPublicKeys := outs.map (·.spendPub)
      outputViewPublicKeys := outs.map (·.viewPub)
      kemSs := outs.map (·.sealed.kemSs)
      encryptionNonce := crypto.encryptionNonce
      authorityPublicKey := none
      recipient := recipient } }
  amount := amount
  changeValue := changeVal
  kemCiphertexts := outs.map (·.sealed.kemCiphertext)

def consumerTransferParts (circuit : String) (arity : ℕ) (identity : ConsumerWalletIdentity)
    (inputs : List WalletInputNote) (memberships : List MembershipWitness) (recipient : ConsumerRecipient)
    (amount : ℤ) (crypto : ConsumerSpendCrypto) : Except BuildError SpendResult := do
  let payeeSaltText ← crypto.payeeSalt.elim (.error .noPayeeSalt) .ok
  let ins ← assembleInputs p identity.toWalletIdentity inputs memberships crypto.padSalts arity
  let (payVal, changeVal) ← split amount ins.inputTotal
  let payeeSalt ← fieldText payeeSaltText
  let changeSalt ← fieldText crypto.changeSalt
  let outs ← planConsumerOutputs p
    [⟨recipient, payVal, payeeSalt⟩, ⟨selfConsumerRecipient identity, changeVal, changeSalt⟩] crypto
  return consumerResult circuit identity ins amount changeVal none crypto outs

def buildConsumerTransferRequest (identity : ConsumerWalletIdentity) (inputs : List WalletInputNote)
    (memberships : List MembershipWitness) (recipient : ConsumerRecipient) (amount : ℤ)
    (crypto : ConsumerSpendCrypto) : Except BuildError SpendResult :=
  consumerTransferParts p "transferPriv" 2 identity inputs memberships recipient amount crypto

def buildConsumerTransfer10x2Request (identity : ConsumerWalletIdentity) (inputs : List WalletInputNote)
    (memberships : List MembershipWitness) (recipient : ConsumerRecipient) (amount : ℤ)
    (crypto : ConsumerSpendCrypto) : Except BuildError SpendResult :=
  consumerTransferParts p "transfer10x2Priv" transfer10Arity identity inputs memberships recipient amount crypto

def buildConsumerWithdrawRequest (identity : ConsumerWalletIdentity) (inputs : List WalletInputNote)
    (memberships : List MembershipWitness) (amount : ℤ) (crypto : ConsumerSpendCrypto) (recipient : ℤ) :
    Except BuildError SpendResult := do
  require (¬ (recipient = 0 ∨ recipient / 2 ^ 253 ≠ 0)) (.badRecipient recipient)
  let ins ← assembleInputs p identity.toWalletIdentity inputs memberships crypto.padSalts 2
  let (_, changeVal) ← split amount ins.inputTotal
  let changeSalt ← fieldText crypto.changeSalt
  let outs ← planConsumerOutputs p [⟨selfConsumerRecipient identity, changeVal, changeSalt⟩] crypto
  return consumerResult "withdrawPriv" identity ins amount changeVal (some recipient) crypto outs

end Builders

end Bongtu.Spend
