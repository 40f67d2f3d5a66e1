import Bongtu.Circuit.PublicSignals
import Bongtu.PublicVector

namespace Bongtu.Core

inductive SolanaOpName where
  | depositPriv
  | transferPriv
  | transfer10x2Priv
  | withdrawPriv
  | deposit
  | withdraw
  | disburse256
  | transfer
  | transfer10x2
deriving DecidableEq, Repr

-- The keys of the per-op field maps.
inductive OpField where
  | amount
  | ecdhPublicKey
  | cts
  | receiverCts
  | authorityCt
  | kemBinding
  | viewTags
  | disclosureHash
  | subtreeRoot
  | nullifiers
  | root
  | enabled
  | outputCommitments
  | changeCommitment
  | encryptionNonce
  | authorityPubKey
  | recipient
deriving DecidableEq, Repr

-- `enabled` derivation over full indices: pub[enabledAt + i] = (pub[nullifiersAt + i] != 0 ? 1 : 0),
-- or an unconditional 1.
structure SolanaEnabledSpec where
  nullifiersAt : ℕ
  enabledAt : ℕ
  arity : ℕ
  constantOne : Bool
deriving DecidableEq, Repr

structure SolanaOpLayout where
  discriminator : ℕ
  nPublic : ℕ
  kemCtCount : ℕ
  stealthTailLen : ℕ
  fields : List (OpField × List ℕ)
  carried : List ℕ
  enabled : Option SolanaEnabledSpec
deriving DecidableEq, Repr

-- `[start, end)` index run.
def seq (start stop : ℕ) : List ℕ := List.range' start (stop - start)

structure OpSpec where
  discriminator : ℕ
  nPublic : ℕ
  kemCtCount : ℕ
  stealthTailLen : Option ℕ := none
  enabledConstantOne : Bool := false
  fields : List (OpField × List ℕ)

def OpSpec.injected (spec : OpSpec) : List ℕ :=
  (spec.fields.lookup .enabled).getD [] ++ (spec.fields.lookup .authorityPubKey).getD [] ++
    (spec.fields.lookup .recipient).getD []

def OpSpec.enabled (spec : OpSpec) : Option SolanaEnabledSpec :=
  match spec.fields.lookup .enabled, spec.fields.lookup .nullifiers with
  | some enabled, some nullifiers =>
    some ⟨nullifiers.headD 0, enabled.headD 0, nullifiers.length, spec.enabledConstantOne⟩
  | _, _ => none

def defineOp (spec : OpSpec) : SolanaOpLayout where
  discriminator := spec.discriminator
  nPublic := spec.nPublic
  kemCtCount := spec.kemCtCount
  stealthTailLen := spec.stealthTailLen.getD 0
  fields := spec.fields
  carried := (seq 0 spec.nPublic).filter fun i => i ∉ spec.injected
  enabled := spec.enabled

def solanaOps : SolanaOpName → SolanaOpLayout
  | .depositPriv => defineOp {
      discriminator := 2
      nPublic := 16
      kemCtCount := 2
      fields := [(.amount, [0]), (.ecdhPublicKey, [1, 2]), (.cts, seq 3 11), (.viewTags, [11, 12]),
        (.outputCommitments, [13, 14]), (.encryptionNonce, [15])] }
  | .transferPriv => defineOp {
      discriminator := 3
      nPublic := 20
      kemCtCount := 2
      fields := [(.ecdhPublicKey, [0, 1]), (.cts, seq 2 10), (.viewTags, [10, 11]),
        (.nullifiers, [12, 13]), (.root, [14]), (.enabled, [15, 16]), (.outputCommitments, [17, 18]),
        (.encryptionNonce, [19])] }
  | .transfer10x2Priv => defineOp {
      discriminator := 4
      nPublic := 36
      kemCtCount := 2
      fields := [(.ecdhPublicKey, [0, 1]), (.cts, seq 2 10), (.viewTags, [10, 11]),
        (.nullifiers, seq 12 22), (.root, [22]), (.enabled, seq 23 33), (.outputCommitments, [33, 34]),
        (.encryptionNonce, [35])] }
  | .withdrawPriv => defineOp {
      discriminator := 5
      nPublic := 16
      kemCtCount := 1
      stealthTailLen := some 33
      fields := [(.amount, [0]), (.ecdhPublicKey, [1, 2]), (.cts, seq 3 7), (.viewTags, [7]),
        (.nullifiers, [8, 9]), (.root, [10]), (.enabled, [11, 12]), (.changeCommitment, [13]),
        (.encryptionNonce, [14]), (.recipient, [15])] }
  | .deposit => defineOp {
      discriminator := 6
      nPublic := 19
      kemCtCount := 1
      fields := [(.amount, [0]), (.ecdhPublicKey, [1, 2]), (.authorityCt, seq 3 13), (.kemBinding, [13]),
        (.outputCommitments, [14, 15]), (.encryptionNonce, [16]), (.authorityPubKey, [17, 18])] }
  | .withdraw => defineOp {
      discriminator := 7
      nPublic := 27
      kemCtCount := 1
      stealthTailLen := some 33
      fields := [(.amount, [0]), (.ecdhPublicKey, [1, 2]), (.authorityCt, seq 3 16), (.kemBinding, [16]),
        (.nullifiers, [17, 18]), (.root, [19]), (.enabled, [20, 21]), (.changeCommitment, [22]),
        (.encryptionNonce, [23]), (.authorityPubKey, [24, 25]), (.recipient, [26])] }
  | .disburse256 => defineOp {
      discriminator := 8
      nPublic := 11
      kemCtCount := 1
      enabledConstantOne := true
      fields := [(.ecdhPublicKey, [0, 1]), (.disclosureHash, [2]), (.subtreeRoot, [3]), (.kemBinding, [4]),
        (.nullifiers, [5]), (.root, [6]), (.enabled, [7]), (.encryptionNonce, [8]),
        (.authorityPubKey, [9, 10])] }
  | .transfer => defineOp {
      discriminator := 9
      nPublic := 37
      kemCtCount := 1
      fields := [(.ecdhPublicKey, [0, 1]), (.receiverCts, seq 2 10), (.authorityCt, seq 10 26),
        (.kemBinding, [26]), (.nullifiers, [27, 28]), (.root, [29]), (.enabled, [30, 31]),
        (.outputCommitments, [32, 33]), (.encryptionNonce, [34]), (.authorityPubKey, [35, 36])] }
  | .transfer10x2 => defineOp {
      discriminator := 10
      nPublic := 68
      kemCtCount := 1
      fields := [(.ecdhPublicKey, [0, 1]), (.receiverCts, seq 2 10), (.authorityCt, seq 10 41),
        (.kemBinding, [41]), (.nullifiers, seq 42 52), (.root, [52]), (.enabled, seq 53 63),
        (.outputCommitments, [63, 64]), (.encryptionNonce, [65]), (.authorityPubKey, [66, 67])] }

def proofLen : ℕ := 256

namespace SolanaOpLayout

variable (l : SolanaOpLayout)

def field (f : OpField) : List ℕ := (l.fields.lookup f).getD []

def familyTagOf : ℕ := l.discriminator - 1

def familyFlagOf : ℕ := 1 <<< (l.familyTagOf - 1)

-- With the discriminator byte.
def wireLenOf : ℕ := 1 + proofLen + 32 * l.carried.length + l.kemCtCount * kemCiphertextLen + l.stealthTailLen

end SolanaOpLayout

def SolanaOpName.circuit : SolanaOpName → Circuit.Main
  | .depositPriv => Circuit.depositPrivMain
  | .transferPriv => Circuit.transferPrivMain
  | .transfer10x2Priv => Circuit.transfer10x2PrivMain
  | .withdrawPriv => Circuit.withdrawPrivMain
  | .deposit => Circuit.depositMain
  | .withdraw => Circuit.withdrawMain
  | .disburse256 => Circuit.disburse256Main
  | .transfer => Circuit.transferMain
  | .transfer10x2 => Circuit.transfer10x2Main

-- The circuit's own word for a field of the table.
def OpField.signal : OpField → Circuit.Signal
  | .amount => .out
  | .ecdhPublicKey => .ecdhPublicKey
  | .cts | .receiverCts => .cipherTexts
  | .authorityCt => .cipherTextAuthority
  | .kemBinding => .kemBinding
  | .viewTags => .viewTags
  | .disclosureHash => .disclosureHash
  | .subtreeRoot => .subtreeRoot
  | .nullifiers => .nullifiers
  | .root => .root
  | .enabled => .enabled
  | .outputCommitments | .changeCommitment => .outputCommitments
  | .encryptionNonce => .encryptionNonce
  | .authorityPubKey => .authorityPublicKey
  | .recipient => .recipient

theorem fields_declared (op : SolanaOpName) :
    (solanaOps op).fields.map (fun f => (f.1.signal, f.2)) = op.circuit.declared := by
  cases op <;> decide

-- The field map covers the vector exactly once.
theorem fields_cover (op : SolanaOpName) :
    ((solanaOps op).fields.flatMap Prod.snd) = List.range (solanaOps op).nPublic := by
  cases op <;> decide

end Bongtu.Core
