import Bongtu.ByteOrder
import Bongtu.Core.SolanaOps
import Bongtu.Solana.Program

namespace Bongtu.Solana

open ByteOrder Core Outcome

-- `[u8; 32]`
@[ext]
structure Word where
  bytes : Bytes
  size : bytes.length = 32
deriving DecidableEq

namespace Word

def ofNat (n : ℕ) : Word := ⟨toBE 32 n, length_toBE 32 n⟩

def value (w : Word) : ℕ := fromBE w.bytes

instance : Zero Word := ⟨ofNat 0⟩

instance : One Word := ⟨ofNat 1⟩

theorem value_ofNat {n : ℕ} (hn : n < 2 ^ 256) : (ofNat n).value = n := by
  have hmod : fromBE (toBE 32 n) = n % 256 ^ 32 := fromBE_toBE 32 n
  rw [value, ofNat, hmod, Nat.mod_eq_of_lt (by norm_num; exact hn)]

theorem value_injective : Function.Injective value := fun w w' h =>
  Word.ext (fromBE_injective (w.size.trans w'.size.symm) h)

theorem value_lt (w : Word) : w.value < 2 ^ 256 := by
  have hlt := fromBE_lt w.bytes
  rw [w.size] at hlt
  exact lt_of_lt_of_eq hlt (by norm_num)

@[simp]
theorem value_zero : (0 : Word).value = 0 := value_ofNat (by norm_num)

@[simp]
theorem value_one : (1 : Word).value = 1 := value_ofNat (by norm_num)

theorem value_eq_zero {w : Word} : w.value = 0 ↔ w = 0 := by
  rw [← value_zero, value_injective.eq_iff]

end Word

def asArr32 (slice : Bytes) : Word := ⟨slice.takeD 32 0, List.takeD_length 32 slice 0⟩

theorem asArr32_bytes {slice : Bytes} (h : slice.length = 32) : (asArr32 slice).bytes = slice :=
  (List.takeD_eq_take 0 h.ge).trans (List.take_of_length_le h.le)

def proofLimb (payload : Bytes) (i : ℕ) : ℕ := fromBE (readAt (32 * i) 32 payload)

def parseProof (payload : Bytes) : Proof where
  a := (proofLimb payload 0, proofLimb payload 1)
  b := ((proofLimb payload 2, proofLimb payload 3), (proofLimb payload 4, proofLimb payload 5))
  c := (proofLimb payload 6, proofLimb payload 7)

def carriedAt (payload : Bytes) (w : ℕ) : Word := asArr32 (readAt (proofLen + 32 * w) 32 payload)

-- `parse_carried`; the bytes past the publics stay with the caller.
def parseCarried (n : ℕ) (payload : Bytes) : Payload n Word where
  proof := parseProof payload
  carried i := carriedAt payload i.val
  tail := payload.drop (proofLen + 32 * n)

-- flags u16 (2) || B u32 (4) || arbiter x (32) || arbiter y (32) || kem pk hash (32).
def parseProfile (payload : Bytes) : Option (Profile Word) :=
  if payload.length ≠ 102 then none
  else some {
    flags := fromLE (readAt 0 2 payload)
    batchB := fromLE (readAt 2 4 payload)
    arbiterX := asArr32 (readAt 6 32 payload)
    arbiterY := asArr32 (readAt 38 32 payload)
    kemPkHash := fromBE (readAt 70 32 payload) }

-- The DISCRIMINATOR of each op module.
def opOf (discriminator : UInt8) : Option SolanaOpName :=
  match discriminator.toNat with
  | 2 => some .depositPriv
  | 3 => some .transferPriv
  | 4 => some .transfer10x2Priv
  | 5 => some .withdrawPriv
  | 6 => some .deposit
  | 7 => some .withdraw
  | 8 => some .disburse256
  | 9 => some .transfer
  | 10 => some .transfer10x2
  | _ => none

def opInstruction (op : SolanaOpName) (payload : Bytes) : Instruction Word :=
  match op with
  | .depositPriv => .depositPriv (parseCarried 16 payload)
  | .transferPriv => .transferPriv (parseCarried 18 payload)
  | .transfer10x2Priv => .transfer10x2Priv (parseCarried 26 payload)
  | .withdrawPriv => .withdrawPriv (parseCarried 13 payload)
  | .deposit => .deposit (parseCarried 17 payload)
  | .withdraw => .withdraw (parseCarried 22 payload)
  | .disburse256 => .disburse256 (parseCarried 8 payload)
  | .transfer => .transfer (parseCarried 33 payload)
  | .transfer10x2 => .transfer10x2 (parseCarried 56 payload)

def initializeDiscriminator : UInt8 := 0

def eventDiscriminator : UInt8 := 0xF0

section Dispatch

variable {K : Type} [DecidableEq K] (env : Env K Word)

-- Valid only when the event authority signed; the body is a no-op.
def processEmitEvent (tx : Tx K) (l : Ledger K Word) : Except PoolError (Ledger K Word) :=
  match tx.keys with
  | authority :: _ => do
    require (authority = env.pda .eventAuthority ∧ tx.isSigner authority = true) .invalidEventAuthority
    return l
  | [] => .error .invalidEventAuthority

def processData (tx : Tx K) (data : Bytes) (l : Ledger K Word) : Except PoolError (Ledger K Word) :=
  match data with
  | [] => .error .invalidDiscriminator
  | discriminator :: payload =>
    if discriminator = initializeDiscriminator then initializePool env tx (parseProfile payload) l
    else if discriminator = eventDiscriminator then processEmitEvent env tx l
    else
      match opOf discriminator with
      | some op => processInstruction env tx (opInstruction op payload) l
      | none => .error .invalidDiscriminator

end Dispatch

def opEventPayload (family : UInt8) (startLeafIndex : UInt64) (leafCount : UInt8) (resultingRoot : Word)
    (nullifiers : List Word) : Bytes :=
  [eventDiscriminator] ++ [family] ++ toLE 8 startLeafIndex.toNat ++ [leafCount] ++ resultingRoot.bytes ++
    [UInt8.ofNat nullifiers.length] ++ nullifiers.flatMap Word.bytes

def disburseEventPayload (family : UInt8) (startLeafIndex : UInt64) (subtreeRoot resultingRoot nullifier
    disclosureHash kemBinding : Word) (epoch : UInt64) : Bytes :=
  [eventDiscriminator] ++ [family] ++ toLE 8 startLeafIndex.toNat ++ subtreeRoot.bytes ++
    resultingRoot.bytes ++ nullifier.bytes ++ disclosureHash.bytes ++ kemBinding.bytes ++ toLE 8 epoch.toNat

-- The instruction data of the self-CPI.
def Event.payload : Event Word → Bytes
  | .op family startLeafIndex leafCount resultingRoot nullifiers =>
    opEventPayload (UInt8.ofNat family) (UInt64.ofNat startLeafIndex) (UInt8.ofNat leafCount) resultingRoot
      nullifiers
  | .disburse family startLeafIndex subtreeRoot resultingRoot nullifier disclosureHash kemBinding epoch =>
    disburseEventPayload (UInt8.ofNat family) (UInt64.ofNat startLeafIndex) subtreeRoot resultingRoot
      nullifier disclosureHash kemBinding (UInt64.ofNat epoch)

end Bongtu.Solana
