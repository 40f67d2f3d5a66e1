import Bongtu.Solana.Accepted
import Bongtu.Solana.PublicInputs
import Bongtu.Solana.Wire

set_option linter.unusedSectionVars false

namespace Bongtu.Solana

open Core

section Rebuilt

variable {K : Type} (env : Env K Word)

-- The vector the program rebuilds from a payload and the values it injects.
def rebuilt (op : SolanaOpName) (payload : Bytes) (injected : List Word) : Fin op.nPublic → Word :=
  publicsOf env op (fun w => carriedAt payload w.val) injected

end Rebuilt

-- The nullifiers an op's module reads off its carried publics.
def spentBy : SolanaOpName → Bytes → List Word
  | .depositPriv, _ => []
  | .transferPriv, payload => [carriedAt payload 12, carriedAt payload 13]
  | .transfer10x2Priv, payload => (List.range 10).map fun i => carriedAt payload (12 + i)
  | .withdrawPriv, payload => [carriedAt payload 8, carriedAt payload 9]
  | .deposit, _ => []
  | .withdraw, payload => [carriedAt payload 17, carriedAt payload 18]
  | .disburse256, payload => [carriedAt payload 5]
  | .transfer, payload => [carriedAt payload 27, carriedAt payload 28]
  | .transfer10x2, payload => (List.range 10).map fun i => carriedAt payload (42 + i)

-- The commitments it appends; a disbursement attaches the root of its block instead.
def leavesBy : SolanaOpName → Bytes → List Word
  | .depositPriv, payload => [carriedAt payload 13, carriedAt payload 14]
  | .transferPriv, payload => [carriedAt payload 15, carriedAt payload 16]
  | .transfer10x2Priv, payload => [carriedAt payload 23, carriedAt payload 24]
  | .withdrawPriv, payload => [carriedAt payload 11]
  | .deposit, payload => [carriedAt payload 14, carriedAt payload 15]
  | .withdraw, payload => [carriedAt payload 20]
  | .disburse256, payload => [carriedAt payload 3]
  | .transfer, payload => [carriedAt payload 30, carriedAt payload 31]
  | .transfer10x2, payload => [carriedAt payload 53, carriedAt payload 54]

-- The event of an accepted op, up to where in the tree it landed.
def eventBy (op : SolanaOpName) (payload : Bytes) (start : ℕ) (root : Word) : Event Word :=
  match op with
  | .disburse256 => .disburse 7 start (carriedAt payload 3) root (carriedAt payload 5)
      (carriedAt payload 2) (carriedAt payload 4) arbiterEpochGenesis
  | _ => .op (solanaOps op).familyTagOf start (leavesBy op payload).length root
      (stripZeros (spentBy op payload))

section Dispatch

variable {K : Type} [DecidableEq K] {env : Env K Word} {tx : Tx K} {l l' : Ledger K Word}

-- What an accepted op instruction tells of its bytes.
structure OpAccepted (env : Env K Word) (op : SolanaOpName) (tx : Tx K) (payload : Bytes)
    (l l' : Ledger K Word) : Prop where
  length : payload.length + 1 = (solanaOps op).wireLenOf
  recipient : (boundOf env op tx).length = if op.paysOut = true then 1 else 0
  verified : ∃ c, ReadsConfig env tx l c ∧ verifierOf env op (parseProof payload)
    (rebuilt env op payload (arbiterOf op c ++ boundOf env op tx)) = true
  arity : (stripZeros (spentBy op payload)).length ≤ maxNullifiers
  event : ∃ start root, start < 2 ^ treeHeight ∧ l'.events = l.events ++ [eventBy op payload start root]

theorem length_of_tail (op : SolanaOpName) {payload : Bytes}
    (htail : (parseCarried op.carriedPublics payload).tail.length = op.tailLen) :
    payload.length + 1 = (solanaOps op).wireLenOf := by
  have hpos : 0 < op.tailLen := by cases op <;> decide
  have hdrop : payload.length - (proofLen + 32 * op.carriedPublics) = op.tailLen := by
    rwa [← List.length_drop]
  rw [op.wireLenOf_eq]
  omega

theorem opOf_spec {discriminator : UInt8} {op : SolanaOpName} (h : opOf discriminator = some op) :
    discriminator = UInt8.ofNat (solanaOps op).discriminator := by
  have hofNat : UInt8.ofNat discriminator.toNat = discriminator := UInt8.ofNat_toNat
  unfold opOf at h
  split at h <;> cases h
  all_goals
    rw [← hofNat, ‹discriminator.toNat = _›]
    rfl

theorem opOf_discriminator (op : SolanaOpName) :
    opOf (UInt8.ofNat (solanaOps op).discriminator) = some op := by
  cases op <;> rfl

theorem processData_op {discriminator : UInt8} {op : SolanaOpName} {payload : Bytes}
    (hop : opOf discriminator = some op) (h : processData env tx (discriminator :: payload) l = .ok l') :
    processInstruction env tx (opInstruction op payload) l = .ok l' := by
  have hinitialize : discriminator ≠ initializeDiscriminator := by
    rintro rfl
    cases hop
  have hevent : discriminator ≠ eventDiscriminator := by
    rintro rfl
    cases hop
  rw [processData] at h
  rwa [if_neg hinitialize, if_neg hevent, hop] at h

theorem boundOf_withdraw (env : Env K Word) (op : SolanaOpName) {recipient : K} (hop : op.paysOut = true)
    (hkey : tx.keys[11]? = some recipient) : boundOf env op tx = [env.boundRecipient recipient] := by
  rw [boundOf, if_pos hop, hkey]
  rfl

-- The module of an op is a family over the op's own widths and field positions.
structure IsFamily (env : Env K Word) (op : SolanaOpName) (payload : Bytes)
    (fam : Family Word op.carriedPublics op.nPublic) : Prop where
  shape : op ≠ .disburse256
  tag : fam.tag = (solanaOps op).familyTagOf
  tail : fam.tailLen = op.tailLen
  spent : fam.nullifiers (parseCarried op.carriedPublics payload).carried = spentBy op payload
  leaves : fam.outputs (parseCarried op.carriedPublics payload).carried = leavesBy op payload
  publics : fam.publics = publicsOf env op
  verify : fam.verify = verifierOf env op

theorem eventBy_op {op : SolanaOpName} (hop : op ≠ .disburse256) (payload : Bytes) (start : ℕ) (root : Word) :
    eventBy op payload start root = .op (solanaOps op).familyTagOf start (leavesBy op payload).length root
      (stripZeros (spentBy op payload)) := by
  cases op with
  | disburse256 => exact absurd rfl hop
  | _ => rfl

theorem IsFamily.accepted {op : SolanaOpName} {payload : Bytes}
    {fam : Family Word op.carriedPublics op.nPublic} (hfam : IsFamily env op payload fam)
    {c : PoolConfig K Word} (hread : ReadsConfig env tx l c)
    (hbound : (boundOf env op tx).length = if op.paysOut = true then 1 else 0)
    (h : fam.Accepted (parseCarried op.carriedPublics payload) (arbiterOf op c ++ boundOf env op tx) l l') :
    OpAccepted env op tx payload l l' := by
  obtain ⟨start, root, hstart, hevent⟩ := h.event
  have hproof := h.proof
  have harity := h.arity
  rw [hfam.publics, hfam.verify] at hproof
  rw [hfam.spent] at harity hevent
  rw [hfam.tag, hfam.leaves, ← eventBy_op hfam.shape] at hevent
  exact ⟨length_of_tail op (h.tail.trans hfam.tail), hbound, ⟨c, hread, hproof⟩, harity, start, root, hstart,
    hevent⟩

theorem slice_carried {n offset length : ℕ} (payload : Bytes) (h : offset + length ≤ n) :
    slice (parseCarried n payload).carried offset length =
      (List.range length).map fun i => carriedAt payload (offset + i) := by
  refine List.map_congr_left fun i hi => ?_
  have hi' := List.mem_range.mp hi
  exact dif_pos (by omega)

theorem nullifiersOf_eq (op : SolanaOpName) (payload : Bytes) :
    nullifiersOf env op (fun w => carriedAt payload w.val) = spentBy op payload := by
  cases op with
  | transfer10x2Priv => exact slice_carried payload (by decide)
  | transfer10x2 => exact slice_carried payload (by decide)
  | _ => rfl

theorem outputsOf_eq (op : SolanaOpName) (payload : Bytes) :
    outputsOf env op (fun w => carriedAt payload w.val) = leavesBy op payload := by
  cases op <;> rfl

theorem isFamily_depositPriv (payload : Bytes) : IsFamily env .depositPriv payload (depositPrivFamily env) :=
  ⟨by decide, rfl, rfl, rfl, rfl, rfl, rfl⟩

theorem isFamily_transferPriv (payload : Bytes) :
    IsFamily env .transferPriv payload (transferPrivFamily env) :=
  ⟨by decide, rfl, rfl, rfl, rfl, rfl, rfl⟩

theorem isFamily_transfer10x2Priv (payload : Bytes) :
    IsFamily env .transfer10x2Priv payload (transfer10x2PrivFamily env) :=
  ⟨by decide, rfl, rfl, slice_carried payload (by decide), rfl, rfl, rfl⟩

theorem isFamily_withdrawPriv (payload : Bytes) :
    IsFamily env .withdrawPriv payload (withdrawPrivFamily env) :=
  ⟨by decide, rfl, rfl, rfl, rfl, rfl, rfl⟩

theorem isFamily_deposit (payload : Bytes) : IsFamily env .deposit payload (depositFamily env) :=
  ⟨by decide, rfl, rfl, rfl, rfl, rfl, rfl⟩

theorem isFamily_withdraw (payload : Bytes) : IsFamily env .withdraw payload (withdrawFamily env) :=
  ⟨by decide, rfl, rfl, rfl, rfl, rfl, rfl⟩

theorem isFamily_transfer (payload : Bytes) : IsFamily env .transfer payload (transferFamily env) :=
  ⟨by decide, rfl, rfl, rfl, rfl, rfl, rfl⟩

theorem isFamily_transfer10x2 (payload : Bytes) :
    IsFamily env .transfer10x2 payload (transfer10x2Family env) :=
  ⟨by decide, rfl, rfl, slice_carried payload (by decide), rfl, rfl, rfl⟩

theorem processInstruction_accepted {op : SolanaOpName} {payload : Bytes}
    (h : processInstruction env tx (opInstruction op payload) l = .ok l') :
    OpAccepted env op tx payload l l' := by
  cases op with
  | depositPriv =>
    have h : (depositPrivFamily env).depositOp env (fun carried => carried 0) tx (parseCarried 16 payload) l =
        .ok l' := h
    obtain ⟨c, hread, hacc⟩ := Family.depositOp_accepted (by rfl) h
    exact (isFamily_depositPriv payload).accepted hread rfl hacc
  | transferPriv =>
    have h : (transferPrivFamily env).transferOp env tx (parseCarried 18 payload) l = .ok l' := h
    obtain ⟨c, hread, hacc⟩ := Family.transferOp_accepted h
    exact (isFamily_transferPriv payload).accepted hread rfl hacc
  | transfer10x2Priv =>
    have h : (transfer10x2PrivFamily env).transferOp env tx (parseCarried 26 payload) l = .ok l' := h
    obtain ⟨c, hread, hacc⟩ := Family.transferOp_accepted h
    exact (isFamily_transfer10x2Priv payload).accepted hread rfl hacc
  | withdrawPriv =>
    have h : (withdrawPrivFamily env).withdrawOp env (fun carried => carried 0) tx (parseCarried 13 payload) l =
        .ok l' := h
    obtain ⟨c, recipient, hread, hkey, hacc⟩ := Family.withdrawOp_accepted h
    have hbound := boundOf_withdraw env .withdrawPriv rfl hkey
    refine (isFamily_withdrawPriv payload).accepted hread (by rw [hbound]; rfl) ?_
    rw [hbound]
    exact hacc
  | deposit =>
    have h : (depositFamily env).depositOp env (fun carried => carried 0) tx (parseCarried 17 payload) l =
        .ok l' := h
    obtain ⟨c, hread, hacc⟩ := Family.depositOp_accepted (by rfl) h
    exact (isFamily_deposit payload).accepted hread rfl hacc
  | withdraw =>
    have h : (withdrawFamily env).withdrawOp env (fun carried => carried 0) tx (parseCarried 22 payload) l =
        .ok l' := h
    obtain ⟨c, recipient, hread, hkey, hacc⟩ := Family.withdrawOp_accepted h
    have hbound := boundOf_withdraw env .withdraw rfl hkey
    refine (isFamily_withdraw payload).accepted hread (by rw [hbound]; rfl) ?_
    rw [hbound]
    exact hacc
  | disburse256 =>
    have h : disburse256 env tx (parseCarried 8 payload) l = .ok l' := h
    obtain ⟨c, hread, hacc⟩ := disburse256_accepted h
    refine ⟨length_of_tail .disburse256 hacc.tail, rfl, ⟨c, hread, hacc.proof⟩, ?_, hacc.event⟩
    exact (List.length_filter_le _ _).trans (by decide : 1 ≤ 10)
  | transfer =>
    have h : (transferFamily env).transferOp env tx (parseCarried 33 payload) l = .ok l' := h
    obtain ⟨c, hread, hacc⟩ := Family.transferOp_accepted h
    exact (isFamily_transfer payload).accepted hread rfl hacc
  | transfer10x2 =>
    have h : (transfer10x2Family env).transferOp env tx (parseCarried 56 payload) l = .ok l' := h
    obtain ⟨c, hread, hacc⟩ := Family.transferOp_accepted h
    exact (isFamily_transfer10x2 payload).accepted hread rfl hacc

theorem processData_accepted {discriminator : UInt8} {op : SolanaOpName} {payload : Bytes}
    (hop : opOf discriminator = some op) (h : processData env tx (discriminator :: payload) l = .ok l') :
    OpAccepted env op tx payload l l' :=
  processInstruction_accepted (processData_op hop h)

end Dispatch

end Bongtu.Solana
