import Bongtu.Core.SolanaOps
import Bongtu.Solana.Program

namespace Bongtu.Core.SolanaOpName

-- CARRIED_PUBLICS of the op's module.
def carriedPublics : SolanaOpName → ℕ
  | depositPriv => 16
  | transferPriv => 18
  | transfer10x2Priv => 26
  | withdrawPriv => 13
  | deposit => 17
  | withdraw => 22
  | disburse256 => 8
  | transfer => 33
  | transfer10x2 => 56

-- N_PUBLIC of the op's module.
def nPublic : SolanaOpName → ℕ
  | depositPriv => 16
  | transferPriv => 20
  | transfer10x2Priv => 36
  | withdrawPriv => 16
  | deposit => 19
  | withdraw => 27
  | disburse256 => 11
  | transfer => 37
  | transfer10x2 => 68

def enterprise : SolanaOpName → Bool
  | deposit | withdraw | disburse256 | transfer | transfer10x2 => true
  | _ => false

def paysOut : SolanaOpName → Bool
  | withdrawPriv | withdraw => true
  | _ => false

-- KEM_CT_COUNT * KEM_CT_LEN, and STEALTH_TAIL_LEN on a withdrawal.
def tailLen : SolanaOpName → ℕ
  | depositPriv | transferPriv | transfer10x2Priv => 2 * Bongtu.kemCiphertextLen
  | withdrawPriv | withdraw => Bongtu.kemCiphertextLen + 33
  | deposit | disburse256 | transfer | transfer10x2 => Bongtu.kemCiphertextLen

def injectedCount : SolanaOpName → ℕ
  | depositPriv | transferPriv | transfer10x2Priv => 0
  | withdrawPriv => 1
  | withdraw => 3
  | deposit | disburse256 | transfer | transfer10x2 => 2

theorem carriedPublics_eq (op : SolanaOpName) : (solanaOps op).carried.length = op.carriedPublics := by
  cases op <;> rfl

theorem wireLenOf_eq (op : SolanaOpName) :
    (solanaOps op).wireLenOf = 1 + proofLen + 32 * op.carriedPublics + op.tailLen := by
  cases op <;> rfl

theorem nPublic_eq (op : SolanaOpName) : (solanaOps op).nPublic = op.nPublic := by
  cases op <;> rfl

end Bongtu.Core.SolanaOpName

namespace Bongtu.Solana

open Core

-- Where one slot of a public vector comes from.
inductive Slot where
  | blank
  | wire (w : ℕ)
  | enabled (w : ℕ)
  | one
  | injected (j : ℕ)
deriving DecidableEq, Repr

namespace Slot

instance : Zero Slot := ⟨blank⟩

variable {W : Type} [DecidableEq W] [Zero W] [One W]

def fill {n : ℕ} (carried : Fin n → W) (values : List W) : Slot → W
  | blank => 0
  | wire w => signal carried w
  | enabled w => if signal carried w ≠ 0 then 1 else 0
  | one => 1
  | injected j => values.getD j 0

def wires (n : ℕ) : Fin n → Slot := fun i => .wire i.val

theorem fill_wires {n : ℕ} (carried : Fin n → W) (values : List W) : fill carried values ∘ wires n = carried := by
  funext i
  exact signal_val carried i

def enabledRun (offset length : ℕ) : List Slot := (List.range length).map fun i => .enabled (offset + i)

def valueRun (length : ℕ) : List Slot := (List.range length).map .injected

theorem fill_enabledRun {n : ℕ} (carried : Fin n → W) (values : List W) (offset length : ℕ) :
    (enabledRun offset length).map (fill carried values) = Bongtu.enabled (slice carried offset length) := by
  simp only [enabledRun, Bongtu.enabled, slice, List.map_map]
  rfl

theorem fill_valueRun {n length : ℕ} (carried : Fin n → W) {values : List W} (hlen : values.length = length) :
    (valueRun length).map (fill carried values) = values := by
  refine List.ext_getElem (by simp [valueRun, hlen]) fun j hj hj' => ?_
  simp [valueRun, fill, hj']

end Slot

-- The slot the layout table puts at an index.
def slotOf (l : SolanaOpLayout) (i : ℕ) : Slot :=
  if i ∈ l.carried then .wire (l.carried.idxOf i)
  else if i ∈ l.field .enabled then
    if (l.enabled.map SolanaEnabledSpec.constantOne).getD false = true then .one
    else .enabled (l.carried.idxOf ((l.field .nullifiers).getD ((l.field .enabled).idxOf i) 0))
  else if i ∈ l.field .authorityPubKey then .injected ((l.field .authorityPubKey).idxOf i)
  else if i ∈ l.field .recipient then
    .injected ((l.field .authorityPubKey).length + (l.field .recipient).idxOf i)
  else .blank

section Rebuild

variable {K W : Type} [DecidableEq W] [Zero W] [One W] (env : Env K W)

-- The vector each handler hands to its verifier, from the carried publics and the injected values.
def publicsOf : (op : SolanaOpName) → (Fin op.carriedPublics → W) → List W → Fin op.nPublic → W
  | .depositPriv => (depositPrivFamily env).publics
  | .transferPriv => (transferPrivFamily env).publics
  | .transfer10x2Priv => (transfer10x2PrivFamily env).publics
  | .withdrawPriv => (withdrawPrivFamily env).publics
  | .deposit => (depositFamily env).publics
  | .withdraw => (withdrawFamily env).publics
  | .disburse256 => disbursePublics
  | .transfer => (transferFamily env).publics
  | .transfer10x2 => (transfer10x2Family env).publics

def verifierOf : (op : SolanaOpName) → Proof → (Fin op.nPublic → W) → Bool
  | .depositPriv => env.verifyDepositPriv
  | .transferPriv => env.verifyTransferPriv
  | .transfer10x2Priv => env.verifyTransfer10x2Priv
  | .withdrawPriv => env.verifyWithdrawPriv
  | .deposit => env.verifyDeposit
  | .withdraw => env.verifyWithdraw
  | .disburse256 => env.verifyDisburse256
  | .transfer => env.verifyTransfer
  | .transfer10x2 => env.verifyTransfer10x2

-- The nullifiers each handler spends and the commitments it appends, off the carried publics; a
-- disbursement attaches the root of its block instead.
def nullifiersOf : (op : SolanaOpName) → (Fin op.carriedPublics → W) → List W
  | .depositPriv => (depositPrivFamily env).nullifiers
  | .transferPriv => (transferPrivFamily env).nullifiers
  | .transfer10x2Priv => (transfer10x2PrivFamily env).nullifiers
  | .withdrawPriv => (withdrawPrivFamily env).nullifiers
  | .deposit => (depositFamily env).nullifiers
  | .withdraw => (withdrawFamily env).nullifiers
  | .disburse256 => fun carried : Fin 8 → W => [carried 5]
  | .transfer => (transferFamily env).nullifiers
  | .transfer10x2 => (transfer10x2Family env).nullifiers

def outputsOf : (op : SolanaOpName) → (Fin op.carriedPublics → W) → List W
  | .depositPriv => (depositPrivFamily env).outputs
  | .transferPriv => (transferPrivFamily env).outputs
  | .transfer10x2Priv => (transfer10x2PrivFamily env).outputs
  | .withdrawPriv => (withdrawPrivFamily env).outputs
  | .deposit => (depositFamily env).outputs
  | .withdraw => (withdrawFamily env).outputs
  | .disburse256 => fun carried : Fin 8 → W => [carried 3]
  | .transfer => (transferFamily env).outputs
  | .transfer10x2 => (transfer10x2Family env).outputs

def arbiterOf (op : SolanaOpName) (c : PoolConfig K W) : List W :=
  if op.enterprise = true then [c.arbiterX, c.arbiterY] else []

-- The recipient token account is account 11 of both withdrawals.
def boundOf (op : SolanaOpName) (tx : Tx K) : List W :=
  if op.paysOut = true then tx.keys[11]?.toList.map env.boundRecipient else []

-- Two runs set into the carried publics, slot by slot.
theorem insertRuns_fill {n m N : ℕ} (l : SolanaOpLayout) (index index' : ℕ) (run run' : List Slot)
    (hplan : ∀ i : Fin N, insertRun (insertRun (Slot.wires n) index run : Fin m → Slot) index' run' i =
      slotOf l i.val) {carried : Fin n → W} {values flags injected : List W}
    (hflags : run.map (Slot.fill carried values) = flags)
    (hinjected : run'.map (Slot.fill carried values) = injected) (i : Fin N) :
    insertRun (insertRun carried index flags : Fin m → W) index' injected i =
      Slot.fill carried values (slotOf l i.val) := by
  have hblank : Slot.fill carried values 0 = 0 := rfl
  subst hflags hinjected
  rw [← hplan i]
  nth_rewrite 1 [← Slot.fill_wires carried values]
  rw [insertRun_comp hblank, insertRun_comp hblank]
  rfl

section Families

variable {values : List W}

theorem depositPriv_slot (carried : Fin 16 → W) (i : Fin 16) :
    (depositPrivFamily env).publics carried values i =
      Slot.fill carried values (slotOf (solanaOps .depositPriv) i.val) := by
  have hslot := insertRuns_fill (N := 16) (m := 16) (solanaOps .depositPriv) 0 0 [] [] (by decide)
    (Eq.refl (List.map (Slot.fill carried values) [])) rfl i
  rwa [List.map_nil, insertRun_nil, insertRun_nil] at hslot

theorem transferPriv_slot (carried : Fin 18 → W) (i : Fin 20) :
    (transferPrivFamily env).publics carried values i =
      Slot.fill carried values (slotOf (solanaOps .transferPriv) i.val) := by
  have hslot := insertRuns_fill (N := 20) (m := 20) (solanaOps .transferPriv) 15 0 (Slot.enabledRun 12 2) []
    (by decide) (Slot.fill_enabledRun carried values 12 2) rfl i
  rwa [List.map_nil, insertRun_nil] at hslot

theorem transfer10x2Priv_slot (carried : Fin 26 → W) (i : Fin 36) :
    (transfer10x2PrivFamily env).publics carried values i =
      Slot.fill carried values (slotOf (solanaOps .transfer10x2Priv) i.val) := by
  have hslot := insertRuns_fill (N := 36) (m := 36) (solanaOps .transfer10x2Priv) 23 0
    (Slot.enabledRun 12 10) [] (by decide) (Slot.fill_enabledRun carried values 12 10) rfl i
  rwa [List.map_nil, insertRun_nil] at hslot

theorem withdrawPriv_slot (carried : Fin 13 → W) (hvalues : values.length = 1) (i : Fin 16) :
    (withdrawPrivFamily env).publics carried values i =
      Slot.fill carried values (slotOf (solanaOps .withdrawPriv) i.val) :=
  insertRuns_fill (m := 15) (solanaOps .withdrawPriv) 11 15 (Slot.enabledRun 8 2) (Slot.valueRun 1)
    (by decide) (Slot.fill_enabledRun carried values 8 2) (Slot.fill_valueRun carried hvalues) i

theorem deposit_slot (carried : Fin 17 → W) (hvalues : values.length = 2) (i : Fin 19) :
    (depositFamily env).publics carried values i =
      Slot.fill carried values (slotOf (solanaOps .deposit) i.val) := by
  have hslot := insertRuns_fill (N := 19) (m := 17) (solanaOps .deposit) 0 17 [] (Slot.valueRun 2) (by decide)
    rfl (Slot.fill_valueRun carried hvalues) i
  rwa [List.map_nil, insertRun_nil] at hslot

theorem withdraw_slot (carried : Fin 22 → W) (hvalues : values.length = 3) (i : Fin 27) :
    (withdrawFamily env).publics carried values i =
      Slot.fill carried values (slotOf (solanaOps .withdraw) i.val) :=
  insertRuns_fill (m := 24) (solanaOps .withdraw) 20 24 (Slot.enabledRun 17 2) (Slot.valueRun 3)
    (by decide) (Slot.fill_enabledRun carried values 17 2) (Slot.fill_valueRun carried hvalues) i

theorem disburse256_slot (carried : Fin 8 → W) (hvalues : values.length = 2) (i : Fin 11) :
    disbursePublics carried values i = Slot.fill carried values (slotOf (solanaOps .disburse256) i.val) :=
  insertRuns_fill (m := 9) (solanaOps .disburse256) 7 9 [.one] (Slot.valueRun 2) (by decide) rfl
    (Slot.fill_valueRun carried hvalues) i

theorem transfer_slot (carried : Fin 33 → W) (hvalues : values.length = 2) (i : Fin 37) :
    (transferFamily env).publics carried values i =
      Slot.fill carried values (slotOf (solanaOps .transfer) i.val) :=
  insertRuns_fill (m := 35) (solanaOps .transfer) 30 35 (Slot.enabledRun 27 2) (Slot.valueRun 2)
    (by decide) (Slot.fill_enabledRun carried values 27 2) (Slot.fill_valueRun carried hvalues) i

theorem transfer10x2_slot (carried : Fin 56 → W) (hvalues : values.length = 2) (i : Fin 68) :
    (transfer10x2Family env).publics carried values i =
      Slot.fill carried values (slotOf (solanaOps .transfer10x2) i.val) :=
  insertRuns_fill (m := 66) (solanaOps .transfer10x2) 53 66 (Slot.enabledRun 42 10) (Slot.valueRun 2)
    (by decide) (Slot.fill_enabledRun carried values 42 10) (Slot.fill_valueRun carried hvalues) i

end Families

theorem publicsOf_slot (op : SolanaOpName) (carried : Fin op.carriedPublics → W) {values : List W}
    (hvalues : values.length = op.injectedCount) (i : Fin op.nPublic) :
    publicsOf env op carried values i = Slot.fill carried values (slotOf (solanaOps op) i.val) := by
  cases op with
  | depositPriv => exact depositPriv_slot env carried i
  | transferPriv => exact transferPriv_slot env carried i
  | transfer10x2Priv => exact transfer10x2Priv_slot env carried i
  | withdrawPriv => exact withdrawPriv_slot env carried hvalues i
  | deposit => exact deposit_slot env carried hvalues i
  | withdraw => exact withdraw_slot env carried hvalues i
  | disburse256 => exact disburse256_slot carried hvalues i
  | transfer => exact transfer_slot env carried hvalues i
  | transfer10x2 => exact transfer10x2_slot env carried hvalues i

end Rebuild

end Bongtu.Solana
