import Bongtu.Solana.Effect

set_option linter.unusedSectionVars false

namespace Bongtu.Solana

open Outcome

variable {K W : Type} [DecidableEq K] [DecidableEq W] [Zero W] [One W] {env : Env K W}

namespace TreeState

variable {poseidon2 : W → W → W}

theorem insertNode_room {t : TreeState W} {H startLevel : ℕ} {node : W} {a : ℕ × TreeState W}
    (h : t.insertNode poseidon2 H node startLevel = .ok a) : a.1 < 2 ^ H := by
  unfold insertNode at h
  simp only [Nat.one_shiftLeft] at h
  split at h
  · cases h
  · split at h
    · cases h
    · case isFalse hroom =>
      have hstride : 0 < 2 ^ startLevel := by positivity
      obtain rfl := Except.ok.inj h
      dsimp only
      omega

theorem attachSubtree_room {t : TreeState W} {H logB : ℕ} {node : W} {a : ℕ × TreeState W}
    (h : t.attachSubtree poseidon2 H node logB = .ok a) : a.1 < 2 ^ H := by
  obtain ⟨closed, -, hinsert⟩ := bind_ok.mp h
  exact insertNode_room hinsert

end TreeState

namespace Ledger

variable {l l' : Ledger K W} {tx : Tx K}

theorem createPda_events {key : K} {data : Data K W} (h : l.createPda env tx key data = .ok l') :
    l'.events = l.events := by
  obtain ⟨-, -, h⟩ := bind_ok.mp h
  obtain rfl := Except.ok.inj h
  rfl

theorem spendNullifiers_events {nfAccounts : List K}
    (h : l.spendNullifiers env tx nfAccounts = .ok l') : l'.events = l.events := by
  rw [spendNullifiers_ok nfAccounts h]
  rfl

theorem appendLeaves_start {tree : K} {leaf : W} {leaves : List W} {a : ℕ × W × Ledger K W}
    (h : l.appendLeaves env tree leaf leaves = .ok a) : a.1 < 2 ^ treeHeight ∧ a.2.2.events = l.events := by
  simp only [appendLeaves, bind_ok] at h
  obtain ⟨loaded, -, first, hfirst, t, -, h⟩ := h
  obtain rfl := Except.ok.inj h
  exact ⟨TreeState.insertNode_room hfirst, rfl⟩

theorem attachSubtree_start {tree : K} {subtreeRoot : W} {logB : ℕ} {a : ℕ × W × Ledger K W}
    (h : l.attachSubtree env tree subtreeRoot logB = .ok a) :
    a.1 < 2 ^ treeHeight ∧ a.2.2.events = l.events := by
  simp only [attachSubtree, bind_ok] at h
  obtain ⟨loaded, -, attached, hattached, h⟩ := h
  obtain rfl := Except.ok.inj h
  exact ⟨TreeState.attachSubtree_room hattached, rfl⟩

theorem registerNewRoot_events {acc : K} {root : W} (h : l.registerNewRoot env tx acc root = .ok l') :
    l'.events = l.events := by
  obtain ⟨-, ⟨-, rfl⟩ | ⟨-, -, rfl⟩⟩ := registerNewRoot_ok.mp h
  · rfl
  · rfl

theorem splTransfer_events {source dest authority : K} {amount : ℕ}
    (h : l.splTransfer env source dest authority amount = .ok l') : l'.events = l.events := by
  unfold splTransfer at h
  split at h
  · cases h
  · obtain rfl := Except.ok.inj h
    rfl

theorem emit_events {acc : K} {event : Event W} (h : l.emit env tx acc event = .ok l') :
    l'.events = l.events ++ [event] := by
  obtain ⟨-, -, rfl⟩ := emit_ok.mp h
  rfl

end Ledger

-- The pool config the instruction's first account holds.
def ReadsConfig (env : Env K W) (tx : Tx K) (l : Ledger K W) (c : PoolConfig K W) : Prop :=
  ∃ config rest, tx.keys = config :: rest ∧ l.accounts config = ⟨env.programId, .poolConfig c⟩

theorem arbiterKey_ok {c : PoolConfig K W} {arbiter : List W} (h : arbiterKey env c = .ok arbiter) :
    arbiter = [c.arbiterX, c.arbiterY] := by
  simp only [arbiterKey, bind_ok] at h
  obtain ⟨-, -, -, -, h⟩ := h
  exact (Except.ok.inj h).symm

namespace Family

variable {n N : ℕ} {fam : Family W n N} {tx : Tx K} {p : Payload n W} {l l' : Ledger K W}

def keyOf (fam : Family W n N) (c : PoolConfig K W) : List W :=
  if fam.enterprise = true then [c.arbiterX, c.arbiterY] else []

theorem arbiter_ok {c : PoolConfig K W} {arbiter : List W} (h : fam.arbiter env c = .ok arbiter) :
    arbiter = fam.keyOf c := by
  unfold Family.arbiter at h
  unfold keyOf
  split at h
  · case isTrue henterprise => rw [if_pos henterprise, arbiterKey_ok h]
  · case isFalse hconsumer => rw [if_neg hconsumer, Except.ok.inj h]

-- What an accepted instruction of the family tells: the statement it verified and the event it left.
structure Accepted (fam : Family W n N) (p : Payload n W) (injected : List W) (l l' : Ledger K W) :
    Prop where
  tail : p.tail.length = fam.tailLen
  proof : fam.verify p.proof (fam.publics p.carried injected) = true
  arity : (stripZeros (fam.nullifiers p.carried)).length ≤ maxNullifiers
  event : ∃ start root, start < 2 ^ treeHeight ∧ l'.events = l.events ++
    [.op fam.tag start (fam.outputs p.carried).length root (stripZeros (fam.nullifiers p.carried))]

theorem checkWire_tail {u : Unit} (h : fam.checkWire env p = .ok u) : p.tail.length = fam.tailLen := by
  obtain ⟨u, htail, -⟩ := bind_ok.mp h
  exact require_ok.mp htail

theorem transferOp_accepted (h : fam.transferOp env tx p l = .ok l') :
    ∃ c, ReadsConfig env tx l c ∧ fam.Accepted p (fam.keyOf c) l l' := by
  unfold transferOp at h
  split at h
  · case h_1 config tree spentRootAcc newRootAcc payer system eventAuthority program nfAccounts hkeys =>
    simp only [bind_ok, checkProof, require_ok, exists_const] at h
    obtain ⟨c, hc, arbiter, harbiter, u, hwire, -, -, spending, hspending, hproof, spent, hspent, appended,
      happended, known, hknown, hrecord⟩ := h
    obtain ⟨-, hconfig, -⟩ := Ledger.checkCommon_ok.mp hc
    obtain ⟨rfl, harity, -⟩ := Ledger.checkSpend_ok.mp hspending
    obtain ⟨hstart, hevents⟩ := Ledger.appendLeaves_start happended
    refine ⟨c, ⟨config, _, hkeys, hconfig⟩, checkWire_tail hwire, arbiter_ok harbiter ▸ hproof, harity,
      appended.1, appended.2.1, hstart, ?_⟩
    rw [Ledger.emit_events hrecord, Ledger.registerNewRoot_events hknown, hevents,
      Ledger.spendNullifiers_events hspent]
  · cases h

theorem withdrawOp_accepted {amountOf : (Fin n → W) → W} (h : fam.withdrawOp env amountOf tx p l = .ok l') :
    ∃ c recipient, ReadsConfig env tx l c ∧ tx.keys[11]? = some recipient ∧
      fam.Accepted p (fam.keyOf c ++ [env.boundRecipient recipient]) l l' := by
  unfold withdrawOp at h
  split at h
  · case h_1 config tree spentRootAcc newRootAcc payer system eventAuthority program tokenProgram vault
        vaultAuthority recipientToken nfAccounts hkeys =>
    simp only [bind_ok, checkProof, require_ok, exists_const] at h
    obtain ⟨c, hc, -, -, -, arbiter, harbiter, u, hwire, bound, hbound, -, -, amount, -, spending, hspending,
      hproof, spent, hspent, appended, happended, known, hknown, paid, hpaid, hrecord⟩ := h
    obtain ⟨-, hconfig, -⟩ := Ledger.checkCommon_ok.mp hc
    obtain ⟨rfl, harity, -⟩ := Ledger.checkSpend_ok.mp hspending
    obtain ⟨hstart, hevents⟩ := Ledger.appendLeaves_start happended
    obtain rfl : env.boundRecipient recipientToken = bound := by
      simp only [checkRecipient, bind_ok] at hbound
      obtain ⟨-, -, -, -, hbound⟩ := hbound
      exact Except.ok.inj hbound
    refine ⟨c, recipientToken, ⟨config, _, hkeys, hconfig⟩, by rw [hkeys]; rfl, checkWire_tail hwire,
      arbiter_ok harbiter ▸ hproof, harity, appended.1, appended.2.1, hstart, ?_⟩
    rw [Ledger.emit_events hrecord, Ledger.splTransfer_events hpaid, Ledger.registerNewRoot_events hknown,
      hevents, Ledger.spendNullifiers_events hspent]
  · cases h

-- A mint spends nothing.
theorem depositOp_accepted {amountOf : (Fin n → W) → W} (hmint : fam.nullifiers p.carried = [])
    (h : fam.depositOp env amountOf tx p l = .ok l') :
    ∃ c, ReadsConfig env tx l c ∧ fam.Accepted p (fam.keyOf c) l l' := by
  unfold depositOp at h
  split at h
  · case h_1 config tree newRootAcc payer system eventAuthority program tokenProgram payerToken vault rest
        hkeys =>
    simp only [bind_ok, checkProof, require_ok, exists_const] at h
    obtain ⟨c, hc, -, -, arbiter, harbiter, u, hwire, -, -, amount, -, hproof, appended, happended, known,
      hknown, -, paid, hpaid, hrecord⟩ := h
    obtain ⟨-, hconfig, -⟩ := Ledger.checkCommon_ok.mp hc
    obtain ⟨hstart, hevents⟩ := Ledger.appendLeaves_start happended
    refine ⟨c, ⟨config, _, hkeys, hconfig⟩, checkWire_tail hwire, arbiter_ok harbiter ▸ hproof,
      by simp [hmint, stripZeros], appended.1, appended.2.1, hstart, ?_⟩
    rw [Ledger.emit_events hrecord, Ledger.splTransfer_events hpaid, Ledger.registerNewRoot_events hknown,
      hevents, hmint]
    rfl
  · cases h

end Family

-- The same for a disbursement, whose single nullifier is never zero.
structure Disbursed (env : Env K W) (p : Payload 8 W) (injected : List W) (l l' : Ledger K W) : Prop where
  tail : p.tail.length = kemCiphertextLen
  real : p.carried 5 ≠ 0
  proof : env.verifyDisburse256 p.proof (disbursePublics p.carried injected) = true
  event : ∃ start root, start < 2 ^ treeHeight ∧ l'.events = l.events ++
    [.disburse 7 start (p.carried 3) root (p.carried 5) (p.carried 2) (p.carried 4) arbiterEpochGenesis]

theorem disburse256_accepted {tx : Tx K} {p : Payload 8 W} {l l' : Ledger K W}
    (h : disburse256 env tx p l = .ok l') :
    ∃ c, ReadsConfig env tx l c ∧ Disbursed env p [c.arbiterX, c.arbiterY] l l' := by
  unfold disburse256 at h
  split at h
  · case h_1 config tree spentRootAcc newRootAcc batchAcc payer system eventAuthority program nfAccounts
        hkeys =>
    simp only [bind_ok, require_ok, exists_const] at h
    obtain ⟨c, hc, arbiter, harbiter, logB, -, -, htail, -, -, hreal, spending, -, hproof, spent, hspent,
      attached, hattached, known, hknown, anchored, hanchored, hemit⟩ := h
    obtain ⟨-, hconfig, -⟩ := Ledger.checkCommon_ok.mp hc
    obtain ⟨hstart, hevents⟩ := Ledger.attachSubtree_start hattached
    obtain ⟨-, -, -, -, hcreated⟩ : ∃ u, require _ _ = .ok u ∧ ∃ u, require _ _ = .ok u ∧
        known.createPda env tx batchAcc _ = .ok anchored := by
      simpa only [createBatch, bind_ok] using hanchored
    refine ⟨c, ⟨config, _, hkeys, hconfig⟩, htail, hreal, arbiterKey_ok harbiter ▸ hproof, attached.1,
      attached.2.1, hstart, ?_⟩
    rw [Ledger.emit_events hemit, Ledger.createPda_events hcreated, Ledger.registerNewRoot_events hknown,
      hevents, Ledger.spendNullifiers_events hspent]
  · cases h

end Bongtu.Solana
