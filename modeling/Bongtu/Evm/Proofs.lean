import Bongtu.Circuit.Balance
import Bongtu.Evm.Accepted

namespace Bongtu.Evm

open Circuit Merkle Outcome World

section Layout

variable {W : Type} [Zero W] {n : ℕ}

-- The signals of a public vector from an offset on.
def pubAt (pub : Fin n → W) (offset i : ℕ) : W := signal pub (offset + i)

theorem map_pubAt {pub pub' : Fin n → W} {offset count : ℕ}
    (hsame : ∀ i < count, signal pub' (offset + i) = signal pub (offset + i)) :
    (List.range count).map (pubAt pub' offset) = (List.range count).map (pubAt pub offset) :=
  List.map_congr_left fun i hi => hsame i (List.mem_range.mp hi)

variable [One W] [DecidableEq W]

-- A vector whose signals before `stop` are those of `pub`, with the flags of its nullifiers put in by the contract.
structure Flagged (pub pub' : Fin n → W) (nullifiers enabledAt count stop : ℕ) : Prop where
  apart : nullifiers + count ≤ enabledAt
  room : enabledAt + count ≤ n
  flags : ∀ i < stop, signal pub' i =
    signal (inject pub enabledAt (enabled ((List.range count).map (pubAt pub nullifiers)))) i
  stop_ge : enabledAt + count ≤ stop

variable {pub pub' : Fin n → W} {nullifiers enabledAt count stop : ℕ}

theorem Flagged.signal_eq (hf : Flagged pub pub' nullifiers enabledAt count stop) {i : ℕ} (hi : i < stop)
    (hoff : i < enabledAt ∨ enabledAt + count ≤ i) : signal pub' i = signal pub i := by
  rw [hf.flags i hi]
  refine signal_inject_off pub _ ?_
  rwa [enabled, List.length_map, List.length_map, List.length_range]

theorem Flagged.nullifiers_eq (hf : Flagged pub pub' nullifiers enabledAt count stop) :
    (List.range count).map (pubAt pub' nullifiers) = (List.range count).map (pubAt pub nullifiers) := by
  have hapart := hf.apart
  have hstop := hf.stop_ge
  exact map_pubAt fun i hi => hf.signal_eq (by omega) (by omega)

theorem Flagged.injected {W : Type} [CommRing W] [DecidableEq W] {pub pub' : Fin n → W}
    (hf : Flagged pub pub' nullifiers enabledAt count stop) :
    Injected count (pubAt pub' nullifiers) (pubAt pub' enabledAt) := by
  intro i hi
  have hapart := hf.apart
  have hstop := hf.stop_ge
  have hlen : (enabled ((List.range count).map (pubAt pub nullifiers))).length = count := by
    rw [enabled, List.length_map, List.length_map, List.length_range]
  have hflag : pubAt pub' enabledAt i = if pubAt pub nullifiers i ≠ 0 then 1 else 0 := by
    rw [pubAt, hf.flags _ (by omega), signal_inject_on pub (by rwa [hlen]) (by rw [hlen]; exact hf.room), enabled,
      List.map_map, List.getD_eq_getElem?_getD, List.getElem?_map, List.getElem?_range hi]
    rfl
  have hnf : pubAt pub' nullifiers i = pubAt pub nullifiers i := hf.signal_eq (by omega) (by omega)
  rw [hflag, hnf]

end Layout

variable {W T Key : Type} [CommRing W] [DecidableEq W]

-- Ideal verifiers: a public vector is accepted only where the constraints of its circuit on notes and values hold; what a
-- circuit says of ciphertexts is left aside. `2 ^ k` is the batch size the disburse circuits are built for.
structure Circuits (env : Env W T) (g : NoteGadgets W Key) (k : ℕ) : Prop where
  deposit : ∀ {proof pub}, env.depositVerifier proof pub = true →
    ∃ x, BongtuDepositAuthority g 2 (pubAt pub 14) (signal pub 0) x
  disburse : ∀ {proof pub}, env.disburseVerifier proof pub = true → ∃ outputCommitments x,
    Zeto g 1 (2 ^ k) treeHeight (pubAt pub 5) (pubAt pub 7) (signal pub 6) (signal pub 3) outputCommitments x
  transfer : ∀ {proof pub}, env.transferVerifier proof pub = true →
    ∃ x, ZetoTransferSmall g 2 2 treeHeight (pubAt pub 27) (pubAt pub 30) (signal pub 29) (pubAt pub 32) x
  transfer10 : ∀ {proof pub}, env.transfer10Verifier proof pub = true →
    ∃ x, ZetoTransferSmall g 10 10 treeHeight (pubAt pub 107) (pubAt pub 118) (signal pub 117) (pubAt pub 128) x
  transfer10x2 : ∀ {proof pub}, env.transfer10x2Verifier proof pub = true →
    ∃ x, ZetoTransferSmall g 10 2 treeHeight (pubAt pub 42) (pubAt pub 53) (signal pub 52) (pubAt pub 63) x
  withdraw : ∀ {proof pub}, env.withdrawVerifier proof pub = true →
    ∃ x, CheckNullifiersInputsOutputsValueIMT g 2 1 treeHeight (pubAt pub 17) (pubAt pub 20) (signal pub 19)
      (pubAt pub 22) (signal pub 0) x
  depositPriv : ∀ {proof pub}, env.depositPrivVerifier proof pub = true →
    ∃ x, BongtuConsumerDeposit g 2 (pubAt pub 13) (signal pub 0) x
  transferPriv : ∀ {proof pub}, env.transferPrivVerifier proof pub = true →
    ∃ x, BongtuConsumerTransfer g 2 2 treeHeight (pubAt pub 12) (pubAt pub 15) (signal pub 14) (pubAt pub 17) x
  transfer10x2Priv : ∀ {proof pub}, env.transfer10x2PrivVerifier proof pub = true →
    ∃ x, BongtuConsumerTransfer g 10 2 treeHeight (pubAt pub 12) (pubAt pub 23) (signal pub 22) (pubAt pub 33) x
  withdrawPriv : ∀ {proof pub}, env.withdrawPrivVerifier proof pub = true →
    ∃ x, BongtuConsumerWithdrawBase g 2 1 treeHeight (pubAt pub 8) (pubAt pub 11) (signal pub 10) (pubAt pub 13)
      (signal pub 0) x
  disbursePriv : ∀ {proof pub}, env.disbursePrivVerifier proof pub = true → ∃ outputCommitments x,
    BongtuConsumerDisburse g 1 (2 ^ k) treeHeight (pubAt pub 4) (pubAt pub 6) (signal pub 5) (signal pub 3)
      outputCommitments x

def Call.paidIn (env : Env W T) : Call W → ℕ
  | .deposit _ pub _ => env.toNat (pub 0)
  | .depositPriv _ _ pub _ => env.toNat (pub 0)
  | _ => 0

def Call.paidOut (env : Env W T) : Call W → ℕ
  | .withdraw _ pub _ _ _ => env.toNat (pub 0)
  | .withdrawPriv _ _ pub _ _ _ => env.toNat (pub 0)
  | _ => 0

-- A call that reaches the op gate without one of the repository's circuits.
def Call.isBare : Call W → Bool
  | .applyOp _ => true
  | .applyOpWithPull _ _ _ => true
  | .applyOpWithPush _ _ _ => true
  | _ => false

-- The leaves a call puts into the tree, appended one by one or under one attached root.
def Creates (poseidon : W → W → W) (k : ℕ) (ops : List (TreeOp W)) (leaves : List W) : Prop :=
  ops = leaves.map .append ∨ ∃ r, ops = [.attach r none] ∧ leaves.length = 2 ^ k ∧
    (Content.ofLeaves leaves).nodeAt poseidon 0 k 0 = r

-- What an accepted call has shown of the notes it spends and makes.
structure Shown (env : Env W T) (h : NoteHash W Key) (k : ℕ) (w : World W T) (m : Message W) (root : W)
    (leaves : List W) (inputs : List (Input W)) (outputs : List (Opening W Key)) : Prop where
  moves : Moves env.poseidon h env.toNat treeHeight root m.call.nullifiers leaves (m.call.paidIn env)
    (m.call.paidOut env) inputs outputs
  known : m.call.nullifiers ≠ [] → w.pool.knownRoots root = true
  creates : Creates env.poseidon k m.call.ops leaves

section Calls

variable {env : Env W T} {g : NoteGadgets W Key} {h : NoteHash W Key} {k : ℕ} {w w' : World W T}

theorem flagged_keyed {N enabledAt keyAt : ℕ} {pub : Fin N → W} (nullifiers count : ℕ) (key : List W)
    (hapart : nullifiers + count ≤ enabledAt) (hroom : enabledAt + count ≤ N) (hkey : enabledAt + count ≤ keyAt) :
    Flagged pub (inject (inject pub enabledAt (enabled ((List.range count).map (pubAt pub nullifiers)))) keyAt key)
      nullifiers enabledAt count keyAt :=
  ⟨hapart, hroom, fun _ hi => signal_inject_off _ _ (.inl hi), hkey⟩

theorem flagged_plain {N enabledAt : ℕ} {pub : Fin N → W} (nullifiers count : ℕ)
    (hapart : nullifiers + count ≤ enabledAt) (hroom : enabledAt + count ≤ N) :
    Flagged pub (inject pub enabledAt (enabled ((List.range count).map (pubAt pub nullifiers))))
      nullifiers enabledAt count N :=
  ⟨hapart, hroom, fun _ _ => rfl, hroom⟩

theorem shown_of_nothing {m : Message W} (hnfs : m.call.nullifiers = []) (hops : m.call.ops = [])
    (hin : m.call.paidIn env = 0) (hout : m.call.paidOut env = 0) :
    ∃ root leaves inputs outputs, Shown env h k w m root leaves inputs outputs :=
  ⟨0, [], [], [], ⟨by rw [hnfs]; exact .nil, .nil, fun _ => by rw [hin, hout]; exact le_rfl⟩,
    fun hne => absurd hnfs hne, .inl hops⟩

theorem shown_of_deposit {N outputs : ℕ} {pub pub' : Fin N → W} {x : MintSignals W Key} {m : Message W}
    (hread : ReadsNumbers env.toNat) (hg : g.Sound env.poseidon h)
    (hx : BongtuDepositAuthority g 2 (pubAt pub' outputs) (signal pub' 0) x)
    (hzero : signal pub' 0 = signal pub 0) (houts : ∀ i < 2, signal pub' (outputs + i) = signal pub (outputs + i))
    (hnfs : m.call.nullifiers = []) (hops : m.call.ops = ((List.range 2).map (pubAt pub outputs)).map .append)
    (hin : m.call.paidIn env = env.toNat (signal pub 0)) (hout : m.call.paidOut env = 0) :
    ∃ root leaves inputs outputs, Shown env h k w m root leaves inputs outputs := by
  obtain ⟨inputs, outputs, hmoves⟩ := hx.moves hread hg (by norm_num) treeHeight 0
  rw [map_pubAt houts, hzero] at hmoves
  exact ⟨0, _, inputs, outputs, by rwa [hnfs, hin, hout], fun hne => absurd hnfs hne, .inl hops⟩

variable [Nontrivial W]

theorem shown_of_transfer {N nullifiers rootAt enabledAt outputs count outs stop : ℕ} {pub pub' : Fin N → W}
    {x : SpendSignals W Key} {m : Message W} (hread : ReadsNumbers env.toNat) (hg : g.Sound env.poseidon h)
    (hf : Flagged pub pub' nullifiers enabledAt count stop)
    (hx : ZetoTransferSmall g count outs treeHeight (pubAt pub' nullifiers) (pubAt pub' enabledAt) (signal pub' rootAt)
      (pubAt pub' outputs) x)
    (hroot : rootAt < enabledAt) (houts : enabledAt + count ≤ outputs) (hstop : outputs + outs ≤ stop)
    (hfew : count ≤ 2 ^ 64) (hfew' : outs ≤ 2 ^ 64)
    (hnfs : m.call.nullifiers = stripZeros ((List.range count).map (pubAt pub nullifiers)))
    (hops : m.call.ops = ((List.range outs).map (pubAt pub outputs)).map .append)
    (hin : m.call.paidIn env = 0) (hout : m.call.paidOut env = 0)
    (hknown : m.call.nullifiers ≠ [] → w.pool.knownRoots (signal pub rootAt) = true) :
    ∃ root leaves inputs outputs, Shown env h k w m root leaves inputs outputs := by
  have hge := hf.stop_ge
  obtain ⟨inputs, outputs, hmoves⟩ := hx.moves hread hg hf.injected hfew hfew'
  rw [hf.nullifiers_eq, ← hnfs, hf.signal_eq (by omega) (.inl hroot),
    map_pubAt fun i hi => hf.signal_eq (by omega) (.inr (by omega))] at hmoves
  refine ⟨_, _, inputs, outputs, ?_, hknown, .inl hops⟩
  rwa [hin, hout]

theorem shown_of_withdraw {N nullifiers rootAt enabledAt outputs stop : ℕ} {pub pub' : Fin N → W}
    {x : SpendSignals W Key} {m : Message W} (hread : ReadsNumbers env.toNat) (hg : g.Sound env.poseidon h)
    (hf : Flagged pub pub' nullifiers enabledAt 2 stop)
    (hx : CheckNullifiersInputsOutputsValueIMT g 2 1 treeHeight (pubAt pub' nullifiers) (pubAt pub' enabledAt)
      (signal pub' rootAt) (pubAt pub' outputs) (signal pub' 0) x)
    (hroot : rootAt < enabledAt) (houts : enabledAt + 2 ≤ outputs) (hstop : outputs + 1 ≤ stop)
    (hnfs : m.call.nullifiers = stripZeros ((List.range 2).map (pubAt pub nullifiers)))
    (hops : m.call.ops = ((List.range 1).map (pubAt pub outputs)).map .append)
    (hin : m.call.paidIn env = 0) (hout : m.call.paidOut env = env.toNat (signal pub 0))
    (hknown : m.call.nullifiers ≠ [] → w.pool.knownRoots (signal pub rootAt) = true) :
    ∃ root leaves inputs outputs, Shown env h k w m root leaves inputs outputs := by
  have hge := hf.stop_ge
  obtain ⟨inputs, outputs, hmoves⟩ := hx.moves hread hg hf.injected le_rfl le_rfl
  rw [hf.nullifiers_eq, ← hnfs, hf.signal_eq (by omega) (.inl hroot),
    map_pubAt fun i hi => hf.signal_eq (by omega) (.inr (by omega)), hf.signal_eq (by omega) (.inl (by omega))] at hmoves
  refine ⟨_, _, inputs, outputs, ?_, hknown, .inl hops⟩
  rwa [hin, hout]

theorem shown_of_disburse {N nullifierAt rootAt enabledAt subtreeAt : ℕ} (stop : ℕ) {pub pub' : Fin N → W}
    {outputCommitments : ℕ → W} {x : SpendSignals W Key} {m : Message W} (hread : ReadsNumbers env.toNat)
    (hg : g.Sound env.poseidon h) (hk : k ≤ treeHeight)
    (hflag : ∀ i < stop, signal pub' i = signal (inject pub enabledAt [1]) i)
    (hx : Zeto g 1 (2 ^ k) treeHeight (pubAt pub' nullifierAt) (pubAt pub' enabledAt) (signal pub' rootAt)
      (signal pub' subtreeAt) outputCommitments x)
    (hnf : signal pub nullifierAt ≠ 0) (hnullifierAt : nullifierAt < enabledAt) (hroot : rootAt < enabledAt)
    (hsubtree : subtreeAt < enabledAt) (hstop : enabledAt < stop) (hroom : enabledAt < N)
    (hnfs : m.call.nullifiers = [signal pub nullifierAt])
    (hops : m.call.ops = [.attach (signal pub subtreeAt) none] ∨ m.call.ops = [])
    (hin : m.call.paidIn env = 0) (hout : m.call.paidOut env = 0)
    (hknown : w.pool.knownRoots (signal pub rootAt) = true) :
    ∃ root leaves inputs outputs, Shown env h k w m root leaves inputs outputs := by
  have hbefore : ∀ i < enabledAt, signal pub' i = signal pub i := fun i hi =>
    (hflag i (hi.trans hstop)).trans (signal_inject_off pub _ (.inl hi))
  have hlive : ∀ i < 1, pubAt pub' nullifierAt i ≠ 0 := by
    intro i hi
    obtain rfl := Nat.lt_one_iff.mp hi
    rw [pubAt, Nat.add_zero, hbefore _ hnullifierAt]
    exact hnf
  have hinjected : Injected 1 (pubAt pub' nullifierAt) (pubAt pub' enabledAt) := by
    intro i hi
    rw [if_pos (hlive i hi)]
    obtain rfl := Nat.lt_one_iff.mp hi
    rw [pubAt, Nat.add_zero, hflag _ hstop]
    exact signal_inject_on (j := 0) pub (by simp) (by simpa using hroom)
  obtain ⟨inputs, outputs, hmoves⟩ := hx.moves hread hg hinjected hlive (by norm_num)
    (Nat.pow_le_pow_right (by decide) (hk.trans (by decide)))
  have hstrip : stripZeros ((List.range 1).map (pubAt pub' nullifierAt)) = m.call.nullifiers := by
    rw [hnfs, List.range_one, List.map_singleton, pubAt, Nat.add_zero, hbefore _ hnullifierAt]
    simp [stripZeros, hnf]
  rw [hstrip, hbefore _ hroot] at hmoves
  rcases hops with hops | hops
  · refine ⟨_, _, inputs, outputs, by rwa [hin, hout], fun _ => hknown, .inr ⟨_, hops, by simp, ?_⟩⟩
    rw [← hbefore _ hsubtree]
    exact subtree_node hg.toSound hx.2.2
  · exact ⟨_, [], inputs, [], by rw [hin, hout]; exact hmoves.dropped, fun _ => hknown, .inl hops⟩

variable (hcircuits : Circuits env g k) (hread : ReadsNumbers env.toNat) (hg : g.Sound env.poseidon h)
  (hk : k ≤ treeHeight)

include hcircuits hread hg hk

theorem accepts_shown {m : Message W} (hm : Accepts env w m w') (hbare : m.call.isBare = false) :
    ∃ root leaves inputs outputs, Shown env h k w m root leaves inputs outputs := by
  have hverified := hm.verified
  have hfresh := hm.effect.fresh
  obtain ⟨sender, call⟩ := m
  cases call with
  | applyOp => cases hbare
  | applyOpWithPull => cases hbare
  | applyOpWithPush => cases hbare
  | deposit proof pub kem =>
    obtain ⟨key, -, hproof⟩ := hverified
    obtain ⟨x, hx⟩ := hcircuits.deposit hproof
    have hsame : ∀ i < 17, signal (inject pub 17 key) i = signal pub i := fun i hi =>
      signal_inject_off pub key (.inl hi)
    exact shown_of_deposit hread hg hx (hsame 0 (by decide)) (fun i hi => hsame _ (by omega)) rfl rfl rfl rfl
  | depositPriv module proof pub kems =>
    obtain ⟨-, -, hproof⟩ := hverified
    obtain ⟨x, hx⟩ := hcircuits.depositPriv hproof
    exact shown_of_deposit hread hg hx rfl (fun _ _ => rfl) rfl rfl rfl rfl
  | transfer proof pub kem =>
    obtain ⟨hroot, key, -, hproof⟩ := hverified
    obtain ⟨x, hx⟩ := hcircuits.transfer hproof
    exact shown_of_transfer hread hg (flagged_keyed 27 2 key (by decide) (by decide) (by decide)) hx
      (by decide) (by decide) (by decide) (by decide) (by decide) rfl rfl rfl rfl fun _ => hroot
  | transfer10 proof pub kem =>
    obtain ⟨hroot, key, -, hproof⟩ := hverified
    obtain ⟨x, hx⟩ := hcircuits.transfer10 hproof
    exact shown_of_transfer hread hg (flagged_keyed 107 10 key (by decide) (by decide) (by decide)) hx
      (by decide) (by decide) (by decide) (by decide) (by decide) rfl rfl rfl rfl fun _ => hroot
  | transfer10x2 proof pub kem =>
    obtain ⟨hroot, key, -, hproof⟩ := hverified
    obtain ⟨x, hx⟩ := hcircuits.transfer10x2 hproof
    exact shown_of_transfer hread hg (flagged_keyed 42 10 key (by decide) (by decide) (by decide)) hx
      (by decide) (by decide) (by decide) (by decide) (by decide) rfl rfl rfl rfl fun _ => hroot
  | transferPriv module proof pub kems =>
    obtain ⟨-, -, hproof, hroot⟩ := hverified
    obtain ⟨x, hx⟩ := hcircuits.transferPriv hproof
    exact shown_of_transfer hread hg (flagged_plain 12 2 (by decide) (by decide)) hx (by decide)
      (by decide) (by decide) (by decide) (by decide) rfl rfl rfl rfl fun hne => hroot.1 hne
  | transfer10x2Priv module proof pub kems =>
    obtain ⟨-, -, hproof, hroot⟩ := hverified
    obtain ⟨x, hx⟩ := hcircuits.transfer10x2Priv hproof
    exact shown_of_transfer hread hg (flagged_plain 12 10 (by decide) (by decide)) hx (by decide)
      (by decide) (by decide) (by decide) (by decide) rfl rfl rfl rfl fun hne => hroot.1 hne
  | withdraw proof pub kem eph tag =>
    obtain ⟨hroot, -, key, -, hproof⟩ := hverified
    obtain ⟨x, hx⟩ := hcircuits.withdraw hproof
    exact shown_of_withdraw hread hg (flagged_keyed 17 2 key (by decide) (by decide) (by decide)) hx
      (by decide) (by decide) (by decide) rfl rfl rfl rfl fun _ => hroot
  | withdrawPriv module proof pub kems eph tag =>
    obtain ⟨-, -, -, hproof, hroot⟩ := hverified
    obtain ⟨x, hx⟩ := hcircuits.withdrawPriv hproof
    exact shown_of_withdraw hread hg (flagged_plain 8 2 (by decide) (by decide)) hx (by decide)
      (by decide) (by decide) rfl rfl rfl rfl fun hne => hroot.1 hne
  | disburseWithCiphertexts proof pub cts kem =>
    obtain ⟨hroot, key, -, hproof⟩ := hverified
    obtain ⟨outputCommitments, x, hx⟩ := hcircuits.disburse hproof
    exact shown_of_disburse 9 hread hg hk (fun i hi => signal_inject_off _ key (.inl hi)) hx
      (hfresh (pub 5) (by simp [Call.nullifiers])).1 (by decide) (by decide) (by decide) (by decide) (by decide) rfl
      (.inl rfl) rfl rfl hroot
  | disbursePriv256 module proof pub disclosure hashes =>
    obtain ⟨-, -, hproof, hroot⟩ := hverified
    obtain ⟨outputCommitments, x, hx⟩ := hcircuits.disbursePriv hproof
    have hops : Call.ops (.disbursePriv256 module proof pub disclosure hashes) = [.attach (signal pub 3) none] ∨
        Call.ops (.disbursePriv256 module proof pub disclosure hashes) = [] := by
      rw [Call.ops]
      split
      · exact .inl rfl
      · exact .inr rfl
    exact shown_of_disburse 8 hread hg hk (fun _ _ => rfl) hx
      (hfresh (pub 4) (by simp [Call.nullifiers])).1 (by decide) (by decide) (by decide) (by decide) (by decide) rfl
      hops rfl rfl hroot
  | registerModule => exact shown_of_nothing rfl rfl rfl rfl
  | removeModule => exact shown_of_nothing rfl rfl rfl rfl
  | rotateArbiter => exact shown_of_nothing rfl rfl rfl rfl
  | reinitializeV3 => exact shown_of_nothing rfl rfl rfl rfl
  | submitDisburseKemChunk => exact shown_of_nothing rfl rfl rfl rfl

end Calls

end Bongtu.Evm
