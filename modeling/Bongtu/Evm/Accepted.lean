import Bongtu.Evm.Effect

set_option linter.unusedSectionVars false

namespace Bongtu.Evm

open Outcome World

variable {W T : Type} [DecidableEq W] [Zero W] [One W] {env : Env W T}

def OpEffects.RootClaim (fx : OpEffects W) (w : World W T) : Prop :=
  (fx.nullifiers ≠ [] → w.pool.knownRoots fx.root = true) ∧ (fx.nullifiers = [] → fx.root = 0)

-- What the pool and the module have checked before they let a call through.
def Message.Verified (env : Env W T) (w : World W T) (m : Message W) : Prop :=
  match m.call with
  | .deposit proof pub _ => ∃ key, w.currentArbiterKey = .ok key ∧
      env.depositVerifier proof (inject pub 17 key) = true
  | .disburseWithCiphertexts proof pub _ _ => w.pool.knownRoots (pub 6) = true ∧
      ∃ key, w.currentArbiterKey = .ok key ∧
        env.disburseVerifier proof (inject (inject pub 7 [1]) 9 key) = true
  | .transfer proof pub _ => w.pool.knownRoots (pub 29) = true ∧
      ∃ key, w.currentArbiterKey = .ok key ∧
        env.transferVerifier proof (inject (inject pub 30 (enabled [pub 27, pub 28])) 35 key) = true
  | .transfer10 proof pub _ => w.pool.knownRoots (pub 117) = true ∧
      ∃ key, w.currentArbiterKey = .ok key ∧ env.transfer10Verifier proof
        (inject (inject pub 118 (enabled (slice pub 107 10))) 139 key) = true
  | .transfer10x2 proof pub _ => w.pool.knownRoots (pub 52) = true ∧
      ∃ key, w.currentArbiterKey = .ok key ∧ env.transfer10x2Verifier proof
        (inject (inject pub 53 (enabled (slice pub 42 10))) 66 key) = true
  | .withdraw proof pub _ _ _ => w.pool.knownRoots (pub 19) = true ∧ IsRecipient env (pub 26) ∧
      ∃ key, w.currentArbiterKey = .ok key ∧
        env.withdrawVerifier proof (inject (inject pub 20 (enabled [pub 17, pub 18])) 24 key) = true
  | .applyOp fx | .applyOpWithPull fx _ _ | .applyOpWithPush fx _ _ =>
      w.pool.registeredModules m.sender = true ∧ fx.RootClaim w
  | .depositPriv module proof pub _ => env.code module = some .depositPriv ∧
      w.pool.registeredModules module = true ∧ env.depositPrivVerifier proof pub = true
  | .transferPriv module proof pub _ => env.code module = some .transferPriv ∧
      w.pool.registeredModules module = true ∧
      env.transferPrivVerifier proof (inject pub 15 (enabled [pub 12, pub 13])) = true ∧
      OpEffects.RootClaim ⟨pub 14, stripZeros [pub 12, pub 13], [pub 17, pub 18], 0⟩ w
  | .transfer10x2Priv module proof pub _ => env.code module = some .transfer10x2Priv ∧
      w.pool.registeredModules module = true ∧
      env.transfer10x2PrivVerifier proof (inject pub 23 (enabled (slice pub 12 10))) = true ∧
      OpEffects.RootClaim ⟨pub 22, stripZeros (slice pub 12 10), [pub 33, pub 34], 0⟩ w
  | .withdrawPriv module proof pub _ _ _ => env.code module = some .withdrawPriv ∧
      w.pool.registeredModules module = true ∧ IsRecipient env (pub 15) ∧
      env.withdrawPrivVerifier proof (inject pub 11 (enabled [pub 8, pub 9])) = true ∧
      OpEffects.RootClaim ⟨pub 10, stripZeros [pub 8, pub 9], [pub 13], 0⟩ w
  | .disbursePriv256 module proof pub _ _ =>
      (∃ batchSize chunkArity, env.code module = some (.consumerDisburse batchSize chunkArity)) ∧
      w.pool.registeredModules module = true ∧
      env.disbursePrivVerifier proof (inject pub 6 [1]) = true ∧
      w.pool.knownRoots (pub 5) = true
  | .registerModule _ | .removeModule _ | .rotateArbiter _ _ _ | .reinitializeV3 _ =>
      m.sender = w.pool.owner
  | .submitDisburseKemChunk module _ _ _ =>
      ∃ batchSize chunkArity, env.code module = some (.consumerDisburse batchSize chunkArity)

-- Payer, payee and amount of the token transfer a call makes.
def Message.payment (env : Env W T) (m : Message W) : Option (Address × Address × ℕ) :=
  match m.call with
  | .deposit _ pub _ => some (m.sender, env.pool, env.toNat (pub 0))
  | .withdraw _ pub _ _ _ => some (env.pool, env.toNat (pub 26), env.toNat (pub 0))
  | .applyOpWithPull _ payer amount => some (payer, env.pool, amount)
  | .applyOpWithPush _ recipient amount => some (env.pool, recipient, amount)
  | .depositPriv _ _ pub _ => some (m.sender, env.pool, env.toNat (pub 0))
  | .withdrawPriv _ _ pub _ _ _ => some (env.pool, env.toNat (pub 15), env.toNat (pub 0))
  | _ => none

def Paid (env : Env W T) (w w' : World W T) : Option (Address × Address × ℕ) → Prop
  | none => w'.token = w.token
  | some (payer, payee, amount) => env.safeTransfer w.token payer payee amount = some w'.token

def Call.registers : Call W → List Address
  | .registerModule module => [module]
  | .reinitializeV3 modules => modules
  | _ => []

def opAppliedLog (env : Env W T) (w' : World W T) (module : Address) (start : ℕ)
    (fx : OpEffects W) : Log W :=
  ⟨env.pool, .opApplied module start fx.nullifiers.length fx.leaves.length fx.subtreeRoot
    w'.pool.imt.root⟩

-- The logs a call appends, in the order they are emitted; `start` is the index it reports.
def Message.emitted (env : Env W T) (w w' : World W T) (m : Message W) (start : ℕ) : List (Log W) :=
  let tree := treeLogs env w.pool.imt m.call.ops
  let epoch := w.currentEpoch
  let root := w'.pool.imt.root
  match m.call with
  | .deposit _ pub kem => tree ++ [⟨env.pool, .emitDeposited epoch start root pub kem⟩]
  | .disburseWithCiphertexts _ pub cts kem =>
    ⟨env.pool, .emitDisbursed epoch root pub kem⟩ :: tree ++ [⟨env.pool, .disburseCiphertexts start cts⟩]
  | .transfer _ pub kem => tree ++ [⟨env.pool, .emitTransferred epoch root pub kem⟩]
  | .transfer10 _ pub kem => tree ++ [⟨env.pool, .emitTransferred10 epoch root pub kem⟩]
  | .transfer10x2 _ pub kem => tree ++ [⟨env.pool, .emitTransferred10x2 epoch root pub kem⟩]
  | .withdraw _ pub kem eph tag => tree ++ [⟨env.pool, .emitWithdrawn epoch root pub kem⟩,
      ⟨env.pool, .withdrawAnnouncement (pub 26) eph tag⟩]
  | .applyOp fx | .applyOpWithPull fx _ _ | .applyOpWithPush fx _ _ =>
    tree ++ [opAppliedLog env w' m.sender start fx]
  | .depositPriv module _ pub kems =>
    tree ++ [opAppliedLog env w' module start ⟨0, [], [pub 13, pub 14], 0⟩,
      ⟨module, .emitDepositedPriv start root pub kems⟩]
  | .transferPriv module _ pub kems =>
    tree ++ [opAppliedLog env w' module start
        ⟨pub 14, stripZeros [pub 12, pub 13], [pub 17, pub 18], 0⟩,
      ⟨module, .emitTransferredPriv root pub kems⟩]
  | .transfer10x2Priv module _ pub kems =>
    tree ++ [opAppliedLog env w' module start
        ⟨pub 22, stripZeros (slice pub 12 10), [pub 33, pub 34], 0⟩,
      ⟨module, .emitTransferred10x2Priv root pub kems⟩]
  | .withdrawPriv module _ pub kems eph tag =>
    tree ++ [opAppliedLog env w' module start ⟨pub 10, stripZeros [pub 8, pub 9], [pub 13], 0⟩,
      ⟨module, .emitWithdrawnPriv root pub kems⟩, ⟨module, .withdrawAnnouncement (pub 15) eph tag⟩]
  | .disbursePriv256 module _ pub disclosure hashes =>
    tree ++ [opAppliedLog env w' module start ⟨pub 5, [pub 4], [], pub 3⟩,
      ⟨module, .emitDisbursedPriv start root pub hashes⟩,
      ⟨module, .disbursePrivDisclosure start disclosure⟩]
  | .registerModule module => [⟨env.pool, .moduleRegistered module⟩]
  | .removeModule module => [⟨env.pool, .moduleRemoved module⟩]
  | .rotateArbiter key hash block =>
    [⟨env.pool, .arbiterRotated w.pool.arbiterEpochs.length key.1 key.2 block⟩,
      ⟨env.pool, .arbiterKemPkHashSet w.pool.arbiterEpochs.length hash⟩]
  | .reinitializeV3 modules => modules.map fun module => ⟨env.pool, .moduleRegistered module⟩
  | .submitDisburseKemChunk module batchId chunkIndex _ =>
    [⟨module, .disburseKemChunkAccepted batchId chunkIndex⟩]

-- The tree events of a call stay together; every other log it emits is not a tree event.
theorem emitted_split (env : Env W T) (w w' : World W T) (m : Message W) (start : ℕ) : ∃ pre post,
    m.emitted env w w' start = pre ++ treeLogs env w.pool.imt m.call.ops ++ post ∧
      ∀ log ∈ pre ++ post, isTree log.event = false := by
  obtain ⟨sender, call⟩ := m
  cases call
  case disburseWithCiphertexts => exact ⟨[_], [_], rfl, by simp [isTree, Event.emitDisbursed]⟩
  case reinitializeV3 modules => exact ⟨[], _, rfl, by simp [isTree]⟩
  all_goals
    exact ⟨[], _, rfl, by
      simp [isTree, opAppliedLog, Event.emitDeposited, Event.emitTransferred,
        Event.emitTransferred10, Event.emitTransferred10x2, Event.emitWithdrawn,
        Event.emitDepositedPriv, Event.emitTransferredPriv, Event.emitTransferred10x2Priv,
        Event.emitWithdrawnPriv, Event.emitDisbursedPriv]⟩

-- The start index a call reports: the next leaf, or the block its subtree was attached at.
def StartsAt (env : Env W T) (w w' : World W T) (start : ℕ) : List (TreeOp W) → Prop
  | [.attach r none] =>
    treeLogs env w.pool.imt [.attach r none] = [⟨env.pool, .subtreeAppended start r w'.pool.imt.root⟩]
  | _ => start = w.pool.imt.nextLeafIndex

-- Chunk hashes are only ever written under the start index that the writing call reports.
def ChunksKept (w w' : World W T) (m : Message W) (start : ℕ) : Prop :=
  ∀ module b, (w'.disburse module).chunkHashes b = (w.disburse module).chunkHashes b ∨
    b = start ∧ ∃ proof pub disclosure,
      m.call = .disbursePriv256 module proof pub disclosure ((w'.disburse module).chunkHashes b)

theorem chunksKept_of_eq {w w' : World W T} {m : Message W} {start : ℕ}
    (h : w'.disburse = w.disburse) : ChunksKept w w' m start :=
  fun module b => .inl (by rw [h])

structure Accepts (env : Env W T) (w : World W T) (m : Message W) (w' : World W T) : Prop where
  effect : Effect env w w' m.call.nullifiers m.call.ops
  verified : m.Verified env w
  leaf_ne : ∀ v, .append v ∈ m.call.ops → v ≠ 0
  paid : Paid env w w' (m.payment env)
  registers : ∀ a, w'.pool.registeredModules a = true →
    w.pool.registeredModules a = true ∨ a ∈ m.call.registers
  logs : ∃ start, StartsAt env w w' start m.call.ops ∧
    w'.logs = w.logs ++ m.emitted env w w' start ∧ ChunksKept w w' m start

theorem tokenTransfer_ok {w w' : World W T} {payer payee : Address} {amount : ℕ}
    (hw : tokenTransfer env w payer payee amount = .ok w') :
    ∃ token, env.safeTransfer w.token payer payee amount = some token ∧
      w' = { w with token := token } := by
  unfold tokenTransfer at hw
  split at hw
  · cases hw
  · case h_2 token htoken =>
    cases hw
    exact ⟨token, htoken, rfl⟩

theorem of_mapError {ε ε' α : Type} {f : ε → ε'} {x : Except ε α} {a : α}
    (hx : x.mapError f = .ok a) : x = .ok a := by
  cases x with
  | error e => simp [Except.mapError] at hx
  | ok b => simpa [Except.mapError] using hx

theorem of_map_snd {ε α β : Type} {x : Except ε (α × β)} {b : β} (hx : x.map Prod.snd = .ok b) :
    ∃ a, x = .ok (a, b) := by
  cases x with
  | error e => simp [Except.map] at hx
  | ok p => exact ⟨p.1, by simpa [Except.map, Prod.ext_iff] using hx⟩

theorem append_ne (leaves : List W) (hne : ∀ v ∈ leaves, v ≠ 0) (v : W)
    (hv : TreeOp.append v ∈ leaves.map TreeOp.append) : v ≠ 0 := by
  obtain ⟨x, hx, hxv⟩ := List.mem_map.mp hv
  obtain rfl := TreeOp.append.inj hxv
  exact hne _ hx

theorem accepts_deposit {w w' : World W T} {sender : Address} {proof : Proof} {pub : Fin 19 → W}
    {kem : Bytes} (hw : World.deposit env w sender proof pub kem = .ok w') :
    Accepts env w ⟨sender, .deposit proof pub kem⟩ w' := by
  simp only [World.deposit, bind_ok, require_ok] at hw
  obtain ⟨_, _, _, _, key, hkey, _, hproof, _, hne, w2, hw2, hw⟩ := hw
  obtain ⟨token, htoken, rfl⟩ := tokenTransfer_ok hw
  have happ := foldlM_appends (fun _ _ _ h => h) _ hw2
  have hkept := happ.kept
  constructor
  · exact happ.effect.keeping rfl rfl rfl
  · exact ⟨key, hkey, hproof⟩
  · exact append_ne [pub 14, pub 15] (by simp [hne])
  · simpa [Paid, Message.payment, hkept.token, emit] using htoken
  · intro a ha
    exact .inl (by simpa [emit, hkept.registeredModules] using ha)
  · refine ⟨w.pool.imt.nextLeafIndex, rfl, ?_, chunksKept_of_eq hkept.disburse⟩
    simp [emit, happ.logs, Message.emitted, Call.ops, currentEpoch, hkept.arbiterEpochs]

theorem accepts_disburse {w w' : World W T} {sender : Address} {proof : Proof} {pub : Fin 11 → W}
    {cts : List W} {kem : Bytes} (hw : disburseWithCiphertexts env w proof pub cts kem = .ok w') :
    Accepts env w ⟨sender, .disburseWithCiphertexts proof pub cts kem⟩ w' := by
  simp only [disburseWithCiphertexts, disburseCore, bind_ok, require_ok, checkKnownRoot] at hw
  obtain ⟨_, _, _, _, _, _, out, ⟨_, hroot, _, hzero, _, hfresh, key, hkey, _, hproof, ⟨start, w2⟩,
    hw2, hout⟩, hw⟩ := hw
  cases hout
  cases hw
  have hspends : Spends env w (w.markUsed (pub 5)) [pub 5] := markUsed_spends hzero hfresh
  have hat := attachSubtree_attaches hw2
  constructor
  · exact (hspends.effect.trans hat.effect).keeping rfl rfl rfl
  · exact ⟨hroot, key, hkey, hproof⟩
  · simp [Call.ops]
  · simp [Paid, Message.payment, emit, hat.kept.token, markUsed]
  · intro a ha
    exact .inl (by simpa [emit, hat.kept.registeredModules, markUsed] using ha)
  · refine ⟨start, hat.treeLogs, ?_, chunksKept_of_eq hat.kept.disburse⟩
    have htree := hat.treeLogs
    simp only [markUsed] at htree
    simp [emit, hat.logs, Message.emitted, Call.ops, currentEpoch, hat.kept.arbiterEpochs, markUsed,
      htree]

theorem accepts_transfer {w w' : World W T} {sender : Address} {proof : Proof} {pub : Fin 37 → W}
    {kem : Bytes} (hw : World.transfer env w proof pub kem = .ok w') :
    Accepts env w ⟨sender, .transfer proof pub kem⟩ w' := by
  simp only [World.transfer, bind_ok, require_ok, checkKnownRoot] at hw
  obtain ⟨_, _, _, _, _, hroot, key, hkey, _, hproof, w1, hw1, _, hne, w2, hw2, hw⟩ := hw
  cases hw
  obtain ⟨heffect, hkept, hlogs⟩ :=
    (foldlM_appends (fun _ _ _ h => h) _ hw2).spent (foldlM_spendNullifier hw1)
  constructor
  · exact heffect.keeping rfl rfl rfl
  · exact ⟨hroot, key, hkey, hproof⟩
  · exact append_ne [pub 32, pub 33] (by simp [hne])
  · exact hkept.token
  · intro a ha
    exact .inl (by simpa [emit, hkept.registeredModules] using ha)
  · refine ⟨w.pool.imt.nextLeafIndex, rfl, ?_, chunksKept_of_eq hkept.disburse⟩
    simp [emit, hlogs, Message.emitted, Call.ops, currentEpoch, hkept.arbiterEpochs]

theorem accepts_transfer10 {w w' : World W T} {sender : Address} {proof : Proof}
    {pub : Fin 141 → W} {kem : Bytes} (hw : World.transfer10 env w proof pub kem = .ok w') :
    Accepts env w ⟨sender, .transfer10 proof pub kem⟩ w' := by
  simp only [World.transfer10, bind_ok, require_ok, checkKnownRoot] at hw
  obtain ⟨_, _, _, _, _, hroot, key, hkey, _, hproof, w1, hw1, w2, hw2, hw⟩ := hw
  cases hw
  obtain ⟨heffect, hkept, hlogs⟩ := (foldlM_appendOutput hw2).spent (foldlM_spendNullifier hw1)
  constructor
  · exact heffect.keeping rfl rfl rfl
  · exact ⟨hroot, key, hkey, hproof⟩
  · exact append_ne _ (foldlM_appendOutput_ne hw2)
  · exact hkept.token
  · intro a ha
    exact .inl (by simpa [emit, hkept.registeredModules] using ha)
  · refine ⟨w.pool.imt.nextLeafIndex, rfl, ?_, chunksKept_of_eq hkept.disburse⟩
    simp [emit, hlogs, Message.emitted, Call.ops, currentEpoch, hkept.arbiterEpochs]

theorem accepts_transfer10x2 {w w' : World W T} {sender : Address} {proof : Proof}
    {pub : Fin 68 → W} {kem : Bytes} (hw : World.transfer10x2 env w proof pub kem = .ok w') :
    Accepts env w ⟨sender, .transfer10x2 proof pub kem⟩ w' := by
  simp only [World.transfer10x2, bind_ok, require_ok, checkKnownRoot] at hw
  obtain ⟨_, _, _, _, _, hroot, key, hkey, _, hproof, w1, hw1, w2, hw2, hw⟩ := hw
  cases hw
  obtain ⟨heffect, hkept, hlogs⟩ := (foldlM_appendOutput hw2).spent (foldlM_spendNullifier hw1)
  constructor
  · exact heffect.keeping rfl rfl rfl
  · exact ⟨hroot, key, hkey, hproof⟩
  · exact append_ne _ (foldlM_appendOutput_ne hw2)
  · exact hkept.token
  · intro a ha
    exact .inl (by simpa [emit, hkept.registeredModules] using ha)
  · refine ⟨w.pool.imt.nextLeafIndex, rfl, ?_, chunksKept_of_eq hkept.disburse⟩
    simp [emit, hlogs, Message.emitted, Call.ops, currentEpoch, hkept.arbiterEpochs]

theorem accepts_withdraw {w w' : World W T} {sender : Address} {proof : Proof} {pub : Fin 27 → W}
    {kem : Bytes} {eph : ℕ} {tag : UInt8}
    (hw : World.withdraw env w proof pub kem eph tag = .ok w') :
    Accepts env w ⟨sender, .withdraw proof pub kem eph tag⟩ w' := by
  simp only [World.withdraw, bind_ok, require_ok, checkKnownRoot] at hw
  obtain ⟨_, _, _, _, _, hroot, _, hrecipient, key, hkey, _, hproof, w1, hw1, _, hne, w2, hw2, hw⟩ := hw
  obtain ⟨token, htoken, rfl⟩ := tokenTransfer_ok hw
  obtain ⟨heffect, hkept, hlogs⟩ := (appendLeaf_appends hw2).spent (foldlM_spendNullifier hw1)
  constructor
  · exact heffect.keeping rfl rfl rfl
  · exact ⟨hroot, hrecipient, key, hkey, hproof⟩
  · exact append_ne [pub 22] (by simpa using hne)
  · simpa [Paid, Message.payment, hkept.token, emit] using htoken
  · intro a ha
    exact .inl (by simpa [emit, hkept.registeredModules] using ha)
  · refine ⟨w.pool.imt.nextLeafIndex, rfl, ?_, chunksKept_of_eq hkept.disburse⟩
    simp [emit, hlogs, Message.emitted, Call.ops, currentEpoch, hkept.arbiterEpochs]

structure Applies (env : Env W T) (w w' : World W T) (module : Address) (fx : OpEffects W)
    (start : ℕ) : Prop where
  root : fx.RootClaim w
  effect : Effect env w w' fx.nullifiers fx.ops
  kept : Kept w w'
  leaf_ne : ∀ v, .append v ∈ fx.ops → v ≠ 0
  starts : StartsAt env w w' start fx.ops
  logs : w'.logs = w.logs ++ treeLogs env w.pool.imt fx.ops ++ [opAppliedLog env w' module start fx]

theorem checkOpRoot_ok {w : World W T} {fx : OpEffects W} {u : Unit}
    (hroot : w.checkOpRoot fx = .ok u) : fx.RootClaim w := by
  unfold checkOpRoot at hroot
  split at hroot
  · case isTrue hne =>
    exact ⟨fun _ => require_ok.mp hroot, fun hnil => by simp [hnil] at hne⟩
  · case isFalse hnil =>
    exact ⟨fun hne => absurd (List.length_pos_iff.mpr hne) hnil, fun _ => require_ok.mp hroot⟩

theorem applyOpCore_applies {w w' : World W T} {module : Address} {fx : OpEffects W} {start : ℕ}
    (hw : applyOpCore env w module fx = .ok (start, w')) : Applies env w w' module fx start := by
  simp only [applyOpCore, bind_ok, require_ok] at hw
  obtain ⟨_, _, _, hroot, w1, hw1, ⟨start', w2⟩, hw2, hw⟩ := hw
  cases hw
  have hspends : Spends env w w1 fx.nullifiers := foldlM_spendStrict hw1
  unfold appendOp at hw2
  split at hw2
  · case isTrue hsubtree =>
    simp only [bind_ok, require_ok] at hw2
    obtain ⟨_, hleaves, ⟨_, w3⟩, hw3, hw2⟩ := hw2
    cases hw2
    have hat := attachSubtree_attaches hw3
    have htree := hat.treeLogs
    rw [hspends.imt] at htree
    have hops : fx.ops = [.attach fx.subtreeRoot none] := by simp [OpEffects.ops, hsubtree]
    constructor
    · exact checkOpRoot_ok hroot
    · rw [hops]
      exact (by simpa using hspends.effect.trans hat.effect : Effect env w w3 fx.nullifiers _).keeping
        rfl rfl rfl
    · exact (hspends.kept.trans hat.kept).trans ⟨rfl, rfl, rfl, rfl, rfl, rfl, rfl, rfl⟩
    · simp [hops]
    · rw [hops]
      exact htree
    · rw [hops, htree]
      simp [emit, hat.logs, hspends.logs, opAppliedLog]
  · case isFalse hsubtree =>
    simp only [bind_ok] at hw2
    obtain ⟨w3, hw3, hw2⟩ := hw2
    cases hw2
    obtain ⟨heffect, hkept, hlogs⟩ := (foldlM_appendOutput hw3).spent hspends
    have hops : fx.ops = fx.leaves.map .append := by simp [OpEffects.ops, hsubtree]
    constructor
    · exact checkOpRoot_ok hroot
    · rw [hops]
      exact heffect.keeping rfl rfl rfl
    · exact hkept.trans ⟨rfl, rfl, rfl, rfl, rfl, rfl, rfl, rfl⟩
    · rw [hops]
      exact append_ne _ (foldlM_appendOutput_ne hw3)
    · rw [hops, hspends.imt]
      unfold StartsAt
      split
      · case h_1 hmap => cases h : fx.leaves <;> simp [h] at hmap
      · rfl
    · rw [hops]
      simp [emit, hlogs, opAppliedLog]

theorem onlyRegistered_ok {w : World W T} {sender : Address} {u : Unit}
    (h : w.onlyRegisteredModule sender = .ok u) : w.pool.registeredModules sender = true :=
  require_ok.mp h

theorem applyOp_applies {w w' : World W T} {module : Address} {fx : OpEffects W} {start : ℕ}
    (hw : World.applyOp env w module fx = .ok (start, w')) :
    w.pool.registeredModules module = true ∧ Applies env w w' module fx start := by
  simp only [World.applyOp, bind_ok] at hw
  obtain ⟨_, _, _, hreg, hw⟩ := hw
  exact ⟨onlyRegistered_ok hreg, applyOpCore_applies hw⟩

-- The same with a token transfer after the tree and nullifier writes.
structure AppliesPaying (env : Env W T) (w w' : World W T) (module : Address) (fx : OpEffects W)
    (start : ℕ) (payer payee : Address) (amount : ℕ) : Prop where
  applied : ∃ w1 token, Applies env w w1 module fx start ∧
    env.safeTransfer w.token payer payee amount = some token ∧ w' = { w1 with token := token }

theorem applyOpWithPull_applies {w w' : World W T} {module payer : Address} {fx : OpEffects W}
    {amount start : ℕ} (hw : World.applyOpWithPull env w module fx payer amount = .ok (start, w')) :
    w.pool.registeredModules module = true ∧
      AppliesPaying env w w' module fx start payer env.pool amount := by
  simp only [World.applyOpWithPull, bind_ok] at hw
  obtain ⟨_, _, _, hreg, ⟨start, w1⟩, hw1, w2, hw2, hw⟩ := hw
  cases hw
  have happ := applyOpCore_applies hw1
  obtain ⟨token, htoken, rfl⟩ := tokenTransfer_ok hw2
  exact ⟨onlyRegistered_ok hreg, w1, token, happ, happ.kept.token ▸ htoken, rfl⟩

theorem applyOpWithPush_applies {w w' : World W T} {module recipient : Address} {fx : OpEffects W}
    {amount start : ℕ}
    (hw : World.applyOpWithPush env w module fx recipient amount = .ok (start, w')) :
    w.pool.registeredModules module = true ∧
      AppliesPaying env w w' module fx start env.pool recipient amount := by
  simp only [World.applyOpWithPush, bind_ok] at hw
  obtain ⟨_, _, _, hreg, _, _, ⟨start, w1⟩, hw1, w2, hw2, hw⟩ := hw
  cases hw
  have happ := applyOpCore_applies hw1
  obtain ⟨token, htoken, rfl⟩ := tokenTransfer_ok hw2
  exact ⟨onlyRegistered_ok hreg, w1, token, happ, happ.kept.token ▸ htoken, rfl⟩

-- A module call, once its pool call is known to apply `fx`, is accepted when it only emits.
theorem Applies.accepts {w w1 w' : World W T} {m : Message W} {module : Address} {fx : OpEffects W}
    {start : ℕ} (happ : Applies env w w1 module fx start) (hnfs : m.call.nullifiers = fx.nullifiers)
    (hops : m.call.ops = fx.ops) (hverified : m.Verified env w)
    (himt : w'.pool = w1.pool) (hpaid : Paid env w w' (m.payment env))
    (hlogs : w'.logs = w.logs ++ m.emitted env w w' start) (hchunks : ChunksKept w w' m start) :
    Accepts env w m w' where
  effect := by
    rw [hnfs, hops]
    exact happ.effect.keeping (by rw [himt]) (by rw [himt]) (by rw [himt])
  verified := hverified
  leaf_ne := hops ▸ happ.leaf_ne
  paid := hpaid
  registers a ha := .inl (by rwa [himt, happ.kept.registeredModules] at ha)
  logs := by
    refine ⟨start, ?_, hlogs, hchunks⟩
    have hstarts := happ.starts
    rw [hops]
    unfold StartsAt at hstarts ⊢
    rw [himt]
    exact hstarts

theorem accepts_transferPriv {w w' : World W T} {sender module : Address} {proof : Proof}
    {pub : Fin 20 → W} {kems : List Bytes} (hcode : env.code module = some .transferPriv)
    (hw : World.transferPriv env w module proof pub kems = .ok w') :
    Accepts env w ⟨sender, .transferPriv module proof pub kems⟩ w' := by
  simp only [World.transferPriv, bind_ok, require_ok] at hw
  obtain ⟨_, _, _, hproof, ⟨start, w1⟩, hw1, hw⟩ := hw
  cases hw
  obtain ⟨hreg, happ⟩ := applyOp_applies (of_mapError hw1)
  refine happ.accepts rfl ?_ ⟨hcode, hreg, hproof, happ.root⟩ rfl happ.kept.token ?_
    (chunksKept_of_eq happ.kept.disburse)
  · simp [Call.ops, OpEffects.ops]
  · simp [emit, happ.logs, Message.emitted, Call.ops, OpEffects.ops, opAppliedLog]

theorem accepts_transfer10x2Priv {w w' : World W T} {sender module : Address} {proof : Proof}
    {pub : Fin 36 → W} {kems : List Bytes} (hcode : env.code module = some .transfer10x2Priv)
    (hw : World.transfer10x2Priv env w module proof pub kems = .ok w') :
    Accepts env w ⟨sender, .transfer10x2Priv module proof pub kems⟩ w' := by
  simp only [World.transfer10x2Priv, bind_ok, require_ok] at hw
  obtain ⟨_, _, _, hproof, ⟨start, w1⟩, hw1, hw⟩ := hw
  cases hw
  obtain ⟨hreg, happ⟩ := applyOp_applies (of_mapError hw1)
  refine happ.accepts rfl ?_ ⟨hcode, hreg, hproof, happ.root⟩ rfl happ.kept.token ?_
    (chunksKept_of_eq happ.kept.disburse)
  · simp [Call.ops, OpEffects.ops]
  · simp [emit, happ.logs, Message.emitted, Call.ops, OpEffects.ops, opAppliedLog]

theorem accepts_depositPriv {w w' : World W T} {sender module : Address} {proof : Proof}
    {pub : Fin 16 → W} {kems : List Bytes} (hcode : env.code module = some .depositPriv)
    (hw : World.depositPriv env w module sender proof pub kems = .ok w') :
    Accepts env w ⟨sender, .depositPriv module proof pub kems⟩ w' := by
  simp only [World.depositPriv, bind_ok, require_ok] at hw
  obtain ⟨_, _, _, hproof, ⟨start, w2⟩, hw2, hw⟩ := hw
  cases hw
  obtain ⟨hreg, w1, token, happ, htoken, rfl⟩ := applyOpWithPull_applies (of_mapError hw2)
  refine happ.accepts rfl ?_ ⟨hcode, hreg, hproof⟩ rfl htoken ?_
    (chunksKept_of_eq happ.kept.disburse)
  · simp [Call.ops, OpEffects.ops]
  · simp [emit, happ.logs, Message.emitted, Call.ops, OpEffects.ops, opAppliedLog]

theorem accepts_withdrawPriv {w w' : World W T} {sender module : Address} {proof : Proof}
    {pub : Fin 16 → W} {kems : List Bytes} {eph : ℕ} {tag : UInt8}
    (hcode : env.code module = some .withdrawPriv)
    (hw : World.withdrawPriv env w module proof pub kems eph tag = .ok w') :
    Accepts env w ⟨sender, .withdrawPriv module proof pub kems eph tag⟩ w' := by
  simp only [World.withdrawPriv, bind_ok, require_ok] at hw
  obtain ⟨_, _, _, hrecipient, _, hproof, ⟨start, w2⟩, hw2, hw⟩ := hw
  cases hw
  obtain ⟨hreg, w1, token, happ, htoken, rfl⟩ := applyOpWithPush_applies (of_mapError hw2)
  refine happ.accepts rfl ?_ ⟨hcode, hreg, hrecipient, hproof, happ.root⟩ rfl htoken ?_
    (chunksKept_of_eq happ.kept.disburse)
  · simp [Call.ops, OpEffects.ops]
  · simp [emit, happ.logs, Message.emitted, Call.ops, OpEffects.ops, opAppliedLog]

theorem accepts_disbursePriv256 {w w' : World W T} {sender module : Address}
    {batchSize chunkArity : ℕ} {proof : Proof} {pub : Fin 8 → W} {disclosure : List W}
    {hashes : List ℕ} (hcode : env.code module = some (.consumerDisburse batchSize chunkArity))
    (hw : World.disbursePriv256 env w module batchSize chunkArity proof pub disclosure hashes =
      .ok w') : Accepts env w ⟨sender, .disbursePriv256 module proof pub disclosure hashes⟩ w' := by
  simp only [World.disbursePriv256, bind_ok, require_ok] at hw
  obtain ⟨_, _, _, _, _, _, _, hzero, _, hproof, ⟨start, w1⟩, hw1, hw⟩ := hw
  cases hw
  obtain ⟨hreg, happ⟩ := applyOp_applies (of_mapError hw1)
  have hops : Call.ops (.disbursePriv256 module proof pub disclosure hashes) =
      OpEffects.ops ⟨pub 5, [pub 4], [], pub 3⟩ := by simp [Call.ops, OpEffects.ops]
  refine happ.accepts rfl hops ⟨⟨_, _, hcode⟩, hreg, hproof, happ.root.1 (by simp)⟩ rfl
    happ.kept.token ?_ fun a b => ?_
  · simp only [Message.emitted, hops]
    simp [emit, happ.logs, opAppliedLog, setChunkHashes]
  · by_cases ha : a = module
    · by_cases hb : b = start
      · exact .inr ⟨hb, proof, pub, disclosure, by simp [emit, setChunkHashes, ha, hb]⟩
      · exact .inl (by simp [emit, setChunkHashes, ha, hb, happ.kept.disburse])
    · exact .inl (by simp [emit, setChunkHashes, ha, happ.kept.disburse])

theorem accepts_applyOp {w w' : World W T} {sender : Address} {fx : OpEffects W} {start : ℕ}
    (hw : World.applyOp env w sender fx = .ok (start, w')) :
    Accepts env w ⟨sender, .applyOp fx⟩ w' := by
  obtain ⟨hreg, happ⟩ := applyOp_applies hw
  exact happ.accepts rfl rfl ⟨hreg, happ.root⟩ rfl happ.kept.token
    (by simp [happ.logs, Message.emitted, Call.ops]) (chunksKept_of_eq happ.kept.disburse)

theorem accepts_applyOpWithPull {w w' : World W T} {sender payer : Address} {fx : OpEffects W}
    {amount start : ℕ} (hw : World.applyOpWithPull env w sender fx payer amount = .ok (start, w')) :
    Accepts env w ⟨sender, .applyOpWithPull fx payer amount⟩ w' := by
  obtain ⟨hreg, w1, token, happ, htoken, rfl⟩ := applyOpWithPull_applies hw
  exact happ.accepts rfl rfl ⟨hreg, happ.root⟩ rfl htoken
    (by simp [happ.logs, Message.emitted, Call.ops, opAppliedLog])
    (chunksKept_of_eq happ.kept.disburse)

theorem accepts_applyOpWithPush {w w' : World W T} {sender recipient : Address} {fx : OpEffects W}
    {amount start : ℕ}
    (hw : World.applyOpWithPush env w sender fx recipient amount = .ok (start, w')) :
    Accepts env w ⟨sender, .applyOpWithPush fx recipient amount⟩ w' := by
  obtain ⟨hreg, w1, token, happ, htoken, rfl⟩ := applyOpWithPush_applies hw
  exact happ.accepts rfl rfl ⟨hreg, happ.root⟩ rfl htoken
    (by simp [happ.logs, Message.emitted, Call.ops, opAppliedLog])
    (chunksKept_of_eq happ.kept.disburse)

-- A call that only changes settings, or a module's own storage.
theorem accepts_admin {w w' : World W T} {m : Message W} (hnfs : m.call.nullifiers = [])
    (hops : m.call.ops = []) (hverified : m.Verified env w) (hpaid : m.payment env = none)
    (himt : w'.pool.imt = w.pool.imt) (hknown : w'.pool.knownRoots = w.pool.knownRoots)
    (hused : w'.pool.nullifierUsed = w.pool.nullifierUsed) (htoken : w'.token = w.token)
    (hreg : ∀ a, w'.pool.registeredModules a = true →
      w.pool.registeredModules a = true ∨ a ∈ m.call.registers)
    (hlogs : w'.logs = w.logs ++ m.emitted env w w' w.pool.imt.nextLeafIndex)
    (hchunks : ChunksKept w w' m w.pool.imt.nextLeafIndex) : Accepts env w m w' where
  effect := by
    rw [hnfs, hops]
    exact .refl himt hknown hused
  verified := hverified
  leaf_ne := by simp [hops]
  paid := by
    rw [hpaid]
    exact htoken
  registers := hreg
  logs := ⟨_, by rw [hops]; rfl, hlogs, hchunks⟩

theorem addModule_ok {w w' : World W T} {module : Address} (hw : addModule env w module = .ok w') :
    w' = emit env.pool (.moduleRegistered module) (w.setModule module true) := by
  simp only [addModule, bind_ok] at hw
  obtain ⟨_, _, _, _, hw⟩ := hw
  cases hw
  rfl

theorem registered_update {f : Address → Bool} {module a : Address}
    (ha : Function.update f module true a = true) : f a = true ∨ a = module := by
  by_cases h : a = module
  · exact .inr h
  · exact .inl (by rwa [Function.update_of_ne h] at ha)

theorem accepts_registerModule {w w' : World W T} {sender module : Address}
    (hw : World.registerModule env w sender module = .ok w') :
    Accepts env w ⟨sender, .registerModule module⟩ w' := by
  simp only [World.registerModule, bind_ok, onlyOwner, require_ok] at hw
  obtain ⟨_, howner, _, _, hw⟩ := hw
  obtain rfl := addModule_ok hw
  refine accepts_admin rfl rfl howner rfl rfl rfl rfl rfl (fun a ha => ?_) rfl
    (chunksKept_of_eq rfl)
  simpa [Call.registers] using registered_update ha

theorem accepts_removeModule {w w' : World W T} {sender module : Address}
    (hw : World.removeModule env w sender module = .ok w') :
    Accepts env w ⟨sender, .removeModule module⟩ w' := by
  simp only [World.removeModule, bind_ok, onlyOwner, require_ok] at hw
  obtain ⟨_, howner, _, _, _, _, hw⟩ := hw
  cases hw
  refine accepts_admin rfl rfl howner rfl rfl rfl rfl rfl (fun a ha => .inl ?_) rfl
    (chunksKept_of_eq rfl)
  by_cases h : a = module
  · simp [emit, setModule, h] at ha
  · simpa [emit, setModule, h] using ha

theorem accepts_rotateArbiter {w w' : World W T} {sender : Address} {key : W × W} {hash block : ℕ}
    (hw : World.rotateArbiter env w sender key hash block = .ok w') :
    Accepts env w ⟨sender, .rotateArbiter key hash block⟩ w' := by
  simp only [World.rotateArbiter, bind_ok, onlyOwner, require_ok] at hw
  obtain ⟨_, howner, _, _, _, _, _, _, hw⟩ := hw
  cases hw
  exact accepts_admin rfl rfl howner rfl rfl rfl rfl rfl (fun a ha => .inl ha)
    (by simp [rotate, emit, Message.emitted]) (chunksKept_of_eq rfl)

theorem foldlM_addModule (modules : List Address) : ∀ {w w' : World W T},
    modules.foldlM (addModule env) w = .ok w' →
      w'.pool.imt = w.pool.imt ∧ w'.pool.knownRoots = w.pool.knownRoots ∧
      w'.pool.nullifierUsed = w.pool.nullifierUsed ∧ w'.token = w.token ∧
      w'.disburse = w.disburse ∧
      (∀ a, w'.pool.registeredModules a = true →
        w.pool.registeredModules a = true ∨ a ∈ modules) ∧
      w'.logs = w.logs ++ modules.map fun module => ⟨env.pool, .moduleRegistered module⟩ := by
  induction modules with
  | nil =>
    intro w w' hw
    cases hw
    exact ⟨rfl, rfl, rfl, rfl, rfl, fun a ha => .inl ha, by simp⟩
  | cons module modules ih =>
    intro w w' hw
    obtain ⟨w1, hw1, hw⟩ := bind_ok.mp hw
    obtain rfl := addModule_ok hw1
    obtain ⟨himt, hknown, hused, htoken, hchunks, hreg, hlogs⟩ := ih hw
    refine ⟨himt, hknown, hused, htoken, hchunks, fun a ha => ?_, by simp [hlogs, emit, setModule]⟩
    rcases hreg a ha with h | h
    · rcases registered_update h with h | rfl
      · exact .inl h
      · exact .inr (by simp)
    · exact .inr (by simp [h])

theorem accepts_reinitializeV3 {w w' : World W T} {sender : Address} {modules : List Address}
    (hw : World.reinitializeV3 env w sender modules = .ok w') :
    Accepts env w ⟨sender, .reinitializeV3 modules⟩ w' := by
  simp only [World.reinitializeV3, bind_ok, onlyOwner, require_ok] at hw
  obtain ⟨_, howner, _, _, hw⟩ := hw
  obtain ⟨himt, hknown, hused, htoken, hchunks, hreg, hlogs⟩ := foldlM_addModule modules hw
  exact accepts_admin rfl rfl howner rfl himt hknown hused htoken hreg hlogs (chunksKept_of_eq hchunks)

theorem accepts_submitDisburseKemChunk {w w' : World W T} {sender module : Address}
    {batchSize chunkArity batchId chunkIndex : ℕ} {chunkData : Bytes}
    (hcode : env.code module = some (.consumerDisburse batchSize chunkArity))
    (hw : World.submitDisburseKemChunk env w module batchSize chunkArity batchId chunkIndex
      chunkData = .ok w') :
    Accepts env w ⟨sender, .submitDisburseKemChunk module batchId chunkIndex chunkData⟩ w' := by
  simp only [World.submitDisburseKemChunk, bind_ok, require_ok] at hw
  obtain ⟨_, _, _, _, _, _, _, _, _, _, hw⟩ := hw
  cases hw
  refine accepts_admin rfl rfl ⟨_, _, hcode⟩ rfl rfl rfl rfl rfl (fun a ha => .inl ha) rfl
    fun a b => .inl ?_
  by_cases ha : a = module <;> simp [emit, acceptChunk, ha]

theorem step_accepts {w w' : World W T} {m : Message W} (hw : step env w m = .ok w') :
    Accepts env w m w' := by
  obtain ⟨sender, call⟩ := m
  cases call with
  | deposit => exact accepts_deposit (of_mapError hw)
  | disburseWithCiphertexts => exact accepts_disburse (of_mapError hw)
  | transfer => exact accepts_transfer (of_mapError hw)
  | transfer10 => exact accepts_transfer10 (of_mapError hw)
  | transfer10x2 => exact accepts_transfer10x2 (of_mapError hw)
  | withdraw => exact accepts_withdraw (of_mapError hw)
  | applyOp =>
    obtain ⟨start, hw⟩ := of_map_snd (of_mapError hw)
    exact accepts_applyOp hw
  | applyOpWithPull =>
    obtain ⟨start, hw⟩ := of_map_snd (of_mapError hw)
    exact accepts_applyOpWithPull hw
  | applyOpWithPush =>
    obtain ⟨start, hw⟩ := of_map_snd (of_mapError hw)
    exact accepts_applyOpWithPush hw
  | registerModule => exact accepts_registerModule (of_mapError hw)
  | removeModule => exact accepts_removeModule (of_mapError hw)
  | rotateArbiter => exact accepts_rotateArbiter (of_mapError hw)
  | reinitializeV3 => exact accepts_reinitializeV3 (of_mapError hw)
  | depositPriv =>
    simp only [step] at hw
    split at hw
    · case isTrue hcode => exact accepts_depositPriv hcode hw
    · cases hw
  | transferPriv =>
    simp only [step] at hw
    split at hw
    · case isTrue hcode => exact accepts_transferPriv hcode hw
    · cases hw
  | transfer10x2Priv =>
    simp only [step] at hw
    split at hw
    · case isTrue hcode => exact accepts_transfer10x2Priv hcode hw
    · cases hw
  | withdrawPriv =>
    simp only [step] at hw
    split at hw
    · case isTrue hcode => exact accepts_withdrawPriv hcode hw
    · cases hw
  | disbursePriv256 =>
    simp only [step] at hw
    split at hw
    · case h_1 hcode => exact accepts_disbursePriv256 hcode hw
    · cases hw
  | submitDisburseKemChunk =>
    simp only [step] at hw
    split at hw
    · case h_1 hcode => exact accepts_submitDisburseKemChunk hcode hw
    · cases hw

end Bongtu.Evm
