import Bongtu.Evm.Accepted

set_option linter.unusedSectionVars false

namespace Bongtu.Evm

open Outcome World

variable {W T : Type} [DecidableEq W] [Zero W] [One W] {env : Env W T}

-- The modules a call switches on or off, in order.
def Call.toggles : Call W → List (Address × Bool)
  | .registerModule module => [(module, true)]
  | .removeModule module => [(module, false)]
  | .reinitializeV3 modules => modules.map fun module => (module, true)
  | _ => []

-- Each switch turns a module that is the other way.
inductive Toggles : (Address → Bool) → List (Address × Bool) → (Address → Bool) → Prop
  | nil (f : Address → Bool) : Toggles f [] f
  | cons {f g : Address → Bool} {module : Address} {on : Bool} {rest : List (Address × Bool)} :
      f module = !on → Toggles (Function.update f module on) rest g →
      Toggles f ((module, on) :: rest) g

-- What a call leaves in the disburse modules' storage; `start` is the index it reports.
def Stored (env : Env W T) (w w' : World W T) (start : ℕ) : Call W → Prop
  | .disbursePriv256 module _ _ _ hashes =>
    w'.disburse = (w.setChunkHashes module start hashes).disburse
  | .submitDisburseKemChunk module batchId chunkIndex chunkData =>
    w'.disburse = (w.acceptChunk module batchId chunkIndex).disburse ∧
      chunkIndex < ((w.disburse module).chunkHashes batchId).length ∧
      (w.disburse module).kemChunkAccepted batchId chunkIndex = false ∧
      env.keccak256 chunkData = ((w.disburse module).chunkHashes batchId).getD chunkIndex 0
  | _ => w'.disburse = w.disburse

structure Settles (env : Env W T) (w : World W T) (m : Message W) (w' : World W T) : Prop where
  toggles : Toggles w.pool.registeredModules m.call.toggles w'.pool.registeredModules
  logs : ∃ start, StartsAt env w w' start m.call.ops ∧
    w'.logs = w.logs ++ m.emitted env w w' start ∧ Stored env w w' start m.call

-- A call that reaches neither the registry nor the module storage.
structure Still (w w' : World W T) : Prop where
  registered : w'.pool.registeredModules = w.pool.registeredModules
  disburse : w'.disburse = w.disburse

theorem still_of_kept {w w' : World W T} (h : Kept w w') : Still w w' :=
  ⟨h.registeredModules, h.disburse⟩

theorem Still.of_eq {w w1 w' : World W T} (h : Still w w1)
    (hreg : w'.pool.registeredModules = w1.pool.registeredModules)
    (hdisburse : w'.disburse = w1.disburse) : Still w w' :=
  ⟨hreg.trans h.registered, hdisburse.trans h.disburse⟩

theorem Still.settles {w w' : World W T} {m : Message W} (h : Still w w') (hm : Accepts env w m w')
    (htoggles : m.call.toggles = [])
    (hstored : ∀ start, w'.disburse = w.disburse → Stored env w w' start m.call) :
    Settles env w m w' where
  toggles := by
    rw [htoggles, h.registered]
    exact .nil _
  logs := by
    obtain ⟨start, hstart, hlogs, -⟩ := hm.logs
    exact ⟨start, hstart, hlogs, hstored start h.disburse⟩

section Pool

variable {w w' : World W T} {kem : Bytes} {proof : Proof}

theorem still_deposit {sender : Address} {pub : Fin 19 → W}
    (hw : World.deposit env w sender proof pub kem = .ok w') : Still w w' := by
  simp only [World.deposit, bind_ok] at hw
  obtain ⟨_, -, _, -, _, -, _, -, _, -, w2, hw2, hw⟩ := hw
  obtain ⟨token, -, rfl⟩ := tokenTransfer_ok hw
  exact (still_of_kept (foldlM_appends (fun _ _ _ h => h) _ hw2).kept).of_eq rfl rfl

theorem still_disburse {pub : Fin 11 → W} {cts : List W}
    (hw : disburseWithCiphertexts env w proof pub cts kem = .ok w') : Still w w' := by
  simp only [disburseWithCiphertexts, disburseCore, bind_ok] at hw
  obtain ⟨_, -, _, -, _, -, out, ⟨_, -, _, -, _, -, _, -, _, -, ⟨start, w2⟩, hw2, hout⟩, hw⟩ := hw
  cases hout
  cases hw
  have hkept := (attachSubtree_attaches hw2).kept
  exact ⟨hkept.registeredModules, hkept.disburse⟩

theorem still_transfer {pub : Fin 37 → W} (hw : World.transfer env w proof pub kem = .ok w') :
    Still w w' := by
  simp only [World.transfer, bind_ok] at hw
  obtain ⟨_, -, _, -, _, -, _, -, _, -, w1, hw1, _, -, w2, hw2, hw⟩ := hw
  cases hw
  obtain ⟨-, hkept, -⟩ := (foldlM_appends (fun _ _ _ h => h) _ hw2).spent (foldlM_spendNullifier hw1)
  exact (still_of_kept hkept).of_eq rfl rfl

theorem still_transfer10 {pub : Fin 141 → W}
    (hw : World.transfer10 env w proof pub kem = .ok w') : Still w w' := by
  simp only [World.transfer10, bind_ok] at hw
  obtain ⟨_, -, _, -, _, -, _, -, _, -, w1, hw1, w2, hw2, hw⟩ := hw
  cases hw
  obtain ⟨-, hkept, -⟩ := (foldlM_appendOutput hw2).spent (foldlM_spendNullifier hw1)
  exact (still_of_kept hkept).of_eq rfl rfl

theorem still_transfer10x2 {pub : Fin 68 → W}
    (hw : World.transfer10x2 env w proof pub kem = .ok w') : Still w w' := by
  simp only [World.transfer10x2, bind_ok] at hw
  obtain ⟨_, -, _, -, _, -, _, -, _, -, w1, hw1, w2, hw2, hw⟩ := hw
  cases hw
  obtain ⟨-, hkept, -⟩ := (foldlM_appendOutput hw2).spent (foldlM_spendNullifier hw1)
  exact (still_of_kept hkept).of_eq rfl rfl

theorem still_withdraw {pub : Fin 27 → W} {eph : ℕ} {tag : UInt8}
    (hw : World.withdraw env w proof pub kem eph tag = .ok w') : Still w w' := by
  simp only [World.withdraw, bind_ok] at hw
  obtain ⟨_, -, _, -, _, -, _, -, _, -, _, -, w1, hw1, _, -, w2, hw2, hw⟩ := hw
  obtain ⟨token, -, rfl⟩ := tokenTransfer_ok hw
  obtain ⟨-, hkept, -⟩ := (appendLeaf_appends hw2).spent (foldlM_spendNullifier hw1)
  exact (still_of_kept hkept).of_eq rfl rfl

end Pool

section Module

variable {w w' : World W T} {module : Address} {fx : OpEffects W} {start : ℕ}

theorem still_applyOp (hw : World.applyOp env w module fx = .ok (start, w')) : Still w w' :=
  still_of_kept (applyOp_applies hw).2.kept

theorem still_applyOpWithPull {payer : Address} {amount : ℕ}
    (hw : World.applyOpWithPull env w module fx payer amount = .ok (start, w')) : Still w w' := by
  obtain ⟨-, w1, token, happ, -, rfl⟩ := applyOpWithPull_applies hw
  exact (still_of_kept happ.kept).of_eq rfl rfl

theorem still_applyOpWithPush {recipient : Address} {amount : ℕ}
    (hw : World.applyOpWithPush env w module fx recipient amount = .ok (start, w')) : Still w w' := by
  obtain ⟨-, w1, token, happ, -, rfl⟩ := applyOpWithPush_applies hw
  exact (still_of_kept happ.kept).of_eq rfl rfl

theorem settles_disbursePriv256 {sender : Address} {batchSize chunkArity : ℕ} {proof : Proof}
    {pub : Fin 8 → W} {disclosure : List W} {hashes : List ℕ}
    (hw : World.disbursePriv256 env w module batchSize chunkArity proof pub disclosure hashes =
      .ok w') : Settles env w ⟨sender, .disbursePriv256 module proof pub disclosure hashes⟩ w' := by
  simp only [World.disbursePriv256, bind_ok] at hw
  obtain ⟨_, -, _, -, _, -, _, -, _, -, ⟨start, w1⟩, hw1, hw⟩ := hw
  cases hw
  obtain ⟨-, happ⟩ := applyOp_applies (of_mapError hw1)
  have hops : Call.ops (.disbursePriv256 module proof pub disclosure hashes) =
      OpEffects.ops ⟨pub 5, [pub 4], [], pub 3⟩ := by simp [Call.ops, OpEffects.ops]
  refine ⟨?_, start, ?_, ?_, ?_⟩
  · simp only [emit, setChunkHashes, happ.kept.registeredModules]
    exact .nil _
  · dsimp only
    rw [hops]
    exact happ.starts
  · simp only [Message.emitted, hops]
    simp [emit, happ.logs, opAppliedLog, setChunkHashes]
  · simp only [Stored, emit, setChunkHashes, happ.kept.disburse]

theorem settles_submitDisburseKemChunk {sender : Address} {batchSize chunkArity batchId chunkIndex : ℕ}
    {chunkData : Bytes}
    (hw : World.submitDisburseKemChunk env w module batchSize chunkArity batchId chunkIndex
      chunkData = .ok w') :
    Settles env w ⟨sender, .submitDisburseKemChunk module batchId chunkIndex chunkData⟩ w' := by
  simp only [World.submitDisburseKemChunk, bind_ok, require_ok] at hw
  obtain ⟨_, -, _, hindex, _, haccepted, _, -, _, hhash, hw⟩ := hw
  cases hw
  exact ⟨.nil _, w.pool.imt.nextLeafIndex, rfl, rfl, rfl, hindex, haccepted, hhash⟩

end Module

section Registry

variable {w w' : World W T} {sender module : Address}

theorem addModule_toggles (hw : addModule env w module = .ok w') :
    w.pool.registeredModules module = false ∧ w'.disburse = w.disburse ∧
      w'.pool.registeredModules = Function.update w.pool.registeredModules module true := by
  simp only [addModule, bind_ok, require_ok] at hw
  obtain ⟨_, -, _, hnew, hw⟩ := hw
  cases hw
  exact ⟨hnew, rfl, rfl⟩

theorem foldlM_toggles (modules : List Address) : ∀ {w w' : World W T},
    modules.foldlM (addModule env) w = .ok w' → w'.disburse = w.disburse ∧
      Toggles w.pool.registeredModules (modules.map fun module => (module, true))
        w'.pool.registeredModules := by
  induction modules with
  | nil =>
    intro w w' hw
    cases hw
    exact ⟨rfl, .nil _⟩
  | cons module modules ih =>
    intro w w' hw
    obtain ⟨w1, hw1, hw⟩ := bind_ok.mp hw
    obtain ⟨hnew, hdisburse, hreg⟩ := addModule_toggles hw1
    obtain ⟨hrest, htoggles⟩ := ih hw
    exact ⟨hrest.trans hdisburse, .cons (by simpa using hnew) (hreg ▸ htoggles)⟩

theorem settles_registerModule (hw : World.registerModule env w sender module = .ok w') :
    Settles env w ⟨sender, .registerModule module⟩ w' := by
  obtain ⟨start, hstart, hlogs, -⟩ := (accepts_registerModule hw).logs
  simp only [World.registerModule, bind_ok] at hw
  obtain ⟨_, -, _, -, hw⟩ := hw
  obtain ⟨hnew, hdisburse, hreg⟩ := addModule_toggles hw
  refine ⟨.cons (by simpa using hnew) ?_, start, hstart, hlogs, hdisburse⟩
  rw [hreg]
  exact .nil _

theorem settles_removeModule (hw : World.removeModule env w sender module = .ok w') :
    Settles env w ⟨sender, .removeModule module⟩ w' := by
  obtain ⟨start, hstart, hlogs, -⟩ := (accepts_removeModule hw).logs
  simp only [World.removeModule, bind_ok, require_ok] at hw
  obtain ⟨_, -, _, -, _, hold, hw⟩ := hw
  cases hw
  exact ⟨.cons (by simpa using hold) (.nil _), start, hstart, hlogs, rfl⟩

theorem settles_reinitializeV3 {modules : List Address}
    (hw : World.reinitializeV3 env w sender modules = .ok w') :
    Settles env w ⟨sender, .reinitializeV3 modules⟩ w' := by
  obtain ⟨start, hstart, hlogs, -⟩ := (accepts_reinitializeV3 hw).logs
  simp only [World.reinitializeV3, bind_ok] at hw
  obtain ⟨_, -, _, -, hw⟩ := hw
  obtain ⟨hdisburse, htoggles⟩ := foldlM_toggles modules hw
  exact ⟨htoggles, start, hstart, hlogs, hdisburse⟩

theorem still_rotateArbiter {key : W × W} {hash block : ℕ}
    (hw : World.rotateArbiter env w sender key hash block = .ok w') : Still w w' := by
  simp only [World.rotateArbiter, bind_ok] at hw
  obtain ⟨_, -, _, -, _, -, _, -, hw⟩ := hw
  cases hw
  exact ⟨rfl, rfl⟩

end Registry

theorem step_settles {w w' : World W T} {m : Message W} (hw : step env w m = .ok w') :
    Settles env w m w' := by
  have hm := step_accepts hw
  obtain ⟨sender, call⟩ := m
  cases call with
  | deposit => exact (still_deposit (of_mapError hw)).settles hm rfl fun _ h => h
  | disburseWithCiphertexts => exact (still_disburse (of_mapError hw)).settles hm rfl fun _ h => h
  | transfer => exact (still_transfer (of_mapError hw)).settles hm rfl fun _ h => h
  | transfer10 => exact (still_transfer10 (of_mapError hw)).settles hm rfl fun _ h => h
  | transfer10x2 => exact (still_transfer10x2 (of_mapError hw)).settles hm rfl fun _ h => h
  | withdraw => exact (still_withdraw (of_mapError hw)).settles hm rfl fun _ h => h
  | applyOp =>
    obtain ⟨start, hw⟩ := of_map_snd (of_mapError hw)
    exact (still_applyOp hw).settles hm rfl fun _ h => h
  | applyOpWithPull =>
    obtain ⟨start, hw⟩ := of_map_snd (of_mapError hw)
    exact (still_applyOpWithPull hw).settles hm rfl fun _ h => h
  | applyOpWithPush =>
    obtain ⟨start, hw⟩ := of_map_snd (of_mapError hw)
    exact (still_applyOpWithPush hw).settles hm rfl fun _ h => h
  | registerModule => exact settles_registerModule (of_mapError hw)
  | removeModule => exact settles_removeModule (of_mapError hw)
  | rotateArbiter => exact (still_rotateArbiter (of_mapError hw)).settles hm rfl fun _ h => h
  | reinitializeV3 => exact settles_reinitializeV3 (of_mapError hw)
  | depositPriv =>
    simp only [step] at hw
    split at hw
    · simp only [World.depositPriv, bind_ok] at hw
      obtain ⟨_, -, _, -, ⟨start, w2⟩, hw2, hw⟩ := hw
      cases hw
      exact Still.settles ((still_applyOpWithPull (of_mapError hw2)).of_eq rfl rfl) hm rfl fun _ h => h
    · cases hw
  | transferPriv =>
    simp only [step] at hw
    split at hw
    · simp only [World.transferPriv, bind_ok] at hw
      obtain ⟨_, -, _, -, ⟨start, w2⟩, hw2, hw⟩ := hw
      cases hw
      exact Still.settles ((still_applyOp (of_mapError hw2)).of_eq rfl rfl) hm rfl fun _ h => h
    · cases hw
  | transfer10x2Priv =>
    simp only [step] at hw
    split at hw
    · simp only [World.transfer10x2Priv, bind_ok] at hw
      obtain ⟨_, -, _, -, ⟨start, w2⟩, hw2, hw⟩ := hw
      cases hw
      exact Still.settles ((still_applyOp (of_mapError hw2)).of_eq rfl rfl) hm rfl fun _ h => h
    · cases hw
  | withdrawPriv =>
    simp only [step] at hw
    split at hw
    · simp only [World.withdrawPriv, bind_ok] at hw
      obtain ⟨_, -, _, -, _, -, ⟨start, w2⟩, hw2, hw⟩ := hw
      cases hw
      exact Still.settles ((still_applyOpWithPush (of_mapError hw2)).of_eq rfl rfl) hm rfl fun _ h => h
    · cases hw
  | disbursePriv256 =>
    simp only [step] at hw
    split at hw
    · exact settles_disbursePriv256 hw
    · cases hw
  | submitDisburseKemChunk =>
    simp only [step] at hw
    split at hw
    · exact settles_submitDisburseKemChunk hw
    · cases hw

end Bongtu.Evm
