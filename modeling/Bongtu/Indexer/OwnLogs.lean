import Bongtu.Indexer.Books

namespace Bongtu.Indexer

open Bongtu.Core Outcome

open Evm (Address Call Env Log Message World)

variable {T : Type} {env : Env ℕ T} {cfg : IngestConfig} {k : ℕ} {w w' : World ℕ T}

-- The batch a log is about.
def ParsedEvent.textStart : ParsedEvent → Option ℕ
  | .subtreeAppended start .. | .disburseCiphertexts start _ | .disbursePrivDisclosure start _ => some start
  | _ => none

section Texts

theorem tree_texts {ops : List (TreeOp ℕ)} (hp : w.pool.imt.Params env.poseidon Evm.treeHeight k)
    (htree : World.runImt env w.pool.imt ops = .ok w'.pool.imt) :
    ∀ log ∈ World.treeLogs env w.pool.imt ops, ∀ b, (ParsedEvent.ofEvent log.event).textStart = some b →
      w.pool.imt.nextLeafIndex ≤ b ∧ b < w'.pool.imt.nextLeafIndex := by
  intro log hlog b hb
  obtain ⟨e, he, rfl⟩ := List.mem_map.mp hlog
  have hstart : Evm.batchStart e = some b := by
    have htree := Evm.World.isTree_events ops e he
    cases e <;> first | exact hb | cases htree
  obtain ⟨-, -, hmem⟩ := Evm.Imt.events_starts ops hp htree
  obtain ⟨hlow, hhigh, -⟩ := hmem b (List.mem_filterMap.mpr ⟨e, he, hstart⟩)
  exact ⟨hlow, hhigh⟩

-- What a call says about batches is about the one it attaches.
theorem emitted_texts {m : Message ℕ} {start : ℕ} (hserves : cfg.Serves env)
    (hm : Evm.Accepts env w m w') (hp : w.pool.imt.Params env.poseidon Evm.treeHeight k)
    (hstart : Evm.StartsAt env w w' start m.call.ops) :
    ∀ log ∈ m.emitted env w w' start, ∀ b, (ParsedEvent.ofEvent log.event).textStart = some b →
      w.pool.imt.nextLeafIndex ≤ b ∧ b < w'.pool.imt.nextLeafIndex := by
  have htree := hm.effect.tree
  have htrees := tree_texts hp htree
  obtain ⟨sender, call⟩ := m
  intro log hlog b hb
  cases call with
  | disburseWithCiphertexts proof pub cts kem =>
    have hbounds := start_bounds (r := pub 3) hp htree hstart
    simp only [Message.emitted, List.cons_append, List.mem_cons, List.mem_append, List.not_mem_nil, or_false] at hlog
    rcases hlog with rfl | hlog | rfl
    · cases hb
    · exact htrees log hlog b hb
    · cases hb
      exact hbounds
  | disbursePriv256 module proof pub disclosure hashes =>
    have hroot : pub 3 ≠ 0 := hserves.batch_ne proof (inject pub 6 [1]) hm.verified.2.2.1
    have hops : Call.ops (.disbursePriv256 module proof pub disclosure hashes) = [.attach (pub 3) none] :=
      if_pos hroot
    have hbounds := start_bounds (r := pub 3) hp (hops ▸ htree) (hops ▸ hstart)
    simp only [Message.emitted, List.mem_append, List.mem_cons, List.not_mem_nil, or_false] at hlog
    rcases hlog with hlog | rfl | rfl | rfl
    · exact htrees log hlog b hb
    · cases hb
    · cases hb
    · cases hb
      exact hbounds
  | registerModule | removeModule | submitDisburseKemChunk =>
    rw [List.mem_singleton.mp hlog] at hb
    cases hb
  | rotateArbiter =>
    rcases List.mem_pair.mp hlog with rfl | rfl <;> cases hb
  | reinitializeV3 =>
    obtain ⟨module, -, rfl⟩ := List.mem_map.mp hlog
    cases hb
  | deposit | transfer | transfer10 | transfer10x2 | applyOp | applyOpWithPull | applyOpWithPush =>
    simp only [Message.emitted, List.mem_append, List.mem_singleton] at hlog
    rcases hlog with hlog | rfl
    · exact htrees log hlog b hb
    · cases hb
  | withdraw | depositPriv | transferPriv | transfer10x2Priv =>
    simp only [Message.emitted, List.mem_append, List.mem_cons, List.not_mem_nil, or_false] at hlog
    rcases hlog with hlog | rfl | rfl
    · exact htrees log hlog b hb
    · cases hb
    · cases hb
  | withdrawPriv =>
    simp only [Message.emitted, List.mem_append, List.mem_cons, List.not_mem_nil, or_false] at hlog
    rcases hlog with hlog | rfl | rfl | rfl
    · exact htrees log hlog b hb
    · cases hb
    · cases hb
    · cases hb

theorem emits_texts {op : Mined} (hserves : cfg.Serves env) (hstep : World.step env w op.message = .ok w')
    (hemits : op.Emits w w') (hp : w.pool.imt.Params env.poseidon Evm.treeHeight k) :
    ∀ l ∈ op.logs, ∀ b, l.event.textStart = some b →
      w.pool.imt.nextLeafIndex ≤ b ∧ b < w'.pool.imt.nextLeafIndex := by
  have hm := Evm.step_accepts hstep
  obtain ⟨start, hstart, hlogs, -⟩ := hm.logs
  obtain ⟨⟨emitted, hsame, hdecoded⟩, -⟩ := hemits
  obtain rfl := List.append_cancel_left (hsame.symm.trans hlogs)
  intro l hl b hb
  obtain ⟨log, hlog, hdec⟩ := forall₂_right hdecoded hl
  rw [hdec.event] at hb
  exact emitted_texts hserves hm hp hstart log hlog b hb

-- Each op of a run attaches its batches after those of the ops before it.
theorem mines_texts (hserves : cfg.Serves env) {ops : List Mined} (h : Mines env w ops w')
    (hp : w.pool.imt.Params env.poseidon Evm.treeHeight k) :
    w'.pool.imt.Params env.poseidon Evm.treeHeight k ∧
      w.pool.imt.nextLeafIndex ≤ w'.pool.imt.nextLeafIndex ∧
      ∀ l ∈ logsOf ops, ∀ b, l.event.textStart = some b →
        w.pool.imt.nextLeafIndex ≤ b ∧ b < w'.pool.imt.nextLeafIndex := by
  induction h with
  | nil => exact ⟨hp, le_rfl, by simp⟩
  | @cons w w₁ w' op ops hstep hemits _ ih =>
    have htree := (Evm.step_accepts hstep).effect.tree
    obtain ⟨hp', hle', hbounds'⟩ := ih (Evm.Imt.runFrom_next _ hp htree).2
    have hle := (Evm.Imt.events_starts _ hp htree).1
    refine ⟨hp', hle.trans hle', fun l hl b hb => ?_⟩
    rcases List.mem_append.mp hl with hl | hl
    · obtain ⟨hlow, hhigh⟩ := emits_texts hserves hstep hemits hp l hl b hb
      exact ⟨hlow, hhigh.trans_le hle'⟩
    · obtain ⟨hlow, hhigh⟩ := hbounds' l hl b hb
      exact ⟨hle.trans hlow, hhigh⟩

-- The logs of an op within a run, and the rest of the run's, which is about other batches.
theorem mines_split (hserves : cfg.Serves env) {ops : List Mined} (h : Mines env w ops w')
    (hp : w.pool.imt.Params env.poseidon Evm.treeHeight k) : ∀ op ∈ ops, ∃ pre post,
      logsOf ops = pre ++ op.logs ++ post ∧ ∀ l ∈ op.logs, ∀ b, l.event.textStart = some b →
        ∀ l' ∈ pre ++ post, l'.event.textStart ≠ some b := by
  induction h with
  | nil => simp
  | @cons w w₁ w' op ops hstep hemits hrest ih =>
    have hp₁ := (Evm.Imt.runFrom_next _ hp (Evm.step_accepts hstep).effect.tree).2
    obtain ⟨-, -, hbounds'⟩ := mines_texts hserves hrest hp₁
    have hbounds := emits_texts hserves hstep hemits hp
    intro op' hop'
    rcases List.mem_cons.mp hop' with rfl | hop'
    · refine ⟨[], logsOf ops, rfl, fun l hl b hb l' hl' hb' => ?_⟩
      have hhigh := (hbounds l hl b hb).2
      have hlow := (hbounds' l' hl' b hb').1
      omega
    · obtain ⟨pre, post, heq, hother⟩ := ih hp₁ op' hop'
      refine ⟨op.logs ++ pre, post, by rw [logsOf_cons, heq]; simp, fun l hl b hb l' hl' hb' => ?_⟩
      rw [List.append_assoc, List.mem_append] at hl'
      rcases hl' with hl' | hl'
      · have hhigh := (hbounds l' hl' b hb').2
        have hmem : l ∈ logsOf ops := by
          rw [heq]
          simp [hl]
        have hlow := (hbounds' l hmem b hb).1
        omega
      · exact hother l hl b hb l' hl' hb'

-- Only the logs about a batch say something of its texts.
theorem texts_filter (logs : List ParsedLog) (txHash : TxHash) (b : ℕ) :
    ciphertextsOf (logs.filter fun l => l.event.textStart = some b) txHash b = ciphertextsOf logs txHash b ∧
      privDisclosureOf (logs.filter fun l => l.event.textStart = some b) txHash b =
        privDisclosureOf logs txHash b := by
  rw [ciphertextsOf, ciphertextsOf, privDisclosureOf, privDisclosureOf, List.filterMap_filter,
    List.filterMap_filter]
  constructor <;> congr 1 <;> refine List.filterMap_congr fun l _ => ?_ <;> generalize l.event = e <;>
    cases e <;> simp [ParsedEvent.textStart] <;> tauto

theorem texts_congr {logs logs' : List ParsedLog} {b : ℕ} (txHash : TxHash)
    (h : (logs.filter fun l => l.event.textStart = some b) =
      logs'.filter fun l => l.event.textStart = some b) :
    ciphertextsOf logs txHash b = ciphertextsOf logs' txHash b ∧
      privDisclosureOf logs txHash b = privDisclosureOf logs' txHash b := by
  rw [← (texts_filter logs txHash b).1, ← (texts_filter logs txHash b).2, h]
  exact texts_filter logs' txHash b

theorem texts_own {pre post : List ParsedLog} {b : ℕ} (h : ∀ l ∈ pre ++ post, l.event.textStart ≠ some b)
    (own : List ParsedLog) : ((pre ++ own ++ post).filter fun l => l.event.textStart = some b) =
      own.filter fun l => l.event.textStart = some b := by
  have hnone : ∀ ls : List ParsedLog, (∀ l ∈ ls, l ∈ pre ++ post) →
      (ls.filter fun l => l.event.textStart = some b) = [] := fun ls hls =>
    List.filter_eq_nil_iff.mpr fun l hl => by simpa using h l (hls l hl)
  rw [List.filter_append, List.filter_append, hnone pre fun l hl => List.mem_append_left _ hl,
    hnone post fun l hl => List.mem_append_right _ hl, List.nil_append, List.append_nil]

theorem mines_undisturbed (hserves : cfg.Serves env) {ops : List Mined} (h : Mines env w ops w')
    (hp : w.pool.imt.Params env.poseidon Evm.treeHeight k) {logs : List ParsedLog}
    (hlogs : ∀ b, (logs.filter fun l => l.event.textStart = some b) =
      (logsOf ops).filter fun l => l.event.textStart = some b) : ∀ op ∈ ops, Undisturbed logs op := by
  intro op hop l hl start subtreeRoot root hevent
  obtain ⟨pre, post, heq, hother⟩ := mines_split hserves h hp op hop
  have hsame := texts_own (hother l hl start (by rw [hevent]; rfl)) op.logs
  exact texts_congr op.txHash ((hlogs start).trans (heq ▸ hsame))

end Texts

section Posting

def entriesOf (cfg : IngestConfig) (ops : List Mined) : List FeedEntry :=
  ops.filterMap fun op => (posting cfg op.logs).map (·.entry)

-- Pass 2 over the logs of a run's calls.
theorem mines_post (hserves : cfg.Serves env) (hB : cfg.arbiter.B = 2 ^ k) {logs : List ParsedLog}
    {ops : List Mined} (h : Mines env w ops w') (hp : w.pool.imt.Params env.poseidon Evm.treeHeight k)
    (hnative : ∀ op ∈ ops, IsNative env op.message.call) (hown : ∀ op ∈ ops, Undisturbed logs op) :
    ∀ {keys : List OpKey} {s : IndexerState}, Books env keys w s → ((logsOf ops).map ParsedLog.key).Nodup →
      (∀ l ∈ logsOf ops, l.key ∉ keys) →
      ∃ s', Passes cfg logs (logsOf ops) s s' ∧ Books env (keys ++ (logsOf ops).map ParsedLog.key) w' s' ∧
        Posted cfg k (logsOf ops) (entriesOf cfg ops) s s' := by
  induction h with
  | nil w =>
    intro keys s hb _ _
    exact ⟨s, .nil s, by simpa using hb, ⟨by simp [entriesOf], .refl, by simp [treeEventsOf]⟩⟩
  | @cons w w₁ w' op ops hstep hemits _ ih =>
    intro keys s hb hnodup hfresh
    have hm := Evm.step_accepts hstep
    have hpos : 0 < cfg.arbiter.B := hB ▸ Nat.two_pow_pos k
    rw [logsOf_cons, List.map_append, List.nodup_append] at hnodup
    obtain ⟨hnodup, hnodup', hapart⟩ := hnodup
    have hknown : ∀ a, w.pool.registeredModules a = true → s.modules.isKnown a = true := fun a ha => by
      rw [ModuleRegistry.isKnown, (hb.modules a).mpr ha]
      rfl
    have hfiled : Filed env cfg logs op s w w₁ := step_filed hstep hemits (hnative op List.mem_cons_self) hserves
      hpos (hown op List.mem_cons_self) hb.ledger hknown
    obtain ⟨s₁, hpasses₁, hb₁, hposted₁⟩ := step_posts hb hfiled hm.effect hp hB hserves.keccak hnodup
      fun l hl => hfresh l (List.mem_append_left _ hl)
    have hfresh₁ : ∀ l ∈ logsOf ops, l.key ∉ keys ++ op.logs.map ParsedLog.key := by
      intro l hl hmem
      rcases List.mem_append.mp hmem with hmem | hmem
      · exact hfresh l (List.mem_append_right _ hl) hmem
      · exact hapart _ hmem _ (List.mem_map_of_mem hl) rfl
    obtain ⟨s', hpasses, hb', hposted⟩ := ih (Evm.Imt.runFrom_next _ hp hm.effect.tree).2
      (fun op' h => hnative op' (List.mem_cons_of_mem op h)) (fun op' h => hown op' (List.mem_cons_of_mem op h))
      hb₁ hnodup' hfresh₁
    refine ⟨s', hpasses₁.append hpasses, ?_, ?_⟩
    · rw [logsOf_cons, List.map_append, ← List.append_assoc]
      exact hb'
    · have hentries : entriesOf cfg (op :: ops) =
          ((posting cfg op.logs).map (·.entry)).toList ++ entriesOf cfg ops := by
        rw [entriesOf, List.filterMap_cons]
        cases posting cfg op.logs <;> rfl
      rw [hentries]
      exact hposted₁.trans hposted

end Posting

def ParsedEvent.registers : ParsedEvent → Option Address
  | moduleRegistered module => some module
  | _ => none

theorem registers_module {e : ParsedEvent} (h : e.isModuleEvent = true) : e.registers = none := by
  cases e with
  | moduleRegistered module => cases h
  | _ => rfl

section Gate

-- A module that may still emit: it is registered, or a batch of its waits for a chunk.
def Speaks (w : World ℕ T) (a : Address) : Prop :=
  w.pool.registeredModules a = true ∨ ∃ batchId chunkIndex,
    chunkIndex < ((w.disburse a).chunkHashes batchId).length ∧
      (w.disburse a).kemChunkAccepted batchId chunkIndex = false

-- A log that the gate lets through while `watched` are the modules it watches, or one it has no use for.
def Fits (env : Env ℕ T) (watched : Address → Bool) (l : ParsedLog) : Prop :=
  l.address = some env.pool ∧ (l.event.isPoolEvent = true ∨ l.event = .other) ∧
      (∀ a ∈ l.event.registers, (env.code a).isSome) ∨
    ∃ a, l.address = some a ∧ (env.code a).isSome ∧ watched a = true ∧ l.event.isModuleEvent = true

theorem emitted_fits {m : Message ℕ} {start : ℕ} (hnative : IsNative env m.call) (hm : Evm.Accepts env w m w')
    (hstored : Evm.Stored env w w' start m.call) :
    ∀ log ∈ m.emitted env w w' start,
      log.address = env.pool ∧ ((ParsedEvent.ofEvent log.event).isPoolEvent = true ∨
        ParsedEvent.ofEvent log.event = .other) ∧
        (∀ a ∈ (ParsedEvent.ofEvent log.event).registers, (env.code a).isSome) ∨
      (env.code log.address).isSome ∧ Speaks w log.address ∧
        (ParsedEvent.ofEvent log.event).isModuleEvent = true := by
  have hverified := hm.verified
  have hnone : ∀ a ∈ (none : Option Address), (env.code a).isSome = true := by simp
  have htrees : ∀ ops, ∀ log ∈ World.treeLogs env w.pool.imt ops, log.address = env.pool ∧
      ((ParsedEvent.ofEvent log.event).isPoolEvent = true ∨ ParsedEvent.ofEvent log.event = .other) ∧
      ∀ a ∈ (ParsedEvent.ofEvent log.event).registers, (env.code a).isSome := by
    intro ops log hlog
    obtain ⟨e, he, rfl⟩ := List.mem_map.mp hlog
    have htree := Evm.World.isTree_events ops e he
    refine ⟨rfl, ?_⟩
    cases e <;> first | exact ⟨.inl rfl, hnone⟩ | cases htree
  obtain ⟨sender, call⟩ := m
  intro log hlog
  cases call with
  | applyOp | applyOpWithPull | applyOpWithPush => exact hnative.elim
  | deposit | transfer | transfer10 | transfer10x2 =>
    simp only [Message.emitted, List.mem_append, List.mem_singleton] at hlog
    rcases hlog with hlog | rfl
    · exact .inl (htrees _ log hlog)
    · exact .inl ⟨rfl, .inl rfl, hnone⟩
  | disburseWithCiphertexts | withdraw =>
    simp only [Message.emitted, List.cons_append, List.mem_cons, List.mem_append, List.not_mem_nil, or_false] at hlog
    rcases hlog with h | h | h
    all_goals first
      | exact .inl (htrees _ log h)
      | (rw [h]; exact .inl ⟨rfl, .inl rfl, hnone⟩)
  | depositPriv module | transferPriv module | transfer10x2Priv module =>
    simp only [Message.emitted, List.mem_append, List.mem_cons, List.not_mem_nil, or_false] at hlog
    rcases hlog with hlog | rfl | rfl
    · exact .inl (htrees _ log hlog)
    · exact .inl ⟨rfl, .inl rfl, hnone⟩
    · exact .inr ⟨by simp [hverified.1], .inl hverified.2.1, rfl⟩
  | withdrawPriv module | disbursePriv256 module =>
    simp only [Message.emitted, List.mem_append, List.mem_cons, List.not_mem_nil, or_false] at hlog
    have hcode : (env.code module).isSome := by
      first
        | simp [hverified.1]
        | (obtain ⟨⟨_, _, hcode⟩, -⟩ := hverified; simp [hcode])
    rcases hlog with hlog | rfl | rfl | rfl
    · exact .inl (htrees _ log hlog)
    · exact .inl ⟨rfl, .inl rfl, hnone⟩
    · exact .inr ⟨hcode, .inl hverified.2.1, rfl⟩
    · exact .inr ⟨hcode, .inl hverified.2.1, rfl⟩
  | registerModule =>
    rw [List.mem_singleton.mp hlog]
    exact .inl ⟨rfl, .inl rfl, fun a ha => Option.mem_some_iff.mp ha ▸ hnative _ (List.mem_singleton_self _)⟩
  | removeModule =>
    rw [List.mem_singleton.mp hlog]
    exact .inl ⟨rfl, .inl rfl, hnone⟩
  | rotateArbiter =>
    rcases List.mem_pair.mp hlog with rfl | rfl <;> exact .inl ⟨rfl, .inr rfl, hnone⟩
  | reinitializeV3 =>
    obtain ⟨module, hmodule, rfl⟩ := List.mem_map.mp hlog
    exact .inl ⟨rfl, .inl rfl, fun a ha => Option.mem_some_iff.mp ha ▸ hnative _ hmodule⟩
  | submitDisburseKemChunk module batchId chunkIndex =>
    obtain ⟨-, hroom, hopen, -⟩ := hstored
    obtain ⟨_, _, hcode⟩ := hverified
    rw [List.mem_singleton.mp hlog]
    exact .inr ⟨by simp [hcode], .inr ⟨batchId, chunkIndex, hroom, hopen⟩, rfl⟩

def grown (cfg : IngestConfig) (watched : Address → Bool) (l : ParsedLog) : Address → Bool :=
  l.event.registers.elim watched fun module =>
    if l.address.elim true (· = cfg.pool) then Function.update watched module true else watched

def kept (cfg : IngestConfig) (watched : Address → Bool) (l : ParsedLog) : Bool :=
  l.address.elim l.event.isPoolEvent fun from' =>
    if from' = cfg.pool then l.event.isPoolEvent
    else if cfg.portalFactory = some from' then l.event.isSwept
    else if cfg.portalPrivFactory = some from' then l.event.isSwept || l.event.isAnnounced
    else watched from' && l.event.isModuleEvent

theorem gate_cons (watched : Address → Bool) (l : ParsedLog) (logs : List ParsedLog) :
    gate cfg watched (l :: logs) =
      if kept cfg watched l then l :: gate cfg (grown cfg watched l) logs
      else gate cfg (grown cfg watched l) logs := by
  have hgrown : ∀ e : ParsedEvent, l.event = e → gate cfg watched (l :: logs) =
      if kept cfg watched l then l :: gate cfg (grown cfg watched l) logs
      else gate cfg (grown cfg watched l) logs := by
    intro e he
    rw [gate, grown, kept, he]
    cases l.address <;> cases e <;> rfl
  exact hgrown _ rfl

variable {watched : Address → Bool} {l : ParsedLog}

theorem grown_le {a : Address} (h : watched a = true) : grown cfg watched l a = true := by
  rw [grown]
  cases l.event.registers with
  | none => exact h
  | some module =>
    rw [Option.elim_some]
    split_ifs
    · rw [Function.update_apply]
      split_ifs
      · rfl
      · exact h
    · exact h

theorem grown_code (hcode : ∀ a, watched a = true → (env.code a).isSome = true) (h : Fits env watched l)
    (a : Address) (ha : grown cfg watched l a = true) : (env.code a).isSome = true := by
  have hnew : ∀ a ∈ l.event.registers, (env.code a).isSome = true := by
    rcases h with ⟨-, -, h⟩ | ⟨_, -, -, -, hevent⟩
    · exact h
    · rw [registers_module hevent]
      exact fun a ha => by cases ha
  rw [grown] at ha
  cases hl : l.event.registers with
  | none =>
    rw [hl] at ha
    exact hcode a ha
  | some module =>
    rw [hl, Option.elim_some] at ha
    split_ifs at ha
    · rw [Function.update_apply] at ha
      split_ifs at ha with hself
      · exact hself ▸ hnew module hl
      · exact hcode a ha
    · exact hcode a ha

theorem foldl_grown (own : List ParsedLog) {a : Address} : ∀ {watched : Address → Bool},
    (watched a = true ∨ ∃ l ∈ own, l.address = some cfg.pool ∧ l.event = .moduleRegistered a) →
    own.foldl (grown cfg) watched a = true := by
  induction own with
  | nil =>
    rintro watched (h | ⟨l, hl, -⟩)
    · exact h
    · cases hl
  | cons l own ih =>
    rintro watched (h | ⟨l', hl', haddress, hevent⟩)
    · exact ih (.inl (grown_le h))
    · rcases List.mem_cons.mp hl' with rfl | hl'
      · refine ih (.inl ?_)
        simp [grown, hevent, ParsedEvent.registers, haddress]
      · exact ih (.inr ⟨l', hl', haddress, hevent⟩)

-- Logs that the gate lets through one after another.
inductive LetThrough (env : Env ℕ T) (cfg : IngestConfig) : (Address → Bool) → List ParsedLog → Prop
  | nil (watched : Address → Bool) : LetThrough env cfg watched []
  | cons {watched : Address → Bool} {l : ParsedLog} {logs : List ParsedLog} : Fits env watched l →
      LetThrough env cfg (grown cfg watched l) logs → LetThrough env cfg watched (l :: logs)

theorem Fits.mono {watched' : Address → Bool} (h : Fits env watched l)
    (hle : ∀ a, watched a = true → watched' a = true) : Fits env watched' l := by
  rcases h with h | ⟨a, haddress, hcode, hwatched, hevent⟩
  · exact .inl h
  · exact .inr ⟨a, haddress, hcode, hle a hwatched, hevent⟩

theorem LetThrough.append (own : List ParsedLog) {logs : List ParsedLog} : ∀ {watched : Address → Bool},
    (∀ l ∈ own, Fits env watched l) → LetThrough env cfg (own.foldl (grown cfg) watched) logs →
    LetThrough env cfg watched (own ++ logs) := by
  induction own with
  | nil => exact fun _ h => h
  | cons l own ih =>
    intro watched hfits h
    refine .cons (hfits l List.mem_cons_self) (ih (fun l' hl' => ?_) h)
    exact (hfits l' (List.mem_cons_of_mem l hl')).mono fun a => grown_le

theorem kept_fits (hserves : cfg.Serves env) (h : Fits env watched l) (hother : l.event ≠ .other) :
    kept cfg watched l = true := by
  rcases h with ⟨haddress, hevent, -⟩ | ⟨a, haddress, hcode, hwatched, hevent⟩
  · have hkept : kept cfg watched l = l.event.isPoolEvent := by
      rw [kept, haddress]
      exact if_pos hserves.pool.symm
    rw [hkept]
    exact hevent.resolve_right hother
  · have hpool : a ≠ cfg.pool := by
      rintro rfl
      rw [hserves.pool, hserves.pool_code] at hcode
      cases hcode
    have hfactory : cfg.portalFactory ≠ some a := fun hf => by
      rw [(hserves.factory a hf).2] at hcode
      cases hcode
    have hprivFactory : cfg.portalPrivFactory ≠ some a := fun hf => by
      rw [(hserves.privFactory a hf).2] at hcode
      cases hcode
    simp [kept, haddress, hpool, hfactory, hprivFactory, hwatched, hevent]

def isOther (l : ParsedLog) : Bool := decide (l.event = .other)

-- What no handler reads is not kept, and registers nothing.
theorem gate_other (hother : isOther l = true) :
    kept cfg watched l = false ∧ grown cfg watched l = watched := by
  have he : l.event = .other := of_decide_eq_true hother
  rw [kept, grown, he]
  refine ⟨?_, rfl⟩
  cases l.address <;> simp [ParsedEvent.isPoolEvent, ParsedEvent.isSwept, ParsedEvent.isAnnounced,
    ParsedEvent.isModuleEvent]

theorem LetThrough.filter {own : List ParsedLog} (h : LetThrough env cfg watched own) :
    LetThrough env cfg watched (own.filter fun l => !isOther l) := by
  induction h with
  | nil => exact .nil _
  | @cons watched l own hfits _ ih =>
    rw [List.filter_cons]
    cases hother : isOther l with
    | true =>
      rw [(gate_other hother).2] at ih
      exact ih
    | false => exact .cons hfits ih

theorem toggles_on {f g : Address → Bool} {toggles : List (Address × Bool)} (h : Evm.Toggles f toggles g)
    {a : Address} (ha : g a = true) : f a = true ∨ (a, true) ∈ toggles := by
  induction h with
  | nil => exact .inl ha
  | @cons f g module on rest _ _ ih =>
    rcases ih ha with hf | hmem
    · rw [Function.update_apply] at hf
      split_ifs at hf with hself
      · subst hself
        exact .inr (hf ▸ List.mem_cons_self)
      · exact .inl hf
    · exact .inr (List.mem_cons_of_mem _ hmem)

theorem speaks_step {m : Message ℕ} (h : Evm.Settles env w m w') {start : ℕ} (hm : Evm.Accepts env w m w')
    (hstored : Evm.Stored env w w' start m.call) {a : Address} (ha : Speaks w' a) :
    Speaks w a ∨ ⟨env.pool, .moduleRegistered a⟩ ∈ m.emitted env w w' start := by
  have hregistered : w'.pool.registeredModules a = true →
      w.pool.registeredModules a = true ∨ ⟨env.pool, .moduleRegistered a⟩ ∈ m.emitted env w w' start := by
    intro ha
    refine (toggles_on h.toggles ha).imp_right fun hmem => ?_
    obtain ⟨sender, call⟩ := m
    cases call <;> simp_all [Call.toggles, Message.emitted]
  have hverified := hm.verified
  rcases ha with ha | ⟨batchId, chunkIndex, hroom, hopen⟩
  · exact (hregistered ha).imp_left .inl
  · obtain ⟨sender, call⟩ := m
    have hsame : w'.disburse = w.disburse → Speaks w a := fun heq =>
      .inr ⟨batchId, chunkIndex, heq ▸ hroom, heq ▸ hopen⟩
    cases call with
    | disbursePriv256 module =>
      have hdisburse : w'.disburse = _ := hstored
      rcases eq_or_ne a module with rfl | hne
      · exact .inl (.inl hverified.2.1)
      · rw [hdisburse] at hroom hopen
        simp only [World.setChunkHashes, Function.update_of_ne hne] at hroom hopen
        exact .inl (.inr ⟨batchId, chunkIndex, hroom, hopen⟩)
    | submitDisburseKemChunk module batchId' chunkIndex' =>
      have hdisburse : w'.disburse = _ := hstored.1
      rw [hdisburse] at hroom hopen
      rcases eq_or_ne a module with rfl | hne
      · simp only [World.acceptChunk, Function.update_self] at hroom hopen
        rcases eq_or_ne batchId batchId' with rfl | hid
        · rw [Function.update_self, Function.update_apply] at hopen
          split_ifs at hopen
          exact .inl (.inr ⟨batchId, chunkIndex, hroom, hopen⟩)
        · rw [Function.update_of_ne hid] at hopen
          exact .inl (.inr ⟨batchId, chunkIndex, hroom, hopen⟩)
      · simp only [World.acceptChunk, Function.update_of_ne hne] at hroom hopen
        exact .inl (.inr ⟨batchId, chunkIndex, hroom, hopen⟩)
    | _ => exact .inl (hsame hstored)

-- Whatever speaks is watched by the time its logs come, so a run's own logs all pass the gate.
theorem mines_letThrough (hserves : cfg.Serves env) {ops : List Mined} (h : Mines env w ops w')
    (hnative : ∀ op ∈ ops, IsNative env op.message.call) : ∀ {watched : Address → Bool},
    (∀ a, Speaks w a → watched a = true) → LetThrough env cfg watched (logsOf ops) := by
  induction h with
  | nil => exact fun _ => .nil _
  | @cons w w₁ w' op ops hstep hemits _ ih =>
    intro watched hwatched
    have hm := Evm.step_accepts hstep
    have hsettles := Evm.step_settles hstep
    obtain ⟨start, -, hlogs, hstored⟩ := hsettles.logs
    obtain ⟨⟨emitted, hsame, hdecoded⟩, -⟩ := hemits
    obtain rfl := List.append_cancel_left (hsame.symm.trans hlogs)
    refine .append op.logs (fun l hl => ?_) (ih (fun op' h => hnative op' (List.mem_cons_of_mem op h))
      fun a ha => foldl_grown op.logs ?_)
    · obtain ⟨log, hlog, hdec⟩ := forall₂_right hdecoded hl
      rw [Fits, hdec.address, hdec.event]
      rcases emitted_fits (hnative op List.mem_cons_self) hm hstored log hlog with ⟨hpool, h⟩ | ⟨hcode, hspeaks, h⟩
      · exact .inl ⟨congrArg some hpool, h⟩
      · exact .inr ⟨log.address, rfl, hcode, hwatched _ hspeaks, h⟩
    · refine (speaks_step hsettles hm hstored ha).imp (hwatched a) fun hmem => ?_
      obtain ⟨l, hl, hdec⟩ := forall₂_right hdecoded.flip hmem
      exact ⟨l, hl, hserves.pool ▸ hdec.address, hdec.event⟩

-- The gate keeps the logs let through, in their order, and of foreign ones at most sweeps and announcements.
theorem gate_letThrough (hserves : cfg.Serves env) (raw : List ParsedLog) : ∀ {watched : Address → Bool}
    {own : List ParsedLog}, LetThrough env cfg watched own →
    (raw.filter fun l => ownLog env l && !isOther l) = own →
    (∀ a, watched a = true → (env.code a).isSome = true) →
    (gate cfg watched raw).filter (ownLog env) = own ∧
      ∀ l ∈ gate cfg watched raw, ownLog env l = false → (l.event.isSwept || l.event.isAnnounced) = true := by
  induction raw with
  | nil =>
    intro watched own _ hown _
    subst hown
    exact ⟨rfl, by simp [gate]⟩
  | cons l raw ih =>
    intro watched own hthrough hown hcode
    rw [gate_cons]
    cases hother : isOther l with
    | true =>
      have hnone : kept cfg watched l = false ∧ grown cfg watched l = watched := gate_other hother
      rw [List.filter_cons, if_neg (by simp [hother])] at hown
      rw [hnone.1, hnone.2]
      exact ih hthrough hown hcode
    | false =>
      cases hl : ownLog env l with
      | true =>
        rw [List.filter_cons, if_pos (by simp [hl, hother])] at hown
        subst hown
        cases hthrough with
        | cons hfits hrest =>
          obtain ⟨hkeep, hnoise⟩ := ih hrest rfl (grown_code hcode hfits)
          rw [kept_fits hserves hfits (of_decide_eq_false hother), if_pos rfl]
          refine ⟨by rw [List.filter_cons, if_pos hl, hkeep], fun l' hl' hforeign => ?_⟩
          rcases List.mem_cons.mp hl' with rfl | hl'
          · rw [hl] at hforeign
            cases hforeign
          · exact hnoise l' hl' hforeign
      | false =>
        rw [List.filter_cons, if_neg (by simp [hl])] at hown
        have hforeign : ∃ a, l.address = some a ∧ a ≠ cfg.pool ∧ ¬(env.code a).isSome = true := by
          rw [ownLog] at hl
          cases haddress : l.address with
          | none => simp [haddress] at hl
          | some a =>
            rw [haddress] at hl
            simp only [Option.elim_some, Bool.or_eq_false_iff, decide_eq_false_iff_not] at hl
            exact ⟨a, rfl, hserves.pool ▸ hl.1, by simp [hl.2]⟩
        obtain ⟨a, haddress, hpool, hnocode⟩ := hforeign
        have hsame : grown cfg watched l = watched := by
          rw [grown, haddress]
          cases l.event.registers <;> simp [hpool]
        rw [hsame]
        obtain ⟨hkeep, hnoise⟩ := ih hthrough hown hcode
        have hunwatched : watched a = false := Bool.eq_false_iff.mpr fun h => hnocode (hcode a h)
        have hnoisy : kept cfg watched l = true → (l.event.isSwept || l.event.isAnnounced) = true := by
          rw [kept, haddress, Option.elim_some, if_neg hpool, hunwatched]
          split_ifs
          · exact fun h => by rw [h]; rfl
          · exact fun h => h
          · exact fun h => by cases h
        split_ifs with hkept
        · refine ⟨by rw [List.filter_cons, if_neg (by simp [hl]), hkeep], fun l' hl' hforeign => ?_⟩
          rcases List.mem_cons.mp hl' with rfl | hl'
          · exact hnoisy hkept
          · exact hnoise l' hl' hforeign
        · exact ⟨hkeep, hnoise⟩

end Gate

end Bongtu.Indexer
