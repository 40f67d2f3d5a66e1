import Bongtu.Evm.Gate
import Bongtu.Indexer.Noise
import Bongtu.Indexer.PathCorrect

namespace Bongtu.Indexer

open Bongtu.Core Merkle Outcome

open Evm (Address Call Env Log Message World)

section Mirror

variable {poseidon2 : ℕ → ℕ → ℕ} {H k : ℕ} {rows : List (LeafRow ℕ)}

section Step

variable {log : List (TreeEvent ℕ)} {c : Content ℕ} {t t₁ : Evm.Imt ℕ} {m : MirrorTree ℕ}

-- An event of the pool's tree and the mirror's step on it.
structure MirrorTree.Takes (poseidon2 : ℕ → ℕ → ℕ) (H k : ℕ) (log : List (TreeEvent ℕ)) (c : Content ℕ)
    (m : MirrorTree ℕ) (rows : List (LeafRow ℕ)) (e : TreeEvent ℕ) (m₁ : MirrorTree ℕ) : Prop where
  apply : m.apply poseidon2 e = .returned m₁
  logged : Logged poseidon2 H k (log ++ [e]) c
  mirrors : Mirrors poseidon2 H k (log ++ [e]) c m₁
  held : Held (log ++ [e]) m₁ rows
  leaves : m₁.leaves = m.leaves

variable (ht : t.Holds poseidon2 H k c) (hlog : Logged poseidon2 H k log c) (hm : Mirrors poseidon2 H k log c m)
  (hheld : Held log m rows)

include ht hlog hm hheld

theorem mirror_append {leaf : ℕ} (hok : t.appendLeaf poseidon2 H leaf = .ok t₁) :
    t₁.Holds poseidon2 H k (c.place 0 leaf) ∧ ∃ e m₁,
      (∀ ops, treeLogFrom poseidon2 H t (.append leaf :: ops) = e :: treeLogFrom poseidon2 H t₁ ops) ∧
      MirrorTree.Takes poseidon2 H k log (c.place 0 leaf) m rows e m₁ := by
  obtain ⟨hroom, t', hok', hholds⟩ | ⟨-, e, herr⟩ := ht.appendLeaf leaf
  · obtain rfl := Except.ok.inj (hok.symm.trans hok')
    obtain ⟨-, tree, htree, hmirror⟩ | ⟨hfull, -⟩ := hm.tree.appendLeaf leaf
    · have hnext : m.tree.nextLeafIndex = c.next := hm.tree.tracks.next_eq
      have hnext' : tree.nextLeafIndex = c.next + 1 := hmirror.tracks.next_eq.trans (Content.place_zero_next c leaf)
      have hroot : tree.root = (c.place 0 leaf).root poseidon2 0 H := hmirror.tracks.root_eq
      refine ⟨hholds, .appended c.next leaf ((c.place 0 leaf).root poseidon2 0 H), { m with tree := tree },
        fun ops => ?_, ?_, hlog.appended leaf, hm.grow_appended hlog.records _ hmirror, ?_, rfl⟩
      · simp only [treeLogFrom, Evm.Imt.events, hok, List.filterMap_cons, treeEventOfLog]
        rw [show t.nextLeafIndex = c.next from ht.tracks.next_eq, show t₁.root = _ from hholds.tracks.root_eq]
      · rw [MirrorTree.apply, MirrorTree.applyAppend, hnext, if_neg (lt_irrefl _),
          MirrorTree.onTree_returned htree, Run.bind_returned]
        simp [MirrorTree.assertAppended, hnext', hroot]
      · refine hheld.unseen rfl rfl fun hseen => ?_
        exact lt_irrefl _ (hm.leaf_lt hlog.records hseen)
    · exact absurd hroom hfull
  · rw [hok] at herr
    cases herr

theorem mirror_attach (hk : k ≤ H) {r start : ℕ} (hok : t.attachSubtree poseidon2 H r = .ok (start, t₁)) :
    t₁.Holds poseidon2 H k (c.attach 0 k r) ∧ ∃ e m₁,
      (∀ leaves ops, treeLogFrom poseidon2 H t (.attach r leaves :: ops) = e :: treeLogFrom poseidon2 H t₁ ops) ∧
      MirrorTree.Takes poseidon2 H k log (c.attach 0 k r) m rows e m₁ := by
  obtain ⟨hroom, start', t', hok', hholds⟩ | ⟨-, e, herr⟩ := ht.attachSubtree hk r
  · obtain ⟨rfl, rfl⟩ := Prod.mk.inj (Except.ok.inj (hok.symm.trans hok'))
    obtain ⟨-, tree, htree, hmirror⟩ | ⟨hfull, -⟩ := hm.tree.attachSubtree hk r
      (show ImtTree.checkLeaves poseidon2 m.tree r none = .ok () from rfl)
    · have hnext : m.tree.nextLeafIndex = c.next := hm.tree.tracks.next_eq
      have hafter := (attach_start (k := k) c r).2.1
      have hnext' : tree.nextLeafIndex = c.next + Content.padding k c.next + tree.B := by
        rw [show tree.B = 2 ^ k from hmirror.params.B_eq, ← hafter]
        exact hmirror.tracks.next_eq
      have hroot : tree.root = (c.attach 0 k r).root poseidon2 0 H := hmirror.tracks.root_eq
      have hstart : start = c.next + Content.padding k c.next := by
        have hstride := attachSubtree_stride ht.params hok
        rw [show t₁.nextLeafIndex = _ from hholds.tracks.next_eq, hafter] at hstride
        omega
      refine ⟨hholds, .subtreeAppended (c.next + Content.padding k c.next) r ((c.attach 0 k r).root poseidon2 0 H),
        ({ m with tree := tree } : MirrorTree ℕ).tagBatch (c.next + Content.padding k c.next) r,
        fun leaves ops => ?_, ?_, hlog.attached r, hm.grow_attached hlog.records _ hmirror,
        hheld.attached hm hlog.records hmirror, ?_⟩
      · simp only [treeLogFrom, Evm.Imt.events, hok, List.filterMap_cons, treeEventOfLog]
        rw [hstart, show t₁.root = _ from hholds.tracks.root_eq]
      · rw [MirrorTree.apply, MirrorTree.applyAttach, hnext, if_pos (Nat.le_add_right _ _),
          MirrorTree.onTree_returned htree, Run.bind_returned]
        simp [MirrorTree.assertAttached, hnext', hroot]
      · simp only [MirrorTree.tagBatch, (hm.batch_fresh hlog.records).2, Bool.false_eq_true, if_false]
        rw [show tree.B = 2 ^ k from hmirror.params.B_eq]
        exact hm.wipe_fresh hlog.records (Nat.le_add_right _ _)
    · exact absurd hroom hfull
  · rw [hok] at herr
    cases herr

end Step

-- The mirror takes the events of the pool's tree operations one after another, without a throw.
theorem mirror_from (hk : k ≤ H) (ops : List (TreeOp ℕ)) : ∀ {t t' : Evm.Imt ℕ} {log : List (TreeEvent ℕ)}
    {c : Content ℕ} {m : MirrorTree ℕ}, t.Holds poseidon2 H k c → t.runFrom poseidon2 H ops = .ok t' →
    Logged poseidon2 H k log c → Mirrors poseidon2 H k log c m → Held log m rows →
    ∃ m' c', Run.forEach (MirrorTree.apply poseidon2) (treeLogFrom poseidon2 H t ops) m = .returned m' ∧
      t'.Holds poseidon2 H k c' ∧ Logged poseidon2 H k (log ++ treeLogFrom poseidon2 H t ops) c' ∧
      Mirrors poseidon2 H k (log ++ treeLogFrom poseidon2 H t ops) c' m' ∧
      Held (log ++ treeLogFrom poseidon2 H t ops) m' rows ∧ m'.leaves = m.leaves := by
  induction ops with
  | nil =>
    intro t t' log c m ht hrun hlog hm hheld
    cases hrun
    rw [show treeLogFrom poseidon2 H t [] = [] from rfl, List.append_nil]
    exact ⟨m, c, rfl, ht, hlog, hm, hheld, rfl⟩
  | cons op ops ih =>
    intro t t' log c m ht hrun hlog hm hheld
    obtain ⟨t₁, ht₁, hrest⟩ := bind_ok.mp hrun
    have hstep : ∃ c₁ e m₁, t₁.Holds poseidon2 H k c₁ ∧
        treeLogFrom poseidon2 H t (op :: ops) = e :: treeLogFrom poseidon2 H t₁ ops ∧
        MirrorTree.Takes poseidon2 H k log c₁ m rows e m₁ := by
      cases op with
      | append leaf =>
        obtain ⟨hholds, e, m₁, hhead, htakes⟩ := mirror_append ht hlog hm hheld ht₁
        exact ⟨_, e, m₁, hholds, hhead ops, htakes⟩
      | attach r leaves =>
        obtain ⟨start, hok⟩ := Evm.of_map_snd ht₁
        obtain ⟨hholds, e, m₁, hhead, htakes⟩ := mirror_attach ht hlog hm hheld hk hok
        exact ⟨_, e, m₁, hholds, hhead leaves ops, htakes⟩
    obtain ⟨c₁, e, m₁, hholds₁, hhead, htakes⟩ := hstep
    obtain ⟨m', c', hrun', hholds', hlog', hm', hheld', hleaves⟩ := ih hholds₁ hrest htakes.logged htakes.mirrors
      htakes.held
    rw [hhead, List.append_cons]
    refine ⟨m', c', ?_, hholds', hlog', hm', hheld', hleaves.trans htakes.leaves⟩
    rw [Run.forEach, htakes.apply, Run.bind_returned]
    exact hrun'

end Mirror

variable {T : Type} {env : Env ℕ T} {cfg : IngestConfig} {k : ℕ} {w w' : World ℕ T}

section Trees

-- The tree events among a call's logs are those of its tree operations.
theorem emits_tree {op : Mined} (hstep : World.step env w op.message = .ok w') (hemits : op.Emits w w') :
    treeEventsOf op.logs = treeLogFrom env.poseidon Evm.treeHeight w.pool.imt op.message.call.ops := by
  obtain ⟨start, -, hlogs, -⟩ := (Evm.step_accepts hstep).logs
  obtain ⟨⟨emitted, hsame, hdecoded⟩, -⟩ := hemits
  obtain rfl := List.append_cancel_left (hsame.symm.trans hlogs)
  have hall : treeEventsOf op.logs =
      (op.message.emitted env w w' start).filterMap fun log => treeEventOfLog log.event := by
    generalize op.logs = own, op.message.emitted env w w' start = emitted at hdecoded
    induction hdecoded with
    | nil => rfl
    | cons hdec _ ih =>
      rw [treeEventsOf] at ih ⊢
      rw [List.filterMap_cons, List.filterMap_cons, ih, hdec.event, ParsedEvent.treeEvent_ofEvent]
  obtain ⟨pre, post, heq, hplain⟩ := Evm.emitted_split env w w' op.message start
  have hnone : ∀ logs : List (Log ℕ), (∀ log ∈ logs, log ∈ pre ++ post) →
      (logs.filterMap fun log => treeEventOfLog log.event) = [] := by
    intro logs hlogs
    refine List.filterMap_eq_nil_iff.mpr fun log hlog => ?_
    have htree := hplain log (hlogs log hlog)
    cases he : log.event <;> rw [he] at htree <;> first | rfl | cases htree
  rw [hall, heq, List.filterMap_append, List.filterMap_append, hnone pre fun log h => List.mem_append_left _ h,
    hnone post fun log h => List.mem_append_right _ h, List.nil_append, List.append_nil, World.treeLogs,
    List.filterMap_map]
  rfl

theorem mines_tree {ops : List Mined} (h : Mines env w ops w') : ∃ treeOps,
    Evm.Imt.runFrom env.poseidon Evm.treeHeight w.pool.imt treeOps = .ok w'.pool.imt ∧
      treeEventsOf (logsOf ops) = treeLogFrom env.poseidon Evm.treeHeight w.pool.imt treeOps := by
  induction h with
  | nil => exact ⟨[], rfl, rfl⟩
  | @cons w w₁ w' op ops hstep hemits _ ih =>
    obtain ⟨treeOps, hrun, hevents⟩ := ih
    have htree : Evm.Imt.runFrom env.poseidon Evm.treeHeight w.pool.imt op.message.call.ops = .ok w₁.pool.imt :=
      (Evm.step_accepts hstep).effect.tree
    refine ⟨op.message.call.ops ++ treeOps, ?_, ?_⟩
    · rw [Evm.Imt.runFrom_append, htree]
      exact hrun
    · rw [logsOf_cons, treeEventsOf, List.filterMap_append, ← treeEventsOf, ← treeEventsOf, hevents,
        emits_tree hstep hemits, treeLogFrom, treeLogFrom, treeLogFrom, Evm.Imt.events_append _ _ htree,
        List.filterMap_append]

-- Pass 1 is a run of the mirror over the tree events.
theorem forEach_driveMirror (logs : List ParsedLog) : ∀ {s : IndexerState} {tree : MirrorTree ℕ},
    Run.forEach (MirrorTree.apply cfg.arbiter.primitives.poseidon2) (treeEventsOf logs) s.tree = .returned tree →
    Run.forEach (driveMirror cfg) logs s = .returned { s with tree := tree } := by
  induction logs with
  | nil =>
    intro s tree h
    cases h
    rfl
  | cons l logs ih =>
    intro s tree h
    rw [treeEventsOf, List.filterMap_cons] at h
    rw [Run.forEach, driveMirror]
    cases he : l.event.treeEvent with
    | none =>
      rw [he] at h
      rw [Run.bind_returned]
      exact ih h
    | some e =>
      rw [he] at h
      obtain ⟨tree₁, happly, hrest⟩ := Run.bind_eq_returned.mp h
      dsimp only
      rw [happly, Run.bind_returned]
      exact ih hrest

end Trees

-- The indexer stands where the pool stands after the calls of `done`.
structure Follows (env : Env ℕ T) (cfg : IngestConfig) (k : ℕ) (rows : List (LeafRow ℕ)) (done : List Mined)
    (w : World ℕ T) (s : IndexerState) : Prop where
  books : Books env ((logsOf done).map ParsedLog.key) w s
  feed : s.store.feed.map (·.entry) = entriesOf cfg done
  tree : ∃ c, w.pool.imt.Holds env.poseidon Evm.treeHeight k c ∧
    Logged env.poseidon Evm.treeHeight k (treeEventsOf (logsOf done)) c ∧
    Mirrors env.poseidon Evm.treeHeight k (treeEventsOf (logsOf done)) c s.tree
  recorded : Recorded (treeEventsOf (logsOf done)) s.tree
  held : Held (treeEventsOf (logsOf done)) s.tree rows

theorem treeEventsOf_append (own own' : List ParsedLog) :
    treeEventsOf (own ++ own') = treeEventsOf own ++ treeEventsOf own' := List.filterMap_append

theorem entriesOf_append (ops ops' : List Mined) : entriesOf cfg (ops ++ ops') = entriesOf cfg ops ++ entriesOf cfg ops' :=
  List.filterMap_append

-- One range of logs, with whatever lies between the pool's own.
theorem Follows.range {rows : List (LeafRow ℕ)} {done ops : List Mined} {s : IndexerState} {raw : List ParsedLog}
    (hserves : cfg.Serves env) (hB : cfg.arbiter.B = 2 ^ k) (hk : k ≤ Evm.treeHeight)
    (h : Follows env cfg k rows done w s) (hmines : Mines env w ops w')
    (hnative : ∀ op ∈ ops, IsNative env op.message.call) (hraw : Delivers env raw ops)
    (hnodup : ((logsOf (done ++ ops)).map ParsedLog.key).Nodup) :
    ∃ s', applyLogs cfg raw s = .returned s' ∧ Follows env cfg k rows (done ++ ops) w' s' := by
  obtain ⟨c, hholds, hlog, hm⟩ := h.tree
  have hcarries := entitled_carries hserves h.books hmines hnative hraw
  rw [logsOf_append, List.map_append, List.nodup_append] at hnodup
  obtain ⟨-, hnodup, hapart⟩ := hnodup
  -- Pass 1.
  obtain ⟨treeOps, htreeRun, hevents⟩ := mines_tree hmines
  obtain ⟨tree, c', hrun, hholds', hlog', hm', hheld', hleaves⟩ :=
    mirror_from hk treeOps hholds htreeRun hlog hm h.held
  rw [← hevents] at hrun hlog' hm' hheld'
  have hall : treeEventsOf (entitled cfg s raw) = treeEventsOf (logsOf ops) :=
    hcarries.filterMap fun l ha => by
      cases he : l.event <;> rw [he] at ha <;> first | rfl | cases ha
  have hpass1 : Run.forEach (driveMirror cfg) (entitled cfg s raw) s = .returned { s with tree := tree } := by
    refine forEach_driveMirror _ ?_
    rw [hall, hserves.poseidon]
    exact hrun
  -- Pass 2.
  have hbooks : Books env ((logsOf done).map ParsedLog.key) w { s with tree := tree } :=
    ⟨h.books.ledger, h.books.nullifiers, h.books.modules, h.books.batches, h.books.native, h.books.below,
      h.books.idle, h.books.seen⟩
  obtain ⟨s₂, hpasses, hbooks₂, hposted⟩ := mines_post hserves hB hmines hholds.params hnative
    (mines_undisturbed hserves hmines hholds.params hcarries.texts) hbooks hnodup fun l hl hmem =>
      hapart _ hmem _ (List.mem_map_of_mem hl) rfl
  obtain ⟨p', hpass2, -, rfl⟩ := hpasses [] (Pass.start (entitled cfg s raw) { s with tree := tree })
    (by rw [List.append_nil]; exact hcarries.aligned _) rfl
  obtain ⟨portal, sweptArgs, hpass2⟩ := hcarries.handles (mines_plain hmines) hpass2
  refine ⟨{ p'.indexer with portal := portal }, ?_, ?_⟩
  · rw [applyLogs]
    dsimp only
    rw [hpass1, Run.bind_returned, hpass2]
    rfl
  · have hfiles : Files env.poseidon k (treeEventsOf (logsOf ops)) tree p'.indexer.tree :=
      hserves.poseidon ▸ hposted.files
    have hsub : ∀ e ∈ treeEventsOf (logsOf ops), e ∈ treeEventsOf (logsOf done) ++ treeEventsOf (logsOf ops) :=
      fun e he => List.mem_append_right _ he
    have hlogs : treeEventsOf (logsOf (done ++ ops)) =
        treeEventsOf (logsOf done) ++ treeEventsOf (logsOf ops) := by
      rw [logsOf_append, treeEventsOf_append]
    have hmirrors := hfiles.mirrors hm' hlog'.records hsub
    refine ⟨?_, ?_, ⟨c', hholds', hlogs ▸ hlog', hlogs ▸ hmirrors⟩, ?_, ?_⟩
    · rw [logsOf_append, List.map_append]
      exact ⟨hbooks₂.ledger, hbooks₂.nullifiers, hbooks₂.modules, hbooks₂.batches, hbooks₂.native, hbooks₂.below,
        hbooks₂.idle, hbooks₂.seen⟩
    · rw [entriesOf_append, ← h.feed]
      exact hposted.feed
    · rw [hlogs]
      intro i v root he
      rcases List.mem_append.mp he with he | he
      · exact hfiles.keeps (hleaves ▸ h.recorded i v root he)
      · exact hposted.recorded i v root he
    · rw [hlogs]
      exact hfiles.held hheld' hlog'.records hsub

-- One range after another, wherever the chain is cut.
theorem Follows.ranges {rows : List (LeafRow ℕ)} (hserves : cfg.Serves env) (hB : cfg.arbiter.B = 2 ^ k)
    (hk : k ≤ Evm.treeHeight) (ranges : List (List ParsedLog × List Mined)) : ∀ {done : List Mined}
    {w : World ℕ T} {s : IndexerState}, Follows env cfg k rows done w s →
    Mines env w (ranges.flatMap (·.2)) w' → (∀ r ∈ ranges, ∀ op ∈ r.2, IsNative env op.message.call) →
    (∀ r ∈ ranges, Delivers env r.1 r.2) →
    ((logsOf (done ++ ranges.flatMap (·.2))).map ParsedLog.key).Nodup →
    ∃ s', Run.forEach (applyLogs cfg) (ranges.map (·.1)) s = .returned s' ∧
      Follows env cfg k rows (done ++ ranges.flatMap (·.2)) w' s' := by
  induction ranges with
  | nil =>
    intro done w s h hmines _ _ _
    cases hmines
    rw [List.flatMap_nil, List.append_nil]
    exact ⟨s, rfl, h⟩
  | cons r ranges ih =>
    intro done w s h hmines hnative hraw hnodup
    rw [List.flatMap_cons] at hmines hnodup
    obtain ⟨w₁, hfirst, hrest⟩ := hmines.split r.2
    rw [← List.append_assoc] at hnodup
    obtain ⟨s₁, hrun₁, h₁⟩ := h.range hserves hB hk hfirst (hnative r List.mem_cons_self)
      (hraw r List.mem_cons_self) (by
        rw [logsOf_append, List.map_append] at hnodup
        exact (List.nodup_append.mp hnodup).1)
    obtain ⟨s', hrun, h'⟩ := ih h₁ hrest (fun r' h => hnative r' (List.mem_cons_of_mem r h))
      (fun r' h => hraw r' (List.mem_cons_of_mem r h)) hnodup
    refine ⟨s', ?_, ?_⟩
    · rw [List.map_cons, Run.forEach, hrun₁]
      exact hrun
    · rw [List.flatMap_cons, ← List.append_assoc]
      exact h'

-- An indexer before its first range, with nothing stored yet.
def IndexerState.fresh (tree : MirrorTree ℕ) (portal : PortalRegistry) : IndexerState :=
  ⟨tree, .empty, none, portal, .empty, .empty⟩

theorem Books.fresh (hinit : Evm.Initialized env w) (tree : MirrorTree ℕ) (portal : PortalRegistry) :
    Books env [] w (.fresh tree portal) := by
  have hnone : (∀ a, w.pool.registeredModules a = false) ∧ (∀ y, w.pool.nullifierUsed y = false) ∧
      (∀ a batchId, (w.disburse a).chunkHashes batchId = []) ∧
      ∀ a batchId i, (w.disburse a).kemChunkAccepted batchId i = false := by
    rcases hinit with ⟨token, sender, batchSize, key, hash, block, hw⟩ | ⟨token, sender, batchSize, hw⟩
    · simp only [Evm.World.initializePool, bind_ok] at hw
      obtain ⟨_, -, _, -, _, -, _, -, hw⟩ := hw
      cases hw
      exact ⟨fun _ => rfl, fun _ => rfl, fun _ _ => rfl, fun _ _ _ => rfl⟩
    · simp only [Evm.World.initializeConsumerOnly, bind_ok] at hw
      obtain ⟨_, -, _, -, hw⟩ := hw
      cases hw
      exact ⟨fun _ => rfl, fun _ => rfl, fun _ _ => rfl, fun _ _ _ => rfl⟩
  obtain ⟨hmodules, hused, hchunks, haccepted⟩ := hnone
  exact
    { ledger := rfl
      nullifiers := fun y => by rw [hused]; simp [IndexerState.fresh, Store.empty]
      modules := fun a => by rw [hmodules]; simp [IndexerState.fresh, ModuleRegistry.empty]
      batches := fun a batchId h => absurd (hchunks a batchId) h
      native := fun a h => by simp [IndexerState.fresh, ModuleRegistry.isKnown, ModuleRegistry.empty] at h
      below := fun batchId h => by simp [IndexerState.fresh, KemChunkStore.batch, KemChunkStore.empty] at h
      idle := fun a batchId _ => haccepted a batchId
      seen := fun key h => by
        simp [IndexerState.fresh, Store.empty, ModuleRegistry.empty, KemChunkStore.empty] at h }

theorem Follows.fresh (hinit : Evm.Initialized env w) (hserves : cfg.Serves env)
    (hB : cfg.arbiter.B = w.pool.imt.B) {tree : MirrorTree ℕ}
    (htree : MirrorTree.construct cfg.arbiter.primitives.poseidon2 Evm.treeHeight cfg.arbiter.B = .ok tree)
    (portal : PortalRegistry) : ∃ k, cfg.arbiter.B = 2 ^ k ∧ k ≤ Evm.treeHeight ∧
      Follows env cfg k [] [] w (.fresh tree portal) := by
  obtain ⟨k, hfresh⟩ := Evm.fresh_of_initialized hinit
  have hsize : cfg.arbiter.B = 2 ^ k := by rw [hB, hfresh.imt]; rfl
  rw [hsize, hserves.poseidon] at htree
  obtain ⟨hk, hm, hpending⟩ := construct_mirrors htree
  refine ⟨k, hsize, hk, .fresh hinit tree portal, rfl, ⟨_, ?_, .genesis, hm⟩, by simp [Recorded, treeEventsOf], ?_⟩
  · rw [hfresh.imt]
    exact Evm.Imt.holds_init k
  · exact ⟨by simp [IndexerState.fresh, hpending], by simp [IndexerState.fresh, hpending, treeEventsOf]⟩

-- What the indexer serves is what the pool holds.
structure Reflects (env : Env ℕ T) (cfg : IngestConfig) (k : ℕ) (done : List Mined) (w : World ℕ T)
    (s : IndexerState) : Prop where
  root : s.tree.tree.root = w.pool.imt.root
  next : s.tree.tree.nextLeafIndex = w.pool.imt.nextLeafIndex
  nullifiers : ∀ y, y ∈ s.store.nullifierSet ↔ w.pool.nullifierUsed y = true
  modules : ∀ a, s.modules.byAddress a = some true ↔ w.pool.registeredModules a = true
  batches : ∀ a batchId, (w.disburse a).chunkHashes batchId ≠ [] → ∃ b, s.kem.batch batchId = some b ∧
    Agrees (w.disburse a) a batchId b
  feed : s.store.feed.map (·.entry) = entriesOf cfg done
  path : ∀ i < w.pool.imt.nextLeafIndex,
    PathCorrect env.poseidon Evm.treeHeight k (treeEventsOf (logsOf done)) s.tree i

theorem Follows.reflects {rows : List (LeafRow ℕ)} {done : List Mined} {s : IndexerState}
    (hk : k ≤ Evm.treeHeight) (h : Follows env cfg k rows done w s) : Reflects env cfg k done w s := by
  obtain ⟨c, hholds, hlog, hm⟩ := h.tree
  have hnext : w.pool.imt.nextLeafIndex = c.next := hholds.tracks.next_eq
  refine ⟨?_, ?_, h.books.nullifiers, h.books.modules, fun a batchId hne => (h.books.batches a batchId hne).2,
    h.feed, fun i hi => hm.path_correct hlog h.recorded hk (hnext ▸ hi)⟩
  · exact hm.tree.tracks.root_eq.trans hholds.tracks.root_eq.symm
  · exact hm.tree.tracks.next_eq.trans hnext.symm

theorem ingest_reflects_pool {w₀ : World ℕ T} (hserves : cfg.Serves env) (hinit : Evm.Initialized env w₀)
    (hB : cfg.arbiter.B = w₀.pool.imt.B) {tree : MirrorTree ℕ}
    (htree : MirrorTree.construct cfg.arbiter.primitives.poseidon2 Evm.treeHeight cfg.arbiter.B = .ok tree)
    (portal : PortalRegistry) (ranges : List (List ParsedLog × List Mined))
    (hmines : Mines env w₀ (ranges.flatMap (·.2)) w)
    (hnative : ∀ r ∈ ranges, ∀ op ∈ r.2, IsNative env op.message.call)
    (hraw : ∀ r ∈ ranges, Delivers env r.1 r.2)
    (hkeys : ((logsOf (ranges.flatMap (·.2))).map ParsedLog.key).Nodup) :
    ∃ k s, cfg.arbiter.B = 2 ^ k ∧
      Run.forEach (applyLogs cfg) (ranges.map (·.1)) (.fresh tree portal) = .returned s ∧
      Reflects env cfg k (ranges.flatMap (·.2)) w s := by
  obtain ⟨k, hsize, hk, hfollows⟩ := Follows.fresh hinit hserves hB htree portal
  obtain ⟨s, hrun, h⟩ := hfollows.ranges hserves hsize hk ranges hmines hnative hraw hkeys
  exact ⟨k, s, hsize, hrun, h.reflects hk⟩

section Sample

-- A call with its logs as a node returns them, one block for each transaction.
def minedAs (m : Message ℕ) (txHash : TxHash) (emitted : List (Log ℕ)) : Mined :=
  ⟨m, txHash, emitted.zipIdx.map fun log => ⟨some log.1.address, txHash, txHash, log.2, 0, .ofEvent log.1.event, none⟩⟩

theorem minedAs_emits {m : Message ℕ} {emitted : List (Log ℕ)} (txHash : TxHash) (h : w'.logs = w.logs ++ emitted) :
    (minedAs m txHash emitted).Emits w w' := by
  refine ⟨⟨emitted, h, ?_⟩, fun l hl => ?_⟩
  swap
  · obtain ⟨log, -, rfl⟩ := List.mem_map.mp hl
    rfl
  rw [minedAs, List.forall₂_map_right_iff]
  refine List.forall₂_iff_get.mpr ⟨by simp, fun i hi hi' => ?_⟩
  simp only [List.get_eq_getElem, List.getElem_zipIdx]
  exact ⟨rfl, rfl, fun data hdata => by cases hdata⟩

theorem minedAs_keys (m : Message ℕ) (txHash : TxHash) (emitted : List (Log ℕ)) :
    ((minedAs m txHash emitted).logs.map ParsedLog.key).Nodup ∧
      ∀ key ∈ (minedAs m txHash emitted).logs.map ParsedLog.key, key.1 = txHash := by
  have hkeys : (minedAs m txHash emitted).logs.map ParsedLog.key =
      (emitted.zipIdx.map Prod.snd).map fun i => (txHash, i) := by
    rw [minedAs, List.map_map, List.map_map]
    rfl
  rw [hkeys, List.zipIdx_map_snd]
  refine ⟨List.Nodup.map (fun i j h => (Prod.mk.inj h).2) List.nodup_range', fun key hkey => ?_⟩
  obtain ⟨i, -, rfl⟩ := List.mem_map.mp hkey
  rfl

def linearArbiter : Arbiter := ⟨{ plainPrimitives with poseidonN := List.sum }, fun _ _ => "", 1, none, 2, 32⟩

def registryEnv : Env ℕ Unit := { Evm.permissive with
  poseidon := linearArbiter.primitives.poseidon2
  code := fun a => if a = 9 then some (.consumerDisburse 2 4) else none
  disbursePrivVerifier := fun _ pub => decide (pub 3 ≠ 0) }

def registryConfig : IngestConfig := ⟨linearArbiter, 1, some 11, none, List.length⟩

def registryPool : World ℕ Unit :=
  let w := (World.proxyStorage () : World ℕ Unit)
  World.rotate registryEnv { w with
    pool := { World.initTreeAndParams registryEnv 2 w.pool with
      owner := 7
      version := 1
      initialized := true } } (3, 4) 5 0

def zeroKem : Bytes := List.replicate 1088 0

def registryDeposit : Message ℕ := ⟨7, .deposit ⟨(0, 0), ((0, 0), (0, 0)), (0, 0)⟩ (fun i => i) zeroKem⟩

def registryCall : Message ℕ := ⟨7, .registerModule 9⟩

-- Another contract's sweep, in the same range.
def strayLog : ParsedLog := ⟨some 11, 0, 0, 0, 0, .swept 3 5 6, none⟩

theorem registry_serves : registryConfig.Serves registryEnv where
  pool := rfl
  poseidon := rfl
  keccak := rfl
  pool_code := rfl
  factory f hf := by cases hf; exact ⟨by decide, rfl⟩
  privFactory f hf := by cases hf
  batch_ne proof pub h := of_decide_eq_true h

set_option maxRecDepth 10000 in
theorem registry_accepts : ∃ w₁ w₂, World.step registryEnv registryPool registryCall = .ok w₁ ∧
    World.step registryEnv w₁ registryDeposit = .ok w₂ :=
  ⟨World.setModule (Evm.World.emit 1 (.moduleRegistered 9) registryPool) 9 true, _, rfl, rfl⟩

theorem Fits.own {watched : Address → Bool} {l : ParsedLog} (h : Fits env watched l) : ownLog env l = true := by
  rcases h with ⟨haddress, -⟩ | ⟨a, haddress, hcode, -⟩
  · simp [ownLog, haddress]
  · simp [ownLog, haddress, hcode]

theorem LetThrough.own {watched : Address → Bool} {own : List ParsedLog} (h : LetThrough env cfg watched own) :
    ∀ l ∈ own, ownLog env l = true := by
  induction h with
  | nil => simp
  | cons hfits _ ih => exact List.forall_mem_cons.mpr ⟨hfits.own, ih⟩

theorem delivers_stray {stray : ParsedLog} {op : Mined} (hstray : ownLog env stray = false)
    (hown : ∀ l ∈ op.logs, ownLog env l = true) : Delivers env (stray :: op.logs) [op] := by
  rw [Delivers, List.filter_cons, if_neg (by simp [hstray]), logsOf_cons, logsOf_nil, List.append_nil]
  exact List.filter_congr fun l hl => by rw [hown l hl, Bool.true_and]

theorem registry_tree : ∃ tree, MirrorTree.construct linearArbiter.primitives.poseidon2 Evm.treeHeight 2 = .ok tree :=
  ⟨_, rfl⟩

theorem ingest_reflects_pool_registry : ∃ tree ops w k s, ops.map (·.message) = [registryCall, registryDeposit] ∧
    Run.forEach (applyLogs registryConfig) (ops.map fun op => strayLog :: op.logs)
      (.fresh tree .empty) = .returned s ∧ Reflects registryEnv registryConfig k ops w s := by
  obtain ⟨tree, htree⟩ := registry_tree
  obtain ⟨w₁, w₂, hstep₁, hstep₂⟩ := registry_accepts
  obtain ⟨start₁, -, hlogs₁, -⟩ := (Evm.step_accepts hstep₁).logs
  obtain ⟨start₂, -, hlogs₂, -⟩ := (Evm.step_accepts hstep₂).logs
  let op₁ := minedAs registryCall 1 (registryCall.emitted registryEnv registryPool w₁ start₁)
  let op₂ := minedAs registryDeposit 2 (registryDeposit.emitted registryEnv w₁ w₂ start₂)
  have hmines : Mines registryEnv registryPool [op₁, op₂] w₂ :=
    .cons hstep₁ (minedAs_emits 1 hlogs₁) (.cons hstep₂ (minedAs_emits 2 hlogs₂) (.nil w₂))
  have hnative : ∀ op ∈ [op₁, op₂], IsNative registryEnv op.message.call := by
    refine List.forall_mem_cons.mpr ⟨?_, List.forall_mem_cons.mpr ⟨?_, List.forall_mem_nil _⟩⟩
    · exact List.forall_mem_cons.mpr ⟨rfl, List.forall_mem_nil _⟩
    · exact List.forall_mem_nil _
  have hthrough : LetThrough registryEnv registryConfig (fun _ => true) (logsOf [op₁, op₂]) :=
    mines_letThrough registry_serves hmines hnative fun _ _ => rfl
  obtain ⟨hnodup₁, htx₁⟩ := minedAs_keys registryCall 1 (registryCall.emitted registryEnv registryPool w₁ start₁)
  obtain ⟨hnodup₂, htx₂⟩ := minedAs_keys registryDeposit 2 (registryDeposit.emitted registryEnv w₁ w₂ start₂)
  have hkeys : ((logsOf [op₁, op₂]).map ParsedLog.key).Nodup := by
    rw [logsOf_cons, logsOf_cons, logsOf_nil, List.append_nil, List.map_append]
    refine List.nodup_append.mpr ⟨hnodup₁, hnodup₂, fun key h₁ key' h₂ heq => ?_⟩
    have htx := htx₂ key' h₂
    rw [← heq, htx₁ key h₁] at htx
    cases htx
  obtain ⟨k, s, -, hrun, hreflects⟩ := ingest_reflects_pool registry_serves (.inl ⟨(), 7, 2, (3, 4), 5, 0, rfl⟩)
    rfl htree .empty [(strayLog :: op₁.logs, [op₁]), (strayLog :: op₂.logs, [op₂])] hmines
    (List.forall_mem_cons.mpr ⟨fun op hop => hnative op (by simp_all), List.forall_mem_cons.mpr
      ⟨fun op hop => hnative op (by simp_all), List.forall_mem_nil _⟩⟩)
    (List.forall_mem_cons.mpr ⟨delivers_stray rfl fun l hl => hthrough.own l (by simp [logsOf, hl]),
      List.forall_mem_cons.mpr ⟨delivers_stray rfl fun l hl => hthrough.own l (by simp [logsOf, hl]), List.forall_mem_nil _⟩⟩)
    hkeys
  exact ⟨tree, [op₁, op₂], w₂, k, s, rfl, hrun, hreflects⟩

end Sample
end Bongtu.Indexer
