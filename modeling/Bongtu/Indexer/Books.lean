import Bongtu.Indexer.Filing

namespace Bongtu.Indexer

open Bongtu.Core Outcome

open Evm (Address DisburseStore World)

variable {T : Type}

-- The indexer's account of a batch is that of the module that opened it.
structure Agrees (d : DisburseStore) (module : Address) (batchId : ℕ) (b : KemBatch) : Prop where
  module : b.module = module
  hashes : b.chunkHashes = d.chunkHashes batchId
  size : b.acceptedOnChain.length = b.chunkHashes.length
  accepted : ∀ i < b.chunkHashes.length, b.acceptedOnChain.getD i false = d.kemChunkAccepted batchId i

-- What the indexer has booked of a pool, once it has seen the logs of `keys`.
structure Books (env : Evm.Env ℕ T) (keys : List OpKey) (w : World ℕ T) (s : IndexerState) : Prop where
  ledger : s.ledger = none
  nullifiers : ∀ y, y ∈ s.store.nullifierSet ↔ w.pool.nullifierUsed y = true
  modules : ∀ a, s.modules.byAddress a = some true ↔ w.pool.registeredModules a = true
  batches : ∀ a batchId, (w.disburse a).chunkHashes batchId ≠ [] → s.modules.isKnown a = true ∧
    ∃ b, s.kem.batch batchId = some b ∧ Agrees (w.disburse a) a batchId b
  native : ∀ a, s.modules.isKnown a = true → (env.code a).isSome = true
  below : ∀ batchId, (s.kem.batch batchId).isSome → batchId < w.pool.imt.nextLeafIndex
  idle : ∀ a batchId, (w.disburse a).chunkHashes batchId = [] →
    ∀ i, (w.disburse a).kemChunkAccepted batchId i = false
  seen : ∀ key, key ∈ s.store.seen ∨ key ∈ s.modules.seen ∨ key ∈ s.kem.seen → key ∈ keys

namespace KemChunkStore

variable {k : KemChunkStore} {row : KemBatchRow} {logIndex : ℕ}

theorem recordBatch_new (hkey : (row.txHash, logIndex) ∉ k.seen) (hnew : k.batch row.batchId = none) :
    (k.recordBatch logIndex row).seen = k.seen ++ [(row.txHash, logIndex)] ∧
      ∀ batchId, (k.recordBatch logIndex row).batch batchId =
        if batchId = row.batchId then some (.ofRow row) else k.batch batchId := by
  have hrec : k.recordBatch logIndex row = { k with
      seen := k.seen ++ [(row.txHash, logIndex)]
      batches := k.batches ++ [.ofRow row]
      pendingBatchRows := k.pendingBatchRows ++ [row] } := by
    rw [recordBatch, if_neg]
    simp [hkey, hnew]
  rw [hrec]
  refine ⟨rfl, fun batchId => ?_⟩
  change (k.batches ++ [KemBatch.ofRow row]).find? (fun b => b.batchId = batchId) = _
  rw [List.find?_append, ← batch]
  split_ifs with h
  · subst h
    rw [hnew]
    simp [KemBatch.ofRow]
  · have hother : ([.ofRow row] : List KemBatch).find? (·.batchId = batchId) = none := by
      simp [KemBatch.ofRow, Ne.symm h]
    rw [hother, Option.or_none]

theorem acceptRow_batch (c : ChunkAccept) (batchId : ℕ) : (k.acceptRow c).batch batchId =
    (k.batch batchId).map fun b =>
      if b.batchId = c.batchId then b.accept c.chunkIndex c.data (some c.txHash) else b :=
  batch_modify (KemBatch.row_accept c.chunkIndex c.data (some c.txHash)) batchId

theorem acceptChunk_due {keccak256 : Bytes → ℕ} {c : ChunkAccept} {b : KemBatch}
    (hkey : (c.txHash, c.logIndex) ∉ k.seen) (hfound : k.batch c.batchId = some b)
    (hroom : c.chunkIndex < b.chunkHashes.length) (hopen : b.acceptedOnChain.getD c.chunkIndex false = false)
    (hdata : ∀ data ∈ c.data, keccak256 data = b.chunkHashes.getD c.chunkIndex 0) :
    k.acceptChunk keccak256 c = .returned ((k.see (c.txHash, c.logIndex)).acceptRow c) := by
  have hsee : (k.see (c.txHash, c.logIndex)).batch c.batchId = some b := hfound
  have hbytes : ¬(c.data.elim false
      (fun data => decide (keccak256 data ≠ b.chunkHashes.getD c.chunkIndex 0)) = true) := by
    cases hc : c.data with
    | none => simp
    | some data => simp [hdata data hc]
  unfold acceptChunk
  rw [if_neg hkey]
  dsimp only
  rw [hsee]
  dsimp only
  rw [if_neg (not_le.mpr hroom), if_neg (by rw [hopen]; exact Bool.false_ne_true), if_neg hbytes]

end KemChunkStore

namespace Books

variable {cfg : IngestConfig} {logs : List ParsedLog} {op : Mined} {env : Evm.Env ℕ T} {keys : List OpKey}
  {w w' : World ℕ T} {s : IndexerState} {x : Posting} (hb : Books env keys w s)
  (hfresh : ∀ l ∈ op.logs, l.key ∉ keys)
  (hused : ∀ y, w'.pool.nullifierUsed y = true ↔
    w.pool.nullifierUsed y = true ∨ y ∈ op.message.call.nullifiers)
  (hnext : w.pool.imt.nextLeafIndex ≤ w'.pool.imt.nextLeafIndex)

include hb

theorem new_key (hfresh : ∀ l ∈ op.logs, l.key ∉ keys) (hx : ∃ l ∈ op.logs, x.entry.key = l.key) :
    x.entry.key ∉ s.store.seen ∧ x.entry.key ∉ s.kem.seen := by
  obtain ⟨l, hl, hkey⟩ := hx
  have hnew := hfresh l hl
  rw [← hkey] at hnew
  exact ⟨fun h => hnew (hb.seen _ (.inl h)), fun h => hnew (hb.seen _ (.inr (.inr h)))⟩

include hused hnext

-- An op that touches neither the registry nor a module's storage, and leaves the indexer's registries alone.
theorem still {s' : IndexerState} {keys' : List OpKey} (hstill : Evm.Still w w') (hledger : s'.ledger = s.ledger)
    (hmodules : s'.modules = s.modules) (hkem : s'.kem = s.kem)
    (hnullifiers : ∀ y, y ∈ s'.store.nullifierSet ↔
      y ∈ s.store.nullifierSet ∨ y ∈ op.message.call.nullifiers)
    (hseen : ∀ key ∈ s'.store.seen, key ∈ s.store.seen ∨ key ∈ keys') :
    Books env (keys ++ keys') w' s' where
  ledger := hledger.trans hb.ledger
  nullifiers y := by rw [hnullifiers, hused, hb.nullifiers]
  modules a := by rw [hmodules, hstill.registered, hb.modules]
  batches a batchId := by
    rw [hmodules, hkem, hstill.disburse]
    exact hb.batches a batchId
  native a ha := hb.native a (hmodules ▸ ha)
  below batchId h := by
    rw [hkem] at h
    exact (hb.below batchId h).trans_le hnext
  idle a batchId := by
    rw [hstill.disburse]
    exact hb.idle a batchId
  seen key h := by
    rw [hmodules, hkem] at h
    rcases h with h | h
    · rcases hseen key h with hold | hnew
      · exact List.mem_append_left _ (hb.seen key (.inl hold))
      · exact List.mem_append_right _ hnew
    · exact List.mem_append_left _ (hb.seen key (.inr h))

include hfresh

theorem family (hx : Followed cfg logs op s x) (hbatch : x.batch = none) (hstill : Evm.Still w w') :
    Books env (keys ++ op.logs.map ParsedLog.key) w' (s.post x) := by
  obtain ⟨hnew, -⟩ := hb.new_key hfresh hx.key
  refine hb.still hused hnext hstill (post_ledger hnew) (post_modules hnew) ?_ (fun y => ?_) fun key hkey => ?_
  · rw [post_kem hnew, hbatch]
    rfl
  · rw [post_nullifiers hnew, hx.nullifiers]
  · rw [post_seen hnew] at hkey
    rcases List.mem_append.mp hkey with hkey | hkey
    · exact .inl hkey
    · obtain ⟨l, hl, hself⟩ := hx.key
      rw [List.mem_singleton.mp hkey, hself]
      exact .inr (List.mem_map_of_mem hl)

-- The batch is the block that the op has just attached, so no module has opened it before.
theorem opened {module : Address} {start subtreeRoot : ℕ} {hashes : List ℕ} (hx : Followed cfg logs op s x)
    (hopens : Opens cfg op module start subtreeRoot hashes x)
    (hregistered : w.pool.registeredModules module = true)
    (hsame : w'.pool.registeredModules = w.pool.registeredModules)
    (hdisburse : w'.disburse = (w.setChunkHashes module start hashes).disburse)
    (hlow : w.pool.imt.nextLeafIndex ≤ start) (hhigh : start < w'.pool.imt.nextLeafIndex) :
    Books env (keys ++ op.logs.map ParsedLog.key) w' (s.post x) := by
  obtain ⟨hnew, hkem⟩ := hb.new_key hfresh hx.key
  obtain ⟨row, hbatch, rfl, rfl, rfl, hkey⟩ := hopens.batch
  have hnone : s.kem.batch row.batchId = none := by
    cases h : s.kem.batch row.batchId with
    | none => rfl
    | some b =>
      have hold := hb.below row.batchId (by rw [h]; rfl)
      omega
  have hunopened : ∀ a, (w.disburse a).chunkHashes row.batchId = [] := by
    intro a
    by_contra h
    obtain ⟨-, b, hfound, -⟩ := hb.batches a row.batchId h
    rw [hnone] at hfound
    cases hfound
  obtain ⟨hseen, hlookup⟩ := KemChunkStore.recordBatch_new (hkey.symm ▸ hkem) hnone
  have hpost : (s.post x).kem = s.kem.recordBatch x.entry.logIndex row := by
    rw [post_kem hnew, hbatch]
    rfl
  have hchunks : ∀ a, (w'.disburse a).chunkHashes = if a = row.module then
      Function.update (w.disburse a).chunkHashes row.batchId row.chunkHashes else (w.disburse a).chunkHashes := by
    intro a
    rw [hdisburse]
    simp only [World.setChunkHashes, Function.update_apply]
    split_ifs with h
    · rw [h]
    · rfl
  have hflags : ∀ a, (w'.disburse a).kemChunkAccepted = (w.disburse a).kemChunkAccepted := by
    intro a
    rw [hdisburse]
    simp only [World.setChunkHashes, Function.update_apply]
    split_ifs with h
    · rw [h]
    · rfl
  have hkept : ∀ a batchId, ¬(a = row.module ∧ batchId = row.batchId) →
      (w'.disburse a).chunkHashes batchId = (w.disburse a).chunkHashes batchId := by
    intro a batchId h
    rw [hchunks]
    split_ifs with ha
    · rw [Function.update_of_ne fun hid => h ⟨ha, hid⟩]
    · rfl
  refine
    { ledger := (post_ledger hnew).trans hb.ledger
      nullifiers := fun y => by rw [post_nullifiers hnew, hx.nullifiers, hused, hb.nullifiers]
      modules := fun a => by rw [post_modules hnew, hsame, hb.modules]
      batches := fun a batchId hne => ?_
      native := fun a ha => hb.native a (post_modules hnew ▸ ha)
      below := fun batchId h => ?_
      idle := fun a batchId hnil i => ?_
      seen := fun key h => ?_ }
  · rw [post_modules hnew, hpost, hlookup]
    rcases em (a = row.module ∧ batchId = row.batchId) with ⟨rfl, rfl⟩ | hother
    · refine ⟨?_, .ofRow row, if_pos rfl, rfl, ?_, ?_, fun i _ => ?_⟩
      · rw [ModuleRegistry.isKnown, (hb.modules row.module).mpr hregistered]
        rfl
      · rw [hchunks, if_pos rfl, Function.update_self]
        rfl
      · simp [KemBatch.ofRow]
      · rw [hflags, hb.idle _ _ (hunopened row.module) i]
        simp only [KemBatch.ofRow, List.getD_eq_getElem?_getD, List.getElem?_map]
        cases row.chunkHashes[i]? <;> rfl
    · rw [hkept a batchId hother] at hne
      obtain ⟨hknown, b, hfound, hagrees⟩ := hb.batches a batchId hne
      have hid : batchId ≠ row.batchId := fun h => hne (h ▸ hunopened a)
      refine ⟨hknown, b, (if_neg hid).trans hfound, hagrees.module, ?_, hagrees.size, fun i hi => ?_⟩
      · rw [hkept a batchId hother]
        exact hagrees.hashes
      · rw [hflags]
        exact hagrees.accepted i hi
  · rw [hpost, hlookup] at h
    split_ifs at h with hid
    · exact hid ▸ hhigh
    · exact (hb.below batchId h).trans_le hnext
  · rw [hflags]
    rcases em (a = row.module ∧ batchId = row.batchId) with ⟨rfl, rfl⟩ | hother
    · exact hb.idle _ _ (hunopened row.module) i
    · exact hb.idle a batchId (hkept a batchId hother ▸ hnil) i
  · have hself : x.entry.key ∈ op.logs.map ParsedLog.key := by
      obtain ⟨l, hl, hl'⟩ := hx.key
      exact hl' ▸ List.mem_map_of_mem hl
    rw [post_modules hnew, hpost, hseen, post_seen hnew, hkey] at h
    rw [List.mem_append]
    rcases h with h | h | h
    · rcases List.mem_append.mp h with h | h
      · exact .inl (hb.seen key (.inl h))
      · exact .inr (List.mem_singleton.mp h ▸ hself)
    · exact .inl (hb.seen key (.inr (.inl h)))
    · rcases List.mem_append.mp h with h | h
      · exact .inl (hb.seen key (.inr (.inr h)))
      · exact .inr (List.mem_singleton.mp h ▸ hself)

variable (cfg logs) in
omit hused in
theorem toggled {toggles : List (Address × Bool)} (hnullifiers : w'.pool.nullifierUsed = w.pool.nullifierUsed)
    (hevents : op.logs.map (·.event) = toggles.map toggleEvent)
    (htoggles : Evm.Toggles w.pool.registeredModules toggles w'.pool.registeredModules)
    (hcode : ∀ a, (a, true) ∈ toggles → (env.code a).isSome = true)
    (hdisburse : w'.disburse = w.disburse) (hnodup : (op.logs.map ParsedLog.key).Nodup) :
    ∃ s', Passes cfg logs op.logs s s' ∧ Books env (keys ++ op.logs.map ParsedLog.key) w' s' ∧
      s'.tree = s.tree ∧ s'.store = s.store := by
  obtain ⟨s', hpasses, hrest, hagrees, hknown, honly, hseen⟩ := passes_toggles cfg logs op.logs
    hevents htoggles hb.modules hnodup fun l hl hmem => hfresh l hl (hb.seen _ (.inr (.inl hmem)))
  have hstore : s'.store = s.store := by rw [hrest]
  have hkem : s'.kem = s.kem := by rw [hrest]
  have hledger : s'.ledger = s.ledger := by rw [hrest]
  refine ⟨s', hpasses, ?_, by rw [hrest], hstore⟩
  refine
    { ledger := hledger.trans hb.ledger
      nullifiers := fun y => by rw [hstore, hnullifiers, hb.nullifiers]
      modules := hagrees
      batches := fun a batchId hne => ?_
      native := fun a ha => (honly a ha).elim (hb.native a) (hcode a)
      below := fun batchId h => (hb.below batchId (hkem ▸ h)).trans_le hnext
      idle := fun a batchId => by
        rw [hdisburse]
        exact hb.idle a batchId
      seen := fun key h => ?_ }
  · rw [hdisburse] at hne ⊢
    rw [hkem]
    exact ⟨hknown a (hb.batches a batchId hne).1, (hb.batches a batchId hne).2⟩
  · rw [hstore, hkem] at h
    rw [List.mem_append]
    rcases h with h | h | h
    · exact .inl (hb.seen key (.inl h))
    · rcases hseen key h with hold | hnew
      · exact .inl (hb.seen key (.inr (.inl hold)))
      · exact .inr hnew
    · exact .inl (hb.seen key (.inr (.inr h)))

variable (cfg logs) in
omit hused in
-- The bytes a chunk was accepted with hash to what the batch committed to, so the store takes them.
theorem accepted {module : Address} {batchId chunkIndex : ℕ} {chunkData : Bytes} {l : ParsedLog}
    (hnullifiers : w'.pool.nullifierUsed = w.pool.nullifierUsed) (hlist : op.logs = [l])
    (hl : l.event = .disburseKemChunkAccepted batchId chunkIndex)
    (hdata : ∀ data, l.chunkData = some data → data = chunkData) (hkeccak : cfg.keccak256 = env.keccak256)
    (hsame : w'.pool.registeredModules = w.pool.registeredModules)
    (hstored : Evm.Stored env w w' 0 (.submitDisburseKemChunk module batchId chunkIndex chunkData)) :
    ∃ s', Passes cfg logs op.logs s s' ∧ Books env (keys ++ op.logs.map ParsedLog.key) w' s' ∧
      s'.tree = s.tree ∧ s'.store = s.store := by
  obtain ⟨hdisburse, hroom, hopen, hhash⟩ := hstored
  have hne : (w.disburse module).chunkHashes batchId ≠ [] := List.ne_nil_of_length_pos (by omega)
  obtain ⟨hknown, b, hfound, hagrees⟩ := hb.batches module batchId hne
  have hid : b.batchId = batchId := (KemChunkStore.batch_some hfound).2
  set c : ChunkAccept := ⟨batchId, chunkIndex, l.chunkData, l.txHash, l.logIndex⟩
  set kem : KemChunkStore := (s.kem.see l.key).acceptRow c with hkem
  have hkey : l.key ∉ s.kem.seen := fun h => hfresh l (by simp [hlist]) (hb.seen _ (.inr (.inr h)))
  have haccept : s.kem.acceptChunk cfg.keccak256 c = .returned kem := by
    refine KemChunkStore.acceptChunk_due hkey hfound (by rw [hagrees.hashes]; exact hroom) ?_ fun data hc => ?_
    · exact (hagrees.accepted chunkIndex (by rw [hagrees.hashes]; exact hroom)).trans hopen
    · rw [hdata data hc, hkeccak, hhash, hagrees.hashes]
  have hlookup : ∀ id, kem.batch id = (s.kem.batch id).map fun b =>
      if b.batchId = batchId then b.accept chunkIndex l.chunkData (some l.txHash) else b := fun id =>
    (KemChunkStore.acceptRow_batch c id).trans rfl
  refine ⟨{ s with kem := kem }, ?_, ?_, rfl, rfl⟩
  · rw [hlist]
    refine passes_one (by rw [hl]; rfl) (by rw [hl]; rfl) (by rw [hl]; rfl) fun p hs => ?_
    subst hs
    simp only [handle, hl, handleChunkAccepted]
    rw [haccept]
    rfl
  · have hchunks : ∀ a, (w'.disburse a).chunkHashes = (w.disburse a).chunkHashes := by
      intro a
      rw [hdisburse]
      simp only [World.acceptChunk, Function.update_apply]
      split_ifs with h
      · rw [h]
      · rfl
    have hflags : ∀ a id i, (w'.disburse a).kemChunkAccepted id i =
        if a = module ∧ id = batchId ∧ i = chunkIndex then true else (w.disburse a).kemChunkAccepted id i := by
      intro a id i
      rw [hdisburse]
      simp only [World.acceptChunk, Function.update_apply]
      by_cases ha : a = module <;> by_cases hid : id = batchId <;> by_cases hi : i = chunkIndex <;>
        simp [ha, hid, hi]
    refine
      { ledger := hb.ledger
        nullifiers := fun y => by rw [hnullifiers, hb.nullifiers]
        modules := fun a => by rw [hsame, hb.modules]
        batches := fun a id hne => ?_
        native := hb.native
        below := fun id h => ?_
        idle := fun a id hnil i => ?_
        seen := fun key h => ?_ }
    · rw [hchunks] at hne
      obtain ⟨hknown', b', hfound', hagrees'⟩ := hb.batches a id hne
      refine ⟨hknown', if b'.batchId = batchId then b'.accept chunkIndex l.chunkData (some l.txHash) else b',
        by rw [hlookup, hfound']; rfl, ?_⟩
      have hid' : b'.batchId = id := (KemChunkStore.batch_some hfound').2
      split_ifs with hsame'
      · obtain rfl : id = batchId := hid'.symm.trans hsame'
        obtain rfl : b = b' := Option.some.inj (hfound.symm.trans hfound')
        obtain rfl : a = module := hagrees'.module.symm.trans hagrees.module
        refine ⟨hagrees.module, ?_, ?_, fun i hi => ?_⟩
        · rw [hchunks]
          exact hagrees.hashes
        · simp only [KemBatch.accept, List.length_set]
          exact hagrees.size
        · have hi : i < b.chunkHashes.length := hi
          rw [hflags]
          simp only [KemBatch.accept, List.getD_eq_getElem?_getD, List.getElem?_set, true_and]
          have hsize := hagrees.size
          by_cases hself : i = chunkIndex
          · rw [if_pos hself.symm, if_pos (by omega), if_pos hself]
            rfl
          · rw [if_neg (Ne.symm hself), if_neg hself, ← List.getD_eq_getElem?_getD]
            exact hagrees.accepted i hi
      · refine ⟨hagrees'.module, ?_, hagrees'.size, fun i hi => ?_⟩
        · rw [hchunks]
          exact hagrees'.hashes
        · rw [hflags, if_neg fun h => hsame' (hid'.trans h.2.1)]
          exact hagrees'.accepted i hi
    · rw [hlookup, Option.isSome_map] at h
      exact (hb.below id h).trans_le hnext
    · rw [hchunks] at hnil
      rw [hflags, if_neg]
      · exact hb.idle a id hnil i
      · rintro ⟨rfl, rfl, -⟩
        exact hne hnil
    · rw [List.mem_append]
      rcases h with h | h | h
      · exact .inl (hb.seen key (.inl h))
      · exact .inl (hb.seen key (.inr (.inl h)))
      · have h : key ∈ s.kem.seen ++ [l.key] := h
        rcases List.mem_append.mp h with h | h
        · exact .inl (hb.seen key (.inr (.inr h)))
        · rw [List.mem_singleton.mp h, hlist]
          exact .inr (List.mem_singleton_self _)

end Books

def treeEventsOf (logs : List ParsedLog) : List (TreeEvent ℕ) := logs.filterMap (·.event.treeEvent)

-- What a stretch of logs adds to the feed and to the mirror's leaves.
structure Posted (cfg : IngestConfig) (k : ℕ) (own : List ParsedLog) (entries : List FeedEntry)
    (s s' : IndexerState) : Prop where
  feed : s'.store.feed.map (·.entry) = s.store.feed.map (·.entry) ++ entries
  files : Files cfg.arbiter.primitives.poseidon2 k (treeEventsOf own) s.tree s'.tree
  recorded : ∀ i v root, .appended i v root ∈ treeEventsOf own → s'.tree.leaves i ≠ none

section Posted

variable {cfg : IngestConfig} {k : ℕ} {logs own own' : List ParsedLog} {entries entries' : List FeedEntry}
  {s s₁ s' : IndexerState}

theorem Posted.trans (h : Posted cfg k own entries s s₁) (h' : Posted cfg k own' entries' s₁ s') :
    Posted cfg k (own ++ own') (entries ++ entries') s s' where
  feed := by rw [h'.feed, h.feed, List.append_assoc]
  files := by
    refine (h.files.mono fun e he => ?_).trans (h'.files.mono fun e he => ?_) <;>
      simp only [treeEventsOf, List.filterMap_append, List.mem_append]
    · exact .inl he
    · exact .inr he
  recorded i v root he := by
    rw [treeEventsOf, List.filterMap_append, List.mem_append] at he
    rcases he with he | he
    · exact h'.files.keeps (h.recorded i v root he)
    · exact h'.recorded i v root he

-- Logs that neither post nor reach the tree.
theorem Posted.idle (hposting : ∀ l ∈ own, ∀ own', postingAt cfg own' l = none)
    (htree : ∀ l ∈ own, l.event.treeEvent = none) (hsame : s'.tree = s.tree) (hstore : s'.store = s.store) :
    Posted cfg k own ((posting cfg own).map (·.entry)).toList s s' := by
  have hnone : posting cfg own = none := List.findSome?_eq_none_iff.mpr fun l hl => hposting l hl own
  have hevents : treeEventsOf own = [] := List.filterMap_eq_nil_iff.mpr htree
  refine ⟨by rw [hstore, hnone]; simp, hsame ▸ .refl, ?_⟩
  rw [hevents]
  simp

theorem mem_ownPairs {i v root : ℕ} : (⟨i, v, root⟩ : AppendedPair) ∈ ownPairs own ↔
    .appended i v root ∈ treeEventsOf own := by
  rw [ownPairs, treeEventsOf, List.mem_filterMap, List.mem_filterMap]
  refine exists_congr fun l => and_congr_right fun _ => ?_
  cases l.event <;> simp [ParsedEvent.pair, ParsedEvent.treeEvent]

section Op

variable {op : Mined} {x : Posting} (hx : Followed cfg logs op s x) (hnew : x.entry.key ∉ s.store.seen)

include hx

theorem files_pairs : Files cfg.arbiter.primitives.poseidon2 k (treeEventsOf op.logs) s.tree
      (s.recordPairs x.pairs).tree ∧
    ∀ i v root, .appended i v root ∈ treeEventsOf op.logs → (s.recordPairs x.pairs).tree.leaves i ≠ none := by
  obtain ⟨hfiles, hrecorded⟩ := Files.recordPairs cfg.arbiter.primitives.poseidon2 k x.pairs
    (fun pair hpair => mem_ownPairs.mp (hx.pairs ▸ hpair)) s.tree
  exact ⟨hfiles, fun i v root he => hrecorded ⟨i, v, root⟩ (hx.pairs ▸ mem_ownPairs.mpr he)⟩

include hnew

theorem posted_family (hbatch : x.batch = none) :
    Posted cfg k op.logs ((posting cfg op.logs).map (·.entry)).toList s (s.post x) := by
  obtain ⟨hfiles, hrecorded⟩ := files_pairs (k := k) hx
  have htree : (s.post x).tree = (s.recordPairs x.pairs).tree := by
    rw [post_tree hnew, hbatch]
    rfl
  refine ⟨?_, htree ▸ hfiles, fun i v root he => htree ▸ hrecorded i v root he⟩
  rw [post_feed hnew, hx.posting]
  rfl

theorem posted_opened {module start subtreeRoot : ℕ} {hashes : List ℕ} (hB : cfg.arbiter.B = 2 ^ k)
    (hopens : Opens cfg op module start subtreeRoot hashes x) :
    Posted cfg k op.logs ((posting cfg op.logs).map (·.entry)).toList s (s.post x) := by
  obtain ⟨hfiles, hrecorded⟩ := files_pairs (k := k) hx
  obtain ⟨row, hbatch, rfl, -⟩ := hopens.batch
  obtain ⟨l, hl, root, hevent⟩ := hopens.attached
  have hattached : .subtreeAppended row.batchId subtreeRoot root ∈ treeEventsOf op.logs :=
    List.mem_filterMap.mpr ⟨l, hl, by rw [hevent]; rfl⟩
  have htree := post_tree hnew
  rw [hbatch] at htree
  have hfinal : Files cfg.arbiter.primitives.poseidon2 k (treeEventsOf op.logs) s.tree (s.post x).tree ∧
      ∀ i v root, .appended i v root ∈ treeEventsOf op.logs → (s.post x).tree.leaves i ≠ none := by
    cases hleaves : x.leaves with
    | none =>
      rw [hleaves] at htree
      exact ⟨htree ▸ hfiles, fun i v root he => htree ▸ hrecorded i v root he⟩
    | some leaves =>
      rw [hleaves] at htree
      obtain ⟨hlen, hfold⟩ := hopens.leaves leaves hleaves
      rw [hB] at hlen
      rw [foldRun_eq hlen] at hfold
      have hfill := Files.fill hattached hlen hfold hfiles
      refine ⟨htree ▸ hfill, fun i v root he => ?_⟩
      have hkeeps : Files cfg.arbiter.primitives.poseidon2 k (treeEventsOf op.logs) (s.recordPairs x.pairs).tree
          ((s.recordPairs x.pairs).tree.fillBatch row.batchId leaves true) :=
        .fill hattached hlen hfold .refl
      rw [htree]
      exact hkeeps.keeps (hrecorded i v root he)
  refine ⟨?_, hfinal.1, hfinal.2⟩
  rw [post_feed hnew, hx.posting]
  rfl

end Op

end Posted

section Step

variable {env : Evm.Env ℕ T} {cfg : IngestConfig} {k : ℕ} {logs : List ParsedLog} {keys : List OpKey}
  {w w' : World ℕ T} {s : IndexerState} {op : Mined}

theorem used_unchanged {ops : List (TreeOp ℕ)} (h : Evm.World.Effect env w w' [] ops) :
    w'.pool.nullifierUsed = w.pool.nullifierUsed := by
  funext y
  have hy := h.used y
  rw [List.mem_nil_iff, or_false] at hy
  exact Bool.eq_iff_iff.mpr hy

theorem start_bounds {start r : ℕ} (hp : w.pool.imt.Params env.poseidon Evm.treeHeight k)
    (htree : World.runImt env w.pool.imt [.attach r none] = .ok w'.pool.imt)
    (hstart : Evm.StartsAt env w w' start [.attach r none]) :
    w.pool.imt.nextLeafIndex ≤ start ∧ start < w'.pool.imt.nextLeafIndex := by
  obtain ⟨-, -, hmem⟩ := Evm.Imt.events_starts [.attach r none] hp htree
  have hevents : (Evm.Imt.events env.poseidon Evm.treeHeight w.pool.imt [.attach r none]).map (Evm.Log.mk env.pool) =
      [⟨env.pool, .subtreeAppended start r w'.pool.imt.root⟩] := hstart
  have hstarts : start ∈ (Evm.Imt.events env.poseidon Evm.treeHeight w.pool.imt [.attach r none]).filterMap
      Evm.batchStart := by
    cases hlist : Evm.Imt.events env.poseidon Evm.treeHeight w.pool.imt [.attach r none] with
    | nil => simp [hlist] at hevents
    | cons e es =>
      rw [hlist, List.map_cons] at hevents
      have he : e = .subtreeAppended start r w'.pool.imt.root :=
        congrArg Evm.Log.event (List.cons.inj hevents).1
      rw [he]
      simp [Evm.batchStart]
  obtain ⟨hlow, hhigh, -⟩ := hmem start hstarts
  exact ⟨hlow, hhigh⟩

-- One call of the chain, as pass 2 takes it.
theorem step_posts (hb : Books env keys w s) (hfiled : Filed env cfg logs op s w w')
    (heffect : Evm.World.Effect env w w' op.message.call.nullifiers op.message.call.ops)
    (hp : w.pool.imt.Params env.poseidon Evm.treeHeight k) (hB : cfg.arbiter.B = 2 ^ k)
    (hkeccak : cfg.keccak256 = env.keccak256) (hnodup : (op.logs.map ParsedLog.key).Nodup)
    (hfresh : ∀ l ∈ op.logs, l.key ∉ keys) :
    ∃ s', Passes cfg logs op.logs s s' ∧ Books env (keys ++ op.logs.map ParsedLog.key) w' s' ∧
      Posted cfg k op.logs ((posting cfg op.logs).map (·.entry)).toList s s' := by
  have hnext := (Evm.Imt.events_starts op.message.call.ops hp heffect.tree).1
  have hused := heffect.used
  cases hfiled with
  | family hx hbatch hstill =>
    exact ⟨_, hx.passes, hb.family hfresh hused hnext hx hbatch hstill,
      posted_family hx (hb.new_key hfresh hx.key).1 hbatch⟩
  | @opened x module start subtreeRoot hashes hx hopens hregistered hsame hdisburse hops hstart =>
    rw [hops] at heffect
    obtain ⟨hlow, hhigh⟩ := start_bounds hp heffect.tree hstart
    exact ⟨_, hx.passes, hb.opened hfresh hused hnext hx hopens hregistered hsame hdisburse hlow hhigh,
      posted_opened hx (hb.new_key hfresh hx.key).1 hB hopens⟩
  | @toggled toggles hevents htoggles hcode hdisburse hops hnullifiers =>
    rw [hnullifiers] at heffect
    obtain ⟨s', hpasses, hb', htree, hstore⟩ := hb.toggled cfg logs hfresh hnext
      (used_unchanged heffect) hevents htoggles hcode hdisburse hnodup
    have hevent : ∀ l ∈ op.logs, ∃ toggle, l.event = toggleEvent toggle := fun l hl => by
      have hmem : l.event ∈ toggles.map toggleEvent := hevents ▸ List.mem_map_of_mem hl
      obtain ⟨toggle, -, h⟩ := List.mem_map.mp hmem
      exact ⟨toggle, h.symm⟩
    refine ⟨s', hpasses, hb', .idle (fun l hl own' => ?_) (fun l hl => ?_) htree hstore⟩
    · obtain ⟨⟨module, on⟩, h⟩ := hevent l hl
      cases on <;> simp only [postingAt, h, toggleEvent] <;> rfl
    · obtain ⟨⟨module, on⟩, h⟩ := hevent l hl
      rw [h]
      cases on <;> rfl
  | @accepted module batchId chunkIndex chunkData l hlist hl hdata hsame hstored hops hnullifiers =>
    rw [hnullifiers] at heffect
    obtain ⟨s', hpasses, hb', htree, hstore⟩ := hb.accepted cfg logs hfresh hnext
      (used_unchanged heffect) hlist hl hdata hkeccak hsame hstored
    have hself : ∀ l' ∈ op.logs, l'.event = .disburseKemChunkAccepted batchId chunkIndex := by
      intro l' hl'
      rw [hlist] at hl'
      rw [List.mem_singleton.mp hl', hl]
    refine ⟨s', hpasses, hb', .idle (fun l' hl' own' => ?_) (fun l' hl' => ?_) htree hstore⟩
    · simp only [postingAt, hself l' hl']
    · rw [hself l' hl']
      rfl
  | quiet hquiet hstill hops hnullifiers =>
    rw [hnullifiers] at heffect
    refine ⟨s, passes_quiet op.logs hquiet, ?_, .idle (fun l hl own' => ?_) (fun l hl => ?_) rfl rfl⟩
    · exact hb.still hused hnext hstill rfl rfl rfl (fun y => by rw [hnullifiers]; simp) fun key h => .inl h
    · simp only [postingAt, hquiet l hl]
    · rw [hquiet l hl]
      rfl

end Step

end Bongtu.Indexer
