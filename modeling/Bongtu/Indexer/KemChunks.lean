import Bongtu.Blocks
import Bongtu.Evm.Modules
import Bongtu.Indexer.Registries
import Bongtu.Trace

namespace Bongtu.Indexer

open Bongtu.Core Outcome

open Evm.World (chunkCount chunkArityOf)

def kemCtBytes : ℕ := 1088

inductive KemError where
  | chunkHash (batchId chunkIndex : ℕ)
  | assembledLength (batchId length want : ℕ)
  | unknownBatch (batchId : ℕ)
deriving DecidableEq, Repr

namespace KemBatch

def all (b : KemBatch) : Bytes := (b.chunks.map (·.getD [])).flatten

def attach (chunkIndex : ℕ) (data : Bytes) (b : KemBatch) : KemBatch :=
  { b with chunks := b.chunks.set chunkIndex (some data) }

end KemBatch

namespace KemChunkStore

def attachRow (batchId chunkIndex : ℕ) (data : Bytes) (txHash : Option TxHash) (k : KemChunkStore) :
    KemChunkStore :=
  let k := k.modifyBatch batchId (·.attach chunkIndex data)
  { k with pendingChunkRows := k.pendingChunkRows ++ [⟨batchId, chunkIndex, some data, txHash⟩] }

def attachChunkData (keccak256 : Bytes → ℕ) (batchId chunkIndex : ℕ) (data : Bytes)
    (k : KemChunkStore) : Run KemError KemChunkStore :=
  match k.batch batchId with
  | none => .returned k
  | some batch =>
    if batch.acceptedOnChain.getD chunkIndex false = false ∨
        batch.chunks.getD chunkIndex none ≠ none then .returned k
    else if keccak256 data ≠ batch.chunkHashes.getD chunkIndex 0 then
      .threw (.chunkHash batchId chunkIndex) k
    else .returned (k.attachRow batchId chunkIndex data (batch.chunkTxHashes.getD chunkIndex none))

def assembled (k : KemChunkStore) (batchId : ℕ) : Except KemError (Option (List Bytes)) :=
  match k.batch batchId with
  | none => .ok none
  | some batch =>
    if none ∈ batch.chunks then .ok none
    else if batch.all.length ≠ batch.outputs * kemCtBytes then
      .error (.assembledLength batchId batch.all.length (batch.outputs * kemCtBytes))
    else .ok (some (Blocks.split kemCtBytes batch.outputs batch.all))

def status (k : KemChunkStore) (batchId : ℕ) (nowSeconds graceSeconds : ℤ) : Except KemError KemStatus :=
  match k.batch batchId with
  | none => .error (.unknownBatch batchId)
  | some batch =>
    if none ∉ batch.chunks then .ok .complete
    else if batch.acceptedOnChain.all id then .ok .acceptedUnassembled
    else if nowSeconds - batch.batchTimestamp > graceSeconds then .ok .withheld
    else .ok .pending

def projection (k : KemChunkStore) (batchId : ℕ) (nowSeconds graceSeconds : ℤ) :
    Except KemError (Option KemTransport) :=
  match k.batch batchId with
  | none => .ok none
  | some batch => do
    let assembled ← k.assembled batchId
    let status ← k.status batchId nowSeconds graceSeconds
    return some ⟨status, batch.chunkHashes.length, batch.acceptedOnChain.count true, assembled⟩

end KemChunkStore

structure KemWorld where
  store : KemChunkStore
  tables : KemTables
deriving DecidableEq, Repr

inductive KemEvent where
  | recordBatch (logIndex : ℕ) (row : KemBatchRow)
  | acceptChunk (c : ChunkAccept)
  | attachChunkData (batchId chunkIndex : ℕ) (data : Bytes)
  | flush
  | boot
deriving DecidableEq, Repr

namespace KemWorld

def empty : KemWorld := ⟨.empty, .empty⟩

def step (keccak256 : Bytes → ℕ) (w : KemWorld) : KemEvent → KemWorld
  | .recordBatch logIndex row => { w with store := w.store.recordBatch logIndex row }
  | .acceptChunk c => { w with store := (w.store.acceptChunk keccak256 c).state }
  | .attachChunkData batchId chunkIndex data =>
    { w with store := (w.store.attachChunkData keccak256 batchId chunkIndex data).state }
  | .flush => ⟨w.store.commitFlush, w.store.flushInto w.tables⟩
  | .boot => { w with store := .boot w.tables }

def run (keccak256 : Bytes → ℕ) (es : List KemEvent) : KemWorld := es.foldl (step keccak256) empty

end KemWorld

-- The chunks of a sender who deals out the ciphertexts in leaf order by the module's `chunkArityOf`.
def splitChunks (batchSize chunkArity : ℕ) (cts : List Bytes) : List Bytes :=
  (List.range (chunkCount batchSize chunkArity)).map fun j =>
    ((cts.drop (j * chunkArity)).take (chunkArityOf batchSize chunkArity j)).flatten

-- A batch of the repository's module, committed by hashes that bind the sender's chunks.
structure SentBy (keccak256 : Bytes → ℕ) (batchSize chunkArity : ℕ) (cts : List Bytes)
    (row : KemBatchRow) : Prop where
  arity : 0 < chunkArity ∧ chunkArity ≤ batchSize
  outputs : row.outputs = batchSize
  count : cts.length = batchSize
  lengths : ∀ ct ∈ cts, ct.length = kemCtBytes
  hashes : row.chunkHashes = (splitChunks batchSize chunkArity cts).map keccak256
  binding : ∀ chunk ∈ splitChunks batchSize chunkArity cts, ∀ data,
    keccak256 data = keccak256 chunk → data = chunk

def KemChunkRow.key (row : KemChunkRow) : ℕ × ℕ := (row.batchId, row.chunkIndex)

-- `DO UPDATE SET data = COALESCE(EXCLUDED.data, ...), tx_hash = COALESCE(...)` on the row in the way.
def KemChunkRow.over (row old : KemChunkRow) : KemChunkRow :=
  { old with data := row.data.or old.data, txHash := row.txHash.or old.txHash }

namespace KemBatch

def Accepted (b : KemBatch) (chunkIndex : ℕ) : Prop := b.acceptedOnChain[chunkIndex]? = some true

def Holds (b : KemBatch) (chunkIndex : ℕ) (data : Bytes) : Prop :=
  b.chunks[chunkIndex]? = some (some data)

structure Shows (b : KemBatch) (row : KemChunkRow) : Prop where
  accepted : b.Accepted row.chunkIndex
  data : b.chunks[row.chunkIndex]? = some row.data
  txHash : b.chunkTxHashes[row.chunkIndex]? = some row.txHash

structure Grows (b b' : KemBatch) : Prop where
  row : b'.toKemBatchRow = b.toKemBatchRow
  accepted : ∀ j, b.Accepted j → b'.Accepted j
  holds : ∀ j data, b.Holds j data → b'.Holds j data

end KemBatch

namespace KemWorld

variable (keccak256 : Bytes → ℕ)

structure Sound (es : List KemEvent) : Prop where
  grows : ∀ pre post, pre ++ post = es → ∀ batchId b, (run keccak256 pre).store.batch batchId = some b →
    ∃ b', (run keccak256 es).store.batch batchId = some b' ∧ b.Grows b'
  hashes : ∀ batchId b, (run keccak256 es).store.batch batchId = some b →
    ∀ j data, b.Holds j data → b.chunkHashes[j]? = some (keccak256 data)
  assembled : ∀ batchId b, (run keccak256 es).store.batch batchId = some b →
    ∀ batchSize chunkArity cts, SentBy keccak256 batchSize chunkArity cts b.toKemBatchRow →
      (∀ l, (run keccak256 es).store.assembled batchId = .ok (some l) ↔
        (∀ j < b.chunkHashes.length, ∃ data, b.Holds j data) ∧ l = cts)
  restored : ∀ pre c post, pre ++ .acceptChunk c :: post = es → ∀ e k,
    (run keccak256 pre).store.acceptChunk keccak256 c = .threw e k →
      k = (run keccak256 pre).store ∧
      ∀ b data, k.batch c.batchId = some b → b.chunkHashes[c.chunkIndex]? = some (keccak256 data) →
        ∃ k' b', k.acceptChunk keccak256 { c with data := some data } = .returned k' ∧
          k'.batch c.batchId = some b' ∧ b'.Holds c.chunkIndex data
  reads : ∀ batchId b, (run keccak256 es).store.batch batchId = some b → ∀ nowSeconds graceSeconds,
    (∃ s, (run keccak256 es).store.status batchId nowSeconds graceSeconds = .ok s) ∧
    ∃ x, (run keccak256 es).store.projection batchId nowSeconds graceSeconds = .ok x

end KemWorld

namespace KemBatch

-- The chunks add up to the batch's ciphertexts once all of them are held.
def Whole (b : KemBatch) : Prop := none ∉ b.chunks → b.all.length = b.outputs * kemCtBytes

instance (b : KemBatch) : Decidable b.Whole := inferInstanceAs (Decidable (_ → _))

end KemBatch

def ChunkAccept.Due (c : ChunkAccept) (k : KemChunkStore) (b : KemBatch) : Prop :=
  (c.txHash, c.logIndex) ∉ k.seen ∧ c.chunkIndex < b.chunkHashes.length ∧
    b.acceptedOnChain.getD c.chunkIndex false = false

instance (c : ChunkAccept) (k : KemChunkStore) (b : KemBatch) : Decidable (c.Due k b) :=
  inferInstanceAs (Decidable (_ ∧ _))

namespace KemWorld

-- No call throws on the bytes it is given, a batch never ends up complete at another length than its
-- ciphertexts have, and the process restarts with nothing left to write.
def Intact (keccak256 : Bytes → ℕ) (w : KemWorld) : KemEvent → Prop
  | .recordBatch logIndex row =>
    (row.txHash, logIndex) ∉ w.store.seen → w.store.batch row.batchId = none →
      row.chunkHashes = [] → row.outputs = 0
  | .acceptChunk c => ∀ b ∈ w.store.batch c.batchId, c.Due w.store b →
      (∀ data ∈ c.data, keccak256 data = b.chunkHashes.getD c.chunkIndex 0) ∧
      (b.accept c.chunkIndex c.data (some c.txHash)).Whole
  | .attachChunkData batchId chunkIndex data => ∀ b ∈ w.store.batch batchId,
      b.acceptedOnChain.getD chunkIndex false = true → b.chunks.getD chunkIndex none = none →
      keccak256 data = b.chunkHashes.getD chunkIndex 0 → (b.attach chunkIndex data).Whole
  | .flush => True
  | .boot => w.store.pendingBatchRows = [] ∧ w.store.pendingChunkRows = []

instance (keccak256 : Bytes → ℕ) (w : KemWorld) : (e : KemEvent) → Decidable (w.Intact keccak256 e)
  | .recordBatch .. => inferInstanceAs (Decidable (_ → _ → _ → _))
  | .acceptChunk c => inferInstanceAs (Decidable (∀ b ∈ w.store.batch c.batchId, _ → _ ∧ _))
  | .attachChunkData batchId .. =>
    inferInstanceAs (Decidable (∀ b ∈ w.store.batch batchId, _ → _ → _ → _))
  | .flush => inferInstanceAs (Decidable True)
  | .boot => inferInstanceAs (Decidable (_ ∧ _))

end KemWorld

namespace KemBatch

variable {b : KemBatch} {keccak256 : Bytes → ℕ} {j : ℕ}

theorem getD_accepted : b.acceptedOnChain.getD j false = true ↔ b.Accepted j := by
  rw [Accepted, List.getD_eq_getElem?_getD]
  cases b.acceptedOnChain[j]? <;> simp

theorem getD_chunks {data : Bytes} : b.chunks.getD j none = some data ↔ b.Holds j data := by
  rw [Holds, List.getD_eq_getElem?_getD]
  cases b.chunks[j]? <;> simp

-- What the source's own writes keep true of a batch.
structure Kept (keccak256 : Bytes → ℕ) (b : KemBatch) : Prop where
  accepts : b.acceptedOnChain.length = b.chunkHashes.length
  places : b.chunks.length = b.chunkHashes.length
  txs : b.chunkTxHashes.length = b.chunkHashes.length
  holds : ∀ j data, b.Holds j data → b.Accepted j ∧ b.chunkHashes[j]? = some (keccak256 data)
  blank : ∀ j, ¬ b.Accepted j → b.chunkTxHashes.getD j none = none
  whole : b.Whole

theorem Kept.whole_held (h : b.Kept keccak256) :
    none ∉ b.chunks ↔ ∀ j < b.chunkHashes.length, ∃ data, b.Holds j data := by
  constructor
  · intro hnone j hj
    have hlt : j < b.chunks.length := h.places.symm ▸ hj
    cases hdata : b.chunks[j] with
    | none => exact absurd (hdata ▸ List.getElem_mem hlt) hnone
    | some data => exact ⟨data, by rw [Holds, List.getElem?_eq_getElem hlt, hdata]⟩
  · intro hheld hnone
    obtain ⟨j, hj, hdata⟩ := List.mem_iff_getElem.mp hnone
    obtain ⟨data, hholds⟩ := hheld j (h.places ▸ hj)
    rw [Holds, List.getElem?_eq_getElem hj, hdata] at hholds
    cases hholds

theorem kept_ofRow {row : KemBatchRow} (hsize : row.chunkHashes = [] → row.outputs = 0) :
    (ofRow row).Kept keccak256 where
  accepts := List.length_map _
  places := List.length_map _
  txs := List.length_map _
  holds j data h := by
    simp [Holds, ofRow, List.getElem?_replicate] at h
  blank j _ := by
    simp only [ofRow, List.getD_eq_getElem?_getD, List.getElem?_map]
    cases row.chunkHashes[j]? <;> rfl
  whole hnone := by
    have hempty : row.chunkHashes = [] := by
      cases hrow : row.chunkHashes with
      | nil => rfl
      | cons hash hashes => simp [ofRow, hrow] at hnone
    simp [all, ofRow, hempty, hsize hempty]

theorem grows_refl (b : KemBatch) : b.Grows b := ⟨rfl, fun _ h => h, fun _ _ h => h⟩

theorem Grows.trans {b' b'' : KemBatch} (h : b.Grows b') (h' : b'.Grows b'') : b.Grows b'' :=
  ⟨h'.row.trans h.row, fun j hj => h'.accepted j (h.accepted j hj),
    fun j data hj => h'.holds j data (h.holds j data hj)⟩

theorem Shows.attach {row : KemChunkRow} (h : b.Shows row) {i : ℕ} (hne : i ≠ row.chunkIndex)
    (data : Bytes) : (b.attach i data).Shows row :=
  ⟨h.accepted, (List.getElem?_set_ne hne).trans h.data, h.txHash⟩

section Accept

variable {data : Option Bytes} {txHash : Option TxHash}

theorem row_accept (i : ℕ) (data : Option Bytes) (txHash : Option TxHash) (b : KemBatch) :
    (b.accept i data txHash).toKemBatchRow = b.toKemBatchRow := rfl

theorem accepted_accept {i : ℕ} (hi : i < b.acceptedOnChain.length) :
    (b.accept i data txHash).Accepted j ↔ j = i ∨ b.Accepted j := by
  simp only [Accepted, accept, List.getElem?_set, hi]
  by_cases h : j = i
  · simp [h]
  · simp [h, Ne.symm h]

theorem Shows.accept {row : KemChunkRow} (h : b.Shows row) {i : ℕ} (hne : i ≠ row.chunkIndex) :
    (b.accept i data txHash).Shows row :=
  ⟨(List.getElem?_set_ne hne).trans h.accepted, (List.getElem?_set_ne hne).trans h.data,
    (List.getElem?_set_ne hne).trans h.txHash⟩

theorem Kept.shows_accept (h : b.Kept keccak256) {i : ℕ} (hi : i < b.chunkHashes.length) (batchId : ℕ) :
    (b.accept i data txHash).Shows ⟨batchId, i, data, txHash⟩ :=
  ⟨List.getElem?_set_self (h.accepts.symm ▸ hi), List.getElem?_set_self (h.places.symm ▸ hi),
    List.getElem?_set_self (h.txs.symm ▸ hi)⟩

theorem grows_accept {i : ℕ} (hi : i < b.acceptedOnChain.length) (hfresh : ¬ b.Accepted i)
    (h : b.Kept keccak256) : b.Grows (b.accept i data txHash) where
  row := rfl
  accepted j hj := (accepted_accept hi).mpr (.inr hj)
  holds j d hd := by
    have hne : i ≠ j := fun heq => hfresh (heq ▸ (h.holds j d hd).1)
    exact (List.getElem?_set_ne hne).trans hd

theorem kept_accept {i : ℕ} (h : b.Kept keccak256) (hi : i < b.chunkHashes.length)
    (hhash : ∀ d ∈ data, keccak256 d = b.chunkHashes.getD i 0)
    (hwhole : (b.accept i data txHash).Whole) : (b.accept i data txHash).Kept keccak256 where
  accepts := List.length_set.trans h.accepts
  places := List.length_set.trans h.places
  txs := List.length_set.trans h.txs
  holds j d hd := by
    have hin : i < b.acceptedOnChain.length := h.accepts.symm ▸ hi
    by_cases heq : i = j
    · subst heq
      have hdata : data = some d := by
        have hplace : i < b.chunks.length := h.places.symm ▸ hi
        exact Option.some.inj ((List.getElem?_set_self hplace).symm.trans hd)
      refine ⟨(accepted_accept hin).mpr (.inl rfl), ?_⟩
      rw [hhash d hdata]
      exact (List.getElem?_eq_getElem hi).trans (by simp [List.getD_eq_getElem?_getD, hi])
    · have hold : b.Holds j d := (List.getElem?_set_ne heq).symm.trans hd
      exact ⟨(accepted_accept hin).mpr (.inr (h.holds j d hold).1), (h.holds j d hold).2⟩
  blank j hj := by
    rw [accepted_accept (h.accepts.symm ▸ hi), not_or] at hj
    simp only [accept, List.getD_eq_getElem?_getD, List.getElem?_set_ne (Ne.symm hj.1)]
    simpa only [List.getD_eq_getElem?_getD] using h.blank j hj.2
  whole := hwhole

end Accept

theorem row_attach (i : ℕ) (data : Bytes) (b : KemBatch) :
    (b.attach i data).toKemBatchRow = b.toKemBatchRow := rfl

theorem Kept.shows_attach {i : ℕ} {data : Bytes} {row : KemChunkRow} (h : b.Kept keccak256) (hi : b.Accepted i)
    (hplace : row.chunkIndex = i) (hdata : row.data = some data)
    (htx : b.chunkTxHashes[i]? = some row.txHash) : (b.attach i data).Shows row := by
  have hlt : i < b.chunks.length := h.places ▸ h.accepts ▸ (List.getElem?_eq_some_iff.mp hi).1
  subst hplace
  exact ⟨hi, by rw [hdata]; exact List.getElem?_set_self hlt, htx⟩

theorem grows_attach {i : ℕ} {data : Bytes} (hi : b.chunks.getD i none = none) :
    b.Grows (b.attach i data) where
  row := rfl
  accepted _ hj := hj
  holds j d hd := by
    have hne : i ≠ j := by
      rintro rfl
      rw [List.getD_eq_getElem?_getD, hd] at hi
      cases hi
    exact (List.getElem?_set_ne hne).trans hd

theorem kept_attach {i : ℕ} {data : Bytes} (h : b.Kept keccak256) (hi : b.Accepted i)
    (hhash : keccak256 data = b.chunkHashes.getD i 0) (hwhole : (b.attach i data).Whole) :
    (b.attach i data).Kept keccak256 where
  accepts := h.accepts
  places := List.length_set.trans h.places
  txs := h.txs
  holds j d hd := by
    by_cases heq : i = j
    · subst heq
      have hlt : i < b.chunkHashes.length := h.accepts ▸ (List.getElem?_eq_some_iff.mp hi).1
      have hdata : data = d := by
        have hplace : i < b.chunks.length := h.places.symm ▸ hlt
        exact Option.some.inj (Option.some.inj ((List.getElem?_set_self hplace).symm.trans hd))
      refine ⟨hi, ?_⟩
      rw [← hdata, hhash]
      exact (List.getElem?_eq_getElem hlt).trans (by simp [List.getD_eq_getElem?_getD, hlt])
    · exact h.holds j d ((List.getElem?_set_ne heq).symm.trans hd)
  blank := h.blank
  whole := hwhole

end KemBatch

namespace KemChunkStore

variable {k : KemChunkStore} {batchId : ℕ} {b : KemBatch}

theorem batch_some (h : k.batch batchId = some b) : b ∈ k.batches ∧ b.batchId = batchId :=
  ⟨List.mem_of_find?_eq_some h, by simpa using List.find?_some h⟩

theorem batch_none (h : k.batch batchId = none) : batchId ∉ k.batches.map (·.batchId) := by
  intro hmem
  obtain ⟨b, hb, hid⟩ := List.mem_map.mp hmem
  have hnone := List.find?_eq_none.mp h b hb
  exact hnone (by simpa using hid)

section Modify

variable {f : KemBatch → KemBatch} (hf : ∀ b, (f b).toKemBatchRow = b.toKemBatchRow)

include hf

theorem modify_row (b : KemBatch) :
    (if b.batchId = batchId then f b else b).toKemBatchRow = b.toKemBatchRow := by
  split
  · exact hf b
  · rfl

theorem batch_modify (id : ℕ) : (k.modifyBatch batchId f).batch id =
    (k.batch id).map fun b => if b.batchId = batchId then f b else b := by
  have hid : ∀ b : KemBatch, (if b.batchId = batchId then f b else b).batchId = b.batchId :=
    fun b => congrArg (·.batchId) (modify_row hf b)
  simp only [batch, modifyBatch, List.find?_map, Function.comp_def, hid]

theorem rows_modify : (k.modifyBatch batchId f).batches.map (·.toKemBatchRow) =
    k.batches.map (·.toKemBatchRow) := by
  rw [modifyBatch, List.map_map]
  exact List.map_congr_left fun b _ => modify_row hf b

theorem ids_modify : (k.modifyBatch batchId f).batches.map (·.batchId) = k.batches.map (·.batchId) := by
  have hrows : ((k.modifyBatch batchId f).batches.map (·.toKemBatchRow)).map (·.batchId) =
      (k.batches.map (·.toKemBatchRow)).map (·.batchId) := congrArg _ (rows_modify hf)
  simpa only [List.map_map, Function.comp_def] using hrows

end Modify

-- The tables say of the batches what memory says.
structure Mirrors (bs : List KemBatch) (t : KemTables) : Prop where
  rows : t.kemBatches = bs.map (·.toKemBatchRow)
  keys : (t.kemChunks.map KemChunkRow.key).Nodup
  saved : ∀ b ∈ bs, ∀ j, b.Accepted j → (b.batchId, j) ∈ t.kemChunks.map KemChunkRow.key
  shown : ∀ row ∈ t.kemChunks, ∃ b ∈ bs, b.batchId = row.batchId ∧ b.Shows row

def chunksOf (rows : List KemChunkRow) (batchId : ℕ) : List KemChunkRow :=
  rows.filter (·.batchId = batchId)

-- A batch with the rows of its chunks written over it.
def fill (rows : List KemChunkRow) (b : KemBatch) : KemBatch :=
  let mine := chunksOf rows b.batchId
  { b with
    chunks := Table.scatter (·.chunkIndex) (·.data) mine b.chunks
    acceptedOnChain := Table.scatter (·.chunkIndex) (fun _ => true) mine b.acceptedOnChain
    chunkTxHashes := Table.scatter (·.chunkIndex) (·.txHash) mine b.chunkTxHashes }

theorem foldl_bootChunk (rows : List KemChunkRow) (k : KemChunkStore) :
    rows.foldl bootChunk k = { k with batches := k.batches.map (fill rows) } := by
  induction rows generalizing k with
  | nil =>
    have hfill : fill [] = id := funext fun b => rfl
    simp [hfill]
  | cons row rows ih =>
    rw [List.foldl_cons, ih]
    simp only [bootChunk, modifyBatch, List.map_map]
    congr 1
    refine List.map_congr_left fun b _ => ?_
    by_cases hid : row.batchId = b.batchId
    · simp [fill, chunksOf, hid, KemBatch.accept, Table.scatter]
    · simp [fill, chunksOf, hid, Ne.symm hid, Table.scatter]

namespace Mirrors

variable {bs : List KemBatch} {t : KemTables}

theorem places (h : Mirrors bs t) (batchId : ℕ) :
    ((chunksOf t.kemChunks batchId).map (·.chunkIndex)).Nodup := by
  refine List.Nodup.of_map (fun j => (batchId, j)) ?_
  have hsame : ((chunksOf t.kemChunks batchId).map (·.chunkIndex)).map (fun j => (batchId, j)) =
      (chunksOf t.kemChunks batchId).map KemChunkRow.key := by
    rw [List.map_map]
    refine List.map_congr_left fun row hrow => ?_
    have hid : row.batchId = batchId := by simpa using (List.mem_filter.mp hrow).2
    simp [KemChunkRow.key, hid]
  rw [hsame]
  exact (List.filter_sublist.map _).nodup h.keys

theorem shown_by (h : Mirrors bs t) (hids : (bs.map (·.batchId)).Nodup) (hb : b ∈ bs) {row : KemChunkRow}
    (hrow : row ∈ t.kemChunks) (hid : row.batchId = b.batchId) : b.Shows row := by
  obtain ⟨b', hb', hid', hshown⟩ := h.shown row hrow
  rwa [← List.inj_on_of_nodup_map hids hb' hb (hid'.trans hid)]

theorem shown_of (h : Mirrors bs t) (hids : (bs.map (·.batchId)).Nodup) (hb : b ∈ bs) {row : KemChunkRow}
    (hrow : row ∈ chunksOf t.kemChunks b.batchId) : b.Shows row := by
  obtain ⟨hrow, hid⟩ := List.mem_filter.mp hrow
  exact h.shown_by hids hb hrow (by simpa using hid)

theorem rest (h : Mirrors bs t) (hb : b ∈ bs) {j : ℕ}
    (hj : j ∉ (chunksOf t.kemChunks b.batchId).map (·.chunkIndex)) : ¬ b.Accepted j := by
  intro hacc
  obtain ⟨row, hrow, hkey⟩ := List.mem_map.mp (h.saved b hb j hacc)
  obtain ⟨hid, rfl⟩ := Prod.mk.inj hkey
  exact hj (List.mem_map_of_mem (List.mem_filter.mpr ⟨hrow, by simpa using hid⟩))

end Mirrors

theorem getElem?_blank {A : Type} {xs : List A} {hashes : List ℕ} {a : A} {j : ℕ}
    (hlen : xs.length = hashes.length) (hget : xs.getD j a = a) :
    xs[j]? = (hashes.map fun _ => a)[j]? := by
  rw [List.getElem?_map]
  rcases Nat.lt_or_ge j hashes.length with hlt | hge
  · rw [List.getD_eq_getElem?_getD, List.getElem?_eq_getElem (hlen ▸ hlt)] at hget
    rw [List.getElem?_eq_getElem (hlen ▸ hlt), List.getElem?_eq_getElem hlt]
    exact congrArg some hget
  · rw [List.getElem?_eq_none (hlen ▸ hge), List.getElem?_eq_none hge]
    rfl

theorem fill_ofRow {keccak256 : Bytes → ℕ} {bs : List KemBatch} {t : KemTables} (h : Mirrors bs t)
    (hids : (bs.map (·.batchId)).Nodup) (hb : b ∈ bs) (hk : b.Kept keccak256) :
    fill t.kemChunks (.ofRow b.toKemBatchRow) = b := by
  have hplaces := h.places b.batchId
  have hchunks : Table.scatter (·.chunkIndex) (·.data) (chunksOf t.kemChunks b.batchId)
      (b.chunkHashes.map fun _ => none) = b.chunks := by
    refine Table.scatter_eq hplaces (by simp [hk.places])
      (fun row hrow => (h.shown_of hids hb hrow).data) fun j hj => getElem?_blank hk.places ?_
    cases hdata : b.chunks.getD j none with
    | none => rfl
    | some data => exact absurd (hk.holds j data (KemBatch.getD_chunks.mp hdata)).1 (h.rest hb hj)
  have haccepts : Table.scatter (·.chunkIndex) (fun _ => true) (chunksOf t.kemChunks b.batchId)
      (b.chunkHashes.map fun _ => false) = b.acceptedOnChain := by
    refine Table.scatter_eq hplaces (by simp [hk.accepts])
      (fun row hrow => (h.shown_of hids hb hrow).accepted) fun j hj => getElem?_blank hk.accepts ?_
    have hnot := h.rest hb hj
    rwa [← KemBatch.getD_accepted, Bool.not_eq_true] at hnot
  have htxs : Table.scatter (·.chunkIndex) (·.txHash) (chunksOf t.kemChunks b.batchId)
      (b.chunkHashes.map fun _ => none) = b.chunkTxHashes :=
    Table.scatter_eq hplaces (by simp [hk.txs]) (fun row hrow => (h.shown_of hids hb hrow).txHash)
      fun j hj => getElem?_blank hk.txs (hk.blank j (h.rest hb hj))
  exact congr (congr (congrArg (KemBatch.mk b.toKemBatchRow) hchunks) haccepts) htxs

theorem boot_mirrored {keccak256 : Bytes → ℕ} {bs : List KemBatch} {t : KemTables} (h : Mirrors bs t)
    (hids : (bs.map (·.batchId)).Nodup) (hkept : ∀ b ∈ bs, b.Kept keccak256) :
    boot t = ⟨bs, [], [], []⟩ := by
  have hbs : (bs.map (·.toKemBatchRow)).map (fun row => fill t.kemChunks (.ofRow row)) = bs := by
    rw [List.map_map]
    conv_rhs => rw [← List.map_id bs]
    exact List.map_congr_left fun b hb => fill_ofRow h hids hb (hkept b hb)
  rw [boot, foldl_bootChunk, h.rows]
  simp only [empty, List.map_map, KemChunkStore.mk.injEq, and_true]
  simpa only [List.map_map, Function.comp_def] using hbs

section Single

variable {f : KemBatch → KemBatch} (hf : ∀ b, (f b).toKemBatchRow = b.toKemBatchRow)
  (hids : (k.batches.map (·.batchId)).Nodup) (hfound : k.batch batchId = some b)

include hids hfound in
theorem mem_modify {b' : KemBatch} (hb : b' ∈ (k.modifyBatch batchId f).batches) :
    b' = f b ∨ b' ∈ k.batches ∧ b'.batchId ≠ batchId := by
  obtain ⟨old, hold, rfl⟩ := List.mem_map.mp hb
  obtain ⟨hmem, hid⟩ := batch_some hfound
  by_cases heq : old.batchId = batchId
  · rw [if_pos heq, List.inj_on_of_nodup_map hids hold hmem (heq.trans hid.symm)]
    exact .inl rfl
  · rw [if_neg heq]
    exact .inr ⟨hold, heq⟩

include hfound in
theorem modified_mem : f b ∈ (k.modifyBatch batchId f).batches := by
  obtain ⟨hmem, hid⟩ := batch_some hfound
  exact List.mem_map.mpr ⟨b, hmem, if_pos hid⟩

theorem other_mem {b' : KemBatch} (hb : b' ∈ k.batches) (hne : b'.batchId ≠ batchId) :
    b' ∈ (k.modifyBatch batchId f).batches :=
  List.mem_map.mpr ⟨b', hb, if_neg hne⟩

include hf hids hfound in
-- One batch changes, and the rows of its chunks with it.
theorem Mirrors.modify {t : KemTables} {rows : List KemChunkRow} (h : Mirrors k.batches t)
    (hkeys : (rows.map KemChunkRow.key).Nodup)
    (hold : ∀ key ∈ t.kemChunks.map KemChunkRow.key, key ∈ rows.map KemChunkRow.key)
    (hsaved : ∀ j, (f b).Accepted j → (batchId, j) ∈ rows.map KemChunkRow.key)
    (hshown : ∀ row ∈ rows, row.batchId = batchId ∧ (f b).Shows row ∨
      row.batchId ≠ batchId ∧ row ∈ t.kemChunks) :
    Mirrors (k.modifyBatch batchId f).batches ⟨t.kemBatches, rows⟩ where
  rows := h.rows.trans (rows_modify hf).symm
  keys := hkeys
  saved b' hb j hj := by
    have hid : (f b).batchId = batchId :=
      (congrArg (·.batchId) (hf b)).trans (batch_some hfound).2
    rcases mem_modify hids hfound hb with rfl | ⟨hb, -⟩
    · exact hid.symm ▸ hsaved j hj
    · exact hold _ (h.saved b' hb j hj)
  shown row hrow := by
    rcases hshown row hrow with ⟨hid, hshows⟩ | ⟨hne, hrow⟩
    · have hfid : (f b).batchId = batchId :=
        (congrArg (·.batchId) (hf b)).trans (batch_some hfound).2
      exact ⟨f b, modified_mem hfound, hfid.trans hid.symm, hshows⟩
    · obtain ⟨b', hb', hid, hshows⟩ := h.shown row hrow
      exact ⟨b', other_mem hb' (hid ▸ hne), hid, hshows⟩

end Single

-- What a call does to the store: nothing to the batches, a new batch, a chunk accepted, or the bytes of
-- an accepted chunk.
inductive Effect (keccak256 : Bytes → ℕ) (k : KemChunkStore) : KemChunkStore → Prop
  | silent (k' : KemChunkStore) (batches : k'.batches = k.batches)
      (batchRows : k'.pendingBatchRows = k.pendingBatchRows)
      (chunkRows : k'.pendingChunkRows = k.pendingChunkRows) : Effect keccak256 k k'
  | recorded (row : KemBatchRow) (seen : List OpKey) (fresh : k.batch row.batchId = none)
      (size : row.chunkHashes = [] → row.outputs = 0) :
      Effect keccak256 k ⟨k.batches ++ [.ofRow row], seen, k.pendingBatchRows ++ [row], k.pendingChunkRows⟩
  | accepted (b : KemBatch) (c : ChunkAccept) (found : k.batch c.batchId = some b)
      (room : c.chunkIndex < b.chunkHashes.length) (fresh : ¬ b.Accepted c.chunkIndex)
      (hash : ∀ data ∈ c.data, keccak256 data = b.chunkHashes.getD c.chunkIndex 0)
      (whole : (b.accept c.chunkIndex c.data (some c.txHash)).Whole) :
      Effect keccak256 k ((k.see (c.txHash, c.logIndex)).acceptRow c)
  | attached (b : KemBatch) (batchId chunkIndex : ℕ) (data : Bytes) (found : k.batch batchId = some b)
      (accepted : b.Accepted chunkIndex) (blank : b.chunks.getD chunkIndex none = none)
      (hash : keccak256 data = b.chunkHashes.getD chunkIndex 0) (whole : (b.attach chunkIndex data).Whole) :
      Effect keccak256 k (k.attachRow batchId chunkIndex data (b.chunkTxHashes.getD chunkIndex none))

section Effect

variable {keccak256 : Bytes → ℕ} {w : KemWorld}

theorem effect_recordBatch {logIndex : ℕ} {row : KemBatchRow}
    (h : w.Intact keccak256 (.recordBatch logIndex row)) :
    Effect keccak256 w.store (w.store.recordBatch logIndex row) := by
  unfold recordBatch
  split
  · exact .silent _ rfl rfl rfl
  · next hnew =>
    rw [not_or, Option.not_isSome_iff_eq_none] at hnew
    exact .recorded row _ hnew.2 (h hnew.1 hnew.2)

theorem effect_acceptChunk {c : ChunkAccept} (h : w.Intact keccak256 (.acceptChunk c)) :
    ∃ k', w.store.acceptChunk keccak256 c = .returned k' ∧ Effect keccak256 w.store k' := by
  unfold acceptChunk
  split
  · exact ⟨_, rfl, .silent _ rfl rfl rfl⟩
  · next hseen =>
    have hkept : (w.store.see (c.txHash, c.logIndex)).batch c.batchId = w.store.batch c.batchId := rfl
    dsimp only
    rw [hkept]
    cases hfound : w.store.batch c.batchId with
    | none => exact ⟨_, rfl, .silent _ rfl rfl rfl⟩
    | some b =>
      dsimp only
      split
      · exact ⟨_, rfl, .silent _ rfl rfl rfl⟩
      · next hroom =>
        split
        · exact ⟨_, rfl, .silent _ rfl rfl rfl⟩
        · next hfresh =>
          have hroom := Nat.lt_of_not_le hroom
          obtain ⟨hhash, hwhole⟩ := h b hfound ⟨hseen, hroom, by simpa using hfresh⟩
          rw [KemBatch.getD_accepted] at hfresh
          split
          · next hbad =>
            cases hdata : c.data with
            | none => simp [hdata] at hbad
            | some data => simp [hdata, hhash data hdata] at hbad
          · exact ⟨_, rfl, .accepted b c hfound hroom hfresh hhash hwhole⟩

theorem effect_attachChunkData {batchId chunkIndex : ℕ} {data : Bytes}
    (h : w.Intact keccak256 (.attachChunkData batchId chunkIndex data)) :
    Effect keccak256 w.store (w.store.attachChunkData keccak256 batchId chunkIndex data).state := by
  unfold attachChunkData
  cases hfound : w.store.batch batchId with
  | none => exact .silent _ rfl rfl rfl
  | some b =>
    dsimp only
    split
    · exact .silent _ rfl rfl rfl
    · next hblank =>
      rw [not_or, Bool.not_eq_false, not_not] at hblank
      split
      · exact .silent _ rfl rfl rfl
      · next hhash =>
        have hhash := not_not.mp hhash
        exact .attached b batchId chunkIndex data hfound (KemBatch.getD_accepted.mp hblank.1) hblank.2 hhash
          (h b hfound hblank.1 hblank.2 hhash)

end Effect

theorem upsertChunk_new {rows : List KemChunkRow} {row : KemChunkRow}
    (h : row.key ∉ rows.map KemChunkRow.key) : upsertChunk rows row = rows ++ [row] := if_neg h

theorem upsertChunk_known {rows : List KemChunkRow} {row : KemChunkRow}
    (h : row.key ∈ rows.map KemChunkRow.key) : upsertChunk rows row =
      Table.update (fun old => decide (old.key = row.key)) row.over rows := if_pos h

theorem flushInto_acceptRow {c : ChunkAccept} {key : OpKey} {t : KemTables} :
    ((k.see key).acceptRow c).flushInto t = { k.flushInto t with
      kemChunks := upsertChunk (k.flushInto t).kemChunks ⟨c.batchId, c.chunkIndex, c.data, some c.txHash⟩ } := by
  simp [flushInto, acceptRow, modifyBatch, see]

theorem flushInto_attachRow {batchId chunkIndex : ℕ} {data : Bytes} {txHash : Option TxHash} {t : KemTables} :
    (k.attachRow batchId chunkIndex data txHash).flushInto t = { k.flushInto t with
      kemChunks := upsertChunk (k.flushInto t).kemChunks ⟨batchId, chunkIndex, some data, txHash⟩ } := by
  simp [flushInto, attachRow, modifyBatch]

end KemChunkStore

namespace KemWorld

open KemChunkStore

variable {keccak256 : Bytes → ℕ}

-- What holds between memory with its write buffers and the tables.
structure Inv (keccak256 : Bytes → ℕ) (w : KemWorld) : Prop where
  kept : ∀ b ∈ w.store.batches, b.Kept keccak256
  ids : (w.store.batches.map (·.batchId)).Nodup
  mirrors : Mirrors w.store.batches (w.store.flushInto w.tables)

theorem inv_empty : Inv keccak256 empty where
  kept _ hb := by simp [empty, KemChunkStore.empty] at hb
  ids := List.nodup_nil
  mirrors := ⟨rfl, List.nodup_nil, fun _ hb => by simp [empty, KemChunkStore.empty] at hb,
    fun _ hrow => by simp [flushInto, empty, KemChunkStore.empty, KemTables.empty] at hrow⟩

theorem inv_recorded {w : KemWorld} (h : w.Inv keccak256) {row : KemBatchRow} (seen : List OpKey)
    (hfresh : w.store.batch row.batchId = none) (hsize : row.chunkHashes = [] → row.outputs = 0) :
    Inv keccak256 ⟨⟨w.store.batches ++ [.ofRow row], seen, w.store.pendingBatchRows ++ [row],
      w.store.pendingChunkRows⟩, w.tables⟩ := by
  have hnew : row.batchId ∉ w.store.batches.map (·.batchId) := batch_none hfresh
  refine ⟨fun b hb => ?_, ?_, ?_, h.mirrors.keys, fun b hb j hj => ?_, fun r hr => ?_⟩
  · rcases List.mem_append.mp hb with hb | hb
    · exact h.kept b hb
    · rw [List.mem_singleton.mp hb]
      exact KemBatch.kept_ofRow hsize
  · rw [List.map_append, List.nodup_append_comm]
    exact List.nodup_cons.mpr ⟨hnew, h.ids⟩
  · have hrow : row.batchId ∉ (w.store.flushInto w.tables).kemBatches.map (·.batchId) := by
      rw [h.mirrors.rows, List.map_map]
      exact hnew
    change Table.insertAll (·.batchId) w.tables.kemBatches (w.store.pendingBatchRows ++ [row]) = _
    rw [Table.insertAll_append, Table.insertAll_cons, Table.insertAll_nil, List.map_append,
      ← h.mirrors.rows]
    exact Table.insert_of_not_mem hrow
  · rcases List.mem_append.mp hb with hb | hb
    · exact h.mirrors.saved b hb j hj
    · rw [List.mem_singleton.mp hb] at hj
      simp [KemBatch.Accepted, KemBatch.ofRow, List.getElem?_replicate] at hj
  · obtain ⟨b, hb, hshows⟩ := h.mirrors.shown r hr
    exact ⟨b, List.mem_append_left _ hb, hshows⟩

section Chunk

variable {w : KemWorld} {b : KemBatch}

theorem inv_modify {f : KemBatch → KemBatch} {k' : KemChunkStore} {batchId : ℕ} (h : w.Inv keccak256)
    (hf : ∀ b, (f b).toKemBatchRow = b.toKemBatchRow) (hfound : w.store.batch batchId = some b)
    (hkept : (f b).Kept keccak256) (hbatches : k'.batches = (w.store.modifyBatch batchId f).batches)
    (hmirrors : Mirrors (w.store.modifyBatch batchId f).batches (k'.flushInto w.tables)) :
    Inv keccak256 ⟨k', w.tables⟩ where
  kept b' hb' := by
    rcases mem_modify h.ids hfound (hbatches ▸ hb') with rfl | ⟨hb', -⟩
    · exact hkept
    · exact h.kept b' hb'
  ids := by
    change (k'.batches.map (·.batchId)).Nodup
    rw [hbatches, ids_modify hf]
    exact h.ids
  mirrors := by
    change Mirrors k'.batches _
    rw [hbatches]
    exact hmirrors

theorem row_of_key (h : w.Inv keccak256) {batchId chunkIndex : ℕ} (hfound : w.store.batch batchId = some b)
    {row : KemChunkRow} (hrow : row ∈ (w.store.flushInto w.tables).kemChunks)
    (hkey : row.key = (batchId, chunkIndex)) : row.chunkIndex = chunkIndex ∧ b.Shows row := by
  obtain ⟨hmem, hid⟩ := batch_some hfound
  obtain ⟨hrid, hplace⟩ := Prod.mk.inj hkey
  exact ⟨hplace, h.mirrors.shown_by h.ids hmem hrow (hrid.trans hid.symm)⟩

theorem inv_accepted (h : w.Inv keccak256) {c : ChunkAccept} (hfound : w.store.batch c.batchId = some b)
    (hroom : c.chunkIndex < b.chunkHashes.length) (hfresh : ¬ b.Accepted c.chunkIndex)
    (hhash : ∀ data ∈ c.data, keccak256 data = b.chunkHashes.getD c.chunkIndex 0)
    (hwhole : (b.accept c.chunkIndex c.data (some c.txHash)).Whole) :
    Inv keccak256 ⟨(w.store.see (c.txHash, c.logIndex)).acceptRow c, w.tables⟩ := by
  obtain ⟨hmem, hid⟩ := batch_some hfound
  have hk := h.kept b hmem
  have hrow : (c.batchId, c.chunkIndex) ∉ (w.store.flushInto w.tables).kemChunks.map KemChunkRow.key := by
    intro hin
    obtain ⟨row, hrow, hkey⟩ := List.mem_map.mp hin
    obtain ⟨hplace, hshows⟩ := row_of_key h hfound hrow hkey
    exact hfresh (hplace ▸ hshows.accepted)
  refine inv_modify h (KemBatch.row_accept _ _ _) hfound (KemBatch.kept_accept hk hroom hhash hwhole) rfl ?_
  rw [flushInto_acceptRow, upsertChunk_new hrow]
  refine h.mirrors.modify (KemBatch.row_accept _ _ _) h.ids hfound ?_ (fun key hkey => ?_) (fun j hj => ?_)
    fun row hin => ?_
  · rw [List.map_append, List.nodup_append_comm]
    exact List.nodup_cons.mpr ⟨hrow, h.mirrors.keys⟩
  · rw [List.map_append]
    exact List.mem_append_left _ hkey
  · rw [List.map_append, List.mem_append]
    rcases (KemBatch.accepted_accept (hk.accepts.symm ▸ hroom)).mp hj with rfl | hj
    · exact .inr (List.mem_singleton.mpr rfl)
    · exact .inl (hid ▸ h.mirrors.saved b hmem j hj)
  · rcases List.mem_append.mp hin with hin | hin
    · by_cases hrid : row.batchId = c.batchId
      · have hshows := h.mirrors.shown_by h.ids hmem hin (hrid.trans hid.symm)
        exact .inl ⟨hrid, hshows.accept fun hplace => hfresh (hplace ▸ hshows.accepted)⟩
      · exact .inr ⟨hrid, hin⟩
    · rw [List.mem_singleton.mp hin]
      exact .inl ⟨rfl, hk.shows_accept hroom _⟩

theorem inv_attached (h : w.Inv keccak256) {batchId chunkIndex : ℕ} {data : Bytes}
    (hfound : w.store.batch batchId = some b) (hacc : b.Accepted chunkIndex)
    (hhash : keccak256 data = b.chunkHashes.getD chunkIndex 0) (hwhole : (b.attach chunkIndex data).Whole) :
    Inv keccak256
      ⟨w.store.attachRow batchId chunkIndex data (b.chunkTxHashes.getD chunkIndex none), w.tables⟩ := by
  obtain ⟨hmem, hid⟩ := batch_some hfound
  have hk := h.kept b hmem
  have hrow : (batchId, chunkIndex) ∈ (w.store.flushInto w.tables).kemChunks.map KemChunkRow.key :=
    hid ▸ h.mirrors.saved b hmem chunkIndex hacc
  refine inv_modify h (KemBatch.row_attach _ _) hfound (KemBatch.kept_attach hk hacc hhash hwhole) rfl ?_
  rw [flushInto_attachRow, upsertChunk_known hrow]
  have hkeys : ∀ row cond, (Table.update cond (KemChunkRow.over row)
      (w.store.flushInto w.tables).kemChunks).map KemChunkRow.key =
        (w.store.flushInto w.tables).kemChunks.map KemChunkRow.key :=
    fun row cond => Table.map_update fun _ => rfl
  refine h.mirrors.modify (KemBatch.row_attach _ _) h.ids hfound ?_ (fun key hkey => ?_) (fun j hj => ?_)
    fun row hin => ?_
  · rw [hkeys]
    exact h.mirrors.keys
  · rw [hkeys]
    exact hkey
  · rw [hkeys]
    exact hid ▸ h.mirrors.saved b hmem j hj
  · obtain ⟨old, hold, ⟨hkey, rfl⟩ | ⟨hkey, rfl⟩⟩ := Table.mem_update hin
    · have hkey : old.key = (batchId, chunkIndex) := of_decide_eq_true hkey
      obtain ⟨hplace, hshows⟩ := row_of_key h hfound hold hkey
      have htx : b.chunkTxHashes[chunkIndex]? = some old.txHash := hplace ▸ hshows.txHash
      refine .inl ⟨(Prod.mk.inj hkey).1, hk.shows_attach hacc hplace rfl ?_⟩
      rw [htx, KemChunkRow.over, List.getD_eq_getElem?_getD, htx]
      cases old.txHash <;> rfl
    · by_cases hrid : row.batchId = batchId
      · have hshows := h.mirrors.shown_by h.ids hmem hold (hrid.trans hid.symm)
        refine .inl ⟨hrid, hshows.attach (fun hplace => ?_) data⟩
        exact of_decide_eq_false hkey (Prod.ext hrid hplace.symm)
      · exact .inr ⟨hrid, hold⟩

end Chunk

theorem inv_effect {w : KemWorld} {k' : KemChunkStore} (h : w.Inv keccak256)
    (he : Effect keccak256 w.store k') : Inv keccak256 ⟨k', w.tables⟩ := by
  cases he with
  | silent _ hbatches hrows hchunks =>
    have hflush : k'.flushInto w.tables = w.store.flushInto w.tables := by
      simp only [flushInto, hrows, hchunks]
    exact ⟨hbatches ▸ h.kept, hbatches ▸ h.ids, hflush.symm ▸ hbatches ▸ h.mirrors⟩
  | recorded row seen hfresh hsize => exact inv_recorded h seen hfresh hsize
  | accepted b c hfound hroom hfresh hhash hwhole => exact inv_accepted h hfound hroom hfresh hhash hwhole
  | attached b batchId chunkIndex data hfound hacc hblank hhash hwhole =>
    exact inv_attached h hfound hacc hhash hwhole

theorem inv_boot {w : KemWorld} (h : w.Inv keccak256) (hidle : w.Intact keccak256 .boot) :
    KemChunkStore.boot w.tables = ⟨w.store.batches, [], [], []⟩ := by
  obtain ⟨hbatches, hchunks⟩ := hidle
  have hflush : w.store.flushInto w.tables = w.tables := by
    simp [flushInto, hbatches, hchunks]
  exact boot_mirrored (hflush ▸ h.mirrors) h.ids h.kept

theorem inv_step (w : KemWorld) (e : KemEvent) (h : w.Inv keccak256) (he : w.Intact keccak256 e) :
    (w.step keccak256 e).Inv keccak256 := by
  cases e with
  | recordBatch logIndex row => exact inv_effect h (effect_recordBatch he)
  | acceptChunk c =>
    obtain ⟨k', hreturned, heffect⟩ := effect_acceptChunk he
    simp only [step, hreturned, Run.state_returned]
    exact inv_effect h heffect
  | attachChunkData batchId chunkIndex data => exact inv_effect h (effect_attachChunkData he)
  | flush => exact ⟨h.kept, h.ids, h.mirrors⟩
  | boot =>
    have hflush : w.store.flushInto w.tables = w.tables := by
      simp [flushInto, he.1, he.2]
    simp only [step, inv_boot h he]
    exact ⟨h.kept, h.ids, hflush ▸ h.mirrors⟩

def Grows (w w' : KemWorld) : Prop := ∀ batchId b, w.store.batch batchId = some b →
  ∃ b', w'.store.batch batchId = some b' ∧ b.Grows b'

theorem grows_refl (w : KemWorld) : w.Grows w := fun _ b hb => ⟨b, hb, b.grows_refl⟩

theorem Grows.trans {w w' w'' : KemWorld} (h : w.Grows w') (h' : w'.Grows w'') : w.Grows w'' := by
  intro batchId b hb
  obtain ⟨b', hb', hgrows⟩ := h batchId b hb
  obtain ⟨b'', hb'', hgrows'⟩ := h' batchId b' hb'
  exact ⟨b'', hb'', hgrows.trans hgrows'⟩

theorem grows_batches {w w' : KemWorld} (h : w'.store.batches = w.store.batches) : w.Grows w' := by
  intro batchId b hb
  exact ⟨b, by rw [batch, h]; exact hb, b.grows_refl⟩

theorem grows_modify {w w' : KemWorld} {batchId : ℕ} {b : KemBatch} {f : KemBatch → KemBatch}
    (hf : ∀ b, (f b).toKemBatchRow = b.toKemBatchRow) (hfound : w.store.batch batchId = some b)
    (hgrows : b.Grows (f b)) (h : w'.store.batches = (w.store.modifyBatch batchId f).batches) :
    w.Grows w' := by
  intro id b' hb'
  have hlook : w'.store.batch id = (w.store.modifyBatch batchId f).batch id := by
    rw [batch, h]
    rfl
  rw [hlook, batch_modify hf, hb', Option.map_some]
  refine ⟨_, rfl, ?_⟩
  split
  · next hid =>
    obtain rfl : b' = b := by
      rw [← (batch_some hb').2, hid, hfound] at hb'
      exact (Option.some.inj hb').symm
    exact hgrows
  · exact b'.grows_refl

theorem grows_effect {w : KemWorld} {k' : KemChunkStore} (h : w.Inv keccak256)
    (he : Effect keccak256 w.store k') : w.Grows ⟨k', w.tables⟩ := by
  cases he with
  | silent _ hbatches _ _ => exact grows_batches hbatches
  | recorded row seen hfresh hsize =>
    intro batchId b hb
    refine ⟨b, ?_, b.grows_refl⟩
    change (w.store.batches ++ [_]).find? _ = some b
    rw [List.find?_append]
    exact Option.or_eq_some_iff.mpr (.inl hb)
  | accepted b c hfound hroom hfresh hhash hwhole =>
    have hk := h.kept b (batch_some hfound).1
    exact grows_modify (KemBatch.row_accept _ _ _) hfound
      (KemBatch.grows_accept (hk.accepts.symm ▸ hroom) hfresh hk) rfl
  | attached b batchId chunkIndex data hfound hacc hblank hhash hwhole =>
    exact grows_modify (KemBatch.row_attach _ _) hfound (KemBatch.grows_attach hblank) rfl

theorem grows_step (w : KemWorld) (e : KemEvent) (h : w.Inv keccak256) (he : w.Intact keccak256 e) :
    w.Grows (w.step keccak256 e) := by
  cases e with
  | recordBatch logIndex row => exact grows_effect h (effect_recordBatch he)
  | acceptChunk c =>
    obtain ⟨k', hreturned, heffect⟩ := effect_acceptChunk he
    simp only [step, hreturned, Run.state_returned]
    exact grows_effect h heffect
  | attachChunkData batchId chunkIndex data => exact grows_effect h (effect_attachChunkData he)
  | flush => exact grows_batches rfl
  | boot => exact grows_batches (by simp only [step, inv_boot h he])

end KemWorld

namespace SentBy

variable {keccak256 : Bytes → ℕ} {batchSize chunkArity : ℕ} {cts : List Bytes}

theorem covers (hpos : 0 < chunkArity) :
    batchSize ≤ chunkCount batchSize chunkArity * chunkArity := by
  have hlt : batchSize + chunkArity - 1 <
      chunkCount batchSize chunkArity * chunkArity + chunkArity := Nat.lt_div_mul_add hpos
  omega

-- The last chunk takes what the others leave, which is no more than a whole chunk.
theorem split_eq (hpos : 0 < chunkArity) (hcount : cts.length = batchSize) :
    splitChunks batchSize chunkArity cts =
      (Blocks.split chunkArity (chunkCount batchSize chunkArity) cts).map List.flatten := by
  rw [splitChunks, Blocks.split, List.map_map]
  refine List.map_congr_left fun j hj => congrArg List.flatten ?_
  rw [chunkArityOf]
  split
  · next hlast =>
    have hlt : j < chunkCount batchSize chunkArity := List.mem_range.mp hj
    have hsucc : chunkCount batchSize chunkArity * chunkArity = j * chunkArity + chunkArity := by
      rw [show chunkCount batchSize chunkArity = j + 1 by omega, Nat.add_one_mul]
    have hcovers : batchSize ≤ chunkCount batchSize chunkArity * chunkArity := covers hpos
    have hlen : (cts.drop (j * chunkArity)).length = batchSize - j * chunkArity := by
      rw [List.length_drop, hcount]
    rw [← hlast, List.take_of_length_le hlen.le]
    exact (List.take_of_length_le (by omega)).symm
  · rfl

theorem all_eq (hpos : 0 < chunkArity) (hcount : cts.length = batchSize) :
    (splitChunks batchSize chunkArity cts).flatten = cts.flatten := by
  rw [split_eq hpos hcount, ← List.flatten_flatten, Blocks.flatten_split,
    List.take_of_length_le (hcount.trans_le (covers hpos))]

variable {b : KemBatch}

-- Bytes that hash to what was committed are the sender's.
theorem chunks_eq (h : SentBy keccak256 batchSize chunkArity cts b.toKemBatchRow) (hk : b.Kept keccak256)
    (hheld : none ∉ b.chunks) : b.all = cts.flatten := by
  have hchunks : b.chunks = (splitChunks batchSize chunkArity cts).map some := by
    refine List.ext_getElem (by rw [hk.places, h.hashes]; simp) fun j hj _ => ?_
    cases hdata : b.chunks[j] with
    | none => exact absurd (hdata ▸ List.getElem_mem hj) hheld
    | some data =>
      obtain ⟨-, hhash⟩ := hk.holds j data (by rw [KemBatch.Holds, List.getElem?_eq_getElem hj, hdata])
      rw [h.hashes, List.getElem?_map, Option.map_eq_some_iff] at hhash
      obtain ⟨chunk, hchunk, hhash⟩ := hhash
      rw [List.getElem_map, h.binding chunk (List.mem_of_getElem? hchunk) data hhash.symm,
        (List.getElem?_eq_some_iff.mp hchunk).2]
  rw [KemBatch.all, hchunks, List.map_map, ← all_eq h.arity.1 h.count]
  simp [Function.comp_def]

theorem assembled_iff {k : KemChunkStore} {batchId : ℕ}
    (h : SentBy keccak256 batchSize chunkArity cts b.toKemBatchRow) (hk : b.Kept keccak256)
    (hfound : k.batch batchId = some b) (l : List Bytes) : k.assembled batchId = .ok (some l) ↔
      (∀ j < b.chunkHashes.length, ∃ data, b.Holds j data) ∧ l = cts := by
  rw [← hk.whole_held, KemChunkStore.assembled, hfound]
  dsimp only
  by_cases hheld : none ∈ b.chunks
  · rw [if_pos hheld]
    simp [hheld]
  · have hall := h.chunks_eq hk hheld
    have hlen : b.all.length = b.outputs * kemCtBytes := by
      rw [hall, Blocks.length_flatten h.lengths, h.count, h.outputs]
    have hsplit : Blocks.split kemCtBytes b.outputs b.all = cts := by
      have hblocks := Blocks.split_flatten h.lengths []
      rwa [List.append_nil, h.count, ← h.outputs, ← hall] at hblocks
    rw [if_neg hheld, if_neg (not_not.mpr hlen), hsplit]
    simp [hheld, eq_comm]

end SentBy

namespace KemWorld

open KemChunkStore

variable {keccak256 : Bytes → ℕ}

theorem Inv.reads {w : KemWorld} (h : w.Inv keccak256) {batchId : ℕ} {b : KemBatch}
    (hfound : w.store.batch batchId = some b) (nowSeconds graceSeconds : ℤ) :
    (∃ s, w.store.status batchId nowSeconds graceSeconds = .ok s) ∧
    ∃ x, w.store.projection batchId nowSeconds graceSeconds = .ok x := by
  have hstatus : ∃ s, w.store.status batchId nowSeconds graceSeconds = .ok s := by
    rw [status, hfound]
    dsimp only
    split
    · exact ⟨_, rfl⟩
    · split
      · exact ⟨_, rfl⟩
      · split <;> exact ⟨_, rfl⟩
  have hassembled : ∃ l, w.store.assembled batchId = .ok l := by
    rw [assembled, hfound]
    dsimp only
    split
    · exact ⟨_, rfl⟩
    · next hheld =>
      rw [if_neg (not_not.mpr ((h.kept b (batch_some hfound).1).whole hheld))]
      exact ⟨_, rfl⟩
  refine ⟨hstatus, ?_⟩
  obtain ⟨s, hs⟩ := hstatus
  obtain ⟨l, hl⟩ := hassembled
  rw [projection, hfound]
  dsimp only
  rw [hl, hs]
  exact ⟨_, rfl⟩

-- Chunks and their bytes only grow, a complete batch reads back as the sender's ciphertexts, no call
-- throws and no read does, in every run whose calls leave the store intact.
theorem kem_chunks_sound (keccak256 : Bytes → ℕ) (es : List KemEvent)
    (h : Trace.Throughout (step keccak256) (Intact keccak256) empty es) : Sound keccak256 es := by
  have hparts : ∀ pre post, pre ++ post = es → (run keccak256 pre).Inv keccak256 ∧
      Trace.Throughout (step keccak256) (Intact keccak256) (run keccak256 pre) post := by
    rintro pre post rfl
    obtain ⟨hpre, hpost⟩ := Trace.throughout_append.mp h
    exact ⟨Trace.inv_run inv_step inv_empty hpre, hpost⟩
  have hinv : (run keccak256 es).Inv keccak256 := (hparts es [] (List.append_nil _)).1
  have hkept : ∀ {batchId b}, (run keccak256 es).store.batch batchId = some b → b.Kept keccak256 :=
    fun hfound => hinv.kept _ (batch_some hfound).1
  constructor
  case grows =>
    rintro pre post rfl
    obtain ⟨hpre, hpost⟩ := hparts pre post rfl
    have hrun : run keccak256 (pre ++ post) = post.foldl (step keccak256) (run keccak256 pre) :=
      List.foldl_append
    rw [hrun]
    exact Trace.grows_run grows_refl Grows.trans inv_step grows_step hpre hpost
  case hashes =>
    intro batchId b hfound j data hholds
    exact ((hkept hfound).holds j data hholds).2
  case assembled =>
    intro batchId b hfound batchSize chunkArity cts hsent l
    exact hsent.assembled_iff (hkept hfound) hfound l
  case restored =>
    intro pre c post hes e k hthrew
    obtain ⟨-, hintact, -⟩ := hparts pre (.acceptChunk c :: post) hes
    obtain ⟨k', hreturned, -⟩ := effect_acceptChunk hintact
    rw [hreturned] at hthrew
    cases hthrew
  case reads =>
    intro batchId b hfound nowSeconds graceSeconds
    exact hinv.reads hfound nowSeconds graceSeconds

def sampleHash (data : Bytes) : ℕ := data.foldl (fun n byte => 256 * n + byte.toNat) 1

def sampleCt : Bytes := List.replicate kemCtBytes 7

def sampleRow : KemBatchRow := ⟨16, 5, 100, [sampleHash sampleCt], 1000, 1⟩

def sampleAccept (data : Option Bytes) : ChunkAccept := ⟨16, 0, data, 101, 0⟩

-- The chunk comes through a wrapper the decoder cannot open, is fetched again at boot and delivered twice.
def sampleRun : List KemEvent :=
  [.recordBatch 3 sampleRow, .acceptChunk (sampleAccept none), .flush, .boot,
    .attachChunkData 16 0 sampleCt, .flush, .acceptChunk (sampleAccept (some sampleCt)), .boot]

theorem kem_chunks_sound_sample : Sound sampleHash sampleRun :=
  kem_chunks_sound sampleHash sampleRun (by decide +kernel)

-- A wrapper's calldata decodes as a submission of other bytes: the call throws with the log marked, and
-- the delivery with the right bytes is dropped.
theorem kem_chunks_not_sound : ¬ Sound sampleHash
    [.recordBatch 3 sampleRow, .acceptChunk (sampleAccept (some [1])),
      .acceptChunk (sampleAccept (some sampleCt))] := by
  intro h
  obtain ⟨hsame, -⟩ := h.restored [.recordBatch 3 sampleRow] (sampleAccept (some [1]))
    [.acceptChunk (sampleAccept (some sampleCt))] rfl (.chunkHash 16 0)
    ((run sampleHash [.recordBatch 3 sampleRow]).store.see (101, 0)) (by decide +kernel)
  have hseen := congrArg KemChunkStore.seen hsame
  revert hseen
  decide

end KemWorld

end Bongtu.Indexer
