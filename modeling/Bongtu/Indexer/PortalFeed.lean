import Bongtu.Indexer.Portal

namespace Bongtu.Indexer

open Bongtu.Core (TxHash)

open Evm (Address)

-- A call of `issue` at its awaited insert, which has committed or not yet.
structure IssueCall where
  record : PortalRecord
  committed : Bool
deriving DecidableEq, Repr

-- The registry and its table, the salts of the Swept logs ingested so far, and the numbers a polling
-- client has received. The ingest is inside its transaction while `persisting`.
structure PortalWorld where
  registry : PortalRegistry
  rows : List PortalRecord
  waiting : List IssueCall
  persisting : Bool
  sweptSalts : List ℕ
  received : List ℕ

inductive PortalEvent where
  | issue (fields : PortalIssuanceFields) (nowSeconds : ℕ)
  | insert (seq : ℕ)
  | resume (seq : ℕ)
  | fail (seq : ℕ)
  | markSwept (salt : ℕ) (txHash : TxHash) (amount : ℕ)
  | recordChainAnnouncement (a : ChainAnnouncement)
  | flush
  | commitFlush
  | poll (limit : ℕ)
deriving DecidableEq, Repr

namespace PortalWorld

def empty : PortalWorld := ⟨.empty, [], [], false, [], []⟩

def call (w : PortalWorld) (seq : ℕ) (committed : Bool) : Option IssueCall :=
  w.waiting.find? fun c => c.record.seq = seq ∧ c.committed = committed

def leave (w : PortalWorld) (seq : ℕ) : PortalWorld :=
  { w with waiting := w.waiting.filter (·.record.seq ≠ seq) }

-- A call whose address is recorded has drawn its number all the same.
def issue (w : PortalWorld) (fields : PortalIssuanceFields) (nowSeconds : ℕ) : PortalWorld :=
  if w.registry.hasStealth fields.stealthAddr then { w with registry := w.registry.draw }
  else { w with
    registry := w.registry.draw
    waiting := w.waiting ++ [⟨w.registry.draft fields nowSeconds, false⟩] }

-- The statement, under the table's two unique keys.
def insert (w : PortalWorld) (c : IssueCall) : PortalWorld :=
  if c.record.seq ∈ w.rows.map (·.seq) ∨ c.record.stealthAddr ∈ w.rows.map (·.stealthAddr) then
    w.leave c.record.seq
  else { w with
    rows := w.rows ++ [c.record]
    waiting := w.waiting.map fun d =>
      if d.record.seq = c.record.seq then { d with committed := true } else d }

def resume (w : PortalWorld) (c : IssueCall) : PortalWorld :=
  { w.leave c.record.seq with registry := w.registry.index c.record }

-- The client's cursor.
def cursor (w : PortalWorld) : ℤ := w.received.foldl (fun (m : ℤ) (seq : ℕ) => max m seq) (-1)

def poll (w : PortalWorld) (limit : ℕ) : PortalWorld :=
  { w with received := w.received ++ (w.registry.list w.cursor (some limit)).map (·.seq) }

def step (w : PortalWorld) : PortalEvent → PortalWorld
  | .issue fields nowSeconds => w.issue fields nowSeconds
  | .insert seq => (w.call seq false).elim w w.insert
  | .resume seq => (w.call seq true).elim w w.resume
  | .fail seq => w.leave seq
  | .markSwept salt txHash amount =>
    if w.persisting then w
    else { w with
      registry := w.registry.markSwept salt txHash amount
      sweptSalts := w.sweptSalts ++ [salt] }
  | .recordChainAnnouncement a =>
    if w.persisting then w else { w with registry := w.registry.recordChainAnnouncement a }
  | .flush =>
    if w.persisting then w else { w with rows := w.registry.flushInto w.rows, persisting := true }
  | .commitFlush =>
    if w.persisting then { w with registry := w.registry.commitFlush, persisting := false } else w
  | .poll limit => w.poll limit

-- A record is indexed in the order of its number; nothing is ingested for an address that an issue
-- call has not indexed yet; salts are padded addresses; and a committed insert gets its answer.
def Apart (w : PortalWorld) : PortalEvent → Prop
  | .issue fields _ => fields.stealthAddr ∈ w.sweptSalts → w.registry.hasStealth fields.stealthAddr
  | .resume seq => ∀ record ∈ w.registry.records, record.seq < seq
  | .fail seq => ∀ c ∈ w.waiting, c.record.seq = seq → c.committed = false
  | .markSwept salt _ _ => ∀ c ∈ w.waiting, c.record.stealthAddr = salt → w.registry.hasStealth salt
  | .recordChainAnnouncement a => w.registry.hasStealth a.salt ∨
      a.salt < 2 ^ 160 ∧ ∀ c ∈ w.waiting, c.record.stealthAddr ≠ a.salt
  | _ => True

instance (w : PortalWorld) : (e : PortalEvent) → Decidable (w.Apart e)
  | .issue .. => by unfold Apart; infer_instance
  | .resume _ => by unfold Apart; infer_instance
  | .fail _ => by unfold Apart; infer_instance
  | .markSwept .. => by unfold Apart; infer_instance
  | .recordChainAnnouncement _ => by unfold Apart; infer_instance
  | .insert _ | .flush | .commitFlush | .poll _ => isTrue trivial

structure FeedComplete (w : PortalWorld) : Prop where
  missed : ∀ record ∈ w.registry.records, ∀ seq ∈ w.received, record.seq ≤ seq →
    record.seq ∈ w.received
  page : ∀ cursor limit, ∀ last ∈ w.registry.list cursor (some limit), ∀ record ∈ w.registry.records,
    cursor < record.seq → record.seq ≤ last.seq → record ∈ w.registry.list cursor (some limit)
  oneInMemory : (w.registry.records.map (·.stealthAddr)).Nodup
  oneInTable : (w.rows.map (·.stealthAddr)).Nodup
  sweptInMemory : ∀ record ∈ w.registry.records, record.stealthAddr ∈ w.sweptSalts → record.swept
  sweptInTable : w.registry.pendingSwept = [] → w.registry.pendingInserts = [] →
    ∀ row ∈ w.rows, row.stealthAddr ∈ w.sweptSalts → row.swept

-- A row stands for a record of the feed, short of a flag that waits in the buffer, or for a call that
-- has not indexed it yet.
def Stands (w : PortalWorld) (row : PortalRecord) : Prop :=
  (∃ i record, w.registry.records[i]? = some record ∧ row.seq = record.seq ∧
    row.stealthAddr = record.stealthAddr ∧
    (record.swept → row.swept ∨ w.persisting = false ∧ i ∈ w.registry.pendingSwept)) ∨
  ∃ c ∈ w.waiting, c.committed = true ∧ row = c.record

-- A record of the feed has its row, or waits in the buffer with no call after its address.
def Held (w : PortalWorld) (i : ℕ) (record : PortalRecord) : Prop :=
  (∃ row ∈ w.rows, row.seq = record.seq ∧ row.stealthAddr = record.stealthAddr) ∨
  w.persisting = false ∧ i ∈ w.registry.pendingInserts ∧
    ∀ c ∈ w.waiting, c.record.stealthAddr ≠ record.stealthAddr

structure Inv (w : PortalWorld) : Prop where
  indexed : w.registry.Indexed
  waitBelow : ∀ c ∈ w.waiting, c.record.seq < w.registry.seq
  waitFresh : ∀ c ∈ w.waiting, ∀ record ∈ w.registry.records, record.seq ≠ c.record.seq
  waitIds : ∀ c ∈ w.waiting, ∀ d ∈ w.waiting, c.record.seq = d.record.seq → c = d
  waitUnswept : ∀ c ∈ w.waiting, c.record.swept = false
  waitClean : ∀ c ∈ w.waiting, c.record.stealthAddr ∈ w.sweptSalts →
    w.registry.hasStealth c.record.stealthAddr
  committedNew : ∀ c ∈ w.waiting, c.committed = true →
    w.registry.bySalt c.record.stealthAddr = none ∧ c.record ∈ w.rows
  swept : ∀ record ∈ w.registry.records, record.stealthAddr ∈ w.sweptSalts → record.swept
  stands : ∀ row ∈ w.rows, w.Stands row
  held : ∀ i record, w.registry.records[i]? = some record → w.Held i record
  rowSeqs : (w.rows.map (·.seq)).Nodup
  rowAddrs : (w.rows.map (·.stealthAddr)).Nodup
  receivedVisible : ∀ seq ∈ w.received, ∃ record ∈ w.registry.records, record.seq = seq
  missed : ∀ record ∈ w.registry.records, ∀ seq ∈ w.received, record.seq ≤ seq →
    record.seq ∈ w.received

theorem call_eq_some {w : PortalWorld} {seq : ℕ} {committed : Bool} {c : IssueCall}
    (h : w.call seq committed = some c) : c ∈ w.waiting ∧ c.record.seq = seq ∧ c.committed = committed :=
  ⟨List.mem_of_find?_eq_some h, by simpa using List.find?_some h⟩

theorem mem_leave {w : PortalWorld} {seq : ℕ} {c : IssueCall} :
    c ∈ (w.leave seq).waiting ↔ c ∈ w.waiting ∧ c.record.seq ≠ seq := by
  simp [leave]

theorem inv_empty : empty.Inv where
  indexed := PortalRegistry.Indexed.empty
  waitBelow := by simp [empty]
  waitFresh := by simp [empty]
  waitIds := by simp [empty]
  waitUnswept := by simp [empty]
  waitClean := by simp [empty]
  committedNew := by simp [empty]
  swept := by simp [empty, PortalRegistry.empty]
  stands := by simp [empty]
  held := by simp [empty, PortalRegistry.empty]
  rowSeqs := by simp [empty]
  rowAddrs := by simp [empty]
  receivedVisible := by simp [empty]
  missed := by simp [empty]

theorem inv_leave {w : PortalWorld} {seq : ℕ} (h : w.Inv)
    (hout : ∀ c ∈ w.waiting, c.record.seq = seq → c.committed = false) : (w.leave seq).Inv := by
  refine { h with
    waitBelow := fun c hc => h.waitBelow c (mem_leave.1 hc).1
    waitFresh := fun c hc => h.waitFresh c (mem_leave.1 hc).1
    waitIds := fun c hc d hd => h.waitIds c (mem_leave.1 hc).1 d (mem_leave.1 hd).1
    waitUnswept := fun c hc => h.waitUnswept c (mem_leave.1 hc).1
    waitClean := fun c hc => h.waitClean c (mem_leave.1 hc).1
    committedNew := fun c hc => h.committedNew c (mem_leave.1 hc).1
    stands := ?_
    held := ?_ }
  · intro row hrow
    rcases h.stands row hrow with hrecord | ⟨c, hc, hin, rfl⟩
    · exact .inl hrecord
    · refine .inr ⟨c, mem_leave.2 ⟨hc, fun hseq => ?_⟩, hin, rfl⟩
      exact absurd (hout c hc hseq) (by simp [hin])
  · intro i record hrecord
    rcases h.held i record hrecord with hrow | ⟨hp, hi, hfree⟩
    · exact .inl hrow
    · exact .inr ⟨hp, hi, fun c hc => hfree c (mem_leave.1 hc).1⟩

theorem inv_draw {w : PortalWorld} (h : w.Inv) : Inv { w with registry := w.registry.draw } :=
  { h with
    indexed := h.indexed.draw
    waitBelow := fun c hc => Nat.lt_succ_of_lt (h.waitBelow c hc) }

theorem inv_issue {w : PortalWorld} {fields : PortalIssuanceFields} {nowSeconds : ℕ} (h : w.Inv)
    (hclean : fields.stealthAddr ∈ w.sweptSalts → w.registry.hasStealth fields.stealthAddr) :
    (w.issue fields nowSeconds).Inv := by
  unfold issue
  split
  · exact inv_draw h
  · next hnew =>
    have hnone : w.registry.bySalt fields.stealthAddr = none := by
      simpa [PortalRegistry.hasStealth] using hnew
    have hmem : ∀ c, c ∈ w.waiting ++ [⟨w.registry.draft fields nowSeconds, false⟩] →
        c ∈ w.waiting ∨ c = ⟨w.registry.draft fields nowSeconds, false⟩ := fun c hc => by simpa using hc
    refine { inv_draw h with
      waitBelow := fun c hc => ?_
      waitFresh := fun c hc => ?_
      waitIds := fun c hc d hd hseq => ?_
      waitUnswept := fun c hc => ?_
      waitClean := fun c hc => ?_
      committedNew := fun c hc hin => ?_
      stands := fun row hrow => ?_
      held := fun i record hrecord => ?_ }
    · rcases hmem c hc with hc | rfl
      · exact Nat.lt_succ_of_lt (h.waitBelow c hc)
      · exact Nat.lt_succ_self _
    · rcases hmem c hc with hc | rfl
      · exact h.waitFresh c hc
      · exact fun record hrecord => (h.indexed.below record hrecord).ne
    · rcases hmem c hc with hc | rfl <;> rcases hmem d hd with hd | rfl
      · exact h.waitIds c hc d hd hseq
      · exact absurd hseq (h.waitBelow c hc).ne
      · exact absurd hseq (h.waitBelow d hd).ne'
      · rfl
    · rcases hmem c hc with hc | rfl
      · exact h.waitUnswept c hc
      · rfl
    · rcases hmem c hc with hc | rfl
      · exact h.waitClean c hc
      · exact hclean
    · rcases hmem c hc with hc | rfl
      · exact h.committedNew c hc hin
      · exact absurd hin (by simp)
    · rcases h.stands row hrow with hrecord | ⟨c, hc, hin, hrow⟩
      · exact .inl hrecord
      · exact .inr ⟨c, List.mem_append_left _ hc, hin, hrow⟩
    · rcases h.held i record hrecord with hrow | ⟨hp, hi, hfree⟩
      · exact .inl hrow
      · refine .inr ⟨hp, hi, fun c hc => ?_⟩
        rcases hmem c hc with hc | rfl
        · exact hfree c hc
        · intro haddr
          have hknown := h.indexed.saltOf i record hrecord
          exact absurd hknown (by simp [← haddr, PortalRegistry.draft, hnone])

theorem mem_marked {w : PortalWorld} {c d : IssueCall} (h : w.Inv) (hc : c ∈ w.waiting)
    (hd : d ∈ w.waiting.map fun d =>
      if d.record.seq = c.record.seq then { d with committed := true } else d) :
    d = { c with committed := true } ∨ d ∈ w.waiting ∧ d.record.seq ≠ c.record.seq := by
  obtain ⟨d', hd', rfl⟩ := List.mem_map.1 hd
  by_cases hseq : d'.record.seq = c.record.seq
  · obtain rfl := h.waitIds d' hd' c hc hseq
    simp
  · simp only [hseq, if_false]
    exact .inr ⟨hd', hseq⟩

theorem inv_insert {w : PortalWorld} {c : IssueCall} (h : w.Inv) (hc : c ∈ w.waiting)
    (hout : c.committed = false) : (w.insert c).Inv := by
  unfold insert
  split
  · refine inv_leave h fun d hd hseq => ?_
    exact h.waitIds d hd c hc hseq ▸ hout
  · next hnew =>
    simp only [List.mem_map, not_or, not_exists, not_and] at hnew
    obtain ⟨hseqs, haddrs⟩ := hnew
    -- a record of the address would have its row, or wait with no call after the address
    have hnone : w.registry.bySalt c.record.stealthAddr = none := by
      by_contra hsome
      obtain ⟨i, hi⟩ := Option.ne_none_iff_exists'.1 hsome
      obtain ⟨record, hrecord, haddr⟩ := h.indexed.saltTo _ i hi
      rcases h.held i record hrecord with ⟨row, hrow, -, hrowAddr⟩ | ⟨-, -, hfree⟩
      · exact haddrs row hrow (hrowAddr.trans haddr)
      · exact hfree c hc haddr.symm
    have hmem := fun d => mem_marked (d := d) h hc
    refine { h with
      waitBelow := fun d hd => ?_
      waitFresh := fun d hd => ?_
      waitIds := fun d hd e he hseq => ?_
      waitUnswept := fun d hd => ?_
      waitClean := fun d hd => ?_
      committedNew := fun d hd hin => ?_
      stands := fun row hrow => ?_
      held := fun i record hrecord => ?_
      rowSeqs := ?_
      rowAddrs := ?_ }
    · rcases hmem d hd with rfl | ⟨hd, -⟩
      · exact h.waitBelow c hc
      · exact h.waitBelow d hd
    · rcases hmem d hd with rfl | ⟨hd, -⟩
      · exact h.waitFresh c hc
      · exact h.waitFresh d hd
    · rcases hmem d hd with rfl | ⟨hd, hdseq⟩ <;> rcases hmem e he with rfl | ⟨he, heseq⟩
      · rfl
      · exact absurd hseq.symm heseq
      · exact absurd hseq hdseq
      · exact h.waitIds d hd e he hseq
    · rcases hmem d hd with rfl | ⟨hd, -⟩
      · exact h.waitUnswept c hc
      · exact h.waitUnswept d hd
    · rcases hmem d hd with rfl | ⟨hd, -⟩
      · exact h.waitClean c hc
      · exact h.waitClean d hd
    · rcases hmem d hd with rfl | ⟨hd, -⟩
      · exact ⟨hnone, by simp⟩
      · exact ⟨(h.committedNew d hd hin).1, List.mem_append_left _ (h.committedNew d hd hin).2⟩
    · rcases List.mem_append.1 hrow with hrow | hrow
      · rcases h.stands row hrow with hrecord | ⟨d, hd, hin, hrow⟩
        · exact .inl hrecord
        · refine .inr ⟨d, List.mem_map.2 ⟨d, hd, ?_⟩, hin, hrow⟩
          have hne : d.record.seq ≠ c.record.seq := fun hseq =>
            absurd (h.waitIds d hd c hc hseq ▸ hin) (by simp [hout])
          simp [hne]
      · obtain rfl := List.mem_singleton.1 hrow
        exact .inr ⟨{ c with committed := true }, List.mem_map.2 ⟨c, hc, by simp⟩, rfl, rfl⟩
    · rcases h.held i record hrecord with ⟨row, hrow, hrest⟩ | ⟨hp, hi, hfree⟩
      · exact .inl ⟨row, List.mem_append_left _ hrow, hrest⟩
      · refine .inr ⟨hp, hi, fun d hd => ?_⟩
        rcases hmem d hd with rfl | ⟨hd, -⟩
        · exact hfree c hc
        · exact hfree d hd
    · rw [List.map_append, List.map_singleton, List.nodup_append]
      exact ⟨h.rowSeqs, by simp, by simpa using hseqs⟩
    · rw [List.map_append, List.map_singleton, List.nodup_append]
      exact ⟨h.rowAddrs, by simp, by simpa using haddrs⟩

theorem hasStealth_index {r : PortalRegistry} {record : PortalRecord} {salt : ℕ} (h : r.hasStealth salt) :
    (r.index record).hasStealth salt := by
  by_cases heq : salt = record.stealthAddr
  · simp [PortalRegistry.hasStealth, PortalRegistry.index, heq]
  · simpa [PortalRegistry.hasStealth, PortalRegistry.index, Function.update_of_ne heq] using h

theorem inv_resume {w : PortalWorld} {c : IssueCall} (h : w.Inv) (hc : c ∈ w.waiting)
    (hin : c.committed = true) (hlast : ∀ record ∈ w.registry.records, record.seq < c.record.seq) :
    (w.resume c).Inv := by
  obtain ⟨hnew, hrow⟩ := h.committedNew c hc hin
  have hclean : c.record.stealthAddr ∉ w.sweptSalts := fun hmem =>
    absurd (h.waitClean c hc hmem) (by simp [PortalRegistry.hasStealth, hnew])
  have hother : ∀ d ∈ (w.resume c).waiting, d ∈ w.waiting ∧ d.record.seq ≠ c.record.seq :=
    fun d hd => mem_leave.1 hd
  have hrecords : ∀ record ∈ (w.resume c).registry.records,
      record ∈ w.registry.records ∨ record = c.record := fun record hrecord => by
    simpa [resume] using hrecord
  refine { h with
    indexed := h.indexed.index hnew hlast (h.waitBelow c hc)
    waitBelow := fun d hd => h.waitBelow d (hother d hd).1
    waitFresh := fun d hd record hrecord => ?_
    waitIds := fun d hd e he => h.waitIds d (hother d hd).1 e (hother e he).1
    waitUnswept := fun d hd => h.waitUnswept d (hother d hd).1
    waitClean := fun d hd hmem => hasStealth_index (h.waitClean d (hother d hd).1 hmem)
    committedNew := fun d hd hd' => ?_
    swept := fun record hrecord hmem => ?_
    stands := fun row hrow => ?_
    held := fun i record hrecord => ?_
    receivedVisible := fun seq hseq => ?_
    missed := fun record hrecord seq hseq hle => ?_ }
  · rcases hrecords record hrecord with hrecord | rfl
    · exact h.waitFresh d (hother d hd).1 record hrecord
    · exact (hother d hd).2.symm
  · obtain ⟨hdNew, hdRow⟩ := h.committedNew d (hother d hd).1 hd'
    have hne : d.record.stealthAddr ≠ c.record.stealthAddr := fun haddr =>
      (hother d hd).2 (congrArg _ (List.inj_on_of_nodup_map h.rowAddrs hdRow hrow haddr))
    exact ⟨(Function.update_of_ne hne _ _).trans hdNew, hdRow⟩
  · rcases hrecords record hrecord with hrecord | rfl
    · exact h.swept record hrecord hmem
    · exact absurd hmem hclean
  · rcases h.stands row hrow with ⟨i, record, hrecord, hrest⟩ | ⟨d, hd, hd', rfl⟩
    · exact .inl ⟨i, record, PortalRegistry.getElem?_snoc.2 (.inl hrecord), hrest⟩
    · by_cases hseq : d.record.seq = c.record.seq
      · obtain rfl := h.waitIds d hd c hc hseq
        refine .inl ⟨_, d.record, PortalRegistry.getElem?_snoc.2 (.inr ⟨rfl, rfl⟩), rfl, rfl, fun hswept => ?_⟩
        exact absurd hswept (by simp [h.waitUnswept d hd])
      · exact .inr ⟨d, mem_leave.2 ⟨hd, hseq⟩, hd', rfl⟩
  · rcases PortalRegistry.getElem?_snoc.1 hrecord with hrecord | ⟨-, rfl⟩
    · rcases h.held i record hrecord with hheld | ⟨hp, hi, hfree⟩
      · exact .inl hheld
      · exact .inr ⟨hp, hi, fun d hd => hfree d (hother d hd).1⟩
    · exact .inl ⟨c.record, hrow, rfl, rfl⟩
  · obtain ⟨record, hrecord, rfl⟩ := h.receivedVisible seq hseq
    exact ⟨record, List.mem_append_left _ hrecord, rfl⟩
  · rcases hrecords record hrecord with hrecord | rfl
    · exact h.missed record hrecord seq hseq hle
    · obtain ⟨old, hold, rfl⟩ := h.receivedVisible seq hseq
      exact absurd hle (hlast old hold).not_ge

theorem inv_markSwept {w : PortalWorld} {salt : ℕ} {txHash : TxHash} {amount : ℕ} (h : w.Inv)
    (hidle : w.persisting = false)
    (hapart : ∀ c ∈ w.waiting, c.record.stealthAddr = salt → w.registry.hasStealth salt) :
    Inv { w with
      registry := w.registry.markSwept salt txHash amount
      sweptSalts := w.sweptSalts ++ [salt] } := by
  have hclean : ∀ c ∈ w.waiting, c.record.stealthAddr ∈ w.sweptSalts ++ [salt] →
      w.registry.hasStealth c.record.stealthAddr := by
    intro c hc hmem
    rcases List.mem_append.1 hmem with hmem | hmem
    · exact h.waitClean c hc hmem
    · have haddr := List.mem_singleton.1 hmem
      exact haddr ▸ hapart c hc haddr
  rcases PortalRegistry.markSwept_cases w.registry salt txHash amount with
    ⟨hsame, hswept⟩ | ⟨place, old, hplace, hold, -, heq⟩
  · rw [hsame]
    refine { h with waitClean := hclean, swept := fun record hrecord hmem => ?_ }
    rcases List.mem_append.1 hmem with hmem | hmem
    · exact h.swept record hrecord hmem
    · obtain ⟨i, hi, hsalt⟩ := h.indexed.bySalt_of_mem hrecord
      exact hswept i record (List.mem_singleton.1 hmem ▸ hsalt) hi
  · rw [heq]
    have hback : ∀ record ∈ w.registry.records.modify place (PortalRegistry.flag txHash amount),
        ∃ i old, w.registry.records[i]? = some old ∧ record.seq = old.seq ∧
          record.stealthAddr = old.stealthAddr ∧
          (place ≠ i ∧ record = old ∨ place = i ∧ record.swept) := by
      intro record hrecord
      obtain ⟨i, hi⟩ := List.mem_iff_getElem?.1 hrecord
      obtain ⟨old, hold, hrest⟩ := PortalRegistry.getElem?_flagged hi
      exact ⟨i, old, hold, hrest⟩
    refine { h with
      indexed := h.indexed.flagged
      waitFresh := fun c hc record hrecord => ?_
      waitClean := hclean
      swept := fun record hrecord hmem => ?_
      stands := fun row hrow => ?_
      held := fun i record hrecord => ?_
      receivedVisible := fun seq hseq => ?_
      missed := fun record hrecord seq hseq hle => ?_ }
    · obtain ⟨i, old, hold, hseq, -⟩ := hback record hrecord
      exact hseq ▸ h.waitFresh c hc old (List.mem_iff_getElem?.2 ⟨i, hold⟩)
    · obtain ⟨i, old, hold, -, haddr, ⟨hne, rfl⟩ | ⟨-, hswept⟩⟩ := hback record hrecord
      · rcases List.mem_append.1 hmem with hmem | hmem
        · exact h.swept record (List.mem_iff_getElem?.2 ⟨i, hold⟩) hmem
        · have hsalt := h.indexed.saltOf i record hold
          rw [List.mem_singleton.1 hmem, hplace] at hsalt
          exact absurd (Option.some.inj hsalt) hne
      · exact hswept
    · rcases h.stands row hrow with ⟨i, record, hrecord, hseq, haddr, hkeep⟩ | hwaits
      · refine .inl ⟨i, _, PortalRegistry.flagged_getElem? hrecord, ?_⟩
        by_cases hi : place = i
        · simp only [hi, if_true]
          exact ⟨hseq, haddr, fun _ => .inr ⟨hidle, by simp⟩⟩
        · simp only [hi, if_false]
          refine ⟨hseq, haddr, fun hswept => ?_⟩
          rcases hkeep hswept with hrow | ⟨hp, hmem⟩
          · exact .inl hrow
          · exact .inr ⟨hp, List.mem_append_left _ hmem⟩
      · exact .inr hwaits
    · obtain ⟨old, hold, hseq, haddr, -⟩ := PortalRegistry.getElem?_flagged hrecord
      have hheld := h.held i old hold
      unfold Held at hheld ⊢
      rw [hseq, haddr]
      exact hheld
    · obtain ⟨old, hold, rfl⟩ := h.receivedVisible seq hseq
      obtain ⟨i, hi⟩ := List.mem_iff_getElem?.1 hold
      refine ⟨_, List.mem_iff_getElem?.2 ⟨i, PortalRegistry.flagged_getElem? hi⟩, ?_⟩
      by_cases hi : place = i <;> simp [hi, PortalRegistry.flag]
    · obtain ⟨i, old, hold, hseqs, -⟩ := hback record hrecord
      rw [hseqs] at hle ⊢
      exact h.missed old (List.mem_iff_getElem?.2 ⟨i, hold⟩) seq hseq hle

theorem inv_announce {w : PortalWorld} {a : ChainAnnouncement} (h : w.Inv) (hidle : w.persisting = false)
    (hapart : w.registry.hasStealth a.salt ∨
      a.salt < 2 ^ 160 ∧ ∀ c ∈ w.waiting, c.record.stealthAddr ≠ a.salt) :
    Inv { w with registry := w.registry.recordChainAnnouncement a } := by
  by_cases hknown : (w.registry.bySalt a.salt).isSome
  · simpa [PortalRegistry.recordChainAnnouncement, hknown] using h
  · have hnone : w.registry.bySalt a.salt = none := by simpa using hknown
    obtain ⟨hpadded, hfree⟩ := hapart.resolve_left (by simpa [PortalRegistry.hasStealth] using hnone)
    have hindexed := h.indexed.announce hpadded
    have haddr : a.salt % 2 ^ 160 = a.salt := Nat.mod_eq_of_lt hpadded
    simp only [PortalRegistry.recordChainAnnouncement, hknown, if_false, Bool.false_eq_true] at hindexed ⊢
    have hrecords : ∀ {P : PortalRecord → Prop} {new : PortalRecord},
        (∀ record ∈ w.registry.records, P record) → P new →
        ∀ record ∈ w.registry.records ++ [new], P record := by
      intro P new hold hnew record hrecord
      rcases List.mem_append.1 hrecord with hrecord | hrecord
      · exact hold record hrecord
      · exact List.mem_singleton.1 hrecord ▸ hnew
    refine { h with
      indexed := hindexed
      waitBelow := fun c hc => Nat.lt_succ_of_lt (h.waitBelow c hc)
      waitFresh := fun c hc => hrecords (h.waitFresh c hc) (h.waitBelow c hc).ne'
      waitClean := fun c hc hmem => ?_
      committedNew := fun c hc hin => ?_
      swept := hrecords h.swept fun _ => rfl
      stands := fun row hrow => ?_
      held := fun i record hrecord => ?_
      receivedVisible := fun seq hseq => ?_
      missed := hrecords h.missed fun seq hseq hle => ?_ }
    · have hc' := h.waitClean c hc hmem
      simpa [PortalRegistry.hasStealth, Function.update_of_ne (hfree c hc)] using hc'
    · obtain ⟨hnew, hrow⟩ := h.committedNew c hc hin
      exact ⟨(Function.update_of_ne (hfree c hc) _ _).trans hnew, hrow⟩
    · rcases h.stands row hrow with ⟨i, record, hrecord, hrest⟩ | hwaits
      · exact .inl ⟨i, record, PortalRegistry.getElem?_snoc.2 (.inl hrecord), hrest⟩
      · exact .inr hwaits
    · rcases PortalRegistry.getElem?_snoc.1 hrecord with hrecord | ⟨rfl, rfl⟩
      · rcases h.held i record hrecord with hheld | ⟨hp, hi, hfree⟩
        · exact .inl hheld
        · exact .inr ⟨hp, List.mem_append_left _ hi, hfree⟩
      · exact .inr ⟨hidle, by simp, fun c hc => haddr.symm ▸ hfree c hc⟩
    · obtain ⟨record, hrecord, rfl⟩ := h.receivedVisible seq hseq
      exact ⟨record, List.mem_append_left _ hrecord, rfl⟩
    · obtain ⟨record, hrecord, rfl⟩ := h.receivedVisible seq hseq
      exact absurd hle (h.indexed.below record hrecord).not_ge

theorem inv_flush {w : PortalWorld} (h : w.Inv) :
    Inv { w with rows := w.registry.flushInto w.rows, persisting := true } := by
  rw [PortalRegistry.flushInto_eq]
  set news := w.registry.pendingInserts.filterMap (w.registry.records[·]?) with hnews
  set updates := w.registry.pendingSwept.filterMap (w.registry.records[·]?) with hupdates
  have hnew : ∀ {record : PortalRecord}, record ∈ news → ∃ i : ℕ, w.registry.records[i]? = some record := by
    intro record hrecord
    obtain ⟨i, -, hi⟩ := List.mem_filterMap.1 hrecord
    exact ⟨i, hi⟩
  have hupdate : ∀ {record : PortalRecord}, record ∈ updates → record ∈ w.registry.records := by
    intro record hrecord
    obtain ⟨i, -, hi⟩ := List.mem_filterMap.1 hrecord
    exact List.mem_iff_getElem?.2 ⟨i, hi⟩
  have hkeys := PortalRegistry.marked_keys updates
  -- a call's row is no record's, so the flags of the buffer pass it by
  have hcall : ∀ c ∈ w.waiting, PortalRegistry.marked updates c.record = c.record := fun c hc =>
    PortalRegistry.marked_of_not_mem fun update hmem heq => h.waitFresh c hc update (hupdate hmem) heq.symm
  have hrow : ∀ {row : PortalRecord}, row ∈ news.foldl PortalRegistry.insertRecord w.rows →
      (∃ i record, w.registry.records[i]? = some record ∧ row.seq = record.seq ∧
        row.stealthAddr = record.stealthAddr ∧
        (record.swept → row.swept ∨ i ∈ w.registry.pendingSwept)) ∨
      ∃ c ∈ w.waiting, c.committed = true ∧ row = c.record := by
    intro row hmem
    rcases PortalRegistry.mem_inserted hmem with hmem | hmem
    · rcases h.stands row hmem with ⟨i, record, hrecord, hseq, haddr, hkeep⟩ | hwaits
      · exact .inl ⟨i, record, hrecord, hseq, haddr, fun hswept => (hkeep hswept).imp_right And.right⟩
      · exact .inr hwaits
    · obtain ⟨i, hi⟩ := hnew hmem
      exact .inl ⟨i, row, hi, rfl, rfl, .inl⟩
  obtain ⟨hseqs, haddrs⟩ : ((news.foldl PortalRegistry.insertRecord w.rows).map (·.seq)).Nodup ∧
      ((news.foldl PortalRegistry.insertRecord w.rows).map (·.stealthAddr)).Nodup :=
    PortalRegistry.nodup_inserted h.rowSeqs h.rowAddrs
  have hmap : ∀ {K : Type} (key : PortalRecord → K),
      (∀ row, key (PortalRegistry.marked updates row) = key row) →
      ((news.foldl PortalRegistry.insertRecord w.rows).map (PortalRegistry.marked updates)).map key =
        (news.foldl PortalRegistry.insertRecord w.rows).map key := by
    intro K key hkey
    rw [List.map_map]
    exact List.map_congr_left fun row _ => hkey row
  refine { h with
    committedNew := fun c hc hin => ?_
    stands := fun row hmem => ?_
    held := fun i record hrecord => ?_
    rowSeqs := hmap (·.seq) (fun row => (hkeys row).1) ▸ hseqs
    rowAddrs := hmap (·.stealthAddr) (fun row => (hkeys row).2.1) ▸ haddrs }
  · obtain ⟨hnone, hmem⟩ := h.committedNew c hc hin
    exact ⟨hnone, List.mem_map.2 ⟨c.record, PortalRegistry.subset_inserted hmem, hcall c hc⟩⟩
  · obtain ⟨old, hold, rfl⟩ := List.mem_map.1 hmem
    rcases hrow hold with ⟨i, record, hrecord, hseq, haddr, hkeep⟩ | ⟨c, hc, hin, rfl⟩
    · refine .inl ⟨i, record, hrecord, (hkeys old).1.trans hseq, (hkeys old).2.1.trans haddr,
        fun hswept => .inl ?_⟩
      rcases hkeep hswept with hdone | hpending
      · exact (hkeys old).2.2 hdone
      · exact PortalRegistry.marked_swept (List.mem_filterMap.2 ⟨i, hpending, hrecord⟩) hseq
    · exact .inr ⟨c, hc, hin, hcall c hc⟩
  · left
    rcases h.held i record hrecord with ⟨row, hmem, hseq, haddr⟩ | ⟨-, hpending, -⟩
    · exact ⟨_, List.mem_map.2 ⟨row, PortalRegistry.subset_inserted hmem, rfl⟩,
        (hkeys row).1.trans hseq, (hkeys row).2.1.trans haddr⟩
    · have hin : record ∈ news := List.mem_filterMap.2 ⟨i, hpending, hrecord⟩
      have hmemRecord : record ∈ w.registry.records := List.mem_iff_getElem?.2 ⟨i, hrecord⟩
      obtain ⟨row, hmem, hconflict⟩ :
          ∃ row ∈ news.foldl PortalRegistry.insertRecord w.rows, row.seq = record.seq ∨
            row.stealthAddr = record.stealthAddr := PortalRegistry.inserted_conflict hin
      have hsame : row.seq = record.seq ∧ row.stealthAddr = record.stealthAddr := by
        rcases hrow hmem with ⟨j, other, hother, hseq, haddr, -⟩ | ⟨c, hc, hin, rfl⟩
        · have heq : other = record := by
            rcases hconflict with hconflict | hconflict
            · exact h.indexed.seq_inj (List.mem_iff_getElem?.2 ⟨j, hother⟩) hmemRecord
                (hseq.symm.trans hconflict)
            · have hji := h.indexed.addr_inj hother hrecord (haddr.symm.trans hconflict)
              exact Option.some.inj (hother.symm.trans (hji ▸ hrecord))
          exact heq ▸ ⟨hseq, haddr⟩
        · rcases hconflict with hconflict | hconflict
          · exact absurd hconflict.symm (h.waitFresh c hc record hmemRecord)
          · have hknown := h.indexed.saltOf i record hrecord
            rw [← hconflict, (h.committedNew c hc hin).1] at hknown
            cases hknown
      exact ⟨_, List.mem_map.2 ⟨row, hmem, rfl⟩, (hkeys row).1.trans hsame.1,
        (hkeys row).2.1.trans hsame.2⟩

theorem inv_commitFlush {w : PortalWorld} (h : w.Inv) (hbusy : w.persisting = true) :
    Inv { w with registry := w.registry.commitFlush, persisting := false } := by
  refine { h with
    indexed := ⟨h.indexed.sorted, h.indexed.below, h.indexed.saltOf, h.indexed.saltTo⟩
    stands := fun row hrow => ?_
    held := fun i record hrecord => ?_ }
  · rcases h.stands row hrow with ⟨i, record, hrecord, hseq, haddr, hkeep⟩ | hwaits
    · refine .inl ⟨i, record, hrecord, hseq, haddr, fun hswept => .inl ?_⟩
      rcases hkeep hswept with hdone | ⟨hidle, -⟩
      · exact hdone
      · exact absurd hidle (by simp [hbusy])
    · exact .inr hwaits
  · rcases h.held i record hrecord with hrow | ⟨hidle, -⟩
    · exact .inl hrow
    · exact absurd hidle (by simp [hbusy])

theorem cursor_spec (w : PortalWorld) :
    (∀ seq ∈ w.received, (seq : ℤ) ≤ w.cursor) ∧
      (w.cursor = -1 ∨ ∃ seq ∈ w.received, (seq : ℤ) = w.cursor) := by
  unfold cursor
  induction w.received using List.reverseRecOn with
  | nil => simp
  | append_singleton seqs seq ih =>
    obtain ⟨hle, hmax⟩ := ih
    simp only [List.foldl_append, List.foldl_cons, List.foldl_nil, List.mem_append, List.mem_singleton]
    constructor
    · rintro s (hs | rfl)
      · exact (hle s hs).trans (le_max_left _ _)
      · exact le_max_right _ _
    · rcases le_total (seq : ℤ) (seqs.foldl (fun (m : ℤ) (seq : ℕ) => max m seq) (-1)) with hle' | hle'
      · rw [max_eq_left hle']
        exact hmax.imp_right fun ⟨s, hs, heq⟩ => ⟨s, .inl hs, heq⟩
      · rw [max_eq_right hle']
        exact .inr ⟨seq, .inr rfl, rfl⟩

theorem inv_poll {w : PortalWorld} (h : w.Inv) (limit : ℕ) : (w.poll limit).Inv := by
  refine { h with receivedVisible := fun seq hseq => ?_, missed := fun record hrecord seq hseq hle => ?_ }
  · rcases List.mem_append.1 hseq with hseq | hseq
    · exact h.receivedVisible seq hseq
    · obtain ⟨record, hrecord, rfl⟩ := List.mem_map.1 hseq
      exact ⟨record, (PortalRegistry.mem_list hrecord).1, rfl⟩
  · obtain ⟨hmax, hcursor⟩ := w.cursor_spec
    rcases le_or_gt (record.seq : ℤ) w.cursor with hold | hnew
    · rcases hcursor with hnone | ⟨last, hlast, heq⟩
      · omega
      · exact List.mem_append_left _ (h.missed record hrecord last hlast (by omega))
    · rcases List.mem_append.1 hseq with hseq | hseq
      · have hbelow := hmax seq hseq
        omega
      · obtain ⟨last, hlast, rfl⟩ := List.mem_map.1 hseq
        exact List.mem_append_right _ (List.mem_map.2
          ⟨record, h.indexed.page_closed hlast hrecord hnew hle, rfl⟩)

theorem inv_step (w : PortalWorld) (e : PortalEvent) (h : w.Inv) (hapart : w.Apart e) :
    (w.step e).Inv := by
  cases e with
  | issue fields nowSeconds => exact inv_issue h hapart
  | insert seq =>
    cases hcall : w.call seq false with
    | none => simpa [step, hcall] using h
    | some c =>
      obtain ⟨hc, -, hout⟩ := call_eq_some hcall
      simpa [step, hcall] using inv_insert h hc hout
  | resume seq =>
    cases hcall : w.call seq true with
    | none => simpa [step, hcall] using h
    | some c =>
      obtain ⟨hc, rfl, hin⟩ := call_eq_some hcall
      simpa [step, hcall] using inv_resume h hc hin hapart
  | fail seq => exact inv_leave h hapart
  | markSwept salt txHash amount =>
    cases hp : w.persisting with
    | true => simpa [step, hp] using h
    | false => simpa [step, hp] using inv_markSwept h hp hapart
  | recordChainAnnouncement a =>
    cases hp : w.persisting with
    | true => simpa [step, hp] using h
    | false => simpa [step, hp] using inv_announce h hp hapart
  | flush =>
    cases hp : w.persisting with
    | true => simpa [step, hp] using h
    | false => simpa [step, hp] using inv_flush h
  | commitFlush =>
    cases hp : w.persisting with
    | true => simpa [step, hp] using inv_commitFlush h hp
    | false => simpa [step, hp] using h
  | poll limit => exact inv_poll h limit

theorem Inv.feedComplete {w : PortalWorld} (h : w.Inv) : w.FeedComplete where
  missed := h.missed
  page _ _ _ hlast _ hrecord hcursor hle := h.indexed.page_closed hlast hrecord hcursor hle
  oneInMemory := h.indexed.nodup
  oneInTable := h.rowAddrs
  sweptInMemory := h.swept
  sweptInTable hswept _ row hrow hmem := by
    rcases h.stands row hrow with ⟨i, record, hrecord, -, haddr, hkeep⟩ | ⟨c, hc, hin, rfl⟩
    · have hdone := h.swept record (List.mem_iff_getElem?.2 ⟨i, hrecord⟩) (haddr ▸ hmem)
      rcases hkeep hdone with hrow | ⟨-, hpending⟩
      · exact hrow
      · exact absurd hpending (by simp [hswept])
    · have hknown := h.waitClean c hc hmem
      rw [PortalRegistry.hasStealth, (h.committedNew c hc hin).1] at hknown
      cases hknown

theorem portal_feed_complete (es : List PortalEvent) (h : Trace.Throughout step Apart empty es) :
    (es.foldl step empty).FeedComplete :=
  (Trace.inv_run inv_step inv_empty h).feedComplete

def issueTo (stealthAddr : ℕ) : PortalEvent :=
  .issue ⟨"alice", "0x01", 1, 2, stealthAddr, 9, some 7, "evm"⟩ 100

-- An issue returns and is polled, a sweep is ingested and flushed, and a foreign one is backfilled.
theorem portal_feed_complete_sample :
    ([issueTo 5, .insert 0, .resume 0, .poll 10, .markSwept 5 1 8, .markSwept 6 2 4,
      .recordChainAnnouncement ⟨6, 1, 2, 9, some 7, 2, 4, 120⟩, .flush, .commitFlush,
      .poll 10].foldl step empty).FeedComplete :=
  portal_feed_complete _ (by decide +kernel)

-- The second call's insert is answered first, and polled.
def answeredLate : List PortalEvent :=
  [issueTo 5, issueTo 6, .insert 1, .resume 1, .poll 10, .insert 0, .resume 0]

theorem portal_feed_misses :
    ¬ ∀ es : List PortalEvent, (es.foldl step empty).FeedComplete := by
  intro h
  have hmissed := (h answeredLate).missed
  revert hmissed
  decide +kernel

end PortalWorld

end Bongtu.Indexer
