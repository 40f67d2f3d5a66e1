import Bongtu.Indexer.Registries
import Bongtu.Trace

namespace Bongtu.Indexer

open Evm (Address)

open Bongtu.Core (TxHash)

-- What the issuance and announce routes hand the registry.
structure PortalIssuanceFields where
  name : String
  owner : String
  ephemeralPub : ℕ
  viewTag : ℕ
  stealthAddr : ℕ
  destination : Address
  factory : Option Address
  rail : String
deriving DecidableEq, Repr

namespace PortalRegistry

variable (r : PortalRegistry)

def hasStealth (stealthAddr : ℕ) : Bool := (r.bySalt stealthAddr).isSome

-- The record a call will index; its number is drawn before anything is awaited.
def draft (fields : PortalIssuanceFields) (nowSeconds : ℕ) : PortalRecord where
  seq := r.seq
  name := fields.name
  owner := fields.owner
  ephemeralPub := fields.ephemeralPub
  viewTag := fields.viewTag
  stealthAddr := fields.stealthAddr
  destination := fields.destination
  factory := fields.factory
  rail := fields.rail
  createdAt := nowSeconds
  swept := false
  sweptTxHash := none
  sweptAmount := none

def draw : PortalRegistry := { r with seq := r.seq + 1 }

-- No limit is the default one.
def list (cursor : ℤ) (limit : Option ℕ) : List PortalRecord :=
  let rows := r.records.filter fun record => cursor < record.seq
  limit.elim rows rows.take

def unswept (cursor : ℤ) (limit : Option ℕ) : List PortalRecord :=
  let rows := r.records.filter fun record => ! record.swept && cursor < record.seq
  limit.elim rows rows.take

def recordOf (salt : ℕ) : Option PortalRecord := (r.bySalt salt).bind (r.records[·]?)

variable {r}

@[simp] theorem records_draw : r.draw.records = r.records := rfl

@[simp] theorem records_index (record : PortalRecord) :
    (r.index record).records = r.records ++ [record] := rfl

theorem mem_unswept {record : PortalRecord} :
    record ∈ r.unswept (-1) none ↔ record ∈ r.records ∧ record.swept = false := by
  simp [unswept, show ∀ n : ℕ, (-1 : ℤ) < n from fun n => by omega]

def flag (txHash : TxHash) (amount : ℕ) (record : PortalRecord) : PortalRecord :=
  { record with swept := true, sweptTxHash := some txHash, sweptAmount := some amount }

-- What a Swept log does: nothing, or it flags the unswept record its salt is indexed under.
theorem markSwept_cases (r : PortalRegistry) (salt : ℕ) (txHash : TxHash) (amount : ℕ) :
    (r.markSwept salt txHash amount = r ∧
      ∀ place record, r.bySalt salt = some place → r.records[place]? = some record → record.swept) ∨
    ∃ place record, r.bySalt salt = some place ∧ r.records[place]? = some record ∧ record.swept = false ∧
      r.markSwept salt txHash amount = { r with
        records := r.records.modify place (flag txHash amount)
        pendingSwept := r.pendingSwept ++ [place] } := by
  unfold markSwept
  cases hplace : r.bySalt salt with
  | none => exact .inl ⟨rfl, fun place record h => absurd h (by simp)⟩
  | some place =>
    cases hrecord : r.records[place]? with
    | none => exact .inl ⟨by simp [hrecord], fun place' record h => by cases h; simp [hrecord]⟩
    | some record =>
      cases hswept : record.swept with
      | true =>
        refine .inl ⟨by simp [hrecord, hswept], fun place' record' h h' => ?_⟩
        cases h
        cases hrecord.symm.trans h'
        exact hswept
      | false =>
        refine .inr ⟨place, record, rfl, hrecord, hswept, ?_⟩
        simp only [hrecord, Option.elim_some, hswept, Bool.false_eq_true, if_false]
        rfl

theorem mem_markSwept {salt : ℕ} {txHash : TxHash} {amount : ℕ} {record : PortalRecord}
    (h : record ∈ (r.markSwept salt txHash amount).records) :
    record ∈ r.records ∨ ∃ old ∈ r.recordOf salt, old.swept = false ∧ record = flag txHash amount old := by
  rcases markSwept_cases r salt txHash amount with ⟨hsame, -⟩ | ⟨place, old, hplace, hold, hunswept, heq⟩
  · exact .inl (hsame ▸ h)
  · rw [heq] at h
    obtain ⟨i, hi⟩ := List.mem_iff_getElem?.1 h
    simp only [List.getElem?_modify] at hi
    by_cases hi' : place = i
    · subst hi'
      refine .inr ⟨old, by simp [recordOf, hplace, hold], hunswept, ?_⟩
      simpa [hold, eq_comm] using hi
    · exact .inl (List.mem_iff_getElem?.2 ⟨i, by simpa [hi'] using hi⟩)

-- The feed is in the order of the numbers, and a salt leads to the one record of its address.
structure Indexed (r : PortalRegistry) : Prop where
  sorted : r.records.Pairwise (·.seq < ·.seq)
  below : ∀ record ∈ r.records, record.seq < r.seq
  saltOf : ∀ i record, r.records[i]? = some record → r.bySalt record.stealthAddr = some i
  saltTo : ∀ salt i, r.bySalt salt = some i → ∃ record, r.records[i]? = some record ∧
    record.stealthAddr = salt

theorem getElem?_snoc {records : List PortalRecord} {record : PortalRecord} {i : ℕ} {old : PortalRecord} :
    (records ++ [record])[i]? = some old ↔
      records[i]? = some old ∨ i = records.length ∧ old = record := by
  rcases lt_trichotomy i records.length with h | h | h
  · simp [List.getElem?_append_left h, h.ne]
  · subst h
    simp [eq_comm]
  · simp [List.getElem?_eq_none (show (records ++ [record]).length ≤ i by simp; omega),
      List.getElem?_eq_none (show records.length ≤ i by omega), h.ne']

namespace Indexed

theorem empty : Indexed PortalRegistry.empty where
  sorted := List.Pairwise.nil
  below := by simp [PortalRegistry.empty]
  saltOf := by simp [PortalRegistry.empty]
  saltTo := by simp [PortalRegistry.empty]

theorem bySalt_of_mem (h : Indexed r) {record : PortalRecord} (hrecord : record ∈ r.records) :
    ∃ i, r.records[i]? = some record ∧ r.bySalt record.stealthAddr = some i := by
  obtain ⟨i, hi⟩ := List.mem_iff_getElem?.1 hrecord
  exact ⟨i, hi, h.saltOf i record hi⟩

theorem addr_inj (h : Indexed r) {i j : ℕ} {a b : PortalRecord} (ha : r.records[i]? = some a)
    (hb : r.records[j]? = some b) (haddr : a.stealthAddr = b.stealthAddr) : i = j :=
  Option.some.inj ((h.saltOf i a ha).symm.trans (haddr ▸ h.saltOf j b hb))

theorem seq_inj (h : Indexed r) {a b : PortalRecord} (ha : a ∈ r.records) (hb : b ∈ r.records)
    (hseq : a.seq = b.seq) : a = b := by
  by_contra hne
  obtain ⟨i, hi⟩ := List.mem_iff_getElem?.1 ha
  obtain ⟨j, hj⟩ := List.mem_iff_getElem?.1 hb
  obtain ⟨hil, rfl⟩ := List.getElem?_eq_some_iff.1 hi
  obtain ⟨hjl, rfl⟩ := List.getElem?_eq_some_iff.1 hj
  rcases lt_trichotomy i j with hij | rfl | hij
  · exact absurd hseq (List.pairwise_iff_getElem.1 h.sorted i j hil hjl hij).ne
  · exact hne rfl
  · exact absurd hseq (List.pairwise_iff_getElem.1 h.sorted j i hjl hil hij).ne'

theorem nodup (h : Indexed r) : (r.records.map (·.stealthAddr)).Nodup := by
  rw [List.nodup_iff_getElem?_ne_getElem?]
  intro i j hij hj heq
  have hjl : j < r.records.length := by simpa using hj
  simp only [List.getElem?_map, List.getElem?_eq_getElem hjl,
    List.getElem?_eq_getElem (hij.trans hjl), Option.map_some, Option.some.injEq] at heq
  exact hij.ne (h.addr_inj (List.getElem?_eq_getElem (hij.trans hjl)) (List.getElem?_eq_getElem hjl) heq)

theorem draw (h : Indexed r) : Indexed r.draw :=
  ⟨h.sorted, fun record hrecord => Nat.lt_succ_of_lt (h.below record hrecord), h.saltOf, h.saltTo⟩

theorem push (h : Indexed r) {record : PortalRecord} {seq : ℕ} {swept inserts : List ℕ}
    (hnew : r.bySalt record.stealthAddr = none) (hlast : ∀ old ∈ r.records, old.seq < record.seq)
    (hseq : record.seq < seq) (hle : r.seq ≤ seq) :
    Indexed ⟨r.records ++ [record], Function.update r.bySalt record.stealthAddr (some r.records.length),
      swept, inserts, seq⟩ where
  sorted := List.pairwise_append.2 ⟨h.sorted, List.pairwise_singleton _ _, by simpa using hlast⟩
  below old hold := by
    rcases List.mem_append.1 hold with hold | hold
    · exact (h.below old hold).trans_le hle
    · exact List.mem_singleton.1 hold ▸ hseq
  saltOf i old hold := by
    rcases getElem?_snoc.1 hold with hold | ⟨rfl, rfl⟩
    · have hne : old.stealthAddr ≠ record.stealthAddr := fun heq =>
        absurd (h.saltOf i old hold) (by simp [heq, hnew])
      simpa [Function.update_of_ne hne] using h.saltOf i old hold
    · simp
  saltTo salt i hsalt := by
    by_cases heq : salt = record.stealthAddr
    · subst heq
      obtain rfl : r.records.length = i := by simpa using hsalt
      exact ⟨record, by simp, rfl⟩
    · obtain ⟨old, hold, haddr⟩ := h.saltTo salt i (by simpa [Function.update_of_ne heq] using hsalt)
      exact ⟨old, getElem?_snoc.2 (.inl hold), haddr⟩

theorem index (h : Indexed r) {record : PortalRecord} (hnew : r.bySalt record.stealthAddr = none)
    (hlast : ∀ old ∈ r.records, old.seq < record.seq) (hseq : record.seq < r.seq) :
    Indexed (r.index record) :=
  h.push hnew hlast hseq le_rfl

theorem announce (h : Indexed r) {a : ChainAnnouncement} (hsalt : a.salt < 2 ^ 160) :
    Indexed (r.recordChainAnnouncement a) := by
  unfold recordChainAnnouncement
  split
  · exact h
  · next hnew =>
    have hmod : a.salt % 2 ^ 160 = a.salt := Nat.mod_eq_of_lt hsalt
    rw [hmod]
    let record : PortalRecord := ⟨r.seq, "", "", a.ephemeralPub, a.viewTag, a.salt, a.destination,
      a.factory, "evm", a.blockTimestamp, true, some a.txHash, some a.amount⟩
    have hfree : r.bySalt record.stealthAddr = none := by simpa using hnew
    exact h.push hfree h.below (Nat.lt_succ_self _) (Nat.le_succ _)

end Indexed

theorem getElem?_flagged {place i : ℕ} {txHash : TxHash} {amount : ℕ} {record : PortalRecord}
    (h : (r.records.modify place (flag txHash amount))[i]? = some record) :
    ∃ old, r.records[i]? = some old ∧ record.seq = old.seq ∧ record.stealthAddr = old.stealthAddr ∧
      (place ≠ i ∧ record = old ∨ place = i ∧ record.swept) := by
  rw [List.getElem?_modify] at h
  obtain ⟨old, hold, rfl⟩ := Option.map_eq_some_iff.1 (by simpa using h)
  refine ⟨old, hold, ?_⟩
  by_cases hplace : place = i
  · simp [hplace, flag]
  · simp [hplace]

theorem flagged_getElem? {place i : ℕ} {txHash : TxHash} {amount : ℕ} {old : PortalRecord}
    (h : r.records[i]? = some old) :
    (r.records.modify place (flag txHash amount))[i]? =
      some (if place = i then flag txHash amount old else old) := by
  rw [List.getElem?_modify, h]
  by_cases hplace : place = i <;> simp [hplace]

theorem Indexed.flagged (h : Indexed r) {place : ℕ} {txHash : TxHash} {amount : ℕ} {swept : List ℕ} :
    Indexed { r with records := r.records.modify place (flag txHash amount), pendingSwept := swept } where
  sorted := by
    have hmap : (r.records.modify place (flag txHash amount)).map (·.seq) = r.records.map (·.seq) := by
      refine List.ext_getElem? fun i => ?_
      simp only [List.getElem?_map, List.getElem?_modify]
      cases hi : r.records[i]? with
      | none => simp
      | some old => by_cases hplace : place = i <;> simp [hplace, flag]
    rw [← List.pairwise_map (f := fun record : PortalRecord => record.seq) (R := (· < ·)), hmap,
      List.pairwise_map]
    exact h.sorted
  below record hrecord := by
    obtain ⟨i, hi⟩ := List.mem_iff_getElem?.1 hrecord
    obtain ⟨old, hold, hseq, -⟩ := getElem?_flagged hi
    exact hseq ▸ h.below old (List.mem_iff_getElem?.2 ⟨i, hold⟩)
  saltOf i record hrecord := by
    obtain ⟨old, hold, -, haddr, -⟩ := getElem?_flagged hrecord
    exact haddr ▸ h.saltOf i old hold
  saltTo salt i hsalt := by
    obtain ⟨old, hold, haddr⟩ := h.saltTo salt i hsalt
    refine ⟨_, flagged_getElem? hold, ?_⟩
    by_cases hplace : place = i <;> simp [hplace, flag, haddr]

-- A page of a sorted feed leaves no record out below its last one.
theorem Indexed.page_closed (h : Indexed r) {cursor : ℤ} {limit : ℕ} {last record : PortalRecord}
    (hlast : last ∈ r.list cursor (some limit)) (hrecord : record ∈ r.records)
    (hcursor : cursor < record.seq) (hle : record.seq ≤ last.seq) :
    record ∈ r.list cursor (some limit) := by
  have hsorted := h.sorted.filter (fun record => decide (cursor < record.seq))
  have hmem : record ∈ r.records.filter fun record => decide (cursor < record.seq) :=
    List.mem_filter.2 ⟨hrecord, by simpa using hcursor⟩
  simp only [list, Option.elim_some] at hlast ⊢
  rw [← List.take_append_drop limit (r.records.filter _)] at hsorted hmem
  rcases List.mem_append.1 hmem with hmem | hmem
  · exact hmem
  · exact absurd hle ((List.pairwise_append.1 hsorted).2.2 last hlast record hmem).not_ge

theorem mem_list {cursor : ℤ} {limit : ℕ} {record : PortalRecord}
    (h : record ∈ r.list cursor (some limit)) : record ∈ r.records ∧ cursor < record.seq := by
  simp only [list, Option.elim_some] at h
  simpa using List.mem_filter.1 (List.mem_of_mem_take h)

section Flush

variable {rows news : List PortalRecord} {row : PortalRecord}

theorem mem_insertRecord {record : PortalRecord} (h : row ∈ insertRecord rows record) :
    row ∈ rows ∨ row = record := by
  unfold insertRecord at h
  split at h
  · exact .inl h
  · simpa using h

theorem subset_insertRecord {record : PortalRecord} (h : row ∈ rows) : row ∈ insertRecord rows record := by
  unfold insertRecord
  split
  · exact h
  · exact List.mem_append_left _ h

theorem insertRecord_conflict {record : PortalRecord} : ∃ row ∈ insertRecord rows record,
    row.seq = record.seq ∨ row.stealthAddr = record.stealthAddr := by
  unfold insertRecord
  split
  · next h =>
    rcases h with h | h
    · obtain ⟨row, hrow, hseq⟩ := List.mem_map.1 h
      exact ⟨row, hrow, .inl hseq⟩
    · obtain ⟨row, hrow, haddr⟩ := List.mem_map.1 h
      exact ⟨row, hrow, .inr haddr⟩
  · exact ⟨record, by simp, .inl rfl⟩

theorem nodup_insertRecord {record : PortalRecord} {K : Type} {key : PortalRecord → K}
    (hkey : key record ∈ rows.map key → record.seq ∈ rows.map (·.seq) ∨
      record.stealthAddr ∈ rows.map (·.stealthAddr)) (h : (rows.map key).Nodup) :
    ((insertRecord rows record).map key).Nodup := by
  unfold insertRecord
  split
  · exact h
  · next hnew =>
    rw [List.map_append, List.map_singleton, List.nodup_append_comm]
    exact List.nodup_cons.2 ⟨fun hmem => hnew (hkey hmem), h⟩

theorem mem_inserted (h : row ∈ news.foldl insertRecord rows) : row ∈ rows ∨ row ∈ news := by
  induction news generalizing rows with
  | nil => exact .inl h
  | cons new news ih =>
    rcases ih h with h | h
    · rcases mem_insertRecord h with h | rfl
      · exact .inl h
      · exact .inr List.mem_cons_self
    · exact .inr (List.mem_cons_of_mem _ h)

theorem subset_inserted (h : row ∈ rows) : row ∈ news.foldl insertRecord rows := by
  induction news generalizing rows with
  | nil => exact h
  | cons new news ih => exact ih (subset_insertRecord h)

theorem inserted_conflict {record : PortalRecord} (h : record ∈ news) :
    ∃ row ∈ news.foldl insertRecord rows, row.seq = record.seq ∨ row.stealthAddr = record.stealthAddr := by
  induction news generalizing rows with
  | nil => exact absurd h (by simp)
  | cons new news ih =>
    rcases List.mem_cons.1 h with rfl | h
    · obtain ⟨row, hrow, hkey⟩ := insertRecord_conflict
      rw [List.foldl_cons]
      exact ⟨row, subset_inserted hrow, hkey⟩
    · exact ih h

theorem nodup_inserted (hseqs : (rows.map (·.seq)).Nodup) (haddrs : (rows.map (·.stealthAddr)).Nodup) :
    ((news.foldl insertRecord rows).map (·.seq)).Nodup ∧
      ((news.foldl insertRecord rows).map (·.stealthAddr)).Nodup := by
  induction news generalizing rows with
  | nil => exact ⟨hseqs, haddrs⟩
  | cons new news ih => exact ih (nodup_insertRecord .inl hseqs) (nodup_insertRecord .inr haddrs)

-- The update a swept record stages, on one row.
def mark (update row : PortalRecord) : PortalRecord :=
  if row.seq = update.seq then
    { row with swept := true, sweptTxHash := update.sweptTxHash, sweptAmount := update.sweptAmount }
  else row

def marked (updates : List PortalRecord) (row : PortalRecord) : PortalRecord :=
  updates.foldl (fun row update => mark update row) row

theorem flushInto_eq (r : PortalRegistry) (rows : List PortalRecord) : r.flushInto rows =
    ((r.pendingInserts.filterMap (r.records[·]?)).foldl insertRecord rows).map
      (marked (r.pendingSwept.filterMap (r.records[·]?))) := by
  have hfold : ∀ (updates rows : List PortalRecord),
      updates.foldl (fun rows record => Table.update (·.seq = record.seq) (fun row => { row with
        swept := true, sweptTxHash := record.sweptTxHash, sweptAmount := record.sweptAmount }) rows) rows =
      rows.map (marked updates) := by
    intro updates
    induction updates with
    | nil => exact fun rows => (List.map_id rows).symm
    | cons update updates ih =>
      intro rows
      rw [List.foldl_cons, ih, Table.update, List.map_map]
      refine List.map_congr_left fun row _ => ?_
      simp [marked, mark]
  exact hfold _ _

theorem mark_keys (update row : PortalRecord) :
    (mark update row).seq = row.seq ∧ (mark update row).stealthAddr = row.stealthAddr ∧
      (row.swept → (mark update row).swept) := by
  unfold mark
  split
  · exact ⟨rfl, rfl, fun _ => rfl⟩
  · exact ⟨rfl, rfl, id⟩

theorem marked_keys (updates : List PortalRecord) (row : PortalRecord) :
    (marked updates row).seq = row.seq ∧ (marked updates row).stealthAddr = row.stealthAddr ∧
      (row.swept → (marked updates row).swept) := by
  induction updates generalizing row with
  | nil => exact ⟨rfl, rfl, id⟩
  | cons update updates ih =>
    obtain ⟨hseq, haddr, hswept⟩ := mark_keys update row
    obtain ⟨hseq', haddr', hswept'⟩ := ih (mark update row)
    exact ⟨hseq'.trans hseq, haddr'.trans haddr, fun h => hswept' (hswept h)⟩

theorem marked_swept {updates : List PortalRecord} {update : PortalRecord} (hmem : update ∈ updates)
    (hseq : row.seq = update.seq) : (marked updates row).swept := by
  induction updates generalizing row with
  | nil => exact absurd hmem (by simp)
  | cons head updates ih =>
    rcases List.mem_cons.1 hmem with rfl | hmem
    · exact (marked_keys updates (mark update row)).2.2 (by simp [mark, hseq])
    · exact ih hmem ((mark_keys head row).1.trans hseq)

theorem marked_of_not_mem {updates : List PortalRecord} (h : ∀ update ∈ updates, row.seq ≠ update.seq) :
    marked updates row = row := by
  induction updates with
  | nil => rfl
  | cons update updates ih =>
    rw [show marked (update :: updates) row = marked updates (mark update row) from rfl, mark,
      if_neg (h update List.mem_cons_self)]
    exact ih fun other hother => h other (List.mem_cons_of_mem _ hother)

end Flush

end PortalRegistry

end Bongtu.Indexer
