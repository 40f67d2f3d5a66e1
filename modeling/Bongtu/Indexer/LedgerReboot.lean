import Bongtu.Indexer.PostgresLedger

namespace Bongtu.Indexer

open Bongtu.Core Outcome

def LedgerNote.unspent (n : LedgerNote) : LedgerNote := { n with spent := false }

def LedgerNote.mark (n : LedgerNote) : LedgerNote := { n with spent := true }

def PostgresLedger.indexed (notes : List LedgerNote) : PostgresLedger :=
  notes.foldl PostgresLedger.indexNote PostgresLedger.empty

abbrev EnvelopeAlarm.key (alarm : EnvelopeAlarm) : TxHash × String := (alarm.txHash, alarm.detail)

section Index

open PostgresLedger

variable {notes : List LedgerNote} {owner : Point} {c i : ℕ}

theorem indexed_append (note : LedgerNote) : indexed (notes ++ [note]) = (indexed notes).indexNote note := by
  simp [indexed]

theorem indexed_notes : (indexed notes).notes = notes := by
  induction notes using List.reverseRecOn with
  | nil => rfl
  | append_singleton notes note ih =>
    rw [indexed_append]
    simp [indexNote, ih]

theorem indexed_fields : indexed notes = { empty with
    notes := notes
    byOwner := (indexed notes).byOwner
    byCommitment := (indexed notes).byCommitment } := by
  induction notes using List.reverseRecOn with
  | nil => rfl
  | append_singleton notes note ih =>
    rw [indexed_append, ih]
    rfl

theorem boot_pending (t : LedgerTables) :
    (boot t).pendingNotes = [] ∧ (boot t).pendingSpent = [] ∧ (boot t).pendingHistory = [] ∧
      (boot t).pendingAlarms = [] ∧ (boot t).pendingApplied = [] := by
  have hfields := @indexed_fields (Table.orderBy (fun n : LedgerNote => n.leafIndex) t.notes)
  exact ⟨(congrArg pendingNotes hfields :), (congrArg pendingSpent hfields :),
    (congrArg pendingHistory hfields :), (congrArg pendingAlarms hfields :),
    (congrArg pendingApplied hfields :)⟩

theorem mem_byOwner :
    i ∈ (indexed notes).byOwner owner ↔ ∃ n, notes[i]? = some n ∧ n.owner = owner := by
  induction notes using List.reverseRecOn with
  | nil => simp [indexed, empty]
  | append_singleton notes note ih =>
    rw [indexed_append]
    simp only [indexNote, indexed_notes, Function.update_apply]
    rcases Nat.lt_trichotomy i notes.length with hlt | rfl | hgt
    · rw [List.getElem?_append_left hlt, ← ih]
      split
      · next h => simp [h, hlt.ne]
      · rfl
    · have hnone : ¬ ∃ n, notes[notes.length]? = some n ∧ n.owner = owner := by simp
      rw [List.getElem?_concat_length]
      split
      · next h => simp [h]
      · next h =>
        rw [ih]
        refine iff_of_false hnone ?_
        rintro ⟨n, hn, howner⟩
        cases hn
        exact h howner.symm
    · have hlen : (notes ++ [note])[i]? = none := List.getElem?_eq_none (by simp; omega)
      have hnone : notes[i]? = none := List.getElem?_eq_none hgt.le
      rw [hlen]
      split
      · next h =>
        subst h
        rw [List.mem_append, ih, hnone]
        simp [hgt.ne']
      · rw [ih, hnone]

theorem byCommitment_eq_some (h : (indexed notes).byCommitment c = some i) :
    ∃ n, notes[i]? = some n ∧ n.commitment = c := by
  induction notes using List.reverseRecOn with
  | nil => cases h
  | append_singleton notes note ih =>
    rw [indexed_append] at h
    simp only [indexNote, indexed_notes, Function.update_apply] at h
    split at h
    · next hc =>
      cases h
      exact ⟨note, List.getElem?_concat_length, hc.symm⟩
    · obtain ⟨n, hn, hcommitment⟩ := ih h
      exact ⟨n, List.getElem?_append_left (List.getElem?_eq_some_iff.mp hn).1 ▸ hn, hcommitment⟩

-- The maps do not see the spent flags.
theorem indexed_unspent {rows : List LedgerNote}
    (h : rows.map LedgerNote.unspent = notes.map LedgerNote.unspent) :
    (indexed rows).byOwner = (indexed notes).byOwner ∧
      (indexed rows).byCommitment = (indexed notes).byCommitment := by
  induction rows using List.reverseRecOn generalizing notes with
  | nil =>
    obtain rfl : notes = [] := List.map_eq_nil_iff.mp h.symm
    exact ⟨rfl, rfl⟩
  | append_singleton rows row ih =>
    have hne : notes ≠ [] := by
      rintro rfl
      simp at h
    obtain ⟨init, note, rfl⟩ : ∃ init note, notes = init ++ [note] :=
      ⟨_, _, (List.dropLast_append_getLast hne).symm⟩
    rw [List.map_append, List.map_append] at h
    obtain ⟨hinit, hlast⟩ := List.append_inj' h rfl
    obtain ⟨howner, hcommitment⟩ := ih hinit
    have hlen : rows.length = init.length := by simpa using congrArg List.length hinit
    have hrow : row.unspent = note.unspent := by simpa using hlast
    have hsame : row.owner = note.owner ∧ row.commitment = note.commitment :=
      ⟨congrArg (·.owner) hrow, congrArg (·.commitment) hrow⟩
    simp only [indexed_append, indexNote, indexed_notes, howner, hcommitment, hlen, hsame.1, hsame.2,
      and_self]

end Index

-- The note as it stands in memory against its row: the same, or marked spent since the row was written.
inductive Behind (pendingSpent : List ℕ) (row : LedgerNote) : LedgerNote → Prop where
  | same : Behind pendingSpent row row
  | marked (hspent : row.spent = false) (hmark : row.commitment ∈ pendingSpent) :
      Behind pendingSpent row row.mark

-- The live ledger against the durable rows: what is not in the rows is in the write-behind buffers.
structure Tracks (l : PostgresLedger) (t : LedgerTables) : Prop where
  byOwner : l.byOwner = (PostgresLedger.indexed l.notes).byOwner
  byCommitment : l.byCommitment = (PostgresLedger.indexed l.notes).byCommitment
  increasing : l.notes.Pairwise fun n n' => n.leafIndex < n'.leafIndex
  saved : ∀ (i : ℕ) row, t.notes[i]? = some row → ∃ n, l.notes[i]? = some n ∧ Behind l.pendingSpent row n
  staged : l.pendingNotes = List.range' t.notes.length (l.notes.length - t.notes.length)
  history : l.historyByOwner =
    (t.history ++ l.pendingHistory).foldl pushHistory PostgresLedger.empty.historyByOwner
  seqs : (t.history ++ l.pendingHistory).map (·.item.seq) = List.range l.historySeq
  alarms : l.alarms = t.envelopeAlarms ++ l.pendingAlarms
  alarmKeys : (t.envelopeAlarms.map EnvelopeAlarm.key).Nodup
  applied : l.applied = t.appliedOps ++ l.pendingApplied
  appliedOnce : l.applied.Nodup

-- Every note of a commitment whose spent mark waits for the flush is marked, and no alarm repeats the
-- key of another.
structure Settled (l : PostgresLedger) : Prop where
  marks : ∀ n ∈ l.notes, n.commitment ∈ l.pendingSpent → n.spent = true
  alarms : (l.alarms.map EnvelopeAlarm.key).Nodup

section Flush

open PostgresLedger

variable {l : PostgresLedger} {t : LedgerTables} {pendingSpent : List ℕ} {row n : LedgerNote}

theorem Behind.unspent_eq (h : Behind pendingSpent row n) : row.unspent = n.unspent := by
  cases h <;> rfl

theorem Behind.leafIndex_eq (h : Behind pendingSpent row n) : row.leafIndex = n.leafIndex := by
  cases h <;> rfl

theorem Behind.more {c : ℕ} (h : Behind pendingSpent row n) : Behind (pendingSpent ++ [c]) row n := by
  cases h with
  | same => exact .same
  | marked hspent hmark => exact .marked hspent (List.mem_append_left _ hmark)

theorem Behind.mark (h : Behind pendingSpent row n) :
    Behind (pendingSpent ++ [n.commitment]) row n.mark := by
  cases h with
  | same =>
    cases hspent : row.spent with
    | false => exact .marked hspent (by simp)
    | true =>
      have hmark : row.mark = row := by
        obtain ⟨owner, value, salt, leafIndex, commitment, txHash, spent⟩ := row
        cases hspent
        rfl
      rw [hmark]
      exact .same
  | marked hspent hmark => exact .marked hspent (List.mem_append_left _ hmark)

def settle (pendingSpent : List ℕ) (n : LedgerNote) : LedgerNote :=
  if n.commitment ∈ pendingSpent then n.mark else n

theorem settle_commitment : (settle pendingSpent n).commitment = n.commitment := by
  unfold settle
  split <;> rfl

theorem update_settle (cs : List ℕ) (rows : List LedgerNote) :
    cs.foldl (fun rows c => Table.update (·.commitment = c) (fun n => { n with spent := true }) rows) rows =
      rows.map (settle cs) := by
  induction cs using List.reverseRecOn with
  | nil => exact (List.map_id rows).symm
  | append_singleton cs c ih =>
    rw [List.foldl_append, List.foldl_cons, List.foldl_nil, ih, Table.update, List.map_map]
    refine List.map_congr_left fun n _ => ?_
    have hstep : (if (settle cs n).commitment = c then (settle cs n).mark else settle cs n) =
        settle (cs ++ [c]) n := by
      rw [settle_commitment]
      simp only [settle, List.mem_append, List.mem_singleton]
      split <;> split <;> simp_all [LedgerNote.mark]
    simpa [LedgerNote.mark] using hstep

-- Writing the pending marks over a row gives the note exactly when the note carries its mark.
theorem Behind.settle_eq_iff (h : Behind pendingSpent row n) :
    settle pendingSpent row = n ↔ (n.commitment ∈ pendingSpent → n.spent = true) := by
  cases h with
  | same =>
    unfold settle
    split
    · next hmem =>
      constructor
      · intro heq _
        exact (congrArg LedgerNote.spent heq).symm
      · intro hspent
        obtain ⟨owner, value, salt, leafIndex, commitment, txHash, spent⟩ := row
        cases hspent hmem
        rfl
    · next hmem => exact iff_of_true rfl fun h => absurd h hmem
  | marked hspent hmark => exact iff_of_true (if_pos hmark) fun _ => rfl

theorem filterMap_getElem?_range' {α : Type} {xs : List α} {k : ℕ} :
    (List.range' k (xs.length - k)).filterMap (xs[·]?) = xs.drop k := by
  induction hn : xs.length - k generalizing k with
  | zero => exact (List.drop_eq_nil_of_le (by omega)).symm
  | succ m ih =>
    have hk : k < xs.length := by omega
    rw [List.range'_succ, List.filterMap_cons, List.getElem?_eq_getElem hk, List.drop_eq_getElem_cons hk,
      ih (by omega)]

theorem map_settle_eq_iff {rows notes : List LedgerNote} (h : List.Forall₂ (Behind pendingSpent) rows notes) :
    rows.map (settle pendingSpent) = notes ↔
      ∀ n ∈ notes, n.commitment ∈ pendingSpent → n.spent = true := by
  induction h with
  | nil => simp
  | cons hrow _ ih => simp only [List.map_cons, List.cons.injEq, hrow.settle_eq_iff, ih, List.forall_mem_cons]

theorem map_eq_of_behind {β : Type} {f : LedgerNote → β} {rows notes : List LedgerNote}
    (h : List.Forall₂ (Behind pendingSpent) rows notes)
    (hf : ∀ row n, Behind pendingSpent row n → f row = f n) : rows.map f = notes.map f := by
  induction h with
  | nil => rfl
  | cons hrow _ ih => rw [List.map_cons, List.map_cons, hf _ _ hrow, ih]

theorem map_settle {β : Type} {f : LedgerNote → β} (hf : ∀ n, f (settle pendingSpent n) = f n)
    (rows : List LedgerNote) : (rows.map (settle pendingSpent)).map f = rows.map f := by
  rw [List.map_map]
  exact List.map_congr_left fun n _ => hf n

theorem settle_unspent : (settle pendingSpent n).unspent = n.unspent := by
  unfold settle
  split <;> rfl

theorem settle_leafIndex : (settle pendingSpent n).leafIndex = n.leafIndex := by
  unfold settle
  split <;> rfl

theorem increasing_of_map {β : Type} {f : β → ℕ} {xs : List β} (h : (xs.map f).Pairwise (· < ·)) :
    xs.Pairwise fun a b => f a < f b :=
  List.pairwise_map.mp h

theorem next_of_seqs {items : List OwnedItem} {k : ℕ} (h : items.map (·.item.seq) = List.range k) :
    items.foldl (fun next owned => max next (owned.item.seq + 1)) 0 = k := by
  induction items using List.reverseRecOn generalizing k with
  | nil => exact (List.range_eq_nil.mp h.symm).symm
  | append_singleton items owned ih =>
    obtain _ | k := k
    · simp at h
    · rw [List.map_append, List.range_succ] at h
      obtain ⟨hitems, hlast⟩ := List.append_inj' h rfl
      have hseq : owned.item.seq = k := by simpa using hlast
      rw [List.foldl_append, ih hitems, List.foldl_cons, List.foldl_nil, hseq]
      omega

namespace Tracks

variable (h : Tracks l t)
include h

theorem length_le : t.notes.length ≤ l.notes.length := by
  by_contra hlt
  obtain ⟨n, hn, -⟩ := h.saved l.notes.length _ (List.getElem?_eq_getElem (by omega))
  rw [List.getElem?_eq_none le_rfl] at hn
  cases hn

theorem behind : List.Forall₂ (Behind l.pendingSpent) (t.notes ++ l.notes.drop t.notes.length) l.notes := by
  have hle := h.length_le
  refine List.forall₂_iff_get.mpr ⟨by simp; omega, fun i h₁ h₂ => ?_⟩
  simp only [List.get_eq_getElem]
  rcases Nat.lt_or_ge i t.notes.length with hlt | hge
  · obtain ⟨n, hn, hbehind⟩ := h.saved i _ (List.getElem?_eq_getElem hlt)
    obtain ⟨_, rfl⟩ := List.getElem?_eq_some_iff.mp hn
    rw [List.getElem_append_left hlt]
    exact hbehind
  · rw [List.getElem_append_right hge, List.getElem_drop]
    simp only [Nat.add_sub_cancel' hge]
    exact .same

theorem flushed_notes : (l.flushInto t).notes =
    (t.notes ++ l.notes.drop t.notes.length).map (settle l.pendingSpent) := by
  have hleaves : ((t.notes ++ l.notes.drop t.notes.length).map (·.leafIndex)).Nodup := by
    rw [map_eq_of_behind h.behind fun _ _ hb => hb.leafIndex_eq]
    exact List.pairwise_map.mpr (h.increasing.imp fun hlt => hlt.ne)
  have hsaved : (t.notes.map (·.leafIndex)).Nodup := by
    rw [List.map_append] at hleaves
    exact hleaves.of_append_left
  simp only [flushInto, update_settle]
  rw [h.staged, filterMap_getElem?_range', (Table.insertAll_eq_append_iff hsaved).mpr hleaves]

theorem flushed_history : (l.flushInto t).history = t.history ++ l.pendingHistory := by
  have hseqs : ((t.history ++ l.pendingHistory).map (·.item.seq)).Nodup := h.seqs ▸ List.nodup_range
  have hsaved : (t.history.map (·.item.seq)).Nodup := by
    rw [List.map_append] at hseqs
    exact hseqs.of_append_left
  exact (Table.insertAll_eq_append_iff hsaved).mpr hseqs

theorem flushed_applied : (l.flushInto t).appliedOps = l.applied := by
  have honce : ((t.appliedOps ++ l.pendingApplied).map id).Nodup := by
    rw [List.map_id, ← h.applied]
    exact h.appliedOnce
  have hsaved : (t.appliedOps.map id).Nodup := by
    rw [List.map_append] at honce
    exact honce.of_append_left
  rw [h.applied]
  exact (Table.insertAll_eq_append_iff hsaved).mpr honce

theorem flushed_alarms : (l.flushInto t).envelopeAlarms = l.alarms ↔ (l.alarms.map EnvelopeAlarm.key).Nodup := by
  rw [h.alarms]
  exact Table.insertAll_eq_append_iff h.alarmKeys

theorem settled_iff : Settled l ↔ (l.flushInto t).notes = l.notes ∧ (l.flushInto t).envelopeAlarms = l.alarms := by
  rw [h.flushed_alarms, h.flushed_notes, map_settle_eq_iff h.behind]
  exact ⟨fun hs => ⟨hs.marks, hs.alarms⟩, fun hs => ⟨hs.1, hs.2⟩⟩

-- The rows come back in the order the notes were recorded, each at its own place.
theorem rebooted_notes : (boot (l.flushInto t)).notes = (l.flushInto t).notes ∧
    (boot (l.flushInto t)).byOwner = l.byOwner ∧ (boot (l.flushInto t)).byCommitment = l.byCommitment := by
  have hunspent : (l.flushInto t).notes.map LedgerNote.unspent = l.notes.map LedgerNote.unspent := by
    rw [h.flushed_notes, map_settle (fun _ => settle_unspent),
      map_eq_of_behind h.behind fun _ _ hb => hb.unspent_eq]
  have hleaves : (l.flushInto t).notes.map (·.leafIndex) = l.notes.map (·.leafIndex) := by
    rw [h.flushed_notes, map_settle (fun _ => settle_leafIndex),
      map_eq_of_behind h.behind fun _ _ hb => hb.leafIndex_eq]
  have hincreasing : (l.flushInto t).notes.Pairwise fun n n' => n.leafIndex < n'.leafIndex := by
    refine increasing_of_map (f := fun n : LedgerNote => n.leafIndex) ?_
    rw [hleaves]
    exact List.pairwise_map.mpr h.increasing
  have hboot : boot (l.flushInto t) = { indexed (l.flushInto t).notes with
      historyByOwner := (boot (l.flushInto t)).historyByOwner
      historySeq := (boot (l.flushInto t)).historySeq
      alarms := (l.flushInto t).envelopeAlarms
      applied := (l.flushInto t).appliedOps } := by
    unfold boot indexed
    rw [Table.orderBy_of_increasing hincreasing]
  obtain ⟨howner, hcommitment⟩ := indexed_unspent hunspent
  rw [hboot]
  exact ⟨indexed_notes, howner.trans h.byOwner.symm, hcommitment.trans h.byCommitment.symm⟩

theorem rebooted_history : (boot (l.flushInto t)).historyByOwner = l.historyByOwner ∧
    (boot (l.flushInto t)).historySeq = l.historySeq := by
  have hincreasing : (t.history ++ l.pendingHistory).Pairwise fun o o' => o.item.seq < o'.item.seq := by
    refine increasing_of_map (f := fun o : OwnedItem => o.item.seq) ?_
    rw [h.seqs]
    exact List.pairwise_lt_range
  simp only [boot, h.flushed_history, Table.orderBy_of_increasing hincreasing]
  exact ⟨h.history.symm, next_of_seqs h.seqs⟩

end Tracks

end Flush

-- What the ledger serves.
structure SameView (l l' : PostgresLedger) : Prop where
  notes : ∀ owner, l.notesOf owner = l'.notesOf owner
  history : ∀ owner limit before, l.historyOf owner limit before = l'.historyOf owner limit before
  alarms : l.alarms = l'.alarms

section Reboot

open PostgresLedger

variable {l : PostgresLedger} {t : LedgerTables}

theorem filterMap_inj {f g : ℕ → Option LedgerNote} {xs : List ℕ} (hf : ∀ i ∈ xs, (f i).isSome)
    (hg : ∀ i ∈ xs, (g i).isSome) (h : xs.filterMap f = xs.filterMap g) : ∀ i ∈ xs, f i = g i := by
  induction xs with
  | nil => simp
  | cons i xs ih =>
    obtain ⟨a, ha⟩ := Option.isSome_iff_exists.mp (hf i List.mem_cons_self)
    obtain ⟨b, hb⟩ := Option.isSome_iff_exists.mp (hg i List.mem_cons_self)
    rw [List.filterMap_cons_some ha, List.filterMap_cons_some hb] at h
    obtain ⟨hhead, htail⟩ := List.cons.inj h
    rw [List.forall_mem_cons]
    exact ⟨by rw [ha, hb, hhead], ih (fun j hj => hf j (List.mem_cons_of_mem _ hj))
      (fun j hj => hg j (List.mem_cons_of_mem _ hj)) htail⟩

namespace Tracks

variable (h : Tracks l t)
include h

-- Settled, the rows give back the whole ledger with its buffers emptied.
theorem boot_eq (hs : Settled l) : boot (l.flushInto t) = l.commitFlush := by
  obtain ⟨hnotes, halarms⟩ := h.settled_iff.mp hs
  obtain ⟨hrows, howner, hcommitment⟩ := h.rebooted_notes
  obtain ⟨hhistory, hseq⟩ := h.rebooted_history
  obtain ⟨hpending, hspent, hitems, hraised, hmarks⟩ := boot_pending (l.flushInto t)
  exact PostgresLedger.ext (hrows.trans hnotes) howner hcommitment hhistory halarms h.flushed_applied hseq
    hpending hspent hitems hraised hmarks

theorem sameView_iff : SameView (boot (l.flushInto t)) l.commitFlush ↔ Settled l := by
  constructor
  · intro hview
    obtain ⟨hrows, howner, -⟩ := h.rebooted_notes
    have hlen : (l.flushInto t).notes.length = l.notes.length := by
      rw [h.flushed_notes, List.length_map]
      exact h.behind.length_eq
    refine h.settled_iff.mpr ⟨List.ext_getElem? fun i => ?_, hview.alarms⟩
    rcases Nat.lt_or_ge i l.notes.length with hlt | hge
    · -- the note at `i` is in its owner's list, on both sides at the same place
      have hmem : i ∈ l.byOwner l.notes[i].owner := by
        rw [h.byOwner, mem_byOwner]
        exact ⟨_, List.getElem?_eq_getElem hlt, rfl⟩
      have hplaces : ∀ j ∈ l.byOwner l.notes[i].owner, j < l.notes.length := by
        intro j hj
        rw [h.byOwner, mem_byOwner] at hj
        obtain ⟨n, hn, -⟩ := hj
        exact (List.getElem?_eq_some_iff.mp hn).1
      have hnotes := hview.notes l.notes[i].owner
      simp only [notesOf, howner, hrows, commitFlush] at hnotes
      exact filterMap_inj (fun j hj => by simpa [hlen] using hplaces j hj)
        (fun j hj => by simpa using hplaces j hj) hnotes i hmem
    · rw [List.getElem?_eq_none hge, List.getElem?_eq_none (hlen ▸ hge)]
  · intro hs
    rw [h.boot_eq hs]
    exact ⟨fun _ => rfl, fun _ _ _ => rfl, rfl⟩

end Tracks

end Reboot

end Bongtu.Indexer
