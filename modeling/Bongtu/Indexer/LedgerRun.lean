import Bongtu.Indexer.LedgerReboot

namespace Bongtu.Indexer

open Bongtu.Core Outcome

open PostgresLedger

section Step

variable {l : PostgresLedger} {t : LedgerTables}

theorem tracks_empty : Tracks empty LedgerTables.empty where
  byOwner := rfl
  byCommitment := rfl
  increasing := .nil
  saved _ _ h := by cases h
  staged := rfl
  history := rfl
  seqs := rfl
  alarms := rfl
  alarmKeys := .nil
  applied := rfl
  appliedOnce := .nil

namespace Tracks

theorem markApplied (h : Tracks l t) {key : OpKey} (hfresh : key ∉ l.applied) :
    Tracks (l.markApplied key) t :=
  { h with
    applied := by simp only [PostgresLedger.markApplied, h.applied, List.append_assoc]
    appliedOnce := List.nodup_append_comm.mp (List.nodup_cons.mpr ⟨hfresh, h.appliedOnce⟩) }

theorem recordNote (h : Tracks l t) {txHash : TxHash} {o : DerivedNote}
    (hnew : ∀ n ∈ l.notes, n.leafIndex < o.leafIndex) : Tracks (recordNote txHash l o) t :=
  { h with
    byOwner := by
      simp only [PostgresLedger.recordNote, indexNote, indexed_append, indexed_notes, h.byOwner]
    byCommitment := by
      simp only [PostgresLedger.recordNote, indexNote, indexed_append, indexed_notes, h.byCommitment]
    increasing := by
      refine List.pairwise_append.mpr ⟨h.increasing, List.pairwise_singleton _ _, fun n hn n' hn' => ?_⟩
      rw [List.mem_singleton.mp hn']
      exact hnew n hn
    saved := fun i row hrow => by
      obtain ⟨n, hn, hbehind⟩ := h.saved i row hrow
      refine ⟨n, ?_, hbehind⟩
      exact (List.getElem?_append_left (List.getElem?_eq_some_iff.mp hn).1).trans hn
    staged := by
      have hle := h.length_le
      simp only [PostgresLedger.recordNote, indexNote, h.staged, List.length_append, List.length_singleton]
      rw [Nat.sub_add_comm hle, List.range'_concat]
      congr 2
      omega }

theorem raiseAlarm (h : Tracks l t) (alarm : EnvelopeAlarm) : Tracks (l.raiseAlarm alarm) t :=
  { h with alarms := by simp only [PostgresLedger.raiseAlarm, h.alarms, List.append_assoc] }

theorem markSpent (h : Tracks l t) (c : ℕ) : Tracks (l.markSpent c) t := by
  unfold PostgresLedger.markSpent
  split
  · exact h
  · next i hi =>
    rw [h.byCommitment] at hi
    obtain ⟨target, htarget, rfl⟩ := byCommitment_eq_some hi
    have hget (j : ℕ) : (l.notes.modify i LedgerNote.mark)[j]? =
        (fun n => if i = j then n.mark else n) <$> l.notes[j]? := List.getElem?_modify _ _ _ _
    have hunspent : l.notes.map LedgerNote.unspent = (l.notes.modify i LedgerNote.mark).map LedgerNote.unspent := by
      refine List.ext_getElem? fun j => ?_
      rw [List.getElem?_map, List.getElem?_map, hget]
      cases l.notes[j]? with
      | none => rfl
      | some n => by_cases hij : i = j <;> simp [hij, LedgerNote.mark, LedgerNote.unspent]
    have hleaves : (l.notes.modify i LedgerNote.mark).map (·.leafIndex) = l.notes.map (·.leafIndex) := by
      have hcomp := congrArg (List.map fun n : LedgerNote => n.leafIndex) hunspent
      simpa [Function.comp_def, LedgerNote.unspent] using hcomp.symm
    obtain ⟨howner, hcommitment⟩ := indexed_unspent hunspent
    exact { h with
      byOwner := h.byOwner.trans howner
      byCommitment := h.byCommitment.trans hcommitment
      increasing := by
        refine increasing_of_map (f := fun n : LedgerNote => n.leafIndex) ?_
        exact hleaves ▸ List.pairwise_map.mpr h.increasing
      saved := fun j row hrow => by
        obtain ⟨n, hn, hbehind⟩ := h.saved j row hrow
        refine ⟨_, (hget j).trans (congrArg _ hn), ?_⟩
        show Behind _ row (if i = j then n.mark else n)
        split
        · next hij =>
          subst hij
          obtain rfl : n = target := Option.some.inj (hn.symm.trans htarget)
          exact hbehind.mark
        · exact hbehind.more
      staged := by simpa using h.staged }

theorem recordHistory (h : Tracks l t) (op : OpEnvelope) (draft : DerivedHistory) :
    Tracks (recordHistory op l draft) t :=
  { h with
    history := by
      simp only [PostgresLedger.recordHistory, h.history, ← List.append_assoc, List.foldl_append,
        List.foldl_cons, List.foldl_nil]
    seqs := by
      simp only [PostgresLedger.recordHistory, ← List.append_assoc]
      rw [List.map_append, h.seqs, List.range_succ]
      rfl }

end Tracks

def leaves (l : PostgresLedger) : List ℕ := l.notes.map (·.leafIndex)

theorem leaves_markSpent (c : ℕ) : leaves (l.markSpent c) = leaves l := by
  unfold PostgresLedger.markSpent
  split
  · rfl
  · refine List.ext_getElem? fun j => ?_
    simp only [leaves, List.getElem?_map, List.getElem?_modify]
    cases l.notes[j]? with
    | none => rfl
    | some n => simp only [Option.map_eq_map, Option.map_some]; split <;> rfl

theorem leaves_recordNotes (txHash : TxHash) (outputs : List DerivedNote) :
    leaves (outputs.foldl (PostgresLedger.recordNote txHash) l) = leaves l ++ outputs.map (·.leafIndex) := by
  induction outputs generalizing l with
  | nil => simp
  | cons o outputs ih =>
    rw [List.foldl_cons, ih]
    simp [leaves, PostgresLedger.recordNote, indexNote]

theorem leaves_record (op : OpEnvelope) (d : DerivedOp) :
    leaves (l.record op d) = leaves l ++ d.outputs.map (·.leafIndex) := by
  have halarms (l : PostgresLedger) : leaves (d.alarms.foldl raiseAlarm l) = leaves l :=
    List.foldlRecOn d.alarms raiseAlarm (motive := (leaves · = leaves l)) rfl fun _ hl _ _ => hl
  have hspent (l : PostgresLedger) : leaves (d.spent.foldl markSpent l) = leaves l :=
    List.foldlRecOn d.spent markSpent (motive := (leaves · = leaves l)) rfl fun _ hl c _ =>
      (leaves_markSpent c).trans hl
  have hhistory (l : PostgresLedger) : leaves (d.history.foldl (recordHistory op) l) = leaves l :=
    List.foldlRecOn d.history (recordHistory op) (motive := (leaves · = leaves l)) rfl fun _ hl _ _ => hl
  simp only [PostgresLedger.record, hhistory, hspent, halarms, leaves_recordNotes]

namespace Tracks

theorem recordNotes {txHash : TxHash} {outputs : List DerivedNote} (h : Tracks l t)
    (hnew : (leaves l ++ outputs.map (·.leafIndex)).Pairwise (· < ·)) :
    Tracks (outputs.foldl (PostgresLedger.recordNote txHash) l) t := by
  induction outputs generalizing l with
  | nil => exact h
  | cons o outputs ih =>
    have hfirst : Tracks (PostgresLedger.recordNote txHash l o) t := by
      refine h.recordNote fun n hn => ?_
      exact (List.pairwise_append.mp hnew).2.2 _ (List.mem_map_of_mem hn) _ (by simp)
    refine ih hfirst ?_
    simpa [leaves, PostgresLedger.recordNote, indexNote] using hnew

theorem record (h : Tracks l t) {op : OpEnvelope} {d : DerivedOp}
    (hnew : (leaves l ++ d.outputs.map (·.leafIndex)).Pairwise (· < ·)) : Tracks (l.record op d) t := by
  have hnotes : Tracks (d.outputs.foldl (PostgresLedger.recordNote op.txHash) l) t := h.recordNotes hnew
  have halarms := List.foldlRecOn d.alarms PostgresLedger.raiseAlarm (motive := (Tracks · t)) hnotes
    fun _ hl alarm _ => hl.raiseAlarm alarm
  have hspent := List.foldlRecOn d.spent PostgresLedger.markSpent (motive := (Tracks · t)) halarms
    fun _ hl c _ => hl.markSpent c
  exact List.foldlRecOn d.history (PostgresLedger.recordHistory op) (motive := (Tracks · t)) hspent
    fun _ hl draft _ => hl.recordHistory op draft

theorem flush (h : Tracks l t) (hs : Settled l) : Tracks l.commitFlush (l.flushInto t) := by
  obtain ⟨hnotes, halarms⟩ := h.settled_iff.mp hs
  exact {
    byOwner := h.byOwner
    byCommitment := h.byCommitment
    increasing := h.increasing
    saved := fun i row hrow => ⟨row, hnotes ▸ hrow, .same⟩
    staged := by simp [commitFlush, hnotes]
    history := by simp [commitFlush, h.flushed_history, h.history]
    seqs := by simpa [commitFlush, h.flushed_history] using h.seqs
    alarms := by simp [commitFlush, halarms]
    alarmKeys := halarms ▸ hs.alarms
    applied := by simp [commitFlush, h.flushed_applied]
    appliedOnce := h.appliedOnce }

end Tracks

end Step

-- The chain's accepted ops in order: no log twice, and leaves appended one after another.
def Accepted (B : ℕ) (log : List OpEnvelope) : Prop :=
  (log.map OpEnvelope.key).Nodup ∧ (log.flatMap (OpEnvelope.positions B)).Pairwise (· < ·)

instance (B : ℕ) (log : List OpEnvelope) : Decidable (Accepted B log) := instDecidableAnd

structure LedgerWorld where
  log : List OpEnvelope
  ledger : PostgresLedger
  tree : MirrorTree ℕ
  tables : LedgerTables

inductive LedgerAction where
  | apply (op : OpEnvelope)
  | mirror (tree : MirrorTree ℕ)
  | flush

namespace LedgerWorld

def start (tree : MirrorTree ℕ) : LedgerWorld := ⟨[], empty, tree, LedgerTables.empty⟩

-- A call that throws leaves what it had done; the mirror moves between ops as ingest goes on.
def act (a : Arbiter) (w : LedgerWorld) : LedgerAction → LedgerWorld
  | .apply op =>
    let s := (PostgresLedger.apply a op (w.ledger, w.tree)).state
    { w with
      log := if op ∈ w.log then w.log else w.log ++ [op]
      ledger := s.1
      tree := s.2 }
  | .mirror tree => { w with tree := tree }
  | .flush => { w with ledger := w.ledger.commitFlush, tables := w.ledger.flushInto w.tables }

def run (a : Arbiter) (w : LedgerWorld) (actions : List LedgerAction) : LedgerWorld :=
  actions.foldl (act a) w

-- An op is handed over as the chain's next one, or again.
def Admissible (B : ℕ) (w : LedgerWorld) : LedgerAction → Prop
  | .apply op => op ∈ w.log ∨ Accepted B (w.log ++ [op])
  | _ => True

def Legal (a : Arbiter) : LedgerWorld → List LedgerAction → Prop
  | _, [] => True
  | w, x :: xs => w.Admissible a.B x ∧ Legal a (w.act a x) xs

end LedgerWorld

section Run

open LedgerWorld

variable {a : Arbiter} {w : LedgerWorld} {actions : List LedgerAction}

structure LedgerWorld.Inv (B : ℕ) (w : LedgerWorld) : Prop where
  tracks : Tracks w.ledger w.tables
  accepted : Accepted B w.log
  applied : w.ledger.applied = w.log.map OpEnvelope.key
  leaves : (leaves w.ledger).Sublist (w.log.flatMap (OpEnvelope.positions B))

theorem applied_record {l : PostgresLedger} (op : OpEnvelope) (d : DerivedOp) :
    (l.record op d).applied = l.applied := by
  let Same (l' : PostgresLedger) : Prop := l'.applied = l.applied
  have hnotes : Same _ := List.foldlRecOn d.outputs (recordNote op.txHash) rfl fun _ hl _ _ => hl
  have halarms : Same _ := List.foldlRecOn d.alarms raiseAlarm hnotes fun _ hl _ _ => hl
  have hspent : Same _ := List.foldlRecOn d.spent markSpent halarms fun l' hl c _ => by
    unfold markSpent
    split <;> exact hl
  exact List.foldlRecOn (motive := Same) d.history (recordHistory op) hspent fun _ hl _ _ => hl

theorem inv_apply (h : w.Inv a.B) {op : OpEnvelope} (hlegal : w.Admissible a.B (.apply op)) :
    (w.act a (.apply op)).Inv a.B := by
  by_cases hmem : op ∈ w.log
  · -- replayed: the mark stops it
    have happlied : op.key ∈ w.ledger.applied := h.applied ▸ List.mem_map_of_mem hmem
    simp only [act, PostgresLedger.apply, if_pos happlied, if_pos hmem]
    exact h
  · have haccepted := hlegal.resolve_left hmem
    have hfresh : op.key ∉ w.ledger.applied := by
      have hnodup := haccepted.1
      rw [List.map_append, List.nodup_append] at hnodup
      rw [h.applied]
      exact fun hkey => hnodup.2.2 _ hkey op.key (by simp) rfl
    have hmarked := h.tracks.markApplied hfresh
    simp only [act, PostgresLedger.apply, if_neg hfresh, if_neg hmem]
    cases hd : deriveOp a op with
    | error e =>
      exact {
        tracks := hmarked
        accepted := haccepted
        applied := by simp [markApplied, h.applied]
        leaves := h.leaves.trans (by simp) }
    | ok d =>
      have hleaves : (leaves (w.ledger.markApplied op.key) ++ d.outputs.map (·.leafIndex)).Sublist
          ((w.log ++ [op]).flatMap (OpEnvelope.positions a.B)) := by
        rw [List.flatMap_append]
        exact h.leaves.append (by simpa using deriveOp_leaves hd)
      exact {
        tracks := hmarked.record (haccepted.2.sublist hleaves)
        accepted := haccepted
        applied := by simp [applied_record, markApplied, h.applied]
        leaves := (leaves_record op d).symm ▸ hleaves }

theorem inv_act (h : w.Inv a.B) {x : LedgerAction} (hlegal : w.Admissible a.B x)
    (hsettled : x = .flush → Settled w.ledger) : (w.act a x).Inv a.B := by
  cases x with
  | apply op => exact inv_apply h hlegal
  | mirror tree => exact ⟨h.tracks, h.accepted, h.applied, h.leaves⟩
  | flush => exact ⟨h.tracks.flush (hsettled rfl), h.accepted, h.applied, h.leaves⟩

theorem run_append (more : List LedgerAction) : w.run a (actions ++ more) = (w.run a actions).run a more :=
  List.foldl_append

theorem legal_append {x : LedgerAction} (h : Legal a w (actions ++ [x])) :
    Legal a w actions ∧ (w.run a actions).Admissible a.B x := by
  induction actions generalizing w with
  | nil => exact ⟨trivial, h.1⟩
  | cons y actions ih => exact ⟨⟨h.1, (ih h.2).1⟩, (ih h.2).2⟩

theorem start_inv (tree : MirrorTree ℕ) (B : ℕ) : (start tree).Inv B :=
  ⟨tracks_empty, ⟨.nil, .nil⟩, rfl, List.Sublist.refl _⟩

-- A run that only flushes settled ledgers keeps the invariant.
theorem run_inv (h : w.Inv a.B) (hlegal : Legal a w actions)
    (hsettled : ∀ pre, pre ++ [.flush] <+: actions → Settled (w.run a pre).ledger) :
    (w.run a actions).Inv a.B := by
  induction actions using List.reverseRecOn with
  | nil => exact h
  | append_singleton actions x ih =>
    obtain ⟨hactions, hx⟩ := legal_append hlegal
    rw [run_append]
    refine inv_act (ih hactions fun pre hpre => hsettled pre (hpre.trans (List.prefix_append _ _))) hx ?_
    rintro rfl
    exact hsettled actions (List.prefix_refl _)

theorem same_iff_settled (h : w.Inv a.B) :
    SameView (boot (w.act a .flush).tables) (w.act a .flush).ledger ↔ Settled w.ledger :=
  h.tracks.sameView_iff

theorem forall_flush_concat {x : LedgerAction} {P : List LedgerAction → Prop} :
    (∀ pre, pre ++ [.flush] <+: actions ++ [x] → P pre) ↔
      (∀ pre, pre ++ [.flush] <+: actions → P pre) ∧ (x = .flush → P actions) := by
  constructor
  · intro h
    refine ⟨fun pre hpre => h pre (hpre.trans (List.prefix_append _ _)), ?_⟩
    rintro rfl
    exact h actions (List.prefix_refl _)
  · rintro ⟨hearlier, hlast⟩ pre hpre
    rcases List.prefix_concat_iff.mp hpre with heq | hpre
    · obtain ⟨rfl, hx⟩ := List.append_inj' heq rfl
      exact hlast (List.cons.inj hx).1.symm
    · exact hearlier pre hpre

-- Rebooted and live agree at every flush of a run exactly when every flush finds a settled ledger.
theorem rebooted_same_iff (tree : MirrorTree ℕ) (hlegal : Legal a (start tree) actions) :
    (∀ pre, pre ++ [.flush] <+: actions →
      SameView (boot ((start tree).run a (pre ++ [.flush])).tables)
        ((start tree).run a (pre ++ [.flush])).ledger) ↔
    ∀ pre, pre ++ [.flush] <+: actions → Settled ((start tree).run a pre).ledger := by
  induction actions using List.reverseRecOn with
  | nil => simp
  | append_singleton actions x ih =>
    obtain ⟨hactions, hx⟩ := legal_append hlegal
    have ih := ih hactions
    have hlast (hsettled : ∀ pre, pre ++ [.flush] <+: actions → Settled ((start tree).run a pre).ledger) :
        SameView (boot ((start tree).run a (actions ++ [.flush])).tables)
          ((start tree).run a (actions ++ [.flush])).ledger ↔
        Settled ((start tree).run a actions).ledger := by
      rw [run_append]
      exact same_iff_settled (run_inv (start_inv tree a.B) hactions hsettled)
    rw [forall_flush_concat, forall_flush_concat, ih]
    refine and_congr_right fun hsettled => ?_
    exact forall_congr' fun _ => hlast hsettled

-- An arbiter over the plain primitives, with `(3, 4)` as every op's shared point.
def plainArbiter : Arbiter := ⟨plainPrimitives, fun _ _ => "", 1, some [], 2, 2⟩

def plainTree : MirrorTree ℕ :=
  ⟨ImtTree.init (fun l r => plainPrimitives.poseidonN [l, r]) 2 2, fun _ => none, fun _ => none,
    fun _ => false, fun _ => false, [], fun _ => 0⟩

def plainOp (kind : Core.OpKind) (at' : OpKey) (plaintext : List ℕ) (leaves : List OutputLeaf) : OpEnvelope :=
  ⟨kind, at'.1, at'.2, 0, (3, 4), 0, plainPrimitives.poseidonEncrypt plaintext (3, 4) 0, none, leaves, none⟩

-- One deposit mints the same note at the leaves 0 and 1.
def twinDeposit : OpEnvelope :=
  let c := plainPrimitives.commitment 3 7 (5, 6)
  plainOp .deposit (1, 0) [5, 6, 5, 6, 3, 7, 3, 7] [⟨0, c⟩, ⟨1, c⟩]

def twinWithdraw : OpEnvelope :=
  plainOp .withdraw (2, 0) [5, 6, 3, 7, 0, 0, 5, 6, 0, 1] [⟨2, plainPrimitives.commitment 0 1 (5, 6)⟩]

-- An op whose key encapsulation does not match its binding.
def junkDeposit (logIndex : ℕ) : OpEnvelope :=
  { plainOp .deposit (3, logIndex) [] [⟨2 * logIndex, 0⟩, ⟨2 * logIndex + 1, 0⟩] with
    kem := some ⟨0, List.replicate 32 0⟩ }

theorem rebooted_same_sample :
    SameView (boot ((start plainTree).run plainArbiter [.apply twinDeposit, .flush]).tables)
      ((start plainTree).run plainArbiter [.apply twinDeposit, .flush]).ledger := by
  have hlegal : Legal plainArbiter (start plainTree) [.apply twinDeposit, .flush] :=
    ⟨.inr (by decide +kernel), trivial, trivial⟩
  have hsettled : Settled ((start plainTree).run plainArbiter [.apply twinDeposit]).ledger :=
    ⟨by decide +kernel, by decide +kernel⟩
  refine (rebooted_same_iff plainTree hlegal).mpr ?_ [.apply twinDeposit] (List.prefix_refl _)
  refine (forall_flush_concat (P := fun pre => Settled ((start plainTree).run plainArbiter pre).ledger)).mpr
    ⟨fun pre hpre => ?_, fun _ => hsettled⟩
  have hmem : LedgerAction.flush ∈ [LedgerAction.apply twinDeposit] := hpre.subset (by simp)
  simp at hmem

-- The live ledger marks one of the twins, the rows both; and of two alarms with one text in one
-- transaction the rows keep one.
theorem twins_not_rebooted :
    let twins : List LedgerAction := [.apply twinDeposit, .apply twinWithdraw, .flush]
    let junk : List LedgerAction := [.apply (junkDeposit 0), .apply (junkDeposit 1), .flush]
    let after (actions : List LedgerAction) := (start plainTree).run plainArbiter actions
    (Legal plainArbiter (start plainTree) twins ∧
      (after twins).ledger.notesOf (5, 6) ≠ (boot (after twins).tables).notesOf (5, 6)) ∧
    Legal plainArbiter (start plainTree) junk ∧
      (after junk).ledger.alarms ≠ (boot (after junk).tables).alarms := by
  refine ⟨⟨⟨.inr ?_, .inr ?_, trivial, trivial⟩, ?_⟩, ⟨.inr ?_, .inr ?_, trivial, trivial⟩, ?_⟩ <;>
    decide +kernel

end Run

end Bongtu.Indexer
