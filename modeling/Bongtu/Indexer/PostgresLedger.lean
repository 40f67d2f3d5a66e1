import Bongtu.Indexer.Ledger
import Bongtu.Indexer.MirrorTree
import Bongtu.Table

namespace Bongtu.Indexer

open Bongtu.Core Outcome

abbrev OpKey := TxHash × ℕ

instance : LawfulBEq OpKey := inferInstance

def OpEnvelope.key (op : OpEnvelope) : OpKey := (op.txHash, op.logIndex)

abbrev HistoryByOwner := Point → List LedgerHistoryItem

structure OwnedItem where
  owner : Point
  item : LedgerHistoryItem
deriving DecidableEq, Repr

-- `notes` holds every note object; the maps and the write-behind buffer share them, and hold places in
-- that list.
@[ext] structure PostgresLedger where
  notes : List LedgerNote
  byOwner : Point → List ℕ
  byCommitment : ℕ → Option ℕ
  historyByOwner : HistoryByOwner
  alarms : List EnvelopeAlarm
  applied : List OpKey
  historySeq : ℕ
  pendingNotes : List ℕ
  pendingSpent : List ℕ
  pendingHistory : List OwnedItem
  pendingAlarms : List EnvelopeAlarm
  pendingApplied : List OpKey

structure LedgerTables where
  notes : List LedgerNote
  history : List OwnedItem
  envelopeAlarms : List EnvelopeAlarm
  appliedOps : List OpKey
deriving DecidableEq, Repr

def LedgerTables.empty : LedgerTables := ⟨[], [], [], []⟩

def packPubkey (point : Point) : ℕ :=
  (point.2 % 2 ^ 256) ||| (if point.1 % 2 = 1 then 2 ^ 255 else 0)

def makeHistoryItem (draft : DerivedHistory) (op : OpEnvelope) (seq : ℕ) : LedgerHistoryItem :=
  ⟨draft.kind, draft.counterparty.map packPubkey, draft.amount, op.txHash, op.blockTimestamp, seq⟩

-- The place `insertionIndex` walks down to: before it every seq is at most the new one's.
def insertionIndex (arr : List LedgerHistoryItem) (seq : ℕ) : ℕ → ℕ
  | 0 => 0
  | i + 1 => if (arr[i]?.elim false fun h => h.seq > seq) then insertionIndex arr seq i else i + 1

def insertItem (arr : List LedgerHistoryItem) (item : LedgerHistoryItem) : List LedgerHistoryItem :=
  if arr.getLast?.elim false (fun newest => item.seq ≤ newest.seq) then
    arr.insertIdx (insertionIndex arr item.seq arr.length) item
  else arr ++ [item]

def pushHistory (h : HistoryByOwner) (owned : OwnedItem) : HistoryByOwner :=
  Function.update h owned.owner (insertItem (h owned.owner) owned.item)

namespace PostgresLedger

def empty : PostgresLedger :=
  ⟨[], fun _ => [], fun _ => none, fun _ => [], [], [], 0, [], [], [], [], []⟩

def indexNote (l : PostgresLedger) (note : LedgerNote) : PostgresLedger :=
  { l with
    notes := l.notes ++ [note]
    byOwner := Function.update l.byOwner note.owner (l.byOwner note.owner ++ [l.notes.length])
    byCommitment := Function.update l.byCommitment note.commitment (some l.notes.length) }

def recordNote (txHash : TxHash) (l : PostgresLedger) (o : DerivedNote) : PostgresLedger :=
  { l.indexNote ⟨o.owner, o.value, o.salt, o.leafIndex, o.commitment, txHash, false⟩ with
    pendingNotes := l.pendingNotes ++ [l.notes.length] }

def raiseAlarm (l : PostgresLedger) (a : EnvelopeAlarm) : PostgresLedger :=
  { l with alarms := l.alarms ++ [a], pendingAlarms := l.pendingAlarms ++ [a] }

def markSpent (l : PostgresLedger) (c : ℕ) : PostgresLedger :=
  match l.byCommitment c with
  | none => l
  | some i => { l with
      notes := l.notes.modify i fun n => { n with spent := true }
      pendingSpent := l.pendingSpent ++ [c] }

def recordHistory (op : OpEnvelope) (l : PostgresLedger) (h : DerivedHistory) : PostgresLedger :=
  let owned : OwnedItem := ⟨h.owner, makeHistoryItem h op l.historySeq⟩
  { l with
    historySeq := l.historySeq + 1
    historyByOwner := pushHistory l.historyByOwner owned
    pendingHistory := l.pendingHistory ++ [owned] }

def record (op : OpEnvelope) (d : DerivedOp) (l : PostgresLedger) : PostgresLedger :=
  let l := d.outputs.foldl (recordNote op.txHash) l
  let l := d.alarms.foldl raiseAlarm l
  let l := d.spent.foldl markSpent l
  d.history.foldl (recordHistory op) l

def markApplied (l : PostgresLedger) (key : OpKey) : PostgresLedger :=
  { l with applied := l.applied ++ [key], pendingApplied := l.pendingApplied ++ [key] }

def fill (d : DerivedOp) (tree : MirrorTree ℕ) : MirrorTree ℕ :=
  d.batchFill.elim tree fun b => tree.fillBatch b.start b.leaves false

-- The op is marked applied before it is derived: a derivation that throws leaves the mark.
def apply (a : Arbiter) (op : OpEnvelope) (s : PostgresLedger × MirrorTree ℕ) :
    Run DeriveError (PostgresLedger × MirrorTree ℕ) :=
  if op.key ∈ s.1.applied then .returned s
  else
    let l := s.1.markApplied op.key
    match deriveOp a op with
    | .error e => .threw e (l, s.2)
    | .ok d => .returned (l.record op d, fill d s.2)

def notesOf (l : PostgresLedger) (owner : Point) : List LedgerNote :=
  (l.byOwner owner).filterMap (l.notes[·]?)

def lastBelow (arr : List LedgerHistoryItem) (before : ℕ) (lo hi ans : ℤ) : ℤ :=
  if lo > hi then ans
  else
    let mid := (lo + hi) / 2
    if arr[mid.toNat]?.elim false (fun h => h.seq < before) then lastBelow arr before (mid + 1) hi mid
    else lastBelow arr before lo (mid - 1) ans
termination_by (hi + 1 - lo).toNat
decreasing_by all_goals omega

def lastIndexBelow (arr : List LedgerHistoryItem) (before : ℕ) : ℤ :=
  lastBelow arr before 0 (arr.length - 1) (-1)

def historyOf (l : PostgresLedger) (owner : Point) (limit before : Option ℕ) : List LedgerHistoryItem :=
  let arr := l.historyByOwner owner
  let start : ℤ := before.elim (arr.length - 1) (lastIndexBelow arr)
  let count := min (start + 1).toNat (limit.getD arr.length)
  (List.range count).filterMap fun j => arr[(start - j).toNat]?

def flushInto (l : PostgresLedger) (t : LedgerTables) : LedgerTables where
  notes := l.pendingSpent.foldl
    (fun rows c => Table.update (·.commitment = c) (fun n => { n with spent := true }) rows)
    (Table.insertAll (·.leafIndex) t.notes (l.pendingNotes.filterMap (l.notes[·]?)))
  history := Table.insertAll (·.item.seq) t.history l.pendingHistory
  envelopeAlarms := Table.insertAll (fun a => (a.txHash, a.detail)) t.envelopeAlarms l.pendingAlarms
  appliedOps := Table.insertAll id t.appliedOps l.pendingApplied

def commitFlush (l : PostgresLedger) : PostgresLedger :=
  { l with
    pendingNotes := [], pendingSpent := [], pendingHistory := [], pendingAlarms := []
    pendingApplied := [] }

def boot (t : LedgerTables) : PostgresLedger :=
  let indexed := (Table.orderBy (·.leafIndex) t.notes).foldl indexNote empty
  let history := Table.orderBy (·.item.seq) t.history
  { indexed with
    historyByOwner := history.foldl pushHistory empty.historyByOwner
    historySeq := history.foldl (fun next owned => max next (owned.item.seq + 1)) 0
    alarms := t.envelopeAlarms
    applied := t.appliedOps }

-- The second half of the boot: every fully known attached block is filled again.
def bootFill (B : ℕ) (t : LedgerTables) (tree : MirrorTree ℕ) : MirrorTree ℕ :=
  let notes := Table.orderBy (·.leafIndex) t.notes
  let blocks := (notes.map fun n => n.leafIndex / B).eraseDups.filter fun k => (tree.batchRoots (k * B)).isSome
  blocks.foldl (fun tree k =>
    let g := notes.filter fun n => n.leafIndex / B = k
    if g.length = B then tree.fillBatch (k * B) (g.map (·.commitment)) false else tree) tree

end PostgresLedger

end Bongtu.Indexer
