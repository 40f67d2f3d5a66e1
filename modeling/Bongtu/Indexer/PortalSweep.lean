import Bongtu.Indexer.Portal

namespace Bongtu.Indexer

open Bongtu.Core (TxHash)

open Evm (Address)

-- `addressOf` is the factories' CREATE2; `minSweep` is there in the consumer mode only.
structure SweeperDeps where
  factory : Address
  addressOf : Address → ℕ → Address
  minSweep : Option ℕ

structure SweptLog where
  salt : ℕ
  sweeper : Address
  amount : ℕ
  txHash : TxHash
  blockTimestamp : ℕ
  announced : Option (ℕ × ℕ)
deriving DecidableEq, Repr

-- A record past its balance read, its proof bound to the balance read; then its sweep is sent.
structure SweepJob where
  record : PortalRecord
  amount : ℕ
  sent : Bool
deriving DecidableEq, Repr

-- The chain's token balances and Swept logs not ingested yet, the registry, and what is left of the
-- sweeper's round.
structure SweepWorld where
  registry : PortalRegistry
  balance : Address → ℕ
  sweptLogs : List SweptLog
  round : List PortalRecord
  job : Option SweepJob

inductive SweepEvent where
  | announce (fields : PortalIssuanceFields) (nowSeconds : ℕ)
  | pay (destination : Address) (amount : ℕ)
  | fetch
  | read
  | send
  | mine (txHash : TxHash) (blockTimestamp : ℕ)
  | abandon
  | ingest
deriving DecidableEq, Repr

namespace SweeperDeps

variable (d : SweeperDeps)

def funded (balance : ℕ) : Bool := balance ≠ 0 ∧ d.minSweep.elim true (· ≤ balance)

def recordBelongsTo (record : PortalRecord) : Bool :=
  record.name ≠ "" ∧ (record.factory = some d.factory ∨ d.minSweep = none ∧ record.factory = none)

def destination (stealthAddr : ℕ) : Address := d.addressOf d.factory stealthAddr

end SweeperDeps

-- One page of the default limit.
def sweepPage : ℕ := 5000

namespace SweepWorld

variable (d : SweeperDeps)

def empty : SweepWorld := ⟨.empty, fun _ => 0, [], [], none⟩

-- `issue` with nothing else in flight; the route computes the destination.
def announce (w : SweepWorld) (fields : PortalIssuanceFields) (nowSeconds : ℕ) : SweepWorld :=
  let fields := { fields with
    destination := d.addressOf (fields.factory.getD d.factory) fields.stealthAddr }
  if w.registry.hasStealth fields.stealthAddr then { w with registry := w.registry.draw }
  else { w with registry := w.registry.draw.index (w.registry.draft fields nowSeconds) }

def read (w : SweepWorld) : SweepWorld :=
  match w.job, w.round with
  | none, record :: round =>
    let balance := w.balance record.destination
    { w with round := round, job := if d.funded balance then some ⟨record, balance, false⟩ else none }
  | _, _ => w

-- The proof is there; a balance below its amount is skipped.
def send (w : SweepWorld) : SweepWorld :=
  match w.job with
  | some ⟨record, amount, false⟩ =>
    { w with job := if w.balance record.destination < amount then none else some ⟨record, amount, true⟩ }
  | _ => w

def mine (w : SweepWorld) (txHash : TxHash) (blockTimestamp : ℕ) : SweepWorld :=
  match w.job with
  | some ⟨record, amount, true⟩ =>
    let sweeper := d.destination record.stealthAddr
    let have' := w.balance sweeper
    if have' = 0 ∨ have' < amount then { w with job := none }
    else { w with
      balance := Function.update w.balance sweeper (have' - amount)
      sweptLogs := w.sweptLogs ++ [⟨record.stealthAddr, sweeper, amount, txHash, blockTimestamp,
        d.minSweep.map fun _ => (record.ephemeralPub, record.viewTag)⟩]
      job := none }
  | _ => w

def ingestLog (log : SweptLog) (r : PortalRegistry) : PortalRegistry :=
  let r := r.markSwept log.salt log.txHash log.amount
  match log.announced with
  | none => r
  | some (ephemeralPub, viewTag) => r.recordChainAnnouncement ⟨log.salt, ephemeralPub, viewTag, log.sweeper,
      some d.factory, log.txHash, log.amount, log.blockTimestamp⟩

def step (w : SweepWorld) : SweepEvent → SweepWorld
  | .announce fields nowSeconds => w.announce d fields nowSeconds
  | .pay destination amount =>
    { w with balance := Function.update w.balance destination (w.balance destination + amount) }
  | .fetch =>
    if w.job.isSome ∨ w.round ≠ [] then w
    else { w with round := (w.registry.unswept (-1) (some sweepPage)).filter d.recordBelongsTo }
  | .read => w.read d
  | .send => w.send
  | .mine txHash blockTimestamp => w.mine d txHash blockTimestamp
  | .abandon => { w with job := none }
  | .ingest => match w.sweptLogs with
    | [] => w
    | log :: logs => { w with registry := ingestLog d log w.registry, sweptLogs := logs }

-- No funded destination of a name drops out of the work feed, once the logs are ingested.
def NotStranded (w : SweepWorld) : Prop :=
  w.sweptLogs = [] → ∀ r ∈ w.registry.records, r.name ≠ "" → d.funded (w.balance r.destination) →
    r ∈ w.registry.unswept (-1) none

-- What a destination holds when it is marked swept, and what it is paid after, stays below the
-- threshold.
def OnlyDust (w : SweepWorld) : SweepEvent → Prop
  | .pay destination amount => ∀ r ∈ w.registry.records, r.swept → r.name ≠ "" →
      r.destination = destination → d.funded (w.balance destination + amount) = false
  | .ingest => ∀ log ∈ w.sweptLogs.head?, ∀ r ∈ w.registry.recordOf log.salt, r.swept = false →
      d.funded (w.balance r.destination) = false
  | _ => True

instance (w : SweepWorld) : (e : SweepEvent) → Decidable (w.OnlyDust d e)
  | .pay .. => by unfold OnlyDust; infer_instance
  | .ingest => by unfold OnlyDust; infer_instance
  | .announce .. | .fetch | .read | .send | .mine .. | .abandon => isTrue trivial

variable {d}

theorem funded_mono {b b' : ℕ} (hle : b' ≤ b) (h : d.funded b = false) : d.funded b' = false := by
  simp only [SweeperDeps.funded, decide_eq_false_iff_not, not_and] at h ⊢
  intro hb' hmin'
  refine h (by omega) ?_
  cases hmin : d.minSweep with
  | none => rfl
  | some m =>
    simp only [hmin, Option.elim_some, decide_eq_true_eq] at hmin' ⊢
    omega

-- A destination marked swept holds dust.
def Swept (d : SweeperDeps) (w : SweepWorld) : Prop :=
  ∀ r ∈ w.registry.records, r.swept → r.name ≠ "" → d.funded (w.balance r.destination) = false

theorem swept_announce {w : SweepWorld} (h : w.Swept d) (fields : PortalIssuanceFields) (nowSeconds : ℕ) :
    (w.announce d fields nowSeconds).Swept d := by
  unfold announce
  dsimp only
  split
  · exact h
  · intro r hr hswept
    rcases List.mem_append.1 hr with hr | hr
    · exact h r hr hswept
    · rw [List.mem_singleton.1 hr] at hswept
      exact absurd hswept (by simp [PortalRegistry.draft])

theorem swept_mine {w : SweepWorld} (h : w.Swept d) (txHash : TxHash) (blockTimestamp : ℕ) :
    (w.mine d txHash blockTimestamp).Swept d := by
  unfold mine
  split
  · next record amount _ =>
    dsimp only
    split
    · exact h
    · intro r hr hswept hname
      refine funded_mono ?_ (h r hr hswept hname)
      by_cases hdest : r.destination = d.destination record.stealthAddr
      · simp [hdest]
      · simp [Function.update_of_ne hdest]
  · exact h

theorem mem_ingestLog {registry : PortalRegistry} {log : SweptLog} {r : PortalRecord}
    (hr : r ∈ (ingestLog d log registry).records) (hname : r.name ≠ "") :
    r ∈ registry.records ∨ ∃ r' ∈ registry.recordOf log.salt, r'.swept = false ∧ r'.name = r.name ∧
      r'.destination = r.destination := by
  have hmark : r ∈ (registry.markSwept log.salt log.txHash log.amount).records := by
    unfold ingestLog at hr
    dsimp only at hr
    split at hr
    · exact hr
    · unfold PortalRegistry.recordChainAnnouncement at hr
      dsimp only at hr
      split at hr
      · exact hr
      · rcases List.mem_append.1 hr with hr | hr
        · exact hr
        · exact absurd (List.mem_singleton.1 hr ▸ rfl) hname
  rcases PortalRegistry.mem_markSwept hmark with hold | ⟨record, hrecord, hunswept, rfl⟩
  · exact .inl hold
  · exact .inr ⟨record, hrecord, hunswept, rfl, rfl⟩

theorem swept_step (w : SweepWorld) (e : SweepEvent) (h : w.Swept d) (hdust : w.OnlyDust d e) :
    (w.step d e).Swept d := by
  cases e with
  | announce fields nowSeconds => exact swept_announce h fields nowSeconds
  | pay destination amount =>
    intro r hr hswept hname
    by_cases hdest : r.destination = destination
    · simpa [step, hdest] using hdust r hr hswept hname hdest
    · simpa [step, Function.update_of_ne hdest] using h r hr hswept hname
  | fetch =>
    simp only [step]
    split <;> exact h
  | read =>
    simp only [step, read]
    split <;> exact h
  | send =>
    simp only [step, send]
    split <;> exact h
  | mine txHash blockTimestamp => exact swept_mine h txHash blockTimestamp
  | abandon => exact h
  | ingest =>
    cases hlogs : w.sweptLogs with
    | nil => simpa [step, hlogs] using h
    | cons log logs =>
      intro r hr hswept hname
      simp only [step, hlogs] at hr ⊢
      rcases mem_ingestLog hr hname with hold | ⟨r', hr', hunswept, -, hdest⟩
      · exact h r hold hswept hname
      · exact hdest ▸ hdust log (by simp [hlogs]) r' hr' hunswept

theorem portal_not_stranded (d : SweeperDeps) (es : List SweepEvent)
    (h : Trace.Throughout (step d) (OnlyDust d) empty es) : NotStranded d (es.foldl (step d) empty) := by
  have hswept : Swept d (es.foldl (step d) empty) :=
    Trace.inv_run swept_step (fun r hr => absurd hr (by simp [empty, PortalRegistry.empty])) h
  intro _ r hr hname hfunded
  refine PortalRegistry.mem_unswept.2 ⟨hr, ?_⟩
  by_contra hne
  exact absurd (hswept r hr (by simpa using hne) hname) (by simp [hfunded])

def plainSweeper : SweeperDeps := ⟨7, fun factory stealthAddr => factory * 2 ^ 160 + stealthAddr, none⟩

def aliceIssued : SweepEvent := .announce ⟨"alice", "0x01", 1, 2, 3, 0, some 7, "evm"⟩ 100

def aliceDestination : Address := plainSweeper.destination 3

def sweptOnce : List SweepEvent :=
  [aliceIssued, .pay aliceDestination 5, .fetch, .read, .send, .mine 1 110, .ingest]

theorem portal_not_stranded_sample :
    NotStranded plainSweeper (sweptOnce.foldl (step plainSweeper) empty) :=
  portal_not_stranded plainSweeper sweptOnce (by decide +kernel)

-- A second payment lands while the first is being proven.
def paidWhileProving : List SweepEvent :=
  [aliceIssued, .pay aliceDestination 5, .fetch, .read, .pay aliceDestination 3, .send, .mine 1 110,
    .ingest]

theorem portal_stranded :
    ¬ ∀ (d : SweeperDeps) (es : List SweepEvent), NotStranded d (es.foldl (step d) empty) := by
  intro h
  have hstranded := h plainSweeper paidWhileProving
  revert hstranded
  unfold NotStranded
  decide +kernel

end SweepWorld

end Bongtu.Indexer
