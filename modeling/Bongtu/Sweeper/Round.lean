import Bongtu.Indexer.PortalSweep

namespace Bongtu.Sweeper

open Indexer

open Evm (Address)

open Core (TxHash)

-- What the portal routes of the indexer are configured with.
structure FeedConfig where
  portalFactory : Option Address
  portalPrivFactory : Option Address
  portalOperatorToken : Option String
deriving DecidableEq, Repr

inductive FeedReply where
  | ok (body : List PortalRecord)
  | operatorTokenRequired
  | unconfigured
  | badQuery
deriving DecidableEq, Repr

-- A parameter is `none` where its text is no integer.
def serveFeed (cfg : FeedConfig) (cursor limit : Option ℤ) (read : ℤ → ℕ → List PortalRecord) :
    FeedReply :=
  if cfg.portalFactory = none ∧ cfg.portalPrivFactory = none then .unconfigured
  else match cursor, limit with
    | some cursor, some limit => if limit ≤ 0 then .badQuery else .ok (read cursor limit.toNat)
    | _, _ => .badQuery

section Feed

variable {H : Type} [DecidableEq H] (sha256 : String → H)

def tokenMatches (want : String) (got : Option String) : Bool :=
  got.elim false fun got => sha256 want = sha256 got

def portalUnswept (cfg : FeedConfig) (operatorToken : Option String) (cursor limit : Option ℤ)
    (r : PortalRegistry) : FeedReply :=
  if cfg.portalOperatorToken.elim true fun want => tokenMatches sha256 want operatorToken then
    serveFeed cfg cursor limit fun cursor limit => r.unswept cursor (some limit)
  else .operatorTokenRequired

-- The sweeper binds the defaults, cursor -1 and one page; an empty token is not sent, and a reply
-- that is no 200 throws.
def fetchUnswept (cfg : FeedConfig) (operatorToken : Option String) (r : PortalRegistry) :
    Option (List PortalRecord) :=
  match portalUnswept sha256 cfg (operatorToken.filter (· ≠ "")) (some (-1)) (some sweepPage) r with
  | .ok body => some body
  | _ => none

end Feed

-- What the chain, the directory and the prover answer in a round, a throw being `none`; a balance
-- may depend on the reads before it. A proof is its public amount.
structure Answers (R : Type) where
  balanceOf : List PortalRecord → PortalRecord → Option ℕ
  resolveRecipient : String → Option R
  prove : PortalRecord → ℕ → Option ℕ
  provePriv : R → ℕ → Option ℕ
  writeContract : PortalRecord → ℕ → Option TxHash

-- The records whose balance was read so far stay when a step throws.
abbrev SweepM := OptionT (StateM (List PortalRecord))

structure SweeperState where
  lastSweepAt : Option ℕ
  unswept : ℕ
deriving DecidableEq, Repr

section Records

variable {R : Type} (ask : Answers R)

def readBalance (record : PortalRecord) : SweepM ℕ :=
  OptionT.mk fun reads => (ask.balanceOf reads record, reads ++ [record])

def orThrow {α : Type} (answer : Option α) : SweepM α := OptionT.mk (pure answer)

-- The balance again, past the proof, and the transaction.
def send (record : PortalRecord) (amount : ℕ) : SweepM (Option TxHash) := do
  let now ← readBalance ask record
  if now < amount then return none
  some <$> orThrow (ask.writeContract record amount)

def sweepRecord (record : PortalRecord) : SweepM (Option TxHash) := do
  let balance ← readBalance ask record
  if balance = 0 then return none
  let amount ← orThrow (ask.prove record balance)
  send ask record amount

def sweepPrivRecord (minSweep : ℕ) (record : PortalRecord) : SweepM (Option TxHash) := do
  let balance ← readBalance ask record
  if balance = 0 then return none
  if balance < minSweep then return none
  let recipient ← orThrow (ask.resolveRecipient record.name)
  let amount ← orThrow (ask.provePriv recipient balance)
  send ask record amount

variable (d : SweeperDeps)

def sweep (record : PortalRecord) : SweepM (Option TxHash) :=
  d.minSweep.elim (sweepRecord ask record) fun minSweep => sweepPrivRecord ask minSweep record

-- A record's failure is logged and the round moves on.
def attempt (now : ℕ) (acc : SweeperState × List PortalRecord) (record : PortalRecord) :
    SweeperState × List PortalRecord :=
  let (result, reads) := (sweep ask d record).run acc.2
  match result with
  | some (some _) => ({ acc.1 with lastSweepAt := some now }, reads)
  | _ => (acc.1, reads)

def runRecords (now : ℕ) (records : List PortalRecord) (state : SweeperState) :
    SweeperState × List PortalRecord :=
  records.foldl (attempt ask d now) ({ state with unswept := records.length }, [])

-- One poll round, and the balances it read; a fetch that throws ends the round.
def runOnce {H : Type} [DecidableEq H] (sha256 : String → H) (cfg : FeedConfig)
    (operatorToken : Option String) (r : PortalRegistry) (now : ℕ) (state : SweeperState) :
    SweeperState × List PortalRecord :=
  match fetchUnswept sha256 cfg operatorToken r with
  | none => (state, [])
  | some page => runRecords ask d now (page.filter d.recordBelongsTo) state

section Reads

variable {ask : Answers R} {d : SweeperDeps}

-- The balances a step reads are all of one record.
def ReadsOnly {α : Type} (record : PortalRecord) (x : SweepM α) : Prop :=
  ∀ reads, ∃ n, (x.run reads).2 = reads ++ List.replicate n record

theorem readsOnly_pure {α : Type} (record : PortalRecord) (a : α) :
    ReadsOnly record (pure a : SweepM α) := fun reads => ⟨0, by simp [OptionT.run]; rfl⟩

theorem readsOnly_orThrow {α : Type} (record : PortalRecord) (answer : Option α) :
    ReadsOnly record (orThrow answer) := fun reads => ⟨0, by simp [orThrow, OptionT.run]; rfl⟩

theorem readsOnly_readBalance (record : PortalRecord) : ReadsOnly record (readBalance ask record) :=
  fun _ => ⟨1, rfl⟩

-- A continuation's reads come after those of the step it follows.
theorem reads_bind {α β : Type} (x : SweepM α) (f : α → SweepM β) (reads : List PortalRecord) :
    ((x >>= f).run reads).2 = match (x.run reads).1 with
      | some a => ((f a).run (x.run reads).2).2
      | none => (x.run reads).2 := by
  rw [OptionT.run_bind]
  simp only [Option.elimM, StateT.bind, bind]
  rcases x.run reads with ⟨_ | a, after⟩
  · rfl
  · rfl

theorem ReadsOnly.bind {α β : Type} {record : PortalRecord} {x : SweepM α} {f : α → SweepM β}
    (hx : ReadsOnly record x) (hf : ∀ a, ReadsOnly record (f a)) : ReadsOnly record (x >>= f) := by
  intro reads
  obtain ⟨n, hn⟩ := hx reads
  rw [reads_bind]
  cases (x.run reads).1 with
  | none => exact ⟨n, hn⟩
  | some a =>
    obtain ⟨m, hm⟩ := hf a (x.run reads).2
    refine ⟨n + m, ?_⟩
    dsimp only
    rw [hm, hn, List.append_assoc, List.replicate_append_replicate]

theorem readsOnly_send (record : PortalRecord) (amount : ℕ) :
    ReadsOnly record (send ask record amount) := by
  refine (readsOnly_readBalance record).bind fun now => ?_
  split
  · exact readsOnly_pure record none
  · exact (readsOnly_orThrow record _).bind fun txHash => readsOnly_pure record (some txHash)

-- A record's sweep reads its balance first, whatever comes of it.
theorem reads_after_balance {α : Type} {record : PortalRecord} {f : ℕ → SweepM α}
    (hf : ∀ balance, ReadsOnly record (f balance)) (reads : List PortalRecord) :
    ∃ n, ((readBalance ask record >>= f).run reads).2 = reads ++ List.replicate (n + 1) record := by
  rw [reads_bind]
  have hread : ((readBalance ask record).run reads).2 = reads ++ [record] := rfl
  cases ((readBalance ask record).run reads).1 with
  | none => exact ⟨0, hread⟩
  | some balance =>
    obtain ⟨n, hn⟩ := hf balance ((readBalance ask record).run reads).2
    refine ⟨n, ?_⟩
    dsimp only
    rw [hn, hread, List.append_assoc, List.singleton_append, List.replicate_succ]

theorem sweep_reads (record : PortalRecord) (reads : List PortalRecord) :
    ∃ n, ((sweep ask d record).run reads).2 = reads ++ List.replicate (n + 1) record := by
  have hthrow {α : Type} (answer : Option α) := readsOnly_orThrow record answer
  cases hmode : d.minSweep with
  | none =>
    rw [sweep, hmode, Option.elim_none]
    refine reads_after_balance (fun balance => ?_) reads
    split
    · exact readsOnly_pure record none
    · exact (hthrow _).bind fun amount => readsOnly_send record amount
  | some minSweep =>
    rw [sweep, hmode, Option.elim_some]
    refine reads_after_balance (fun balance => ?_) reads
    split
    · exact readsOnly_pure record none
    · split
      · exact readsOnly_pure record none
      · exact (hthrow _).bind fun recipient => (hthrow _).bind fun amount => readsOnly_send record amount

theorem attempt_reads (now : ℕ) (acc : SweeperState × List PortalRecord) (record : PortalRecord) :
    ∃ n, (attempt ask d now acc record).2 = acc.2 ++ List.replicate (n + 1) record := by
  obtain ⟨n, hn⟩ : ∃ n, ((sweep ask d record).run acc.2).2 = acc.2 ++ List.replicate (n + 1) record :=
    sweep_reads record acc.2
  refine ⟨n, ?_⟩
  rw [← hn, attempt]
  split
  dsimp only
  split <;> simp_all

-- A round reads the balances of its records and of no other.
theorem mem_runRecords {now : ℕ} {records : List PortalRecord} {state : SweeperState}
    {record : PortalRecord} :
    record ∈ (runRecords ask d now records state).2 ↔ record ∈ records := by
  have hfold : ∀ acc : SweeperState × List PortalRecord,
      record ∈ (records.foldl (attempt ask d now) acc).2 ↔ record ∈ acc.2 ∨ record ∈ records := by
    induction records with
    | nil => simp
    | cons next records ih =>
      intro acc
      obtain ⟨n, hn⟩ : ∃ n, (attempt ask d now acc next).2 = acc.2 ++ List.replicate (n + 1) next :=
        attempt_reads now acc next
      rw [List.foldl_cons, ih, hn]
      simp [or_assoc]
  exact (hfold _).trans (by simp)

end Reads

section Page

variable {H : Type} [DecidableEq H]

-- The feed answers the sweeper with a page.
def served (sha256 : String → H) (cfg : FeedConfig) (operatorToken : Option String) : Bool :=
  (cfg.portalFactory.isSome || cfg.portalPrivFactory.isSome) &&
    cfg.portalOperatorToken.elim true fun want =>
      tokenMatches sha256 want (operatorToken.filter (· ≠ ""))

-- The unswept records ahead of this one in the feed.
def ahead (r : PortalRegistry) (record : PortalRecord) : ℕ :=
  (r.records.filter fun other => ! other.swept).idxOf record

theorem unswept_page (r : PortalRegistry) :
    r.unswept (-1) (some sweepPage) = (r.records.filter fun other => ! other.swept).take sweepPage := by
  simp only [PortalRegistry.unswept, Option.elim_some]
  congr 1
  refine List.filter_congr fun record _ => ?_
  simp [show (-1 : ℤ) < record.seq by omega]

theorem mem_page {r : PortalRegistry} {record : PortalRecord} (hrecord : record ∈ r.records)
    (hunswept : record.swept = false) :
    record ∈ r.unswept (-1) (some sweepPage) ↔ ahead r record < sweepPage := by
  rw [unswept_page]
  exact List.mem_take_iff_idxOf_lt (List.mem_filter.2 ⟨hrecord, by simp [hunswept]⟩)

theorem fetchUnswept_eq (sha256 : String → H) (cfg : FeedConfig) (operatorToken : Option String)
    (r : PortalRegistry) : fetchUnswept sha256 cfg operatorToken r =
      if served sha256 cfg operatorToken then some (r.unswept (-1) (some sweepPage)) else none := by
  unfold fetchUnswept portalUnswept served serveFeed
  cases cfg.portalOperatorToken.elim true fun want =>
    tokenMatches sha256 want (operatorToken.filter (· ≠ "")) with
  | false => simp
  | true => cases cfg.portalFactory <;> cases cfg.portalPrivFactory <;> simp [sweepPage]

-- A round examines every record when it reads the balance of each unswept record of this sweeper.
def Examines {H : Type} [DecidableEq H] (ask : Answers R) (d : SweeperDeps) (sha256 : String → H)
    (cfg : FeedConfig) (operatorToken : Option String) (r : PortalRegistry) (now : ℕ)
    (state : SweeperState) : Prop :=
  ∀ record ∈ r.records, record.swept = false → d.recordBelongsTo record →
    record ∈ (runOnce ask d sha256 cfg operatorToken r now state).2

theorem mem_runOnce {ask : Answers R} {d : SweeperDeps} {sha256 : String → H} {cfg : FeedConfig}
    {operatorToken : Option String} {r : PortalRegistry} {now : ℕ} {state : SweeperState}
    {record : PortalRecord} : record ∈ (runOnce ask d sha256 cfg operatorToken r now state).2 ↔
      served sha256 cfg operatorToken ∧ record ∈ r.unswept (-1) (some sweepPage) ∧
        d.recordBelongsTo record := by
  rw [runOnce, fetchUnswept_eq]
  cases served sha256 cfg operatorToken with
  | false => simp
  | true =>
    simp only [if_true, true_and]
    rw [mem_runRecords, List.mem_filter]

-- The round sees one page of the work feed, so what it examines is what is served ahead of the cap.
theorem round_examines_iff (ask : Answers R) (d : SweeperDeps) (sha256 : String → H) (cfg : FeedConfig)
    (operatorToken : Option String) (r : PortalRegistry) (now : ℕ) (state : SweeperState) :
    Examines ask d sha256 cfg operatorToken r now state ↔
      ∀ record ∈ r.records, record.swept = false → d.recordBelongsTo record →
        served sha256 cfg operatorToken ∧ ahead r record < sweepPage := by
  refine forall₂_congr fun record hrecord => forall₂_congr fun hunswept hmine => ?_
  rw [mem_runOnce, mem_page hrecord hunswept]
  simp [hmine]

end Page

end Records

-- The pay page's announcements for one name, each for an address of its own.
def payPage (factory : Address) (stealthAddr : ℕ) : PortalIssuanceFields :=
  ⟨"alice", "", 0, 0, stealthAddr, stealthAddr, some factory, "evm"⟩

def announced (factory : Address) : ℕ → PortalRegistry
  | 0 => .empty
  | n + 1 =>
    let r := announced factory n
    r.draw.index (r.draft (payPage factory n) 0)

def announcedRecord (factory : Address) (i : ℕ) : PortalRecord :=
  ⟨i, "alice", "", 0, 0, i, i, some factory, "evm", 0, false, none, none⟩

theorem announced_records (factory : Address) (n : ℕ) : (announced factory n).seq = n ∧
    (announced factory n).records = (List.range n).map (announcedRecord factory) := by
  induction n with
  | zero => exact ⟨rfl, rfl⟩
  | succ n ih =>
    obtain ⟨hseq, hrecords⟩ := ih
    refine ⟨congrArg (· + 1) hseq, ?_⟩
    rw [announced, PortalRegistry.records_index, PortalRegistry.records_draw, hrecords, List.range_succ,
      List.map_append]
    simp [PortalRegistry.draft, payPage, announcedRecord, hseq]

-- Only the last of 5001 addresses is paid, and no round reads it.
theorem paid_address_not_examined :
    ¬ Examines (R := Unit)
      ⟨fun _ record => some (if record.seq = 5000 then 1 else 0), fun _ => none,
        fun _ amount => some amount, fun _ amount => some amount, fun _ _ => some 0⟩
      ⟨7, fun _ stealthAddr => stealthAddr, none⟩ id ⟨some 7, none, none⟩ none (announced 7 5001) 0
      ⟨none, 0⟩ := by
  intro h
  have hrecords := (announced_records 7 5001).2
  have hread := h (announcedRecord 7 5000) (by rw [hrecords]; exact List.mem_map_of_mem (by simp))
    rfl (by decide)
  have hpage := (mem_runOnce.1 hread).2.1
  have hall : ((List.range 5001).map (announcedRecord 7)).filter (fun other => ! other.swept) =
      (List.range 5001).map (announcedRecord 7) := List.filter_eq_self.2 (by simp [announcedRecord])
  rw [unswept_page, hrecords, hall, ← List.map_take, List.take_range] at hpage
  obtain ⟨i, hi, heq⟩ := List.mem_map.1 hpage
  have hseq : i = 5000 := congrArg PortalRecord.seq heq
  simp [hseq, sweepPage] at hi

end Bongtu.Sweeper
