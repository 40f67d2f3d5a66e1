import Bongtu.Lockstep
import Bongtu.Solana.Bank
import Bongtu.Solana.Transfer

set_option linter.unusedSectionVars false

namespace Bongtu.Solana

open Outcome

variable {K W : Type} [DecidableEq K] [DecidableEq W] [Zero W] [One W]

-- Who pays for an instruction, and the addresses it may create with their sizes.
structure Bill (K : Type) where
  payer : K
  creates : List (K × ℕ)

def transferBill : List K → Option (Bill K)
  | _config :: _tree :: _spentRootAcc :: newRootAcc :: payer :: _system :: _eventAuthority :: _program ::
      nfAccounts => some ⟨payer, nfAccounts.map (·, 0) ++ [(newRootAcc, 0)]⟩
  | _ => none

def withdrawBill : List K → Option (Bill K)
  | _config :: _tree :: _spentRootAcc :: newRootAcc :: payer :: _system :: _eventAuthority :: _program ::
      _tokenProgram :: _vault :: _vaultAuthority :: _recipientToken :: nfAccounts =>
    some ⟨payer, nfAccounts.map (·, 0) ++ [(newRootAcc, 0)]⟩
  | _ => none

def depositBill : List K → Option (Bill K)
  | _config :: _tree :: newRootAcc :: payer :: _system :: _eventAuthority :: _program :: _tokenProgram ::
      _payerToken :: _vault :: _ => some ⟨payer, [(newRootAcc, 0)]⟩
  | _ => none

def disburseBill : List K → Option (Bill K)
  | _config :: _tree :: _spentRootAcc :: newRootAcc :: batchAcc :: payer :: _system :: _eventAuthority ::
      _program :: nfAccounts =>
    some ⟨payer, nfAccounts.map (·, 0) ++ [(newRootAcc, 0)] ++ [(batchAcc, disburseBatchLen)]⟩
  | _ => none

def initializeBill : List K → Option (Bill K)
  | config :: tree :: _mint :: _vault :: payer :: _system :: _ =>
    some ⟨payer, [(config, poolConfigLen), (tree, treeAccountLen)]⟩
  | _ => none

def billOf (call : Call K) : Instruction W → Option (Bill K)
  | .initializePool _ => initializeBill call.keys
  | .depositPriv _ | .deposit _ => depositBill call.keys
  | .transferPriv _ | .transfer10x2Priv _ | .transfer _ | .transfer10x2 _ => transferBill call.keys
  | .withdrawPriv _ | .withdraw _ => withdrawBill call.keys
  | .disburse256 _ => disburseBill call.keys

variable (rt : Runtime K W)

def rent (creates : List (K × ℕ)) : ℕ := (creates.map fun e => rt.minimumBalance e.2).sum

-- A signing wallet that holds `amount`.
structure Pays (call : Call K) (payer : K) (amount : ℕ) (b : Bank K W) : Prop where
  signs : call.isSigner payer = true
  owner : (b.ledger.accounts payer).owner = rt.systemProgram
  empty : (b.ledger.accounts payer).data.isEmpty = true
  funds : amount ≤ b.lamports payer

def CanPay (b : Bank K W) (call : Call K) (ix : Instruction W) : Prop :=
  ∀ bill, billOf call ix = some bill → Pays rt call bill.payer (rent rt bill.creates) b

-- Nobody but the program signs for its addresses.
def PdasUnsigned (call : Call K) : Prop := ∀ seed, call.isSigner (rt.pda seed) = false

-- Larger accounts need no smaller balance, and a token transfer debits the accounts of the token program only.
structure Runtime.Lawful : Prop where
  rent_mono : Monotone rt.minimumBalance
  system_ne : rt.systemProgram ≠ rt.programId
  token_ne : rt.programId ≠ rt.tokenProgram
  spl_le : ∀ {accounts : K → Account K W} {lamports : K → ℕ} {source dest authority key : K} {amount : ℕ},
    (accounts key).owner ≠ rt.tokenProgram →
      lamports key ≤ rt.splLamports accounts lamports source dest authority amount key

variable {rt} {call : Call K} {payer key : K} {b : Bank K W}

theorem Pays.mono {amount amount' : ℕ} (hpays : Pays rt call payer amount b) (hle : amount' ≤ amount) :
    Pays rt call payer amount' b :=
  ⟨hpays.signs, hpays.owner, hpays.empty, hle.trans hpays.funds⟩

theorem Pays.write {amount : ℕ} (hpays : Pays rt call payer amount b) (hne : payer ≠ key) (account : Account K W) :
    Pays rt call payer amount (b.write key account) where
  signs := hpays.signs
  owner := by simpa [Bank.write, Ledger.write, Function.update_of_ne hne] using hpays.owner
  empty := by simpa [Bank.write, Ledger.write, Function.update_of_ne hne] using hpays.empty
  funds := hpays.funds

namespace Bank

def moved (lamports : K → ℕ) (source dest : K) (amount : ℕ) : K → ℕ :=
  let debited := Function.update lamports source (lamports source - amount)
  Function.update debited dest (debited dest + amount)

theorem moved_dest (lamports : K → ℕ) {source dest : K} (amount : ℕ) (hne : dest ≠ source) :
    moved lamports source dest amount dest = lamports dest + amount := by
  simp [moved, Function.update_of_ne hne]

theorem moved_source (lamports : K → ℕ) {source dest : K} (amount : ℕ) (hne : dest ≠ source) :
    moved lamports source dest amount source = lamports source - amount := by
  simp [moved, Function.update_of_ne hne.symm]

theorem moved_le {lamports : K → ℕ} {source dest key : K} (amount : ℕ) (hne : key ≠ source) :
    lamports key ≤ moved lamports source dest amount key := by
  simp only [moved]
  rcases eq_or_ne key dest with rfl | hdest
  · rw [Function.update_self, Function.update_of_ne hne]
    exact Nat.le_add_right _ _
  · rw [Function.update_of_ne hdest, Function.update_of_ne hne]

theorem systemTransfer_eq {amount : ℕ} (hpays : Pays rt call payer amount b) {signs : K → Bool}
    (hsigns : signs payer = true) (dest : K) :
    b.systemTransfer rt signs payer dest amount = some ⟨b.ledger, moved b.lamports payer dest amount⟩ :=
  if_pos ⟨hsigns, hpays.owner, hpays.empty, hpays.funds⟩

theorem allocate_eq {signs : K → Bool} (hsigns : signs key = true) (hblank : b.ledger.Blank rt.toEnv key)
    (space : ℕ) : b.allocate rt signs key space = some (b.write key ⟨rt.systemProgram, zeroed space⟩) :=
  if_pos ⟨hsigns, hblank.2, hblank.1⟩

theorem allocate_none {signs : K → Bool} (hblank : ¬b.ledger.Blank rt.toEnv key) (space : ℕ) :
    b.allocate rt signs key space = none :=
  if_neg fun h => hblank ⟨h.2.2, h.2.1⟩

@[simp]
theorem write_write (account account' : Account K W) :
    (b.write key account).write key account' = b.write key account' := by
  simp [write, Ledger.write]

theorem assign_allocated {signs : K → Bool} (hsigns : signs key = true) (data : Data K W) (owner : K) :
    (b.write key ⟨rt.systemProgram, data⟩).assign rt signs key owner = some (b.write key ⟨owner, data⟩) := by
  have haccount : (b.write key ⟨rt.systemProgram, data⟩).ledger.accounts key = ⟨rt.systemProgram, data⟩ := by
    simp [write, Ledger.write]
  rw [assign, haccount]
  split
  · case isTrue heq =>
    obtain rfl : rt.systemProgram = owner := heq
    rfl
  · rw [if_pos ⟨hsigns, rfl⟩, write_write]

-- Both ways to create an address end in one account, held by at least its rent.
structure Created (rt : Runtime K W) (payer key : K) (space rentLamports : ℕ) (b b' : Bank K W) : Prop where
  ledger_eq : b'.ledger = b.ledger.write key ⟨rt.programId, zeroed space⟩
  rented : rentLamports ≤ b'.lamports key
  paid : b.lamports payer ≤ b'.lamports payer + rentLamports
  grown : ∀ k, k ≠ payer → b.lamports k ≤ b'.lamports k

theorem createAccount_created {seed : Seed K W} {rentLamports : ℕ} (space : ℕ)
    (hpays : Pays rt call payer rentLamports b) (hkey : key = rt.pda seed) (hne : key ≠ payer)
    (hheld : b.lamports key = 0) (hblank : b.ledger.Blank rt.toEnv key) :
    ∃ b', b.createAccount rt (signsWith rt call seed) payer key rentLamports space rt.programId = some b' ∧
      Created rt payer key space rentLamports b b' := by
  have hsigns : signsWith rt call seed key = true := by simp [signsWith, hkey]
  have hpayer : signsWith rt call seed payer = true := by simp [signsWith, hpays.signs]
  have hpaid := systemTransfer_eq (hpays.write hne.symm ⟨rt.programId, zeroed space⟩) hpayer key
  refine ⟨⟨b.ledger.write key ⟨rt.programId, zeroed space⟩, moved b.lamports payer key rentLamports⟩, ?_, rfl,
    ?_, ?_, fun k hk => moved_le rentLamports hk⟩
  · rw [createAccount, if_neg (by omega), allocate_eq hsigns hblank]
    simp only [Option.bind_eq_bind, Option.bind_some, assign_allocated hsigns]
    exact hpaid
  · exact (Nat.le_add_left _ _).trans (moved_dest b.lamports rentLamports hne).ge
  · have hsource := moved_source b.lamports rentLamports hne
    have hfunds := hpays.funds
    change b.lamports payer ≤ moved b.lamports payer key rentLamports payer + rentLamports
    omega

theorem topUp_returns {rentLamports : ℕ} (hpays : Pays rt call payer rentLamports b) (hne : key ≠ payer) :
    ∃ lamports : K → ℕ, b.topUp rt call payer key rentLamports = .ok ⟨b.ledger, lamports⟩ ∧
      rentLamports ≤ lamports key ∧ b.lamports payer ≤ lamports payer + rentLamports ∧
      ∀ k, k ≠ payer → b.lamports k ≤ lamports k := by
  have hfunds := hpays.funds
  by_cases hshort : b.lamports key < rentLamports
  · have hpaid := systemTransfer_eq (hpays.mono (Nat.sub_le rentLamports (b.lamports key))) hpays.signs key
    have hdest := moved_dest b.lamports (rentLamports - b.lamports key) hne
    have hsource := moved_source b.lamports (rentLamports - b.lamports key) hne
    rw [topUp, if_pos hshort, hpaid]
    exact ⟨_, rfl, by omega, by omega, fun k hk => moved_le _ hk⟩
  · rw [topUp, if_neg hshort]
    exact ⟨b.lamports, rfl, by omega, by omega, fun k _ => le_rfl⟩

theorem createPda_created {seed : Seed K W} {rentLamports : ℕ} (space : ℕ) (hpays : Pays rt call payer rentLamports b)
    (hkey : key = rt.pda seed) (hne : key ≠ payer) (hblank : b.ledger.Blank rt.toEnv key) :
    ∃ b', b.createPda rt call payer key seed space rentLamports = .ok b' ∧
      Created rt payer key space rentLamports b b' := by
  by_cases hheld : b.lamports key = 0
  · obtain ⟨b', hb', hcreated⟩ := createAccount_created space hpays hkey hne hheld hblank
    exact ⟨b', by rw [createPda, if_pos hheld, hb', cpi], hcreated⟩
  · have hsigns : signsWith rt call seed key = true := by simp [signsWith, hkey]
    obtain ⟨lamports, hfunded, hrented, hpaid, hgrown⟩ := topUp_returns hpays hne
    refine ⟨Bank.write ⟨b.ledger, lamports⟩ key ⟨rt.programId, zeroed space⟩, ?_, rfl, hrented, hpaid, hgrown⟩
    rw [createPda, if_neg hheld, hfunded]
    simp only [bind, Except.bind]
    rw [allocate_eq (b := ⟨b.ledger, lamports⟩) hsigns hblank, cpi]
    simp only [assign_allocated hsigns, cpi]

theorem createPda_refused {seed : Seed K W} {rentLamports : ℕ} (space : ℕ) (hpays : Pays rt call payer rentLamports b)
    (hne : key ≠ payer) (hblank : ¬b.ledger.Blank rt.toEnv key) :
    b.createPda rt call payer key seed space rentLamports = .error .invalidAccount := by
  rw [createPda]
  by_cases hheld : b.lamports key = 0
  · rw [if_pos hheld, createAccount, if_neg (by omega), allocate_none hblank]
    rfl
  · obtain ⟨lamports, hfunded, -⟩ := topUp_returns hpays hne
    rw [if_neg hheld, hfunded]
    simp only [bind, Except.bind]
    rw [allocate_none (b := ⟨b.ledger, lamports⟩) hblank, cpi]

end Bank

theorem Pays.of_eq {amount : ℕ} {b' : Bank K W} (hpays : Pays rt call payer amount b)
    (haccount : b'.ledger.accounts payer = b.ledger.accounts payer) {amount' : ℕ}
    (hfunds : amount' ≤ b'.lamports payer) : Pays rt call payer amount' b' :=
  ⟨hpays.signs, by rw [haccount, hpays.owner], by rw [haccount, hpays.empty], hfunds⟩

-- An address of the bill holds its rent, unless the program owned it already.
def Rented (rt : Runtime K W) (b₀ b : Bank K W) (e : K × ℕ) : Prop :=
  rt.minimumBalance e.2 ≤ b.lamports e.1 ∨
    b₀.ledger.owns rt.toEnv e.1 ∧ b₀.lamports e.1 ≤ b.lamports e.1

-- Half way through an instruction that started at `b₀`: `creates` is done and `rest` is still to be paid.
structure Midway (rt : Runtime K W) (call : Call K) (payer : K) (b₀ : Bank K W) (creates : List (K × ℕ))
    (rest : ℕ) (b : Bank K W) : Prop where
  pays : Pays rt call payer rest b
  grown : ∀ k, k ≠ payer → b₀.lamports k ≤ b.lamports k
  owned : ∀ e ∈ creates, b.ledger.owns rt.toEnv e.1
  rented : ∀ e ∈ creates, Rented rt b₀ b e
  fresh : ∀ k, b.ledger.owns rt.toEnv k → Rented rt b₀ b (k, 0)

section Steps

variable {b₀ : Bank K W} {creates : List (K × ℕ)} {rest : ℕ}

theorem Midway.start {bill : Bill K} (hpays : Pays rt call bill.payer (rent rt bill.creates) b) :
    Midway rt call bill.payer b [] (rent rt bill.creates) b where
  pays := hpays
  grown _ _ := le_rfl
  owned _ he := absurd he List.not_mem_nil
  rented _ he := absurd he List.not_mem_nil
  fresh _ hk := .inr ⟨hk, le_rfl⟩

theorem Rented.grow {b' : Bank K W} {e : K × ℕ} (h : Rented rt b₀ b e) (hle : b.lamports e.1 ≤ b'.lamports e.1) :
    Rented rt b₀ b' e :=
  h.imp hle.trans' fun h => ⟨h.1, h.2.trans hle⟩

theorem owns_write {l : Ledger K W} {k : K} {data : Data K W} :
    (l.write key ⟨rt.programId, data⟩).owns rt.toEnv k ↔ l.owns rt.toEnv k ∨ k = key := by
  unfold Ledger.owns Ledger.write
  rcases eq_or_ne k key with rfl | hne <;> simp [*]

-- The program's accounts only change in what they hold.
theorem Midway.of_ledger (h : Midway rt call payer b₀ creates rest b) {l : Ledger K W}
    (howns : ∀ k, l.owns rt.toEnv k ↔ b.ledger.owns rt.toEnv k)
    (hpayer : l.accounts payer = b.ledger.accounts payer) :
    Midway rt call payer b₀ creates rest { b with ledger := l } where
  pays := h.pays.of_eq hpayer h.pays.funds
  grown := h.grown
  owned e he := (howns e.1).mpr (h.owned e he)
  rented := h.rented
  fresh k hk := h.fresh k ((howns k).mp hk)

-- The payer's account holds no tree.
theorem Midway.store (h : Midway rt call payer b₀ creates rest b) {tree config : K} {t t' : TreeState W}
    (htree : (b.ledger.accounts tree).data = .treeState config t) {l : Ledger K W}
    (hl : l = b.ledger.storeTree tree config t') : Midway rt call payer b₀ creates rest { b with ledger := l } := by
  have hne : payer ≠ tree := by
    rintro rfl
    have hempty := h.pays.empty
    rw [htree] at hempty
    cases hempty
  subst hl
  exact h.of_ledger (fun k => Ledger.owns_storeTree) (Function.update_of_ne hne _ _)

theorem Midway.not_payer (hrt : rt.Lawful) (h : Midway rt call payer b₀ creates rest b) {k : K}
    (hk : b.ledger.owns rt.toEnv k) : k ≠ payer := by
  rintro rfl
  exact hrt.system_ne (h.pays.owner.symm.trans hk)

theorem Midway.create (hrt : rt.Lawful) {space : ℕ} {b' : Bank K W} {data : Data K W} (hne : key ≠ payer)
    (h : Midway rt call payer b₀ creates (rt.minimumBalance space + rest) b)
    (hledger : b'.ledger = b.ledger.write key ⟨rt.programId, data⟩)
    (hrented : rt.minimumBalance space ≤ b'.lamports key)
    (hpaid : b.lamports payer ≤ b'.lamports payer + rt.minimumBalance space)
    (hgrown : ∀ k, k ≠ payer → b.lamports k ≤ b'.lamports k) :
    Midway rt call payer b₀ (creates ++ [(key, space)]) rest b' where
  pays := by
    have hfunds := h.pays.funds
    refine h.pays.of_eq ?_ (by omega)
    rw [hledger]
    exact Function.update_of_ne hne.symm _ _
  grown k hk := (h.grown k hk).trans (hgrown k hk)
  owned e he := by
    rw [hledger, owns_write]
    rcases List.mem_append.mp he with he | he
    · exact .inl (h.owned e he)
    · exact .inr (by rw [List.mem_singleton.mp he])
  rented e he := by
    rcases List.mem_append.mp he with he | he
    · exact (h.rented e he).grow (hgrown e.1 (h.not_payer hrt (h.owned e he)))
    · rw [List.mem_singleton.mp he]
      exact .inl hrented
  fresh k hk := by
    rw [hledger, owns_write] at hk
    rcases hk with hk | rfl
    · exact (h.fresh k hk).grow (hgrown k (h.not_payer hrt hk))
    · exact .inl ((hrt.rent_mono (Nat.zero_le space)).trans hrented)

def InStep (rt : Runtime K W) (call : Call K) (payer : K) (b₀ : Bank K W) (creates : List (K × ℕ)) (rest : ℕ)
    (b : Bank K W) (l : Ledger K W) : Prop :=
  b.ledger = l ∧ Midway rt call payer b₀ creates rest b

theorem ledger_createPda_ok {l : Ledger K W} (hblank : l.Blank rt.toEnv key) (data : Data K W) :
    l.createPda rt.toEnv call.tx key data = .ok (l.write key ⟨rt.programId, data⟩) := by
  rw [Ledger.createPda, require, if_pos ⟨rfl, hblank⟩]
  rfl

theorem ledger_createPda_error {l : Ledger K W} (hblank : ¬l.Blank rt.toEnv key) (data : Data K W) :
    l.createPda rt.toEnv call.tx key data = .error .invalidAccount := by
  rw [Ledger.createPda, require, if_neg fun h => hblank h.2]
  rfl

-- The account is created and filled on both levels or on neither.
theorem createFilled_lockstep (hrt : rt.Lawful) {seed : Seed K W} {space : ℕ} (hkey : key = rt.pda seed)
    (hunsigned : call.isSigner key = false)
    (h : Midway rt call payer b₀ creates (rt.minimumBalance space + rest) b) (data : Data K W) :
    Lockstep (InStep rt call payer b₀ (creates ++ [(key, space)]) rest)
      (b.createFilled rt call payer key seed space data) (b.ledger.createPda rt.toEnv call.tx key data) := by
  have hne : key ≠ payer := by
    rintro rfl
    exact absurd (h.pays.signs.symm.trans hunsigned) (by decide)
  have hpays := h.pays.mono (Nat.le_add_right _ _)
  by_cases hblank : b.ledger.Blank rt.toEnv key
  · obtain ⟨created, hcreated, hspec⟩ := Bank.createPda_created space hpays hkey hne hblank
    have hledger : (created.write key ⟨(created.ledger.accounts key).owner, data⟩).ledger =
        b.ledger.write key ⟨rt.programId, data⟩ := by
      simp [Bank.write, hspec.ledger_eq, Ledger.write]
    rw [ledger_createPda_ok hblank, Bank.createFilled, hcreated]
    exact .returned ⟨hledger, h.create hrt hne hledger hspec.rented hspec.paid hspec.grown⟩
  · rw [ledger_createPda_error hblank, Bank.createFilled, Bank.createPda_refused space hpays hne hblank]
    exact .failed _

theorem createMarkerPda_lockstep (hrt : rt.Lawful) (seed : Seed K W) (hkey : key = rt.pda seed)
    (hunsigned : call.isSigner key = false)
    (h : Midway rt call payer b₀ creates (rt.minimumBalance 0 + rest) b) :
    Lockstep (InStep rt call payer b₀ (creates ++ [(key, 0)]) rest)
      (b.createMarkerPda rt call payer key seed (rt.minimumBalance 0))
      (b.ledger.createMarkerPda rt.toEnv call.tx key) := by
  have hne : key ≠ payer := by
    rintro rfl
    exact absurd (h.pays.signs.symm.trans hunsigned) (by decide)
  have hpays := h.pays.mono (Nat.le_add_right _ _)
  rw [Ledger.createMarkerPda, Bank.createMarkerPda]
  by_cases hblank : b.ledger.Blank rt.toEnv key
  · obtain ⟨created, hcreated, hspec⟩ := Bank.createPda_created 0 hpays hkey hne hblank
    rw [ledger_createPda_ok hblank, hcreated]
    exact .returned ⟨hspec.ledger_eq, h.create hrt hne hspec.ledger_eq hspec.rented hspec.paid hspec.grown⟩
  · rw [ledger_createPda_error hblank, Bank.createPda_refused 0 hpays hne hblank]
    exact .failed _

@[simp]
theorem rent_cons (e : K × ℕ) (creates : List (K × ℕ)) :
    rent rt (e :: creates) = rt.minimumBalance e.2 + rent rt creates := by
  simp [rent]

@[simp]
theorem rent_nil : rent rt ([] : List (K × ℕ)) = 0 := rfl

@[simp]
theorem rent_append (creates creates' : List (K × ℕ)) :
    rent rt (creates ++ creates') = rent rt creates + rent rt creates' := by
  simp [rent]

def markers (keys : List K) : List (K × ℕ) := keys.map (·, 0)

theorem spendNullifiers_lockstep (hrt : rt.Lawful) (hcall : PdasUnsigned rt call) (nfs : List W) :
    ∀ {b : Bank K W} {creates : List (K × ℕ)},
      Midway rt call payer b₀ creates (rent rt (markers (nfs.map (Ledger.nullifierPda rt.toEnv))) + rest) b →
      Lockstep (InStep rt call payer b₀ (creates ++ markers (nfs.map (Ledger.nullifierPda rt.toEnv))) rest)
        (b.spendNullifiers rt call payer nfs (nfs.map (Ledger.nullifierPda rt.toEnv)) (rt.minimumBalance 0))
        (b.ledger.spendNullifiers rt.toEnv call.tx (nfs.map (Ledger.nullifierPda rt.toEnv))) := by
  induction nfs with
  | nil =>
    intro b creates h
    simp only [List.map_nil, markers, rent_nil, Nat.zero_add, List.append_nil] at h ⊢
    exact .returned ⟨rfl, h⟩
  | cons nf nfs ih =>
    intro b creates h
    simp only [List.map_cons, markers, rent_cons, Nat.add_assoc] at h
    have hmark := createMarkerPda_lockstep hrt (.nullifier nf) rfl (hcall (.nullifier nf)) h
    refine hmark.bind fun b' l' hstep => ?_
    obtain ⟨rfl, hmid⟩ := hstep
    have hrest := ih hmid
    rwa [List.append_assoc] at hrest

theorem appendLeaves_lockstep {tree : K} {leaf : W} {leaves : List W}
    (h : Midway rt call payer b₀ creates rest b) :
    Lockstep (fun a a' => a.1 = a'.1 ∧ a.2.1 = a'.2.1 ∧ InStep rt call payer b₀ creates rest a.2.2 a'.2.2)
      (b.appendLeaves rt tree leaf leaves) (b.ledger.appendLeaves rt.toEnv tree leaf leaves) := by
  rw [Bank.appendLeaves]
  cases happended : b.ledger.appendLeaves rt.toEnv tree leaf leaves with
  | error e => exact .failed e
  | ok a =>
    obtain ⟨config, t, t', htree, -, -, -, hl'⟩ := (Ledger.appendLeaves_ok 0).mp happended
    exact .returned ⟨rfl, rfl, rfl, h.store htree hl'⟩

theorem loadTree_ok {l : Ledger K W} {tree config : K} {t : TreeState W} (h : l.loadTree tree = .ok (config, t)) :
    (l.accounts tree).data = .treeState config t := by
  unfold Ledger.loadTree at h
  split at h
  · case h_1 config' t' htree =>
    cases h
    exact htree
  · cases h

theorem attachSubtree_lockstep {tree : K} {subtreeRoot : W} {logB : ℕ}
    (h : Midway rt call payer b₀ creates rest b) :
    Lockstep (fun a a' => a.1 = a'.1 ∧ a.2.1 = a'.2.1 ∧ InStep rt call payer b₀ creates rest a.2.2 a'.2.2)
      (b.attachSubtree rt tree subtreeRoot logB)
      (b.ledger.attachSubtree rt.toEnv tree subtreeRoot logB) := by
  rw [Bank.attachSubtree]
  cases hattached : b.ledger.attachSubtree rt.toEnv tree subtreeRoot logB with
  | error e => exact .failed e
  | ok a =>
    obtain ⟨⟨config, t⟩, hload, attached, -, hreturn⟩ := by
      simpa only [Ledger.attachSubtree, bind_ok] using hattached
    have htree : (b.ledger.accounts tree).data = .treeState config t := loadTree_ok hload
    cases hreturn
    exact .returned ⟨rfl, rfl, rfl, h.store htree rfl⟩

theorem registerNewRoot_lockstep (hrt : rt.Lawful) (hcall : PdasUnsigned rt call) {newRootAcc : K} {newRoot : W}
    (h : Midway rt call payer b₀ creates (rt.minimumBalance 0 + rest) b) :
    Lockstep (InStep rt call payer b₀ (creates ++ [(newRootAcc, 0)]) rest)
      (b.registerNewRoot rt call payer newRootAcc newRoot (rt.minimumBalance 0))
      (b.ledger.registerNewRoot rt.toEnv call.tx newRootAcc newRoot) := by
  refine .require fun hkey => ?_
  by_cases howned : b.ledger.owns rt.toEnv newRootAcc
  · rw [if_pos howned, if_pos howned]
    refine .returned ⟨rfl, h.pays.mono (Nat.le_add_left _ _), h.grown, fun e he => ?_, fun e he => ?_, h.fresh⟩
    · rcases List.mem_append.mp he with he | he
      · exact h.owned e he
      · rw [List.mem_singleton.mp he]
        exact howned
    · rcases List.mem_append.mp he with he | he
      · exact h.rented e he
      · rw [List.mem_singleton.mp he]
        exact h.fresh newRootAcc howned
  · rw [if_neg howned, if_neg howned]
    exact createMarkerPda_lockstep hrt (.knownRoot newRoot) hkey (hkey ▸ hcall (.knownRoot newRoot)) h

theorem createBatch_lockstep (hrt : rt.Lawful) (hcall : PdasUnsigned rt call) {batchAcc : K}
    {batch : DisburseBatch W}
    (h : Midway rt call payer b₀ creates (rt.minimumBalance disburseBatchLen + rest) b) :
    Lockstep (InStep rt call payer b₀ (creates ++ [(batchAcc, disburseBatchLen)]) rest)
      (createBatchOn rt call payer batchAcc batch b) (createBatch rt.toEnv call.tx batchAcc batch b.ledger) := by
  refine .require fun hkey => .require fun _ => ?_
  exact createFilled_lockstep hrt hkey (hkey ▸ hcall (.disburseBatch batch.startLeafIndex)) h
    (.disburseBatch batch)

-- How an instruction ends: one ledger, and every address of the bill held by its rent.
def Settled (rt : Runtime K W) (b₀ : Bank K W) (creates : List (K × ℕ)) (b : Bank K W) (l : Ledger K W) : Prop :=
  b.ledger = l ∧ ∀ e ∈ creates, Rented rt b₀ b e

theorem emit_lockstep {eventAuthority : K} {event : Event W} (h : ∀ e ∈ creates, Rented rt b₀ b e) :
    Lockstep (Settled rt b₀ creates) (b.emit rt call eventAuthority event)
      (b.ledger.emit rt.toEnv call.tx eventAuthority event) := by
  rw [Bank.emit]
  cases b.ledger.emit rt.toEnv call.tx eventAuthority event with
  | error e => exact .failed e
  | ok l => exact .returned ⟨rfl, h⟩

theorem splTransfer_lockstep (hrt : rt.Lawful) {source dest authority : K} {amount : ℕ}
    (h : Midway rt call payer b₀ creates rest b) :
    Lockstep (Settled rt b₀ creates) (b.splTransfer rt source dest authority amount)
      (b.ledger.splTransfer rt.toEnv source dest authority amount) := by
  rw [Bank.splTransfer]
  cases b.ledger.splTransfer rt.toEnv source dest authority amount with
  | error e => exact .failed e
  | ok l =>
    refine .returned ⟨rfl, fun e he => (h.rented e he).grow (hrt.spl_le ?_)⟩
    exact fun htoken => hrt.token_ne ((h.owned e he).symm.trans htoken)

end Steps

-- How an instruction ends: one ledger, and every address of its bill held by its rent.
def Charged (rt : Runtime K W) (b₀ : Bank K W) (bill : Option (Bill K)) (b : Bank K W) (l : Ledger K W) : Prop :=
  b.ledger = l ∧ ∀ c, bill = some c → ∀ e ∈ c.creates, Rented rt b₀ b e

theorem Settled.charged {b₀ : Bank K W} {bill : Bill K} {l : Ledger K W} (h : Settled rt b₀ bill.creates b l) :
    Charged rt b₀ (some bill) b l :=
  ⟨h.1, fun _ hc => Option.some.inj hc ▸ h.2⟩

section Ops

variable {n N : ℕ} {fam : Family W n N} {p : Payload n W}

-- The leaves and the root they lead to, then whatever the instruction still does.
theorem advance_lockstep (hrt : rt.Lawful) (hcall : PdasUnsigned rt call) {b₀ : Bank K W}
    {creates : List (K × ℕ)} (h : Midway rt call payer b₀ creates (rent rt [(key, 0)]) b) {tree : K} {leaf : W}
    {leaves : List W} {S : Bank K W → Ledger K W → Prop}
    {f : ℕ × W × Bank K W → Bank K W → Except PoolError (Bank K W)}
    {g : ℕ × W × Ledger K W → Ledger K W → Except PoolError (Ledger K W)}
    (hfg : ∀ start root b₁ known, Midway rt call payer b₀ (creates ++ [(key, 0)]) 0 known →
      Lockstep S (f (start, root, b₁) known) (g (start, root, b₁.ledger) known.ledger)) :
    Lockstep S
      (do
        let appended ← b.appendLeaves rt tree leaf leaves
        let known ← appended.2.2.registerNewRoot rt call payer key appended.2.1 (rt.minimumBalance 0)
        f appended known)
      (do
        let appended ← b.ledger.appendLeaves rt.toEnv tree leaf leaves
        let known ← appended.2.2.registerNewRoot rt.toEnv call.tx key appended.2.1
        g appended known) := by
  rw [rent_cons, rent_nil] at h
  refine (appendLeaves_lockstep h).bind fun appended appended' happended => ?_
  obtain ⟨start, root, b₁⟩ := appended
  obtain ⟨start', root', l₁⟩ := appended'
  obtain ⟨rfl, rfl, rfl, h₁⟩ := happended
  refine (registerNewRoot_lockstep hrt hcall h₁).bind fun known l₂ hknown => ?_
  obtain ⟨rfl, h₂⟩ := hknown
  exact hfg start root b₁ known h₂

theorem transferOn_lockstep (hrt : rt.Lawful) (hcall : PdasUnsigned rt call)
    (hpays : ∀ bill, transferBill call.keys = some bill → Pays rt call bill.payer (rent rt bill.creates) b) :
    Lockstep (Charged rt b (transferBill call.keys))
      (fam.transferOn rt call p b) (fam.transferOp rt.toEnv call.tx p b.ledger) := by
  rw [Family.transferOn, Family.transferOp, show call.tx.keys = call.keys from rfl]
  generalize call.keys = keys at hpays ⊢
  rcases keys with _ | ⟨config, _ | ⟨tree, _ | ⟨spentRootAcc, _ | ⟨newRootAcc, _ | ⟨payer, _ | ⟨system, _ |
    ⟨eventAuthority, _ | ⟨_program, nfAccounts⟩⟩⟩⟩⟩⟩⟩⟩
  iterate 8 exact .failed _
  have hstart := Midway.start (hpays _ rfl)
  refine .same fun c _ => .same fun arbiter _ => .same fun _ _ => .same fun _ _ =>
    .same fun spending hspending => .same fun _ _ => ?_
  obtain ⟨-, -, -, -, rfl, -⟩ := Ledger.checkSpend_ok.mp hspending
  rw [rent_append] at hstart
  refine (spendNullifiers_lockstep hrt hcall spending hstart).bind fun spent l₁ hspent => ?_
  obtain ⟨rfl, hspent⟩ := hspent
  refine advance_lockstep hrt hcall hspent fun start root b₁ known hknown => ?_
  exact (emit_lockstep hknown.rented).mono fun _ _ h => Settled.charged h

theorem withdrawOn_lockstep (hrt : rt.Lawful) (hcall : PdasUnsigned rt call) (amountOf : (Fin n → W) → W)
    (hpays : ∀ bill, withdrawBill call.keys = some bill → Pays rt call bill.payer (rent rt bill.creates) b) :
    Lockstep (Charged rt b (withdrawBill call.keys))
      (fam.withdrawOn rt amountOf call p b) (fam.withdrawOp rt.toEnv amountOf call.tx p b.ledger) := by
  rw [Family.withdrawOn, Family.withdrawOp, show call.tx.keys = call.keys from rfl]
  generalize call.keys = keys at hpays ⊢
  rcases keys with _ | ⟨config, _ | ⟨tree, _ | ⟨spentRootAcc, _ | ⟨newRootAcc, _ | ⟨payer, _ | ⟨system, _ |
    ⟨eventAuthority, _ | ⟨_program, _ | ⟨tokenProgram, _ | ⟨vault, _ | ⟨vaultAuthority, _ | ⟨recipientToken,
    nfAccounts⟩⟩⟩⟩⟩⟩⟩⟩⟩⟩⟩⟩
  iterate 12 exact .failed _
  have hstart := Midway.start (hpays _ rfl)
  refine .same fun c _ => .same fun _ _ => .same fun _ _ => .same fun _ _ => .same fun arbiter _ =>
    .same fun _ _ => .same fun bound _ => .same fun _ _ => .same fun amount _ =>
    .same fun spending hspending => .same fun _ _ => ?_
  obtain ⟨-, -, -, -, rfl, -⟩ := Ledger.checkSpend_ok.mp hspending
  rw [rent_append] at hstart
  refine (spendNullifiers_lockstep hrt hcall spending hstart).bind fun spent l₁ hspent => ?_
  obtain ⟨rfl, hspent⟩ := hspent
  refine advance_lockstep hrt hcall hspent fun start root b₁ known hknown => ?_
  refine (splTransfer_lockstep hrt hknown).bind fun paid l₂ hpaid => ?_
  obtain ⟨rfl, hpaid⟩ := hpaid
  exact (emit_lockstep hpaid).mono fun _ _ h => Settled.charged h

theorem depositOn_lockstep (hrt : rt.Lawful) (hcall : PdasUnsigned rt call) (amountOf : (Fin n → W) → W)
    (hpays : ∀ bill, depositBill call.keys = some bill → Pays rt call bill.payer (rent rt bill.creates) b) :
    Lockstep (Charged rt b (depositBill call.keys))
      (fam.depositOn rt amountOf call p b) (fam.depositOp rt.toEnv amountOf call.tx p b.ledger) := by
  rw [Family.depositOn, Family.depositOp, show call.tx.keys = call.keys from rfl]
  generalize call.keys = keys at hpays ⊢
  rcases keys with _ | ⟨config, _ | ⟨tree, _ | ⟨newRootAcc, _ | ⟨payer, _ | ⟨system, _ | ⟨eventAuthority, _ |
    ⟨_program, _ | ⟨tokenProgram, _ | ⟨payerToken, _ | ⟨vault, _rest⟩⟩⟩⟩⟩⟩⟩⟩⟩⟩
  iterate 10 exact .failed _
  have hstart := Midway.start (hpays _ rfl)
  refine .same fun c _ => .same fun _ _ => .same fun _ _ => .same fun arbiter _ => .same fun _ _ =>
    .same fun _ _ => .same fun amount _ => .same fun _ _ => ?_
  refine advance_lockstep hrt hcall hstart fun start root b₁ known hknown => .same fun _ _ => ?_
  refine (splTransfer_lockstep hrt hknown).bind fun paid l₂ hpaid => ?_
  obtain ⟨rfl, hpaid⟩ := hpaid
  exact (emit_lockstep hpaid).mono fun _ _ h => Settled.charged h

theorem disburse256On_lockstep (hrt : rt.Lawful) (hcall : PdasUnsigned rt call) {p : Payload 8 W}
    (hpays : ∀ bill, disburseBill call.keys = some bill → Pays rt call bill.payer (rent rt bill.creates) b) :
    Lockstep (Charged rt b (disburseBill call.keys))
      (disburse256On rt call p b) (disburse256 rt.toEnv call.tx p b.ledger) := by
  rw [disburse256On, disburse256, show call.tx.keys = call.keys from rfl]
  generalize call.keys = keys at hpays ⊢
  rcases keys with _ | ⟨config, _ | ⟨tree, _ | ⟨spentRootAcc, _ | ⟨newRootAcc, _ | ⟨batchAcc, _ | ⟨payer, _ |
    ⟨system, _ | ⟨eventAuthority, _ | ⟨_program, nfAccounts⟩⟩⟩⟩⟩⟩⟩⟩⟩
  iterate 9 exact .failed _
  have hstart := Midway.start (hpays _ rfl)
  refine .same fun c _ => .same fun arbiter _ => .same fun logB _ => .same fun _ _ => .same fun _ _ =>
    .same fun _ _ => .same fun _ _ => .same fun spending hspending => .same fun _ _ => ?_
  obtain ⟨-, -, -, -, rfl, -⟩ := Ledger.checkSpend_ok.mp hspending
  rw [rent_append, rent_append, Nat.add_assoc] at hstart
  refine (spendNullifiers_lockstep hrt hcall spending hstart).bind fun spent l₁ hspent => ?_
  obtain ⟨rfl, hspent⟩ := hspent
  refine (attachSubtree_lockstep hspent).bind fun attached attached' hattached => ?_
  obtain ⟨start, root, b₁⟩ := attached
  obtain ⟨start', root', l₁⟩ := attached'
  obtain ⟨rfl, rfl, rfl, h₁⟩ := hattached
  simp only [rent_cons, rent_nil] at h₁
  refine (registerNewRoot_lockstep hrt hcall h₁).bind fun known l₂ hknown => ?_
  obtain ⟨rfl, h₂⟩ := hknown
  refine (createBatch_lockstep hrt hcall h₂).bind fun anchored l₃ hanchored => ?_
  obtain ⟨rfl, h₃⟩ := hanchored
  exact (emit_lockstep h₃.rented).mono fun _ _ h => Settled.charged h

theorem initializePoolOn_lockstep (hrt : rt.Lawful) (hcall : PdasUnsigned rt call) {payload : Option (Profile W)}
    (hpays : ∀ bill, initializeBill call.keys = some bill → Pays rt call bill.payer (rent rt bill.creates) b) :
    Lockstep (Charged rt b (initializeBill call.keys))
      (initializePoolOn rt call payload b) (initializePool rt.toEnv call.tx payload b.ledger) := by
  rw [initializePoolOn, initializePool, show call.tx.keys = call.keys from rfl]
  generalize call.keys = keys at hpays ⊢
  rcases keys with _ | ⟨config, _ | ⟨tree, _ | ⟨mint, _ | ⟨vault, _ | ⟨payer, _ | ⟨system, _rest⟩⟩⟩⟩⟩⟩
  iterate 6 exact .failed _
  have hstart := Midway.start (hpays _ rfl)
  refine .same fun _ _ => .same fun _ _ => .same fun _ _ => ?_
  cases payload with
  | none => exact .failed _
  | some profile =>
    refine .same fun _ _ => .require fun hconfig => .same fun _ _ => .require fun htree => .same fun owner _ =>
      .same fun _ _ => ?_
    rw [rent_cons] at hstart
    refine (createFilled_lockstep hrt hconfig (hconfig ▸ hcall (.config mint)) hstart _).bind
      fun configured l₁ hconfigured => ?_
    obtain ⟨rfl, h₁⟩ := hconfigured
    refine (createFilled_lockstep hrt htree (htree ▸ hcall (.tree config)) h₁ _).mono fun grown l₂ hgrown => ?_
    exact Settled.charged ⟨hgrown.1, hgrown.2.rented⟩

end Ops

theorem processOn_lockstep (hrt : rt.Lawful) (hcall : PdasUnsigned rt call) {ix : Instruction W}
    (hpays : CanPay rt b call ix) : Lockstep (Charged rt b (billOf call ix)) (processOn rt call ix b)
      (processInstruction rt.toEnv call.tx ix b.ledger) := by
  unfold CanPay at hpays
  cases ix <;> simp only [billOf, processOn, processInstruction, depositPriv, transferPriv, transfer10x2Priv,
    withdrawPriv, deposit, withdraw, transfer, transfer10x2] at hpays ⊢
  case initializePool payload => exact initializePoolOn_lockstep hrt hcall hpays
  case depositPriv p => exact depositOn_lockstep hrt hcall _ hpays
  case transferPriv p => exact transferOn_lockstep hrt hcall hpays
  case transfer10x2Priv p => exact transferOn_lockstep hrt hcall hpays
  case withdrawPriv p => exact withdrawOn_lockstep hrt hcall _ hpays
  case deposit p => exact depositOn_lockstep hrt hcall _ hpays
  case withdraw p => exact withdrawOn_lockstep hrt hcall _ hpays
  case disburse256 p => exact disburse256On_lockstep hrt hcall hpays
  case transfer p => exact transferOn_lockstep hrt hcall hpays
  case transfer10x2 p => exact transferOn_lockstep hrt hcall hpays

-- A history and the same history with lamport transfers inserted.
inductive Inserted : List (Step K W) → List (Step K W) → Prop
  | nil : Inserted [] []
  | keep {plain donated : List (Step K W)} (s : Step K W) (h : Inserted plain donated) :
      Inserted (s :: plain) (s :: donated)
  | donate {plain donated : List (Step K W)} (signs : K → Bool) (source dest : K) (amount : ℕ)
      (h : Inserted plain donated) : Inserted plain (.transfer signs source dest amount :: donated)

def Payable (rt : Runtime K W) (b : Bank K W) : Step K W → Prop
  | .instruction call ix => CanPay rt b call ix
  | .transfer .. => True

-- Every instruction of the history finds its payer able to pay.
def Funded (rt : Runtime K W) : Bank K W → List (Step K W) → Prop
  | _, [] => True
  | b, s :: rest => Payable rt b s ∧ Funded rt (b.step rt s) rest

def Unsigned (rt : Runtime K W) (history : List (Step K W)) : Prop :=
  ∀ call ix, .instruction call ix ∈ history → PdasUnsigned rt call

theorem funded_append {history : List (Step K W)} : ∀ {b : Bank K W} {s : Step K W},
    Funded rt b (history ++ [s]) → Funded rt b history ∧ Payable rt (b.run rt history) s := by
  induction history with
  | nil => exact fun h => ⟨trivial, h.1⟩
  | cons s history ih => exact fun h => ⟨⟨h.1, (ih h.2).1⟩, (ih h.2).2⟩

@[simp]
theorem ledger_transfer (b : Bank K W) (signs : K → Bool) (source dest : K) (amount : ℕ) :
    (b.step rt (.transfer signs source dest amount)).ledger = b.ledger := by
  simp only [Bank.step, Bank.systemTransfer]
  split <;> rfl

-- Balances do not decide what an instruction does, once its payer can pay.
theorem processOn_same (hrt : rt.Lawful) (hcall : PdasUnsigned rt call) {ix : Instruction W} {b b' : Bank K W}
    (hledger : b.ledger = b'.ledger) (hb : CanPay rt b call ix) (hb' : CanPay rt b' call ix) :
    Lockstep (fun a a' => ∃ l, Charged rt b (billOf call ix) a l ∧ Charged rt b' (billOf call ix) a' l)
      (processOn rt call ix b) (processOn rt call ix b') := by
  have hstep' := processOn_lockstep hrt hcall hb'
  rw [← hledger] at hstep'
  exact (processOn_lockstep hrt hcall hb).join hstep'

theorem step_same (hrt : rt.Lawful) {s : Step K W} (hsigns : Unsigned rt [s]) {b b' : Bank K W}
    (hledger : b.ledger = b'.ledger) (hb : Payable rt b s) (hb' : Payable rt b' s) :
    (b.step rt s).ledger = (b'.step rt s).ledger := by
  cases s with
  | transfer signs source dest amount => rw [ledger_transfer, ledger_transfer, hledger]
  | instruction call ix =>
    have hsame := processOn_same hrt (hsigns call ix List.mem_cons_self) hledger hb hb'
    change ((processOn rt call ix b).toOption.getD b).ledger = ((processOn rt call ix b').toOption.getD b').ledger
    generalize processOn rt call ix b = x at hsame ⊢
    generalize processOn rt call ix b' = y at hsame ⊢
    cases hsame with
    | failed e => exact hledger
    | returned h =>
      obtain ⟨l, h, h'⟩ := h
      exact h.1.trans h'.1.symm

theorem run_same (hrt : rt.Lawful) {plain donated : List (Step K W)} (h : Inserted plain donated) :
    ∀ {b b' : Bank K W}, Unsigned rt donated → b.ledger = b'.ledger → Funded rt b plain → Funded rt b' donated →
      (b.run rt plain).ledger = (b'.run rt donated).ledger := by
  induction h with
  | nil => exact fun _ hledger _ _ => hledger
  | keep s _ ih =>
    intro b b' hsigns hledger hplain hdonated
    have hhead : Unsigned rt [s] := fun call ix hmem =>
      hsigns call ix (List.mem_singleton.mp hmem ▸ List.mem_cons_self)
    exact ih (fun call ix hmem => hsigns call ix (List.mem_cons_of_mem s hmem))
      (step_same hrt hhead hledger hplain.1 hdonated.1) hplain.2 hdonated.2
  | donate signs source dest amount _ ih =>
    intro b b' hsigns hledger hplain hdonated
    exact ih (fun call ix hmem => hsigns call ix (List.mem_cons_of_mem _ hmem))
      (hledger.trans (ledger_transfer b' signs source dest amount).symm) hplain hdonated.2

-- At least the rent-exempt balance; an address the program owned before keeps the balance it had.
def RentExempt (rt : Runtime K W) (b₀ b : Bank K W) (e : K × ℕ) : Prop :=
  (b₀.ledger.owns rt.toEnv e.1 → rt.minimumBalance e.2 ≤ b₀.lamports e.1) → rt.minimumBalance e.2 ≤ b.lamports e.1

theorem Rented.rentExempt {b₀ b : Bank K W} {e : K × ℕ} (h : Rented rt b₀ b e) : RentExempt rt b₀ b e := by
  intro hbefore
  rcases h with h | ⟨howned, hle⟩
  · exact h
  · exact (hbefore howned).trans hle

-- Lamports sent ahead to any address, the ones an instruction creates among them, change neither whether it
-- is accepted nor the accounts it leaves.
theorem prefunding_changes_nothing (hrt : rt.Lawful) {b : Bank K W} {plain donated : List (Step K W)}
    (h : Inserted plain donated) {call : Call K} {ix : Instruction W}
    (hsigns : Unsigned rt (donated ++ [.instruction call ix]))
    (hplain : Funded rt b (plain ++ [.instruction call ix]))
    (hdonated : Funded rt b (donated ++ [.instruction call ix])) :
    ((∃ b', processOn rt call ix (b.run rt donated) = .ok b') ↔
      ∃ b', processOn rt call ix (b.run rt plain) = .ok b') ∧
    ∀ b₁ b₂, processOn rt call ix (b.run rt plain) = .ok b₁ → processOn rt call ix (b.run rt donated) = .ok b₂ →
      b₁.ledger = b₂.ledger ∧ ∀ bill, billOf call ix = some bill → ∀ e ∈ bill.creates,
        RentExempt rt (b.run rt plain) b₁ e ∧ RentExempt rt (b.run rt donated) b₂ e := by
  obtain ⟨hplain, hpays⟩ := funded_append hplain
  obtain ⟨hdonated, hpays'⟩ := funded_append hdonated
  have hledger := run_same hrt h (fun call' ix' hmem => hsigns call' ix' (List.mem_append_left _ hmem)) rfl
    hplain hdonated
  have hcall := hsigns call ix (List.mem_append_right _ List.mem_cons_self)
  have hsame := processOn_same hrt hcall hledger hpays hpays'
  refine ⟨⟨fun ⟨b₂, hb₂⟩ => ?_, fun ⟨b₁, hb₁⟩ => ?_⟩, fun b₁ b₂ hb₁ hb₂ => ?_⟩
  · obtain ⟨b₁, hb₁, -⟩ := hsame.ok_right hb₂
    exact ⟨b₁, hb₁⟩
  · obtain ⟨b₂, hb₂, -⟩ := hsame.ok_left hb₁
    exact ⟨b₂, hb₂⟩
  · obtain ⟨b₂', hb₂', l, h₁, h₂⟩ := hsame.ok_left hb₁
    cases hb₂.symm.trans hb₂'
    exact ⟨h₁.1.trans h₂.1.symm, fun bill hbill e he =>
      ⟨(h₁.2 bill hbill e he).rentExempt, (h₂.2 bill hbill e he).rentExempt⟩⟩

def rentedRuntime : Runtime Key ℕ where
  toEnv := lenient
  minimumBalance space := 128 + space
  splLamports _ lamports _ _ _ _ := lamports

theorem rentedRuntime_lawful : rentedRuntime.Lawful where
  rent_mono _ _ h := Nat.add_le_add_left h 128
  system_ne := by decide
  token_ne := by decide
  spl_le _ := le_rfl

-- A pool with one known root, and a wallet that pays.
def fundedBank : Bank Key ℕ where
  ledger := deployed.write (.knownRoot 9) ⟨.wallet 0, .empty⟩
  lamports key := if key = .wallet 12 ∨ key = .wallet 13 then 1000 else 0

def reachedRoot : ℕ :=
  match fundedBank.ledger.appendLeaves lenient (.tree (.config (.wallet 10))) 21 [22] with
  | .ok a => a.2.1
  | .error _ => 0

def transferCall : Call Key where
  keys := [.config (.wallet 10), .tree (.config (.wallet 10)), .knownRoot 9, .knownRoot reachedRoot, .wallet 12,
    .wallet 1, .eventAuthority, .wallet 0, .nullifier 5]
  isSigner key := key == .wallet 12

def transferPayload : Payload 18 ℕ where
  proof := ⟨(0, 0), ((0, 0), (0, 0)), (0, 0)⟩
  carried i := if i.val = 12 then 5 else if i.val = 14 then 9 else if i.val = 15 then 21 else if i.val = 16 then 22 else 0
  tail := List.replicate (2 * kemCiphertextLen) 0

-- The nullifier address is funded short of its rent, the root's address beyond it.
def donations : List (Step Key ℕ) :=
  [.transfer (· == .wallet 13) (.wallet 13) (.nullifier 5) 3,
    .transfer (· == .wallet 13) (.wallet 13) (.knownRoot reachedRoot) 500]

theorem transferCall_unsigned : PdasUnsigned rentedRuntime transferCall := by
  intro seed
  cases seed <;> rfl

theorem pays_of_funds {b : Bank Key ℕ} (haccount : b.ledger.accounts (.wallet 12) = ⟨.wallet 1, .empty⟩)
    (hfunds : 256 ≤ b.lamports (.wallet 12)) :
    CanPay rentedRuntime b transferCall (.transferPriv transferPayload) := by
  intro bill hbill
  cases hbill
  exact ⟨rfl, by rw [haccount]; rfl, by rw [haccount]; rfl, hfunds⟩

set_option maxRecDepth 20000 in
theorem prefunding_changes_nothing_sample :
    ∃ b', processOn rentedRuntime transferCall (.transferPriv transferPayload)
      (fundedBank.run rentedRuntime donations) = .ok b' := by
  have hsigns : Unsigned rentedRuntime (donations ++ [.instruction transferCall (.transferPriv transferPayload)]) := by
    intro call ix hmem
    simp only [donations, List.cons_append, List.nil_append, List.mem_cons, reduceCtorEq, Step.instruction.injEq,
      List.not_mem_nil, or_false, false_or] at hmem
    rw [hmem.1]
    exact transferCall_unsigned
  have hsame := prefunding_changes_nothing rentedRuntime_lawful (b := fundedBank)
    (.donate _ _ _ _ (.donate _ _ _ _ .nil)) hsigns ⟨pays_of_funds rfl (by decide), trivial⟩
    ⟨trivial, trivial, pays_of_funds rfl (by decide), trivial⟩
  exact hsame.1.mpr ⟨_, rfl⟩

end Bongtu.Solana
