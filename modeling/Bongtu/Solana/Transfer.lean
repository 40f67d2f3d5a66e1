import Bongtu.Solana.Effect

set_option linter.unusedSectionVars false

namespace Bongtu.Solana

open Merkle Outcome

variable {K W : Type} [DecidableEq K] [DecidableEq W] [Zero W] [One W] {env : Env K W}

-- A pool's two accounts, and no foreign data at a program-derived address.
structure Ledger.Stores (env : Env K W) (l : Ledger K W) (config tree : K) (c : PoolConfig K W)
    (t : TreeState W) : Prop where
  config_eq : l.accounts config = ⟨env.programId, .poolConfig c⟩
  tree_eq : l.accounts tree = ⟨env.programId, .treeState config t⟩
  blank : ∀ seed, ¬l.owns env (env.pda seed) → l.Blank env (env.pda seed)

def Ledger.Known (env : Env K W) (l : Ledger K W) (root : W) : Prop :=
  l.owns env (env.pda (.knownRoot root))

def Ledger.Used (env : Env K W) (l : Ledger K W) (nf : W) : Prop :=
  l.owns env (env.pda (.nullifier nf))

-- The account list a client derives for a transfer, with enough lamports.
structure Tx.Derived (env : Env K W) {n N : ℕ} (fam : Family W n N) (tx : Tx K) (config tree : K)
    (carried : Fin n → W) (newRoot : W) : Prop where
  keys : ∃ payer, tx.keys = config :: tree :: env.pda (.knownRoot (fam.spentRoot carried)) ::
    env.pda (.knownRoot newRoot) :: payer :: env.systemProgram :: env.pda .eventAuthority ::
    env.programId :: (stripZeros (fam.nullifiers carried)).map (Ledger.nullifierPda env)
  funds : ∀ key, tx.funds key = true

namespace Ledger

theorem Stores.config_ne_tree {l : Ledger K W} {config tree : K} {c : PoolConfig K W}
    {t : TreeState W} (hl : l.Stores env config tree c t) : config ≠ tree := by
  rintro rfl
  cases hl.config_eq.symm.trans hl.tree_eq

theorem Stores.owns_config {l : Ledger K W} {config tree : K} {c : PoolConfig K W}
    {t : TreeState W} (hl : l.Stores env config tree c t) : l.owns env config := by
  unfold owns
  rw [hl.config_eq]

theorem Stores.owns_tree {l : Ledger K W} {config tree : K} {c : PoolConfig K W}
    {t : TreeState W} (hl : l.Stores env config tree c t) : l.owns env tree := by
  unfold owns
  rw [hl.tree_eq]

theorem Stores.mark {l : Ledger K W} {config tree : K} {c : PoolConfig K W} {t : TreeState W}
    (hl : l.Stores env config tree c t) (keys : List K) (hkeys : ∀ key ∈ keys, ¬l.owns env key) :
    (l.mark env keys).Stores env config tree c t where
  config_eq := (accounts_mark fun h => hkeys _ h hl.owns_config).trans hl.config_eq
  tree_eq := (accounts_mark fun h => hkeys _ h hl.owns_tree).trans hl.tree_eq
  blank seed hseed := by
    rw [owns_mark, not_or] at hseed
    unfold Blank
    rw [accounts_mark hseed.2]
    exact hl.blank seed hseed.1

theorem Stores.storeTree {l : Ledger K W} {config tree : K} {c : PoolConfig K W}
    {t : TreeState W} (hl : l.Stores env config tree c t) (t' : TreeState W) :
    (l.storeTree tree config t').Stores env config tree c t' where
  config_eq := (Function.update_of_ne hl.config_ne_tree _ _).trans hl.config_eq
  tree_eq := by simp [Ledger.storeTree, write, hl.tree_eq]
  blank seed hseed := by
    rw [owns_storeTree] at hseed
    have hne : env.pda seed ≠ tree := fun h => hseed (h ▸ hl.owns_tree)
    simpa [Blank, Ledger.storeTree, write, Function.update_of_ne hne] using hl.blank seed hseed

theorem Stores.of_accounts {l l' : Ledger K W} {config tree : K} {c : PoolConfig K W}
    {t : TreeState W} (hl : l.Stores env config tree c t) (h : l'.accounts = l.accounts) :
    l'.Stores env config tree c t where
  config_eq := by rw [h, hl.config_eq]
  tree_eq := by rw [h, hl.tree_eq]
  blank := by
    unfold owns Blank
    rw [h]
    exact hl.blank

-- What a transfer leaves behind: the advanced tree, a marker for each nullifier and the new root.
structure Transferred (env : Env K W) (l l' : Ledger K W) (config tree : K) (c : PoolConfig K W)
    (t' : TreeState W) (nfs : List W) : Prop where
  stores : l'.Stores env config tree c t'
  owns : ∀ key, l'.owns env key ↔ l.owns env key ∨ key ∈ nfs.map (nullifierPda env) ∨
    key = env.pda (.knownRoot t'.currentRoot)

end Ledger

namespace Family

open Ledger

variable {n N : ℕ} {fam : Family W n N} {tx : Tx K} {p : Payload n W} {l : Ledger K W}
  {config tree : K} {c : PoolConfig K W} {t : TreeState W}

theorem checkWire_ok {u : Unit} : fam.checkWire env p = .ok u ↔
    p.tail.length = fam.tailLen ∧ ∀ i, isCanonicalScalar env (p.carried i) := by
  simp [checkWire, checkCanonical, bind_ok, require_ok]

theorem nullifierPda_injective (hpda : Function.Injective env.pda) :
    Function.Injective (nullifierPda env : W → K) := fun a b h => by
  simpa using hpda h

-- The checks of a transfer that do not look at the pool.
structure Passes (env : Env K W) (fam : Family W n N) (p : Payload n W) : Prop where
  tail : p.tail.length = fam.tailLen
  canonical : ∀ i, isCanonicalScalar env (p.carried i)
  proof : fam.verify p.proof (fam.publics p.carried []) = true

def spending (fam : Family W n N) (p : Payload n W) : List W := stripZeros (fam.nullifiers p.carried)

theorem transferOp_ok {k : ℕ} {content : Content W} {newRoot : W}
    (hl : l.Stores env config tree c t) (ht : t.Holds env.poseidon2 treeHeight content)
    (hnone : fam.enterprise = false) {l' : Ledger K W} (h : fam.transferOp env tx p l = .ok l')
    (htx : tx.Derived env fam config tree p.carried newRoot) :
    fam.Passes env p ∧ Admissible (l.Known env) (l.Used env) treeHeight content
      (fam.spentRoot p.carried) (fam.spending p) (fam.outputs p.carried) ∧
    ∃ t', t'.Holds env.poseidon2 treeHeight
        ((appends (fam.outputs p.carried)).foldl (TreeOp.content k) content) ∧
      Transferred env l l' config tree c t' (fam.spending p) := by
  obtain ⟨payer, hkeys⟩ := htx.keys
  simp only [transferOp, hkeys, bind_ok, arbiter, hnone, checkOutputs, checkProof, require_ok,
    checkWire_ok, checkSpend_ok, checkCommon_ok, Bool.false_eq_true, if_false, exists_const] at h
  obtain ⟨c', ⟨-, hc', -, -⟩, arbiter, harbiter, hwire, houts, spending, ⟨rfl, -, hclaim, hnodup, -,
    hspend⟩, hproof, spent, hspent, ⟨start, root, appended⟩, happended, known, hknown, hrecord⟩ := h
  obtain rfl := Except.ok.inj harbiter
  obtain rfl := spendNullifiers_ok _ hspent
  obtain ⟨config', t0, t', ht0, hrun, -, rfl, rfl⟩ := (appendLeaves_ok k).mp happended
  have hmarked := hl.mark ((fam.spending p).map (nullifierPda env)) fun key hkey => by
    obtain ⟨nf, hnf, rfl⟩ := List.mem_map.mp hkey
    exact (hspend nf hnf).1
  obtain ⟨rfl, rfl⟩ := Data.treeState.inj ((congrArg Account.data hmarked.tree_eq).symm.trans ht0)
  have hstored := hmarked.storeTree t'
  have hholds := ht.appends hrun
  obtain ⟨-, -, rfl⟩ := emit_ok.mp hrecord
  refine ⟨⟨hwire.1, hwire.2, hproof⟩, ⟨⟨fun hne => ?_, hclaim.2⟩, hnodup, fun nf hnf => ?_, houts, ?_⟩,
    t', hholds, ?_⟩
  · obtain ⟨hacc, hknown⟩ := hclaim.1 hne
    exact hknown
  · have hne := (List.mem_filter.mp hnf).2
    exact ⟨by simpa using hne, (hspend nf hnf).1⟩
  · rw [← next_appends k (fam.outputs p.carried) content]
    exact Frontier.Tracks.room hholds
  · have howns : ∀ key, (storeTree (l.mark env ((fam.spending p).map (nullifierPda env))) tree config
        t').owns env key ↔ l.owns env key ∨ key ∈ (fam.spending p).map (nullifierPda env) :=
      fun key => by rw [owns_storeTree, owns_mark]
    obtain ⟨hacc, ⟨hold, rfl⟩ | ⟨hnew, -, rfl⟩⟩ := registerNewRoot_ok.mp hknown
    · refine ⟨hstored.of_accounts rfl, fun key => ?_⟩
      rw [← or_assoc]
      refine (howns key).trans ⟨.inl, ?_⟩
      rintro (h | rfl)
      · exact h
      · exact (howns _).mp (hacc ▸ hold)
    · have hfree : ∀ key ∈ [env.pda (.knownRoot newRoot)], ¬(storeTree (l.mark env
          ((fam.spending p).map (nullifierPda env))) tree config t').owns env key :=
        fun key hkey => List.mem_singleton.mp hkey ▸ hnew
      refine ⟨(hstored.mark _ hfree).of_accounts rfl, fun key => ?_⟩
      rw [← or_assoc, ← howns, ← hacc]
      exact owns_mark.trans (or_congr_right List.mem_singleton)

theorem transferOp_complete {k : ℕ} {content : Content W} (hpda : Function.Injective env.pda)
    (hl : l.Stores env config tree c t) (ht : t.Holds env.poseidon2 treeHeight content)
    (hnone : fam.enterprise = false) (hflag : c.familyFlags &&& fam.flag ≠ 0)
    (harity : (fam.nullifiers p.carried).length ≤ maxNullifiers)
    (htx : tx.Derived env fam config tree p.carried
      (((appends (fam.outputs p.carried)).foldl (TreeOp.content k) content).root env.poseidon2 0
        treeHeight))
    (hp : fam.Passes env p)
    (hadm : Admissible (l.Known env) (l.Used env) treeHeight content (fam.spentRoot p.carried)
      (fam.spending p) (fam.outputs p.carried)) :
    ∃ l', fam.transferOp env tx p l = .ok l' := by
  obtain ⟨payer, hkeys⟩ := htx.keys
  obtain ⟨t', hrun⟩ := ht.appends_complete (k := k) (fam.outputs p.carried) hadm.room
  rw [← Frontier.Tracks.root_eq (ht.appends hrun), TreeState.frontier_root] at hkeys
  have hspend : ∀ nf ∈ fam.spending p, l.Spendable env nf := fun nf hnf =>
    ⟨(hadm.fresh nf hnf).2, hl.blank _ (hadm.fresh nf hnf).2⟩
  set marked := l.mark env ((fam.spending p).map (nullifierPda env))
  have hspent : l.spendNullifiers env tx ((fam.spending p).map (nullifierPda env)) = .ok marked :=
    spendNullifiers_complete _ (hadm.nodup.map (nullifierPda_injective hpda)) fun key hkey => by
      obtain ⟨nf, hnf, rfl⟩ := List.mem_map.mp hkey
      exact ⟨htx.funds _, (hspend nf hnf).2⟩
  have hmarked : marked.Stores env config tree c t := hl.mark _ fun key hkey => by
    obtain ⟨nf, hnf, rfl⟩ := List.mem_map.mp hkey
    exact (hspend nf hnf).1
  have happended : marked.appendLeaves env tree (fam.leaf p.carried) (fam.leaves p.carried) =
      .ok (t.nextLeafIndex, t'.currentRoot, marked.storeTree tree config t') :=
    (appendLeaves_ok k).mpr ⟨config, t, t', by rw [hmarked.tree_eq], hrun, rfl, rfl, rfl⟩
  have hstored := hmarked.storeTree t'
  obtain ⟨known, hknown⟩ : ∃ known, (marked.storeTree tree config t').registerNewRoot env tx
      (env.pda (.knownRoot t'.currentRoot)) t'.currentRoot = .ok known := by
    by_cases hold : (marked.storeTree tree config t').owns env (env.pda (.knownRoot t'.currentRoot))
    · exact ⟨_, registerNewRoot_ok.mpr ⟨rfl, .inl ⟨hold, rfl⟩⟩⟩
    · exact ⟨_, registerNewRoot_ok.mpr ⟨rfl, .inr ⟨hold, ⟨htx.funds _, hstored.blank _ hold⟩, rfl⟩⟩⟩
  have hrecord : fam.record env tx (env.pda .eventAuthority) (fam.spending p) p t.nextLeafIndex
      t'.currentRoot known = .ok _ :=
    emit_ok.mpr ⟨rfl, by simp [hkeys], rfl⟩
  have hspending : l.checkSpend env (fam.nullifiers p.carried) (fam.spentRoot p.carried)
      (env.pda (.knownRoot (fam.spentRoot p.carried))) ((fam.spending p).map (nullifierPda env)) =
        .ok (fam.spending p) :=
    checkSpend_ok.mpr ⟨rfl, (List.length_filter_le _ _).trans harity,
      ⟨fun hne => ⟨rfl, hadm.claim.1 hne⟩, hadm.claim.2⟩, hadm.nodup, rfl, hspend⟩
  simp only [transferOp, hkeys]
  exact ⟨_, bind_ok.mpr ⟨c, checkCommon_ok.mpr ⟨rfl, hl.config_eq, hflag, t, hl.tree_eq⟩,
    bind_ok.mpr ⟨[], by simp [arbiter, hnone], bind_ok.mpr ⟨(), checkWire_ok.mpr ⟨hp.tail, hp.canonical⟩,
    bind_ok.mpr ⟨(), require_ok.mpr hadm.leaf_ne, bind_ok.mpr ⟨_, hspending,
    bind_ok.mpr ⟨(), require_ok.mpr hp.proof, bind_ok.mpr ⟨marked, hspent,
    bind_ok.mpr ⟨_, happended, bind_ok.mpr ⟨known, hknown, hrecord⟩⟩⟩⟩⟩⟩⟩⟩⟩⟩

theorem transferOp_iff {k : ℕ} {content : Content W} (hpda : Function.Injective env.pda)
    (hl : l.Stores env config tree c t) (ht : t.Holds env.poseidon2 treeHeight content)
    (hnone : fam.enterprise = false) (hflag : c.familyFlags &&& fam.flag ≠ 0)
    (harity : (fam.nullifiers p.carried).length ≤ maxNullifiers)
    (htx : tx.Derived env fam config tree p.carried
      (((appends (fam.outputs p.carried)).foldl (TreeOp.content k) content).root env.poseidon2 0
        treeHeight)) :
    (∃ l', fam.transferOp env tx p l = .ok l') ↔ fam.Passes env p ∧
      Admissible (l.Known env) (l.Used env) treeHeight content (fam.spentRoot p.carried)
        (fam.spending p) (fam.outputs p.carried) := by
  constructor
  · rintro ⟨l', hl'⟩
    obtain ⟨hp, hadm, -⟩ := transferOp_ok (k := k) hl ht hnone hl' htx
    exact ⟨hp, hadm⟩
  · rintro ⟨hp, hadm⟩
    exact transferOp_complete hpda hl ht hnone hflag harity htx hp hadm

end Family

-- Addresses that are their own derivation, for a closed deployment over the naturals.
inductive Key where
  | wallet (n : ℕ)
  | nullifier (nf : ℕ)
  | knownRoot (root : ℕ)
  | config (mint : Key)
  | tree (config : Key)
  | vaultAuthority (config : Key)
  | disburseBatch (startLeafIndex : ℕ)
  | eventAuthority
deriving DecidableEq, Repr

def Key.derive : Seed Key ℕ → Key
  | .nullifier nf => .nullifier nf
  | .knownRoot root => .knownRoot root
  | .config mint => .config mint
  | .tree pool => .tree pool
  | .vaultAuthority pool => .vaultAuthority pool
  | .disburseBatch start => .disburseBatch start
  | .eventAuthority => .eventAuthority

theorem Key.derive_injective : Function.Injective Key.derive := by
  intro a b h
  cases a <;> cases b <;> simp_all [Key.derive]

-- The token program's transfer between two accounts of one mint.
def splMove (tokenProgram : Key) (accounts : Key → Account Key ℕ) (source dest authority : Key)
    (amount : ℕ) : Option (Key → Account Key ℕ) :=
  match (accounts source).data, (accounts dest).data with
  | .tokenAccount m owner held, .tokenAccount m' owner' held' =>
    if (accounts source).owner = tokenProgram ∧ (accounts dest).owner = tokenProgram ∧
        source ≠ dest ∧ m = m' ∧ owner = authority ∧ amount ≤ held then
      some (Function.update (Function.update accounts source
        ⟨tokenProgram, .tokenAccount m owner (held - amount)⟩) dest
        ⟨tokenProgram, .tokenAccount m' owner' (held' + amount)⟩)
    else none
  | _, _ => none

-- A deployment whose verifiers accept every proof of canonical publics.
def lenient : Env Key ℕ where
  programId := .wallet 0
  systemProgram := .wallet 1
  tokenProgram := .wallet 2
  pda := Key.derive
  poseidon2 l r := 1 + l + 2 * r
  toNat := id
  boundRecipient
    | .wallet n => n
    | _ => 0
  verifyDepositPriv _ pub := decide (∀ i, pub i < snarkScalarField)
  verifyTransferPriv _ pub := decide (∀ i, pub i < snarkScalarField)
  verifyTransfer10x2Priv _ pub := decide (∀ i, pub i < snarkScalarField)
  verifyWithdrawPriv _ pub := decide (∀ i, pub i < snarkScalarField)
  verifyDeposit _ pub := decide (∀ i, pub i < snarkScalarField)
  verifyWithdraw _ pub := decide (∀ i, pub i < snarkScalarField)
  verifyDisburse256 _ pub := decide (∀ i, pub i < snarkScalarField)
  verifyTransfer _ pub := decide (∀ i, pub i < snarkScalarField)
  verifyTransfer10x2 _ pub := decide (∀ i, pub i < snarkScalarField)
  splTransfer := splMove (.wallet 2)

-- A mint and, owned by the future vault authority, its empty vault.
def undeployed : Ledger Key ℕ where
  accounts key :=
    if key = .wallet 10 then ⟨.wallet 2, .mint⟩
    else if key = .wallet 11 then
      ⟨.wallet 2, .tokenAccount (.wallet 10) (.vaultAuthority (.config (.wallet 10))) 0⟩
    else ⟨.wallet 1, .empty⟩
  events := []

-- Every family a consumer-only profile can enable.
def consumerProfile : Profile ℕ := ⟨15, 2, 0, 0, 0⟩

def consumerConfig : PoolConfig Key ℕ := ⟨15, .wallet 12, .wallet 10, .wallet 11, 2, 0, 0, 0⟩

def deployed : Ledger Key ℕ :=
  (undeployed.write (.config (.wallet 10)) ⟨.wallet 0, .poolConfig consumerConfig⟩).write
    (.tree (.config (.wallet 10)))
    ⟨.wallet 0, .treeState (.config (.wallet 10)) (.init lenient.poseidon2 treeHeight)⟩

example : processInstruction lenient
    ⟨[.config (.wallet 10), .tree (.config (.wallet 10)), .wallet 10, .wallet 11, .wallet 12, .wallet 1],
      fun _ => true, fun _ => true⟩ (.initializePool (some consumerProfile)) undeployed =
      .ok deployed := rfl

theorem owns_deployed {key : Key} : deployed.owns lenient key ↔
    key = .config (.wallet 10) ∨ key = .tree (.config (.wallet 10)) := by
  unfold Ledger.owns deployed undeployed Ledger.write
  simp only [Function.update_apply]
  split
  · case isTrue h => simp [h, lenient]
  · case isFalse htree =>
    split
    · case isTrue h => simp [h, lenient]
    · case isFalse hconfig =>
      simp only [hconfig, htree, or_self, iff_false]
      split
      · simp [lenient]
      · split <;> simp [lenient]

theorem deployed_stores : deployed.Stores lenient (.config (.wallet 10)) (.tree (.config (.wallet 10)))
    consumerConfig (.init lenient.poseidon2 treeHeight) where
  config_eq := rfl
  tree_eq := rfl
  blank seed hseed := by
    rw [owns_deployed, not_or] at hseed
    have hother : deployed.accounts (lenient.pda seed) = undeployed.accounts (lenient.pda seed) := by
      simp only [deployed, Ledger.write, Function.update_of_ne hseed.1, Function.update_of_ne hseed.2]
    have hwallet : ∀ n, lenient.pda seed ≠ .wallet n := by
      intro n
      cases seed <;> simp [lenient, Key.derive]
    unfold Ledger.Blank
    rw [hother]
    simp only [undeployed, hwallet, if_false]
    exact ⟨rfl, rfl⟩

end Bongtu.Solana
