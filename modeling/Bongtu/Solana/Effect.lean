import Bongtu.Admission
import Bongtu.Solana.Program

set_option linter.unusedSectionVars false

namespace Bongtu.Solana

open Merkle Outcome

variable {K W : Type} [DecidableEq K] [DecidableEq W] [Zero W] [One W] {env : Env K W}

namespace TreeState

variable {poseidon2 : W → W → W} {H k : ℕ}

def runFrom (poseidon2 : W → W → W) (H k : ℕ) (t : TreeState W) (ops : List (TreeOp W)) :
    Except PoolError (TreeState W) :=
  ops.foldlM (apply poseidon2 H k) t

theorem Holds.apply {t t' : TreeState W} {c : Content W} (ht : t.Holds poseidon2 H c)
    {op : TreeOp W} (hk : ∀ r ls, op = .attach r ls → k ≤ H)
    (hop : apply poseidon2 H k t op = .ok t') : t'.Holds poseidon2 H (op.content k c) := by
  cases op with
  | append leaf =>
    rcases ht.appendLeaf leaf with ⟨-, t1, ht1, hc⟩ | ⟨-, e, he⟩
    · simp only [TreeState.apply, ht1] at hop
      obtain rfl := Except.ok.inj hop
      exact hc
    · simp only [TreeState.apply, he] at hop
      cases hop
  | attach r leaves =>
    rcases ht.attachSubtree (hk r leaves rfl) r with ⟨-, start, t1, ht1, hc⟩ | ⟨-, e, he⟩
    · simp only [TreeState.apply, ht1] at hop
      obtain rfl := Except.ok.inj hop
      exact hc
    · simp only [TreeState.apply, he] at hop
      cases hop

theorem Holds.runFrom {t' : TreeState W} (ops : List (TreeOp W)) : ∀ {t : TreeState W}
    {c : Content W}, t.Holds poseidon2 H c → (∀ r ls, .attach r ls ∈ ops → k ≤ H) →
    runFrom poseidon2 H k t ops = .ok t' →
    t'.Holds poseidon2 H (ops.foldl (TreeOp.content k) c) := by
  induction ops with
  | nil =>
    intro t c ht _ hrun
    cases hrun
    exact ht
  | cons op ops ih =>
    intro t c ht hk hrun
    obtain ⟨t1, ht1, hrun⟩ := bind_ok.mp hrun
    exact ih (ht.apply (fun r ls h => hk r ls (by simp [h])) ht1)
      (fun r ls h => hk r ls (List.mem_cons_of_mem _ h)) hrun

theorem Holds.appends {t t' : TreeState W} {c : Content W} {leaves : List W}
    (ht : t.Holds poseidon2 H c)
    (hrun : TreeState.runFrom poseidon2 H k t (Bongtu.appends leaves) = .ok t') :
    t'.Holds poseidon2 H ((Bongtu.appends leaves).foldl (TreeOp.content k) c) :=
  ht.runFrom _ (fun r ls h => by simp [Bongtu.appends] at h) hrun

theorem Holds.appends_complete (leaves : List W) : ∀ {t : TreeState W} {c : Content W},
    t.Holds poseidon2 H c → c.next + leaves.length ≤ 2 ^ H →
    ∃ t', TreeState.runFrom poseidon2 H k t (Bongtu.appends leaves) = .ok t' := by
  induction leaves with
  | nil => exact fun {t} _ _ _ => ⟨t, rfl⟩
  | cons leaf leaves ih =>
    intro t c ht hroom
    rw [List.length_cons] at hroom
    rcases ht.appendLeaf leaf with ⟨-, t1, ht1, hc⟩ | ⟨hfull, -⟩
    · obtain ⟨t', ht'⟩ := ih hc (by rw [Content.place_zero_next]; omega)
      refine ⟨t', bind_ok.mpr ⟨t1, ?_, ht'⟩⟩
      simp only [TreeState.apply, ht1]
      rfl
    · omega

end TreeState

namespace Ledger

-- An account nobody has written yet.
def Blank (env : Env K W) (l : Ledger K W) (key : K) : Prop :=
  (l.accounts key).owner = env.systemProgram ∧ (l.accounts key).data.isEmpty = true

-- The markers at `keys` created.
def mark (env : Env K W) (l : Ledger K W) (keys : List K) : Ledger K W :=
  { l with accounts := fun key => if key ∈ keys then ⟨env.programId, .empty⟩ else l.accounts key }

def Spendable (env : Env K W) (l : Ledger K W) (nf : W) : Prop :=
  ¬l.owns env (env.pda (.nullifier nf)) ∧ l.Blank env (env.pda (.nullifier nf))

def nullifierPda (env : Env K W) (nf : W) : K := env.pda (.nullifier nf)

theorem mark_nil (l : Ledger K W) : l.mark env [] = l := by simp [mark]

theorem mark_append (l : Ledger K W) (keys keys' : List K) :
    (l.mark env keys).mark env keys' = l.mark env (keys ++ keys') := by
  simp only [mark, List.mem_append, Ledger.mk.injEq, and_true]
  funext key
  by_cases h : key ∈ keys' <;> by_cases h' : key ∈ keys <;> simp [h, h']

theorem owns_mark {l : Ledger K W} {keys : List K} {key : K} :
    (l.mark env keys).owns env key ↔ l.owns env key ∨ key ∈ keys := by
  unfold owns mark
  by_cases h : key ∈ keys <;> simp [h]

theorem accounts_mark {l : Ledger K W} {keys : List K} {key : K} (hkey : key ∉ keys) :
    (l.mark env keys).accounts key = l.accounts key := by
  simp [mark, hkey]

theorem createMarkerPda_ok {l l' : Ledger K W} {tx : Tx K} {key : K} :
    l.createMarkerPda env tx key = .ok l' ↔
      (tx.funds key = true ∧ l.Blank env key) ∧ l' = l.mark env [key] := by
  have hwrite : l.write key ⟨env.programId, .empty⟩ = l.mark env [key] := by
    simp only [write, mark, List.mem_singleton, Ledger.mk.injEq, and_true]
    funext x
    simp [Function.update_apply]
  simp only [createMarkerPda, createPda, bind_ok, require_ok, exists_and_left, Blank, hwrite]
  constructor
  · rintro ⟨h, -, h'⟩
    exact ⟨h, (Except.ok.inj h').symm⟩
  · rintro ⟨h, rfl⟩
    exact ⟨h, (), rfl⟩

theorem spendNullifiers_ok {tx : Tx K} (keys : List K) : ∀ {l l' : Ledger K W},
    l.spendNullifiers env tx keys = .ok l' → l' = l.mark env keys := by
  induction keys with
  | nil =>
    intro l l' h
    cases h
    exact (mark_nil l).symm
  | cons key keys ih =>
    intro l l' h
    obtain ⟨l1, hl1, h⟩ := bind_ok.mp h
    obtain ⟨-, rfl⟩ := createMarkerPda_ok.mp hl1
    rw [ih h, mark_append, List.singleton_append]

theorem spendNullifiers_complete {tx : Tx K} (keys : List K) : ∀ {l : Ledger K W}, keys.Nodup →
    (∀ key ∈ keys, tx.funds key = true ∧ l.Blank env key) →
    l.spendNullifiers env tx keys = .ok (l.mark env keys) := by
  induction keys with
  | nil =>
    intro l _ _
    rw [mark_nil]
    rfl
  | cons key keys ih =>
    intro l hnodup hblank
    obtain ⟨hnot, hnodup⟩ := List.nodup_cons.mp hnodup
    have hkey := createMarkerPda_ok.mpr ⟨hblank key (by simp), rfl⟩
    have hrest : ∀ x ∈ keys, tx.funds x = true ∧ (l.mark env [key]).Blank env x := by
      intro x hx
      have hne : x ∉ [key] := fun h => hnot (List.mem_singleton.mp h ▸ hx)
      unfold Blank
      rw [accounts_mark hne]
      exact hblank x (by simp [hx])
    exact bind_ok.mpr ⟨_, hkey, (ih hnodup hrest).trans (by rw [mark_append, List.singleton_append])⟩

theorem checkSpentRoot_ok {l : Ledger K W} {spending : List W} {root : W} {acc : K} {u : Unit} :
    l.checkSpentRoot env spending root acc = .ok u ↔
      (spending ≠ [] → acc = env.pda (.knownRoot root) ∧ l.owns env acc) ∧
        (spending = [] → root = 0) := by
  unfold checkSpentRoot
  split
  · case isTrue h => simp [h, require_ok]
  · case isFalse h => simp [h, bind_ok, require_ok]

theorem checkNullifier_ok {l : Ledger K W} {nf : W} {key : K} {u : Unit} :
    l.checkNullifier env nf key = .ok u ↔ key = env.pda (.nullifier nf) ∧ l.Spendable env nf := by
  simp only [checkNullifier, bind_ok, require_ok, exists_const, Spendable, Blank]
  constructor
  · rintro ⟨rfl, h⟩
    exact ⟨rfl, h⟩
  · rintro ⟨rfl, h⟩
    exact ⟨rfl, h⟩

theorem forM_zip_ok {l : Ledger K W} {u : Unit} (nfs : List W) : ∀ {keys : List K},
    (keys.length = nfs.length ∧
      (nfs.zip keys).forM (fun s => l.checkNullifier env s.1 s.2) = .ok u) ↔
      keys = nfs.map (nullifierPda env) ∧ ∀ nf ∈ nfs, l.Spendable env nf := by
  simp only [forM_ok, checkNullifier_ok]
  induction nfs with
  | nil => simp
  | cons nf nfs ih =>
    intro keys
    cases keys with
    | nil => simp
    | cons key keys =>
      simp only [List.length_cons, Nat.add_right_cancel_iff, List.zip_cons_cons, List.map_cons,
        List.cons.injEq, List.forall_mem_cons]
      constructor
      · rintro ⟨hlen, ⟨hkey, hspend⟩, hrest⟩
        obtain ⟨hkeys, hall⟩ := ih.mp ⟨hlen, hrest⟩
        exact ⟨⟨hkey, hkeys⟩, hspend, hall⟩
      · rintro ⟨⟨hkey, hkeys⟩, hspend, hall⟩
        obtain ⟨hlen, hrest⟩ := ih.mpr ⟨hkeys, hall⟩
        exact ⟨hlen, ⟨hkey, hspend⟩, hrest⟩

theorem checkSpend_ok {l : Ledger K W} {nullifiers spending : List W} {root : W} {acc : K}
    {keys : List K} :
    l.checkSpend env nullifiers root acc keys = .ok spending ↔
      spending = stripZeros nullifiers ∧ spending.length ≤ maxNullifiers ∧
      ((spending ≠ [] → acc = env.pda (.knownRoot root) ∧ l.owns env acc) ∧
        (spending = [] → root = 0)) ∧ spending.Nodup ∧
      keys = spending.map (nullifierPda env) ∧ ∀ nf ∈ spending, l.Spendable env nf := by
  simp only [checkSpend, bind_ok, require_ok, checkSpentRoot_ok, exists_const]
  constructor
  · rintro ⟨hlen, hclaim, hnodup, hkeys, u, hall, h⟩
    obtain rfl := Except.ok.inj h
    exact ⟨rfl, hlen, hclaim, hnodup, (forM_zip_ok _).mp ⟨hkeys, hall⟩⟩
  · rintro ⟨rfl, hlen, hclaim, hnodup, hrest⟩
    obtain ⟨hkeys, hall⟩ := (forM_zip_ok (u := ()) _).mpr hrest
    exact ⟨hlen, hclaim, hnodup, hkeys, (), hall, rfl⟩

theorem appendLeaves_ok (k : ℕ) {l l' : Ledger K W} {tree : K} {leaf root : W} {leaves : List W}
    {start : ℕ} :
    l.appendLeaves env tree leaf leaves = .ok (start, root, l') ↔
      ∃ config t t', (l.accounts tree).data = .treeState config t ∧
        t.runFrom env.poseidon2 treeHeight k (appends (leaf :: leaves)) = .ok t' ∧
        start = t.nextLeafIndex ∧ root = t'.currentRoot ∧ l' = l.storeTree tree config t' := by
  have hload : ∀ a, l.loadTree tree = .ok a ↔ (l.accounts tree).data = .treeState a.1 a.2 := by
    rintro ⟨config, t⟩
    unfold loadTree
    split
    · case h_1 config' t' h => simp [h]
    · case h_2 h => simpa using h config t
  have hrun : ∀ t : TreeState W, t.runFrom env.poseidon2 treeHeight k (appends leaves) =
      leaves.foldlM (fun t leaf => (t.appendLeaf env.poseidon2 treeHeight leaf).map Prod.snd) t := by
    intro t
    rw [TreeState.runFrom, appends, List.foldlM_map]
    rfl
  simp only [appendLeaves, bind_ok, hload]
  constructor
  · rintro ⟨⟨config, t⟩, ht, ⟨s, t1⟩, ht1, t', ht', h⟩
    cases h
    refine ⟨config, t, t', ht, bind_ok.mpr ⟨t1, ?_, (hrun t1).trans ht'⟩,
      TreeState.insertNode_start env.poseidon2 treeHeight ht1, rfl, rfl⟩
    rw [TreeState.apply, ht1]
    rfl
  · rintro ⟨config, t, t', ht, hops, rfl, rfl, rfl⟩
    obtain ⟨t1, ht1, hops⟩ := bind_ok.mp hops
    simp only [TreeState.apply] at ht1
    cases happ : t.appendLeaf env.poseidon2 treeHeight leaf with
    | error e => simp [happ, Except.map] at ht1
    | ok a =>
      rw [happ] at ht1
      cases ht1
      have hstart := TreeState.insertNode_start env.poseidon2 treeHeight happ
      exact ⟨(config, t), ht, a, happ, t', (hrun a.2).symm.trans hops, by rw [← hstart]; rfl⟩

theorem owns_storeTree {l : Ledger K W} {tree config key : K} {t : TreeState W} :
    (l.storeTree tree config t).owns env key ↔ l.owns env key := by
  unfold owns storeTree write
  by_cases h : key = tree
  · subst h
    simp
  · simp [Function.update_of_ne h]

theorem registerNewRoot_ok {l l' : Ledger K W} {tx : Tx K} {acc : K} {root : W} :
    l.registerNewRoot env tx acc root = .ok l' ↔ acc = env.pda (.knownRoot root) ∧
      (l.owns env acc ∧ l' = l ∨
        ¬l.owns env acc ∧ (tx.funds acc = true ∧ l.Blank env acc) ∧ l' = l.mark env [acc]) := by
  simp only [registerNewRoot, bind_ok, require_ok, exists_const]
  refine and_congr_right fun _ => ?_
  split
  · case isTrue h =>
    simp only [h, not_true, false_and, or_false, true_and, pure, Except.pure]
    exact ⟨fun h' => (Except.ok.inj h').symm, fun h' => h' ▸ rfl⟩
  · case isFalse h => simp [h, createMarkerPda_ok]

theorem emit_ok {l l' : Ledger K W} {tx : Tx K} {acc : K} {event : Event W} :
    l.emit env tx acc event = .ok l' ↔ acc = env.pda .eventAuthority ∧ env.programId ∈ tx.keys ∧
      l' = { l with events := l.events ++ [event] } := by
  simp only [emit, bind_ok, require_ok, exists_const]
  refine and_congr_right fun _ => and_congr_right fun _ => ?_
  exact ⟨fun h => (Except.ok.inj h).symm, fun h => h ▸ rfl⟩

theorem checkPoolConfig_ok {l : Ledger K W} {config : K} {c : PoolConfig K W} :
    l.checkPoolConfig env config = .ok c ↔ l.accounts config = ⟨env.programId, .poolConfig c⟩ := by
  rw [Account.ext_iff, checkPoolConfig]
  split
  · case isTrue howns =>
    have howner : (l.accounts config).owner = env.programId := howns
    cases (l.accounts config).data <;> simp [howner]
  · case isFalse hforeign =>
    have howner : (l.accounts config).owner ≠ env.programId := hforeign
    simp [howner]

theorem checkTreeState_ok {l : Ledger K W} {tree config : K} {u : Unit} :
    l.checkTreeState env tree config = .ok u ↔
      ∃ t, l.accounts tree = ⟨env.programId, .treeState config t⟩ := by
  simp only [Account.ext_iff, checkTreeState]
  split
  · case isTrue howns =>
    have howner : (l.accounts tree).owner = env.programId := howns
    cases (l.accounts tree).data <;> simp [howner, require_ok]
  · case isFalse hforeign =>
    have howner : (l.accounts tree).owner ≠ env.programId := hforeign
    simp [howner]

theorem checkCommon_ok {l : Ledger K W} {config tree system : K} {flag : ℕ} {c : PoolConfig K W} :
    l.checkCommon env config tree system flag = .ok c ↔ system = env.systemProgram ∧
      l.accounts config = ⟨env.programId, .poolConfig c⟩ ∧ c.familyFlags &&& flag ≠ 0 ∧
      ∃ t, l.accounts tree = ⟨env.programId, .treeState config t⟩ := by
  simp only [checkCommon, bind_ok, require_ok, exists_const, checkPoolConfig_ok, checkTreeState_ok]
  constructor
  · rintro ⟨hsystem, c', hc, hflag, htree, h⟩
    obtain rfl := Except.ok.inj h
    exact ⟨hsystem, hc, hflag, htree⟩
  · rintro ⟨hsystem, hc, hflag, htree⟩
    exact ⟨hsystem, c, hc, hflag, htree, rfl⟩

end Ledger

end Bongtu.Solana
