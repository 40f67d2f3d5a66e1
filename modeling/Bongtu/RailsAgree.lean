import Bongtu.Evm.Admission
import Bongtu.Evm.Gate
import Bongtu.Solana.Transfer

set_option linter.unusedSectionVars false

namespace Bongtu

open Merkle Outcome

-- A consumer transfer, by the public vector the EVM module takes.
inductive Transfer where
  | transferPriv (pub : Fin 20 → ℕ)
  | transfer10x2Priv (pub : Fin 36 → ℕ)

namespace Transfer

def module : Transfer → Evm.Module
  | transferPriv _ => .transferPriv
  | transfer10x2Priv _ => .transfer10x2Priv

def nullifiers : Transfer → List ℕ
  | transferPriv pub => [pub 12, pub 13]
  | transfer10x2Priv pub => slice pub 12 10

def root : Transfer → ℕ
  | transferPriv pub => pub 14
  | transfer10x2Priv pub => pub 22

def outputs : Transfer → List ℕ
  | transferPriv pub => [pub 17, pub 18]
  | transfer10x2Priv pub => [pub 33, pub 34]

def call (module : Evm.Address) (proof : Proof) (kems : List Bytes) : Transfer → Evm.Call ℕ
  | transferPriv pub => .transferPriv module proof pub kems
  | transfer10x2Priv pub => .transfer10x2Priv module proof pub kems

-- The wire drops the `enabled` signals, which the program rebuilds.
def instruction (proof : Proof) (kems : List Bytes) : Transfer → Solana.Instruction ℕ
  | transferPriv pub => .transferPriv ⟨proof, dropRun pub 15 2, kems.flatten⟩
  | transfer10x2Priv pub => .transfer10x2Priv ⟨proof, dropRun pub 23 10, kems.flatten⟩

def flag : Transfer → ℕ
  | transferPriv _ => Solana.familyTransferPriv
  | transfer10x2Priv _ => Solana.familyTransfer10x2Priv

variable {K T : Type} [DecidableEq K]

def Derived (sol : Solana.Env K ℕ) (tx : Solana.Tx K) (config tree : K) (newRoot : ℕ) :
    Transfer → Prop
  | transferPriv pub =>
    tx.Derived sol (Solana.transferPrivFamily sol) config tree (dropRun pub 15 2) newRoot
  | transfer10x2Priv pub =>
    tx.Derived sol (Solana.transfer10x2PrivFamily sol) config tree (dropRun pub 23 10) newRoot

def Verified (evm : Evm.Env ℕ T) (proof : Proof) : Transfer → Prop
  | transferPriv pub =>
    evm.transferPrivVerifier proof (inject pub 15 (enabled [pub 12, pub 13])) = true
  | transfer10x2Priv pub =>
    evm.transfer10x2PrivVerifier proof (inject pub 23 (enabled (slice pub 12 10))) = true

end Transfer

variable {K T : Type} [DecidableEq K]

-- The rails share the Poseidon and one verifier verdict, which rejects non-canonical publics.
structure Twins (evm : Evm.Env ℕ T) (sol : Solana.Env K ℕ) : Prop where
  poseidon : sol.poseidon2 = evm.poseidon
  toNat : sol.toNat = id
  pda_injective : Function.Injective sol.pda
  transferPriv : sol.verifyTransferPriv = evm.transferPrivVerifier
  transfer10x2Priv : sol.verifyTransfer10x2Priv = evm.transfer10x2PrivVerifier
  canonical : ∀ proof pub, evm.transferPrivVerifier proof pub = true → ∀ i, pub i < snarkScalarField
  canonical10x2 : ∀ proof pub, evm.transfer10x2PrivVerifier proof pub = true →
    ∀ i, pub i < snarkScalarField

def rootOf (evm : Evm.Env ℕ T) (k : ℕ) (ops : List (TreeOp ℕ)) : ℕ :=
  (contentOf k ops).root evm.poseidon 0 Evm.treeHeight

-- Both pools after the operations `hist`, each a group of tree operations: the EVM pool knows the
-- root after every tree operation, the Solana pool the root after every operation of the pool.
structure Paired (evm : Evm.Env ℕ T) (sol : Solana.Env K ℕ) (k : ℕ) (hist : List (List (TreeOp ℕ)))
    (w : Evm.World ℕ T) (l : Solana.Ledger K ℕ) (config tree : K) (c : Solana.PoolConfig K ℕ) :
    Prop where
  evmTree : w.pool.imt.Holds evm.poseidon Evm.treeHeight k (contentOf k hist.flatten)
  evmKnown : ∀ r, w.Known r ↔ ∃ ops, ops <+: hist.flatten ∧ r = rootOf evm k ops
  solana : ∃ t, l.Stores sol config tree c t ∧
    t.Holds evm.poseidon Evm.treeHeight (contentOf k hist.flatten)
  solanaKnown : ∀ r, l.Known sol r ↔ ∃ done, done ≠ [] ∧ done <+: hist ∧ r = rootOf evm k done.flatten
  spent : ∀ nf, nf ≠ 0 → (w.Used nf ↔ l.Used sol nf)

def WellFormedKems (kems : List Bytes) : Prop :=
  kems.length = 2 ∧ ∀ ct ∈ kems, ct.length = kemCiphertextLen

theorem length_flatten_kems {kems : List Bytes} (h : WellFormedKems kems) :
    kems.flatten.length = 2 * kemCiphertextLen := by
  have hsum : (kems.map List.length).sum = kems.length * kemCiphertextLen := by
    rw [List.map_congr_left h.2, List.map_const', List.sum_replicate, smul_eq_mul]
  rw [List.length_flatten, hsum, h.1]

theorem checkKemCiphertexts_ok {W : Type} {kems : List Bytes} {want : ℕ} {u : Unit} :
    Evm.checkKemCiphertexts (W := W) kems want = .ok u ↔
      kems.length = want ∧ ∀ ct ∈ kems, ct.length = kemCiphertextLen := by
  simp only [Evm.checkKemCiphertexts, bind_ok, require_ok, exists_const]
  refine and_congr_right fun _ => ?_
  cases h : kems.findIdx? fun ct => ct.length != kemCiphertextLen with
  | none => simpa using List.findIdx?_eq_none_iff.mp h
  | some i =>
    obtain ⟨hi, hbad, -⟩ := List.findIdx?_eq_some_iff_getElem.mp h
    simp only [reduceCtorEq, false_iff, not_forall]
    exact ⟨kems[i], List.getElem_mem hi, by simpa using hbad⟩

theorem evm_transfer_iff {evm : Evm.Env ℕ T} {w : Evm.World ℕ T} {x : Transfer}
    {sender module : Evm.Address} {proof : Proof} {kems : List Bytes}
    (hcode : evm.code module = some x.module) :
    (∃ w', w.step evm ⟨sender, x.call module proof kems⟩ = .ok w') ↔
      WellFormedKems kems ∧ x.Verified evm proof ∧
        ∃ out, Evm.World.applyOp evm w module ⟨x.root, stripZeros x.nullifiers, x.outputs, 0⟩ = .ok out := by
  have hmap : ∀ {y : Except (Evm.PoolError ℕ) (ℕ × Evm.World ℕ T)} {a},
      y.mapError Evm.ModuleError.core = .ok a ↔ y = .ok a := by
    intro y a
    cases y <;> simp [Except.mapError]
  cases x with
  | transferPriv pub =>
    have hcode : evm.code module = some .transferPriv := hcode
    simp only [Transfer.call, Evm.World.step, hcode, if_true, Evm.World.transferPriv, bind_ok,
      require_ok, checkKemCiphertexts_ok, exists_const, hmap]
    constructor
    · rintro ⟨w', hkems, hproof, out, hout, -⟩
      exact ⟨hkems, hproof, out, hout⟩
    · rintro ⟨hkems, hproof, out, hout⟩
      exact ⟨_, hkems, hproof, out, hout, rfl⟩
  | transfer10x2Priv pub =>
    have hcode : evm.code module = some .transfer10x2Priv := hcode
    simp only [Transfer.call, Evm.World.step, hcode, if_true, Evm.World.transfer10x2Priv, bind_ok,
      require_ok, checkKemCiphertexts_ok, exists_const, hmap]
    constructor
    · rintro ⟨w', hkems, hproof, out, hout, -⟩
      exact ⟨hkems, hproof, out, hout⟩
    · rintro ⟨hkems, hproof, out, hout⟩
      exact ⟨_, hkems, hproof, out, hout, rfl⟩

theorem canonical_dropRun {n m : ℕ} {pub : Fin m → ℕ} {index : ℕ} (run : List ℕ)
    (hm : m = n + run.length) (h : ∀ j, inject pub index run j < snarkScalarField) (i : Fin n) :
    (dropRun pub index run.length : Fin n → ℕ) i < snarkScalarField := by
  obtain ⟨j, hj⟩ := dropRun_mem pub index hm i
  exact hj ▸ h j

section Solana

variable {evm : Evm.Env ℕ T} {sol : Solana.Env K ℕ} {l : Solana.Ledger K ℕ} {config tree : K}
  {c : Solana.PoolConfig K ℕ} {t : Solana.TreeState ℕ} {tx : Solana.Tx K} {x : Transfer}
  {content : Content ℕ} {k : ℕ} {proof : Proof} {kems : List Bytes}

theorem passes_transferPriv (henv : Twins evm sol) (pub : Fin 20 → ℕ) :
    (Solana.transferPrivFamily sol).Passes sol ⟨proof, dropRun pub 15 2, kems.flatten⟩ ↔
      kems.flatten.length = 2 * kemCiphertextLen ∧ (Transfer.transferPriv pub).Verified evm proof := by
  have hpublics : (Solana.transferPrivFamily sol).publics (dropRun pub 15 2) [] =
      inject pub 15 (enabled [pub 12, pub 13]) :=
    insertRun_dropRun pub (enabled [pub 12, pub 13]) rfl (by decide)
  have hverify : (Solana.transferPrivFamily sol).verify = evm.transferPrivVerifier := henv.transferPriv
  constructor
  · rintro ⟨htail, -, hproof⟩
    rw [hpublics, hverify] at hproof
    exact ⟨htail, hproof⟩
  · rintro ⟨htail, hproof⟩
    refine ⟨htail, fun i => ?_, by rw [hpublics, hverify]; exact hproof⟩
    rw [Solana.isCanonicalScalar, henv.toNat]
    exact canonical_dropRun (enabled [pub 12, pub 13]) rfl (henv.canonical _ _ hproof) i

theorem passes_transfer10x2Priv (henv : Twins evm sol) (pub : Fin 36 → ℕ) :
    (Solana.transfer10x2PrivFamily sol).Passes sol ⟨proof, dropRun pub 23 10, kems.flatten⟩ ↔
      kems.flatten.length = 2 * kemCiphertextLen ∧
        (Transfer.transfer10x2Priv pub).Verified evm proof := by
  have hpublics : (Solana.transfer10x2PrivFamily sol).publics (dropRun pub 23 10) [] =
      inject pub 23 (enabled (slice pub 12 10)) :=
    insertRun_dropRun pub (enabled (slice pub 12 10)) rfl (by decide)
  have hverify : (Solana.transfer10x2PrivFamily sol).verify = evm.transfer10x2PrivVerifier :=
    henv.transfer10x2Priv
  constructor
  · rintro ⟨htail, -, hproof⟩
    rw [hpublics, hverify] at hproof
    exact ⟨htail, hproof⟩
  · rintro ⟨htail, hproof⟩
    refine ⟨htail, fun i => ?_, by rw [hpublics, hverify]; exact hproof⟩
    rw [Solana.isCanonicalScalar, henv.toNat]
    exact canonical_dropRun (enabled (slice pub 12 10)) rfl (henv.canonical10x2 _ _ hproof) i

theorem solana_transfer_iff (henv : Twins evm sol) (hl : l.Stores sol config tree c t)
    (ht : t.Holds evm.poseidon Evm.treeHeight content) (hflag : c.familyFlags &&& x.flag ≠ 0)
    (htx : x.Derived sol tx config tree
      (((appends x.outputs).foldl (TreeOp.content k) content).root evm.poseidon 0 Evm.treeHeight)) :
    (∃ l', Solana.processInstruction sol tx (x.instruction proof kems) l = .ok l') ↔
      kems.flatten.length = 2 * kemCiphertextLen ∧ x.Verified evm proof ∧
        Admissible (l.Known sol) (l.Used sol) Evm.treeHeight content x.root (stripZeros x.nullifiers)
          x.outputs := by
  rw [← henv.poseidon] at ht htx
  cases x with
  | transferPriv pub =>
    rw [← and_assoc, ← passes_transferPriv henv]
    have harity : ((Solana.transferPrivFamily sol).nullifiers (dropRun pub 15 2)).length ≤
        Solana.maxNullifiers := (by decide : 2 ≤ 10)
    exact Solana.Family.transferOp_iff (p := ⟨proof, dropRun pub 15 2, kems.flatten⟩)
      henv.pda_injective hl ht rfl hflag harity htx
  | transfer10x2Priv pub =>
    rw [← and_assoc, ← passes_transfer10x2Priv henv]
    have harity : ((Solana.transfer10x2PrivFamily sol).nullifiers (dropRun pub 23 10)).length ≤
        Solana.maxNullifiers := (by decide : 10 ≤ 10)
    exact Solana.Family.transferOp_iff (p := ⟨proof, dropRun pub 23 10, kems.flatten⟩)
      henv.pda_injective hl ht rfl hflag harity htx

theorem solana_transfer_effect (henv : Twins evm sol) (hl : l.Stores sol config tree c t)
    (ht : t.Holds evm.poseidon Evm.treeHeight content) {newRoot : ℕ}
    (htx : x.Derived sol tx config tree newRoot) {l' : Solana.Ledger K ℕ}
    (hl' : Solana.processInstruction sol tx (x.instruction proof kems) l = .ok l') :
    ∃ t', t'.Holds evm.poseidon Evm.treeHeight ((appends x.outputs).foldl (TreeOp.content k) content) ∧
      Solana.Ledger.Transferred sol l l' config tree c t' (stripZeros x.nullifiers) := by
  rw [← henv.poseidon] at ht ⊢
  cases x with
  | transferPriv pub =>
    have hop : (Solana.transferPrivFamily sol).transferOp sol tx
      ⟨proof, dropRun pub 15 2, kems.flatten⟩ l = .ok l' := hl'
    exact (Solana.Family.transferOp_ok (k := k) hl ht rfl hop htx).2.2
  | transfer10x2Priv pub =>
    have hop : (Solana.transfer10x2PrivFamily sol).transferOp sol tx
      ⟨proof, dropRun pub 23 10, kems.flatten⟩ l = .ok l' := hl'
    exact (Solana.Family.transferOp_ok (k := k) hl ht rfl hop htx).2.2

end Solana

section Paired

variable {evm : Evm.Env ℕ T} {sol : Solana.Env K ℕ} {k : ℕ} {hist : List (List (TreeOp ℕ))}
  {w w' : Evm.World ℕ T} {l l' : Solana.Ledger K ℕ} {config tree : K} {c : Solana.PoolConfig K ℕ}

theorem flatten_prefix {done hist : List (List (TreeOp ℕ))} (h : done <+: hist) :
    done.flatten <+: hist.flatten := by
  obtain ⟨rest, rfl⟩ := h
  exact ⟨rest.flatten, by rw [List.flatten_append]⟩

theorem flatten_snoc (hist : List (List (TreeOp ℕ))) (ops : List (TreeOp ℕ)) :
    (hist ++ [ops]).flatten = hist.flatten ++ ops := by simp

theorem Paired.known_of_solana (h : Paired evm sol k hist w l config tree c) {r : ℕ}
    (hr : l.Known sol r) : w.Known r := by
  obtain ⟨done, -, hdone, rfl⟩ := (h.solanaKnown r).mp hr
  exact (h.evmKnown _).mpr ⟨_, flatten_prefix hdone, rfl⟩

theorem root_of_holds {t : Evm.Imt ℕ} {ops : List (TreeOp ℕ)}
    (ht : t.Holds evm.poseidon Evm.treeHeight k (contentOf k ops)) : t.root = rootOf evm k ops :=
  ht.tracks.root_eq

-- An EVM transfer adds its two leaves, its nullifiers and the two new roots.
theorem Paired.evm_step (h : Paired evm sol k hist w l config tree c) {nfs leaves : List ℕ}
    (heffect : Evm.World.Effect evm w w' nfs (appends leaves)) :
    w'.pool.imt.Holds evm.poseidon Evm.treeHeight k (contentOf k (hist ++ [appends leaves]).flatten) ∧
    ∀ r, w'.Known r ↔ ∃ ops, ops <+: (hist ++ [appends leaves]).flatten ∧ r = rootOf evm k ops := by
  have hroot : ∀ {ys : List ℕ} {t : Evm.Imt ℕ},
      Evm.World.runImt evm w.pool.imt (appends ys) = .ok t →
      t.root = rootOf evm k (hist.flatten ++ appends ys) := by
    intro ys t ht
    refine root_of_holds ?_
    rw [contentOf_append]
    exact h.evmTree.appends ht
  refine ⟨?_, fun r => ?_⟩
  · rw [flatten_snoc, contentOf_append]
    exact h.evmTree.appends heffect.tree
  · rw [flatten_snoc, Evm.World.Known, heffect.known, ← Evm.World.Known, h.evmKnown]
    have hsplit : ∀ ops', ops' <+: appends leaves → ∃ ys, ops' = appends ys ∧ ys <+: leaves := by
      intro ops' hpre
      obtain ⟨ys, hys, rfl⟩ := List.prefix_map_iff.mp hpre
      exact ⟨ys, rfl, hys⟩
    constructor
    · rintro (⟨ops, hpre, rfl⟩ | ⟨ops', t, -, hpre, ht, rfl⟩)
      · exact ⟨ops, hpre.trans (List.prefix_append _ _), rfl⟩
      · obtain ⟨ys, rfl, -⟩ := hsplit ops' hpre
        exact ⟨_, (List.prefix_append_right_inj _).mpr hpre, hroot ht⟩
    · rintro ⟨ops, hpre, rfl⟩
      rcases List.prefix_or_prefix_of_prefix hpre (List.prefix_append hist.flatten _) with hold | hnew
      · exact .inl ⟨ops, hold, rfl⟩
      · obtain ⟨tail, rfl⟩ := hnew
        rcases eq_or_ne tail [] with rfl | htail
        · exact .inl ⟨hist.flatten, List.prefix_refl _, by simp⟩
        · have hpre := (List.prefix_append_right_inj _).mp hpre
          obtain ⟨ys, rfl, rest, rfl⟩ := hsplit tail hpre
          have hrun := heffect.tree
          rw [appends, List.map_append, Evm.World.runImt, Evm.Imt.runFrom_append] at hrun
          obtain ⟨t, ht, -⟩ := bind_ok.mp hrun
          exact .inr ⟨_, t, htail, hpre, ht, hroot ht⟩

theorem Paired.solana_step (h : Paired evm sol k hist w l config tree c) (henv : Twins evm sol)
    {nfs leaves : List ℕ} {t' : Solana.TreeState ℕ}
    (ht' : t'.Holds evm.poseidon Evm.treeHeight
      ((appends leaves).foldl (TreeOp.content k) (contentOf k hist.flatten)))
    (hstep : Solana.Ledger.Transferred sol l l' config tree c t' nfs) :
    (∃ t, l'.Stores sol config tree c t ∧
      t.Holds evm.poseidon Evm.treeHeight (contentOf k (hist ++ [appends leaves]).flatten)) ∧
    (∀ r, l'.Known sol r ↔ ∃ done, done ≠ [] ∧ done <+: hist ++ [appends leaves] ∧
      r = rootOf evm k done.flatten) ∧
    ∀ nf, l'.Used sol nf ↔ l.Used sol nf ∨ nf ∈ nfs := by
  rw [← contentOf_append, ← flatten_snoc] at ht'
  refine ⟨⟨t', hstep.stores, ht'⟩, fun r => ?_, fun nf => ?_⟩
  · have hroot : t'.currentRoot = rootOf evm k (hist ++ [appends leaves]).flatten :=
      Frontier.Tracks.root_eq ht'
    have hother : sol.pda (.knownRoot r) ∉ nfs.map (Solana.Ledger.nullifierPda sol) := by
      intro hmem
      obtain ⟨nf, -, heq⟩ := List.mem_map.mp hmem
      cases henv.pda_injective heq
    rw [Solana.Ledger.Known, hstep.owns, ← Solana.Ledger.Known, h.solanaKnown, hroot]
    constructor
    · rintro (⟨done, hne, hpre, rfl⟩ | hmem | heq)
      · exact ⟨done, hne, hpre.trans (List.prefix_append _ _), rfl⟩
      · exact absurd hmem hother
      · exact ⟨_, by simp, List.prefix_refl _, Solana.Seed.knownRoot.inj (henv.pda_injective heq)⟩
    · rintro ⟨done, hne, hpre, rfl⟩
      rcases List.prefix_concat_iff.mp hpre with rfl | hpre
      · exact .inr (.inr rfl)
      · exact .inl ⟨done, hne, hpre, rfl⟩
  · rw [Solana.Ledger.Used, hstep.owns, ← Solana.Ledger.Used]
    refine or_congr_right ⟨?_, fun hmem => .inl (List.mem_map_of_mem hmem)⟩
    rintro (hmem | heq)
    · obtain ⟨x, hx, heq⟩ := List.mem_map.mp hmem
      obtain rfl := Solana.Seed.nullifier.inj (henv.pda_injective heq)
      exact hx
    · cases henv.pda_injective heq

theorem Paired.same (h : Paired evm sol k hist w l config tree c) :
    ∃ t, (l.accounts tree).data = .treeState config t ∧
      t.nextLeafIndex = w.pool.imt.nextLeafIndex ∧ t.currentRoot = w.pool.imt.root := by
  obtain ⟨t, hl, ht⟩ := h.solana
  refine ⟨t, by rw [hl.tree_eq], ?_, ?_⟩
  · exact (Frontier.Tracks.next_eq ht).trans h.evmTree.tracks.next_eq.symm
  · exact (Frontier.Tracks.root_eq ht).trans h.evmTree.tracks.root_eq.symm

theorem paired_fresh (henv : Twins evm sol)
    (himt : w.pool.imt = Evm.Imt.init evm.poseidon Evm.treeHeight (2 ^ k))
    (hknown : ∀ r, w.Known r ↔ r = w.pool.imt.root) (hused : ∀ nf, ¬w.Used nf)
    (hl : l.Stores sol config tree c (.init sol.poseidon2 Solana.treeHeight))
    (hnone : ∀ r, ¬l.Known sol r) (hunspent : ∀ nf, ¬l.Used sol nf) :
    Paired evm sol k [] w l config tree c where
  evmTree := by
    rw [himt]
    exact Evm.Imt.holds_init k
  evmKnown r := by
    have hroot : w.pool.imt.root = rootOf evm k [] := by
      rw [himt]
      exact root_of_holds (Evm.Imt.holds_init k)
    rw [hknown, hroot]
    constructor
    · exact fun h => ⟨[], List.prefix_refl _, h⟩
    · rintro ⟨ops, hpre, rfl⟩
      rw [List.prefix_nil.mp hpre]
  solana := by
    rw [henv.poseidon] at hl
    exact ⟨_, hl, Solana.TreeState.holds_init⟩
  solanaKnown r := by
    refine ⟨fun h => absurd h (hnone r), ?_⟩
    rintro ⟨done, hne, hpre, -⟩
    exact absurd (List.prefix_nil.mp hpre) hne
  spent nf _ := iff_of_false (hused nf) (hunspent nf)

-- Both rails accept the same consumer transfers, for claims against the root after an operation of
-- the pool and ciphertext lists that are not cut differently from the fixed wire.
end Paired

section Fresh

open Solana (Key lenient deployed consumerConfig)

-- The EVM twin of `Solana.lenient`, with the two-input module at address 9.
def lenientPool : Evm.Env ℕ Unit :=
  { Evm.permissive with
    transferPrivVerifier := fun _ pub => decide (∀ i, pub i < snarkScalarField)
    transfer10x2PrivVerifier := fun _ pub => decide (∀ i, pub i < snarkScalarField)
    code := fun a => if a = 9 then some .transferPriv else none }

def freshPool : Evm.World ℕ Unit :=
  let w := (Evm.World.proxyStorage () : Evm.World ℕ Unit)
  Evm.World.emit 1 (.moduleRegistered 9) (Evm.World.setModule { w with
    pool := { Evm.World.initTreeAndParams lenientPool 2 w.pool with
      owner := 7
      version := 1
      initialized := true } } 9 true)

example : (Evm.World.initializeConsumerOnly lenientPool (Evm.World.proxyStorage ()) 7 2 >>= fun w =>
    Evm.World.registerModule lenientPool w 7 9) = .ok freshPool := rfl

def freshConfig : Key := .config (.wallet 10)

theorem twins_lenient : Twins lenientPool lenient where
  poseidon := rfl
  toNat := rfl
  pda_injective := Key.derive_injective
  transferPriv := rfl
  transfer10x2Priv := rfl
  canonical _ _ h := of_decide_eq_true h
  canonical10x2 _ _ h := of_decide_eq_true h

theorem paired_lenient :
    Paired lenientPool lenient 1 [] freshPool deployed freshConfig (.tree freshConfig) consumerConfig :=
  paired_fresh twins_lenient rfl (Evm.known_init _) (by simp [Evm.World.Used, freshPool,
    Evm.World.emit, Evm.World.setModule, Evm.World.initTreeAndParams, Evm.World.proxyStorage])
    Solana.deployed_stores
    (fun r h => by rcases Solana.owns_deployed.mp h with h | h <;> cases h)
    fun nf h => by rcases Solana.owns_deployed.mp h with h | h <;> cases h

def transferPub (nullifier root : ℕ) : Fin 20 → ℕ := fun i =>
  if i = 12 then nullifier else if i = 14 then root else if i = 17 then 7 else if i = 18 then 8 else 0

def derivedTx (nullifier root : ℕ) : Solana.Tx Key where
  keys := freshConfig :: .tree freshConfig :: .knownRoot root ::
    .knownRoot (rootOf lenientPool 1 (appends [7, 8])) :: .wallet 12 :: .wallet 1 :: .eventAuthority ::
    .wallet 0 :: (stripZeros [nullifier, 0]).map .nullifier
  isSigner _ := true
  funds _ := true

theorem derived_lenient (nullifier root : ℕ) :
    (Transfer.transferPriv (transferPub nullifier root)).Derived lenient (derivedTx nullifier root)
      freshConfig (.tree freshConfig) (rootOf lenientPool 1 ([] ++ [appends [7, 8]]).flatten) :=
  ⟨⟨.wallet 12, rfl⟩, fun _ => rfl⟩

def zeroBytes (n : ℕ) : Bytes := List.replicate n 0

@[simp] theorem length_zeroBytes (n : ℕ) : (zeroBytes n).length = n := List.length_replicate

def wellFormed : List Bytes := [zeroBytes 1088, zeroBytes 1088]

-- The same bytes on the wire, cut elsewhere.
def recut : List Bytes := [zeroBytes 1087, zeroBytes 1089]

theorem zeroNode_lenient (n : ℕ) : 2 * zeroNode lenientPool.poseidon 0 n + 1 = 3 ^ n := by
  induction n with
  | zero => rfl
  | succ n ih =>
    rw [zeroNode, pow_succ, ← ih]
    simp only [lenientPool, Evm.permissive]
    ring

theorem rootOf_nil (evm : Evm.Env ℕ T) (k : ℕ) :
    rootOf evm k [] = zeroNode evm.poseidon 0 Evm.treeHeight := by
  rw [rootOf, contentOf, List.foldl_nil, Content.root_empty]

theorem emptyRoot_lenient : rootOf lenientPool 1 [] = 926510094425920 := by
  have hpow := zeroNode_lenient Evm.treeHeight
  rw [← rootOf_nil lenientPool 1] at hpow
  generalize rootOf lenientPool 1 [] = root at hpow ⊢
  norm_num [Evm.treeHeight] at hpow
  omega

theorem evm_lenient_iff {nullifier root : ℕ} {proof : Proof} {kems : List Bytes} :
    (∃ w', freshPool.step lenientPool ⟨3, (Transfer.transferPriv
      (transferPub nullifier root)).call 9 proof kems⟩ = .ok w') ↔
      WellFormedKems kems ∧
      (Transfer.transferPriv (transferPub nullifier root)).Verified lenientPool proof ∧
      Admissible freshPool.Known freshPool.Used Evm.treeHeight (contentOf 1 []) root
        (stripZeros [nullifier, 0]) [7, 8] := by
  rw [evm_transfer_iff rfl, Evm.World.applyOp_iff paired_lenient.evmTree rfl rfl (by simp [Transfer.outputs])]
  rfl

theorem solana_lenient_iff {nullifier root : ℕ} {proof : Proof} {kems : List Bytes} :
    (∃ l', Solana.processInstruction lenient (derivedTx nullifier root)
      ((Transfer.transferPriv (transferPub nullifier root)).instruction proof kems) deployed = .ok l') ↔
      kems.flatten.length = 2 * kemCiphertextLen ∧
      (Transfer.transferPriv (transferPub nullifier root)).Verified lenientPool proof ∧
      Admissible (deployed.Known lenient) (deployed.Used lenient) Evm.treeHeight (contentOf 1 []) root
        (stripZeros [nullifier, 0]) [7, 8] :=
  solana_transfer_iff (k := 1) twins_lenient Solana.deployed_stores Solana.TreeState.holds_init
    (by simp [Transfer.flag, consumerConfig, Solana.familyTransferPriv]) (derived_lenient nullifier root)

theorem verified_lenient (proof : Proof) {nullifier root : ℕ} (hnf : nullifier < snarkScalarField)
    (hroot : root < snarkScalarField) :
    (Transfer.transferPriv (transferPub nullifier root)).Verified lenientPool proof := by
  refine decide_eq_true fun i => ?_
  unfold inject
  split
  · case isTrue h =>
    have hbit : ∀ v ∈ enabled [transferPub nullifier root 12, transferPub nullifier root 13],
        v < snarkScalarField := by
      intro v hv
      obtain ⟨nf, -, rfl⟩ := List.mem_map.mp hv
      split <;> simp [snarkScalarField]
    exact hbit _ (List.get_mem _ _)
  · simp only [transferPub]
    split_ifs <;> simp_all [snarkScalarField]

theorem admissible_noSpend {known used : ℕ → Prop} :
    Admissible known used Evm.treeHeight (contentOf 1 []) 0 (stripZeros [0, 0]) [7, 8] where
  claim := ⟨fun h => absurd (by decide) h, fun _ => rfl⟩
  nodup := by decide
  fresh nf hnf := by simp [stripZeros] at hnf
  leaf_ne := by decide
  room := by simp [contentOf, Content.empty, Evm.treeHeight]

theorem admissible_emptyRoot : Admissible freshPool.Known freshPool.Used Evm.treeHeight
    (contentOf 1 []) (rootOf lenientPool 1 []) (stripZeros [5, 0]) [7, 8] where
  claim := ⟨fun _ => (paired_lenient.evmKnown _).mpr ⟨[], List.prefix_refl _, rfl⟩,
    fun h => absurd h (by decide)⟩
  nodup := by decide
  fresh nf hnf := by
    obtain rfl : nf = 5 := by simpa [stripZeros] using hnf
    exact ⟨by decide, fun h => by cases h⟩
  leaf_ne := by decide
  room := by simp [contentOf, Content.empty, Evm.treeHeight]

def zeroProof : Proof := ⟨(0, 0), ((0, 0), (0, 0)), (0, 0)⟩

-- Two fresh pools: the EVM pool knows the root of the empty tree and the Solana pool does not; and
-- the Solana wire does not see where one ciphertext ends.
end Fresh

end Bongtu
