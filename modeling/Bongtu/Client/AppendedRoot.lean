import Bongtu.Core.ImtCalls
import Bongtu.Indexer.SolanaWire
import Bongtu.Solana.TreeAccount

namespace Bongtu.Client

open ByteOrder Core Outcome
open Indexer (number)
open Solana (TreeState Word treeHeight)
open Solana.TreeAccount
  (treeStateLen treeOffNext treeOffRoot treeOffFrontier tagTreeState insertLevel Bn254X5 Canonical OnChain Sound)

def batchBConsumer : ℕ := 16

structure SolanaTreeHead where
  nextLeafIndex : ℕ
  root : ℕ
  frontier : List ℕ

def be (data : Bytes) (off : ℕ) : ℕ := fromBE (readAt off 32 data)

def headOf (data : Bytes) : SolanaTreeHead where
  nextLeafIndex := number (fromLE (readAt treeOffNext 8 data))
  root := be data treeOffRoot
  frontier := (List.range treeHeight).map fun i => be data (treeOffFrontier + 32 * i)

def parseTreeState (data : Bytes) : Except String SolanaTreeHead :=
  let tag := match data[0]? with
    | some b => toString b
    | none => "undefined"
  if data.length ≠ treeStateLen ∨ data[0]? ≠ some tagTreeState then
    .error s!"not a TreeState account (len {data.length}, tag {tag})"
  else .ok (headOf data)

def hydrate (head : SolanaTreeHead) (tree : ImtTree ℕ) : ImtTree ℕ :=
  { tree with
    nextLeafIndex := head.nextLeafIndex
    filledSubtrees := head.frontier.zipIdx.foldl (fun filled e => Function.update filled e.2 e.1) tree.filledSubtrees
    root := head.root }

-- The root and the start index.
def appendedRoot (poseidon2 : ℕ → ℕ → ℕ) (head : SolanaTreeHead) (leaves : List ℕ) : Except ImtError (ℕ × ℕ) := do
  let tree ← ImtTree.construct poseidon2 treeHeight batchBConsumer
  match Run.forEach (ImtTree.appendLeaf poseidon2) leaves (hydrate head tree) with
  | .returned t => .ok (t.root, head.nextLeafIndex)
  | .threw e _ => .error e

-- "root"
def seedKnownRoot : Bytes := [114, 111, 111, 116]

section Pda

variable {K : Type} (findProgramAddress : List Bytes → K)

def knownRootPda (root : ℕ) : Except String K := do
  let bytes ← fieldBytes root
  return findProgramAddress [seedKnownRoot, bytes]

-- The address `register_new_root` compares its account with.
def expectedNewRoot (newRoot : Word) : K := findProgramAddress [seedKnownRoot, newRoot.bytes]

end Pda

-- The client's tree and the program's frontier hold the same numbers.
structure Hydrated (t : TreeState Word) (s : ImtTree ℕ) : Prop where
  height : s.H = treeHeight
  zeros_eq : ∀ i < treeHeight, s.zeros i = (Solana.TreeAccount.zeros i).value
  next_eq : s.nextLeafIndex = t.nextLeafIndex
  root_eq : s.root = t.currentRoot.value
  filled_eq : ∀ i < treeHeight, s.filledSubtrees i = (t.filledSubtrees i).value

structure Matches (s : ℕ × Word × (ℕ → Word)) (f : ImtTree.Fold ℕ) : Prop where
  index_eq : f.index = s.1
  node_eq : f.node = s.2.1.value
  filled_eq : ∀ i < treeHeight, f.filledSubtrees i = (s.2.2 i).value

section Fold

variable {hashv : Word → Word → Option Word} {poseidon2 : ℕ → ℕ → ℕ} (hhash : Bn254X5 hashv poseidon2)
  {ladder : ℕ → ℕ} (hladder : ∀ i < treeHeight, ladder i = (Solana.TreeAccount.zeros i).value)
include hhash hladder

theorem Matches.level {s s' : ℕ × Word × (ℕ → Word)} {f : ImtTree.Fold ℕ} (hm : Matches s f) {i : ℕ}
    (hi : i < treeHeight) (h : insertLevel hashv s i = .ok s') :
    Matches s' (ImtTree.foldLevel poseidon2 ladder 0 f i) := by
  obtain ⟨index, current, filled⟩ := s
  obtain ⟨hindex, hnode, hfilled⟩ := hm
  dsimp only at hindex hnode hfilled
  rw [insertLevel] at h
  split at h
  · case isTrue heven =>
    obtain ⟨hashed, hhashed, hs'⟩ := bind_ok.mp h
    cases hs'
    have hvalue := (Solana.TreeAccount.poseidon2_ok hhash hhashed).2
    have hparity : (f.index % 2 == 0) = true := by rw [hindex, heven]; rfl
    refine ⟨by rw [ImtTree.foldLevel, hindex], ?_, fun j hj => ?_⟩
    · simp only [ImtTree.foldLevel, hparity, if_true, Nat.zero_add, hnode, hladder i hi, hvalue]
    · simp only [ImtTree.foldLevel, hparity, if_true, Nat.zero_add]
      rcases eq_or_ne j i with rfl | hne
      · rw [Function.update_self, Function.update_self, hnode]
      · rw [Function.update_of_ne hne, Function.update_of_ne hne, hfilled j hj]
  · case isFalse hodd =>
    obtain ⟨hashed, hhashed, hs'⟩ := bind_ok.mp h
    cases hs'
    have hvalue := (Solana.TreeAccount.poseidon2_ok hhash hhashed).2
    have hparity : (f.index % 2 == 0) = false := by
      rw [hindex]
      exact beq_false_of_ne hodd
    refine ⟨by rw [ImtTree.foldLevel, hindex], ?_, fun j hj => ?_⟩
    · simp only [ImtTree.foldLevel, hparity, Bool.false_eq_true, if_false, Nat.zero_add, hnode, hfilled i hi,
        hvalue]
    · simp only [ImtTree.foldLevel, hparity, Bool.false_eq_true, if_false]
      exact hfilled j hj

theorem Matches.levels (levels : List ℕ) (hlevels : ∀ i ∈ levels, i < treeHeight) :
    ∀ {s s' : ℕ × Word × (ℕ → Word)} {f : ImtTree.Fold ℕ}, Matches s f →
      levels.foldlM (insertLevel hashv) s = .ok s' →
        Matches s' (levels.foldl (ImtTree.foldLevel poseidon2 ladder 0) f) := by
  induction levels with
  | nil =>
    intro s s' f hm h
    cases h
    exact hm
  | cons i levels ih =>
    intro s s' f hm h
    obtain ⟨next, hnext, hrest⟩ := bind_ok.mp h
    exact ih (fun j hj => hlevels j (List.mem_cons_of_mem i hj))
      (hm.level hhash hladder (hlevels i List.mem_cons_self) hnext) hrest

end Fold

theorem appendLeaf_eq (poseidon2 : ℕ → ℕ → ℕ) (v : ℕ) {s : ImtTree ℕ} (hroom : s.nextLeafIndex + 1 ≤ 2 ^ s.H) :
    let folded := (List.range s.H).foldl (ImtTree.foldLevel poseidon2 s.zeros 0)
      ⟨v, s.nextLeafIndex, s.filledSubtrees⟩
    ImtTree.appendLeaf poseidon2 v s = .returned { ImtTree.recordLeaf v s with
      filledSubtrees := folded.filledSubtrees
      root := folded.node
      nextLeafIndex := s.nextLeafIndex + 1 } := by
  simp [ImtTree.appendLeaf, ImtTree.insertNode, ImtTree.recordLeaf, Nat.mod_one, not_lt.mpr hroom]

section Append

variable {hashv : Word → Word → Option Word} {poseidon2 : ℕ → ℕ → ℕ} (hhash : Bn254X5 hashv poseidon2)
include hhash

theorem Hydrated.appendLeaf {t : TreeState Word} {s : ImtTree ℕ} (hs : Hydrated t s) {leaf : Word}
    {a : ℕ × TreeState Word} (h : Solana.TreeAccount.appendLeaf hashv t leaf = .ok a) :
    a.1 = t.nextLeafIndex ∧ ∃ s', ImtTree.appendLeaf poseidon2 leaf.value s = .returned s' ∧ Hydrated a.2 s' := by
  obtain ⟨-, hroom, folded, hfolded, rfl⟩ := Solana.TreeAccount.insertNode_ok h
  have hmatches := Matches.levels hhash hs.zeros_eq (List.range' 0 (treeHeight - 0))
    (fun i hi => by simpa using hi) (f := ⟨leaf.value, s.nextLeafIndex, s.filledSubtrees⟩)
    ⟨by rw [hs.next_eq, pow_zero, Nat.div_one], rfl, hs.filled_eq⟩ hfolded
  rw [← List.range_eq_range', Nat.sub_zero, ← hs.height] at hmatches
  have hfits : s.nextLeafIndex + 1 ≤ 2 ^ s.H := by
    rw [hs.next_eq, hs.height]
    exact hroom
  exact ⟨rfl, _, appendLeaf_eq poseidon2 leaf.value hfits, hs.height, hs.zeros_eq,
    congrArg (· + 1) hs.next_eq, hmatches.node_eq, hmatches.filled_eq⟩

theorem Hydrated.appendLeaves (leaves : List Word) : ∀ {t t' : TreeState Word} {s : ImtTree ℕ}, Hydrated t s →
    leaves.foldlM (Solana.TreeAccount.appendNext hashv) t = .ok t' →
      ∃ s', Run.forEach (ImtTree.appendLeaf poseidon2) (leaves.map Word.value) s = .returned s' ∧
        Hydrated t' s' := by
  induction leaves with
  | nil =>
    intro t t' s hs h
    cases h
    exact ⟨s, rfl, hs⟩
  | cons leaf leaves ih =>
    intro t t' s hs h
    obtain ⟨next, hnext, hrest⟩ := bind_ok.mp h
    obtain ⟨appended, happended, hreturn⟩ := bind_ok.mp hnext
    cases hreturn
    obtain ⟨-, s₁, hs₁, hhydrated⟩ := hs.appendLeaf hhash happended
    obtain ⟨s', hs', hlast⟩ := ih hhydrated hrest
    refine ⟨s', ?_, hlast⟩
    rw [List.map_cons, Run.forEach, hs₁]
    exact hs'

theorem zerosLadder_eq : ∀ i ≤ treeHeight,
    ImtTree.zerosLadder poseidon2 treeHeight i = (Solana.TreeAccount.zeros i).value := by
  intro i hi
  rw [ImtTree.zerosLadder, Merkle.ladder_eq treeHeight i hi]
  induction i with
  | zero => exact Word.value_zero.symm
  | succ i ih => rw [Merkle.zeroNode, ih (by omega), hhash.ladder i hi]

end Append

theorem foldl_update (values : ℕ → ℕ) (n : ℕ) (filled : ℕ → ℕ) {i : ℕ} (hi : i < n) :
    ((List.range n).map values).zipIdx.foldl (fun filled e => Function.update filled e.2 e.1) filled i = values i := by
  induction n with
  | zero => exact absurd hi (Nat.not_lt_zero i)
  | succ n ih =>
    rw [List.range_succ, List.map_append, List.zipIdx_append, List.foldl_append]
    simp only [List.map_cons, List.map_nil, List.length_map, List.length_range, List.zipIdx_singleton,
      List.foldl_cons, List.foldl_nil, Nat.zero_add]
    rcases eq_or_ne i n with rfl | hne
    · exact Function.update_self _ _ _
    · rw [Function.update_of_ne hne, ih (by omega)]

theorem parseTreeState_sound {data : Bytes} (h : Sound data) : parseTreeState data = .ok (headOf data) := by
  rw [parseTreeState, if_neg (by simp [h.length_eq, h.tag])]

theorem value_asArr32 {data : Bytes} {off : ℕ} (h : off + 32 ≤ data.length) :
    (Solana.asArr32 (readAt off 32 data)).value = be data off := by
  rw [Word.value, Solana.asArr32_bytes (length_readAt h), be]

theorem knownRootPda_value {K : Type} (findProgramAddress : List Bytes → K) (root : Word) :
    knownRootPda findProgramAddress root.value = .ok (expectedNewRoot findProgramAddress root) := by
  have hbytes : toBE 32 root.value = root.bytes := by
    have hback := toBE_fromBE root.bytes
    rwa [root.size] at hback
  have hfield : fieldBytes (root.value : ℤ) = .ok root.bytes := by
    have hlt : (root.value : ℤ) < 2 ^ 256 := by exact_mod_cast root.value_lt
    have hzero : (root.value : ℤ) / 2 ^ 256 = 0 := Int.ediv_eq_zero_of_lt (Int.natCast_nonneg _) hlt
    rw [fieldBytes, if_neg (by rw [hzero]; simp), Int.toNat_natCast, hbytes]
  rw [knownRootPda, hfield]
  rfl

section Predict

variable {hashv : Word → Word → Option Word} {poseidon2 : ℕ → ℕ → ℕ} (hhash : Bn254X5 hashv poseidon2)
include hhash

theorem hydrated_hydrate {data : Bytes} (h : Sound data) : Hydrated (Solana.TreeAccount.frontierOf data)
    (hydrate (headOf data) (ImtTree.init poseidon2 treeHeight batchBConsumer)) := by
  refine ⟨rfl, fun i hi => zerosLadder_eq hhash i hi.le, ?_, ?_, fun i hi => ?_⟩
  · exact if_pos (lt_of_le_of_lt h.fit.room (by decide))
  · exact (value_asArr32 (by rw [h.length_eq]; decide)).symm
  · have hroom : treeOffFrontier + 32 * i + 32 ≤ data.length := by
      rw [h.length_eq]
      simp only [treeOffFrontier, treeStateLen, treeHeight] at hi ⊢
      omega
    have hslot := foldl_update (fun i => be data (treeOffFrontier + 32 * i)) treeHeight
      (ImtTree.init poseidon2 treeHeight batchBConsumer).filledSubtrees hi
    exact hslot.trans (value_asArr32 hroom).symm

-- The root the client computes is the one the program stores.
theorem appendedRoot_eq {data data' : Bytes} {leaf root : Word} {leaves : List Word} {start : ℕ} (h : Sound data)
    (hstored : Solana.TreeAccount.appendLeaves hashv data leaf leaves = .ok (start, root, data')) :
    appendedRoot poseidon2 (headOf data) ((leaf :: leaves).map Word.value) = .ok (root.value, start) := by
  have hhydrated := hydrated_hydrate hhash h
  obtain ⟨t, ht, first, hfirst, last, hlast, hroot, -⟩ := Solana.TreeAccount.appendLeaves_ok hstored
  cases h.load.symm.trans ht
  obtain ⟨hstart, s₁, hs₁, hnext⟩ := hhydrated.appendLeaf hhash hfirst
  obtain ⟨s', hs', hfinal⟩ := hnext.appendLeaves hhash leaves hlast
  have hconstruct : ImtTree.construct poseidon2 treeHeight batchBConsumer =
      .ok (ImtTree.init poseidon2 treeHeight batchBConsumer) :=
    ImtTree.construct_eq poseidon2 (k := 4) (by decide) (by decide)
  have happended : Run.forEach (ImtTree.appendLeaf poseidon2) ((leaf :: leaves).map Word.value)
      (hydrate (headOf data) (ImtTree.init poseidon2 treeHeight batchBConsumer)) = .returned s' := by
    rw [List.map_cons, Run.forEach, hs₁]
    exact hs'
  rw [appendedRoot, hconstruct]
  have hhead : (headOf data).nextLeafIndex = start := hhydrated.next_eq.trans hstart.symm
  simp only [bind, Except.bind, happended, hfinal.root_eq, hroot, hhead]

-- What the client predicts before it sends is what the program stores and what it derives the marker's
-- address from; leaves that fit are always appended.
theorem client_predicts_root {K : Type} (findProgramAddress : List Bytes → K) {data : Bytes}
    (hdata : OnChain hashv data) (leaf : Word) (leaves : List Word) :
    ((∀ l ∈ leaf :: leaves, Canonical l) →
      (Solana.TreeAccount.frontierOf data).nextLeafIndex + (leaf :: leaves).length ≤ 2 ^ treeHeight →
        ∃ a, Solana.TreeAccount.appendLeaves hashv data leaf leaves = .ok a) ∧
    ∀ start root data', Solana.TreeAccount.appendLeaves hashv data leaf leaves = .ok (start, root, data') →
      readAt treeOffRoot 32 data' = root.bytes ∧
      ∃ head, parseTreeState data = .ok head ∧
        appendedRoot poseidon2 head ((leaf :: leaves).map Word.value) = .ok (root.value, start) ∧
        knownRootPda findProgramAddress root.value = .ok (expectedNewRoot findProgramAddress root) := by
  have hsound := hdata.sound hhash
  refine ⟨fun hleaves => Solana.TreeAccount.appendLeaves_returns hhash hsound hleaves, fun start root data' h => ?_⟩
  exact ⟨Solana.TreeAccount.appendLeaves_root hsound.length_eq h, headOf data, parseTreeState_sound hsound,
    appendedRoot_eq hhash hsound h, knownRootPda_value findProgramAddress root⟩

end Predict

-- The hash where it is tabulated: the empty subtrees, all that two zero leaves of an empty tree meet.
def sampleHash (l r : ℕ) : ℕ :=
  if l = r then Solana.TreeAccount.ZEROS.getD (Solana.TreeAccount.ZEROS.idxOf l + 1) 0 else 0

def sampleHashv (l r : Word) : Option Word :=
  if l.value < snarkScalarField ∧ r.value < snarkScalarField then some (.ofNat (sampleHash l.value r.value)) else none

theorem sampleHash_lt (l r : ℕ) : sampleHash l r < snarkScalarField := by
  rw [sampleHash]
  split
  · exact Solana.TreeAccount.ZEROS_lt _
  · decide

theorem sample_bn254X5 : Bn254X5 sampleHashv sampleHash where
  refuses h := if_neg h
  agrees {l r} hl hr := by
    have hvalue : (Word.ofNat (sampleHash l.value r.value)).value = sampleHash l.value r.value :=
      Word.value_ofNat ((sampleHash_lt _ _).trans (by decide))
    refine ⟨.ofNat (sampleHash l.value r.value), if_pos ⟨hl, hr⟩, ?_, hvalue⟩
    rw [Canonical, hvalue]
    exact sampleHash_lt _ _
  ladder i hi := by
    have htable : ∀ i < treeHeight, sampleHash (Solana.TreeAccount.ZEROS.getD i 0) (Solana.TreeAccount.ZEROS.getD i 0) =
        Solana.TreeAccount.ZEROS.getD (i + 1) 0 := by decide
    rw [Solana.TreeAccount.value_zeros, Solana.TreeAccount.value_zeros, htable i hi]

theorem client_predicts_root_sample : ∃ start root data',
    Solana.TreeAccount.appendLeaves sampleHashv (Solana.TreeAccount.image 1) 0 [0] = .ok (start, root, data') ∧
      readAt treeOffRoot 32 data' = root.bytes ∧
      ∃ head, parseTreeState (Solana.TreeAccount.image 1) = .ok head ∧
        appendedRoot sampleHash head ([0, 0].map Word.value) = .ok (root.value, start) ∧
        knownRootPda List.flatten root.value = .ok (expectedNewRoot List.flatten root) := by
  have hpredict := client_predicts_root sample_bn254X5 List.flatten (.initialized 1) 0 [0]
  have hzero : Canonical 0 := by
    rw [Canonical, Word.value_zero]
    decide
  obtain ⟨⟨start, root, data'⟩, happended⟩ := hpredict.1 (by simpa using hzero)
    (by rw [Solana.TreeAccount.next_image]; decide)
  exact ⟨start, root, data', happended, hpredict.2 start root data' happended⟩

end Bongtu.Client
