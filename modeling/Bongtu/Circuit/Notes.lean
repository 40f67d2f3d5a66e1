import Bongtu.Circuit.Membership

namespace Bongtu.Circuit

open Core Merkle

structure Opening (W Key : Type) where
  value : W
  salt : W
  owner : Key

-- What the circuits hash: the point of a key, the commitment of a note and the nullifier of a note under a key.
structure NoteHash (W Key : Type) where
  publicKey : W → Key
  commitment : Opening W Key → W
  nullifier : W → W → W → W

-- The library templates over notes and values, each as the relation its constraints set up.
structure NoteGadgets (W Key : Type) extends Gadgets W where
  babyPbk : W → Key → Prop
  checkPositive : ℕ → (ℕ → W) → Prop
  checkHashes : ℕ → (ℕ → W) → (ℕ → Opening W Key) → Prop
  checkNullifiers : ℕ → (ℕ → W) → (ℕ → W) → (ℕ → W) → W → Prop
  checkSum : ℕ → ℕ → (ℕ → W) → (ℕ → W) → Prop
  isZero : W → W → Prop
  greaterEqThan : ℕ → W → W → W → Prop

-- The signals of a spending template besides its public ones.
structure SpendSignals (W Key : Type) where
  inputCommitments : ℕ → W
  inputValues : ℕ → W
  inputSalts : ℕ → W
  inputOwnerPrivateKey : W
  pathElements : ℕ → ℕ → W
  leafIndices : ℕ → W
  outputValues : ℕ → W
  outputSalts : ℕ → W
  outputOwnerPublicKeys : ℕ → Key

structure MintSignals (W Key : Type) where
  outputValues : ℕ → W
  outputSalts : ℕ → W
  outputOwnerPublicKeys : ℕ → Key

variable {W Key : Type} [CommRing W]

def SpendSignals.input (x : SpendSignals W Key) (owner : Key) (i : ℕ) : Opening W Key :=
  ⟨x.inputValues i, x.inputSalts i, owner⟩

def SpendSignals.output (x : SpendSignals W Key) (j : ℕ) : Opening W Key :=
  ⟨x.outputValues j, x.outputSalts j, x.outputOwnerPublicKeys j⟩

def MintSignals.output (x : MintSignals W Key) (j : ℕ) : Opening W Key :=
  ⟨x.outputValues j, x.outputSalts j, x.outputOwnerPublicKeys j⟩

section Templates

variable (g : NoteGadgets W Key)

-- A disabled input carries no value.
def ValueBelt (nInputs : ℕ) (enabled inputValues : ℕ → W) : Prop :=
  ∀ i < nInputs, enabled i * (enabled i - 1) = 0 ∧ (1 - enabled i) * inputValues i = 0

-- A zero commitment is never enabled.
def ZeroBelt (nInputs : ℕ) (enabled inputCommitments : ℕ → W) : Prop :=
  ∀ i < nInputs, ∃ isZeroInputCommitment, g.isZero (inputCommitments i) isZeroInputCommitment ∧
    enabled i * isZeroInputCommitment = 0

-- What the spending templates check alike of their notes.
structure SpendBase (nInputs nOutputs nLevels : ℕ) (nullifiers enabled : ℕ → W) (root : W)
    (outputCommitments : ℕ → W) (x : SpendSignals W Key) : Prop where
  inputs : ∃ inputOwnerPubKey, g.babyPbk x.inputOwnerPrivateKey inputOwnerPubKey ∧
    g.checkHashes nInputs x.inputCommitments (x.input inputOwnerPubKey)
  positive : g.checkPositive nOutputs x.outputValues
  outputs : g.checkHashes nOutputs outputCommitments x.output
  nullifiers : g.checkNullifiers nInputs nullifiers x.inputValues x.inputSalts x.inputOwnerPrivateKey
  membership : CheckIMTProof g.toGadgets nInputs nLevels x.inputCommitments x.leafIndices x.pathElements root enabled
  zeroBelt : ZeroBelt g nInputs enabled x.inputCommitments

def ZetoTransferSmall (nInputs nOutputs nLevels : ℕ) (nullifiers enabled : ℕ → W) (root : W)
    (outputCommitments : ℕ → W) (x : SpendSignals W Key) : Prop :=
  SpendBase g nInputs nOutputs nLevels nullifiers enabled root outputCommitments x ∧
    g.checkSum nInputs nOutputs x.inputValues x.outputValues ∧ ValueBelt nInputs enabled x.inputValues

def BongtuConsumerTransfer (nInputs nOutputs nLevels : ℕ) (nullifiers enabled : ℕ → W) (root : W)
    (outputCommitments : ℕ → W) (x : SpendSignals W Key) : Prop :=
  ZetoTransferSmall g nInputs nOutputs nLevels nullifiers enabled root outputCommitments x

def CheckNullifiersInputsOutputsValueIMT (nInputs nOutputs nLevels : ℕ) (nullifiers enabled : ℕ → W) (root : W)
    (outputCommitments : ℕ → W) (out : W) (x : SpendSignals W Key) : Prop :=
  SpendBase g nInputs nOutputs nLevels nullifiers enabled root outputCommitments x ∧
    ValueBelt nInputs enabled x.inputValues ∧
    g.greaterEqThan 101 (∑ i ∈ Finset.range nInputs, x.inputValues i) (∑ j ∈ Finset.range nOutputs, x.outputValues j) 1 ∧
    out = ∑ i ∈ Finset.range nInputs, x.inputValues i - ∑ j ∈ Finset.range nOutputs, x.outputValues j

def BongtuConsumerWithdrawBase (nInputs nOutputs nLevels : ℕ) (nullifiers enabled : ℕ → W) (root : W)
    (outputCommitments : ℕ → W) (out : W) (x : SpendSignals W Key) : Prop :=
  CheckNullifiersInputsOutputsValueIMT g nInputs nOutputs nLevels nullifiers enabled root outputCommitments out x

-- `subNodes[i]` over `subNodes[2 i + 1]` and `subNodes[2 i + 2]`, the leaves last.
def Subtree (nOutputs : ℕ) (outputCommitments : ℕ → W) (subtreeRoot : W) : Prop :=
  ∃ subNodes : ℕ → W, (∀ i < nOutputs, subNodes (nOutputs - 1 + i) = outputCommitments i) ∧
    (∀ i < nOutputs - 1, g.poseidon2 (subNodes (2 * i + 1)) (subNodes (2 * i + 2)) (subNodes i)) ∧
    subtreeRoot = subNodes 0

def Zeto (nInputs nOutputs nLevels : ℕ) (nullifiers enabled : ℕ → W) (root subtreeRoot : W)
    (outputCommitments : ℕ → W) (x : SpendSignals W Key) : Prop :=
  SpendBase g nInputs nOutputs nLevels nullifiers enabled root outputCommitments x ∧
    g.checkSum nInputs nOutputs x.inputValues x.outputValues ∧ Subtree g nOutputs outputCommitments subtreeRoot

def BongtuConsumerDisburse (nInputs nOutputs nLevels : ℕ) (nullifiers enabled : ℕ → W) (root subtreeRoot : W)
    (outputCommitments : ℕ → W) (x : SpendSignals W Key) : Prop :=
  Zeto g nInputs nOutputs nLevels nullifiers enabled root subtreeRoot outputCommitments x

def BongtuDepositAuthority (nOutputs : ℕ) (outputCommitments : ℕ → W) (out : W) (x : MintSignals W Key) : Prop :=
  g.checkPositive nOutputs x.outputValues ∧ g.checkHashes nOutputs outputCommitments x.output ∧
    out = ∑ j ∈ Finset.range nOutputs, x.outputValues j

def BongtuConsumerDeposit (nOutputs : ℕ) (outputCommitments : ℕ → W) (out : W) (x : MintSignals W Key) : Prop :=
  BongtuDepositAuthority g nOutputs outputCommitments out x

end Templates

def noteBits : ℕ := 100

-- A value that `CheckPositive` lets through.
def Ranged (v : W) : Prop := ∃ n : ℕ, n < 2 ^ noteBits ∧ v = (n : W)

-- The templates accept no other values than the ones they are documented to; a zero commitment and a zero nullifier
-- stand for any note.
structure NoteGadgets.Sound (g : NoteGadgets W Key) (poseidon2 : W → W → W) (h : NoteHash W Key) : Prop
    extends g.toGadgets.Sound poseidon2 where
  babyPbk : ∀ {key owner}, g.babyPbk key owner → owner = h.publicKey key
  checkPositive : ∀ {n values}, g.checkPositive n values → ∀ i < n, Ranged (values i)
  checkHashes : ∀ {n commitments notes}, g.checkHashes n commitments notes →
    ∀ i < n, commitments i = 0 ∨ commitments i = h.commitment (notes i)
  checkNullifiers : ∀ {n nullifiers values salts key}, g.checkNullifiers n nullifiers values salts key →
    ∀ i < n, nullifiers i = 0 ∨ nullifiers i = h.nullifier (values i) (salts i) key
  checkSum : ∀ {n m inputs outputs}, g.checkSum n m inputs outputs →
    ∑ i ∈ Finset.range n, inputs i = ∑ j ∈ Finset.range m, outputs j
  isZero : ∀ {out}, g.isZero 0 out → out = 1
  greaterEqThan : ∀ {n a b : ℕ}, a < 2 ^ n → b < 2 ^ n → g.greaterEqThan n (a : W) (b : W) 1 → b ≤ a

-- An input as a proof spends it: its leaf's place, the path up from it, and what the leaf opens to under a scalar.
structure Input (W : Type) where
  leafIndex : ℕ
  pathElements : List W
  value : W
  salt : W
  ownerPrivateKey : W

def Input.note (h : NoteHash W Key) (y : Input W) : Opening W Key := ⟨y.value, y.salt, h.publicKey y.ownerPrivateKey⟩

-- The leaf is under the root, it is the commitment of the note, and the nullifier is the note's.
structure Input.Opens (poseidon2 : W → W → W) (h : NoteHash W Key) (nLevels : ℕ) (root nullifier : W)
    (y : Input W) : Prop where
  index_lt : y.leafIndex < 2 ^ nLevels
  length : y.pathElements.length = nLevels
  path : foldToRoot poseidon2 (h.commitment (y.note h)) y.pathElements y.leafIndex = root
  ne_zero : h.commitment (y.note h) ≠ 0
  nullifier : nullifier = h.nullifier y.value y.salt y.ownerPrivateKey

section Meaning

variable {g : NoteGadgets W Key} {poseidon2 : W → W → W} {h : NoteHash W Key} {nInputs nOutputs nLevels : ℕ}
  {nullifiers enabled outputCommitments : ℕ → W} {root out : W} {x : SpendSignals W Key}

def SpendSignals.spent (x : SpendSignals W Key) (nLevels i leafIndex : ℕ) : Input W :=
  ⟨leafIndex, (List.range nLevels).map (x.pathElements i), x.inputValues i, x.inputSalts i, x.inputOwnerPrivateKey⟩

theorem SpendBase.opens [Nontrivial W] (hg : g.Sound poseidon2 h)
    (hx : SpendBase g nInputs nOutputs nLevels nullifiers enabled root outputCommitments x) {i : ℕ} (hi : i < nInputs)
    (henabled : enabled i = 1) (hnf : nullifiers i ≠ 0) :
    ∃ leafIndex, (x.spent nLevels i leafIndex).Opens poseidon2 h nLevels root (nullifiers i) := by
  obtain ⟨owner, howner, hhashes⟩ := hx.inputs
  obtain rfl := hg.babyPbk howner
  obtain ⟨isZero, hzero, hbelt⟩ := hx.zeroBelt i hi
  have hne : x.inputCommitments i ≠ 0 := by
    intro hcommitment
    rw [hcommitment] at hzero
    rw [henabled, hg.isZero hzero, one_mul] at hbelt
    exact one_ne_zero hbelt
  obtain ⟨leafIndex, hlt, -, hpath⟩ := checkIMTProof_path hg.toSound hx.membership hi henabled
  have hcommitment := (hg.checkHashes hhashes i hi).resolve_left hne
  refine ⟨leafIndex, hlt, ?_, ?_, ?_, (hg.checkNullifiers hx.nullifiers i hi).resolve_left hnf⟩
  · rw [SpendSignals.spent, List.length_map, List.length_range]
  · rw [← hpath, hcommitment]
    rfl
  · rw [hcommitment] at hne
    exact hne

theorem ValueBelt.idle (hbelt : ValueBelt nInputs enabled x.inputValues) {i : ℕ} (hi : i < nInputs)
    (hdisabled : enabled i = 0) : x.inputValues i = 0 := by
  have hvalue := (hbelt i hi).2
  rwa [hdisabled, sub_zero, one_mul] at hvalue

end Meaning

section Amounts

-- A word of the public vector read as a number; the field is far wider than any sum of notes.
def ReadsNumbers (toNat : W → ℕ) : Prop := ∀ n : ℕ, n < 2 ^ 200 → toNat (n : W) = n

variable {toNat : W → ℕ}

theorem ReadsNumbers.cast_inj (hread : ReadsNumbers toNat) {a b : ℕ} (ha : a < 2 ^ 200) (hb : b < 2 ^ 200)
    (hab : (a : W) = (b : W)) : a = b := by
  rw [← hread a ha, hab, hread b hb]

theorem Ranged.cast_toNat (hread : ReadsNumbers toNat) {v : W} (hv : Ranged v) :
    ((toNat v : ℕ) : W) = v ∧ toNat v < 2 ^ noteBits := by
  obtain ⟨n, hn, rfl⟩ := hv
  have hwide : n < 2 ^ 200 := hn.trans (Nat.pow_lt_pow_right (by decide) (by decide))
  rw [hread n hwide]
  exact ⟨rfl, hn⟩

-- The sum of few values is the sum of their numbers.
theorem sum_cast (hread : ReadsNumbers toNat) {n : ℕ} {values : ℕ → W} (hvalues : ∀ i < n, Ranged (values i)) :
    ∑ i ∈ Finset.range n, values i = ((∑ i ∈ Finset.range n, toNat (values i) : ℕ) : W) ∧
      ∑ i ∈ Finset.range n, toNat (values i) ≤ n * 2 ^ noteBits := by
  constructor
  · rw [Nat.cast_sum]
    refine Finset.sum_congr rfl fun i hi => ?_
    exact ((hvalues i (Finset.mem_range.mp hi)).cast_toNat hread).1.symm
  · have hsum := Finset.sum_le_card_nsmul (Finset.range n) (fun i => toNat (values i)) (2 ^ noteBits) fun i hi =>
      ((hvalues i (Finset.mem_range.mp hi)).cast_toNat hread).2.le
    rwa [Finset.card_range, smul_eq_mul] at hsum

theorem few_lt {n : ℕ} (hn : n ≤ 2 ^ 64) : n * 2 ^ noteBits < 2 ^ 200 := by
  calc n * 2 ^ noteBits ≤ 2 ^ 64 * 2 ^ noteBits := Nat.mul_le_mul_right _ hn
    _ < 2 ^ 200 := by decide

variable {g : NoteGadgets W Key} {poseidon2 : W → W → W} {h : NoteHash W Key} {nInputs nOutputs nLevels : ℕ}
  {outputCommitments : ℕ → W} {out : W}

-- A checked sum is a sum of numbers.
theorem checkSum_numbers (hread : ReadsNumbers toNat) (hg : g.Sound poseidon2 h) {inputs outputs : ℕ → W}
    (hsum : g.checkSum nInputs nOutputs inputs outputs) (hfew : nInputs ≤ 2 ^ 64) (hfew' : nOutputs ≤ 2 ^ 64)
    (hinputs : ∀ i < nInputs, Ranged (inputs i)) (houtputs : ∀ j < nOutputs, Ranged (outputs j)) :
    ∑ i ∈ Finset.range nInputs, toNat (inputs i) = ∑ j ∈ Finset.range nOutputs, toNat (outputs j) := by
  obtain ⟨hin, hinle⟩ := sum_cast hread hinputs
  obtain ⟨hout, houtle⟩ := sum_cast hread houtputs
  refine hread.cast_inj (hinle.trans_lt (few_lt hfew)) (houtle.trans_lt (few_lt hfew')) ?_
  rw [← hin, ← hout]
  exact hg.checkSum hsum

-- What a withdrawal pays out is what its inputs hold beyond its outputs.
theorem withdraw_numbers (hread : ReadsNumbers toNat) (hg : g.Sound poseidon2 h) {inputs outputs : ℕ → W}
    (hfew : nInputs ≤ 2) (hfew' : nOutputs ≤ 1)
    (hge : g.greaterEqThan 101 (∑ i ∈ Finset.range nInputs, inputs i) (∑ j ∈ Finset.range nOutputs, outputs j) 1)
    (hout : out = ∑ i ∈ Finset.range nInputs, inputs i - ∑ j ∈ Finset.range nOutputs, outputs j)
    (hinputs : ∀ i < nInputs, Ranged (inputs i)) (houtputs : ∀ j < nOutputs, Ranged (outputs j)) :
    ∑ i ∈ Finset.range nInputs, toNat (inputs i) = ∑ j ∈ Finset.range nOutputs, toNat (outputs j) + toNat out := by
  obtain ⟨hin, hinle⟩ := sum_cast hread hinputs
  obtain ⟨houts, houtle⟩ := sum_cast hread houtputs
  have hbound : ∑ i ∈ Finset.range nInputs, toNat (inputs i) < 2 ^ 101 := by
    refine lt_of_le_of_ne (hinle.trans ?_) fun heq => ?_
    · calc nInputs * 2 ^ noteBits ≤ 2 * 2 ^ noteBits := Nat.mul_le_mul_right _ hfew
        _ = 2 ^ 101 := by decide
    · have hstrict : ∑ i ∈ Finset.range nInputs, toNat (inputs i) ≤ nInputs * (2 ^ noteBits - 1) := by
        have hsum := Finset.sum_le_card_nsmul (Finset.range nInputs) (fun i => toNat (inputs i)) (2 ^ noteBits - 1)
          fun i hi => Nat.le_sub_one_of_lt ((hinputs i (Finset.mem_range.mp hi)).cast_toNat hread).2
        rwa [Finset.card_range, smul_eq_mul] at hsum
      have hless : nInputs * (2 ^ noteBits - 1) ≤ 2 * (2 ^ noteBits - 1) := Nat.mul_le_mul_right _ hfew
      rw [heq] at hstrict
      exact absurd (hstrict.trans hless) (by decide)
  have hbound' : ∑ j ∈ Finset.range nOutputs, toNat (outputs j) < 2 ^ 101 := by
    calc ∑ j ∈ Finset.range nOutputs, toNat (outputs j) ≤ nOutputs * 2 ^ noteBits := houtle
      _ ≤ 1 * 2 ^ noteBits := Nat.mul_le_mul_right _ hfew'
      _ < 2 ^ 101 := by decide
  rw [hin, houts] at hge hout
  have hle := hg.greaterEqThan hbound hbound' hge
  rw [← Nat.cast_sub hle] at hout
  rw [hout, hread _ (lt_of_le_of_lt (Nat.sub_le _ _) (hbound.trans (by decide)))]
  omega

theorem deposit_numbers (hread : ReadsNumbers toNat) {outputs : ℕ → W} (hfew : nOutputs ≤ 2 ^ 64)
    (hout : out = ∑ j ∈ Finset.range nOutputs, outputs j) (houtputs : ∀ j < nOutputs, Ranged (outputs j)) :
    toNat out = ∑ j ∈ Finset.range nOutputs, toNat (outputs j) := by
  obtain ⟨houts, houtle⟩ := sum_cast hread houtputs
  rw [hout, houts, hread _ (houtle.trans_lt (few_lt hfew))]

end Amounts

-- The heap of a full subtree holds the nodes of the tree over its leaves.
theorem subtree_node {g : NoteGadgets W Key} {poseidon2 : W → W → W} (hg : g.toGadgets.Sound poseidon2) {k : ℕ}
    {outputCommitments : ℕ → W} {subtreeRoot : W} (hsub : Subtree g (2 ^ k) outputCommitments subtreeRoot) :
    (Content.ofLeaves ((List.range (2 ^ k)).map outputCommitments)).nodeAt poseidon2 0 k 0 = subtreeRoot := by
  obtain ⟨subNodes, hleaves, hnodes, hroot⟩ := hsub
  have hlevel : ∀ l ≤ k, ∀ i < 2 ^ (k - l), subNodes (2 ^ (k - l) - 1 + i) =
      (Content.ofLeaves ((List.range (2 ^ k)).map outputCommitments)).nodeAt poseidon2 0 l i := by
    intro l
    induction l with
    | zero =>
      intro _ i hi
      rw [Nat.sub_zero] at hi
      rw [Content.ofLeaves_leaf, Nat.sub_zero, hleaves i hi]
      rw [List.getD_eq_getElem?_getD, List.getElem?_map, List.getElem?_range hi]
      rfl
    | succ l ih =>
      intro hl i hi
      have hpow : 2 ^ (k - l) = 2 * 2 ^ (k - (l + 1)) := by
        rw [← pow_succ']
        congr 1
        omega
      have hpos : 0 < 2 ^ (k - (l + 1)) := Nat.two_pow_pos _
      have hmore : 2 ^ (k - l) ≤ 2 ^ k := Nat.pow_le_pow_right (by decide) (Nat.sub_le _ _)
      have hhash := hg.poseidon2 (hnodes (2 ^ (k - (l + 1)) - 1 + i) (by omega))
      have hleft := ih (Nat.le_of_succ_le hl) (2 * i) (by omega)
      have hright := ih (Nat.le_of_succ_le hl) (2 * i + 1) (by omega)
      have hplace : 2 ^ (k - l) - 1 + 2 * i = 2 * (2 ^ (k - (l + 1)) - 1 + i) + 1 := by omega
      have hplace' : 2 ^ (k - l) - 1 + (2 * i + 1) = 2 * (2 ^ (k - (l + 1)) - 1 + i) + 2 := by omega
      rw [hplace] at hleft
      rw [hplace'] at hright
      rw [Content.ofLeaves_hash, ← hleft, ← hright, hhash]
  have htop := hlevel k le_rfl 0 (by simp)
  rw [Nat.sub_self, pow_zero, Nat.sub_self, Nat.add_zero] at htop
  rw [hroot, htop]

-- Templates that accept just the values they are documented to.
def plainNotes (poseidon2 : W → W → W) (h : NoteHash W Key) : NoteGadgets W Key where
  toGadgets := plainGadgets poseidon2
  babyPbk key owner := owner = h.publicKey key
  checkPositive n values := ∀ i < n, Ranged (values i)
  checkHashes n commitments notes := ∀ i < n, commitments i = 0 ∨ commitments i = h.commitment (notes i)
  checkNullifiers n nullifiers values salts key :=
    ∀ i < n, nullifiers i = 0 ∨ nullifiers i = h.nullifier (values i) (salts i) key
  checkSum n m inputs outputs := ∑ i ∈ Finset.range n, inputs i = ∑ j ∈ Finset.range m, outputs j
  isZero x out := ∃ inv, out = -x * inv + 1 ∧ x * out = 0
  greaterEqThan _ a b out := ∃ x y : ℕ, a = (x : W) ∧ b = (y : W) ∧ out = if y ≤ x then 1 else 0

theorem plainNotes_sound [IsDomain W] [CharZero W] (poseidon2 : W → W → W) (h : NoteHash W Key) :
    (plainNotes poseidon2 h).Sound poseidon2 h where
  toSound := plainGadgets_sound poseidon2
  babyPbk hkey := hkey
  checkPositive hvalues := hvalues
  checkHashes hhashes := hhashes
  checkNullifiers hnullifiers := hnullifiers
  checkSum hsum := hsum
  isZero := by
    rintro out ⟨inv, hout, -⟩
    rw [hout, neg_zero, zero_mul, zero_add]
  greaterEqThan := by
    rintro n a b - - ⟨x, y, hx, hy, hone⟩
    rw [Nat.cast_inj.mp hx, Nat.cast_inj.mp hy]
    by_contra hlt
    rw [if_neg hlt] at hone
    exact one_ne_zero hone

end Bongtu.Circuit
