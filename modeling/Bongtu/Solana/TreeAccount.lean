import Bongtu.Solana.Wire

namespace Bongtu.Solana.TreeAccount

open ByteOrder Core Outcome

def treeStateLen : ℕ := 1098
def treeOffConfig : ℕ := 2
def treeOffNext : ℕ := 34
def treeOffRoot : ℕ := 42
def treeOffFrontier : ℕ := 74

def tagTreeState : UInt8 := 2

-- generated/zeros.rs
def ZEROS : List ℕ := [
  0x0,
  0x2098f5fb9e239eab3ceac3f27b81e481dc3124d55ffed523a839ee8446b64864,
  0x1069673dcdb12263df301a6ff584a7ec261a44cb9dc68df067a4774460b1f1e1,
  0x18f43331537ee2af2e3d758d50f72106467c6eea50371dd528d57eb2b856d238,
  0x07f9d837cb17b0d36320ffe93ba52345f1b728571a568265caac97559dbc952a,
  0x2b94cf5e8746b3f5c9631f4c5df32907a699c58c94b2ad4d7b5cec1639183f55,
  0x2dee93c5a666459646ea7d22cca9e1bcfed71e6951b953611d11dda32ea09d78,
  0x078295e5a22b84e982cf601eb639597b8b0515a88cb5ac7fa8a4aabe3c87349d,
  0x2fa5e5f18f6027a6501bec864564472a616b2e274a41211a444cbe3a99f3cc61,
  0x0e884376d0d8fd21ecb780389e941f66e45e7acce3e228ab3e2156a614fcd747,
  0x1b7201da72494f1e28717ad1a52eb469f95892f957713533de6175e5da190af2,
  0x1f8d8822725e36385200c0b201249819a6e6e1e4650808b5bebc6bface7d7636,
  0x2c5d82f66c914bafb9701589ba8cfcfb6162b0a12acf88a8d0879a0471b5f85a,
  0x14c54148a0940bb820957f5adf3fa1134ef5c4aaa113f4646458f270e0bfbfd0,
  0x190d33b12f986f961e10c0ee44d8b9af11be25588cad89d416118e4bf4ebe80c,
  0x22f98aa9ce704152ac17354914ad73ed1167ae6596af510aa5b3649325e06c92,
  0x2a7c7c9b6ce5880b9f6f228d72bf6a575a526f29c66ecceef8b753d38bba7323,
  0x2e8186e558698ec1c67af9c14d463ffc470043c9c2988b954d75dd643f36b992,
  0x0f57c5571e9a4eab49e2c8cf050dae948aef6ead647392273546249d1c1ff10f,
  0x1830ee67b5fb554ad5f63d4388800e1cfe78e310697d46e43c9ce36134f72cca,
  0x2134e76ac5d21aab186c2be1dd8f84ee880a1e46eaf712f9d371b6df22191f3e,
  0x19df90ec844ebc4ffeebd866f33859b0c051d8c958ee3aa88f8f8df3db91a5b1,
  0x18cca2a66b5c0787981e69aefd84852d74af0e93ef4912b4648c05f722efe52b,
  0x2388909415230d1b4d1304d2d54f473a628338f2efad83fadf05644549d2538d,
  0x27171fb4a97b6cc0e9e8f543b5294de866a2af2c9c8d0b1d96e673e4529ed540,
  0x2ff6650540f629fd5711a0bc74fc0d28dcb230b9392583e5f8d59696dde6ae21,
  0x120c58f143d491e95902f7f5277778a2e0ad5168f6add75669932630ce611518,
  0x1f21feb70d3f21b07bf853d5e5db03071ec495a0a565a21da2d665d279483795,
  0x24be905fa71335e14c638cc0f66a8623a826e768068a9e968bb1a1dde18a72d2,
  0x0f8666b62ed17491c50ceadead57d4cd597ef3821d65c328744c74e553dac26d,
  0x0918d46bf52d98b034413f4a1a1c41594e7a7a3f6ae08cb43d1a2a230e1959ef,
  0x1bbeb01b4c479ecde76917645e404dfa2e26f90d0afc5a65128513ad375c5ff2,
  0x2f68a1c58e257e42a17a6c61dff5551ed560b9922ab119d5ac8e184c9734ead9]


def zeros (i : ℕ) : Word := .ofNat (ZEROS.getD i 0)

-- `hashv` is the Poseidon syscall.
variable (hashv : Word → Word → Option Word)

def poseidon2 (left right : Word) : Except PoolError Word :=
  match hashv left right with
  | some h => .ok h
  | none => .error .syscallFailed

def frontierOf (data : Bytes) : TreeState Word where
  nextLeafIndex := fromLE (readAt treeOffNext 8 data)
  currentRoot := asArr32 (readAt treeOffRoot 32 data)
  filledSubtrees i := asArr32 (readAt (treeOffFrontier + 32 * i) 32 data)

def load (data : Bytes) : Except PoolError (TreeState Word) :=
  if data.length ≠ treeStateLen then .error .invalidAccount else .ok (frontierOf data)

def storeSlots (words : ℕ → Word) (n : ℕ) (data : Bytes) : Bytes :=
  (List.range n).foldl (fun data i => writeAt (treeOffFrontier + 32 * i) (words i).bytes data) data

def storeHeader (t : TreeState Word) (data : Bytes) : Bytes :=
  writeAt treeOffRoot t.currentRoot.bytes (writeAt treeOffNext (toLE 8 t.nextLeafIndex) data)

def store (t : TreeState Word) (data : Bytes) : Bytes :=
  storeSlots t.filledSubtrees treeHeight (storeHeader t data)

def insertLevel (s : ℕ × Word × (ℕ → Word)) (i : ℕ) : Except PoolError (ℕ × Word × (ℕ → Word)) :=
  let (index, current, filled) := s
  if index % 2 = 0 then do
    let h ← poseidon2 hashv current (zeros i)
    return (index / 2, h, Function.update filled i current)
  else do
    let h ← poseidon2 hashv (filled i) current
    return (index / 2, h, filled)

def insertNode (t : TreeState Word) (node : Word) (startLevel : ℕ) :
    Except PoolError (ℕ × TreeState Word) :=
  let stride := 1 <<< startLevel
  if t.nextLeafIndex % stride ≠ 0 then .error .misalignedInsert
  else if t.nextLeafIndex + stride > 1 <<< treeHeight then .error .treeFull
  else do
    let s ← (List.range' startLevel (treeHeight - startLevel)).foldlM (insertLevel hashv)
      (t.nextLeafIndex / stride, node, t.filledSubtrees)
    return (t.nextLeafIndex,
      { nextLeafIndex := t.nextLeafIndex + stride
        currentRoot := s.2.1
        filledSubtrees := s.2.2 })

def appendLeaf (t : TreeState Word) (leaf : Word) : Except PoolError (ℕ × TreeState Word) :=
  insertNode hashv t leaf 0

def closeLevel (t : TreeState Word) (rem : ℕ) (node : Word) (i : ℕ) : Except PoolError Word :=
  if (rem >>> i) &&& 1 = 1 then poseidon2 hashv (t.filledSubtrees i) node
  else poseidon2 hashv node (zeros i)

def closeBlock (t : TreeState Word) (logB : ℕ) : Except PoolError (TreeState Word) :=
  let rem := t.nextLeafIndex % (1 <<< logB)
  if rem ≠ 0 then do
    let node ← (List.range logB).foldlM (closeLevel hashv t rem) (zeros 0)
    let placed ← insertNode hashv { t with nextLeafIndex := t.nextLeafIndex - rem } node logB
    return placed.2
  else .ok t

def attachNode (t : TreeState Word) (subtreeRoot : Word) (logB : ℕ) :
    Except PoolError (ℕ × TreeState Word) := do
  let closed ← closeBlock hashv t logB
  insertNode hashv closed subtreeRoot logB

def appendNext (t : TreeState Word) (leaf : Word) : Except PoolError (TreeState Word) := do
  let appended ← appendLeaf hashv t leaf
  return appended.2

-- `append_leaves` and `attach_subtree` of op_common.rs, on the account's bytes.
def appendLeaves (data : Bytes) (leaf : Word) (leaves : List Word) :
    Except PoolError (ℕ × Word × Bytes) := do
  let frontier ← load data
  let first ← appendLeaf hashv frontier leaf
  let t ← leaves.foldlM (appendNext hashv) first.2
  return (first.1, t.currentRoot, store t data)

def attachSubtree (data : Bytes) (subtreeRoot : Word) (logB : ℕ) :
    Except PoolError (ℕ × Word × Bytes) := do
  let frontier ← load data
  let attached ← attachNode hashv frontier subtreeRoot logB
  return (attached.1, attached.2.currentRoot, store attached.2 data)

-- What `initialize` writes into the zeroed account.
def imageHeader (config : Word) : Bytes :=
  let tagged := writeAt 0 [tagTreeState, 1] (List.replicate treeStateLen 0)
  writeAt treeOffRoot (zeros treeHeight).bytes (writeAt treeOffConfig config.bytes tagged)

def image (config : Word) : Bytes := storeSlots zeros treeHeight (imageHeader config)

def Canonical (v : Word) : Prop := v.value < snarkScalarField

-- The account as the program leaves it: its ops hash canonical words only, and the batch depth is
-- below the tree's height.
inductive OnChain : Bytes → Prop
  | initialized (config : Word) : OnChain (image config)
  | appended {data data' : Bytes} {leaf root : Word} {leaves : List Word} {start : ℕ} (hdata : OnChain data)
      (hleaves : ∀ l ∈ leaf :: leaves, Canonical l)
      (h : appendLeaves hashv data leaf leaves = .ok (start, root, data')) : OnChain data'
  | attached {data data' : Bytes} {subtreeRoot root : Word} {logB start : ℕ} (hdata : OnChain data)
      (hroot : Canonical subtreeRoot) (hlogB : logB < treeHeight)
      (h : attachSubtree hashv data subtreeRoot logB = .ok (start, root, data')) : OnChain data'

-- The syscall hashes canonical words as `poseidon2` does and refuses the others; the generated table
-- is the ladder of the empty subtrees.
structure Bn254X5 (poseidon2 : ℕ → ℕ → ℕ) : Prop where
  refuses : ∀ {l r : Word}, ¬(Canonical l ∧ Canonical r) → hashv l r = none
  agrees : ∀ {l r : Word}, Canonical l → Canonical r →
    ∃ h, hashv l r = some h ∧ Canonical h ∧ h.value = poseidon2 l.value r.value
  ladder : ∀ i < treeHeight, poseidon2 (zeros i).value (zeros i).value = (zeros (i + 1)).value

theorem ZEROS_lt (i : ℕ) : ZEROS.getD i 0 < snarkScalarField := by
  have htable : ∀ z ∈ ZEROS, z < snarkScalarField := by decide
  rw [List.getD_eq_getElem?_getD]
  cases hz : ZEROS[i]? with
  | none => decide
  | some z => exact htable z (List.mem_of_getElem? hz)

theorem value_zeros (i : ℕ) : (zeros i).value = ZEROS.getD i 0 :=
  Word.value_ofNat ((ZEROS_lt i).trans (by decide))

theorem canonical_zeros (i : ℕ) : Canonical (zeros i) := by
  rw [Canonical, value_zeros]
  exact ZEROS_lt i

section Slots

variable {n : ℕ} {data : Bytes}

-- Only the first `n` slots change, and each holds its word.
structure Stored (words : ℕ → Word) (n : ℕ) (data data' : Bytes) : Prop where
  length_eq : data'.length = data.length
  header {start length : ℕ} (h : start + length ≤ treeOffFrontier) :
    readAt start length data' = readAt start length data
  slot {i : ℕ} (h : i < n) : readAt (treeOffFrontier + 32 * i) 32 data' = (words i).bytes

theorem storeSlots_stored (words : ℕ → Word) (hdata : data.length = treeStateLen) : n ≤ treeHeight →
    Stored words n data (storeSlots words n data) := by
  induction n with
  | zero => exact fun _ => ⟨rfl, fun _ => rfl, fun hi => absurd hi (Nat.not_lt_zero _)⟩
  | succ n ih =>
    intro hn
    have hprev := ih (by omega)
    have hstep : storeSlots words (n + 1) data =
        writeAt (treeOffFrontier + 32 * n) (words n).bytes (storeSlots words n data) := by
      simp only [storeSlots, List.range_succ, List.foldl_append, List.foldl_cons, List.foldl_nil]
    have hsize := (words n).size
    have hroom : treeOffFrontier + 32 * n + (words n).bytes.length ≤ (storeSlots words n data).length := by
      rw [hprev.length_eq, hdata, hsize]
      simp only [treeOffFrontier, treeStateLen, treeHeight] at hn ⊢
      omega
    rw [hstep]
    refine ⟨(length_writeAt hroom).trans hprev.length_eq, fun h => ?_, fun {i} hi => ?_⟩
    · rw [readAt_writeAt_of_disjoint hroom (.inl (by omega)), hprev.header h]
    · rcases Nat.lt_succ_iff_lt_or_eq.mp hi with hlt | rfl
      · rw [readAt_writeAt_of_disjoint hroom (.inl (by omega)), hprev.slot hlt]
      · have hread := readAt_writeAt hroom
        rwa [hsize] at hread

end Slots

-- The index is inside the tree and every slot of the frontier holds a canonical word.
structure Fit (t : TreeState Word) : Prop where
  room : t.nextLeafIndex ≤ 2 ^ treeHeight
  canonical : ∀ i < treeHeight, Canonical (t.filledSubtrees i)

structure Sound (data : Bytes) : Prop where
  length_eq : data.length = treeStateLen
  tag : data[0]? = some tagTreeState
  fit : Fit (frontierOf data)

theorem Sound.load {data : Bytes} (h : Sound data) : TreeAccount.load data = .ok (frontierOf data) := by
  rw [TreeAccount.load, if_neg (not_not.mpr h.length_eq)]

theorem frontierOf_of_stored {t : TreeState Word} {data data' : Bytes}
    (h : Stored t.filledSubtrees treeHeight data data')
    (hnext : fromLE (readAt treeOffNext 8 data) = t.nextLeafIndex) :
    (frontierOf data').nextLeafIndex = t.nextLeafIndex ∧
      ∀ i < treeHeight, (frontierOf data').filledSubtrees i = t.filledSubtrees i := by
  refine ⟨?_, fun i hi => Word.ext ?_⟩
  · rw [frontierOf, h.header (by decide), hnext]
  · simp only [frontierOf, h.slot hi]
    exact asArr32_bytes (t.filledSubtrees i).size

theorem Fit.of_eq {t u : TreeState Word} (hu : Fit u) (hnext : t.nextLeafIndex = u.nextLeafIndex)
    (hslots : ∀ i < treeHeight, t.filledSubtrees i = u.filledSubtrees i) : Fit t where
  room := hnext ▸ hu.room
  canonical i hi := hslots i hi ▸ hu.canonical i hi

theorem tag_of_stored {words : ℕ → Word} {n : ℕ} {data data' : Bytes} (h : Stored words n data data') :
    data'[0]? = data[0]? := by
  have hhead := h.header (show 0 + 1 ≤ treeOffFrontier by decide)
  have hget := congrArg (fun bytes : Bytes => bytes[0]?) hhead
  simpa only [getElem?_readAt 0 _ Nat.zero_lt_one, Nat.zero_add] using hget

structure Headed (t : TreeState Word) (data data' : Bytes) : Prop where
  length_eq : data'.length = treeStateLen
  tag_eq : data'[0]? = data[0]?
  next : readAt treeOffNext 8 data' = toLE 8 t.nextLeafIndex
  root : readAt treeOffRoot 32 data' = t.currentRoot.bytes

theorem storeHeader_headed (t : TreeState Word) {data : Bytes} (hlen : data.length = treeStateLen) :
    Headed t data (storeHeader t data) := by
  have hsize := t.currentRoot.size
  have hroom : treeOffNext + (toLE 8 t.nextLeafIndex).length ≤ data.length := by
    rw [hlen, length_toLE]
    decide
  have hroom' : treeOffRoot + t.currentRoot.bytes.length ≤
      (writeAt treeOffNext (toLE 8 t.nextLeafIndex) data).length := by
    rw [length_writeAt hroom, hlen, hsize]
    decide
  have hnext := readAt_writeAt hroom
  have hroot := readAt_writeAt hroom'
  rw [length_toLE] at hnext
  rw [hsize] at hroot
  refine ⟨(length_writeAt hroom').trans ((length_writeAt hroom).trans hlen), ?_, ?_, hroot⟩
  · rw [storeHeader, getElem?_writeAt hroom' (.inl (by decide)), getElem?_writeAt hroom (.inl (by decide))]
  · rw [storeHeader, readAt_writeAt_of_disjoint hroom' (.inl (by decide)), hnext]

theorem store_root (t : TreeState Word) {data : Bytes} (hlen : data.length = treeStateLen) :
    readAt treeOffRoot 32 (store t data) = t.currentRoot.bytes := by
  have hheaded := storeHeader_headed t hlen
  have hstored := storeSlots_stored t.filledSubtrees hheaded.length_eq le_rfl
  exact (hstored.header (by decide)).trans hheaded.root

theorem store_sound {t : TreeState Word} {data : Bytes} (ht : Fit t) (hlen : data.length = treeStateLen)
    (htag : data[0]? = some tagTreeState) : Sound (store t data) := by
  have hheaded := storeHeader_headed t hlen
  have hstored := storeSlots_stored t.filledSubtrees hheaded.length_eq le_rfl
  have hcounter : fromLE (toLE 8 t.nextLeafIndex) = t.nextLeafIndex := by
    have hlt : t.nextLeafIndex < 256 ^ 8 := lt_of_le_of_lt ht.room (by decide)
    rw [fromLE_toLE, Nat.mod_eq_of_lt hlt]
  have hread := frontierOf_of_stored hstored (by rw [hheaded.next, hcounter])
  exact ⟨hstored.length_eq.trans hheaded.length_eq,
    (tag_of_stored hstored).trans (hheaded.tag_eq.trans htag), ht.of_eq hread.1 hread.2⟩

theorem imageHeader_eq (config : Word) : (imageHeader config).length = treeStateLen ∧
    (imageHeader config)[0]? = some tagTreeState ∧ fromLE (readAt treeOffNext 8 (imageHeader config)) = 0 := by
  have hblank : (List.replicate treeStateLen (0 : UInt8)).length = treeStateLen := List.length_replicate
  have htagged : 0 + [tagTreeState, 1].length ≤ (List.replicate treeStateLen (0 : UInt8)).length := by
    rw [hblank]
    decide
  have hconfig : treeOffConfig + config.bytes.length ≤
      (writeAt 0 [tagTreeState, 1] (List.replicate treeStateLen 0)).length := by
    rw [length_writeAt htagged, hblank, config.size]
    decide
  have hroot : treeOffRoot + (zeros treeHeight).bytes.length ≤ (writeAt treeOffConfig config.bytes
      (writeAt 0 [tagTreeState, 1] (List.replicate treeStateLen 0))).length := by
    rw [length_writeAt hconfig, length_writeAt htagged, hblank, (zeros treeHeight).size]
    decide
  refine ⟨?_, ?_, ?_⟩
  · exact (length_writeAt hroot).trans ((length_writeAt hconfig).trans ((length_writeAt htagged).trans hblank))
  · rw [imageHeader, getElem?_writeAt hroot (.inl (by decide)), getElem?_writeAt hconfig (.inl (by decide))]
    decide
  · rw [imageHeader, readAt_writeAt_of_disjoint hroot (.inl (by decide)),
      readAt_writeAt_of_disjoint hconfig (.inr (by rw [config.size]; decide)),
      readAt_writeAt_of_disjoint htagged (.inr (by decide))]
    decide

theorem image_stored (config : Word) : Stored zeros treeHeight (imageHeader config) (image config) :=
  storeSlots_stored zeros (imageHeader_eq config).1 le_rfl

theorem next_image (config : Word) : (frontierOf (image config)).nextLeafIndex = 0 := by
  rw [frontierOf, (image_stored config).header (by decide), (imageHeader_eq config).2.2]

theorem image_sound (config : Word) : Sound (image config) := by
  obtain ⟨hlen, htag, -⟩ := imageHeader_eq config
  have hstored := image_stored config
  refine ⟨hstored.length_eq.trans hlen, (tag_of_stored hstored).trans htag, ⟨?_, fun i hi => ?_⟩⟩
  · rw [next_image]
    exact Nat.zero_le _
  · have hslot : (frontierOf (image config)).filledSubtrees i = zeros i := by
      refine Word.ext ?_
      simp only [frontierOf, hstored.slot hi]
      exact asArr32_bytes (zeros i).size
    exact hslot ▸ canonical_zeros i

section Hashed

variable {hashv} {poseidon2 : ℕ → ℕ → ℕ} (hhash : Bn254X5 hashv poseidon2)
include hhash

theorem poseidon2_ok {l r h : Word} (hh : TreeAccount.poseidon2 hashv l r = .ok h) :
    Canonical h ∧ h.value = poseidon2 l.value r.value := by
  have hsome : hashv l r = some h := by
    simp only [TreeAccount.poseidon2] at hh
    split at hh
    · next heq => exact heq.trans (congrArg some (Except.ok.inj hh))
    · cases hh
  by_cases hlr : Canonical l ∧ Canonical r
  · obtain ⟨h', hh', hcanon, hvalue⟩ := hhash.agrees hlr.1 hlr.2
    obtain rfl : h' = h := Option.some.inj (hh'.symm.trans hsome)
    exact ⟨hcanon, hvalue⟩
  · rw [hhash.refuses hlr] at hsome
    cases hsome

theorem poseidon2_returns {l r : Word} (hl : Canonical l) (hr : Canonical r) :
    ∃ h, TreeAccount.poseidon2 hashv l r = .ok h := by
  obtain ⟨h, hh, -⟩ := hhash.agrees hl hr
  exact ⟨h, by rw [TreeAccount.poseidon2, hh]⟩

def Clean (s : ℕ × Word × (ℕ → Word)) : Prop :=
  Canonical s.2.1 ∧ ∀ i < treeHeight, Canonical (s.2.2 i)

theorem insertLevel_returns {s : ℕ × Word × (ℕ → Word)} (hs : Clean s) {i : ℕ} (hi : i < treeHeight) :
    ∃ s', insertLevel hashv s i = .ok s' := by
  obtain ⟨index, current, filled⟩ := s
  rw [insertLevel]
  split
  · exact bind_returns (poseidon2_returns hhash hs.1 (canonical_zeros i)).choose_spec ⟨_, rfl⟩
  · exact bind_returns (poseidon2_returns hhash (hs.2 i hi) hs.1).choose_spec ⟨_, rfl⟩

theorem insertLevel_clean {s s' : ℕ × Word × (ℕ → Word)} (hs : Clean s) {i : ℕ}
    (h : insertLevel hashv s i = .ok s') : Clean s' := by
  obtain ⟨index, current, filled⟩ := s
  rw [insertLevel] at h
  split at h
  · obtain ⟨hashed, hhashed, hs'⟩ := bind_ok.mp h
    cases hs'
    refine ⟨(poseidon2_ok hhash hhashed).1, fun j hj => ?_⟩
    change Canonical (Function.update filled i current j)
    rcases eq_or_ne j i with rfl | hne
    · rw [Function.update_self]
      exact hs.1
    · rw [Function.update_of_ne hne]
      exact hs.2 j hj
  · obtain ⟨hashed, hhashed, hs'⟩ := bind_ok.mp h
    cases hs'
    exact ⟨(poseidon2_ok hhash hhashed).1, hs.2⟩

theorem levels_clean (levels : List ℕ) : ∀ {s s' : ℕ × Word × (ℕ → Word)}, Clean s →
    levels.foldlM (insertLevel hashv) s = .ok s' → Clean s' := by
  induction levels with
  | nil =>
    intro s s' hs h
    cases h
    exact hs
  | cons i levels ih =>
    intro s s' hs h
    obtain ⟨next, hnext, hrest⟩ := bind_ok.mp h
    exact ih (insertLevel_clean hhash hs hnext) hrest

theorem levels_return (levels : List ℕ) (hlevels : ∀ i ∈ levels, i < treeHeight) :
    ∀ {s : ℕ × Word × (ℕ → Word)}, Clean s → ∃ s', levels.foldlM (insertLevel hashv) s = .ok s' := by
  induction levels with
  | nil => exact fun {s} _ => ⟨s, rfl⟩
  | cons i levels ih =>
    intro s hs
    obtain ⟨next, hnext⟩ := insertLevel_returns hhash hs (hlevels i List.mem_cons_self)
    exact bind_returns hnext
      (ih (fun j hj => hlevels j (List.mem_cons_of_mem i hj)) (insertLevel_clean hhash hs hnext))

end Hashed

variable {hashv}

theorem insertNode_ok {t : TreeState Word} {node : Word} {startLevel : ℕ} {a : ℕ × TreeState Word}
    (h : insertNode hashv t node startLevel = .ok a) :
    t.nextLeafIndex % 2 ^ startLevel = 0 ∧ t.nextLeafIndex + 2 ^ startLevel ≤ 2 ^ treeHeight ∧
      ∃ s, (List.range' startLevel (treeHeight - startLevel)).foldlM (insertLevel hashv)
          (t.nextLeafIndex / 2 ^ startLevel, node, t.filledSubtrees) = .ok s ∧
        a = (t.nextLeafIndex, ⟨t.nextLeafIndex + 2 ^ startLevel, s.2.1, s.2.2⟩) := by
  simp only [insertNode, Nat.one_shiftLeft] at h
  split at h
  · cases h
  split at h
  · cases h
  next haligned hroom =>
    obtain ⟨s, hs, hreturn⟩ := bind_ok.mp h
    cases hreturn
    exact ⟨not_not.mp haligned, not_lt.mp hroom, s, hs, rfl⟩

theorem insertNode_eq {t : TreeState Word} {startLevel : ℕ} (haligned : t.nextLeafIndex % 2 ^ startLevel = 0)
    (hroom : t.nextLeafIndex + 2 ^ startLevel ≤ 2 ^ treeHeight) {node : Word} {s : ℕ × Word × (ℕ → Word)}
    (hs : (List.range' startLevel (treeHeight - startLevel)).foldlM (insertLevel hashv)
      (t.nextLeafIndex / 2 ^ startLevel, node, t.filledSubtrees) = .ok s) :
    insertNode hashv t node startLevel =
      .ok (t.nextLeafIndex, ⟨t.nextLeafIndex + 2 ^ startLevel, s.2.1, s.2.2⟩) := by
  simp only [insertNode, Nat.one_shiftLeft, haligned, not_lt.mpr hroom, hs, ne_eq, not_true_eq_false,
    if_false]
  rfl

theorem appendLeaves_ok {data data' : Bytes} {leaf root : Word} {leaves : List Word} {start : ℕ}
    (h : appendLeaves hashv data leaf leaves = .ok (start, root, data')) :
    ∃ t, load data = .ok t ∧ ∃ first, appendLeaf hashv t leaf = .ok (start, first) ∧
      ∃ last, leaves.foldlM (appendNext hashv) first = .ok last ∧ root = last.currentRoot ∧
        data' = store last data := by
  obtain ⟨t, ht, h⟩ := bind_ok.mp h
  obtain ⟨first, hfirst, h⟩ := bind_ok.mp h
  obtain ⟨last, hlast, h⟩ := bind_ok.mp h
  cases h
  exact ⟨t, ht, first.2, hfirst, last, hlast, rfl, rfl⟩

theorem appendLeaves_root {data data' : Bytes} {leaf root : Word} {leaves : List Word} {start : ℕ}
    (hlen : data.length = treeStateLen) (h : appendLeaves hashv data leaf leaves = .ok (start, root, data')) :
    readAt treeOffRoot 32 data' = root.bytes := by
  obtain ⟨t, -, first, -, last, -, hroot, hdata'⟩ := appendLeaves_ok h
  rw [hdata', hroot]
  exact store_root last hlen

section Frontiers

variable {poseidon2 : ℕ → ℕ → ℕ} (hhash : Bn254X5 hashv poseidon2)
include hhash

theorem insertNode_fit {t : TreeState Word} {node : Word} {startLevel : ℕ} {a : ℕ × TreeState Word} (ht : Fit t)
    (hnode : Canonical node) (h : insertNode hashv t node startLevel = .ok a) : Fit a.2 := by
  obtain ⟨-, hroom, s, hs, rfl⟩ := insertNode_ok h
  exact ⟨hroom, (levels_clean hhash _ ⟨hnode, ht.canonical⟩ hs).2⟩

theorem appendLeaf_returns {t : TreeState Word} {leaf : Word} (ht : Fit t) (hleaf : Canonical leaf)
    (hroom : t.nextLeafIndex + 1 ≤ 2 ^ treeHeight) :
    ∃ t', appendLeaf hashv t leaf = .ok (t.nextLeafIndex, t') ∧ t'.nextLeafIndex = t.nextLeafIndex + 1 ∧
      Fit t' := by
  obtain ⟨s, hs⟩ := levels_return hhash (List.range' 0 (treeHeight - 0))
    (fun i hi => by simpa using hi) (s := (t.nextLeafIndex / 2 ^ 0, leaf, t.filledSubtrees))
    ⟨hleaf, ht.canonical⟩
  have happend := insertNode_eq (Nat.mod_one _) hroom hs
  exact ⟨_, happend, rfl, insertNode_fit hhash ht hleaf happend⟩

theorem appendNext_fit {t t' : TreeState Word} {leaf : Word} (ht : Fit t) (hleaf : Canonical leaf)
    (h : appendNext hashv t leaf = .ok t') : Fit t' := by
  obtain ⟨appended, happended, hreturn⟩ := bind_ok.mp h
  cases hreturn
  exact insertNode_fit hhash ht hleaf happended

theorem appendRest_fit (leaves : List Word) (hleaves : ∀ l ∈ leaves, Canonical l) : ∀ {t t' : TreeState Word},
    Fit t → leaves.foldlM (appendNext hashv) t = .ok t' → Fit t' := by
  induction leaves with
  | nil =>
    intro t t' ht h
    cases h
    exact ht
  | cons leaf leaves ih =>
    intro t t' ht h
    obtain ⟨next, hnext, hrest⟩ := bind_ok.mp h
    exact ih (fun l hl => hleaves l (List.mem_cons_of_mem leaf hl))
      (appendNext_fit hhash ht (hleaves leaf List.mem_cons_self) hnext) hrest

theorem appendRest_returns (leaves : List Word) (hleaves : ∀ l ∈ leaves, Canonical l) : ∀ {t : TreeState Word},
    Fit t → t.nextLeafIndex + leaves.length ≤ 2 ^ treeHeight →
      ∃ t', leaves.foldlM (appendNext hashv) t = .ok t' := by
  induction leaves with
  | nil => exact fun {t} _ _ => ⟨t, rfl⟩
  | cons leaf leaves ih =>
    intro t ht hroom
    rw [List.length_cons] at hroom
    obtain ⟨next, happend, hnext, hfit⟩ :=
      appendLeaf_returns hhash ht (hleaves leaf List.mem_cons_self) (by omega)
    have hstep : appendNext hashv t leaf = .ok next := by
      rw [appendNext, happend]
      rfl
    exact bind_returns hstep (ih (fun l hl => hleaves l (List.mem_cons_of_mem leaf hl)) hfit (by omega))

theorem closeLevel_canonical {t : TreeState Word} {rem : ℕ} (levels : List ℕ) : ∀ {node closed : Word},
    Canonical node → levels.foldlM (closeLevel hashv t rem) node = .ok closed → Canonical closed := by
  induction levels with
  | nil =>
    intro node closed hnode h
    cases h
    exact hnode
  | cons i levels ih =>
    intro node closed hnode h
    obtain ⟨next, hnext, hrest⟩ := bind_ok.mp h
    refine ih ?_ hrest
    rw [closeLevel] at hnext
    split at hnext <;> exact (poseidon2_ok hhash hnext).1

theorem closeBlock_fit {t t' : TreeState Word} {logB : ℕ} (ht : Fit t) (h : closeBlock hashv t logB = .ok t') :
    Fit t' := by
  rw [closeBlock] at h
  split at h
  · obtain ⟨node, hnode, hplace⟩ := bind_ok.mp h
    obtain ⟨placed, hplaced, hreturn⟩ := bind_ok.mp hplace
    cases hreturn
    have hback : Fit { t with nextLeafIndex := t.nextLeafIndex - t.nextLeafIndex % 1 <<< logB } :=
      ⟨(Nat.sub_le _ _).trans ht.room, ht.canonical⟩
    exact insertNode_fit hhash hback (closeLevel_canonical hhash _ (canonical_zeros 0) hnode) hplaced
  · cases h
    exact ht

theorem appendLeaves_sound {data data' : Bytes} {leaf root : Word} {leaves : List Word} {start : ℕ}
    (hdata : Sound data) (hleaves : ∀ l ∈ leaf :: leaves, Canonical l)
    (h : appendLeaves hashv data leaf leaves = .ok (start, root, data')) : Sound data' := by
  obtain ⟨t, ht, first, hfirst, last, hlast, -, hdata'⟩ := appendLeaves_ok h
  rw [hdata']
  cases hdata.load.symm.trans ht
  have hfit := insertNode_fit hhash hdata.fit (hleaves leaf List.mem_cons_self) hfirst
  exact store_sound (appendRest_fit hhash leaves (fun l hl => hleaves l (List.mem_cons_of_mem leaf hl)) hfit hlast)
    hdata.length_eq hdata.tag

theorem attachSubtree_sound {data data' : Bytes} {subtreeRoot root : Word} {logB start : ℕ} (hdata : Sound data)
    (hroot : Canonical subtreeRoot)
    (h : attachSubtree hashv data subtreeRoot logB = .ok (start, root, data')) : Sound data' := by
  obtain ⟨t, ht, h⟩ := bind_ok.mp h
  obtain ⟨attached, hattached, h⟩ := bind_ok.mp h
  cases h
  cases hdata.load.symm.trans ht
  obtain ⟨closed, hclosed, hinsert⟩ := bind_ok.mp hattached
  exact store_sound (insertNode_fit hhash (closeBlock_fit hhash hdata.fit hclosed) hroot hinsert)
    hdata.length_eq hdata.tag

theorem OnChain.sound {data : Bytes} (h : OnChain hashv data) : Sound data := by
  induction h with
  | initialized config => exact image_sound config
  | appended _ hleaves h ih => exact appendLeaves_sound hhash ih hleaves h
  | attached _ hroot _ h ih => exact attachSubtree_sound hhash ih hroot h

theorem appendLeaves_returns {data : Bytes} {leaf : Word} {leaves : List Word} (hdata : Sound data)
    (hleaves : ∀ l ∈ leaf :: leaves, Canonical l)
    (hroom : (frontierOf data).nextLeafIndex + (leaf :: leaves).length ≤ 2 ^ treeHeight) :
    ∃ a, appendLeaves hashv data leaf leaves = .ok a := by
  rw [List.length_cons] at hroom
  obtain ⟨first, hfirst, hnext, hfit⟩ :=
    appendLeaf_returns hhash hdata.fit (hleaves leaf List.mem_cons_self) (by omega)
  obtain ⟨last, hlast⟩ := appendRest_returns hhash leaves (fun l hl => hleaves l (List.mem_cons_of_mem leaf hl))
    hfit (by omega)
  exact bind_returns hdata.load (bind_returns hfirst (bind_returns hlast ⟨_, rfl⟩))

end Frontiers

end Bongtu.Solana.TreeAccount
