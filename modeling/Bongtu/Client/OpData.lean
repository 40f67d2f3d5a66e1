import Bongtu.ByteOrder
import Bongtu.Core.SolanaOps
import Bongtu.Outcome

namespace Bongtu.Core

def SolanaOpName.name : SolanaOpName → String
  | depositPriv => "depositPriv"
  | transferPriv => "transferPriv"
  | transfer10x2Priv => "transfer10x2Priv"
  | withdrawPriv => "withdrawPriv"
  | deposit => "deposit"
  | withdraw => "withdraw"
  | disburse256 => "disburse256"
  | transfer => "transfer"
  | transfer10x2 => "transfer10x2"

end Bongtu.Core

namespace Bongtu.Client

open ByteOrder Core Outcome

-- Groth16 calldata, each limb as `BigInt` reads it.
structure Calldata where
  a : ℤ × ℤ
  b : (ℤ × ℤ) × (ℤ × ℤ)
  c : ℤ × ℤ
  pub : List ℤ
deriving DecidableEq, Repr

def fieldBytes (value : ℤ) : Except String Bytes :=
  if value < 0 ∨ value / 2 ^ 256 ≠ 0 then .error s!"field element out of range: {value}"
  else .ok (toBE 32 value.toNat)

def Calldata.limbs (calldata : Calldata) : List ℤ :=
  [calldata.a.1, calldata.a.2, calldata.b.1.1, calldata.b.1.2, calldata.b.2.1, calldata.b.2.2, calldata.c.1,
    calldata.c.2]

-- The proof as the verifier reads it.
def Calldata.proof (calldata : Calldata) : Proof where
  a := (calldata.a.1.toNat, calldata.a.2.toNat)
  b := ((calldata.b.1.1.toNat, calldata.b.1.2.toNat), (calldata.b.2.1.toNat, calldata.b.2.2.toNat))
  c := (calldata.c.1.toNat, calldata.c.2.toNat)

def proofBytes (calldata : Calldata) : Except String Bytes := do
  let limbs ← calldata.limbs.mapM fieldBytes
  return limbs.flatten

def kemCtBytes (ct : Bytes × ℕ) : Except String Bytes :=
  if ct.1.length ≠ kemCiphertextLen then
    .error s!"kemCiphertexts[{ct.2}] must be {kemCiphertextLen} bytes, got {ct.1.length}"
  else .ok ct.1

-- The client builds the four consumer ops only; the body reads nothing but the layout table.
def encodeConsumerOpData (op : SolanaOpName) (calldata : Calldata) (kemCiphertexts : List Bytes)
    (stealthTail : Bytes) : Except String Bytes := do
  let layout := solanaOps op
  require (calldata.pub.length = layout.nPublic)
    s!"{op.name}: expected {layout.nPublic} public signals, got {calldata.pub.length}"
  require (kemCiphertexts.length = layout.kemCtCount)
    s!"{op.name} carries {layout.kemCtCount} kem ciphertexts, got {kemCiphertexts.length}"
  require (stealthTail.length = layout.stealthTailLen)
    s!"{op.name}: stealth tail must be {layout.stealthTailLen} bytes, got {stealthTail.length}"
  let proof ← proofBytes calldata
  let carried ← layout.carried.mapM fun i => fieldBytes (calldata.pub.getD i 0)
  let kems ← kemCiphertexts.zipIdx.mapM kemCtBytes
  let parts := [[UInt8.ofNat layout.discriminator], proof] ++ carried ++ kems ++ [stealthTail]
  let total := (parts.map List.length).sum
  require (total = layout.wireLenOf)
    s!"{op.name}: built {total} wire bytes, layout table says {layout.wireLenOf}"
  return parts.flatten

theorem fieldBytes_ok {value : ℤ} {bytes : Bytes} : fieldBytes value = .ok bytes ↔
    (0 ≤ value ∧ value < 2 ^ 256) ∧ bytes = toBE 32 value.toNat := by
  unfold fieldBytes
  split
  · case isTrue hout =>
    simp only [reduceCtorEq, false_iff, not_and]
    intro hrange
    omega
  · case isFalse hin =>
    have hrange : 0 ≤ value ∧ value < 2 ^ 256 := by omega
    simp only [Except.ok.injEq, hrange, and_self, true_and]
    exact eq_comm

theorem kemCtBytes_ok {ct : Bytes × ℕ} {bytes : Bytes} :
    kemCtBytes ct = .ok bytes ↔ ct.1.length = kemCiphertextLen ∧ bytes = ct.1 := by
  unfold kemCtBytes
  split
  · case isTrue hlen => simp [hlen]
  · case isFalse hlen =>
    rw [ne_eq, not_not] at hlen
    simp only [Except.ok.injEq, hlen, true_and]
    exact eq_comm

def wordOf (value : ℤ) : Bytes := toBE 32 value.toNat

theorem mapM_fieldBytes_ok {values : List ℤ} {out : List Bytes} : values.mapM fieldBytes = .ok out ↔
    (∀ v ∈ values, 0 ≤ v ∧ v < 2 ^ 256) ∧ out = values.map wordOf := by
  constructor
  · intro h
    have hall := mapM_ok h
    clear h
    induction hall with
    | nil => simp
    | cons hv hrest ih =>
      obtain ⟨hrange, rfl⟩ := fieldBytes_ok.mp hv
      obtain ⟨hranges, rfl⟩ := ih
      exact ⟨List.forall_mem_cons.mpr ⟨hrange, hranges⟩, rfl⟩
  · rintro ⟨hranges, rfl⟩
    exact mapM_returns fun v hv => fieldBytes_ok.mpr ⟨hranges v hv, rfl⟩

theorem mapM_kemCtBytes_ok {kems out : List Bytes} : kems.zipIdx.mapM kemCtBytes = .ok out ↔
    (∀ ct ∈ kems, ct.length = kemCiphertextLen) ∧ out = kems := by
  have hfst : kems.zipIdx.map Prod.fst = kems := List.zipIdx_map_fst 0 kems
  constructor
  · intro h
    have hall := mapM_ok h
    rw [← hfst]
    generalize kems.zipIdx = indexed at hall
    clear h hfst
    induction hall with
    | nil => simp
    | cons hct hrest ih =>
      obtain ⟨hlen, rfl⟩ := kemCtBytes_ok.mp hct
      obtain ⟨hlens, rfl⟩ := ih
      exact ⟨List.forall_mem_cons.mpr ⟨hlen, hlens⟩, rfl⟩
  · rintro ⟨hlens, rfl⟩
    have hread : ∀ ct ∈ out.zipIdx, kemCtBytes ct = .ok ct.1 := fun ct hct =>
      kemCtBytes_ok.mpr ⟨hlens _ (hfst ▸ List.mem_map_of_mem hct), rfl⟩
    rw [mapM_returns hread, hfst]

-- What the encoder checks.
structure Encodable (op : SolanaOpName) (calldata : Calldata) (kemCiphertexts : List Bytes)
    (stealthTail : Bytes) : Prop where
  pub_length : calldata.pub.length = (solanaOps op).nPublic
  kem_count : kemCiphertexts.length = (solanaOps op).kemCtCount
  kem_length : ∀ ct ∈ kemCiphertexts, ct.length = kemCiphertextLen
  tail_length : stealthTail.length = (solanaOps op).stealthTailLen
  limbs : ∀ v ∈ calldata.limbs, 0 ≤ v ∧ v < 2 ^ 256
  carried : ∀ i ∈ (solanaOps op).carried, 0 ≤ calldata.pub.getD i 0 ∧ calldata.pub.getD i 0 < 2 ^ 256

-- Behind the discriminator byte.
def wirePayload (op : SolanaOpName) (calldata : Calldata) (kemCiphertexts : List Bytes)
    (stealthTail : Bytes) : Bytes :=
  (calldata.limbs.map wordOf).flatten ++
    (((solanaOps op).carried.map fun i => calldata.pub.getD i 0).map wordOf).flatten ++
    (kemCiphertexts.flatten ++ stealthTail)

theorem length_flatten_of {words : List Bytes} {width : ℕ} (h : ∀ x ∈ words, x.length = width) :
    words.flatten.length = words.length * width := by
  rw [List.length_flatten, List.map_congr_left h, List.map_const', List.sum_replicate, nsmul_eq_mul,
    Nat.cast_id]

theorem length_wordOf {values : List ℤ} : ∀ x ∈ values.map wordOf, x.length = 32 := by
  intro x hx
  obtain ⟨v, -, rfl⟩ := List.mem_map.mp hx
  exact length_toBE 32 v.toNat

theorem length_limbs (calldata : Calldata) : ((calldata.limbs.map wordOf).flatten).length = proofLen := by
  have hlimbs : calldata.limbs.length = 8 := rfl
  rw [length_flatten_of length_wordOf, List.length_map, hlimbs, proofLen]

theorem length_wirePayload {op : SolanaOpName} {calldata : Calldata} {kemCiphertexts : List Bytes}
    {stealthTail : Bytes} (h : Encodable op calldata kemCiphertexts stealthTail) :
    (wirePayload op calldata kemCiphertexts stealthTail).length + 1 = (solanaOps op).wireLenOf := by
  rw [wirePayload, List.length_append, List.length_append, List.length_append, length_limbs,
    length_flatten_of length_wordOf, length_flatten_of h.kem_length, List.length_map, List.length_map,
    h.kem_count, h.tail_length, SolanaOpLayout.wireLenOf]
  ring

theorem encodeConsumerOpData_ok {op : SolanaOpName} {calldata : Calldata} {kemCiphertexts : List Bytes}
    {stealthTail data : Bytes} :
    encodeConsumerOpData op calldata kemCiphertexts stealthTail = .ok data ↔
      Encodable op calldata kemCiphertexts stealthTail ∧
      data = UInt8.ofNat (solanaOps op).discriminator ::
        wirePayload op calldata kemCiphertexts stealthTail := by
  have hmapM : ((solanaOps op).carried.mapM fun i => fieldBytes (calldata.pub.getD i 0)) =
      ((solanaOps op).carried.map fun i => calldata.pub.getD i 0).mapM fieldBytes := by
    rw [List.mapM_map]
    rfl
  have hparts : ∀ proof : Bytes, ∀ carried : List Bytes,
      ([[UInt8.ofNat (solanaOps op).discriminator], proof] ++ carried ++ kemCiphertexts ++
        [stealthTail]).flatten = UInt8.ofNat (solanaOps op).discriminator ::
          (proof ++ carried.flatten ++ (kemCiphertexts.flatten ++ stealthTail)) := by
    intro proof carried
    simp
  simp only [encodeConsumerOpData, bind_ok, require_ok, exists_const, proofBytes, hmapM, mapM_fieldBytes_ok,
    mapM_kemCtBytes_ok, List.forall_mem_map, ← List.length_flatten]
  constructor
  · rintro ⟨hpub, hcount, htail, proof, ⟨limbs, ⟨hlimbs, rfl⟩, hproof⟩, carried, ⟨hcarried, rfl⟩, kems,
      ⟨hkems, rfl⟩, -, hdata⟩
    obtain rfl := Except.ok.inj hproof
    obtain rfl := Except.ok.inj hdata
    exact ⟨⟨hpub, hcount, hkems, htail, hlimbs, hcarried⟩, hparts _ _⟩
  · rintro ⟨henc, rfl⟩
    refine ⟨henc.pub_length, henc.kem_count, henc.tail_length, _, ⟨_, ⟨henc.limbs, rfl⟩, rfl⟩, _,
      ⟨henc.carried, rfl⟩, _, ⟨henc.kem_length, rfl⟩, ?_, ?_⟩
    · rw [hparts, List.length_cons]
      exact length_wirePayload henc
    · exact congrArg Except.ok (hparts _ _)

end Bongtu.Client
