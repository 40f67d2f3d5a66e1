import Bongtu.Core.Base58
import Bongtu.Solana.Wire

namespace Bongtu.Solana

open ByteOrder Core

def baseFieldQ : ℕ := 21888242871839275222246405745257275088696311157297823662689037894645226208583

-- BASE_FIELD_Q_BE
def baseFieldQBe : Bytes :=
  [0x30, 0x64, 0x4e, 0x72, 0xe1, 0x31, 0xa0, 0x29, 0xb8, 0x50, 0x45, 0xb6, 0x81, 0x81, 0x58, 0x5d,
    0x97, 0x81, 0x6a, 0x91, 0x68, 0x71, 0xca, 0x8d, 0x3c, 0x20, 0x8c, 0x16, 0xd8, 0x7c, 0xfd, 0x47]

-- SCALAR_FIELD_R_BE
def scalarFieldRBe : Bytes :=
  [0x30, 0x64, 0x4e, 0x72, 0xe1, 0x31, 0xa0, 0x29, 0xb8, 0x50, 0x45, 0xb6, 0x81, 0x81, 0x58, 0x5d,
    0x28, 0x33, 0xe8, 0x48, 0x79, 0xb9, 0x70, 0x91, 0x43, 0xe1, 0xf5, 0x93, 0xf0, 0x00, 0x00, 0x01]

def ltBe : Bytes → Bytes → Bool
  | a :: as, b :: bs => if a ≠ b then a < b else ltBe as bs
  | _, _ => false

def isCanonicalScalarBe (v : Word) : Bool := ltBe v.bytes scalarFieldRBe

def isZeroBe (v : Word) : Bool := v.bytes.all (· == 0)

-- One byte of the difference and the borrow into the byte above.
def borrowByte (qy : UInt8 × UInt8) (below : Bytes × ℤ) : Bytes × ℤ :=
  let d := (qy.1.toNat : ℤ) - qy.2.toNat - below.2
  if d < 0 then (UInt8.ofNat (d + 256).toNat :: below.1, 1) else (UInt8.ofNat d.toNat :: below.1, 0)

def subtractBe (qs ys : Bytes) : Bytes × ℤ := (qs.zip ys).foldr borrowByte ([], 0)

def negateFqBe (y : Word) : Word :=
  if isZeroBe y then 0 else asArr32 (subtractBe baseFieldQBe y.bytes).1

def recipientMaskHighByte : UInt8 := 0x1F

def boundRecipientBe (recipientTokenAccount : Word) : Word :=
  ⟨recipientTokenAccount.bytes.modifyHead (· &&& recipientMaskHighByte), by simp [recipientTokenAccount.size]⟩

inductive BoundRecipientError where
  | base58 (e : Base58Error)
  | notA32ByteAddress (tokenAccountBase58 : List Char)
deriving DecidableEq, Repr

def boundWithdrawRecipient (tokenAccountBase58 : List Char) : Except BoundRecipientError (List Char) := do
  let masked ← (base58ToBytes tokenAccountBase58).mapError .base58
  Outcome.require (masked.length = 32) (.notA32ByteAddress tokenAccountBase58)
  return numeral 10 (fromBE (masked.modifyHead (· &&& 0x1f)))

theorem ltBe_iff : ∀ {as bs : Bytes}, as.length = bs.length → (ltBe as bs ↔ fromBE as < fromBE bs) := by
  intro as
  induction as with
  | nil =>
    intro bs h
    obtain rfl : bs = [] := List.length_eq_zero_iff.1 h.symm
    simp [ltBe]
  | cons a as ih =>
    intro bs h
    cases bs with
    | nil => simp at h
    | cons b bs =>
      have hlen : as.length = bs.length := by simpa using h
      have ha := fromBE_lt as
      have hb := fromBE_lt bs
      rw [ltBe, fromBE_cons, fromBE_cons]
      rw [hlen] at ha ⊢
      split
      · next hne =>
        rw [decide_eq_true_iff, UInt8.lt_iff_toNat_lt]
        constructor
        · intro hlt
          nlinarith
        · intro hlt
          by_contra hge
          have hgt : b.toNat < a.toNat := lt_of_le_of_ne (not_lt.1 hge) fun heq => hne (UInt8.toNat_inj.1 heq.symm)
          nlinarith
      · next heq =>
        rw [not_ne_iff.1 heq, ih hlen]
        omega

theorem subtractBe_spec : ∀ {qs ys : Bytes}, qs.length = ys.length →
    (subtractBe qs ys).1.length = qs.length ∧ ((subtractBe qs ys).2 = 0 ∨ (subtractBe qs ys).2 = 1) ∧
      (fromBE (subtractBe qs ys).1 : ℤ) + fromBE ys = fromBE qs + (subtractBe qs ys).2 * 256 ^ qs.length := by
  intro qs
  induction qs with
  | nil =>
    intro ys h
    obtain rfl : ys = [] := List.length_eq_zero_iff.1 h.symm
    simp [subtractBe, fromBE]
  | cons q qs ih =>
    intro ys h
    cases ys with
    | nil => simp at h
    | cons y ys =>
      have hlen : qs.length = ys.length := by simpa using h
      obtain ⟨hout, hborrow, hvalue⟩ := ih hlen
      have hstep : subtractBe (q :: qs) (y :: ys) = borrowByte (q, y) (subtractBe qs ys) := rfl
      have hq := q.toNat_lt
      have hy := y.toNat_lt
      rw [hstep, borrowByte]
      dsimp only
      split
      · next hneg =>
        have hbyte : ((UInt8.ofNat ((q.toNat : ℤ) - y.toNat - (subtractBe qs ys).2 + 256).toNat).toNat : ℤ) =
            (q.toNat : ℤ) - y.toNat - (subtractBe qs ys).2 + 256 := by
          rw [UInt8.toNat_ofNat']
          omega
        refine ⟨by simp [hout], .inr rfl, ?_⟩
        rw [fromBE_cons, fromBE_cons, fromBE_cons, hout, ← hlen, List.length_cons]
        push_cast
        rw [hbyte, pow_succ]
        linear_combination hvalue
      · next hpos =>
        have hbyte : ((UInt8.ofNat ((q.toNat : ℤ) - y.toNat - (subtractBe qs ys).2).toNat).toNat : ℤ) =
            (q.toNat : ℤ) - y.toNat - (subtractBe qs ys).2 := by
          rw [UInt8.toNat_ofNat']
          omega
        refine ⟨by simp [hout], .inl rfl, ?_⟩
        rw [fromBE_cons, fromBE_cons, fromBE_cons, hout, ← hlen, List.length_cons]
        push_cast
        rw [hbyte]
        linear_combination hvalue

section Negate

theorem fromBE_baseFieldQBe : fromBE baseFieldQBe = baseFieldQ := by decide

theorem isZeroBe_iff {y : Word} : isZeroBe y ↔ y.value = 0 := by
  have hzeros : isZeroBe y ↔ y.bytes = List.replicate 32 0 := by
    rw [isZeroBe, List.all_eq_true, List.eq_replicate_iff]
    simp [y.size]
  have hword : (0 : Word).bytes = List.replicate 32 0 := by decide
  rw [hzeros, Word.value_eq_zero, ← hword]
  exact ⟨fun h => Word.ext h, fun h => h ▸ rfl⟩

theorem value_negateFqBe {y : Word} (hy : y.value < baseFieldQ) :
    (negateFqBe y).value = (baseFieldQ - y.value) % baseFieldQ := by
  rw [negateFqBe]
  split
  · next hzero => rw [isZeroBe_iff.1 hzero, Word.value_zero, Nat.sub_zero, Nat.mod_self]
  · next hzero =>
    have hne : y.value ≠ 0 := fun h => hzero (isZeroBe_iff.2 h)
    have hlen : baseFieldQBe.length = y.bytes.length := y.size.symm
    obtain ⟨hout, hborrow, hvalue⟩ := subtractBe_spec hlen
    have hlt := fromBE_lt (subtractBe baseFieldQBe y.bytes).1
    rw [hout] at hlt
    rw [fromBE_baseFieldQBe] at hvalue
    have hsize : baseFieldQBe.length = 32 := rfl
    rw [hsize] at hlt hvalue
    change (_ : ℤ) + y.value = _ at hvalue
    rw [Word.value, asArr32_bytes (hout.trans hsize), Nat.mod_eq_of_lt (by omega)]
    rcases hborrow with h | h <;> rw [h] at hvalue <;> omega

theorem negateFqBe_eq {y : Word} (hy : y.value < baseFieldQ) :
    negateFqBe y = Word.ofNat ((baseFieldQ - y.value) % baseFieldQ) := by
  refine Word.value_injective ?_
  have hlt := Nat.mod_lt (baseFieldQ - y.value) (show 0 < baseFieldQ by decide)
  rw [value_negateFqBe hy, Word.value_ofNat (hlt.trans (by decide))]

theorem negateFqBe_negateFqBe {y : Word} (hy : y.value < baseFieldQ) : negateFqBe (negateFqBe y) = y := by
  have hneg := value_negateFqBe hy
  have hlt : (negateFqBe y).value < baseFieldQ := hneg ▸ Nat.mod_lt _ (by decide)
  refine Word.value_injective ?_
  rw [value_negateFqBe hlt, hneg]
  rcases Nat.eq_zero_or_pos y.value with hzero | hpos
  · rw [hzero, Nat.sub_zero, Nat.mod_self, Nat.sub_zero, Nat.mod_self]
  · rw [Nat.mod_eq_of_lt (by omega : baseFieldQ - y.value < baseFieldQ), Nat.sub_sub_self hy.le, Nat.mod_eq_of_lt hy]

end Negate

theorem isCanonicalScalarBe_iff (v : Word) : isCanonicalScalarBe v ↔ v.value < snarkScalarField := by
  have hmodulus : fromBE scalarFieldRBe = snarkScalarField := by decide
  rw [isCanonicalScalarBe, ltBe_iff v.size, hmodulus]
  rfl

section Recipient

theorem fromBE_mask (b : UInt8) (bytes : Bytes) :
    fromBE ((b &&& 0x1f) :: bytes) = fromBE (b :: bytes) % (256 ^ bytes.length * 2 ^ 5) := by
  have hlt := fromBE_lt bytes
  have hlow : (b &&& 0x1f).toNat = b.toNat % 2 ^ 5 := by
    rw [UInt8.toNat_and]
    exact Nat.and_two_pow_sub_one_eq_mod b.toNat 5
  have hhigh : (b.toNat * 256 ^ bytes.length + fromBE bytes) / 256 ^ bytes.length = b.toNat := by
    rw [mul_comm, Nat.mul_add_div (by positivity), Nat.div_eq_of_lt hlt, add_zero]
  rw [fromBE_cons, fromBE_cons, hlow, Nat.mod_mul, Nat.mul_add_mod_of_lt hlt, hhigh]
  ring

theorem fromBE_modifyHead {bytes : Bytes} (hlen : bytes.length = 32) :
    fromBE (bytes.modifyHead (· &&& 0x1f)) = fromBE bytes % 2 ^ 253 := by
  cases bytes with
  | nil => simp at hlen
  | cons b bytes =>
    have htail : bytes.length = 31 := by simpa using hlen
    rw [List.modifyHead_cons, fromBE_mask, htail]
    norm_num

variable (address : Word)

theorem value_boundRecipientBe : (boundRecipientBe address).value = address.value % 2 ^ 253 :=
  fromBE_modifyHead address.size

theorem isCanonicalScalarBe_bound : isCanonicalScalarBe (boundRecipientBe address) := by
  have hlt := Nat.mod_lt address.value (show 0 < 2 ^ 253 by decide)
  have hfield : 2 ^ 253 < snarkScalarField := by decide
  rw [isCanonicalScalarBe_iff, value_boundRecipientBe]
  exact hlt.trans hfield

theorem boundWithdrawRecipient_eq {address : Word} {text : List Char} (h : base58ToBytes text = .ok address.bytes) :
    boundWithdrawRecipient text = .ok (numeral 10 (boundRecipientBe address).value) := by
  have hsize := address.size
  rw [boundWithdrawRecipient, h]
  change (do Outcome.require (address.bytes.length = 32) _; _) = _
  rw [hsize]
  rfl

end Recipient

theorem groth16_byte_arithmetic :
    (∀ y : Word, y.value < baseFieldQ →
      negateFqBe y = Word.ofNat ((baseFieldQ - y.value) % baseFieldQ) ∧ (negateFqBe y).value < baseFieldQ ∧
        negateFqBe (negateFqBe y) = y) ∧
    (∀ v : Word, isCanonicalScalarBe v ↔ ∃ n < snarkScalarField, v = Word.ofNat n) ∧
    ∀ address : Word, isCanonicalScalarBe (boundRecipientBe address) ∧
      (boundRecipientBe address).value = address.value % 2 ^ 253 ∧
      boundWithdrawRecipient (bytesToBase58 address.bytes) = .ok (numeral 10 (boundRecipientBe address).value) ∧
      ∀ text, base58ToBytes text = .ok address.bytes →
        boundWithdrawRecipient text = .ok (numeral 10 (boundRecipientBe address).value) := by
  refine ⟨fun y hy => ⟨negateFqBe_eq hy, ?_, negateFqBe_negateFqBe hy⟩, fun v => ?_, fun address => ?_⟩
  · rw [value_negateFqBe hy]
    exact Nat.mod_lt _ (by decide)
  · rw [isCanonicalScalarBe_iff]
    constructor
    · intro hlt
      exact ⟨v.value, hlt, Word.value_injective (Word.value_ofNat v.value_lt).symm⟩
    · rintro ⟨n, hlt, rfl⟩
      rwa [Word.value_ofNat (hlt.trans (by decide))]
  · have hread : base58ToBytes (bytesToBase58 address.bytes) = .ok address.bytes := by
      rw [bytesToBase58_eq, base58ToBytes_iff, b58decode_b58encode]
    exact ⟨isCanonicalScalarBe_bound address, value_boundRecipientBe address, boundWithdrawRecipient_eq hread,
      fun text h => boundWithdrawRecipient_eq h⟩

end Bongtu.Solana
