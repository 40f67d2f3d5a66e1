import Bongtu.ByteOrder
import Bongtu.Core.Address
import Bongtu.Core.PointText
import Mathlib.Data.List.TakeWhile

namespace Bongtu.Core

open Outcome

section Base58

def b58Char (v : ℕ) : Char := b58Alphabet.getD v '1'

theorem idxOf_b58Char {v : ℕ} (h : v < 58) : b58Alphabet.idxOf? (b58Char v) = some v := by
  have hall : ∀ v : Fin 58, b58Alphabet.idxOf? (b58Char v) = some v.1 := by decide +kernel
  exact hall ⟨v, h⟩

theorem b58Char_ne_one {v : ℕ} (h : v < 58) (hne : v ≠ 0) : b58Char v ≠ '1' := by
  intro heq
  have hidx := idxOf_b58Char h
  have hzero : b58Alphabet.idxOf? '1' = some 0 := by decide
  rw [heq, hzero] at hidx
  exact hne (Option.some.inj hidx).symm

theorem b58Char_space {v : ℕ} (h : v < 58) : jsSpace (b58Char v) = false := by
  have hall : ∀ v : Fin 58, jsSpace (b58Char v) = false := by decide +kernel
  exact hall ⟨v, h⟩

theorem b58Char_zero : b58Char 0 = '1' := by decide +kernel

theorem b58_fold {β ε : Type} {f : β → Char → Except ε β} {g : β → ℕ → β} {ds : List ℕ} (h : ∀ v ∈ ds, v < 58)
    (acc : β) (hf : ∀ acc v, v < 58 → f acc (b58Char v) = .ok (g acc v)) :
    (ds.map b58Char).foldlM f acc = .ok (ds.foldl g acc) := by
  induction ds generalizing acc with
  | nil => rfl
  | cons v ds ih =>
    rw [List.map_cons, List.foldlM_cons, hf acc v (h v List.mem_cons_self)]
    exact ih (fun w hw => h w (List.mem_cons_of_mem _ hw)) _

theorem b58decode_map {ds : List ℕ} (h : ∀ v ∈ ds, v < 58) : b58decode (ds.map b58Char) =
    .ok (List.replicate ((ds.map b58Char).takeWhile (· = '1')).length 0 ++
      (Nat.digits 256 (digitsNumber 58 ds)).reverse.map UInt8.ofNat) := by
  unfold b58decode
  rw [b58_fold h]
  · rfl
  · intro acc v hv
    rw [idxOf_b58Char hv]

-- The digits of a number, the highest first, start with none that is zero.
theorem takeWhile_digits {base n : ℕ} (hbase : 1 < base) {z : ℕ → Bool} (hz : ∀ v < base, z v = true → v = 0) :
    (Nat.digits base n).reverse.takeWhile z = [] := by
  rcases List.eq_nil_or_concat (Nat.digits base n) with h | ⟨init, v, h⟩
  · rw [h]
    rfl
  · have hv : v < base := Nat.digits_lt_base hbase (m := n) (by simp [h])
    have hlast := Nat.getLast_digit_ne_zero base (m := n) (by rintro rfl; simp at h)
    simp only [h, List.concat_eq_append, List.getLast_append, List.getLast_singleton] at hlast
    rw [h, List.concat_eq_append, List.reverse_append, List.reverse_singleton, List.singleton_append,
      List.takeWhile_cons_of_neg fun hzero => hlast (hz v hv hzero)]

theorem length_leading_ones (k n : ℕ) :
    (((List.replicate k 0 ++ (Nat.digits 58 n).reverse).map b58Char).takeWhile (· = '1')).length = k := by
  have hfirst : (Nat.digits 58 n).reverse.takeWhile ((fun c => decide (c = '1')) ∘ b58Char) = [] := by
    refine takeWhile_digits (by omega) fun v hv hone => ?_
    by_contra hne
    exact b58Char_ne_one hv hne (by simpa using hone)
  rw [List.takeWhile_map, List.length_map, List.takeWhile_append_of_pos, hfirst, List.append_nil,
    List.length_replicate]
  intro v hv
  rw [List.eq_of_mem_replicate hv]
  simp [b58Char_zero]

theorem fromBE_zeros (k : ℕ) (bytes : Bytes) :
    ByteOrder.fromBE (List.replicate k 0 ++ bytes) = ByteOrder.fromBE bytes := by
  induction k with
  | zero => rfl
  | succ k ih =>
    rw [List.replicate_succ, List.cons_append, ByteOrder.fromBE, List.foldl_cons]
    exact ih

-- Bytes with no zero in front are read back from their number.
theorem digits_fromBE {bytes : Bytes} (h : bytes.head? ≠ some 0) :
    (Nat.digits 256 (ByteOrder.fromBE bytes)).reverse.map UInt8.ofNat = bytes := by
  rw [ByteOrder.fromBE_eq, ByteOrder.fromLE,
    Nat.digits_ofDigits 256 (by omega) _ (fun v hv => ByteOrder.byte_lt hv) ?_, List.map_reverse, List.map_reverse,
    List.map_reverse, List.reverse_reverse, List.map_map]
  · refine (List.map_congr_left fun b _ => ?_).trans (List.map_id _)
    exact UInt8.ofNat_toNat
  · intro hne
    cases bytes with
    | nil => simp at hne
    | cons b bytes =>
      simp only [List.reverse_cons, List.map_append, List.getLast_append, List.map_singleton, List.getLast_singleton]
      intro hzero
      exact h (by rw [List.head?_cons, UInt8.toNat_inj.1 (hzero.trans rfl : b.toNat = (0 : UInt8).toNat)])

theorem b58decode_b58encode (bytes : Bytes) : b58decode (b58encode bytes) = .ok bytes := by
  obtain ⟨rest, hsplit, hhead⟩ : ∃ rest : Bytes,
      bytes = List.replicate (bytes.takeWhile (· = 0)).length 0 ++ rest ∧ rest.head? ≠ some 0 := by
    refine ⟨bytes.dropWhile (· = 0), ?_, ?_⟩
    · conv_lhs => rw [← List.takeWhile_append_dropWhile (p := (· = 0)) (l := bytes)]
      rw [← List.eq_replicate_iff.2 ⟨rfl, fun b hb => by simpa using List.mem_takeWhile_imp hb⟩]
    · intro h
      have hnot := List.head?_dropWhile_not (fun b : UInt8 => decide (b = 0)) bytes
      rw [h] at hnot
      simp at hnot
  have hn : bytes.foldl (fun acc b => acc * 256 + b.toNat) 0 = ByteOrder.fromBE rest := by
    have hzeros := fromBE_zeros (bytes.takeWhile (· = 0)).length rest
    rw [← hsplit] at hzeros
    exact hzeros
  have hdigits : ∀ v ∈ (Nat.digits 58 (ByteOrder.fromBE rest)).reverse, v < 58 := fun v hv =>
    Nat.digits_lt_base (by omega) (List.mem_reverse.1 hv)
  generalize hk : (bytes.takeWhile (· = 0)).length = k at hsplit
  have htext : b58encode bytes =
      (List.replicate k 0 ++ (Nat.digits 58 (ByteOrder.fromBE rest)).reverse).map b58Char := by
    rw [b58encode, hn, hk, List.map_append, List.map_replicate]
    rfl
  have hlt : ∀ v ∈ List.replicate k 0 ++ (Nat.digits 58 (ByteOrder.fromBE rest)).reverse, v < 58 := by
    intro v hv
    rcases List.mem_append.1 hv with hv | hv
    · rw [List.eq_of_mem_replicate hv]
      omega
    · exact hdigits v hv
  have hnumber : digitsNumber 58 (List.replicate k 0 ++ (Nat.digits 58 (ByteOrder.fromBE rest)).reverse) =
      ByteOrder.fromBE rest := by
    rw [digitsNumber_append, digitsNumber_zeros, zero_mul, zero_add, digitsNumber_eq, List.reverse_reverse,
      Nat.ofDigits_digits]
  rw [htext, b58decode_map hlt, length_leading_ones, hnumber, digits_fromBE hhead, ← hsplit]

end Base58

section Texts

theorem trim_of_no_space {cs : List Char} (h : ∀ c ∈ cs, jsSpace c = false) :
    trim (String.ofList cs) = String.ofList cs := by
  have hdrop : ∀ cs : List Char, (∀ c ∈ cs, jsSpace c = false) → cs.dropWhile jsSpace = cs := by
    intro cs h
    cases cs with
    | nil => rfl
    | cons c cs => rw [List.dropWhile_cons_of_neg (by simp [h c List.mem_cons_self])]
  rw [trim, String.toList_ofList, hdrop cs h, hdrop _ fun c hc => h c (List.mem_reverse.1 hc), List.reverse_reverse]

theorem length_strip0x_le (s : String) : (strip0x s).length ≤ s.toList.length := by
  unfold strip0x
  split
  · next h => simp [h]; omega
  · next h => simp [h]; omega
  · exact le_rfl

theorem bytesToHex_eq (bytes : List ℕ) : bytesToHex bytes = String.ofList ('0' :: 'x' :: byteDigits bytes) := by
  rw [← String.toList_inj]
  simp [bytesToHex, byteDigits]

theorem mem_byteDigits {bytes : List ℕ} {c : Char} (h : c ∈ byteDigits bytes) : ∃ v, c = hexChar v := by
  obtain ⟨b, -, hc⟩ := List.mem_flatMap.1 h
  rcases List.mem_pair.1 hc with rfl | rfl
  · exact ⟨_, rfl⟩
  · exact ⟨_, rfl⟩

theorem trim_bytesToHex (bytes : List ℕ) : trim (bytesToHex bytes) = bytesToHex bytes := by
  rw [bytesToHex_eq]
  refine trim_of_no_space fun c hc => ?_
  rcases List.mem_cons.1 hc with rfl | hc
  · rfl
  · rcases List.mem_cons.1 hc with rfl | hc
    · rfl
    · obtain ⟨v, rfl⟩ := mem_byteDigits hc
      exact jsSpace_hexChar v

theorem isHexAddress_bytesToHex {bytes : List ℕ} (hlen : bytes.length = 32) (h : ∀ b ∈ bytes, b < 256) :
    isHexAddress (bytesToHex bytes) := by
  simp only [isHexAddress, strip0x_bytesToHex, length_byteDigits, hlen, decide_eq_true_eq, List.all_eq_true]
  refine ⟨trivial, fun c hc => ?_⟩
  obtain ⟨b, hb, hc⟩ := List.mem_flatMap.1 hc
  have hsmall := h b hb
  rcases List.mem_pair.1 hc with rfl | rfl
  · rw [hexDigit_hexChar (by omega)]
    rfl
  · rw [hexDigit_hexChar (by omega)]
    rfl

end Texts

abbrev Digest := {hash : Bytes // hash.length = 32}

section Encode

variable (sha256 : Bytes → Digest)

-- What an address is the digits of.
def addressBytes (bytes : List ℕ) : Bytes :=
  (addressVersion :: bytes.map UInt8.ofNat) ++
    Curve.checksum4 (fun b => (sha256 b).1) (addressVersion :: bytes.map UInt8.ofNat)

theorem length_checksum4 (body : Bytes) : (Curve.checksum4 (fun b => (sha256 b).1) body).length = 4 := by
  rw [Curve.checksum4, List.length_take, (sha256 _).2]
  rfl

theorem length_addressBytes {bytes : List ℕ} (hlen : bytes.length = 32) :
    (addressBytes sha256 bytes).length = 37 := by
  rw [addressBytes, List.length_append, length_checksum4, List.length_cons, List.length_map, hlen]

variable {sha256}

theorem encodeAddress_bytesToHex {bytes : List ℕ} (hlen : bytes.length = 32) (h : ∀ b ∈ bytes, b < 256) :
    encodeAddress (fun b => (sha256 b).1) (bytesToHex bytes) =
      some (String.ofList (b58encode (addressBytes sha256 bytes))) := by
  simp only [encodeAddress, trim_bytesToHex, isHexAddress_bytesToHex hlen h, if_true, strip0x_bytesToHex,
    hexBytes_byteDigits h, Option.map_some]
  rfl

theorem b58encode_chars {bytes : Bytes} {c : Char} (h : c ∈ b58encode bytes) : ∃ v < 58, c = b58Char v := by
  rcases List.mem_append.1 h with h | h
  · exact ⟨0, by omega, (List.eq_of_mem_replicate h).trans b58Char_zero.symm⟩
  · obtain ⟨v, hv, rfl⟩ := List.mem_map.1 h
    exact ⟨v, Nat.digits_lt_base (by omega) (List.mem_reverse.1 hv), rfl⟩

-- An address is shorter than any hex.
theorem length_b58encode {bytes : List ℕ} (hlen : bytes.length = 32) :
    (b58encode (addressBytes sha256 bytes)).length < 64 := by
  have hn : (addressBytes sha256 bytes).foldl (fun acc b => acc * 256 + b.toNat) 0 < 58 ^ 52 := by
    have hlt := ByteOrder.fromBE_lt (addressBytes sha256 bytes)
    rw [length_addressBytes sha256 hlen] at hlt
    exact hlt.trans (by decide)
  have hdigits := (Nat.digits_length_le_iff (by omega : 1 < 58) _).2 hn
  have hfirst : (addressBytes sha256 bytes).takeWhile (· = 0) = [] := rfl
  rw [b58encode, hfirst, List.length_append, List.length_replicate, List.length_map, List.length_reverse]
  exact lt_of_le_of_lt (Nat.add_le_add_left hdigits _) (by decide)

theorem decodeAddress_encode {bytes : List ℕ} (hlen : bytes.length = 32) (h : ∀ b ∈ bytes, b < 256) {q : Point}
    (hq : babyJub.unpackPubkey (bytesToHex bytes) = .ok q) :
    babyJub.decodeAddress (fun b => (sha256 b).1) (String.ofList (b58encode (addressBytes sha256 bytes))) =
      .ok (bytesToHex bytes) := by
  have htrim : trim (String.ofList (b58encode (addressBytes sha256 bytes))) =
      String.ofList (b58encode (addressBytes sha256 bytes)) := by
    refine trim_of_no_space fun c hc => ?_
    obtain ⟨v, hv, rfl⟩ := b58encode_chars hc
    exact b58Char_space hv
  have hnot : isHexAddress (String.ofList (b58encode (addressBytes sha256 bytes))) = false := by
    have hshort := length_strip0x_le (String.ofList (b58encode (addressBytes sha256 bytes)))
    have hlong : (b58encode (addressBytes sha256 bytes)).length < 64 := length_b58encode hlen
    rw [String.toList_ofList] at hshort
    rw [isHexAddress, decide_eq_false_iff_not]
    omega
  have hdecode := b58decode_b58encode (addressBytes sha256 bytes)
  have hlength := length_addressBytes sha256 hlen
  have hne : String.ofList (b58encode (addressBytes sha256 bytes)) ≠ "" := by
    intro hempty
    rw [String.ofList_eq_empty_iff.1 hempty] at hdecode
    rw [← Except.ok.inj hdecode] at hlength
    exact absurd hlength (by decide)
  have hbody : (addressBytes sha256 bytes).take 33 = addressVersion :: bytes.map UInt8.ofNat :=
    List.take_left' (by simp [hlen])
  have hcheck : Curve.checksum4 (fun b => (sha256 b).1) (addressVersion :: bytes.map UInt8.ofNat) =
      (addressBytes sha256 bytes).drop 33 :=
    (List.drop_left' (by simp [hlen])).symm
  have hbytes : (bytes.map UInt8.ofNat).map (·.toNat) = bytes := by
    rw [List.map_map]
    refine (List.map_congr_left fun b hb => ?_).trans (List.map_id _)
    exact UInt8.toNat_ofNat_of_lt (h b hb)
  unfold Curve.decodeAddress
  simp only [htrim, hnot, Bool.false_eq_true, if_false, bind_ok, require_ok, mapError_ok, String.toList_ofList]
  refine ⟨(), hne, _, hdecode, (), hlength, (), ?_, (), ?_, q, ?_, ?_⟩
  · rw [hbody, hcheck]
  · rw [hbody]
    rfl
  · rw [hbody, List.drop_one, List.tail_cons, hbytes]
    exact hq
  · rw [hbody, List.drop_one, List.tail_cons, hbytes]
    rfl

end Encode

section Decode

variable {sha256 : Bytes → Digest} {input h : String}

-- The bytes of a key that a text spells.
def payload (input : String) : Option (List ℕ) :=
  let v := trim input
  if isHexAddress v then hexBytes (strip0x v)
  else (b58decode v.toList).toOption.map fun bytes => ((bytes.take 33).drop 1).map (·.toNat)

theorem decodeAddress_ok (hinput : babyJub.decodeAddress (fun b => (sha256 b).1) input = .ok h) :
    ∃ bytes q, payload input = some bytes ∧ bytes.length = 32 ∧ (∀ b ∈ bytes, b < 256) ∧ h = bytesToHex bytes ∧
      babyJub.unpackPubkey h = .ok q := by
  unfold Curve.decodeAddress at hinput
  unfold payload
  dsimp only at hinput ⊢
  split at hinput
  · next hhex =>
    simp only [bind_ok, mapError_ok] at hinput
    obtain ⟨q, hq, hh⟩ := hinput
    obtain ⟨bytes, hbytes, hlen⟩ := hexBytes_of_unpackPubkey hq
    obtain ⟨hsmall, hdigits⟩ := hexBytes_some hbytes
    have hcount := congrArg List.length hdigits
    rw [List.length_map, hlen, length_byteDigits] at hcount
    have heq : h = bytesToHex bytes := by
      rw [← Except.ok.inj hh, hdigits, ← String.toList_inj]
      simp [bytesToHex, byteDigits]
    refine ⟨bytes, q, by rw [if_pos hhex, hbytes], by omega, hsmall, heq, ?_⟩
    rw [unpackPubkey_eq hbytes hlen] at hq
    rw [heq, unpackPubkey_eq (by rw [strip0x_bytesToHex, hexBytes_byteDigits hsmall])
      (by rw [strip0x_bytesToHex, length_byteDigits]; omega), hq]
  · next hhex =>
    simp only [bind_ok, require_ok, mapError_ok] at hinput
    obtain ⟨-, -, bytes, hbytes, -, hlen, -, -, -, -, q, hq, hh⟩ := hinput
    obtain rfl := Except.ok.inj hh
    refine ⟨((bytes.take 33).drop 1).map (·.toNat), q, by rw [if_neg hhex, hbytes]; rfl, by simp [hlen], ?_, rfl, hq⟩
    intro b hb
    obtain ⟨b, -, rfl⟩ := List.mem_map.1 hb
    exact b.toNat_lt

-- A spelling of a point of x zero with the sign bit set.
def SignedZero (input : String) : Prop :=
  ∃ bytes ∈ payload input, packedWord bytes = 2 ^ 255 + 1 ∨ packedWord bytes = 2 ^ 255 + (snarkScalarField - 1)

theorem x_eq_zero_iff {q : Point} (hx : q.1 < snarkScalarField) (hy : q.2 < snarkScalarField)
    (hcurve : isOnCurve q) : q.1 = 0 ↔ q.2 = 1 ∨ q.2 = snarkScalarField - 1 := by
  have hholds : (168700 : BabyJub.Field) * (q.1 : BabyJub.Field) ^ 2 + (q.2 : BabyJub.Field) ^ 2 =
      1 + 168696 * (q.1 : BabyJub.Field) ^ 2 * (q.2 : BabyJub.Field) ^ 2 := isOnCurve_iff.1 hcurve
  have hminus : ((snarkScalarField - 1 : ℕ) : BabyJub.Field) = -1 := by
    rw [Nat.cast_sub (by decide), ZMod.natCast_self, Nat.cast_one, zero_sub]
  have hone : (q.2 = 1 ∨ q.2 = snarkScalarField - 1) ↔ (q.2 : BabyJub.Field) ^ 2 = 1 := by
    rw [pow_two, mul_self_eq_one_iff]
    refine or_congr ⟨fun heq => by rw [heq, Nat.cast_one], fun heq => natCast_inj hy (by decide) ?_⟩
      ⟨fun heq => by rw [heq, hminus], fun heq => natCast_inj hy (by decide) (heq.trans hminus.symm)⟩
    rw [heq, Nat.cast_one]
  rw [hone]
  constructor
  · intro hzero
    rw [hzero] at hholds
    linear_combination hholds
  · intro hsq
    have hzero : (q.1 : BabyJub.Field) ^ 2 = 0 := by
      have hfour : (4 : BabyJub.Field) ≠ 0 := by decide
      have hprod : (4 : BabyJub.Field) * (q.1 : BabyJub.Field) ^ 2 = 0 := by
        linear_combination hholds + (168696 * (q.1 : BabyJub.Field) ^ 2 - 1) * hsq
      exact (mul_eq_zero.1 hprod).resolve_left hfour
    exact natCast_inj hx (by decide) (by rw [Nat.cast_zero, pow_eq_zero_iff two_ne_zero |>.1 hzero])

theorem bytesToHex_injective {bytes bytes' : List ℕ} (h : ∀ b ∈ bytes, b < 256) (h' : ∀ b ∈ bytes', b < 256)
    (heq : bytesToHex bytes = bytesToHex bytes') : bytes = bytes' := by
  have hstrip := congrArg (fun s => hexBytes (strip0x s)) heq
  simp only [strip0x_bytesToHex, hexBytes_byteDigits h, hexBytes_byteDigits h'] at hstrip
  exact Option.some.inj hstrip

-- The text returned is that of the point but for these spellings.
theorem canonical_iff (hinput : babyJub.decodeAddress (fun b => (sha256 b).1) input = .ok h) {q : Point}
    (hq : babyJub.unpackPubkey h = .ok q) : h = packPubkey q ↔ ¬ SignedZero input := by
  obtain ⟨bytes, -, hpayload, hlen, hsmall, rfl, -⟩ := decodeAddress_ok hinput
  have hword : packedWord bytes < 2 ^ 256 := by
    have hlt := packedWord_lt hsmall
    rw [hlen] at hlt
    exact hlt.trans_eq (by decide)
  rw [unpackPubkey_eq (by rw [strip0x_bytesToHex, hexBytes_byteDigits hsmall])
    (by rw [strip0x_bytesToHex, length_byteDigits]; omega)] at hq
  obtain ⟨hy, ⟨hxlt, hylt⟩, hcurve, hparity⟩ := unpackWord_ok hq hword
  have hP : snarkScalarField < 2 ^ 255 := by decide
  have hpack : bytesToHex bytes = packPubkey q ↔ packedWord bytes = q.2 + 2 ^ 255 * (q.1 % 2) := by
    rw [packPubkey_eq, ← packedWord_packBytes (hylt.trans hP)]
    refine ⟨fun heq => by rw [bytesToHex_injective hsmall packBytes_lt heq], fun heq => ?_⟩
    rw [packedWord_injective (hlen.trans (length_packBytes q).symm) hsmall packBytes_lt heq]
  have hsplit : packedWord bytes = q.2 + 2 ^ 255 * (packedWord bytes / 2 ^ 255) := by
    rw [hy]
    exact (Nat.mod_add_div _ _).symm
  have hsign : packedWord bytes / 2 ^ 255 < 2 := Nat.div_lt_of_lt_mul (by rw [← pow_succ]; exact hword)
  have hsigned : SignedZero input ↔
      packedWord bytes = 2 ^ 255 + 1 ∨ packedWord bytes = 2 ^ 255 + (snarkScalarField - 1) := by
    rw [SignedZero, hpayload]
    exact ⟨fun ⟨_, hmem, hor⟩ => Option.mem_some.1 hmem ▸ hor, fun hor => ⟨bytes, rfl, hor⟩⟩
  have hzero := x_eq_zero_iff hxlt hylt hcurve
  rw [hpack, hsigned]
  generalize packedWord bytes / 2 ^ 255 = sign at *
  generalize (2 : ℕ) ^ 255 = B at *
  by_cases hx : q.1 = 0
  · rw [hx, Nat.zero_mod, mul_zero, add_zero]
    have hor := hzero.1 hx
    interval_cases sign <;> omega
  · have hne := hzero.not.1 hx
    rw [hparity hx]
    interval_cases sign <;> omega

end Decode

-- One point is one text, which an address keeps, when and only when it is spelled with no sign bit over
-- an x of zero.
theorem address_canonical_iff (sha256 : Bytes → Digest) :
    (∀ u v h h' q, babyJub.decodeAddress (fun b => (sha256 b).1) u = .ok h →
      babyJub.decodeAddress (fun b => (sha256 b).1) v = .ok h' →
      babyJub.unpackPubkey h = .ok q → babyJub.unpackPubkey h' = .ok q →
      ((h = h' ∧ h = packPubkey q) ↔ ¬ SignedZero u ∧ ¬ SignedZero v)) ∧
    ∀ bytes q, bytes.length = 32 → (∀ b ∈ bytes, b < 256) → babyJub.unpackPubkey (bytesToHex bytes) = .ok q →
      ∃ address, encodeAddress (fun b => (sha256 b).1) (bytesToHex bytes) = some address ∧
        babyJub.decodeAddress (fun b => (sha256 b).1) address = .ok (bytesToHex bytes) := by
  refine ⟨fun u v h h' q hu hv hq hq' => ?_, fun bytes q hlen hsmall hq =>
    ⟨_, encodeAddress_bytesToHex hlen hsmall, decodeAddress_encode hlen hsmall hq⟩⟩
  rw [← canonical_iff hu hq, ← canonical_iff hv hq']
  exact ⟨fun ⟨heq, hpack⟩ => ⟨hpack, heq ▸ hpack⟩, fun ⟨hpack, hpack'⟩ => ⟨hpack.trans hpack'.symm, hpack⟩⟩

-- The identity, accepted with the sign bit and without.
theorem identity_two_spellings : ¬ ∀ u v h h' q,
    babyJub.decodeAddress (fun _ => List.replicate 32 0) u = .ok h →
      babyJub.decodeAddress (fun _ => List.replicate 32 0) v = .ok h' →
        babyJub.unpackPubkey h = .ok q → babyJub.unpackPubkey h' = .ok q → h = h' := by
  intro hclaim
  have hsame := hclaim "0x0100000000000000000000000000000000000000000000000000000000000000"
    "0x0100000000000000000000000000000000000000000000000000000000000080" _ _ (0, 1)
    (by decide +kernel : _ = Except.ok "0x0100000000000000000000000000000000000000000000000000000000000000")
    (by decide +kernel : _ = Except.ok "0x0100000000000000000000000000000000000000000000000000000000000080")
    (by decide +kernel) (by decide +kernel)
  exact absurd hsame (by decide)

end Bongtu.Core
