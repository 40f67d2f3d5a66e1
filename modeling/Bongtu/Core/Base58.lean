import Bongtu.Core.AddressTrip
import Bongtu.Radix

namespace Bongtu.Core

open ByteOrder Radix

inductive Base58Error where
  | invalidCharacter (c : Char)
deriving DecidableEq, Repr

def base58ToBytes (s : List Char) : Except Base58Error Bytes := do
  let digits ← s.foldlM (fun (digits : List ℕ) (ch : Char) =>
    match b58Alphabet.idxOf? ch with
    | none => .error (.invalidCharacter ch)
    | some v => .ok (mulAdd 256 58 digits v)) []
  let zeros := (s.findIdx? (· ≠ '1')).getD s.length
  return List.replicate zeros 0 ++ digits.reverse.map UInt8.ofNat

def bytesToBase58 (bytes : Bytes) : List Char :=
  let digits := bytes.foldl (fun digits byte => mulAdd 58 256 digits byte.toNat) []
  let zeros := (bytes.findIdx? (· ≠ 0)).getD bytes.length
  List.replicate zeros '1' ++ digits.reverse.map fun d => b58Alphabet.getD d '1'

theorem findIdx_getD {α : Type} (p : α → Bool) (xs : List α) :
    (xs.findIdx? fun x => !p x).getD xs.length = (xs.takeWhile p).length := by
  induction xs with
  | nil => rfl
  | cons x xs ih =>
    cases hp : p x
    · simp [List.findIdx?_cons, hp]
    · rw [List.findIdx?_cons, hp, List.takeWhile_cons_of_pos hp, List.length_cons, List.length_cons, ← ih]
      cases xs.findIdx? fun x => !p x <;> simp

theorem bytesToBase58_eq (bytes : Bytes) : bytesToBase58 bytes = b58encode bytes := by
  have hdigits : (bytes.map UInt8.toNat).foldl (mulAdd 58 256) (Nat.digits 58 0) = _ :=
    foldl_mulAdd (by omega) (by omega) _ 0
  rw [List.foldl_map, List.foldl_map, Nat.digits_zero] at hdigits
  have hzeros := findIdx_getD (fun b : UInt8 => decide (b = 0)) bytes
  simp only [← decide_not] at hzeros
  rw [bytesToBase58, hdigits]
  simp only [ne_eq, hzeros]
  rfl

section Texts

variable {ε : Type} {s : List Char} {bytes : Bytes}

theorem exists_digits_of_fold {β : Type} {f : β → Char → Except ε β} {a b : β}
    (hf : ∀ a c b, b58Alphabet.idxOf? c = none → f a c ≠ .ok b) (h : s.foldlM f a = .ok b) :
    ∃ ds : List ℕ, (∀ d ∈ ds, d < 58) ∧ s = ds.map b58Char := by
  induction s generalizing a with
  | nil => exact ⟨[], by simp, rfl⟩
  | cons c s ih =>
    rw [List.foldlM_cons] at h
    obtain ⟨a', ha', h⟩ := Outcome.bind_ok.mp h
    obtain ⟨v, hv⟩ := Option.ne_none_iff_exists'.1 fun hnone => hf a c a' hnone ha'
    obtain ⟨ds, hds, rfl⟩ := ih h
    obtain ⟨hlt, hget, -⟩ := List.idxOf?_eq_some_iff.1 hv
    refine ⟨v :: ds, List.forall_mem_cons.2 ⟨hlt, hds⟩, ?_⟩
    rw [List.map_cons, b58Char, List.getD_eq_getElem?_getD, List.getElem?_eq_getElem hlt, Option.getD_some, hget]

theorem digits_of_b58decode (h : b58decode s = .ok bytes) :
    ∃ ds : List ℕ, (∀ d ∈ ds, d < 58) ∧ s = ds.map b58Char := by
  obtain ⟨n, hn, -⟩ := Outcome.bind_ok.mp h
  exact exists_digits_of_fold (fun n c m hnone => by simp [hnone]) hn

theorem digits_of_base58ToBytes (h : base58ToBytes s = .ok bytes) :
    ∃ ds : List ℕ, (∀ d ∈ ds, d < 58) ∧ s = ds.map b58Char := by
  obtain ⟨digits, hdigits, -⟩ := Outcome.bind_ok.mp h
  exact exists_digits_of_fold (fun n c m hnone => by simp [hnone]) hdigits

theorem base58ToBytes_map {ds : List ℕ} (h : ∀ d ∈ ds, d < 58) :
    (base58ToBytes (ds.map b58Char)).toOption = (b58decode (ds.map b58Char)).toOption := by
  have hcarried : ds.foldl (mulAdd 256 58) (Nat.digits 256 0) = _ := foldl_mulAdd (by omega) (by omega) ds 0
  rw [Nat.digits_zero] at hcarried
  have hzeros := findIdx_getD (fun c : Char => decide (c = '1')) (ds.map b58Char)
  simp only [← decide_not] at hzeros
  rw [b58decode_map h, base58ToBytes, b58_fold (g := mulAdd 256 58) h, hcarried]
  · simp only [ne_eq, hzeros]
    rfl
  · intro digits v hv
    rw [idxOf_b58Char hv]

theorem base58ToBytes_iff : base58ToBytes s = .ok bytes ↔ b58decode s = .ok bytes := by
  have hsome : ∀ {ε : Type} {x : Except ε Bytes}, x = .ok bytes ↔ x.toOption = some bytes := by
    intro ε x
    cases x <;> simp [Except.toOption]
  constructor
  · intro h
    obtain ⟨ds, hds, rfl⟩ := digits_of_base58ToBytes h
    rwa [hsome, ← base58ToBytes_map hds, ← hsome]
  · intro h
    obtain ⟨ds, hds, rfl⟩ := digits_of_b58decode h
    rwa [hsome, base58ToBytes_map hds, ← hsome]

theorem fromBE_digits (n : ℕ) : fromBE ((Nat.digits 256 n).reverse.map UInt8.ofNat) = n := by
  have hbytes : ((Nat.digits 256 n).map UInt8.ofNat).map UInt8.toNat = Nat.digits 256 n := by
    rw [List.map_map]
    refine (List.map_congr_left fun v hv => ?_).trans (List.map_id _)
    exact UInt8.toNat_ofNat_of_lt' (Nat.digits_lt_base (by decide) hv)
  rw [fromBE_eq, fromLE, ← List.map_reverse, List.reverse_reverse, hbytes, Nat.ofDigits_digits]

theorem b58encode_zeros (k n : ℕ) :
    b58encode (List.replicate k 0 ++ (Nat.digits 256 n).reverse.map UInt8.ofNat) =
      (List.replicate k 0 ++ (Nat.digits 58 n).reverse).map b58Char := by
  have hnumber := (fromBE_zeros k ((Nat.digits 256 n).reverse.map UInt8.ofNat)).trans (fromBE_digits n)
  have hfirst : ((Nat.digits 256 n).reverse.map UInt8.ofNat).takeWhile (· = 0) = [] := by
    rw [List.takeWhile_map, takeWhile_digits (by omega), List.map_nil]
    intro v hv hzero
    have hval : UInt8.ofNat v = 0 := by simpa using hzero
    simpa [Nat.mod_eq_of_lt hv] using congrArg UInt8.toNat hval
  rw [b58encode, List.takeWhile_append_of_pos (fun b hb => by simp [List.eq_of_mem_replicate hb]), hfirst,
    List.append_nil, List.length_replicate, List.map_append, List.map_replicate, b58Char_zero]
  exact congrArg (fun m => List.replicate k '1' ++ (Nat.digits 58 m).reverse.map b58Char) hnumber

theorem b58encode_b58decode (h : b58decode s = .ok bytes) : b58encode bytes = s := by
  obtain ⟨ds, hds, rfl⟩ := digits_of_b58decode h
  have hsplit := eq_zeros_append_digits (by omega) hds
  have hread := b58decode_map hds
  rw [digitsNumber_eq] at hread
  generalize Nat.ofDigits 58 ds.reverse = n at hsplit hread
  generalize (ds.takeWhile (· = 0)).length = k at hsplit
  subst hsplit
  rw [h, length_leading_ones] at hread
  rw [Except.ok.inj hread, b58encode_zeros]

end Texts

theorem base58_codecs (bytes : Bytes) (s : List Char) :
    (bytesToBase58 bytes = b58encode bytes ∧ base58ToBytes (bytesToBase58 bytes) = .ok bytes ∧
      b58decode (b58encode bytes) = .ok bytes) ∧
    (base58ToBytes s = .ok bytes → bytesToBase58 bytes = s) ∧
    (b58decode s = .ok bytes → b58encode bytes = s) ∧
    (base58ToBytes s = .ok bytes ↔ b58decode s = .ok bytes) := by
  refine ⟨⟨bytesToBase58_eq bytes, ?_, b58decode_b58encode bytes⟩, fun h => ?_, b58encode_b58decode, base58ToBytes_iff⟩
  · rw [bytesToBase58_eq, base58ToBytes_iff, b58decode_b58encode]
  · rw [bytesToBase58_eq, b58encode_b58decode (base58ToBytes_iff.1 h)]

end Bongtu.Core
