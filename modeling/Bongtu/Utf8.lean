import Mathlib.Tactic

namespace Utf8

def replacement : Char := '\uFFFD'

def byteOrderMark : Char := '\uFEFF'

def encode (cs : List Char) : List UInt8 := cs.flatMap String.utf8EncodeChar

-- A sequence begun: its bits so far, the range of its next byte, and how many bytes it still wants.
structure Pending where
  codePoint : ℕ
  lower : ℕ
  upper : ℕ
  left : ℕ

inductive Lead where
  | char (c : Char)
  | pending (p : Pending)

def lead (b : ℕ) : Lead :=
  if b ≤ 0x7F then .char (Char.ofNat b)
  else if 0xC2 ≤ b ∧ b ≤ 0xDF then .pending ⟨b % 0x20, 0x80, 0xBF, 1⟩
  else if 0xE0 ≤ b ∧ b ≤ 0xEF then
    .pending ⟨b % 0x10, if b = 0xE0 then 0xA0 else 0x80, if b = 0xED then 0x9F else 0xBF, 2⟩
  else if 0xF0 ≤ b ∧ b ≤ 0xF4 then
    .pending ⟨b % 0x08, if b = 0xF0 then 0x90 else 0x80, if b = 0xF4 then 0x8F else 0xBF, 3⟩
  else .char replacement

-- A byte that does not continue the sequence ends it with a replacement and is read as a first byte.
def decodeFrom : Option Pending → List UInt8 → List Char
  | none, [] => []
  | some _, [] => [replacement]
  | none, b :: bytes =>
    match lead b.toNat with
    | .char c => c :: decodeFrom none bytes
    | .pending p => decodeFrom (some p) bytes
  | some p, b :: bytes =>
    if p.lower ≤ b.toNat ∧ b.toNat ≤ p.upper then
      let codePoint := p.codePoint * 0x40 + b.toNat % 0x40
      if p.left = 1 then Char.ofNat codePoint :: decodeFrom none bytes
      else decodeFrom (some ⟨codePoint, 0x80, 0xBF, p.left - 1⟩) bytes
    else
      replacement ::
        match lead b.toNat with
        | .char c => c :: decodeFrom none bytes
        | .pending p => decodeFrom (some p) bytes

def decode (bytes : List UInt8) : List Char := decodeFrom none bytes

-- A byte order mark at the start is dropped.
def stripMark : List Char → List Char
  | [] => []
  | c :: cs => if c = byteOrderMark then cs else c :: cs

section RoundTrip

variable {bytes : List UInt8}

theorem decodeFrom_continue {p : Pending} {n : ℕ} (hn : n < 256) (h : p.lower ≤ n ∧ n ≤ p.upper) (hleft : p.left ≠ 1) :
    decodeFrom (some p) (UInt8.ofNat n :: bytes) =
      decodeFrom (some ⟨p.codePoint * 0x40 + n % 0x40, 0x80, 0xBF, p.left - 1⟩) bytes := by
  have hbyte : (UInt8.ofNat n).toNat = n := UInt8.toNat_ofNat_of_lt' hn
  rw [decodeFrom, hbyte, if_pos h]
  exact if_neg hleft

theorem decodeFrom_last {p : Pending} {n : ℕ} (hn : n < 256) (h : p.lower ≤ n ∧ n ≤ p.upper) (hleft : p.left = 1) :
    decodeFrom (some p) (UInt8.ofNat n :: bytes) =
      Char.ofNat (p.codePoint * 0x40 + n % 0x40) :: decodeFrom none bytes := by
  have hbyte : (UInt8.ofNat n).toNat = n := UInt8.toNat_ofNat_of_lt' hn
  rw [decodeFrom, hbyte, if_pos h]
  exact if_pos hleft

theorem decodeFrom_lead {n : ℕ} (hn : n < 256) :
    decodeFrom none (UInt8.ofNat n :: bytes) =
      match lead n with
      | .char c => c :: decodeFrom none bytes
      | .pending p => decodeFrom (some p) bytes := by
  have hbyte : (UInt8.ofNat n).toNat = n := UInt8.toNat_ofNat_of_lt' hn
  rw [decodeFrom, hbyte]

theorem decodeFrom_encodeChar (c : Char) :
    decodeFrom none (String.utf8EncodeChar c ++ bytes) = c :: decodeFrom none bytes := by
  obtain ⟨v, hv⟩ : ∃ v, v = c.toNat := ⟨_, rfl⟩
  have hchar : Char.ofNat v = c := by rw [hv, Char.ofNat_toNat]
  have hvalid : v < 0xD800 ∨ 0xDFFF < v ∧ v < 0x110000 := by rw [hv]; exact c.valid
  have hencode : String.utf8EncodeChar c = if v ≤ 0x7f then [UInt8.ofNat v]
      else if v ≤ 0x7ff then [UInt8.ofNat (v / 64 % 0x20 + 0xc0), UInt8.ofNat (v % 0x40 + 0x80)]
      else if v ≤ 0xffff then
        [UInt8.ofNat (v / 4096 % 0x10 + 0xe0), UInt8.ofNat (v / 64 % 0x40 + 0x80), UInt8.ofNat (v % 0x40 + 0x80)]
      else [UInt8.ofNat (v / 262144 % 0x08 + 0xf0), UInt8.ofNat (v / 4096 % 0x40 + 0x80),
        UInt8.ofNat (v / 64 % 0x40 + 0x80), UInt8.ofNat (v % 0x40 + 0x80)] := by
    rw [hv]
    rfl
  rw [hencode, ← hchar]
  split
  · next h1 =>
    rw [List.singleton_append, decodeFrom_lead (by omega), lead, if_pos h1]
  · split
    · next h1 h2 =>
      rw [List.cons_append, decodeFrom_lead (by omega), lead, if_neg (by omega), if_pos (by omega)]
      dsimp only
      rw [List.singleton_append, decodeFrom_last (by omega) (by dsimp only; omega) rfl]
      congr 2
      dsimp only
      omega
    · split
      · next h1 h2 h3 =>
        rw [List.cons_append, decodeFrom_lead (by omega), lead, if_neg (by omega), if_neg (by omega), if_pos (by omega)]
        dsimp only
        rw [List.cons_append, decodeFrom_continue (by omega) (by dsimp only; split_ifs <;> omega) (by simp),
          List.singleton_append, decodeFrom_last (by omega) (by dsimp only; omega) rfl]
        congr 2
        dsimp only
        omega
      · next h1 h2 h3 =>
        rw [List.cons_append, decodeFrom_lead (by omega), lead, if_neg (by omega), if_neg (by omega), if_neg (by omega),
          if_pos (by omega)]
        dsimp only
        rw [List.cons_append, decodeFrom_continue (by omega) (by dsimp only; split_ifs <;> omega) (by simp),
          List.cons_append, decodeFrom_continue (by omega) (by dsimp only; omega) (by simp),
          List.singleton_append, decodeFrom_last (by omega) (by dsimp only; omega) rfl]
        congr 2
        dsimp only
        omega

theorem decode_encode (cs : List Char) : decode (encode cs) = cs := by
  induction cs with
  | nil => rfl
  | cons c cs ih =>
    rw [encode, List.flatMap_cons, decode, decodeFrom_encodeChar]
    exact congrArg (c :: ·) ih

theorem encode_injective : Function.Injective encode := fun cs cs' h => by
  rw [← decode_encode cs, h, decode_encode]

end RoundTrip

end Utf8
