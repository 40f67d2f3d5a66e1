import Bongtu.Core.SqrtMod

namespace Bongtu.Core

-- 29 calls are enough for the root, as `sqrtMod_square` says.
def BabyJub.xRoot (y : ℕ) : Option ℕ :=
  let y2 := mod (y * y)
  let num := mod (1 - y2)
  let den := mod (a - mod (d * y2))
  let x2 := mod (num * inv den)
  (sqrtMod 29 x2).join.map Int.toNat

def BabyJub.toBig (q : Point) : BigPoint := (q.1, q.2)

def BabyJub.ofBig (q : BigPoint) : Point := (q.1.toNat, q.2.toNat)

open BabyJub in
def babyJub : Curve where
  base8 := ofBig base8
  addPoint p q := ofBig (addPoint (toBig p) (toBig q))
  mulPointEscalar q k := ofBig (((mulPointEscalar (toBig q) k).toOption).getD identity)
  xRoot := xRoot

section Hex

theorem digit_of_range {lo hi c : Char} (value : ℕ → ℕ) {n : ℕ} (hc : lo ≤ c ∧ c ≤ hi) (hn : some (value c.toNat) = some n)
    (hall : ∀ k, lo.toNat ≤ k → k ≤ hi.toNat → value k < 16 ∧ lowerChar (Char.ofNat k) = hexChar (value k)) :
    n < 16 ∧ lowerChar c = hexChar n := by
  obtain rfl := Option.some.inj hn
  simpa only [Char.ofNat_toNat] using hall c.toNat hc.1 hc.2

-- A digit is one of the alphabet, in either case.
theorem hexDigit_some {c : Char} {n : ℕ} (h : hexDigit c = some n) : n < 16 ∧ lowerChar c = hexChar n := by
  unfold hexDigit at h
  split at h
  · next hdigit =>
    refine digit_of_range (fun k => k - '0'.toNat) hdigit h fun k hlo hhi => ?_
    change 48 ≤ k at hlo
    change k ≤ 57 at hhi
    interval_cases k <;> exact ⟨by decide, rfl⟩
  · split at h
    · next hletter =>
      refine digit_of_range (fun k => k - 'a'.toNat + 10) hletter h fun k hlo hhi => ?_
      change 97 ≤ k at hlo
      change k ≤ 102 at hhi
      interval_cases k <;> exact ⟨by decide, rfl⟩
    · split at h
      · next hletter =>
        refine digit_of_range (fun k => k - 'A'.toNat + 10) hletter h fun k hlo hhi => ?_
        change 65 ≤ k at hlo
        change k ≤ 70 at hhi
        interval_cases k <;> exact ⟨by decide, rfl⟩
      · exact absurd h (by simp)

-- The digits of bytes, two to a byte.
def byteDigits (bytes : List ℕ) : List Char := bytes.flatMap fun b => [hexChar (b / 16), hexChar (b % 16)]

theorem hexBytes_byteDigits {bytes : List ℕ} (h : ∀ b ∈ bytes, b < 256) : hexBytes (byteDigits bytes) = some bytes := by
  induction bytes with
  | nil => rfl
  | cons b bytes ih =>
    have hb : b < 256 := h b List.mem_cons_self
    have hrest := ih fun b' hb' => h b' (List.mem_cons_of_mem _ hb')
    change hexBytes (hexChar (b / 16) :: hexChar (b % 16) :: byteDigits bytes) = _
    rw [hexBytes, hexDigit_hexChar (by omega), hexDigit_hexChar (by omega), hrest]
    simp only [Option.bind_eq_bind, Option.bind_some, Option.pure_def]
    rw [Nat.div_add_mod']

theorem strip0x_bytesToHex (bytes : List ℕ) : strip0x (bytesToHex bytes) = byteDigits bytes := by
  have hlist : (bytesToHex bytes).toList = '0' :: 'x' :: byteDigits bytes := by
    simp [bytesToHex, byteDigits]
  simp [strip0x, hlist]

theorem length_byteDigits (bytes : List ℕ) : (byteDigits bytes).length = 2 * bytes.length := by
  induction bytes with
  | nil => rfl
  | cons b bytes ih =>
    change (hexChar (b / 16) :: hexChar (b % 16) :: byteDigits bytes).length = _
    rw [List.length_cons, List.length_cons, ih, List.length_cons]
    ring

-- Bytes read from digits are these digits in lower case.
theorem hexBytes_some {cs : List Char} {bytes : List ℕ} (h : hexBytes cs = some bytes) :
    (∀ b ∈ bytes, b < 256) ∧ cs.map lowerChar = byteDigits bytes := by
  induction cs using hexBytes.induct generalizing bytes with
  | case1 =>
    obtain rfl := Option.some.inj h
    exact ⟨by simp, rfl⟩
  | case2 c => exact absurd h (by simp [hexBytes])
  | case3 c c' rest ih =>
    rw [hexBytes] at h
    simp only [Option.bind_eq_bind, Option.bind_eq_some_iff, Option.pure_def, Option.some.injEq] at h
    obtain ⟨hi, hhi, lo, hlo, bytes, hbytes, rfl⟩ := h
    obtain ⟨hsmall, hdigits⟩ := ih hbytes
    obtain ⟨hhi', hhilower⟩ := hexDigit_some hhi
    obtain ⟨hlo', hlolower⟩ := hexDigit_some hlo
    refine ⟨?_, ?_⟩
    · rintro b (_ | ⟨_, hb⟩)
      · omega
      · exact hsmall b hb
    · rw [List.map_cons, List.map_cons, hdigits, hhilower, hlolower]
      change _ = hexChar ((hi * 16 + lo) / 16) :: hexChar ((hi * 16 + lo) % 16) :: byteDigits bytes
      rw [show (hi * 16 + lo) / 16 = hi by omega, show (hi * 16 + lo) % 16 = lo by omega]

end Hex

section Words

-- The number that little-endian bytes are.
def packedWord (bytes : List ℕ) : ℕ := bytes.foldr (fun b n => n * 256 + b) 0

theorem packedWord_eq (bytes : List ℕ) : packedWord bytes = Nat.ofDigits 256 bytes := by
  rw [Nat.ofDigits_eq_foldr, packedWord]
  congr 1
  funext b n
  rw [Nat.cast_id]
  ring

theorem packedWord_injective {bytes bytes' : List ℕ} (hlen : bytes.length = bytes'.length)
    (h : ∀ b ∈ bytes, b < 256) (h' : ∀ b ∈ bytes', b < 256) (heq : packedWord bytes = packedWord bytes') :
    bytes = bytes' := by
  rw [packedWord_eq, packedWord_eq] at heq
  exact Nat.ofDigits_inj_of_len_eq (by omega) hlen h h' heq

theorem packedWord_lt {bytes : List ℕ} (h : ∀ b ∈ bytes, b < 256) : packedWord bytes < 256 ^ bytes.length := by
  rw [packedWord_eq]
  exact Nat.ofDigits_lt_base_pow_length (by omega) h

theorem packedWord_digits (n k : ℕ) : packedWord ((List.range k).map fun i => n / 256 ^ i % 256) = n % 256 ^ k := by
  induction k with
  | zero => simp [packedWord, Nat.mod_one]
  | succ k ih =>
    rw [packedWord_eq] at ih ⊢
    rw [List.range_succ, List.map_append, Nat.ofDigits_append, ih, List.length_map, List.length_range,
      List.map_singleton, Nat.ofDigits_singleton, Nat.mod_pow_succ]

def packBytes (q : Point) : List ℕ :=
  (List.range 32).map fun i =>
    let byte := q.2 / 256 ^ i % 256
    if i = 31 ∧ q.1 % 2 = 1 ∧ byte < 128 then byte + 128 else byte

theorem packPubkey_eq (q : Point) : packPubkey q = bytesToHex (packBytes q) := rfl

variable {q : Point}

theorem length_packBytes (q : Point) : (packBytes q).length = 32 := by
  simp [packBytes]

theorem packBytes_lt : ∀ b ∈ packBytes q, b < 256 := by
  intro b hb
  obtain ⟨i, -, rfl⟩ := List.mem_map.1 hb
  dsimp only
  split <;> omega

-- A packed word is the y and, above it, the parity of the x.
theorem packedWord_packBytes (hy : q.2 < 2 ^ 255) : packedWord (packBytes q) = q.2 + 2 ^ 255 * (q.1 % 2) := by
  have hlow : ((List.range 31).map fun i =>
      if i = 31 ∧ q.1 % 2 = 1 ∧ q.2 / 256 ^ i % 256 < 128 then q.2 / 256 ^ i % 256 + 128 else q.2 / 256 ^ i % 256) =
      (List.range 31).map fun i => q.2 / 256 ^ i % 256 := by
    refine List.map_congr_left fun i hi => if_neg fun h => ?_
    rw [List.mem_range] at hi
    omega
  have hsum := packedWord_digits q.2 31
  rw [packedWord_eq] at hsum
  simp only [packBytes]
  rw [packedWord_eq, List.range_succ, List.map_append, hlow, Nat.ofDigits_append, hsum, List.length_map,
    List.length_range, List.map_singleton, Nat.ofDigits_singleton]
  have hdiv := Nat.div_add_mod q.2 (256 ^ 31)
  have hpow : (2 : ℕ) ^ 255 = 256 ^ 31 * 128 := by decide
  have htop : q.2 / 256 ^ 31 < 128 := by
    rw [hpow] at hy
    exact Nat.div_lt_of_lt_mul hy
  rw [Nat.mod_eq_of_lt (by omega : q.2 / 256 ^ 31 < 256), hpow]
  generalize (256 : ℕ) ^ 31 = B at *
  generalize q.2 / B = top at *
  split
  · next hodd =>
    rw [hodd.2.1, mul_add, mul_one]
    omega
  · next heven =>
    have hzero : q.1 % 2 = 0 := by omega
    rw [hzero, mul_zero]
    omega

end Words

section Unpack

open BabyJub (Field curve)

theorem isOnCurve_iff {q : Point} : isOnCurve q ↔ curve.Holds (q.1 : Field) (q.2 : Field) := by
  simp only [isOnCurve, decide_eq_true_eq]
  rw [← Nat.ModEq, ← ZMod.natCast_eq_natCast_iff, Edwards.Curve.Holds]
  push_cast
  rw [← pow_two, ← pow_two]
  rfl

theorem natCast_inj {x y : ℕ} (hx : x < snarkScalarField) (hy : y < snarkScalarField) (h : (x : Field) = y) :
    x = y := by
  rwa [ZMod.natCast_eq_natCast_iff', Nat.mod_eq_of_lt hx, Nat.mod_eq_of_lt hy] at h

theorem cast_xSquare (y : ℕ) :
    ((BabyJub.mod (BabyJub.mod (1 - BabyJub.mod (y * y)) *
        BabyJub.inv (BabyJub.mod (BabyJub.a - BabyJub.mod (BabyJub.d * BabyJub.mod (y * y))))) : ℤ) : Field) =
      (1 - (y : Field) ^ 2) / (curve.a - curve.d * (y : Field) ^ 2) := by
  simp only [BabyJub.cast_mod, Int.cast_mul, BabyJub.cast_inv, Int.cast_sub, Int.cast_one, Int.cast_natCast,
    div_eq_mul_inv, pow_two, BabyJub.a, BabyJub.d]
  rfl

theorem xRoot_lt {y root : ℕ} (h : BabyJub.xRoot y = some root) : root < snarkScalarField := by
  simp only [BabyJub.xRoot, Option.map_eq_some_iff, Option.join_eq_some_iff] at h
  obtain ⟨r, hr, rfl⟩ := h
  generalize BabyJub.mod _ = x2 at hr
  by_cases hsquare : IsSquare (x2 : Field)
  · obtain ⟨r', ⟨-, hpos, hlt⟩, hrun⟩ := BabyJub.sqrtMod_square hsquare
    have heq := hrun 29 (by omega)
    rw [hr] at heq
    obtain rfl := Option.some.inj (Option.some.inj heq)
    omega
  · rw [BabyJub.sqrtMod_not_square hsquare] at hr
    exact absurd hr (by simp)

-- The y of a point on the curve has the x of the point for a root, up to its sign.
theorem xRoot_point (p : Edwards.Point curve) {y : ℕ} (hy : (y : Field) = p.y) :
    ∃ root, BabyJub.xRoot y = some root ∧ root < snarkScalarField ∧ ((root : Field) = p.x ∨ (root : Field) = -p.x) := by
  have hsquare := cast_xSquare y
  rw [hy, ← Edwards.x_sq] at hsquare
  obtain ⟨r, ⟨hr, hpos, hlt⟩, hrun⟩ := BabyJub.sqrtMod_square (hsquare ▸ (IsSquare.sq p.x))
  have hcast : ((r.toNat : ℕ) : Field) = r := by
    rw [← Int.cast_natCast, Int.toNat_of_nonneg hpos]
  refine ⟨r.toNat, ?_, by omega, ?_⟩
  · rw [BabyJub.xRoot, hrun 29 (by omega)]
    rfl
  · rw [hcast]
    exact sq_eq_sq_iff_eq_or_eq_neg.1 (hr.trans hsquare)

-- The one of the two roots that has the parity asked for, if they differ.
def pickRoot (root sign : ℕ) : ℕ :=
  if root % 2 = sign then root else (snarkScalarField - root) % snarkScalarField

theorem pickRoot_lt {root sign : ℕ} (h : root < snarkScalarField) : pickRoot root sign < snarkScalarField := by
  unfold pickRoot
  split
  · exact h
  · exact Nat.mod_lt _ (by decide)

theorem pickRoot_parity {root sign : ℕ} (h : root < snarkScalarField) (hsign : sign < 2)
    (hne : pickRoot root sign ≠ 0) : pickRoot root sign % 2 = sign := by
  have hodd : snarkScalarField % 2 = 1 := by decide
  unfold pickRoot at *
  split at hne
  · next heq => rw [if_pos heq, heq]
  · next heq =>
    have hroot : root ≠ 0 := by
      rintro rfl
      exact hne (by rw [Nat.sub_zero, Nat.mod_self])
    have hsub : (snarkScalarField - root) % snarkScalarField = snarkScalarField - root :=
      Nat.mod_eq_of_lt (by omega)
    rw [if_neg heq, hsub]
    omega

theorem pickRoot_of_cast {root x : ℕ} (h : root < snarkScalarField) (hx : x < snarkScalarField)
    (heq : (root : Field) = x ∨ (root : Field) = -x) : pickRoot root (x % 2) = x := by
  have hodd : snarkScalarField % 2 = 1 := by decide
  have hor : root = x ∨ x ≠ 0 ∧ root = snarkScalarField - x := by
    rcases heq with heq | heq
    · exact .inl (natCast_inj h hx heq)
    · rcases Nat.eq_zero_or_pos x with rfl | hpos
      · exact .inl (natCast_inj h hx (by rw [heq, Nat.cast_zero, neg_zero]))
      · refine .inr ⟨by omega, natCast_inj h (by omega) ?_⟩
        rw [heq, Nat.cast_sub hx.le, ZMod.natCast_self, zero_sub]
  unfold pickRoot
  rcases hor with rfl | ⟨hne, rfl⟩
  · exact if_pos rfl
  · rw [if_neg (by omega), Nat.sub_sub_self hx.le, Nat.mod_eq_of_lt hx]

-- What the bytes of a text unpack to.
def unpackWord (word : ℕ) : Except PubkeyError Point :=
  let y := word % 2 ^ 255
  if snarkScalarField ≤ y then .error .outOfRange
  else match BabyJub.xRoot y with
    | none => .error .offCurve
    | some root =>
      let x := pickRoot root (word / 2 ^ 255)
      if isOnCurve (x, y) then .ok (x, y) else .error .offCurve

theorem unpackPubkey_eq {hex : String} {bytes : List ℕ} (hbytes : hexBytes (strip0x hex) = some bytes)
    (hlen : (strip0x hex).length = 64) : babyJub.unpackPubkey hex = unpackWord (packedWord bytes) := by
  simp only [Curve.unpackPubkey, hbytes, hlen]
  rfl

theorem hexBytes_of_unpackPubkey {hex : String} {q : Point} (h : babyJub.unpackPubkey hex = .ok q) :
    ∃ bytes, hexBytes (strip0x hex) = some bytes ∧ (strip0x hex).length = 64 := by
  unfold Curve.unpackPubkey at h
  dsimp only at h
  split at h
  · exact absurd h (by simp)
  · next bytes hbytes =>
    split at h
    · exact absurd h (by simp)
    · next hlen => exact ⟨bytes, hbytes, not_not.1 hlen⟩

-- An accepted word is the y below the sign bit, of a point on the curve.
theorem unpackWord_ok {word : ℕ} {q : Point} (h : unpackWord word = .ok q) (hword : word < 2 ^ 256) :
    q.2 = word % 2 ^ 255 ∧ (q.1 < snarkScalarField ∧ q.2 < snarkScalarField) ∧ isOnCurve q ∧
      (q.1 ≠ 0 → q.1 % 2 = word / 2 ^ 255) := by
  unfold unpackWord at h
  dsimp only at h
  split at h
  · exact absurd h (by simp)
  · next hy =>
    split at h
    · exact absurd h (by simp)
    · next root hroot =>
      have hlt := xRoot_lt hroot
      split at h
      · next hcurve =>
        obtain rfl := Except.ok.inj h
        refine ⟨rfl, ⟨pickRoot_lt hlt, not_le.1 hy⟩, hcurve, pickRoot_parity hlt ?_⟩
        exact Nat.div_lt_of_lt_mul (by rw [← pow_succ]; exact hword)
      · exact absurd h (by simp)

theorem unpackWord_point {q : Point} (hx : q.1 < snarkScalarField) (hy : q.2 < snarkScalarField)
    (hcurve : isOnCurve q) : unpackWord (q.2 + 2 ^ 255 * (q.1 % 2)) = .ok q := by
  have hP : snarkScalarField < 2 ^ 255 := by decide
  have hmod : (q.2 + 2 ^ 255 * (q.1 % 2)) % 2 ^ 255 = q.2 := by
    rw [Nat.add_mul_mod_self_left, Nat.mod_eq_of_lt (by omega)]
  have hdiv : (q.2 + 2 ^ 255 * (q.1 % 2)) / 2 ^ 255 = q.1 % 2 := by
    rw [Nat.add_mul_div_left _ _ (by positivity), Nat.div_eq_of_lt (by omega), zero_add]
  obtain ⟨root, hroot, hlt, heq⟩ := xRoot_point ⟨_, _, isOnCurve_iff.1 hcurve⟩ rfl
  have hpick := pickRoot_of_cast hlt hx heq
  unfold unpackWord
  dsimp only
  rw [hmod, hdiv, if_neg (not_le.2 hy), hroot]
  dsimp only
  rw [hpick, if_pos hcurve]

theorem unpackPubkey_packPubkey {q : Point} (hx : q.1 < snarkScalarField) (hy : q.2 < snarkScalarField)
    (hcurve : isOnCurve q) : babyJub.unpackPubkey (packPubkey q) = .ok q := by
  have hP : snarkScalarField < 2 ^ 255 := by decide
  have hbytes : hexBytes (strip0x (packPubkey q)) = some (packBytes q) := by
    rw [packPubkey_eq, strip0x_bytesToHex, hexBytes_byteDigits packBytes_lt]
  have hlen : (strip0x (packPubkey q)).length = 64 := by
    rw [packPubkey_eq, strip0x_bytesToHex, length_byteDigits, length_packBytes]
  rw [unpackPubkey_eq hbytes hlen, packedWord_packBytes (hy.trans hP), unpackWord_point hx hy hcurve]

theorem isOnCurve_of_unpackPubkey {hex : String} {q : Point} (h : babyJub.unpackPubkey hex = .ok q) : isOnCurve q := by
  obtain ⟨bytes, hbytes, hlen⟩ := hexBytes_of_unpackPubkey h
  rw [unpackPubkey_eq hbytes hlen] at h
  unfold unpackWord at h
  dsimp only at h
  split at h
  · exact absurd h (by simp)
  · split at h
    · exact absurd h (by simp)
    · split at h
      · next hcurve => exact Except.ok.inj h ▸ hcurve
      · exact absurd h (by simp)

theorem isSquare_cast_iff (n : ℤ) : IsSquare (n : Field) ↔ ∃ r : ℤ, r * r ≡ n [ZMOD snarkScalarField] := by
  simp only [← ZMod.intCast_eq_intCast_iff, Int.cast_mul]
  constructor
  · rintro ⟨x, hx⟩
    exact ⟨x.val, by simp [hx]⟩
  · rintro ⟨r, hr⟩
    exact ⟨r, hr.symm⟩

-- `sqrtMod` settles every number: a reduced root of a square, none of another.
theorem sqrtMod_settles (n : ℤ) : ∃ out : Option ℤ, (∀ fuel > 28, BabyJub.sqrtMod fuel n = some out) ∧
    (∀ r ∈ out, r * r ≡ n [ZMOD snarkScalarField] ∧ 0 ≤ r ∧ r < snarkScalarField) ∧
    (out.isSome ↔ ∃ r : ℤ, r * r ≡ n [ZMOD snarkScalarField]) := by
  by_cases hsquare : IsSquare (n : Field)
  · obtain ⟨r, ⟨hr, hpos, hlt⟩, hrun⟩ := BabyJub.sqrtMod_square hsquare
    refine ⟨some r, hrun, ?_, iff_of_true rfl ((isSquare_cast_iff n).1 hsquare)⟩
    intro r' hr'
    obtain rfl := Option.mem_some.1 hr'
    rw [← ZMod.intCast_eq_intCast_iff, Int.cast_mul, ← pow_two]
    exact ⟨hr, hpos, hlt⟩
  · exact ⟨none, fun fuel _ => BabyJub.sqrtMod_not_square hsquare fuel, by simp,
      iff_of_false (by simp) fun h => hsquare ((isSquare_cast_iff n).2 h)⟩

theorem point_compression :
    (∀ q : Point, q.1 < snarkScalarField → q.2 < snarkScalarField → isOnCurve q →
      babyJub.unpackPubkey (packPubkey q) = .ok q) ∧
    (∀ n : ℤ, ∃ out : Option ℤ, (∀ fuel > 28, BabyJub.sqrtMod fuel n = some out) ∧
      (∀ r ∈ out, r * r ≡ n [ZMOD snarkScalarField] ∧ 0 ≤ r ∧ r < snarkScalarField) ∧
      (out.isSome ↔ ∃ r : ℤ, r * r ≡ n [ZMOD snarkScalarField])) ∧
    (∀ hex q, babyJub.unpackPubkey hex = .ok q → isOnCurve q) ∧
    snarkScalarField.Prime ∧ ∃ q : ℤ, q % 2 = 1 ∧ (snarkScalarField : ℤ) - 1 = 2 ^ 28 * q ∧
      ∀ fuel > 28, BabyJub.factor fuel (snarkScalarField - 1) 0 = some (q, 28) :=
  ⟨fun _ hx hy hcurve => unpackPubkey_packPubkey hx hy hcurve, sqrtMod_settles,
    fun _ _ => isOnCurve_of_unpackPubkey, prime_snarkScalarField,
    BabyJub.oddPart, by decide, by decide, fun _ => BabyJub.factor_order⟩

end Unpack

section Scalars

open BabyJub

variable {q : Point} {p : Edwards.Point curve}

theorem denotes_multiple (h : Denotes (toBig q) p) (n : ℕ) :
    Denotes (toBig (babyJub.mulPointEscalar q n)) (n • p) ∧ Reduced (toBig (babyJub.mulPointEscalar q n)) := by
  obtain ⟨r, hr, hdenotes, hreduced⟩ := mulPointEscalar_denotes h n
  have hmultiple : toBig (babyJub.mulPointEscalar q n) = r := by
    change toBig (ofBig ((mulPointEscalar (toBig q) n).toOption.getD identity)) = r
    rw [hr]
    exact Prod.ext (Int.toNat_of_nonneg hreduced.1.1) (Int.toNat_of_nonneg hreduced.2.1)
  rw [hmultiple]
  exact ⟨hdenotes, hreduced⟩

theorem denotes_publicKey (n : ℕ) : Denotes (toBig (babyJub.mulPointEscalar babyJub.base8 n)) (n • basePoint) ∧
    Reduced (toBig (babyJub.mulPointEscalar babyJub.base8 n)) :=
  denotes_multiple (q := babyJub.base8) denotes_base8 n

theorem toBig_injective : Function.Injective toBig := fun _ _ h =>
  Prod.ext (Int.ofNat.inj (congrArg Prod.fst h)) (Int.ofNat.inj (congrArg Prod.snd h))

-- The sender and the recipient reach one point.
theorem shared_eq (m n : ℕ) : babyJub.mulPointEscalar (babyJub.mulPointEscalar babyJub.base8 m) n =
    babyJub.mulPointEscalar (babyJub.mulPointEscalar babyJub.base8 n) m := by
  obtain ⟨hleft, hleft'⟩ := denotes_multiple (denotes_publicKey m).1 n
  obtain ⟨hright, hright'⟩ := denotes_multiple (denotes_publicKey n).1 m
  rw [smul_comm] at hright
  exact toBig_injective (hleft.coords hright hleft' hright')

theorem unpackPubkey_publicKey (n : ℕ) :
    babyJub.unpackPubkey (packPubkey (babyJub.mulPointEscalar babyJub.base8 n)) =
      .ok (babyJub.mulPointEscalar babyJub.base8 n) := by
  obtain ⟨hdenotes, hx, hy⟩ := denotes_publicKey n
  refine unpackPubkey_packPubkey (Int.ofNat_lt.1 hx.2) (Int.ofNat_lt.1 hy.2) ?_
  have hholds := holds_iff.1 (BabyJub.isOnCurve_iff.2 ⟨_, hdenotes⟩)
  rw [Bongtu.Core.isOnCurve_iff]
  simpa [toBig] using hholds

end Scalars

end Bongtu.Core
