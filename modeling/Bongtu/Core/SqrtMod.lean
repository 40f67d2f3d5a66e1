import Bongtu.Core.BabyJub

namespace Bongtu.Core.BabyJub

def legendre (x : ℤ) : ℤ := modpow x ((snarkScalarField - 1) / 2)

-- `none` is a recursion still running, here and below.
def factor : ℕ → ℤ → ℤ → Option (ℤ × ℤ)
  | 0, _, _ => none
  | fuel + 1, q, s => if q % 2 = 0 then factor fuel (q / 2) (s + 1) else some (q, s)

def nonResidue : ℕ → ℤ → Option ℤ
  | 0, _ => none
  | fuel + 1, z => if legendre z = snarkScalarField - 1 then some z else nonResidue fuel (z + 1)

def leastOrder : ℕ → ℤ → ℤ → ℤ → Option (Option ℤ)
  | 0, _, _, _ => none
  | fuel + 1, tt, i, M =>
    let sq := mod (tt * tt)
    let ni := i + 1
    if ni = M then some none
    else if sq = 1 then some (some ni)
    else leastOrder fuel sq ni M

def descend : ℕ → ℤ → ℤ → ℤ → ℤ → Option (Option ℤ)
  | 0, _, _, _, _ => none
  | fuel + 1, M, c, t, R =>
    if t = 1 then some (some R)
    else
      match leastOrder fuel t 0 M with
      | none => none
      | some none => some none
      | some (some i) =>
        let b := modpow c (2 ^ (M - i - 1).toNat)
        let c2 := mod (b * b)
        descend fuel i c2 (mod (t * c2)) (mod (R * b))

def sqrtMod (fuel : ℕ) (n : ℤ) : Option (Option ℤ) :=
  let n := mod n
  if n = 0 then some (some 0)
  else if legendre n ≠ 1 then some none
  else do
    let (q, s) ← factor fuel (snarkScalarField - 1) 0
    let z ← nonResidue fuel 2
    descend fuel s (modpow z q) (modpow n q) (modpow n ((q + 1) / 2))

section Search

-- The halving takes out the powers of two.
theorem factor_odd {q : ℤ} (hq : q % 2 = 1) {k fuel : ℕ} (hfuel : k < fuel) (s : ℤ) :
    factor fuel (2 ^ k * q) s = some (q, s + k) := by
  induction k generalizing fuel s with
  | zero =>
    obtain ⟨fuel, rfl⟩ := Nat.exists_eq_add_of_lt hfuel
    rw [zero_add, pow_zero, one_mul, factor, if_neg (by omega), Nat.cast_zero, add_zero]
  | succ k ih =>
    obtain ⟨fuel, rfl⟩ : ∃ rest, fuel = rest + 1 := ⟨fuel - 1, by omega⟩
    have hsplit : (2 : ℤ) ^ (k + 1) * q = 2 * (2 ^ k * q) := by ring
    rw [factor, hsplit, if_pos (by omega), Int.mul_ediv_cancel_left _ (by omega), ih (by omega)]
    congr 2
    push_cast
    ring

def oddPart : ℤ := 81540058820840996586704275553141814055101440848469862132140264610111

theorem factor_order {fuel : ℕ} (hfuel : 28 < fuel) : factor fuel (snarkScalarField - 1) 0 = some (oddPart, 28) := by
  have hsplit : (snarkScalarField : ℤ) - 1 = 2 ^ 28 * oddPart := by decide
  rw [hsplit, factor_odd (by decide) hfuel, zero_add]
  rfl

theorem nonResidue_five {fuel : ℕ} (hfuel : 3 < fuel) : nonResidue fuel 2 = some 5 := by
  obtain ⟨fuel, rfl⟩ := Nat.exists_eq_add_of_lt hfuel
  rw [show 3 + fuel + 1 = fuel + 4 by omega, nonResidue, if_neg (by decide +kernel), nonResidue,
    if_neg (by decide +kernel), nonResidue, if_neg (by decide +kernel), nonResidue, if_pos (by decide +kernel)]
  rfl

variable {t : Field} {m : ℕ}

theorem pow_two_pow_of_le {i j : ℕ} (h : t ^ 2 ^ i = 1) (hle : i ≤ j) : t ^ 2 ^ j = 1 := by
  obtain ⟨k, rfl⟩ := Nat.exists_eq_add_of_le hle
  rw [pow_add, pow_mul, h, one_pow]

-- The search meets the least power of two that is an exponent to one.
theorem leastOrder_spec (hone : t ^ 2 ^ (m - 1) = 1) {i : ℕ} {tt : ℤ} (htt : (tt : Field) = t ^ 2 ^ i)
    (hne : t ^ 2 ^ i ≠ 1) : ∃ j, i < j ∧ j < m ∧ t ^ 2 ^ j = 1 ∧ t ^ 2 ^ (j - 1) ≠ 1 ∧
      ∀ fuel ≥ m - i, leastOrder fuel tt i m = some (some (j : ℤ)) := by
  have hlt : i < m - 1 := by
    by_contra hge
    exact hne (pow_two_pow_of_le hone (by omega))
  induction hk : m - i generalizing i tt with
  | zero => omega
  | succ k ih =>
    have hsq : ((mod (tt * tt) : ℤ) : Field) = t ^ 2 ^ (i + 1) := by
      rw [cast_mod, Int.cast_mul, htt, ← pow_two, ← pow_mul, ← pow_succ]
    have hstep : ∀ fuel, leastOrder (fuel + 1) tt i m =
        if mod (tt * tt) = 1 then some (some ((i + 1 : ℕ) : ℤ)) else leastOrder fuel (mod (tt * tt)) (i + 1 : ℕ) m := by
      intro fuel
      rw [leastOrder, if_neg (by omega), Nat.cast_succ]
    by_cases hfound : t ^ 2 ^ (i + 1) = 1
    · have heq : mod (tt * tt) = 1 :=
        eq_of_cast (mod_nonneg _) (mod_lt _) (by decide) (by decide) (by rw [hsq, hfound, Int.cast_one])
      refine ⟨i + 1, by omega, by omega, hfound, hne, fun fuel hfuel => ?_⟩
      obtain ⟨fuel, rfl⟩ : ∃ rest, fuel = rest + 1 := ⟨fuel - 1, by omega⟩
      rw [hstep, if_pos heq]
    · have hne' : mod (tt * tt) ≠ 1 := fun heq => hfound (by rw [← hsq, heq, Int.cast_one])
      have hnext : i + 1 < m - 1 := by
        by_contra hge
        exact hfound (pow_two_pow_of_le hone (by omega))
      obtain ⟨j, hij, hjm, hpow, hmin, hrun⟩ := ih hsq hfound hnext (by omega)
      refine ⟨j, by omega, hjm, hpow, hmin, fun fuel hfuel => ?_⟩
      obtain ⟨fuel, rfl⟩ : ∃ rest, fuel = rest + 1 := ⟨fuel - 1, by omega⟩
      rw [hstep, if_neg hne', hrun fuel (by omega)]

end Search

section Descent

-- What the descent keeps: a root but for `t`, whose order divides that of `c` halved.
structure Descent (n : Field) (m : ℕ) (c t R : ℤ) : Prop where
  root : (R : Field) ^ 2 = n * t
  order : (t : Field) ^ 2 ^ (m - 1) = 1
  minus : (c : Field) ^ 2 ^ (m - 1) = -1
  reduced : 0 ≤ t ∧ t < snarkScalarField
  bounded : 0 ≤ R ∧ R < snarkScalarField

variable {n : Field} {m : ℕ} {c t R : ℤ}

theorem Descent.step (h : Descent n m c t R) {i : ℕ} (hi : 0 < i) (him : i < m)
    (hone : (t : Field) ^ 2 ^ i = 1) (hmin : (t : Field) ^ 2 ^ (i - 1) ≠ 1) :
    have b := modpow c (2 ^ ((m : ℤ) - i - 1).toNat)
    Descent n i (mod (b * b)) (mod (t * mod (b * b))) (mod (R * b)) := by
  intro b
  have hb : (b : Field) = (c : Field) ^ 2 ^ (m - i - 1) := by
    rw [cast_modpow]
    congr 1
    rw [show ((m : ℤ) - i - 1).toNat = m - i - 1 by omega]
    exact Int.toNat_natCast (2 ^ (m - i - 1)) ▸ by norm_cast
  have hminus : ((b : Field) * b) ^ 2 ^ (i - 1) = -1 := by
    have hexp : 2 ^ (m - i - 1) * (2 * 2 ^ (i - 1)) = 2 ^ (m - 1) := by
      rw [← pow_succ', ← pow_add]
      congr 1
      omega
    rw [hb, ← pow_two, ← pow_mul, ← pow_mul, hexp, h.minus]
  have hhalf : (t : Field) ^ 2 ^ (i - 1) = -1 := by
    have hsq : ((t : Field) ^ 2 ^ (i - 1)) ^ 2 = 1 := by
      rw [← pow_mul, ← pow_succ, show i - 1 + 1 = i by omega, hone]
    exact (mul_self_eq_one_iff.1 (pow_two ((t : Field) ^ 2 ^ (i - 1)) ▸ hsq)).resolve_left hmin
  refine ⟨?_, ?_, ?_, ⟨mod_nonneg _, mod_lt _⟩, mod_nonneg _, mod_lt _⟩
  · rw [cast_mod, cast_mod, Int.cast_mul, Int.cast_mul, cast_mod, Int.cast_mul]
    linear_combination (b : Field) ^ 2 * h.root
  · rw [cast_mod, Int.cast_mul, cast_mod, Int.cast_mul, mul_pow, hminus, hhalf, neg_mul_neg, one_mul]
  · rw [cast_mod, Int.cast_mul, hminus]

theorem Descent.finds (h : Descent n m c t R) : ∃ r : ℤ, ((r : Field) ^ 2 = n ∧ 0 ≤ r ∧ r < snarkScalarField) ∧
    ∀ fuel > m, descend fuel m c t R = some (some r) := by
  induction m using Nat.strong_induction_on generalizing c t R with
  | h m ih =>
    by_cases ht : t = 1
    · refine ⟨R, ⟨by rw [h.root, ht, Int.cast_one, mul_one], h.bounded⟩, fun fuel hfuel => ?_⟩
      obtain ⟨fuel, rfl⟩ : ∃ rest, fuel = rest + 1 := ⟨fuel - 1, by omega⟩
      rw [descend, if_pos ht]
    · have hne : (t : Field) ^ 2 ^ 0 ≠ 1 := by
        rw [pow_zero, pow_one]
        exact fun heq => ht (eq_of_cast h.reduced.1 h.reduced.2 (by decide) (by decide) (by rw [heq, Int.cast_one]))
      obtain ⟨i, hi, him, hone, hmin, hleast⟩ := leastOrder_spec h.order (by rw [pow_zero, pow_one]) hne
      obtain ⟨r, hr, hrun⟩ := ih i him (h.step hi him hone hmin)
      refine ⟨r, hr, fun fuel hfuel => ?_⟩
      obtain ⟨fuel, rfl⟩ : ∃ rest, fuel = rest + 1 := ⟨fuel - 1, by omega⟩
      have hstep := hleast fuel (by omega)
      rw [descend, if_neg ht]
      rw [show ((0 : ℕ) : ℤ) = 0 from rfl] at hstep
      simp only [hstep]
      exact hrun fuel (by omega)

end Descent

section Root

variable {n : ℤ}

theorem modpow_reduced (base exp : ℤ) : 0 ≤ modpow base exp ∧ modpow base exp < snarkScalarField := by
  unfold modpow
  split
  · decide
  · rcases List.eq_nil_or_concat (numeral 2 exp.toNat) with h | ⟨init, bit, h⟩
    · rw [h, List.foldl_nil]
      decide
    · rw [h, List.concat_eq_append, List.foldl_append, List.foldl_cons, List.foldl_nil]
      dsimp only
      split
      · exact ⟨mod_nonneg _, mod_lt _⟩
      · exact ⟨mod_nonneg _, mod_lt _⟩

theorem legendre_eq_one : legendre n = 1 ↔ (n : Field) ^ (snarkScalarField / 2) = 1 := by
  have hcast : ((legendre n : ℤ) : Field) = (n : Field) ^ (snarkScalarField / 2) := cast_modpow _ _
  rw [← hcast]
  refine ⟨fun h => by rw [h, Int.cast_one], fun h => ?_⟩
  have hreduced := modpow_reduced n ((snarkScalarField - 1) / 2)
  exact eq_of_cast hreduced.1 hreduced.2 (by decide) (by decide) (by rw [Int.cast_one]; exact h)

theorem descent_start (hn : (n : Field) ^ (snarkScalarField / 2) = 1) :
    Descent n 28 (modpow 5 oddPart) (modpow n oddPart) (modpow n ((oddPart + 1) / 2)) := by
  have hhalf : oddPart.toNat * 2 ^ (28 - 1) = snarkScalarField / 2 := by decide
  have hfive : ((5 : ℕ) : Field) ^ (snarkScalarField / 2) = -1 := pow_half (by decide +kernel)
  refine ⟨?_, ?_, ?_, modpow_reduced _ _, modpow_reduced _ _⟩
  · rw [cast_modpow, cast_modpow, ← pow_mul, ← pow_succ']
    rfl
  · rw [cast_modpow, ← pow_mul, hhalf, hn]
  · rw [cast_modpow, ← pow_mul, hhalf]
    exact hfive

theorem isSquare_iff (hn : (n : Field) ≠ 0) : IsSquare (n : Field) ↔ legendre n = 1 :=
  (ZMod.euler_criterion snarkScalarField hn).trans legendre_eq_one.symm

theorem mod_eq_zero : mod n = 0 ↔ (n : Field) = 0 := by
  have hzero : mod 0 = 0 := mod_of_lt le_rfl (by decide)
  rw [← hzero, mod_eq_mod, Int.cast_zero]

theorem sqrtMod_square (h : IsSquare (n : Field)) : ∃ r : ℤ,
    ((r : Field) ^ 2 = n ∧ 0 ≤ r ∧ r < snarkScalarField) ∧ ∀ fuel > 28, sqrtMod fuel n = some (some r) := by
  by_cases hzero : (n : Field) = 0
  · refine ⟨0, ⟨by rw [hzero, Int.cast_zero, zero_pow two_ne_zero], by decide, by decide⟩, fun fuel _ => ?_⟩
    rw [sqrtMod, if_pos (mod_eq_zero.2 hzero)]
  · have hmod : ((mod n : ℤ) : Field) = n := cast_mod n
    have hlegendre : legendre (mod n) = 1 := (isSquare_iff (hmod ▸ hzero)).1 (hmod ▸ h)
    obtain ⟨r, hr, hrun⟩ := (descent_start (legendre_eq_one.1 hlegendre)).finds
    refine ⟨r, hmod ▸ hr, fun fuel hfuel => ?_⟩
    rw [sqrtMod, if_neg (mod_eq_zero.not.2 hzero), if_neg (not_not.2 hlegendre), factor_order hfuel,
      nonResidue_five (by omega)]
    exact hrun fuel hfuel

theorem sqrtMod_not_square (h : ¬ IsSquare (n : Field)) (fuel : ℕ) : sqrtMod fuel n = some none := by
  have hmod : ((mod n : ℤ) : Field) = n := cast_mod n
  have hzero : (n : Field) ≠ 0 := by
    intro hzero
    exact h (hzero ▸ IsSquare.zero)
  have hlegendre : legendre (mod n) ≠ 1 := fun hone => h (hmod ▸ (isSquare_iff (hmod ▸ hzero)).2 hone)
  rw [sqrtMod, if_neg (mod_eq_zero.not.2 hzero), if_pos hlegendre]

end Root

end Bongtu.Core.BabyJub
