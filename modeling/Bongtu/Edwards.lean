import Mathlib.Algebra.Field.Basic
import Mathlib.Algebra.Group.Even
import Mathlib.Algebra.Order.BigOperators.Group.Finset
import Mathlib.GroupTheory.OrderOfElement
import Mathlib.RingTheory.Int.Basic
import Mathlib.RingTheory.PrincipalIdealDomain
import Mathlib.SetTheory.Cardinal.Finite
import Mathlib.Tactic.FieldSimp
import Mathlib.Tactic.LinearCombination
import Mathlib.Tactic.Ring

namespace Bongtu.Edwards

-- A twisted Edwards curve whose addition has no exceptions.
structure Curve (K : Type*) [Field K] where
  a : K
  d : K
  square : IsSquare a
  nonsquare : ¬ IsSquare d
  two_ne : (2 : K) ≠ 0

variable {K : Type*} [Field K] {c : Curve K}

def Curve.Holds (c : Curve K) (x y : K) : Prop := c.a * x ^ 2 + y ^ 2 = 1 + c.d * x ^ 2 * y ^ 2

@[ext]
structure Point (c : Curve K) where
  x : K
  y : K
  holds : c.Holds x y

-- A unit that d·x₁x₂y₁y₂ could be would make `d` a square.
theorem product_ne (p q : Point c) {e : K} (he : e ^ 2 = 1) : c.d * p.x * q.x * p.y * q.y ≠ e := by
  intro h
  obtain ⟨s, hs⟩ := c.square
  have hp : c.a * p.x ^ 2 + p.y ^ 2 = 1 + c.d * p.x ^ 2 * p.y ^ 2 := p.holds
  have hq : c.a * q.x ^ 2 + q.y ^ 2 = 1 + c.d * q.x ^ 2 * q.y ^ 2 := q.holds
  have hne : c.d * p.x * q.x * p.y * q.y ≠ 0 := by
    rintro h0
    rw [← h, h0] at he
    simp at he
  have hx : p.x ≠ 0 := by rintro h0; simp [h0] at hne
  have hy : p.y ≠ 0 := by rintro h0; simp [h0] at hne
  have hqy : q.y ≠ 0 := by rintro h0; simp [h0] at hne
  have hzero : ∀ t, t * t = c.a → t * q.x + q.y = 0 := by
    intro t ht
    by_contra hsum
    have hkey : (t * p.x + e * p.y) ^ 2 = c.d * (p.x * p.y * (t * q.x + q.y)) ^ 2 := by
      linear_combination hp - c.d * p.x ^ 2 * p.y ^ 2 * hq + (p.y ^ 2 - 1) * he -
        (2 * t * p.x * p.y + c.d * p.x * q.x * p.y * q.y + e) * h +
        (p.x ^ 2 - c.d * p.x ^ 2 * p.y ^ 2 * q.x ^ 2) * ht
    refine c.nonsquare ⟨(t * p.x + e * p.y) / (p.x * p.y * (t * q.x + q.y)), ?_⟩
    rw [div_mul_div_comm, ← pow_two, hkey, ← pow_two, mul_div_cancel_right₀]
    exact pow_ne_zero _ (mul_ne_zero (mul_ne_zero hx hy) hsum)
  have hplus := hzero s hs.symm
  have hminus := hzero (-s) (by rw [neg_mul_neg, hs])
  have htwo : 2 * q.y = 0 := by linear_combination hplus + hminus
  exact (mul_ne_zero c.two_ne hqy) htwo

theorem one_add_ne (p q : Point c) : 1 + c.d * p.x * q.x * p.y * q.y ≠ 0 := fun h =>
  product_ne p q (e := -1) (by ring) (by linear_combination h)

theorem one_sub_ne (p q : Point c) : 1 - c.d * p.x * q.x * p.y * q.y ≠ 0 := fun h =>
  product_ne p q (e := 1) (by ring) (by linear_combination -h)

section Identities

variable {a d x₁ y₁ x₂ y₂ x₃ y₃ : K}

-- The sum of two points, with its denominators cleared, is on the curve.
theorem closed_identity (h₁ : a * x₁ ^ 2 + y₁ ^ 2 = 1 + d * x₁ ^ 2 * y₁ ^ 2)
    (h₂ : a * x₂ ^ 2 + y₂ ^ 2 = 1 + d * x₂ ^ 2 * y₂ ^ 2) :
    a * ((x₁ * y₂ + y₁ * x₂) * (1 - d * x₁ * x₂ * y₁ * y₂)) ^ 2 +
        ((y₁ * y₂ - a * x₁ * x₂) * (1 + d * x₁ * x₂ * y₁ * y₂)) ^ 2 =
      ((1 + d * x₁ * x₂ * y₁ * y₂) * (1 - d * x₁ * x₂ * y₁ * y₂)) ^ 2 +
        d * ((x₁ * y₂ + y₁ * x₂) * (y₁ * y₂ - a * x₁ * x₂)) ^ 2 := by
  grind

-- Both ways of adding three points agree on either coordinate, with the denominators cleared.
theorem assoc_identity_x (h₁ : a * x₁ ^ 2 + y₁ ^ 2 = 1 + d * x₁ ^ 2 * y₁ ^ 2)
    (h₂ : a * x₂ ^ 2 + y₂ ^ 2 = 1 + d * x₂ ^ 2 * y₂ ^ 2)
    (h₃ : a * x₃ ^ 2 + y₃ ^ 2 = 1 + d * x₃ ^ 2 * y₃ ^ 2) :
    ((x₁ * y₂ + y₁ * x₂) * (1 - d * x₁ * x₂ * y₁ * y₂) * y₃ +
        (y₁ * y₂ - a * x₁ * x₂) * (1 + d * x₁ * x₂ * y₁ * y₂) * x₃) *
      ((1 + d * x₂ * x₃ * y₂ * y₃) * (1 - d * x₂ * x₃ * y₂ * y₃) +
        d * x₁ * y₁ * (x₂ * y₃ + y₂ * x₃) * (y₂ * y₃ - a * x₂ * x₃)) =
    (x₁ * (y₂ * y₃ - a * x₂ * x₃) * (1 + d * x₂ * x₃ * y₂ * y₃) +
        y₁ * (x₂ * y₃ + y₂ * x₃) * (1 - d * x₂ * x₃ * y₂ * y₃)) *
      ((1 + d * x₁ * x₂ * y₁ * y₂) * (1 - d * x₁ * x₂ * y₁ * y₂) +
        d * (x₁ * y₂ + y₁ * x₂) * (y₁ * y₂ - a * x₁ * x₂) * x₃ * y₃) := by
  grind

theorem assoc_identity_y (h₁ : a * x₁ ^ 2 + y₁ ^ 2 = 1 + d * x₁ ^ 2 * y₁ ^ 2)
    (h₂ : a * x₂ ^ 2 + y₂ ^ 2 = 1 + d * x₂ ^ 2 * y₂ ^ 2)
    (h₃ : a * x₃ ^ 2 + y₃ ^ 2 = 1 + d * x₃ ^ 2 * y₃ ^ 2) :
    ((y₁ * y₂ - a * x₁ * x₂) * (1 + d * x₁ * x₂ * y₁ * y₂) * y₃ -
        a * (x₁ * y₂ + y₁ * x₂) * (1 - d * x₁ * x₂ * y₁ * y₂) * x₃) *
      ((1 + d * x₂ * x₃ * y₂ * y₃) * (1 - d * x₂ * x₃ * y₂ * y₃) -
        d * x₁ * y₁ * (x₂ * y₃ + y₂ * x₃) * (y₂ * y₃ - a * x₂ * x₃)) =
    (y₁ * (y₂ * y₃ - a * x₂ * x₃) * (1 + d * x₂ * x₃ * y₂ * y₃) -
        a * x₁ * (x₂ * y₃ + y₂ * x₃) * (1 - d * x₂ * x₃ * y₂ * y₃)) *
      ((1 + d * x₁ * x₂ * y₁ * y₂) * (1 - d * x₁ * x₂ * y₁ * y₂) -
        d * (x₁ * y₂ + y₁ * x₂) * (y₁ * y₂ - a * x₁ * x₂) * x₃ * y₃) := by
  grind

end Identities

section Law

variable (p q r : Point c)

def addX : K := (p.x * q.y + p.y * q.x) / (1 + c.d * p.x * q.x * p.y * q.y)

def addY : K := (p.y * q.y - c.a * p.x * q.x) / (1 - c.d * p.x * q.x * p.y * q.y)

theorem add_holds : c.Holds (addX p q) (addY p q) := by
  have hadd := one_add_ne p q
  have hsub := one_sub_ne p q
  have hclosed := closed_identity p.holds q.holds
  unfold Curve.Holds addX addY
  generalize 1 + c.d * p.x * q.x * p.y * q.y = D at *
  generalize 1 - c.d * p.x * q.x * p.y * q.y = E at *
  field_simp
  linear_combination hclosed

instance : Add (Point c) := ⟨fun p q => ⟨addX p q, addY p q, add_holds p q⟩⟩

instance : Zero (Point c) := ⟨⟨0, 1, by simp [Curve.Holds]⟩⟩

instance : Neg (Point c) := ⟨fun p => ⟨-p.x, p.y, by
  have hp : c.a * p.x ^ 2 + p.y ^ 2 = 1 + c.d * p.x ^ 2 * p.y ^ 2 := p.holds
  rw [Curve.Holds, neg_sq, hp]⟩⟩

@[simp] theorem zero_x : (0 : Point c).x = 0 := rfl
@[simp] theorem zero_y : (0 : Point c).y = 1 := rfl
@[simp] theorem neg_x : (-p).x = -p.x := rfl
@[simp] theorem neg_y : (-p).y = p.y := rfl

theorem add_x : (p + q).x = (p.x * q.y + p.y * q.x) / (1 + c.d * p.x * q.x * p.y * q.y) := rfl
theorem add_y : (p + q).y = (p.y * q.y - c.a * p.x * q.x) / (1 - c.d * p.x * q.x * p.y * q.y) := rfl

theorem add_comm' : p + q = q + p := by
  ext
  · rw [add_x, add_x]
    congr 1 <;> ring
  · rw [add_y, add_y]
    congr 1 <;> ring

theorem zero_add' : 0 + p = p := by
  ext
  · simp [add_x]
  · simp [add_y]

theorem neg_add_cancel' : -p + p = 0 := by
  have hp : c.a * p.x ^ 2 + p.y ^ 2 = 1 + c.d * p.x ^ 2 * p.y ^ 2 := p.holds
  ext
  · rw [add_x, neg_x, neg_y, zero_x, div_eq_zero_iff]
    exact .inl (by ring)
  · have hne := one_sub_ne (-p) p
    rw [add_y, zero_y, div_eq_one_iff_eq hne, neg_x, neg_y]
    linear_combination hp

theorem add_assoc_x : (p + q + r).x = (p + (q + r)).x := by
  have hpq := one_add_ne p q
  have hpq' := one_sub_ne p q
  have hqr := one_add_ne q r
  have hqr' := one_sub_ne q r
  have hassoc := assoc_identity_x p.holds q.holds r.holds
  rw [add_x (p + q) r, add_x p (q + r), div_eq_div_iff (one_add_ne (p + q) r) (one_add_ne p (q + r))]
  simp only [add_x, add_y]
  generalize 1 + c.d * p.x * q.x * p.y * q.y = D at *
  generalize 1 - c.d * p.x * q.x * p.y * q.y = E at *
  generalize 1 + c.d * q.x * r.x * q.y * r.y = F at *
  generalize 1 - c.d * q.x * r.x * q.y * r.y = G at *
  field_simp
  linear_combination hassoc

theorem add_assoc_y : (p + q + r).y = (p + (q + r)).y := by
  have hpq := one_add_ne p q
  have hpq' := one_sub_ne p q
  have hqr := one_add_ne q r
  have hqr' := one_sub_ne q r
  have hassoc := assoc_identity_y p.holds q.holds r.holds
  rw [add_y (p + q) r, add_y p (q + r), div_eq_div_iff (one_sub_ne (p + q) r) (one_sub_ne p (q + r))]
  simp only [add_x, add_y]
  generalize 1 + c.d * p.x * q.x * p.y * q.y = D at *
  generalize 1 - c.d * p.x * q.x * p.y * q.y = E at *
  generalize 1 + c.d * q.x * r.x * q.y * r.y = F at *
  generalize 1 - c.d * q.x * r.x * q.y * r.y = G at *
  field_simp
  linear_combination hassoc

end Law

instance : AddCommGroup (Point c) where
  add_assoc p q r := Point.ext (add_assoc_x p q r) (add_assoc_y p q r)
  zero_add := zero_add'
  add_zero p := by rw [add_comm', zero_add']
  nsmul := nsmulRec
  zsmul := zsmulRec
  neg_add_cancel := neg_add_cancel'
  add_comm := add_comm'

section Shape

-- The y of a point leaves two points.
theorem sub_ne (p : Point c) : c.a - c.d * p.y ^ 2 ≠ 0 := by
  intro h
  have hp : c.a * p.x ^ 2 + p.y ^ 2 = 1 + c.d * p.x ^ 2 * p.y ^ 2 := p.holds
  have hy : p.y ^ 2 = 1 := by linear_combination hp - p.x ^ 2 * h
  have had : c.a = c.d := by linear_combination h + c.d * hy
  exact c.nonsquare (had ▸ c.square)

theorem x_sq (p : Point c) : p.x ^ 2 = (1 - p.y ^ 2) / (c.a - c.d * p.y ^ 2) := by
  have hp : c.a * p.x ^ 2 + p.y ^ 2 = 1 + c.d * p.x ^ 2 * p.y ^ 2 := p.holds
  rw [eq_div_iff (sub_ne p)]
  linear_combination hp

theorem eq_or_eq_neg_of_y {p q : Point c} (h : p.y = q.y) : p = q ∨ p = -q := by
  have hx : p.x ^ 2 = q.x ^ 2 := by rw [x_sq, x_sq, h]
  rcases sq_eq_sq_iff_eq_or_eq_neg.1 hx with hx | hx
  · exact .inl (Point.ext hx h)
  · exact .inr (Point.ext hx h)

instance [Finite K] : Finite (Point c) :=
  Finite.of_injective (fun p : Point c => (p.x, p.y)) fun p q h => by
    rw [Prod.mk.injEq] at h
    exact Point.ext h.1 h.2

theorem card_le [Finite K] : Nat.card (Point c) ≤ 2 * Nat.card K := by
  classical
  have := Fintype.ofFinite K
  have := Fintype.ofFinite (Point c)
  rw [Nat.card_eq_fintype_card, Nat.card_eq_fintype_card]
  refine Finset.card_le_mul_card_image_of_maps_to (fun p _ => Finset.mem_univ p.y) 2 fun y _ => ?_
  rcases Finset.eq_empty_or_nonempty (Finset.univ.filter fun p : Point c => p.y = y) with h | ⟨p, hp⟩
  · rw [h]
    exact Nat.zero_le 2
  · refine (Finset.card_le_card fun q hq => ?_).trans (Finset.card_le_two (a := p) (b := -p))
    have hy : q.y = p.y := (Finset.mem_filter.1 hq).2.trans (Finset.mem_filter.1 hp).2.symm
    rcases eq_or_eq_neg_of_y hy with rfl | rfl <;> simp

end Shape

section Order

variable {G : Type*} [AddCommGroup G] {n : ℕ} {b q : G}

-- In a group of fewer than n² elements the points of prime order n are the multiples of one.
theorem mem_zmultiples_of_card [Finite G] (hn : n.Prime) (hcard : Nat.card G < n * n) (hb : b ≠ 0)
    (hnb : n • b = 0) (hnq : n • q = 0) : q ∈ AddSubgroup.zmultiples b := by
  by_contra hq
  have := Fact.mk hn
  have horder : addOrderOf b = n := addOrderOf_eq_prime hnb hb
  have hinj : Function.Injective fun ij : Fin n × Fin n => ij.1.1 • b + ij.2.1 • q := by
    rintro ⟨i, j⟩ ⟨i', j'⟩ h
    dsimp only at h
    have hmem : ((j : ℤ) - j') • q ∈ AddSubgroup.zmultiples b :=
      ⟨(i' : ℤ) - i, by simp only [sub_smul, natCast_zsmul]; rw [sub_eq_sub_iff_add_eq_add, ← h, add_comm]⟩
    have hj : (j : ℤ) - j' = 0 := by
      by_contra hne
      have hcop : IsCoprime (n : ℤ) ((j : ℤ) - j') :=
        (Nat.prime_iff_prime_int.1 hn).coprime_iff_not_dvd.2 fun hdvd =>
          hne (Int.eq_zero_of_abs_lt_dvd hdvd (by rw [abs_lt]; omega))
      obtain ⟨u, v, huv⟩ := hcop
      refine hq ?_
      rw [← one_smul ℤ q, ← huv, add_smul, mul_smul, natCast_zsmul, hnq, smul_zero, zero_add, mul_smul]
      exact AddSubgroup.zsmul_mem _ hmem v
    have hjj : j = j' := by omega
    subst hjj
    have hi : i.1 • b = i'.1 • b := add_right_cancel h
    rw [nsmul_eq_nsmul_iff_modEq, horder, Nat.ModEq, Nat.mod_eq_of_lt i.2, Nat.mod_eq_of_lt i'.2] at hi
    rw [Fin.ext hi]
  have hle := Nat.card_le_card_of_injective _ hinj
  rw [Nat.card_prod, Nat.card_fin] at hle
  omega

end Order

section Ladder

variable (m a d : ℕ)

-- The sum of points with their coordinates over a denominator, which takes no division.
def addOver (t u : ℕ × ℕ × ℕ) : ℕ × ℕ × ℕ :=
  let z := t.2.2 * u.2.2 % m
  let xx := t.1 * u.1 % m
  let yy := t.2.1 * u.2.1 % m
  let zz := z * z % m
  let e := d * xx % m * yy % m
  let f := (zz + (m - e)) % m
  let g := (zz + e) % m
  (z * f % m * ((t.1 * u.2.1 + t.2.1 * u.1) % m) % m, z * g % m * ((yy + a * (m - xx)) % m) % m, f * g % m)

-- Doubles and adds over the low bits of the multiplier.
def multipleOver (t : ℕ × ℕ × ℕ) : ℕ → ℕ → ℕ × ℕ × ℕ
  | 0, _ => (0, 1, 1)
  | bits + 1, n =>
    let r := multipleOver t bits (n / 2)
    let double := addOver m a d r r
    if n % 2 = 1 then addOver m a d double t else double

structure StandsFor (t : ℕ × ℕ × ℕ) (p : Point c) : Prop where
  denominator : (t.2.2 : K) ≠ 0
  x : (t.1 : K) = p.x * t.2.2
  y : (t.2.1 : K) = p.y * t.2.2

variable {m a d} [CharP K m] {t u : ℕ × ℕ × ℕ} {p q : Point c}

theorem cast_mod (n : ℕ) : ((n % m : ℕ) : K) = n := (CharP.cast_eq_mod K m n).symm

theorem cast_sub_mod {n : ℕ} (h : n < m) : ((m - n : ℕ) : K) = -n := by
  rw [Nat.cast_sub h.le, CharP.cast_eq_zero, zero_sub]

theorem StandsFor.add (hm : 0 < m) (ha : (a : K) = c.a) (hd : (d : K) = c.d) (ht : StandsFor t p)
    (hu : StandsFor u q) : StandsFor (addOver m a d t u) (p + q) := by
  have hadd := one_add_ne p q
  have hsub := one_sub_ne p q
  have hz : (t.2.2 : K) * u.2.2 ≠ 0 := mul_ne_zero ht.denominator hu.denominator
  have hmod : ∀ n, n % m < m := fun n => Nat.mod_lt n hm
  have hden : ((addOver m a d t u).2.2 : K) = (t.2.2 * u.2.2) ^ 4 *
      ((1 - c.d * p.x * q.x * p.y * q.y) * (1 + c.d * p.x * q.x * p.y * q.y)) := by
    simp only [addOver, cast_mod, Nat.cast_mul, Nat.cast_add, cast_sub_mod (hmod _), hd, ht.x, ht.y, hu.x, hu.y]
    ring
  refine ⟨?_, ?_, ?_⟩
  · rw [hden]
    exact mul_ne_zero (pow_ne_zero 4 hz) (mul_ne_zero hsub hadd)
  · rw [hden, add_x, div_mul_eq_mul_div, eq_div_iff hadd]
    simp only [addOver, cast_mod, Nat.cast_mul, Nat.cast_add, cast_sub_mod (hmod _), hd, ht.x, ht.y, hu.x, hu.y]
    ring
  · rw [hden, add_y, div_mul_eq_mul_div, eq_div_iff hsub]
    simp only [addOver, cast_mod, Nat.cast_mul, Nat.cast_add, cast_sub_mod (hmod _), ha, hd, ht.x, ht.y, hu.x, hu.y]
    ring

theorem StandsFor.multiple (hm : 0 < m) (ha : (a : K) = c.a) (hd : (d : K) = c.d) (ht : StandsFor t p)
    {bits n : ℕ} (h : n < 2 ^ bits) : StandsFor (multipleOver m a d t bits n) (n • p) := by
  induction bits generalizing n with
  | zero =>
    obtain rfl : n = 0 := by simpa using h
    exact ⟨by simp [multipleOver], by simp [multipleOver], by simp [multipleOver]⟩
  | succ bits ih =>
    have hhalf := ih (n := n / 2) (by rw [pow_succ] at h; omega)
    have hdouble := hhalf.add hm ha hd hhalf
    rw [← add_nsmul, ← two_mul] at hdouble
    simp only [multipleOver]
    split
    · next hodd =>
      have hsum := hdouble.add hm ha hd ht
      rw [← succ_nsmul] at hsum
      rwa [show 2 * (n / 2) + 1 = n by omega] at hsum
    · next heven => rwa [show 2 * (n / 2) = n by omega] at hdouble

theorem StandsFor.eq_zero (ht : StandsFor t p) (hx : t.1 = 0) (hy : t.2.1 = t.2.2) : p = 0 := by
  ext
  · simpa [hx, ht.denominator] using ht.x
  · simpa [hy, ht.denominator] using ht.y

end Ladder

end Bongtu.Edwards
