import Bongtu.Core.BigIntText
import Bongtu.Core.Primes
import Bongtu.Edwards
import Mathlib.NumberTheory.LegendreSymbol.Basic

namespace Bongtu.Core.BabyJub

abbrev BigPoint := ℤ × ℤ

def a : ℤ := 168700

def d : ℤ := 168696

def base8 : BigPoint :=
  (5299619240641551281634865583518297030282874472190772894086521144482721001553,
    16950150798460657717958625567821834550301663161624707787222815936182638968203)

def identity : BigPoint := (0, 1)

def mod (x : ℤ) : ℤ :=
  let r := x.tmod snarkScalarField
  if r < 0 then r + snarkScalarField else r

def modpow (base exp : ℤ) : ℤ :=
  if exp ≤ 0 then 1
  else
    let b := mod base
    (numeral 2 exp.toNat).foldl (fun acc bit =>
      let sq := mod (acc * acc)
      if bit = '1' then mod (sq * b) else sq) 1

def inv (x : ℤ) : ℤ := modpow (mod x) (snarkScalarField - 2)

def addPoint (p q : BigPoint) : BigPoint :=
  let x1x2 := mod (p.1 * q.1)
  let y1y2 := mod (p.2 * q.2)
  let dxy := mod (mod (d * x1x2) * y1y2)
  (mod (mod (mod (p.1 * q.2) + mod (p.2 * q.1)) * inv (mod (1 + dxy))),
    mod (mod (y1y2 - mod (a * x1x2)) * inv (mod (1 - dxy))))

-- The lowest bit first.
def mulPointEscalar (point : BigPoint) (scalar : ℤ) : Except String BigPoint :=
  if scalar < 0 then
    .error ("mulPointEscalar: scalar must be non-negative, got " ++ String.ofList (bigIntText 10 scalar))
  else
    .ok ((numeral 2 scalar.toNat).reverse.foldl (fun acc bit =>
      (if bit = '1' then addPoint acc.1 acc.2 else acc.1, addPoint acc.2 acc.2)) (identity, point)).1

def isOnCurve (q : BigPoint) : Bool :=
  let xx := mod (q.1 * q.1)
  let yy := mod (q.2 * q.2)
  mod (mod (a * xx) + yy) = mod (1 + mod (mod (d * xx) * yy))

abbrev Field := ZMod snarkScalarField

section Arithmetic

theorem tmod_lift {n : ℤ} (hpos : 0 < n) (x : ℤ) : (if x.tmod n < 0 then x.tmod n + n else x.tmod n) = x % n := by
  have hlt := Int.tmod_lt_of_pos x hpos
  have hgt := Int.lt_tmod_of_pos x hpos
  have hrem : x.tmod n % n = x % n := by rw [Int.tmod_def, Int.sub_mul_emod_self_left]
  split
  · next hneg => rw [← hrem, ← Int.add_emod_right, Int.emod_eq_of_lt (by omega) (by omega)]
  · next hneg => rw [← hrem, Int.emod_eq_of_lt (by omega) hlt]

theorem mod_eq (x : ℤ) : mod x = x % snarkScalarField := tmod_lift (by decide) x

theorem mod_nonneg (x : ℤ) : 0 ≤ mod x := by
  rw [mod_eq]
  exact Int.emod_nonneg x (by decide)

theorem mod_lt (x : ℤ) : mod x < snarkScalarField := by
  rw [mod_eq]
  exact Int.emod_lt_of_pos x (by decide)

theorem mod_of_lt {x : ℤ} (h : 0 ≤ x) (hlt : x < snarkScalarField) : mod x = x := by
  rw [mod_eq, Int.emod_eq_of_lt h hlt]

@[simp] theorem cast_mod (x : ℤ) : ((mod x : ℤ) : Field) = x := by
  rw [mod_eq, ZMod.intCast_mod]

theorem mod_eq_mod {x y : ℤ} : mod x = mod y ↔ (x : Field) = y := by
  rw [mod_eq, mod_eq, ZMod.intCast_eq_intCast_iff']

theorem hexChar_one {n : ℕ} (h : n < 2) : hexChar n = '1' ↔ n = 1 := by
  interval_cases n <;> decide

-- The fold over the bits, the highest first, raises to their number.
theorem modpow_fold (b : ℤ) {ds : List ℕ} (hds : ∀ n ∈ ds, n < 2) :
    (((ds.map hexChar).foldl (fun acc bit =>
      let sq := mod (acc * acc)
      if bit = '1' then mod (sq * b) else sq) 1 : ℤ) : Field) = (b : Field) ^ digitsNumber 2 ds := by
  induction ds using List.reverseRecOn with
  | nil => simp [digitsNumber]
  | append_singleton ds n ih =>
    have hn : n < 2 := hds n (by simp)
    have hfold := ih fun m hm => hds m (by simp [hm])
    rw [List.map_append, List.foldl_append, digitsNumber_append, List.map_singleton, List.foldl_cons, List.foldl_nil]
    simp only [hexChar_one hn]
    split
    · next hone =>
      simp [hone, hfold, digitsNumber, pow_succ, pow_mul]
    · next hzero =>
      obtain rfl : n = 0 := by omega
      simp [hfold, digitsNumber, pow_mul, sq]

theorem cast_modpow (base exp : ℤ) : ((modpow base exp : ℤ) : Field) = (base : Field) ^ exp.toNat := by
  unfold modpow
  split
  · next h => simp [Int.toNat_of_nonpos h]
  · next h =>
    have hdigits : ∀ n ∈ numeralDigits 2 exp.toNat, n < 2 := fun n hn => numeralDigits_lt le_rfl hn
    have hfold := modpow_fold (mod base) hdigits
    rw [numeral_eq, hfold, digitsNumber_numeralDigits, cast_mod]

theorem cast_inv (x : ℤ) : ((inv x : ℤ) : Field) = (x : Field)⁻¹ := by
  unfold inv
  rw [cast_modpow, cast_mod]
  by_cases hx : (x : Field) = 0
  · rw [hx, inv_zero]
    exact zero_pow (by decide)
  · refine eq_inv_of_mul_eq_one_left ?_
    rw [← pow_succ]
    exact ZMod.pow_card_sub_one_eq_one hx

end Arithmetic

section Curve

theorem isSquare_a : IsSquare (168700 : Field) :=
  ⟨((7214280148105020021932206872019688659210616427216992810330019057549499971851 : ℕ) : Field), by
    rw [← Nat.cast_mul, ← Nat.cast_ofNat, ZMod.natCast_eq_natCast_iff']
    decide⟩

theorem two_ne : (2 : Field) ≠ 0 := by decide

theorem pow_half {x : ℕ} (h : Lucas.powMod snarkScalarField x 256 (snarkScalarField / 2) = snarkScalarField - 1) :
    (x : Field) ^ (snarkScalarField / 2) = -1 := by
  rw [Lucas.powMod_eq _ _ (by decide)] at h
  rw [← Nat.cast_pow, ← ZMod.natCast_mod, h, Nat.cast_sub (by decide), Nat.cast_one, ZMod.natCast_self, zero_sub]

theorem not_isSquare {x : Field} (h : x ^ (snarkScalarField / 2) = -1) : ¬ IsSquare x := by
  intro hsquare
  have hx : x ≠ 0 := by
    rintro rfl
    rw [zero_pow (by decide)] at h
    exact absurd h.symm (by simp)
  rw [(ZMod.euler_criterion snarkScalarField hx).1 hsquare] at h
  exact two_ne (by linear_combination h)

theorem not_isSquare_d : ¬ IsSquare (168696 : Field) :=
  not_isSquare (pow_half (x := 168696) (by decide +kernel))

def curve : Edwards.Curve Field := ⟨168700, 168696, isSquare_a, not_isSquare_d, two_ne⟩

-- The coordinates are those of the point, reduced or not.
structure Denotes (q : BigPoint) (p : Edwards.Point curve) : Prop where
  x : (q.1 : Field) = p.x
  y : (q.2 : Field) = p.y

def Reduced (q : BigPoint) : Prop := (0 ≤ q.1 ∧ q.1 < snarkScalarField) ∧ 0 ≤ q.2 ∧ q.2 < snarkScalarField

variable {q q' : BigPoint} {p p' : Edwards.Point curve}

theorem holds_iff : isOnCurve q ↔ curve.Holds (q.1 : Field) (q.2 : Field) := by
  simp only [isOnCurve, decide_eq_true_eq, mod_eq_mod, Edwards.Curve.Holds, curve, a, d, pow_two]
  push_cast [cast_mod]
  rw [mul_assoc (168696 : Field)]

theorem isOnCurve_iff : isOnCurve q ↔ ∃ p, Denotes q p :=
  holds_iff.trans ⟨fun h => ⟨⟨_, _, h⟩, rfl, rfl⟩, fun ⟨p, hx, hy⟩ => hx ▸ hy ▸ p.holds⟩

theorem Denotes.unique (h : Denotes q p) (h' : Denotes q p') : p = p' :=
  Edwards.Point.ext (h.x.symm.trans h'.x) (h.y.symm.trans h'.y)

theorem eq_of_cast {x y : ℤ} (hx : 0 ≤ x) (hlt : x < snarkScalarField) (hy : 0 ≤ y) (hlt' : y < snarkScalarField)
    (h : (x : Field) = y) : x = y := by
  rw [← mod_of_lt hx hlt, ← mod_of_lt hy hlt', mod_eq_mod, h]

-- Reduced coordinates are written one way.
theorem Denotes.coords (h : Denotes q p) (h' : Denotes q' p) (hq : Reduced q) (hq' : Reduced q') : q = q' :=
  Prod.ext (eq_of_cast hq.1.1 hq.1.2 hq'.1.1 hq'.1.2 (h.x.trans h'.x.symm))
    (eq_of_cast hq.2.1 hq.2.2 hq'.2.1 hq'.2.2 (h.y.trans h'.y.symm))

theorem reduced_addPoint (q q' : BigPoint) : Reduced (addPoint q q') :=
  ⟨⟨mod_nonneg _, mod_lt _⟩, mod_nonneg _, mod_lt _⟩

theorem Denotes.add (h : Denotes q p) (h' : Denotes q' p') : Denotes (addPoint q q') (p + p') := by
  refine ⟨?_, ?_⟩
  · rw [Edwards.add_x, div_eq_mul_inv]
    simp only [addPoint, cast_mod, cast_inv, Int.cast_mul, Int.cast_add, Int.cast_one, h.x, h.y, h'.x, h'.y, d, curve]
    push_cast
    congr 2
    ring
  · rw [Edwards.add_y, div_eq_mul_inv]
    simp only [addPoint, cast_mod, cast_inv, Int.cast_mul, Int.cast_sub, Int.cast_one, h.x, h.y, h'.x, h'.y, a, d, curve]
    push_cast
    congr 1
    · ring
    · congr 1
      ring

theorem denotes_identity : Denotes identity 0 := ⟨by simp [identity], by simp [identity]⟩

theorem reduced_identity : Reduced identity := by
  unfold Reduced identity
  decide

end Curve

section Scalar

variable {q : BigPoint} {p : Edwards.Point curve}

-- The fold over the bits, the lowest first, adds their number of the point.
theorem mul_fold {r b : BigPoint} {pr pb : Edwards.Point curve} (hr : Denotes r pr) (hb : Denotes b pb)
    {ds : List ℕ} (hds : ∀ n ∈ ds, n < 2) :
    Denotes ((ds.map hexChar).foldl (fun acc bit =>
      (if bit = '1' then addPoint acc.1 acc.2 else acc.1, addPoint acc.2 acc.2)) (r, b)).1
        (pr + Nat.ofDigits 2 ds • pb) := by
  induction ds generalizing r b pr pb with
  | nil => simpa [Nat.ofDigits_nil] using hr
  | cons n ds ih =>
    have hn : n < 2 := hds n List.mem_cons_self
    have hrest : ∀ m ∈ ds, m < 2 := fun m hm => hds m (List.mem_cons_of_mem _ hm)
    rw [List.map_cons, List.foldl_cons, Nat.ofDigits_cons]
    simp only [hexChar_one hn]
    have hdouble : (2 * Nat.ofDigits 2 ds) • pb = Nat.ofDigits 2 ds • (pb + pb) := by
      rw [mul_nsmul, two_nsmul]
    split
    · next hone =>
      have hnext := ih (hr.add hb) (hb.add hb) hrest
      rwa [hone, add_nsmul, one_nsmul, hdouble, ← add_assoc]
    · next hzero =>
      obtain rfl : n = 0 := by omega
      have hnext := ih hr (hb.add hb) hrest
      rwa [zero_add, hdouble]

theorem reduced_fold {acc : BigPoint × BigPoint} (h : Reduced acc.1) (bits : List Char) :
    Reduced (bits.foldl (fun acc bit =>
      (if bit = '1' then addPoint acc.1 acc.2 else acc.1, addPoint acc.2 acc.2)) acc).1 := by
  induction bits generalizing acc with
  | nil => exact h
  | cons bit bits ih =>
    refine ih ?_
    dsimp only
    split
    · exact reduced_addPoint _ _
    · exact h

-- The multiple of a point on the curve, in reduced coordinates.
theorem mulPointEscalar_denotes (h : Denotes q p) (n : ℕ) :
    ∃ r, mulPointEscalar q n = .ok r ∧ Denotes r (n • p) ∧ Reduced r := by
  have hdigits : ∀ m ∈ (numeralDigits 2 n).reverse, m < 2 := fun m hm =>
    numeralDigits_lt le_rfl (List.mem_reverse.1 hm)
  have hfold := mul_fold denotes_identity h hdigits
  rw [← digitsNumber_eq, digitsNumber_numeralDigits, zero_add, List.map_reverse, ← numeral_eq] at hfold
  exact ⟨_, by rw [mulPointEscalar, if_neg (by omega), Int.toNat_natCast], hfold, reduced_fold reduced_identity _⟩

end Scalar

section Subgroup

def basePoint : Edwards.Point curve := ⟨base8.1, base8.2, holds_iff.1 (by decide +kernel)⟩

theorem denotes_base8 : Denotes base8 basePoint := ⟨rfl, rfl⟩

theorem reduced_base8 : Reduced base8 := by
  unfold Reduced base8
  decide

theorem basePoint_ne_zero : basePoint ≠ 0 := by
  intro h
  have hreduced := denotes_base8.coords (h ▸ denotes_identity) reduced_base8 reduced_identity
  exact absurd hreduced (by decide)

theorem subgroupOrder_nsmul : subgroupOrder • basePoint = 0 := by
  have hbase : Edwards.StandsFor (base8.1.toNat, base8.2.toNat, 1) basePoint :=
    ⟨by simp, by simp [basePoint, base8], by simp [basePoint, base8]⟩
  have hmultiple : Edwards.StandsFor (Edwards.multipleOver snarkScalarField 168700 168696
      (base8.1.toNat, base8.2.toNat, 1) 252 subgroupOrder) (subgroupOrder • basePoint) :=
    hbase.multiple (by decide) rfl rfl (by decide)
  exact hmultiple.eq_zero (by decide +kernel) (by decide +kernel)

theorem addOrderOf_basePoint : addOrderOf basePoint = subgroupOrder :=
  have := Fact.mk prime_subgroupOrder
  addOrderOf_eq_prime subgroupOrder_nsmul basePoint_ne_zero

-- The points that the order takes to the identity are the multiples of the base point.
theorem mem_subgroup_iff {q : Edwards.Point curve} :
    q ∈ AddSubgroup.zmultiples basePoint ↔ subgroupOrder • q = 0 := by
  refine ⟨?_, fun h => ?_⟩
  · rintro ⟨k, rfl⟩
    rw [smul_comm, subgroupOrder_nsmul, smul_zero]
  · have hcard : Nat.card (Edwards.Point curve) < subgroupOrder * subgroupOrder := by
      refine Edwards.card_le.trans_lt ?_
      rw [Nat.card_zmod]
      decide
    exact Edwards.mem_zmultiples_of_card prime_subgroupOrder hcard basePoint_ne_zero subgroupOrder_nsmul h

end Subgroup

end Bongtu.Core.BabyJub
