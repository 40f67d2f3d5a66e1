import Mathlib.Data.List.Prime
import Mathlib.NumberTheory.LucasPrimality

namespace Bongtu.Lucas

-- Squares and multiplies over the low bits of the exponent.
def powMod (m a : ℕ) : ℕ → ℕ → ℕ
  | 0, _ => 1 % m
  | bits + 1, n =>
    let r := powMod m a bits (n / 2)
    if n % 2 = 1 then r * r % m * a % m else r * r % m

theorem powMod_eq (m a : ℕ) {bits n : ℕ} (h : n < 2 ^ bits) : powMod m a bits n = a ^ n % m := by
  induction bits generalizing n with
  | zero =>
    obtain rfl : n = 0 := by simpa using h
    rfl
  | succ bits ih =>
    have hhalf : n / 2 < 2 ^ bits := by
      rw [pow_succ] at h
      omega
    have hsquare : a ^ (n / 2) % m * (a ^ (n / 2) % m) % m = a ^ (2 * (n / 2)) % m := by
      rw [← Nat.mul_mod, ← pow_add, two_mul]
    simp only [powMod, ih hhalf, hsquare]
    split
    · next hodd =>
      rw [Nat.mod_mul_mod, ← pow_succ]
      congr 2
      omega
    · next heven =>
      congr 2
      omega

-- `a` has order p - 1, whose primes these are.
def certified (p a : ℕ) (primes : List ℕ) : Bool :=
  1 < p ∧ p < 2 ^ 256 ∧ primes.prod = p - 1 ∧ powMod p a 256 (p - 1) = 1 ∧
    primes.all fun q => powMod p a 256 ((p - 1) / q) ≠ 1

variable {p a : ℕ} {primes : List ℕ}

theorem zmod_pow_eq_one (hp : 1 < p) (n : ℕ) : (a : ZMod p) ^ n = 1 ↔ a ^ n % p = 1 := by
  rw [← Nat.cast_pow, ← Nat.cast_one, ZMod.natCast_eq_natCast_iff', Nat.mod_eq_of_lt hp]

theorem prime_of_certified (h : certified p a primes) (hprimes : ∀ q ∈ primes, q.Prime) : p.Prime := by
  simp only [certified, decide_eq_true_eq, List.all_eq_true] at h
  obtain ⟨hp, hsmall, hprod, hone, hne⟩ := h
  have hpow : ∀ n ≤ p - 1, (a : ZMod p) ^ n = 1 ↔ powMod p a 256 n = 1 := by
    intro n hn
    rw [zmod_pow_eq_one hp, powMod_eq p a (by omega)]
  refine lucas_primality p a ((hpow _ le_rfl).2 hone) fun q hq hdvd => ?_
  rw [← hprod] at hdvd
  have hmem : q ∈ primes := mem_list_primes_of_dvd_prod hq.prime (fun r hr => (hprimes r hr).prime) hdvd
  rw [Ne, hpow _ (Nat.div_le_self _ _)]
  exact hne q hmem

-- Each entry rests on primes already known, its own included for the entries after it.
def chained : List ℕ → List (ℕ × ℕ × List ℕ) → Bool
  | _, [] => true
  | known, (p, a, primes) :: chain =>
    certified p a primes && primes.all (known.contains ·) && chained (p :: known) chain

theorem prime_of_chained {known : List ℕ} {chain : List (ℕ × ℕ × List ℕ)} (h : chained known chain)
    (hknown : ∀ q ∈ known, q.Prime) : ∀ entry ∈ chain, entry.1.Prime := by
  induction chain generalizing known with
  | nil => simp
  | cons entry chain ih =>
    obtain ⟨p, a, primes⟩ := entry
    simp only [chained, Bool.and_eq_true, List.all_eq_true, List.contains_iff_mem] at h
    obtain ⟨⟨hcertified, hprimes⟩, hchain⟩ := h
    have hp : p.Prime := prime_of_certified hcertified fun q hq => hknown q (hprimes q hq)
    refine List.forall_mem_cons.2 ⟨hp, ih hchain ?_⟩
    exact List.forall_mem_cons.2 ⟨hp, hknown⟩

end Bongtu.Lucas
