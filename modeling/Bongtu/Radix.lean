import Mathlib.Data.Nat.Digits.Lemmas

namespace Radix

variable {base mul : ℕ}

-- One sweep of `d * mul + c` over digits, the lowest first, and what is carried past them.
def carry (base mul : ℕ) : List ℕ → ℕ → List ℕ × ℕ
  | [], c => ([], c)
  | d :: ds, c =>
    let rest := carry base mul ds ((d * mul + c) / base)
    ((d * mul + c) % base :: rest.1, rest.2)

def mulAdd (base mul : ℕ) (ds : List ℕ) (c : ℕ) : List ℕ :=
  let swept := carry base mul ds c
  swept.1 ++ Nat.digits base swept.2

theorem mulAdd_cons (d : ℕ) (ds : List ℕ) (c : ℕ) :
    mulAdd base mul (d :: ds) c = (d * mul + c) % base :: mulAdd base mul ds ((d * mul + c) / base) := rfl

theorem mulAdd_digits (hbase : 1 < base) (hmul : 0 < mul) (n c : ℕ) :
    mulAdd base mul (Nat.digits base n) c = Nat.digits base (n * mul + c) := by
  induction n using Nat.strong_induction_on generalizing c with
  | _ n ih =>
    rcases Nat.eq_zero_or_pos n with rfl | hn
    · simp [mulAdd, carry]
    · have hsplit : n * mul + c = n % base * mul + c + base * (n / base * mul) := by
        calc n * mul + c = (n % base + base * (n / base)) * mul + c := by rw [Nat.mod_add_div]
          _ = n % base * mul + c + base * (n / base * mul) := by ring
      have hpos : 0 < n * mul + c := Nat.add_pos_left (Nat.mul_pos hn hmul) c
      rw [Nat.digits_def' hbase hn, mulAdd_cons, ih _ (Nat.div_lt_self hn hbase), Nat.digits_def' hbase hpos, hsplit,
        Nat.add_mul_mod_self_left, Nat.add_mul_div_left _ _ (by omega), add_comm (n / base * mul)]

theorem foldl_mulAdd (hbase : 1 < base) (hmul : 0 < mul) (cs : List ℕ) (n : ℕ) :
    cs.foldl (mulAdd base mul) (Nat.digits base n) = Nat.digits base (cs.foldl (fun n c => n * mul + c) n) := by
  induction cs generalizing n with
  | nil => rfl
  | cons c cs ih => rw [List.foldl_cons, mulAdd_digits hbase hmul, ih, List.foldl_cons]

-- Digits, the highest first, are their leading zeros and then those of their number.
theorem eq_zeros_append_digits (hbase : 1 < base) {ds : List ℕ} (h : ∀ d ∈ ds, d < base) :
    ds = List.replicate (ds.takeWhile (· = 0)).length 0 ++
      (Nat.digits base (Nat.ofDigits base ds.reverse)).reverse := by
  induction ds with
  | nil => simp
  | cons d ds ih =>
    rcases Nat.eq_zero_or_pos d with rfl | hd
    · rw [List.takeWhile_cons_of_pos (by simp), List.length_cons, List.replicate_succ, List.cons_append,
        List.reverse_cons, Nat.ofDigits_append_zero, ← ih fun e he => h e (List.mem_cons_of_mem _ he)]
    · have hlast : ∀ hne : (d :: ds).reverse ≠ [], (d :: ds).reverse.getLast hne ≠ 0 := by
        intro hne
        rw [List.getLast_reverse, List.head_cons]
        exact hd.ne'
      rw [List.takeWhile_cons_of_neg (by simpa using hd.ne'), List.length_nil, List.replicate_zero, List.nil_append,
        Nat.digits_ofDigits base hbase _ (fun e he => h e (List.mem_reverse.1 he)) hlast, List.reverse_reverse]

end Radix
