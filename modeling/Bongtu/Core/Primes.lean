import Bongtu.Core.Text
import Bongtu.Lucas
import Mathlib.Tactic.NormNum.Prime

namespace Bongtu.Core

open Lucas

def smallPrimes : List ℕ :=
  [2, 3, 5, 7, 11, 13, 17, 19, 23, 29, 83, 107, 229, 349, 379, 521, 661, 823, 853, 967, 983, 1637, 3691, 4139, 4999,
    6323, 11003, 27743, 33409, 43189, 93001, 237073, 295049, 336157, 513749, 1593227, 10206821]

theorem smallPrimes_prime : ∀ q ∈ smallPrimes, q.Prime := by
  simp only [smallPrimes, List.forall_mem_cons]
  norm_num

-- Down to the scalar field's order.
def fieldChain : List (ℕ × ℕ × List ℕ) :=
  [(405928799, 22, [2, 11, 3691, 4999]),
    (12048837557, 2, [2, 2, 7, 7, 661, 93001]),
    (5156902474397, 2, [2, 2, 107, 12048837557]),
    (1670836401704629, 2, [2, 2, 3, 3, 3, 3, 5156902474397]),
    (639533339, 2, [2, 229, 853, 1637]),
    (65865678001877903, 5, [2, 83, 379, 1637, 639533339]),
    (13818364434197438864469338081, 3, [2, 2, 2, 2, 2, 5, 823, 1593227, 65865678001877903]),
    (snarkScalarField, 5, List.replicate 28 2 ++ [3, 3, 13, 29, 983, 11003, 237073, 405928799, 1670836401704629,
      13818364434197438864469338081])]

def subgroupChain : List (ℕ × ℕ × List ℕ) :=
  [(25485742523, 2, [2, 43189, 295049]),
    (202795150404015601, 7, [2, 2, 2, 2, 3, 5, 5, 19, 349, 25485742523]),
    (431548080059745198929, 3, [2, 2, 2, 2, 7, 19, 202795150404015601]),
    (32151195060611136810608359, 3, [2, 3, 3, 4139, 431548080059745198929]),
    (81654569, 3, [2, 2, 2, 10206821]),
    (27892051421815855583579, 2, [2, 23, 521, 27743, 513749, 81654569]),
    (1863691091902891838383581623, 5, [2, 33409, 27892051421815855583579]),
    (178259130663561045147472537592047227885001, 14,
      [2, 2, 2, 3, 3, 5, 5, 5, 5, 6323, 336157, 1863691091902891838383581623]),
    (subgroupOrder, 31, [2, 2, 2, 2, 3, 5, 11, 11, 17, 967, 32151195060611136810608359,
      178259130663561045147472537592047227885001])]

theorem chains_prime : ∀ entry ∈ fieldChain ++ subgroupChain, entry.1.Prime :=
  prime_of_chained (show chained smallPrimes _ by decide +kernel) smallPrimes_prime

theorem prime_snarkScalarField : snarkScalarField.Prime :=
  chains_prime (fieldChain.get (7 : Fin 8)) (List.mem_append_left _ (List.get_mem _ _))

instance : Fact snarkScalarField.Prime := ⟨prime_snarkScalarField⟩

theorem prime_subgroupOrder : subgroupOrder.Prime :=
  chains_prime (subgroupChain.get (8 : Fin 9)) (List.mem_append_right _ (List.get_mem _ _))

end Bongtu.Core
