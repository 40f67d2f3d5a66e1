import Bongtu.Outcome

namespace Bongtu

abbrev Bytes := List UInt8

-- A Groth16 proof: two points over the base field and one over its quadratic extension.
structure Proof where
  a : ℕ × ℕ
  b : (ℕ × ℕ) × (ℕ × ℕ)
  c : ℕ × ℕ
deriving DecidableEq, Repr

def kemCiphertextLen : ℕ := 1088

def snarkScalarField : ℕ :=
  21888242871839275222246405745257275088548364400416034343698204186575808495617

-- The widths of the public vectors, so that a numeral indexes one.
instance neZero8 : NeZero 8 := ⟨by decide⟩

instance neZero11 : NeZero 11 := ⟨by decide⟩

instance neZero16 : NeZero 16 := ⟨by decide⟩

instance neZero19 : NeZero 19 := ⟨by decide⟩

instance neZero20 : NeZero 20 := ⟨by decide⟩

instance neZero27 : NeZero 27 := ⟨by decide⟩

instance neZero36 : NeZero 36 := ⟨by decide⟩

instance neZero37 : NeZero 37 := ⟨by decide⟩

instance neZero68 : NeZero 68 := ⟨by decide⟩

instance neZero141 : NeZero 141 := ⟨by decide⟩

variable {W : Type}

-- `pub[offset .. offset + length)` of a fixed-width public vector.
def slice {n : ℕ} [Zero W] (pub : Fin n → W) (offset length : ℕ) : List W :=
  (List.range length).map fun i => if h : offset + i < n then pub ⟨offset + i, h⟩ else 0

-- `injected[index + i] = values[i]`
def inject {n : ℕ} (pub : Fin n → W) (index : ℕ) (values : List W) : Fin n → W :=
  fun i => if h : index ≤ i.val ∧ i.val - index < values.length then values.get ⟨i.val - index, h.2⟩
    else pub i

def signal {n : ℕ} [Zero W] (pub : Fin n → W) (i : ℕ) : W := if h : i < n then pub ⟨i, h⟩ else 0

-- `carried` with `run` placed before the signal at `index`, as the program rebuilds a public vector.
def insertRun {n m : ℕ} [Zero W] (carried : Fin n → W) (index : ℕ) (run : List W) : Fin m → W :=
  fun i =>
    if i.val < index then signal carried i.val
    else if i.val < index + run.length then run.getD (i.val - index) 0
    else signal carried (i.val - run.length)

-- What a rail that rebuilds `length` signals at `index` puts on the wire.
def dropRun {n m : ℕ} [Zero W] (pub : Fin m → W) (index length : ℕ) : Fin n → W :=
  fun i => signal pub (if i.val < index then i.val else i.val + length)

theorem insertRun_dropRun {n m : ℕ} [Zero W] (pub : Fin m → W) {index : ℕ} (run : List W)
    (hm : m = n + run.length) (hindex : index ≤ n) :
    insertRun (dropRun pub index run.length : Fin n → W) index run = inject pub index run := by
  funext i
  have hi := i.isLt
  unfold insertRun inject
  split
  · case isTrue hlt =>
    have hn : i.val < n := by omega
    simp [signal, dropRun, hn, hlt]
  · case isFalse hge =>
    split
    · case isTrue hlt =>
      have hrun : index ≤ i.val ∧ i.val - index < run.length := by omega
      rw [dif_pos hrun, List.getD_eq_getElem?_getD, List.getElem?_eq_getElem hrun.2]
      rfl
    · case isFalse hout =>
      have hn : i.val - run.length < n := by omega
      have hlow : ¬i.val - run.length < index := by omega
      have hback : i.val - run.length + run.length = i.val := by omega
      rw [dif_neg (by omega)]
      simp [signal, dropRun, hn, hlow, hback]

theorem dropRun_mem {n m : ℕ} [Zero W] (pub : Fin m → W) (index : ℕ) {run : List W}
    (hm : m = n + run.length) (i : Fin n) :
    ∃ j, (dropRun pub index run.length : Fin n → W) i = inject pub index run j := by
  have hi := i.isLt
  unfold dropRun signal
  split
  · case isTrue hlt =>
    refine ⟨⟨i.val, by omega⟩, ?_⟩
    rw [dif_pos (by omega), inject, dif_neg (by dsimp only; omega)]
  · case isFalse hge =>
    refine ⟨⟨i.val + run.length, by omega⟩, ?_⟩
    rw [dif_pos (by omega), inject, dif_neg (by dsimp only; omega)]

section Comp

variable {V : Type} [Zero V] [Zero W] {f : V → W}

theorem signal_comp {n : ℕ} (hf : f 0 = 0) (pub : Fin n → V) (i : ℕ) :
    signal (f ∘ pub) i = f (signal pub i) := by
  unfold signal
  split
  · rfl
  · exact hf.symm

-- Where a rebuilt vector takes a slot from does not look at the signals.
theorem insertRun_comp {n m : ℕ} (hf : f 0 = 0) (carried : Fin n → V) (index : ℕ) (run : List V) :
    (insertRun (f ∘ carried) index (run.map f) : Fin m → W) = f ∘ insertRun carried index run := by
  funext i
  simp only [insertRun, Function.comp_apply, List.length_map]
  split
  · exact signal_comp hf carried i.val
  · split
    · rw [List.getD_eq_getElem?_getD, List.getElem?_map, List.getD_eq_getElem?_getD]
      cases run[i.val - index]? with
      | none => exact hf.symm
      | some x => rfl
    · exact signal_comp hf carried (i.val - run.length)

end Comp

theorem signal_val {n : ℕ} [Zero W] (pub : Fin n → W) (i : Fin n) : signal pub i.val = pub i :=
  dif_pos i.isLt

theorem signal_inject_off {n : ℕ} [Zero W] (pub : Fin n → W) {index : ℕ} (values : List W) {i : ℕ}
    (hi : i < index ∨ index + values.length ≤ i) : signal (inject pub index values) i = signal pub i := by
  unfold signal
  split
  · rw [inject, dif_neg]
    rintro ⟨hle, hlt⟩
    dsimp only at hle hlt
    omega
  · rfl

theorem signal_inject_on {n : ℕ} [Zero W] (pub : Fin n → W) {index : ℕ} {values : List W} {j : ℕ}
    (hj : j < values.length) (hn : index + values.length ≤ n) :
    signal (inject pub index values) (index + j) = values.getD j 0 := by
  rw [signal, dif_pos (by omega), inject, dif_pos ⟨Nat.le_add_right _ _, by dsimp only; omega⟩,
    List.getD_eq_getElem?_getD, List.getElem?_eq_getElem hj]
  simp

theorem insertRun_nil {n : ℕ} [Zero W] (carried : Fin n → W) (index : ℕ) :
    (insertRun carried index [] : Fin n → W) = carried := by
  funext i
  unfold insertRun
  split
  · exact signal_val carried i
  · rw [List.length_nil, Nat.add_zero, if_neg (by assumption)]
    exact signal_val carried i

def enabled [DecidableEq W] [Zero W] [One W] (nullifiers : List W) : List W :=
  nullifiers.map fun nf => if nf ≠ 0 then 1 else 0

def stripZeros [DecidableEq W] [Zero W] (raw : List W) : List W := raw.filter fun nf => nf ≠ 0

end Bongtu
