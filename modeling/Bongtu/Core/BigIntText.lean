import Bongtu.Core.Text

namespace Bongtu.Core

-- The digits of a base up to sixteen.
def digitBelow (base : ℕ) (c : Char) : Option ℕ := (hexDigit c).filter (· < base)

def digitsNumber (base : ℕ) (digits : List ℕ) : ℕ := digits.foldl (fun n d => n * base + d) 0

def numberOf (base : ℕ) : List Char → Option ℕ
  | [] => none
  | c :: cs => ((c :: cs).mapM (digitBelow base)).map (digitsNumber base)

def integerLiteral : List Char → Option ℤ
  | [] => some 0
  | '0' :: 'x' :: h | '0' :: 'X' :: h => (numberOf 16 h).map Int.ofNat
  | '0' :: 'o' :: h | '0' :: 'O' :: h => (numberOf 8 h).map Int.ofNat
  | '0' :: 'b' :: h | '0' :: 'B' :: h => (numberOf 2 h).map Int.ofNat
  | '-' :: h => (numberOf 10 h).map fun n => -(n : ℤ)
  | '+' :: h => (numberOf 10 h).map Int.ofNat
  | h => (numberOf 10 h).map Int.ofNat

-- `BigInt` of a text; what it refuses is a SyntaxError.
def bigIntOf (s : String) : Option ℤ := integerLiteral (trim s).toList

-- `toString` of a whole number in a base.
def numeral (base n : ℕ) : List Char :=
  if n = 0 then ['0'] else ((Nat.digits base n).map hexChar).reverse

def bigIntText (base : ℕ) (x : ℤ) : List Char :=
  if x < 0 then '-' :: numeral base x.natAbs else numeral base x.natAbs

def padStart (width : ℕ) (c : Char) (cs : List Char) : List Char :=
  List.replicate (width - cs.length) c ++ cs

theorem hexDigit_hexChar {d : ℕ} (h : d < 16) : hexDigit (hexChar d) = some d := by
  interval_cases d <;> rfl

theorem digitBelow_hexChar {base d : ℕ} (hd : d < base) (hbase : base ≤ 16) :
    digitBelow base (hexChar d) = some d := by
  simp [digitBelow, hexDigit_hexChar (hd.trans_le hbase), hd]

theorem mapM_digitBelow {base : ℕ} (hbase : base ≤ 16) {ds : List ℕ} (h : ∀ d ∈ ds, d < base) :
    (ds.map hexChar).mapM (digitBelow base) = some ds := by
  induction ds with
  | nil => rfl
  | cons d ds ih =>
    rw [List.map_cons, List.mapM_cons, digitBelow_hexChar (h d List.mem_cons_self) hbase,
      ih fun e he => h e (List.mem_cons_of_mem d he)]
    rfl

theorem digitsNumber_eq (base : ℕ) (ds : List ℕ) :
    digitsNumber base ds = Nat.ofDigits base ds.reverse := by
  rw [Nat.ofDigits_eq_foldr, List.foldr_reverse]
  unfold digitsNumber
  congr 1
  funext n d
  simp [mul_comm, add_comm]

-- A run of digits read from its values.
theorem numberOf_digits {base : ℕ} (hbase : base ≤ 16) {ds : List ℕ} (hne : ds ≠ [])
    (h : ∀ d ∈ ds, d < base) : numberOf base (ds.map hexChar) = some (digitsNumber base ds) := by
  cases ds with
  | nil => exact absurd rfl hne
  | cons d ds =>
    have hmap := mapM_digitBelow hbase h
    rw [List.map_cons] at hmap ⊢
    rw [numberOf, hmap, Option.map_some]

-- The digits of a numeral, first one first.
def numeralDigits (base n : ℕ) : List ℕ := if n = 0 then [0] else (Nat.digits base n).reverse

theorem numeral_eq (base n : ℕ) : numeral base n = (numeralDigits base n).map hexChar := by
  unfold numeral numeralDigits
  split
  · rfl
  · rw [List.map_reverse]

theorem numeralDigits_ne_nil (base n : ℕ) : numeralDigits base n ≠ [] := by
  unfold numeralDigits
  split
  · simp
  · next h => simpa using Nat.digits_ne_nil_iff_ne_zero.2 h

theorem numeralDigits_lt {base n d : ℕ} (hbase : 2 ≤ base) (h : d ∈ numeralDigits base n) : d < base := by
  unfold numeralDigits at h
  split at h
  · rw [List.mem_singleton.1 h]
    omega
  · exact Nat.digits_lt_base hbase (List.mem_reverse.1 h)

theorem digitsNumber_numeralDigits (base n : ℕ) : digitsNumber base (numeralDigits base n) = n := by
  unfold numeralDigits
  split
  · next h => simp [digitsNumber, h]
  · rw [digitsNumber_eq, List.reverse_reverse, Nat.ofDigits_digits]

theorem digitsNumber_append (base : ℕ) (ds es : List ℕ) :
    digitsNumber base (ds ++ es) = digitsNumber base ds * base ^ es.length + digitsNumber base es := by
  rw [digitsNumber_eq, digitsNumber_eq, digitsNumber_eq, List.reverse_append, Nat.ofDigits_append,
    List.length_reverse]
  ring

theorem digitsNumber_zeros (base k : ℕ) : digitsNumber base (List.replicate k 0) = 0 := by
  rw [digitsNumber_eq, List.reverse_replicate, Nat.ofDigits_replicate_zero]

-- A padded numeral reads back.
theorem numberOf_padStart {base : ℕ} (hlow : 2 ≤ base) (hbase : base ≤ 16) (width n : ℕ) :
    numberOf base (padStart width '0' (numeral base n)) = some n := by
  have hpad : padStart width '0' (numeral base n) =
      (List.replicate (width - (numeral base n).length) 0 ++ numeralDigits base n).map hexChar := by
    rw [padStart, List.map_append, List.map_replicate, ← numeral_eq]
    rfl
  rw [hpad, numberOf_digits hbase (by simp [numeralDigits_ne_nil]), digitsNumber_append,
    digitsNumber_zeros, digitsNumber_numeralDigits, zero_mul, zero_add]
  intro d hd
  rcases List.mem_append.1 hd with hd | hd
  · rw [List.eq_of_mem_replicate hd]
    omega
  · exact numeralDigits_lt hlow hd

theorem numberOf_numeral {base : ℕ} (hlow : 2 ≤ base) (hbase : base ≤ 16) (n : ℕ) :
    numberOf base (numeral base n) = some n := by
  simpa [padStart] using numberOf_padStart hlow hbase 0 n

theorem mem_bigIntText {base : ℕ} {x : ℤ} {c : Char} (h : c ∈ bigIntText base x) :
    c = '-' ∨ ∃ d, c = hexChar d := by
  unfold bigIntText at h
  rw [numeral_eq] at h
  split at h
  · rcases List.mem_cons.1 h with rfl | h
    · exact .inl rfl
    · obtain ⟨d, -, rfl⟩ := List.mem_map.1 h
      exact .inr ⟨d, rfl⟩
  · obtain ⟨d, -, rfl⟩ := List.mem_map.1 h
    exact .inr ⟨d, rfl⟩

theorem hexChar_ne {c : Char} (h : c ∉ "0123456789abcdef".toList) (d : ℕ) : hexChar d ≠ c := by
  rintro rfl
  refine h ?_
  rcases lt_or_ge d 16 with hd | hd
  · interval_cases d <;> decide
  · rw [hexChar, List.getD, List.getElem?_eq_none (by simpa using hd)]
    decide

theorem numeral_no_sign (base n : ℕ) (cs : List Char) : numeral base n ≠ '-' :: cs := by
  intro h
  have hmem : '-' ∈ numeral base n := h ▸ List.mem_cons_self
  rw [numeral_eq] at hmem
  obtain ⟨d, -, hd⟩ := List.mem_map.1 hmem
  exact hexChar_ne (by decide) d hd

theorem bigIntText_injective {base : ℕ} (hlow : 2 ≤ base) (hbase : base ≤ 16) :
    Function.Injective (bigIntText base) := by
  have hnumeral : ∀ {m n : ℕ}, numeral base m = numeral base n → m = n := by
    intro m n h
    have hread := numberOf_numeral hlow hbase m
    rw [h, numberOf_numeral hlow hbase] at hread
    exact (Option.some.inj hread).symm
  intro x y h
  unfold bigIntText at h
  split at h
  · next hx =>
    split at h
    · next hy =>
      have habs := hnumeral (List.cons.inj h).2
      omega
    · exact absurd h.symm (numeral_no_sign base _ _)
  · next hx =>
    split at h
    · exact absurd h (numeral_no_sign base _ _)
    · next hy =>
      have habs := hnumeral h
      omega

theorem jsSpace_hexChar (d : ℕ) : jsSpace (hexChar d) = false := by
  rcases lt_or_ge d 16 with h | h
  · interval_cases d <;> rfl
  · rw [hexChar, List.getD, List.getElem?_eq_none (by simpa using h)]
    rfl

-- A numeral ends in a digit.
theorem numeral_getLast (base n : ℕ) : ∃ init d, numeral base n = init ++ [hexChar d] := by
  rw [numeral_eq]
  rcases List.eq_nil_or_concat (numeralDigits base n) with h | ⟨init, d, h⟩
  · exact absurd h (numeralDigits_ne_nil base n)
  · exact ⟨init.map hexChar, d, by rw [h, List.concat_eq_append, List.map_append, List.map_singleton]⟩

theorem bigIntText_getLast (base : ℕ) (x : ℤ) : ∃ init d, bigIntText base x = init ++ [hexChar d] := by
  obtain ⟨init, d, h⟩ := numeral_getLast base x.natAbs
  unfold bigIntText
  split
  · exact ⟨'-' :: init, d, by rw [h, List.cons_append]⟩
  · exact ⟨init, d, h⟩

-- Text that starts and ends with no space is left alone.
theorem trim_of_ends (cs : List Char) {first last : Char} (hfirst : jsSpace first = false)
    (hlast : jsSpace last = false) : trim (String.ofList (first :: (cs ++ [last]))) =
      String.ofList (first :: (cs ++ [last])) := by
  rw [trim, String.toList_ofList, List.dropWhile_cons_of_neg (by simp [hfirst]), ← List.cons_append,
    List.reverse_append, List.reverse_singleton, List.singleton_append,
    List.dropWhile_cons_of_neg (by simp [hlast])]
  simp

end Bongtu.Core
