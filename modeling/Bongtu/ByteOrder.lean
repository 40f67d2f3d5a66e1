import Mathlib.Data.Nat.Digits.Lemmas

namespace ByteOrder

variable {α : Type*}

def fromLE (bytes : List UInt8) : ℕ := Nat.ofDigits 256 (bytes.map UInt8.toNat)

def toLE (width n : ℕ) : List UInt8 := (List.range width).map fun i => UInt8.ofNat (n / 256 ^ i)

def fromBE (bytes : List UInt8) : ℕ := bytes.foldl (fun n b => n * 256 + b.toNat) 0

def toBE (width n : ℕ) : List UInt8 :=
  (List.range width).map fun i => UInt8.ofNat (n / 256 ^ (width - 1 - i))

-- The `length` entries of a buffer from `offset` on.
def readAt (offset length : ℕ) (buffer : List α) : List α := (buffer.drop offset).take length

def writeAt (offset : ℕ) (bytes buffer : List α) : List α :=
  buffer.take offset ++ bytes ++ buffer.drop (offset + bytes.length)

@[simp]
theorem length_toLE (width n : ℕ) : (toLE width n).length = width := by
  simp [toLE]

@[simp]
theorem length_toBE (width n : ℕ) : (toBE width n).length = width := by
  simp [toBE]

theorem fromBE_eq (bytes : List UInt8) : fromBE bytes = fromLE bytes.reverse := by
  rw [fromLE, Nat.ofDigits_eq_foldr, List.map_reverse, List.foldr_reverse, List.foldl_map]
  simp only [fromBE, Nat.cast_id, add_comm, mul_comm]

theorem toBE_eq (width n : ℕ) : toBE width n = (toLE width n).reverse := by
  have hreverse : (List.range width).reverse = (List.range width).map fun i => width - 1 - i := by
    rw [List.range_eq_range', List.reverse_range', ← List.range_eq_range', Nat.zero_add]
  rw [toLE, toBE, ← List.map_reverse, hreverse, List.map_map]
  rfl

theorem byte_lt {bytes : List UInt8} {d : ℕ} (hd : d ∈ bytes.map UInt8.toNat) : d < 256 := by
  obtain ⟨b, -, rfl⟩ := List.mem_map.mp hd
  exact b.toNat_lt

theorem fromLE_lt (bytes : List UInt8) : fromLE bytes < 256 ^ bytes.length := by
  have hlt := Nat.ofDigits_lt_base_pow_length (l := bytes.map UInt8.toNat) (by decide) fun _ => byte_lt
  rwa [List.length_map] at hlt

theorem fromLE_toLE (width n : ℕ) : fromLE (toLE width n) = n % 256 ^ width := by
  induction width with
  | zero => simp [toLE, fromLE, Nat.mod_one]
  | succ width ih =>
    have hlast : toLE (width + 1) n = toLE width n ++ [UInt8.ofNat (n / 256 ^ width)] := by
      simp [toLE, List.range_succ]
    have hdigit : (UInt8.ofNat (n / 256 ^ width)).toNat = n / 256 ^ width % 256 := UInt8.toNat_ofNat'
    rw [fromLE] at ih
    rw [hlast, fromLE, List.map_append, Nat.ofDigits_append, ih, List.length_map, length_toLE,
      List.map_singleton, Nat.ofDigits_singleton, hdigit, Nat.mod_pow_succ]

theorem fromLE_injective {bytes bytes' : List UInt8} (hlen : bytes.length = bytes'.length)
    (heq : fromLE bytes = fromLE bytes') : bytes = bytes' := by
  have hmap := Nat.ofDigits_inj_of_len_eq (by decide) (by simpa using hlen) (fun _ => byte_lt)
    (fun _ => byte_lt) heq
  exact List.map_injective_iff.mpr (fun _ _ => UInt8.toNat_inj.mp) hmap

theorem fromBE_lt (bytes : List UInt8) : fromBE bytes < 256 ^ bytes.length := by
  rw [fromBE_eq, ← List.length_reverse]
  exact fromLE_lt _

theorem fromBE_toBE (width n : ℕ) : fromBE (toBE width n) = n % 256 ^ width := by
  rw [fromBE_eq, toBE_eq, List.reverse_reverse, fromLE_toLE]

theorem fromBE_cons (b : UInt8) (bytes : List UInt8) :
    fromBE (b :: bytes) = b.toNat * 256 ^ bytes.length + fromBE bytes := by
  rw [fromBE_eq, fromBE_eq, List.reverse_cons, fromLE, fromLE, List.map_append, Nat.ofDigits_append, List.length_map,
    List.length_reverse, List.map_singleton, Nat.ofDigits_singleton, add_comm, mul_comm]

theorem fromBE_append (bytes bytes' : List UInt8) :
    fromBE (bytes ++ bytes') = fromBE bytes * 256 ^ bytes'.length + fromBE bytes' := by
  induction bytes with
  | nil => simp [fromBE]
  | cons b bytes ih =>
    rw [List.cons_append, fromBE_cons, fromBE_cons, ih, List.length_append, pow_add]
    ring

theorem fromBE_injective {bytes bytes' : List UInt8} (hlen : bytes.length = bytes'.length)
    (heq : fromBE bytes = fromBE bytes') : bytes = bytes' := by
  rw [fromBE_eq, fromBE_eq] at heq
  exact List.reverse_injective (fromLE_injective (by simpa using hlen) heq)

theorem toBE_fromBE (bytes : List UInt8) : toBE bytes.length (fromBE bytes) = bytes := by
  refine fromBE_injective (length_toBE _ _) ?_
  rw [fromBE_toBE, Nat.mod_eq_of_lt (fromBE_lt bytes)]

theorem length_readAt {offset length : ℕ} {buffer : List α} (h : offset + length ≤ buffer.length) :
    (readAt offset length buffer).length = length := by
  simp only [readAt, List.length_take, List.length_drop]
  omega

theorem getElem?_readAt (offset : ℕ) (buffer : List α) {length i : ℕ} (hi : i < length) :
    (readAt offset length buffer)[i]? = buffer[offset + i]? := by
  rw [readAt, List.getElem?_take_of_lt hi, List.getElem?_drop]

@[simp]
theorem readAt_cons (offset length : ℕ) (x : α) (buffer : List α) :
    readAt (1 + offset) length (x :: buffer) = readAt offset length buffer := by
  rw [Nat.add_comm, readAt, List.drop_succ_cons, readAt]

theorem length_writeAt {offset : ℕ} {bytes buffer : List α} (h : offset + bytes.length ≤ buffer.length) :
    (writeAt offset bytes buffer).length = buffer.length := by
  simp only [writeAt, List.length_append, List.length_take, List.length_drop]
  omega

theorem getElem?_writeAt {offset i : ℕ} {bytes buffer : List α} (h : offset + bytes.length ≤ buffer.length)
    (hi : i < offset ∨ offset + bytes.length ≤ i) : (writeAt offset bytes buffer)[i]? = buffer[i]? := by
  have htake : (buffer.take offset).length = offset := by
    rw [List.length_take]
    omega
  rcases hi with hi | hi
  · rw [writeAt, List.append_assoc, List.getElem?_append_left (by omega), List.getElem?_take_of_lt hi]
  · rw [writeAt, List.getElem?_append_right (by rw [List.length_append]; omega), List.length_append, htake,
      List.getElem?_drop, Nat.add_sub_cancel' hi]

theorem readAt_writeAt {offset : ℕ} {bytes buffer : List α} (h : offset + bytes.length ≤ buffer.length) :
    readAt offset bytes.length (writeAt offset bytes buffer) = bytes := by
  have htake : (buffer.take offset).length = offset := by
    rw [List.length_take]
    omega
  rw [readAt, writeAt, List.append_assoc, List.drop_left' htake, List.take_left' rfl]

-- A write leaves every range it does not meet.
theorem readAt_writeAt_of_disjoint {offset start length : ℕ} {bytes buffer : List α}
    (h : offset + bytes.length ≤ buffer.length)
    (hdisjoint : start + length ≤ offset ∨ offset + bytes.length ≤ start) :
    readAt start length (writeAt offset bytes buffer) = readAt start length buffer := by
  refine List.ext_getElem? fun i => ?_
  rcases lt_or_ge i length with hi | hi
  · rw [getElem?_readAt _ _ hi, getElem?_readAt _ _ hi, getElem?_writeAt h (by omega)]
  · rw [readAt, readAt, List.getElem?_eq_none ((List.length_take_le _ _).trans hi),
      List.getElem?_eq_none ((List.length_take_le _ _).trans hi)]

-- A buffer built from fields gives each of them back at the sum of the lengths before it.
theorem readAt_flatten {fields : List (List α)} {field : List α} : ∀ {i offset : ℕ},
    fields[i]? = some field → ((fields.take i).map List.length).sum = offset →
      readAt offset field.length fields.flatten = field := by
  induction fields with
  | nil =>
    intro i offset h
    simp at h
  | cons head rest ih =>
    intro i offset hfield hoffset
    cases i with
    | zero =>
      obtain rfl : head = field := by simpa using hfield
      obtain rfl : 0 = offset := by simpa using hoffset
      simp [readAt]
    | succ i =>
      rw [List.take_succ_cons, List.map_cons, List.sum_cons] at hoffset
      have hrest := ih (i := i) (by simpa using hfield) rfl
      subst hoffset
      rwa [readAt, List.flatten_cons, List.drop_append, List.drop_eq_nil_of_le (by omega),
        List.nil_append, Nat.add_sub_cancel_left]

-- A run of equally long fields behind a prefix.
theorem readAt_run (pre post : List α) {words : List (List α)} {width i : ℕ} {word : List α}
    (hwidth : ∀ x ∈ words, x.length = width) (hword : words[i]? = some word) :
    readAt (pre.length + width * i) width (pre ++ words.flatten ++ post) = word := by
  have hi : i < words.length := (List.getElem?_eq_some_iff.mp hword).1
  have hlen : word.length = width := hwidth word (List.mem_of_getElem? hword)
  have hsum : ((words.take i).map List.length).sum = width * i := by
    rw [List.map_congr_left fun x hx => hwidth x (List.mem_of_mem_take hx), List.map_const', List.sum_replicate,
      List.length_take, min_eq_left hi.le, nsmul_eq_mul, Nat.cast_id, mul_comm]
  have hfield : (pre :: words ++ [post])[i + 1]? = some word := by
    rw [List.cons_append, List.getElem?_cons_succ, List.getElem?_append_left hi, hword]
  have hread := readAt_flatten hfield rfl
  rw [List.cons_append, List.take_succ_cons, List.take_append_of_le_length hi.le, List.map_cons,
    List.sum_cons, hsum, hlen] at hread
  simpa using hread

end ByteOrder
