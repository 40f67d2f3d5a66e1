import Bongtu.Client.Money

namespace Bongtu.Client.Money

open Core

section Values

variable {cs ds whole frac : List Char} {vals : List ℕ}

theorem isDigit_hexChar {d : ℕ} (h : d < 10) : isDigit (hexChar d) := by
  interval_cases d <;> rfl

theorem exists_value {c : Char} (h : isDigit c) : ∃ d < 10, c = hexChar d := by
  simp only [isDigit, decide_eq_true_eq] at h
  have hlow : 48 ≤ c.toNat := h.1
  have hhigh : c.toNat ≤ 57 := h.2
  refine ⟨c.toNat - 48, by omega, ?_⟩
  have hc : c = Char.ofNat c.toNat := (Char.ofNat_toNat c).symm
  generalize c.toNat = n at hlow hhigh hc
  subst hc
  interval_cases n <;> rfl

-- A text of digits is the text of its values.
theorem exists_values (h : ∀ d ∈ ds, isDigit d) :
    ∃ vals : List ℕ, (∀ v ∈ vals, v < 10) ∧ ds = vals.map hexChar := by
  induction ds with
  | nil => exact ⟨[], by simp, rfl⟩
  | cons d ds ih =>
    obtain ⟨hd, hds⟩ := List.forall_mem_cons.1 h
    obtain ⟨v, hv, rfl⟩ := exists_value hd
    obtain ⟨vals, hvals, rfl⟩ := ih hds
    exact ⟨v :: vals, by simpa [hv] using hvals, rfl⟩

theorem digits_of_values (h : ∀ v ∈ vals, v < 10) : ∀ d ∈ vals.map hexChar, isDigit d := by
  intro d hd
  obtain ⟨v, hv, rfl⟩ := List.mem_map.1 hd
  exact isDigit_hexChar (h v hv)

theorem readDigits_values (h : ∀ v ∈ vals, v < 10) :
    readDigits (vals.map hexChar) = digitsNumber 10 vals := by
  cases vals with
  | nil => rfl
  | cons v vals => rw [readDigits, numberOf_digits (by omega) (by simp) h, Option.getD_some]

theorem digitsNumber_lt (h : ∀ v ∈ vals, v < 10) : digitsNumber 10 vals < 10 ^ vals.length := by
  rw [digitsNumber_eq, ← List.length_reverse]
  exact Nat.ofDigits_lt_base_pow_length (by omega) (by simpa using h)

theorem readDigits_append (hds : ∀ d ∈ ds, isDigit d) (hcs : ∀ d ∈ cs, isDigit d) :
    readDigits (ds ++ cs) = readDigits ds * 10 ^ cs.length + readDigits cs := by
  obtain ⟨vals, hvals, rfl⟩ := exists_values hds
  obtain ⟨more, hmore, rfl⟩ := exists_values hcs
  have hall : ∀ v ∈ vals ++ more, v < 10 := fun v hv => (List.mem_append.1 hv).elim (hvals v) (hmore v)
  rw [← List.map_append, readDigits_values hall, readDigits_values hvals, readDigits_values hmore,
    digitsNumber_append, List.length_map]

theorem readDigits_lt (hds : ∀ d ∈ ds, isDigit d) : readDigits ds < 10 ^ ds.length := by
  obtain ⟨vals, hvals, rfl⟩ := exists_values hds
  rw [readDigits_values hvals, List.length_map]
  exact digitsNumber_lt hvals

theorem readDigits_zeros (k : ℕ) : readDigits (List.replicate k '0') = 0 := by
  have hzeros : List.replicate k '0' = (List.replicate k 0).map hexChar := by
    rw [List.map_replicate]
    rfl
  rw [hzeros, readDigits_values (by simp), digitsNumber_zeros]

theorem digits_zeros (k : ℕ) : ∀ d ∈ List.replicate k '0', isDigit d := by
  intro d hd
  rw [List.eq_of_mem_replicate hd]
  rfl

theorem readDigits_padEnd (hfrac : ∀ d ∈ frac, isDigit d) (decimals : ℕ) :
    readDigits (padEnd decimals '0' frac) = readDigits frac * 10 ^ (decimals - frac.length) := by
  rw [padEnd, readDigits_append hfrac (digits_zeros _), readDigits_zeros, List.length_replicate, add_zero]

theorem numeral_digits (n : ℕ) : ∀ d ∈ numeral 10 n, isDigit d := by
  rw [numeral_eq]
  exact digits_of_values fun v hv => numeralDigits_lt (by omega) hv

theorem numeral_ne_nil (n : ℕ) : numeral 10 n ≠ [] := by
  rw [numeral_eq]
  simpa using numeralDigits_ne_nil 10 n

theorem readDigits_numeral (n : ℕ) : readDigits (numeral 10 n) = n := by
  rw [numeral_eq, readDigits_values fun v hv => numeralDigits_lt (by omega) hv,
    digitsNumber_numeralDigits]

theorem numeral_length {n k : ℕ} (hk : 0 < k) (h : n < 10 ^ k) : (numeral 10 n).length ≤ k := by
  rw [numeral_eq, List.length_map, numeralDigits]
  split
  · exact hk
  · next hn =>
    rw [List.length_reverse]
    exact (Nat.digits_length_le_iff (by omega) n).2 h

-- A text of digits with no leading zero is the numeral of what it reads as.
theorem numeral_readDigits {c : Char} (h : ∀ d ∈ c :: cs, isDigit d) (hc : c ≠ '0') :
    numeral 10 (readDigits (c :: cs)) = c :: cs := by
  obtain ⟨vals, hvals, heq⟩ := exists_values h
  cases vals with
  | nil => exact absurd heq (by simp)
  | cons v vals =>
    have hv : v ≠ 0 := by
      rintro rfl
      exact hc (List.cons.inj heq).1
    have hpos : digitsNumber 10 (v :: vals) ≠ 0 := by
      have happend := digitsNumber_append 10 [v] vals
      have hone : digitsNumber 10 [v] = v := by simp [digitsNumber]
      rw [hone, List.singleton_append] at happend
      have : 0 < v * 10 ^ vals.length := Nat.mul_pos (by omega) (by positivity)
      omega
    rw [heq, readDigits_values hvals, numeral_eq, numeralDigits, if_neg hpos, digitsNumber_eq,
      Nat.digits_ofDigits 10 (by omega) _ (fun l hl => hvals l (List.mem_reverse.1 hl)) (by simpa using hv), List.reverse_reverse]

-- A numeral of two digits or more starts with no zero.
theorem numeral_head {n : ℕ} (hne : cs ≠ []) : numeral 10 n ≠ '0' :: cs := by
  intro h
  have hcs : ∀ d ∈ cs, isDigit d := fun d hd => numeral_digits n d (h ▸ List.mem_cons_of_mem _ hd)
  have hn : n = readDigits cs := by
    have hdigit : ∀ d ∈ ['0'], isDigit d := by simp [isDigit]
    have hread := readDigits_append hdigit hcs
    rw [List.singleton_append, ← h, readDigits_numeral] at hread
    have hzero : readDigits ['0'] = 0 := readDigits_zeros 1
    rw [hread, hzero, zero_mul, zero_add]
  have hlen := numeral_length (List.length_pos_iff.2 hne) (hn ▸ readDigits_lt hcs)
  rw [h, List.length_cons] at hlen
  omega

end Values

section Format

variable {v decimals : ℕ}

-- Cut down to the digits shown.
def shown (decimals x : ℕ) : ℕ :=
  let hidden := 10 ^ (decimals - min displayFractionDigits decimals)
  x / hidden * hidden

theorem padStart_digits (k n : ℕ) : ∀ d ∈ padStart k '0' (numeral 10 n), isDigit d := by
  intro d hd
  rcases List.mem_append.1 hd with hd | hd
  · exact digits_zeros _ d hd
  · exact numeral_digits n d hd

theorem readDigits_padStart (k n : ℕ) : readDigits (padStart k '0' (numeral 10 n)) = n := by
  rw [padStart, readDigits_append (digits_zeros _) (numeral_digits n), readDigits_zeros, zero_mul, zero_add,
    readDigits_numeral]

-- Dropping the zeros at the end divides out their power of ten.
theorem rdropWhile_zeros {cs : List Char} : ∃ k, cs = cs.rdropWhile (· = '0') ++ List.replicate k '0' := by
  refine ⟨(cs.rtakeWhile (· = '0')).length, ?_⟩
  have hzeros : cs.rtakeWhile (· = '0') = List.replicate (cs.rtakeWhile (· = '0')).length '0' :=
    List.eq_replicate_iff.2 ⟨rfl, fun c hc => by simpa using List.mem_rtakeWhile_imp hc⟩
  rw [← hzeros, List.rdropWhile_append_rtakeWhile]

theorem formatFraction_spec (h : v < 10 ^ decimals) :
    (∀ d ∈ formatFraction v decimals, isDigit d) ∧
      (formatFraction v decimals).length ≤ min displayFractionDigits decimals ∧
      readDigits (padEnd decimals '0' (formatFraction v decimals)) = shown decimals v := by
  rcases Nat.eq_zero_or_pos decimals with rfl | hpos
  · obtain rfl : v = 0 := by omega
    have hnone : formatFraction 0 0 = [] := by
      simp [formatFraction, padStart, numeral, displayFractionDigits, List.rdropWhile]
    have hzero : readDigits [] = 0 := readDigits_zeros 0
    simp [hnone, hzero, padEnd, shown]
  let padded := padStart decimals '0' (numeral 10 v)
  let m := min displayFractionDigits decimals
  have hdigits : ∀ d ∈ padded, isDigit d := padStart_digits decimals v
  have hlen : padded.length = decimals := by
    have hle := numeral_length hpos h
    simp only [padded, padStart, List.length_append, List.length_replicate]
    omega
  have htake : (padded.take displayFractionDigits).length = m := by
    rw [List.length_take, hlen]
  have hrest : (padded.drop displayFractionDigits).length = decimals - m := by
    rw [List.length_drop, hlen]
    omega
  have htop : readDigits (padded.take displayFractionDigits) = v / 10 ^ (decimals - m) := by
    have hshown : ∀ d ∈ padded.take displayFractionDigits, isDigit d := fun d hd =>
      hdigits d (List.mem_of_mem_take hd)
    have hhidden : ∀ d ∈ padded.drop displayFractionDigits, isDigit d := fun d hd =>
      hdigits d (List.mem_of_mem_drop hd)
    have hsplit := readDigits_append hshown hhidden
    rw [List.take_append_drop, readDigits_padStart, hrest] at hsplit
    have hlow := readDigits_lt hhidden
    rw [hrest] at hlow
    rw [hsplit, mul_comm, Nat.mul_add_div (by positivity), Nat.div_eq_of_lt hlow, add_zero]
  obtain ⟨k, hk⟩ : ∃ k, padded.take displayFractionDigits =
      formatFraction v decimals ++ List.replicate k '0' := rdropWhile_zeros
  have hfrac : ∀ d ∈ formatFraction v decimals, isDigit d := fun d hd =>
    hdigits d (List.mem_of_mem_take (hk ▸ List.mem_append_left _ hd))
  have hsum : (formatFraction v decimals).length + k = m := by
    have hcount := congrArg List.length hk
    rw [List.length_append, List.length_replicate, htake] at hcount
    exact hcount.symm
  refine ⟨hfrac, by omega, ?_⟩
  have hread : readDigits (formatFraction v decimals) * 10 ^ k = v / 10 ^ (decimals - m) := by
    rw [← htop, hk, readDigits_append hfrac (digits_zeros k), readDigits_zeros, List.length_replicate,
      add_zero]
  have hpow : decimals - (formatFraction v decimals).length = k + (decimals - m) := by omega
  rw [readDigits_padEnd hfrac, hpow, pow_add, ← mul_assoc, hread]
  rfl

end Format

section Trip

variable {ds text frac more cs : List Char} {decimals w x : ℕ}

theorem trim_solid {cs : List Char} (h : ∀ c ∈ cs, jsSpace c = false) :
    trim (String.ofList cs) = String.ofList cs := by
  have hdrop : ∀ l : List Char, (∀ c ∈ l, jsSpace c = false) → l.dropWhile jsSpace = l := by
    intro l hl
    cases l with
    | nil => rfl
    | cons c l => rw [List.dropWhile_cons_of_neg (by simp [hl c List.mem_cons_self])]
  rw [trim, String.toList_ofList, hdrop cs h, hdrop cs.reverse (by simpa using h), List.reverse_reverse]

theorem jsSpace_digit {c : Char} (h : isDigit c) : jsSpace c = false := by
  obtain ⟨d, -, rfl⟩ := exists_value h
  exact jsSpace_hexChar d

theorem Threes.solid (h : Threes ds text) : ∀ c ∈ text, jsSpace c = false := by
  induction h with
  | nil => simp
  | cons ha hb hc _ ih =>
    have hcomma : jsSpace ',' = false := by decide
    simpa [jsSpace_digit ha, jsSpace_digit hb, jsSpace_digit hc, hcomma] using ih

theorem Grouped.solid (h : Grouped ds text) : ∀ c ∈ text, jsSpace c = false := by
  obtain ⟨head, rest, tail, -, rfl, -, -, hhead, htail⟩ := h
  intro c hc
  rcases List.mem_append.1 hc with hc | hc
  · exact jsSpace_digit (hhead c hc)
  · exact htail.solid c hc

theorem Fraction.solid (h : Fraction frac more) : ∀ c ∈ more, jsSpace c = false := by
  rcases h.2 with rfl | ⟨-, rfl⟩
  · have hpoint : jsSpace '.' = false := by decide
    exact List.forall_mem_cons.2 ⟨hpoint, fun c hc => jsSpace_digit (h.1 c hc)⟩
  · simp

theorem Fraction.no_comma (h : Fraction frac more) : ',' ∉ more := by
  intro hmem
  have hstrip := h.strip
  rw [List.filter_eq_self] at hstrip
  exact absurd (hstrip ',' hmem) (by simp)

-- A grouped text passes the comma test.
theorem Grouped.strict (h : Grouped ds text) (hfrac : Fraction frac more) (hcomma : ',' ∈ text ++ more) :
    strictGrouping (text ++ more) := by
  obtain ⟨head, rest, tail, rfl, rfl, hpos, hlen, hhead, htail⟩ := h
  refine strictGrouping_iff.2 ⟨head, rest, tail, frac, more, List.append_assoc _ _ _, hpos, hlen, hhead,
    htail, ?_, hfrac⟩
  rintro rfl
  cases htail
  rcases List.mem_append.1 hcomma with hcomma | hcomma
  · rw [List.append_nil] at hcomma
    exact not_comma_of_digit (hhead _ hcomma) rfl
  · exact hfrac.no_comma hcomma

theorem Grouped.digits (h : Grouped ds text) : ds ≠ [] ∧ ∀ d ∈ ds, isDigit d := by
  obtain ⟨head, rest, tail, rfl, rfl, hpos, -, hhead, htail⟩ := h
  refine ⟨fun hnil => ?_, fun d hd => (List.mem_append.1 hd).elim (hhead d) (htail.digits.1 d)⟩
  rw [List.append_eq_nil_iff.1 hnil |>.1] at hpos
  exact absurd hpos (by simp)

theorem parseAmount_grouped (h : Grouped ds text) (hfrac : Fraction frac more)
    (hlen : frac.length ≤ min displayFractionDigits decimals)
    (hw : readDigits ds * 10 ^ decimals + readDigits (padEnd decimals '0' frac) = w) (hmax : w < maxNoteWei) :
    parseAmount (text ++ more) decimals = .ok w := by
  obtain ⟨hne, hds⟩ := h.digits
  refine parseAmount_ok.2 ⟨fun hnil => hne ?_, h.strict hfrac, ds, frac, ?_, hlen, hw.symm, hmax⟩
  · rw [← h.strip, (List.append_eq_nil_iff.1 hnil).1]
    rfl
  · rw [List.filter_append, h.strip, hfrac.strip]
    exact amountParts_iff.2 ⟨hne, hds, more, hfrac, rfl⟩

theorem shown_split (decimals x : ℕ) :
    shown decimals x = x / 10 ^ decimals * 10 ^ decimals + shown decimals (x % 10 ^ decimals) := by
  let m := min displayFractionDigits decimals
  have hpow : 10 ^ decimals = 10 ^ m * 10 ^ (decimals - m) := by
    rw [← pow_add]
    congr 1
    omega
  have hx : x / 10 ^ (decimals - m) =
      x / 10 ^ decimals * 10 ^ m + x % 10 ^ decimals / 10 ^ (decimals - m) := by
    have hdiv := Nat.div_add_mod x (10 ^ decimals)
    calc x / 10 ^ (decimals - m)
        = (10 ^ (decimals - m) * (10 ^ m * (x / 10 ^ decimals)) + x % 10 ^ decimals) / 10 ^ (decimals - m) := by
          congr 1
          rw [← mul_assoc, mul_comm (10 ^ (decimals - m)), ← hpow, hdiv]
      _ = x / 10 ^ decimals * 10 ^ m + x % 10 ^ decimals / 10 ^ (decimals - m) := by
          rw [Nat.mul_add_div (by positivity), mul_comm (10 ^ m)]
  simp only [shown]
  rw [hx, add_mul, mul_assoc, ← hpow]

theorem shown_le (decimals x : ℕ) : shown decimals x ≤ x := Nat.div_mul_le_self _ _

-- What is shown reads back as what is held, cut down to the digits shown.
theorem parseToken_formatToken (hx : x < maxNoteWei) :
    parseToken (formatToken x decimals) decimals = .ok (shown decimals x) := by
  have hgrouped : Grouped (numeral 10 (x / 10 ^ decimals)) (formatWhole (x / 10 ^ decimals)) :=
    grouped_of_digits (numeral_ne_nil _) (numeral_digits _)
  obtain ⟨hfrac, hlen, hvalue⟩ := formatFraction_spec (Nat.mod_lt x (show 0 < 10 ^ decimals by positivity))
  obtain ⟨more, hmore, heq⟩ : ∃ more, Fraction (formatFraction (x % 10 ^ decimals) decimals) more ∧
      formatToken x decimals = String.ofList (formatWhole (x / 10 ^ decimals) ++ more) := by
    have hpos : ¬ (x : ℤ) < 0 := by omega
    refine ⟨if formatFraction (x % 10 ^ decimals) decimals = [] then []
      else '.' :: formatFraction (x % 10 ^ decimals) decimals, ⟨hfrac, ?_⟩,
      by simp only [formatToken, Int.natAbs_natCast, if_neg hpos, List.nil_append]⟩
    split
    · next h => exact .inr ⟨h, rfl⟩
    · exact .inl rfl
  have hsolid : ∀ c ∈ formatWhole (x / 10 ^ decimals) ++ more, jsSpace c = false := fun c hc =>
    (List.mem_append.1 hc).elim (hgrouped.solid c) (hmore.solid c)
  have hparse := parseAmount_grouped hgrouped hmore hlen (w := shown decimals x)
    (by rw [readDigits_numeral, hvalue, ← shown_split]) ((shown_le decimals x).trans_lt hx)
  rw [parseToken, heq, trim_solid hsolid, String.toList_ofList, hparse]
  rfl

-- An accepted amount has no more digits than are shown.
theorem shown_parsed {t : List Char} (h : parseAmount t decimals = .ok w) :
    shown decimals w = w ∧ w < maxNoteWei := by
  obtain ⟨-, -, whole, frac, hparts, hlen, rfl, hmax⟩ := parseAmount_ok.1 h
  obtain ⟨-, -, more, hfrac, -⟩ := amountParts_iff.1 hparts
  refine ⟨?_, hmax⟩
  let m := min displayFractionDigits decimals
  have hwhole : 10 ^ decimals = 10 ^ m * 10 ^ (decimals - m) := by
    rw [← pow_add]
    congr 1
    omega
  have hpart : 10 ^ (decimals - frac.length) = 10 ^ (m - frac.length) * 10 ^ (decimals - m) := by
    rw [← pow_add]
    congr 1
    omega
  have hsum : readDigits whole * 10 ^ decimals + readDigits (padEnd decimals '0' frac) =
      (readDigits whole * 10 ^ m + readDigits frac * 10 ^ (m - frac.length)) * 10 ^ (decimals - m) := by
    rw [readDigits_padEnd hfrac.1, hwhole, hpart]
    ring
  have hcut : ∀ n, shown decimals (n * 10 ^ (decimals - m)) = n * 10 ^ (decimals - m) := fun n => by
    simp only [shown]
    rw [Nat.mul_div_cancel _ (by positivity)]
  rw [hsum, hcut]

theorem parseToken_ok {s : String} (h : parseToken s decimals = .ok w) :
    parseAmount (trim s).toList decimals = .ok w := by
  unfold parseToken at h
  cases hparse : parseAmount (trim s).toList decimals with
  | error e => rw [hparse] at h; exact absurd h (by simp [Except.mapError])
  | ok v => rw [hparse] at h; simpa [Except.mapError] using h

section Typing

variable {int : List Char}

theorem stripZeros_digits (h : ∀ d ∈ int, isDigit d) :
    (∀ d ∈ stripZeros int, isDigit d) ∧ stripZeros (stripZeros int) = stripZeros int := by
  induction int using stripZeros.induct with
  | case1 c cs hc ih =>
    rw [stripZeros, if_pos hc]
    exact ih fun d hd => h d (List.mem_cons_of_mem _ hd)
  | case2 c cs hc =>
    exact absurd (h c (by simp)) hc
  | case3 cs hcs =>
    have hsame : stripZeros cs = cs := by
      unfold stripZeros
      split
      · next c cs => exact absurd rfl (hcs c cs)
      · rfl
    rw [hsame]
    exact ⟨h, hsame⟩

theorem groupThousands_digits (h : ∀ d ∈ int, isDigit d) :
    int = [] ∧ groupThousands none int = [] ∨ Grouped int (groupThousands none int) := by
  cases int with
  | nil => exact .inl ⟨rfl, rfl⟩
  | cons d int => exact .inr (grouped_of_digits (by simp) h)

-- What is left of a typed amount: digits grouped, and a fraction.
structure Typed (int text frac more : List Char) : Prop where
  whole : int = [] ∧ text = [] ∨ Grouped int text
  stripped : stripZeros int = int
  fraction : Fraction frac more

theorem Typed.digits (h : Typed ds text frac more) : ∀ d ∈ ds, isDigit d := by
  rcases h.whole with ⟨rfl, -⟩ | hgrouped
  · simp
  · exact hgrouped.digits.2

theorem typed_groupAmountInput (raw : String) :
    ∃ int text frac more, Typed int text frac more ∧
      groupAmountInput raw = String.ofList (text ++ more) := by
  let cleaned := raw.toList.filter fun c => isDigit c ∨ c = '.'
  have hcleaned : ∀ c ∈ cleaned, isDigit c ∨ c = '.' := fun c hc => by
    simpa using (List.mem_filter.1 hc).2
  have hdigits : ∀ d ∈ cleaned.takeWhile (· ≠ '.'), isDigit d := fun d hd =>
    (hcleaned d ((List.takeWhile_sublist _).subset hd)).resolve_right (by simpa using List.mem_takeWhile_imp hd)
  obtain ⟨hstripped, hidem⟩ := stripZeros_digits hdigits
  refine ⟨stripZeros (cleaned.takeWhile (· ≠ '.')),
    groupThousands none (stripZeros (cleaned.takeWhile (· ≠ '.'))), ?_⟩
  cases hrest : cleaned.dropWhile (· ≠ '.') with
  | nil =>
    refine ⟨[], [], ⟨groupThousands_digits hstripped, hidem, by simp, .inr ⟨rfl, rfl⟩⟩, ?_⟩
    simp only [groupAmountInput]
    rw [show (raw.toList.filter fun c => isDigit c ∨ c = '.').dropWhile (· ≠ '.') = [] from hrest]
    simp [cleaned]
  | cons c after =>
    have hafter : ∀ d ∈ after.filter (· ≠ '.'), isDigit d := fun d hd => by
      obtain ⟨hmem, hne⟩ := List.mem_filter.1 hd
      have hin : d ∈ cleaned := (List.dropWhile_sublist _).subset (hrest ▸ List.mem_cons_of_mem c hmem)
      exact (hcleaned d hin).resolve_right (by simpa using hne)
    refine ⟨after.filter (· ≠ '.'), '.' :: after.filter (· ≠ '.'),
      ⟨groupThousands_digits hstripped, hidem, hafter, .inl rfl⟩, ?_⟩
    simp only [groupAmountInput]
    rw [show (raw.toList.filter fun c => isDigit c ∨ c = '.').dropWhile (· ≠ '.') = c :: after from hrest]

def kept (c : Char) : Bool := isDigit c ∨ c = '.'

theorem Threes.kept (h : Threes ds text) : text.filter kept = ds := by
  induction h with
  | nil => rfl
  | @cons a b c ds text ha hb hc _ ih =>
    have hcomma : Money.kept ',' = false := by decide
    have hdigit : ∀ {d : Char}, isDigit d → Money.kept d := fun hd => by simp [Money.kept, hd]
    simp [hcomma, hdigit ha, hdigit hb, hdigit hc, ih]

theorem kept_digits (h : ∀ d ∈ ds, isDigit d) : ds.filter kept = ds :=
  List.filter_eq_self.2 fun d hd => by simp [kept, h d hd]

theorem Grouped.kept (h : Grouped ds text) : text.filter kept = ds := by
  obtain ⟨head, rest, tail, rfl, rfl, -, -, hhead, htail⟩ := h
  rw [List.filter_append, kept_digits hhead, htail.kept]

theorem Fraction.kept (h : Fraction frac more) : more.filter kept = more := by
  rcases h.2 with rfl | ⟨-, rfl⟩
  · rw [List.filter_cons_of_pos (by decide), kept_digits h.1]
  · rfl

theorem Typed.kept (h : Typed ds text frac more) : (text ++ more).filter kept = ds ++ more := by
  rw [List.filter_append, h.fraction.kept]
  rcases h.whole with ⟨rfl, rfl⟩ | hgrouped
  · rfl
  · rw [hgrouped.kept]

theorem no_point {d : Char} (h : isDigit d) : d ≠ '.' := by
  rintro rfl
  exact absurd h (by decide)

-- A grouped amount typed again stays as it is.
theorem Typed.again (h : Typed ds text frac more) :
    groupAmountInput (String.ofList (text ++ more)) = String.ofList (text ++ more) := by
  have hds : ∀ d ∈ ds, (decide (d ≠ '.')) = true := fun d hd => by simpa using no_point (h.digits d hd)
  have hgroup : groupThousands none ds = text := by
    rcases h.whole with ⟨rfl, rfl⟩ | hgrouped
    · rfl
    · exact hgrouped.group
  have hcleaned : ((String.ofList (text ++ more)).toList.filter fun c => isDigit c ∨ c = '.') = ds ++ more := by
    rw [String.toList_ofList]
    exact h.kept
  simp only [groupAmountInput, hcleaned]
  rw [List.takeWhile_append_of_pos hds, List.dropWhile_append_of_pos hds]
  rcases h.fraction.2 with rfl | ⟨-, rfl⟩
  · have hfrac : frac.filter (fun c => decide (c ≠ '.')) = frac :=
      List.filter_eq_self.2 fun d hd => by simpa using no_point (h.fraction.1 d hd)
    have htake : ('.' :: frac).takeWhile (fun c => decide (c ≠ '.')) = [] := rfl
    have hdrop : ('.' :: frac).dropWhile (fun c => decide (c ≠ '.')) = '.' :: frac := rfl
    rw [htake, hdrop, List.append_nil, h.stripped, hgroup]
    dsimp only
    rw [hfrac]
  · simp [h.stripped, hgroup]

theorem Typed.not_commas (h : Typed ds text frac more) :
    parseAmount (text ++ more) decimals ≠ .error .commas := by
  have hstrict : ',' ∈ text ++ more → strictGrouping (text ++ more) := by
    intro hcomma
    rcases h.whole with ⟨-, rfl⟩ | hgrouped
    · exact absurd hcomma h.fraction.no_comma
    · exact hgrouped.strict h.fraction hcomma
  unfold parseAmount
  split
  · simp
  · rw [if_neg fun hbad => by simp [hstrict hbad.1] at hbad]
    split
    · simp
    · dsimp only
      split
      · simp
      · split <;> simp

theorem Typed.solid (h : Typed ds text frac more) : ∀ c ∈ text ++ more, jsSpace c = false := by
  intro c hc
  rcases List.mem_append.1 hc with hc | hc
  · rcases h.whole with ⟨-, rfl⟩ | hgrouped
    · exact absurd hc (by simp)
    · exact hgrouped.solid c hc
  · exact h.fraction.solid c hc

end Typing

-- No other complaint reads as the one about commas.
theorem message_commas {e : AmountError} (h : e.message = AmountError.commas.message) : e = .commas := by
  cases e with
  | commas => rfl
  | empty => exact absurd h (by decide)
  | invalid => exact absurd h (by decide)
  | tooLarge => exact absurd h (by decide)
  | decimals maxFrac =>
    have hchar := congrArg (fun s : String => s.toList[4]?) h
    simp only [AmountError.message, toString, String.toList_append] at hchar
    rw [List.append_assoc, List.getElem?_append_left (by decide)] at hchar
    exact absurd hchar (by decide)

theorem parseToken_commas {s : String} : parseToken s decimals = .error AmountError.commas.message ↔
    parseAmount (trim s).toList decimals = .error .commas := by
  unfold parseToken
  cases parseAmount (trim s).toList decimals with
  | ok v => simp [Except.mapError]
  | error e =>
    simp only [Except.mapError, Except.error.injEq]
    exact ⟨message_commas, fun h => by rw [h]⟩

-- A held amount below the note bound is shown cut down to six decimals and reads back as shown; what
-- was read is shown so that it reads the same; and a typed amount is grouped once and for all.
theorem money_round_trip :
    (∀ decimals x : ℕ, x < 2 ^ 100 →
      ∃ y, parseToken (formatToken x decimals) decimals = .ok y ∧ y ≤ x ∧
        y = x / 10 ^ (decimals - min 6 decimals) * 10 ^ (decimals - min 6 decimals)) ∧
    (∀ (decimals : ℕ) (s : String) (w : ℕ), parseToken s decimals = .ok w →
      parseToken (formatToken w decimals) decimals = .ok w) ∧
    ∀ s, groupAmountInput (groupAmountInput s) = groupAmountInput s ∧
      ∀ decimals, parseToken (groupAmountInput s) decimals ≠ .error AmountError.commas.message := by
  refine ⟨fun decimals x hx => ?_, fun decimals s w h => ?_, fun s => ?_⟩
  · have hmax : x < maxNoteWei := hx
    exact ⟨shown decimals x, parseToken_formatToken hmax, shown_le decimals x, rfl⟩
  · obtain ⟨hshown, hmax⟩ := shown_parsed (parseToken_ok h)
    rw [parseToken_formatToken hmax, hshown]
  · obtain ⟨int, text, frac, more, htyped, heq⟩ := typed_groupAmountInput s
    rw [heq]
    refine ⟨htyped.again, fun decimals h => ?_⟩
    rw [parseToken_commas, trim_solid htyped.solid, String.toList_ofList] at h
    exact htyped.not_commas h

theorem mem_trim {c : Char} {s : String} (hc : c ∈ s.toList) (hsolid : jsSpace c = false) :
    c ∈ (trim s).toList := by
  have hdrop : ∀ {l : List Char}, c ∈ l → c ∈ l.dropWhile jsSpace := fun {l} hl => by
    rw [← List.takeWhile_append_dropWhile (p := jsSpace) (l := l)] at hl
    refine (List.mem_append.1 hl).resolve_left fun htake => ?_
    have hspace := List.mem_takeWhile_imp htake
    rw [hsolid] at hspace
    exact absurd hspace (by decide)
  rw [trim, String.toList_ofList, List.mem_reverse]
  exact hdrop (List.mem_reverse.2 (hdrop hc))

theorem formatFraction_zero (decimals : ℕ) : formatFraction 0 decimals = [] := by
  rw [formatFraction, List.rdropWhile_eq_nil_iff]
  intro c hc
  rcases List.mem_append.1 (List.mem_of_mem_take hc) with hc | hc
  · simpa using List.eq_of_mem_replicate hc
  · simpa [numeral] using hc

-- What is printed for a whole number of tokens.
theorem formatToken_whole (n decimals : ℕ) :
    (formatToken (n * 10 ^ decimals : ℕ) decimals).toList = formatWhole n := by
  have hpos : ¬ ((n * 10 ^ decimals : ℕ) : ℤ) < 0 := by omega
  simp only [formatToken, Int.natAbs_natCast, if_neg hpos, List.nil_append, Nat.mul_mod_left,
    formatFraction_zero, if_true, List.append_nil, String.toList_ofList]
  rw [Nat.mul_div_cancel _ (by positivity)]

theorem readDigits_fraction (hfrac : ∀ d ∈ frac, isDigit d) (hlen : frac.length ≤ decimals) :
    readDigits (padEnd decimals '0' frac) < 10 ^ decimals := by
  have hpow : 10 ^ decimals = 10 ^ frac.length * 10 ^ (decimals - frac.length) := by
    rw [← pow_add]
    congr 1
    omega
  rw [readDigits_padEnd hfrac, hpow]
  exact Nat.mul_lt_mul_of_pos_right (readDigits_lt hfrac) (by positivity)

-- An accepted amount with a comma: its digits, grouped, and what they are worth.
theorem accepted_comma {t : List Char} (h : parseAmount t decimals = .ok w) (hcomma : ',' ∈ t) :
    ∃ d ds text, ds ≠ [] ∧ Grouped (d :: ds) text ∧ t.takeWhile (· ≠ '.') = text ∧ t.head? = some d ∧
      w / 10 ^ decimals = readDigits (d :: ds) := by
  obtain ⟨-, hstrict, whole, frac, hparts, hlen, rfl, -⟩ := parseAmount_ok.1 h
  obtain ⟨head, rest, tail, frac', more, rfl, hpos, hlen', hhead, htail, hne, hmore⟩ :=
    strictGrouping_iff.1 (hstrict hcomma)
  match head, hpos, hlen', hhead with
  | d :: head, hpos, hlen', hhead =>
    have hgrouped : Grouped (d :: (head ++ rest)) (d :: head ++ tail) :=
      ⟨d :: head, rest, tail, rfl, rfl, hpos, hlen', hhead, htail⟩
    obtain ⟨hcons, hdigits⟩ := hgrouped.digits
    have hstrip : (d :: head ++ (tail ++ more)).filter (· ≠ ',') = d :: (head ++ rest) ++ more := by
      rw [← List.append_assoc, List.filter_append, hgrouped.strip, hmore.strip]
    rw [hstrip, amountParts_iff.2 ⟨hcons, hdigits, more, hmore, rfl⟩] at hparts
    obtain ⟨rfl, rfl⟩ : d :: (head ++ rest) = whole ∧ frac' = frac := by simpa using hparts
    have hpoint : ∀ c ∈ d :: head ++ tail, decide (c ≠ '.') = true := fun c hc => by
      rcases eq_or_ne c ',' with rfl | hcomma
      · decide
      · have hmem : c ∈ (d :: head ++ tail).filter (· ≠ ',') := List.mem_filter.2 ⟨hc, by simpa using hcomma⟩
        rw [hgrouped.strip] at hmem
        simpa using no_point (hdigits c hmem)
    refine ⟨d, head ++ rest, d :: head ++ tail, by simp [hne], hgrouped, ?_, rfl, ?_⟩
    · rw [← List.append_assoc, List.takeWhile_append_of_pos hpoint]
      rcases hmore.2 with rfl | ⟨-, rfl⟩
      · simp
      · simp
    · rw [mul_comm, Nat.mul_add_div (by positivity),
        Nat.div_eq_of_lt (readDigits_fraction hmore.1 (hlen.trans (min_le_right _ _))), add_zero]

-- An accepted amount with commas is written as its whole part is printed, unless it starts with a zero.
theorem comma_strict_iff (s : String) (decimals w : ℕ) (hcomma : ',' ∈ s.toList)
    (h : parseToken s decimals = .ok w) :
    (trim s).toList.takeWhile (· ≠ '.') =
        (formatToken (w / 10 ^ decimals * 10 ^ decimals : ℕ) decimals).toList ↔
      (trim s).toList.head? ≠ some '0' := by
  obtain ⟨d, ds, text, hds, hgrouped, htake, hhead, hvalue⟩ :=
    accepted_comma (parseToken_ok h) (mem_trim hcomma (by decide))
  rw [htake, formatToken_whole, hvalue, hhead, Ne, Option.some.injEq, formatWhole]
  constructor
  · rintro htext rfl
    have hstrip := hgrouped.strip
    rw [htext, (grouped_of_digits (numeral_ne_nil _) (numeral_digits _)).strip] at hstrip
    exact numeral_head hds hstrip
  · intro hd
    rw [numeral_readDigits hgrouped.digits.2 hd, hgrouped.group]

theorem comma_strict_grouped : parseToken "1,234.5" 2 = .ok 123450 ∧
    (trim "1,234.5").toList.takeWhile (· ≠ '.') =
      (formatToken (123450 / 10 ^ 2 * 10 ^ 2 : ℕ) 2).toList :=
  ⟨by decide, (comma_strict_iff "1,234.5" 2 123450 (by decide) (by decide)).2 (by decide)⟩

-- "0,500" is taken for five hundred, which is printed "500".
theorem leading_zero_accepted : ¬ ∀ (s : String) (decimals w : ℕ), ',' ∈ s.toList →
    parseToken s decimals = .ok w → (trim s).toList.takeWhile (· ≠ '.') =
      (formatToken (w / 10 ^ decimals * 10 ^ decimals : ℕ) decimals).toList := by
  intro h
  exact absurd (h "0,500" 0 500 (by decide) (by decide)) (by decide)

end Trip

end Bongtu.Client.Money
