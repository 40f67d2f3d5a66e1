import Bongtu.Core.BigIntText
import Mathlib.Data.List.DropRight

namespace Bongtu.Client.Money

open Core

def displayFractionDigits : ℕ := 6

def maxNoteWei : ℕ := 2 ^ 100

-- `\d`.
def isDigit (c : Char) : Bool := '0' ≤ c ∧ c ≤ '9'

-- `\w`, as `\B` reads it.
def isWord (c : Char) : Bool :=
  isDigit c ∨ ('a' ≤ c ∧ c ≤ 'z') ∨ ('A' ≤ c ∧ c ≤ 'Z') ∨ c = '_'

-- `(?=(\d{3})+(?!\d))`: the run of digits that starts here is some threes of digits long.
def threesAhead (cs : List Char) : Bool :=
  let run := (cs.takeWhile isDigit).length
  0 < run ∧ run % 3 = 0

-- `.replace(/\B(?=(\d{3})+(?!\d))/g, ",")`, behind the character `prev`.
def groupThousands (prev : Option Char) : List Char → List Char
  | [] => []
  | c :: cs =>
    if prev.any isWord = isWord c ∧ threesAhead (c :: cs) then
      ',' :: c :: groupThousands (some c) cs
    else c :: groupThousands (some c) cs

-- `.replace(/^0+(?=\d)/, "")`.
def stripZeros : List Char → List Char
  | '0' :: c :: cs => if isDigit c then stripZeros (c :: cs) else '0' :: c :: cs
  | cs => cs

def groupAmountInput (raw : String) : String :=
  let cleaned := raw.toList.filter fun c => isDigit c ∨ c = '.'
  let grouped := groupThousands none (stripZeros (cleaned.takeWhile (· ≠ '.')))
  match cleaned.dropWhile (· ≠ '.') with
  | [] => String.ofList grouped
  | _ :: after => String.ofList (grouped ++ '.' :: after.filter (· ≠ '.'))

-- `BigInt` of a run of digits, the empty one read as "0".
def readDigits (cs : List Char) : ℕ := (numberOf 10 cs).getD 0

def padEnd (width : ℕ) (c : Char) (cs : List Char) : List Char :=
  cs ++ List.replicate (width - cs.length) c

def formatWhole (v : ℕ) : List Char := groupThousands none (numeral 10 v)

def formatFraction (v decimals : ℕ) : List Char :=
  ((padStart decimals '0' (numeral 10 v)).take displayFractionDigits).rdropWhile (· = '0')

def formatToken (raw : ℤ) (decimals : ℕ) : String :=
  let unit := 10 ^ decimals
  let v := raw.natAbs
  let frac := formatFraction (v % unit) decimals
  String.ofList ((if raw < 0 then ['-'] else []) ++ formatWhole (v / unit) ++
    (if frac = [] then [] else '.' :: frac))

inductive AmountError where
  | empty
  | commas
  | invalid
  | decimals (maxFrac : ℕ)
  | tooLarge
deriving DecidableEq, Repr

def AmountError.message : AmountError → String
  | empty => "Enter an amount."
  | commas => "Use commas only as thousands separators, and a period for decimals."
  | invalid => "Enter a valid amount, like 1000 or 1.5."
  | decimals maxFrac => s!"Use at most {maxFrac} decimal places."
  | tooLarge => "Amount is too large for a single note."

-- `(,\d{3})*(\.\d*)?$`.
def groupsThenFraction : List Char → Bool
  | [] => true
  | '.' :: cs => cs.all isDigit
  | ',' :: a :: b :: c :: cs => isDigit a && isDigit b && isDigit c && groupsThenFraction cs
  | _ => false

-- `/^\d{1,3}(,\d{3})+(\.\d*)?$/`.
def strictGrouping (cs : List Char) : Bool :=
  let head := cs.takeWhile isDigit
  let rest := cs.dropWhile isDigit
  1 ≤ head.length ∧ head.length ≤ 3 ∧ rest.head? = some ',' ∧ groupsThenFraction rest

-- `/^(\d+)(?:\.(\d*))?$/`, with what it captures.
def amountParts (cs : List Char) : Option (List Char × List Char) :=
  let whole := cs.takeWhile isDigit
  match whole, cs.dropWhile isDigit with
  | [], _ => none
  | _, [] => some (whole, [])
  | _, '.' :: frac => if frac.all isDigit then some (whole, frac) else none
  | _, _ => none

def parseAmount (t : List Char) (decimals : ℕ) : Except AmountError ℕ :=
  if t = [] then .error .empty
  else if ',' ∈ t ∧ ! strictGrouping t then .error .commas
  else match amountParts (t.filter (· ≠ ',')) with
    | none => .error .invalid
    | some (whole, frac) =>
      let maxFrac := min displayFractionDigits decimals
      if maxFrac < frac.length then .error (.decimals maxFrac)
      else
        let wei := readDigits whole * 10 ^ decimals + readDigits (padEnd decimals '0' frac)
        if maxNoteWei ≤ wei then .error .tooLarge else .ok wei

def parseToken (input : String) (decimals : ℕ) : Except String ℕ :=
  (parseAmount (trim input).toList decimals).mapError AmountError.message

section Grouping

variable {prev c : Char} {cs ds ts : List Char}

-- Digits in threes, and the text with a comma before each three.
inductive Threes : List Char → List Char → Prop
  | nil : Threes [] []
  | cons {a b c : Char} {ds ts : List Char} : isDigit a → isDigit b → isDigit c → Threes ds ts →
      Threes (a :: b :: c :: ds) (',' :: a :: b :: c :: ts)

theorem isWord_of_isDigit (h : isDigit c) : isWord c := by
  simp [isWord, h]

theorem threesAhead_digits (h : ∀ c ∈ cs, isDigit c) :
    threesAhead cs = decide (0 < cs.length ∧ cs.length % 3 = 0) := by
  rw [threesAhead, List.takeWhile_eq_self_iff.2 h]

theorem groupThousands_digit (hprev : isDigit prev) (h : ∀ d ∈ c :: cs, isDigit d) :
    groupThousands (some prev) (c :: cs) =
      if (cs.length + 1) % 3 = 0 then ',' :: c :: groupThousands (some c) cs
      else c :: groupThousands (some c) cs := by
  have hc : isWord c = true := isWord_of_isDigit (h c List.mem_cons_self)
  rw [groupThousands, threesAhead_digits h]
  simp [isWord_of_isDigit hprev, hc]

theorem groupThousands_first (h : isDigit c) :
    groupThousands none (c :: cs) = c :: groupThousands (some c) cs := by
  simp [groupThousands, isWord_of_isDigit h]

theorem Threes.digits (h : Threes ds ts) : (∀ d ∈ ds, isDigit d) ∧ ds.length % 3 = 0 := by
  induction h with
  | nil => simp
  | cons ha hb hc _ ih =>
    refine ⟨by simpa [ha, hb, hc] using ih.1, ?_⟩
    simp only [List.length_cons]
    omega

theorem Threes.group (h : Threes ds ts) (hprev : isDigit prev) : groupThousands (some prev) ds = ts := by
  induction h generalizing prev with
  | nil => rfl
  | @cons a b c ds ts ha hb hc htail ih =>
    obtain ⟨hds, hlen⟩ := htail.digits
    have hcds : ∀ d ∈ c :: ds, isDigit d := List.forall_mem_cons.2 ⟨hc, hds⟩
    have hbcds : ∀ d ∈ b :: c :: ds, isDigit d := List.forall_mem_cons.2 ⟨hb, hcds⟩
    rw [groupThousands_digit hprev (List.forall_mem_cons.2 ⟨ha, hbcds⟩), if_pos (by simp; omega),
      groupThousands_digit ha hbcds, if_neg (by simp; omega), groupThousands_digit hb hcds,
      if_neg (by omega), ih hc]

theorem exists_threes (h : ∀ d ∈ ds, isDigit d) (hlen : ds.length % 3 = 0) : ∃ ts, Threes ds ts := by
  induction hn : ds.length / 3 generalizing ds with
  | zero =>
    obtain rfl : ds = [] := List.length_eq_zero_iff.1 (by omega)
    exact ⟨[], .nil⟩
  | succ n ih =>
    match ds, hlen, hn, h with
    | a :: b :: c :: ds, hlen, hn, h =>
      simp only [List.length_cons] at hlen hn
      simp only [List.forall_mem_cons] at h
      obtain ⟨ts, hts⟩ := ih h.2.2.2 (by omega) (by omega)
      exact ⟨_, .cons h.1 h.2.1 h.2.2.1 hts⟩

-- Up to two digits before the threes get no comma.
theorem groupThousands_head {head : List Char} (hprev : isDigit prev) (hhead : ∀ d ∈ head, isDigit d)
    (hlen : head.length ≤ 2) (h : Threes ds ts) :
    groupThousands (some prev) (head ++ ds) = head ++ ts := by
  obtain ⟨hds, hthree⟩ := h.digits
  match head, hlen, hhead with
  | [], _, _ => exact h.group hprev
  | [a], _, ha =>
    have ha : isDigit a := ha a List.mem_cons_self
    rw [List.singleton_append, groupThousands_digit hprev (List.forall_mem_cons.2 ⟨ha, hds⟩),
      if_neg (by omega), h.group ha, List.singleton_append]
  | [a, b], _, hab =>
    obtain ⟨ha, hb⟩ : isDigit a ∧ isDigit b := by simpa using hab
    have hbds : ∀ d ∈ b :: ds, isDigit d := List.forall_mem_cons.2 ⟨hb, hds⟩
    rw [List.cons_append, List.singleton_append,
      groupThousands_digit hprev (List.forall_mem_cons.2 ⟨ha, hbds⟩), if_neg (by simp; omega),
      groupThousands_digit ha hbds, if_neg (by omega), h.group hb]
    rfl

-- A grouped text: one to three digits, and the threes behind them.
def Grouped (digits text : List Char) : Prop :=
  ∃ head rest tail, digits = head ++ rest ∧ text = head ++ tail ∧ 1 ≤ head.length ∧
    head.length ≤ 3 ∧ (∀ d ∈ head, isDigit d) ∧ Threes rest tail

theorem Grouped.group (h : Grouped ds ts) : groupThousands none ds = ts := by
  obtain ⟨head, rest, tail, rfl, rfl, hpos, hlen, hhead, htail⟩ := h
  match head, hpos, hlen, hhead with
  | a :: head, _, hlen, hhead =>
    obtain ⟨ha, hhead⟩ := List.forall_mem_cons.1 hhead
    rw [List.cons_append, groupThousands_first ha,
      groupThousands_head ha hhead (Nat.le_of_lt_succ hlen) htail, List.cons_append]

theorem grouped_of_digits (hne : ds ≠ []) (h : ∀ d ∈ ds, isDigit d) :
    Grouped ds (groupThousands none ds) := by
  have hpos : 0 < ds.length := List.length_pos_iff.2 hne
  let k := (ds.length - 1) % 3 + 1
  have hk : k ≤ ds.length := by omega
  obtain ⟨ts, hts⟩ := exists_threes (fun d hd => h d (List.mem_of_mem_drop hd))
    (show (ds.drop k).length % 3 = 0 by rw [List.length_drop]; omega)
  have hlen : (ds.take k).length = k := by rw [List.length_take]; omega
  have hgrouped : Grouped ds (ds.take k ++ ts) :=
    ⟨ds.take k, ds.drop k, ts, (List.take_append_drop k ds).symm, rfl, by omega, by omega,
      fun d hd => h d (List.mem_of_mem_take hd), hts⟩
  rw [hgrouped.group]
  exact hgrouped

theorem not_comma_of_digit (h : isDigit c) : c ≠ ',' := by
  rintro rfl
  exact absurd h (by decide)

theorem filter_digits (h : ∀ d ∈ ds, isDigit d) : ds.filter (· ≠ ',') = ds :=
  List.filter_eq_self.2 fun d hd => by simpa using not_comma_of_digit (h d hd)

theorem Threes.strip (h : Threes ds ts) : ts.filter (· ≠ ',') = ds := by
  induction h with
  | nil => rfl
  | @cons a b c ds ts ha hb hc _ ih =>
    have hsolid : [a, b, c].filter (· ≠ ',') = [a, b, c] := filter_digits (by simp [ha, hb, hc])
    calc (',' :: a :: b :: c :: ts).filter (· ≠ ',')
        = [a, b, c].filter (· ≠ ',') ++ ts.filter (· ≠ ',') := by simp [← List.filter_append]
      _ = a :: b :: c :: ds := by rw [hsolid, ih]; rfl

-- Taking the commas out of a grouped text leaves the digits.
theorem Grouped.strip (h : Grouped ds ts) : ts.filter (· ≠ ',') = ds := by
  obtain ⟨head, rest, tail, rfl, rfl, -, -, hhead, htail⟩ := h
  rw [List.filter_append, filter_digits hhead, htail.strip]

end Grouping

section Parsing

variable {cs ds ts whole frac more t : List Char}

-- The point and the digits behind it, or nothing.
def Fraction (frac more : List Char) : Prop :=
  (∀ d ∈ frac, isDigit d) ∧ (more = '.' :: frac ∨ frac = [] ∧ more = [])

theorem Fraction.head (h : Fraction frac more) : more = [] ∨ more.head? = some '.' := by
  rcases h.2 with rfl | ⟨-, rfl⟩
  · exact .inr rfl
  · exact .inl rfl

theorem Fraction.strip (h : Fraction frac more) : more.filter (· ≠ ',') = more := by
  rcases h.2 with rfl | ⟨-, rfl⟩
  · rw [List.filter_cons_of_pos (by decide), filter_digits h.1]
  · rfl

theorem takeWhile_digits (h : ∀ d ∈ ds, isDigit d) (hmore : ∀ c ∈ more.head?, ¬ isDigit c) :
    (ds ++ more).takeWhile isDigit = ds ∧ (ds ++ more).dropWhile isDigit = more := by
  rw [List.takeWhile_append_of_pos h, List.dropWhile_append_of_pos h]
  cases more with
  | nil => simp
  | cons c more =>
    have hc : ¬ isDigit c := hmore c rfl
    simp [hc]

theorem Fraction.not_digit (h : Fraction frac more) : ∀ c ∈ more.head?, ¬ isDigit c := by
  rcases h.2 with rfl | ⟨-, rfl⟩
  · simp [isDigit]
  · simp

theorem amountParts_iff : amountParts cs = some (whole, frac) ↔
    whole ≠ [] ∧ (∀ d ∈ whole, isDigit d) ∧ ∃ more, Fraction frac more ∧ cs = whole ++ more := by
  constructor
  · intro h
    have hsplit := List.takeWhile_append_dropWhile (p := isDigit) (l := cs)
    have hdigits : ∀ d ∈ cs.takeWhile isDigit, isDigit d := fun d hd => List.mem_takeWhile_imp hd
    simp only [amountParts] at h
    split at h
    · exact absurd h (by simp)
    · next heq hne =>
      obtain ⟨rfl, rfl⟩ : cs.takeWhile isDigit = whole ∧ [] = frac := by simpa using h
      exact ⟨hne, hdigits, [], ⟨by simp, .inr ⟨rfl, rfl⟩⟩, by rw [← heq, hsplit]⟩
    · next after heq hne =>
      split at h
      · next hfrac =>
        obtain ⟨rfl, rfl⟩ : cs.takeWhile isDigit = whole ∧ after = frac := by simpa using h
        exact ⟨hne, hdigits, '.' :: after, ⟨by simpa using hfrac, .inl rfl⟩, by rw [← heq, hsplit]⟩
      · exact absurd h (by simp)
    · exact absurd h (by simp)
  · rintro ⟨hne, hdigits, more, hfrac, rfl⟩
    obtain ⟨htake, hdrop⟩ := takeWhile_digits hdigits hfrac.not_digit
    simp only [amountParts, htake, hdrop]
    cases whole with
    | nil => exact absurd rfl hne
    | cons d whole =>
      rcases hfrac.2 with rfl | ⟨rfl, rfl⟩
      · simp [List.all_eq_true.2 hfrac.1]
      · rfl

theorem Threes.groups (h : Threes ds ts) :
    groupsThenFraction (ts ++ more) = groupsThenFraction more := by
  induction h with
  | nil => rfl
  | cons ha hb hc _ ih => simpa [groupsThenFraction, ha, hb, hc] using ih

theorem Fraction.groups (h : Fraction frac more) : groupsThenFraction more := by
  rcases h.2 with rfl | ⟨-, rfl⟩
  · simpa [groupsThenFraction] using h.1
  · rfl

theorem exists_groups (h : groupsThenFraction cs) :
    ∃ rest tail frac more, cs = tail ++ more ∧ Threes rest tail ∧ Fraction frac more := by
  induction cs using groupsThenFraction.induct with
  | case1 => exact ⟨[], [], [], [], rfl, .nil, by simp, .inr ⟨rfl, rfl⟩⟩
  | case2 frac => exact ⟨[], [], frac, '.' :: frac, rfl, .nil, by simpa [groupsThenFraction] using h, .inl rfl⟩
  | case3 a b c cs ih =>
    simp only [groupsThenFraction, Bool.and_eq_true] at h
    obtain ⟨rest, tail, frac, more, rfl, htail, hfrac⟩ := ih h.2
    exact ⟨_, _, frac, more, rfl, .cons h.1.1.1 h.1.1.2 h.1.2 htail, hfrac⟩
  | case4 cs => exact absurd h (by simp [groupsThenFraction])

-- What the strict test lets through: a grouped text with a comma, and a fraction.
theorem strictGrouping_iff : strictGrouping t ↔ ∃ head rest tail frac more, t = head ++ (tail ++ more) ∧
    1 ≤ head.length ∧ head.length ≤ 3 ∧ (∀ d ∈ head, isDigit d) ∧ Threes rest tail ∧ rest ≠ [] ∧
    Fraction frac more := by
  constructor
  · intro h
    simp only [strictGrouping, decide_eq_true_eq] at h
    obtain ⟨hpos, hlen, hcomma, hgroups⟩ := h
    obtain ⟨rest, tail, frac, more, heq, htail, hfrac⟩ := exists_groups hgroups
    refine ⟨t.takeWhile isDigit, rest, tail, frac, more, ?_, hpos, hlen, fun d hd => List.mem_takeWhile_imp hd,
      htail, ?_, hfrac⟩
    · rw [← heq, List.takeWhile_append_dropWhile]
    · rintro rfl
      cases htail
      rw [heq] at hcomma
      rcases hfrac.2 with rfl | ⟨-, rfl⟩
      · simp at hcomma
      · simp at hcomma
  · rintro ⟨head, rest, tail, frac, more, rfl, hpos, hlen, hhead, htail, hne, hfrac⟩
    have hcomma : (tail ++ more).head? = some ',' := by
      cases htail with
      | nil => exact absurd rfl hne
      | cons => rfl
    have hstop : ∀ c ∈ (tail ++ more).head?, ¬ isDigit c := by simp [hcomma, isDigit]
    obtain ⟨htake, hdrop⟩ := takeWhile_digits hhead hstop
    simp only [strictGrouping, htake, hdrop, decide_eq_true_eq]
    exact ⟨hpos, hlen, hcomma, htail.groups.trans hfrac.groups⟩

theorem parseAmount_ok {decimals w : ℕ} : parseAmount t decimals = .ok w ↔
    t ≠ [] ∧ (',' ∈ t → strictGrouping t) ∧ ∃ whole frac,
      amountParts (t.filter (· ≠ ',')) = some (whole, frac) ∧
      frac.length ≤ min displayFractionDigits decimals ∧
      w = readDigits whole * 10 ^ decimals + readDigits (padEnd decimals '0' frac) ∧ w < maxNoteWei := by
  unfold parseAmount
  split
  · next h => simp [h]
  · next hne =>
    split
    · next h =>
      exact ⟨fun hbad => absurd hbad (by simp), fun hok => absurd (hok.2.1 h.1) (by simpa using h.2)⟩
    · next hcomma =>
      have hstrict : ',' ∈ t → strictGrouping t := by simpa using hcomma
      cases amountParts (t.filter (· ≠ ',')) with
      | none => simp
      | some parts =>
        obtain ⟨whole, frac⟩ := parts
        dsimp only
        split
        · next h => simp; omega
        · next h =>
          split
          · next hbig => simp; omega
          · next hsmall =>
            simp only [Except.ok.injEq, Option.some.injEq, Prod.mk.injEq]
            constructor
            · rintro rfl
              exact ⟨hne, hstrict, whole, frac, ⟨rfl, rfl⟩, by omega, rfl, by omega⟩
            · rintro ⟨-, -, whole', frac', ⟨rfl, rfl⟩, -, rfl, -⟩
              rfl

end Parsing

end Bongtu.Client.Money
