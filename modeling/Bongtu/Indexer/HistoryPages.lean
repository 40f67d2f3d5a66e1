import Bongtu.Indexer.LedgerRun

namespace Bongtu.Indexer

open Bongtu.Core Outcome

def DEFAULT_LIMIT : ℕ := 50

def MAX_LIMIT : ℕ := 200

-- Digits only, and no number above the last one a JavaScript number holds exactly.
def wholeNumber (raw : String) : Option ℕ :=
  if raw.toList ≠ [] ∧ raw.toList.all Char.isDigit then
    let n := Nat.ofDigitChars 10 raw.toList 0
    if n < 2 ^ 53 then some n else none
  else none

structure HistoryPage where
  items : List LedgerHistoryItem
  nextBefore : Option ℕ
deriving DecidableEq, Repr

inductive HistoryAnswer where
  | denied
  | badLimit (limit : Option String)
  | badBefore (before : Option String)
  | notBuilt
  | feed (items : List LedgerHistoryItem)
  | page (page : HistoryPage)
deriving DecidableEq, Repr

namespace PostgresLedger

def historyPage (l : PostgresLedger) (owner : Point) (limit : ℕ) (before : Option ℕ) : HistoryPage :=
  let items := l.historyOf owner (some limit) before
  ⟨items, if items.length = limit then items.getLast?.map (·.seq) else none⟩

end PostgresLedger

-- `auth` is the owner the request proved, `none` where the read-auth denies it.
def history (auth : Option Point) (ledger : Option PostgresLedger) (rawLimit rawBefore : Option String) :
    HistoryAnswer :=
  match auth with
  | none => .denied
  | some pub =>
    match rawLimit.elim (some DEFAULT_LIMIT) wholeNumber with
    | none => .badLimit rawLimit
    | some limit =>
      if limit < 1 ∨ limit > MAX_LIMIT then .badLimit rawLimit
      else match rawBefore.map wholeNumber with
        | some none => .badBefore rawBefore
        | before =>
          match ledger with
          | none => .notBuilt
          | some l =>
            if rawLimit = none ∧ rawBefore = none then .feed (l.historyOf pub none none)
            else .page (l.historyPage pub limit before.join)

theorem wholeNumber_toString {n : ℕ} (h : n < 2 ^ 53) : wholeNumber (toString n) = some n := by
  have hdigits : (toString n).toList = Nat.toDigits 10 n := Nat.toList_repr
  have hall : (Nat.toDigits 10 n).all Char.isDigit :=
    List.all_eq_true.mpr fun c hc => Nat.isDigit_of_mem_toDigits (by decide) (by decide) hc
  simp only [wholeNumber, hdigits, Nat.ofDigitChars_ten_toDigits, hall, ne_eq, Nat.toDigits_ne_nil,
    not_false_eq_true, and_self, if_true, h]

theorem history_page {l : PostgresLedger} {owner : Point} {limit : ℕ} {before : Option ℕ}
    (hlimit : 1 ≤ limit) (hmax : limit ≤ MAX_LIMIT) (hbefore : ∀ b ∈ before, b < 2 ^ 53) :
    history (some owner) (some l) (some (toString limit)) (before.map toString) =
      .page (l.historyPage owner limit before) := by
  have hsafe : limit < 2 ^ 53 := by
    have : MAX_LIMIT < 2 ^ 53 := by decide
    omega
  have hrange : ¬(limit < 1 ∨ limit > MAX_LIMIT) := by omega
  cases before with
  | none =>
    simp only [history, Option.elim_some, wholeNumber_toString hsafe, hrange, if_false, Option.map_none,
      reduceCtorEq, and_true, Option.join_none]
  | some b =>
    simp only [history, Option.elim_some, wholeNumber_toString hsafe, hrange, if_false, Option.map_some,
      wholeNumber_toString (hbefore b rfl), reduceCtorEq, and_false, Option.join_some]

section Search

variable {arr : List LedgerHistoryItem} {before : ℕ}

abbrev Ascending (arr : List LedgerHistoryItem) : Prop := arr.Pairwise fun h h' => h.seq < h'.seq

def below (arr : List LedgerHistoryItem) (before : ℕ) : List LedgerHistoryItem :=
  arr.filter (·.seq < before)

theorem below_split (h : Ascending arr) (before : ℕ) : ∃ rest, arr = below arr before ++ rest ∧
    ∀ item ∈ rest, before ≤ item.seq := by
  induction arr with
  | nil => exact ⟨[], rfl, by simp⟩
  | cons item arr ih =>
    obtain ⟨hitem, harr⟩ := List.pairwise_cons.mp h
    by_cases hlt : item.seq < before
    · obtain ⟨rest, hsplit, hrest⟩ := ih harr
      refine ⟨rest, ?_, hrest⟩
      rw [below, List.filter_cons_of_pos (by simpa using hlt), List.cons_append]
      exact congrArg _ hsplit
    · have hlarge : ∀ item' ∈ item :: arr, before ≤ item'.seq := by
        intro item' hmem
        rcases List.mem_cons.mp hmem with rfl | hmem
        · exact Nat.le_of_not_lt hlt
        · exact (Nat.le_of_not_lt hlt).trans (hitem item' hmem).le
      refine ⟨item :: arr, ?_, hlarge⟩
      rw [below, List.filter_eq_nil_iff.mpr fun item' hmem => by simpa using hlarge item' hmem]
      rfl

theorem lastBelow_eq {k : ℕ} (hk : ∀ i (h : i < arr.length), arr[i].seq < before ↔ i < k) {lo hi ans : ℤ}
    (hlo : 0 ≤ lo) (hans : ans = lo - 1) (hle : lo ≤ k) (hge : k ≤ hi + 1) (hhi : hi < arr.length) :
    PostgresLedger.lastBelow arr before lo hi ans = k - 1 := by
  fun_induction PostgresLedger.lastBelow arr before lo hi ans with
  | case1 lo hi ans hgt => omega
  | case2 lo hi ans hlt mid hbelow ih =>
    have hmid : mid.toNat < arr.length := by omega
    rw [List.getElem?_eq_getElem hmid, Option.elim_some, decide_eq_true_eq, hk] at hbelow
    exact ih (by omega) (by omega) (by omega) hge hhi
  | case3 lo hi ans hlt mid habove ih =>
    have hmid : mid.toNat < arr.length := by omega
    rw [List.getElem?_eq_getElem hmid, Option.elim_some, decide_eq_true_eq, hk] at habove
    exact ih hlo hans hle (by omega) (by omega)

theorem lastIndexBelow_eq (h : Ascending arr) (before : ℕ) :
    PostgresLedger.lastIndexBelow arr before = ((below arr before).length : ℤ) - 1 := by
  obtain ⟨rest, hsplit, hrest⟩ := below_split h before
  have hlen : arr.length = (below arr before).length + rest.length := by
    rw [← List.length_append, ← hsplit]
  refine lastBelow_eq (fun i hi => ?_) le_rfl rfl (by omega) (by omega) (by omega)
  have hi' : i < (below arr before ++ rest).length := hsplit ▸ hi
  have hget : arr[i] = (below arr before ++ rest)[i] := by congr 1
  rw [hget, List.getElem_append]
  split
  · next hin =>
    have hmem := List.getElem_mem hin
    exact iff_of_true (by simpa using (List.mem_filter.mp hmem).2) hin
  · next hout => exact iff_of_false (Nat.not_lt.mpr (hrest _ (List.getElem_mem _))) hout

def unseen (arr : List LedgerHistoryItem) (before : Option ℕ) : List LedgerHistoryItem :=
  before.elim arr (below arr)

theorem filterMap_range {f : ℕ → Option LedgerHistoryItem} (xs : List LedgerHistoryItem)
    (h : ∀ j < xs.length, f j = xs[j]?) : (List.range xs.length).filterMap f = xs := by
  have hget : (List.range xs.length).filterMap f = (List.range xs.length).filterMap (xs[·]?) :=
    List.filterMap_congr fun j hj => h j (List.mem_range.mp hj)
  rw [hget, List.range_eq_range']
  exact filterMap_getElem?_range' (k := 0)

theorem historyOf_eq {l : PostgresLedger} {owner : Point} (h : Ascending (l.historyByOwner owner)) (limit : ℕ)
    (before : Option ℕ) : l.historyOf owner (some limit) before =
      (unseen (l.historyByOwner owner) before).reverse.take limit := by
  have hstart : before.elim ((l.historyByOwner owner).length - 1 : ℤ)
      (PostgresLedger.lastIndexBelow (l.historyByOwner owner)) =
      ((unseen (l.historyByOwner owner) before).length : ℤ) - 1 := by
    cases before with
    | none => rfl
    | some b => exact lastIndexBelow_eq h b
  have hprefix : ∃ rest, l.historyByOwner owner = unseen (l.historyByOwner owner) before ++ rest := by
    cases before with
    | none => exact ⟨[], (List.append_nil _).symm⟩
    | some b => exact (below_split h b).imp fun _ => And.left
  obtain ⟨rest, hsplit⟩ := hprefix
  simp only [PostgresLedger.historyOf, hstart, Option.getD_some]
  generalize unseen (l.historyByOwner owner) before = xs at hsplit ⊢
  have hlen : (xs.reverse.take limit).length = min ((xs.length : ℤ) - 1 + 1).toNat limit := by
    rw [List.length_take, List.length_reverse]
    omega
  rw [← hlen, List.bind_eq_flatMap]
  simp only [List.pure_def, ← List.map_eq_flatMap, List.filterMap_map]
  refine filterMap_range _ fun j hj => ?_
  have hj' : j < xs.length := by
    rw [List.length_take, List.length_reverse] at hj
    omega
  have hplace : ((xs.length : ℤ) - 1 - j).toNat = xs.length - 1 - j := by omega
  rw [Function.comp_apply, hplace, hsplit, List.getElem?_append_left (by omega), List.getElem?_take_of_lt (by simp at hj; omega),
    List.getElem?_reverse hj']

end Search

section Ordered

variable {a : Arbiter} {l l' : PostgresLedger}

-- What an owner's feed keeps: its items stand in the order of their numbers, below the next one.
def Ordered (l : PostgresLedger) : Prop :=
  ∀ owner, Ascending (l.historyByOwner owner) ∧ ∀ item ∈ l.historyByOwner owner, item.seq < l.historySeq

def Extends (l l' : PostgresLedger) : Prop :=
  l.historySeq ≤ l'.historySeq ∧ ∀ owner, ∃ news, l'.historyByOwner owner = l.historyByOwner owner ++ news ∧
    ∀ item ∈ news, l.historySeq ≤ item.seq

theorem Extends.refl (l : PostgresLedger) : Extends l l :=
  ⟨le_rfl, fun _ => ⟨[], (List.append_nil _).symm, by simp⟩⟩

theorem Extends.trans {l'' : PostgresLedger} (h : Extends l l') (h' : Extends l' l'') : Extends l l'' := by
  refine ⟨h.1.trans h'.1, fun owner => ?_⟩
  obtain ⟨news, hnews, hseqs⟩ := h.2 owner
  obtain ⟨more, hmore, hseqs'⟩ := h'.2 owner
  refine ⟨news ++ more, by rw [hmore, hnews, List.append_assoc], fun item hitem => ?_⟩
  rcases List.mem_append.mp hitem with hitem | hitem
  · exact hseqs item hitem
  · exact h.1.trans (hseqs' item hitem)

theorem insertItem_last {arr : List LedgerHistoryItem} {item : LedgerHistoryItem}
    (h : ∀ item' ∈ arr, item'.seq < item.seq) : insertItem arr item = arr ++ [item] := by
  rw [insertItem, if_neg]
  cases hlast : arr.getLast? with
  | none => simp
  | some newest => simpa using h newest (List.mem_of_getLast? hlast)

theorem recordHistory_ordered (h : Ordered l) (op : OpEnvelope) (draft : DerivedHistory) :
    Ordered (l.recordHistory op draft) ∧ Extends l (l.recordHistory op draft) := by
  have hpush (owner : Point) : (l.recordHistory op draft).historyByOwner owner = l.historyByOwner owner ++
      if owner = draft.owner then [makeHistoryItem draft op l.historySeq] else [] := by
    simp only [PostgresLedger.recordHistory, pushHistory]
    split
    · next heq =>
      subst heq
      rw [Function.update_self]
      exact insertItem_last (h draft.owner).2
    · next hne => rw [Function.update_of_ne hne, List.append_nil]
  have hnews (owner : Point) : ∀ item ∈ (if owner = draft.owner then [makeHistoryItem draft op l.historySeq]
      else []), item.seq = l.historySeq := by
    intro item hitem
    split at hitem
    · rw [List.mem_singleton.mp hitem]
      rfl
    · cases hitem
  refine ⟨fun owner => ?_, Nat.le_succ _, fun owner => ⟨_, hpush owner, fun item hitem => (hnews owner item hitem).ge⟩⟩
  rw [hpush]
  refine ⟨List.pairwise_append.mpr ⟨(h owner).1, ?_, fun item hitem item' hitem' => ?_⟩, fun item hitem => ?_⟩
  · split <;> simp
  · exact (hnews owner item' hitem').symm ▸ (h owner).2 item hitem
  · rcases List.mem_append.mp hitem with hitem | hitem
    · exact Nat.lt_succ_of_lt ((h owner).2 item hitem)
    · exact Nat.lt_succ_of_le (hnews owner item hitem).le

theorem record_ordered (h : Ordered l) (op : OpEnvelope) (d : DerivedOp) :
    Ordered (l.record op d) ∧ Extends l (l.record op d) := by
  let SameHistory (l' : PostgresLedger) : Prop := l'.historyByOwner = l.historyByOwner ∧ l'.historySeq = l.historySeq
  have hspent (l' : PostgresLedger) (c : ℕ) (hl : SameHistory l') : SameHistory (l'.markSpent c) := by
    unfold PostgresLedger.markSpent
    split <;> exact hl
  have hnotes : SameHistory (d.outputs.foldl (PostgresLedger.recordNote op.txHash) l) :=
    List.foldlRecOn d.outputs _ (motive := SameHistory) ⟨rfl, rfl⟩ fun _ hl _ _ => hl
  have halarms := List.foldlRecOn d.alarms PostgresLedger.raiseAlarm (motive := SameHistory) hnotes
    fun _ hl _ _ => hl
  have hmarks := List.foldlRecOn d.spent PostgresLedger.markSpent (motive := SameHistory) halarms
    fun l' hl c _ => hspent l' c hl
  have hbefore : Ordered (d.spent.foldl PostgresLedger.markSpent (d.alarms.foldl PostgresLedger.raiseAlarm
      (d.outputs.foldl (PostgresLedger.recordNote op.txHash) l))) ∧ Extends l (d.spent.foldl
      PostgresLedger.markSpent (d.alarms.foldl PostgresLedger.raiseAlarm
        (d.outputs.foldl (PostgresLedger.recordNote op.txHash) l))) := by
    refine ⟨fun owner => ?_, hmarks.2.ge, fun owner => ⟨[], ?_, by simp⟩⟩
    · rw [hmarks.1, hmarks.2]
      exact h owner
    · rw [hmarks.1, List.append_nil]
  refine List.foldlRecOn d.history (PostgresLedger.recordHistory op)
    (motive := fun l' => Ordered l' ∧ Extends l l') hbefore fun l' hl draft _ => ?_
  obtain ⟨hordered, hextends⟩ := recordHistory_ordered hl.1 op draft
  exact ⟨hordered, hl.2.trans hextends⟩

theorem apply_ordered {s : PostgresLedger × MirrorTree ℕ} (h : Ordered s.1) (op : OpEnvelope) :
    Ordered (PostgresLedger.apply a op s).state.1 ∧ Extends s.1 (PostgresLedger.apply a op s).state.1 := by
  unfold PostgresLedger.apply
  split
  · exact ⟨h, .refl _⟩
  · dsimp only
    split
    · exact ⟨h, .refl _⟩
    · exact record_ordered (l := s.1.markApplied op.key) h op _

def applyAll (a : Arbiter) (s : PostgresLedger × MirrorTree ℕ) (ops : List OpEnvelope) :
    PostgresLedger × MirrorTree ℕ :=
  ops.foldl (fun s op => (PostgresLedger.apply a op s).state) s

theorem applyAll_ordered {s : PostgresLedger × MirrorTree ℕ} (h : Ordered s.1) (ops : List OpEnvelope) :
    Ordered (applyAll a s ops).1 ∧ Extends s.1 (applyAll a s ops).1 := by
  induction ops generalizing s with
  | nil => exact ⟨h, .refl _⟩
  | cons op ops ih =>
    obtain ⟨hstep, hgrows⟩ := apply_ordered (a := a) h op
    obtain ⟨hrun, hmore⟩ := ih hstep
    exact ⟨hrun, hgrows.trans hmore⟩

end Ordered

section Walk

variable {a : Arbiter} {owner : Point} {limit : ℕ}

-- A client that follows the cursor; each entry of `between` holds the ops that land before its next request.
def followPages (a : Arbiter) (owner : Point) (limit : ℕ) (before : Option ℕ) :
    List (List OpEnvelope) → PostgresLedger × MirrorTree ℕ → List HistoryPage
  | [], _ => []
  | landed :: between, s =>
    let s' := applyAll a s landed
    let page := s'.1.historyPage owner limit before
    page :: match page.nextBefore with
      | none => []
      | some b => followPages a owner limit (some b) between s'

theorem unseen_extends {l l' : PostgresLedger} (h : Extends l l') {b : ℕ} (hb : b ≤ l.historySeq) :
    unseen (l'.historyByOwner owner) (some b) = unseen (l.historyByOwner owner) (some b) := by
  obtain ⟨news, hnews, hseqs⟩ := h.2 owner
  have hout : below news b = [] := by
    refine List.filter_eq_nil_iff.mpr fun item hitem => ?_
    have := hseqs item hitem
    simpa using hb.trans this
  simp only [unseen, Option.elim_some, below] at hout ⊢
  rw [hnews, List.filter_append, hout, List.append_nil]

theorem below_middle {xs ys : List LedgerHistoryItem} {item : LedgerHistoryItem}
    (h : Ascending (xs ++ item :: ys)) : below (xs ++ item :: ys) item.seq = xs := by
  obtain ⟨-, hitem, hcross⟩ := List.pairwise_append.mp h
  have hbefore : xs.filter (·.seq < item.seq) = xs :=
    List.filter_eq_self.mpr fun item' hmem => by simpa using hcross item' hmem item List.mem_cons_self
  have hafter : (item :: ys).filter (·.seq < item.seq) = [] := by
    refine List.filter_eq_nil_iff.mpr fun item' hmem => ?_
    rcases List.mem_cons.mp hmem with rfl | hmem
    · simp
    · simpa using ((List.pairwise_cons.mp hitem).1 item' hmem).le
  rw [below, List.filter_append, hbefore, hafter, List.append_nil]

-- A full page's cursor leaves exactly the items the page did not serve.
theorem below_served {xs : List LedgerHistoryItem} (h : Ascending xs) {last : LedgerHistoryItem}
    (hlast : (xs.reverse.take limit).getLast? = some last) :
    (below xs last.seq).reverse = xs.reverse.drop limit := by
  obtain ⟨newer, htaken⟩ := List.getLast?_eq_some_iff.mp hlast
  have hsplit : xs = (xs.reverse.drop limit).reverse ++ last :: newer.reverse := by
    have hparts := congrArg List.reverse (List.take_append_drop limit xs.reverse)
    rw [htaken, List.reverse_append, List.reverse_append, List.reverse_reverse] at hparts
    exact hparts.symm
  have hbelow : below xs last.seq = (xs.reverse.drop limit).reverse := by
    conv_lhs => rw [hsplit]
    exact below_middle (hsplit ▸ h)
  rw [hbelow, List.reverse_reverse]

theorem unseen_unseen {arr : List LedgerHistoryItem} {before : Option ℕ} {b : ℕ} (hb : ∀ c ∈ before, b ≤ c) :
    below (unseen arr before) b = unseen arr (some b) := by
  cases before with
  | none => rfl
  | some c =>
    simp only [unseen, Option.elim_some, below, List.filter_filter]
    refine List.filter_congr fun item _ => ?_
    have := hb c rfl
    rw [← Bool.decide_and, decide_eq_decide]
    omega

theorem historyPage_last {l : PostgresLedger} (h : Ordered l) {before : Option ℕ}
    (hshort : (unseen (l.historyByOwner owner) before).length < limit) :
    l.historyPage owner limit before = ⟨(unseen (l.historyByOwner owner) before).reverse, none⟩ := by
  have hall := historyOf_eq (h owner).1 limit before
  rw [List.take_of_length_le (by simpa using hshort.le)] at hall
  simp only [PostgresLedger.historyPage, hall, List.length_reverse, if_neg hshort.ne]

theorem historyPage_next {l : PostgresLedger} (h : Ordered l) {before : Option ℕ} (hlimit : 1 ≤ limit)
    (hfull : limit ≤ (unseen (l.historyByOwner owner) before).length) :
    ∃ b, l.historyPage owner limit before =
        ⟨(unseen (l.historyByOwner owner) before).reverse.take limit, some b⟩ ∧ b ≤ l.historySeq ∧
      (unseen (l.historyByOwner owner) (some b)).reverse =
        (unseen (l.historyByOwner owner) before).reverse.drop limit := by
  have hitems := historyOf_eq (h owner).1 limit before
  generalize hxs : unseen (l.historyByOwner owner) before = xs at hfull hitems ⊢
  have hsub : xs.Sublist (l.historyByOwner owner) := by
    subst hxs
    cases before with
    | none => exact .refl _
    | some c => exact List.filter_sublist
  have hlen : (xs.reverse.take limit).length = limit := by simp [hfull]
  have hne : xs.reverse.take limit ≠ [] := List.ne_nil_of_length_pos (by omega)
  have hlast := List.getLast?_eq_some_getLast hne
  generalize (xs.reverse.take limit).getLast hne = last at hlast
  have hmem : last ∈ xs := List.mem_reverse.mp (List.mem_of_mem_take (List.mem_of_getLast? hlast))
  refine ⟨last.seq, ?_, ((h owner).2 last (hsub.subset hmem)).le, ?_⟩
  · simp only [PostgresLedger.historyPage, hitems, hlen, if_true, hlast, Option.map_some]
  · rw [← below_served ((h owner).1.sublist hsub) hlast, ← hxs, unseen_unseen]
    rintro c rfl
    rw [← hxs] at hmem
    exact (of_decide_eq_true (List.mem_filter.mp hmem).2).le

-- What a walk of at most `requests` requests over the items `rest`, newest first, has served.
structure Walked (rest : List LedgerHistoryItem) (limit requests : ℕ) (served : List HistoryPage) : Prop where
  items : served.flatMap (·.items) = rest.take (served.length * limit)
  count : served.length = min requests (rest.length / limit + 1)
  stops : rest.length / limit < requests → ∃ page ∈ served.getLast?, page.nextBefore = none

theorem Walked.none {rest : List LedgerHistoryItem} : Walked rest limit 0 [] where
  items := by simp
  count := by simp
  stops h := absurd h (Nat.not_lt_zero _)

theorem Walked.last {rest : List LedgerHistoryItem} (requests : ℕ) (hshort : rest.length < limit) :
    Walked rest limit (requests + 1) [⟨rest, .none⟩] where
  items := by simp [List.take_of_length_le hshort.le]
  count := by simp [Nat.div_eq_of_lt hshort]
  stops _ := ⟨_, rfl, rfl⟩

theorem Walked.next {rest : List LedgerHistoryItem} {requests b : ℕ} {served : List HistoryPage}
    (hlimit : 1 ≤ limit) (hfull : limit ≤ rest.length) (h : Walked (rest.drop limit) limit requests served) :
    Walked rest limit (requests + 1) (⟨rest.take limit, some b⟩ :: served) := by
  have hpages : rest.length / limit = (rest.drop limit).length / limit + 1 := by
    rw [List.length_drop]
    exact Nat.div_eq_sub_div hlimit hfull
  refine ⟨?_, ?_, fun hlt => ?_⟩
  · rw [List.flatMap_cons, h.items, List.length_cons, Nat.succ_mul, Nat.add_comm, List.take_add]
  · rw [List.length_cons, h.count]
    omega
  · obtain ⟨page, hpage, hnone⟩ := h.stops (by omega)
    exact ⟨page, by simp_all [List.getLast?_cons], hnone⟩

theorem followPages_walked (hlimit : 1 ≤ limit) {between : List (List OpEnvelope)} :
    ∀ {s : PostgresLedger × MirrorTree ℕ} {b : ℕ}, Ordered s.1 → b ≤ s.1.historySeq →
      Walked (unseen (s.1.historyByOwner owner) (some b)).reverse limit between.length
        (followPages a owner limit (some b) between s) := by
  induction between with
  | nil => exact fun _ _ => .none
  | cons landed between ih =>
    intro s b hs hb
    obtain ⟨hs', hgrows⟩ := applyAll_ordered (a := a) hs landed
    rw [← unseen_extends hgrows hb]
    rcases Nat.lt_or_ge (unseen ((applyAll a s landed).1.historyByOwner owner) (some b)).length limit with hlt | hge
    · rw [followPages, historyPage_last hs' hlt]
      exact .last _ (by simpa using hlt)
    · obtain ⟨b', hpage, hb', hrest⟩ := historyPage_next hs' hlimit hge
      rw [followPages, hpage]
      refine .next hlimit (by simpa using hge) ?_
      rw [← hrest]
      exact ih hs' hb'

theorem history_paged (a : Arbiter) (tree : MirrorTree ℕ) (owner : Point) (limit : ℕ) (hlimit : 1 ≤ limit)
    (built : List OpEnvelope) (between : List (List OpEnvelope)) :
    let s := applyAll a (PostgresLedger.empty, tree) built
    let feed := (s.1.historyByOwner owner).reverse
    let served := followPages a owner limit none ([] :: between) s
    feed.Pairwise (fun newer older => older.seq < newer.seq) ∧
      served.flatMap (·.items) = feed.take (served.length * limit) ∧
      served.length = min (between.length + 1) (feed.length / limit + 1) ∧
      (feed.length / limit ≤ between.length →
        served.flatMap (·.items) = feed ∧ ∃ page ∈ served.getLast?, page.nextBefore = none) ∧
      ∀ (l : PostgresLedger) (before : Option ℕ), limit ≤ MAX_LIMIT → (∀ b ∈ before, b < 2 ^ 53) →
        history (some owner) (some l) (some (toString limit)) (before.map toString) =
          .page (l.historyPage owner limit before) := by
  intro s feed served
  have hs : Ordered s.1 := (applyAll_ordered (a := a) (fun _ => ⟨.nil, by simp [PostgresLedger.empty]⟩) built).1
  have hlen : (unseen (s.1.historyByOwner owner) none).length = feed.length := List.length_reverse.symm
  have hfirst : served = followPages a owner limit none ([] :: between) s := rfl
  have hwalked : Walked feed limit (between.length + 1) served := by
    rw [followPages, show applyAll a s [] = s from rfl] at hfirst
    rcases Nat.lt_or_ge feed.length limit with hlt | hge
    · rw [hfirst, historyPage_last hs (by omega)]
      exact .last _ hlt
    · have hfull : limit ≤ (unseen (s.1.historyByOwner owner) none).length := hlen ▸ hge
      obtain ⟨b, hpage, hb, hrest⟩ := historyPage_next hs hlimit hfull
      rw [hfirst, hpage]
      refine .next hlimit hge ?_
      rw [← show _ = feed.drop limit from hrest]
      exact followPages_walked hlimit hs hb
  refine ⟨List.pairwise_reverse.mpr (hs owner).1, hwalked.items, hwalked.count, fun henough => ⟨?_, ?_⟩,
    fun l before hmax hbefore => history_page hlimit hmax hbefore⟩
  · have hcovered : feed.length ≤ served.length * limit := by
      rw [hwalked.count, Nat.min_eq_right (by omega)]
      exact (Nat.lt_mul_of_div_lt (Nat.lt_succ_self _) hlimit).le
    rw [hwalked.items, List.take_of_length_le hcovered]
  · exact hwalked.stops (by omega)

-- A withdraw lands between the first two requests for the deposits' pages.
theorem history_paged_sample :
    let s := applyAll plainArbiter (PostgresLedger.empty, plainTree) [twinDeposit]
    let served := followPages plainArbiter (5, 6) 1 none [[], [twinWithdraw], []] s
    served.flatMap (·.items) = (s.1.historyByOwner (5, 6)).reverse ∧
      served.map (·.items.map (·.seq)) = [[1], [0], []] := by
  have hpaged := history_paged plainArbiter plainTree (5, 6) 1 (by decide) [twinDeposit] [[twinWithdraw], []]
  exact ⟨(hpaged.2.2.2.1 (by decide +kernel)).1, by decide +kernel⟩

end Walk

end Bongtu.Indexer
