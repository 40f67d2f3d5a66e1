import Bongtu.Evm.Effect
import Bongtu.Indexer.SolanaRun
import Bongtu.Merkle.Path

set_option linter.unusedSectionVars false

namespace Bongtu.Indexer

open Bongtu.Core Merkle Outcome

variable {W : Type} [Zero W] [DecidableEq W] (poseidon2 : W → W → W) (H k : ℕ)

-- The pool's tree events as the ingest decodes them.
def treeEventOfLog : Evm.Event W → Option (TreeEvent W)
  | .appended leafIndex leaf root => some (.appended leafIndex leaf root)
  | .subtreeAppended start subtreeRoot root => some (.subtreeAppended start subtreeRoot root)
  | _ => none

def treeLogFrom (t : Evm.Imt W) (ops : List (TreeOp W)) : List (TreeEvent W) :=
  (t.events poseidon2 H ops).filterMap treeEventOfLog

-- The tree events a pool emits from its deployment on.
def treeLog (ops : List (TreeOp W)) : List (TreeEvent W) :=
  treeLogFrom poseidon2 H (Evm.Imt.init poseidon2 H (2 ^ k)) ops

-- A log and the content it leaves the tree with.
inductive Logged : List (TreeEvent W) → Content W → Prop
  | genesis : Logged [] Content.empty
  | appended {log : List (TreeEvent W)} {c : Content W} (leaf : W) : Logged log c →
      Logged (log ++ [.appended c.next leaf ((c.place 0 leaf).root poseidon2 0 H)]) (c.place 0 leaf)
  | attached {log : List (TreeEvent W)} {c : Content W} (subtreeRoot : W) : Logged log c →
      Logged (log ++ [.subtreeAppended (c.next + Content.padding k c.next) subtreeRoot
        ((c.attach 0 k subtreeRoot).root poseidon2 0 H)]) (c.attach 0 k subtreeRoot)

variable {poseidon2 H k} {log : List (TreeEvent W)} {c : Content W}

theorem attach_start (c : Content W) (r : W) :
    (c.next + Content.padding k c.next) / 2 ^ k * 2 ^ k = c.next + Content.padding k c.next ∧
      (c.attach 0 k r).next = c.next + Content.padding k c.next + 2 ^ k ∧
      (c.attach 0 k r).cells = assign (Content.pad 0 (Content.padding k c.next) c).cells k
        ((c.next + Content.padding k c.next) / 2 ^ k) r := by
  have hdvd : (c.next + Content.padding k c.next) / 2 ^ k * 2 ^ k =
      c.next + Content.padding k c.next := by
    rw [Frontier.add_padding, Nat.mul_div_cancel _ (Nat.two_pow_pos k)]
  refine ⟨hdvd, ?_, ?_⟩
  · rw [Content.attach, Content.place_next, Content.pad_next, add_mul, one_mul, hdvd]
  · rw [← Content.pad_next (z := (0 : W)) (Content.padding k c.next) c]
    rfl

theorem attachSubtree_stride {t t' : Evm.Imt W} {start : ℕ} {r : W} (hp : t.Params poseidon2 H k)
    (ht : t.attachSubtree poseidon2 H r = .ok (start, t')) : t'.nextLeafIndex = start + 2 ^ k := by
  obtain ⟨closed, hclosed, ht⟩ := bind_ok.mp ht
  obtain ⟨attached, hattached, ht⟩ := bind_ok.mp ht
  cases ht
  rw [← (hp.closeBlock hclosed).logB_eq]
  exact (Evm.Imt.insertNode_ok hattached).2.2.1

theorem logged_from (hk : k ≤ H) (ops : List (TreeOp W)) : ∀ {t t' : Evm.Imt W} {log : List (TreeEvent W)}
    {c : Content W}, t.Holds poseidon2 H k c → t.runFrom poseidon2 H ops = .ok t' →
    Logged poseidon2 H k log c →
    Logged poseidon2 H k (log ++ treeLogFrom poseidon2 H t ops) (ops.foldl (TreeOp.content k) c) := by
  induction ops with
  | nil =>
    intro t t' log c _ _ hlog
    rwa [show treeLogFrom poseidon2 H t [] = [] from rfl, List.append_nil]
  | cons op ops ih =>
    intro t t' log c ht hrun hlog
    obtain ⟨t1, ht1, hrest⟩ := bind_ok.mp hrun
    cases op with
    | append leaf =>
      have hok : t.appendLeaf poseidon2 H leaf = .ok t1 := ht1
      obtain ⟨-, t2, hok', hholds⟩ | ⟨-, e, herr⟩ := ht.appendLeaf leaf
      · obtain rfl := Except.ok.inj (hok.symm.trans hok')
        have hnext := ih hholds hrest (hlog.appended leaf)
        have hhead : treeLogFrom poseidon2 H t (.append leaf :: ops) =
            .appended c.next leaf ((c.place 0 leaf).root poseidon2 0 H) ::
              treeLogFrom poseidon2 H t1 ops := by
          simp only [treeLogFrom, Evm.Imt.events, hok, List.filterMap_cons, treeEventOfLog]
          rw [show t.nextLeafIndex = c.next from ht.tracks.next_eq,
            show t1.root = _ from hholds.tracks.root_eq]
        rw [hhead]
        rwa [List.append_assoc, List.singleton_append] at hnext
      · rw [hok] at herr
        cases herr
    | attach subtreeRoot leaves =>
      obtain ⟨-, start, t2, hok, hholds⟩ | ⟨-, e, herr⟩ := ht.attachSubtree hk subtreeRoot
      · have hsame : t1 = t2 := by
          simp only [Evm.Imt.apply, hok] at ht1
          exact (Except.ok.inj ht1).symm
        subst hsame
        have hnext := ih hholds hrest (hlog.attached subtreeRoot)
        have hstart : start = c.next + Content.padding k c.next := by
          have hafter : t1.nextLeafIndex = (c.attach 0 k subtreeRoot).next := hholds.tracks.next_eq
          have hstride := attachSubtree_stride ht.params hok
          rw [hafter, (attach_start c subtreeRoot).2.1] at hstride
          omega
        have hhead : treeLogFrom poseidon2 H t (.attach subtreeRoot leaves :: ops) =
            .subtreeAppended (c.next + Content.padding k c.next) subtreeRoot
              ((c.attach 0 k subtreeRoot).root poseidon2 0 H) :: treeLogFrom poseidon2 H t1 ops := by
          simp only [treeLogFrom, Evm.Imt.events, hok, List.filterMap_cons, treeEventOfLog]
          rw [hstart, show t1.root = _ from hholds.tracks.root_eq]
        rw [hhead]
        rwa [List.append_assoc, List.singleton_append] at hnext
      · simp only [Evm.Imt.apply, herr] at ht1
        cases ht1

theorem logged_treeLog (hk : k ≤ H) {ops : List (TreeOp W)} {e : Evm.Imt W}
    (h : Evm.Imt.run poseidon2 H k ops = .ok e) :
    Logged poseidon2 H k (treeLog poseidon2 H k ops) (contentOf k ops) :=
  logged_from hk ops (Evm.Imt.holds_init k) h .genesis

theorem Logged.take (h : Logged poseidon2 H k log c) (n : ℕ) :
    ∃ c', Logged poseidon2 H k (log.take n) c' := by
  induction h with
  | genesis => exact ⟨_, by simpa using Logged.genesis⟩
  | @appended log c leaf hlog ih =>
    rcases Nat.lt_or_ge log.length n with hn | hn
    · exact ⟨_, by simpa [List.take_of_length_le, hn] using hlog.appended leaf⟩
    · simpa [List.take_append_of_le_length hn] using ih
  | @attached log c subtreeRoot hlog ih =>
    rcases Nat.lt_or_ge log.length n with hn | hn
    · exact ⟨_, by simpa [List.take_of_length_le, hn] using hlog.attached subtreeRoot⟩
    · simpa [List.take_append_of_le_length hn] using ih

section Cells

theorem pad_cells (j : ℕ) : ∀ (c : Content W) (l i : ℕ), (Content.pad 0 j c).cells l i =
    if l = 0 ∧ c.next ≤ i ∧ i < c.next + j then some 0 else c.cells l i := by
  induction j with
  | zero =>
    intro c l i
    rw [if_neg (by omega)]
    rfl
  | succ j ih =>
    intro c l i
    rw [Content.pad, ih, Content.place_zero_next]
    simp only [Content.place, assign, pow_zero, Nat.div_one]
    rcases eq_or_ne l 0 with rfl | hl
    · rcases Nat.lt_trichotomy i c.next with hi | rfl | hi
      · rw [if_neg (by omega), if_neg (by omega), if_neg (by omega)]
      · rw [if_neg (by omega), if_pos ⟨rfl, rfl⟩, if_pos ⟨rfl, by omega⟩]
      · by_cases hlt : i < c.next + 1 + j
        · rw [if_pos ⟨rfl, by omega⟩, if_pos ⟨rfl, by omega⟩]
        · rw [if_neg (by omega), if_neg (by omega), if_neg (by omega)]
    · simp [hl]

-- Which event each fixed cell of the content comes from.
structure Records (k : ℕ) (log : List (TreeEvent W)) (c : Content W) : Prop where
  increasing : Increasing (2 ^ k) log
  stop : ∀ e ∈ log, e.stop (2 ^ k) ≤ c.next
  leaf : ∀ {i v root}, .appended i v root ∈ log → c.cells 0 i = some v
  batch : ∀ {start r root}, .subtreeAppended start r root ∈ log →
    start / 2 ^ k * 2 ^ k = start ∧ c.cells k (start / 2 ^ k) = some r
  cell : ∀ {l i v}, c.cells l i = some v →
    l = 0 ∧ ((∃ root, .appended i v root ∈ log) ∨ v = 0) ∨
      l = k ∧ ∃ root, .subtreeAppended (i * 2 ^ k) v root ∈ log
  kinds : ∀ {start leaves root}, .opAppended start leaves root ∉ log

theorem Increasing.snoc {B : ℕ} {e : TreeEvent W} (hlog : Increasing B log) (he : e.start < e.stop B)
    (hstop : ∀ e' ∈ log, e'.stop B ≤ e.start) : Increasing B (log ++ [e]) := by
  refine ⟨?_, List.pairwise_append.mpr ⟨hlog.2, List.pairwise_singleton _ _, ?_⟩⟩
  · intro e' he'
    rcases List.mem_append.mp he' with he' | he'
    · exact hlog.1 e' he'
    · rw [List.mem_singleton.mp he']
      exact he
  · intro e' he' e'' he''
    rw [List.mem_singleton.mp he'']
    exact hstop e' he'

theorem Records.appended (h : Records k log c) (v root : W) :
    Records k (log ++ [.appended c.next v root]) (c.place 0 v) where
  increasing := h.increasing.snoc (Nat.lt_succ_self _) h.stop
  stop e he := by
    rw [Content.place_zero_next]
    rcases List.mem_append.mp he with he | he
    · exact (h.stop e he).trans (Nat.le_succ _)
    · rw [List.mem_singleton.mp he]
      exact le_rfl
  leaf {i w root'} he := by
    simp only [Content.place, assign, pow_zero, Nat.div_one, true_and]
    rcases List.mem_append.mp he with he | he
    · have hlt : i + 1 ≤ c.next := h.stop _ he
      rw [if_neg (by omega)]
      exact h.leaf he
    · cases List.mem_singleton.mp he
      exact if_pos rfl
  batch {start r root'} he := by
    rcases List.mem_append.mp he with he | he
    · obtain ⟨hstart, hcell⟩ := h.batch he
      refine ⟨hstart, ?_⟩
      have hlt : start + 2 ^ k ≤ c.next := h.stop _ he
      have hold : ¬(k = 0 ∧ start / 2 ^ k = c.next) := by
        rintro ⟨rfl, hnext⟩
        rw [pow_zero, Nat.div_one] at hnext
        omega
      simp only [Content.place, assign, pow_zero, Nat.div_one]
      rw [if_neg hold]
      exact hcell
    · cases List.mem_singleton.mp he
  cell {l i w} hcell := by
    simp only [Content.place, assign, pow_zero, Nat.div_one] at hcell
    split_ifs at hcell with hlast
    · obtain ⟨rfl, rfl⟩ := hlast
      cases hcell
      exact .inl ⟨rfl, .inl ⟨root, by simp⟩⟩
    · rcases h.cell hcell with ⟨hl, ⟨root', he⟩ | hzero⟩ | ⟨hl, root', he⟩
      · exact .inl ⟨hl, .inl ⟨root', by simp [he]⟩⟩
      · exact .inl ⟨hl, .inr hzero⟩
      · exact .inr ⟨hl, root', by simp [he]⟩
  kinds he := by
    rcases List.mem_append.mp he with he | he
    · exact h.kinds he
    · cases List.mem_singleton.mp he

theorem Records.attached (h : Records k log c) (r root : W) :
    Records k (log ++ [.subtreeAppended (c.next + Content.padding k c.next) r root])
      (c.attach 0 k r) := by
  obtain ⟨hstart, hnext, hcells⟩ := attach_start (k := k) c r
  set start := c.next + Content.padding k c.next with hdef
  have hle : c.next ≤ start := Nat.le_add_right _ _
  have hpos : 0 < 2 ^ k := Nat.two_pow_pos k
  refine
    { increasing := h.increasing.snoc (Nat.lt_add_of_pos_right hpos) fun e he => (h.stop e he).trans hle
      stop := fun e he => ?_
      leaf := fun {i v root'} he => ?_
      batch := fun {s r' root'} he => ?_
      cell := fun {l i v} hcell => ?_
      kinds := fun he => ?_ }
  · rw [hnext]
    rcases List.mem_append.mp he with he | he
    · exact (h.stop e he).trans (hle.trans (Nat.le_add_right _ _))
    · rw [List.mem_singleton.mp he]
      exact le_rfl
  · rcases List.mem_append.mp he with he | he
    · have hlt : i + 1 ≤ c.next := h.stop _ he
      have hother : ¬(0 = k ∧ i = start / 2 ^ k) := by
        rintro ⟨rfl, hi⟩
        rw [pow_zero, Nat.div_one] at hi
        omega
      rw [hcells, assign, if_neg hother, pad_cells, if_neg (by omega)]
      exact h.leaf he
    · cases List.mem_singleton.mp he
  · rcases List.mem_append.mp he with he | he
    · obtain ⟨hs, hcell⟩ := h.batch he
      have hlt : s + 2 ^ k ≤ c.next := h.stop _ he
      have hother : s / 2 ^ k ≠ start / 2 ^ k := by
        intro heq
        rw [← hs, heq, hstart] at hlt
        omega
      refine ⟨hs, ?_⟩
      have hpad : ¬(k = 0 ∧ c.next ≤ s / 2 ^ k ∧ s / 2 ^ k < c.next + Content.padding k c.next) := by
        rintro ⟨rfl, hge, -⟩
        rw [pow_zero, Nat.div_one] at hge
        omega
      rw [hcells, assign_of_index_ne _ _ _ _ hother, pad_cells, if_neg hpad]
      exact hcell
    · cases List.mem_singleton.mp he
      exact ⟨hstart, by rw [hcells, assign_same]⟩
  · rw [hcells, assign] at hcell
    split_ifs at hcell with hlast
    · obtain ⟨rfl, rfl⟩ := hlast
      cases hcell
      exact .inr ⟨rfl, root, by simp [hstart]⟩
    · rw [pad_cells] at hcell
      split_ifs at hcell with hpad
      · cases hcell
        exact .inl ⟨hpad.1, .inr rfl⟩
      · rcases h.cell hcell with ⟨hl, ⟨root', he⟩ | hzero⟩ | ⟨hl, root', he⟩
        · exact .inl ⟨hl, .inl ⟨root', by simp [he]⟩⟩
        · exact .inl ⟨hl, .inr hzero⟩
        · exact .inr ⟨hl, root', by simp [he]⟩
  · rcases List.mem_append.mp he with he | he
    · exact h.kinds he
    · cases List.mem_singleton.mp he

theorem Logged.records (h : Logged poseidon2 H k log c) : Records k log c := by
  induction h with
  | genesis =>
    refine ⟨⟨?_, .nil⟩, ?_, ?_, ?_, ?_, ?_⟩ <;> simp [Content.empty, blank]
  | appended leaf _ ih => exact ih.appended leaf _
  | attached subtreeRoot _ ih => exact ih.attached subtreeRoot _

end Cells

end Bongtu.Indexer
