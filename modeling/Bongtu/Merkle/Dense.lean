import Bongtu.Merkle.Frontier

namespace Merkle

variable {W : Type} {h : W → W → W} {z : W}

namespace Content

-- A tree whose leaves are all known.
def ofLeaves (xs : List W) : Content W where
  cells := fun l i => if l = 0 then xs[i]? else none
  next := xs.length
  fresh := by
    intro l i v hv
    dsimp only at hv
    split at hv
    · case isTrue hl =>
      subst hl
      have := (List.getElem?_eq_some_iff.mp hv).1
      simpa using this
    · cases hv

theorem ofLeaves_leaf (xs : List W) (i : ℕ) : (ofLeaves xs).nodeAt h z 0 i = xs.getD i z := by
  simp [nodeAt, ofLeaves, node, List.getD_eq_getElem?_getD]

theorem ofLeaves_hash (xs : List W) (l i : ℕ) : (ofLeaves xs).nodeAt h z (l + 1) i =
    h ((ofLeaves xs).nodeAt h z l (2 * i)) ((ofLeaves xs).nodeAt h z l (2 * i + 1)) :=
  node_open _ _ _ rfl

theorem ofLeaves_snoc (xs : List W) (v : W) :
    Same h z (ofLeaves (xs ++ [v])) ((ofLeaves xs).place 0 v) := by
  have hcells : (ofLeaves (xs ++ [v])).cells = ((ofLeaves xs).place 0 v).cells := by
    funext l i
    simp only [ofLeaves, place, assign, pow_zero, Nat.div_one]
    by_cases hl : l = 0
    · by_cases hi : i = xs.length
      · simp [hl, hi]
      · rcases Nat.lt_or_ge i xs.length with hlt | hge
        · simp [hl, hi, List.getElem?_append_left hlt]
        · have hout : (xs ++ [v]).length ≤ i := by
            simp only [List.length_append, List.length_singleton]
            omega
          simp [hl, hi, List.getElem?_eq_none hout, List.getElem?_eq_none hge]
    · simp [hl]
  refine ⟨by simp [ofLeaves, place], ?_⟩
  funext l i
  rw [nodeAt, hcells]
  rfl

theorem ofLeaves_shift (xs ys : List W) (l : ℕ) : ∀ q i, xs.length = q * 2 ^ l →
    (ofLeaves (xs ++ ys)).nodeAt h z l (q + i) = (ofLeaves ys).nodeAt h z l i := by
  induction l with
  | zero =>
    intro q i hq
    have hlen : xs.length = q := by simpa using hq
    rw [ofLeaves_leaf, ofLeaves_leaf, List.getD_eq_getElem?_getD, List.getD_eq_getElem?_getD,
      List.getElem?_append_right (by omega), hlen, Nat.add_sub_cancel_left]
  | succ l ih =>
    intro q i hq
    have hq' : xs.length = 2 * q * 2 ^ l := by rw [hq, pow_succ]; ring
    rw [ofLeaves_hash, ofLeaves_hash, mul_add, ih _ _ hq', add_assoc, ih _ _ hq']

theorem ofLeaves_append_left (xs ys : List W) {l i : ℕ} (hi : (i + 1) * 2 ^ l ≤ xs.length) :
    (ofLeaves (xs ++ ys)).nodeAt h z l i = (ofLeaves xs).nodeAt h z l i := by
  apply node_congr
  intro a j _ _ hhi
  simp only [ofLeaves]
  split
  · case isTrue ha =>
    subst ha
    exact List.getElem?_append_left (by omega)
  · rfl

-- The nodes the two contents share: those at or above the block level, and those of the block
-- that is still being filled.
def Agrees (h : W → W → W) (z : W) (k : ℕ) (c d : Content W) : Prop :=
  c.next = d.next ∧
    ∀ l i, k ≤ l ∨ c.next / 2 ^ k * 2 ^ k ≤ i * 2 ^ l → c.nodeAt h z l i = d.nodeAt h z l i

theorem Same.symm {c d : Content W} (hcd : Same h z c d) : Same h z d c := ⟨hcd.1.symm, hcd.2.symm⟩

theorem Agrees.of_same {k : ℕ} {c d e : Content W} (hcd : Agrees h z k c d) (hde : Same h z d e) :
    Agrees h z k c e :=
  ⟨hcd.1.trans hde.1, fun l i hi => (hcd.2 l i hi).trans (congrFun (congrFun hde.2 l) i)⟩

theorem place_open (c : Content W) {s l : ℕ} (v : W) (hs : s ≤ l) :
    (c.place s v).nodeAt h z (l + 1) (c.next / 2 ^ (l + 1)) =
      h ((c.place s v).nodeAt h z l (2 * (c.next / 2 ^ (l + 1))))
        ((c.place s v).nodeAt h z l (2 * (c.next / 2 ^ (l + 1)) + 1)) :=
  node_open _ _ _ ((assign_of_level_ne _ _ _ _ (by omega)).trans
    (c.fresh.open_of_lt (next_lt_ceil _ _)))

theorem place_of_ne (c : Content W) {s l i : ℕ} (v : W) (hi : i ≠ c.next / 2 ^ l) :
    (c.place s v).nodeAt h z l i = c.nodeAt h z l i := by
  apply node_assign_of_not_over
  rintro ⟨hs, rfl⟩
  rw [Nat.div_div_eq_div_mul, ← pow_add, Nat.add_sub_cancel' hs] at hi
  exact hi rfl

theorem Agrees.place {k : ℕ} {c d : Content W} (hcd : Agrees h z k c d) (v : W) :
    Agrees h z k (c.place 0 v) (d.place 0 v) := by
  obtain ⟨hnext, hnode⟩ := hcd
  have hold : ∀ l i, k ≤ l ∨ c.next / 2 ^ k * 2 ^ k ≤ i * 2 ^ l →
      (c.place 0 v).nodeAt h z l i = (d.place 0 v).nodeAt h z l i := by
    intro l
    induction l with
    | zero =>
      intro i hi
      by_cases hlast : i = c.next / 2 ^ 0
      · subst hlast
        simp [nodeAt, Content.place, node, assign, hnext]
      · rw [place_of_ne c v hlast, place_of_ne d v (hnext ▸ hlast)]
        exact hnode 0 i hi
    | succ l ih =>
      intro i hi
      by_cases hlast : i = c.next / 2 ^ (l + 1)
      · have hchild : ∀ j, 2 * i ≤ j → k ≤ l ∨ c.next / 2 ^ k * 2 ^ k ≤ j * 2 ^ l := by
          intro j hj
          by_cases hkl : k ≤ l
          · exact .inl hkl
          · refine .inr (le_trans ?_ (Nat.mul_le_mul_right _ hj))
            rw [show 2 * i * 2 ^ l = i * 2 ^ (l + 1) by ring]
            rcases hi with hk | hk
            · obtain rfl : k = l + 1 := by omega
              rw [hlast]
            · exact hk
        subst hlast
        rw [place_open c v (Nat.zero_le l), hnext, place_open d v (Nat.zero_le l), ← hnext,
          ih _ (hchild _ le_rfl), ih _ (hchild _ (Nat.le_succ _))]
      · rw [place_of_ne c v hlast, place_of_ne d v (hnext ▸ hlast)]
        exact hnode _ i hi
  refine ⟨by rw [place_next, place_next, hnext], fun l i hi => hold l i (hi.imp_right fun hpos => ?_)⟩
  refine le_trans (Nat.mul_le_mul_right _ (Nat.div_le_div_right ?_)) hpos
  rw [place_zero_next]
  exact Nat.le_succ _

theorem Agrees.pad {k : ℕ} (j : ℕ) : ∀ {c : Content W} {xs : List W},
    Agrees h z k c (ofLeaves xs) →
      Agrees h z k (Content.pad z j c) (ofLeaves (xs ++ List.replicate j z)) := by
  induction j with
  | zero =>
    intro c xs hc
    simpa [Content.pad] using hc
  | succ j ih =>
    intro c xs hc
    have hstep := (hc.place z).of_same (ofLeaves_snoc xs z).symm
    have hrest := ih hstep
    rwa [List.append_assoc, List.singleton_append, ← List.replicate_succ] at hrest

theorem ofLeaves_append_off {n k l i : ℕ} {xs ys : List W} (hn : xs.length = n * 2 ^ k)
    (hlen : ys.length = 2 ^ k) (hkl : k ≤ l) (hi : i ≠ xs.length / 2 ^ l) :
    (ofLeaves (xs ++ ys)).nodeAt h z l i = (ofLeaves xs).nodeAt h z l i := by
  rcases Nat.lt_or_gt_of_ne hi with hlt | hgt
  · refine ofLeaves_append_left xs ys ?_
    exact (Nat.mul_le_mul_right _ hlt).trans (Nat.div_mul_le_self _ _)
  · have hnext : xs.length < i * 2 ^ l :=
      (next_lt_ceil _ _).trans_le (Nat.mul_le_mul_right _ hgt)
    have hroom : (xs ++ ys).length ≤ i * 2 ^ l := by
      obtain ⟨e, rfl⟩ := Nat.exists_eq_add_of_le hkl
      rw [List.length_append, hlen, hn, pow_add, mul_comm (2 ^ k), ← mul_assoc] at *
      have := Nat.lt_of_mul_lt_mul_right hnext
      calc n * 2 ^ k + 2 ^ k = (n + 1) * 2 ^ k := by ring
        _ ≤ i * 2 ^ e * 2 ^ k := Nat.mul_le_mul_right _ this
    exact (node_of_fresh (ofLeaves (xs ++ ys)).fresh hroom).trans
      (node_of_fresh (ofLeaves xs).fresh hnext.le).symm

-- A block known only by its root stands for any leaves with that root.
theorem Agrees.block {k : ℕ} {c : Content W} {xs ys : List W} {r : W}
    (hc : Agrees h z k c (ofLeaves xs)) (hdvd : 2 ^ k ∣ c.next) (hlen : ys.length = 2 ^ k)
    (hr : (ofLeaves ys).nodeAt h z k 0 = r) :
    Agrees h z k (c.place k r) (ofLeaves (xs ++ ys)) := by
  obtain ⟨hnext, hnode⟩ := hc
  have hxs : xs.length = c.next := hnext.symm
  have hn : xs.length = c.next / 2 ^ k * 2 ^ k := by rw [Nat.div_mul_cancel hdvd, hxs]
  have hnext' : (c.place k r).next = (ofLeaves (xs ++ ys)).next := by
    rw [place_next, add_mul, one_mul, ← hn, ← hlen]
    exact (List.length_append).symm
  have hside : ∀ l i, k ≤ l → i ≠ c.next / 2 ^ l →
      (c.place k r).nodeAt h z l i = (ofLeaves (xs ++ ys)).nodeAt h z l i := by
    intro l i hkl hi
    rw [place_of_ne c r hi, ofLeaves_append_off hn hlen hkl (hxs ▸ hi)]
    exact hnode l i (.inl hkl)
  have hhigh : ∀ e i, (c.place k r).nodeAt h z (k + e) i =
      (ofLeaves (xs ++ ys)).nodeAt h z (k + e) i := by
    intro e
    induction e with
    | zero =>
      intro i
      by_cases hi : i = c.next / 2 ^ k
      · have hshift := ofLeaves_shift (h := h) (z := z) xs ys k (c.next / 2 ^ k) 0 hn
        rw [add_zero] at hshift
        subst hi
        exact (node_fixed _ _ _ _ (assign_same _ _ _ _)).trans (hr.symm.trans hshift.symm)
      · exact hside k i le_rfl hi
    | succ e ih =>
      intro i
      by_cases hi : i = c.next / 2 ^ (k + e + 1)
      · rw [← add_assoc, hi, place_open c r (Nat.le_add_right k e), ofLeaves_hash, ih, ih]
      · exact hside (k + (e + 1)) i (Nat.le_add_right _ _) hi
  refine ⟨hnext', fun l i hi => ?_⟩
  by_cases hkl : k ≤ l
  · obtain ⟨e, rfl⟩ := Nat.exists_eq_add_of_le hkl
    exact hhigh e i
  · have hpos : (c.place k r).next ≤ i * 2 ^ l := by
      rcases hi with hi | hi
      · exact absurd hi hkl
      · rwa [place_next, Nat.mul_div_cancel _ (by positivity)] at hi
    exact (node_of_fresh (c.place k r).fresh hpos).trans
      (node_of_fresh (ofLeaves (xs ++ ys)).fresh (hnext' ▸ hpos)).symm

theorem Agrees.attach {k : ℕ} {c : Content W} {xs ys : List W} {r : W}
    (hc : Agrees h z k c (ofLeaves xs)) (hlen : ys.length = 2 ^ k)
    (hr : (ofLeaves ys).nodeAt h z k 0 = r) :
    Agrees h z k (c.attach z k r)
      (ofLeaves (xs ++ List.replicate (padding k xs.length) z ++ ys)) := by
  have hlenxs : xs.length = c.next := hc.1.symm
  have hdvd : 2 ^ k ∣ (Content.pad z (padding k c.next) c).next :=
    (same_closed_pad (h := h) (z := z) k c).1 ▸ dvd_next_closed (h := h) (z := z) k c
  rw [hlenxs]
  exact (hc.pad _).block hdvd hlen hr

theorem agrees_empty (k : ℕ) : Agrees h z k empty (ofLeaves []) :=
  ⟨rfl, fun l i _ => (node_blank l i).trans
    (node_of_fresh (ofLeaves ([] : List W)).fresh (Nat.zero_le _)).symm⟩

theorem Agrees.root {k H : ℕ} {c d : Content W} (hcd : Agrees h z k c d) (hk : k ≤ H) :
    c.root h z H = d.root h z H :=
  hcd.2 H 0 (.inl hk)

end Content

open Content

def pairUp (h : W → W → W) (zeros : ℕ → W) (level : List W) (j : ℕ) : List W :=
  (List.range ((level.length + 1) / 2)).map fun k =>
    h (level.getD (2 * k) (zeros j)) (level.getD (2 * k + 1) (zeros j))

-- Pairing the nodes of one level gives the nodes of the next, as long as every node to the right
-- of the list is an empty subtree.
theorem pairUp_nodes {xs : List W} {zeros : ℕ → W} {j m : ℕ} (hz : zeros j = zeroNode h z j)
    (hm : xs.length ≤ m * 2 ^ j) :
    pairUp h zeros ((List.range m).map ((ofLeaves xs).nodeAt h z j)) j =
      (List.range ((m + 1) / 2)).map ((ofLeaves xs).nodeAt h z (j + 1)) := by
  have hget : ∀ i, ((List.range m).map ((ofLeaves xs).nodeAt h z j)).getD i (zeros j) =
      (ofLeaves xs).nodeAt h z j i := by
    intro i
    rcases Nat.lt_or_ge i m with hlt | hge
    · simp [List.getD_eq_getElem?_getD, hlt]
    · have hright : (ofLeaves xs).nodeAt h z j i = zeroNode h z j :=
        node_of_fresh (ofLeaves xs).fresh (hm.trans (Nat.mul_le_mul_right _ hge))
      simp [List.getD_eq_getElem?_getD, not_lt.mpr hge, hright, hz]
  simp only [pairUp, List.length_map, List.length_range, hget, ← ofLeaves_hash]

theorem foldl_pairUp {xs : List W} {zeros : ℕ → W} (d : ℕ)
    (hz : ∀ j, j < d → zeros j = zeroNode h z j) :
    ∃ m, xs.length ≤ m * 2 ^ d ∧ (0 < xs.length → 0 < m) ∧
      (List.range d).foldl (pairUp h zeros) xs =
        (List.range m).map ((ofLeaves xs).nodeAt h z d) := by
  induction d with
  | zero =>
    refine ⟨xs.length, by simp, id, ?_⟩
    apply List.ext_getElem
    · simp
    · intro i hi _
      have hxs : i < xs.length := by simpa using hi
      simp [ofLeaves_leaf, List.getD_eq_getElem?_getD, hxs]
  | succ d ih =>
    obtain ⟨m, hm, hpos, hfold⟩ := ih fun j hj => hz j (by omega)
    refine ⟨(m + 1) / 2, ?_, fun hx => ?_, ?_⟩
    · have hhalf : m ≤ (m + 1) / 2 * 2 := by omega
      rw [pow_succ', ← mul_assoc]
      exact hm.trans (Nat.mul_le_mul_right _ hhalf)
    · have := hpos hx
      omega
    · rw [List.range_succ, List.foldl_append, hfold, List.foldl_cons, List.foldl_nil,
        pairUp_nodes (hz d (by omega)) hm]

theorem foldl_pairUp_root {xs : List W} (zeros : ℕ → W) {H : ℕ} (d : W) (hx : xs ≠ [])
    (hz : ∀ j, j < H → zeros j = zeroNode h z j) :
    ((List.range H).foldl (pairUp h zeros) xs).getD 0 d = (ofLeaves xs).root h z H := by
  obtain ⟨m, -, hpos, hfold⟩ := foldl_pairUp H hz
  have hm : 0 < m := hpos (List.length_pos_iff.mpr hx)
  simp [hfold, List.getD_eq_getElem?_getD, hm, root]

theorem length_foldl_pairUp (zeros : ℕ → W) {xs : List W} {k : ℕ} (hlen : xs.length = 2 ^ k) (d : ℕ)
    (hd : d ≤ k) : ((List.range d).foldl (pairUp h zeros) xs).length = 2 ^ (k - d) := by
  induction d with
  | zero => simpa using hlen
  | succ d ih =>
    have hprev := ih (by omega)
    rw [List.range_succ, List.foldl_append, List.foldl_cons, List.foldl_nil, pairUp,
      List.length_map, List.length_range, hprev, show k - d = k - (d + 1) + 1 by omega, pow_succ]
    omega

end Merkle
