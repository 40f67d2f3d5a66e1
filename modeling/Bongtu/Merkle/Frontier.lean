import Bongtu.Merkle.Sparse

namespace Merkle

variable {W : Type} {h : W → W → W} {z : W}

-- The leaves of a tree up to `next`, some of them known only through the node over their block.
structure Content (W : Type) where
  cells : Cells W
  next : ℕ
  fresh : Fresh cells next

namespace Content

def empty : Content W := ⟨blank, 0, fresh_blank 0⟩

theorem next_lt_ceil (n s : ℕ) : n < (n / 2 ^ s + 1) * 2 ^ s := by
  have := Nat.lt_div_mul_add (a := n) (b := 2 ^ s) (by positivity)
  linarith [add_mul (n / 2 ^ s) 1 (2 ^ s)]

def place (c : Content W) (s : ℕ) (v : W) : Content W where
  cells := assign c.cells s (c.next / 2 ^ s) v
  next := (c.next / 2 ^ s + 1) * 2 ^ s
  fresh := c.fresh.assign v (next_lt_ceil _ _).le le_rfl

def nodeAt (h : W → W → W) (z : W) (c : Content W) (l i : ℕ) : W := node h z c.cells l i

def root (h : W → W → W) (z : W) (H : ℕ) (c : Content W) : W := c.nodeAt h z H 0

def pad (z : W) : ℕ → Content W → Content W
  | 0, c => c
  | j + 1, c => pad z j (c.place 0 z)

def padding (k n : ℕ) : ℕ := (2 ^ k - n % 2 ^ k) % 2 ^ k

def attach (z : W) (k : ℕ) (r : W) (c : Content W) : Content W :=
  (pad z (padding k c.next) c).place k r

theorem place_next (c : Content W) (s : ℕ) (v : W) :
    (c.place s v).next = (c.next / 2 ^ s + 1) * 2 ^ s := rfl

theorem place_zero_next (c : Content W) (v : W) : (c.place 0 v).next = c.next + 1 := by
  simp [place]

theorem root_empty (H : ℕ) : (empty : Content W).root h z H = zeroNode h z H := node_blank H 0

theorem pad_next (j : ℕ) : ∀ c : Content W, (pad z j c).next = c.next + j := by
  induction j with
  | zero => exact fun c => rfl
  | succ j ih =>
    intro c
    rw [pad, ih, place_zero_next]
    omega

theorem node_open_leaf (c : Content W) : c.nodeAt h z 0 c.next = z :=
  node_of_fresh c.fresh (by simp)

theorem node_right (c : Content W) (l : ℕ) :
    c.nodeAt h z l (c.next / 2 ^ l + 1) = zeroNode h z l :=
  node_of_fresh c.fresh (next_lt_ceil _ _).le

-- The cells over the next leaf are still open, so their nodes are hashes.
theorem node_over (c : Content W) (l : ℕ) :
    c.nodeAt h z (l + 1) (c.next / 2 ^ (l + 1)) =
      h (c.nodeAt h z l (2 * (c.next / 2 ^ (l + 1))))
        (c.nodeAt h z l (2 * (c.next / 2 ^ (l + 1)) + 1)) :=
  node_open _ _ _ (c.fresh.open_of_lt (next_lt_ceil _ _))

theorem nodeAt_pad (j : ℕ) : ∀ c : Content W, (pad z j c).nodeAt h z = c.nodeAt h z := by
  induction j with
  | zero => exact fun c => rfl
  | succ j ih =>
    intro c
    have hz : (c.place 0 z).nodeAt h z = c.nodeAt h z := by
      have hself := node_assign_self (h := h) (z := z) c.cells 0 c.next
      have hleaf : node h z c.cells 0 c.next = z := c.node_open_leaf
      rw [hleaf] at hself
      funext l i
      simpa [place, nodeAt] using congrFun (congrFun hself l) i
    rw [pad, ih, hz]

def closed (h : W → W → W) (z : W) (k : ℕ) (c : Content W) : Content W :=
  if c.next % 2 ^ k = 0 then c else c.place k (c.nodeAt h z k (c.next / 2 ^ k))

theorem next_closed (k : ℕ) (c : Content W) :
    (c.closed h z k).next = c.next + padding k c.next := by
  have hdiv := Nat.div_add_mod c.next (2 ^ k)
  have hlt := Nat.mod_lt c.next (show 2 ^ k > 0 by positivity)
  unfold closed padding
  split
  · case isTrue hmod => simp [hmod]
  · case isFalse hmod =>
    rw [Nat.mod_eq_of_lt (a := 2 ^ k - _) (by omega)]
    simp only [place, add_mul, one_mul, mul_comm (c.next / 2 ^ k)]
    omega

-- Placing the node a partial block already has leaves every node as it was.
theorem nodeAt_closed (k : ℕ) (c : Content W) :
    (c.closed h z k).nodeAt h z = c.nodeAt h z := by
  unfold closed
  split
  · rfl
  · exact node_assign_self c.cells k _

theorem dvd_next_closed (k : ℕ) (c : Content W) : 2 ^ k ∣ (c.closed h z k).next := by
  unfold closed
  split
  · case isTrue hmod => exact Nat.dvd_of_mod_eq_zero hmod
  · exact Dvd.intro_left _ rfl

end Content

-- One level of the walk to the root: an even index is joined with the empty right sibling, an odd
-- one with the left sibling held by the frontier.
def join (h : W → W → W) (z : W) (filled : ℕ → W) (i index : ℕ) (current : W) : W :=
  if index % 2 = 0 then h current (zeroNode h z i) else h (filled i) current

def climb (h : W → W → W) (z : W) (filled : ℕ → W) : ℕ → ℕ → ℕ → W → W
  | 0, _, _, current => current
  | d + 1, i, index, current => climb h z filled d (i + 1) (index / 2) (join h z filled i index current)

theorem climb_mod (filled : ℕ → W) (d : ℕ) : ∀ (i index : ℕ) (current : W),
    climb h z filled d i (index % 2 ^ d) current = climb h z filled d i index current := by
  induction d with
  | zero => exact fun _ _ _ => rfl
  | succ d ih =>
    intro i index current
    have hparity : index % 2 ^ (d + 1) % 2 = index % 2 :=
      Nat.mod_mod_of_dvd _ (dvd_pow_self 2 (Nat.succ_ne_zero d))
    have hhalf : index % 2 ^ (d + 1) / 2 = index / 2 % 2 ^ d := by
      rw [pow_succ, mul_comm, Nat.mod_mul_right_div_self]
    rw [climb, climb, hhalf, ih, join, join, hparity]

def keep (filled : ℕ → W) (i index : ℕ) (current : W) : ℕ → W :=
  if index % 2 = 0 then Function.update filled i current else filled

def walk (h : W → W → W) (z : W) : ℕ → ℕ → ℕ → W → (ℕ → W) → W × (ℕ → W)
  | 0, _, _, current, filled => (current, filled)
  | d + 1, i, index, current, filled =>
    walk h z d (i + 1) (index / 2) (join h z filled i index current) (keep filled i index current)

theorem keep_of_ne (filled : ℕ → W) (i index : ℕ) (current : W) {j : ℕ} (hj : j ≠ i) :
    keep filled i index current j = filled j := by
  unfold keep
  split
  · exact Function.update_of_ne hj _ _
  · rfl

theorem join_congr {f g : ℕ → W} {i : ℕ} (index : ℕ) (current : W) (hfg : f i = g i) :
    join h z f i index current = join h z g i index current := by
  simp only [join, hfg]

theorem one_le_of_odd {x : ℕ} (hx : x % 2 = 1) : 1 ≤ x := by omega

namespace Content

def Live (h : W → W → W) (z : W) (c : Content W) (n : ℕ) (filled : ℕ → W) (i : ℕ) : Prop :=
  n / 2 ^ i % 2 = 1 → filled i = c.nodeAt h z i (n / 2 ^ i - 1)

def Joins (h : W → W → W) (z : W) (c : Content W) (n : ℕ) (filled : ℕ → W) (i : ℕ) : Prop :=
  join h z filled i (n / 2 ^ i) (c.nodeAt h z i (n / 2 ^ i)) = c.nodeAt h z (i + 1) (n / 2 ^ (i + 1))

theorem joins_of_live {c : Content W} {n i : ℕ} {filled : ℕ → W} (hl : c.Live h z n filled i)
    (hright : c.nodeAt h z i (n / 2 ^ i + 1) = zeroNode h z i)
    (hover : c.nodeAt h z (i + 1) (n / 2 ^ (i + 1)) =
      h (c.nodeAt h z i (2 * (n / 2 ^ (i + 1)))) (c.nodeAt h z i (2 * (n / 2 ^ (i + 1)) + 1))) :
    c.Joins h z n filled i := by
  have hhalf : n / 2 ^ (i + 1) = n / 2 ^ i / 2 := by rw [pow_succ, Nat.div_div_eq_div_mul]
  unfold Live at hl
  unfold Joins join
  rw [hover, hhalf]
  generalize n / 2 ^ i = index at *
  split
  · case isTrue heven =>
    rw [← hright, show 2 * (index / 2) = index by omega]
  · case isFalse hodd =>
    rw [hl (by omega), show 2 * (index / 2) = index - 1 by omega,
      show index - 1 + 1 = index by omega]

theorem joins_next {c : Content W} {i : ℕ} {filled : ℕ → W} (hl : c.Live h z c.next filled i) :
    c.Joins h z c.next filled i :=
  joins_of_live hl (c.node_right i) (c.node_over i)

theorem Joins.congr {c : Content W} {n i : ℕ} {f g : ℕ → W} (hj : c.Joins h z n f i)
    (hfg : g i = f i) : c.Joins h z n g i := by
  rw [Joins, join_congr _ _ hfg]
  exact hj

theorem climb_of_joins {c : Content W} {n : ℕ} {filled : ℕ → W} (d : ℕ) : ∀ i : ℕ,
    (∀ j, i ≤ j → j < i + d → c.Joins h z n filled j) →
    climb h z filled d i (n / 2 ^ i) (c.nodeAt h z i (n / 2 ^ i)) =
      c.nodeAt h z (i + d) (n / 2 ^ (i + d)) := by
  induction d with
  | zero => exact fun i _ => rfl
  | succ d ih =>
    intro i hj
    have hfirst := hj i le_rfl (by omega)
    have hrest := ih (i + 1) fun j hij hjd => hj j (by omega) (by omega)
    rw [climb, hfirst, Nat.div_div_eq_div_mul, ← pow_succ, hrest, add_right_comm i 1 d, add_assoc]

theorem walk_of_joins {c : Content W} {n : ℕ} (d : ℕ) : ∀ (i : ℕ) (filled : ℕ → W),
    (∀ j, i ≤ j → j < i + d → c.Joins h z n filled j) →
    walk h z d i (n / 2 ^ i) (c.nodeAt h z i (n / 2 ^ i)) filled =
      (c.nodeAt h z (i + d) (n / 2 ^ (i + d)), fun j =>
        if i ≤ j ∧ j < i + d ∧ n / 2 ^ j % 2 = 0 then c.nodeAt h z j (n / 2 ^ j) else filled j) := by
  induction d with
  | zero =>
    intro i filled _
    have hnone : ∀ j, ¬(i ≤ j ∧ j < i ∧ n / 2 ^ j % 2 = 0) := fun j => by omega
    simp only [walk, add_zero, hnone, if_false]
  | succ d ih =>
    intro i filled hj
    have hfirst := hj i le_rfl (by omega)
    have hrest := ih (i + 1) (keep filled i (n / 2 ^ i) (c.nodeAt h z i (n / 2 ^ i)))
      fun j hij hjd => (hj j (by omega) (by omega)).congr (keep_of_ne _ _ _ _ (by omega))
    rw [walk, hfirst, Nat.div_div_eq_div_mul, ← pow_succ, hrest]
    refine Prod.ext ?_ (funext fun j => ?_)
    · rw [add_right_comm i 1 d, add_assoc]
    · dsimp only
      by_cases hji : j = i
      · subst hji
        by_cases heven : n / 2 ^ j % 2 = 0
        · simp [keep, heven]
        · simp [keep, heven]
      · rw [keep_of_ne _ _ _ _ hji]
        congr 1
        apply propext
        constructor <;> rintro ⟨h1, h2, h3⟩ <;> exact ⟨by omega, by omega, h3⟩

theorem live_of_place_lt (c : Content W) {s i : ℕ} (v : W) (filled : ℕ → W) (hi : i < s) :
    (c.place s v).Live h z (c.place s v).next filled i := by
  intro hodd
  obtain ⟨e, rfl⟩ : ∃ e, s = i + (e + 1) := ⟨s - i - 1, by omega⟩
  have heven : (c.place (i + (e + 1)) v).next =
      2 * ((c.next / 2 ^ (i + (e + 1)) + 1) * 2 ^ e) * 2 ^ i := by
    simp only [place]
    ring
  rw [heven, Nat.mul_div_cancel _ (by positivity)] at hodd
  omega

-- After a placement at level `s` the frontier holds, at every level, the left sibling that the
-- next walk reads.
theorem live_of_place_ge {c : Content W} {s i : ℕ} (v : W) {f g : ℕ → W} (hi : s ≤ i)
    (hl : c.Live h z c.next f i)
    (hg : g i = if c.next / 2 ^ i % 2 = 0 then (c.place s v).nodeAt h z i (c.next / 2 ^ i) else f i) :
    (c.place s v).Live h z (c.place s v).next g i := by
  obtain ⟨e, rfl⟩ := Nat.exists_eq_add_of_le hi
  have hidx : c.next / 2 ^ (s + e) = c.next / 2 ^ s / 2 ^ e := by
    rw [Nat.div_div_eq_div_mul, ← pow_add]
  have hnext : (c.place s v).next / 2 ^ (s + e) = (c.next / 2 ^ s + 1) / 2 ^ e := by
    rw [place_next, pow_add, ← Nat.div_div_eq_div_mul, Nat.mul_div_cancel _ (by positivity)]
  have hcarry : (c.next / 2 ^ s + 1) / 2 ^ e = c.next / 2 ^ s / 2 ^ e ∨
      (c.next / 2 ^ s + 1) / 2 ^ e = c.next / 2 ^ s / 2 ^ e + 1 := by
    rw [Nat.succ_div]
    split <;> simp
  intro hodd
  rw [hnext] at hodd ⊢
  unfold Live at hl
  rw [hidx] at hg hl
  rw [hg]
  split
  · case isTrue heven =>
    rw [show (c.next / 2 ^ s + 1) / 2 ^ e = c.next / 2 ^ s / 2 ^ e + 1 by omega, Nat.add_sub_cancel]
  · case isFalse hleft =>
    have hsame : (c.next / 2 ^ s + 1) / 2 ^ e = c.next / 2 ^ s / 2 ^ e := by omega
    rw [hsame] at hodd ⊢
    rw [hl hodd]
    refine (node_assign_left v ?_).symm
    rw [Nat.sub_add_cancel (one_le_of_odd hodd), pow_add, mul_comm (2 ^ s), ← mul_assoc]
    exact Nat.mul_le_mul_right _ (Nat.div_mul_le_self _ _)

theorem joins_place (c : Content W) {s i : ℕ} (v : W) {filled : ℕ → W} (hi : s ≤ i)
    (hl : c.Live h z c.next filled i) : (c.place s v).Joins h z c.next filled i := by
  obtain ⟨e, rfl⟩ := Nat.exists_eq_add_of_le hi
  have hidx : c.next / 2 ^ (s + e) = c.next / 2 ^ s / 2 ^ e := by
    rw [Nat.div_div_eq_div_mul, ← pow_add]
  have hleft : c.next / 2 ^ (s + e) * 2 ^ (s + e) ≤ c.next / 2 ^ s * 2 ^ s := by
    rw [hidx, pow_add, mul_comm (2 ^ s), ← mul_assoc]
    exact Nat.mul_le_mul_right _ (Nat.div_mul_le_self _ _)
  have hright : (c.place s v).next ≤ (c.next / 2 ^ (s + e) + 1) * 2 ^ (s + e) := by
    rw [place_next, hidx, pow_add, mul_comm (2 ^ s), ← mul_assoc]
    exact Nat.mul_le_mul_right _ (next_lt_ceil _ _)
  refine joins_of_live (fun hodd => ?_) (node_of_fresh (c.place s v).fresh hright)
    (node_open _ _ _ ?_)
  · rw [hl hodd]
    refine (node_assign_left v ?_).symm
    rw [Nat.sub_add_cancel (one_le_of_odd hodd)]
    exact hleft
  · exact (assign_of_level_ne _ _ _ _ (by omega)).trans (c.fresh.open_of_lt (next_lt_ceil _ _))

theorem next_lt_of_room {c : Content W} {s H : ℕ} (hroom : (c.next / 2 ^ s + 1) * 2 ^ s ≤ 2 ^ H) :
    c.next < 2 ^ H :=
  (next_lt_ceil _ _).trans_le hroom

theorem walk_place (c : Content W) {s H : ℕ} (v : W) {filled : ℕ → W} (hs : s ≤ H)
    (hl : ∀ i, s ≤ i → i < H → c.Live h z c.next filled i)
    (hroom : (c.next / 2 ^ s + 1) * 2 ^ s ≤ 2 ^ H) :
    (walk h z (H - s) s (c.next / 2 ^ s) v filled).1 = (c.place s v).root h z H ∧
      ∀ i, i < H → (c.place s v).Live h z (c.place s v).next
        (walk h z (H - s) s (c.next / 2 ^ s) v filled).2 i := by
  have hself : (c.place s v).nodeAt h z s (c.next / 2 ^ s) = v :=
    node_fixed _ _ _ _ (assign_same _ _ _ _)
  have hwalk := walk_of_joins (c := c.place s v) (n := c.next) (H - s) s filled
    fun j hsj hj => c.joins_place v hsj (hl j hsj (by omega))
  rw [hself, Nat.add_sub_cancel' hs] at hwalk
  rw [hwalk]
  refine ⟨?_, fun i hi => ?_⟩
  · rw [root, Nat.div_eq_of_lt (next_lt_of_room hroom)]
  · by_cases his : i < s
    · exact c.live_of_place_lt v _ his
    · exact c.live_of_place_ge v (by omega) (hl i (by omega) hi) (by simp [hi, not_lt.mp his])

theorem climb_closed (c : Content W) (k : ℕ) {filled : ℕ → W}
    (hl : ∀ i, i < k → c.Live h z c.next filled i) :
    climb h z filled k 0 c.next z = c.nodeAt h z k (c.next / 2 ^ k) := by
  have hclimb := climb_of_joins (c := c) (n := c.next) k 0 fun j _ hj => joins_next (hl j (by omega))
  simpa [node_open_leaf] using hclimb

-- Two contents that no node and no later operation can tell apart.
def Same (h : W → W → W) (z : W) (c d : Content W) : Prop :=
  c.next = d.next ∧ c.nodeAt h z = d.nodeAt h z

theorem Same.place {c d : Content W} (hcd : Same h z c d) (s : ℕ) (v : W) :
    Same h z (c.place s v) (d.place s v) := by
  obtain ⟨hnext, hnode⟩ := hcd
  refine ⟨by simp only [Content.place, hnext], ?_⟩
  funext l
  induction l with
  | zero =>
    funext i
    by_cases hi : s ≤ 0 ∧ i = c.next / 2 ^ s / 2 ^ (0 - s)
    · obtain ⟨hs, rfl⟩ := hi
      obtain rfl : s = 0 := by omega
      simp [nodeAt, Content.place, node, assign, hnext]
    · have hd := hnext ▸ hi
      exact (node_assign_of_not_over _ _ _ _ _ _ hi).trans
        ((congrFun (congrFun hnode 0) i).trans (node_assign_of_not_over _ _ _ _ _ _ hd).symm)
  | succ l ih =>
    funext i
    by_cases hi : s ≤ l + 1 ∧ i = c.next / 2 ^ s / 2 ^ (l + 1 - s)
    · by_cases hs : s = l + 1
      · obtain ⟨-, rfl⟩ := hi
        simp [nodeAt, Content.place, node, assign, hnext, hs]
      · have hidx : i = c.next / 2 ^ (l + 1) := by
          rw [hi.2, Nat.div_div_eq_div_mul, ← pow_add, Nat.add_sub_cancel' hi.1]
        have hopen : ∀ e : Content W, e.next = c.next → (e.place s v).cells (l + 1) i = none :=
          fun e he => (assign_of_level_ne _ _ _ _ (Ne.symm hs)).trans
            (e.fresh.open_of_lt (by rw [he, hidx]; exact next_lt_ceil _ _))
        rw [nodeAt, nodeAt, node_open _ _ _ (hopen c rfl), node_open _ _ _ (hopen d hnext.symm)]
        exact congrArg₂ h (congrFun ih _) (congrFun ih _)
    · have hd := hnext ▸ hi
      exact (node_assign_of_not_over _ _ _ _ _ _ hi).trans
        ((congrFun (congrFun hnode _) i).trans (node_assign_of_not_over _ _ _ _ _ _ hd).symm)

theorem same_closed_pad (k : ℕ) (c : Content W) :
    Same h z (c.closed h z k) (pad z (padding k c.next) c) :=
  ⟨by rw [next_closed, pad_next], by rw [nodeAt_closed, nodeAt_pad]⟩

end Content

structure Frontier (W : Type) where
  next : ℕ
  root : W
  filled : ℕ → W

namespace Frontier

open Content

def insert (h : W → W → W) (z : W) (H : ℕ) (f : Frontier W) (v : W) (s : ℕ) : Option (Frontier W) :=
  if f.next % 2 ^ s = 0 ∧ f.next + 2 ^ s ≤ 2 ^ H then
    let r := walk h z (H - s) s (f.next / 2 ^ s) v f.filled
    some ⟨f.next + 2 ^ s, r.1, r.2⟩
  else none

def close (h : W → W → W) (z : W) (H k : ℕ) (f : Frontier W) : Option (Frontier W) :=
  if f.next % 2 ^ k = 0 then some f
  else { f with next := f.next - f.next % 2 ^ k }.insert h z H (climb h z f.filled k 0 f.next z) k

def attach (h : W → W → W) (z : W) (H k : ℕ) (f : Frontier W) (r : W) : Option (Frontier W) :=
  (f.close h z H k).bind fun g => g.insert h z H r k

def fill (h : W → W → W) (z : W) (H : ℕ) : ℕ → Frontier W → Option (Frontier W)
  | 0, f => some f
  | j + 1, f => (f.insert h z H z 0).bind (fill h z H j)

def attachFilling (h : W → W → W) (z : W) (H k : ℕ) (f : Frontier W) (r : W) :
    Option (Frontier W) :=
  (fill h z H (padding k f.next) f).bind fun g => g.insert h z H r k

structure Tracks (h : W → W → W) (z : W) (H : ℕ) (f : Frontier W) (c : Content W) : Prop where
  next_eq : f.next = c.next
  room : c.next ≤ 2 ^ H
  root_eq : f.root = c.root h z H
  live : ∀ i, i < H → c.Live h z c.next f.filled i

theorem tracks_empty {H : ℕ} {f : Frontier W} (hnext : f.next = 0) (hroot : f.root = zeroNode h z H) :
    f.Tracks h z H Content.empty where
  next_eq := hnext
  room := Nat.zero_le _
  root_eq := hroot.trans (node_blank H 0).symm
  live i _ hodd := by simp [Content.empty] at hodd

theorem Tracks.congr {H : ℕ} {f : Frontier W} {c d : Content W} (hf : f.Tracks h z H c)
    (hcd : Same h z c d) : f.Tracks h z H d where
  next_eq := hf.next_eq.trans hcd.1
  room := hcd.1 ▸ hf.room
  root_eq := hf.root_eq.trans (congrFun (congrFun hcd.2 H) 0)
  live i hi := by
    have hl := hf.live i hi
    rwa [Live, hcd.2, hcd.1] at hl

theorem insert_from (c : Content W) {H s : ℕ} (v : W) {f : Frontier W} (hs : s ≤ H)
    (hstart : f.next = c.next / 2 ^ s * 2 ^ s)
    (hl : ∀ i, s ≤ i → i < H → c.Live h z c.next f.filled i)
    (hroom : (c.place s v).next ≤ 2 ^ H) :
    ∃ g, f.insert h z H v s = some g ∧ g.Tracks h z H (c.place s v) := by
  have hnext : f.next + 2 ^ s = (c.place s v).next := by
    rw [hstart, place_next, add_mul, one_mul]
  have hidx : f.next / 2 ^ s = c.next / 2 ^ s := by
    rw [hstart, Nat.mul_div_cancel _ (by positivity)]
  obtain ⟨hroot, hlive⟩ := c.walk_place v hs hl hroom
  refine ⟨_, if_pos ⟨by rw [hstart, Nat.mul_mod_left], hnext ▸ hroom⟩, hnext, hroom, ?_, ?_⟩
  · rw [hidx]
    exact hroot
  · rw [hidx]
    exact hlive

theorem Tracks.insert {H s : ℕ} {f : Frontier W} {c : Content W} (hf : f.Tracks h z H c) (v : W)
    (hs : s ≤ H) (hdvd : 2 ^ s ∣ c.next) (hroom : c.next + 2 ^ s ≤ 2 ^ H) :
    ∃ g, f.insert h z H v s = some g ∧ g.Tracks h z H (c.place s v) := by
  refine insert_from c v hs ?_ (fun i _ => hf.live i) ?_
  · rw [Nat.div_mul_cancel hdvd, hf.next_eq]
  · rwa [place_next, add_mul, one_mul, Nat.div_mul_cancel hdvd]

theorem Tracks.insert_full {H s : ℕ} {f : Frontier W} {c : Content W} (hf : f.Tracks h z H c)
    (v : W) (hroom : ¬c.next + 2 ^ s ≤ 2 ^ H) : f.insert h z H v s = none := by
  rw [Frontier.insert, if_neg]
  rw [hf.next_eq]
  exact fun hc => hroom hc.2

theorem ceil_le_of_lt {n k H : ℕ} (hk : k ≤ H) (hn : n < 2 ^ H) :
    (n / 2 ^ k + 1) * 2 ^ k ≤ 2 ^ H := by
  have hH : 2 ^ H = 2 ^ (H - k) * 2 ^ k := by rw [← pow_add, Nat.sub_add_cancel hk]
  have hlt : n / 2 ^ k < 2 ^ (H - k) := by
    rw [Nat.div_lt_iff_lt_mul (by positivity), ← hH]
    exact hn
  rw [hH]
  exact Nat.mul_le_mul_right _ hlt

theorem Tracks.close {H k : ℕ} {f : Frontier W} {c : Content W} (hf : f.Tracks h z H c)
    (hk : k ≤ H) : ∃ g, f.close h z H k = some g ∧ g.Tracks h z H (c.closed h z k) := by
  unfold Frontier.close Content.closed
  rw [hf.next_eq]
  split
  · exact ⟨f, rfl, hf⟩
  · case isFalse hmod =>
    have hlt : c.next < 2 ^ H := by
      refine lt_of_le_of_ne hf.room fun heq => hmod ?_
      rw [heq]
      exact Nat.mod_eq_zero_of_dvd (pow_dvd_pow 2 hk)
    rw [c.climb_closed k fun i hi => hf.live i (by omega)]
    refine insert_from c _ hk ?_ (fun i _ => hf.live i) (ceil_le_of_lt hk hlt)
    rw [← Nat.mod_add_div' c.next (2 ^ k)]
    simp [Nat.add_mul_mod_self_right, Nat.add_mul_div_right]

theorem Tracks.fill {H : ℕ} (j : ℕ) : ∀ {f : Frontier W} {c : Content W}, f.Tracks h z H c →
    c.next + j ≤ 2 ^ H → ∃ g, Frontier.fill h z H j f = some g ∧ g.Tracks h z H (pad z j c) := by
  induction j with
  | zero => exact fun hf _ => ⟨_, rfl, hf⟩
  | succ j ih =>
    intro f c hf hroom
    obtain ⟨g, hg, hgc⟩ := hf.insert z (Nat.zero_le H) (one_dvd _) (by rw [pow_zero]; omega)
    obtain ⟨g', hg', hgc'⟩ := ih hgc (by rw [place_zero_next]; omega)
    exact ⟨g', by rw [Frontier.fill, hg, Option.bind_some, hg'], hgc'⟩

theorem Tracks.append {H : ℕ} {f : Frontier W} {c : Content W} (hf : f.Tracks h z H c) (v : W) :
    (c.next + 1 ≤ 2 ^ H ∧ ∃ g, f.insert h z H v 0 = some g ∧ g.Tracks h z H (c.place 0 v)) ∨
      (¬c.next + 1 ≤ 2 ^ H ∧ f.insert h z H v 0 = none) := by
  by_cases hroom : c.next + 1 ≤ 2 ^ H
  · exact .inl ⟨hroom, hf.insert v (Nat.zero_le H) (one_dvd _) hroom⟩
  · exact .inr ⟨hroom, hf.insert_full v hroom⟩

theorem add_padding (k n : ℕ) :
    n + padding k n = (n / 2 ^ k + if n % 2 ^ k = 0 then 0 else 1) * 2 ^ k := by
  have hdiv := Nat.div_add_mod' n (2 ^ k)
  have hlt := Nat.mod_lt n (show 2 ^ k > 0 by positivity)
  unfold padding
  split
  · case isTrue hmod =>
    simp only [hmod, Nat.sub_zero, Nat.mod_self, add_zero] at hdiv ⊢
    omega
  · case isFalse hmod =>
    rw [Nat.mod_eq_of_lt (a := 2 ^ k - _) (by omega), add_mul, one_mul]
    omega

theorem padding_room {k H n : ℕ} (hk : k ≤ H) (hn : n ≤ 2 ^ H) : n + padding k n ≤ 2 ^ H := by
  rw [add_padding]
  split
  · rw [add_zero]
    exact (Nat.div_mul_le_self _ _).trans hn
  · case isFalse hmod =>
    refine ceil_le_of_lt hk (lt_of_le_of_ne hn fun heq => hmod ?_)
    rw [heq]
    exact Nat.mod_eq_zero_of_dvd (pow_dvd_pow 2 hk)

-- Closing the partial block in one fold and filling it leaf by leaf attach the same subtree.
theorem Tracks.attach {H k : ℕ} {f : Frontier W} {c : Content W} (hf : f.Tracks h z H c)
    (hk : k ≤ H) (r : W) :
    ((c.attach z k r).next ≤ 2 ^ H ∧
      ∃ g, f.attach h z H k r = some g ∧ g.Tracks h z H (c.attach z k r)) ∨
      (¬(c.attach z k r).next ≤ 2 ^ H ∧ f.attach h z H k r = none) := by
  have hsame := (same_closed_pad (h := h) (z := z) k c)
  obtain ⟨g, hg, hgc⟩ := hf.close hk
  have hdvd := dvd_next_closed (h := h) (z := z) k c
  have hnext : (c.attach z k r).next = (c.closed h z k).next + 2 ^ k := by
    rw [Content.attach, place_next, ← hsame.1, add_mul, one_mul, Nat.div_mul_cancel hdvd]
  rw [Frontier.attach, hg, Option.bind_some, hnext]
  by_cases hroom : (c.closed h z k).next + 2 ^ k ≤ 2 ^ H
  · obtain ⟨g', hg', hgc'⟩ := hgc.insert r hk hdvd hroom
    exact .inl ⟨hroom, g', hg', hgc'.congr (hsame.place k r)⟩
  · exact .inr ⟨hroom, hgc.insert_full r hroom⟩

theorem Tracks.attachFilling {H k : ℕ} {f : Frontier W} {c : Content W} (hf : f.Tracks h z H c)
    (hk : k ≤ H) (r : W) :
    ((c.attach z k r).next ≤ 2 ^ H ∧
      ∃ g, f.attachFilling h z H k r = some g ∧ g.Tracks h z H (c.attach z k r)) ∨
      (¬(c.attach z k r).next ≤ 2 ^ H ∧ f.attachFilling h z H k r = none) := by
  have hsame := (same_closed_pad (h := h) (z := z) k c)
  obtain ⟨g, hg, hgc⟩ := hf.fill _ (padding_room hk hf.room)
  have hdvd : 2 ^ k ∣ (pad z (padding k c.next) c).next :=
    hsame.1 ▸ dvd_next_closed (h := h) (z := z) k c
  have hnext : (c.attach z k r).next = (pad z (padding k c.next) c).next + 2 ^ k := by
    rw [Content.attach, place_next, add_mul, one_mul, Nat.div_mul_cancel hdvd]
  rw [Frontier.attachFilling, hf.next_eq, hg, Option.bind_some, hnext]
  by_cases hroom : (pad z (padding k c.next) c).next + 2 ^ k ≤ 2 ^ H
  · exact .inl ⟨hroom, hgc.insert r hk hdvd hroom⟩
  · exact .inr ⟨hroom, hgc.insert_full r hroom⟩

end Frontier

end Merkle
