import Bongtu.Circuit.ImtProof
import Bongtu.Core.ImtAtomic
import Bongtu.Trace

set_option linter.unusedSectionVars false

namespace Bongtu.Core.ImtTree

open Outcome Merkle

section Write

variable {W : Type}

theorem jsSet_append (xs ys : List (Option W)) (i : ℕ) (v : Option W) :
    jsSet (xs ++ ys) (xs.length + i) v = xs ++ jsSet ys i v := by
  unfold jsSet
  rw [List.length_append]
  split
  · rw [if_pos (by omega), List.set_append_right _ _ (by omega), Nat.add_sub_cancel_left]
  · rw [if_neg (by omega), Nat.add_sub_add_left, List.append_assoc, List.append_assoc, List.append_assoc]

theorem writeBlock_append (xs ys : List (Option W)) (i : ℕ) (entry : ℕ → Option W) (m : ℕ) :
    writeBlock (xs.length + i) entry (xs ++ ys) m = xs ++ writeBlock i entry ys m := by
  induction m with
  | zero => rfl
  | succ m ih => rw [writeBlock_succ, writeBlock_succ, ih, Nat.add_assoc, jsSet_append]

theorem writeBlock_nil (entry : ℕ → Option W) (m : ℕ) :
    writeBlock 0 entry [] m = (List.range m).map entry := by
  induction m with
  | zero => rfl
  | succ m ih =>
    rw [writeBlock_succ, ih, List.range_succ, List.map_append, jsSet]
    simp

end Write

variable {W : Type} [Zero W] [DecidableEq W] {poseidon2 : W → W → W} {H k : ℕ} {t : ImtTree W} {xs : List W}

-- The leaves below the frontier are `xs`; entries past the end of the tree only where it is full.
structure Recorded (poseidon2 : W → W → W) (H k : ℕ) (t : ImtTree W) (xs : List W) : Prop where
  content : ∃ c, t.Holds poseidon2 H k c ∧ c.Agrees poseidon2 0 k (Content.ofLeaves xs)
  leaves : ∃ extra, t.leaves = xs.map some ++ extra ∧ (extra ≠ [] → t.nextLeafIndex = 2 ^ H)

theorem recorded_init : (init poseidon2 H (2 ^ k)).Recorded poseidon2 H k [] :=
  ⟨⟨Content.empty, holds_init H k, Content.agrees_empty k⟩, [], rfl, fun h => absurd rfl h⟩

namespace Recorded

theorem next_eq (h : t.Recorded poseidon2 H k xs) : t.nextLeafIndex = xs.length := by
  obtain ⟨c, hc, hagrees⟩ := h.content
  exact hc.tracks.next_eq.trans hagrees.1

theorem params (h : t.Recorded poseidon2 H k xs) : t.Params poseidon2 H k := by
  obtain ⟨c, hc, -⟩ := h.content
  exact hc.params

theorem within (h : t.Recorded poseidon2 H k xs) : t.Within poseidon2 H k 0 := by
  obtain ⟨c, hc, -⟩ := h.content
  exact ⟨hc.params, Nat.zero_le _, hc.tracks.next_eq.trans_le hc.tracks.room⟩

theorem leaves_open (h : t.Recorded poseidon2 H k xs) (hroom : t.nextLeafIndex < 2 ^ H) :
    t.leaves = xs.map some := by
  obtain ⟨extra, hleaves, hextra⟩ := h.leaves
  have hnil : extra = [] := by
    by_contra hne
    exact hroom.ne (hextra hne)
  rw [hleaves, hnil, List.append_nil]

-- What a call writes past the end of a full tree is no part of the tree.
theorem overwritten (h : t.Recorded poseidon2 H k xs) (hfull : t.nextLeafIndex = 2 ^ H) {m : ℕ}
    (entry : ℕ → Option W) :
    Recorded poseidon2 H k { t with leaves := writeBlock t.nextLeafIndex entry t.leaves m } xs := by
  obtain ⟨c, hc, hagrees⟩ := h.content
  obtain ⟨extra, hleaves, -⟩ := h.leaves
  refine ⟨⟨c, ⟨⟨hc.params.H_eq, hc.params.B_eq, hc.params.logB_eq, hc.params.zeros_eq⟩, hc.tracks⟩, hagrees⟩,
    writeBlock 0 entry extra m, ?_, fun _ => hfull⟩
  have hwrite := writeBlock_append (xs.map some) extra 0 entry m
  rw [List.length_map, Nat.add_zero] at hwrite
  simp only [hleaves, h.next_eq, hwrite]

theorem appended (h : t.Recorded poseidon2 H k xs) (hroom : t.nextLeafIndex < 2 ^ H) {v : W} {t' : ImtTree W}
    (ht' : appendLeaf poseidon2 v t = .returned t') : t'.Recorded poseidon2 H k (xs ++ [v]) := by
  obtain ⟨c, hc, hagrees⟩ := h.content
  have hleaves : t'.leaves = (xs ++ [v]).map some := by
    rw [(insertNode_returned ht').2.2.2.2.1, recordLeaf, h.leaves_open hroom, h.next_eq]
    have hset := jsSet_append (xs.map some) [] 0 (some v)
    rw [List.append_nil, List.length_map, Nat.add_zero] at hset
    rw [hset, List.map_append]
    rfl
  rcases hc.appendLeaf v with ⟨-, t₁, ht₁, hc₁⟩ | ⟨-, e, t₁, ht₁⟩
  · obtain rfl : t' = t₁ := Run.returned.inj (ht'.symm.trans ht₁)
    exact ⟨⟨_, hc₁, (hagrees.place v).of_same (Content.ofLeaves_snoc xs v).symm⟩, [], by simpa using hleaves,
      fun hne => absurd rfl hne⟩
  · rw [ht'] at ht₁
    cases ht₁

theorem padded (j : ℕ) : ∀ {t t' : ImtTree W} {xs : List W}, t.Recorded poseidon2 H k xs →
    t.nextLeafIndex + j ≤ 2 ^ H → padLoop poseidon2 j t = .returned t' →
      t'.Recorded poseidon2 H k (xs ++ List.replicate j 0) := by
  induction j with
  | zero =>
    intro t t' xs h _ ht'
    cases ht'
    simpa using h
  | succ j ih =>
    intro t t' xs h hroom ht'
    obtain ⟨t₁, ht₁, ht'⟩ := Run.bind_eq_returned.mp ht'
    have hzero : t.zeros 0 = 0 := h.params.zeros_eq 0 (Nat.zero_le H)
    rw [hzero, ← appendLeaf] at ht₁
    have hnext : t₁.nextLeafIndex = t.nextLeafIndex + 1 := (insertNode_returned ht₁).2.2.2.2.2
    have hrest := ih (h.appended (by omega) ht₁) (by omega) ht'
    rwa [List.append_assoc, List.singleton_append, ← List.replicate_succ] at hrest

-- The leaves an attach that names its leaves puts under its root.
def blockOf (k : ℕ) (leaves : List W) : List W := (List.range (2 ^ k)).map fun o => leaves.getD o 0

theorem blockOf_root (hp : t.Params poseidon2 H k) (hk : k ≤ H) {r : W} {leaves : List W}
    (h : checkLeaves poseidon2 t r (some leaves) = .ok ()) :
    (Content.ofLeaves (blockOf k leaves)).nodeAt poseidon2 0 k 0 = r := by
  have hlen : (blockOf k leaves).length = 2 ^ k := by simp [blockOf]
  have hzero : t.zeros 0 = 0 := hp.zeros_eq 0 (Nat.zero_le H)
  unfold checkLeaves at h
  dsimp only at h
  split at h
  · cases h
  · next hfits =>
    obtain ⟨computed, hcomputed, h⟩ := bind_ok.mp h
    have hsame : computeSubtreeRoot poseidon2 t (blockOf k leaves) = computeSubtreeRoot poseidon2 t leaves := by
      have hbase : ∀ o ∈ List.range t.B, (blockOf k leaves).getD o (t.zeros 0) = leaves.getD o (t.zeros 0) := by
        intro o ho
        have hlt : o < 2 ^ k := hp.B_eq ▸ List.mem_range.mp ho
        simp [blockOf, List.getD_eq_getElem?_getD, hlt, hzero]
      rw [computeSubtreeRoot, computeSubtreeRoot, if_neg (by rw [hlen, hp.B_eq]; exact lt_irrefl _),
        if_neg hfits, List.map_congr_left hbase]
    rw [computeSubtreeRoot_eq hp hk hlen, hcomputed] at hsame
    split at h
    · cases h
    · next hequal => exact (Except.ok.inj hsame).trans (not_not.mp hequal)

theorem attached (h : t.Recorded poseidon2 H k xs) (hk : k ≤ H) {r : W} {leaves : List W}
    (hcheck : checkLeaves poseidon2 t r (some leaves) = .ok ()) {padded t' : ImtTree W}
    (hpadded : padded.Recorded poseidon2 H k (xs ++ List.replicate (Content.padding k t.nextLeafIndex) 0))
    (hroom : padded.nextLeafIndex < 2 ^ H) (ht' : attachSubtree poseidon2 r (some leaves) t = .returned t')
    (hinsert : insertNode poseidon2 r k (recordBlock (some leaves) padded) = .returned t') :
    t'.Recorded poseidon2 H k
      (xs ++ List.replicate (Content.padding k t.nextLeafIndex) 0 ++ blockOf k leaves) := by
  obtain ⟨c, hc, hagrees⟩ := h.content
  have hlen : (blockOf k leaves).length = 2 ^ k := by simp [blockOf]
  have hleaves : t'.leaves =
      (xs ++ List.replicate (Content.padding k t.nextLeafIndex) 0 ++ blockOf k leaves).map some := by
    have hwrite := writeBlock_append
      ((xs ++ List.replicate (Content.padding k t.nextLeafIndex) (0 : W)).map some) [] 0
      (blockEntry padded (some leaves)) padded.B
    rw [List.append_nil, writeBlock_nil, List.length_map, Nat.add_zero, ← hpadded.next_eq,
      ← hpadded.leaves_open hroom] at hwrite
    have hzero : padded.zeros 0 = 0 := hpadded.params.zeros_eq 0 (Nat.zero_le H)
    rw [(insertNode_returned hinsert).2.2.2.2.1]
    refine hwrite.trans ?_
    rw [List.map_append, hpadded.leaves_open hroom, hpadded.params.B_eq, blockOf, List.map_map]
    simp [blockEntry, hzero]
  have hattach := hagrees.attach hlen (blockOf_root h.params hk hcheck)
  rw [← h.next_eq] at hattach
  rcases hc.attachSubtree hk r hcheck with ⟨-, t₁, ht₁, hc₁⟩ | ⟨-, e, t₁, ht₁⟩
  · obtain rfl : t' = t₁ := Run.returned.inj (ht'.symm.trans ht₁)
    exact ⟨⟨_, hc₁, hattach⟩, [], by simpa using hleaves, fun hne => absurd rfl hne⟩
  · rw [ht'] at ht₁
    cases ht₁

end Recorded

-- The call names its leaves, or leaves the tree without the block.
def Supplied (poseidon2 : W → W → W) (t : ImtTree W) : TreeOp W → Prop
  | .attach subtreeRoot none => ∃ e t', attachSubtree poseidon2 subtreeRoot none t = .threw e t'
  | _ => True

theorem Recorded.call (h : t.Recorded poseidon2 H k xs) (hk : k ≤ H) {op : TreeOp W}
    (hsupplied : Supplied poseidon2 t op) : ∃ xs', (call poseidon2 t op).Recorded poseidon2 H k xs' := by
  cases op with
  | append v =>
    rw [ImtTree.call, apply]
    rcases appendLeaf_spec h.within v with ⟨hroom, t', ht', -⟩ | ⟨hfull, ht'⟩
    · rw [ht']
      exact ⟨_, h.appended hroom ht'⟩
    · rw [ht']
      exact ⟨xs, h.overwritten hfull (m := 1) fun _ => some v⟩
  | attach r leaves =>
    rw [ImtTree.call, apply]
    rcases attachSubtree_spec h.within hk r leaves with ⟨e, -, ht'⟩ | ⟨hcheck, padded, hpad, -, -, hcases⟩
    · rw [ht']
      exact ⟨xs, h⟩
    · have hroom := Frontier.padding_room hk h.within.le
      rw [padToBlockBoundary, h.params.B_eq] at hpad
      have hpadded := Recorded.padded (Content.padding k t.nextLeafIndex) h hroom hpad
      rcases hcases with ⟨hlt, t', ht', hinsert⟩ | ⟨hfull, ht'⟩
      · rw [ht']
        cases leaves with
        | none =>
          obtain ⟨e, t₁, ht₁⟩ := hsupplied
          rw [ht'] at ht₁
          cases ht₁
        | some leaves => exact ⟨_, h.attached hk hcheck hpadded hlt ht' hinsert⟩
      · rw [ht']
        exact ⟨_, hpadded.overwritten hfull (blockEntry padded leaves)⟩

theorem naiveRoot_leaves {leaves : List (Option W)} (hne : leaves ≠ []) (H : ℕ) :
    naiveRoot poseidon2 leaves H = (Content.ofLeaves (leaves.map fun x => x.getD 0)).root poseidon2 0 H := by
  have hlen : leaves.length ≠ 0 := by simpa using hne
  rw [naiveRoot, if_neg hlen, pairLevel_eq, foldl_pairUp_root _ 0 (by simpa using hne)]
  exact fun j hj => ladder_eq H j hj.le

theorem Recorded.naiveRoot_eq (h : t.Recorded poseidon2 H k xs) (hk : k ≤ H) (hxs : xs ≠ []) :
    naiveRoot poseidon2 t.leaves H = t.root := by
  obtain ⟨c, hc, hagrees⟩ := h.content
  obtain ⟨extra, hleaves, hextra⟩ := h.leaves
  have hroot : t.root = (Content.ofLeaves xs).root poseidon2 0 H :=
    hc.tracks.root_eq.trans (hagrees.root hk)
  have hvalues : (xs.map some).map (fun x => x.getD (0 : W)) = xs := by simp [Function.comp_def]
  rw [hroot, naiveRoot_leaves (by simp [hleaves, hxs]), hleaves, List.map_append, hvalues]
  rcases eq_or_ne extra [] with rfl | hne
  · rw [List.map_nil, List.append_nil]
  · -- the tree is full: its first `2 ^ H` leaves alone are under the root
    refine Content.ofLeaves_append_left _ _ ?_
    rw [← h.next_eq, hextra hne, Nat.zero_add, one_mul]

theorem merklePath_take (t : ImtTree W) (i : ℕ) : t.merklePath poseidon2 i =
    ({ t with leaves := t.leaves.take t.nextLeafIndex } : ImtTree W).merklePath poseidon2 i := by
  have hsame : ((List.range t.nextLeafIndex).find? fun i => (t.leaves.getD i none).isNone) =
      (List.range t.nextLeafIndex).find? fun i => ((t.leaves.take t.nextLeafIndex).getD i none).isNone := by
    refine List.find?_congr fun i hi => ?_
    rw [List.getD_eq_getElem?_getD, List.getD_eq_getElem?_getD, List.getElem?_take_of_lt (List.mem_range.mp hi)]
  rw [merklePath, merklePath, hsame, List.take_take, Nat.min_self]

theorem Recorded.merklePath (h : t.Recorded poseidon2 H k xs) (hk : k ≤ H) {i : ℕ}
    (hi : i < t.nextLeafIndex) : ∃ leaf siblings, t.leaves[i]? = some (some leaf) ∧ siblings.length = H ∧
      t.merklePath poseidon2 i = .ok (siblings, (List.range H).map fun j => i / 2 ^ j % 2) ∧
      foldToRoot poseidon2 leaf siblings i = t.root := by
  obtain ⟨c, hc, hagrees⟩ := h.content
  obtain ⟨extra, hleaves, -⟩ := h.leaves
  let N (l i : ℕ) : W := (Content.ofLeaves xs).nodeAt poseidon2 0 l i
  have hlt : i < xs.length := h.next_eq ▸ hi
  have hhash (l i : ℕ) : N (l + 1) i = poseidon2 (N l (2 * i)) (N l (2 * i + 1)) := Content.ofLeaves_hash xs l i
  have hright (l i : ℕ) (hout : t.nextLeafIndex ≤ i * 2 ^ l) : N l i = zeroNode poseidon2 0 l :=
    node_of_fresh (Content.ofLeaves xs).fresh (h.next_eq.ge.trans hout)
  have htake : t.leaves.take t.nextLeafIndex = (List.range t.nextLeafIndex).map fun i => some (N 0 i) := by
    rw [hleaves, h.next_eq, List.take_append_of_le_length (by simp), List.take_of_length_le (by simp)]
    refine List.ext_getElem (by simp) fun j hj _ => ?_
    have hj' : j < xs.length := by simpa using hj
    simp [N, Content.ofLeaves_leaf, hj']
  have hp := h.params
  have hpath := merklePath_nodes (t := { t with leaves := t.leaves.take t.nextLeafIndex })
    ⟨hp.H_eq, hp.B_eq, hp.logB_eq, hp.zeros_eq⟩ htake hhash hright hi
  have hroom : i / 2 ^ H = 0 := Nat.div_eq_of_lt (hi.trans_le h.within.le)
  refine ⟨N 0 i, (List.range H).map fun l => N l (buddy (i / 2 ^ l)), ?_, by simp, ?_, ?_⟩
  · rw [hleaves, List.getElem?_append_left (by simpa using hlt)]
    simp [N, Content.ofLeaves_leaf, hlt]
  · rw [merklePath_take]
    exact hpath
  · rw [foldToRoot_nodes i H fun l _ => hhash l _, hroom]
    exact (hc.tracks.root_eq.trans (hagrees.root hk)).symm

section Holes

-- What a call never does: touch a leaf below the frontier.
structure Keeps (t t' : ImtTree W) : Prop where
  grows : t.nextLeafIndex ≤ t'.nextLeafIndex
  room : t'.nextLeafIndex ≤ t'.leaves.length
  kept : ∀ i < t.nextLeafIndex, t'.leaves[i]? = t.leaves[i]?

variable {t' : ImtTree W}

theorem Keeps.refl (h : t.nextLeafIndex ≤ t.leaves.length) : Keeps t t := ⟨le_rfl, h, fun _ _ => rfl⟩

theorem Keeps.trans {t'' : ImtTree W} (h : Keeps t t') (h' : Keeps t' t'') : Keeps t t'' :=
  ⟨h.grows.trans h'.grows, h'.room, fun i hi => (h'.kept i (hi.trans_le h.grows)).trans (h.kept i hi)⟩

theorem writeBlock_kept {start m i : ℕ} {entry : ℕ → Option W} {leaves : List (Option W)} (hi : i < start)
    (hlen : i < leaves.length) : (writeBlock start entry leaves m)[i]? = leaves[i]? := by
  induction m with
  | zero => rfl
  | succ m ih =>
    have hlen' : i < (writeBlock start entry leaves m).length :=
      (List.getElem?_eq_some_iff.mp (ih.trans (List.getElem?_eq_getElem hlen))).1
    rw [writeBlock_succ, getElem?_jsSet_lt (by omega) hlen', ih]

theorem keeps_insert (hlen : t.nextLeafIndex ≤ t.leaves.length) {entry : ℕ → Option W} {s : ℕ} {t₁ : ImtTree W}
    (hnext : t₁.nextLeafIndex = t.nextLeafIndex)
    (hleaves : t₁.leaves = writeBlock t.nextLeafIndex entry t.leaves (2 ^ s)) (node : W) :
    Keeps t (insertNode poseidon2 node s t₁).state := by
  have hsize : t₁.leaves.length = max t.leaves.length (t.nextLeafIndex + 2 ^ s) :=
    hleaves ▸ length_writeBlock (Nat.two_pow_pos s)
  have hkept : ∀ i < t.nextLeafIndex, t₁.leaves[i]? = t.leaves[i]? := fun i hi =>
    hleaves ▸ writeBlock_kept hi (hi.trans_le hlen)
  cases hrun : insertNode poseidon2 node s t₁ with
  | returned t' =>
    obtain ⟨-, -, -, -, hsame, hmoved⟩ := insertNode_returned hrun
    rw [Run.state_returned]
    refine ⟨hnext.ge.trans (hmoved.ge.trans' (Nat.le_add_right _ _)), ?_, fun i hi => by rw [hsame, hkept i hi]⟩
    rw [hsame, hsize, hmoved, hnext]
    exact le_max_right _ _
  | threw e t' =>
    obtain rfl := insertNode_threw hrun
    rw [Run.state_threw]
    exact ⟨hnext.ge, by rw [hnext, hsize]; exact hlen.trans (le_max_left _ _), hkept⟩

theorem keeps_appendLeaf (hlen : t.nextLeafIndex ≤ t.leaves.length) (v : W) :
    Keeps t (appendLeaf poseidon2 v t).state := by
  have hwrite : (recordLeaf v t).leaves = writeBlock t.nextLeafIndex (fun _ => some v) t.leaves (2 ^ 0) := rfl
  have hnext : (recordLeaf v t).nextLeafIndex = t.nextLeafIndex := rfl
  exact keeps_insert hlen hnext hwrite v

theorem keeps_padLoop (j : ℕ) : ∀ {t : ImtTree W}, t.nextLeafIndex ≤ t.leaves.length →
    Keeps t (padLoop poseidon2 j t).state := by
  induction j with
  | zero => exact fun hlen => .refl hlen
  | succ j ih =>
    intro t hlen
    have hstep : Keeps t (appendLeaf poseidon2 (t.zeros 0) t).state := keeps_appendLeaf hlen _
    refine Run.bind_keeps hstep fun t₁ _ h₁ => h₁.trans (ih h₁.room)

theorem keeps_call (hwithin : t.Within poseidon2 H k 0) (hk : k ≤ H) (hlen : t.nextLeafIndex ≤ t.leaves.length)
    (op : TreeOp W) : Keeps t (call poseidon2 t op) := by
  cases op with
  | append v => exact keeps_appendLeaf hlen v
  | attach r leaves =>
    rw [call, apply]
    rcases attachSubtree_spec hwithin hk r leaves with ⟨e, -, ht'⟩ | ⟨hcheck, padded, hpad, hpadded, -, hcases⟩
    · rw [ht']
      exact .refl hlen
    · have hkept : Keeps t padded := by
        have hstep : Keeps t (padToBlockBoundary poseidon2 t).state := keeps_padLoop _ hlen
        rwa [hpad] at hstep
      have hinsert : Keeps padded (insertNode poseidon2 r k (recordBlock leaves padded)).state := by
        have hwrite : (recordBlock leaves padded).leaves =
            writeBlock padded.nextLeafIndex (blockEntry padded leaves) padded.leaves (2 ^ k) := by
          rw [← hpadded.params.B_eq]
          rfl
        have hnext : (recordBlock leaves padded).nextLeafIndex = padded.nextLeafIndex := rfl
        exact keeps_insert hkept.room hnext hwrite r
      have hattach : attachSubtree poseidon2 r leaves t = insertNode poseidon2 r k (recordBlock leaves padded) := by
        rw [attachSubtree, hcheck]
        dsimp only
        rw [hpad, Run.bind_returned, hpadded.params.logB_eq]
      rw [hattach]
      exact hkept.trans hinsert

def Holed (t : ImtTree W) : Prop := ∃ i < t.nextLeafIndex, t.leaves[i]? = some none

theorem Holed.keeps (h : Holed t) (hkeeps : Keeps t t') : Holed t' := by
  obtain ⟨i, hi, hhole⟩ := h
  exact ⟨i, hi.trans_le hkeeps.grows, (hkeeps.kept i hi).trans hhole⟩

theorem Holed.merklePath_error (h : Holed t) (i : ℕ) : ∃ e, t.merklePath poseidon2 i = .error e := by
  obtain ⟨hole, hlt, hnone⟩ := h
  rw [ImtTree.merklePath]
  split
  · exact ⟨_, rfl⟩
  · have hfound : ((List.range t.nextLeafIndex).find? fun i => (t.leaves.getD i none).isNone).isSome := by
      rw [List.find?_isSome]
      exact ⟨hole, List.mem_range.mpr hlt, by simp [List.getD_eq_getElem?_getD, hnone]⟩
    obtain ⟨j, hj⟩ := Option.isSome_iff_exists.mp hfound
    rw [hj]
    exact ⟨_, rfl⟩

-- An attach that went in without its leaves leaves a hole below the frontier.
theorem holed_of_not_supplied (hwithin : t.Within poseidon2 H k 0) (hk : k ≤ H) {op : TreeOp W}
    (h : ¬Supplied poseidon2 t op) : Holed (call poseidon2 t op) := by
  match op with
  | .append v => exact absurd trivial h
  | .attach r (some leaves) => exact absurd trivial h
  | .attach r none =>
    rw [call, apply]
    rcases attachSubtree_spec hwithin hk r none with ⟨e, -, ht'⟩ | ⟨-, padded, -, hpadded, -, hcases⟩
    · exact absurd ⟨e, t, ht'⟩ h
    · rcases hcases with ⟨-, t', ht', hinsert⟩ | ⟨-, ht'⟩
      · obtain ⟨-, -, -, -, hleaves, hnext⟩ := insertNode_returned hinsert
        have hpos := Nat.two_pow_pos k
        refine ⟨padded.nextLeafIndex, ?_, ?_⟩
        · rw [ht', Run.state_returned, hnext]
          exact Nat.lt_add_of_pos_right hpos
        · rw [ht', Run.state_returned, hleaves]
          have hwrite : (writeBlock padded.nextLeafIndex (blockEntry padded none) padded.leaves
              padded.B)[padded.nextLeafIndex + 0]? = some none :=
            getElem?_writeBlock (by rw [hpadded.params.B_eq]; exact hpos)
          exact hwrite
      · exact absurd ⟨_, _, ht'⟩ h

end Holes

section Runs

theorem calls_recorded (hk : k ≤ H) {ops : List (TreeOp W)} {xs : List W}
    (h : t.Recorded poseidon2 H k xs) (hops : Trace.Throughout (call poseidon2) (Supplied poseidon2) t ops) :
    ∃ xs', (calls poseidon2 t ops).Recorded poseidon2 H k xs' := by
  have hstep : ∀ (t : ImtTree W) op, (∃ xs, t.Recorded poseidon2 H k xs) → Supplied poseidon2 t op →
      ∃ xs, (call poseidon2 t op).Recorded poseidon2 H k xs :=
    fun _ _ h hsupplied => h.elim fun _ h => h.call hk hsupplied
  exact Trace.inv_run hstep ⟨xs, h⟩ hops

theorem calls_keeps (hk : k ≤ H) {ops : List (TreeOp W)} : ∀ {t : ImtTree W}, t.Within poseidon2 H k 0 →
    t.nextLeafIndex ≤ t.leaves.length → Keeps t (calls poseidon2 t ops) := by
  induction ops with
  | nil => exact fun _ hlen => .refl hlen
  | cons op ops ih =>
    intro t hwithin hlen
    have hstep := keeps_call hwithin hk hlen op
    exact hstep.trans (ih (hwithin.call hk op) hstep.room)

theorem calls_holed (hk : k ≤ H) {ops : List (TreeOp W)} : ∀ {t : ImtTree W}, t.Within poseidon2 H k 0 →
    t.nextLeafIndex ≤ t.leaves.length → ¬Trace.Throughout (call poseidon2) (Supplied poseidon2) t ops →
      Holed (calls poseidon2 t ops) := by
  induction ops with
  | nil => exact fun _ _ h => absurd trivial h
  | cons op ops ih =>
    intro t hwithin hlen h
    have hstep := keeps_call hwithin hk hlen op
    by_cases hsupplied : Supplied poseidon2 t op
    · exact ih (hwithin.call hk op) hstep.room fun hrest => h ⟨hsupplied, hrest⟩
    · exact (holed_of_not_supplied hwithin hk hsupplied).keeps (calls_keeps hk (hwithin.call hk op) hstep.room)

end Runs

section Closure

open Circuit

variable {F : Type} [Field F] [DecidableEq F]

theorem merklePath_closure {g : Gadgets F} {poseidon2 : F → F → F} (hg : g.Honest poseidon2)
    {height batchSize : ℕ} {start : ImtTree F} (hstart : construct poseidon2 height batchSize = .ok start)
    (ops : List (TreeOp F)) :
    let t := calls poseidon2 start ops
    (Trace.Throughout (call poseidon2) (Supplied poseidon2) start ops → ∀ i < t.nextLeafIndex,
      ∃ leaf siblings pathIndices, t.leaves[i]? = some (some leaf) ∧
        t.merklePath poseidon2 i = .ok (siblings, pathIndices) ∧
        foldToRoot poseidon2 leaf siblings i = t.root ∧ naiveRoot poseidon2 t.leaves height = t.root ∧
        pathIndices = (List.range height).map (fun j => i / 2 ^ j % 2) ∧
        CheckIMTProof g 1 height (fun _ => leaf) (fun _ => (i : F)) (fun _ j => siblings.getD j 0) t.root
          fun _ => 1) ∧
    (¬Trace.Throughout (call poseidon2) (Supplied poseidon2) start ops →
      ∀ i, ∃ e, t.merklePath poseidon2 i = .error e) := by
  obtain ⟨-, k, hk, -, rfl⟩ := construct_ok hstart
  intro t
  constructor
  · intro hsupplied i hi
    obtain ⟨xs, h⟩ := calls_recorded hk recorded_init hsupplied
    obtain ⟨leaf, siblings, hleaf, hlen, hpath, hfold⟩ := h.merklePath hk hi
    have hne : xs ≠ [] := List.ne_nil_of_length_pos (h.next_eq ▸ Nat.zero_lt_of_lt hi)
    have hindex : i < 2 ^ siblings.length := hlen ▸ hi.trans_le h.within.le
    refine ⟨leaf, siblings, _, hleaf, hpath, hfold, h.naiveRoot_eq hk hne, rfl, ?_⟩
    rw [← hlen]
    exact checkIMTProof_of_fold hg hindex hfold
  · intro hmissing
    exact (calls_holed hk within_init (Nat.zero_le _) hmissing).merklePath_error

-- An append, an attach over its partial block, then a throw at capacity.
theorem merklePath_closure_sample :
    let h := fun a b : ZMod 3 => a + 2 * b + 1
    let t := calls h (init h 2 2) [.append 2, .attach 1 (some [2, 2]), .append 1]
    ∃ siblings pathIndices, t.merklePath h 2 = .ok (siblings, pathIndices) ∧
      CheckIMTProof (plainGadgets h) 1 2 (fun _ => 2) (fun _ => 2) (fun _ j => siblings.getD j 0) t.root
        fun _ => 1 := by
  intro h t
  have hstart : construct h 2 2 = .ok (init h 2 2) := rfl
  obtain ⟨leaf, siblings, pathIndices, hleaf, hpath, -, -, -, hproof⟩ :=
    (merklePath_closure (plainGadgets_honest h) hstart
      [.append 2, .attach 1 (some [2, 2]), .append 1]).1 ⟨trivial, trivial, trivial, trivial⟩ 2 (by decide +kernel)
  have htwo : t.leaves[2]? = some (some 2) := by decide +kernel
  obtain rfl : 2 = leaf := Option.some.inj (Option.some.inj (htwo.symm.trans hleaf))
  exact ⟨siblings, pathIndices, hpath, hproof⟩

end Closure

end Bongtu.Core.ImtTree
