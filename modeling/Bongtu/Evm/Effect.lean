import Bongtu.Evm.Modules

set_option linter.unusedSectionVars false

namespace Bongtu.Evm

open Outcome

variable {W T : Type} [DecidableEq W] [Zero W] [One W] {env : Env W T}

namespace Imt

variable (poseidon : W → W → W) (H : ℕ)

-- The tree events a sequence of operations emits.
def events (t : Imt W) : List (TreeOp W) → List (Event W)
  | [] => []
  | .append leaf :: ops =>
    match appendLeaf poseidon H t leaf with
    | .ok t' => .appended t.nextLeafIndex leaf t'.root :: events t' ops
    | .error _ => []
  | .attach subtreeRoot _ :: ops =>
    match attachSubtree poseidon H t subtreeRoot with
    | .ok (start, t') => .subtreeAppended start subtreeRoot t'.root :: events t' ops
    | .error _ => []

theorem events_append {ops ops' : List (TreeOp W)} : ∀ {t t' : Imt W},
    runFrom poseidon H t ops = .ok t' →
    events poseidon H t (ops ++ ops') = events poseidon H t ops ++ events poseidon H t' ops' := by
  induction ops with
  | nil =>
    intro t t' ht
    cases ht
    rfl
  | cons op ops ih =>
    intro t t' ht
    obtain ⟨t1, ht1, hrest⟩ := bind_ok.mp ht
    have ih := ih hrest
    cases op with
    | append leaf =>
      have ht1 : appendLeaf poseidon H t leaf = .ok t1 := ht1
      simp only [List.cons_append, events, ht1, ih]
    | attach subtreeRoot leaves =>
      simp only [apply] at ht1
      cases hat : attachSubtree poseidon H t subtreeRoot with
      | error e => simp [hat, Except.map] at ht1
      | ok a =>
        obtain ⟨start, t2⟩ := a
        rw [hat] at ht1
        cases ht1
        simp only [List.cons_append, events, hat, ih]

end Imt

namespace World

def isTree : Event W → Bool
  | .appended _ _ _ => true
  | .subtreeAppended _ _ _ => true
  | _ => false

theorem isTree_events {poseidon : W → W → W} {H : ℕ} (ops : List (TreeOp W)) :
    ∀ {t : Imt W}, ∀ e ∈ Imt.events poseidon H t ops, isTree e = true := by
  induction ops with
  | nil => simp [Imt.events]
  | cons op ops ih =>
    intro t e he
    cases op with
    | append leaf =>
      simp only [Imt.events] at he
      split at he
      · rcases List.mem_cons.mp he with rfl | he
        · rfl
        · exact ih e he
      · simp at he
    | attach r leaves =>
      simp only [Imt.events] at he
      split at he
      · rcases List.mem_cons.mp he with rfl | he
        · rfl
        · exact ih e he
      · simp at he

def runImt (env : Env W T) (t : Imt W) (ops : List (TreeOp W)) : Except (PoolError W) (Imt W) :=
  Imt.runFrom env.poseidon treeHeight t ops

-- What an accepted call does to the tree, the known roots and the nullifier set.
structure Effect (env : Env W T) (w w' : World W T) (nfs : List W) (ops : List (TreeOp W)) : Prop where
  fresh : ∀ nf ∈ nfs, nf ≠ 0 ∧ w.pool.nullifierUsed nf = false
  nodup : nfs.Nodup
  used : ∀ x, w'.pool.nullifierUsed x = true ↔ w.pool.nullifierUsed x = true ∨ x ∈ nfs
  tree : runImt env w.pool.imt ops = .ok w'.pool.imt
  known : ∀ r, w'.pool.knownRoots r = true ↔ w.pool.knownRoots r = true ∨
    ∃ ops' t, ops' ≠ [] ∧ ops' <+: ops ∧ runImt env w.pool.imt ops' = .ok t ∧ t.root = r

def treeLogs (env : Env W T) (t : Imt W) (ops : List (TreeOp W)) : List (Log W) :=
  (Imt.events env.poseidon treeHeight t ops).map (Log.mk env.pool)

-- Everything a tree or nullifier update leaves alone.
structure Kept (w w' : World W T) : Prop where
  token : w'.token = w.token
  disburse : w'.disburse = w.disburse
  initialized : w'.pool.initialized = w.pool.initialized
  version : w'.pool.version = w.pool.version
  owner : w'.pool.owner = w.pool.owner
  arbiterEpochs : w'.pool.arbiterEpochs = w.pool.arbiterEpochs
  registeredModules : w'.pool.registeredModules = w.pool.registeredModules
  disburseCiphertextLen : w'.pool.disburseCiphertextLen = w.pool.disburseCiphertextLen

theorem Kept.refl (w : World W T) : Kept w w := ⟨rfl, rfl, rfl, rfl, rfl, rfl, rfl, rfl⟩

theorem Kept.trans {w w1 w2 : World W T} (h1 : Kept w w1) (h2 : Kept w1 w2) : Kept w w2 :=
  ⟨h2.1.trans h1.1, h2.2.trans h1.2, h2.3.trans h1.3, h2.4.trans h1.4, h2.5.trans h1.5,
    h2.6.trans h1.6, h2.7.trans h1.7, h2.8.trans h1.8⟩

theorem Effect.refl {w w' : World W T} (himt : w'.pool.imt = w.pool.imt)
    (hknown : w'.pool.knownRoots = w.pool.knownRoots)
    (hused : w'.pool.nullifierUsed = w.pool.nullifierUsed) : Effect env w w' [] [] where
  fresh := by simp
  nodup := List.nodup_nil
  used := by simp [hused]
  tree := by rw [himt]; rfl
  known r := by
    rw [hknown]
    refine ⟨.inl, ?_⟩
    rintro (hr | ⟨ops', t, hne, hpre, -⟩)
    · exact hr
    · exact absurd (List.prefix_nil.mp hpre) hne

theorem Effect.trans {w w1 w2 : World W T} {nfs1 nfs2 : List W} {ops1 ops2 : List (TreeOp W)}
    (h1 : Effect env w w1 nfs1 ops1) (h2 : Effect env w1 w2 nfs2 ops2) :
    Effect env w w2 (nfs1 ++ nfs2) (ops1 ++ ops2) := by
  have hstale : ∀ nf ∈ nfs2, nf ∉ nfs1 ∧ w.pool.nullifierUsed nf = false := by
    intro nf hnf
    have hfresh := (h2.fresh nf hnf).2
    have hold := (h1.used nf).not.mp (by simp [hfresh])
    simp only [not_or, Bool.not_eq_true] at hold
    exact ⟨hold.2, hold.1⟩
  have hrun : ∀ ops', runImt env w.pool.imt (ops1 ++ ops') = runImt env w1.pool.imt ops' := by
    intro ops'
    have happ : Imt.runFrom env.poseidon treeHeight w.pool.imt (ops1 ++ ops') =
        Imt.runFrom env.poseidon treeHeight w.pool.imt ops1 >>= fun t' =>
          Imt.runFrom env.poseidon treeHeight t' ops' := Imt.runFrom_append _ _
    have htree : Imt.runFrom env.poseidon treeHeight w.pool.imt ops1 = .ok w1.pool.imt := h1.tree
    rw [htree] at happ
    exact happ
  constructor
  · intro nf hnf
    rcases List.mem_append.mp hnf with h | h
    · exact h1.fresh nf h
    · exact ⟨(h2.fresh nf h).1, (hstale nf h).2⟩
  · exact List.nodup_append.mpr ⟨h1.nodup, h2.nodup, fun a ha b hb hab =>
      (hstale b hb).1 (hab ▸ ha)⟩
  · intro x
    rw [h2.used, h1.used, List.mem_append, or_assoc]
  · rw [hrun, h2.tree]
  · intro r
    rw [h2.known, h1.known, or_assoc]
    refine or_congr_right ⟨?_, ?_⟩
    · rintro (⟨ops', t, hne, hpre, ht, hr⟩ | ⟨ops', t, hne, hpre, ht, hr⟩)
      · exact ⟨ops', t, hne, hpre.trans (List.prefix_append _ _), ht, hr⟩
      · refine ⟨ops1 ++ ops', t, by simp [hne], (List.prefix_append_right_inj _).mpr hpre, ?_, hr⟩
        rw [hrun, ht]
    · rintro ⟨ops', t, hne, hpre, ht, hr⟩
      rcases List.prefix_or_prefix_of_prefix hpre (List.prefix_append ops1 ops2) with h | h
      · exact .inl ⟨ops', t, hne, h, ht, hr⟩
      · obtain ⟨tail, rfl⟩ := h
        rcases eq_or_ne tail [] with rfl | htail
        · exact .inl ⟨ops1, t, by simpa using hne, List.prefix_refl _, by simpa using ht, hr⟩
        · rw [hrun] at ht
          exact .inr ⟨tail, t, htail, (List.prefix_append_right_inj _).mp hpre, ht, hr⟩

theorem Effect.single {w w' : World W T} {op : TreeOp W}
    (hrun : runImt env w.pool.imt [op] = .ok w'.pool.imt)
    (hknown : w'.pool.knownRoots = Function.update w.pool.knownRoots w'.pool.imt.root true)
    (hused : w'.pool.nullifierUsed = w.pool.nullifierUsed) : Effect env w w' [] [op] where
  fresh := by simp
  nodup := List.nodup_nil
  used := by simp [hused]
  tree := hrun
  known r := by
    rw [hknown, Function.update_apply]
    constructor
    · intro hr
      split at hr
      · case isTrue heq => exact .inr ⟨[op], _, by simp, List.prefix_refl _, hrun, heq.symm⟩
      · exact .inl hr
    · rintro (hr | ⟨ops', t, hne, hpre, ht, hr⟩)
      · simp [hr]
      · have hops : ops' = [op] := by
          rcases List.prefix_cons_iff.mp hpre with h | ⟨l, rfl, hl⟩
          · exact absurd h hne
          · rw [List.prefix_nil.mp hl]
        rw [hops, hrun] at ht
        cases ht
        simp [hr]

theorem Effect.keeping {w w1 w2 : World W T} {nfs : List W} {ops : List (TreeOp W)}
    (h : Effect env w w1 nfs ops) (himt : w2.pool.imt = w1.pool.imt)
    (hknown : w2.pool.knownRoots = w1.pool.knownRoots)
    (hused : w2.pool.nullifierUsed = w1.pool.nullifierUsed) : Effect env w w2 nfs ops := by
  simpa using h.trans (.refl himt hknown hused)

-- A sequence of appends, with the events it emits.
structure Appends (env : Env W T) (w w' : World W T) (ops : List (TreeOp W)) : Prop where
  effect : Effect env w w' [] ops
  kept : Kept w w'
  logs : w'.logs = w.logs ++ treeLogs env w.pool.imt ops

theorem Appends.trans {w w1 w2 : World W T} {ops1 ops2 : List (TreeOp W)}
    (h1 : Appends env w w1 ops1) (h2 : Appends env w1 w2 ops2) :
    Appends env w w2 (ops1 ++ ops2) where
  effect := h1.effect.trans h2.effect
  kept := h1.kept.trans h2.kept
  logs := by
    rw [h2.logs, h1.logs, treeLogs, treeLogs, treeLogs, Imt.events_append _ _ h1.effect.tree, List.map_append, List.append_assoc]

theorem appendLeaf_appends {w w' : World W T} {leaf : W} (hw : appendLeaf env w leaf = .ok w') :
    Appends env w w' [.append leaf] := by
  obtain ⟨imt, himt, hw⟩ := bind_ok.mp hw
  cases hw
  have hrun : runImt env w.pool.imt [.append leaf] = .ok imt := by
    rw [runImt, Imt.runFrom, List.foldlM_cons, Imt.apply, himt]
    rfl
  exact ⟨.single hrun rfl rfl, ⟨rfl, rfl, rfl, rfl, rfl, rfl, rfl, rfl⟩,
    by simp [treeLogs, Imt.events, himt, emit]⟩

theorem foldlM_appends {f : World W T → W → Except (PoolError W) (World W T)}
    (hf : ∀ w w' leaf, f w leaf = .ok w' → appendLeaf env w leaf = .ok w') (leaves : List W) :
    ∀ {w w' : World W T}, leaves.foldlM f w = .ok w' → Appends env w w' (leaves.map .append) := by
  induction leaves with
  | nil =>
    intro w w' hw
    cases hw
    exact ⟨.refl rfl rfl rfl, .refl w, (List.append_nil _).symm⟩
  | cons leaf leaves ih =>
    intro w w' hw
    obtain ⟨w1, hw1, hw⟩ := bind_ok.mp hw
    exact (appendLeaf_appends (hf _ _ _ hw1)).trans (ih hw)

theorem appendOutput_ok {w w' : World W T} {oc : W} (hw : appendOutput env w oc = .ok w') :
    oc ≠ 0 ∧ appendLeaf env w oc = .ok w' := by
  obtain ⟨_, hoc, hw⟩ := bind_ok.mp hw
  exact ⟨require_ok.mp hoc, hw⟩

theorem foldlM_appendOutput_ne {leaves : List W} : ∀ {w w' : World W T},
    leaves.foldlM (appendOutput env) w = .ok w' → ∀ leaf ∈ leaves, leaf ≠ 0 := by
  induction leaves with
  | nil => simp
  | cons leaf leaves ih =>
    intro w w' hw
    obtain ⟨w1, hw1, hw⟩ := bind_ok.mp hw
    exact List.forall_mem_cons.mpr ⟨(appendOutput_ok hw1).1, ih hw⟩

theorem foldlM_appendOutput {leaves : List W} {w w' : World W T}
    (hw : leaves.foldlM (appendOutput env) w = .ok w') : Appends env w w' (leaves.map .append) :=
  foldlM_appends (fun _ _ _ h => (appendOutput_ok h).2) leaves hw

structure Attaches (env : Env W T) (w w' : World W T) (r : W) (start : ℕ) : Prop where
  effect : Effect env w w' [] [.attach r none]
  kept : Kept w w'
  logs : w'.logs = w.logs
  treeLogs : treeLogs env w.pool.imt [.attach r none] =
    [⟨env.pool, .subtreeAppended start r w'.pool.imt.root⟩]

theorem attachSubtree_attaches {w w' : World W T} {start : ℕ} {r : W}
    (hw : attachSubtree env w r = .ok (start, w')) : Attaches env w w' r start := by
  obtain ⟨⟨start', imt⟩, himt, hw⟩ := bind_ok.mp hw
  cases hw
  have hrun : runImt env w.pool.imt [.attach r none] = .ok imt := by
    rw [runImt, Imt.runFrom, List.foldlM_cons, Imt.apply, himt]
    rfl
  exact ⟨.single hrun rfl rfl, ⟨rfl, rfl, rfl, rfl, rfl, rfl, rfl, rfl⟩, rfl,
    by simp [World.treeLogs, Imt.events, himt]⟩

structure Spends (env : Env W T) (w w' : World W T) (nfs : List W) : Prop where
  effect : Effect env w w' nfs []
  kept : Kept w w'
  logs : w'.logs = w.logs
  imt : w'.pool.imt = w.pool.imt
  knownRoots : w'.pool.knownRoots = w.pool.knownRoots

theorem Spends.refl (w : World W T) : Spends env w w [] :=
  ⟨.refl rfl rfl rfl, .refl w, rfl, rfl, rfl⟩

theorem Spends.trans {w w1 w2 : World W T} {nfs1 nfs2 : List W} (h1 : Spends env w w1 nfs1)
    (h2 : Spends env w1 w2 nfs2) : Spends env w w2 (nfs1 ++ nfs2) :=
  ⟨h1.effect.trans h2.effect, h1.kept.trans h2.kept, h2.logs.trans h1.logs, h2.imt.trans h1.imt,
    h2.knownRoots.trans h1.knownRoots⟩

theorem markUsed_spends {w : World W T} {nf : W} (hnf : nf ≠ 0)
    (hfresh : w.pool.nullifierUsed nf = false) : Spends env w (w.markUsed nf) [nf] := by
  refine ⟨⟨by simp [hnf, hfresh], List.nodup_singleton nf, fun x => ?_, rfl, fun r => ?_⟩,
    ⟨rfl, rfl, rfl, rfl, rfl, rfl, rfl, rfl⟩, rfl, rfl, rfl⟩
  · simp only [markUsed, Function.update_apply, List.mem_singleton]
    by_cases hx : x = nf <;> simp [hx]
  · refine ⟨.inl, ?_⟩
    rintro (hr | ⟨ops', t, hne, hpre, -⟩)
    · exact hr
    · exact absurd (List.prefix_nil.mp hpre) hne

theorem spendNullifier_spends {w w' : World W T} {nf : W} (hw : spendNullifier w nf = .ok w') :
    Spends env w w' (stripZeros [nf]) := by
  unfold spendNullifier at hw
  split at hw
  · case isTrue hzero =>
    cases hw
    simpa [stripZeros, hzero] using (Spends.refl w : Spends env w w [])
  · case isFalse hzero =>
    split at hw
    · cases hw
    · case isFalse hfresh =>
      cases hw
      have hspends : Spends env w (w.markUsed nf) [nf] := markUsed_spends hzero (by simpa using hfresh)
      simpa [stripZeros, hzero] using hspends

theorem spendStrict_spends {w w' : World W T} {nf : W} (hw : spendStrict w nf = .ok w') :
    Spends env w w' [nf] := by
  obtain ⟨_, hzero, hw⟩ := bind_ok.mp hw
  obtain ⟨_, hfresh, hw⟩ := bind_ok.mp hw
  cases hw
  exact markUsed_spends (require_ok.mp hzero) (require_ok.mp hfresh)

theorem foldlM_spends {f : World W T → W → Except (PoolError W) (World W T)} {g : W → List W}
    (hf : ∀ w w' nf, f w nf = .ok w' → Spends env w w' (g nf)) (nfs : List W) :
    ∀ {w w' : World W T}, nfs.foldlM f w = .ok w' → Spends env w w' (nfs.flatMap g) := by
  induction nfs with
  | nil =>
    intro w w' hw
    cases hw
    exact .refl w
  | cons nf nfs ih =>
    intro w w' hw
    obtain ⟨w1, hw1, hw⟩ := bind_ok.mp hw
    exact (hf _ _ _ hw1).trans (ih hw)

theorem foldlM_spendNullifier {nfs : List W} {w w' : World W T}
    (hw : nfs.foldlM spendNullifier w = .ok w') : Spends env w w' (stripZeros nfs) := by
  have hstrip : nfs.flatMap (fun nf => stripZeros [nf]) = stripZeros nfs := by
    clear hw
    induction nfs with
    | nil => rfl
    | cons nf nfs ih =>
      rw [List.flatMap_cons, ih]
      by_cases hzero : nf = 0 <;> simp [stripZeros, hzero]
  exact hstrip ▸ foldlM_spends (fun _ _ _ h => spendNullifier_spends h) nfs hw

theorem foldlM_spendStrict {nfs : List W} {w w' : World W T}
    (hw : nfs.foldlM spendStrict w = .ok w') : Spends env w w' nfs := by
  have hstrip : nfs.flatMap (fun nf => [nf]) = nfs := List.flatMap_singleton' nfs
  exact hstrip ▸ foldlM_spends (fun _ _ _ h => spendStrict_spends h) nfs hw

theorem Appends.spent {w w1 w2 : World W T} {nfs : List W} {ops : List (TreeOp W)}
    (h1 : Spends env w w1 nfs) (h2 : Appends env w1 w2 ops) :
    Effect env w w2 nfs ops ∧ Kept w w2 ∧ w2.logs = w.logs ++ treeLogs env w.pool.imt ops := by
  refine ⟨by simpa using h1.effect.trans h2.effect, h1.kept.trans h2.kept, ?_⟩
  rw [h2.logs, h1.logs, h1.imt]

end World

end Bongtu.Evm
