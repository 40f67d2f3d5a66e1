import Bongtu.Indexer.KemChunks
import Bongtu.Indexer.MinedOp
import Bongtu.Indexer.PathRun

namespace Bongtu.Indexer

open Bongtu.Core Merkle Outcome

open Evm (Address World)

section Files

variable {poseidon2 : ℕ → ℕ → ℕ} {H k : ℕ} {events log : List (TreeEvent ℕ)} {c : Content ℕ}
  {t t' : MirrorTree ℕ}

-- What pass 2 writes into the mirror: leaves that tree events appended, and published batches that fold to
-- the root a tree event attached.
inductive Files (poseidon2 : ℕ → ℕ → ℕ) (k : ℕ) (events : List (TreeEvent ℕ)) (t : MirrorTree ℕ) :
    MirrorTree ℕ → Prop
  | refl : Files poseidon2 k events t t
  | record {t' : MirrorTree ℕ} {i v root : ℕ} : .appended i v root ∈ events → Files poseidon2 k events t t' →
      Files poseidon2 k events t (t'.recordLeaf i v)
  | fill {t' : MirrorTree ℕ} {start r root : ℕ} {leaves : List ℕ} : .subtreeAppended start r root ∈ events →
      leaves.length = 2 ^ k → (Content.ofLeaves leaves).nodeAt poseidon2 0 k 0 = r →
      Files poseidon2 k events t t' → Files poseidon2 k events t (t'.fillBatch start leaves true)

namespace Files

theorem mono {events' : List (TreeEvent ℕ)} (h : Files poseidon2 k events t t')
    (hsub : ∀ e ∈ events, e ∈ events') : Files poseidon2 k events' t t' := by
  induction h with
  | refl => exact .refl
  | record he _ ih => exact .record (hsub _ he) ih
  | fill he hlen hfold _ ih => exact .fill (hsub _ he) hlen hfold ih

theorem trans {t₁ : MirrorTree ℕ} (h : Files poseidon2 k events t t₁) (h' : Files poseidon2 k events t₁ t') :
    Files poseidon2 k events t t' := by
  induction h' with
  | refl => exact h
  | record he _ ih => exact .record he ih
  | fill he hlen hfold _ ih => exact .fill he hlen hfold ih

theorem tree_eq (h : Files poseidon2 k events t t') : t'.tree = t.tree := by
  induction h with
  | refl => rfl
  | record _ _ ih => exact ih
  | fill _ _ _ _ ih => exact ih

-- What is recorded stays recorded.
theorem keeps (h : Files poseidon2 k events t t') {i : ℕ} (hi : t.leaves i ≠ none) : t'.leaves i ≠ none := by
  induction h with
  | refl => exact hi
  | record _ _ ih =>
    simp only [MirrorTree.recordLeaf, Function.update_apply]
    split
    · exact Option.some_ne_none _
    · exact ih
  | @fill t' start r root leaves _ _ _ _ ih =>
    simp only [MirrorTree.fillBatch]
    split
    · case isTrue hin =>
      rw [List.getElem?_eq_getElem (show i - start < leaves.length by omega)]
      exact Option.some_ne_none _
    · exact ih

theorem mirrors (h : Files poseidon2 k events t t') (hm : Mirrors poseidon2 H k log c t) (hr : Records k log c)
    (hsub : ∀ e ∈ events, e ∈ log) : Mirrors poseidon2 H k log c t' := by
  induction h with
  | refl => exact hm
  | record he _ ih => exact (ih.grow_leaf hr (hsub _ he)).congr rfl rfl rfl rfl rfl
  | fill he hlen hfold _ ih => exact ih.grow_fill hr true (hsub _ he) hlen hfold

theorem held {rows : List (LeafRow ℕ)} (h : Files poseidon2 k events t t') (hheld : Held log t rows)
    (hr : Records k log c) (hsub : ∀ e ∈ events, e ∈ log) : Held log t' rows := by
  induction h with
  | refl => exact hheld
  | record he _ ih => exact ih.recorded hr (hsub _ he)
  | fill he hlen _ _ ih => exact ih.filled hr (hsub _ he) hlen true

variable (poseidon2 k) in
theorem recordPairs (pairs : List AppendedPair) (hpairs : ∀ pair ∈ pairs,
    .appended pair.leafIndex pair.leaf pair.root ∈ events) : ∀ t : MirrorTree ℕ,
    Files poseidon2 k events t (pairs.foldl (fun tree pair => tree.recordLeaf pair.leafIndex pair.leaf) t) ∧
      ∀ pair ∈ pairs, (pairs.foldl (fun tree pair => tree.recordLeaf pair.leafIndex pair.leaf) t).leaves
        pair.leafIndex ≠ none := by
  induction pairs with
  | nil => exact fun _ => ⟨.refl, by simp⟩
  | cons pair pairs ih =>
    intro t
    obtain ⟨hfiles, hrecorded⟩ := ih (fun pair' h => hpairs pair' (List.mem_cons_of_mem _ h))
      (t.recordLeaf pair.leafIndex pair.leaf)
    have hfirst : Files poseidon2 k events t (t.recordLeaf pair.leafIndex pair.leaf) :=
      .record (hpairs pair List.mem_cons_self) .refl
    refine ⟨hfirst.trans hfiles, fun pair' hpair' => ?_⟩
    rcases List.mem_cons.mp hpair' with rfl | hpair'
    · refine hfiles.keeps ?_
      simp [MirrorTree.recordLeaf]
    · exact hrecorded pair' hpair'

end Files

end Files

theorem addNullifiers_spec (nullifiers : List ℕ) : ∀ s : Store,
    (s.addNullifiers nullifiers).feed = s.feed ∧ (s.addNullifiers nullifiers).seen = s.seen ∧
      ∀ y, y ∈ (s.addNullifiers nullifiers).nullifierSet ↔ y ∈ s.nullifierSet ∨ y ∈ stripZeros nullifiers := by
  induction nullifiers with
  | nil => exact fun s => ⟨rfl, rfl, by simp [Store.addNullifiers, stripZeros]⟩
  | cons nf nullifiers ih =>
    intro s
    have hfirst : (s.addNullifier nf).feed = s.feed ∧ (s.addNullifier nf).seen = s.seen ∧
        ∀ y, y ∈ (s.addNullifier nf).nullifierSet ↔ y ∈ s.nullifierSet ∨ y = nf ∧ nf ≠ 0 := by
      by_cases h : nf = 0 ∨ nf ∈ s.nullifierSet
      · refine ⟨by simp [Store.addNullifier, h], by simp [Store.addNullifier, h], fun y => ?_⟩
        simp only [Store.addNullifier, h, if_true]
        refine ⟨.inl, ?_⟩
        rintro (hy | ⟨rfl, hne⟩)
        · exact hy
        · exact h.resolve_left hne
      · have hne : nf ≠ 0 := fun hzero => h (.inl hzero)
        rw [Store.addNullifier, if_neg h]
        simp [hne]
    obtain ⟨hfeed, hseen, hset⟩ := ih (s.addNullifier nf)
    refine ⟨hfeed.trans hfirst.1, hseen.trans hfirst.2.1, fun y => (hset y).trans ?_⟩
    rw [hfirst.2.2, or_assoc]
    refine or_congr_right ?_
    by_cases hzero : nf = 0 <;> simp [stripZeros, hzero]

section Post

variable {x : Posting} {s : IndexerState} (h : x.entry.key ∉ s.store.seen)

include h

theorem post_store : (s.post x).store = (s.store.addEvent x.entry).2.addNullifiers x.nullifiers := by
  simp [IndexerState.post, IndexerState.recordPairs, h]

theorem post_modules : (s.post x).modules = s.modules := by
  simp [IndexerState.post, IndexerState.recordPairs, h]

theorem post_ledger : (s.post x).ledger = s.ledger := by
  simp [IndexerState.post, IndexerState.recordPairs, h]

theorem post_kem : (s.post x).kem = x.batch.elim s.kem fun row => s.kem.recordBatch x.entry.logIndex row := by
  simp [IndexerState.post, IndexerState.recordPairs, h]

theorem post_tree : (s.post x).tree =
    (x.batch.bind fun row => x.leaves.map fun leaves => (row.batchId, leaves)).elim (s.recordPairs x.pairs).tree
      fun fill => (s.recordPairs x.pairs).tree.fillBatch fill.1 fill.2 true := by
  have hseen : x.entry.key ∉ (s.recordPairs x.pairs).store.seen := h
  simp [IndexerState.post, hseen]

theorem post_feed : (s.post x).store.feed.map (·.entry) = s.store.feed.map (·.entry) ++ [x.entry] := by
  rw [post_store h, (addNullifiers_spec _ _).1]
  simp [Store.addEvent, h]

theorem post_seen : (s.post x).store.seen = s.store.seen ++ [x.entry.key] := by
  rw [post_store h, (addNullifiers_spec _ _).2.1]
  simp [Store.addEvent, h]

theorem post_nullifiers (y : ℕ) :
    y ∈ (s.post x).store.nullifierSet ↔ y ∈ s.store.nullifierSet ∨ y ∈ stripZeros x.nullifiers := by
  rw [post_store h, (addNullifiers_spec _ _).2.2]
  simp [Store.addEvent, h]

end Post

section Passing

variable {cfg : IngestConfig} {logs own own' : List ParsedLog} {s s₁ s' : IndexerState} {l : ParsedLog}

theorem Passes.nil (s : IndexerState) : Passes cfg logs [] s s := fun _ p hp hs => ⟨p, rfl, hp, hs⟩

theorem Passes.append (h : Passes cfg logs own s s₁) (h' : Passes cfg logs own' s₁ s') :
    Passes cfg logs (own ++ own') s s' := by
  intro rest p hp hs
  rw [List.append_assoc] at hp
  obtain ⟨p₁, hrun₁, hp₁, hs₁⟩ := h (own' ++ rest) p hp hs
  obtain ⟨p', hrun, hp', hs'⟩ := h' rest p₁ hp₁ hs₁
  refine ⟨p', ?_, hp', hs'⟩
  rw [Run.forEach_append, hrun₁, Run.bind_returned, hrun]

-- A log that no queue is about.
theorem passes_one (hpair : l.event.pair = none) (hsubtree : l.event.subtree = none)
    (happlied : l.event.applied = none)
    (h : ∀ p : Pass, p.indexer = s → handle cfg logs l p = .returned { p with indexer := s' }) :
    Passes cfg logs [l] s s' := by
  intro rest p hp hs
  refine ⟨{ p with indexer := s' }, ?_, ⟨?_, ?_, ?_, hp.withdrawEntries⟩, rfl⟩
  · rw [Run.forEach, h p hs]
    rfl
  · exact hp.idle_pairs (by simpa using hpair)
  · exact hp.idle_subtree (by simpa using hsubtree)
  · exact hp.idle_applied (by simpa using happlied)

theorem passes_quiet (own : List ParsedLog) (h : ∀ l ∈ own, l.event = .other) : Passes cfg logs own s s := by
  induction own with
  | nil => exact .nil s
  | cons l own ih =>
    have hl : l.event = .other := h l List.mem_cons_self
    have hone : Passes cfg logs [l] s s := by
      refine passes_one (by rw [hl]; rfl) (by rw [hl]; rfl) (by rw [hl]; rfl) fun p hs => ?_
      rw [handle_quiet (by rw [hl]; rfl), ← hs]
    exact hone.append (ih fun l' hl' => h l' (List.mem_cons_of_mem l hl'))

-- What the registry stream leaves: a registry that agrees with the pool's.
structure Switched (keys : List OpKey) (toggles : List (Address × Bool)) (g : Address → Bool)
    (s s' : IndexerState) : Prop where
  rest : s' = { s with modules := s'.modules }
  agrees : ∀ a, s'.modules.byAddress a = some true ↔ g a = true
  known : ∀ a, s.modules.isKnown a = true → s'.modules.isKnown a = true
  only : ∀ a, s'.modules.isKnown a = true → s.modules.isKnown a = true ∨ (a, true) ∈ toggles
  seen : ∀ key ∈ s'.modules.seen, key ∈ s.modules.seen ∨ key ∈ keys

variable (cfg logs) in
theorem passes_toggle {f : Address → Bool} {module : Address} {on : Bool}
    (hl : l.event = toggleEvent (module, on)) (hoff : f module = !on)
    (hagrees : ∀ a, s.modules.byAddress a = some true ↔ f a = true) (hfresh : l.key ∉ s.modules.seen) :
    ∃ s', Passes cfg logs [l] s s' ∧
      Switched [l.key] [(module, on)] (Function.update f module on) s s' := by
  set m : ModuleRegistry := (s.modules.see l.key).upsert module on with hm
  refine ⟨{ s with modules := m }, ?_, rfl, fun a => ?_, fun a ha => ?_, fun a ha => ?_, fun key hkey => ?_⟩
  · have hstale : s.modules.byAddress module = some true ↔ on = false := by
      rw [hagrees, hoff]
      simp
    cases on with
    | true =>
      have hl : l.event = .moduleRegistered module := hl
      refine passes_one (by rw [hl]; rfl) (by rw [hl]; rfl) (by rw [hl]; rfl) fun p hs => ?_
      subst hs
      have happly : p.indexer.modules.applyRegistered l.key module = .returned m := by
        rw [ModuleRegistry.applyRegistered, if_neg hfresh, if_neg (by simp [hstale])]
      simp only [handle, hl, handleModule, happly, Pass.onIndexer]
    | false =>
      have hl : l.event = .moduleRemoved module := hl
      refine passes_one (by rw [hl]; rfl) (by rw [hl]; rfl) (by rw [hl]; rfl) fun p hs => ?_
      subst hs
      have happly : p.indexer.modules.applyRemoved l.key module = .returned m := by
        rw [ModuleRegistry.applyRemoved, if_neg hfresh, if_neg (by simp [hstale])]
      simp only [handle, hl, handleModule, happly, Pass.onIndexer]
  · simp only [hm, ModuleRegistry.upsert, ModuleRegistry.see, Function.update_apply]
    split_ifs with ha
    · simp
    · exact hagrees a
  · simp only [hm, ModuleRegistry.isKnown, ModuleRegistry.upsert, ModuleRegistry.see, Function.update_apply] at ha ⊢
    split_ifs with hsame
    · rfl
    · exact ha
  · simp only [hm, ModuleRegistry.isKnown, ModuleRegistry.upsert, ModuleRegistry.see, Function.update_apply] at ha ⊢
    split_ifs at ha with hsame
    · subst hsame
      cases on with
      | true => exact .inr (List.mem_singleton_self _)
      | false =>
        rw [(hagrees a).mpr hoff]
        exact .inl rfl
    · exact .inl ha
  · simpa [hm, ModuleRegistry.upsert, ModuleRegistry.see] using hkey

variable (cfg logs) in
theorem passes_toggles (own : List ParsedLog) : ∀ {toggles : List (Address × Bool)} {f g : Address → Bool}
    {s : IndexerState}, own.map (·.event) = toggles.map toggleEvent → Evm.Toggles f toggles g →
    (∀ a, s.modules.byAddress a = some true ↔ f a = true) → (own.map ParsedLog.key).Nodup →
    (∀ l ∈ own, l.key ∉ s.modules.seen) →
    ∃ s', Passes cfg logs own s s' ∧ Switched (own.map ParsedLog.key) toggles g s s' := by
  induction own with
  | nil =>
    intro toggles f g s hevents htoggles hagrees _ _
    obtain rfl : toggles = [] := by simpa using hevents.symm
    cases htoggles
    exact ⟨s, .nil s, rfl, hagrees, fun _ h => h, fun _ h => .inl h, fun _ h => .inl h⟩
  | cons l own ih =>
    intro toggles f g s hevents htoggles hagrees hnodup hfresh
    cases htoggles with
    | nil => simp at hevents
    | @cons _ _ module on rest hoff htoggles =>
      rw [List.map_cons, List.map_cons] at hevents
      obtain ⟨hl, hevents⟩ := List.cons.inj hevents
      obtain ⟨hnew, hnodup⟩ := List.nodup_cons.mp hnodup
      obtain ⟨s₁, hpass₁, hrest₁, hagrees₁, hknown₁, honly₁, hseen₁⟩ :=
        passes_toggle cfg logs hl hoff hagrees (hfresh l List.mem_cons_self)
      have hfresh₁ : ∀ l' ∈ own, l'.key ∉ s₁.modules.seen := by
        intro l' hl' hmem
        rcases hseen₁ _ hmem with hold | hkey
        · exact hfresh l' (List.mem_cons_of_mem l hl') hold
        · exact hnew (List.mem_singleton.mp hkey ▸ List.mem_map_of_mem hl')
      obtain ⟨s', hpass, hrest, hagrees', hknown, honly, hseen⟩ := ih hevents htoggles hagrees₁ hnodup hfresh₁
      refine ⟨s', hpass₁.append hpass, ?_, hagrees', fun a ha => hknown a (hknown₁ a ha), fun a ha => ?_,
        fun key hkey => ?_⟩
      · rw [hrest, hrest₁]
      · rcases honly a ha with ha | hmem
        · refine (honly₁ a ha).imp_right fun hmem => ?_
          exact List.mem_cons.mpr (.inl (List.mem_singleton.mp hmem))
        · exact .inr (List.mem_cons_of_mem _ hmem)
      · rcases hseen key hkey with hmem | hmem
        · rcases hseen₁ key hmem with hold | hself
          · exact .inl hold
          · exact .inr (List.mem_cons.mpr (.inl (List.mem_singleton.mp hself)))
        · exact .inr (List.mem_cons_of_mem _ hmem)

end Passing

end Bongtu.Indexer
