import Bongtu.Core.BigIntText
import Bongtu.Indexer.Disclosure
import Bongtu.Trace

namespace Bongtu.Indexer.Served

open Core

-- Numbers, booleans, null and objects are all `other`.
inductive Json where
  | string (s : String)
  | array (xs : List Json)
  | other

-- What a read of a batch's file finds; `none` is text `JSON.parse` refuses.
inductive DirFile where
  | missing
  | text (parsed : Option Json)

structure DisburseBatchAnchor where
  startLeafIndex : ℕ
  txHash : TxHash
  disclosureHash : ℕ
  kemBinding : ℕ
  epoch : ℕ
  recordedAt : ℤ
deriving DecidableEq, Repr

structure BatchState where
  anchor : DisburseBatchAnchor
  elements : Option (List ℤ)
  result : Option DisclosureResult
  baked : Bool
deriving DecidableEq, Repr

-- The batches in the order they were recorded; `dir` says whether a directory is configured.
structure DisclosureRegistry where
  batches : List BatchState
  dir : Bool
  graceSeconds : ℤ
deriving DecidableEq, Repr

-- The verdict on a served blob: aliases are refused before the fold.
def verifyServedDisclosure (p : Primitives) (elements : List ℤ) (onchainDH batchSize : ℕ)
    (txHash : TxHash) (startLeafIndex : ℕ) : DisclosureResult :=
  if 0 < elements.length ∧ elements.any fun x => x < 0 ∨ (snarkScalarField : ℤ) ≤ x then
    ⟨.mismatch, txHash, startLeafIndex, elements.length, batchSize * 4, 0, onchainDH⟩
  else verifyDisclosure p (elements.map Int.toNat) onchainDH batchSize txHash startLeafIndex

def stringOf : Json → Option String
  | .string s => some s
  | _ => none

def verdictOn (p : Primitives) (anchor : DisburseBatchAnchor) (elements : List ℤ) (batchSize : ℕ) :
    DisclosureResult :=
  verifyServedDisclosure p elements anchor.disclosureHash batchSize anchor.txHash anchor.startLeafIndex

def verify (p : Primitives) (state : BatchState) (elements : List ℤ) (batchSize : ℕ) : BatchState :=
  { state with
    elements := some elements
    result := some (verdictOn p state.anchor elements batchSize) }

def hexElement (x : ℤ) : String := String.ofList ('0' :: 'x' :: padStart 64 '0' (bigIntText 16 x))

def servedBlob (elements : List ℤ) : List String := elements.map hexElement

-- `BigInt` of a text; the error is the text it refuses.
def bigInt (s : String) : Except String ℤ :=
  match bigIntOf s with
  | some x => .ok x
  | none => .error s

namespace DisclosureRegistry

variable (p : Primitives) (r : DisclosureRegistry)

def find (startLeafIndex : ℕ) : Option BatchState :=
  r.batches.find? (·.anchor.startLeafIndex = startLeafIndex)

def readDirBlob (files : ℕ → DirFile) (startLeafIndex : ℕ) : Except String (Option (List ℤ)) :=
  if ! r.dir then .ok none
  else match files startLeafIndex with
    | .text (some (.array xs)) =>
      match xs.mapM stringOf with
      | none => .ok none
      | some texts => (texts.mapM bigInt).map some
    | _ => .ok none

-- `boot` holds the status the feed entry was persisted with.
def recordBatch (files : ℕ → DirFile) (anchor : DisburseBatchAnchor) (batchSize : ℕ)
    (boot : Option (Option DisclosureStatus)) :
    DisclosureRegistry × Except String (Option DisclosureResult) :=
  if (r.find anchor.startLeafIndex).isSome then (r, .ok none)
  else
    let state : BatchState := ⟨anchor, none, none, false⟩
    match r.readDirBlob files anchor.startLeafIndex with
    | .error e => ({ r with batches := r.batches ++ [state] }, .error e)
    | .ok none => ({ r with batches := r.batches ++ [state] }, .ok none)
    | .ok (some elements) =>
      let result := verdictOn p anchor elements batchSize
      let state := verify p state elements batchSize
      match boot with
      | none => ({ r with batches := r.batches ++ [{ state with baked := true }] }, .ok (some result))
      | some persistedStatus =>
        ({ r with batches := r.batches ++ [{ state with baked := persistedStatus = some result.status }] },
          .ok none)

def loadBlob (startLeafIndex : ℕ) (elements : List ℤ) (batchSize : ℕ) :
    DisclosureRegistry × Option DisclosureResult :=
  match r.find startLeafIndex with
  | none => (r, none)
  | some state =>
    match state.result with
    | some result => (r, some result)
    | none => ({ r with batches := r.batches.map fun s =>
        if s.anchor.startLeafIndex = startLeafIndex then verify p s elements batchSize else s },
        some (verdictOn p state.anchor elements batchSize))

-- A throw leaves the batches after it unvisited.
def checkBatches (files : ℕ → DirFile) (batchSize : ℕ) : List BatchState → List BatchState × Option String
  | [] => ([], none)
  | state :: rest =>
    let (checked, e) := checkBatches files batchSize rest
    if state.result.isSome then (state :: checked, e)
    else match r.readDirBlob files state.anchor.startLeafIndex with
      | .error e => (state :: rest, some e)
      | .ok none => (state :: checked, e)
      | .ok (some elements) => (verify p state elements batchSize :: checked, e)

def checkDir (files : ℕ → DirFile) (batchSize : ℕ) : DisclosureRegistry × Option String :=
  let (batches, e) := r.checkBatches p files batchSize r.batches
  ({ r with batches := batches }, e)

def blobOf (startLeafIndex : ℕ) : Option (List String) :=
  (r.find startLeafIndex).bind fun state => state.elements.map servedBlob

def pastGrace (recordedAt nowSeconds : ℤ) : Bool := nowSeconds - recordedAt > r.graceSeconds

def alarms (nowSeconds : ℤ) : List DisclosureResult :=
  r.batches.filterMap fun state =>
    match state.result with
    | some result => if result.status ≠ .verified ∧ ! state.baked then some result else none
    | none =>
      if r.pastGrace state.anchor.recordedAt nowSeconds then
        some ⟨.withheld, state.anchor.txHash, state.anchor.startLeafIndex, 0, 0, 0,
          state.anchor.disclosureHash⟩
      else none

end DisclosureRegistry

-- The registry, the verdict baked in each batch's feed entry, what its calls threw, and of the calls
-- themselves the batch sizes they came with and the batches recorded at boot.
structure World where
  registry : DisclosureRegistry
  entry : ℕ → Option DisclosureResult
  thrown : List String
  sizes : List ℕ
  booted : List ℕ

-- `files` is the directory as the call finds it; a boot replays the verdict persisted in the entry.
inductive Call where
  | recordBatch (files : ℕ → DirFile) (anchor : DisburseBatchAnchor) (batchSize : ℕ)
      (boot : Option (Option DisclosureResult))
  | loadBlob (startLeafIndex : ℕ) (elements : List ℤ) (batchSize : ℕ)
  | checkDir (files : ℕ → DirFile) (batchSize : ℕ)

def thrownBy {α : Type} : Except String α → List String
  | .error e => [e]
  | .ok _ => []

namespace World

def empty (dir : Bool) (graceSeconds : ℤ) : World := ⟨⟨[], dir, graceSeconds⟩, fun _ => none, [], [], []⟩

-- A first record bakes the verdict it returns into the feed entry; a replay adds no entry.
def bake (w : World) (anchor : DisburseBatchAnchor) (boot : Option (Option DisclosureResult))
    (out : Except String (Option DisclosureResult)) : ℕ → Option DisclosureResult :=
  if (w.registry.find anchor.startLeafIndex).isSome then w.entry
  else Function.update w.entry anchor.startLeafIndex (boot.getD (out.toOption.getD none))

def step (p : Primitives) (w : World) : Call → World
  | .recordBatch files anchor batchSize boot =>
    let (registry, out) :=
      w.registry.recordBatch p files anchor batchSize (boot.map (Option.map (·.status)))
    { registry := registry
      entry := w.bake anchor boot out
      thrown := w.thrown ++ thrownBy out
      sizes := batchSize :: w.sizes
      booted := if boot.isSome ∧ (w.registry.find anchor.startLeafIndex).isNone then
        anchor.startLeafIndex :: w.booted else w.booted }
  | .loadBlob startLeafIndex elements batchSize =>
    { w with
      registry := (w.registry.loadBlob p startLeafIndex elements batchSize).1
      sizes := batchSize :: w.sizes }
  | .checkDir files batchSize =>
    let (registry, e) := w.registry.checkDir p files batchSize
    { w with
      registry := registry
      thrown := w.thrown ++ e.toList
      sizes := batchSize :: w.sizes }

end World

section Blobs

theorem numberOf_neg (k : ℕ) (cs : List Char) (base : ℕ) :
    numberOf base (List.replicate k '0' ++ '-' :: cs) = none := by
  have hdash : digitBelow base '-' = none := rfl
  have hmap : (List.replicate k '0' ++ '-' :: cs).mapM (digitBelow base) = none := by
    induction k with
    | zero => simp [hdash]
    | succ k ih =>
      rw [List.replicate_succ, List.cons_append, List.mapM_cons, ih]
      cases digitBelow base '0' <;> rfl
  unfold numberOf
  split
  · rfl
  · next heq => rw [← heq, hmap, Option.map_none]

-- A served element reads back when it is no negative number.
theorem bigIntOf_hexElement (x : ℤ) : bigIntOf (hexElement x) = if x < 0 then none else some x := by
  obtain ⟨init, last, hdigits, hlast⟩ : ∃ init last, padStart 64 '0' (bigIntText 16 x) = init ++ [last] ∧
      jsSpace last = false := by
    obtain ⟨init, d, hd⟩ := bigIntText_getLast 16 x
    exact ⟨_ ++ init, hexChar d, by rw [padStart, hd, List.append_assoc], jsSpace_hexChar d⟩
  have htrim : trim (hexElement x) = hexElement x := by
    rw [hexElement, hdigits]
    exact trim_of_ends ('x' :: init) (by decide) hlast
  have hread : bigIntOf (hexElement x) =
      (numberOf 16 (padStart 64 '0' (bigIntText 16 x))).map Int.ofNat := by
    rw [bigIntOf, htrim, hexElement, String.toList_ofList]
    rfl
  rw [hread]
  split
  · next hneg => rw [padStart, bigIntText, if_pos hneg, numberOf_neg, Option.map_none]
  · next hpos =>
    rw [bigIntText, if_neg hpos, numberOf_padStart (by omega) (by omega), Option.map_some]
    exact congrArg some (Int.natAbs_of_nonneg (by omega))

theorem servedBlob_reads {xs : List ℤ} :
    (servedBlob xs).map bigIntOf = xs.map some ↔ ∀ x ∈ xs, 0 ≤ x := by
  induction xs with
  | nil => simp [servedBlob]
  | cons x xs ih =>
    have hcons : (servedBlob (x :: xs)).map bigIntOf =
        (if x < 0 then none else some x) :: (servedBlob xs).map bigIntOf := by
      simp only [servedBlob, List.map_cons, bigIntOf_hexElement]
    rw [hcons, List.map_cons, List.cons.injEq, ih, List.forall_mem_cons]
    refine and_congr ?_ Iff.rfl
    split
    · next h => simpa using h
    · next h => simpa using h

end Blobs

section Files

variable {r : DisclosureRegistry} {files : ℕ → DirFile} {startLeafIndex : ℕ}

-- The batch's file is no array of strings, or one of texts of whole numbers.
def Legible (r : DisclosureRegistry) (files : ℕ → DirFile) (startLeafIndex : ℕ) : Prop :=
  r.dir = true → ∀ xs texts, files startLeafIndex = .text (some (.array xs)) →
    xs.mapM stringOf = some texts → ∀ s ∈ texts, ∃ x, bigIntOf s = some x ∧ 0 ≤ x

theorem mapM_bigInt {texts : List String} :
    (∃ elements, texts.mapM bigInt = .ok elements ∧ ∀ x ∈ elements, 0 ≤ x) ↔
      ∀ s ∈ texts, ∃ x, bigIntOf s = some x ∧ 0 ≤ x := by
  induction texts with
  | nil => simp [pure, Except.pure]
  | cons s texts ih =>
    rw [List.forall_mem_cons, ← ih]
    simp only [List.mapM_cons, bigInt]
    cases bigIntOf s with
    | none => simp [bind, Except.bind]
    | some x =>
      cases texts.mapM bigInt with
      | error e => simp [bind, Except.bind]
      | ok elements => simp [bind, Except.bind, pure, Except.pure]

-- A file is read without a throw and without a negative element when it is legible.
theorem legible_iff : Legible r files startLeafIndex ↔
    ∃ out, r.readDirBlob files startLeafIndex = .ok out ∧ ∀ elements ∈ out, ∀ x ∈ elements, 0 ≤ x := by
  unfold Legible DisclosureRegistry.readDirBlob
  cases r.dir with
  | false => simp
  | true =>
    cases files startLeafIndex with
    | missing => simp
    | text parsed =>
      rcases parsed with _ | ⟨s | xs | _⟩
      · simp
      · simp
      · cases htexts : xs.mapM stringOf with
        | none =>
          refine ⟨fun _ => ⟨none, by simp [htexts], by simp⟩, fun _ _ xs' texts heq hmap => ?_⟩
          cases heq
          simp [htexts] at hmap
        | some texts =>
          simp only [Bool.not_true, Bool.false_eq_true, if_false, htexts]
          constructor
          · intro h
            obtain ⟨elements, hread, hpos⟩ := mapM_bigInt.2 (h trivial xs texts rfl htexts)
            exact ⟨some elements, by rw [hread]; rfl, by simpa using hpos⟩
          · rintro ⟨out, hout, hpos⟩ - xs' texts' heq hmap
            cases heq
            obtain rfl := Option.some.inj (htexts.symm.trans hmap)
            refine mapM_bigInt.1 ?_
            cases hread : texts.mapM bigInt with
            | error e => simp [hread, Except.map] at hout
            | ok elements =>
              rw [hread] at hout
              cases hout
              exact ⟨elements, rfl, hpos elements rfl⟩
      · simp

end Files

namespace DisclosureRegistry

def verdictOf (r : DisclosureRegistry) (startLeafIndex : ℕ) : Option DisclosureResult :=
  (r.find startLeafIndex).bind (·.result)

-- The map has one entry for each key.
def Keyed (r : DisclosureRegistry) : Prop := (r.batches.map (·.anchor.startLeafIndex)).Nodup

variable {r : DisclosureRegistry} {state : BatchState} {startLeafIndex : ℕ}

theorem find_mem (h : r.find startLeafIndex = some state) :
    state ∈ r.batches ∧ state.anchor.startLeafIndex = startLeafIndex :=
  ⟨List.mem_of_find?_eq_some h, by simpa using List.find?_some h⟩

theorem find_none (h : r.find startLeafIndex = none) :
    ∀ state ∈ r.batches, state.anchor.startLeafIndex ≠ startLeafIndex := by
  simpa [find] using h

theorem find_snoc (batches : List BatchState) (new : BatchState) (dir : Bool) (graceSeconds : ℤ) :
    find ⟨batches ++ [new], dir, graceSeconds⟩ startLeafIndex =
      (find ⟨batches, dir, graceSeconds⟩ startLeafIndex).or
        (if new.anchor.startLeafIndex = startLeafIndex then some new else none) := by
  simp only [find, List.find?_append]
  congr 1
  by_cases h : new.anchor.startLeafIndex = startLeafIndex <;> simp [h]

theorem find_map {f : BatchState → BatchState} (hf : ∀ s, (f s).anchor = s.anchor) :
    find { r with batches := r.batches.map f } startLeafIndex = (r.find startLeafIndex).map f := by
  simp only [find, List.find?_map]
  congr 2
  funext s
  simp [hf]

theorem find_of_mem (hkeyed : r.Keyed) (h : state ∈ r.batches) :
    r.find state.anchor.startLeafIndex = some state := by
  obtain ⟨batches, dir, graceSeconds⟩ := r
  simp only [Keyed] at hkeyed
  induction batches with
  | nil => exact absurd h (by simp)
  | cons head batches ih =>
    rw [List.map_cons, List.nodup_cons] at hkeyed
    rcases List.mem_cons.1 h with rfl | h
    · simp [find]
    · have hne : head.anchor.startLeafIndex ≠ state.anchor.startLeafIndex := fun heq =>
        hkeyed.1 (heq ▸ List.mem_map_of_mem h)
      simpa [find, hne] using ih hkeyed.2 h

end DisclosureRegistry

open DisclosureRegistry

variable {p : Primitives}

structure Sound (p : Primitives) (w : World) : Prop where
  silent : w.thrown = []
  faithful : ∀ start v, w.registry.verdictOf start = some v → ∃ state xs,
    w.registry.find start = some state ∧ state.elements = some xs ∧
      (∃ batchSize ∈ w.sizes, v = verifyServedDisclosure p xs state.anchor.disclosureHash batchSize
        state.anchor.txHash start) ∧
      ∃ texts, w.registry.blobOf start = some texts ∧ texts.map bigIntOf = xs.map some
  reported : ∀ start v, w.registry.verdictOf start = some v → v.status ≠ .verified →
    (∀ now, v ∈ w.registry.alarms now) ∨ ∃ baked, w.entry start = some baked ∧
      (baked = v ∨ start ∈ w.booted ∧ baked.status = v.status)

-- What a call reads for the first time is no text that is no integer and no negative number.
def Meets (w : World) : Call → Prop
  | .recordBatch files anchor _ _ => w.registry.find anchor.startLeafIndex = none →
      Legible w.registry files anchor.startLeafIndex
  | .loadBlob start elements _ => ∀ state, w.registry.find start = some state → state.result = none →
      ∀ x ∈ elements, 0 ≤ x
  | .checkDir files _ => ∀ start state, w.registry.find start = some state → state.result = none →
      Legible w.registry files start

structure Inv (p : Primitives) (w : World) : Prop where
  keyed : w.registry.Keyed
  silent : w.thrown = []
  idle : ∀ s ∈ w.registry.batches, s.result = none → s.baked = false
  faithful : ∀ s ∈ w.registry.batches, ∀ v, s.result = some v → ∃ xs, s.elements = some xs ∧
    (∀ x ∈ xs, 0 ≤ x) ∧ ∃ batchSize ∈ w.sizes, v = verdictOn p s.anchor xs batchSize
  owned : ∀ s ∈ w.registry.batches, ∀ v, s.result = some v → s.baked = true →
    ∃ baked, w.entry s.anchor.startLeafIndex = some baked ∧
      (baked = v ∨ s.anchor.startLeafIndex ∈ w.booted ∧ baked.status = v.status)

theorem Inv.sound {w : World} (h : Inv p w) : Sound p w := by
  have hverdict : ∀ start v, w.registry.verdictOf start = some v → ∃ s ∈ w.registry.batches,
      w.registry.find start = some s ∧ s.anchor.startLeafIndex = start ∧ s.result = some v := by
    intro start v hv
    obtain ⟨s, hs, hresult⟩ := Option.bind_eq_some_iff.1 hv
    obtain ⟨hmem, hstart⟩ := find_mem hs
    exact ⟨s, hmem, hs, hstart, hresult⟩
  refine ⟨h.silent, fun start v hv => ?_, fun start v hv hstatus => ?_⟩
  · obtain ⟨s, hmem, hs, hstart, hresult⟩ := hverdict start v hv
    obtain ⟨xs, hxs, hpos, hbatch⟩ := h.faithful s hmem v hresult
    refine ⟨s, xs, hs, hxs, hstart ▸ hbatch, servedBlob xs, ?_, servedBlob_reads.2 hpos⟩
    simp [blobOf, hs, hxs]
  · obtain ⟨s, hmem, hs, hstart, hresult⟩ := hverdict start v hv
    cases hbaked : s.baked with
    | true => exact .inr (hstart ▸ h.owned s hmem v hresult hbaked)
    | false =>
      refine .inl fun now => List.mem_filterMap.2 ⟨s, hmem, ?_⟩
      simp [hresult, hbaked, hstatus]

-- What a call that reads no file may do to a state: nothing, or settle its verdict.
def Settles (p : Primitives) (batchSize : ℕ) (s s' : BatchState) : Prop :=
  s' = s ∨ s.result = none ∧ ∃ xs, (∀ x ∈ xs, 0 ≤ x) ∧ s' = verify p s xs batchSize

theorem Settles.anchor {batchSize : ℕ} {s s' : BatchState} (h : Settles p batchSize s s') :
    s'.anchor = s.anchor := by
  rcases h with rfl | ⟨-, xs, -, rfl⟩
  · rfl
  · rfl

theorem Inv.settle {w : World} {batchSize : ℕ} {f : BatchState → BatchState} (h : Inv p w)
    (hanchor : ∀ s, (f s).anchor = s.anchor)
    (hf : ∀ s ∈ w.registry.batches, Settles p batchSize s (f s)) :
    Inv p { w with
      registry := { w.registry with batches := w.registry.batches.map f }
      sizes := batchSize :: w.sizes } where
  keyed := by
    have hstarts : (w.registry.batches.map f).map (·.anchor.startLeafIndex) =
        w.registry.batches.map (·.anchor.startLeafIndex) := by simp [Function.comp_def, hanchor]
    unfold Keyed
    rw [hstarts]
    exact h.keyed
  silent := h.silent
  idle := by
    refine List.forall_mem_map.2 fun s hs hresult => ?_
    rcases hf s hs with heq | ⟨-, xs, -, heq⟩
    · rw [heq] at hresult ⊢
      exact h.idle s hs hresult
    · rw [heq] at hresult
      exact absurd hresult (by simp [verify])
  faithful := by
    refine List.forall_mem_map.2 fun s hs v hv => ?_
    rcases hf s hs with heq | ⟨-, xs, hpos, heq⟩
    · rw [heq] at hv ⊢
      obtain ⟨xs, hxs, hpos, size, hsize, hverdict⟩ := h.faithful s hs v hv
      exact ⟨xs, hxs, hpos, size, List.mem_cons_of_mem _ hsize, hverdict⟩
    · rw [heq] at hv ⊢
      exact ⟨xs, rfl, hpos, batchSize, List.mem_cons_self, (Option.some.inj hv).symm⟩
  owned := by
    refine List.forall_mem_map.2 fun s hs v hv hbaked => ?_
    rcases hf s hs with heq | ⟨hnone, xs, -, heq⟩
    · rw [heq] at hv hbaked ⊢
      exact h.owned s hs v hv hbaked
    · rw [heq] at hbaked
      exact absurd hbaked (by simp [verify, h.idle s hs hnone])

-- A verdict stays when states settle.
theorem verdictOf_settle {r : DisclosureRegistry} {batchSize : ℕ} {f : BatchState → BatchState}
    (hanchor : ∀ s, (f s).anchor = s.anchor) (hf : ∀ s ∈ r.batches, Settles p batchSize s (f s))
    {start : ℕ} {v : DisclosureResult} (hv : r.verdictOf start = some v) :
    verdictOf { r with batches := r.batches.map f } start = some v := by
  obtain ⟨s, hs, hresult⟩ := Option.bind_eq_some_iff.1 hv
  rw [verdictOf, find_map hanchor, hs]
  rcases hf s (find_mem hs).1 with heq | ⟨hnone, -⟩
  · simp [heq, hresult]
  · rw [hnone] at hresult
    exact absurd hresult (by simp)

section Load

variable {w : World} {start batchSize : ℕ} {elements : List ℤ}

def loaded (p : Primitives) (start batchSize : ℕ) (elements : List ℤ) (s : BatchState) : BatchState :=
  if s.anchor.startLeafIndex = start then verify p s elements batchSize else s

theorem loaded_anchor (s : BatchState) : (loaded p start batchSize elements s).anchor = s.anchor := by
  unfold loaded
  split <;> rfl

-- A blob is loaded for a batch that has no verdict, and for no other.
theorem loadBlob_cases (p : Primitives) (r : DisclosureRegistry) (start batchSize : ℕ) (elements : List ℤ) :
    (r.loadBlob p start elements batchSize).1 = r ∧
        (∀ state, r.find start = some state → state.result ≠ none) ∨
      ∃ state, r.find start = some state ∧ state.result = none ∧
        (r.loadBlob p start elements batchSize).1 =
          { r with batches := r.batches.map (loaded p start batchSize elements) } := by
  unfold loadBlob
  cases hfind : r.find start with
  | none => exact .inl ⟨rfl, by simp⟩
  | some state =>
    cases hresult : state.result with
    | some v => exact .inl ⟨by simp [hresult], fun state' heq => by cases heq; simp [hresult]⟩
    | none => exact .inr ⟨state, rfl, hresult, by simp only [hresult]; rfl⟩

theorem loaded_settles (h : w.registry.Keyed) (hpos : ∀ x ∈ elements, 0 ≤ x) {state : BatchState}
    (hfind : w.registry.find start = some state) (hnone : state.result = none) {s : BatchState}
    (hs : s ∈ w.registry.batches) : Settles p batchSize s (loaded p start batchSize elements s) := by
  unfold loaded
  split
  · next hstart =>
    have hsame : w.registry.find start = some s := hstart ▸ find_of_mem h hs
    obtain rfl := Option.some.inj (hfind.symm.trans hsame)
    exact .inr ⟨hnone, elements, hpos, rfl⟩
  · exact .inl rfl

end Load

section Check

variable {r : DisclosureRegistry} {files : ℕ → DirFile} {batchSize : ℕ} {batches : List BatchState}

def checked (p : Primitives) (r : DisclosureRegistry) (files : ℕ → DirFile) (batchSize : ℕ)
    (s : BatchState) : BatchState :=
  match s.result, r.readDirBlob files s.anchor.startLeafIndex with
  | none, .ok (some xs) => verify p s xs batchSize
  | _, _ => s

theorem checked_anchor (s : BatchState) : (checked p r files batchSize s).anchor = s.anchor := by
  unfold checked
  split <;> rfl

theorem checkBatches_eq (h : ∀ s ∈ batches, s.result = none →
      ∃ out, r.readDirBlob files s.anchor.startLeafIndex = .ok out) :
    r.checkBatches p files batchSize batches = (batches.map (checked p r files batchSize), none) := by
  induction batches with
  | nil => rfl
  | cons s batches ih =>
    have hrest := ih fun s' hs' => h s' (List.mem_cons_of_mem s hs')
    rw [checkBatches, hrest, List.map_cons]
    cases hresult : s.result with
    | some v => simp [checked, hresult]
    | none =>
      obtain ⟨out, hout⟩ := h s List.mem_cons_self hresult
      cases out <;> simp [checked, hresult, hout]

-- A file that is no list of integers ends the check by a throw.
theorem checkBatches_throws {s : BatchState} (hs : s ∈ batches) (hnone : s.result = none) {e : String}
    (he : r.readDirBlob files s.anchor.startLeafIndex = .error e) :
    (r.checkBatches p files batchSize batches).2 ≠ none := by
  induction batches with
  | nil => exact absurd hs (by simp)
  | cons head batches ih =>
    rw [checkBatches]
    rcases List.mem_cons.1 hs with rfl | hs
    · simp [hnone, he]
    · have hrest := ih hs
      split
      next checked e' heq =>
      rw [heq] at hrest
      split
      · exact hrest
      · split
        · simp
        · exact hrest
        · exact hrest

theorem checked_settles {s : BatchState} (h : s.result = none → ∀ xs,
      r.readDirBlob files s.anchor.startLeafIndex = .ok (some xs) → ∀ x ∈ xs, 0 ≤ x) :
    Settles p batchSize s (checked p r files batchSize s) := by
  unfold checked
  split
  · next xs hnone hread => exact .inr ⟨hnone, xs, h hnone xs hread, rfl⟩
  · exact .inl rfl

end Check

section Record

variable {w : World} {files : ℕ → DirFile} {anchor : DisburseBatchAnchor} {batchSize : ℕ}
  {boot : Option (Option DisclosureResult)}

-- The state a first record leaves when it read the file.
def recorded (p : Primitives) (anchor : DisburseBatchAnchor) (batchSize : ℕ)
    (boot : Option (Option DisclosureResult)) : Option (List ℤ) → BatchState
  | none => ⟨anchor, none, none, false⟩
  | some xs => ⟨anchor, some xs, some (verdictOn p anchor xs batchSize),
      boot.elim true fun persisted =>
        persisted.map (·.status) = some (verdictOn p anchor xs batchSize).status⟩

-- The entry of a batch recorded for the first time.
def bakedEntry (p : Primitives) (anchor : DisburseBatchAnchor) (batchSize : ℕ)
    (boot : Option (Option DisclosureResult)) (out : Option (List ℤ)) : Option DisclosureResult :=
  boot.getD (out.map fun xs => verdictOn p anchor xs batchSize)

theorem step_recordBatch_known (hknown : (w.registry.find anchor.startLeafIndex).isSome) :
    w.step p (.recordBatch files anchor batchSize boot) = { w with sizes := batchSize :: w.sizes } := by
  simp [World.step, World.bake, recordBatch, hknown, thrownBy, Option.isSome_iff_ne_none.1 hknown]

theorem step_recordBatch_new (hnew : w.registry.find anchor.startLeafIndex = none)
    {out : Option (List ℤ)}
    (hread : w.registry.readDirBlob files anchor.startLeafIndex = .ok out) :
    w.step p (.recordBatch files anchor batchSize boot) =
      { registry := { w.registry with
          batches := w.registry.batches ++ [recorded p anchor batchSize boot out] }
        entry := Function.update w.entry anchor.startLeafIndex (bakedEntry p anchor batchSize boot out)
        thrown := w.thrown
        sizes := batchSize :: w.sizes
        booted := if boot.isSome then anchor.startLeafIndex :: w.booted else w.booted } := by
  simp only [World.step, World.bake, recordBatch, hnew, hread, Option.isSome_none, Bool.false_eq_true,
    if_false, Option.isNone_none, and_true]
  rcases out with _ | xs
  · cases boot <;> simp [recorded, bakedEntry, thrownBy, Except.toOption]
  · cases boot <;> simp [recorded, bakedEntry, thrownBy, Except.toOption, verify]

theorem step_recordBatch_throws (hnew : w.registry.find anchor.startLeafIndex = none) {e : String}
    (hread : w.registry.readDirBlob files anchor.startLeafIndex = .error e) :
    (w.step p (.recordBatch files anchor batchSize boot)).thrown = w.thrown ++ [e] := by
  simp [World.step, recordBatch, hnew, hread, thrownBy]

-- A batch known to the run keeps what was said of it.
theorem Inv.more_sizes (h : Inv p w) : Inv p { w with sizes := batchSize :: w.sizes } where
  keyed := h.keyed
  silent := h.silent
  idle := h.idle
  faithful s hs v hv := by
    obtain ⟨xs, hxs, hpos, size, hsize, hverdict⟩ := h.faithful s hs v hv
    exact ⟨xs, hxs, hpos, size, List.mem_cons_of_mem _ hsize, hverdict⟩
  owned := h.owned

theorem Inv.record (h : Inv p w) (hnew : w.registry.find anchor.startLeafIndex = none)
    {out : Option (List ℤ)} (hpos : ∀ xs ∈ out, ∀ x ∈ xs, 0 ≤ x) :
    Inv p
      { registry := { w.registry with
          batches := w.registry.batches ++ [recorded p anchor batchSize boot out] }
        entry := Function.update w.entry anchor.startLeafIndex (bakedEntry p anchor batchSize boot out)
        thrown := w.thrown
        sizes := batchSize :: w.sizes
        booted := if boot.isSome then anchor.startLeafIndex :: w.booted else w.booted } := by
  have hfresh := find_none hnew
  have hanchor : (recorded p anchor batchSize boot out).anchor = anchor := by cases out <;> rfl
  refine ⟨?_, h.silent, ?_, ?_, ?_⟩
  · unfold Keyed
    rw [List.map_append, List.map_singleton, hanchor, List.nodup_append_comm, List.singleton_append,
      List.nodup_cons]
    refine ⟨fun hmem => ?_, h.keyed⟩
    obtain ⟨s, hs, heq⟩ := List.mem_map.1 hmem
    exact hfresh s hs heq
  · intro s hs hresult
    rcases List.mem_append.1 hs with hs | hs
    · exact h.idle s hs hresult
    · obtain rfl := List.mem_singleton.1 hs
      cases out with
      | none => rfl
      | some xs => exact absurd hresult (by simp [recorded])
  · intro s hs v hv
    rcases List.mem_append.1 hs with hs | hs
    · obtain ⟨xs, hxs, hxpos, size, hsize, hverdict⟩ := h.faithful s hs v hv
      exact ⟨xs, hxs, hxpos, size, List.mem_cons_of_mem _ hsize, hverdict⟩
    · obtain rfl := List.mem_singleton.1 hs
      cases out with
      | none => exact absurd hv (by simp [recorded])
      | some xs => exact ⟨xs, rfl, hpos xs rfl, batchSize, List.mem_cons_self, (Option.some.inj hv).symm⟩
  · intro s hs v hv hbaked
    rcases List.mem_append.1 hs with hs | hs
    · obtain ⟨baked, hentry, hsame⟩ := h.owned s hs v hv hbaked
      refine ⟨baked, by simpa [Function.update_of_ne (hfresh s hs)] using hentry, hsame.imp_right ?_⟩
      rintro ⟨hbooted, hstatus⟩
      refine ⟨?_, hstatus⟩
      split
      · exact List.mem_cons_of_mem _ hbooted
      · exact hbooted
    · obtain rfl := List.mem_singleton.1 hs
      cases out with
      | none => exact absurd hv (by simp [recorded])
      | some xs =>
        obtain rfl := Option.some.inj hv
        cases boot with
        | none => exact ⟨_, by simp [recorded, bakedEntry], .inl rfl⟩
        | some persisted =>
          obtain ⟨baked, hpersisted, hstatus⟩ :
              ∃ baked, persisted = some baked ∧ baked.status = (verdictOn p anchor xs batchSize).status := by
            simpa [recorded, Option.map_eq_some_iff] using hbaked
          exact ⟨baked, by simp [recorded, bakedEntry, hpersisted], .inr ⟨by simp [recorded], hstatus⟩⟩

end Record

theorem Inv.empty (dir : Bool) (graceSeconds : ℤ) : Inv p (World.empty dir graceSeconds) where
  keyed := List.nodup_nil
  silent := rfl
  idle := by simp [World.empty]
  faithful := by simp [World.empty]
  owned := by simp [World.empty]

theorem checkDir_meets {w : World} {files : ℕ → DirFile} {batchSize : ℕ} (hkeyed : w.registry.Keyed)
    (hmeets : Meets w (.checkDir files batchSize)) {s : BatchState} (hs : s ∈ w.registry.batches)
    (hnone : s.result = none) :
    ∃ out, w.registry.readDirBlob files s.anchor.startLeafIndex = .ok out ∧
      ∀ xs ∈ out, ∀ x ∈ xs, 0 ≤ x :=
  legible_iff.1 (hmeets s.anchor.startLeafIndex s (find_of_mem hkeyed hs) hnone)

theorem step_checkDir {w : World} {files : ℕ → DirFile} {batchSize : ℕ}
    (h : ∀ s ∈ w.registry.batches, s.result = none →
      ∃ out, w.registry.readDirBlob files s.anchor.startLeafIndex = .ok out) :
    w.step p (.checkDir files batchSize) = { w with
      registry := { w.registry with
        batches := w.registry.batches.map (checked p w.registry files batchSize) }
      sizes := batchSize :: w.sizes } := by
  simp [World.step, checkDir, checkBatches_eq h]

-- The verdicts of the one are verdicts of the other.
def Keeps (w w' : World) : Prop :=
  ∀ start v, w.registry.verdictOf start = some v → w'.registry.verdictOf start = some v

-- A call that meets the condition keeps the invariant, and the verdicts there are.
theorem Inv.step {w : World} (h : Inv p w) {c : Call} (hmeets : Meets w c) :
    Inv p (w.step p c) ∧ Keeps w (w.step p c) := by
  cases c with
  | recordBatch files anchor batchSize boot =>
    cases hfind : w.registry.find anchor.startLeafIndex with
    | some state =>
      rw [step_recordBatch_known (by simp [hfind])]
      exact ⟨h.more_sizes, fun start v hv => hv⟩
    | none =>
      obtain ⟨out, hread, hpos⟩ := legible_iff.1 (hmeets hfind)
      rw [step_recordBatch_new hfind hread]
      refine ⟨h.record hfind hpos, fun start v hv => ?_⟩
      obtain ⟨s, hs, hresult⟩ := Option.bind_eq_some_iff.1 hv
      rw [verdictOf, find_snoc, hs]
      exact hresult
  | loadBlob start elements batchSize =>
    rcases loadBlob_cases p w.registry start batchSize elements with ⟨hsame, -⟩ | ⟨state, hfind, hnone, heq⟩
    · rw [World.step, hsame]
      exact ⟨h.more_sizes, fun start v hv => hv⟩
    · rw [World.step, heq]
      have hsettles : ∀ s ∈ w.registry.batches,
          Settles p batchSize s (loaded p start batchSize elements s) := fun s hs =>
        loaded_settles h.keyed (hmeets state hfind hnone) hfind hnone hs
      exact ⟨h.settle loaded_anchor hsettles, fun start' v => verdictOf_settle loaded_anchor hsettles⟩
  | checkDir files batchSize =>
    have hread := fun s hs hnone => checkDir_meets (s := s) h.keyed hmeets hs hnone
    rw [step_checkDir fun s hs hnone => (hread s hs hnone).imp fun out hout => hout.1]
    have hsettles : ∀ s ∈ w.registry.batches,
        Settles p batchSize s (checked p w.registry files batchSize s) := by
      intro s hs
      refine checked_settles fun hnone xs hxs => ?_
      obtain ⟨out, hout, hpos⟩ := hread s hs hnone
      rw [hxs] at hout
      cases hout
      exact hpos xs rfl
    exact ⟨h.settle checked_anchor hsettles, fun start v => verdictOf_settle checked_anchor hsettles⟩

-- A verdict on a blob that reads back is on no negative number.
theorem Sound.nonneg {w : World} (h : Sound p w) {start : ℕ} {s : BatchState} {v : DisclosureResult}
    {xs : List ℤ} (hfind : w.registry.find start = some s) (hresult : s.result = some v)
    (hxs : s.elements = some xs) : ∀ x ∈ xs, 0 ≤ x := by
  obtain ⟨s', xs', hfind', hxs', -, texts, hblob, htexts⟩ :=
    h.faithful start v (by simp [verdictOf, hfind, hresult])
  obtain rfl := Option.some.inj (hfind.symm.trans hfind')
  obtain rfl := Option.some.inj (hxs.symm.trans hxs')
  obtain rfl : servedBlob xs = texts := by simpa [blobOf, hfind, hxs] using hblob
  exact servedBlob_reads.1 htexts

-- The condition is needed: a step that misses it throws, or serves what does not read back.
theorem Inv.meets {w : World} (h : Inv p w) {c : Call} (hsound : Sound p (w.step p c)) : Meets w c := by
  cases c with
  | recordBatch files anchor batchSize boot =>
    intro hnew
    refine legible_iff.2 ?_
    cases hread : w.registry.readDirBlob files anchor.startLeafIndex with
    | error e =>
      have hsilent := hsound.silent
      rw [step_recordBatch_throws hnew hread] at hsilent
      exact absurd hsilent (by simp)
    | ok out =>
      refine ⟨out, rfl, fun xs hxs => ?_⟩
      cases hxs
      rw [step_recordBatch_new hnew hread] at hsound
      have hfind : find { w.registry with
          batches := w.registry.batches ++ [recorded p anchor batchSize boot (some xs)] }
          anchor.startLeafIndex = some (recorded p anchor batchSize boot (some xs)) := by
        rw [find_snoc, hnew]
        exact if_pos rfl
      exact hsound.nonneg hfind rfl rfl
  | loadBlob start elements batchSize =>
    intro state hfind hnone
    rcases loadBlob_cases p w.registry start batchSize elements with ⟨-, hsettled⟩ | ⟨state', -, -, heq⟩
    · exact absurd hnone (hsettled state hfind)
    · rw [World.step, heq] at hsound
      have hstate : loaded p start batchSize elements state = verify p state elements batchSize :=
        if_pos (find_mem hfind).2
      have hafter : find { w.registry with
          batches := w.registry.batches.map (loaded p start batchSize elements) } start =
            (w.registry.find start).map (loaded p start batchSize elements) := find_map loaded_anchor
      rw [hfind, Option.map_some, hstate] at hafter
      exact hsound.nonneg hafter rfl rfl
  | checkDir files batchSize =>
    intro start state hfind hnone
    obtain ⟨hmem, rfl⟩ := find_mem hfind
    have hread : ∀ s ∈ w.registry.batches, s.result = none →
        ∃ out, w.registry.readDirBlob files s.anchor.startLeafIndex = .ok out := by
      intro s hs hidle
      cases hread : w.registry.readDirBlob files s.anchor.startLeafIndex with
      | ok out => exact ⟨out, rfl⟩
      | error e =>
        have hthrows : (w.registry.checkBatches p files batchSize w.registry.batches).2 ≠ none :=
          checkBatches_throws hs hidle hread
        have hsilent := hsound.silent
        simp only [World.step, checkDir, h.silent, List.nil_append] at hsilent
        exact absurd (by simpa using hsilent) hthrows
    obtain ⟨out, hout⟩ := hread state hmem hnone
    refine legible_iff.2 ⟨out, hout, fun xs hxs => ?_⟩
    cases hxs
    rw [step_checkDir hread] at hsound
    have hstate : checked p w.registry files batchSize state = verify p state xs batchSize := by
      simp [checked, hnone, hout]
    have hafter : find { w.registry with
        batches := w.registry.batches.map (checked p w.registry files batchSize) } state.anchor.startLeafIndex =
          (w.registry.find state.anchor.startLeafIndex).map (checked p w.registry files batchSize) :=
      find_map checked_anchor
    rw [hfind, Option.map_some, hstate] at hafter
    exact hsound.nonneg hafter rfl rfl

def run (p : Primitives) (dir : Bool) (graceSeconds : ℤ) (calls : List Call) : World :=
  calls.foldl (World.step p) (World.empty dir graceSeconds)

theorem throughout_of_sound {dir : Bool} {graceSeconds : ℤ} {calls : List Call}
    (h : ∀ before after, calls = before ++ after → Sound p (run p dir graceSeconds before)) :
    Trace.Throughout (World.step p) Meets (World.empty dir graceSeconds) calls := by
  induction calls using List.reverseRecOn with
  | nil => exact trivial
  | append_singleton calls c ih =>
    have hinit := ih fun before after heq => h before (after ++ [c]) (by rw [heq, List.append_assoc])
    have hinv : Inv p (run p dir graceSeconds calls) :=
      Trace.inv_run (fun w c (hw : Inv p w) (hc : Meets w c) => (hw.step hc).1)
        (Inv.empty dir graceSeconds) hinit
    have hlast : Sound p (run p dir graceSeconds (calls ++ [c])) := h _ [] (by simp)
    rw [run, List.foldl_append] at hlast
    exact Trace.throughout_append.2 ⟨hinit, hinv.meets hlast, trivial⟩

-- In every state of a run the registry is sound and keeps its verdicts, when and only when no call
-- reads a file of texts other than whole numbers, or is handed a negative one.
theorem registry_sound_iff (p : Primitives) (dir : Bool) (graceSeconds : ℤ) (calls : List Call) :
    (∀ before after, calls = before ++ after → Sound p (run p dir graceSeconds before) ∧
      Keeps (run p dir graceSeconds before) (run p dir graceSeconds calls)) ↔
      Trace.Throughout (World.step p) Meets (World.empty dir graceSeconds) calls := by
  refine ⟨fun h => throughout_of_sound fun before after heq => (h before after heq).1, ?_⟩
  rintro hmeets before after rfl
  obtain ⟨hbefore, hafter⟩ := Trace.throughout_append.1 hmeets
  have hinv : Inv p (run p dir graceSeconds before) :=
    Trace.inv_run (fun w c (hw : Inv p w) (hc : Meets w c) => (hw.step hc).1)
      (Inv.empty dir graceSeconds) hbefore
  have hkeeps : Keeps (run p dir graceSeconds before) (after.foldl (World.step p) _) :=
    Trace.grows_run (fun w start v hv => hv) (fun h h' start v hv => h' start v (h start v hv))
      (fun w c (hw : Inv p w) (hc : Meets w c) => (hw.step hc).1) (fun w c hw hc => (hw.step hc).2)
      hinv hafter
  exact ⟨hinv.sound, by simpa only [run, List.foldl_append] using hkeeps⟩

-- A file that holds the list of one word ends the ingest of its batch.
theorem word_in_file_throws :
    ¬ ∀ calls, Sound plainPrimitives (run plainPrimitives true 0 calls) := by
  intro h
  have hsound := (h [.recordBatch (fun _ => .text (some (.array [.string "redacted"])))
    ⟨256, 1, 5, 0, 0, 0⟩ 256 none]).silent
  exact absurd hsound (by decide)

end Bongtu.Indexer.Served
