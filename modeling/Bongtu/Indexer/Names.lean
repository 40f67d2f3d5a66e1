import Mathlib.Logic.Function.Basic
import Bongtu.Trace

namespace Bongtu.Indexer

structure ConsumerTripleWrite where
  noteViewPub : Option String
  kemEk : Option String
deriving DecidableEq, Repr

-- A record of the map and a row of the table have the same columns.
structure NameRecord where
  name : String
  owner : String
  viewPub : String
  spendPub : String
  pair : ConsumerTripleWrite
  updatedAt : ℕ
deriving DecidableEq, Repr

structure Registration where
  name : String
  owner : String
  viewPub : String
  spendPub : String
deriving DecidableEq, Repr

abbrev NameMap := String → Option NameRecord

-- An empty column reads as an absent one.
def ConsumerTripleWrite.present (c : ConsumerTripleWrite) : ConsumerTripleWrite :=
  ⟨c.noteViewPub.filter (· ≠ ""), c.kemEk.filter (· ≠ "")⟩

def NameRecord.present (r : NameRecord) : NameRecord := { r with pair := r.pair.present }

namespace NameRegistry

def boot (names : NameMap) : NameMap := fun name => (names name).map (·.present)

def recordOf (existing : Option NameRecord) (reg : Registration) (nowSeconds : ℕ)
    (consumer : Option ConsumerTripleWrite) : NameRecord :=
  ⟨reg.name, reg.owner, reg.viewPub, reg.spendPub,
    consumer.getD ((existing.map (·.pair)).getD ⟨none, none⟩), nowSeconds⟩

-- `register` up to its statement: the record it will write, or the one that holds the name.
def register (byName : NameMap) (reg : Registration) (nowSeconds : ℕ)
    (consumer : Option ConsumerTripleWrite) : Except NameRecord NameRecord :=
  match byName reg.name with
  | some existing => if existing.owner ≠ reg.owner then .error existing
      else .ok (recordOf (some existing) reg nowSeconds consumer)
  | none => .ok (recordOf none reg nowSeconds consumer)

end NameRegistry

-- A call at its awaited statement, which has committed or not yet.
structure NameCall where
  id : ℕ
  record : NameRecord
  v1 : Bool
  committed : Bool
deriving DecidableEq, Repr

-- A write of a record over what stood under its name.
structure NameWrite where
  record : NameRecord
  v1 : Bool
  before : Option NameRecord
deriving DecidableEq, Repr

-- Calls are numbered in the order they started; `upserts` and `returned` are the writes that committed
-- and those whose call returned ok.
structure NameWorld where
  byName : NameMap
  names : NameMap
  waiting : List NameCall
  started : ℕ
  upserts : List NameWrite
  returned : List NameWrite

-- A statement that fails before or after it committed makes its call throw.
inductive NameEvent where
  | register (reg : Registration) (nowSeconds : ℕ) (consumer : Option ConsumerTripleWrite)
  | upsert (id : ℕ)
  | resume (id : ℕ)
  | fail (id : ℕ)
deriving DecidableEq, Repr

namespace NameWorld

def boot (names : NameMap) : NameWorld := ⟨NameRegistry.boot names, names, [], 0, [], []⟩

def call (w : NameWorld) (id : ℕ) (committed : Bool) : Option NameCall :=
  w.waiting.find? fun c => c.id = id ∧ c.committed = committed

def leave (w : NameWorld) (id : ℕ) : NameWorld := { w with waiting := w.waiting.filter (·.id ≠ id) }

def start (w : NameWorld) (record : NameRecord) (v1 : Bool) : NameWorld :=
  { w with waiting := w.waiting ++ [⟨w.started, record, v1, false⟩], started := w.started + 1 }

def commit (w : NameWorld) (c : NameCall) : NameWorld :=
  { w with
    names := Function.update w.names c.record.name (some c.record)
    upserts := w.upserts ++ [⟨c.record, c.v1, w.names c.record.name⟩]
    waiting := w.waiting.map fun d => if d.id = c.id then { d with committed := true } else d }

def serve (w : NameWorld) (c : NameCall) : NameWorld :=
  { w with
    byName := Function.update w.byName c.record.name (some c.record)
    returned := w.returned ++ [⟨c.record, c.v1, w.byName c.record.name⟩] }

def step (w : NameWorld) : NameEvent → NameWorld
  | .register reg nowSeconds consumer =>
    match NameRegistry.register w.byName reg nowSeconds consumer with
    | .error _ => { w with started := w.started + 1 }
    | .ok record => w.start record consumer.isNone
  | .upsert id => (w.call id false).elim w w.commit
  | .resume id => (w.call id true).elim w fun c => (w.serve c).leave id
  | .fail id => w.leave id

-- No call of a name starts while another is at its statement, and no committed statement loses its
-- answer.
def Apart (w : NameWorld) : NameEvent → Prop
  | .register reg _ _ => ∀ c ∈ w.waiting, c.record.name ≠ reg.name
  | .fail id => ∀ c ∈ w.waiting, c.id = id → c.committed = false
  | _ => True

instance (w : NameWorld) : (e : NameEvent) → Decidable (w.Apart e)
  | .register reg _ _ => inferInstanceAs (Decidable (∀ c ∈ w.waiting, c.record.name ≠ reg.name))
  | .fail id => inferInstanceAs (Decidable (∀ c ∈ w.waiting, c.id = id → c.committed = false))
  | .upsert _ | .resume _ => inferInstanceAs (Decidable True)

-- `kept` reads the map and the table.
structure FirstCome (w : NameWorld) : Prop where
  kept : ∀ k ∈ w.returned, ∀ r, w.byName k.record.name = some r ∨ w.names k.record.name = some r →
    r.owner = k.record.owner
  oneOwner : ∀ k ∈ w.returned, ∀ k' ∈ w.returned, k.record.name = k'.record.name →
    k.record.owner = k'.record.owner
  pair : ∀ k ∈ w.upserts ++ w.returned, k.v1 → ∀ b, k.before = some b →
    k.record.pair.present = b.pair.present
  agree : w.waiting = [] → ∀ name, (w.byName name).map (·.present) = (w.names name).map (·.present)

end NameWorld

theorem NameRegistry.register_ok {byName : NameMap} {reg : Registration} {nowSeconds : ℕ}
    {consumer : Option ConsumerTripleWrite} {record : NameRecord}
    (h : register byName reg nowSeconds consumer = .ok record) :
    (∀ e, byName reg.name = some e → e.owner = reg.owner) ∧
      record = recordOf (byName reg.name) reg nowSeconds consumer := by
  unfold register at h
  cases he : byName reg.name with
  | none => simp_all
  | some e =>
    by_cases ho : e.owner = reg.owner
    · simp_all
    · simp [he, ho] at h

@[simp] theorem ConsumerTripleWrite.present_present (c : ConsumerTripleWrite) :
    c.present.present = c.present := by
  simp [present, Option.filter_filter]

@[simp] theorem NameRecord.present_present (r : NameRecord) : r.present.present = r.present := by
  simp [present]

namespace NameWorld

-- What a waiting call still knows of the map and the table.
structure Current (w : NameWorld) (c : NameCall) : Prop where
  owner : ∀ e, w.byName c.record.name = some e → e.owner = c.record.owner
  pair : c.v1 → ∀ e, w.byName c.record.name = some e → c.record.pair = e.pair
  row : c.committed = true → w.names c.record.name = some c.record
  agree : c.committed = false →
    (w.byName c.record.name).map (·.present) = (w.names c.record.name).map (·.present)

structure Inv (w : NameWorld) : Prop where
  fresh : ∀ c ∈ w.waiting, c.id < w.started
  ids : ∀ c ∈ w.waiting, ∀ d ∈ w.waiting, c.id = d.id → c = d
  single : ∀ c ∈ w.waiting, ∀ d ∈ w.waiting, c.record.name = d.record.name → c = d
  current : ∀ c ∈ w.waiting, w.Current c
  agree : ∀ name, (∀ c ∈ w.waiting, c.record.name ≠ name) →
    (w.byName name).map (·.present) = (w.names name).map (·.present)
  served : ∀ k ∈ w.returned, ∃ e, w.byName k.record.name = some e ∧ e.owner = k.record.owner
  stored : ∀ k ∈ w.returned, ∃ e, w.names k.record.name = some e ∧ e.owner = k.record.owner
  pair : ∀ k ∈ w.upserts ++ w.returned, k.v1 → ∀ b, k.before = some b →
    k.record.pair.present = b.pair.present

theorem call_eq_some {w : NameWorld} {id : ℕ} {committed : Bool} {c : NameCall}
    (h : w.call id committed = some c) : c ∈ w.waiting ∧ c.id = id ∧ c.committed = committed :=
  ⟨List.mem_of_find?_eq_some h, by simpa using List.find?_some h⟩

theorem mem_leave {w : NameWorld} {id : ℕ} {c : NameCall} :
    c ∈ (w.leave id).waiting ↔ c ∈ w.waiting ∧ c.id ≠ id := by
  simp [leave]

theorem inv_boot (names : NameMap) : (boot names).Inv where
  fresh := by simp [boot]
  ids := by simp [boot]
  single := by simp [boot]
  current := by simp [boot]
  agree name _ := by simp [boot, NameRegistry.boot, Function.comp_def]
  served := by simp [boot]
  stored := by simp [boot]
  pair := by simp [boot]

theorem inv_refused {w : NameWorld} (h : w.Inv) : Inv { w with started := w.started + 1 } :=
  { h with
    fresh := fun c hc => Nat.lt_succ_of_lt (h.fresh c hc)
    current := fun c hc => ⟨(h.current c hc).owner, (h.current c hc).pair, (h.current c hc).row,
      (h.current c hc).agree⟩ }

theorem current_start {w : NameWorld} {reg : Registration} {nowSeconds : ℕ}
    {consumer : Option ConsumerTripleWrite} {record : NameRecord} (h : w.Inv)
    (hfree : ∀ c ∈ w.waiting, c.record.name ≠ reg.name)
    (hreg : NameRegistry.register w.byName reg nowSeconds consumer = .ok record) :
    record.name = reg.name ∧ w.Current ⟨w.started, record, consumer.isNone, false⟩ := by
  obtain ⟨howner, rfl⟩ := NameRegistry.register_ok hreg
  refine ⟨rfl, howner, fun hv1 e he => ?_, fun hc => absurd hc (by simp), fun _ => h.agree _ hfree⟩
  rw [Option.isNone_iff_eq_none] at hv1
  have he : w.byName reg.name = some e := he
  simp [NameRegistry.recordOf, hv1, he]

theorem inv_start {w : NameWorld} {record : NameRecord} {v1 : Bool} (h : w.Inv)
    (hfree : ∀ c ∈ w.waiting, c.record.name ≠ record.name)
    (hcur : w.Current ⟨w.started, record, v1, false⟩) : (w.start record v1).Inv := by
  have hmem : ∀ c, c ∈ (w.start record v1).waiting ↔ c ∈ w.waiting ∨ c = ⟨w.started, record, v1, false⟩ :=
    fun c => by simp [start]
  refine { h with fresh := ?_, ids := ?_, single := ?_, current := ?_, agree := ?_ }
  · intro c hc
    rcases (hmem c).1 hc with hc | rfl
    · exact Nat.lt_succ_of_lt (h.fresh c hc)
    · exact Nat.lt_succ_self _
  · intro c hc d hd hid
    rcases (hmem c).1 hc with hc | rfl <;> rcases (hmem d).1 hd with hd | rfl
    · exact h.ids c hc d hd hid
    · exact absurd hid (Nat.ne_of_lt (h.fresh c hc))
    · exact absurd hid (Nat.ne_of_gt (h.fresh d hd))
    · rfl
  · intro c hc d hd hname
    rcases (hmem c).1 hc with hc | rfl <;> rcases (hmem d).1 hd with hd | rfl
    · exact h.single c hc d hd hname
    · exact absurd hname (hfree c hc)
    · exact absurd hname.symm (hfree d hd)
    · rfl
  · intro c hc
    rcases (hmem c).1 hc with hc | rfl
    · exact ⟨(h.current c hc).owner, (h.current c hc).pair, (h.current c hc).row, (h.current c hc).agree⟩
    · exact ⟨hcur.owner, hcur.pair, hcur.row, hcur.agree⟩
  · exact fun name hname => h.agree name fun c hc => hname c ((hmem c).2 (.inl hc))

theorem mem_commit {w : NameWorld} {c d : NameCall} (h : w.Inv) (hc : c ∈ w.waiting)
    (hd : d ∈ (w.commit c).waiting) :
    d = { c with committed := true } ∨ d ∈ w.waiting ∧ d.record.name ≠ c.record.name ∧ d.id ≠ c.id := by
  simp only [commit, List.mem_map] at hd
  obtain ⟨d', hd', rfl⟩ := hd
  by_cases hid : d'.id = c.id
  · obtain rfl := h.ids d' hd' c hc hid
    simp
  · simp only [hid, if_false]
    exact .inr ⟨hd', fun hname => hid (h.single d' hd' c hc hname ▸ rfl), hid⟩

theorem inv_commit {w : NameWorld} {c : NameCall} (h : w.Inv) (hc : c ∈ w.waiting)
    (hout : c.committed = false) : (w.commit c).Inv := by
  have hcur := h.current c hc
  have hnames : ∀ name, name ≠ c.record.name → (w.commit c).names name = w.names name :=
    fun name hname => Function.update_of_ne hname _ _
  have hrow : (w.commit c).names c.record.name = some c.record := Function.update_self ..
  constructor
  case fresh =>
    intro d hd
    rcases mem_commit h hc hd with rfl | ⟨hd, -⟩
    · exact h.fresh c hc
    · exact h.fresh d hd
  case ids =>
    intro d hd e he hid
    rcases mem_commit h hc hd with rfl | ⟨hd, -, hdid⟩ <;> rcases mem_commit h hc he with rfl | ⟨he, -, heid⟩
    · rfl
    · exact absurd hid.symm heid
    · exact absurd hid hdid
    · exact h.ids d hd e he hid
  case single =>
    intro d hd e he hname
    rcases mem_commit h hc hd with rfl | ⟨hd, hdn, -⟩ <;> rcases mem_commit h hc he with rfl | ⟨he, hen, -⟩
    · rfl
    · exact absurd hname.symm hen
    · exact absurd hname hdn
    · exact h.single d hd e he hname
  case current =>
    intro d hd
    rcases mem_commit h hc hd with rfl | ⟨hd, hdn, -⟩
    · exact ⟨hcur.owner, hcur.pair, fun _ => hrow, fun hf => absurd hf (by simp)⟩
    · exact ⟨(h.current d hd).owner, (h.current d hd).pair, fun hr => (hnames _ hdn).trans ((h.current d hd).row hr),
        fun hf => (hnames _ hdn).symm ▸ (h.current d hd).agree hf⟩
  case agree =>
    intro name hname
    have hne : name ≠ c.record.name := fun heq => hname { c with committed := true }
      (List.mem_map.2 ⟨c, hc, by simp⟩) heq.symm
    rw [hnames name hne]
    refine h.agree name fun d hd hdn => ?_
    have hid : d.id ≠ c.id := fun hid => hne (h.ids d hd c hc hid ▸ hdn.symm)
    exact hname d (List.mem_map.2 ⟨d, hd, by simp [hid]⟩) hdn
  case served => exact h.served
  case stored =>
    intro k hk
    by_cases hname : k.record.name = c.record.name
    · obtain ⟨e, he, ho⟩ := h.served k hk
      exact ⟨c.record, hname ▸ hrow, ho ▸ (hcur.owner e (hname ▸ he)).symm⟩
    · obtain ⟨e, he, ho⟩ := h.stored k hk
      exact ⟨e, (hnames _ hname).trans he, ho⟩
  case pair =>
    intro k hk hv1 b hb
    simp only [commit, List.mem_append, List.mem_singleton] at hk
    rcases hk with (hk | rfl) | hk
    · exact h.pair k (List.mem_append_left _ hk) hv1 b hb
    · -- the row read by the statement is the record the call read, short of empty columns
      have hsame := hcur.agree hout
      rw [show w.names c.record.name = some b from hb] at hsame
      obtain ⟨e, he, heb⟩ := Option.map_eq_some_iff.1 hsame
      rw [show c.record.pair = e.pair from hcur.pair hv1 e he]
      exact congrArg NameRecord.pair heb
    · exact h.pair k (List.mem_append_right _ hk) hv1 b hb

theorem inv_serve {w : NameWorld} {c : NameCall} (h : w.Inv) (hc : c ∈ w.waiting)
    (hin : c.committed = true) : ((w.serve c).leave c.id).Inv := by
  have hcur := h.current c hc
  have hmap : ∀ name, name ≠ c.record.name → (w.serve c).byName name = w.byName name :=
    fun name hname => Function.update_of_ne hname _ _
  have hself : (w.serve c).byName c.record.name = some c.record := Function.update_self ..
  have hother : ∀ d ∈ w.waiting, d.id ≠ c.id → d.record.name ≠ c.record.name :=
    fun d hd hid hname => hid (h.single d hd c hc hname ▸ rfl)
  constructor
  case fresh => exact fun d hd => h.fresh d (mem_leave.1 hd).1
  case ids => exact fun d hd e he => h.ids d (mem_leave.1 hd).1 e (mem_leave.1 he).1
  case single => exact fun d hd e he => h.single d (mem_leave.1 hd).1 e (mem_leave.1 he).1
  case current =>
    intro d hd
    obtain ⟨hd, hid⟩ := mem_leave.1 hd
    have hd := h.current d hd
    have hsame := hmap _ (hother d (mem_leave.1 ‹_›).1 hid)
    exact ⟨fun e he => hd.owner e (hsame ▸ he), fun hv1 e he => hd.pair hv1 e (hsame ▸ he), hd.row,
      fun hf => (congrArg _ hsame).trans (hd.agree hf)⟩
  case agree =>
    intro name hname
    by_cases heq : name = c.record.name
    · subst heq
      exact (congrArg _ hself).trans (congrArg _ (hcur.row hin)).symm
    · refine (congrArg _ (hmap name heq)).trans (h.agree name fun d hd hdn => ?_)
      by_cases hid : d.id = c.id
      · exact heq (h.ids d hd c hc hid ▸ hdn.symm)
      · exact hname d (mem_leave.2 ⟨hd, hid⟩) hdn
  case served =>
    intro k hk
    rcases List.mem_append.1 hk with hk | hk
    · obtain ⟨e, he, ho⟩ := h.served k hk
      by_cases hname : k.record.name = c.record.name
      · exact ⟨c.record, (congrArg _ hname).trans hself, ho ▸ (hcur.owner e (hname ▸ he)).symm⟩
      · exact ⟨e, (hmap _ hname).trans he, ho⟩
    · obtain rfl := List.mem_singleton.1 hk
      exact ⟨c.record, hself, rfl⟩
  case stored =>
    intro k hk
    rcases List.mem_append.1 hk with hk | hk
    · exact h.stored k hk
    · obtain rfl := List.mem_singleton.1 hk
      exact ⟨c.record, hcur.row hin, rfl⟩
  case pair =>
    intro k hk hv1 b hb
    rcases List.mem_append.1 hk with hk | hk
    · exact h.pair k (List.mem_append_left _ hk) hv1 b hb
    · rcases List.mem_append.1 hk with hk | hk
      · exact h.pair k (List.mem_append_right _ hk) hv1 b hb
      · obtain rfl := List.mem_singleton.1 hk
        exact congrArg _ (hcur.pair hv1 b hb)

theorem inv_fail {w : NameWorld} {id : ℕ} (h : w.Inv)
    (hout : ∀ c ∈ w.waiting, c.id = id → c.committed = false) : (w.leave id).Inv := by
  refine { h with fresh := ?_, ids := ?_, single := ?_, current := ?_, agree := ?_ }
  · exact fun d hd => h.fresh d (mem_leave.1 hd).1
  · exact fun d hd e he => h.ids d (mem_leave.1 hd).1 e (mem_leave.1 he).1
  · exact fun d hd e he => h.single d (mem_leave.1 hd).1 e (mem_leave.1 he).1
  · intro d hd
    have hd := h.current d (mem_leave.1 hd).1
    exact ⟨hd.owner, hd.pair, hd.row, hd.agree⟩
  · intro name hname
    by_cases hex : ∃ c ∈ w.waiting, c.record.name = name
    · obtain ⟨c, hc, rfl⟩ := hex
      by_cases hid : c.id = id
      · exact (h.current c hc).agree (hout c hc hid)
      · exact absurd rfl (hname c (mem_leave.2 ⟨hc, hid⟩))
    · exact h.agree name fun c hc hcn => hex ⟨c, hc, hcn⟩

theorem inv_step (w : NameWorld) (e : NameEvent) (h : w.Inv) (hapart : w.Apart e) : (w.step e).Inv := by
  cases e with
  | register reg nowSeconds consumer =>
    cases hreg : NameRegistry.register w.byName reg nowSeconds consumer with
    | error taken => simpa [step, hreg] using inv_refused h
    | ok record =>
      obtain ⟨hname, hcur⟩ := current_start h hapart hreg
      simpa [step, hreg] using inv_start h (fun c hc => hname ▸ hapart c hc) hcur
  | upsert id =>
    cases hcall : w.call id false with
    | none => simpa [step, hcall] using h
    | some c =>
      obtain ⟨hc, -, hout⟩ := call_eq_some hcall
      simpa [step, hcall] using inv_commit h hc hout
  | resume id =>
    cases hcall : w.call id true with
    | none => simpa [step, hcall] using h
    | some c =>
      obtain ⟨hc, rfl, hin⟩ := call_eq_some hcall
      simpa [step, hcall] using inv_serve h hc hin
  | fail id => exact inv_fail h hapart

theorem Inv.firstCome {w : NameWorld} (h : w.Inv) : w.FirstCome where
  kept := by
    rintro k hk r (hr | hr)
    · obtain ⟨e, he, ho⟩ := h.served k hk
      rwa [← Option.some.inj (he.symm.trans hr)]
    · obtain ⟨e, he, ho⟩ := h.stored k hk
      rwa [← Option.some.inj (he.symm.trans hr)]
  oneOwner := by
    intro k hk k' hk' hname
    obtain ⟨e, he, ho⟩ := h.served k hk
    obtain ⟨e', he', ho'⟩ := h.served k' hk'
    rw [← ho, ← ho', Option.some.inj (he.symm.trans (hname ▸ he'))]
  pair := h.pair
  agree hidle name := h.agree name (by simp [hidle])

theorem names_first_come (names : NameMap) (es : List NameEvent)
    (h : Trace.Throughout step Apart (boot names) es) : (es.foldl step (boot names)).FirstCome :=
  (Trace.inv_run inv_step (inv_boot names) h).firstCome

def emptyNames : NameMap := fun _ => none

def aliceOf (owner : String) : NameEvent := .register ⟨"alice", owner, "0x0a", "0x0b"⟩ 100 none

-- An owner registers, and updates once the first call has returned.
theorem names_first_come_sample :
    ([aliceOf "0x01", .upsert 0, .resume 0, aliceOf "0x01", .upsert 1, .resume 1].foldl step
      (boot emptyNames)).FirstCome :=
  names_first_come emptyNames _ (by decide +kernel)

def aliceTwice : List NameEvent :=
  [aliceOf "0x01", aliceOf "0x02", .upsert 0, .upsert 1, .resume 0, .resume 1]

-- Both calls find the name free and both return ok.
theorem names_not_first_come :
    ¬ ∀ (names : NameMap) (es : List NameEvent), (es.foldl step (boot names)).FirstCome := by
  intro h
  have hone := (h emptyNames aliceTwice).oneOwner
  revert hone
  decide +kernel

end NameWorld

end Bongtu.Indexer
