import Bongtu.Core.Text
import Bongtu.Indexer.Names

namespace Bongtu.Indexer

open Bongtu.Core Outcome

inductive JsonField where
  | absent
  | text (s : String)
  | number (n : Option ℤ)
  | other
deriving DecidableEq, Repr

def JsonField.text? : JsonField → Option String
  | text s => some s
  | _ => none

-- A number that is no integer carries nothing.
def JsonField.number? : JsonField → Option (Option ℤ)
  | number n => some n
  | _ => none

structure NameBody where
  name : JsonField
  owner : JsonField
  viewPub : JsonField
  spendPub : JsonField
  noteViewPub : JsonField
  kemEk : JsonField
  ts : JsonField
  sig : JsonField
deriving DecidableEq, Repr

def noteViewPubZero : String := "0x" ++ String.ofList (List.replicate 64 '0')

def kemEkZero : String := "0x" ++ String.ofList (List.replicate 2368 '0')

def kemPublicKeyBytes : ℕ := 1184

def windowSeconds : ℤ := 300

inductive NameRefusal where
  | bodyShape
  | lonePairHalf
  | pairNotText
  | invalidName
  | malformedViewPub (e : PubkeyError)
  | malformedSpendPub
  | loneSentinel
  | malformedNoteViewPub (e : PubkeyError)
  | malformedKemEk
  | malformedOwner (e : PubkeyError)
  | staleTs
  | badSignature
  | taken (name : String)
deriving DecidableEq, Repr

def NameRefusal.status : NameRefusal → ℕ
  | staleTs | badSignature => 401
  | taken _ => 409
  | _ => 400

-- The curves, the hashes and the key encapsulation the registration is checked with.
structure NameAuth where
  curve : Curve
  poseidonN : List ℕ → ℕ
  sha256Field : String → ℕ
  isSpendPoint : List ℕ → Bool
  encapsulates : List ℕ → Bool

-- A registration that passed its checks, as the registry is handed it.
structure Admitted where
  reg : Registration
  consumer : Option ConsumerTripleWrite
  pub : Point
  ts : ℤ
deriving DecidableEq, Repr

namespace NameAuth

variable (a : NameAuth)

def nameDomainTag : ℕ := a.sha256Field "bongtu/name-auth-v1"

def nameDomainTagV2 : ℕ := a.sha256Field "bongtu/name-auth-v2"

def nameBindingField (name viewPub spendPub : String) : ℕ :=
  a.sha256Field (name ++ "|" ++ toLowerCase viewPub ++ "|" ++ toLowerCase spendPub)

def nameBindingFieldV2 (name viewPub spendPub noteViewPub kemEk : String) : ℕ :=
  a.sha256Field (name ++ "|" ++ toLowerCase viewPub ++ "|" ++ toLowerCase spendPub ++ "|" ++
    toLowerCase noteViewPub ++ "|" ++ toLowerCase kemEk)

def nameAuthMessage (ownerPub : Point) (binding : ℕ) (timestamp : ℤ) : ℕ :=
  a.poseidonN [ownerPub.1, ownerPub.2, binding, timestamp.toNat, a.nameDomainTag]

def nameAuthMessageV2 (ownerPub : Point) (binding : ℕ) (timestamp : ℤ) : ℕ :=
  a.poseidonN [ownerPub.1, ownerPub.2, binding, timestamp.toNat, a.nameDomainTagV2]

-- A signature that does not parse fails like one that does not verify.
def authorizeSignedPayload (owner : String) (ts : Option ℤ) (sig : String) (messageOf : Point → ℤ → ℕ)
    (nowSeconds : ℕ) : Except NameRefusal (Point × ℤ) :=
  match a.curve.unpackPubkey owner with
  | .error e => .error (.malformedOwner e)
  | .ok pub => match ts with
    | none => .error .staleTs
    | some ts =>
      if windowSeconds < |(nowSeconds : ℤ) - ts| then .error .staleTs
      else match parseSignature sig with
        | .error _ => .error .badSignature
        | .ok sig => if a.curve.verifyNotesAuth a.poseidonN pub (messageOf pub ts) sig then .ok (pub, ts)
            else .error .badSignature

def validateStealthMetaAddress (viewPub spendPub : String) : Except NameRefusal Unit :=
  match a.curve.unpackPubkey viewPub with
  | .error e => .error (.malformedViewPub e)
  | .ok _ => if (hexBytes (strip0x spendPub)).any a.isSpendPoint then .ok ()
      else .error .malformedSpendPub

def isSentinel (noteViewPub kemEk : String) : Bool :=
  toLowerCase noteViewPub = noteViewPubZero ∧ toLowerCase kemEk = kemEkZero

def checkPair (noteViewPub kemEk : String) : Except NameRefusal Unit :=
  if isSentinel noteViewPub kemEk then .ok ()
  else if toLowerCase noteViewPub = noteViewPubZero ∨ toLowerCase kemEk = kemEkZero then
    .error .loneSentinel
  else match a.curve.unpackPubkey noteViewPub with
    | .error e => .error (.malformedNoteViewPub e)
    | .ok _ =>
      if (hexBytes (strip0x kemEk)).any fun bytes => bytes.length = kemPublicKeyBytes ∧ a.encapsulates bytes
      then .ok () else .error .malformedKemEk

def pairOf (noteViewPub kemEk : String) : ConsumerTripleWrite :=
  if isSentinel noteViewPub kemEk then ⟨none, none⟩ else ⟨some noteViewPub, some kemEk⟩

-- The form a payload takes: neither consumer key, or both.
def formOf (b : NameBody) : Except NameRefusal (Option (String × String)) :=
  match b.noteViewPub, b.kemEk with
  | .absent, .absent => .ok none
  | .absent, _ | _, .absent => .error .lonePairHalf
  | .text noteViewPub, .text kemEk => .ok (some (trim noteViewPub, trim kemEk))
  | _, _ => .error .pairNotText

-- `handleNameRegister` up to the registry.
def checked (b : NameBody) (nowSeconds : ℕ) : Except NameRefusal Admitted :=
  match b.name.text?, b.owner.text?, b.viewPub.text?, b.spendPub.text?, b.ts.number?, b.sig.text? with
  | some rawName, some owner, some viewPub, some spendPub, some ts, some sig => do
    let form ← formOf b
    match normalizeName rawName with
    | none => .error .invalidName
    | some name =>
      a.validateStealthMetaAddress viewPub spendPub
      match form with
      | none =>
        let (pub, ts) ← a.authorizeSignedPayload owner ts sig
          (fun pub ts => a.nameAuthMessage pub (a.nameBindingField name viewPub spendPub) ts) nowSeconds
        return ⟨⟨name, owner, viewPub, spendPub⟩, none, pub, ts⟩
      | some (noteViewPub, kemEk) =>
        a.checkPair noteViewPub kemEk
        let (pub, ts) ← a.authorizeSignedPayload owner ts sig
          (fun pub ts => a.nameAuthMessageV2 pub
            (a.nameBindingFieldV2 name viewPub spendPub noteViewPub kemEk) ts) nowSeconds
        return ⟨⟨name, owner, viewPub, spendPub⟩, some (pairOf noteViewPub kemEk), pub, ts⟩
  | _, _, _, _, _, _ => .error .bodyShape

-- `register` with nothing else in flight: the record it answers with is the one the map serves.
def handleNameRegister (b : NameBody) (nowSeconds : ℕ) (byName : NameMap) :
    Except NameRefusal NameRecord × NameMap :=
  match a.checked b nowSeconds with
  | .error e => (.error e, byName)
  | .ok x => match NameRegistry.register byName x.reg nowSeconds x.consumer with
    | .error _ => (.error (.taken x.reg.name), byName)
    | .ok record => (.ok record, Function.update byName x.reg.name (some record))

end NameAuth

-- The registry, with the registrations answered 200 so far.
structure NameBook where
  byName : NameMap
  accepted : List Admitted

structure NamePost where
  body : NameBody
  nowSeconds : ℕ
deriving DecidableEq, Repr

def ConsumerTripleWrite.lower (c : ConsumerTripleWrite) : ConsumerTripleWrite :=
  ⟨c.noteViewPub.map toLowerCase, c.kemEk.map toLowerCase⟩

namespace NameBook

def empty : NameBook := ⟨fun _ => none, []⟩

def acceptedFor (w : NameBook) (name : String) : List Admitted := w.accepted.filter (·.reg.name = name)

def pairsFor (w : NameBook) (name : String) : List Admitted :=
  (w.acceptedFor name).filter (·.consumer.isSome)

variable (a : NameAuth)

def post (w : NameBook) (p : NamePost) : NameBook :=
  match a.handleNameRegister p.body p.nowSeconds w.byName, a.checked p.body p.nowSeconds with
  | (.ok _, byName), .ok x => ⟨byName, w.accepted ++ [x]⟩
  | (_, byName), _ => ⟨byName, w.accepted⟩

end NameBook

-- The spelling of the hex is free: what was signed is lowercased.
def SameLegacy (r : NameRecord) (reg : Registration) : Prop :=
  toLowerCase r.viewPub = toLowerCase reg.viewPub ∧ toLowerCase r.spendPub = toLowerCase reg.spendPub

instance (r : NameRecord) (reg : Registration) : Decidable (SameLegacy r reg) :=
  inferInstanceAs (Decidable (_ ∧ _))

def Newest (among : List Admitted) (x : Admitted) : Prop := ∀ y ∈ among, y.ts ≤ x.ts

instance (among : List Admitted) (x : Admitted) : Decidable (Newest among x) :=
  inferInstanceAs (Decidable (∀ y ∈ among, y.ts ≤ x.ts))

-- The two legacy keys are those of the newest registration, the consumer pair that of the newest v2
-- one; only the record's owner was accepted, and its own next registration is.
structure Unrolled (a : NameAuth) (w : NameBook) : Prop where
  legacy : ∀ name r, w.byName name = some r →
    ∃ x ∈ w.acceptedFor name, Newest (w.acceptedFor name) x ∧ SameLegacy r x.reg
  pair : ∀ name r, w.byName name = some r → w.pairsFor name ≠ [] →
    ∃ x ∈ w.pairsFor name, Newest (w.pairsFor name) x ∧ some r.pair.lower = x.consumer.map (·.lower)
  noPair : ∀ name r, w.byName name = some r → w.pairsFor name = [] → r.pair = ⟨none, none⟩
  owned : ∀ name r, w.byName name = some r → ∀ x ∈ w.acceptedFor name,
    a.curve.unpackPubkey r.owner = .ok x.pub
  unlocked : ∀ b nowSeconds x r, a.checked b nowSeconds = .ok x → w.byName x.reg.name = some r →
    a.curve.unpackPubkey r.owner = .ok x.pub → x.reg.owner = packPubkey x.pub →
    ∃ record, (a.handleNameRegister b nowSeconds w.byName).1 = .ok record

-- A name is first registered in its owner's own spelling, and a later registration is the newest one
-- or says again what is served.
def InOrder (a : NameAuth) (w : NameBook) (p : NamePost) : Prop :=
  match a.checked p.body p.nowSeconds with
  | .error _ => True
  | .ok x => match w.byName x.reg.name with
    | none => x.reg.owner = packPubkey x.pub
    | some r => r.owner = x.reg.owner →
      (Newest (w.acceptedFor x.reg.name) x ∨ SameLegacy r x.reg) ∧
      (x.consumer = none ∨ Newest (w.pairsFor x.reg.name) x ∨
        some r.pair.lower = x.consumer.map (·.lower))

instance (a : NameAuth) (w : NameBook) (p : NamePost) : Decidable (InOrder a w p) := by
  unfold InOrder
  split
  · exact inferInstanceAs (Decidable True)
  · split <;> infer_instance

namespace NameAuth

variable {a : NameAuth}

theorem authorize_ok {owner : String} {ts : Option ℤ} {sig : String} {messageOf : Point → ℤ → ℕ}
    {nowSeconds : ℕ} {r : Point × ℤ}
    (h : a.authorizeSignedPayload owner ts sig messageOf nowSeconds = .ok r) :
    a.curve.unpackPubkey owner = .ok r.1 := by
  unfold authorizeSignedPayload at h
  repeat' split at h
  all_goals cases h
  assumption

theorem checked_ok {b : NameBody} {nowSeconds : ℕ} {x : Admitted} (h : a.checked b nowSeconds = .ok x) :
    a.curve.unpackPubkey x.reg.owner = .ok x.pub := by
  unfold checked at h
  split at h
  case h_2 => cases h
  obtain ⟨form, -, h⟩ := Outcome.bind_ok.1 h
  split at h
  case h_1 => cases h
  obtain ⟨-, -, h⟩ := Outcome.bind_ok.1 h
  split at h
  · obtain ⟨r, hr, h⟩ := Outcome.bind_ok.1 h
    cases h
    exact authorize_ok hr
  · obtain ⟨-, -, h⟩ := Outcome.bind_ok.1 h
    obtain ⟨r, hr, h⟩ := Outcome.bind_ok.1 h
    cases h
    exact authorize_ok hr

end NameAuth

namespace NameBook

variable {a : NameAuth} {w : NameBook} {p : NamePost} {x : Admitted}

def record (w : NameBook) (x : Admitted) (nowSeconds : ℕ) : NameRecord :=
  NameRegistry.recordOf (w.byName x.reg.name) x.reg nowSeconds x.consumer

def take (w : NameBook) (x : Admitted) (nowSeconds : ℕ) : NameBook :=
  ⟨Function.update w.byName x.reg.name (some (w.record x nowSeconds)), w.accepted ++ [x]⟩

theorem post_cases (a : NameAuth) (w : NameBook) (p : NamePost) :
    w.post a p = w ∨ ∃ x, a.checked p.body p.nowSeconds = .ok x ∧
      (∀ e, w.byName x.reg.name = some e → e.owner = x.reg.owner) ∧ w.post a p = w.take x p.nowSeconds := by
  unfold post NameAuth.handleNameRegister
  cases hchecked : a.checked p.body p.nowSeconds with
  | error e => exact .inl rfl
  | ok x =>
    cases hreg : NameRegistry.register w.byName x.reg p.nowSeconds x.consumer with
    | error e => exact .inl (by simp [hreg])
    | ok record =>
      obtain ⟨howner, rfl⟩ := NameRegistry.register_ok hreg
      exact .inr ⟨x, rfl, howner, by simp [hreg, take, NameBook.record]⟩

theorem acceptedFor_take (name : String) {nowSeconds : ℕ} :
    (w.take x nowSeconds).acceptedFor name =
      w.acceptedFor name ++ if x.reg.name = name then [x] else [] := by
  by_cases h : x.reg.name = name <;> simp [acceptedFor, take, h]

theorem pairsFor_take (name : String) {nowSeconds : ℕ} :
    (w.take x nowSeconds).pairsFor name =
      w.pairsFor name ++ if x.reg.name = name ∧ x.consumer.isSome then [x] else [] := by
  unfold pairsFor
  rw [acceptedFor_take]
  by_cases h : x.reg.name = name <;> by_cases hx : x.consumer.isSome <;> simp [h, hx]

theorem byName_take_self {nowSeconds : ℕ} :
    (w.take x nowSeconds).byName x.reg.name = some (w.record x nowSeconds) := Function.update_self ..

theorem byName_take_of_ne {name : String} {nowSeconds : ℕ} (h : name ≠ x.reg.name) :
    (w.take x nowSeconds).byName name = w.byName name := Function.update_of_ne h _ _

end NameBook

theorem newest_snoc {among : List Admitted} {x : Admitted} (h : Newest among x) :
    Newest (among ++ [x]) x := by
  intro y hy
  rcases List.mem_append.1 hy with hy | hy
  · exact h y hy
  · exact (List.mem_singleton.1 hy ▸ le_refl _)

-- Of the newest so far and one more, one is the newest of all.
theorem newest_or {among : List Admitted} {z : Admitted} (x : Admitted) (h : Newest among z) :
    Newest (among ++ [x]) z ∨ Newest among x := by
  rcases le_total x.ts z.ts with hxz | hzx
  · left
    intro y hy
    rcases List.mem_append.1 hy with hy | hy
    · exact h y hy
    · exact List.mem_singleton.1 hy ▸ hxz
  · exact .inr fun y hy => (h y hy).trans hzx

-- The law, and every held name in its owner's own spelling.
structure Kept (a : NameAuth) (w : NameBook) : Prop where
  legacy : ∀ name r, w.byName name = some r →
    ∃ x ∈ w.acceptedFor name, Newest (w.acceptedFor name) x ∧ SameLegacy r x.reg
  pair : ∀ name r, w.byName name = some r → w.pairsFor name ≠ [] →
    ∃ x ∈ w.pairsFor name, Newest (w.pairsFor name) x ∧ some r.pair.lower = x.consumer.map (·.lower)
  noPair : ∀ name r, w.byName name = some r → w.pairsFor name = [] → r.pair = ⟨none, none⟩
  owned : ∀ name r, w.byName name = some r → ∀ x ∈ w.acceptedFor name,
    a.curve.unpackPubkey r.owner = .ok x.pub
  packed : ∀ name r, w.byName name = some r →
    ∃ pub, a.curve.unpackPubkey r.owner = .ok pub ∧ r.owner = packPubkey pub
  free : ∀ name, w.byName name = none → w.acceptedFor name = []

namespace Kept

variable {a : NameAuth} {w : NameBook} {x : Admitted} {nowSeconds : ℕ}

theorem empty : Kept a NameBook.empty where
  legacy _ _ h := absurd h (by simp [NameBook.empty])
  pair _ _ h := absurd h (by simp [NameBook.empty])
  noPair _ _ h := absurd h (by simp [NameBook.empty])
  owned _ _ h := absurd h (by simp [NameBook.empty])
  packed _ _ h := absurd h (by simp [NameBook.empty])
  free _ _ := rfl

theorem pairsFor_free (h : Kept a w) {name : String} (hfree : w.byName name = none) :
    w.pairsFor name = [] := by
  simp [NameBook.pairsFor, h.free name hfree]

theorem take_legacy (h : Kept a w)
    (hnewest : ∀ r, w.byName x.reg.name = some r →
      Newest (w.acceptedFor x.reg.name) x ∨ SameLegacy r x.reg) :
    ∃ y ∈ w.acceptedFor x.reg.name ++ [x], Newest (w.acceptedFor x.reg.name ++ [x]) y ∧
      SameLegacy (w.record x nowSeconds) y.reg := by
  have hx : SameLegacy (w.record x nowSeconds) x.reg := ⟨rfl, rfl⟩
  have hown : Newest (w.acceptedFor x.reg.name) x → ∃ y ∈ w.acceptedFor x.reg.name ++ [x],
      Newest (w.acceptedFor x.reg.name ++ [x]) y ∧ SameLegacy (w.record x nowSeconds) y.reg :=
    fun hn => ⟨x, by simp, newest_snoc hn, hx⟩
  cases hr : w.byName x.reg.name with
  | none => exact hown (by simp [Newest, h.free _ hr])
  | some r =>
    rcases hnewest r hr with hn | hsame
    · exact hown hn
    · obtain ⟨z, hz, hzn, hzr⟩ := h.legacy _ r hr
      rcases newest_or x hzn with hzn | hn
      · exact ⟨z, List.mem_append_left _ hz, hzn, hsame.1.symm.trans hzr.1, hsame.2.symm.trans hzr.2⟩
      · exact hown hn

theorem take_pair (h : Kept a w) {c : ConsumerTripleWrite} (hc : x.consumer = some c)
    (hnewest : ∀ r, w.byName x.reg.name = some r →
      Newest (w.pairsFor x.reg.name) x ∨ some r.pair.lower = x.consumer.map (·.lower)) :
    ∃ y ∈ w.pairsFor x.reg.name ++ [x], Newest (w.pairsFor x.reg.name ++ [x]) y ∧
      some (w.record x nowSeconds).pair.lower = y.consumer.map (·.lower) := by
  have hx : some (w.record x nowSeconds).pair.lower = x.consumer.map (·.lower) := by
    simp [NameBook.record, NameRegistry.recordOf, hc]
  have hown : Newest (w.pairsFor x.reg.name) x → ∃ y ∈ w.pairsFor x.reg.name ++ [x],
      Newest (w.pairsFor x.reg.name ++ [x]) y ∧
      some (w.record x nowSeconds).pair.lower = y.consumer.map (·.lower) :=
    fun hn => ⟨x, by simp, newest_snoc hn, hx⟩
  by_cases hnil : w.pairsFor x.reg.name = []
  · exact hown (by simp [Newest, hnil])
  · cases hr : w.byName x.reg.name with
    | none => exact absurd (h.pairsFor_free hr) hnil
    | some r =>
      rcases hnewest r hr with hn | hsame
      · exact hown hn
      · obtain ⟨z, hz, hzn, hzr⟩ := h.pair _ r hr hnil
        rcases newest_or x hzn with hzn | hn
        · exact ⟨z, List.mem_append_left _ hz, hzn, hx.trans (hsame.symm.trans hzr)⟩
        · exact hown hn

-- A v1 registration keeps the pair it finds.
theorem record_pair_v1 (hv1 : x.consumer = none) :
    (w.record x nowSeconds).pair = ((w.byName x.reg.name).map (·.pair)).getD ⟨none, none⟩ := by
  simp [NameBook.record, NameRegistry.recordOf, hv1]

theorem take (h : Kept a w) (hpub : a.curve.unpackPubkey x.reg.owner = .ok x.pub)
    (howner : ∀ r, w.byName x.reg.name = some r → r.owner = x.reg.owner)
    (hfirst : w.byName x.reg.name = none → x.reg.owner = packPubkey x.pub)
    (hlegacy : ∀ r, w.byName x.reg.name = some r →
      Newest (w.acceptedFor x.reg.name) x ∨ SameLegacy r x.reg)
    (hpair : ∀ r, w.byName x.reg.name = some r → x.consumer = none ∨
      Newest (w.pairsFor x.reg.name) x ∨ some r.pair.lower = x.consumer.map (·.lower)) :
    Kept a (w.take x nowSeconds) := by
  have hother : ∀ name, name ≠ x.reg.name →
      (w.take x nowSeconds).byName name = w.byName name ∧
      (w.take x nowSeconds).acceptedFor name = w.acceptedFor name ∧
      (w.take x nowSeconds).pairsFor name = w.pairsFor name := by
    intro name hne
    refine ⟨NameBook.byName_take_of_ne hne, ?_, ?_⟩
    · simp [NameBook.acceptedFor_take, Ne.symm hne]
    · simp [NameBook.pairsFor_take, Ne.symm hne]
  have hself : (w.take x nowSeconds).byName x.reg.name = some (w.record x nowSeconds) :=
    NameBook.byName_take_self
  have hmine : (w.take x nowSeconds).acceptedFor x.reg.name = w.acceptedFor x.reg.name ++ [x] := by
    simp [NameBook.acceptedFor_take]
  constructor
  case legacy =>
    intro name r hr
    by_cases hname : name = x.reg.name
    · subst hname
      rw [hmine, ← Option.some.inj (hself.symm.trans hr)]
      exact h.take_legacy hlegacy
    · rw [(hother name hname).2.1]
      exact h.legacy name r ((hother name hname).1 ▸ hr)
  case pair =>
    intro name r hr hne
    by_cases hname : name = x.reg.name
    · subst hname
      rw [← Option.some.inj (hself.symm.trans hr)]
      rw [NameBook.pairsFor_take] at hne ⊢
      cases hc : x.consumer with
      | some c =>
        simp only [Option.isSome_some, and_self, if_true]
        refine h.take_pair hc fun r hr => ?_
        rcases hpair r hr with hv1 | hrest
        · exact absurd hv1 (by simp [hc])
        · exact hrest
      | none =>
        simp only [hc, Option.isSome_none, and_false, if_false, Bool.false_eq_true, List.append_nil] at hne ⊢
        cases hold : w.byName x.reg.name with
        | none => exact absurd (h.pairsFor_free hold) hne
        | some e =>
          rw [record_pair_v1 hc, hold]
          exact h.pair _ e hold hne
    · rw [(hother name hname).2.2] at hne ⊢
      exact h.pair name r ((hother name hname).1 ▸ hr) hne
  case noPair =>
    intro name r hr hnil
    by_cases hname : name = x.reg.name
    · subst hname
      rw [← Option.some.inj (hself.symm.trans hr)]
      rw [NameBook.pairsFor_take] at hnil
      have hv1 : x.consumer = none := by
        by_contra hc
        have hsome := Option.isSome_iff_ne_none.2 hc
        simp [hsome] at hnil
      rw [record_pair_v1 hv1]
      cases hold : w.byName x.reg.name with
      | none => rfl
      | some e => exact h.noPair _ e hold (List.append_eq_nil_iff.1 hnil).1
    · exact h.noPair name r ((hother name hname).1 ▸ hr) ((hother name hname).2.2 ▸ hnil)
  case owned =>
    intro name r hr y hy
    by_cases hname : name = x.reg.name
    · subst hname
      rw [← Option.some.inj (hself.symm.trans hr)]
      rw [hmine] at hy
      rcases List.mem_append.1 hy with hy | hy
      · cases hold : w.byName x.reg.name with
        | none => simp [h.free _ hold] at hy
        | some e =>
          have hsame : a.curve.unpackPubkey x.reg.owner = a.curve.unpackPubkey e.owner := by
            rw [howner e hold]
          exact hsame.trans (h.owned _ e hold y hy)
      · exact List.mem_singleton.1 hy ▸ hpub
    · exact h.owned name r ((hother name hname).1 ▸ hr) y ((hother name hname).2.1 ▸ hy)
  case packed =>
    intro name r hr
    by_cases hname : name = x.reg.name
    · subst hname
      rw [← Option.some.inj (hself.symm.trans hr)]
      cases hold : w.byName x.reg.name with
      | none => exact ⟨x.pub, hpub, hfirst hold⟩
      | some e =>
        obtain ⟨pub, hunpack, hpack⟩ := h.packed _ e hold
        rw [howner e hold] at hunpack hpack
        exact ⟨pub, hunpack, hpack⟩
    · exact h.packed name r ((hother name hname).1 ▸ hr)
  case free =>
    intro name hnone
    by_cases hname : name = x.reg.name
    · subst hname
      exact absurd (hself.symm.trans hnone) (by simp)
    · rw [(hother name hname).2.1]
      exact h.free name ((hother name hname).1 ▸ hnone)

theorem post (w : NameBook) (p : NamePost) (h : Kept a w) (horder : InOrder a w p) :
    Kept a (w.post a p) := by
  rcases NameBook.post_cases a w p with hsame | ⟨x, hchecked, howner, htake⟩
  · rwa [hsame]
  · rw [htake]
    unfold InOrder at horder
    rw [hchecked] at horder
    refine h.take (NameAuth.checked_ok hchecked) howner (fun hnone => ?_) (fun r hr => ?_) fun r hr => ?_
    · simpa [hnone] using horder
    · simp only [hr] at horder
      exact (horder (howner r hr)).1
    · simp only [hr] at horder
      exact (horder (howner r hr)).2

theorem unrolled (h : Kept a w) : Unrolled a w where
  legacy := h.legacy
  pair := h.pair
  noPair := h.noPair
  owned := h.owned
  unlocked b now x r hchecked hr hpub hpacked := by
    obtain ⟨pub, hunpack, hspelled⟩ := h.packed _ r hr
    have hown : r.owner = x.reg.owner := by
      rw [hspelled, hpacked, Except.ok.inj (hunpack.symm.trans hpub)]
    simp [NameAuth.handleNameRegister, hchecked, NameRegistry.register, hr, hown]

end Kept

theorem names_never_rolled_back (a : NameAuth) (posts : List NamePost)
    (h : Trace.Throughout (NameBook.post a) (InOrder a) .empty posts) :
    Unrolled a (posts.foldl (NameBook.post a) .empty) :=
  (Trace.inv_run Kept.post Kept.empty h).unrolled

-- A curve of one key, whose signatures verify.
def plainCurve : Curve where
  base8 := (5299619240641551281634865583518297030282874472190772894086521144482721001553,
    16950150798460657717958625567821834550301663161624707787222815936182638968203)
  addPoint _ _ := identityPoint
  mulPointEscalar _ _ := identityPoint
  xRoot y := if y = 16950150798460657717958625567821834550301663161624707787222815936182638968203 then
    some 5299619240641551281634865583518297030282874472190772894086521144482721001553 else none

def plainAuth : NameAuth := ⟨plainCurve, List.sum, String.length, fun bytes => bytes ≠ [], fun _ => true⟩

def plainKey : String := packPubkey plainCurve.base8

def plainSig : String :=
  "0x" ++ String.ofList (List.replicate 127 '0' ++ ['1'] ++ List.replicate 64 '0')

def aliceBody (spendPub : String) (ts : ℤ) : NameBody :=
  ⟨.text " Alice", .text plainKey, .text plainKey, .text spendPub, .absent, .absent, .number (some ts),
    .text plainSig⟩

theorem names_never_rolled_back_sample :
    Unrolled plainAuth ([⟨aliceBody "0x02" 100, 100⟩, ⟨aliceBody "0x03" 150, 151⟩].foldl
      (NameBook.post plainAuth) .empty) :=
  names_never_rolled_back plainAuth _ (by decide +kernel)

-- The first body once more, after the second.
def replayedPosts : List NamePost :=
  [⟨aliceBody "0x02" 100, 100⟩, ⟨aliceBody "0x03" 150, 151⟩, ⟨aliceBody "0x02" 100, 200⟩]

theorem names_rolled_back :
    ¬ ∀ (a : NameAuth) (posts : List NamePost), Unrolled a (posts.foldl (NameBook.post a) .empty) := by
  intro h
  have hserved : ((replayedPosts.foldl (NameBook.post plainAuth) .empty).byName "alice").map (·.spendPub) =
      some "0x02" := by decide +kernel
  obtain ⟨r, hr, hspend⟩ := Option.map_eq_some_iff.1 hserved
  obtain ⟨x, hx, hnewest, hsame⟩ := (h plainAuth replayedPosts).legacy _ r hr
  have hnew : ∀ x ∈ (replayedPosts.foldl (NameBook.post plainAuth) .empty).acceptedFor "alice",
      Newest ((replayedPosts.foldl (NameBook.post plainAuth) .empty).acceptedFor "alice") x →
      toLowerCase x.reg.spendPub ≠ toLowerCase "0x02" := by decide +kernel
  exact hnew x hx hnewest (hspend ▸ hsame.2.symm)

end Bongtu.Indexer
