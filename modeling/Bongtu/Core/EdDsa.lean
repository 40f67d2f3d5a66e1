import Bongtu.Core.PointText
import Bongtu.Outcome

namespace Bongtu.Core.BabyJub

open Outcome

def isIdentity (q : BigPoint) : Bool := q.1 = identity.1 ∧ q.2 = identity.2

structure BigSignature where
  r8 : BigPoint
  s : ℤ
deriving DecidableEq, Repr

def modL (x : ℤ) : ℤ :=
  let r := x.tmod subgroupOrder
  if r < 0 then r + subgroupOrder else r

section Sign

variable (poseidonN : List ℤ → ℕ)

def signNotesAuth (privateKey msg : ℤ) : Except String BigSignature := do
  let pub ← mulPointEscalar base8 privateKey
  let r := modL (poseidonN [privateKey, msg])
  let r8 ← mulPointEscalar base8 r
  let h : ℤ := poseidonN [r8.1, r8.2, pub.1, pub.2, msg]
  return ⟨r8, modL (r + h * privateKey)⟩

def verifyNotesAuth (pubkey : BigPoint) (msg : ℤ) (sig : BigSignature) : Except String Bool := do
  if ! isOnCurve pubkey || ! isOnCurve sig.r8 then return false
  if sig.s < 0 ∨ sig.s ≥ subgroupOrder then return false
  if isIdentity pubkey then return false
  let low ← mulPointEscalar pubkey subgroupOrder
  if ! isIdentity low then return false
  let h : ℤ := poseidonN [sig.r8.1, sig.r8.2, pubkey.1, pubkey.2, msg]
  let lhs ← mulPointEscalar base8 sig.s
  let shared ← mulPointEscalar pubkey h
  let rhs := addPoint sig.r8 shared
  return lhs.1 = rhs.1 ∧ lhs.2 = rhs.2

end Sign

def toHex32 (x : ℤ) : Except String (List Char) :=
  if x < 0 then .error "packSignature: negative field element"
  else
    let h := bigIntText 16 x
    if h.length > 64 then .error "packSignature: field element exceeds 32 bytes"
    else .ok (padStart 64 '0' h)

def packSignature (sig : BigSignature) : Except String String := do
  let x ← toHex32 sig.r8.1
  let y ← toHex32 sig.r8.2
  let s ← toHex32 sig.s
  return "0x" ++ String.ofList (x ++ y ++ s)

section Scalars

theorem modL_eq (x : ℤ) : modL x = x % subgroupOrder := tmod_lift (by decide) x

theorem modL_nonneg (x : ℤ) : 0 ≤ modL x := by
  rw [modL_eq]
  exact Int.emod_nonneg x (by decide)

theorem modL_lt (x : ℤ) : modL x < subgroupOrder := by
  rw [modL_eq]
  exact Int.emod_lt_of_pos x (by decide)

end Scalars

section Verify

variable {poseidonN : List ℤ → ℕ} {pubkey : BigPoint} {msg : ℤ} {sig : BigSignature}

-- The equation of an accepted signature, on points.
structure Accepted (poseidonN : List ℤ → ℕ) (pubkey : BigPoint) (msg : ℤ) (sig : BigSignature)
    (pub r : Edwards.Point curve) : Prop where
  key : Denotes pubkey pub
  nonce : Denotes sig.r8 r
  nonneg : 0 ≤ sig.s
  lt : sig.s < subgroupOrder
  notIdentity : pubkey ≠ identity
  order : subgroupOrder • pub = 0
  equation : sig.s.toNat • basePoint =
    r + poseidonN [sig.r8.1, sig.r8.2, pubkey.1, pubkey.2, msg] • pub

theorem isIdentity_iff {q : BigPoint} : isIdentity q ↔ q = identity := by
  simp [isIdentity, Prod.ext_iff]

theorem mulPointEscalar_ofNonneg {q : BigPoint} {p : Edwards.Point curve} (h : Denotes q p) {n : ℤ} (hn : 0 ≤ n) :
    ∃ r, mulPointEscalar q n = .ok r ∧ Denotes r (n.toNat • p) ∧ Reduced r := by
  have hcast := mulPointEscalar_denotes h n.toNat
  rwa [Int.toNat_of_nonneg hn] at hcast

-- A reduced point is the identity when it denotes it.
theorem isIdentity_of_denotes {q : BigPoint} {p : Edwards.Point curve} (h : Denotes q p) (hq : Reduced q) :
    isIdentity q ↔ p = 0 := by
  rw [isIdentity_iff]
  exact ⟨fun heq => h.unique (heq ▸ denotes_identity), fun heq => h.coords (heq ▸ denotes_identity) hq reduced_identity⟩

-- Verification never throws, and accepts what meets the equation.
theorem verifyNotesAuth_returns (poseidonN : List ℤ → ℕ) (pubkey : BigPoint) (msg : ℤ) (sig : BigSignature) :
    ∃ out, verifyNotesAuth poseidonN pubkey msg sig = .ok out ∧
      (out = true ↔ ∃ pub r, Accepted poseidonN pubkey msg sig pub r) := by
  unfold verifyNotesAuth
  split
  · next hcurve =>
    refine ⟨false, rfl, by simp, fun ⟨pub, r, h⟩ => ?_⟩
    rw [isOnCurve_iff.2 ⟨_, h.key⟩, isOnCurve_iff.2 ⟨_, h.nonce⟩] at hcurve
    exact absurd hcurve (by decide)
  · next hcurve =>
    simp only [Bool.or_eq_true, Bool.not_eq_true', not_or, Bool.not_eq_false] at hcurve
    obtain ⟨pub, hpub⟩ := isOnCurve_iff.1 hcurve.1
    obtain ⟨r, hr⟩ := isOnCurve_iff.1 hcurve.2
    have hunique : ∀ {pub' r'}, Accepted poseidonN pubkey msg sig pub' r' → pub' = pub ∧ r' = r := fun h =>
      ⟨h.key.unique hpub, h.nonce.unique hr⟩
    split
    · next hs => exact ⟨false, rfl, by simp, fun ⟨_, _, h⟩ => absurd hs (by have := h.nonneg; have := h.lt; omega)⟩
    · next hs =>
      push Not at hs
      split
      · next hid => exact ⟨false, rfl, by simp, fun ⟨_, _, h⟩ => absurd (isIdentity_iff.1 hid) h.notIdentity⟩
      · next hid =>
        obtain ⟨low, hlow, hdenotes, hreduced⟩ := mulPointEscalar_denotes hpub subgroupOrder
        have hzero := isIdentity_of_denotes hdenotes hreduced
        rw [hlow]
        simp only [bind, Except.bind]
        split
        · next horder =>
          refine ⟨false, rfl, by simp, fun ⟨_, _, h⟩ => ?_⟩
          obtain ⟨rfl, rfl⟩ := hunique h
          rw [hzero.2 h.order] at horder
          exact absurd horder (by decide)
        · next horder =>
          simp only [Bool.not_eq_true', Bool.not_eq_false] at horder
          generalize hh : poseidonN [sig.r8.1, sig.r8.2, pubkey.1, pubkey.2, msg] = h
          obtain ⟨lhs, hlhs, hl, hlreduced⟩ := mulPointEscalar_ofNonneg denotes_base8 hs.1
          obtain ⟨shared, hshared, hsd, -⟩ := mulPointEscalar_denotes hpub h
          have hsum := hr.add hsd
          rw [hlhs, hshared]
          refine ⟨_, rfl, ?_⟩
          rw [decide_eq_true_eq, ← Prod.ext_iff]
          constructor
          · intro heq
            refine ⟨pub, r, hpub, hr, hs.1, hs.2, fun hidentity => hid (isIdentity_iff.2 hidentity), hzero.1 horder, ?_⟩
            rw [hh]
            exact hl.unique (heq ▸ hsum)
          · rintro ⟨_, _, h'⟩
            obtain ⟨rfl, rfl⟩ := hunique h'
            have hequation := h'.equation
            rw [hh] at hequation
            exact hl.coords (hequation ▸ hsum) hlreduced (reduced_addPoint _ _)

-- What an accepted signature binds: the nonce and the key are of the subgroup, the scalar is the only one.
theorem Accepted.nonce_mem {pub r : Edwards.Point curve} (h : Accepted poseidonN pubkey msg sig pub r) :
    r ∈ AddSubgroup.zmultiples basePoint := by
  have hr : r = sig.s.toNat • basePoint - poseidonN [sig.r8.1, sig.r8.2, pubkey.1, pubkey.2, msg] • pub :=
    eq_sub_of_add_eq h.equation.symm
  rw [hr]
  exact sub_mem (AddSubgroup.nsmul_mem _ (AddSubgroup.mem_zmultiples _) _)
    (AddSubgroup.nsmul_mem _ (mem_subgroup_iff.2 h.order) _)

theorem nsmul_base_inj {m n : ℕ} (hm : m < subgroupOrder) (hn : n < subgroupOrder)
    (h : m • basePoint = n • basePoint) : m = n := by
  rw [nsmul_eq_nsmul_iff_modEq, addOrderOf_basePoint, Nat.ModEq, Nat.mod_eq_of_lt hm, Nat.mod_eq_of_lt hn] at h
  exact h

theorem Accepted.scalar_unique {pub r pub' r' : Edwards.Point curve} {s' : ℤ}
    (h : Accepted poseidonN pubkey msg sig pub r)
    (h' : Accepted poseidonN pubkey msg { sig with s := s' } pub' r') : s' = sig.s := by
  obtain rfl := h.key.unique h'.key
  obtain rfl : r = r' := h.nonce.unique h'.nonce
  have hlt := h.lt
  have hlt' : s' < subgroupOrder := h'.lt
  have hnonneg := h.nonneg
  have hnonneg' : 0 ≤ s' := h'.nonneg
  have heq : s'.toNat = sig.s.toNat := nsmul_base_inj (by omega) (by omega) (h'.equation.trans h.equation.symm)
  omega

end Verify

section Honest

variable (poseidonN : List ℤ → ℕ) {s : ℤ}

-- A signature of the key of a scalar is accepted.
theorem verify_sign (hs : 0 < s) (hlt : s < subgroupOrder) (m : ℤ) : ∃ pub sig,
    mulPointEscalar base8 s = .ok pub ∧ signNotesAuth poseidonN s m = .ok sig ∧
      verifyNotesAuth poseidonN pub m sig = .ok true ∧ Reduced sig.r8 ∧ 0 ≤ sig.s ∧ sig.s < subgroupOrder := by
  obtain ⟨pub, hpub, hdenotes, hreduced⟩ := mulPointEscalar_ofNonneg denotes_base8 hs.le
  obtain ⟨r8, hr8, hrd, hrreduced⟩ := mulPointEscalar_ofNonneg denotes_base8 (modL_nonneg (poseidonN [s, m]))
  generalize hr : modL (poseidonN [s, m]) = r at *
  have hrpos : 0 ≤ r := hr ▸ modL_nonneg _
  let h := poseidonN [r8.1, r8.2, pub.1, pub.2, m]
  let sig : BigSignature := ⟨r8, modL (r + h * s)⟩
  have hsign : signNotesAuth poseidonN s m = .ok sig := by
    rw [signNotesAuth, hpub]
    simp only [bind, Except.bind, hr, hr8]
    rfl
  have hne : pub ≠ identity := by
    intro heq
    have hzero : s.toNat • basePoint = 0 • basePoint := by
      rw [zero_nsmul]
      exact hdenotes.unique (heq ▸ denotes_identity)
    have := nsmul_base_inj (by omega) (by decide) hzero
    omega
  have horder : subgroupOrder • s.toNat • basePoint = 0 := by rw [nsmul_left_comm, subgroupOrder_nsmul, nsmul_zero]
  have hequation : (modL (r + h * s)).toNat • basePoint = r.toNat • basePoint + h • s.toNat • basePoint := by
    rw [← mul_nsmul', ← add_nsmul, nsmul_eq_nsmul_iff_modEq, addOrderOf_basePoint, ← Int.natCast_modEq_iff]
    push_cast
    rw [Int.toNat_of_nonneg (modL_nonneg _), Int.toNat_of_nonneg hrpos, Int.toNat_of_nonneg hs.le, modL_eq]
    exact Int.mod_modEq _ _
  have haccepted : Accepted poseidonN pub m sig (s.toNat • basePoint) (r.toNat • basePoint) :=
    ⟨hdenotes, hrd, modL_nonneg _, modL_lt _, hne, horder, hequation⟩
  obtain ⟨out, hout, hiff⟩ := verifyNotesAuth_returns poseidonN pub m sig
  rw [hiff.2 ⟨_, _, haccepted⟩] at hout
  exact ⟨pub, sig, hpub, hsign, hout, hrreduced, modL_nonneg _, modL_lt _⟩

end Honest

section Wire

theorem hexNumber_eq {cs : List Char} (hne : cs ≠ []) : hexNumber cs = numberOf 16 cs := by
  have hdigit : digitBelow 16 = hexDigit := by
    funext c
    cases hc : hexDigit c with
    | none => simp [digitBelow, hc]
    | some n => simp [digitBelow, hc, (hexDigit_some hc).1]
  cases cs with
  | nil => exact absurd rfl hne
  | cons c cs =>
    rw [numberOf, hdigit, hexNumber]
    cases (c :: cs).mapM hexDigit <;> rfl

theorem length_numeral_le {n k : ℕ} (hk : 0 < k) (h : n < 16 ^ k) : (numeral 16 n).length ≤ k := by
  unfold numeral
  split
  · exact hk
  · rw [List.length_reverse, List.length_map]
    exact (Nat.digits_length_le_iff (by omega) _).2 h

theorem toHex32_ok {x : ℤ} (hx : 0 ≤ x) (hlt : x < 2 ^ 256) :
    ∃ cs, toHex32 x = .ok cs ∧ cs.length = 64 ∧ hexNumber cs = some x.toNat := by
  have habs : x.natAbs = x.toNat := by omega
  have hlen : (numeral 16 x.toNat).length ≤ 64 := by
    refine length_numeral_le (by omega) ?_
    have hpow : (16 : ℕ) ^ 64 = 2 ^ 256 := by decide
    rw [hpow]
    omega
  have htext : bigIntText 16 x = numeral 16 x.toNat := by rw [bigIntText, if_neg (by omega), habs]
  have hcount : (padStart 64 '0' (numeral 16 x.toNat)).length = 64 := by
    rw [padStart, List.length_append, List.length_replicate]
    omega
  refine ⟨padStart 64 '0' (numeral 16 x.toNat), ?_, hcount, ?_⟩
  · rw [toHex32, if_neg (by omega), htext]
    exact if_neg (by omega)
  · rw [hexNumber_eq (List.length_pos_iff.1 (by omega)), numberOf_padStart (by omega) (by omega)]

-- A reduced signature reads back from its text.
theorem parse_pack {sig : BigSignature} (hr8 : Reduced sig.r8) (hs : 0 ≤ sig.s) (hlt : sig.s < subgroupOrder) :
    ∃ text parsed, packSignature sig = .ok text ∧ parseSignature text = .ok parsed ∧
      toBig parsed.r8 = sig.r8 ∧ (parsed.s : ℤ) = sig.s := by
  have hP : (snarkScalarField : ℤ) < 2 ^ 256 := by decide
  have hL : (subgroupOrder : ℤ) < 2 ^ 256 := by decide
  obtain ⟨⟨hx, hxlt⟩, hy, hylt⟩ := hr8
  obtain ⟨xs, hxs, hxlen, hxnum⟩ := toHex32_ok hx (by omega)
  obtain ⟨ys, hys, hylen, hynum⟩ := toHex32_ok hy (by omega)
  obtain ⟨ss, hss, hslen, hsnum⟩ := toHex32_ok hs (by omega)
  have hstrip : strip0x ("0x" ++ String.ofList (xs ++ ys ++ ss)) = xs ++ ys ++ ss := by
    have hlist : ("0x" ++ String.ofList (xs ++ ys ++ ss)).toList = '0' :: 'x' :: (xs ++ ys ++ ss) := by simp
    simp only [strip0x, hlist]
  have htakex : (xs ++ ys ++ ss).take 64 = xs := by rw [List.append_assoc, ← hxlen, List.take_left]
  have htakey : ((xs ++ ys ++ ss).drop 64).take 64 = ys := by
    rw [List.append_assoc, ← hxlen, List.drop_left, hxlen, ← hylen, List.take_left]
  have hdrops : (xs ++ ys ++ ss).drop 128 = ss := by
    have hlen : (xs ++ ys).length = 128 := by rw [List.length_append, hxlen, hylen]
    rw [← hlen, List.drop_left]
  refine ⟨"0x" ++ String.ofList (xs ++ ys ++ ss), ⟨(sig.r8.1.toNat, sig.r8.2.toNat), sig.s.toNat⟩, ?_, ?_, ?_, ?_⟩
  · rw [packSignature, hxs, hys, hss]
    rfl
  · simp only [parseSignature, hstrip, htakex, htakey, hdrops, hxnum, hynum, hsnum]
    rw [if_neg (by simp [hxlen, hylen, hslen]), if_neg (by omega)]
  · rw [toBig, Int.toNat_of_nonneg hx, Int.toNat_of_nonneg hy]
  · exact Int.toNat_of_nonneg hs

end Wire

-- What an accepted signature should bind.
structure Binds (poseidonN : List ℤ → ℕ) (pubkey : BigPoint) (msg : ℤ) (sig : BigSignature) : Prop where
  nonce : ∃ r, Denotes sig.r8 r ∧ r ∈ AddSubgroup.zmultiples basePoint
  scalar : ∀ s', 0 ≤ s' → s' < subgroupOrder →
    verifyNotesAuth poseidonN pubkey msg { sig with s := s' } = .ok true → s' = sig.s
  key : ∃ pub, Denotes pubkey pub ∧ pub ∈ AddSubgroup.zmultiples basePoint ∧ pub ≠ 0

-- The identity in coordinates other than its own, and a nonce the scalar makes with no key.
structure Keyless (pubkey : BigPoint) (sig : BigSignature) : Prop where
  identity : Denotes pubkey 0
  unreduced : pubkey ≠ BabyJub.identity
  nonneg : 0 ≤ sig.s
  lt : sig.s < subgroupOrder
  nonce : Denotes sig.r8 (sig.s.toNat • basePoint)

theorem verified_iff {poseidonN : List ℤ → ℕ} {pubkey : BigPoint} {msg : ℤ} {sig : BigSignature} :
    verifyNotesAuth poseidonN pubkey msg sig = .ok true ↔ ∃ pub r, Accepted poseidonN pubkey msg sig pub r := by
  obtain ⟨out, hout, hiff⟩ := verifyNotesAuth_returns poseidonN pubkey msg sig
  rw [hout, ← hiff]
  exact ⟨Except.ok.inj, fun h => by rw [h]⟩

theorem Keyless.accepted {pubkey : BigPoint} {sig : BigSignature} (h : Keyless pubkey sig) (poseidonN : List ℤ → ℕ)
    (msg : ℤ) : verifyNotesAuth poseidonN pubkey msg sig = .ok true ∧ ¬ Binds poseidonN pubkey msg sig := by
  have haccepted : Accepted poseidonN pubkey msg sig 0 (sig.s.toNat • basePoint) :=
    ⟨h.identity, h.nonce, h.nonneg, h.lt, h.unreduced, nsmul_zero _, by rw [nsmul_zero, add_zero]⟩
  refine ⟨verified_iff.2 ⟨_, _, haccepted⟩, fun hbinds => ?_⟩
  obtain ⟨pub, hpub, -, hne⟩ := hbinds.key
  exact hne (hpub.unique h.identity)

theorem binds_iff (poseidonN : List ℤ → ℕ) (pubkey : BigPoint) (msg : ℤ) (sig : BigSignature) :
    (verifyNotesAuth poseidonN pubkey msg sig = .ok true → Binds poseidonN pubkey msg sig) ↔ ¬ Keyless pubkey sig := by
  constructor
  · intro hbinds hkeyless
    obtain ⟨hverify, hnot⟩ := hkeyless.accepted poseidonN msg
    exact hnot (hbinds hverify)
  · intro hkeyless hverify
    obtain ⟨pub, r, h⟩ := verified_iff.1 hverify
    refine ⟨⟨r, h.nonce, h.nonce_mem⟩, fun s' _ _ hverify' => ?_, pub, h.key, mem_subgroup_iff.2 h.order, ?_⟩
    · obtain ⟨pub', r', h'⟩ := verified_iff.1 hverify'
      exact h.scalar_unique h'
    · rintro rfl
      have hequation := h.equation
      rw [nsmul_zero, add_zero] at hequation
      exact hkeyless ⟨h.key, h.notIdentity, h.nonneg, h.lt, hequation ▸ h.nonce⟩

-- A signature made is accepted and reads back, no verification throws, and one accepted binds nonce,
-- scalar and key unless it is keyless.
-- The identity as [P, 1] with the base point for a nonce and the scalar 1, under any hash.
end Bongtu.Core.BabyJub
