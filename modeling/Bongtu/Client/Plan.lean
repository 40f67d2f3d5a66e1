import Bongtu.Core.Disclosure

namespace Bongtu.Client

open Bongtu.Core Outcome

-- A recipient's spend key, view key and encapsulation key, with the packed points opened.
structure ConsumerRecipient where
  owner : Point
  noteViewPub : Point
  kemEk : Bytes
deriving DecidableEq, Repr

structure ConsumerOutputSpec where
  recipient : ConsumerRecipient
  value : ℕ
  salt : ℕ
deriving DecidableEq, Repr

structure PlannedConsumerOutput where
  value : ℕ
  salt : ℕ
  spendPub : Point
  viewPub : Point
  sealed : Primitives.SealedConsumerOutput
  commitment : ℕ
deriving DecidableEq

structure ConsumerCrypto where
  ecdhPrivateKey : ℕ
  encryptionNonce : ℕ
  encapSeed : ℕ → Bytes

variable (p : Primitives)

def planConsumerOutput (crypto : ConsumerCrypto) (spec : ConsumerOutputSpec) (i : ℕ) :
    Except NoteError PlannedConsumerOutput := do
  let sealed ← p.sealConsumerOutput spec.value spec.salt crypto.ecdhPrivateKey
    spec.recipient.noteViewPub spec.recipient.kemEk crypto.encryptionNonce i (crypto.encapSeed i)
  return ⟨spec.value, spec.salt, spec.recipient.owner, spec.recipient.noteViewPub, sealed,
    p.commitment spec.value spec.salt spec.recipient.owner⟩

def planConsumerOutputs (crypto : ConsumerCrypto) (specs : List ConsumerOutputSpec) :
    Except NoteError (List PlannedConsumerOutput) :=
  specs.zipIdx.mapM fun spec => planConsumerOutput p crypto spec.1 spec.2

variable {p} {crypto : ConsumerCrypto} {specs : List ConsumerOutputSpec}
  {outs : List PlannedConsumerOutput}

theorem planConsumerOutput_ok {spec : ConsumerOutputSpec} {i : ℕ} {out : PlannedConsumerOutput}
    (h : planConsumerOutput p crypto spec i = .ok out) :
    p.sealConsumerOutput spec.value spec.salt crypto.ecdhPrivateKey spec.recipient.noteViewPub
      spec.recipient.kemEk crypto.encryptionNonce i (crypto.encapSeed i) = .ok out.sealed ∧
    out.value = spec.value ∧ out.salt = spec.salt ∧ out.spendPub = spec.recipient.owner ∧
    out.commitment = p.commitment spec.value spec.salt spec.recipient.owner := by
  simp only [planConsumerOutput, bind_ok] at h
  obtain ⟨sealed, hsealed, hout⟩ := h
  cases hout
  exact ⟨hsealed, rfl, rfl, rfl, rfl⟩

theorem planConsumerOutputs_ok (h : planConsumerOutputs p crypto specs = .ok outs)
    {out : PlannedConsumerOutput} {i : ℕ} (hout : (out, i) ∈ outs.zipIdx) :
    ∃ spec ∈ specs, planConsumerOutput p crypto spec i = .ok out := by
  obtain ⟨hlen, hget⟩ := List.forall₂_iff_get.mp (mapM_ok h)
  have hi := List.mem_zipIdx_iff_getElem?.mp hout
  obtain ⟨hlt, hget'⟩ := List.getElem?_eq_some_iff.mp hi
  have hspec := hget i (hlen ▸ hlt) hlt
  simp only [List.get_eq_getElem, List.getElem_zipIdx, zero_add] at hspec
  have hlt' : i < specs.length := by
    rw [← hlen] at hlt
    simpa using hlt
  exact ⟨specs[i], List.getElem_mem hlt', hget' ▸ hspec⟩

end Bongtu.Client
