import Bongtu.Circuit.PlainText
import Bongtu.Evm.Gate

namespace Bongtu

open Core Circuit Outcome

section Layout

variable {B : ℕ} {kind : OpKind} {env : ParsedEnvelope} {plain : List ℕ}

-- The output count `B` stands for: only a disburse has one of its own.
def OfBatch (B : ℕ) (kind : OpKind) (env : ParsedEnvelope) : Prop :=
  kind = .disburse → env.outputs.length = B

structure Laid (B : ℕ) (kind : OpKind) (env : ParsedEnvelope) (plain : List ℕ) : Prop where
  inputs : env.inputs.length = (opArity B kind).nIn
  outputs : env.outputs.length = (opArity B kind).nOut
  owners : ∀ i ∈ env.inputs, i.owner = env.sender
  plain : plain = layOut (opArity B kind).nIn env

theorem arity_batch (hB : OfBatch B kind env) :
    opArity env.outputs.length kind = opArity B kind := by
  cases kind <;> simp [opArity]
  exact hB rfl

theorem buildAuthorityPlaintext_ok (hB : OfBatch B kind env)
    (h : buildAuthorityPlaintext kind env = .ok plain) : Laid B kind env plain := by
  simp only [buildAuthorityPlaintext, bind_ok] at h
  obtain ⟨_, houtputs, _, hinputs, _, howners, hplain⟩ := h
  rw [arity_batch hB] at houtputs hinputs hplain
  cases hplain
  refine ⟨require_ok.mp hinputs, ?_, fun i hi => require_ok.mp ((forM_ok _).mp howners i hi), rfl⟩
  cases kind with
  | disburse => exact hB rfl
  | _ => exact require_ok.mp houtputs

theorem length_pairs {A : Type} (xs : List A) (f g : A → ℕ) :
    ((xs.map fun x => [f x, g x]).flatten).length = 2 * xs.length := by
  rw [Blocks.length_flatten (n := 2) (by simp), List.length_map, Nat.mul_comm]

theorem Laid.length (h : Laid B kind env plain) : plain.length = envelopePlaintextLen B kind := by
  rw [h.plain, layOut]
  simp only [List.length_append, length_pairs, h.inputs, h.outputs, envelopePlaintextLen, spendLayout]
  split <;> simp

theorem getD_pair {A : Type} {before xs : List ℕ} {notes : List A} {f g : A → ℕ} {base i : ℕ} {x : A}
    (hbase : before.length = base) (hx : notes[i]? = some x) :
    (before ++ ((notes.map fun x => [f x, g x]).flatten ++ xs)).getD (base + 2 * i) 0 = f x ∧
    (before ++ ((notes.map fun x => [f x, g x]).flatten ++ xs)).getD (base + 2 * i + 1) 0 = g x := by
  have hblock : (notes.map fun x => [f x, g x])[i]? = some [f x, g x] := by
    rw [List.getElem?_map, hx]
    rfl
  have hget : ∀ j < 2, (before ++ ((notes.map fun x => [f x, g x]).flatten ++ xs))[base + (i * 2 + j)]? =
      [f x, g x][j]? := by
    intro j hj
    rw [← hbase, List.getElem?_append_right (Nat.le_add_right _ _), Nat.add_sub_cancel_left]
    exact Blocks.getElem?_flatten (by simp) hblock hj xs
  constructor
  · rw [List.getD_eq_getElem?_getD, Nat.mul_comm 2 i]
    exact congrArg (Option.getD · 0) (hget 0 (by omega))
  · rw [List.getD_eq_getElem?_getD, Nat.mul_comm 2 i, Nat.add_assoc]
    exact congrArg (Option.getD · 0) (hget 1 (by omega))

def headOf (nIn : ℕ) (env : ParsedEnvelope) : List ℕ :=
  if nIn > 0 then [env.sender.1, env.sender.2] else []

theorem layOut_eq (nIn : ℕ) (env : ParsedEnvelope) : layOut nIn env =
    headOf nIn env ++ ((env.inputs.map fun i => [i.value, i.salt]).flatten ++
      ((env.outputs.map fun o => [o.owner.1, o.owner.2]).flatten ++
        (env.outputs.map fun o => [o.value, o.salt]).flatten)) := by
  simp only [layOut, headOf, List.append_assoc]

theorem length_headOf (nIn : ℕ) (env : ParsedEnvelope) :
    (headOf nIn env).length = if nIn > 0 then 2 else 0 := by
  unfold headOf
  split <;> rfl

theorem Laid.at_input (h : Laid B kind env plain) {i : ℕ} {x : EnvNote} (hx : env.inputs[i]? = some x) :
    plain.getD ((spendLayout (opArity B kind)).inValBase + 2 * i) 0 = x.value ∧
    plain.getD ((spendLayout (opArity B kind)).inValBase + 2 * i + 1) 0 = x.salt := by
  rw [h.plain, layOut_eq]
  exact getD_pair (length_headOf _ env) hx

theorem Laid.at_owner (h : Laid B kind env plain) {i : ℕ} {x : EnvNote} (hx : env.outputs[i]? = some x) :
    plain.getD ((spendLayout (opArity B kind)).outOwnBase + 2 * i) 0 = x.owner.1 ∧
    plain.getD ((spendLayout (opArity B kind)).outOwnBase + 2 * i + 1) 0 = x.owner.2 := by
  rw [h.plain, layOut_eq, ← List.append_assoc]
  refine getD_pair ?_ hx
  rw [List.length_append, length_headOf, length_pairs, h.inputs]
  rfl

theorem Laid.at_output (h : Laid B kind env plain) {i : ℕ} {x : EnvNote} (hx : env.outputs[i]? = some x) :
    plain.getD ((spendLayout (opArity B kind)).outValBase + 2 * i) 0 = x.value ∧
    plain.getD ((spendLayout (opArity B kind)).outValBase + 2 * i + 1) 0 = x.salt := by
  rw [h.plain, layOut_eq, ← List.append_assoc, ← List.append_assoc,
    ← List.append_nil (env.outputs.map fun o => [o.value, o.salt]).flatten]
  refine getD_pair ?_ hx
  rw [List.length_append, List.length_append, length_headOf, length_pairs, length_pairs, h.inputs, h.outputs]
  rfl

theorem Laid.at_head (h : Laid B kind env plain) (hpos : 0 < (opArity B kind).nIn) :
    (plain.getD 0 0, plain.getD 1 0) = env.sender := by
  rw [h.plain, layOut_eq, headOf, if_pos hpos]
  rfl

theorem sliceEnvelope_laid (h : Laid B kind env plain) : sliceEnvelope B kind plain = env := by
  have hinputs : (sliceEnvelope B kind plain).inputs = env.inputs := by
    refine List.ext_getElem (length_inputs.trans h.inputs.symm) fun i _ hi => ?_
    have hpos : 0 < (opArity B kind).nIn := h.inputs ▸ Nat.zero_lt_of_lt hi
    obtain ⟨hvalue, hsalt⟩ := h.at_input (List.getElem?_eq_getElem hi)
    simp only [sliceEnvelope, List.getElem_map, List.getElem_range, hvalue, hsalt, if_pos hpos,
      h.at_head hpos, ← h.owners _ (List.getElem_mem hi)]
  have houtputs : (sliceEnvelope B kind plain).outputs = env.outputs := by
    refine List.ext_getElem (length_outputs.trans h.outputs.symm) fun i _ hi => ?_
    obtain ⟨hvalue, hsalt⟩ := h.at_output (List.getElem?_eq_getElem hi)
    obtain ⟨hx, hy⟩ := h.at_owner (List.getElem?_eq_getElem hi)
    simp only [sliceEnvelope, List.getElem_map, List.getElem_range, hvalue, hsalt, hx, hy]
  calc sliceEnvelope B kind plain
    _ = ⟨(sliceEnvelope B kind plain).inputs, (sliceEnvelope B kind plain).outputs⟩ := rfl
    _ = env := by rw [hinputs, houtputs]

theorem range_pairs {A : Type} {xs : List A} {n : ℕ} (hn : xs.length = n) {f g : A → ℕ} {f' g' : ℕ → ℕ}
    (hf : ∀ i x, xs[i]? = some x → f' i = f x) (hg : ∀ i x, xs[i]? = some x → g' i = g x) :
    ((List.range n).map fun i => [f' i, g' i]) = xs.map fun x => [f x, g x] := by
  refine List.ext_getElem (by simp [hn]) fun i _ hi => ?_
  rw [List.length_map] at hi
  have hx : xs[i]? = some xs[i] := List.getElem?_eq_getElem hi
  simp only [List.getElem_map, List.getElem_range, hf i _ hx, hg i _ hx]

theorem getD_map {A C : Type} {xs : List A} {f : A → C} {c : C} {i : ℕ} {x : A} (hx : xs[i]? = some x) :
    (xs.map f).getD i c = f x := by
  rw [List.getD_eq_getElem?_getD, List.getElem?_map, hx]
  rfl

theorem written_outputs {n : ℕ} {xs : List ℕ} {t : PlainText} (ht : PlainText.Written n xs t) {nOutputs : ℕ}
    (hout : env.outputs.length = nOutputs) (hroom : xs.length + 4 * nOutputs ≤ n) :
    PlainText.Written n (xs ++ (env.outputs.map fun o => [o.owner.1, o.owner.2]).flatten ++
      (env.outputs.map fun o => [o.value, o.salt]).flatten)
      (outputsPlainText nOutputs (signalsOf env) t) := by
  have hownerPairs : ((List.range nOutputs).map fun i =>
      [((signalsOf env).outputOwnerPublicKeys.getD i 0).1, ((signalsOf env).outputOwnerPublicKeys.getD i 0).2]) =
      env.outputs.map fun o => [o.owner.1, o.owner.2] :=
    range_pairs hout (fun i x hx => congrArg Prod.fst (getD_map hx)) fun i x hx =>
      congrArg Prod.snd (getD_map hx)
  have hpairs : ((List.range nOutputs).map fun i =>
      [(signalsOf env).outputValues.getD i 0, (signalsOf env).outputSalts.getD i 0]) =
      env.outputs.map fun o => [o.value, o.salt] :=
    range_pairs hout (fun i x hx => getD_map hx) fun i x hx => getD_map hx
  have howners := ht.putPairs nOutputs (fun i => ((signalsOf env).outputOwnerPublicKeys.getD i 0).1)
    (fun i => ((signalsOf env).outputOwnerPublicKeys.getD i 0).2) (by omega)
  rw [hownerPairs] at howners
  have houts := howners.putPairs nOutputs (fun i => (signalsOf env).outputValues.getD i 0)
    (fun i => (signalsOf env).outputSalts.getD i 0)
    (by rw [List.length_append, length_pairs, hout]; omega)
  rwa [hpairs] at houts

theorem spendPlainText_signalsOf {nIn nOut : ℕ} (hpos : 0 < nIn) (hin : env.inputs.length = nIn)
    (hout : env.outputs.length = nOut) : spendPlainText nIn nOut (signalsOf env) = layOut nIn env := by
  set n := 2 + 2 * nIn + 4 * nOut with hn
  have hhead : PlainText.Written n [env.sender.1, env.sender.2]
      (((PlainText.declare n).put env.sender.1).put env.sender.2) :=
    ((PlainText.written_declare n).put (by rw [hn, List.length_nil]; omega) _).put
      (by rw [hn, List.nil_append, List.length_singleton]; omega) _
  have hpairs : ((List.range nIn).map fun i =>
      [(signalsOf env).inputValues.getD i 0, (signalsOf env).inputSalts.getD i 0]) =
      env.inputs.map fun x => [x.value, x.salt] :=
    range_pairs hin (fun i x hx => getD_map hx) fun i x hx => getD_map hx
  have hins := hhead.putPairs nIn (fun i => (signalsOf env).inputValues.getD i 0)
    (fun i => (signalsOf env).inputSalts.getD i 0) (by rw [hn, List.length_cons, List.length_singleton]; omega)
  rw [hpairs] at hins
  have hlen : ([env.sender.1, env.sender.2] ++
      (env.inputs.map fun x => [x.value, x.salt]).flatten).length = 2 + 2 * nIn := by
    rw [List.length_append, length_pairs, hin]
    rfl
  have houts := written_outputs hins hout (by rw [hlen])
  have hfull := houts.full (by
    rw [List.length_append, List.length_append, hlen, length_pairs, length_pairs, hout]
    omega)
  rw [layOut, if_pos hpos]
  exact hfull

theorem plainTextOf_signalsOf (ctf : Bool) (h : Laid B kind env plain) :
    plainTextOf ctf B kind (signalsOf env) = plain := by
  rw [h.plain]
  have hin := h.inputs
  have hout := h.outputs
  cases kind with
  | deposit =>
    have hwritten := written_outputs (PlainText.written_declare 8) hout (by rw [List.length_nil]; rfl)
    have hfull := hwritten.full (by
      rw [List.nil_append, List.length_append, length_pairs, length_pairs, hout]
      rfl)
    have hempty : env.inputs = [] := List.length_eq_zero_iff.mp hin
    simp only [layOut, hempty]
    exact hfull
  | withdraw => exact spendPlainText_signalsOf (by simp) hin hout
  | transfer => cases ctf <;> exact spendPlainText_signalsOf (by simp) hin hout
  | transfer10 => cases ctf <;> exact spendPlainText_signalsOf (by simp) hin hout
  | transfer10x2 => cases ctf <;> exact spendPlainText_signalsOf (by simp) hin hout
  | disburse => cases ctf <;> exact spendPlainText_signalsOf (by simp) hin hout

theorem mem_pairs {A : Type} {xs : List A} {f g : A → ℕ} {y F : ℕ}
    (hy : y ∈ (xs.map fun x => [f x, g x]).flatten) (hF : ∀ x ∈ xs, f x < F ∧ g x < F) : y < F := by
  obtain ⟨pair, hpair, hy⟩ := List.mem_flatten.mp hy
  obtain ⟨x, hx, rfl⟩ := List.mem_map.mp hpair
  rcases List.mem_cons.mp hy with rfl | hy
  · exact (hF x hx).1
  · rw [List.mem_singleton.mp hy]
    exact (hF x hx).2

def Below (F : ℕ) (n : EnvNote) : Prop := n.owner.1 < F ∧ n.owner.2 < F ∧ n.value < F ∧ n.salt < F

instance (F : ℕ) (n : EnvNote) : Decidable (Below F n) := inferInstanceAs (Decidable (_ ∧ _))

theorem Laid.below {F : ℕ} (h : Laid B kind env plain) (hfield : ∀ n ∈ env.inputs ++ env.outputs, Below F n) :
    ∀ x ∈ plain, x < F := by
  intro x hx
  rw [h.plain, layOut_eq, List.mem_append, List.mem_append, List.mem_append] at hx
  rcases hx with hx | hx | hx | hx
  · rw [headOf] at hx
    split at hx
    · next hpos =>
      have hin : 0 < env.inputs.length := h.inputs ▸ hpos
      have hfirst := List.getElem_mem hin
      have hbelow := hfield _ (List.mem_append_left env.outputs hfirst)
      rw [Below, h.owners _ hfirst] at hbelow
      rcases List.mem_cons.mp hx with rfl | hx
      · exact hbelow.1
      · rw [List.mem_singleton.mp hx]
        exact hbelow.2.1
    · cases hx
  · exact mem_pairs hx fun n hn => (hfield n (List.mem_append_left _ hn)).2.2
  · refine mem_pairs hx fun n hn => ?_
    obtain ⟨hx, hy, -⟩ := hfield n (List.mem_append_right _ hn)
    exact ⟨hx, hy⟩
  · exact mem_pairs hx fun n hn => (hfield n (List.mem_append_right _ hn)).2.2

end Layout

-- What the sender encrypts under: the shared point, or the hybrid fold of it and the KEM limbs.
def envelopeKey (p : Primitives) (shared : Point) (kemSs : Option Point) : Point :=
  kemSs.elim shared (p.hybridEnvelopeKey shared)

theorem parseEnvelope_laid {p : Primitives} {B : ℕ} {kind : OpKind} {env : ParsedEnvelope} {plain : List ℕ}
    {arbiterPriv nonce : ℕ} {ecdhPublicKey shared : Point} {kemSs : Option Point} (h : Laid B kind env plain)
    (hfield : ∀ x ∈ plain, x < snarkScalarField)
    (hshared : p.ecdhSharedSecret arbiterPriv ecdhPublicKey = shared) :
    p.parseEnvelope arbiterPriv ecdhPublicKey nonce
      (p.poseidonEncrypt plain (envelopeKey p shared kemSs) nonce) kind B kemSs = some env := by
  have hdecrypt : p.poseidonDecrypt (p.poseidonEncrypt plain (envelopeKey p shared kemSs) nonce)
      (envelopeKey p shared kemSs) nonce (envelopePlaintextLen B kind) = plain := by
    rw [← h.length]
    exact poseidonDecrypt_poseidonEncrypt hfield
  have hfull : ¬ plain.length < envelopePlaintextLen B kind := by
    rw [h.length]
    exact lt_irrefl _
  rw [Primitives.parseEnvelope, hshared]
  change (let m := p.poseidonDecrypt _ (envelopeKey p shared kemSs) nonce (envelopePlaintextLen B kind)
    if m.length < envelopePlaintextLen B kind then none else some (sliceEnvelope B kind m)) = some env
  rw [hdecrypt]
  exact (if_neg hfull).trans (congrArg some (sliceEnvelope_laid h))

-- The arbiter reads back what was laid out, from a ciphertext of the announced length, laid out as the
-- circuit lays it out.
theorem authority_envelope_round_trip {T : Type} (evm : Evm.Env ℕ T) (p : Primitives)
    (hcomm : ∀ a b, p.ecdhSharedSecret a (p.publicKey b) = p.ecdhSharedSecret b (p.publicKey a))
    (kind : OpKind) (B : ℕ) (env : ParsedEnvelope) (hB : OfBatch B kind env) (plain : List ℕ)
    (hbuild : buildAuthorityPlaintext kind env = .ok plain)
    (hfield : ∀ n ∈ env.inputs ++ env.outputs, Below snarkScalarField n)
    (arbiterPriv ephemeralPriv nonce : ℕ) (kemSs : Option Point) :
    let shared := p.ecdhSharedSecret ephemeralPriv (p.publicKey arbiterPriv)
    let ct := p.poseidonEncrypt plain (envelopeKey p shared kemSs) nonce
    p.parseEnvelope arbiterPriv (p.publicKey ephemeralPriv) nonce ct kind B kemSs = some env ∧
    ct.length = authorityCiphertextLen B kind ∧
    (kind = .disburse → ∀ pool : Evm.Pool ℕ,
      4 * B + ct.length = (Evm.World.initTreeAndParams evm B pool).disburseCiphertextLen) ∧
    ∀ ctf, plain = plainTextOf ctf B kind (signalsOf env) := by
  intro shared ct
  have hlaid := buildAuthorityPlaintext_ok hB hbuild
  have hlen : ct.length = authorityCiphertextLen B kind := by
    rw [authorityCiphertextLen, ← hlaid.length]
    exact length_poseidonEncrypt plain
  refine ⟨parseEnvelope_laid hlaid (hlaid.below hfield) (hcomm _ _), hlen, ?_,
    fun ctf => (plainTextOf_signalsOf ctf hlaid).symm⟩
  rintro rfl pool
  have hlayout : envelopePlaintextLen B .disburse = 2 + 2 * 1 + 2 * B + 2 * B := rfl
  have hplain : envelopePlaintextLen B .disburse = 4 + 4 * B := by omega
  rw [hlen, authorityCiphertextLen, hplain]
  rfl

def samplePayment : ParsedEnvelope :=
  ⟨[⟨(3, 4), 50, 7⟩], [⟨(5, 6), 30, 8⟩, ⟨(3, 4), 20, 9⟩]⟩

theorem authority_envelope_round_trip_sample :
    plainPrimitives.parseEnvelope 11 (plainPrimitives.publicKey 13) 17
      (plainPrimitives.poseidonEncrypt (layOut 1 samplePayment)
        (envelopeKey plainPrimitives (plainPrimitives.ecdhSharedSecret 13 (plainPrimitives.publicKey 11))
          (some (19, 23))) 17) .disburse 2 (some (19, 23)) = some samplePayment :=
  (authority_envelope_round_trip Evm.permissive plainPrimitives
    (fun a b => by simp [Primitives.ecdhSharedSecret, Primitives.publicKey, plainPrimitives, Nat.mul_comm])
    .disburse 2 samplePayment (fun _ => rfl) (layOut 1 samplePayment) (by decide)
    (by decide +kernel) 11 13 17 (some (19, 23))).1

end Bongtu
