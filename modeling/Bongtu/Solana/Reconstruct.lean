import Mathlib.Data.List.GetD
import Bongtu.Client.OpData
import Bongtu.Solana.Dispatch

namespace Bongtu.Solana

open ByteOrder Client Core

section Layout

theorem slots_carried (op : SolanaOpName) : (solanaOps op).carried.map (slotOf (solanaOps op)) =
    (List.range op.carriedPublics).map .wire := by
  cases op <;> decide

theorem slots_arbiter (op : SolanaOpName) :
    ((solanaOps op).field .authorityPubKey).map (slotOf (solanaOps op)) =
      (List.range (if op.enterprise = true then 2 else 0)).map .injected := by
  cases op <;> decide

theorem slots_recipient (op : SolanaOpName) :
    ((solanaOps op).field .recipient).map (slotOf (solanaOps op)) =
      (List.range (if op.paysOut = true then 1 else 0)).map
        fun j => .injected ((if op.enterprise = true then 2 else 0) + j) := by
  cases op <;> decide

def constantOne (op : SolanaOpName) : Bool :=
  ((solanaOps op).enabled.map SolanaEnabledSpec.constantOne).getD false

theorem slots_enabled (op : SolanaOpName) :
    ((solanaOps op).field .enabled).map (slotOf (solanaOps op)) =
      if constantOne op = true then ((solanaOps op).field .nullifiers).map fun _ => .one
      else ((solanaOps op).field .nullifiers).map fun i => .enabled ((solanaOps op).carried.idxOf i) := by
  cases op <;> decide

theorem slots_nullifiers (op : SolanaOpName) :
    ((solanaOps op).field .nullifiers).map (slotOf (solanaOps op)) =
      ((solanaOps op).field .nullifiers).map fun i => .wire ((solanaOps op).carried.idxOf i) := by
  cases op <;> decide

theorem nullifiers_carried (op : SolanaOpName) :
    ∀ i ∈ (solanaOps op).field .nullifiers, i ∈ (solanaOps op).carried := by
  cases op <;> decide

-- Every index rides the wire or is injected.
theorem carried_or_injected (op : SolanaOpName) : ∀ i < op.nPublic, i ∈ (solanaOps op).carried ∨
    i ∈ (solanaOps op).field .enabled ∨ i ∈ (solanaOps op).field .authorityPubKey ∨
      i ∈ (solanaOps op).field .recipient := by
  cases op <;> decide

theorem carried_lt (op : SolanaOpName) : ∀ i ∈ (solanaOps op).carried, i < op.nPublic := by
  cases op <;> decide

theorem field_lt (op : SolanaOpName) (f : OpField) : ∀ i ∈ (solanaOps op).field f, i < op.nPublic := by
  cases op <;> cases f <;> decide

theorem injectedCount_eq (op : SolanaOpName) : op.injectedCount =
    (if op.enterprise = true then 2 else 0) + if op.paysOut = true then 1 else 0 := by
  cases op <;> rfl

end Layout

-- The flags that stand for a run of nullifiers.
def flagsOf {W : Type} [DecidableEq W] [Zero W] [One W] (op : SolanaOpName) (nullifiers : List W) : List W :=
  if constantOne op = true then nullifiers.map fun _ => 1 else Bongtu.enabled nullifiers

section Rebuilt

variable {K : Type} (env : Env K Word)

-- A vector with the carried words and the program's values at the indices of the layout table.
structure Placed (op : SolanaOpName) (payload : Bytes) (arbiter recipient : List Word)
    (publics : Fin op.nPublic → Word) : Prop where
  carried : (solanaOps op).carried.map (signal publics) =
    (List.range op.carriedPublics).map (carriedAt payload)
  enabled : ((solanaOps op).field .enabled).map (signal publics) =
    flagsOf op (((solanaOps op).field .nullifiers).map (signal publics))
  arbiter : ((solanaOps op).field .authorityPubKey).map (signal publics) = arbiter
  recipient : ((solanaOps op).field .recipient).map (signal publics) = recipient

variable {op : SolanaOpName} {payload : Bytes} {arbiter recipient : List Word}

def filled (op : SolanaOpName) (payload : Bytes) (injected : List Word) : Slot → Word :=
  Slot.fill (fun w : Fin op.carriedPublics => carriedAt payload w.val) injected

theorem signal_rebuilt {injected : List Word} (hinjected : injected.length = op.injectedCount) {i : ℕ}
    (hi : i < op.nPublic) :
    signal (rebuilt env op payload injected) i = filled op payload injected (slotOf (solanaOps op) i) := by
  rw [signal, dif_pos hi]
  exact publicsOf_slot env op _ hinjected ⟨i, hi⟩

theorem map_rebuilt {injected : List Word} (hinjected : injected.length = op.injectedCount) {indices : List ℕ}
    (hindices : ∀ i ∈ indices, i < op.nPublic) :
    indices.map (signal (rebuilt env op payload injected)) =
      (indices.map (slotOf (solanaOps op))).map (filled op payload injected) := by
  rw [List.map_map]
  exact List.map_congr_left fun i hi => signal_rebuilt env hinjected (hindices i hi)

theorem filled_wire {injected : List Word} {w : ℕ} (hw : w < op.carriedPublics) :
    filled op payload injected (.wire w) = carriedAt payload w := dif_pos hw

theorem getD_range (values : List Word) : (List.range values.length).map (fun j => values.getD j 0) = values := by
  refine List.ext_getElem (by simp) fun j hj hj' => ?_
  simp [hj']

theorem rebuilt_placed (payload : Bytes) (harbiter : arbiter.length = if op.enterprise = true then 2 else 0)
    (hrecipient : recipient.length = if op.paysOut = true then 1 else 0) :
    Placed op payload arbiter recipient (rebuilt env op payload (arbiter ++ recipient)) := by
  have hinjected : (arbiter ++ recipient).length = op.injectedCount := by
    rw [List.length_append, harbiter, hrecipient, injectedCount_eq]
  refine ⟨?_, ?_, ?_, ?_⟩
  · rw [map_rebuilt env hinjected (carried_lt op), slots_carried, List.map_map]
    exact List.map_congr_left fun w hw => filled_wire (List.mem_range.mp hw)
  · rw [map_rebuilt env hinjected (field_lt op .enabled), map_rebuilt env hinjected (field_lt op .nullifiers),
      slots_enabled, slots_nullifiers, flagsOf]
    split
    · simp only [List.map_map]
      rfl
    · simp only [Bongtu.enabled, List.map_map]
      rfl
  · rw [map_rebuilt env hinjected (field_lt op .authorityPubKey), slots_arbiter, ← harbiter, List.map_map]
    refine Eq.trans (List.map_congr_left fun j hj => ?_) (getD_range arbiter)
    exact List.getD_append arbiter recipient 0 j (List.mem_range.mp hj)
  · rw [map_rebuilt env hinjected (field_lt op .recipient), slots_recipient, ← hrecipient, ← harbiter, List.map_map]
    refine Eq.trans (List.map_congr_left fun j hj => ?_) (getD_range recipient)
    have hright := List.getD_append_right arbiter recipient 0 (arbiter.length + j) (Nat.le_add_right _ _)
    rw [Nat.add_sub_cancel_left] at hright
    exact hright

-- The words of a payload past those a slot is computed from do not reach it.
theorem rebuilt_injected_eq {payload payload' : Bytes} {injected : List Word}
    (hinjected : injected.length = op.injectedCount) {i : ℕ} (hi : i < op.nPublic)
    (hslot : ∀ w, slotOf (solanaOps op) i = .wire w ∨ slotOf (solanaOps op) i = .enabled w →
      carriedAt payload w = carriedAt payload' w) :
    signal (rebuilt env op payload injected) i = signal (rebuilt env op payload' injected) i := by
  have hsignal : ∀ w, carriedAt payload w = carriedAt payload' w →
      signal (fun w : Fin op.carriedPublics => carriedAt payload w.val) w =
        signal (fun w : Fin op.carriedPublics => carriedAt payload' w.val) w := by
    intro w hw
    simp only [signal, hw]
  rw [signal_rebuilt env hinjected hi, signal_rebuilt env hinjected hi, filled, filled]
  cases hs : slotOf (solanaOps op) i with
  | blank => rfl
  | wire w => exact hsignal w (hslot w (.inl hs))
  | enabled w => simp only [Slot.fill, hsignal w (hslot w (.inr hs))]
  | one => rfl
  | injected j => rfl

end Rebuilt

section Serialised

variable {op : SolanaOpName} {calldata : Calldata} {kemCiphertexts : List Bytes} {stealthTail : Bytes}

theorem value_asArr32_wordOf {v : ℤ} (hv : 0 ≤ v ∧ v < 2 ^ 256) : ((asArr32 (wordOf v)).value : ℤ) = v := by
  have hread : fromBE (toBE 32 v.toNat) = v.toNat % 256 ^ 32 := fromBE_toBE 32 v.toNat
  rw [Word.value, wordOf, asArr32_bytes (length_toBE 32 v.toNat), hread]
  omega

theorem carriedAt_wirePayload (h : Encodable op calldata kemCiphertexts stealthTail) {w i : ℕ}
    (hw : (solanaOps op).carried[w]? = some i) :
    ((carriedAt (wirePayload op calldata kemCiphertexts stealthTail) w).value : ℤ) =
      calldata.pub.getD i 0 := by
  have hword : (((solanaOps op).carried.map fun i => calldata.pub.getD i 0).map wordOf)[w]? =
      some (wordOf (calldata.pub.getD i 0)) := by
    rw [List.getElem?_map, List.getElem?_map, hw]
    rfl
  have hread := readAt_run (calldata.limbs.map wordOf).flatten (kemCiphertexts.flatten ++ stealthTail)
    length_wordOf hword
  rw [length_limbs] at hread
  rw [carriedAt, wirePayload, hread]
  exact value_asArr32_wordOf (h.carried i (List.mem_of_getElem? hw))

theorem carried_wirePayload (h : Encodable op calldata kemCiphertexts stealthTail) :
    (List.range op.carriedPublics).map
        (fun w => ((carriedAt (wirePayload op calldata kemCiphertexts stealthTail) w).value : ℤ)) =
      (solanaOps op).carried.map fun i => calldata.pub.getD i 0 := by
  refine List.ext_getElem (by simp [op.carriedPublics_eq]) fun w hw hw' => ?_
  rw [List.length_map] at hw'
  rw [List.getElem_map, List.getElem_map, List.getElem_range]
  exact carriedAt_wirePayload h (List.getElem?_eq_getElem hw')

theorem proofLimb_wirePayload (h : Encodable op calldata kemCiphertexts stealthTail) {k : ℕ} {v : ℤ}
    (hv : calldata.limbs[k]? = some v) :
    proofLimb (wirePayload op calldata kemCiphertexts stealthTail) k = v.toNat := by
  have hword : (calldata.limbs.map wordOf)[k]? = some (wordOf v) := by
    rw [List.getElem?_map, hv]
    rfl
  have hread := readAt_run [] ((((solanaOps op).carried.map fun i =>
    calldata.pub.getD i 0).map wordOf).flatten ++ (kemCiphertexts.flatten ++ stealthTail)) length_wordOf hword
  rw [List.length_nil, Nat.zero_add, List.nil_append, ← List.append_assoc] at hread
  have hvalue : fromBE (toBE 32 v.toNat) = v.toNat % 256 ^ 32 := fromBE_toBE 32 v.toNat
  have hrange := h.limbs v (List.mem_of_getElem? hv)
  rw [proofLimb, wirePayload, List.append_assoc, ← List.append_assoc, hread, wordOf, hvalue]
  omega

-- The injected slots of a full public vector hold what the program puts there.
structure HoldsInjected (op : SolanaOpName) (pub : List ℤ) (arbiter recipient : List Word) : Prop where
  enabled : ((solanaOps op).field .enabled).map (fun i => pub.getD i 0) =
    flagsOf op (((solanaOps op).field .nullifiers).map fun i => pub.getD i 0)
  arbiter : ((solanaOps op).field .authorityPubKey).map (fun i => pub.getD i 0) =
    arbiter.map fun w => (w.value : ℤ)
  recipient : ((solanaOps op).field .recipient).map (fun i => pub.getD i 0) =
    recipient.map fun w => (w.value : ℤ)

theorem value_flagsOf (nullifiers : List Word) : (flagsOf op nullifiers).map (fun w => (w.value : ℤ)) =
    flagsOf op (nullifiers.map fun w => (w.value : ℤ)) := by
  unfold flagsOf
  split
  · rw [List.map_map, List.map_map]
    exact List.map_congr_left fun _ _ => by simp
  · simp only [Bongtu.enabled, List.map_map]
    refine List.map_congr_left fun w _ => ?_
    by_cases hw : w = 0
    · simp [hw]
    · have hvalue : w.value ≠ 0 := fun h => hw (Word.value_eq_zero.mp h)
      simp [hw, hvalue]

-- Reading a placed vector back gives the serialised one.
theorem Placed.value_eq {arbiter recipient : List Word} {publics : Fin op.nPublic → Word}
    (hplaced : Placed op (wirePayload op calldata kemCiphertexts stealthTail) arbiter recipient publics)
    (h : Encodable op calldata kemCiphertexts stealthTail)
    (hholds : HoldsInjected op calldata.pub arbiter recipient) {i : ℕ} (hi : i < op.nPublic) :
    ((signal publics i).value : ℤ) = calldata.pub.getD i 0 := by
  have hcarried : ∀ i ∈ (solanaOps op).carried, ((signal publics i).value : ℤ) = calldata.pub.getD i 0 := by
    have hmap := congrArg (List.map fun w : Word => (w.value : ℤ)) hplaced.carried
    rw [List.map_map, List.map_map] at hmap
    exact List.map_inj_left.mp (hmap.trans (carried_wirePayload h))
  have hnullifiers : (((solanaOps op).field .nullifiers).map (signal publics)).map (fun w => (w.value : ℤ)) =
      ((solanaOps op).field .nullifiers).map fun i => calldata.pub.getD i 0 := by
    rw [List.map_map]
    exact List.map_congr_left fun i hi => hcarried i (nullifiers_carried op i hi)
  rcases carried_or_injected op i hi with hc | he | ha | hr
  · exact hcarried i hc
  · have hmap := congrArg (List.map fun w : Word => (w.value : ℤ)) hplaced.enabled
    rw [value_flagsOf, hnullifiers, ← hholds.enabled, List.map_map] at hmap
    exact List.map_inj_left.mp hmap i he
  · have hmap := congrArg (List.map fun w : Word => (w.value : ℤ)) hplaced.arbiter
    rw [← hholds.arbiter, List.map_map] at hmap
    exact List.map_inj_left.mp hmap i ha
  · have hmap := congrArg (List.map fun w : Word => (w.value : ℤ)) hplaced.recipient
    rw [← hholds.recipient, List.map_map] at hmap
    exact List.map_inj_left.mp hmap i hr

end Serialised

theorem length_arbiterOf {K : Type} (op : SolanaOpName) (c : PoolConfig K Word) :
    (arbiterOf op c).length = if op.enterprise = true then 2 else 0 := by
  unfold arbiterOf
  split <;> rfl

theorem parseProof_wirePayload {op : SolanaOpName} {calldata : Calldata} {kemCiphertexts : List Bytes}
    {stealthTail : Bytes} (h : Encodable op calldata kemCiphertexts stealthTail) :
    parseProof (wirePayload op calldata kemCiphertexts stealthTail) = calldata.proof := by
  have hlimb := fun k v => proofLimb_wirePayload (k := k) (v := v) h
  simp only [parseProof, Calldata.proof, hlimb 0 _ rfl, hlimb 1 _ rfl, hlimb 2 _ rfl, hlimb 3 _ rfl,
    hlimb 4 _ rfl, hlimb 5 _ rfl, hlimb 6 _ rfl, hlimb 7 _ rfl]

-- Same words, same flag; the arbiter key and the recipient come from the accounts alone.
theorem rebuilt_arbiter_eq {K : Type} (env : Env K Word) {op : SolanaOpName} (payload payload' : Bytes)
    {arbiter recipient : List Word} (harbiter : arbiter.length = if op.enterprise = true then 2 else 0)
    (hrecipient : recipient.length = if op.paysOut = true then 1 else 0) {i : ℕ}
    (hi : i ∈ (solanaOps op).field .authorityPubKey ∨ i ∈ (solanaOps op).field .recipient) :
    signal (rebuilt env op payload (arbiter ++ recipient)) i =
      signal (rebuilt env op payload' (arbiter ++ recipient)) i := by
  have hplaced := rebuilt_placed env payload harbiter hrecipient
  have hplaced' := rebuilt_placed env payload' harbiter hrecipient
  rcases hi with ha | hr
  · exact List.map_inj_left.mp (hplaced.arbiter.trans hplaced'.arbiter.symm) i ha
  · exact List.map_inj_left.mp (hplaced.recipient.trans hplaced'.recipient.symm) i hr

-- The wire position of the nullifier behind a flag.
def flagSource (op : SolanaOpName) (j : ℕ) : ℕ :=
  (solanaOps op).carried.idxOf (((solanaOps op).field .nullifiers).getD j 0)

theorem slot_enabled {op : SolanaOpName} {j i : ℕ} (hi : ((solanaOps op).field .enabled)[j]? = some i) :
    slotOf (solanaOps op) i = if constantOne op = true then .one else .enabled (flagSource op j) := by
  have hslots := congrArg (fun slots => slots[j]?) (slots_enabled op)
  have hlen : ((solanaOps op).field .enabled).length = ((solanaOps op).field .nullifiers).length := by
    have := congrArg List.length (slots_enabled op)
    split at this <;> simpa using this
  obtain ⟨hj, -⟩ := List.getElem?_eq_some_iff.mp hi
  rw [hlen] at hj
  rw [List.getElem?_map, hi] at hslots
  unfold flagSource
  split at hslots
  · case isTrue hone =>
    rw [if_pos hone]
    simpa [hj] using hslots
  · case isFalse hone =>
    rw [if_neg hone]
    simpa [hj] using hslots

-- A flag reads the 32 bytes of its own nullifier and no others.
theorem rebuilt_enabled_eq {K : Type} (env : Env K Word) {op : SolanaOpName} {payload payload' : Bytes}
    {injected : List Word} (hinjected : injected.length = op.injectedCount) {j i : ℕ}
    (hi : ((solanaOps op).field .enabled)[j]? = some i)
    (hbytes : constantOne op = false → readAt (proofLen + 32 * flagSource op j) 32 payload =
      readAt (proofLen + 32 * flagSource op j) 32 payload') :
    signal (rebuilt env op payload injected) i = signal (rebuilt env op payload' injected) i := by
  refine rebuilt_injected_eq env hinjected (field_lt op .enabled i (List.mem_of_getElem? hi)) fun w hw => ?_
  rw [slot_enabled hi] at hw
  cases hone : constantOne op with
  | true => simp [hone] at hw
  | false =>
    obtain rfl : flagSource op j = w := by simpa [hone] using hw
    exact congrArg asArr32 (hbytes hone)

theorem HoldsInjected.lengths {op : SolanaOpName} {pub : List ℤ} {arbiter recipient : List Word}
    (h : HoldsInjected op pub arbiter recipient) :
    arbiter.length = (if op.enterprise = true then 2 else 0) ∧
      recipient.length = if op.paysOut = true then 1 else 0 := by
  have harbiter := congrArg List.length h.arbiter
  have hrecipient := congrArg List.length h.recipient
  have hslots := congrArg List.length (slots_arbiter op)
  have hslots' := congrArg List.length (slots_recipient op)
  simp only [List.length_map, List.length_range] at harbiter hrecipient hslots hslots'
  exact ⟨harbiter.symm.trans hslots, hrecipient.symm.trans hslots'⟩

-- The table's runs are the circuit's; an accepted payload is verified against the vector those runs
-- ask for; the client's wire comes back as the vector it was built from; and nothing else on the
-- wire reaches an injected slot.
theorem public_vector_reconstructed {K : Type} [DecidableEq K] (env : Env K Word) (op : SolanaOpName) :
    (solanaOps op).fields.map (fun f => (f.1.signal, f.2)) = op.circuit.declared ∧
    (∀ (tx : Tx K) (l l' : Ledger K Word) (discriminator : UInt8) (payload : Bytes),
      opOf discriminator = some op → processData env tx (discriminator :: payload) l = .ok l' →
      ∃ c, ReadsConfig env tx l c ∧
        verifierOf env op (parseProof payload)
          (rebuilt env op payload (arbiterOf op c ++ boundOf env op tx)) = true ∧
        Placed op payload (arbiterOf op c) (boundOf env op tx)
          (rebuilt env op payload (arbiterOf op c ++ boundOf env op tx))) ∧
    (∀ (calldata : Calldata) (kemCiphertexts : List Bytes) (stealthTail data : Bytes)
        (arbiter recipient : List Word),
      encodeConsumerOpData op calldata kemCiphertexts stealthTail = .ok data →
      HoldsInjected op calldata.pub arbiter recipient →
      ∃ discriminator payload, data = discriminator :: payload ∧ opOf discriminator = some op ∧
        parseProof payload = calldata.proof ∧
        List.ofFn (fun i => ((rebuilt env op payload (arbiter ++ recipient) i).value : ℤ)) = calldata.pub) ∧
    ∀ (payload payload' : Bytes) (arbiter recipient : List Word),
      arbiter.length = (if op.enterprise = true then 2 else 0) →
      recipient.length = (if op.paysOut = true then 1 else 0) →
      (∀ i, i ∈ (solanaOps op).field .authorityPubKey ∨ i ∈ (solanaOps op).field .recipient →
        signal (rebuilt env op payload (arbiter ++ recipient)) i =
          signal (rebuilt env op payload' (arbiter ++ recipient)) i) ∧
      ∀ j i, ((solanaOps op).field .enabled)[j]? = some i →
        (constantOne op = false → readAt (proofLen + 32 * flagSource op j) 32 payload =
          readAt (proofLen + 32 * flagSource op j) 32 payload') →
        signal (rebuilt env op payload (arbiter ++ recipient)) i =
          signal (rebuilt env op payload' (arbiter ++ recipient)) i := by
  refine ⟨fields_declared op, ?_, ?_, ?_⟩
  · intro tx l l' discriminator payload hop h
    have hacc := processData_accepted hop h
    obtain ⟨c, hread, hverified⟩ := hacc.verified
    exact ⟨c, hread, hverified, rebuilt_placed env payload (length_arbiterOf op c) hacc.recipient⟩
  · intro calldata kemCiphertexts stealthTail data arbiter recipient hencode hholds
    obtain ⟨henc, rfl⟩ := encodeConsumerOpData_ok.mp hencode
    obtain ⟨harbiter, hrecipient⟩ := hholds.lengths
    have hplaced := rebuilt_placed env (wirePayload op calldata kemCiphertexts stealthTail) harbiter
      hrecipient
    refine ⟨_, _, rfl, opOf_discriminator op, parseProof_wirePayload henc, ?_⟩
    have hlen : calldata.pub.length = op.nPublic := henc.pub_length.trans op.nPublic_eq
    refine List.ext_getElem (by simp [hlen]) fun i hi hi' => ?_
    have hvalue := hplaced.value_eq henc hholds (hlen ▸ hi')
    rw [signal, dif_pos (hlen ▸ hi'), List.getD_eq_getElem _ _ hi'] at hvalue
    rw [List.getElem_ofFn]
    exact hvalue
  · intro payload payload' arbiter recipient harbiter hrecipient
    have hinjected : (arbiter ++ recipient).length = op.injectedCount := by
      rw [List.length_append, harbiter, hrecipient, injectedCount_eq]
    exact ⟨fun i hi => rebuilt_arbiter_eq env payload payload' harbiter hrecipient hi,
      fun j i hi hbytes => rebuilt_enabled_eq env hinjected hi hbytes⟩

end Bongtu.Solana
