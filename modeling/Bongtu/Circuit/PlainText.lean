import Bongtu.Blocks
import Bongtu.Core.Envelope

namespace Bongtu.Circuit

open Bongtu.Core

-- The signals the authority envelope of a circuit is made of.
structure Signals where
  inputOwnerPubKey : Point
  inputValues : List ℕ
  inputSalts : List ℕ
  outputOwnerPublicKeys : List Point
  outputValues : List ℕ
  outputSalts : List ℕ
deriving DecidableEq, Repr

def signalsOf (env : ParsedEnvelope) : Signals where
  inputOwnerPubKey := env.sender
  inputValues := env.inputs.map (·.value)
  inputSalts := env.inputs.map (·.salt)
  outputOwnerPublicKeys := env.outputs.map (·.owner)
  outputValues := env.outputs.map (·.value)
  outputSalts := env.outputs.map (·.salt)

-- `var plainText[n]` with its running index.
structure PlainText where
  plainText : List ℕ
  idx : ℕ

namespace PlainText

def declare (n : ℕ) : PlainText := ⟨List.replicate n 0, 0⟩

def put (t : PlainText) (x : ℕ) : PlainText := ⟨t.plainText.set t.idx x, t.idx + 1⟩

-- `for (var i = 0; i < n; i++)` over a pair of writes.
def putPairs (n : ℕ) (first second : ℕ → ℕ) (t : PlainText) : PlainText :=
  (List.range n).foldl (fun (t : PlainText) (i : ℕ) => (t.put (first i)).put (second i)) t

end PlainText

open PlainText

def outputsPlainText (nOutputs : ℕ) (s : Signals) (t : PlainText) : PlainText :=
  (t.putPairs nOutputs (fun i => (s.outputOwnerPublicKeys.getD i 0).1)
    fun i => (s.outputOwnerPublicKeys.getD i 0).2).putPairs nOutputs
      (fun i => s.outputValues.getD i 0) fun i => s.outputSalts.getD i 0

def spendPlainText (nInputs nOutputs : ℕ) (s : Signals) : List ℕ :=
  let head := ((declare (2 + 2 * nInputs + 4 * nOutputs)).put s.inputOwnerPubKey.1).put s.inputOwnerPubKey.2
  (outputsPlainText nOutputs s (head.putPairs nInputs (fun i => s.inputValues.getD i 0)
    fun i => s.inputSalts.getD i 0)).plainText

namespace BongtuDepositAuthority

def plainText (nOutputs : ℕ) (s : Signals) : List ℕ :=
  (outputsPlainText nOutputs s (declare (4 * nOutputs))).plainText

end BongtuDepositAuthority

namespace CheckNullifiersInputsOutputsValueIMT

def plainText : ℕ → ℕ → Signals → List ℕ := spendPlainText

end CheckNullifiersInputsOutputsValueIMT

namespace ZetoTransferSmall

def plainText : ℕ → ℕ → Signals → List ℕ := spendPlainText

end ZetoTransferSmall

namespace Zeto

def plainText : ℕ → ℕ → Signals → List ℕ := spendPlainText

end Zeto

namespace ZetoTransferSmallCtf

def plainText : ℕ → ℕ → Signals → List ℕ := spendPlainText

end ZetoTransferSmallCtf

namespace ZetoCtf

def plainText : ℕ → ℕ → Signals → List ℕ := spendPlainText

end ZetoCtf

-- The template each operation's circuit instantiates, at its arity; `ctf` picks the `Ctf` build.
def plainTextOf (ctf : Bool) (B : ℕ) (kind : OpKind) (s : Signals) : List ℕ :=
  let transfer := if ctf then ZetoTransferSmallCtf.plainText else ZetoTransferSmall.plainText
  match kind with
  | .deposit => BongtuDepositAuthority.plainText 2 s
  | .withdraw => CheckNullifiersInputsOutputsValueIMT.plainText 2 1 s
  | .transfer => transfer 2 2 s
  | .transfer10 => transfer 10 10 s
  | .transfer10x2 => transfer 10 2 s
  | .disburse => (if ctf then ZetoCtf.plainText else Zeto.plainText) 1 B s

namespace PlainText

-- The fields written so far, and zeros behind them.
structure Written (n : ℕ) (xs : List ℕ) (t : PlainText) : Prop where
  idx : t.idx = xs.length
  plainText : t.plainText = xs ++ List.replicate (n - xs.length) 0

variable {n : ℕ} {xs : List ℕ} {t : PlainText}

theorem written_declare (n : ℕ) : Written n [] (declare n) := ⟨rfl, rfl⟩

theorem Written.put (h : Written n xs t) (hroom : xs.length < n) (x : ℕ) :
    Written n (xs ++ [x]) (t.put x) where
  idx := by simp [PlainText.put, h.idx]
  plainText := by
    obtain ⟨rest, hrest⟩ : ∃ rest, n - xs.length = rest + 1 := ⟨n - xs.length - 1, by omega⟩
    have hleft : n - (xs ++ [x]).length = rest := by
      rw [List.length_append, List.length_singleton]
      omega
    rw [hleft]
    simp only [PlainText.put, h.idx, h.plainText, hrest, List.replicate_succ]
    simp [List.set_append_right]

theorem Written.putPairs (h : Written n xs t) (pairs : ℕ) (first second : ℕ → ℕ)
    (hroom : xs.length + 2 * pairs ≤ n) :
    Written n (xs ++ ((List.range pairs).map fun i => [first i, second i]).flatten)
      (t.putPairs pairs first second) := by
  induction pairs with
  | zero => simpa [PlainText.putPairs] using h
  | succ pairs ih =>
    have hlen : (xs ++ ((List.range pairs).map fun i => [first i, second i]).flatten).length =
        xs.length + 2 * pairs := by
      rw [List.length_append, Blocks.length_flatten (n := 2) (by simp)]
      simp [Nat.mul_comm]
    have hlast := ((ih (by omega)).put (by omega) (first pairs)).put
      (by rw [List.length_append, List.length_singleton]; omega) (second pairs)
    rw [PlainText.putPairs, List.range_succ, List.foldl_append]
    simpa [PlainText.putPairs] using hlast

theorem Written.full (h : Written n xs t) (hfull : xs.length = n) : t.plainText = xs := by
  rw [h.plainText, hfull, Nat.sub_self, List.replicate_zero, List.append_nil]

end PlainText

end Bongtu.Circuit
