import Bongtu.Merkle.Dense

namespace Bongtu

open Merkle

inductive TreeOp (W : Type) where
  | append (leaf : W)
  | attach (subtreeRoot : W) (leaves : Option (List W))
deriving DecidableEq, Repr

variable {W : Type} [Zero W]

namespace TreeOp

def content (k : ℕ) (c : Content W) : TreeOp W → Content W
  | append leaf => c.place 0 leaf
  | attach subtreeRoot _ => c.attach 0 k subtreeRoot

-- The dense leaf vector: pads are zero leaves, `block r` are the leaves under an attached root.
def dense (k : ℕ) (block : W → List W) (xs : List W) : TreeOp W → List W
  | append leaf => xs ++ [leaf]
  | attach subtreeRoot _ =>
    xs ++ List.replicate (Content.padding k xs.length) 0 ++ block subtreeRoot

end TreeOp

def contentOf (k : ℕ) (ops : List (TreeOp W)) : Content W :=
  ops.foldl (TreeOp.content k) Content.empty

def denseOf (k : ℕ) (block : W → List W) (ops : List (TreeOp W)) : List W :=
  ops.foldl (TreeOp.dense k block) []

end Bongtu
