import Bongtu.Core.Note

namespace Bongtu.Core

-- What `trim` strips.
def jsSpace (c : Char) : Bool :=
  c ∈ ['\t', '\n', '\x0b', '\x0c', '\r', ' ', '\u00a0', '\u1680', '\u2028', '\u2029', '\u202f', '\u205f',
    '\u3000', '\ufeff'] ∨ ('\u2000' ≤ c ∧ c ≤ '\u200a')

def trim (s : String) : String :=
  String.ofList ((s.toList.dropWhile jsSpace).reverse.dropWhile jsSpace).reverse

-- The Kelvin sign is the one other character that lowers to a letter of the alphabet.
def lowerChar (c : Char) : Char := if c = '\u212a' then 'k' else c.toLower

def toLowerCase (s : String) : String := String.ofList (s.toList.map lowerChar)

def strip0x (s : String) : List Char :=
  match s.toList with
  | '0' :: 'x' :: h | '0' :: 'X' :: h => h
  | h => h

def hexDigit (c : Char) : Option ℕ :=
  if '0' ≤ c ∧ c ≤ '9' then some (c.toNat - '0'.toNat)
  else if 'a' ≤ c ∧ c ≤ 'f' then some (c.toNat - 'a'.toNat + 10)
  else if 'A' ≤ c ∧ c ≤ 'F' then some (c.toNat - 'A'.toNat + 10)
  else none

-- Big-endian.
def hexNumber (digits : List Char) : Option ℕ := do
  let values ← digits.mapM hexDigit
  return values.foldl (fun n d => n * 16 + d) 0

def hexBytes : List Char → Option (List ℕ)
  | [] => some []
  | [_] => none
  | a :: b :: rest => do
    let hi ← hexDigit a
    let lo ← hexDigit b
    let bytes ← hexBytes rest
    return (hi * 16 + lo) :: bytes

def hexChar (d : ℕ) : Char := "0123456789abcdef".toList.getD d '0'

def bytesToHex (bytes : List ℕ) : String :=
  "0x" ++ String.ofList (bytes.flatMap fun b => [hexChar (b / 16), hexChar (b % 16)])

def isNameChar (c : Char) : Bool := ('a' ≤ c ∧ c ≤ 'z') ∨ ('0' ≤ c ∧ c ≤ '9')

-- `NAME_PATTERN`.
def isName (name : List Char) : Bool :=
  3 ≤ name.length ∧ name.length ≤ 32 ∧ name.all (fun c => isNameChar c ∨ c = '-') ∧
    name.head?.any isNameChar ∧ name.getLast?.any isNameChar

def normalizeName (raw : String) : Option String :=
  let name := toLowerCase (trim raw)
  if isName name.toList then some name else none

def subgroupOrder : ℕ := 2736030358979909402780800718157159386076813972158567259200215660948447373041

-- The curve the owner keys live on; `xRoot` is a root of the x² that belongs to a y.
structure Curve where
  base8 : Point
  addPoint : Point → Point → Point
  mulPointEscalar : Point → ℕ → Point
  xRoot : ℕ → Option ℕ

def isOnCurve (q : Point) : Bool :=
  (168700 * (q.1 * q.1) + q.2 * q.2) % snarkScalarField =
    (1 + 168696 * (q.1 * q.1) * (q.2 * q.2)) % snarkScalarField

def identityPoint : Point := (0, 1)

def packPubkey (q : Point) : String :=
  bytesToHex ((List.range 32).map fun i =>
    let byte := q.2 / 256 ^ i % 256
    if i = 31 ∧ q.1 % 2 = 1 ∧ byte < 128 then byte + 128 else byte)

inductive PubkeyError where
  | notHex
  | outOfRange
  | offCurve
deriving DecidableEq, Repr

inductive SignatureError where
  | notHex
  | unreduced
deriving DecidableEq, Repr

structure Signature where
  r8 : Point
  s : ℕ
deriving DecidableEq, Repr

def parseSignature (hex : String) : Except SignatureError Signature :=
  let h := strip0x hex
  if h.length ≠ 192 then .error .notHex
  else match hexNumber (h.take 64), hexNumber ((h.drop 64).take 64), hexNumber (h.drop 128) with
    | some x, some y, some s =>
      if snarkScalarField ≤ x ∨ snarkScalarField ≤ y ∨ subgroupOrder ≤ s then .error .unreduced
      else .ok ⟨(x, y), s⟩
    | _, _, _ => .error .notHex

namespace Curve

variable (curve : Curve)

-- The root whose parity is the sign bit.
def unpackPubkey (hex : String) : Except PubkeyError Point :=
  let h := strip0x hex
  match hexBytes h with
  | none => .error .notHex
  | some bytes =>
    if h.length ≠ 64 then .error .notHex
    else
      let word := bytes.foldr (fun b n => n * 256 + b) 0
      let y := word % 2 ^ 255
      if snarkScalarField ≤ y then .error .outOfRange
      else match curve.xRoot y with
        | none => .error .offCurve
        | some root =>
          let x := if root % 2 = word / 2 ^ 255 then root
            else (snarkScalarField - root) % snarkScalarField
          if isOnCurve (x, y) then .ok (x, y) else .error .offCurve

def verifyNotesAuth (poseidonN : List ℕ → ℕ) (pubkey : Point) (msg : ℕ) (sig : Signature) : Bool :=
  isOnCurve pubkey ∧ isOnCurve sig.r8 ∧ sig.s < subgroupOrder ∧ pubkey ≠ identityPoint ∧
    curve.mulPointEscalar pubkey subgroupOrder = identityPoint ∧
    curve.mulPointEscalar curve.base8 sig.s =
      curve.addPoint sig.r8 (curve.mulPointEscalar pubkey
        (poseidonN [sig.r8.1, sig.r8.2, pubkey.1, pubkey.2, msg]))

end Curve

end Bongtu.Core
