import Bongtu.Core.Text
import Bongtu.Outcome

namespace Bongtu.Core

open Outcome

inductive AddressError where
  | invalidCharacter (c : Char)
  | empty
  | badLength (bytes : ℕ)
  | badChecksum
  | unknownVersion (version : UInt8)
  | pubkey (e : PubkeyError)
deriving DecidableEq, Repr

def addressVersion : UInt8 := 0x42

def b58Alphabet : List Char := "123456789ABCDEFGHJKLMNPQRSTUVWXYZabcdefghijkmnopqrstuvwxyz".toList

def b58decode (s : List Char) : Except AddressError Bytes := do
  let n ← s.foldlM (fun (acc : ℕ) (c : Char) =>
    match b58Alphabet.idxOf? c with
    | none => .error (.invalidCharacter c)
    | some v => .ok (acc * 58 + v)) 0
  let leading := (s.takeWhile (· = '1')).length
  return List.replicate leading 0 ++ ((Nat.digits 256 n).reverse.map UInt8.ofNat)

def b58encode (bytes : Bytes) : List Char :=
  let n := bytes.foldl (fun acc b => acc * 256 + b.toNat) 0
  let leadingOnes := (bytes.takeWhile (· = 0)).length
  List.replicate leadingOnes '1' ++ (Nat.digits 58 n).reverse.map fun v => b58Alphabet.getD v '1'

-- `HEX_ADDRESS_RE`.
def isHexAddress (v : String) : Bool :=
  (strip0x v).length = 64 ∧ (strip0x v).all fun c => (hexDigit c).isSome

section Encode

variable (sha256 : Bytes → Bytes)

def Curve.checksum4 (versionAndPayload : Bytes) : Bytes := (sha256 (sha256 versionAndPayload)).take 4

-- `none` is the error about what is no 32 bytes in hex.
def encodeAddress (compressedHex : String) : Option String :=
  let v := trim compressedHex
  if isHexAddress v then
    (hexBytes (strip0x v)).map fun bytes =>
      let body := addressVersion :: bytes.map UInt8.ofNat
      String.ofList (b58encode (body ++ Curve.checksum4 sha256 body))
  else none

end Encode

namespace Curve

variable (curve : Curve) (sha256 : Bytes → Bytes)

def decodeAddress (input : String) : Except AddressError String := do
  let v := trim input
  if isHexAddress v then
    let _ ← (curve.unpackPubkey v).mapError .pubkey
    return "0x" ++ String.ofList ((strip0x v).map lowerChar)
  else
    require (v ≠ "") .empty
    let bytes ← b58decode v.toList
    require (bytes.length = 37) (.badLength bytes.length)
    let body := bytes.take 33
    require (checksum4 sha256 body = bytes.drop 33) .badChecksum
    let version := body.headD 0
    require (version = addressVersion) (.unknownVersion version)
    let hex := bytesToHex ((body.drop 1).map (·.toNat))
    let _ ← (curve.unpackPubkey hex).mapError .pubkey
    return hex

end Curve

end Bongtu.Core
