import Bongtu.ByteOrder
import Bongtu.Core.Ens
import Bongtu.Indexer.NameRoutes
import Bongtu.Indexer.Portal

namespace Bongtu.Indexer.EnsGateway

open ByteOrder Core Core.Ens Outcome

-- What is no pairs of hex digits is an error.
def hexToBytes (digits : List Char) : Option Bytes := (hexBytes digits).map fun bytes => bytes.map UInt8.ofNat

def resolveSelector : List Char := "0x9061b923".toList

def addrSelector : Bytes := [0x3b, 0x3b, 0x57, 0xde]

def addrCoinTypeSelector : Bytes := [0xf1, 0xcb, 0x7e, 0x06]

def expirySeconds : ℕ := 300

-- `keyValid`: the signing key is a scalar of the curve.
structure EnsConfig where
  resolver : List Char
  chainId : ℕ
  keyValid : Bool

structure StealthDerivation where
  ephemeralPub : ℕ
  viewTag : ℕ
  address : ℕ

-- The indexer as a lookup finds it, the ABI decoder and the hash; `none` and `false` are calls that
-- throw.
structure GatewayHost where
  ens : Option EnsConfig
  portalPrivFactory : Option Evm.Address
  portalPrivAddressOf : Option (ℕ → Option Evm.Address)
  resolveName : NameMap
  decodeResolve : List Char → Option (Bytes × Bytes)
  decodeNode : Bytes → Option Bytes
  decodeNodeCoinType : Bytes → Option (Bytes × ℕ)
  keccak256 : Bytes → Bytes
  deriveStealthAddress : String → String → ℕ → Option StealthDerivation
  insertRow : PortalRecord → Bool
  sign : Bytes → Bytes

structure DecodedLookup where
  name : Name
  node : Bytes
  coinType : ℕ
  legacyAddr : Bool

inductive EnsRefusal where
  | unconfigured
  | unknownResolver
  | unsupportedCalldata
  | nodeMismatch
  | coinTypeNotServed (coinType : ℕ)
  | labelNotResolvable
  | nameNotRegistered
  | noStealthIdentity
  | noConsumerIdentity
deriving DecidableEq, Repr

def EnsRefusal.status : EnsRefusal → ℕ
  | .unsupportedCalldata | .nodeMismatch => 400
  | _ => 404

inductive EnsThrow where
  | derivation
  | addressOf
  | duplicateStealthAddress (stealthAddr : ℕ)
  | insert
  | hexString
  | resolverBytes
  | expiresOutOfUint64
  | signingKey
deriving DecidableEq, Repr

-- `responseData` is the ABI encoding of the three.
structure EnsAnswer where
  result : Bytes
  expires : ℕ
  sig : Bytes
deriving DecidableEq, Repr

-- A throw reaches the router, which answers 500.
inductive EnsResponse where
  | refused (e : EnsRefusal)
  | threw (e : EnsThrow)
  | served (answer : EnsAnswer)
deriving DecidableEq, Repr

def EnsResponse.status : EnsResponse → ℕ
  | refused e => e.status
  | threw _ => 500
  | served _ => 200

inductive GatewayAction where
  | recorded (record : PortalRecord)
  | signed (digest : Bytes)

structure GatewayWorld where
  registry : PortalRegistry
  actions : List GatewayAction

def chainForCoinType (coinType : ℕ) : Option ℕ :=
  if coinType = 60 then some 1
  else if 0x80000000 ≤ coinType ∧ coinType ≤ 0xffffffff then some (coinType - 0x80000000)
  else none

def scalarOf : CodePoint → Option Char
  | .scalar c => some c
  | .surrogate _ => none

def directoryLabel (label : Name) : Option String := do
  let lowered := (← label.mapM scalarOf).map lowerChar
  if 1 ≤ lowered.length ∧ lowered.length ≤ 64 ∧ lowered.all fun c => isNameChar c ∨ c = '-' then
    some (String.ofList lowered)
  else none

def encodeResult (legacyAddr : Bool) (destination : Evm.Address) : Bytes :=
  if legacyAddr then toBE 32 destination
  else toBE 32 32 ++ toBE 32 20 ++ toBE 20 destination ++ List.replicate 12 0

def resolverBytes (resolver : List Char) : Option Bytes :=
  (hexToBytes ((if resolver.take 2 = ['0', 'x'] then resolver.drop 2 else resolver).map lowerChar)).filter
    fun bytes => bytes.length = 20

def gatewaySignatureHash (keccak256 : Bytes → Bytes) (resolver : List Char) (expires : ℕ) (request result : Bytes) :
    Except EnsThrow Bytes := do
  let addressBytes ← (resolverBytes resolver).elim (.error .resolverBytes) .ok
  require (expires ≤ 0xffffffffffffffff) .expiresOutOfUint64
  return keccak256 ([0x19, 0x00] ++ addressBytes ++ toBE 8 expires ++ keccak256 request ++ keccak256 result)

namespace GatewayHost

variable (host : GatewayHost)

def decodeLookup (dataHex : List Char) : Option DecodedLookup := do
  if dataHex.take 2 ≠ ['0', 'x'] ∨ (dataHex.drop 2).length < 8 ∨ ¬(dataHex.drop 2).all fun c => (hexDigit c).isSome then
    none
  else if (dataHex.take 10).map lowerChar ≠ resolveSelector then none
  else
    let (nameWire, inner) ← host.decodeResolve (dataHex.drop 10)
    let name ← (dnsDecodeName nameWire).toOption
    if name = [] then none
    else if inner.take 4 = addrSelector then
      let node ← host.decodeNode (inner.drop 4)
      return ⟨name, node, 60, true⟩
    else if inner.take 4 = addrCoinTypeSelector then
      let (node, coinType) ← host.decodeNodeCoinType (inner.drop 4)
      return ⟨name, node, coinType, false⟩
    else none

structure Admission where
  ens : EnsConfig
  factory : Evm.Address
  addressOf : ℕ → Option Evm.Address
  label : String
  record : NameRecord
  legacyAddr : Bool

-- All checks before the derivation.
def accept (sender data : List Char) : Except EnsRefusal Admission :=
  match host.ens, host.portalPrivFactory, host.portalPrivAddressOf with
  | some ens, some factory, some addressOf => do
    require (sender.map lowerChar = ens.resolver.map lowerChar) .unknownResolver
    let lookup ← (host.decodeLookup data).elim (.error .unsupportedCalldata) .ok
    require (namehash host.keccak256 lookup.name = lookup.node) .nodeMismatch
    require (lookup.legacyAddr ∨ chainForCoinType lookup.coinType = some ens.chainId)
      (.coinTypeNotServed lookup.coinType)
    let label ← (directoryLabel ((lookup.name.splitOn dot).headD [])).elim (.error .labelNotResolvable) .ok
    let record ← (host.resolveName label).elim (.error .nameNotRegistered) .ok
    require (record.viewPub ≠ "" ∧ record.spendPub ≠ "") .noStealthIdentity
    let pair := record.pair.present
    require (pair.noteViewPub.isSome ∧ pair.kemEk.isSome ∧ pair.noteViewPub ≠ some noteViewPubZero ∧
      pair.kemEk ≠ some kemEkZero) .noConsumerIdentity
    return ⟨ens, factory, addressOf, label, record, lookup.legacyAddr⟩
  | _, _, _ => .error .unconfigured

def derive (a : Admission) (scalar : ℕ) : Except EnsThrow (StealthDerivation × Evm.Address) := do
  let derived ← (host.deriveStealthAddress a.record.viewPub a.record.spendPub scalar).elim (.error .derivation) .ok
  let destination ← (a.addressOf derived.address).elim (.error .addressOf) .ok
  return (derived, destination)

def fieldsOf (a : Admission) (derived : StealthDerivation) (destination : Evm.Address) : PortalIssuanceFields where
  name := a.label
  owner := a.record.owner
  ephemeralPub := derived.ephemeralPub
  viewTag := derived.viewTag
  stealthAddr := derived.address
  destination := destination
  factory := some a.factory
  rail := "evm"

-- The number is drawn also by a call that fails.
def issue (fields : PortalIssuanceFields) (nowSeconds : ℕ) (r : PortalRegistry) :
    Except EnsThrow PortalRecord × PortalRegistry :=
  if r.draw.hasStealth fields.stealthAddr then (.error (.duplicateStealthAddress fields.stealthAddr), r.draw)
  else if host.insertRow (r.draft fields nowSeconds) then
    (.ok (r.draft fields nowSeconds), r.draw.index (r.draft fields nowSeconds))
  else (.error .insert, r.draw)

def answer (a : Admission) (destination : Evm.Address) (data : List Char) (nowSeconds : ℕ) :
    Except EnsThrow (EnsAnswer × Bytes) := do
  let result := encodeResult a.legacyAddr destination
  let expires := nowSeconds + expirySeconds
  let request ← (hexToBytes (data.drop 2)).elim (.error .hexString) .ok
  let digest ← gatewaySignatureHash host.keccak256 a.ens.resolver expires request result
  require a.ens.keyValid .signingKey
  return (⟨result, expires, host.sign digest⟩, digest)

def handleEnsResolve (sender data : List Char) (scalar nowSeconds : ℕ) (w : GatewayWorld) :
    EnsResponse × GatewayWorld :=
  match host.accept sender data with
  | .error e => (.refused e, w)
  | .ok a =>
    match host.derive a scalar with
    | .error e => (.threw e, w)
    | .ok (derived, destination) =>
      match host.issue (fieldsOf a derived destination) nowSeconds w.registry with
      | (.error e, registry) => (.threw e, { w with registry := registry })
      | (.ok record, registry) =>
        match host.answer a destination data nowSeconds with
        | .error e => (.threw e, ⟨registry, w.actions ++ [.recorded record]⟩)
        | .ok (answer, digest) => (.served answer, ⟨registry, w.actions ++ [.recorded record, .signed digest]⟩)

end GatewayHost

section Resolver

inductive ResolverError where
  | signatureExpired (expires : ℕ)
  | malformedSignature (length : ℕ)
  | untrustedSigner (recovered : Evm.Address)
deriving DecidableEq, Repr

variable (keccak256 : Bytes → Bytes) (self : Bytes)

-- What `resolveWithProof` hashes.
def resolverDigest (expires : ℕ) (extraData result : Bytes) : Bytes :=
  keccak256 ([0x19, 0x00] ++ self ++ toBE 8 expires ++ keccak256 extraData ++ keccak256 result)

-- `response` is decoded; a recovery that fails gives the zero address.
def resolveWithProof (ecrecover : Bytes → Bytes → Evm.Address) (signer : Evm.Address) (timestamp : ℕ)
    (answer : EnsAnswer) (extraData : Bytes) : Except ResolverError Bytes := do
  require (timestamp ≤ answer.expires) (.signatureExpired answer.expires)
  require (answer.sig.length = 65) (.malformedSignature answer.sig.length)
  let recovered := ecrecover (resolverDigest keccak256 self answer.expires extraData answer.result) answer.sig
  require (recovered ≠ 0 ∧ recovered = signer) (.untrustedSigner recovered)
  return answer.result

end Resolver

section Handler

variable {host : GatewayHost} {sender data : List Char} {scalar nowSeconds : ℕ} {w : GatewayWorld}

open GatewayHost

-- The request gets as far as the registry, which takes its row.
def Issues (host : GatewayHost) (sender data : List Char) (scalar nowSeconds : ℕ) (w : GatewayWorld) : Prop :=
  ∃ a derived destination, host.accept sender data = .ok a ∧ host.derive a scalar = .ok (derived, destination) ∧
    w.registry.hasStealth derived.address = false ∧
      host.insertRow (w.registry.draft (fieldsOf a derived destination) nowSeconds)

-- Even hex, and a deployment that can sign: its resolver an address, its key a scalar, its clock in range.
def Answerable (host : GatewayHost) (data : List Char) (nowSeconds : ℕ) : Prop :=
  data.length % 2 = 0 ∧ ∃ ens, host.ens = some ens ∧ (resolverBytes ens.resolver).isSome ∧ ens.keyValid ∧
    nowSeconds + expirySeconds < 2 ^ 64

structure MintsExactly (host : GatewayHost) (data : List Char) (w : GatewayWorld) (out : EnsResponse × GatewayWorld) :
    Prop where
  served : ∀ answer, out.1 = .served answer → ∃ row ens self request digest legacyAddr,
    out.2.registry.records = w.registry.records ++ [row] ∧
      out.2.actions = w.actions ++ [.recorded row, .signed digest] ∧
      answer.result = encodeResult legacyAddr row.destination ∧ answer.sig = host.sign digest ∧
      host.ens = some ens ∧ resolverBytes ens.resolver = some self ∧ hexToBytes (data.drop 2) = some request ∧
      digest = resolverDigest host.keccak256 self answer.expires request answer.result
  unserved : out.1.status ≠ 200 → out.2.registry.records = w.registry.records ∧
    out.2.registry.bySalt = w.registry.bySalt ∧ out.2.actions = w.actions

theorem hexBytes_isSome : ∀ {digits : List Char}, (∀ c ∈ digits, (hexDigit c).isSome) →
    ((hexBytes digits).isSome ↔ digits.length % 2 = 0)
  | [], _ => by simp [hexBytes]
  | [_], _ => by simp [hexBytes]
  | a :: b :: digits, h => by
    obtain ⟨hi, hhi⟩ := Option.isSome_iff_exists.1 (h a (by simp))
    obtain ⟨lo, hlo⟩ := Option.isSome_iff_exists.1 (h b (by simp))
    have ih : (hexBytes digits).isSome ↔ _ := hexBytes_isSome fun c hc => h c (by simp [hc])
    have hparity : (a :: b :: digits).length % 2 = digits.length % 2 := by
      rw [List.length_cons, List.length_cons]
      omega
    rw [hparity, ← ih, hexBytes, hhi, hlo]
    cases hexBytes digits <;> rfl

theorem decodeLookup_hex {lookup : DecodedLookup} (h : host.decodeLookup data = some lookup) :
    2 ≤ data.length ∧ ∀ c ∈ data.drop 2, (hexDigit c).isSome := by
  rw [decodeLookup] at h
  split at h
  · cases h
  · next hshape =>
    push Not at hshape
    obtain ⟨-, hlen, hall⟩ := hshape
    rw [List.length_drop] at hlen
    exact ⟨by omega, by simpa using hall⟩

theorem accept_hex {a : Admission} (h : host.accept sender data = .ok a) :
    host.ens = some a.ens ∧ ((hexToBytes (data.drop 2)).isSome ↔ data.length % 2 = 0) := by
  rw [accept] at h
  split at h
  · next ens factory addressOf hens _ _ =>
    obtain ⟨_, _, h⟩ := bind_ok.1 h
    obtain ⟨lookup, hlookup, h⟩ := bind_ok.1 h
    have hsome : host.decodeLookup data = some lookup := by
      cases hdecode : host.decodeLookup data with
      | none => simp [hdecode] at hlookup
      | some found =>
        rw [hdecode] at hlookup
        exact congrArg some (Except.ok.inj hlookup)
    obtain ⟨hlen, hhex⟩ := decodeLookup_hex hsome
    have hbytes := hexBytes_isSome hhex
    rw [List.length_drop] at hbytes
    obtain ⟨_, _, h⟩ := bind_ok.1 h
    obtain ⟨_, _, h⟩ := bind_ok.1 h
    obtain ⟨_, _, h⟩ := bind_ok.1 h
    obtain ⟨_, _, h⟩ := bind_ok.1 h
    obtain ⟨_, _, h⟩ := bind_ok.1 h
    obtain ⟨_, _, h⟩ := bind_ok.1 h
    obtain rfl := Except.ok.inj h
    refine ⟨hens, ?_⟩
    rw [hexToBytes, Option.isSome_map, hbytes]
    omega
  · cases h

theorem elim_ok {ε α : Type} {x : Option α} {e : ε} {a : α} :
    x.elim (.error e : Except ε α) .ok = .ok a ↔ x = some a := by
  cases x <;> simp

theorem answer_ok {a : Admission} {destination : Evm.Address} {answered : EnsAnswer} {digest : Bytes} :
    host.answer a destination data nowSeconds = .ok (answered, digest) ↔ ∃ request self,
      hexToBytes (data.drop 2) = some request ∧ resolverBytes a.ens.resolver = some self ∧
        nowSeconds + expirySeconds ≤ 0xffffffffffffffff ∧ a.ens.keyValid ∧
        answered = ⟨encodeResult a.legacyAddr destination, nowSeconds + expirySeconds, host.sign digest⟩ ∧
        digest = resolverDigest host.keccak256 self answered.expires request answered.result := by
  simp only [answer, gatewaySignatureHash, bind_ok, elim_ok, require_ok]
  constructor
  · rintro ⟨request, hrequest, digest', ⟨self, hself, _, hexpires, hdigest⟩, _, hkey, h⟩
    obtain ⟨rfl, rfl⟩ := Prod.mk.inj (Except.ok.inj h)
    exact ⟨request, self, hrequest, hself, hexpires, hkey, rfl, (Except.ok.inj hdigest).symm⟩
  · rintro ⟨request, self, hrequest, hself, hexpires, hkey, rfl, hdigest⟩
    exact ⟨request, hrequest, digest, ⟨self, hself, (), hexpires, congrArg Except.ok hdigest.symm⟩, (), hkey, rfl⟩

theorem answerable_iff {a : Admission} (destination : Evm.Address) (h : host.accept sender data = .ok a) :
    (∃ r, host.answer a destination data nowSeconds = .ok r) ↔ Answerable host data nowSeconds := by
  obtain ⟨hens, hparity⟩ := accept_hex h
  rw [Answerable, ← hparity]
  constructor
  · rintro ⟨⟨answered, digest⟩, hanswer⟩
    obtain ⟨request, self, hrequest, hself, hexpires, hkey, -, -⟩ := answer_ok.1 hanswer
    exact ⟨by simp [hrequest], a.ens, hens, by simp [hself], hkey, by omega⟩
  · rintro ⟨hdata, ens, hens', hresolver, hkey, hexpires⟩
    obtain rfl : a.ens = ens := Option.some.inj (hens.symm.trans hens')
    obtain ⟨request, hrequest⟩ := Option.isSome_iff_exists.1 hdata
    obtain ⟨self, hself⟩ := Option.isSome_iff_exists.1 hresolver
    exact ⟨(_, resolverDigest host.keccak256 self (nowSeconds + expirySeconds) request
      (encodeResult a.legacyAddr destination)), answer_ok.2 ⟨request, self, hrequest, hself, by omega, hkey, rfl, rfl⟩⟩

theorem issue_cases (host : GatewayHost) (nowSeconds : ℕ) (fields : PortalIssuanceFields) (r : PortalRegistry) :
    (r.hasStealth fields.stealthAddr = false ∧ host.insertRow (r.draft fields nowSeconds) ∧
      host.issue fields nowSeconds r =
        (.ok (r.draft fields nowSeconds), r.draw.index (r.draft fields nowSeconds))) ∨
    (¬(r.hasStealth fields.stealthAddr = false ∧ host.insertRow (r.draft fields nowSeconds)) ∧
      ∃ e, host.issue fields nowSeconds r = (.error e, r.draw)) := by
  have hsame : r.draw.hasStealth fields.stealthAddr = r.hasStealth fields.stealthAddr := rfl
  rw [issue, hsame]
  cases r.hasStealth fields.stealthAddr with
  | true => exact .inr ⟨by simp, _, if_pos rfl⟩
  | false =>
    cases host.insertRow (r.draft fields nowSeconds) with
    | true => exact .inl ⟨rfl, rfl, rfl⟩
    | false => exact .inr ⟨by simp, _, rfl⟩

theorem mintsExactly_of_unminted {out : EnsResponse × GatewayWorld} (hserved : ∀ answer, out.1 ≠ .served answer)
    (hrecords : out.2.registry.records = w.registry.records) (hsalt : out.2.registry.bySalt = w.registry.bySalt)
    (hactions : out.2.actions = w.actions) : MintsExactly host data w out :=
  ⟨fun answer h => absurd h (hserved answer), fun _ => ⟨hrecords, hsalt, hactions⟩⟩

theorem gateway_mints_exactly_iff (host : GatewayHost) (sender data : List Char) (scalar nowSeconds : ℕ)
    (w : GatewayWorld) :
    MintsExactly host data w (host.handleEnsResolve sender data scalar nowSeconds w) ↔
      (Issues host sender data scalar nowSeconds w → Answerable host data nowSeconds) := by
  cases haccept : host.accept sender data with
  | error e =>
    have hout : host.handleEnsResolve sender data scalar nowSeconds w = (.refused e, w) := by
      rw [handleEnsResolve, haccept]
    refine iff_of_true ?_ ?_
    · rw [hout]
      exact mintsExactly_of_unminted (fun _ => by simp) rfl rfl rfl
    · rintro ⟨a, derived, destination, h, -⟩
      rw [haccept] at h
      cases h
  | ok a =>
    cases hderive : host.derive a scalar with
    | error e =>
      have hout : host.handleEnsResolve sender data scalar nowSeconds w = (.threw e, w) := by
        rw [handleEnsResolve, haccept]
        simp only [hderive]
      refine iff_of_true ?_ ?_
      · rw [hout]
        exact mintsExactly_of_unminted (fun _ => by simp) rfl rfl rfl
      · rintro ⟨a', derived, destination, h, h', -⟩
        obtain rfl := Except.ok.inj (haccept.symm.trans h)
        rw [hderive] at h'
        cases h'
    | ok found =>
      obtain ⟨derived, destination⟩ := found
      have hissues : Issues host sender data scalar nowSeconds w ↔
          w.registry.hasStealth derived.address = false ∧
            host.insertRow (w.registry.draft (fieldsOf a derived destination) nowSeconds) := by
        constructor
        · rintro ⟨a', derived', destination', h, h', hnew, hinsert⟩
          obtain rfl := Except.ok.inj (haccept.symm.trans h)
          obtain ⟨rfl, rfl⟩ := Prod.mk.inj (Except.ok.inj (hderive.symm.trans h'))
          exact ⟨hnew, hinsert⟩
        · rintro ⟨hnew, hinsert⟩
          exact ⟨a, derived, destination, haccept, hderive, hnew, hinsert⟩
      rcases issue_cases host nowSeconds (fieldsOf a derived destination) w.registry with
        ⟨hnew, hinsert, hissue⟩ | ⟨hrefused, e, hissue⟩
      · rw [hissues, imp_iff_right ⟨hnew, hinsert⟩, ← answerable_iff destination haccept]
        cases hanswer : host.answer a destination data nowSeconds with
        | error e =>
          have hout : host.handleEnsResolve sender data scalar nowSeconds w =
              (.threw e, ⟨w.registry.draw.index (w.registry.draft (fieldsOf a derived destination) nowSeconds),
                w.actions ++ [.recorded (w.registry.draft (fieldsOf a derived destination) nowSeconds)]⟩) := by
            rw [handleEnsResolve, haccept]
            simp only [hderive, hissue, hanswer]
          refine iff_of_false (fun hmints => ?_) (fun ⟨r, hr⟩ => by cases hr)
          have hkept := (hmints.unserved (by simp [hout, EnsResponse.status])).1
          rw [hout] at hkept
          simp at hkept
        | ok r =>
          obtain ⟨answered, digest⟩ := r
          have hout : host.handleEnsResolve sender data scalar nowSeconds w = (.served answered,
              ⟨w.registry.draw.index (w.registry.draft (fieldsOf a derived destination) nowSeconds),
                w.actions ++ [.recorded (w.registry.draft (fieldsOf a derived destination) nowSeconds),
                  .signed digest]⟩) := by
            rw [handleEnsResolve, haccept]
            simp only [hderive, hissue, hanswer]
          refine iff_of_true ?_ ⟨_, rfl⟩
          rw [hout]
          refine ⟨fun found hfound => ?_, fun hstatus => absurd rfl hstatus⟩
          obtain rfl := EnsResponse.served.inj hfound
          obtain ⟨request, self, hrequest, hself, -, -, hanswered, hdigest⟩ := answer_ok.1 hanswer
          exact ⟨_, a.ens, self, request, digest, a.legacyAddr, rfl, rfl, by rw [hanswered]; rfl, by rw [hanswered],
            (accept_hex haccept).1, hself, hrequest, hdigest⟩
      · have hout : host.handleEnsResolve sender data scalar nowSeconds w =
            (.threw e, { w with registry := w.registry.draw }) := by
          rw [handleEnsResolve, haccept]
          simp only [hderive, hissue]
        refine iff_of_true ?_ fun h => absurd (hissues.1 h) hrefused
        rw [hout]
        exact mintsExactly_of_unminted (fun _ => by simp) rfl rfl rfl

end Handler

-- An answer is good at the contract for as long as it lasts.
theorem resolveWithProof_served {host : GatewayHost} {data : List Char} {w w' : GatewayWorld} {answer : EnsAnswer}
    {ecrecover : Bytes → Bytes → Evm.Address} {signer : Evm.Address} {timestamp : ℕ}
    (hmints : MintsExactly host data w (.served answer, w')) (hlive : timestamp ≤ answer.expires)
    (hsign : ∀ digest, (host.sign digest).length = 65 ∧ ecrecover digest (host.sign digest) = signer)
    (hsigner : signer ≠ 0) : ∃ ens self request, host.ens = some ens ∧ resolverBytes ens.resolver = some self ∧
      hexToBytes (data.drop 2) = some request ∧
      resolveWithProof host.keccak256 self ecrecover signer timestamp answer request = .ok answer.result := by
  obtain ⟨row, ens, self, request, digest, legacyAddr, -, -, -, hsig, hens, hself, hrequest, hdigest⟩ :=
    hmints.served answer rfl
  refine ⟨ens, self, request, hens, hself, hrequest, ?_⟩
  obtain ⟨hlen, hrecovers⟩ := hsign digest
  rw [← hsig] at hlen hrecovers
  simp only [resolveWithProof, bind_ok, require_ok]
  rw [← hdigest, hrecovers]
  exact ⟨(), hlive, (), hlen, (), ⟨hsigner, rfl⟩, rfl⟩

section Sample

def aliceNode : Bytes := toBE 32 0x24343f82ad351b7c6160d3d88e9190179a6840958c45b433731d5b3e18df40fc

-- The two values of the hash that the lookup of `alice` takes.
def aliceKeccak (bytes : Bytes) : Bytes :=
  if bytes = [0x61, 0x6c, 0x69, 0x63, 0x65] then
    toBE 32 0x9c0257114eb9399a2985f8e75dad7600c5d89fe3824ffa99ec1c3eb8bf3b0501
  else aliceNode

-- The ABI's `(bytes, bytes)`, hex of odd length read behind a zero nibble.
def decodeBytesPair (digits : List Char) : Option (Bytes × Bytes) := do
  let bytes ← hexToBytes (if digits.length % 2 = 0 then digits else '0' :: digits)
  let word (i : ℕ) := fromBE (readAt i 32 bytes)
  let field (at_ : ℕ) := readAt (word at_ + 32) (word (word at_)) bytes
  if (field 0).length = word (word 0) ∧ (field 32).length = word (word 32) then some (field 0, field 32) else none

def sampleResolver : List Char := "0x00000000000000000000000000000000000000e5".toList

def alice : NameRecord := ⟨"alice", "0xowner", "0xview", "0xspend", ⟨some "0xnoteview", some "0xek"⟩, 0⟩

def sampleHost : GatewayHost where
  ens := some ⟨sampleResolver, 11155111, true⟩
  portalPrivFactory := some 0xfac
  portalPrivAddressOf := some fun salt => some (salt + 1)
  resolveName := fun name => if name = "alice" then some alice else none
  decodeResolve := decodeBytesPair
  decodeNode := fun bytes => if 32 ≤ bytes.length then some (bytes.take 32) else none
  decodeNodeCoinType := fun _ => none
  keccak256 := aliceKeccak
  deriveStealthAddress := fun _ _ scalar => some ⟨1, 2, scalar⟩
  insertRow := fun _ => true
  sign := fun _ => List.replicate 65 0

-- `resolve` of `alice`, its call's arguments as 32-byte words.
def aliceArguments : Bytes :=
  toBE 32 0x40 ++ toBE 32 0x80 ++ toBE 32 7 ++ ([5, 0x61, 0x6c, 0x69, 0x63, 0x65, 0] ++ List.replicate 25 0) ++
    toBE 32 36 ++ (addrSelector ++ aliceNode ++ List.replicate 28 0)

-- The calldata less the first digit of its arguments, a zero.
def oddCalldata : List Char :=
  resolveSelector ++ (aliceArguments.flatMap fun b => [hexChar (b.toNat / 16), hexChar (b.toNat % 16)]).drop 1

def sampleWorld : GatewayWorld := ⟨.empty, []⟩

set_option maxRecDepth 20000 in
theorem odd_calldata_mints :
    ¬ MintsExactly sampleHost oddCalldata sampleWorld
      (sampleHost.handleEnsResolve sampleResolver oddCalldata 7 1700000000 sampleWorld) := by
  intro hmints
  have hrun : (sampleHost.handleEnsResolve sampleResolver oddCalldata 7 1700000000 sampleWorld).1 = .threw .hexString ∧
      (sampleHost.handleEnsResolve sampleResolver oddCalldata 7 1700000000 sampleWorld).2.registry.records.length = 1 := by
    decide +kernel
  have hkept := (hmints.unserved (by rw [hrun.1]; decide)).1
  rw [hkept] at hrun
  exact absurd hrun.2 (by decide)

end Sample

end Bongtu.Indexer.EnsGateway
