import Lij.Bitcoin.Basic

/-!
# The vendored joinstr core: data, messages and primitives

The pool parameters, registrations, transactions and wire messages of joinstr v2
as the wallet uses them. Points, nonces and signatures are kept in their
serialized form, which is also how the source orders and compares them.

`Primitives` collects what lies outside the wallet's own code: hashes, curve
operations, ring signatures, the MuSig2 crate, addresses, the JSON writer and
reader, and joinstr's transaction builder, whose result the wallet checks
against its own re-derivation. The laws it carries only say that written
messages are read back under their own type.
-/

namespace Lij.Joinstr

open Bitcoin

abbrev SessionKey := BitVec 256
abbrev Digest := BitVec 256
abbrev Point := BitVec 264
abbrev Scalar := BitVec 256
abbrev SecretKey := BitVec 256
abbrev PubNonce := BitVec 528
abbrev PartialSignature := BitVec 256
abbrev CompactSignature := BitVec 512
abbrev XOnlyPublicKey := BitVec 256

inductive Network where
  | bitcoin | testnet | signet | regtest
  deriving DecidableEq, Repr

inductive FeeSplit where
  | equal | byExit
  deriving DecidableEq, Repr

/-- What every payout of the pool is: an address of the member, or a channel. -/
inductive PayoutType where
  | p2tr | p2wsh
  deriving DecidableEq, Repr

inductive Structure where
  | chain | anyOrder | tree
  deriving DecidableEq, Repr

structure Class where
  amount : Nat
  peers : Nat
  deriving DecidableEq, Repr

structure Params where
  id : String
  peers : Nat
  classes : List Class
  feeRateMilli : Nat
  exits : List Nat
  exitRatesMilli : Nat × Nat
  feeSplit : FeeSplit
  anchor : Bool
  exitStructure : Structure
  payoutType : PayoutType
  deriving DecidableEq, Repr

structure InputRegistration where
  session : SessionKey
  amount : Nat
  musig : Point
  ring : Point
  inputs : List (OutPoint × TxOut)
  change : Option TxOut
  height : Nat
  deriving DecidableEq, Repr

structure Payout where
  script : Script
  amount : Nat
  priority : Nat
  deriving DecidableEq, Repr

/-- The pool output an exit spends, the pool outputs it creates and the payouts
it pays. -/
structure ExitLink where
  source : Nat
  creates : List (Nat × Nat)
  pays : List (Nat × Nat)
  depth : Nat
  deriving DecidableEq, Repr

structure PoolTxs where
  funding : Transaction
  fundingPrevouts : List TxOut
  poolVout : Nat
  exits : List Transaction
  spent : List TxOut
  links : List ExitLink
  payouts : List Script
  payoutAmounts : List Nat
  deriving DecidableEq, Repr

structure RingSig where
  keyImage : String
  c0 : String
  s : List String
  deriving DecidableEq, Repr

structure InputMsg where
  txid : String
  vout : Nat
  amount : Nat
  scriptPubkey : String
  proof : String
  deriving DecidableEq, Repr

structure ChangeMsg where
  address : String
  amount : Nat
  deriving DecidableEq, Repr

structure WitnessMsg where
  txid : String
  vout : Nat
  witness : List String
  deriving DecidableEq, Repr

/-- The pool messages. Credentials are opaque here: the machine ignores them. -/
inductive Msg where
  | joinPool
  | credentials (text : String)
  | reject (reason : String)
  | inputs (musigPubkey ringPubkey : String) (inputs : List InputMsg)
      (change : Option ChangeMsg) (height : Nat) (denomination : Option Nat)
  | output (address : String) (ringSig : RingSig) (priority : Nat) (denomination : Option Nat)
  | nonces (offset : Nat) (nonces : List String)
  | partialSigs (offset : Nat) (sigs : List String)
  | fundingSigs (witnesses : List WitnessMsg)
  | abort (reason : String)
  deriving DecidableEq, Repr

/-- The `"type"` of a text on the pool's wire. `view` is the wallet's own. -/
inductive Kind where
  | joinPool | credentials | reject | inputs | output | nonces | partialSigs | fundingSigs
  | abort | view
  deriving DecidableEq, Repr

def Msg.kind : Msg → Kind
  | .joinPool => .joinPool
  | .credentials _ => .credentials
  | .reject _ => .reject
  | .inputs .. => .inputs
  | .output .. => .output
  | .nonces .. => .nonces
  | .partialSigs .. => .partialSigs
  | .fundingSigs _ => .fundingSigs
  | .abort _ => .abort

/-- What the machine reads of a JSON object whose type is the view's. -/
structure ViewFields where
  fields : Nat
  version : Option String
  hash : Option String
  deriving DecidableEq, Repr

/-- The pool's MuSig2 keys, sorted; contexts are derived from them. -/
structure PoolKeys where
  keys : List Point
  deriving DecidableEq, Repr

/-- What the derivation of an extended public key reads. -/
structure Xpub where
  publicKey : Point
  chainCode : Digest
  deriving DecidableEq, Repr

structure Primitives where
  /-- JSON texts, compared only for equality. -/
  Text : Type
  textEq : DecidableEq Text
  /-- MuSig2 signing contexts, secret nonces and aggregated nonces. -/
  Ctx : Type
  SecNonce : Type
  AggNonce : Type
  /-- BIP-340 tagged SHA-256 over a concatenation. -/
  tagged : String → Bytes → Digest
  computeTxid : Transaction → Txid
  size : Text → Nat
  parseStrict : Text → Except String Msg
  /-- The fields of a JSON object of the view's type, none for any other text. -/
  viewFields : Text → Option ViewFields
  /-- `Envelope::json`. -/
  envelopeJson : Msg → Text
  /-- The wallet's view message for a hash text. -/
  viewJson : String → Text
  kindOf : Text → Option Kind
  envelopeJson_injective : Function.Injective envelopeJson
  kindOf_envelopeJson : ∀ msg, kindOf (envelopeJson msg) = some msg.kind
  kindOf_viewJson : ∀ hash, kindOf (viewJson hash) = some .view
  viewFields_kind : ∀ text, (viewFields text).isSome = true → kindOf text = some .view
  viewFields_viewJson : ∀ hash, viewFields (viewJson hash) = some ⟨3, some "2", some hash⟩
  validPoint : Point → Bool
  validNonce : PubNonce → Bool
  validPartialSignature : PartialSignature → Bool
  basePointMul : Scalar → Point
  addressFromScript : Script → Network → Except String String
  addressToScript : String → Network → Except String Script
  prove : SecretKey → Script → Digest → Digest → Except String String
  verifyProof : Script → Digest → String → Except String Unit
  ringSign : List Point → Scalar → Digest → Digest → Except String RingSig
  /-- `Ring::new(ring)?.verify(m, sig)?.to_string()`: the key image's text. -/
  ringVerify : List Point → Digest → RingSig → Except String String
  /-- `KeyAggContext::new` and its tweaks. -/
  keyAggContext : List Point → Except String Ctx
  aggregatedPubkey : Ctx → Point
  withPlainTweak : Ctx → Scalar → Except String Ctx
  withUnspendableTaprootTweak : Ctx → Except String Ctx
  /-- The normal child of an extended key, and its tweak. -/
  ckdPub : Xpub → Nat → Except String Xpub
  ckdPubTweak : Xpub → Nat → Except String Scalar
  /-- BIP-86: none where the source panics, at infinity. -/
  tapTweak : XOnlyPublicKey → Option XOnlyPublicKey
  secNonce : Digest → Scalar → Point → Digest → Bytes → SecNonce
  publicNonce : SecNonce → PubNonce
  aggNonce : List PubNonce → AggNonce
  signPartial : Ctx → Scalar → SecNonce → AggNonce → Digest → Except String PartialSignature
  verifyPartial : Ctx → PartialSignature → AggNonce → Point → PubNonce → Digest → Bool
  aggregatePartial : Ctx → AggNonce → List PartialSignature → Digest →
    Except String CompactSignature
  verifySchnorr : CompactSignature → Digest → XOnlyPublicKey → Bool
  exitSighash : Transaction → TxOut → Digest
  signInput : Transaction → Nat → List TxOut → SecretKey → Digest → Except String (List Bytes)
  checkInputRegistrations : Params → List InputRegistration → Except String Unit
  build : Params → List InputRegistration → List Payout → PoolKeys → Except String PoolTxs

instance (P : Primitives) : DecidableEq P.Text := P.textEq

/-- Written messages of different types are different texts. -/
theorem Primitives.kind_of_envelopeJson_eq (P : Primitives) {msg msg' : Msg}
    (same : P.envelopeJson msg = P.envelopeJson msg') : msg.kind = msg'.kind := by
  have kinds := congrArg P.kindOf same
  rwa [P.kindOf_envelopeJson, P.kindOf_envelopeJson, Option.some.injEq] at kinds

theorem Primitives.viewJson_ne_envelopeJson (P : Primitives) (hash : String) (msg : Msg) :
    P.viewJson hash ≠ P.envelopeJson msg := by
  intro same
  have kinds := congrArg P.kindOf same
  rw [P.kindOf_viewJson, P.kindOf_envelopeJson, Option.some.injEq] at kinds
  cases msg <;> cases kinds

/-! ## Strict hexadecimal fields -/

/-- Exactly `bytes` bytes of lowercase hex; nothing else is decoded. -/
def strictHex (text : String) (bytes : Nat) : Except String Bytes :=
  let codes := Bytes.ofText text
  if codes.length = 2 * bytes ∧ codes.all Hex.isDigit then
    match Hex.decodeBytes codes with
    | some decoded => .ok decoded
    | none => .error "Odd number of digits"
  else .error s!"expected {bytes} bytes of lowercase hex"

/-- The same for a length between two bounds. -/
def strictHexRange (text : String) (min max : Nat) : Except String Bytes :=
  let len := (Bytes.ofText text).length
  if len % 2 ≠ 0 ∨ len < 2 * min ∨ len > 2 * max then
    .error s!"expected {min} to {max} bytes of lowercase hex"
  else strictHex text (len / 2)

theorem strictHex_encode (bytes : Bytes) :
    strictHex (Hex.encode bytes) bytes.length = .ok bytes := by
  simp only [strictHex, Hex.ofText_encode, Hex.length_encodeBytes, Hex.all_isDigit_encodeBytes,
    Hex.decodeBytes_encodeBytes, and_self, if_true]

def pointFromHex (P : Primitives) (text : String) : Except String Point := do
  let bytes ← strictHex text 33
  let point := BitVec.ofNat 264 (Bytes.toNat bytes)
  if P.validPoint point then return point else throw "bad point"

def nonceFromHex (P : Primitives) (text : String) : Except String PubNonce := do
  let bytes ← (strictHex text 66).mapError fun e => s!"bad nonce: {e}"
  let nonce := BitVec.ofNat 528 (Bytes.toNat bytes)
  if P.validNonce nonce then return nonce else throw "bad nonce"

def psigFromHex (P : Primitives) (text : String) : Except String PartialSignature := do
  let bytes ← (strictHex text 32).mapError fun e => s!"bad partial signature: {e}"
  let sig := Bytes.to256 bytes
  if P.validPartialSignature sig then return sig else throw "bad partial signature"

def nonceHex (nonce : PubNonce) : String := Hex.encode (Bytes.ofNat 66 nonce.toNat)

def psigHex (sig : PartialSignature) : String := Hex.encode (Bytes.of256 sig)

/-! ## Signed messages -/

def payoutMsg (P : Primitives) (id : String) (priority amount : Nat) (script : Script) : Digest :=
  P.tagged "joinstr/v2/payout"
    (Bytes.ofText id ++ leBytes 1 priority ++ leBytes 8 amount ++ script)

def ownershipMsg (P : Primitives) (id : String) (session : SessionKey) (op : OutPoint) : Digest :=
  P.tagged "joinstr/v2/ownership" (Bytes.ofText id ++ Bytes.of256 session ++ op.serialize)

end Lij.Joinstr
