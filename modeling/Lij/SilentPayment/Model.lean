import Lij.Bitcoin.Basic
import Lij.Foundation.Checked
import Lij.Foundation.Curve

/-!
# Silent payments

The two sides of a silent payment. The sender adds up the keys of its inputs,
multiplies the sum with a hash of the inputs and shares the result with the scan
key of each address; the recipients that have one scan key form a group, and the
outputs of a group are numbered in the order of the recipients. The receiver has
the same shared secret from the transaction's tweak, the product of the inputs'
public keys and the hash, and its own scan secret. It looks for the outputs of the
numbers 0, 1, 2 and so on until one is missing, each under its plain key and under
the labels it uses.

The curve and the tagged hashes are parameters. A hash is read as a scalar, and
one that is out of range is none.
-/

namespace Lij.SilentPayment

open Bitcoin Checked Curve

/-- The curve with its 32-byte coordinates, and the hashes of the protocol. -/
structure Scheme (F P : Type) [Field F] [AddCommGroup P] [Module F P] where
  curve : Curve F P (BitVec 256)
  /-- `BIP0352/Inputs` of the smallest outpoint and the sum of the keys. -/
  inputHash : Bytes → P → Option F
  /-- `BIP0352/SharedSecret` of the shared point and a number. -/
  sharedSecret : P → Nat → Option F
  /-- `BIP0352/Label` of the scan secret and a label. -/
  labelHash : F → Nat → Option F

structure SpAddress (P : Type) [AddCommGroup P] where
  scan : PublicKey P
  spend : PublicKey P

/-- An input the wallet will spend. -/
structure SpInput (F : Type) [Field F] where
  secret : SecretKey F
  outpoint : OutPoint
  taproot : Bool

/-- The text of an error of the node. -/
def nodeError (text : String) : String := "Node error: silent payment: " ++ text

/-- The taproot script of an x-only key: `OP_1` and 32 bytes. -/
def p2tr (x : BitVec 256) : Script := 0x51 :: 0x20 :: Bytes.of256 x

/-- The 32 bytes of a taproot script. -/
def tapKey (script : Script) : Option Bytes :=
  if script.isP2tr then some (script.drop 2) else none

def leastBytes : List Bytes → Option Bytes
  | [] => none
  | first :: rest =>
    some (rest.foldl (fun least bytes => if bytes < least then bytes else least) first)

/-- The smallest input outpoint, as it is serialized. -/
def outpointL (points : List OutPoint) : Option Bytes := leastBytes (points.map OutPoint.serialize)

variable {F P : Type} [Field F] [DecidableEq F] [AddCommGroup P] [DecidableEq P] [Module F P]

namespace Scheme

variable (S : Scheme F P)

def publicKey (key : SecretKey F) : PublicKey P := PublicKey.ofSecret S.curve key

def script (key : PublicKey P) : Script := p2tr (S.curve.xOnly key.point)

/-! ## Sending -/

/-- A taproot input counts as its x-only key with an even y coordinate. -/
def inputSecret (input : SpInput F) : SecretKey F :=
  if input.taproot ∧ S.curve.isOdd (S.publicKey input.secret).point then input.secret.negate
  else input.secret

/-- Add an input's key to the running total. After a total of zero the key starts it again. -/
def addSecret (sum : Option (SecretKey F)) (input : SpInput F) : Option (SecretKey F) :=
  match sum with
  | none => some (S.inputSecret input)
  | some acc => acc.addTweak (S.inputSecret input).scalar

/-- The sum of the input keys. -/
def sumSecrets (inputs : List (SpInput F)) : Option (SecretKey F) := inputs.foldl S.addSecret none

/-- The recipients of one scan key: the shared point and the next number. -/
structure Group (P : Type) [AddCommGroup P] where
  scan : PublicKey P
  ecdh : PublicKey P
  next : Nat

/-- The group of a scan key; a new one has the number zero. -/
def groupOf (groups : List (Group P)) (k : SecretKey F) (scan : PublicKey P) :
    Except String (Group P) :=
  match groups.find? fun group => group.scan = scan with
  | some group => .ok group
  | none => do
    let ecdh ← context (scan.mulTweak k.scalar) (nodeError "ecdh: bad tweak")
    return ⟨scan, ecdh, 0⟩

/-- The groups after the group has given out its number. -/
def advance (groups : List (Group P)) (group : Group P) : List (Group P) :=
  ⟨group.scan, group.ecdh, group.next + 1⟩ :: groups.filter fun other => other.scan ≠ group.scan

/-- The output of one recipient. -/
def outputScript (ecdh spend : PublicKey P) (k : Nat) : Except String Script := do
  let t ← context (S.sharedSecret ecdh.point k) (nodeError "t_k out of range")
  let p ← context (spend.addExpTweak S.curve t) (nodeError "output key: bad tweak")
  return S.script p

def deriveEach (k : SecretKey F) : List (Group P) → List (SpAddress P) → Except String (List Script)
  | _, [] => .ok []
  | groups, address :: rest => do
    let group ← groupOf groups k address.scan
    let script ← S.outputScript group.ecdh address.spend group.next
    let scripts ← deriveEach k (advance groups group) rest
    return script :: scripts

/-- The scalar all outputs are derived from: the hash of the inputs times the sum of their keys. -/
def inputScalar (inputs : List (SpInput F)) : Except String (SecretKey F) := do
  let aSum ← context (S.sumSecrets inputs)
    (nodeError "input keys sum to zero — cannot send with these inputs")
  let outpoint ← context (outpointL (inputs.map SpInput.outpoint)) "non-empty"
  let inputHash ← context (S.inputHash outpoint (S.publicKey aSum).point)
    (nodeError "input hash out of range")
  context (aSum.mulTweak inputHash) (nodeError "input_hash·a_sum: bad tweak")

/-- One taproot script for each recipient, in their order. -/
def deriveOutputScripts (inputs : List (SpInput F)) (addresses : List (SpAddress P)) :
    Except String (List Script) :=
  if addresses.isEmpty then .ok []
  else if inputs.isEmpty then .error (nodeError "no inputs")
  else do
    let k ← S.inputScalar inputs
    S.deriveEach k [] addresses

/-! ## Receiving -/

/-- The key of an input as the chain shows it. -/
def inputKey (input : SpInput F) : PublicKey P :=
  let key := S.publicKey input.secret
  if input.taproot ∧ S.curve.isOdd key.point then key.negate else key

/-- A transaction's tweak from the keys and the outpoints of its inputs. -/
def tweakFromInputs (keys : List (PublicKey P)) (outpoints : List OutPoint) :
    Option (PublicKey P) :=
  if keys.isEmpty || outpoints.isEmpty then none
  else do
    let aSum ← PublicKey.combineKeys keys
    let outpoint ← outpointL outpoints
    let inputHash ← S.inputHash outpoint aSum.point
    aSum.mulTweak inputHash

end Scheme

/-- The wallet's own keys. -/
structure SpKeys (F : Type) [Field F] where
  scan : SecretKey F
  spend : SecretKey F

/-- A coin found by the scan. -/
structure SpFound (F : Type) where
  txid : Txid
  vout : Nat
  valueSats : Nat
  /-- The scalar added to the spend key for this coin. -/
  tK : F
  k : Nat
  script : Script
  labelledChange : Bool
  label : Option Nat
  deriving DecidableEq

/-- A taproot output by its key. -/
structure TapOut where
  key : Bytes
  txid : Txid
  vout : Nat
  value : Nat
  deriving DecidableEq, Repr

/-- Every taproot output of a block. -/
def tapOuts (computeTxid : Transaction → Txid) (txs : List Transaction) : List TapOut :=
  txs.flatMap fun tx => tx.output.zipIdx.filterMap fun entry =>
    (tapKey entry.1.scriptPubkey).map fun key =>
      ⟨key, computeTxid tx, entry.2, entry.1.value⟩

def kMax : Nat := 2323

namespace SpKeys

variable (S : Scheme F P) (keys : SpKeys F)

def scanPub : PublicKey P := S.publicKey keys.scan

def spendPub : PublicKey P := S.publicKey keys.spend

def labelTweak (m : Nat) : Except String F :=
  context (S.labelHash keys.scan.scalar m) (nodeError "label out of range")

/-- The labels to check with their scalars; a label out of range is left out. -/
def labelSet (ms : List Nat) : List (Nat × F) :=
  ms.eraseDups.filterMap fun m => (keys.labelTweak S m).toOption.map fun t => (m, t)

/-- The spend key of a label's address. -/
def labelKey (m : Nat) : Except String (PublicKey P) := do
  let t ← keys.labelTweak S m
  context ((keys.spendPub S).addExpTweak S.curve t) (nodeError "label key: bad tweak")

def ecdh (tweak : PublicKey P) : Except String (PublicKey P) :=
  context (tweak.mulTweak keys.scan.scalar) (nodeError "ecdh: bad tweak")

/-- The scalar and the key of one number. -/
def outputKPoint (ecdh : PublicKey P) (k : Nat) : Except String (F × PublicKey P) := do
  let t ← context (S.sharedSecret ecdh.point k) (nodeError "t_k out of range")
  let p ← context ((keys.spendPub S).addExpTweak S.curve t) (nodeError "P_k: bad tweak")
  return (t, p)

/-- The scripts a block's filter is asked for: the first number of each tweak. -/
def candidateScripts (tweaks : List (PublicKey P)) (labels : List (Nat × F)) : List Script :=
  tweaks.flatMap fun tweak =>
    match keys.ecdh tweak with
    | .error _ => []
    | .ok ecdh =>
      match keys.outputKPoint S ecdh 0 with
      | .error _ => []
      | .ok (_, p) =>
        S.script p :: labels.filterMap fun label =>
          (p.addExpTweak S.curve label.2).map S.script

/-- The outputs with an x-only key, as coins found with a scalar. -/
def coinsAt (outs : List TapOut) (p : PublicKey P) (t : F) (k : Nat) (label : Option Nat) :
    List (SpFound F) :=
  (outs.filter fun out => out.key = Bytes.of256 (S.curve.xOnly p.point)).map fun out =>
    { txid := out.txid, vout := out.vout, valueSats := out.value, tK := t, k := k,
      script := S.script p, labelledChange := label = some 0, label := label }

/-- The coins of one number under one label. The scalar of a labelled coin is the sum of both. -/
def labelCoins (outs : List TapOut) (p : PublicKey P) (t : F) (k : Nat) (label : Nat × F) :
    List (SpFound F) :=
  match p.addExpTweak S.curve label.2,
    (SecretKey.ofScalar t).bind fun key => key.addTweak label.2 with
  | some labelled, some sum => coinsAt S outs labelled sum.scalar k (some label.1)
  | _, _ => []

/-- The coins of one number: under the plain key, then under each label. -/
def coinsOf (outs : List TapOut) (labels : List (Nat × F)) (p : PublicKey P) (t : F) (k : Nat) :
    List (SpFound F) :=
  coinsAt S outs p t k none ++ labels.flatMap fun label => labelCoins S outs p t k label

/-- The search from a number on, with at most so many numbers left to try. -/
def searchFrom (outs : List TapOut) (labels : List (Nat × F)) (ecdh : PublicKey P) :
    Nat → Nat → List (SpFound F)
  | 0, _ => []
  | left + 1, k =>
    match keys.outputKPoint S ecdh k with
    | .error _ => []
    | .ok (t, p) =>
      let found := coinsOf S outs labels p t k
      -- a number without a coin ends the search
      if found.isEmpty then [] else found ++ searchFrom outs labels ecdh left (k + 1)

def findByKeysCapped (tweaks : List (PublicKey P)) (outs : List TapOut) (labels : List (Nat × F))
    (cap : Nat) : List (SpFound F) :=
  tweaks.flatMap fun tweak =>
    match keys.ecdh tweak with
    | .error _ => []
    | .ok ecdh => keys.searchFrom S outs labels ecdh (max cap 1) 0

/-- Find this wallet's coins in a block. -/
def findInBlock (computeTxid : Transaction → Txid) (tweaks : List (PublicKey P))
    (txs : List Transaction) (labels : List (Nat × F)) : List (SpFound F) :=
  keys.findByKeysCapped S tweaks (tapOuts computeTxid txs) labels kMax

/-- The script of a coin from its scalar. -/
def scriptFor (t : F) : Except String Script := do
  let p ← context ((keys.spendPub S).addExpTweak S.curve t) (nodeError "P_k: bad tweak")
  return S.script p

/-- The key that spends a coin. -/
def spendSecret (t : F) : Except String (SecretKey F) := do
  let key ← context (keys.spend.addTweak t) (nodeError "spend key: bad tweak")
  return if S.curve.isOdd (S.publicKey key).point then key.negate else key

end SpKeys

end Lij.SilentPayment
