import Lij.Foundation.Bytes

/-!
# Bitcoin data

The transaction types shared by the ledger, the sends and the pools. Amounts,
heights and output indexes are natural numbers; a definition that adds or
multiplies them as machine words says so itself. Transaction ids are 32-byte
values in display order and their text is lowercase hexadecimal.
-/

namespace Lij.Bitcoin

abbrev Txid := BitVec 256

instance txidTransOrd : Std.TransOrd Txid := inferInstance

instance txidLawfulEqOrd : Std.LawfulEqOrd Txid := inferInstance

/-- The display text of a transaction id. -/
def Txid.text (txid : Txid) : String := Hex.encode (Bytes.of256 txid)

theorem Txid.ofText_text (txid : Txid) :
    Bytes.ofText (Txid.text txid) = Hex.encodeBytes (Bytes.of256 txid) := Hex.ofText_encode _

theorem Txid.text_injective : Function.Injective Txid.text := by
  intro x y same
  have bytes := congrArg Bytes.ofText same
  rw [Txid.ofText_text, Txid.ofText_text] at bytes
  exact Bytes.of256_injective (Hex.encodeBytes_injective bytes)

theorem Txid.length_ofText_text (txid : Txid) : (Bytes.ofText (Txid.text txid)).length = 64 := by
  rw [Txid.ofText_text, Hex.length_encodeBytes, Bytes.length_of256]

structure OutPoint where
  txid : Txid
  vout : Nat
  deriving DecidableEq, Repr

/-- By transaction, then by place. -/
instance : Ord OutPoint := ⟨compareLex (compareOn OutPoint.txid) (compareOn OutPoint.vout)⟩

instance : Std.TransOrd OutPoint :=
  inferInstanceAs (Std.TransCmp (compareLex (compareOn OutPoint.txid) (compareOn OutPoint.vout)))

instance : Std.LawfulEqOrd OutPoint where
  eq_of_compare {a b} same := by
    have both : (compare a.txid b.txid).then (compare a.vout b.vout) = .eq := same
    obtain ⟨txids, vouts⟩ := Ordering.then_eq_eq.mp both
    cases a
    cases b
    cases Std.LawfulEqOrd.eq_of_compare txids
    cases Std.LawfulEqOrd.eq_of_compare vouts
    rfl

abbrev Script := Bytes

namespace Script

def isP2wpkh (script : Script) : Bool :=
  script.length == 22 && script.take 2 == [0x00, 0x14]

def isP2tr (script : Script) : Bool :=
  script.length == 34 && script.take 2 == [0x51, 0x20]

def isP2wsh (script : Script) : Bool :=
  script.length == 34 && script.take 2 == [0x00, 0x20]

end Script

structure TxOut where
  value : Nat
  scriptPubkey : Script
  deriving DecidableEq, Repr

structure TxIn where
  previousOutput : OutPoint
  scriptSig : Script
  sequence : Nat
  witness : List Bytes
  deriving DecidableEq, Repr

structure Transaction where
  version : Nat
  lockTime : Nat
  input : List TxIn
  output : List TxOut
  deriving DecidableEq, Repr

/-- A number as `count` bytes, least significant first. -/
def leBytes (count value : Nat) : Bytes := (Bytes.ofNat count value).reverse

/-- Consensus encoding of a length. -/
def compactSize (size : Nat) : Bytes :=
  if size < 0xfd then leBytes 1 size
  else if size ≤ 0xffff then 0xfd :: leBytes 2 size
  else if size ≤ 0xffffffff then 0xfe :: leBytes 4 size
  else 0xff :: leBytes 8 size

/-- Consensus encoding: the id in internal byte order, then the index. -/
def OutPoint.serialize (point : OutPoint) : Bytes :=
  (Bytes.of256 point.txid).reverse ++ leBytes 4 point.vout

def TxOut.serialize (out : TxOut) : Bytes :=
  leBytes 8 out.value ++ compactSize out.scriptPubkey.length ++ out.scriptPubkey

/-- Heights are block locktimes below this bound; above it they are times. -/
def lockTimeThreshold : Nat := 500000000

/-- `LockTime::from_height`. -/
def lockTimeFromHeight (height : Nat) : Option Nat :=
  if height < lockTimeThreshold then some height else none

end Lij.Bitcoin
