import Lij.Bitcoin.Basic

/-!
# The weight of a transaction

The consensus encoding with and without witnesses, and the weight and virtual
size that fees are paid for: a byte outside the witnesses counts four times.
-/

namespace Lij.Bitcoin

open List

namespace Script

def isP2pkh (script : Script) : Bool :=
  script.length == 25 && script.take 3 == [0x76, 0xa9, 0x14] && script.drop 23 == [0x88, 0xac]

def isP2sh (script : Script) : Bool :=
  script.length == 23 && script.take 2 == [0xa9, 0x14] && script.drop 22 == [0x87]

end Script

def TxIn.serialize (input : TxIn) : Bytes :=
  input.previousOutput.serialize ++ compactSize input.scriptSig.length ++ input.scriptSig ++
    leBytes 4 input.sequence

def serializeItem (item : Bytes) : Bytes := compactSize item.length ++ item

def serializeWitness (witness : List Bytes) : Bytes :=
  compactSize witness.length ++ witness.flatMap serializeItem

namespace Transaction

def serializeInputs (tx : Transaction) : Bytes :=
  compactSize tx.input.length ++ tx.input.flatMap TxIn.serialize

def serializeOutputs (tx : Transaction) : Bytes :=
  compactSize tx.output.length ++ tx.output.flatMap TxOut.serialize

/-- The encoding the transaction id is computed from. -/
def serializeBase (tx : Transaction) : Bytes :=
  leBytes 4 tx.version ++ tx.serializeInputs ++ tx.serializeOutputs ++ leBytes 4 tx.lockTime

/-- Witnesses are encoded when an input has one, or when there is no input. -/
def usesSegwit (tx : Transaction) : Bool :=
  tx.input.any (fun i => !i.witness.isEmpty) || tx.input.isEmpty

def serialize (tx : Transaction) : Bytes :=
  if tx.usesSegwit then
    leBytes 4 tx.version ++ [0x00, 0x01] ++ tx.serializeInputs ++ tx.serializeOutputs ++
      tx.input.flatMap (fun i => serializeWitness i.witness) ++ leBytes 4 tx.lockTime
  else tx.serializeBase

def weight (tx : Transaction) : Nat := 3 * tx.serializeBase.length + tx.serialize.length

def vsize (tx : Transaction) : Nat := (tx.weight + 3) / 4

end Transaction

/-! ## Lengths -/

@[simp] theorem length_leBytes (count value : Nat) : (leBytes count value).length = count := by
  rw [leBytes, length_reverse, Bytes.length_ofNat]

theorem length_compactSize {size : Nat} (small : size < 253) : (compactSize size).length = 1 := by
  rw [compactSize, if_pos (by omega), length_leBytes]

@[simp] theorem length_serialize_outPoint (point : OutPoint) : point.serialize.length = 36 := by
  rw [OutPoint.serialize, length_append, length_reverse, Bytes.length_of256,
    length_leBytes]

/-- An input without a script is 41 bytes. -/
theorem length_serialize_txIn {input : TxIn} (noScript : input.scriptSig = []) :
    input.serialize.length = 41 := by
  rw [TxIn.serialize, noScript]
  simp [length_compactSize]

theorem length_serialize_txOut (out : TxOut) :
    out.serialize.length =
      8 + (compactSize out.scriptPubkey.length).length + out.scriptPubkey.length := by
  simp only [TxOut.serialize, length_append, length_leBytes]

/-- The bytes of a witness with short items: a length byte for each, and one for their number. -/
theorem length_serializeWitness {witness : List Bytes} (few : witness.length < 253)
    (short : ∀ item ∈ witness, item.length < 253) :
    (serializeWitness witness).length = 1 + (witness.map fun item => 1 + item.length).sum := by
  rw [serializeWitness, length_append, length_compactSize few, length_flatMap]
  congr 2
  refine map_congr_left fun item member => ?_
  rw [serializeItem, length_append, length_compactSize (short item member)]

theorem weight_eq {tx : Transaction} (segwit : tx.usesSegwit = true) :
    tx.weight = 4 * (8 + (compactSize tx.input.length).length +
        (compactSize tx.output.length).length +
        (tx.input.map fun i => i.serialize.length).sum +
        (tx.output.map fun o => o.serialize.length).sum) + 2 +
      (tx.input.map fun i => (serializeWitness i.witness).length).sum := by
  simp only [Transaction.weight, Transaction.serialize, segwit, if_true, Transaction.serializeBase,
    Transaction.serializeInputs, Transaction.serializeOutputs, length_append, length_leBytes,
    length_flatMap, length_cons, length_nil]
  omega

end Lij.Bitcoin
