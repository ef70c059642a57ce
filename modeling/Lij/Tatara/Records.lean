import Lij.Tatara.Machine
import Lij.Tier2.Pending

/-!
# Attempt records

The record of an attempt is written before this phone's coin signature and kept
while the attempt is unsettled. The ledger decides what the wallet does next for
a record: send its exits, wipe it, or watch.

A record keeps its transactions as hexadecimal text. Here it keeps what the text
decodes to, or the decoder's error for a text that is no transaction.
-/

namespace Lij.Tatara

open Bitcoin Joinstr Checked Tier2

/-- How deep a spend must be before the attempt is settled. -/
def settleDepth : Nat := 6

structure StoredRecord where
  id : String
  fundingHex : Except String Transaction
  /-- Every signed exit, in signing order. -/
  exitsHex : List (Except String Transaction)
  payoutSpkHex : Except String Script
  /-- None for another wallet's address. -/
  payoutIndex : Option Nat
  inputs : List OutPoint
  savedMs : Nat
  changeSpkHex : Option Script
  changeIndex : Option Nat
  channel : Bool
  rateSatVb : Option Nat
  isPublic : Bool
  deriving DecidableEq

namespace StoredRecord

/-- From the state machine's record. -/
def fromMachine (r : Record) (payoutIndex : Option Nat) (change : Option (Script × Nat))
    (nowMs : Nat) : StoredRecord where
  id := r.id
  fundingHex := .ok r.funding
  exitsHex := r.exits.map .ok
  payoutSpkHex := .ok r.payout
  payoutIndex := payoutIndex
  inputs := r.inputs
  savedMs := nowMs
  changeSpkHex := change.map Prod.fst
  changeIndex := change.map Prod.snd
  channel := r.channel
  rateSatVb := if r.rateMilli / 1000 > 0 then some (r.rateMilli / 1000) else none
  isPublic := false

def funding (r : StoredRecord) : Except String Transaction :=
  r.fundingHex.mapError fun e => s!"attempt record {r.id}: funding: " ++ e

def exits (r : StoredRecord) : Except String (List Transaction) :=
  r.exitsHex.mapM fun h => h.mapError fun e => s!"attempt record {r.id}: exit: " ++ e

/-- The exit that pays this record's payout, and the output's place in it. -/
def myExit (r : StoredRecord) : Except String (Transaction × Nat) := do
  let spk ← r.payoutSpkHex.mapError fun e => s!"attempt record {r.id}: payout: " ++ e
  let exits ← r.exits
  context (exits.findSome? fun tx =>
      (tx.output.findIdx? fun o => o.scriptPubkey == spk).map fun v => (tx, v))
    s!"attempt record {r.id}: no exit pays its payout"

/-- This phone's change output in the record's funding: its place and value. -/
def change (r : StoredRecord) : Option (Nat × Nat) := do
  let spk ← r.changeSpkHex
  let f ← r.fundingHex.toOption
  let i ← f.output.findIdx? fun o => o.scriptPubkey == spk
  let out ← f.output[i]?
  return (i, out.value)

end StoredRecord

/-- The coins every record names. -/
def heldInputs (records : List StoredRecord) : List OutPoint :=
  records.flatMap StoredRecord.inputs

/-- What the wallet does next for one record. -/
inductive Duty where
  | watch
  | sendExits (exits : List (Except String Transaction))
  | wipe (why : String)
  deriving DecidableEq

/-- How deep a transaction is when the ledger has scanned to `tip`. -/
def depth (tip height : Nat) : Nat := if height = 0 ∨ tip < height then 0 else tip - height + 1

/-- The block and the transaction that spent each of the record's coins in the ledger. -/
def spends (r : StoredRecord) (view : Tier2View) : List (Nat × Txid) :=
  r.inputs.filterMap fun op => do
    let u ← view.utxos.find? fun u => u.outpoint = op
    let h ← u.spentHeight
    let by_ ← u.spentTxid
    return (h, by_)

variable (P : Primitives)

/-- How deep the exit that pays this record is. -/
def paidDepth (r : StoredRecord) (view : Tier2View) (outsideDepth : Txid → Option Nat)
    (exit : Transaction) (vout : Nat) : Option Nat :=
  match r.payoutIndex with
  | some i => (view.utxos.find? fun u => u.chain = chainBip86 ∧ u.index = i ∧
      u.outpoint = ⟨P.computeTxid exit, vout⟩).map fun u => depth view.cursor.scannedTo u.height
  | none => outsideDepth (P.computeTxid exit)

/-- The chain decides. `outsideDepth` answers for a payout to another wallet's address. -/
def duty (r : StoredRecord) (view : Tier2View) (outsideDepth : Txid → Option Nat) :
    Except String Duty := do
  let funding ← r.funding
  let spends := spends r view
  if spends.any fun s => s.2 = P.computeTxid funding then
    let (exit, vout) ← r.myExit
    if (paidDepth P r view outsideDepth exit vout).getD 0 ≥ settleDepth then
      return .wipe "settled: the payout is 6 blocks deep"
    else return .sendExits r.exitsHex
  else
    match (spends.map Prod.fst).min? with
    | some h =>
      if depth view.cursor.scannedTo h ≥ settleDepth then
        return .wipe
          "settled: the coin went elsewhere, 6 blocks deep — this pool can never use it"
      else return .watch
    | none => return .watch

end Lij.Tatara
