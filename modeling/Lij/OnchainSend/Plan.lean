import Lij.CoinSelect
import Lij.Foundation.Checked
import Lij.Tier2.Pending

/-!
# On-chain sends

Every send is planned before a key is touched: the coins, each recipient's
amount, the fee and the change. The transaction is then built from the plan. The
coins on offer are the ledger's unspent coins the wallet can sign for and the
change of sends still confirming, without those a pending send spends, the user
froze or a Mix pool holds.

Amounts are 64-bit words. The amounts asked for, the coins and the fee are added
with wrapping sums unless the source names a saturating one.
-/

namespace Lij.OnchainSend

open Bitcoin Tier2 Word Checked

/-- Bitcoin does not relay a smaller P2WPKH output. -/
def dustThresholdSats : Nat := 294

def maxRecipients : Nat := 20

/-! ## The coins on offer -/

/-- A coin with what is needed to sign for it. -/
structure SpendableUtxo where
  chain : Nat
  index : Nat
  txid : Txid
  vout : Nat
  valueSats : Nat
  spTweak : Option (BitVec 256)
  deriving DecidableEq, Repr

namespace SpendableUtxo

def fromUtxo (u : OnchainUtxo) : SpendableUtxo :=
  ⟨u.chain, u.index, u.txid, u.vout, u.valueSats, u.spTweak⟩

def outpoint (u : SpendableUtxo) : OutPoint := ⟨u.txid, u.vout⟩

@[simp] theorem outpoint_fromUtxo (u : OnchainUtxo) : (fromUtxo u).outpoint = u.outpoint := rfl

end SpendableUtxo

/-- Receive and change always, a silent payment with its tweak, and the BIP86 branches. -/
def isSignable (u : OnchainUtxo) : Bool :=
  u.chain = chainReceive || u.chain = chainChange || (u.chain = chainSp && u.spTweak.isSome) ||
    (bip86Branch u.chain).isSome

def isMixed (chain : Nat) : Bool := (bip86Branch chain).isSome

def gatherSpendable (view : Tier2View) (pending : List PendingTx) (frozen : List OutPoint) :
    List SpendableUtxo :=
  let reserved := reservedOutpoints pending
  (view.utxos.filter fun u => u.spentHeight.isNone && isSignable u &&
    !reserved.contains u.outpoint && !frozen.contains u.outpoint).map .fromUtxo ++
  ((unconfirmedChangeUtxos view pending).filter fun u =>
    !frozen.contains u.outpoint).map .fromUtxo

/-! ## Fees -/

/-- A taproot key-path input is 57.5 vB, a P2WPKH input 68. -/
def inputVbytes (chain : Nat) : Nat :=
  if chain = chainSp ∨ (bip86Branch chain).isSome then 58 else 68

/-- Sat per kilo-weight rounded up to sat per vbyte, at least 1. -/
def satPerVb (rate : UInt32) : Nat := max ((rate.toNat + 249) / 250) 1

def estimateFeeWith (nIn nOut extraVbytes : Nat) (rate : UInt32) : Nat :=
  mul64 (sum64 [11, mul64 68 nIn, mul64 31 nOut, extraVbytes]) (satPerVb rate)

def estimateFee (nIn nOut : Nat) (rate : UInt32) : Nat := estimateFeeWith nIn nOut 0 rate

/-- From the inputs' chains, with inputs not yet chosen counted at the P2WPKH size. -/
def estimateFeeChains (chains : List Nat) (extraInputs nOut extraVbytes : Nat) (rate : UInt32) :
    Nat :=
  mul64 (sum64 [11, sum64 (chains.map inputVbytes), mul64 68 extraInputs, mul64 31 nOut,
    extraVbytes]) (satPerVb rate)

def estimateFeeInputs (selected : List SpendableUtxo) (nOut extraVbytes : Nat) (rate : UInt32) :
    Nat :=
  estimateFeeChains (selected.map SpendableUtxo.chain) 0 nOut extraVbytes rate

/-- What is left after the recipients and the fee. -/
structure Settled where
  feeSats : Nat
  changeSats : Nat
  foldedSats : Nat
  deriving DecidableEq, Repr

/-- The change, or, under the output minimum, part of the fee. -/
def settleChange (totalIn paid fee : Nat) : Settled :=
  let left := totalIn - paid - fee
  if left < dustThresholdSats then ⟨saturatingAdd64 fee left, 0, left⟩ else ⟨fee, left, 0⟩

/-! ## Chosen coins -/

/-- A coin's text is compared without regard to case. -/
def named (op : OutPoint) (pin : String × Nat) : Bool :=
  op.txid.text.toLower = pin.1.toLower && op.vout = pin.2

theorem named_iff {op : OutPoint} {pin : String × Nat} : named op pin = true ↔
    (op.txid.text.toLower, op.vout) = (pin.1.toLower, pin.2) := by
  rw [named, Bool.and_eq_true, decide_eq_true_eq, decide_eq_true_eq, Prod.mk.injEq]

/-- Which kinds of hold there are: a freeze, a Mix pool's. -/
def heldKinds (held locked : List OutPoint) : Bool × Bool :=
  (held.any fun op => !locked.contains op, held.any fun op => locked.contains op)

def heldNote (held locked : List OutPoint) : String :=
  match heldKinds held locked with
  | (false, false) => ""
  | (true, false) => " — frozen coins are not counted"
  | (false, true) => " — coins in a Mix pool are not counted"
  | (true, true) => " — frozen coins and coins in a Mix pool are not counted"

def noFunds (held locked : List OutPoint) : String :=
  match heldKinds held locked with
  | (false, false) => "no spendable on-chain funds found"
  | (true, false) => "no spendable on-chain funds found — every coin is frozen"
  | (false, true) => "no spendable on-chain funds found — every coin is in a Mix pool"
  | (true, true) => "no spendable on-chain funds found — every coin is frozen or in a Mix pool"

def shortText (txid : String) : String := String.ofList (txid.toList.take 8)

def heldRefusal (pin : String × Nat) (locked : List OutPoint) : String :=
  if locked.any fun op => named op pin then
    "a chosen coin is in a Mix pool (" ++ shortText pin.1 ++ "…:" ++ toString pin.2 ++
      ") — it stays there until the pool settles or you leave the list"
  else
    "a chosen coin is frozen (" ++ shortText pin.1 ++ "…:" ++ toString pin.2 ++
      ") — unfreeze it first"

def notSpendable (pin : String × Nat) : String :=
  "a chosen coin is not spendable (" ++ shortText pin.1 ++ "…:" ++ toString pin.2 ++
    ") — already spent, reserved by a send still confirming, or unknown"

/-- The chosen coins in the order given; the same coin twice is one coin. -/
def resolvePinsFrom (spendable : List SpendableUtxo) (frozen locked : List OutPoint) :
    List (String × Nat) → List (String × Nat) → Except String (List SpendableUtxo)
  | _, [] => .ok []
  | seen, pin :: pins =>
    let key := (pin.1.toLower, pin.2)
    if seen.contains key then resolvePinsFrom spendable frozen locked seen pins
    else if frozen.any fun op => named op pin then .error (heldRefusal pin locked)
    else do
      let u ← context (spendable.find? fun u => named u.outpoint pin) (notSpendable pin)
      let rest ← resolvePinsFrom spendable frozen locked (key :: seen) pins
      return u :: rest

def resolvePins (spendable : List SpendableUtxo) (frozen locked : List OutPoint)
    (pins : List (String × Nat)) : Except String (List SpendableUtxo) := do
  ensure (pins ≠ []) "no coins chosen"
  resolvePinsFrom spendable frozen locked [] pins

/-! ## Recipients -/

/-- An ordinary address, or a silent-payment address whose script depends on the inputs. -/
inductive Dest where
  | script (spk : Script)
  | silentPayment (address : Bytes)
  deriving DecidableEq, Repr

/-- A silent-payment output is P2TR, 43 vB instead of 31. -/
def destExtraVbytes : Dest → Nat
  | .script _ => 0
  | .silentPayment _ => 12

/-- An amount, or everything left. -/
structure Recipient where
  dest : String
  amountSats : Option Nat
  deriving DecidableEq, Repr

/-- What the keys and the address codecs supply, for one network. -/
structure Wallet where
  parseDest : String → Except String Dest
  /-- The output scripts of silent payments, derived together from the selected inputs. -/
  deriveOutputScripts : List SpendableUtxo → List Bytes → Except String (List Script)
  /-- The P2WPKH script of a change index. -/
  changeScript : Nat → Except String Script
  /-- The key-path signature of an input. -/
  signSchnorr : Transaction → List SpendableUtxo → Nat → Except String Bytes
  /-- The DER signature of an input, without the sighash type. -/
  signEcdsa : Transaction → List SpendableUtxo → Nat → Except String Bytes
  publicKey : SpendableUtxo → Except String Bytes

variable (W : Wallet)

def recipientText (nDest i : Nat) (message : String) : String :=
  if nDest > 1 then "recipient " ++ toString (i + 1) ++ ": " ++ message else message

def checkRecipient (nDest i : Nat) (r : Recipient) : Except String Dest := do
  let dest ← (W.parseDest r.dest).mapError (recipientText nDest i)
  match r.amountSats with
  | none =>
    ensure (i + 1 = nDest) "only the last recipient can take everything left (Max)"
    return dest
  | some amount =>
    ensure (amount ≠ 0) (if nDest > 1 then
        recipientText nDest i "the amount must be greater than zero"
      else "amount must be greater than zero")
    ensure (¬(nDest > 1 ∧ amount < dustThresholdSats)) (recipientText nDest i
      (toString amount ++ " sats is below the " ++ toString dustThresholdSats ++
        "-sat minimum an output can carry"))
    return dest

def checkRecipients (nDest : Nat) (recipients : List Recipient) : Except String (List Dest) :=
  recipients.zipIdx.mapM fun (r, i) => checkRecipient W nDest i r

def requested (recipients : List Recipient) : List Nat := recipients.filterMap Recipient.amountSats

/-! ## The plan -/

structure Plan where
  dests : List Dest
  selected : List SpendableUtxo
  amounts : List Nat
  /-- Includes change too small to keep. -/
  feeSats : Nat
  changeSats : Nat
  foldedSats : Nat
  totalIn : Nat
  deriving DecidableEq, Repr

def totalOf (coins : List SpendableUtxo) : Nat := sum64 (coins.map SpendableUtxo.valueSats)

/-- Everything left goes to the last recipient: no change. -/
def planRest (recipients : List Recipient) (dests : List Dest) (extraVbytes : Nat) (rate : UInt32)
    (selected : List SpendableUtxo) : Except String Plan := do
  let fixed := sum64 (requested recipients)
  let totalIn := totalOf selected
  let feeSats := estimateFeeInputs selected recipients.length extraVbytes rate
  ensure (¬totalIn ≤ add64 (add64 fixed feeSats) dustThresholdSats)
    (if recipients.length = 1 then
      "nothing left to send after the fee: " ++ toString totalIn ++ " sats of coins, fee " ++
        toString feeSats
    else
      "nothing left for the last recipient: the others take " ++ toString fixed ++
        " sats and the fee " ++ toString feeSats ++ " of " ++ toString totalIn)
  return {
    dests, selected
    amounts := requested recipients.dropLast ++ [sub64 (sub64 totalIn fixed) feeSats]
    feeSats, changeSats := 0, foldedSats := 0, totalIn }

/-- The automatic pick: mixed coins last. -/
def autoPick (coins : List SpendableUtxo) (need : Nat → Nat) : Option (List Nat) :=
  CoinSelect.pickMixedLast (coins.map SpendableUtxo.valueSats)
    (coins.map fun u => isMixed u.chain) need

/-- The coins of an exact send: the chosen ones, which must cover it, or the automatic pick. -/
def selectExact (fixed nDest extraVbytes : Nat) (rate : UInt32) (spendable : List SpendableUtxo)
    (frozen locked : List OutPoint) :
    Option (List SpendableUtxo) → Except String (List SpendableUtxo)
  | some chosen => do
    let total := totalOf chosen
    let fee := estimateFeeInputs chosen (nDest + 1) extraVbytes rate
    ensure (¬total < saturatingAdd64 fixed fee) ("your chosen coins cover " ++ toString total ++
      " sats; this send needs " ++ toString (saturatingAdd64 fixed fee) ++ " (amount " ++
      toString fixed ++ " + fee " ++ toString fee ++ ") — add coins or lower the amount")
    return chosen
  | none => do
    let fee := estimateFeeWith spendable.length (nDest + 1) extraVbytes rate
    let picked ← context (autoPick spendable fun n =>
        saturatingAdd64 fixed (estimateFeeWith n (nDest + 1) extraVbytes rate))
      ("insufficient funds: have " ++ toString (totalOf spendable) ++ " sats, need " ++
        toString (add64 fixed fee) ++ " (amount " ++ toString fixed ++ " + fee " ++ toString fee ++
        ")" ++ heldNote frozen locked)
    return picked.filterMap fun i => spendable[i]?

/-- Exact amounts: the change goes back to the wallet. -/
def planExact (recipients : List Recipient) (dests : List Dest) (extraVbytes : Nat) (rate : UInt32)
    (spendable : List SpendableUtxo) (frozen locked : List OutPoint)
    (chosen : Option (List SpendableUtxo)) : Except String Plan := do
  let fixed := sum64 (requested recipients)
  let nDest := recipients.length
  let selected ← selectExact fixed nDest extraVbytes rate spendable frozen locked chosen
  let totalIn := totalOf selected
  let feeSats := estimateFeeInputs selected (nDest + 1) extraVbytes rate
  ensure (¬totalIn < add64 fixed feeSats) ("insufficient funds: have " ++ toString totalIn ++
    " sats, need " ++ toString (add64 fixed feeSats) ++ " (amount " ++ toString fixed ++
      " + fee " ++
    toString feeSats ++ ")")
  let settled := settleChange totalIn fixed feeSats
  return {
    dests, selected
    amounts := requested recipients
    feeSats := settled.feeSats
    changeSats := settled.changeSats
    foldedSats := settled.foldedSats
    totalIn }

/-- The chosen coins, when the user chose some. -/
def choose (spendable : List SpendableUtxo) (frozen locked : List OutPoint) :
    Option (List (String × Nat)) → Except String (Option (List SpendableUtxo))
  | some pins => return some (← resolvePins spendable frozen locked pins)
  | none => return none

/-- Does the last recipient take everything left? -/
def takesRest (recipients : List Recipient) : Bool :=
  recipients.getLast?.any fun r => r.amountSats.isNone

def planSend (recipients : List Recipient) (rate : UInt32) (spendable : List SpendableUtxo)
    (frozen locked : List OutPoint) (pins : Option (List (String × Nat))) :
    Except String Plan := do
  ensure (recipients.length ≠ 0) "add who you are paying"
  ensure (recipients.length ≤ maxRecipients)
    ("one send pays at most " ++ toString maxRecipients ++ " recipients")
  let dests ← checkRecipients W recipients.length recipients
  let extraVbytes := sum64 (dests.map destExtraVbytes)
  ensure (spendable ≠ []) (noFunds frozen locked)
  let chosen ← choose spendable frozen locked pins
  if takesRest recipients then
    planRest recipients dests extraVbytes rate (chosen.getD spendable)
  else
    planExact recipients dests extraVbytes rate spendable frozen locked chosen

/-! ## The transaction -/

/-- The scripts in the recipients' order: those given, and the derived ones in turn. -/
def destScripts : List Dest → List Script → Except String (List Script)
  | [], _ => .ok []
  | .script spk :: dests, derived => do
    let rest ← destScripts dests derived
    return spk :: rest
  | .silentPayment _ :: dests, derived =>
    match derived with
    | [] => .error "silent payment: an output was not derived"
    | spk :: derived => do
      let rest ← destScripts dests derived
      return spk :: rest

def Dest.spAddress : Dest → Option Bytes
  | .script _ => none
  | .silentPayment address => some address

def resolveDestScripts (dests : List Dest) (selected : List SpendableUtxo) :
    Except String (List Script) := do
  let sp := dests.filterMap Dest.spAddress
  let derived ← if sp.isEmpty then .ok [] else W.deriveOutputScripts selected sp
  destScripts dests derived

/-- A silent-payment coin with its tweak and a coin on a BIP86 branch sign by the key path. -/
def isTaproot (u : SpendableUtxo) : Bool :=
  (u.spTweak.isSome && u.chain = chainSp) || (bip86Branch u.chain).isSome

def sighashAll : UInt8 := 1

def signInput (tx : Transaction) (selected : List SpendableUtxo) (i : Nat) (u : SpendableUtxo) :
    Except String (List Bytes) :=
  if isTaproot u then do
    let sig ← W.signSchnorr tx selected i
    return [sig]
  else do
    let der ← W.signEcdsa tx selected i
    let pk ← W.publicKey u
    return [der ++ [sighashAll], pk]

def signInputs (tx : Transaction) (selected : List SpendableUtxo) :
    Except String (List (List Bytes)) :=
  selected.zipIdx.mapM fun (u, i) => signInput W tx selected i u

/-- Replaceable, without a lock time. -/
def enableRbfNoLocktime : Nat := 0xfffffffd

def inputOf (u : SpendableUtxo) : TxIn := ⟨u.outpoint, [], enableRbfNoLocktime, []⟩

def withWitnesses (tx : Transaction) (witnesses : List (List Bytes)) : Transaction :=
  { tx with input := List.zipWith (fun i w => { i with witness := w }) tx.input witnesses }

/-- The change output, when there is change. -/
def changeOutput (changeSats changeIndex : Nat) : Except String (List TxOut) :=
  if changeSats > 0 then do
    let spk ← W.changeScript changeIndex
    return [⟨changeSats, spk⟩]
  else return []

/-- The transaction of a plan: the recipients in order, then the change. -/
def buildTx (plan : Plan) (changeIndex : Nat) : Except String Transaction := do
  let scripts ← resolveDestScripts W plan.dests plan.selected
  let change ← changeOutput W plan.changeSats changeIndex
  let tx : Transaction := {
    version := 2, lockTime := 0, input := plan.selected.map inputOf
    output := List.zipWith (fun spk amount => ⟨amount, spk⟩) scripts plan.amounts ++ change }
  let witnesses ← signInputs W tx plan.selected
  return withWitnesses tx witnesses

structure BuiltSend where
  tx : Transaction
  feeSats : Nat
  changeSats : Nat
  spentOutpoints : List OutPoint
  deriving DecidableEq, Repr

def buildSendTx (recipients : List Recipient) (rate : UInt32) (changeIndex : Nat)
    (view : Tier2View) (pending : List PendingTx) (marks : CoinMarks)
    (pins : Option (List (String × Nat))) : Except String BuiltSend := do
  let frozen := marks.heldSet
  let spendable := gatherSpendable view pending frozen
  let plan ← planSend W recipients rate spendable frozen marks.mixLockedSet pins
  let tx ← buildTx W plan changeIndex
  return {
    tx, feeSats := plan.feeSats, changeSats := plan.changeSats
    spentOutpoints := plan.selected.map SpendableUtxo.outpoint }

end Lij.OnchainSend
