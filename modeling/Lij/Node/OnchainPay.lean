import Mathlib
import Lij.Foundation.Checked
import Lij.Foundation.Json
import Lij.Foundation.Maps
import Lij.Foundation.Words
import Lij.Tier2.Ledger

/-!
# Lightning pays on-chain: the wallet's records

The wallet pays its provider two Lightning payments, A and B, and the provider
locks coins at a hand-over address made of the payment's hash H, the wallet's
release key W, the provider's take-back key L and the take-back block T. Once
the ledger walk has seen the lock, the wallet releases it to the recipient and
publishes the secret of H in the release's witness, which is how the provider
collects B. If no release is made, the provider takes its coins back at T.

The records are kept under their hash. `Env` names what the root key derives and
what the libraries compute: the secret and the release key of an index, SHA-256,
the addresses, the invoices and the release's signature. The provider's reports
and quotes are any JSON values. Times of day, the endpoint, the invoices' texts
and the rates kept for display decide nothing and are left out.
-/

namespace Lij.Node.OnchainPay

open Bitcoin Checked Word Tier2

/-! ## The records -/

/-- The states in the order they happen, then the side exits. -/
inductive State where
  | quoted
  | paying
  | locked
  | lockSeen
  | released
  | done
  | returned
  | takenBack
  | failed
  deriving DecidableEq, Repr

/-- The states' names, as messages give them. -/
def State.name : State → String
  | quoted => "quoted"
  | paying => "paying"
  | locked => "locked"
  | lockSeen => "lock_seen"
  | released => "released"
  | done => "done"
  | returned => "returned"
  | takenBack => "taken_back"
  | failed => "failed"

def State.isOpen : State → Bool
  | quoted | paying | locked | lockSeen | released => true
  | done | returned | takenBack | failed => false

/-- H, the hash of a payment's secret. -/
abbrev Hash := BitVec 256

/-- A compressed public key. -/
abbrev Key := BitVec 264

structure Record where
  index : Nat
  hash : Hash
  state : State
  recipient : String
  amountSats : Nat
  releaseFeeSats : Nat
  reserveSats : Nat
  lockSats : Nat
  aHash : Hash
  lPubkey : Key
  wPubkey : Key
  refundBlocks : Nat
  stopReleaseBlocks : Nat
  reserveIndex : Nat
  /-- The take-back block, once the provider reports the lock. -/
  t : Option Nat
  lockBlock : Option Nat
  handoverAddress : Option String
  /-- The lock as the provider reported it. -/
  lockTxid : Option String
  lockVout : Option Nat
  /-- The lock as the walk saw it. -/
  lockSeenTxid : Option Txid
  lockSeenHeight : Option Nat
  releaseTxid : Option Txid
  releaseTxidFast : Option Txid
  releaseHeight : Option Nat
  aPaymentId : Option String
  bPaymentId : Option String
  endReason : Option String
  paidBlock : Option Nat
  walkFrom : Option Nat
  releasedAtBlock : Option Nat
  releaseReplacements : Nat
  deriving DecidableEq, Repr

namespace Record

def isOpen (r : Record) : Bool := r.state.isOpen

/-- The last block at which this wallet will still release. -/
def stopReleaseBlock (r : Record) : Option Nat := r.t.map fun t => t - r.stopReleaseBlocks

end Record

abbrev Records := Std.ExtTreeMap Hash Record

/-- What the quote's checks read of an invoice. -/
structure Invoice where
  paymentHash : Hash
  amountMsat : Option Nat
  payee : Key
  /-- On this wallet's network. -/
  ourNetwork : Bool
  minFinalCltvExpiryDelta : Nat
  deriving DecidableEq, Repr

structure Env where
  /-- The secret of an index. -/
  secret : Nat → BitVec 256
  /-- SHA-256 of a secret. -/
  hashOf : BitVec 256 → Hash
  /-- W, the public key of an index's release key. -/
  releasePubkey : Nat → Except String Key
  /-- An address's script on this wallet's network. -/
  recipientSpk : String → Except String Script
  changeSpkAt : Nat → Except String Script
  /-- The P2WSH output script of a witness script, and its address. -/
  wsh : Script → Script
  address : Script → String
  parseInvoice : String → Except String Invoice
  /-- The signature of an index's release key over a release of `value` sats. -/
  signRelease : Nat → Transaction → Script → Nat → Bytes

/-! ## The hand-over script -/

/-- A number of a script, least significant byte first, with a byte more where the top bit
is set; `width` bytes are enough. -/
def scriptNum : Nat → Nat → Bytes
  | 0, _ => []
  | width + 1, n =>
    if n > 0xFF then UInt8.ofNat (n % 256) :: scriptNum width (n / 256)
    else if n ≥ 0x80 then [UInt8.ofNat n, 0]
    else [UInt8.ofNat n]

/-- `push_int` of a block height. -/
def pushInt (n : Nat) : Bytes :=
  if n = 0 then [0x00]
  else if n ≤ 16 then [UInt8.ofNat (0x50 + n)]
  else
    let data := scriptNum 8 n
    UInt8.ofNat data.length :: data

/-- A spend shows either 32 bytes that hash to H and W's signature, or anything else and, from
block T on, L's signature. -/
def handoverScript (h : Hash) (w l : Key) (t : Nat) : Script :=
  [0x82] ++ pushInt 32 ++ [0x87, 0x63, 0xa8, 0x20] ++ Bytes.of256 h ++ [0x88, 0x21] ++
    Bytes.of264 w ++ [0x67, 0x75] ++ pushInt t ++ [0xb1, 0x75, 0x21] ++ Bytes.of264 l ++
    [0x68, 0xac]

/-- The output script the lock pays, for a take-back block. -/
def Record.spkAt (E : Env) (r : Record) (t : Nat) : Script :=
  E.wsh (handoverScript r.hash r.wPubkey r.lPubkey t)

/-! ## Quotes -/

/-- The index counter's step: H and W of the next index. The counter's write may fail, which is
only logged. -/
def prepare (E : Env) (recipient : String) (nextIndex : Nat) (saved : Bool) :
    Except String (Nat × Hash × Key) × Nat :=
  match E.recipientSpk recipient with
  | .error message => (.error message, nextIndex)
  | .ok _ =>
    match E.releasePubkey nextIndex with
    | .error message => (.error message, nextIndex)
    | .ok w =>
      (.ok (nextIndex, E.hashOf (E.secret nextIndex), w),
        if saved then saturatingAdd32 nextIndex 1 else nextIndex)

/-- The text without the blanks around it. -/
def trim (text : String) : String :=
  String.ofList ((text.toList.dropWhile Char.isWhitespace).reverse.dropWhile
    Char.isWhitespace).reverse

/-- A key in hexadecimal. -/
def key33 (text what : String) : Except String Key := do
  let bytes ← context (Hex.decodeAnyBytes (Bytes.ofText (trim text))) s!"{what} is not hex"
  ensure (bytes.length = 33 ∧ (bytes.head? = some 2 ∨ bytes.head? = some 3))
    s!"{what} must be a 33-byte compressed key"
  return BitVec.ofNat 264 (Bytes.toNat bytes)

/-- What the page asked the quote for. -/
structure Asked where
  index : Nat
  recipient : String
  amountSats : Nat
  releaseFeeSats : Nat
  reserveSats : Nat
  provider : String
  reserveIndex : Nat

def number (quote : Json.Value) (key : String) : Option Nat := (quote.get key).bind Json.Value.asU64

/-- `as u32` of a number, 0 where there is none. -/
def number32 (quote : Json.Value) (key : String) : Nat := (number quote key).getD 0 % 2 ^ 32

/-- The invoice of a payment of the quote. -/
def quotedInvoice (E : Env) (quote : Json.Value) (payment : String) : Except String Invoice :=
  E.parseInvoice (((quote.get payment).map fun v => trim (v.text "bolt11")).getD "")

/-- An invoice of the provider's on this network. -/
def checkInvoice (provider : Key) (invoice : Invoice) (name : String) : Except String Unit := do
  ensure (invoice.payee = provider) s!"payment {name} is not the provider's"
  ensure (invoice.ourNetwork = true) s!"payment {name} is for another network"

/-- The provider's quote, checked, as the record it becomes. -/
def checkQuote (E : Env) (asked : Asked) (quote : Json.Value) : Except String Record := do
  let _ ← E.recipientSpk asked.recipient
  ensure (asked.amountSats ≠ 0) "an on-chain pay needs an amount"
  let hash := E.hashOf (E.secret asked.index)
  ensure (((quote.get "payment_hash").bind Json.Value.asStr).map String.toLower =
    some (Hex.encode (Bytes.of256 hash))) "the quote is for another hash"
  let w ← E.releasePubkey asked.index
  let provider ← key33 asked.provider "the provider's key"
  let l ← key33 (quote.text "L") "the provider's take-back key L"
  let lockSats :=
    saturatingAdd64 (saturatingAdd64 asked.amountSats asked.releaseFeeSats) asked.reserveSats
  let providerFeeSats ←
    context (number quote "provider_fee_sats") "the quote has no provider_fee_sats"
  let lockFeeSats ← context (number quote "lock_fee_sats") "the quote has no lock_fee_sats"
  ensure (number quote "lock_sats" = some lockSats)
    "the quote's lock is not amount + release fee + reserve"
  let refundBlocks := number32 quote "refund_blocks"
  let stopReleaseBlocks := number32 quote "stop_release_blocks"
  let bExpiryBlocks := number32 quote "b_expiry_blocks"
  ensure (100 ≤ refundBlocks ∧ refundBlocks ≤ 1000)
    s!"the provider's take-back window ({refundBlocks} blocks) is outside 100..1000"
  ensure (6 ≤ stopReleaseBlocks ∧ stopReleaseBlocks < refundBlocks)
    "the provider's stop-release margin is not sane"
  ensure (saturatingAdd32 refundBlocks 40 ≤ bExpiryBlocks)
    "payment B would expire before the take-back block"
  let a ← quotedInvoice E quote "a"
  let b ← quotedInvoice E quote "b"
  ensure (b.paymentHash = hash) "payment B is not under this wallet's hash"
  ensure (b.amountMsat = some (mul64 lockSats 1000)) "payment B's amount is not the lock's"
  ensure (a.amountMsat = some (mul64 (add64 providerFeeSats lockFeeSats) 1000))
    "payment A's amount is not fee + lock fee"
  ensure (a.paymentHash ≠ hash) "payment A must have its own hash"
  checkInvoice provider a "A"
  checkInvoice provider b "B"
  ensure (bExpiryBlocks - 2 ≤ b.minFinalCltvExpiryDelta)
    "payment B's expiry is shorter than the quote says"
  ensure (providerFeeSats ≤ add64 (asked.amountSats / 10) 10000)
    "the provider's fee is out of all proportion"
  return { index := asked.index, hash, state := .quoted, recipient := trim asked.recipient,
           amountSats := asked.amountSats, releaseFeeSats := asked.releaseFeeSats,
           reserveSats := asked.reserveSats, lockSats, aHash := a.paymentHash, lPubkey := l,
           wPubkey := w, refundBlocks, stopReleaseBlocks, reserveIndex := asked.reserveIndex,
           t := none, lockBlock := none, handoverAddress := none, lockTxid := none,
           lockVout := none, lockSeenTxid := none, lockSeenHeight := none, releaseTxid := none,
           releaseTxidFast := none, releaseHeight := none, aPaymentId := none,
           bPaymentId := none, endReason := none, paidBlock := none, walkFrom := none,
           releasedAtBlock := none, releaseReplacements := 0 }

/-- The record is kept unless one under its hash is open. -/
def recordQuote (E : Env) (asked : Asked) (quote : Json.Value) (recs : Records) :
    Except String Records := do
  let rec' ← checkQuote E asked quote
  ensure ((recs[rec'.hash]?.map Record.isOpen).getD false = false)
    "a payment with this hash is already open"
  return recs.insert rec'.hash rec'

/-- One past the highest change index any on-chain pay reserved. -/
def reserveFloor (recs : Records) : Nat :=
  recs.toList.foldl (fun top entry => max top (saturatingAdd32 entry.2.reserveIndex 1)) 0

/-! ## Marks -/

/-- What the page marks. -/
inductive Mark where
  | paying (aPaymentId bPaymentId : Option String) (bestBlock : Option Nat)
  | failed (reason : Option String)
  | returned (reason : Option String)

/-- The record a mark leaves. -/
def markRecord (r : Record) : Mark → Except String Record
  | .paying aPaymentId bPaymentId bestBlock => do
    ensure (r.state = .quoted ∨ r.state = .paying) s!"cannot mark paying from '{r.state.name}'"
    return { r with
      state := .paying
      aPaymentId := aPaymentId.or r.aPaymentId
      bPaymentId := bPaymentId.or r.bPaymentId
      paidBlock := r.paidBlock.or bestBlock }
  | .failed reason => ended .failed reason
  | .returned reason => ended .returned reason
where
  ended (state : State) (reason : Option String) : Except String Record := do
    ensure (r.isOpen = true) s!"already ended ({r.state.name})"
    ensure (¬(r.state = .lockSeen ∨ r.state = .released))
      "the lock is on the chain — it ends by release or take-back, not by a mark"
    return { r with state, endReason := reason }

/-- A change of one record; the others stay. -/
def update (recs : Records) (h : Hash) (change : Record → Except String Record) :
    Except String Records := do
  let r ← context recs[h]? "no such on-chain pay"
  let r' ← change r
  return recs.insert h r'

def mark (recs : Records) (h : Hash) (m : Mark) : Except String Records :=
  update recs h fun r => markRecord r m

/-! ## The provider's lock report -/

/-- What a report names. -/
structure Report where
  t : Nat
  lockBlock : Nat
  address : String
  txids : List String
  vout : Option Nat
  deriving DecidableEq, Repr

def readReport (report : Json.Value) : Report where
  t := number32 report "T"
  lockBlock := number32 report "lock_block"
  address := trim (report.text "handover_address")
  txids := ((report.items "lock_txids").filterMap Json.Value.asStr).map String.toLower
  vout := (number report "lock_vout").map fun v => v % 2 ^ 32

/-- The address must be the script's own and T inside the agreed bounds. -/
def checkLockReport (E : Env) (r : Record) (report : Report) (paidBlock bExpiryBlocks : Nat) :
    Except String Script := do
  let tMin := saturatingAdd32 report.lockBlock (r.refundBlocks - 4)
  let tMax := saturatingAdd32 paidBlock (bExpiryBlocks - 40)
  ensure (tMin ≤ report.t ∧ report.t ≤ tMax)
    s!"the take-back block {report.t} is outside the agreed bounds {tMin}..{tMax}"
  let script := handoverScript r.hash r.wPubkey r.lPubkey report.t
  ensure (E.address script = report.address)
    "the provider's hand-over address is not the one H, W, L and T make"
  return script

/-- The record a report leaves. One that is past the lock is left as it is; one that is `locked`
already takes the new report's word. -/
def reportRecord (E : Env) (r : Record) (report : Report) : Except String Record :=
  if ¬(r.state = .paying ∨ r.state = .quoted ∨ r.state = .locked) then .ok r
  else do
    ensure (¬(report.t = 0 ∨ report.lockBlock = 0 ∨ report.address = "" ∨ report.txids = []))
      "the lock report is incomplete"
    let bExpiry := max (saturatingAdd32 r.refundBlocks 40) 200
    let _ ← checkLockReport E r report report.lockBlock bExpiry
    return { r with
      t := some report.t
      lockBlock := some report.lockBlock
      handoverAddress := some report.address
      lockTxid := report.txids.getLast?
      lockVout := report.vout
      state := .locked
      walkFrom := if r.state = .locked then r.walkFrom else some report.lockBlock }

def lockReport (E : Env) (recs : Records) (h : Hash) (report : Json.Value) :
    Except String Records :=
  update recs h fun r => reportRecord E r (readReport report)

/-! ## The walk's scripts and events -/

/-- The hand-over script of an open record that has a lock. -/
def Record.extra (E : Env) (r : Record) : Option (Nat × Script) :=
  if r.isOpen then r.t.map fun t => (r.index, r.spkAt E t) else none

/-- The hand-over scripts the walk watches. -/
def extras (E : Env) (recs : Records) : List (Nat × Script) :=
  recs.toList.filterMap fun entry => entry.2.extra E

/-- The walk saw the lock: this is the outpoint the release will spend. -/
def Record.sight (r : Record) (ev : HandoverEvent) : Record :=
  if r.state = .locked ∨ (r.state = .lockSeen ∧ r.lockSeenTxid ≠ some ev.txid) then
    { r with state := .lockSeen, lockSeenTxid := some ev.txid, lockVout := some ev.vout,
             lockSeenHeight := some ev.height, walkFrom := none }
  else r

/-- The lock was spent with this record's own secret. -/
def HandoverEvent.released (E : Env) (index : Nat) (ev : HandoverEvent) : Bool :=
  ev.spentSecret = some (Bytes.of256 (E.secret index))

/-- The lock was spent: with the secret by the release, without it by the take-back. -/
def Record.settle (E : Env) (r : Record) (ev : HandoverEvent) : Record :=
  match ev.spentTxid with
  | none => r
  | some spent =>
    if HandoverEvent.released E r.index ev then
      if r.state ≠ .done then
        { r with state := .done, releaseTxid := some spent, releaseHeight := ev.spentHeight,
                 endReason := some "the recipient was paid" }
      else r
    else if r.state ≠ .takenBack then
      let start := String.ofList (spent.text.toList.take 16)
      { r with
        state := .takenBack
        endReason := some s!"the provider took its coins back ({start}…); payment B returns" }
    else r

/-- One event of this record's index; an output of another value is not the lock. -/
def noteEvent (E : Env) (r : Record) (ev : HandoverEvent) : Record :=
  if ev.valueSats ≠ r.lockSats then r else (r.sight ev).settle E ev

/-- The events of one record, in the ledger's order; only an open record with a lock reads
them. -/
def noteRecord (E : Env) (events : List HandoverEvent) (r : Record) : Record :=
  if r.isOpen ∧ r.t.isSome then
    (events.filter fun ev => ev.index = r.index).foldl (noteEvent E) r
  else r

def noteEvents (E : Env) (recs : Records) (events : List HandoverEvent) : Records :=
  recs.map fun _ r => noteRecord E events r

/-- The lowest block the walk must read again for a lock it may have passed. -/
def rewalkDone (recs : Records) : Records := recs.map fun _ r => { r with walkFrom := none }

/-! ## The release -/

def minRateSatKvb : Nat := 100

/-- The release's size. -/
def releaseVbytes (scriptLen recipientSpkLen : Nat) (withReserve : Bool) : Nat :=
  let witness := 1 + 1 + 72 + 1 + 32 + 3 + scriptLen
  let base := 10 + 41 + (8 + 1 + recipientSpkLen) + if withReserve then 31 else 0
  (base * 4 + 2 + witness + 3) / 4

def feeAt (vbytes rateSatKvb : Nat) : Nat :=
  add64 (mul64 vbytes (max rateSatKvb minRateSatKvb)) 999 / 1000

def releaseDust : Nat := 294

/-- The recipient's output, and the unused reserve back unless it would be dust. -/
def releaseOutputs (scriptLen lockValue : Nat) (recipientSpk : Script) (amountSats : Nat)
    (reserveSpk : Script) (rateSatKvb : Nat) : Except String (List TxOut) := do
  ensure (amountSats ≤ lockValue) "the lock carries less than the amount"
  let rest := lockValue - amountSats
  let feeWith := feeAt (releaseVbytes scriptLen recipientSpk.length true) rateSatKvb
  if add64 feeWith releaseDust ≤ rest then
    return [⟨amountSats, recipientSpk⟩, ⟨sub64 rest feeWith, reserveSpk⟩]
  else
    let feeWithout := feeAt (releaseVbytes scriptLen recipientSpk.length false) rateSatKvb
    ensure (feeWithout ≤ rest) s!"the lock cannot pay the amount and a fee of {feeWithout} sats"
    return [⟨amountSats, recipientSpk⟩]

/-- The release: W's signature, the secret and the script are its witness. -/
def buildRelease (E : Env) (index : Nat) (lock : OutPoint) (lockValue : Nat) (script : Script)
    (recipientSpk : Script) (amountSats : Nat) (reserveSpk : Script) (rateSatKvb : Nat) :
    Except String Transaction := do
  let output ←
    releaseOutputs script.length lockValue recipientSpk amountSats reserveSpk rateSatKvb
  let unsigned : Transaction :=
    { version := 2, lockTime := 0, output
      input := [{ previousOutput := lock, scriptSig := [], sequence := 0xfffffffd,
                  witness := [] }] }
  let signature := E.signRelease index unsigned script lockValue
  let witness := [signature, Bytes.of256 (E.secret index), script]
  return { unsigned with
    input := [{ previousOutput := lock, scriptSig := [], sequence := 0xfffffffd, witness }] }

/-- The rate of a release: the quoted fee over its size when none is given. -/
def releaseRate (r : Record) (vbytes rateSatKvb : Nat) : Nat :=
  if rateSatKvb = 0 then max (mul64 r.releaseFeeSats 1000 / max vbytes 1) minRateSatKvb
  else max rateSatKvb minRateSatKvb

/-- The release and, where the lock can pay it, its copy at twice the rate. -/
def releaseKvb (E : Env) (recs : Records) (h : Hash) (rateSatKvb tip : Nat) :
    Except String (Transaction × Option Transaction) := do
  let r ← context recs[h]? "no such on-chain pay"
  ensure (r.state = .lockSeen ∨ r.state = .released)
    s!"the lock is not on the chain yet ({r.state.name})"
  let stop := r.stopReleaseBlock.getD 0
  let takeBack := r.t.getD 0
  ensure (tip < stop)
    (s!"too late to release: block {tip} is at or past the stop block {stop} — " ++
      s!"the provider takes its coins back at {takeBack}; payment B returns")
  let script := handoverScript r.hash r.wPubkey r.lPubkey takeBack
  let w ← E.releasePubkey r.index
  ensure (w = r.wPubkey) "the record's W is not this index's release key"
  ensure (E.hashOf (E.secret r.index) = r.hash) "the record's index does not derive its hash"
  let txid ← context r.lockSeenTxid "the lock has no txid"
  let vout ← context r.lockVout "the lock has no vout"
  let recipientSpk ← E.recipientSpk r.recipient
  let reserveSpk ← E.changeSpkAt r.reserveIndex
  let rate := releaseRate r (releaseVbytes script.length recipientSpk.length true) rateSatKvb
  let tx ← buildRelease E r.index ⟨txid, vout⟩ r.lockSats script recipientSpk r.amountSats
    reserveSpk rate
  let fast := buildRelease E r.index ⟨txid, vout⟩ r.lockSats script recipientSpk r.amountSats
    reserveSpk (saturatingMul64 rate 2)
  return (tx, fast.toOption)

/-- The release went out. -/
def markReleased (recs : Records) (h : Hash) (txid : Txid) : Except String Records :=
  update recs h fun r => do
    ensure (r.state = .lockSeen ∨ r.state = .released) s!"not releasable ({r.state.name})"
    return { r with state := .released, releaseTxid := some txid }

/-- The release went out, the first time or as a replacement, with its fast copy. -/
def markReleasedV2 (recs : Records) (h : Hash) (txid : Txid) (txidFast : Option Txid) (tip : Nat) :
    Except String Records :=
  update recs h fun r => do
    ensure (r.state = .lockSeen ∨ r.state = .released) s!"not releasable ({r.state.name})"
    return { r with
      state := .released
      releaseTxid := some txid
      releaseTxidFast := txidFast
      releasedAtBlock := if r.state = .released then r.releasedAtBlock else some tip
      releaseReplacements :=
        if r.state = .released then saturatingAdd32 r.releaseReplacements 1 else 0 }

/-! ## The node's word on the two payments -/

/-- B settled: done. B failed back: returned before the lock, taken back after it. A failed back
before the lock: returned. -/
def latchRecord (paymentHash : Hash) (settled : Bool) (r : Record) : Record :=
  if ¬r.isOpen then r
  else if r.hash = paymentHash ∧ settled then
    { r with state := .done
             endReason := some "the recipient was paid; the provider collected payment B" }
  else if ¬settled ∧ (r.hash = paymentHash ∨ (r.aHash = paymentHash ∧ r.t = none)) then
    { r with
      state := if r.t.isSome then .takenBack else .returned
      endReason := some (if r.hash = paymentHash then "payment B came back"
        else "payment A came back before the lock") }
  else r

def latch (recs : Records) (paymentHash : Hash) (settled : Bool) : Records :=
  recs.map fun _ r => latchRecord paymentHash settled r

end Lij.Node.OnchainPay
