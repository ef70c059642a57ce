import Lij.Tatara.Records
import Lij.Tatara.Wire

/-!
# One phone's attempt, as the page drives it

The phone keeps one attempt machine, seals what the machine posts, opens what the
relay brings, collects the page's coin checks, asks the page to save the record
and, once every input of the funding is signed, gives the complete funding out.
Every phone, this one included, reads only what the relay holds: a post is never
fed to the phone's own machine before the relay echoes it.

Transactions the source keeps as hexadecimal text are kept as transactions.
-/

namespace Lij.Tatara

open Bitcoin Joinstr Checked Fallible

/-- A coin the page must check. -/
structure CoinAsk where
  txid : String
  vout : Nat
  amountSat : Nat
  scriptPubkeyHex : String
  deriving DecidableEq, Repr

/-- The funding with every member's signature, and the signed exits. -/
structure Complete where
  fundingHex : Transaction
  exitsHex : List Transaction
  deriving DecidableEq, Repr

structure Stop where
  reason : String
  outcome : String
  namedCoins : List (String × Nat)
  /-- A record was saved for this attempt and this phone had not yet signed. -/
  wipeRecord : Bool
  channelOpened : Bool
  deriving DecidableEq, Repr

/-- What the page does next. -/
structure Out where
  relay : List Wire.Event
  payout : List Wire.Event
  checks : List CoinAsk
  save : Option StoredRecord
  fundingSigned : Bool
  complete : Option Complete
  stopped : Option Stop
  phase : String
  openChannel : Option Nat
  fundChannel : Option (String × Nat)
  members : Nat
  deriving DecidableEq

namespace Out

def default : Out := ⟨[], [], [], none, false, none, none, "", none, none, 0⟩

def merge (self o : Out) : Out where
  relay := self.relay ++ o.relay
  payout := self.payout ++ o.payout
  checks := self.checks ++ o.checks
  save := o.save.or self.save
  fundingSigned := self.fundingSigned || o.fundingSigned
  complete := o.complete.or self.complete
  stopped := o.stopped.or self.stopped
  phase := o.phase
  openChannel := o.openChannel.or self.openChannel
  fundChannel := o.fundChannel.or self.fundChannel
  members := self.members

end Out

structure Phone (P : Primitives) where
  attemptId : String
  poolId : String
  poolSk : SecretKey
  poolX : String
  sessionSk : SecretKey
  entropy : Digest
  n : Nat
  /-- The ids of the events read so far. -/
  seen : List String
  machine : Attempt P
  payoutIndex : Option Nat
  change : Script × Nat
  channelOpened : Bool
  funding : Option Transaction
  fundingPrevouts : List TxOut
  exits : List Transaction
  witnesses : Std.TreeMap OutPoint (List Bytes)
  completeGiven : Bool
  asked : List (OutPoint × TxOut)
  /-- None when no provider answered for the coin. -/
  answers : Std.TreeMap OutPoint (Option Bool)
  recordSaved : Bool
  signed : Bool
  done : Bool
  isPublic : Bool
  joiners : List SessionKey
  creator : Bool

/-- The nostr code with joinstr's `funding::verify_input`. -/
structure Radio (P : Primitives) extends Nostr P where
  verifyInput : Transaction → Nat → List TxOut → List Bytes → Except String Unit

/-- `txid.parse()`. -/
def parseTxid (text : String) : Except String Txid := do
  let bytes ← context (Hex.decodeAnyBytes (Bytes.ofText text)) "bad hex"
  ensure (bytes.length = 32) "bad length"
  return Bytes.to256 bytes

/-- The coins these sessions registered. -/
def Attempt.coinsOf {P : Primitives} (a : Attempt P) (sessions : List SessionKey) :
    List OutPoint :=
  (a.regs.toList.filter fun r => sessions.contains r.1).flatMap fun r => r.2.1.inputs.map Prod.fst

namespace Phone

variable {P : Primitives}

/-- Every random byte of the attempt comes from its entropy. -/
def derive (P : Primitives) (entropy : Digest) (label : String) (n : Nat) : Digest :=
  P.tagged "lij/tatara/phone/v1" (Bytes.of256 entropy ++ Bytes.ofText label ++ leBytes 4 n)

def next (label : String) : Fallible (Phone P) Digest := do
  modify fun p => { p with n := Word.add32 p.n 1 }
  let p ← get
  return derive P p.entropy label p.n

def phaseWord (p : Phone P) : String :=
  if p.done then "done"
  else
    match p.machine.phase with
    | .inputs => "registering"
    | .channel => "opening_channel"
    | .payouts => "payouts"
    | .view => "checking"
    | .signing => "signing"
    | .funding => "funding"
    | .fundingSigned => "funding_signed"
    | .stopped => "stopped"

/-- Nothing to do. -/
def quiet (p : Phone P) : Out := { Out.default with phase := p.phaseWord }

variable (W : Radio P)

def sealPost (author : SecretKey) (json : P.Text) (now : Nat) : Fallible (Phone P) Wire.Event := do
  let iv ← next "iv"
  let p ← get
  lift (Wire.sealEvent W.toNostr author p.poolX json now ((Bytes.of256 iv).take 16))

/-! ## The machine's actions -/

def coinAsk (coin : OutPoint × TxOut) : CoinAsk :=
  ⟨coin.1.txid.text, coin.1.vout, coin.2.value, Hex.encode coin.2.scriptPubkey⟩

/-- What a stop of the machine says to the page. -/
def stopOf (p : Phone P) (reason : String) (named : List SessionKey) : Stop where
  reason := reason
  outcome :=
    if p.machine.phase = .stopped ∧ Attempt.occursIn (Bytes.ofText "Payouts") (Bytes.ofText reason)
    then "stopped_at_payouts" else "stopped"
  namedCoins := (p.machine.coinsOf named).map fun op => (op.txid.text, op.vout)
  wipeRecord := p.recordSaved && !p.signed
  channelOpened := p.channelOpened

def actOne (now : Nat) (out : Out) : Action P → Fallible (Phone P) Out
  | .post json => do
    let p ← get
    let e ← sealPost W p.sessionSk json now
    return { out with relay := out.relay ++ [e] }
  | .postPayout json => do
    let bytes ← next "one-time"
    let k ← lift ((W.secretKey bytes).mapError fun _ => "one-time key")
    let e ← sealPost W k json now
    return { out with payout := out.payout ++ [e] }
  | .checkCoins coins => do
    modify fun p => { p with asked := coins, answers := ∅ }
    return { out with checks := out.checks ++ coins.map coinAsk }
  | .saveRecord rec => do
    modify fun p => { p with
      funding := some rec.funding, fundingPrevouts := rec.prevouts, exits := rec.exits }
    let p ← get
    return { out with
      save := some (.fromMachine rec p.payoutIndex (some p.change)
        (Word.saturatingMul64 now 1000)) }
  | .fundingSigned => do
    modify fun p => { p with signed := true }
    return { out with fundingSigned := true }
  | .openChannel sats => do
    modify fun p => { p with channelOpened := true }
    return { out with openChannel := some sats }
  | .fundChannel txid vout => return { out with fundChannel := some (txid, vout) }
  | .stopped reason named => do
    let p ← get
    return { out with stopped := some (p.stopOf reason named) }

def act (acts : List (Action P)) (now : Nat) : Fallible (Phone P) Out := do
  let out ← acts.foldlM (actOne W now) .default
  let p ← get
  return { out with phase := p.phaseWord, members := p.machine.regs.size }

/-- One input for the machine, and its actions. -/
def onMachine (input : Input P) (now : Nat) : Fallible (Phone P) Out := do
  let p ← get
  let result := p.machine.on input
  modify fun p => { p with machine := result.2 }
  act W result.1 now

/-! ## Funding signatures -/

/-- The witness of a message's entry, when it is the sender's own input and verifies. -/
def acceptWitness (p : Phone P) (tx : Transaction) (sender : SessionKey) (w : WitnessMsg) :
    Option (OutPoint × List Bytes) := do
  let txid ← (parseTxid w.txid).toOption
  let op : OutPoint := ⟨txid, w.vout⟩
  guard (p.machine.owns sender op)
  let items ← w.witness.mapM fun h => Hex.decodeAnyBytes (Bytes.ofText h)
  guard (items ≠ [] ∧ items.length ≤ 2 ∧ ∀ i ∈ items, i.length ≤ 80)
  let idx ← tx.input.findIdx? fun i => i.previousOutput == op
  guard ((W.verifyInput tx idx p.fundingPrevouts items).toBool)
  return (op, items)

/-- A member's funding signatures are taken only for the inputs that member registered, and only
when they verify against the funding this phone built. -/
def collectWitnesses (p : Phone P) (sender : SessionKey) (json : P.Text) : Phone P :=
  match P.parseStrict json, p.funding with
  | .ok (.fundingSigs witnesses), some tx =>
    if p.fundingPrevouts.length ≠ tx.input.length then p
    else { p with
      witnesses := (witnesses.filterMap (p.acceptWitness W tx sender)).foldl
        (fun held w => held.insert w.1 w.2) p.witnesses }
  | _, _ => p

/-- The funding with the collected witnesses, if every input has one. -/
def signedFunding (p : Phone P) : Option Transaction := do
  let tx ← p.funding
  let input ← tx.input.mapM fun i =>
    p.witnesses[i.previousOutput]?.map fun w => { i with witness := w }
  return { tx with input }

/-- Every input signed: the complete funding and the exits, once. -/
def tryComplete : Fallible (Phone P) (Option Complete) := do
  let p ← get
  if p.completeGiven ∨ p.signed = false then return none
  match p.signedFunding with
  | none => return none
  | some tx => do
    modify fun p => { p with completeGiven := true, done := true }
    return some ⟨tx, p.exits⟩

/-! ## Events -/

def isJoinPool (json : P.Text) : Bool :=
  match P.parseStrict json with
  | .ok .joinPool => true
  | _ => false

/-- The asker gets a seat while seats remain. -/
def seatJoiner (p : Phone P) (sender : SessionKey) : Phone P :=
  if sender ∉ p.joiners ∧ p.joiners.length + 1 < p.machine.params.peers then
    { p with joiners := p.joiners ++ [sender] }
  else p

/-- The pool's key to an asker with a seat. -/
def joinReply (p : Phone P) (sender : SessionKey) : Msg :=
  if sender ∈ p.joiners then .credentials (p.poolId ++ Hex.encode (Bytes.of256 p.poolSk))
  else .reject "pool is full"

/-- The creator of a public pool answers a join request. -/
def answerJoin (sender : SessionKey) (now : Nat) : Fallible (Phone P) Out := do
  modify fun p => p.seatJoiner sender
  let iv ← next "creds-iv"
  let p ← get
  let e ← lift (Wire.sealEvent W.toNostr p.poolSk (Wire.keyHex sender)
    (P.envelopeJson (p.joinReply sender)) now ((Bytes.of256 iv).take 16))
  return { p.quiet with relay := [e] }

/-- The machine hears the message, then the funding may be complete. -/
def hear (sender : SessionKey) (json : P.Text) (now : Nat) : Fallible (Phone P) Out := do
  let out ← onMachine W (.msg sender json) now
  match ← tryComplete with
  | some c => return { out with complete := some c }
  | none => return out

/-- An opened message: the witnesses it brings, then the handshake or the machine. -/
def readOpened (sender : SessionKey) (json : P.Text) (now : Nat) : Fallible (Phone P) Out := do
  modify fun p => p.collectWitnesses W sender json
  let p ← get
  if p.isPublic ∧ isJoinPool json then
    if p.creator then answerJoin W sender now else return p.quiet
  else hear W sender json now

/-- The events seen, forgotten when a flooding relay grew them past the bound. -/
def boundSeen (p : Phone P) : Phone P :=
  if p.seen.length > 8192 then { p with seen := [] } else p

/-- One event from the relay. -/
def read (e : Wire.Event) (now : Nat) : Fallible (Phone P) Out := do
  modify boundSeen
  let p ← get
  let opened := (Wire.openEvent W.toNostr p.poolSk p.poolX e).exec p.seen
  modify fun p => { p with seen := opened.2 }
  match opened.1 with
  | .ok (some (sender, json)) => readOpened W sender json now
  | _ => do
    let p ← get
    return p.quiet

/-! ## The page's calls -/

/-- A text the page read from the relay: its length and the event it parses to. -/
structure RelayText where
  size : Nat
  event : Option Wire.Event

def relayEvent (text : RelayText) (now : Nat) : Fallible (Phone P) Out := do
  require (text.size ≤ 64 * 1024) "relay event too large"
  match text.event with
  | some e => read W e now
  | none => do
    let p ← get
    return p.quiet

/-- The asked coins with this answer. -/
def answered (p : Phone P) (answer : Option Bool) : List OutPoint :=
  (p.asked.filter fun coin => p.answers[coin.1]?.join == answer).map Prod.fst

/-- The coin check's answer for one asked coin. -/
def coinResult (txid : String) (vout : Nat) (ok : Option Bool) (now : Nat) :
    Fallible (Phone P) Out := do
  let txid ← lift ((parseTxid txid).mapError fun _ => "txid")
  let op : OutPoint := ⟨txid, vout⟩
  let p ← get
  if ¬p.asked.any fun coin => coin.1 == op then return p.quiet
  modify fun p => { p with answers := p.answers.insert op ok }
  let p ← get
  if p.answers.size < p.asked.length then return p.quiet
  modify fun p => { p with asked := [], answers := ∅ }
  onMachine W (.coinsChecked (p.answered (some false)) (p.answered none)) now

/-- The record is saved, before the funding signature. -/
def onRecordSaved (now : Nat) : Fallible (Phone P) Out := do
  modify fun p => { p with recordSaved := true }
  onMachine W .recordSaved now

/-- This phone leaves the pool on purpose, before its coin signature. -/
def leave (now : Nat) : Fallible (Phone P) Out := do
  let p ← get
  if p.signed ∨ p.done then return p.quiet
  onMachine W .leave now

/-- What the page may call, apart from the answer that a record is saved. -/
inductive Call where
  | relayEvent (text : RelayText)
  | coinResult (txid : String) (vout : Nat) (ok : Option Bool)
  | payoutGiven (spk : Script)
  | channelSaved
  | channelFailed (why : String)
  | leave
  | tick

def call (now : Nat) : Call → Fallible (Phone P) Out
  | .relayEvent text => relayEvent W text now
  | .coinResult txid vout ok => coinResult W txid vout ok now
  | .payoutGiven spk => onMachine W (.payoutGiven spk) now
  | .channelSaved => onMachine W .channelSaved now
  | .channelFailed why => onMachine W (.channelFailed why) now
  | .leave => leave W now
  | .tick => onMachine W (.tick now) now

/-! ## Joining -/

/-- What every phone brings to an attempt. -/
structure Common where
  attemptId : String
  coins : List (OutPoint × TxOut × SecretKey)
  payout : Option Script
  payoutIndex : Option Nat
  changeSpk : Script
  changeIndex : Nat
  tip : Nat
  rateAtJoin : Nat
  entropy : Digest
  now : Nat
  refused : List OutPoint
  network : Network
  isPublic : Bool

/-- Each phase of the setup may take this long. -/
def phaseS : Nat := 120

/-- The smallest change worth an output. -/
def changeDust : Nat := 294

def secret (entropy : Digest) (label : String) : Except String SecretKey :=
  (W.secretKey (derive P entropy label 0)).mapError fun _ => "a derived key is out of range"

/-- This phone's part, with the keys of this attempt. -/
def myPart (c : Common) (params : Params) (sessionSk : SecretKey) : Except String MyPart := do
  let size := (params.classes.map Class.amount).headD 0
  let change ← myChange (Word.sum64 (c.coins.map fun coin => coin.2.1.value)) size params.peers
    params.feeRateMilli (c.coins.map fun coin => coin.2.1.scriptPubkey) c.changeSpk changeDust
  let musig ← (W.secretKey (derive P c.entropy "musig" 0)).mapError
    fun _ => "a derived scalar is out of range"
  let ring ← (W.secretKey (derive P c.entropy "ring" 0)).mapError
    fun _ => "a derived scalar is out of range"
  return { coins := c.coins, change := change.map fun v => ⟨v, c.changeSpk⟩, tip := c.tip,
           payout := c.payout, session := W.xonly sessionSk, musig, ring,
           entropy := derive P c.entropy "machine" 0, rateAtJoin := c.rateAtJoin }

/-- The machine of a public pool waits while the announcement is open. -/
def setUp (c : Common) (timeout : Nat) (a : Attempt P) : Attempt P :=
  let a := (a.refusing c.refused).withPublic c.isPublic
  if c.isPublic then a.firstPhaseUntil (Word.saturatingAdd64 timeout phaseS) else a

/-- The phone before its first post. -/
def fresh (c : Common) (poolSk sessionSk : SecretKey) (machine : Attempt P) : Phone P where
  attemptId := c.attemptId
  poolId := machine.params.id
  poolSk := poolSk
  poolX := Wire.keyHex (W.xonly poolSk)
  sessionSk := sessionSk
  entropy := c.entropy
  n := 0
  seen := []
  machine := machine
  payoutIndex := c.payoutIndex
  change := (c.changeSpk, c.changeIndex)
  channelOpened := false
  funding := none
  fundingPrevouts := []
  exits := []
  witnesses := ∅
  completeGiven := false
  asked := []
  answers := ∅
  recordSaved := false
  signed := false
  done := false
  isPublic := c.isPublic
  joiners := []
  creator := false

/-- Take part in a pool whose options were checked: `params` are the pool event's. -/
def start (c : Common) (params : Params) (timeout : Nat) (poolSk : SecretKey) :
    Except String (Phone P × Out) := do
  let sessionSk ← secret W c.entropy "session"
  let me ← myPart W c params sessionSk
  let begun ← Attempt.new params c.network me c.now ⟨phaseS⟩
  match (act W begun.2 c.now).exec (fresh W c poolSk sessionSk (setUp c timeout begun.1)) with
  | (.ok out, p) => return (p, out)
  | (.error e, _) => throw e

end Phone

end Lij.Tatara
