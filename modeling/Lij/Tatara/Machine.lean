import Lij.Foundation.Fallible
import Lij.Foundation.Maps
import Lij.Tatara.Rederive

/-!
# One phone's part of one attempt

The attempt machine of the wallet's pools, handler by handler. Messages and the
page's answers come in, messages and actions go out. A handler that returns an
error keeps the assignments made before it, and `Attempt.on` decides what the
error means: it stops the attempt when a registered member sent the message or
when the page's own answer failed, and is ignored otherwise.

An index into a map that has no such key would panic in the source; here it is
an error, and the invariants proved about the machine exclude it.
-/

namespace Lij.Tatara

open Bitcoin Joinstr Checked

/-- This phone's part, fixed when it joins. -/
structure MyPart where
  coins : List (OutPoint × TxOut × SecretKey)
  change : Option TxOut
  tip : Nat
  payout : Option Script
  session : SessionKey
  musig : Scalar
  ring : Scalar
  entropy : Digest
  rateAtJoin : Nat

inductive Phase where
  | inputs | channel | payouts | view | signing | funding | fundingSigned | stopped
  deriving DecidableEq, Repr

/-- The phase's name as the timeout's reason prints it. -/
def Phase.debug : Phase → String
  | .inputs => "Inputs"
  | .channel => "Channel"
  | .payouts => "Payouts"
  | .view => "View"
  | .signing => "Signing"
  | .funding => "Funding"
  | .fundingSigned => "FundingSigned"
  | .stopped => "Stopped"

structure Record where
  id : String
  funding : Transaction
  exits : List Transaction
  payout : Script
  inputs : List OutPoint
  channel : Bool
  rateMilli : Nat
  prevouts : List TxOut
  deriving DecidableEq, Repr

/-- What the page does next. -/
inductive Action (P : Primitives) where
  | post (json : P.Text)
  | postPayout (json : P.Text)
  | checkCoins (coins : List (OutPoint × TxOut))
  | saveRecord (record : Record)
  | fundingSigned
  | stopped (reason : String) (named : List SessionKey)
  | openChannel (sats : Nat)
  | fundChannel (txid : String) (vout : Nat)
  deriving DecidableEq

inductive Input (P : Primitives) where
  | msg (sender : SessionKey) (json : P.Text)
  | coinsChecked (bad unanswered : List OutPoint)
  | recordSaved
  | payoutGiven (spk : Script)
  | channelSaved
  | channelFailed (why : String)
  | tick (now : Nat)
  | leave
  deriving DecidableEq

structure Timeouts where
  phaseS : Nat

structure Attempt (P : Primitives) where
  id : String
  params : Params
  network : Network
  d : Nat
  rateMilli : Nat
  me : MyPart
  auxN : Nat
  phase : Phase
  clockPhase : Phase
  deadline : Nat
  timeouts : Timeouts
  regs : Std.TreeMap SessionKey (InputRegistration × P.Text)
  coinsAsked : Bool
  payouts : List (Script × Nat)
  images : Std.TreeMap String (Script × P.Text)
  built : Option PoolTxs
  keys : Option PoolKeys
  msgs : Option (List ExitMessage)
  myNonces : Option (ExitNonces P)
  myView : Option Digest
  views : Std.TreeMap SessionKey Digest
  nonces : Std.TreeMap SessionKey (List PubNonce × P.Text)
  psigs : Std.TreeMap SessionKey (List PartialSignature × P.Text)
  recordSaved : Bool
  recheckOk : Bool
  channelSaved : Bool
  refused : List OutPoint
  isPublic : Bool

abbrev Handler (P : Primitives) := Fallible (Attempt P)

abbrev Answer (P : Primitives) := Handler P (List (Action P))

def post {P : Primitives} (msg : Msg) : Action P := .post (P.envelopeJson msg)

/-- An entry the source reads by index. -/
def entry {α : Type} (map : Std.TreeMap SessionKey α) (key : SessionKey) : Except String α :=
  context map[key]? "no entry found for key"

namespace Attempt

open Fallible

variable {P : Primitives}

/-- The next 32 bytes derived from the attempt's entropy. -/
def aux : Handler P Digest := do
  modify fun a => { a with auxN := Word.add32 a.auxN 1 }
  let a ← get
  return P.tagged "lij/tatara/aux/v1" (Bytes.of256 a.me.entropy ++ leBytes 4 a.auxN)

/-- The registered sessions that did not send what this phase waits for. -/
def stalled (a : Attempt P) : List SessionKey :=
  match a.phase with
  | .view => a.regs.keys.filter fun s =>
    s ≠ a.me.session ∧ ((!a.isPublic ∧ s ∉ a.views) ∨ s ∉ a.nonces)
  | .signing => a.regs.keys.filter fun s => s ≠ a.me.session ∧ s ∉ a.psigs
  | _ => []

/-- Does this registered session own this funding input? -/
def owns (a : Attempt P) (session : SessionKey) (op : OutPoint) : Bool :=
  match a.regs[session]? with
  | some (r, _) => r.inputs.any fun (o, _) => o == op
  | none => false

/-- What a stop says: the abort goes out once this phone has registered. -/
def stopActions (a : Attempt P) (reason : String) (named : List SessionKey) : List (Action P) :=
  (if a.me.session ∈ a.regs then [post (.abort "stopped")] else []) ++ [.stopped reason named]

def stopped (a : Attempt P) : Attempt P := { a with phase := .stopped, myNonces := none }

def stop (reason : String) (named : List SessionKey) : Answer P := do
  let a ← get
  modify stopped
  return a.stopActions reason named

/-! ## Signing the funding -/

/-- One witness per own coin, each for its place in the funding. -/
def signCoins (tx : Transaction) (prevouts : List TxOut) :
    List (OutPoint × TxOut × SecretKey) → Handler P (List WitnessMsg)
  | [] => return []
  | (op, _, sk) :: coins => do
    let idx ← lift (context (tx.input.findIdx? fun i => i.previousOutput == op)
      "my input is not in the funding")
    let aux ← aux
    let w ← lift (P.signInput tx idx prevouts sk aux)
    let rest ← signCoins tx prevouts coins
    return ⟨op.txid.text, op.vout, w.map Hex.encode⟩ :: rest

/-- Everything the funding signature waits for is there. -/
def readyToFund (a : Attempt P) : Prop :=
  a.recordSaved ∧ a.recheckOk ∧ (a.params.payoutType = .p2tr ∨ a.channelSaved)

instance (a : Attempt P) : Decidable a.readyToFund := by
  unfold readyToFund
  infer_instance

def tryFund : Answer P := do
  let a ← get
  if ¬a.readyToFund then return []
  let built ← lift (context a.built "built")
  let witnesses ← signCoins built.funding built.fundingPrevouts a.me.coins
  modify fun a => { a with phase := .fundingSigned }
  return [post (.fundingSigs witnesses), .fundingSigned]

/-! ## Signing the exits -/

/-- The registered sessions in a fixed order. -/
def signerOrder (a : Attempt P) : List SessionKey := a.regs.keys

/-- Does one text occur in another? -/
def occursIn (needle hay : Bytes) : Bool := hay.tails.any fun rest => needle.isPrefixOf rest

/-- The sessions whose key the aggregation's error names. -/
def namedBy (a : Attempt P) (text : String) : List SessionKey :=
  a.signerOrder.filter fun s =>
    match a.regs[s]? with
    | some (r, _) => occursIn (Hex.encodeBytes (Bytes.of264 r.musig)) (Bytes.ofText text)
    | none => false

/-- Every signer's key, nonces and partial signatures, in signer order. -/
def signers (a : Attempt P) : Except String (List Signer) :=
  a.signerOrder.mapM fun s => do
    let reg ← entry a.regs s
    let nonces ← entry a.nonces s
    let psigs ← entry a.psigs s
    return { key := reg.1.musig, nonces := nonces.1, sigs := psigs.1 }

/-- The attempt record for the signed transactions. -/
def record (a : Attempt P) (built : PoolTxs) (payout : Script) : Record :=
  { id := a.id, funding := built.funding, exits := built.exits, payout,
    inputs := a.me.coins.map Prod.fst, channel := a.params.payoutType = .p2wsh,
    rateMilli := a.rateMilli, prevouts := built.fundingPrevouts }

/-- The aggregate signatures attached, with the payout the record names. -/
def signedBuild (a : Attempt P) (unsigned : PoolTxs) (sigs : List CompactSignature) :
    Except String (PoolTxs × Script) := do
  let built ← attach unsigned sigs
  let payout ← context a.me.payout "no payout"
  return (built, payout)

/-- Every partial signature is in: aggregate, attach and ask for the record. -/
def enterFunding : Answer P := do
  let a ← get
  let keys ← lift (context a.keys "keys")
  let msgs ← lift (context a.msgs "msgs")
  let signers ← lift a.signers
  match aggregate P keys msgs signers with
  | .error text =>
    stop "a member's partial signature is invalid" (if a.isPublic then [] else a.namedBy text)
  | .ok sigs => do
    let unsigned ← lift (context a.built "built")
    modify fun a => { a with built := none }
    let signed ← lift (a.signedBuild unsigned sigs)
    modify fun a => { a with built := some signed.1, phase := .funding }
    return [.saveRecord (a.record signed.1 signed.2),
      .checkCoins (a.me.coins.map fun (op, out, _) => (op, out))]

/-- One item for each exit; before the build, one less than the members. -/
def exitCount (a : Attempt P) : Nat :=
  match a.msgs with
  | some msgs => msgs.length
  | none => a.params.peers - 1

def onPsigs (sender : SessionKey) (offset : Nat) (sigs : List String) (json : P.Text) :
    Answer P := do
  let a ← get
  match a.psigs[sender]? with
  | some (_, seen) => do
    require (seen = json) "a member sent two different partial signatures"
    return []
  | none => do
    require (offset = 0) "signatures in parts are not used by LiJ pools"
    lift (onePerExit sigs.length a.exitCount)
    let parsed ← lift (sigs.mapM (psigFromHex P))
    modify fun a => { a with psigs := a.psigs.insert sender (parsed, json) }
    let a ← get
    if a.phase ≠ .signing ∨ a.psigs.size < a.params.peers then return []
    enterFunding

/-- Every member's nonces, in signer order. -/
def nonceOrder (a : Attempt P) : Except String (List (List PubNonce)) :=
  a.signerOrder.mapM fun s => do
    let nonces ← entry a.nonces s
    return nonces.1

/-- This phone's partial signatures over every exit, with its secret nonces. -/
def partialSigs (a : Attempt P) (secs : ExitNonces P) : Except String (List PartialSignature) := do
  let order ← a.nonceOrder
  let keys ← context a.keys "keys"
  let msgs ← context a.msgs "msgs"
  partialSign P a.me.musig keys msgs secs order

def trySign : Answer P := do
  let a ← get
  if a.phase ≠ .view ∨ (a.isPublic = false ∧ a.views.size < a.params.peers) ∨
      a.nonces.size < a.params.peers then return []
  let mine ← lift (context a.myView "no view")
  if (Maps.values a.views).any fun v => v ≠ mine then
    stop "the members do not see the same pool" []
  else do
    let secs ← lift (context a.myNonces "my nonces were used")
    modify fun a => { a with myNonces := none }
    let psigs ← lift (a.partialSigs secs)
    modify fun a => { a with phase := .signing }
    return [post (.partialSigs 0 (psigs.map psigHex))]

def onNonces (sender : SessionKey) (offset : Nat) (nonces : List String) (json : P.Text) :
    Answer P := do
  let a ← get
  match a.nonces[sender]? with
  | some (_, seen) => do
    require (seen = json) "a member sent two different nonce messages"
    return []
  | none => do
    require (offset = 0) "nonces in parts are not used by LiJ pools"
    lift (onePerExit nonces.length a.exitCount)
    let parsed ← lift (nonces.mapM (nonceFromHex P))
    modify fun a => { a with nonces := a.nonces.insert sender (parsed, json) }
    trySign

/-- The hash a view message carries. -/
def viewHashOf (v : ViewFields) : Except String Digest := do
  ensure (v.fields = 3 ∧ v.version = some "2") "bad view message"
  let bytes ← strictHex (v.hash.getD "") 32
  return Bytes.to256 bytes

def onView (sender : SessionKey) (v : ViewFields) : Answer P := do
  let a ← get
  if sender ∉ a.regs then return []
  let hash ← lift (viewHashOf v)
  match a.views[sender]? with
  | some seen => do
    require (seen = hash) "a member sent two different views"
    return []
  | none => do
    modify fun a => { a with views := a.views.insert sender hash }
    trySign

/-! ## Building the pool -/

/-- The concatenation the view hash commits to. -/
def viewBytes (a : Attempt P) (built : PoolTxs) (msgs : List ExitMessage) : Bytes :=
  let sessions := a.regs.keys.insertionSort (· ≤ ·)
  let rings := ((Maps.values a.regs).map fun r => r.1.ring).insertionSort (· ≤ ·)
  Bytes.ofText a.id ++ Bytes.ofText (P.computeTxid built.funding).text ++
    (msgs.map fun m => Bytes.of256 m.msg).flatten ++ (sessions.map Bytes.of256).flatten ++
    (rings.map Bytes.of264).flatten

def viewHash (a : Attempt P) (built : PoolTxs) (msgs : List ExitMessage) : Digest :=
  P.tagged "lij/tatara/view/v1" (a.viewBytes built msgs)

def registrations (a : Attempt P) : List InputRegistration := (Maps.values a.regs).map Prod.fst

def members (a : Attempt P) : List Member :=
  a.registrations.map fun r =>
    { musig := r.musig, inputs := r.inputs, change := r.change, height := r.height }

/-- The exit that pays this phone's channel, with the output's place. -/
def channelExit (exits : List Transaction) (payout : Script) (d : Nat) :
    Option (Transaction × Nat) :=
  exits.findSome? fun e =>
    (e.output.findIdx? fun o => o.scriptPubkey == payout && o.value == d).map fun v => (e, v)

/-- What passed every check: the transactions with their keys and messages, and
what the page is asked about the channel. -/
structure CheckedBuild (P : Primitives) where
  built : PoolTxs
  keys : PoolKeys
  msgs : List ExitMessage
  fundChannel : List (Action P)

/-- The build and all checks before anything is posted about it. -/
def checkedBuild (a : Attempt P) : Except String (CheckedBuild P) := do
  ensure (withinFeeLimitMilli a.rateMilli a.me.rateAtJoin Word.u64Max) "fees rose since you joined"
  let r ← rederive P a.id a.d a.rateMilli a.members a.payouts a.me.tip
  scriptsApart r a.members (a.payouts.map Prod.fst)
  let keys ← P.newPoolKeys (a.registrations.map InputRegistration.musig)
  let built ← P.build a.params a.registrations
    (a.payouts.map fun (s, p) => { script := s, amount := a.d, priority := p }) keys
  sameAsRederived built r
  let payout ← context a.me.payout "no payout"
  myPayoutOnce built.exits payout a.d
  let me ← context (((a.members.zip a.registrations).find?
    fun (_, r) => r.session == a.me.session).map Prod.fst) "me"
  mineInFunding built.funding me
  let fundChannel ← (if a.params.payoutType = .p2wsh then do
      let (exit, vout) ← context (channelExit built.exits payout a.d)
        "no exit pays my channel exactly the pool size"
      return [Action.fundChannel (P.computeTxid exit).text vout]
    else return [] : Except String (List (Action P)))
  let msgs ← exitMessages P keys built
  return { built, keys, msgs, fundChannel }

def buildAndCheck : Answer P := do
  let a ← get
  let checked ← lift a.checkedBuild
  let view := a.viewHash checked.built checked.msgs
  let aux ← aux
  let (secs, pubs) ← lift (makeNonces P a.me.musig checked.keys checked.msgs a.id aux)
  modify fun a => { a with
    myNonces := some secs, myView := some view, built := some checked.built,
    keys := some checked.keys, msgs := some checked.msgs, phase := .view }
  return [.post (P.viewJson (Hex.encode (Bytes.of256 view))),
    post (.nonces 0 (pubs.map nonceHex))] ++ checked.fundChannel

/-! ## Payouts -/

/-- The members' ring keys in their common order. -/
def ringKeys (a : Attempt P) : List Point :=
  (a.registrations.map InputRegistration.ring).insertionSort (· ≤ ·)

def payoutTypeCheck (type : PayoutType) (spk : Script) : Except String Unit :=
  match type with
  | .p2tr => ensure (spk.isP2tr = true) "a payout that is not P2TR"
  | .p2wsh => ensure (spk.isP2wsh = true) "a payout that is not a channel's P2WSH"

/-- The payout's script and key image, once everything about it is checked. -/
def readOutput (a : Attempt P) (address : String) (ringSig : RingSig) (priority : Nat)
    (denomination : Option Nat) : Except String (Script × String) := do
  ensure (priority = 0) "Phase 1 payouts have priority 0"
  ensure (denomination.getD a.d = a.d) "another denomination"
  let spk ← P.addressToScript address a.network
  payoutTypeCheck a.params.payoutType spk
  let image ← P.ringVerify a.ringKeys (payoutMsg P a.id 0 a.d spk) ringSig
  return (spk, image)

def onOutput (address : String) (ringSig : RingSig) (priority : Nat) (denomination : Option Nat)
    (json : P.Text) : Answer P := do
  let a ← get
  if ¬(a.phase = .payouts ∨ a.phase = .inputs ∨ a.phase = .channel) then return []
  if a.regs.size < a.params.peers then return []
  let read ← lift (a.readOutput address ringSig priority denomination)
  match a.images[read.2]? with
  | some (_, seenJson) =>
    if seenJson = json then return []
    stop "two payouts under one key image" []
  | none => do
    require (¬a.payouts.any fun p => p.1 == read.1) "a payout address registered twice"
    modify fun a => { a with
      images := a.images.insert read.2 (read.1, json), payouts := a.payouts ++ [(read.1, 0)] }
    let a ← get
    if a.payouts.length < a.params.peers then return []
    require (a.phase = .payouts) "every payout is in, but ours is not registered yet"
    buildAndCheck

/-- Our payout, ring-signed over the members' ring keys, through the forwarder. -/
def registerPayout : Answer P := do
  let a ← get
  let payout ← lift (context a.me.payout "no payout")
  let aux ← aux
  let sig ← lift (P.ringSign a.ringKeys a.me.ring (payoutMsg P a.id 0 a.d payout) aux)
  let address ← lift (P.addressFromScript payout a.network)
  modify fun a => { a with phase := .payouts }
  return [.postPayout (P.envelopeJson (.output address sig 0 (some a.d)))]

/-! ## Registrations and coin checks -/

def onCoins (bad unanswered : List OutPoint) : Answer P := do
  let a ← get
  if a.phase = .funding then do
    require (unanswered = []) "my coin could not be re-checked: no provider answered"
    require (bad = []) "one of my coins is no longer spendable"
    modify fun a => { a with recheckOk := true }
    tryFund
  else if a.phase ≠ .inputs ∨ a.coinsAsked = false then return []
  else if unanswered ≠ [] then
    stop s!"the coin checks got no answer from any provider ({unanswered.length} coin(s))" []
  else if bad ≠ [] then
    stop "a member's coin failed the coin check"
      ((a.regs.toList.filter fun (_, r, _) => r.inputs.any fun (op, _) => op ∈ bad).map Prod.fst)
  else if a.me.payout = none then do
    modify fun a => { a with phase := .channel }
    return [.openChannel a.d]
  else registerPayout

/-- One input of a registration: its outpoint, script and proof of ownership. -/
def readInput (P : Primitives) (id : String) (sender : SessionKey) (i : InputMsg) :
    Except String (OutPoint × TxOut) := do
  ensure ((Bytes.ofText i.txid).length = 64 ∧ (Bytes.ofText i.txid).all Hex.isDigit) "bad txid"
  let txid ← strictHex i.txid 32
  let op : OutPoint := ⟨Bytes.to256 txid, i.vout⟩
  let spk ← strictHexRange i.scriptPubkey 22 34
  ensure (Script.isP2wpkh spk ∨ Script.isP2tr spk)
    "an input is neither P2WPKH nor P2TR"
  (P.verifyProof spk (ownershipMsg P id sender op) i.proof).mapError fun _ => "ownership proof"
  return (op, ⟨i.amount, spk⟩)

/-- The registration's other fields, read after its inputs were accepted. -/
def readRegistration (a : Attempt P) (sender : SessionKey) (musigPubkey ringPubkey : String)
    (ins : List (OutPoint × TxOut)) (change : Option ChangeMsg) (height : Nat) :
    Except String InputRegistration := do
  let change ← change.mapM fun c => do
    let spk ← P.addressToScript c.address a.network
    return ({ value := c.amount, scriptPubkey := spk } : TxOut)
  let musig ← pointFromHex P musigPubkey
  let ring ← pointFromHex P ringPubkey
  return { session := sender, amount := a.d, musig, ring, inputs := ins, change, height }

/-- Registration is complete: joinstr's checks, then the others' coins. -/
def closeRegistration : Answer P := do
  let a ← get
  lift (P.checkInputRegistrations a.params a.registrations)
  if a.me.session ∉ a.regs then stop "the pool closed without this phone" []
  else do
    modify fun a => { a with coinsAsked := true }
    return [.checkCoins ((a.registrations.filter fun r => r.session ≠ a.me.session).flatMap
      InputRegistration.inputs)]

def onInputs (sender : SessionKey) (musigPubkey ringPubkey : String) (inputs : List InputMsg)
    (change : Option ChangeMsg) (height : Nat) (denomination : Option Nat) (json : P.Text) :
    Answer P := do
  let a ← get
  match a.regs[sender]? with
  | some (_, seen) => do
    require (seen = json) "a member sent two different registrations"
    return []
  | none => do
    if a.phase ≠ .inputs ∨ a.regs.size ≥ a.params.peers then return []
    require (denomination.getD a.d = a.d) "another denomination"
    lift (registrationInputs inputs.length)
    let ins ← lift (inputs.mapM (readInput P a.id sender))
    if ins.any fun (op, _) => op ∈ a.refused then
      stop "a member brought a coin refused after an earlier pool" [sender]
    else do
      let reg ← lift (a.readRegistration sender musigPubkey ringPubkey ins change height)
      modify fun a => { a with regs := a.regs.insert sender (reg, json) }
      let a ← get
      if a.regs.size < a.params.peers then return []
      closeRegistration

/-! ## The machine -/

def onMsg (sender : SessionKey) (json : P.Text) : Answer P := do
  lift (messageSize P json)
  match P.viewFields json with
  | some v => onView sender v
  | none => do
    let msg ← lift (P.parseStrict json)
    let a ← get
    match msg with
    | .inputs musigPubkey ringPubkey inputs change height denomination =>
      onInputs sender musigPubkey ringPubkey inputs change height denomination json
    | .output address ringSig priority denomination =>
      onOutput address ringSig priority denomination json
    | .nonces offset nonces =>
      if sender ∈ a.regs then onNonces sender offset nonces json else return []
    | .partialSigs offset sigs =>
      if sender ∈ a.regs then onPsigs sender offset sigs json else return []
    | .abort _ =>
      if sender ∈ a.regs ∧ sender ≠ a.me.session then stop "a member stopped the pool" []
      else return []
    | _ => return []

def onTick (now : Nat) : Answer P := do
  let a ← get
  if a.clockPhase ≠ a.phase then do
    modify fun a => { a with
      clockPhase := a.phase, deadline := Word.add64 now a.timeouts.phaseS }
    return []
  else if now > a.deadline then
    if a.phase = .funding ∧ a.params.payoutType = .p2wsh ∧ a.channelSaved = false ∧
        a.recordSaved ∧ a.recheckOk then
      stop "the provider's channel signature did not arrive in time" []
    else if a.phase = .channel then stop "the channel could not be opened in time" []
    else stop ("timed out at " ++ a.phase.debug) a.stalled
  else return []

def step (input : Input P) : Answer P := do
  let a ← get
  match input with
  | .tick now => onTick now
  | .coinsChecked bad unanswered => onCoins bad unanswered
  | .recordSaved =>
    if a.phase ≠ .funding then return []
    else do
      modify fun a => { a with recordSaved := true }
      tryFund
  | .payoutGiven spk =>
    if a.phase ≠ .channel then return []
    else do
      require (spk.isP2wsh = true) "the channel's funding script is not P2WSH"
      modify fun a => { a with me := { a.me with payout := some spk } }
      registerPayout
  | .channelSaved =>
    if a.params.payoutType ≠ .p2wsh ∨
        ¬(a.phase = .view ∨ a.phase = .signing ∨ a.phase = .funding) then return []
    else do
      modify fun a => { a with channelSaved := true }
      if a.phase = .funding then tryFund else return []
  | .channelFailed why =>
    if a.params.payoutType ≠ .p2wsh then return []
    else stop ("the channel for this pool failed: " ++ why) []
  | .leave =>
    if a.phase = .fundingSigned ∨ a.phase = .stopped then return []
    else stop "you left the pool" []
  | .msg sender json => onMsg sender json

/-- Feed one event; get what to do next. -/
def on (a : Attempt P) (input : Input P) : List (Action P) × Attempt P :=
  if a.phase = .stopped ∨ a.phase = .fundingSigned then ([], a)
  else
    match (step input).exec a with
    | (.ok acts, b) => (acts, b)
    | (.error e, b) =>
      match input with
      | .msg sender _ =>
        if sender ∈ b.regs ∧ sender ≠ b.me.session then
          (b.stopActions e [sender], b.stopped)
        else ([], b)
      | _ => (b.stopActions e [], b.stopped)

/-! ## Joining -/

/-- One proven input of this phone's registration, for each of its coins. -/
def proveCoins : List (OutPoint × TxOut × SecretKey) → Handler P (List InputMsg)
  | [] => return []
  | (op, out, sk) :: coins => do
    let a ← get
    let aux ← aux
    let proof ← lift (P.prove sk out.scriptPubkey (ownershipMsg P a.id a.me.session op) aux)
    let rest ← proveCoins coins
    return { txid := op.txid.text, vout := op.vout, amount := out.value,
             scriptPubkey := Hex.encode out.scriptPubkey, proof } :: rest

def myRegistration : Handler P Msg := do
  let a ← get
  let inputs ← proveCoins a.me.coins
  let change ← lift (a.me.change.mapM fun c => do
    let address ← P.addressFromScript c.scriptPubkey a.network
    return ({ address, amount := c.value } : ChangeMsg))
  return .inputs (Hex.encode (Bytes.of264 (P.basePointMul a.me.musig)))
    (Hex.encode (Bytes.of264 (P.basePointMul a.me.ring))) inputs change a.me.tip (some a.d)

/-- The attempt before its registration is posted. -/
def fresh (params : Params) (network : Network) (me : MyPart) (now : Nat) (timeouts : Timeouts)
    (d : Nat) : Attempt P :=
  { id := params.id, rateMilli := params.feeRateMilli, params, network, d, me, auxN := 0
    phase := .inputs, clockPhase := .inputs, deadline := Word.add64 now timeouts.phaseS, timeouts
    regs := ∅, coinsAsked := false, payouts := [], images := ∅, built := none, keys := none
    msgs := none, myNonces := none, myView := none, views := ∅, nonces := ∅, psigs := ∅
    recordSaved := false, recheckOk := false, channelSaved := false, refused := []
    isPublic := false }

/-- `Attempt::new`: join and post this phone's input registration. -/
def new (params : Params) (network : Network) (me : MyPart) (now : Nat) (timeouts : Timeouts) :
    Except String (Attempt P × List (Action P)) := do
  ensure (params.classes.length = 1) "one denomination"
  registrationInputs me.coins.length
  let d := (params.classes.map Class.amount).headD 0
  let a : Attempt P := fresh params network me now timeouts d
  ensure (me.payout.isSome = true ↔ params.payoutType = .p2tr)
    ("a channel pool takes its payout from the channel; " ++
      "an on-chain pool brings its own")
  match myRegistration.exec a with
  | (.ok msg, b) => return (b, [post msg])
  | (.error e, _) => throw e

/-- Refuse these coins, from earlier attempts' stops. -/
def refusing (a : Attempt P) (coins : List OutPoint) : Attempt P :=
  { a with refused := a.refused ++ coins }

/-- A public pool: other joinstr clients at the table. -/
def withPublic (a : Attempt P) (isPublic : Bool) : Attempt P := { a with isPublic }

/-- The registration phase's own deadline. -/
def firstPhaseUntil (a : Attempt P) (deadline : Nat) : Attempt P :=
  if a.phase = .inputs ∧ deadline > a.deadline then { a with deadline } else a

end Attempt

end Lij.Tatara
