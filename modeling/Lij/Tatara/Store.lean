import Lij.Foundation.Writes
import Lij.Tatara.Records

/-!
# The Mix's storage

Seats, attempt records, the holds on coins and the pending rows of a pool stand
under four storage keys. Each operation loads, changes and saves them one key at
a time, and any of these writes may fail.
-/

namespace Lij.Tatara.Store

open Bitcoin Joinstr Checked Tier2 Storing Fallible

inductive Route where
  | chain | channel
  deriving DecidableEq, Repr

/-- One seat on this phone. -/
structure Seat where
  seatId : String
  seatSecret : BitVec 256
  seatPk : String
  providerPk : String
  endpoint : String
  size : Nat
  route : Route
  coins : List OutPoint
  /-- The coins' ledger rows as they were when the seat was taken. -/
  coinRows : List OnchainUtxo
  sinceMs : Nat
  isPublic : Bool
  deriving DecidableEq, Repr

/-- What the storage holds of the wallet's ledger, its pending sends and the Mix. -/
structure Disk where
  view : Tier2View
  pending : List PendingTx
  marks : CoinMarks
  records : List StoredRecord
  seats : List Seat

def Disk.empty : Disk := ⟨.empty, [], .empty, [], []⟩

def saveMarks (marks : CoinMarks) : Storing Disk Unit := write fun d => { d with marks }

def savePending (pending : List PendingTx) : Storing Disk Unit := write fun d => { d with pending }

def saveRecords (records : List StoredRecord) : Storing Disk Unit :=
  write fun d => { d with records }

def saveSeats (seats : List Seat) : Storing Disk Unit := write fun d => { d with seats }

/-! ## Holds -/

/-- Hold coins for a Mix. -/
def lock (coins : List OutPoint) (nowMs : Nat) : Storing Disk Unit := do
  let d ← read
  saveMarks (d.marks.mixLock coins nowMs)

/-- Free coins, except those an unsettled record names. -/
def unlock (coins : List OutPoint) : Storing Disk (List OutPoint) := do
  let d ← read
  let named := heldInputs d.records
  let free := coins.filter fun op => !named.contains op
  saveMarks (d.marks.mixUnlock free)
  return free

def sortedCoins (coins : List OutPoint) : List OutPoint :=
  coins.insertionSort fun a b => (compare a b).isLE

/-- The holds become exactly the coins a seat or a record names. -/
def reconcile (seatCoins : List OutPoint) (nowMs : Nat) :
    Storing Disk (List OutPoint × List OutPoint) := do
  let d ← read
  let keep := (heldInputs d.records ++ seatCoins).dedup
  let have_ := d.marks.mixLockedSet
  let freed := sortedCoins (have_.filter fun op => !keep.contains op)
  let added := sortedCoins (keep.filter fun op => !have_.contains op)
  let marks := (d.marks.mixUnlock freed).mixLock added nowMs
  if freed ≠ [] ∨ added ≠ [] then saveMarks marks
  return (freed, added)

/-! ## A pool among the sends still confirming -/

section Rows

variable (P : Primitives)

def recordPending (p : PendingTx) : Storing Disk Unit := do
  let d ← read
  savePending (Tier2.recordPending d.pending p)

/-- Nothing is written when nothing is removed. -/
def removePendingByTxid (txid : Txid) : Storing Disk Unit := do
  let d ← read
  let list := Tier2.removePendingByTxid d.pending txid
  if list.length ≠ d.pending.length then savePending list

/-- The value of the record's coins in the ledger. -/
def coinsIn (r : StoredRecord) (view : Tier2View) : Nat :=
  r.inputs.foldl (fun total op =>
    match view.utxos.find? fun u => u.outpoint = op with
    | some u => Word.saturatingAdd64 total u.valueSats
    | none => total) 0

/-- The funding: this phone's coins out, its change back. -/
def fundingRow (r : StoredRecord) (funding : Transaction) (view : Tier2View) (nowMs : Nat) :
    PendingTx where
  txid := P.computeTxid funding
  spentOutpoints := r.inputs
  deltaSats := -((coinsIn r view - (r.change.map Prod.snd).getD 0 : Nat) : Int)
  direction := if (r.change.map Prod.snd).getD 0 > 0 then .selfTransfer else .sent
  kind := .mix
  createdAtMs := nowMs
  broadcastSeen := false
  rawTxHex := none
  changeOutpoint := r.change.map fun c => ⟨P.computeTxid funding, c.1⟩
  changeValueSats := (r.change.map Prod.snd).getD 0
  changeIndex := r.changeIndex.getD 0

/-- The exit that pays this phone. -/
def exitRow (exit : Transaction) (vout nowMs : Nat) : PendingTx where
  txid := P.computeTxid exit
  spentOutpoints := []
  deltaSats := ((exit.output[vout]?.map TxOut.value).getD 0 : Nat)
  direction := .received
  kind := .mix
  createdAtMs := nowMs
  broadcastSeen := false
  rawTxHex := none
  changeOutpoint := none
  changeValueSats := 0
  changeIndex := 0

/-- The two rows of a saved record; a record that does not parse puts none, and a channel's exit
is not the ledger's. -/
def poolRows (r : StoredRecord) (nowMs : Nat) : Storing Disk Unit := do
  let d ← read
  match r.funding, r.myExit, r.exits with
  | .ok funding, .ok (exit, vout), .ok _ => do
    recordPending (fundingRow P r funding d.view nowMs)
    if r.channel then return
    recordPending (exitRow P exit vout nowMs)
  | _, _, _ => pure ()

/-- The row of a transaction the record names, if it parses. -/
def dropRow : Except String Transaction → Storing Disk Unit
  | .ok tx => removePendingByTxid (P.computeTxid tx)
  | .error _ => pure ()

/-- The record's two rows leave. -/
def dropPoolRows (r : StoredRecord) : Storing Disk Unit := do
  dropRow P r.funding
  dropRow P (r.myExit.map Prod.fst)

/-- Another send took a record's coin: its rows leave, the record stays. -/
def dropPoolRowsFor (coins : List OutPoint) : Storing Disk Unit := do
  let d ← read
  (d.records.filter fun r => r.inputs.any fun op => coins.contains op).forM (dropPoolRows P)

end Rows

/-! ## Records -/

section Records

variable (P : Primitives)

/-- Write one record, in the place of one with its id. -/
def put (rec : StoredRecord) : Storing Disk Unit := do
  let d ← read
  saveRecords (d.records.filter (fun r => r.id ≠ rec.id) ++ [rec])

def wipe (id : String) : Storing Disk (Option StoredRecord) := do
  let d ← read
  match d.records.find? fun r => r.id = id with
  | none => return none
  | some gone => do
    saveRecords (d.records.eraseP fun r => r.id = id)
    return some gone

/-- Write a record before the coin signature; its coins held. -/
def recordSave (rec : StoredRecord) (nowMs : Nat) : Storing Disk Unit := do
  poolRows P rec nowMs
  put rec
  lock rec.inputs nowMs

/-- Wipe a record and free its coins. -/
def recordWipe (id : String) : Storing Disk Bool := do
  match ← wipe id with
  | none => return false
  | some gone => do
    dropPoolRows P gone
    let d ← read
    saveMarks (d.marks.mixUnlock gone.inputs)
    return true

structure SettleReport where
  send : List (String × List (Except String Transaction))
  wiped : List (String × String)
  watching : Nat
  unreadable : List (String × String)
  deriving DecidableEq

def SettleReport.note (rep : SettleReport) (r : StoredRecord) : Except String Duty → SettleReport
  | .ok .watch => { rep with watching := rep.watching + 1 }
  | .ok (.sendExits txs) => { rep with send := rep.send ++ [(r.id, txs)] }
  | .ok (.wipe why) => { rep with wiped := rep.wiped ++ [(r.id, why)] }
  | .error e => { rep with unreadable := rep.unreadable ++ [(r.id, e)] }

/-- The duty of every record, read off one view of the ledger. -/
def settleReport (records : List StoredRecord) (view : Tier2View)
    (outsideDepth : Txid → Option Nat) : SettleReport :=
  records.foldl (fun rep r => rep.note r (duty P r view outsideDepth)) ⟨[], [], 0, []⟩

def settlePass (outsideDepth : Txid → Option Nat) : Storing Disk SettleReport := do
  let d ← read
  let rep := settleReport P d.records d.view outsideDepth
  rep.wiped.forM fun (id, _) => do
    let _ ← recordWipe P id
  return rep

end Records

/-! ## Seats -/

section Seats

-- the public key of a seat made from this entropy
variable (seatKey : BitVec 256 → Except String String)

def seatTaken (seat : Seat) : String :=
  "this wallet already has a " ++ (if seat.isPublic then "public " else "") ++ "seat for " ++
    toString seat.size ++ " sats"

/-- Join: a new seat, its coins held from now. One seat per size and route. -/
def seatNew (seat : Seat) (entropy : BitVec 256) (nowMs : Nat) : Storing Disk Seat := do
  let d ← read
  require (¬d.seats.any fun s => s.size = seat.size ∧ s.route = seat.route ∧
    s.providerPk = seat.providerPk ∧ s.isPublic = seat.isPublic) (seatTaken seat)
  require (¬(seat.isPublic ∧ ¬(seat.endpoint.startsWith "wss://" ∨
    seat.endpoint.startsWith "ws://"))) "a public seat needs a relay (wss://…)"
  require (¬(seat.isPublic ∧ (seat.providerPk ≠ "" ∨ seat.route ≠ .chain)))
    "a public seat has no provider and pays on-chain"
  require (¬seat.coins.any fun op => d.marks.mixLockedSet.contains op)
    "that coin is already in a Mix pool"
  let seatPk ← lift (seatKey entropy)
  let seat := { seat with
    seatSecret := entropy, seatPk, seatId := "", sinceMs := nowMs
    coinRows := seat.coins.filterMap fun op => d.view.utxos.find? fun u => u.outpoint = op }
  lock seat.coins nowMs
  saveSeats (d.seats ++ [seat])
  return seat

/-- Leave: the seat goes and its coins are freed. -/
def seatDrop (seatPk : String) : Storing Disk (Option Seat) := do
  let d ← read
  match d.seats.find? fun s => s.seatPk = seatPk with
  | none => return none
  | some gone => do
    saveSeats (d.seats.eraseP fun s => s.seatPk = seatPk)
    let _ ← unlock gone.coins
    return some gone

/-- The coins of the seats in force. -/
def Disk.seatCoins (d : Disk) : List OutPoint := d.seats.flatMap Seat.coins

end Seats

end Lij.Tatara.Store
