import Lij.Foundation.Words
import Lij.Tier2.Ledger

/-!
# The on-chain view and its history rows

The persisted view: the ledger with the walk's cursors and what is known about
transactions by id. The history is not a second list that could drift from the
balance: `deriveHistory` computes the rows from the coins.

The source collects the rows' figures in hash maps keyed by transaction id. Here
each figure is computed from the coins of that id, in the view's order; the rows
are sorted by height and id at the end, so the maps' own order never shows.
-/

namespace Lij.Tier2

open Bitcoin List

structure SyncCursor where
  birthday : Nat
  scannedTo : Nat
  lastHash : Option String
  lastFilterHeader : Option String
  deriving DecidableEq, Repr

/-- The lowest block the newest-first walk has read. -/
structure DownCursor where
  low : Nat
  lowHash : String
  lowFilterHeader : String
  done : Bool
  deriving DecidableEq, Repr

/-- A BIP86 script seen in a block's filter, with the coins already looked for there. -/
structure TrHint where
  chain : Nat
  index : Nat
  height : Nat
  hash : String
  paidHere : Bool
  checked : List OutPoint
  deriving DecidableEq, Repr

/-- How far the silent-payment scan has read. -/
structure SpScan where
  scannedTo : Nat
  scannedHash : String
  scannedFilterHeader : String
  deriving DecidableEq, Repr

inductive TxDirection where
  | received | sent | selfTransfer
  deriving DecidableEq, Repr

inductive TxKind where
  | onchain | channelOpen | channelClose | mix | mixSpeedUp
  deriving DecidableEq, Repr

/-- One received line: an own address or a silent-payment label, with its parts in
output order. The address is filled in later by the sync. -/
structure RecvLine where
  chain : Nat
  index : Nat
  sp : Bool
  spLabel : Option Nat
  valueSats : Nat
  parts : List (Nat × Nat)
  address : Option String
  reused : Bool
  deriving DecidableEq, Repr

structure OnchainHistoryEntry where
  txid : Txid
  height : Nat
  direction : TxDirection
  deltaSats : Int
  kind : TxKind
  time : Nat
  silentPaymentSats : Nat
  spLabels : List Nat
  lines : List RecvLine
  deriving DecidableEq, Repr

structure Tier2View extends Ledger where
  cursor : SyncCursor
  history : List OnchainHistoryEntry
  usedNext : Std.ExtTreeMap Nat Nat
  kinds : Std.ExtTreeMap Txid TxKind
  fundingTxids : List Txid
  closingTxids : List Txid
  /-- True for a close itself, false for a transaction that spends a close. -/
  closeHints : Std.ExtTreeMap Txid Bool
  down : Option DownCursor
  trHints : List TrHint
  blockTimes : Std.ExtTreeMap Nat Nat
  sp : Option SpScan
  /-- Not persisted: the own transactions met since the view was loaded. -/
  freshTxs : List (Txid × Nat × Transaction)

namespace Tier2View

def empty : Tier2View where
  toLedger := .empty
  cursor := ⟨0, 0, none, none⟩
  history := []
  usedNext := ∅
  kinds := ∅
  fundingTxids := []
  closingTxids := []
  closeHints := ∅
  down := none
  trHints := []
  blockTimes := ∅
  sp := none
  freshTxs := []

/-! ## Rows -/

/-- The coins of silent payments that share this coin's tweak and label. -/
def sameAddress (view : Tier2View) (u : OnchainUtxo) : List OnchainUtxo :=
  view.utxos.filter fun v => v.chain = chainSp ∧ v.spTweak.isSome ∧ v.spTweak = u.spTweak ∧
    v.spLabel = u.spLabel

/-- A silent-payment coin that pays an address again: another coin with its tweak
and label comes before it, by height, id and place. -/
def reused (view : Tier2View) (u : OnchainUtxo) : Bool :=
  u.chain = chainSp && u.spTweak.isSome && (view.sameAddress u).any fun v =>
    v.height < u.height ∨ v.height = u.height ∧
      (v.txid < u.txid ∨ v.txid = u.txid ∧ v.vout < u.vout)

def saturatingSum (values : List Nat) : Nat := values.foldl Word.saturatingAdd64 0

/-- Does the coin belong to the line? -/
def RecvLine.takes (line : RecvLine) (u : OnchainUtxo) : Bool :=
  if u.chain = chainSp then line.sp && line.spLabel = u.spLabel
  else !line.sp && line.chain = u.chain && line.index = u.index

def newLine (u : OnchainUtxo) : RecvLine :=
  let sp := u.chain = chainSp
  { chain := u.chain, index := if sp then 0 else u.index, sp := sp
    spLabel := if sp then u.spLabel else none
    valueSats := 0, parts := [], address := none, reused := false }

def RecvLine.add (line : RecvLine) (u : OnchainUtxo) (again : Bool) : RecvLine :=
  { line with
    valueSats := Word.saturatingAdd64 line.valueSats u.valueSats
    parts := line.parts ++ [(u.vout, u.valueSats)]
    reused := line.reused || again }

/-- The first line that takes the coin grows by it; a coin no line takes opens one. -/
def addToLines (u : OnchainUtxo) (again : Bool) : List RecvLine → List RecvLine
  | [] => [RecvLine.add (newLine u) u again]
  | line :: lines =>
    if RecvLine.takes line u then RecvLine.add line u again :: lines
    else line :: addToLines u again lines

/-- A received transaction's coins as lines, in output order. -/
def recvLines (view : Tier2View) (coins : List OnchainUtxo) : List RecvLine :=
  (coins.insertionSort fun u v => u.vout ≤ v.vout).foldl
    (fun lines u => addToLines u (view.reused u) lines) []

/-- The coins a transaction created. -/
def coinsOf (view : Tier2View) (txid : Txid) : List OnchainUtxo :=
  view.utxos.filter fun u => u.txid = txid

/-- The coins a transaction spent, where the spend is recorded whole. -/
def spentBy (view : Tier2View) (txid : Txid) : List OnchainUtxo :=
  view.utxos.filter fun u => u.spentHeight.isSome ∧ u.spentTxid = some txid

/-- The labels a transaction paid, smallest first. -/
def labelsPaid (coins : List OnchainUtxo) : List Nat :=
  ((coins.filterMap OnchainUtxo.spLabel).filter fun m => m > 0).dedup.insertionSort (· ≤ ·)

def kindOf (view : Tier2View) (txid : Txid) (delta : Int) : TxKind :=
  match view.kinds[txid]? with
  | some kind => kind
  | none =>
    let opens := delta < 0 ∧ txid ∈ view.fundingTxids
    match view.closeHints[txid]? with
    | some true => .channelClose
    | some false =>
      if delta > 0 then .channelClose
      else if opens then .channelOpen else .onchain
    | none => if opens then .channelOpen else .onchain

/-- The row of one transaction. -/
def row (view : Tier2View) (txid : Txid) : OnchainHistoryEntry :=
  let coins := view.coinsOf txid
  let spends := view.spentBy txid
  let received := saturatingSum (coins.map OnchainUtxo.valueSats)
  let spent := saturatingSum (spends.map OnchainUtxo.valueSats)
  let height :=
    if spent > 0 then ((spends.head?.bind OnchainUtxo.spentHeight).getD 0)
    else ((coins.head?.map OnchainUtxo.height).getD 0)
  -- both sums are reinterpreted as signed words before the subtraction
  let delta := (BitVec.ofNat 64 received - BitVec.ofNat 64 spent).toInt
  let direction : TxDirection :=
    if received > 0 ∧ spent > 0 then .selfTransfer
    else if delta ≥ 0 then .received else .sent
  let kind := view.kindOf txid delta
  { txid, height, direction, deltaSats := delta, kind
    time := view.blockTimes.getD height 0
    silentPaymentSats := saturatingSum
      ((coins.filter fun u => u.chain = chainSp).map OnchainUtxo.valueSats)
    spLabels := labelsPaid coins
    lines := if direction = .received ∧ kind = .onchain then view.recvLines coins else [] }

/-- The transactions that created or spent a coin, each once. -/
def historyTxids (view : Tier2View) : List Txid :=
  let received := (view.utxos.map OnchainUtxo.txid).dedup
  let spent := (view.utxos.filterMap fun u => u.spentHeight.bind fun _ => u.spentTxid).dedup
  received ++ spent.filter fun txid => !received.contains txid

/-- The rows, newest first, then by id. -/
def deriveHistory (view : Tier2View) : List OnchainHistoryEntry :=
  (view.historyTxids.map view.row).insertionSort fun a b =>
    b.height < a.height ∨ a.height = b.height ∧ a.txid ≤ b.txid

theorem row_txid (view : Tier2View) (txid : Txid) : (view.row txid).txid = txid := rfl

/-- The history's ids are those of the transactions that touched a coin. -/
theorem mem_txids_deriveHistory {view : Tier2View} {txid : Txid} :
    txid ∈ view.deriveHistory.map OnchainHistoryEntry.txid ↔ txid ∈ view.historyTxids := by
  have sorted := (perm_insertionSort (fun a b : OnchainHistoryEntry =>
    b.height < a.height ∨ a.height = b.height ∧ a.txid ≤ b.txid) (view.historyTxids.map view.row))
  rw [deriveHistory, (sorted.map OnchainHistoryEntry.txid).mem_iff, map_map]
  have ids : OnchainHistoryEntry.txid ∘ view.row = id := funext (row_txid view)
  rw [ids, map_id]

theorem txid_mem_historyTxids {view : Tier2View} {u : OnchainUtxo} (member : u ∈ view.utxos) :
    u.txid ∈ view.historyTxids :=
  mem_append_left _ (mem_dedup.mpr (mem_map_of_mem member))

/-- Only a view without coins has an empty history. -/
theorem historyTxids_eq_nil_iff {view : Tier2View} : view.historyTxids = [] ↔ view.utxos = [] := by
  constructor
  · intro none
    refine eq_nil_iff_forall_not_mem.mpr fun u member => ?_
    have inside := txid_mem_historyTxids member
    rw [none] at inside
    cases inside
  · intro none
    simp [historyTxids, none]

end Tier2View

end Lij.Tier2
