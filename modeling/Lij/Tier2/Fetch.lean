import Lij.Foundation.Fallible
import Lij.Tier2.Sync

/-!
# Fetching the matched blocks into the view

Each block is bound to the hash it was matched under, checked against its merkle
root and applied. A taproot spend names no key in its witness, so a spend of a
BIP86 coin the walk has not met yet is only known by its script in the block's
filter. Such a script is noted as a hint, and once the coin is met the hinted
blocks are read again for the input that spends it.

A failed fetch ends the call and keeps what was applied before it.
-/

namespace Lij.Tier2

open Bitcoin Checked Fallible List

variable (K : ChainCrypto)

/-! ## Applying a block to the view -/

/-- The used frontier of each chain, spent or not. -/
def noteUsed (scripts : WalletScripts) (used : Std.ExtTreeMap Nat Nat) (out : TxOut) :
    Std.ExtTreeMap Nat Nat :=
  match scripts.ownerOf out.scriptPubkey with
  | some (chain, index) =>
    if chain = chainHandover then used
    else used.insert chain (max (used.getD chain 0) (index + 1))
  | none => used

namespace Tier2View

def applyTxs (C : Crypto) (scripts : WalletScripts) (view : Tier2View) (txs : List Transaction)
    (height : Nat) : Tier2View :=
  { view with
    toLedger := view.toLedger.applyTxs C scripts txs height
    usedNext := txs.foldl (fun used tx => tx.output.foldl (noteUsed scripts) used) view.usedNext }

/-- Does an output of these transactions pay the script of this place? -/
def paidIn (scripts : WalletScripts) (txs : List Transaction) (place : Nat × Nat) : Bool :=
  txs.any fun tx => tx.output.any fun o => scripts.ownerOf o.scriptPubkey = some place

/-- One hint per script and block. -/
def noteTrHint (scripts : WalletScripts) (txs : List Transaction) (m : MatchedBlock)
    (hints : List TrHint) (hit : Nat × Nat) : List TrHint :=
  if hints.any fun h => h.chain = hit.1 ∧ h.index = hit.2 ∧ h.height = m.height then hints
  else hints ++ [{ chain := hit.1, index := hit.2, height := m.height, hash := m.blockHash
                   paidHere := paidIn scripts txs hit, checked := [] }]

def noteTrHints (scripts : WalletScripts) (view : Tier2View) (txs : List Transaction)
    (m : MatchedBlock) : Tier2View :=
  { view with trHints := m.trHits.foldl (noteTrHint scripts txs m) view.trHints }

/-- A transaction that is a close, or spends one, is noted; a close itself stays one. -/
def tagChannelClose (C : Crypto) (closeTxids : List Txid) (hints : Std.ExtTreeMap Txid Bool)
    (tx : Transaction) : Std.ExtTreeMap Txid Bool :=
  let txid := C.computeTxid tx
  let direct := closeTxids.contains txid
  let spends := tx.input.any fun i => closeTxids.contains i.previousOutput.txid
  if direct || spends then hints.insert txid (hints.getD txid false || direct) else hints

def tagChannelCloses (C : Crypto) (view : Tier2View) (txs : List Transaction)
    (closeTxids : List Txid) : Tier2View :=
  { view with closeHints := txs.foldl (tagChannelClose C closeTxids) view.closeHints }

/-- A transaction that created or spent a coin, or is a spend seen before its coin. -/
def isOwn (view : Tier2View) (txid : Txid) : Bool :=
  (view.utxos.any fun u => u.txid = txid ∨ u.spentTxid = some txid) ||
    view.pendingSpends.any fun _ spend => spend.1 = txid

def captureOwnTxs (C : Crypto) (view : Tier2View) (txs : List Transaction) (height : Nat) :
    Tier2View :=
  { view with
    freshTxs := txs.foldl (fun fresh tx =>
      let id := C.computeTxid tx
      if view.isOwn id && !fresh.any (fun t => t.1 = id ∧ t.2.1 = height) then
        fresh ++ [(id, height, tx)]
      else fresh) view.freshTxs }

/-- Everything one fetched block does to the view. -/
def applyBlock (C : Crypto) (scripts : WalletScripts) (closeTxids : List Txid) (view : Tier2View)
    (m : MatchedBlock) (block : Block) : Tier2View :=
  let timed := { view with blockTimes := view.blockTimes.insert m.height block.header.time }
  let applied := timed.applyTxs C scripts block.txdata m.height
  let hinted := applied.noteTrHints scripts block.txdata m
  (hinted.tagChannelCloses C block.txdata closeTxids).captureOwnTxs C block.txdata m.height

/-! ## Taproot spends seen before their coin -/

/-- The text under which a coin is looked for. -/
def coinText (op : OutPoint) : String := op.txid.text ++ ":" ++ toString op.vout

/-- A hinted block to read for a coin: the hint's flag and height, the coin and the
hint's place. -/
structure TrCheck where
  paidHere : Bool
  height : Nat
  op : OutPoint
  hint : Nat
  deriving DecidableEq, Repr

/-- Blocks that only spend come before blocks that also pay, lower before higher. -/
def TrCheck.le (a b : TrCheck) : Bool :=
  if a.paidHere ≠ b.paidHere then !a.paidHere
  else if a.height ≠ b.height then decide (a.height < b.height)
  else if coinText a.op ≠ coinText b.op then decide (coinText a.op < coinText b.op)
  else decide (a.hint ≤ b.hint)

/-- A coin still to be looked for: unspent and on a BIP86 branch. -/
def seeksSpend (u : OnchainUtxo) : Bool := u.spentHeight.isNone && (bip86Branch u.chain).isSome

/-- The hinted blocks above a coin that were not read for it yet. -/
def checksOf (hints : List TrHint) (u : OnchainUtxo) : List TrCheck :=
  (hints.zipIdx.filter fun (h, _) => h.chain = u.chain ∧ h.index = u.index ∧ h.height > u.height ∧
    !h.checked.contains u.outpoint).map
      fun (h, i) => { paidHere := h.paidHere, height := h.height, op := u.outpoint, hint := i }

def trSpendChecks (view : Tier2View) : List (OutPoint × Nat) :=
  (((view.utxos.filter seeksSpend).flatMap (checksOf view.trHints)).insertionSort
    fun a b => TrCheck.le a b = true).map fun c => (c.op, c.hint)

/-- The first transaction with an input that spends the coin. -/
def spenderIn (txs : List Transaction) (op : OutPoint) : Option Transaction :=
  txs.find? fun tx => tx.input.any fun i => i.previousOutput = op

theorem spenderIn_eq_some {txs : List Transaction} {op : OutPoint} {tx : Transaction}
    (found : spenderIn txs op = some tx) :
    tx ∈ txs ∧ ∃ input ∈ tx.input, input.previousOutput = op := by
  have spends := find?_eq_some_iff_append.mp found
  exact ⟨mem_of_find?_eq_some found, by simpa using spends.1⟩

theorem spenderIn_eq_none {txs : List Transaction} {op : OutPoint} (found : spenderIn txs op = none)
    {tx : Transaction} (member : tx ∈ txs) {input : TxIn} (inside : input ∈ tx.input) :
    input.previousOutput ≠ op := by
  have passes := find?_eq_none.mp found tx member
  simp only [any_eq_true, decide_eq_true_eq, not_exists, not_and] at passes
  exact passes input inside

/-- Mark a coin spent by the transaction that spends it; true when there is one. -/
def applyTrSpend (C : Crypto) (l : Ledger) (op : OutPoint) (txs : List Transaction)
    (height : Nat) : Bool × Ledger :=
  match spenderIn txs op with
  | some tx =>
    (true, { l with utxos := l.utxos.map (Ledger.markSpent op (C.computeTxid tx) height) })
  | none => (false, l)

/-- The hint remembers that its block was read for the coin. -/
def noteChecked (op : OutPoint) (h : TrHint) : TrHint := { h with checked := h.checked ++ [op] }

/-- What reading a hinted block for a coin does to the view. -/
def readHint (C : Crypto) (view : Tier2View) (op : OutPoint) (i height : Nat)
    (txs : List Transaction) : Tier2View :=
  let applied := applyTrSpend C view.toLedger op txs height
  let marked := { view with
    toLedger := applied.2, trHints := view.trHints.modify i (noteChecked op) }
  if applied.1 then marked.captureOwnTxs C txs height else marked

/-! ## Rolling back -/

def rollback (view : Tier2View) (toHeight : Nat) : Tier2View :=
  { view with
    toLedger := view.toLedger.rollback toHeight
    trHints := view.trHints.filter fun h => h.height ≤ toHeight
    history := view.history.filter fun h => h.height ≤ toHeight
    cursor := { view.cursor with scannedTo := toHeight, lastHash := none, lastFilterHeader := none }
    sp := view.sp.map fun sp =>
      if sp.scannedTo > toHeight then
        { scannedTo := toHeight, scannedHash := "", scannedFilterHeader := "" }
      else sp }

@[simp] theorem scannedTo_rollback (view : Tier2View) (toHeight : Nat) :
    (view.rollback toHeight).cursor.scannedTo = toHeight := rfl

end Tier2View

/-! ## The fetches -/

/-- One block, bound to the hash it was matched under and to its merkle root. -/
def fetchBlockBound (server : Server) (height : Nat) (blockHash : String) :
    Except String Block := do
  let text ← server.block height
  let bytes ← (hexDecode text).mapError fun e => s!"block hex at {height}: " ++ e
  let block ← (K.decodeBlock bytes).mapError fun e => s!"block decode at {height}: " ++ e
  let want ← (hashFromStr blockHash).mapError fun e => s!"matched hash parse at {height}: " ++ e
  ensure (K.blockHash block.header = want) s!"block {height} hash does not match validated hash"
  ensure (K.checkMerkleRoot block = true) s!"block {height} merkle root mismatch"
  return block

/-- A block is read once per call. -/
def cachedBlock (server : Server) (blocks : List (Nat × Block)) (hint : TrHint) :
    Except String Block :=
  match blocks.find? fun entry => entry.1 = hint.height with
  | some entry => .ok entry.2
  | none => fetchBlockBound K server hint.height hint.hash

/-- Read the hinted blocks one after the other; a coin found by an earlier hint is passed. -/
def resolveChecks (server : Server) :
    List (OutPoint × Nat) → List (Nat × Block) → Fallible Tier2View Unit
  | [], _ => return ()
  | check :: checks, blocks => do
    let view ← get
    if view.utxos.any fun u => u.outpoint = check.1 ∧ u.spentHeight = none then
      let hint ← lift (context view.trHints[check.2]? "index out of bounds")
      let block ← lift (cachedBlock K server blocks hint)
      modify fun view => view.readHint K.toCrypto check.1 check.2 hint.height block.txdata
      resolveChecks server checks ((hint.height, block) :: blocks)
    else resolveChecks server checks blocks

def resolveTrSpends (server : Server) : Fallible Tier2View Unit := do
  let view ← get
  resolveChecks K server view.trSpendChecks []

/-- The matched blocks in the given order. -/
def applyMatched (server : Server) (scripts : WalletScripts) (closeTxids : List Txid) :
    List MatchedBlock → Fallible Tier2View Unit
  | [] => return ()
  | m :: matched => do
    let block ← lift (fetchBlockBound K server m.height m.blockHash)
    modify fun view => view.applyBlock K.toCrypto scripts closeTxids m block
    applyMatched server scripts closeTxids matched

def fetchAndApply (server : Server) (scripts : WalletScripts) (closeTxids : List Txid)
    (matched : List MatchedBlock) : Fallible Tier2View Unit := do
  applyMatched K server scripts closeTxids matched
  resolveTrSpends K server

variable {K}

/-- A fetched block hashes to what it was asked for and agrees with its merkle root. -/
theorem fetchBlockBound_eq_ok {server : Server} {height : Nat} {text : String} {block : Block}
    (ok : fetchBlockBound K server height text = .ok block) :
    hashFromStr text = .ok (K.blockHash block.header) ∧ K.checkMerkleRoot block = true := by
  simp only [fetchBlockBound, bind_eq_ok, ensure_eq_ok, exists_const, mapError_eq_ok,
    pure_eq_ok] at ok
  obtain ⟨_, _, _, _, _, _, _, parsed, same, merkle, rfl⟩ := ok
  exact ⟨same ▸ parsed, merkle⟩

/-- The loop applies the blocks of a first part of the list, each as it was fetched, and
of the whole list when it succeeds. -/
theorem applyMatched_fed (server : Server) (scripts : WalletScripts) (closeTxids : List Txid)
    (matched : List MatchedBlock) (view : Tier2View) :
    ∃ fed : List (MatchedBlock × Block), fed.map Prod.fst <+: matched ∧
      (∀ p ∈ fed, fetchBlockBound K server p.1.height p.1.blockHash = .ok p.2) ∧
      ((applyMatched K server scripts closeTxids matched).exec view).2 =
        fed.foldl (fun view p => view.applyBlock K.toCrypto scripts closeTxids p.1 p.2) view ∧
      (((applyMatched K server scripts closeTxids matched).exec view).1 = .ok () →
        fed.map Prod.fst = matched) := by
  induction matched generalizing view with
  | nil => exact ⟨[], nil_prefix, nofun, rfl, fun _ => rfl⟩
  | cons m matched ih =>
    rw [applyMatched, exec_bind, exec_lift]
    cases fetched : fetchBlockBound K server m.height m.blockHash with
    | error message => exact ⟨[], nil_prefix, nofun, rfl, nofun⟩
    | ok block =>
      obtain ⟨fed, first, bound, state, whole⟩ :=
        ih (view.applyBlock K.toCrypto scripts closeTxids m block)
      refine ⟨(m, block) :: fed, cons_prefix_cons.mpr ⟨rfl, first⟩, ?_, state,
        fun ok => congrArg (m :: ·) (whole ok)⟩
      intro p member
      cases member with
      | head => exact fetched
      | tail _ later => exact bound p later

end Lij.Tier2
