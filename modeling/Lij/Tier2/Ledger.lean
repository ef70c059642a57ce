import Lij.Bitcoin.Basic
import Lij.Foundation.Maps

/-!
# The ledger: coins, hand-over events and spends seen early

What the on-chain walk keeps of the blocks it reads. A coin is kept after it is
spent, with the spend's height and transaction, so that a reorganisation can
undo the mark. The walk reads newest blocks first, so it may meet a spend before
the coin: such a spend is recognised by the wallet's own public key in the
witness and waits in `pendingSpends`.

`Crypto` names the two hashes the ledger needs, a transaction's id and the
script a compressed public key pays.
-/

namespace Lij.Tier2

open Bitcoin List

/-! ## The wallet's scripts -/

def chainReceive : Nat := 0
def chainChange : Nat := 1
def chainLegacy : Nat := 525
/-- Silent-payment coins. -/
def chainSp : Nat := 352
def chainBip86 : Nat := 86
def chainBip86Internal : Nat := 87
/-- The hand-over outputs of on-chain pays: events, never coins. -/
def chainHandover : Nat := 7000

def bip86Branch (chain : Nat) : Option Nat :=
  if chain = chainBip86 then some 0
  else if chain = chainBip86Internal then some 1
  else none

structure MatchEntry where
  chain : Nat
  index : Nat
  scriptPubkey : Script
  deriving DecidableEq, Repr

structure WalletScripts where
  entries : List MatchEntry

namespace WalletScripts

/-- The map by script is filled in entry order, so a later entry wins. -/
def ownerOf (scripts : WalletScripts) (spk : Script) : Option (Nat × Nat) :=
  (scripts.entries.reverse.find? fun e => e.scriptPubkey = spk).map fun e => (e.chain, e.index)

theorem entry_of_ownerOf {scripts : WalletScripts} {spk : Script} {place : Nat × Nat}
    (owner : scripts.ownerOf spk = some place) :
    ∃ e ∈ scripts.entries, e.scriptPubkey = spk ∧ (e.chain, e.index) = place := by
  obtain ⟨e, found, rfl⟩ := Option.map_eq_some_iff.mp owner
  exact ⟨e, mem_reverse.mp (mem_of_find?_eq_some found),
    by simpa using find?_some found, rfl⟩

/-- The net with further scripts watched as hand-over outputs. -/
def withExtras (scripts : WalletScripts) (extras : List (Nat × Script)) : WalletScripts :=
  { entries := scripts.entries ++
      extras.map fun (index, spk) => { chain := chainHandover, index, scriptPubkey := spk } }

end WalletScripts

structure Crypto where
  computeTxid : Transaction → Txid
  /-- The P2WPKH script of a serialized public key; none for bytes that are no key. -/
  wpkhScript : Bytes → Option Script

/-- A P2WPKH witness is a signature and a public key; the key names the script
being spent. -/
def witnessPaysUs (C : Crypto) (scripts : WalletScripts) (witness : List Bytes) : Bool :=
  match witness with
  | [_, pk] =>
    pk.length = 33 &&
      match C.wpkhScript pk with
      | some spk => (scripts.ownerOf spk).isSome
      | none => false
  | _ => false

/-! ## Coins and events -/

structure OnchainUtxo where
  chain : Nat
  index : Nat
  txid : Txid
  vout : Nat
  valueSats : Nat
  height : Nat
  spentHeight : Option Nat
  spentTxid : Option Txid
  spTweak : Option (BitVec 256)
  spLabel : Option Nat
  deriving DecidableEq, Repr

def OnchainUtxo.outpoint (u : OnchainUtxo) : OutPoint := ⟨u.txid, u.vout⟩

/-- A hand-over output as the walk saw it, with the secret its spend published. -/
structure HandoverEvent where
  index : Nat
  txid : Txid
  vout : Nat
  valueSats : Nat
  height : Nat
  spentTxid : Option Txid
  spentHeight : Option Nat
  spentSecret : Option Bytes
  deriving DecidableEq, Repr

def HandoverEvent.outpoint (h : HandoverEvent) : OutPoint := ⟨h.txid, h.vout⟩

structure Ledger where
  utxos : List OnchainUtxo
  handover : List HandoverEvent
  /-- The coin a spend was seen of, with the spending transaction and its height. -/
  pendingSpends : Std.ExtTreeMap OutPoint (Txid × Nat)

namespace Ledger

def empty : Ledger := ⟨[], [], ∅⟩

/-! ## Applying a block -/

/-- The release's witness has three items and the secret in the middle. -/
def secretOf (witness : List Bytes) : Option Bytes :=
  match witness with
  | [_, secret, _] => if secret.length = 32 then some secret else none
  | _ => none

/-- An unspent event at this outpoint is marked, with the secret if there is one. -/
def noteHandoverSpend (op : OutPoint) (txid : Txid) (height : Nat) (witness : List Bytes)
    (h : HandoverEvent) : HandoverEvent :=
  if h.spentTxid = none ∧ h.outpoint = op then
    { h with
      spentTxid := some txid, spentHeight := some height
      spentSecret := (secretOf witness).or h.spentSecret }
  else h

/-- An unspent coin at this outpoint is marked. -/
def markSpent (op : OutPoint) (txid : Txid) (height : Nat) (u : OnchainUtxo) : OnchainUtxo :=
  if u.spentHeight = none ∧ u.outpoint = op then
    { u with spentHeight := some height, spentTxid := some txid }
  else u

/-- Does the ledger hold this outpoint, spent or not? -/
def holds (l : Ledger) (op : OutPoint) : Bool := l.utxos.any fun u => u.outpoint = op

/-- One input: marks what it spends; a spend of a coin not known yet is remembered
when the witness carries one of the wallet's keys. -/
def spendInput (C : Crypto) (scripts : WalletScripts) (txid : Txid) (height : Nat) (l : Ledger)
    (input : TxIn) : Ledger :=
  let op := input.previousOutput
  { utxos := l.utxos.map (markSpent op txid height)
    handover := l.handover.map (noteHandoverSpend op txid height input.witness)
    pendingSpends :=
      if ¬l.holds op ∧ witnessPaysUs C scripts input.witness then
        l.pendingSpends.insert op (txid, height)
      else l.pendingSpends }

/-- The coin an output of the wallet becomes, with the spend that was seen before it. -/
def newCoin (chain index : Nat) (op : OutPoint) (value height : Nat)
    (pend : Option (Txid × Nat)) : OnchainUtxo :=
  { chain, index, txid := op.txid, vout := op.vout, valueSats := value, height
    spentHeight := pend.map Prod.snd, spentTxid := pend.map Prod.fst
    spTweak := none, spLabel := none }

def newEvent (index : Nat) (op : OutPoint) (value height : Nat) : HandoverEvent :=
  { index, txid := op.txid, vout := op.vout, valueSats := value, height
    spentTxid := none, spentHeight := none, spentSecret := none }

/-- One output: a new coin or hand-over event, unless its outpoint is known. -/
def receiveOutput (scripts : WalletScripts) (height : Nat) (l : Ledger) (paid : OutPoint × TxOut) :
    Ledger :=
  match scripts.ownerOf paid.2.scriptPubkey with
  | none => l
  | some (chain, index) =>
    if chain = chainHandover then
      if l.handover.any fun h => h.outpoint = paid.1 then l
      else { l with handover := l.handover ++ [newEvent index paid.1 paid.2.value height] }
    else if l.holds paid.1 then l
    else
      { l with
        pendingSpends := l.pendingSpends.erase paid.1
        utxos := l.utxos ++
          [newCoin chain index paid.1 paid.2.value height l.pendingSpends[paid.1]?] }

/-- The outputs of a transaction with their outpoints. -/
def outputsOf (C : Crypto) (tx : Transaction) : List (OutPoint × TxOut) :=
  tx.output.zipIdx.map fun (out, vout) => (⟨C.computeTxid tx, vout⟩, out)

def applyTx (C : Crypto) (scripts : WalletScripts) (height : Nat) (l : Ledger)
    (tx : Transaction) : Ledger :=
  (outputsOf C tx).foldl (receiveOutput scripts height)
    (tx.input.foldl (spendInput C scripts (C.computeTxid tx) height) l)

/-- A block's transactions in block order, so that an output can be spent later in
the same block. -/
def applyTxs (C : Crypto) (scripts : WalletScripts) (l : Ledger) (txs : List Transaction)
    (height : Nat) : Ledger :=
  txs.foldl (applyTx C scripts height) l

/-! ## Rolling back -/

/-- The mark and its spender go together. -/
def unspendAbove (toHeight : Nat) (u : OnchainUtxo) : OnchainUtxo :=
  match u.spentHeight with
  | some sh => if sh > toHeight then { u with spentHeight := none, spentTxid := none } else u
  | none => u

def unspendEventAbove (toHeight : Nat) (h : HandoverEvent) : HandoverEvent :=
  if (h.spentHeight.map fun sh => decide (sh > toHeight)).getD false then
    { h with spentTxid := none, spentHeight := none, spentSecret := none }
  else h

def rollback (l : Ledger) (toHeight : Nat) : Ledger where
  utxos := (l.utxos.filter fun u => u.height ≤ toHeight).map (unspendAbove toHeight)
  handover := (l.handover.filter fun h => h.height ≤ toHeight).map (unspendEventAbove toHeight)
  pendingSpends := l.pendingSpends.filter fun _ spend => spend.2 ≤ toHeight

/-! ## What the steps do -/

section Steps

variable {C : Crypto} {scripts : WalletScripts} {l : Ledger} {h : Nat} {txid : Txid}

/-- A witness of at most one item names no key. -/
theorem witnessPaysUs_of_short {witness : List Bytes} (short : witness.length ≤ 1) :
    witnessPaysUs C scripts witness = false := by
  match witness with
  | [] => rfl
  | [_] => rfl

variable {op : OutPoint}

theorem height_markSpent {u : OnchainUtxo} : (markSpent op txid h u).height = u.height := by
  unfold markSpent
  split_ifs <;> rfl

theorem height_noteHandoverSpend {witness : List Bytes} {e : HandoverEvent} :
    (noteHandoverSpend op txid h witness e).height = e.height := by
  unfold noteHandoverSpend
  split_ifs <;> rfl

theorem holds_iff : l.holds op = true ↔ ∃ u ∈ l.utxos, u.outpoint = op := by
  simp [holds]

theorem holds_eq_false_iff :
    l.holds op = false ↔ ∀ u ∈ l.utxos, u.outpoint ≠ op := by
  simp [holds]

theorem outpoint_markSpent (u : OnchainUtxo) : (markSpent op txid h u).outpoint = u.outpoint := by
  unfold markSpent
  split_ifs <;> rfl

/-- A coin that is not marked afterwards is another one and was not touched. -/
theorem markSpent_open {u : OnchainUtxo} (unmarked : (markSpent op txid h u).spentHeight = none) :
    markSpent op txid h u = u ∧ u.outpoint ≠ op := by
  unfold markSpent at unmarked ⊢
  split_ifs at unmarked ⊢ with spends
  exact ⟨rfl, fun same => spends ⟨unmarked, same⟩⟩

variable {paid : OutPoint × TxOut}

theorem mem_utxos_receiveOutput {u : OnchainUtxo}
    (member : u ∈ (l.receiveOutput scripts h paid).utxos) :
    u ∈ l.utxos ∨ ∃ chain index, u = newCoin chain index paid.1 paid.2.value h
      l.pendingSpends[paid.1]? := by
  unfold receiveOutput at member
  split at member
  · exact .inl member
  · split_ifs at member
    · exact .inl member
    · exact .inl member
    · exact .inl member
    · rcases mem_append.mp member with old | new
      · exact .inl old
      · exact .inr ⟨_, _, mem_singleton.mp new⟩

theorem mem_handover_receiveOutput {e : HandoverEvent}
    (member : e ∈ (l.receiveOutput scripts h paid).handover) :
    e ∈ l.handover ∨ ∃ index, e = newEvent index paid.1 paid.2.value h := by
  unfold receiveOutput at member
  split at member
  · exact .inl member
  · split_ifs at member
    · exact .inl member
    · rcases mem_append.mp member with old | new
      · exact .inl old
      · exact .inr ⟨_, mem_singleton.mp new⟩
    · exact .inl member
    · exact .inl member

/-- An output adds no entry to the remembered spends. -/
theorem pending_of_receiveOutput {spend : Txid × Nat}
    (found : (l.receiveOutput scripts h paid).pendingSpends[op]? = some spend) :
    l.pendingSpends[op]? = some spend := by
  unfold receiveOutput at found
  split at found
  · exact found
  · split_ifs at found
    · exact found
    · exact found
    · exact found
    · rw [Maps.ext_getElem?_erase] at found
      split_ifs at found
      exact found

/-- An input adds at most its own spend. -/
theorem pending_of_spendInput {input : TxIn} {spend : Txid × Nat}
    (found : (l.spendInput C scripts txid h input).pendingSpends[op]? = some spend) :
    l.pendingSpends[op]? = some spend ∨
      op = input.previousOutput ∧ witnessPaysUs C scripts input.witness = true ∧
        spend = (txid, h) := by
  unfold Ledger.spendInput at found
  dsimp only at found
  split_ifs at found with remembered
  · rw [Maps.ext_getElem?_insert] at found
    split_ifs at found with same
    · exact .inr ⟨same.symm, remembered.2, (Option.some.inj found).symm⟩
    · exact .inl found
  · exact .inl found

end Steps

end Ledger

end Lij.Tier2
