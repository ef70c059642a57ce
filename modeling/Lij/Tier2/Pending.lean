import Lij.Foundation.Words
import Lij.Tier2.View

/-!
# Sends still confirming and the marks on coins

A send of this wallet's stands in the pending list from its broadcast until its
block: its coins are reserved, and its change can be spent before it confirms.
The marks say which coins no picker may take: those the user froze and those a
Mix pool holds.

Outpoints are keyed by the lowercase text of their transaction id in the source;
here the id itself is the key.
-/

namespace Lij.Tier2

open Bitcoin List

/-! ## Pending transactions -/

structure PendingTx where
  txid : Txid
  spentOutpoints : List OutPoint
  deltaSats : Int
  direction : TxDirection
  kind : TxKind
  createdAtMs : Nat
  broadcastSeen : Bool
  rawTxHex : Option String
  changeOutpoint : Option OutPoint
  changeValueSats : Nat
  changeIndex : Nat
  deriving DecidableEq, Repr

/-- Outpoints reserved by pending transactions. -/
def reservedOutpoints (pending : List PendingTx) : List OutPoint :=
  pending.flatMap PendingTx.spentOutpoints

/-- The coin a pending transaction's change makes. -/
def PendingTx.changeCoin (p : PendingTx) (op : OutPoint) : OnchainUtxo where
  chain := chainChange
  index := p.changeIndex
  txid := op.txid
  vout := op.vout
  valueSats := p.changeValueSats
  height := 0
  spentHeight := none
  spentTxid := none
  spTweak := none
  spLabel := none

/-- The change of one pending transaction, unless another one spends it or the ledger has
met it. -/
def unconfirmedChangeOf (view : Tier2View) (reserved : List OutPoint) (p : PendingTx) :
    Option OnchainUtxo :=
  match p.changeOutpoint with
  | none => none
  | some op =>
    if p.changeValueSats = 0 ∨ reserved.contains op then none
    else if view.holds op then none
    else some (p.changeCoin op)

/-- Own unconfirmed change, most recent first. -/
def unconfirmedChangeUtxos (view : Tier2View) (pending : List PendingTx) : List OnchainUtxo :=
  (pending.insertionSort fun a b => b.createdAtMs ≤ a.createdAtMs).filterMap
    (unconfirmedChangeOf view (reservedOutpoints pending))

/-- Record a pending transaction, in the place of one with its id. -/
def recordPending (pending : List PendingTx) (p : PendingTx) : List PendingTx :=
  pending.filter (fun q => q.txid ≠ p.txid) ++ [p]

def removePendingByTxid (pending : List PendingTx) (txid : Txid) : List PendingTx :=
  pending.filter fun p => p.txid ≠ txid

theorem unconfirmedChangeOf_eq_some {view : Tier2View} {reserved : List OutPoint} {p : PendingTx}
    {u : OnchainUtxo} (found : unconfirmedChangeOf view reserved p = some u) :
    ∃ op, p.changeOutpoint = some op ∧ u = p.changeCoin op ∧ p.changeValueSats ≠ 0 ∧
      op ∉ reserved ∧ view.holds op = false := by
  unfold unconfirmedChangeOf at found
  split at found
  · cases found
  · rename_i op change
    split_ifs at found with empty held
    cases found
    rw [not_or] at empty
    exact ⟨op, change, rfl, empty.1, by simpa using empty.2, Bool.eq_false_iff.mpr held⟩

theorem mem_unconfirmedChangeUtxos {view : Tier2View} {pending : List PendingTx} {u : OnchainUtxo} :
    u ∈ unconfirmedChangeUtxos view pending ↔
      ∃ p ∈ pending, unconfirmedChangeOf view (reservedOutpoints pending) p = some u := by
  rw [unconfirmedChangeUtxos, mem_filterMap]
  simp only [mem_insertionSort]

/-- Each change is an output of its own row's transaction, and no two rows have one id. -/
structure OwnRows (pending : List PendingTx) : Prop where
  distinct : (pending.map PendingTx.txid).Nodup
  own : ∀ p ∈ pending, ∀ op, p.changeOutpoint = some op → op.txid = p.txid

theorem OwnRows.nodup_changes {pending : List PendingTx} (rows : OwnRows pending) :
    (pending.filterMap PendingTx.changeOutpoint).Nodup := by
  obtain ⟨distinct, own⟩ := rows
  induction pending with
  | nil => exact nodup_nil
  | cons p pending ih =>
    obtain ⟨new, rest⟩ := nodup_cons.mp distinct
    obtain ⟨first, others⟩ := forall_mem_cons.mp own
    cases change : p.changeOutpoint with
    | none =>
      rw [filterMap_cons_none change]
      exact ih rest others
    | some op =>
      rw [filterMap_cons_some change]
      refine nodup_cons.mpr ⟨fun again => ?_, ih rest others⟩
      obtain ⟨q, member, same⟩ := mem_filterMap.mp again
      refine new (mem_map.mpr ⟨q, member, ?_⟩)
      rw [← others q member op same, first op change]

theorem OwnRows.removePendingByTxid {pending : List PendingTx} (rows : OwnRows pending)
    (txid : Txid) : OwnRows (removePendingByTxid pending txid) :=
  ⟨rows.distinct.sublist (filter_sublist.map _),
    fun p member => rows.own p (mem_of_mem_filter member)⟩

/-- Recording a row keeps this: a row with its id goes first. -/
theorem OwnRows.recordPending {pending : List PendingTx} (rows : OwnRows pending) {p : PendingTx}
    (own : ∀ op, p.changeOutpoint = some op → op.txid = p.txid) :
    OwnRows (recordPending pending p) := by
  have kept := rows.removePendingByTxid p.txid
  constructor
  · rw [Tier2.recordPending, map_append]
    refine kept.distinct.append (nodup_singleton _) fun txid first last => ?_
    obtain ⟨q, member, rfl⟩ := mem_map.mp first
    have other : q.txid ≠ p.txid := by simpa using (mem_filter.mp member).2
    exact other (mem_singleton.mp last)
  · intro q member
    obtain old | rfl := (mem_append.mp member).imp_right mem_singleton.mp
    · exact kept.own q old
    · exact own

/-! ## Marks -/

structure CoinMark where
  frozen : Bool
  deriving DecidableEq, Repr

structure CoinMarks where
  marks : Std.ExtTreeMap OutPoint CoinMark
  /-- The coins a Mix holds, with the time since when. -/
  mixLocks : Std.ExtTreeMap OutPoint Nat

namespace CoinMarks

def empty : CoinMarks := ⟨∅, ∅⟩

/-- The coins the user froze. -/
def frozenSet (m : CoinMarks) : List OutPoint :=
  (m.marks.toList.filter fun entry => entry.2.frozen).map Prod.fst

/-- The coins a Mix holds. -/
def mixLockedSet (m : CoinMarks) : List OutPoint := m.mixLocks.keys

/-- Every coin no picker may take. -/
def heldSet (m : CoinMarks) : List OutPoint := m.frozenSet ++ m.mixLockedSet

/-- Hold coins for a Mix; a coin already held keeps its first time. -/
def mixLock (m : CoinMarks) (coins : List OutPoint) (nowMs : Nat) : CoinMarks :=
  { m with mixLocks := coins.foldl (fun locks op => locks.insertIfNew op nowMs) m.mixLocks }

def mixUnlock (m : CoinMarks) (coins : List OutPoint) : CoinMarks :=
  { m with mixLocks := coins.foldl (fun locks op => locks.erase op) m.mixLocks }

theorem mem_mixLockedSet {m : CoinMarks} {op : OutPoint} :
    op ∈ m.mixLockedSet ↔ op ∈ m.mixLocks := Std.ExtTreeMap.mem_keys

theorem mem_mixLock {m : CoinMarks} {coins : List OutPoint} {nowMs : Nat} {op : OutPoint} :
    op ∈ (m.mixLock coins nowMs).mixLocks ↔ op ∈ m.mixLocks ∨ op ∈ coins := by
  unfold mixLock
  induction coins generalizing m with
  | nil => simp
  | cons coin coins ih =>
    have step := ih (m := { m with mixLocks := m.mixLocks.insertIfNew coin nowMs })
    rw [foldl_cons, step, Std.ExtTreeMap.mem_insertIfNew, mem_cons,
      Std.LawfulEqOrd.compare_eq_iff_eq]
    tauto

theorem mem_mixUnlock {m : CoinMarks} {coins : List OutPoint} {op : OutPoint} :
    op ∈ (m.mixUnlock coins).mixLocks ↔ op ∈ m.mixLocks ∧ op ∉ coins := by
  unfold mixUnlock
  induction coins generalizing m with
  | nil => simp
  | cons coin coins ih =>
    have step := ih (m := { m with mixLocks := m.mixLocks.erase coin })
    rw [foldl_cons, step, Std.ExtTreeMap.mem_erase, mem_cons, Ne,
      Std.LawfulEqOrd.compare_eq_iff_eq]
    tauto

end CoinMarks

/-! ## The totals -/

section Totals

open Word

variable (view : Tier2View) (pending : List PendingTx) (marks : CoinMarks)

/-- Confirmed coins that count as the wallet's own money. -/
def confirmedCoins : List OnchainUtxo :=
  view.utxos.filter fun u => u.spentHeight.isNone && u.chain != chainLegacy

/-- The confirmed coins, without those a pending send spends, and the unconfirmed change. -/
def spendableSats : Nat :=
  let reserved := reservedOutpoints pending
  saturatingAdd64
    (saturatingSum64 ((confirmedCoins view).map OnchainUtxo.valueSats) -
      saturatingSum64 (((confirmedCoins view).filter fun u => reserved.contains u.outpoint).map
        OnchainUtxo.valueSats))
    (sum64 ((unconfirmedChangeUtxos view pending).map OnchainUtxo.valueSats))

/-- The rows of the coin list that the totals count. -/
def summaryCoins : List OnchainUtxo :=
  (confirmedCoins view).filter (fun u => !(reservedOutpoints pending).contains u.outpoint) ++
    unconfirmedChangeUtxos view pending

def frozenSats : Nat :=
  sum64 (((summaryCoins view pending).filter fun u => marks.frozenSet.contains u.outpoint).map
    OnchainUtxo.valueSats)

/-- Held by a Mix and not frozen. -/
def mixHeldSats : Nat :=
  sum64 (((summaryCoins view pending).filter fun u => marks.mixLockedSet.contains u.outpoint &&
    !marks.frozenSet.contains u.outpoint).map OnchainUtxo.valueSats)

/-- What a send, Max or an open may use. -/
def sendableSats : Nat :=
  spendableSats view pending - frozenSats view pending marks - mixHeldSats view pending marks

variable {view pending marks}

theorem sum_filter_add {α : Type} (f : α → Nat) (p : α → Bool) (xs : List α) :
    ((xs.filter p).map f).sum + ((xs.filter fun x => !p x).map f).sum = (xs.map f).sum := by
  induction xs with
  | nil => rfl
  | cons x xs ih =>
    cases holds : p x <;> simp [holds, ← ih] <;> omega

variable (view pending) in
theorem sum_summaryCoins_le :
    ((summaryCoins view pending).map OnchainUtxo.valueSats).sum ≤
      ((confirmedCoins view).map OnchainUtxo.valueSats).sum +
        ((unconfirmedChangeUtxos view pending).map OnchainUtxo.valueSats).sum := by
  have parts := sum_filter_add OnchainUtxo.valueSats
    (fun u => (reservedOutpoints pending).contains u.outpoint) (confirmedCoins view)
  rw [summaryCoins, map_append, sum_append]
  omega

/-- The totals count rows of the coin list and nothing else. -/
theorem spendableSats_eq
    (small : ((confirmedCoins view).map OnchainUtxo.valueSats).sum +
      ((unconfirmedChangeUtxos view pending).map OnchainUtxo.valueSats).sum < 2 ^ 64) :
    spendableSats view pending = ((summaryCoins view pending).map OnchainUtxo.valueSats).sum := by
  have parts := sum_filter_add OnchainUtxo.valueSats
    (fun u => (reservedOutpoints pending).contains u.outpoint) (confirmedCoins view)
  rw [summaryCoins, map_append, sum_append]
  rw [spendableSats, saturatingSum64_of_lt (by omega), saturatingSum64_of_lt (by omega),
    sum64_of_lt (by omega), saturatingAdd64, u64Max]
  omega

theorem sendableSats_eq
    (small : ((confirmedCoins view).map OnchainUtxo.valueSats).sum +
      ((unconfirmedChangeUtxos view pending).map OnchainUtxo.valueSats).sum < 2 ^ 64) :
    sendableSats view pending marks = (((summaryCoins view pending).filter fun u =>
      !marks.mixLockedSet.contains u.outpoint && !marks.frozenSet.contains u.outpoint).map
        OnchainUtxo.valueSats).sum := by
  have frozen := sum_filter_add OnchainUtxo.valueSats
    (fun u => marks.frozenSet.contains u.outpoint) (summaryCoins view pending)
  have held := sum_filter_add OnchainUtxo.valueSats
    (fun u => marks.mixLockedSet.contains u.outpoint)
    ((summaryCoins view pending).filter fun u => !marks.frozenSet.contains u.outpoint)
  rw [filter_filter, filter_filter] at held
  have less := (sum_summaryCoins_le view pending).trans_lt small
  rw [sendableSats, spendableSats_eq small, frozenSats, mixHeldSats, sum64_of_lt (by omega),
    sum64_of_lt (by omega)]
  omega

end Totals

end Lij.Tier2
