import Lij.Tier2.HistorySum
import Lij.Tier2.Pending

/-!
# When a pending send is let go

After a sync two passes go over the pending list. The first drops the sends whose transaction is in
the derived history and keeps their kinds, the second releases those with an input the ledger shows
spent. The second pass asks the stored history which transactions are confirmed, where the first one
asks the derived one. The stored list is no longer filled, so a send that confirmed is told apart
from a dead one only because the first pass dropped it.
-/

namespace Lij.Tier2

open Bitcoin Folds List

/-- The ids of the stored history and of the derived one. -/
def Tier2View.storedTxids (view : Tier2View) : List Txid :=
  view.history.map OnchainHistoryEntry.txid

def Tier2View.confirmedTxids (view : Tier2View) : List Txid :=
  view.deriveHistory.map OnchainHistoryEntry.txid

/-- The kind of a confirmed send, unless one is recorded. -/
def noteKind (confirmed : List Txid) (kinds : Std.ExtTreeMap Txid TxKind) (p : PendingTx) :
    Std.ExtTreeMap Txid TxKind :=
  if confirmed.contains p.txid && p.kind != .onchain then kinds.insertIfNew p.txid p.kind
  else kinds

/-- Confirmed sends hand their kind to the view and leave the list. -/
def reconcilePending (view : Tier2View) (pending : List PendingTx) :
    Tier2View × List PendingTx :=
  let confirmed := view.confirmedTxids
  ({ view with kinds := pending.foldl (noteKind confirmed) view.kinds },
    pending.filter fun p => !confirmed.contains p.txid)

/-- An input of the send is a coin the ledger shows spent. -/
def PendingTx.inputSpent (view : Tier2View) (p : PendingTx) : Bool :=
  p.spentOutpoints.any fun op =>
    view.utxos.any fun u => u.outpoint = op && u.spentHeight.isSome

/-- Is the send taken for dead? -/
def PendingTx.dead (view : Tier2View) (p : PendingTx) : Bool :=
  !view.storedTxids.contains p.txid && p.inputSpent view

/-- The sends that stay, and those that are released with their change. -/
def releaseConflictedPending (view : Tier2View) (pending : List PendingTx) :
    List PendingTx × List (Txid × Nat) :=
  (pending.filter fun p => !p.dead view,
    (pending.filter (PendingTx.dead view)).map fun p => (p.txid, p.changeValueSats))

/-- The two passes after a sync. -/
def settlePending (view : Tier2View) (pending : List PendingTx) : Tier2View × List PendingTx :=
  let reconciled := reconcilePending view pending
  (reconciled.1, (releaseConflictedPending reconciled.1 reconciled.2).1)

variable {view : Tier2View} {pending : List PendingTx} {p : PendingTx}

/-! ## What stays -/

/-- An input of the send is spent in the ledger by another transaction. -/
def PendingTx.Conflicted (view : Tier2View) (p : PendingTx) : Prop :=
  ∃ u ∈ view.utxos, u.outpoint ∈ p.spentOutpoints ∧ u.spentHeight.isSome ∧
    u.spentTxid ≠ some p.txid

theorem inputSpent_iff :
    p.inputSpent view = true ↔
      ∃ u ∈ view.utxos, u.outpoint ∈ p.spentOutpoints ∧ u.spentHeight.isSome := by
  simp only [PendingTx.inputSpent, any_eq_true, Bool.and_eq_true, decide_eq_true_eq]
  constructor
  · rintro ⟨op, input, u, member, rfl, marked⟩
    exact ⟨u, member, input, marked⟩
  · rintro ⟨u, member, input, marked⟩
    exact ⟨_, input, u, member, rfl, marked⟩

/-- A spent input of a send that is not confirmed was spent by another transaction. -/
theorem conflicted_iff_inputSpent (unconfirmed : p.txid ∉ view.confirmedTxids) :
    p.Conflicted view ↔ p.inputSpent view = true := by
  rw [inputSpent_iff]
  constructor
  · rintro ⟨u, member, input, marked, _⟩
    exact ⟨u, member, input, marked⟩
  · rintro ⟨u, member, input, marked⟩
    refine ⟨u, member, input, marked, fun own => unconfirmed ?_⟩
    rw [Tier2View.confirmedTxids, Tier2View.mem_txids_deriveHistory, Tier2View.mem_historyTxids]
    exact ⟨u, member, .inr ⟨marked, own⟩⟩

theorem mem_releaseConflictedPending :
    p ∈ (releaseConflictedPending view pending).1 ↔
      p ∈ pending ∧ (p.inputSpent view = true → p.txid ∈ view.storedTxids) := by
  rw [releaseConflictedPending, mem_filter, PendingTx.dead, contains_eq_mem]
  by_cases stored : p.txid ∈ view.storedTxids
  · simp [stored]
  · simp [stored]

/-- The first pass changes nothing the second one reads. -/
theorem inputSpent_reconcilePending :
    p.inputSpent (reconcilePending view pending).1 = p.inputSpent view := rfl

theorem mem_settlePending :
    p ∈ (settlePending view pending).2 ↔
      p ∈ pending ∧ p.txid ∉ view.confirmedTxids ∧
        (p.inputSpent view = true → p.txid ∈ view.storedTxids) := by
  rw [settlePending, mem_releaseConflictedPending, inputSpent_reconcilePending]
  simp only [reconcilePending, mem_filter, contains_eq_mem, Bool.not_eq_true',
    decide_eq_false_iff_not, and_assoc]
  rfl

/-! ## What is recorded -/

/-- The kind of the first send of this transaction that has one. -/
def pendingKind (pending : List PendingTx) (txid : Txid) : Option TxKind :=
  (pending.find? fun p => p.txid = txid && p.kind != .onchain).map PendingTx.kind

/-- A confirmed transaction has the kind it had, or that of its send. -/
theorem getElem?_noteKind (confirmed : List Txid) (kinds : Std.ExtTreeMap Txid TxKind)
    (p : PendingTx) {txid : Txid} (isConfirmed : txid ∈ confirmed) :
    (noteKind confirmed kinds p)[txid]? =
      (kinds[txid]?).or (if p.txid = txid && p.kind != .onchain then some p.kind else none) := by
  rw [noteKind]
  by_cases here : p.txid = txid
  · subst here
    cases other : p.kind != .onchain with
    | false => simp
    | true =>
      simp only [contains_eq_mem, isConfirmed, decide_true, Bool.and_self, if_true]
      rw [Std.ExtTreeMap.getElem?_insertIfNew]
      by_cases known : p.txid ∈ kinds
      · obtain ⟨kind, found⟩ := Option.isSome_iff_exists.mp
          (Std.ExtTreeMap.mem_iff_isSome_getElem?.mp known)
        rw [if_neg fun new => new.2 known, found, Option.some_or]
      · rw [if_pos ⟨Std.ReflCmp.compare_self, known⟩,
          Std.ExtTreeMap.getElem?_eq_none known, Option.none_or]
  · simp only [here, decide_false, Bool.false_and, Bool.false_eq_true, if_false, Option.or_none]
    split_ifs
    · rw [Std.ExtTreeMap.getElem?_insertIfNew]
      exact if_neg fun same => here (Std.LawfulEqOrd.compare_eq_iff_eq.mp same.1)
    · rfl

/-- The loop records the first kind, unless one was there before it. -/
theorem getElem?_foldl_noteKind (confirmed : List Txid) (kinds : Std.ExtTreeMap Txid TxKind)
    (pending : List PendingTx) {txid : Txid} (isConfirmed : txid ∈ confirmed) :
    (pending.foldl (noteKind confirmed) kinds)[txid]? =
      (kinds[txid]?).or (pendingKind pending txid) := by
  induction pending generalizing kinds with
  | nil => exact Option.or_none.symm
  | cons p pending ih =>
    rw [foldl_cons, ih, getElem?_noteKind confirmed kinds p isConfirmed, Option.or_assoc]
    congr 1
    simp only [pendingKind, find?_cons]
    cases p.txid = txid && p.kind != .onchain <;> rfl

/-! ## When the chain has decided -/

/-- What the two passes are for: the sends that stay are those that are neither confirmed nor in
conflict, a confirmed send leaves its kind, and the second pass alone releases none that is
confirmed. -/
structure Decided (view : Tier2View) (pending : List PendingTx) : Prop where
  stays : ∀ p, p ∈ (settlePending view pending).2 ↔
    p ∈ pending ∧ p.txid ∉ view.confirmedTxids ∧ ¬p.Conflicted view
  kinds : ∀ p ∈ pending, p.txid ∈ view.confirmedTxids → p.kind ≠ .onchain →
    (settlePending view pending).1.kinds[p.txid]? =
        (view.kinds[p.txid]?).or (pendingKind pending p.txid) ∧
      (pendingKind pending p.txid).isSome
  keeps : ∀ p ∈ pending, p.txid ∈ view.confirmedTxids →
    p ∈ (releaseConflictedPending view pending).1

/-- The passes do what they are for exactly when the two histories agree on every send that has a
spent input. -/
theorem decided_iff (view : Tier2View) (pending : List PendingTx) :
    Decided view pending ↔ ∀ p ∈ pending, p.inputSpent view = true →
      (p.txid ∈ view.storedTxids ↔ p.txid ∈ view.confirmedTxids) := by
  constructor
  · intro decided p member spent
    constructor
    · intro stored
      by_contra unconfirmed
      have left := mem_settlePending.mpr ⟨member, unconfirmed, fun _ => stored⟩
      exact ((decided.stays p).mp left).2.2 ((conflicted_iff_inputSpent unconfirmed).mpr spent)
    · intro confirmed
      exact (mem_releaseConflictedPending.mp (decided.keeps p member confirmed)).2 spent
  · intro agree
    constructor
    · intro p
      rw [mem_settlePending]
      apply and_congr_right
      intro member
      apply and_congr_right
      intro unconfirmed
      rw [conflicted_iff_inputSpent unconfirmed]
      constructor
      · intro kept spent
        exact unconfirmed ((agree p member spent).mp (kept spent))
      · intro unspent spent
        exact absurd spent unspent
    · intro p member confirmed other
      refine ⟨getElem?_foldl_noteKind _ _ _ confirmed, ?_⟩
      rw [pendingKind, Option.isSome_map, find?_isSome]
      exact ⟨p, member, by simpa using other⟩
    · intro p member confirmed
      exact mem_releaseConflictedPending.mpr ⟨member, (agree p member · |>.mpr confirmed)⟩

/-- A send whose own transaction spent its coin. -/
def ownSend : PendingTx where
  txid := 11
  spentOutpoints := [⟨10, 0⟩]
  deltaSats := -10
  direction := .sent
  kind := .onchain
  createdAtMs := 0
  broadcastSeen := true
  rawTxHex := none
  changeOutpoint := some ⟨11, 0⟩
  changeValueSats := 40
  changeIndex := 0

/-- The send is confirmed, and the second pass alone takes it for dead. -/
theorem ownSend_released :
    ownSend.txid ∈ Tier2View.spentView.confirmedTxids ∧
      ownSend ∉ (releaseConflictedPending Tier2View.spentView [ownSend]).1 ∧
      ¬Decided Tier2View.spentView [ownSend] := by
  have confirmed : ownSend.txid ∈ Tier2View.spentView.confirmedTxids := by decide +kernel
  have released : ownSend ∉ (releaseConflictedPending Tier2View.spentView [ownSend]).1 := by
    decide +kernel
  exact ⟨confirmed, released, fun decided =>
    released (decided.keeps ownSend mem_cons_self confirmed)⟩

end Lij.Tier2
