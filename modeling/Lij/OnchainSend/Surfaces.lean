import Lij.OnchainSend.Conserve
import Lij.Tier2.Release

/-!
# Where the page shows what can be sent

The summary's figure, the Max quote, the coins a send may pick and the rows of the coin list filter
the same coins apart from each other. They agree on every ledger whose coins outside the legacy
branch are coins the wallet can sign for, and the walk and the silent-payment scan record no other
coins. The change of a send still confirming is one of these coins from its broadcast on: first as
an output of the pending list, then as a coin of the ledger, never as both.
-/

namespace Lij.OnchainSend

open Bitcoin Tier2 Word Folds List

/-! ## The rows of the coin list -/

structure CoinRow where
  chain : Nat
  index : Nat
  txid : Txid
  vout : Nat
  valueSats : Nat
  height : Nat
  frozen : Bool
  spLabel : Option Nat
  mixHeld : Bool
  deriving DecidableEq, Repr

def CoinRow.fromUtxo (marks : CoinMarks) (u : OnchainUtxo) : CoinRow where
  chain := u.chain
  index := u.index
  txid := u.txid
  vout := u.vout
  valueSats := u.valueSats
  height := u.height
  frozen := ((marks.marks[u.outpoint]?).map CoinMark.frozen).getD false
  spLabel := u.spLabel
  mixHeld := marks.mixLocks.contains u.outpoint

/-- The unspent coins no pending send spends, and the unconfirmed change. -/
def coinRows (view : Tier2View) (pending : List PendingTx) (marks : CoinMarks) : List CoinRow :=
  (view.utxos.filter fun u => u.spentHeight.isNone &&
    !(reservedOutpoints pending).contains u.outpoint).map (.fromUtxo marks) ++
  (unconfirmedChangeUtxos view pending).map (.fromUtxo marks)

/-- Shown as spendable: not a legacy coin, not frozen and not held by a Mix. -/
def CoinRow.spendable (r : CoinRow) : Bool := r.chain != chainLegacy && !r.frozen && !r.mixHeld

/-! ## The Max quote -/

structure MaxQuote where
  maxSats : Nat
  feeSats : Nat
  inputs : Nat
  totalSats : Nat
  frozenSats : Nat
  frozenCount : Nat
  satPerVb : Nat
  mixLockedSats : Nat
  mixLockedCount : Nat
  mixedInputs : Nat
  linksMixed : Bool

/-- How many mixed coins a set spends, and whether it spends one beside another coin. -/
def mixedFlags (chains : List Nat) : Nat × Bool :=
  let mixed := chains.countP isMixed
  (mixed, mixed > 0 && chains.length > 1)

variable (W : Wallet)

/-- The quote for sending everything; a destination still being typed counts as an ordinary one. -/
def maxSendable (dest : String) (rate : UInt32) (view : Tier2View) (pending : List PendingTx)
    (marks : CoinMarks) : MaxQuote :=
  let extraVbytes := match W.parseDest dest with
    | .ok d => destExtraVbytes d
    | .error _ => 0
  let locked := marks.mixLockedSet
  let frozen := marks.frozenSet.filter fun op => !locked.contains op
  let spendable := gatherSpendable view pending marks.heldSet
  let totalSats := totalOf spendable
  let feeSats := if spendable.isEmpty then 0 else estimateFeeInputs spendable 1 extraVbytes rate
  let flags := mixedFlags (spendable.map SpendableUtxo.chain)
  let shown := view.utxos.filter fun u => u.spentHeight.isNone && u.chain != chainLegacy &&
    !(reservedOutpoints pending).contains u.outpoint
  let frozenCoins := shown.filter (fun u => frozen.contains u.outpoint) ++
    (unconfirmedChangeUtxos view pending).filter fun u => frozen.contains u.outpoint
  let lockedCoins := shown.filter fun u => locked.contains u.outpoint
  { maxSats := totalSats - feeSats, feeSats, inputs := spendable.length, totalSats
    frozenSats := saturatingSum64 (frozenCoins.map OnchainUtxo.valueSats)
    frozenCount := frozenCoins.length
    satPerVb := satPerVb rate
    mixLockedSats := saturatingSum64 (lockedCoins.map OnchainUtxo.valueSats)
    mixLockedCount := lockedCoins.length
    mixedInputs := flags.1, linksMixed := flags.2 }

variable {W} {view : Tier2View} {pending : List PendingTx} {marks : CoinMarks}

/-! ## The coins behind every figure -/

/-- The rows the totals count, without the coins that are frozen or held. -/
def sendableCoins (view : Tier2View) (pending : List PendingTx) (marks : CoinMarks) :
    List OnchainUtxo :=
  (summaryCoins view pending).filter fun u => !marks.heldSet.contains u.outpoint

/-- Every coin outside the legacy branch is one the wallet can sign for. -/
def Signable (view : Tier2View) : Prop :=
  ∀ u ∈ view.utxos, u.chain ≠ chainLegacy → isSignable u = true

theorem mem_frozenSet {op : OutPoint} :
    op ∈ marks.frozenSet ↔ ((marks.marks[op]?).map CoinMark.frozen).getD false = true := by
  simp only [CoinMarks.frozenSet, mem_map, mem_filter, Prod.exists, exists_and_right,
    exists_eq_right, Std.ExtTreeMap.mem_toList_iff_getElem?_eq_some]
  cases marks.marks[op]? <;> simp

theorem contains_heldSet (op : OutPoint) :
    marks.heldSet.contains op =
      (((marks.marks[op]?).map CoinMark.frozen).getD false || marks.mixLocks.contains op) := by
  rw [Bool.eq_iff_iff, contains_iff_mem, CoinMarks.heldSet, mem_append, mem_frozenSet,
    CoinMarks.mem_mixLockedSet, Bool.or_eq_true, Std.ExtTreeMap.contains_iff_mem]

/-- A silent payment is no legacy coin, and so on for the other chains the wallet signs for. -/
theorem ne_legacy_of_isSignable {u : OnchainUtxo} (signs : isSignable u = true) :
    u.chain ≠ chainLegacy := by
  intro legacy
  simp [isSignable, legacy, chainLegacy, chainReceive, chainChange, chainSp, bip86Branch,
    chainBip86, chainBip86Internal] at signs

theorem gatherSpendable_eq (signable : Signable view) :
    gatherSpendable view pending marks.heldSet =
      (sendableCoins view pending marks).map .fromUtxo := by
  rw [gatherSpendable, sendableCoins, summaryCoins, filter_append, map_append]
  congr 2
  rw [confirmedCoins, filter_filter, filter_filter]
  apply filter_congr
  intro u member
  have chain : isSignable u = (u.chain != chainLegacy) := by
    by_cases legacy : u.chain = chainLegacy
    · rw [legacy, bne_self_eq_false]
      exact Bool.eq_false_iff.mpr fun signs => ne_legacy_of_isSignable signs legacy
    · rw [signable u member legacy, bne_iff_ne.mpr legacy]
  rw [chain]
  ac_rfl

theorem spendable_coinRows :
    ((coinRows view pending marks).filter CoinRow.spendable).map CoinRow.valueSats =
      (sendableCoins view pending marks).map OnchainUtxo.valueSats := by
  have row : ∀ u : OnchainUtxo, (CoinRow.fromUtxo marks u).spendable =
      (u.chain != chainLegacy && !marks.heldSet.contains u.outpoint) := by
    intro u
    rw [contains_heldSet, Bool.not_or, ← Bool.and_assoc]
    rfl
  have changes : ∀ u ∈ unconfirmedChangeUtxos view pending, (u.chain != chainLegacy) = true := by
    intro u member
    obtain ⟨p, _, found⟩ := mem_unconfirmedChangeUtxos.mp member
    obtain ⟨op, _, rfl, _⟩ := unconfirmedChangeOf_eq_some found
    rfl
  rw [coinRows, sendableCoins, summaryCoins, confirmedCoins]
  simp only [filter_append, map_append, filter_map, map_map,
    filter_filter]
  congr 1
  · apply congrArg (List.map OnchainUtxo.valueSats)
    apply filter_congr
    intro u _
    rw [Function.comp_apply, row]
    ac_rfl
  · apply congrArg (List.map OnchainUtxo.valueSats)
    apply filter_congr
    intro u member
    rw [Function.comp_apply, row, changes u member, Bool.true_and]

/-- The coins and the unconfirmed change fit a word together. -/
def TotalsFit (view : Tier2View) (pending : List PendingTx) : Prop :=
  ((confirmedCoins view).map OnchainUtxo.valueSats).sum +
    ((unconfirmedChangeUtxos view pending).map OnchainUtxo.valueSats).sum < 2 ^ 64

theorem sum_sendableCoins_lt (fits : TotalsFit view pending) :
    ((sendableCoins view pending marks).map OnchainUtxo.valueSats).sum < 2 ^ 64 := by
  have fewer : (sendableCoins view pending marks).Sublist (summaryCoins view pending) :=
    filter_sublist
  have less := (fewer.map OnchainUtxo.valueSats).sum_le_sum (fun _ _ => Nat.zero_le _)
  exact (less.trans (sum_summaryCoins_le view pending)).trans_lt fits

theorem sendableSats_eq_sum (fits : TotalsFit view pending) :
    sendableSats view pending marks =
      ((sendableCoins view pending marks).map OnchainUtxo.valueSats).sum := by
  rw [sendableSats_eq fits, sendableCoins]
  apply congrArg fun coins : List OnchainUtxo => (coins.map OnchainUtxo.valueSats).sum
  apply filter_congr
  intro u _
  rw [CoinMarks.heldSet, contains_append, Bool.not_or, Bool.and_comm]

theorem totalSats_maxSendable (signable : Signable view) (fits : TotalsFit view pending)
    (dest : String) (rate : UInt32) :
    (maxSendable W dest rate view pending marks).totalSats =
      ((sendableCoins view pending marks).map OnchainUtxo.valueSats).sum := by
  have coins : (gatherSpendable view pending marks.heldSet).map SpendableUtxo.valueSats =
      (sendableCoins view pending marks).map OnchainUtxo.valueSats := by
    rw [gatherSpendable_eq signable, map_map]
    rfl
  rw [maxSendable, totalOf, coins]
  exact sum64_of_lt (sum_sendableCoins_lt fits)

/-! ## Change is counted once -/

/-- How often the coins behind the figures have this outpoint. -/
def timesCounted (view : Tier2View) (pending : List PendingTx) (marks : CoinMarks)
    (op : OutPoint) : Nat :=
  ((sendableCoins view pending marks).map OnchainUtxo.outpoint).count op

/-- A coin of the ledger that is not spent, outside the legacy branch. -/
def OpenCoin (view : Tier2View) (op : OutPoint) : Prop :=
  ∃ u ∈ view.utxos, u.outpoint = op ∧ u.spentHeight = none ∧ u.chain ≠ chainLegacy

variable {op : OutPoint}

theorem timesCounted_eq (free : op ∉ marks.heldSet) :
    timesCounted view pending marks op =
      (((confirmedCoins view).filter fun u => !(reservedOutpoints pending).contains u.outpoint).map
        OnchainUtxo.outpoint).count op +
      ((unconfirmedChangeUtxos view pending).map OnchainUtxo.outpoint).count op := by
  have marked : (sendableCoins view pending marks).map OnchainUtxo.outpoint =
      ((summaryCoins view pending).map OnchainUtxo.outpoint).filter fun op =>
        !marks.heldSet.contains op := by
    rw [filter_map]
    rfl
  rw [timesCounted, marked, count_filter (by simpa using free), summaryCoins, map_append,
    count_append]

/-- Change the ledger has not met is counted from the pending list. -/
theorem timesCounted_pending (rows : OwnRows pending) {p : PendingTx} (member : p ∈ pending)
    (change : p.changeOutpoint = some op) (worth : p.changeValueSats ≠ 0)
    (unreserved : op ∉ reservedOutpoints pending) (free : op ∉ marks.heldSet)
    (unmet : view.holds op = false) : timesCounted view pending marks op = 1 := by
  have noCoin : op ∉ ((confirmedCoins view).filter fun u =>
      !(reservedOutpoints pending).contains u.outpoint).map OnchainUtxo.outpoint := by
    intro inside
    obtain ⟨u, isCoin, same⟩ := mem_map.mp inside
    have known := mem_of_mem_filter (mem_of_mem_filter isCoin)
    exact Ledger.holds_eq_false_iff.mp unmet u known same
  have offered : unconfirmedChangeOf view (reservedOutpoints pending) p =
      some (p.changeCoin op) := by
    rw [unconfirmedChangeOf, change]
    simp [worth, unreserved, unmet]
  have listed : op ∈ (unconfirmedChangeUtxos view pending).map OnchainUtxo.outpoint :=
    mem_map.mpr ⟨p.changeCoin op, mem_unconfirmedChangeUtxos.mpr ⟨p, member, offered⟩, rfl⟩
  rw [timesCounted_eq free, count_eq_zero_of_not_mem noCoin,
    count_eq_one_of_mem (nodup_unconfirmedChangeUtxos rows) listed]

/-- Change the ledger holds is counted as a coin, whether its send is still listed or not. -/
theorem timesCounted_held (kept : view.toLedger.Kept) (unreserved : op ∉ reservedOutpoints pending)
    (free : op ∉ marks.heldSet) (held : OpenCoin view op) :
    timesCounted view pending marks op = 1 := by
  obtain ⟨u, member, rfl, unspent, chain⟩ := held
  have isCoin : u.outpoint ∈ ((confirmedCoins view).filter fun u =>
      !(reservedOutpoints pending).contains u.outpoint).map OnchainUtxo.outpoint := by
    apply mem_map_of_mem
    simp [confirmedCoins, member, unspent, chain, unreserved]
  have once : (((confirmedCoins view).filter fun u =>
      !(reservedOutpoints pending).contains u.outpoint).map OnchainUtxo.outpoint).Nodup :=
    kept.distinct.sublist ((filter_sublist.trans filter_sublist).map _)
  have noChange : u.outpoint ∉ (unconfirmedChangeUtxos view pending).map OnchainUtxo.outpoint := by
    intro inside
    obtain ⟨v, isChange, same⟩ := mem_map.mp inside
    obtain ⟨p, _, found⟩ := mem_unconfirmedChangeUtxos.mp isChange
    obtain ⟨op, _, rfl, _, _, unmet⟩ := unconfirmedChangeOf_eq_some found
    exact Ledger.holds_eq_false_iff.mp unmet u member same.symm
  rw [timesCounted_eq free, count_eq_one_of_mem once isCoin,
    count_eq_zero_of_not_mem noChange]

/-! ### The block that confirms it -/

/-- The block creates this outpoint for a branch of the wallet and does not spend it. -/
structure Creates (C : Crypto) (scripts : WalletScripts) (txs : List Transaction) (op : OutPoint)
    (chain : Nat) : Prop where
  creates : ∃ tx ∈ txs, ∃ paid ∈ Ledger.outputsOf C tx, paid.1 = op
  owner : ∀ tx ∈ txs, ∀ paid ∈ Ledger.outputsOf C tx, paid.1 = op →
    ∃ index, scripts.ownerOf paid.2.scriptPubkey = some (chain, index)
  unspent : ∀ tx ∈ txs, ∀ input ∈ tx.input, input.previousOutput ≠ op

/-- Every coin at the outpoint is open, and no spend of it is remembered. -/
structure StaysOpen (op : OutPoint) (chain : Nat) (l : Ledger) : Prop where
  coins : ∀ u ∈ l.utxos, u.outpoint = op → u.spentHeight = none ∧ u.chain = chain
  unremembered : l.pendingSpends[op]? = none

variable {C : Crypto} {scripts : WalletScripts} {txs : List Transaction} {l : Ledger}
  {chain h : Nat}

theorem StaysOpen.spendInput {txid : Txid} {input : TxIn} (opened : StaysOpen op chain l)
    (other : input.previousOutput ≠ op) :
    StaysOpen op chain (l.spendInput C scripts txid h input) where
  coins := by
    intro u member same
    obtain ⟨before, inside, rfl⟩ := mem_map.mp member
    rw [Ledger.outpoint_markSpent] at same
    have untouched : Ledger.markSpent input.previousOutput txid h before = before :=
      if_neg fun spends => other (spends.2.symm.trans same)
    rw [untouched]
    exact opened.coins before inside same
  unremembered := by
    by_contra remembered
    obtain ⟨spend, found⟩ := Option.ne_none_iff_exists'.mp remembered
    obtain old | ⟨same, _⟩ := Ledger.pending_of_spendInput found
    · rw [opened.unremembered] at old
      cases old
    · exact other same.symm

theorem StaysOpen.receiveOutput {paid : OutPoint × TxOut} (opened : StaysOpen op chain l)
    (owner : paid.1 = op → ∃ index, scripts.ownerOf paid.2.scriptPubkey = some (chain, index)) :
    StaysOpen op chain (l.receiveOutput scripts h paid) where
  coins := by
    intro u member same
    obtain ⟨_, coins, _⟩ | ⟨_, unchanged⟩ | ⟨_, r, receipt, coins, _⟩ :=
      Ledger.receiveOutput_cases l scripts h paid
    · exact opened.coins u (coins ▸ member) same
    · exact opened.coins u (unchanged ▸ member) same
    · rw [coins] at member
      obtain old | new := mem_append.mp member
      · exact opened.coins u old same
      · rw [mem_singleton.mp new] at same ⊢
        rw [Receipt.outpoint_coin] at same
        obtain ⟨index, isOwner⟩ := owner same
        have receives := (Segment.receiptOf_eq_some receipt).1
        rw [isOwner] at receives
        cases receives
        have unseen : l.pendingSpends[paid.1]? = none := same ▸ opened.unremembered
        rw [unseen]
        exact ⟨rfl, rfl⟩
  unremembered := by
    by_contra remembered
    obtain ⟨spend, found⟩ := Option.ne_none_iff_exists'.mp remembered
    have old := Ledger.pending_of_receiveOutput found
    rw [opened.unremembered] at old
    cases old

/-- After the block the ledger holds the outpoint as an open coin. -/
theorem openCoin_applyTxs (creates : Creates C scripts txs op chain)
    (isCoin : chain ≠ chainHandover) (ours : chain ≠ chainLegacy) (unmet : view.holds op = false)
    (unremembered : view.pendingSpends[op]? = none) :
    OpenCoin (view.applyTxs C scripts txs h) op := by
  have start : StaysOpen op chain view.toLedger :=
    ⟨fun u member same => absurd same (Ledger.holds_eq_false_iff.mp unmet u member), unremembered⟩
  have opened : StaysOpen op chain (view.toLedger.applyTxs C scripts txs h) := by
    apply Ledger.applyTxs_invariant start
    · intro l tx inBlock input inTx opened
      exact opened.spendInput (creates.unspent tx inBlock input inTx)
    · intro l tx inBlock paid inTx opened
      exact opened.receiveOutput (creates.owner tx inBlock paid inTx)
  obtain ⟨tx, inBlock, paid, inTx, rfl⟩ := creates.creates
  obtain ⟨index, owner⟩ := creates.owner tx inBlock paid inTx rfl
  have taken : (view.toLedger.applyTxs C scripts txs h).OutputTaken scripts paid :=
    Ledger.outputsTaken_applyTxs view.toLedger txs tx inBlock paid inTx
  obtain ⟨u, member, same⟩ := Ledger.holds_iff.mp (taken.coin chain index owner isCoin)
  obtain ⟨unspent, isChain⟩ := opened.coins u member same
  exact ⟨u, member, same, unspent, isChain ▸ ours⟩

/-! ## What the walk and the scan record -/

/-- The net of the wallet's scripts has the branches the wallet signs for, the legacy branch and
the hand-over outputs. -/
def NetSignable (scripts : WalletScripts) : Prop :=
  ∀ e ∈ scripts.entries, e.chain ∈ [chainReceive, chainChange, chainLegacy, chainBip86,
    chainBip86Internal, chainHandover]

def StepSignable : LedgerStep → Prop
  | .block scripts _ _ => NetSignable scripts
  | .trSpend _ _ _ => True
  | .found _ _ => True
  | .rollback _ => True

/-- Only the branch and the tweak count. -/
theorem isSignable_congr {u v : OnchainUtxo} (sameChain : u.chain = v.chain)
    (sameTweak : u.spTweak = v.spTweak) : isSignable u = isSignable v := by
  rw [isSignable, isSignable, sameChain, sameTweak]

theorem markSpent_keeps (op : OutPoint) (txid : Txid) (h : Nat) (u : OnchainUtxo) :
    (Ledger.markSpent op txid h u).chain = u.chain ∧
      (Ledger.markSpent op txid h u).spTweak = u.spTweak := by
  unfold Ledger.markSpent
  split_ifs <;> exact ⟨rfl, rfl⟩

theorem unspendAbove_keeps (t : Nat) (u : OnchainUtxo) :
    (Ledger.unspendAbove t u).chain = u.chain ∧
      (Ledger.unspendAbove t u).spTweak = u.spTweak := by
  unfold Ledger.unspendAbove
  split
  · split_ifs <;> exact ⟨rfl, rfl⟩
  · exact ⟨rfl, rfl⟩

/-- The coins of a ledger are the wallet's to sign for. -/
def LedgerSignable (l : Ledger) : Prop :=
  ∀ u ∈ l.utxos, u.chain ≠ chainLegacy → isSignable u = true

/-- Rewriting coins without touching branch and tweak keeps this. -/
theorem LedgerSignable.map (signs : LedgerSignable l) {f : OnchainUtxo → OnchainUtxo}
    (keeps : ∀ u, (f u).chain = u.chain ∧ (f u).spTweak = u.spTweak) {l' : Ledger}
    (coins : ∀ u ∈ l'.utxos, ∃ v ∈ l.utxos, u = f v) : LedgerSignable l' := by
  intro u member ours
  obtain ⟨v, inside, rfl⟩ := coins u member
  rw [isSignable_congr (keeps v).1 (keeps v).2]
  exact signs v inside ((keeps v).1 ▸ ours)

theorem LedgerSignable.receiveOutput (signs : LedgerSignable l) (net : NetSignable scripts)
    (paid : OutPoint × TxOut) : LedgerSignable (l.receiveOutput scripts h paid) := by
  obtain ⟨_, coins, _⟩ | ⟨_, unchanged⟩ | ⟨_, r, receipt, coins, _⟩ :=
    Ledger.receiveOutput_cases l scripts h paid
  · exact fun u member => signs u (coins ▸ member)
  · rw [unchanged]
    exact signs
  · intro u member ours
    rw [coins] at member
    obtain old | new := mem_append.mp member
    · exact signs u old ours
    · rw [mem_singleton.mp new] at ours ⊢
      obtain ⟨owner, _, isCoin⟩ := Segment.receiptOf_eq_some receipt
      obtain ⟨e, inNet, _, place⟩ := WalletScripts.entry_of_ownerOf owner
      have branch := net e inNet
      rw [(Prod.mk.inj place).1] at branch
      change r.chain ≠ chainLegacy at ours
      simp only [mem_cons, not_mem_nil, or_false] at branch
      have coinChain : (r.coin paid.1 l.pendingSpends[paid.1]?).chain = r.chain := rfl
      rcases branch with same | same | same | same | same | same
      · simp [isSignable, coinChain, same]
      · simp [isSignable, coinChain, same]
      · exact absurd same ours
      · simp [isSignable, coinChain, same, bip86Branch]
      · simp [isSignable, coinChain, same, bip86Branch, chainBip86, chainBip86Internal]
      · exact absurd same isCoin

theorem signable_ledgerStep (signs : Signable view) {step : LedgerStep}
    (net : StepSignable step) : Signable (view.ledgerStep C step) := by
  have ledger : LedgerSignable view.toLedger := signs
  cases step with
  | block scripts txs height =>
    apply Ledger.applyTxs_invariant (I := LedgerSignable) ledger
    · intro l tx _ input _ signs
      exact signs.map (markSpent_keeps input.previousOutput (C.computeTxid tx) height)
        fun u member => (mem_map.mp member).imp fun v found => ⟨found.1, found.2.symm⟩
    · intro l tx _ paid _ signs
      exact signs.receiveOutput net paid
  | trSpend op txs height =>
    rw [Tier2View.ledgerStep, Tier2View.applyTrSpend]
    split
    · rename_i tx _
      exact ledger.map (markSpent_keeps op (C.computeTxid tx) height)
        fun u member => (mem_map.mp member).imp fun v found => ⟨found.1, found.2.symm⟩
    · exact signs
  | found coin height =>
    rw [Tier2View.ledgerStep, Ledger.addCoin]
    split_ifs
    · exact signs
    · intro u member ours
      obtain old | new := mem_append.mp member
      · exact signs u old ours
      · rw [mem_singleton.mp new]
        rfl
  | rollback toHeight =>
    exact ledger.map (unspendAbove_keeps toHeight) fun u member =>
      (mem_map.mp member).imp fun v found => ⟨mem_of_mem_filter found.1, found.2.symm⟩

/-- Whatever blocks were read and whatever the scan found, every coin outside the legacy branch
is one the wallet can sign for. -/
theorem signable_ledgerRun (steps : List LedgerStep)
    (nets : ∀ step ∈ steps, StepSignable step) : Signable (Tier2View.ledgerRun C steps) := by
  apply foldl_invariant (I := Signable)
  · exact forall_mem_nil _
  · intro view step member signs
    exact signable_ledgerStep signs (nets step member)

/-! ## The surfaces -/

/-- The summary's figure, the Max quote's total and the spendable rows are the sum of the coins a
send may pick. Change of a pending send that nothing spends or holds is counted once: before its
block, when the block was read and its send is still listed, and after the passes that drop it. -/
theorem surfaces_agree (W : Wallet) (view : Tier2View) (pending : List PendingTx)
    (marks : CoinMarks) (signable : Signable view) (fits : TotalsFit view pending) :
    (∀ dest rate,
      sendableSats view pending marks = ((gatherSpendable view pending marks.heldSet).map
          SpendableUtxo.valueSats).sum ∧
        (maxSendable W dest rate view pending marks).totalSats =
          sendableSats view pending marks ∧
        (((coinRows view pending marks).filter CoinRow.spendable).map CoinRow.valueSats).sum =
          sendableSats view pending marks) ∧
      (view.toLedger.Kept → OwnRows pending →
        ∀ p ∈ pending, ∀ op, p.changeOutpoint = some op → p.changeValueSats ≠ 0 →
        op ∉ reservedOutpoints pending → op ∉ marks.heldSet → view.holds op = false →
        timesCounted view pending marks op = 1 ∧
          ∀ (C : Crypto) scripts txs height chain, Creates C scripts txs op chain →
            chain ≠ chainHandover → chain ≠ chainLegacy → view.pendingSpends[op]? = none →
            timesCounted (view.applyTxs C scripts txs height) pending marks op = 1 ∧
            timesCounted (settlePending (view.applyTxs C scripts txs height) pending).1
              (settlePending (view.applyTxs C scripts txs height) pending).2 marks op = 1 ∧
            p ∉ (settlePending (view.applyTxs C scripts txs height) pending).2) := by
  refine ⟨fun dest rate => ⟨?_, ?_, ?_⟩, ?_⟩
  · rw [sendableSats_eq_sum fits, gatherSpendable_eq signable, map_map]
    rfl
  · rw [sendableSats_eq_sum fits, totalSats_maxSendable signable fits]
  · rw [sendableSats_eq_sum fits, spendable_coinRows]
  · intro kept rows p member op change worth unreserved free unmet
    refine ⟨timesCounted_pending rows member change worth unreserved free unmet, ?_⟩
    intro C scripts txs height chain creates isCoin ours unremembered
    have held : OpenCoin (view.applyTxs C scripts txs height) op :=
      openCoin_applyTxs creates isCoin ours unmet unremembered
    have keptAfter : (view.applyTxs C scripts txs height).toLedger.Kept :=
      kept.applyTxs txs height
    refine ⟨timesCounted_held keptAfter unreserved free held, ?_, ?_⟩
    · apply timesCounted_held keptAfter _ free held
      intro reserved
      obtain ⟨q, left, spends⟩ := mem_flatMap.mp reserved
      exact unreserved (mem_flatMap.mpr ⟨q, (mem_settlePending.mp left).1, spends⟩)
    · intro left
      apply (mem_settlePending.mp left).2.1
      obtain ⟨u, inside, same, _⟩ := held
      rw [Tier2View.confirmedTxids, Tier2View.mem_txids_deriveHistory,
        ← rows.own p member op change, ← same]
      exact Tier2View.txid_mem_historyTxids inside

/-! ### A send and its change -/

def oneCoin : Tier2View :=
  Tier2View.ledgerRun Segment.plainCrypto
    [.block Segment.plainScripts [Segment.payment 10 50 1] 1]

theorem signable_oneCoin : Signable oneCoin := by
  apply signable_ledgerRun
  intro step member
  rw [mem_singleton.mp member]
  intro e inNet
  rw [mem_singleton.mp inNet]
  exact mem_cons_self

theorem ownRows_ownSend : OwnRows [ownSend] where
  distinct := nodup_singleton _
  own := by
    intro p member op change
    rw [mem_singleton.mp member] at change ⊢
    cases change
    rfl

/-- The block of the send pays its change and spends only the coin. -/
theorem creates_ownSend :
    Creates Segment.plainCrypto Segment.plainScripts [Segment.payment 11 40 10] ⟨11, 0⟩
      chainReceive where
  creates := ⟨_, mem_cons_self, _, mem_cons_self, rfl⟩
  owner := by
    intro tx inBlock paid inTx _
    rw [mem_singleton.mp inBlock] at inTx
    rw [mem_singleton.mp inTx]
    exact ⟨0, rfl⟩
  unspent := by decide +kernel

theorem surfaces_agree_ownSend :
    sendableSats oneCoin [ownSend] .empty =
        ((gatherSpendable oneCoin [ownSend] CoinMarks.empty.heldSet).map
          SpendableUtxo.valueSats).sum ∧
      timesCounted oneCoin [ownSend] .empty ⟨11, 0⟩ = 1 ∧
      timesCounted (oneCoin.applyTxs Segment.plainCrypto Segment.plainScripts
        [Segment.payment 11 40 10] 2) [ownSend] .empty ⟨11, 0⟩ = 1 := by
  have fits : TotalsFit oneCoin [ownSend] := by
    rw [TotalsFit]
    decide +kernel
  have kept : oneCoin.toLedger.Kept := Tier2View.kept_ledgerRun Segment.plainCrypto _
  have agree := surfaces_agree toyWallet oneCoin [ownSend] .empty signable_oneCoin fits
  have once := agree.2 kept ownRows_ownSend ownSend mem_cons_self ⟨11, 0⟩ rfl (by decide)
    (by decide +kernel)
    (by decide +kernel) (by decide +kernel)
  refine ⟨(agree.1 "" 250).1, once.1, ?_⟩
  exact (once.2 Segment.plainCrypto Segment.plainScripts [Segment.payment 11 40 10] 2 chainReceive
    creates_ownSend (by decide) (by decide) (by decide +kernel)).1

/-- A silent payment without its tweak counts in the summary and cannot be sent. -/
theorem surfaces_differ :
    sendableSats { Tier2View.empty with utxos :=
        [⟨chainSp, 0, 10, 0, 50, 1, none, none, none, none⟩] } [] .empty = 50 ∧
      gatherSpendable { Tier2View.empty with utxos :=
        [⟨chainSp, 0, 10, 0, 50, 1, none, none, none, none⟩] } [] CoinMarks.empty.heldSet = [] := by
  decide +kernel

end Lij.OnchainSend
