import Lij.Tier2.Facts
import Lij.Tier2.Reorg

/-!
# The ledger stays well formed

Four functions write coins and marks: a block applied by the walk, a spend looked up for one
coin, a silent payment found by the scan, and a rollback. Whatever their order, no outpoint is
held twice and a mark has both its height and its transaction. Silent-payment coins bypass the
remembered spends and a block is applied at any height, so the rest depends on the blocks: a
block must fit the view, as blocks of one chain do.
-/

namespace Lij.Tier2

open Bitcoin Folds List

/-- What a found silent payment brings to the ledger. -/
structure FoundCoin where
  txid : Txid
  vout : Nat
  valueSats : Nat
  tk : BitVec 256
  k : Nat
  label : Option Nat
  deriving DecidableEq, Repr

def FoundCoin.outpoint (f : FoundCoin) : OutPoint := ⟨f.txid, f.vout⟩

def FoundCoin.coin (f : FoundCoin) (height : Nat) : OnchainUtxo :=
  { chain := chainSp, index := f.k, txid := f.txid, vout := f.vout, valueSats := f.valueSats
    height, spentHeight := none, spentTxid := none, spTweak := some f.tk, spLabel := f.label }

namespace Ledger

/-- A found coin, unless its outpoint is known. -/
def addCoin (l : Ledger) (f : FoundCoin) (height : Nat) : Ledger :=
  if l.holds f.outpoint then l else { l with utxos := l.utxos ++ [f.coin height] }

/-! ## What every step keeps -/

/-- No outpoint is held twice, and a mark is whole. -/
structure Kept (l : Ledger) : Prop where
  distinct : (l.utxos.map OnchainUtxo.outpoint).Nodup
  together : ∀ u ∈ l.utxos, u.spentHeight.isSome = u.spentTxid.isSome

variable {C : Crypto} {scripts : WalletScripts} {l : Ledger} {h : Nat} {txid : Txid}

theorem outpoints_markSpent (op : OutPoint) (utxos : List OnchainUtxo) :
    (utxos.map (markSpent op txid h)).map OnchainUtxo.outpoint =
      utxos.map OnchainUtxo.outpoint := by
  rw [map_map]
  exact map_congr_left fun u _ => outpoint_markSpent u

theorem Kept.markSpent (kept : l.Kept) (op : OutPoint) (txid : Txid) (h : Nat)
    {l' : Ledger} (coins : l'.utxos = l.utxos.map (markSpent op txid h)) : l'.Kept where
  distinct := by
    rw [coins, outpoints_markSpent]
    exact kept.distinct
  together := by
    intro u member
    rw [coins] at member
    obtain ⟨before, inside, rfl⟩ := mem_map.mp member
    rw [Ledger.markSpent]
    split_ifs
    · rfl
    · exact kept.together before inside

theorem Kept.push (kept : l.Kept) {coin : OnchainUtxo} (fresh : l.holds coin.outpoint = false)
    (whole : coin.spentHeight.isSome = coin.spentTxid.isSome) {l' : Ledger}
    (coins : l'.utxos = l.utxos ++ [coin]) : l'.Kept where
  distinct := by
    rw [coins, map_append, map_singleton]
    apply nodup_append.mpr ⟨kept.distinct, nodup_singleton _, ?_⟩
    intro op known op' new
    obtain ⟨u, member, rfl⟩ := mem_map.mp known
    rw [mem_singleton.mp new]
    exact holds_eq_false_iff.mp fresh u member
  together := by
    intro u member
    rw [coins] at member
    obtain old | new := mem_append.mp member
    · exact kept.together u old
    · rw [mem_singleton.mp new]
      exact whole

theorem Kept.congr (kept : l.Kept) {l' : Ledger} (coins : l'.utxos = l.utxos) : l'.Kept :=
  ⟨coins ▸ kept.distinct, coins ▸ kept.together⟩

theorem Kept.receiveOutput (kept : l.Kept) (paid : OutPoint × TxOut) :
    (l.receiveOutput scripts h paid).Kept := by
  obtain ⟨_, coins, _⟩ | ⟨_, same⟩ | ⟨missing, r, _, coins, _⟩ :=
    receiveOutput_cases l scripts h paid
  · exact kept.congr coins
  · rw [same]
    exact kept
  · apply kept.push (by exact missing) _ coins
    rw [Receipt.coin, newCoin]
    cases l.pendingSpends[paid.1]? <;> rfl

/-- What every input and every output of a transaction keeps, the transaction keeps. -/
theorem applyTx_invariant {I : Ledger → Prop} {tx : Transaction} (start : I l)
    (inputs : ∀ l, ∀ input ∈ tx.input, I l → I (l.spendInput C scripts (C.computeTxid tx) h input))
    (outputs : ∀ l, ∀ paid ∈ outputsOf C tx, I l → I (l.receiveOutput scripts h paid)) :
    I (l.applyTx C scripts h tx) :=
  foldl_invariant (foldl_invariant start inputs) outputs

theorem applyTxs_invariant {I : Ledger → Prop} {txs : List Transaction} (start : I l)
    (inputs : ∀ l, ∀ tx ∈ txs, ∀ input ∈ tx.input, I l →
      I (l.spendInput C scripts (C.computeTxid tx) h input))
    (outputs : ∀ l, ∀ tx ∈ txs, ∀ paid ∈ outputsOf C tx, I l →
      I (l.receiveOutput scripts h paid)) :
    I (l.applyTxs C scripts txs h) := by
  apply foldl_invariant start
  intro l tx member holds
  exact applyTx_invariant holds (fun l => inputs l tx member) (fun l => outputs l tx member)

theorem Kept.applyTxs (kept : l.Kept) (txs : List Transaction) (h : Nat) :
    (l.applyTxs C scripts txs h).Kept := by
  apply applyTxs_invariant kept
  · intro l tx _ input _ kept
    exact kept.markSpent input.previousOutput (C.computeTxid tx) h rfl
  · intro l tx _ paid _ kept
    exact kept.receiveOutput paid

theorem Kept.addCoin (kept : l.Kept) (f : FoundCoin) (h : Nat) : (l.addCoin f h).Kept := by
  rw [Ledger.addCoin]
  split_ifs with known
  · exact kept
  · exact kept.push (by exact Bool.eq_false_iff.mpr known) rfl rfl

theorem outpoint_unspendAbove (t : Nat) (u : OnchainUtxo) :
    (unspendAbove t u).outpoint = u.outpoint := by
  unfold unspendAbove
  split
  · split_ifs <;> rfl
  · rfl

theorem Kept.rollback (kept : l.Kept) (t : Nat) : (l.rollback t).Kept where
  distinct := by
    have same : ((l.rollback t).utxos).map OnchainUtxo.outpoint =
        (l.utxos.filter fun u => u.height ≤ t).map OnchainUtxo.outpoint := by
      rw [Ledger.rollback, map_map]
      exact map_congr_left fun u _ => outpoint_unspendAbove t u
    rw [same]
    exact kept.distinct.sublist (filter_sublist.map _)
  together := by
    intro u member
    obtain ⟨before, inside, rfl⟩ := mem_map.mp member
    have whole := kept.together before (mem_filter.mp inside).1
    unfold unspendAbove
    split
    · split_ifs
      · rfl
      · exact whole
    · exact whole

/-! ## What blocks that fit keep -/

/-- No remembered spend is of a coin that is held. -/
def Apart (l : Ledger) : Prop := ∀ u ∈ l.utxos, l.pendingSpends[u.outpoint]? = none

/-- No coin was spent below its block. -/
def NotBelow (l : Ledger) : Prop :=
  ∀ u ∈ l.utxos, ∀ sh, u.spentHeight = some sh → u.height ≤ sh

/-- A block at this height that spends `X` and creates `Y` fits: it spends no coin of a higher
block and creates none whose spend was seen in a lower one. -/
structure Fits (X Y : Set OutPoint) (h : Nat) (l : Ledger) : Prop where
  spends : ∀ u ∈ l.utxos, u.outpoint ∈ X → u.height ≤ h
  pays : ∀ op ∈ Y, ∀ spend : Txid × Nat, l.pendingSpends[op]? = some spend → h ≤ spend.2

theorem notBelow_markSpent {op : OutPoint} {u : OnchainUtxo}
    (low : u.outpoint = op → u.height ≤ h)
    (before : ∀ sh, u.spentHeight = some sh → u.height ≤ sh) (sh : Nat)
    (marked : (markSpent op txid h u).spentHeight = some sh) :
    (markSpent op txid h u).height ≤ sh := by
  rw [height_markSpent]
  unfold markSpent at marked
  split_ifs at marked with spends
  · rw [← Option.some.inj marked]
    exact low spends.2
  · exact before sh marked

variable {X Y : Set OutPoint}

theorem Apart.spendInput (apart : l.Apart) (input : TxIn) :
    (l.spendInput C scripts txid h input).Apart := by
  intro u member
  obtain ⟨before, inside, rfl⟩ := mem_map.mp member
  rw [outpoint_markSpent]
  by_contra remembered
  obtain ⟨spend, found⟩ := Option.ne_none_iff_exists'.mp remembered
  unfold Ledger.spendInput at found
  dsimp only at found
  split_ifs at found with missing
  · rw [Maps.ext_getElem?_insert] at found
    split_ifs at found with same
    · exact holds_eq_false_iff.mp (Bool.eq_false_iff.mpr missing.1) before inside same.symm
    · rw [apart before inside] at found
      cases found
  · rw [apart before inside] at found
    cases found

theorem NotBelow.spendInput (notBelow : l.NotBelow) (fits : l.Fits X Y h) {input : TxIn}
    (spent : input.previousOutput ∈ X) : (l.spendInput C scripts txid h input).NotBelow := by
  intro u member
  obtain ⟨before, inside, rfl⟩ := mem_map.mp member
  apply notBelow_markSpent _ (notBelow before inside)
  intro same
  exact fits.spends before inside (same ▸ spent)

theorem Fits.spendInput (fits : l.Fits X Y h) (input : TxIn) :
    (l.spendInput C scripts txid h input).Fits X Y h where
  spends := by
    intro u member
    obtain ⟨before, inside, rfl⟩ := mem_map.mp member
    rw [outpoint_markSpent, height_markSpent]
    exact fits.spends before inside
  pays := by
    intro op created spend found
    obtain old | ⟨_, _, rfl⟩ := pending_of_spendInput found
    · exact fits.pays op created spend old
    · exact Nat.le_refl h

variable {paid : OutPoint × TxOut}

theorem Apart.receiveOutput (apart : l.Apart) (paid : OutPoint × TxOut) :
    (l.receiveOutput scripts h paid).Apart := by
  obtain ⟨_, coins, pending⟩ | ⟨_, same⟩ | ⟨missing, r, isReceipt, coins, pending⟩ :=
    receiveOutput_cases l scripts h paid
  · rw [Apart, coins, pending]
    exact apart
  · rw [same]
    exact apart
  · intro u member
    rw [coins] at member
    rw [pending, Maps.ext_getElem?_erase]
    split_ifs with new
    · rfl
    · obtain old | isNew := mem_append.mp member
      · exact apart u old
      · rw [mem_singleton.mp isNew] at new
        exact absurd rfl new

theorem NotBelow.receiveOutput (notBelow : l.NotBelow) (fits : l.Fits X Y h)
    (created : paid.1 ∈ Y) : (l.receiveOutput scripts h paid).NotBelow := by
  obtain ⟨_, coins, _⟩ | ⟨_, same⟩ | ⟨missing, r, isReceipt, coins, _⟩ :=
    receiveOutput_cases l scripts h paid
  · rw [NotBelow, coins]
    exact notBelow
  · rw [same]
    exact notBelow
  · intro u member sh marked
    rw [coins] at member
    obtain old | isNew := mem_append.mp member
    · exact notBelow u old sh marked
    · rw [mem_singleton.mp isNew] at marked ⊢
      obtain ⟨spend, found, rfl⟩ := Option.map_eq_some_iff.mp marked
      have height := (Segment.receiptOf_eq_some isReceipt).2.1
      exact (Nat.le_of_eq height).trans (fits.pays paid.1 created spend found)

theorem Fits.receiveOutput (fits : l.Fits X Y h) (paid : OutPoint × TxOut) :
    (l.receiveOutput scripts h paid).Fits X Y h where
  spends := by
    intro u member spent
    obtain old | ⟨chain, index, rfl⟩ := mem_utxos_receiveOutput member
    · exact fits.spends u old spent
    · exact Nat.le_refl h
  pays := by
    intro op created spend found
    exact fits.pays op created spend (pending_of_receiveOutput found)

/-- The outpoints a block spends and the ones it creates. -/
def blockSpends (txs : List Transaction) : Set OutPoint :=
  {op | ∃ tx ∈ txs, ∃ input ∈ tx.input, input.previousOutput = op}

def blockPays (C : Crypto) (txs : List Transaction) : Set OutPoint :=
  {op | ∃ tx ∈ txs, ∃ paid ∈ outputsOf C tx, paid.1 = op}

theorem Apart.applyTxs (apart : l.Apart) (txs : List Transaction) (h : Nat) :
    (l.applyTxs C scripts txs h).Apart := by
  apply applyTxs_invariant apart
  · intro l tx _ input _ apart
    exact apart.spendInput input
  · intro l tx _ paid _ apart
    exact apart.receiveOutput paid

theorem NotBelow.applyTxs (notBelow : l.NotBelow) {txs : List Transaction}
    (fits : l.Fits (blockSpends txs) (blockPays C txs) h) :
    (l.applyTxs C scripts txs h).NotBelow := by
  have both : (l.applyTxs C scripts txs h).NotBelow ∧
      (l.applyTxs C scripts txs h).Fits (blockSpends txs) (blockPays C txs) h := by
    apply applyTxs_invariant (I := fun l : Ledger => l.NotBelow ∧
      l.Fits (blockSpends txs) (blockPays C txs) h) ⟨notBelow, fits⟩
    · intro l tx inBlock input inTx both
      exact ⟨both.1.spendInput both.2 ⟨tx, inBlock, input, inTx, rfl⟩, both.2.spendInput input⟩
    · intro l tx inBlock paid inTx both
      exact ⟨both.1.receiveOutput both.2 ⟨tx, inBlock, paid, inTx, rfl⟩,
        both.2.receiveOutput paid⟩
  exact both.1

theorem Apart.addCoin (apart : l.Apart) {f : FoundCoin}
    (unspent : l.pendingSpends[f.outpoint]? = none) (h : Nat) : (l.addCoin f h).Apart := by
  rw [Ledger.addCoin]
  split_ifs with known
  · exact apart
  · intro u member
    obtain old | new := mem_append.mp member
    · exact apart u old
    · rw [mem_singleton.mp new]
      exact unspent

theorem NotBelow.addCoin (notBelow : l.NotBelow) (f : FoundCoin) (h : Nat) :
    (l.addCoin f h).NotBelow := by
  rw [Ledger.addCoin]
  split_ifs with known
  · exact notBelow
  · intro u member sh marked
    obtain old | new := mem_append.mp member
    · exact notBelow u old sh marked
    · rw [mem_singleton.mp new] at marked
      cases marked

theorem Apart.rollback (apart : l.Apart) (t : Nat) : (l.rollback t).Apart := by
  intro u member
  obtain ⟨before, inside, rfl⟩ := mem_map.mp member
  have none := apart before (mem_filter.mp inside).1
  rw [outpoint_unspendAbove, Ledger.rollback, Std.ExtTreeMap.getElem?_filter', none]
  rfl

theorem NotBelow.rollback (notBelow : l.NotBelow) (t : Nat) : (l.rollback t).NotBelow := by
  intro u member sh marked
  obtain ⟨before, inside, rfl⟩ := mem_map.mp member
  have low := notBelow before (mem_filter.mp inside).1
  unfold unspendAbove at marked ⊢
  split at marked
  · split_ifs at marked ⊢
    exact low sh marked
  · exact low sh marked

/-! ## Reading a block again -/

/-- The ledger has taken what an input does to it. -/
structure InputTaken (C : Crypto) (scripts : WalletScripts) (h : Nat) (txid : Txid) (input : TxIn)
    (l : Ledger) : Prop where
  coins : ∀ u ∈ l.utxos, u.outpoint = input.previousOutput → u.spentHeight ≠ none
  events : ∀ e ∈ l.handover, e.outpoint = input.previousOutput → e.spentTxid ≠ none
  remembered : l.holds input.previousOutput = false →
    witnessPaysUs C scripts input.witness = true →
      l.pendingSpends[input.previousOutput]? = some (txid, h)

/-- The ledger has taken what an output does to it. -/
structure OutputTaken (scripts : WalletScripts) (paid : OutPoint × TxOut) (l : Ledger) : Prop where
  event : ∀ index, scripts.ownerOf paid.2.scriptPubkey = some (chainHandover, index) →
    (l.handover.any fun e => e.outpoint = paid.1) = true
  coin : ∀ chain index, scripts.ownerOf paid.2.scriptPubkey = some (chain, index) →
    chain ≠ chainHandover → l.holds paid.1 = true

theorem map_eq_self {α : Type} {f : α → α} {xs : List α} (same : ∀ x ∈ xs, f x = x) :
    xs.map f = xs := by
  rw [map_congr_left same, map_id']

theorem InputTaken.spendInput_eq {input : TxIn}
    (taken : l.InputTaken C scripts h txid input) : l.spendInput C scripts txid h input = l := by
  have coins : l.utxos.map (markSpent input.previousOutput txid h) = l.utxos := by
    apply map_eq_self
    intro u member
    exact if_neg fun spends => taken.coins u member spends.2 spends.1
  have events : l.handover.map (noteHandoverSpend input.previousOutput txid h input.witness) =
      l.handover := by
    apply map_eq_self
    intro e member
    exact if_neg fun spends => taken.events e member spends.2 spends.1
  have pending : (if ¬l.holds input.previousOutput ∧ witnessPaysUs C scripts input.witness then
      l.pendingSpends.insert input.previousOutput (txid, h) else l.pendingSpends) =
      l.pendingSpends := by
    split_ifs with missing
    · have known := taken.remembered (Bool.eq_false_iff.mpr missing.1) missing.2
      apply Std.ExtTreeMap.ext_getElem?
      intro op
      rw [Maps.ext_getElem?_insert]
      split_ifs with same
      · rw [← same, known]
      · rfl
    · rfl
  rw [Ledger.spendInput, coins, events, pending]

theorem OutputTaken.receiveOutput_eq (taken : l.OutputTaken scripts paid) :
    l.receiveOutput scripts h paid = l := by
  unfold receiveOutput
  cases owner : scripts.ownerOf paid.2.scriptPubkey with
  | none => rfl
  | some place =>
    obtain ⟨chain, index⟩ := place
    by_cases handover : chain = chainHandover
    · subst handover
      simp only [if_true, taken.event index owner]
    · simp only [if_neg handover, taken.coin chain index owner handover, if_true]

theorem holds_spendInput (l : Ledger) (input : TxIn) (op : OutPoint) :
    (l.spendInput C scripts txid h input).holds op = l.holds op :=
  holds_mark

/-- An input is taken once it was applied. -/
theorem inputTaken_spendInput (l : Ledger) (input : TxIn) :
    (l.spendInput C scripts txid h input).InputTaken C scripts h txid input where
  coins := by
    intro u member
    obtain ⟨before, inside, rfl⟩ := mem_map.mp member
    intro spends unmarked
    obtain ⟨same, other⟩ := markSpent_open unmarked
    rw [same] at spends
    exact other spends
  events := by
    intro e member
    obtain ⟨before, inside, rfl⟩ := mem_map.mp member
    unfold noteHandoverSpend
    split_ifs with spends
    · intro _ impossible
      cases impossible
    · intro same unmarked
      exact spends ⟨unmarked, same⟩
  remembered := by
    intro missing pays
    have before : l.holds input.previousOutput = false := by
      rw [← holds_spendInput]
      exact missing
    have inserted : ¬l.holds input.previousOutput ∧ witnessPaysUs C scripts input.witness :=
      ⟨Bool.eq_false_iff.mp before, pays⟩
    rw [Ledger.spendInput]
    dsimp only
    rw [if_pos inserted, Maps.ext_getElem?_insert, if_pos rfl]

/-- It stays taken when another outpoint is spent. -/
theorem InputTaken.spendInput {input other : TxIn} {txid' : Txid} {h' : Nat}
    (taken : l.InputTaken C scripts h txid input)
    (apart : other.previousOutput ≠ input.previousOutput) :
    (l.spendInput C scripts txid' h' other).InputTaken C scripts h txid input where
  coins := by
    intro u member
    obtain ⟨before, inside, rfl⟩ := mem_map.mp member
    intro spends unmarked
    obtain ⟨same, _⟩ := markSpent_open unmarked
    rw [same] at spends unmarked
    exact taken.coins before inside spends unmarked
  events := by
    intro e member
    obtain ⟨before, inside, rfl⟩ := mem_map.mp member
    unfold noteHandoverSpend
    split_ifs with spends
    · intro _ impossible
      cases impossible
    · exact taken.events before inside
  remembered := by
    intro missing pays
    rw [holds_spendInput] at missing
    have known := taken.remembered missing pays
    rw [Ledger.spendInput]
    dsimp only
    split_ifs
    · rw [Maps.ext_getElem?_insert, if_neg apart]
      exact known
    · exact known

/-- It stays taken when another outpoint is created. -/
theorem InputTaken.receiveOutput {input : TxIn} {h' : Nat}
    (taken : l.InputTaken C scripts h txid input) (apart : paid.1 ≠ input.previousOutput) :
    (l.receiveOutput scripts h' paid).InputTaken C scripts h txid input where
  coins := by
    intro u member spends
    obtain old | ⟨chain, index, rfl⟩ := mem_utxos_receiveOutput member
    · exact taken.coins u old spends
    · exact absurd spends apart
  events := by
    intro e member spends
    obtain old | ⟨index, rfl⟩ := mem_handover_receiveOutput member
    · exact taken.events e old spends
    · exact absurd spends apart
  remembered := by
    intro missing pays
    obtain ⟨_, coins, pending⟩ | ⟨_, same⟩ | ⟨_, r, _, coins, pending⟩ :=
      receiveOutput_cases l scripts h' paid
    · rw [pending]
      apply taken.remembered _ pays
      rw [← missing, holds, holds, coins]
    · rw [same] at missing ⊢
      exact taken.remembered missing pays
    · rw [pending, Maps.ext_getElem?_erase, if_neg apart]
      apply taken.remembered _ pays
      apply holds_eq_false_iff.mpr
      intro u member
      apply holds_eq_false_iff.mp missing u
      rw [coins]
      exact mem_append_left _ member

theorem OutputTaken.of_more {l' : Ledger} (taken : l.OutputTaken scripts paid)
    (events : (l.handover.any fun e => e.outpoint = paid.1) = true →
      (l'.handover.any fun e => e.outpoint = paid.1) = true)
    (coins : l.holds paid.1 = true → l'.holds paid.1 = true) : l'.OutputTaken scripts paid :=
  ⟨fun index owner => events (taken.event index owner),
    fun chain index owner other => coins (taken.coin chain index owner other)⟩

theorem OutputTaken.spendInput {h' : Nat} (taken : l.OutputTaken scripts paid) (input : TxIn) :
    (l.spendInput C scripts txid h' input).OutputTaken scripts paid := by
  apply taken.of_more
  · intro known
    obtain ⟨e, member, same⟩ := any_eq_true.mp known
    apply any_eq_true.mpr
    refine ⟨_, mem_map_of_mem member, ?_⟩
    rw [noteHandoverSpend]
    split_ifs <;> exact same
  · intro known
    rw [holds_spendInput]
    exact known

theorem OutputTaken.receiveOutput {paid other : OutPoint × TxOut} {h' : Nat}
    (taken : l.OutputTaken scripts paid) :
    (l.receiveOutput scripts h' other).OutputTaken scripts paid := by
  apply taken.of_more
  · intro known
    unfold Ledger.receiveOutput
    split
    · exact known
    · split_ifs
      · exact known
      · rw [any_append, known, Bool.true_or]
      · exact known
      · exact known
  · intro known
    obtain ⟨_, coins, _⟩ | ⟨_, same⟩ | ⟨_, r, _, coins, _⟩ :=
      receiveOutput_cases l scripts h' other
    · rw [holds, coins]
      exact known
    · rw [same]
      exact known
    · rw [holds, coins, any_append]
      exact (Bool.or_eq_true _ _).mpr (.inl known)

/-- An output is taken once it was applied. -/
theorem outputTaken_receiveOutput (l : Ledger) (paid : OutPoint × TxOut) :
    (l.receiveOutput scripts h paid).OutputTaken scripts paid where
  event := by
    intro index owner
    rw [Ledger.receiveOutput, owner]
    simp only [if_true]
    split_ifs with known
    · exact known
    · rw [any_append]
      simp [newEvent, HandoverEvent.outpoint]
  coin := by
    intro chain index owner other
    rw [Ledger.receiveOutput, owner]
    simp only [if_neg other]
    split_ifs with known
    · exact known
    · rw [holds, any_append]
      simp [newCoin, OnchainUtxo.outpoint]

/-- The ledger has taken what a transaction does to it. -/
def TxTaken (C : Crypto) (scripts : WalletScripts) (h : Nat) (tx : Transaction) (l : Ledger) :
    Prop :=
  (∀ input ∈ tx.input, l.InputTaken C scripts h (C.computeTxid tx) input) ∧
    ∀ paid ∈ outputsOf C tx, l.OutputTaken scripts paid

/-- Every output of a transaction is taken once the transaction was applied. -/
theorem outputsTaken_applyTx (l : Ledger) (tx : Transaction) :
    ∀ paid ∈ outputsOf C tx, (l.applyTx C scripts h tx).OutputTaken scripts paid :=
  foldl_each (P := OutputTaken scripts) _ (fun paid _ l => outputTaken_receiveOutput l paid)
    (pairwise_of_forall fun _ _ _ taken => taken.receiveOutput)

theorem OutputTaken.applyTx (taken : l.OutputTaken scripts paid) (tx : Transaction) :
    (l.applyTx C scripts h tx).OutputTaken scripts paid := by
  apply applyTx_invariant taken
  · intro l input _ taken
    exact taken.spendInput input
  · intro l other _ taken
    exact taken.receiveOutput

theorem outputsTaken_applyTxs (l : Ledger) (txs : List Transaction) :
    ∀ tx ∈ txs, ∀ paid ∈ outputsOf C tx,
      (l.applyTxs C scripts txs h).OutputTaken scripts paid :=
  foldl_each (P := fun tx (l : Ledger) => ∀ paid ∈ outputsOf C tx, l.OutputTaken scripts paid) l
    (fun tx _ l => outputsTaken_applyTx l tx)
    (pairwise_of_forall fun _ next _ taken paid inside => (taken paid inside).applyTx next)

theorem TxTaken.applyTx_eq {tx : Transaction} (taken : l.TxTaken C scripts h tx) :
    l.applyTx C scripts h tx = l := by
  have inputs : tx.input.foldl (Ledger.spendInput C scripts (C.computeTxid tx) h) l = l :=
    foldl_eq_self fun input member => (taken.1 input member).spendInput_eq
  rw [applyTx, inputs]
  exact foldl_eq_self fun paid member => (taken.2 paid member).receiveOutput_eq

/-- A block that a chain can hold: no outpoint is spent twice in it, and none before it was
created. -/
structure BlockOrdered (C : Crypto) (txs : List Transaction) : Prop where
  once : ((txs.flatMap Transaction.input).map TxIn.previousOutput).Nodup
  own : ∀ tx ∈ txs, ∀ input ∈ tx.input, ∀ paid ∈ outputsOf C tx, paid.1 ≠ input.previousOutput
  later : txs.Pairwise fun tx next =>
    ∀ input ∈ tx.input, ∀ paid ∈ outputsOf C next, paid.1 ≠ input.previousOutput

theorem txTaken_applyTx (l : Ledger) {tx : Transaction}
    (once : (tx.input.map TxIn.previousOutput).Nodup)
    (own : ∀ input ∈ tx.input, ∀ paid ∈ outputsOf C tx, paid.1 ≠ input.previousOutput) :
    (l.applyTx C scripts h tx).TxTaken C scripts h tx := by
  have inputs : ∀ input ∈ tx.input,
      (tx.input.foldl (Ledger.spendInput C scripts (C.computeTxid tx) h) l).InputTaken C scripts h
        (C.computeTxid tx) input :=
    foldl_each l (fun input _ l => inputTaken_spendInput l input)
      ((pairwise_map.mp once).imp fun apart _ taken => taken.spendInput apart.symm)
  refine ⟨?_, outputsTaken_applyTx l tx⟩
  apply foldl_invariant (I := fun l : Ledger =>
    ∀ input ∈ tx.input, l.InputTaken C scripts h (C.computeTxid tx) input) inputs
  intro l paid isOutput taken input member
  exact (taken input member).receiveOutput (own input member paid isOutput)

theorem TxTaken.applyTx {tx next : Transaction} (taken : l.TxTaken C scripts h tx)
    (spends : ∀ input ∈ tx.input, ∀ other ∈ next.input,
      other.previousOutput ≠ input.previousOutput)
    (pays : ∀ input ∈ tx.input, ∀ paid ∈ outputsOf C next, paid.1 ≠ input.previousOutput) :
    (l.applyTx C scripts h next).TxTaken C scripts h tx := by
  apply applyTx_invariant (I := TxTaken C scripts h tx) taken
  · intro l other member taken
    exact ⟨fun input inside => (taken.1 input inside).spendInput (spends input inside other member),
      fun paid inside => (taken.2 paid inside).spendInput other⟩
  · intro l paid member taken
    exact ⟨fun input inside => (taken.1 input inside).receiveOutput (pays input inside paid member),
      fun _ inside => (taken.2 _ inside).receiveOutput⟩

/-- A block that was just applied changes nothing when it is applied again. -/
theorem applyTxs_again (l : Ledger) {txs : List Transaction} (ordered : BlockOrdered C txs) :
    (l.applyTxs C scripts txs h).applyTxs C scripts txs h = l.applyTxs C scripts txs h := by
  have taken : ∀ tx ∈ txs, (l.applyTxs C scripts txs h).TxTaken C scripts h tx := by
    have once := ordered.once
    rw [map_flatMap, nodup_flatMap] at once
    refine foldl_each (P := TxTaken C scripts h) l
      (fun tx isTx l => txTaken_applyTx l (once.1 tx isTx) (ordered.own tx isTx))
      ((once.2.and ordered.later).imp fun apart l taken => taken.applyTx ?_ apart.2)
    intro input inside other isInput same
    exact apart.1 (mem_map_of_mem inside) (mem_map.mpr ⟨other, isInput, same⟩)
  exact foldl_eq_self fun tx member => (taken tx member).applyTx_eq

end Ledger

/-! ### The used frontier -/

/-- The frontier has passed what an output uses. -/
def UseNoted (scripts : WalletScripts) (out : TxOut) (used : Std.ExtTreeMap Nat Nat) : Prop :=
  ∀ chain index, scripts.ownerOf out.scriptPubkey = some (chain, index) →
    chain ≠ chainHandover → ∃ next, used[chain]? = some next ∧ index + 1 ≤ next

variable {scripts : WalletScripts} {used : Std.ExtTreeMap Nat Nat}

/-- What noting an output does to the frontier. -/
theorem noteUsed_cases (scripts : WalletScripts) (used : Std.ExtTreeMap Nat Nat) (out : TxOut) :
    noteUsed scripts used out = used ∧
        (∀ chain index, scripts.ownerOf out.scriptPubkey = some (chain, index) →
          chain = chainHandover) ∨
      ∃ chain index, scripts.ownerOf out.scriptPubkey = some (chain, index) ∧
        noteUsed scripts used out =
          used.insert chain (max (used.getD chain 0) (index + 1)) := by
  unfold noteUsed
  cases owner : scripts.ownerOf out.scriptPubkey with
  | none => exact .inl ⟨rfl, fun _ _ known => by cases known⟩
  | some place =>
    obtain ⟨chain, index⟩ := place
    dsimp only
    split_ifs with isHandover
    · refine .inl ⟨rfl, ?_⟩
      rintro _ _ ⟨⟩
      exact isHandover
    · exact .inr ⟨chain, index, rfl, rfl⟩

theorem UseNoted.noteUsed {out : TxOut} (noted : UseNoted scripts out used) (next : TxOut) :
    UseNoted scripts out (noteUsed scripts used next) := by
  intro chain index owner other
  obtain ⟨before, known, passed⟩ := noted chain index owner other
  obtain ⟨same, _⟩ | ⟨moved, place, _, result⟩ := noteUsed_cases scripts used next
  · exact ⟨before, by rw [same, known], passed⟩
  · rw [result, Maps.ext_getElem?_insert]
    split_ifs with here
    · refine ⟨_, rfl, passed.trans ?_⟩
      rw [here, Std.ExtTreeMap.getD_eq_getD_getElem?, known]
      exact Nat.le_max_left _ _
    · exact ⟨before, known, passed⟩

theorem useNoted_noteUsed (used : Std.ExtTreeMap Nat Nat) (out : TxOut) :
    UseNoted scripts out (noteUsed scripts used out) := by
  intro chain index owner other
  obtain ⟨_, handover⟩ | ⟨moved, place, owned, result⟩ := noteUsed_cases scripts used out
  · exact absurd (handover chain index owner) other
  · rw [owned] at owner
    cases owner
    rw [result, Maps.ext_getElem?_insert, if_pos rfl]
    exact ⟨_, rfl, Nat.le_max_right _ _⟩

theorem UseNoted.noteUsed_eq {out : TxOut} (noted : UseNoted scripts out used) :
    Tier2.noteUsed scripts used out = used := by
  unfold Tier2.noteUsed
  cases owner : scripts.ownerOf out.scriptPubkey with
  | none => rfl
  | some place =>
    obtain ⟨chain, index⟩ := place
    dsimp only
    split_ifs with isHandover
    · rfl
    · obtain ⟨next, known, passed⟩ := noted chain index owner isHandover
      apply Std.ExtTreeMap.ext_getElem?
      intro key
      rw [Maps.ext_getElem?_insert]
      split_ifs with here
      · rw [← here, known, Std.ExtTreeMap.getD_eq_getD_getElem?, known, Option.getD_some,
          Nat.max_eq_left passed]
      · rfl

/-- Noting the outputs of a block again leaves the frontier where it is. -/
theorem noteUsed_again (used : Std.ExtTreeMap Nat Nat) (txs : List Transaction) :
    txs.foldl (fun used tx => tx.output.foldl (noteUsed scripts) used)
        (txs.foldl (fun used tx => tx.output.foldl (noteUsed scripts) used) used) =
      txs.foldl (fun used tx => tx.output.foldl (noteUsed scripts) used) used := by
  simp only [← foldl_flatMap]
  have noted : ∀ out ∈ txs.flatMap Transaction.output,
      UseNoted scripts out ((txs.flatMap Transaction.output).foldl (noteUsed scripts) used) :=
    foldl_each used (fun out _ used => useNoted_noteUsed used out)
      (pairwise_of_forall fun _ next _ noted => noted.noteUsed next)
  exact foldl_eq_self fun out member => (noted out member).noteUsed_eq

/-! ## Runs -/

/-- What writes coins and marks. -/
inductive LedgerStep where
  | block (scripts : WalletScripts) (txs : List Transaction) (height : Nat)
  | trSpend (op : OutPoint) (txs : List Transaction) (height : Nat)
  | found (coin : FoundCoin) (height : Nat)
  | rollback (toHeight : Nat)

namespace Tier2View

variable (C : Crypto)

def ledgerStep (view : Tier2View) : LedgerStep → Tier2View
  | .block scripts txs height => view.applyTxs C scripts txs height
  | .trSpend op txs height =>
    { view with toLedger := (applyTrSpend C view.toLedger op txs height).2 }
  | .found coin height => { view with toLedger := view.toLedger.addCoin coin height }
  | .rollback toHeight => view.rollback toHeight

/-- A step fits the heights of the view as blocks of one chain do: a block spends no coin of a
higher block and creates none that was seen spent in a lower one. -/
def StepFits (view : Tier2View) : LedgerStep → Prop
  | .block _ txs height =>
    view.toLedger.Fits (Ledger.blockSpends txs) (Ledger.blockPays C txs) height
  | .trSpend op _ height => ∀ u ∈ view.utxos, u.outpoint = op → u.height ≤ height
  | _ => True

/-- A silent payment that is found was not seen spent by one of the wallet's keys. -/
def FindsUnspent (view : Tier2View) (step : LedgerStep) : Prop :=
  ∀ coin height, step = .found coin height → view.pendingSpends[coin.outpoint]? = none

variable {C} {view : Tier2View}

theorem kept_ledgerStep (kept : view.toLedger.Kept) (step : LedgerStep) :
    (view.ledgerStep C step).toLedger.Kept := by
  cases step with
  | block scripts txs height => exact kept.applyTxs txs height
  | trSpend op txs height =>
    rw [ledgerStep, applyTrSpend]
    split
    · rename_i tx _
      exact kept.markSpent op (C.computeTxid tx) height rfl
    · exact kept
  | found coin height => exact kept.addCoin coin height
  | rollback toHeight => exact kept.rollback toHeight

theorem apart_ledgerStep (apart : view.toLedger.Apart) (step : LedgerStep)
    (unspent : view.FindsUnspent step) : (view.ledgerStep C step).toLedger.Apart := by
  cases step with
  | block scripts txs height => exact apart.applyTxs txs height
  | trSpend op txs height =>
    rw [ledgerStep, applyTrSpend]
    split
    · intro u member
      obtain ⟨before, inside, rfl⟩ := mem_map.mp member
      rw [Ledger.outpoint_markSpent]
      exact apart before inside
    · exact apart
  | found coin height => exact apart.addCoin (unspent coin height rfl) height
  | rollback toHeight => exact apart.rollback toHeight

theorem notBelow_ledgerStep (notBelow : view.toLedger.NotBelow) (step : LedgerStep)
    (fits : view.StepFits C step) : (view.ledgerStep C step).toLedger.NotBelow := by
  cases step with
  | block scripts txs height => exact notBelow.applyTxs fits
  | trSpend op txs height =>
    rw [ledgerStep, applyTrSpend]
    split
    · intro u member
      obtain ⟨before, inside, rfl⟩ := mem_map.mp member
      exact Ledger.notBelow_markSpent (fits before inside) (notBelow before inside)
    · exact notBelow
  | found coin height => exact notBelow.addCoin coin height
  | rollback toHeight => exact notBelow.rollback toHeight

theorem applyTxs_again (view : Tier2View) (scripts : WalletScripts) {txs : List Transaction}
    (height : Nat) (ordered : Ledger.BlockOrdered C txs) :
    (view.applyTxs C scripts txs height).applyTxs C scripts txs height =
      view.applyTxs C scripts txs height := by
  unfold applyTxs
  dsimp only
  rw [Ledger.applyTxs_again view.toLedger ordered, noteUsed_again]

variable (C) in
/-- The view after these steps, from an empty one. -/
def ledgerRun (steps : List LedgerStep) : Tier2View := steps.foldl (ledgerStep C) .empty

/-- In every run no outpoint is held twice and marks are whole. -/
theorem kept_ledgerRun (C : Crypto) (steps : List LedgerStep) :
    (ledgerRun C steps).toLedger.Kept := by
  apply foldl_invariant (I := fun view : Tier2View => view.toLedger.Kept)
  · exact ⟨nodup_nil, forall_mem_nil _⟩
  · intro view step _ kept
    exact kept_ledgerStep kept step

/-- In every run no outpoint is held twice and marks are whole. No remembered spend is of a coin
that is held when no silent payment is found spent, and no coin is spent below its own height when
every step fits the view it is taken on. A block that a chain can hold changes nothing the second
time. -/
theorem ledgerRun_wellFormed (C : Crypto) (steps : List LedgerStep) :
    (ledgerRun C steps).toLedger.Kept ∧
      (Meets (ledgerStep C) FindsUnspent .empty steps → (ledgerRun C steps).toLedger.Apart) ∧
      (Meets (ledgerStep C) (StepFits C) .empty steps → (ledgerRun C steps).toLedger.NotBelow) ∧
      ∀ scripts txs height, Ledger.BlockOrdered C txs →
        ((ledgerRun C steps).applyTxs C scripts txs height).applyTxs C scripts txs height =
          (ledgerRun C steps).applyTxs C scripts txs height := by
  refine ⟨kept_ledgerRun C steps, ?_, ?_, ?_⟩
  · intro unspent
    apply unspent.invariant (I := fun view : Tier2View => view.toLedger.Apart)
    · intro view step apart found
      exact apart_ledgerStep apart step found
    · exact forall_mem_nil _
  · intro fits
    apply fits.invariant (I := fun view : Tier2View => view.toLedger.NotBelow)
    · intro view step notBelow fit
      exact notBelow_ledgerStep notBelow step fit
    · exact forall_mem_nil _
  · intro scripts txs height ordered
    exact applyTxs_again _ scripts height ordered

/-! ### Three runs -/

/-- A payment, a silent payment, a spend looked up for the first, and a rollback. -/
def mixedSteps : List LedgerStep :=
  [.block Segment.plainScripts [Segment.payment 10 50 1] 1, .found ⟨20, 0, 30, 1, 0, none⟩ 2,
    .trSpend ⟨10, 0⟩ [Segment.payment 11 40 10] 3, .rollback 2]

theorem mixedSteps_fit :
    Meets (ledgerStep Segment.plainCrypto) (StepFits Segment.plainCrypto) .empty mixedSteps := by
  refine ⟨⟨forall_mem_nil _, ?_⟩, trivial, ?_, trivial, trivial⟩
  · intro op _ spend remembered
    cases (Std.ExtTreeMap.getElem?_empty (a := op)).symm.trans remembered
  · rw [StepFits]
    decide +kernel

theorem mixedSteps_unspent :
    Meets (ledgerStep Segment.plainCrypto) FindsUnspent .empty mixedSteps := by
  refine ⟨?_, ?_, ?_, ?_, trivial⟩ <;> rintro coin height ⟨⟩
  decide +kernel

theorem ledgerRun_wellFormed_mixed :
    (ledgerRun Segment.plainCrypto mixedSteps).toLedger.Kept ∧
      (ledgerRun Segment.plainCrypto mixedSteps).toLedger.Apart ∧
      (ledgerRun Segment.plainCrypto mixedSteps).toLedger.NotBelow :=
  have all := ledgerRun_wellFormed Segment.plainCrypto mixedSteps
  ⟨all.1, all.2.1 mixedSteps_unspent, all.2.2.1 mixedSteps_fit⟩

/-- A transaction that spends this outpoint with a key of the wallet. -/
def keyedSpend : Transaction :=
  ⟨2, 11, [⟨⟨20, 0⟩, [], 0, [[], replicate 33 7]⟩], []⟩

def keyedScripts : WalletScripts := ⟨[⟨0, 0, replicate 33 7⟩]⟩

/-- A block whose first transaction spends an output of its second. -/
def backwards : LedgerStep :=
  .block Segment.plainScripts [Segment.payment 11 40 10, Segment.payment 10 50 1] 5

/-- Blocks in any order can spend a coin below its block. A silent payment is added beside the
remembered spend of its outpoint. A block that spends an output before it creates it leaves the
coin open the first time and marks it the second time. -/
theorem ledgerRun_illFormed :
    (∃ u ∈ (ledgerRun Segment.plainCrypto
        [.block Segment.plainScripts [Segment.payment 10 50 1] 200,
          .block Segment.plainScripts [Segment.payment 11 40 10] 100]).utxos,
      u.height = 200 ∧ u.spentHeight = some 100) ∧
    (∃ u ∈ (ledgerRun Segment.plainCrypto
        [.block keyedScripts [keyedSpend] 100, .found ⟨20, 0, 30, 1, 0, none⟩ 90]).utxos,
      (ledgerRun Segment.plainCrypto
        [.block keyedScripts [keyedSpend] 100,
          .found ⟨20, 0, 30, 1, 0, none⟩ 90]).pendingSpends[u.outpoint]? = some (11, 100)) ∧
    (ledgerRun Segment.plainCrypto [backwards, backwards]).utxos ≠
      (ledgerRun Segment.plainCrypto [backwards]).utxos := by
  refine ⟨?_, ?_, ?_⟩
  · decide +kernel
  · decide +kernel
  · decide +kernel

end Tier2View

end Lij.Tier2
