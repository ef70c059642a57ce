import Lij.Tier2.WellFormed

/-!
# The history adds up

The rows are computed from the coins, one for each transaction that created or spent one. A coin
adds its value to the row of its creator and takes it from the row of its spender, so the rows'
amounts add up to the coins nobody spent. A row's two sums are 64-bit words read as signed ones:
the sum is exact as long as no transaction moves `2 ^ 63` satoshis of the wallet.
-/

namespace Lij.Tier2

open Bitcoin Folds List

namespace Tier2View

/-- One coin's value goes to the spendable figure or to the legacy one. -/
def addBalance (b : Nat × Nat) (u : OnchainUtxo) : Nat × Nat :=
  if u.chain = chainLegacy then (b.1, Word.saturatingAdd64 b.2 u.valueSats)
  else (Word.saturatingAdd64 b.1 u.valueSats, b.2)

/-- The spendable and the legacy balance, of the coins that are not spent. -/
def balances (view : Tier2View) : Nat × Nat :=
  (view.utxos.filter fun u => u.spentHeight.isNone).foldl addBalance (0, 0)

/-- What the coins that are not spent are worth. -/
def unspentSats (view : Tier2View) : Nat :=
  ((view.utxos.filter fun u => u.spentHeight.isNone).map OnchainUtxo.valueSats).sum

/-- Every transaction's coins fit a signed word, the ones it created and the ones it spent. -/
def AmountsFit (view : Tier2View) : Prop :=
  ∀ txid, ((view.coinsOf txid).map OnchainUtxo.valueSats).sum < 2 ^ 63 ∧
    ((view.spentBy txid).map OnchainUtxo.valueSats).sum < 2 ^ 63

variable {view : Tier2View}

/-- A view whose coins fit a signed word together, spent or not, has fitting amounts. -/
theorem amountsFit_of_total (small : (view.utxos.map OnchainUtxo.valueSats).sum < 2 ^ 63) :
    view.AmountsFit := by
  intro txid
  have part : ∀ keep : OnchainUtxo → Bool,
      ((view.utxos.filter keep).map OnchainUtxo.valueSats).sum < 2 ^ 63 := by
    intro keep
    have fewer := filter_sublist (l := view.utxos) (p := keep)
    exact (fewer.map _).sum_le_sum (fun _ _ => Nat.zero_le _) |>.trans_lt small
  exact ⟨part _, part _⟩

/-! ## The rows -/

theorem nodup_historyTxids (view : Tier2View) : view.historyTxids.Nodup := by
  apply nodup_append.mpr ⟨nodup_dedup _, (nodup_dedup _).filter _, ?_⟩
  rintro txid received _ spent rfl
  have new := (mem_filter.mp spent).2
  rw [contains_eq_mem, decide_eq_true received] at new
  cases new

theorem mem_historyTxids {txid : Txid} :
    txid ∈ view.historyTxids ↔
      ∃ u ∈ view.utxos, u.txid = txid ∨ u.spentHeight.isSome ∧ u.spentTxid = some txid := by
  simp only [historyTxids, mem_append, mem_dedup, mem_map, mem_filter,
    mem_filterMap, contains_eq_mem, Bool.not_eq_true', decide_eq_false_iff_not,
    Option.bind_eq_some_iff]
  constructor
  · rintro (⟨u, member, rfl⟩ | ⟨⟨u, member, height, marked, spender⟩, _⟩)
    · exact ⟨u, member, .inl rfl⟩
    · exact ⟨u, member, .inr ⟨by rw [marked]; rfl, spender⟩⟩
  · rintro ⟨u, member, rfl | ⟨marked, spender⟩⟩
    · exact .inl ⟨u, member, rfl⟩
    · by_cases received : ∃ v ∈ view.utxos, v.txid = txid
      · exact .inl received
      · obtain ⟨height, isHeight⟩ := Option.isSome_iff_exists.mp marked
        exact .inr ⟨⟨u, member, height, isHeight, spender⟩, received⟩

theorem txids_deriveHistory_perm (view : Tier2View) :
    (view.deriveHistory.map OnchainHistoryEntry.txid).Perm view.historyTxids := by
  have sorted := perm_insertionSort (fun a b : OnchainHistoryEntry =>
    b.height < a.height ∨ a.height = b.height ∧ a.txid ≤ b.txid) (view.historyTxids.map view.row)
  have ids := sorted.map OnchainHistoryEntry.txid
  have same : OnchainHistoryEntry.txid ∘ view.row = id := funext (row_txid view)
  rwa [map_map, same, map_id] at ids

/-! ## Their amounts -/

theorem toInt_sub_ofNat {a b : Nat} (smallA : a < 2 ^ 63) (smallB : b < 2 ^ 63) :
    (BitVec.ofNat 64 a - BitVec.ofNat 64 b).toInt = (a : Int) - b := by
  rw [BitVec.toInt_sub, BitVec.toInt_ofNat', BitVec.toInt_ofNat']
  rw [Int.bmod_eq_of_le (n := (a : Int)) (by omega) (by omega)]
  rw [Int.bmod_eq_of_le (n := (b : Int)) (by omega) (by omega)]
  exact Int.bmod_eq_of_le (by omega) (by omega)

theorem saturatingSum_of_lt {values : List Nat} (small : values.sum < 2 ^ 63) :
    saturatingSum values = values.sum :=
  Word.saturatingSum64_of_lt (small.trans (by decide))

/-- A row's amount is what its transaction brought less what it took. -/
theorem deltaSats_row (fit : view.AmountsFit) (txid : Txid) :
    (view.row txid).deltaSats =
      (((view.coinsOf txid).map OnchainUtxo.valueSats).sum : Int) -
        ((view.spentBy txid).map OnchainUtxo.valueSats).sum := by
  obtain ⟨brought, taken⟩ := fit txid
  unfold row
  dsimp only
  rw [saturatingSum_of_lt brought, saturatingSum_of_lt taken, toInt_sub_ofNat brought taken]

/-- Every coin is brought by one row. -/
theorem sum_coinsOf (view : Tier2View) :
    (view.historyTxids.map fun t => ((view.coinsOf t).map OnchainUtxo.valueSats).sum).sum =
      (view.utxos.map OnchainUtxo.valueSats).sum := by
  have covered : ∀ u ∈ view.utxos, ∀ t, some u.txid = some t → t ∈ view.historyTxids := by
    rintro u member _ ⟨⟩
    exact txid_mem_historyTxids member
  have grouped := sum_by_key (fun u => some u.txid) OnchainUtxo.valueSats
    view.nodup_historyTxids covered
  simpa [coinsOf] using grouped

/-- Every coin that was spent is taken by one row. -/
theorem sum_spentBy (kept : view.toLedger.Kept) :
    (view.historyTxids.map fun t => ((view.spentBy t).map OnchainUtxo.valueSats).sum).sum =
      ((view.utxos.filter fun u => u.spentHeight.isSome).map OnchainUtxo.valueSats).sum := by
  have whole : ∀ t, view.spentBy t = view.utxos.filter fun u => u.spentTxid = some t := by
    intro t
    apply filter_congr
    intro u member
    have together := kept.together u member
    by_cases spender : u.spentTxid = some t
    · rw [spender] at together
      simp [spender, together]
    · simp [spender]
  have marked : (view.utxos.filter fun u => u.spentHeight.isSome) =
      view.utxos.filter fun u => u.spentTxid.isSome :=
    filter_congr fun u member => kept.together u member
  have covered : ∀ u ∈ view.utxos, ∀ t, u.spentTxid = some t → t ∈ view.historyTxids := by
    intro u member t spender
    have together := kept.together u member
    rw [spender] at together
    exact mem_historyTxids.mpr ⟨u, member, .inr ⟨together, spender⟩⟩
  simp only [whole, marked]
  exact sum_by_key OnchainUtxo.spentTxid OnchainUtxo.valueSats view.nodup_historyTxids covered

/-- A coin is spent or it is not. -/
theorem sum_spent_add_unspent (view : Tier2View) :
    ((view.utxos.filter fun u => u.spentHeight.isSome).map OnchainUtxo.valueSats).sum +
      view.unspentSats = (view.utxos.map OnchainUtxo.valueSats).sum := by
  have split := filter_append_perm (fun u : OnchainUtxo => u.spentHeight.isSome) view.utxos
  have sums := (split.map OnchainUtxo.valueSats).sum_eq
  rw [map_append, sum_append] at sums
  simpa [unspentSats] using sums

theorem sum_map_sub_cast {α : Type} (brought taken : α → Nat) (xs : List α) :
    (xs.map fun x => (brought x : Int) - taken x).sum =
      ((xs.map brought).sum : Int) - (xs.map taken).sum := by
  induction xs with
  | nil => rfl
  | cons x xs ih =>
    simp only [map_cons, sum_cons, ih]
    omega

/-- The rows' amounts add up to the coins nobody spent. -/
theorem sum_deltaSats (fit : view.AmountsFit) (kept : view.toLedger.Kept) :
    (view.deriveHistory.map OnchainHistoryEntry.deltaSats).sum = (view.unspentSats : Int) := by
  have sorted := perm_insertionSort (fun a b : OnchainHistoryEntry =>
    b.height < a.height ∨ a.height = b.height ∧ a.txid ≤ b.txid) (view.historyTxids.map view.row)
  have rows : (view.deriveHistory.map OnchainHistoryEntry.deltaSats).sum =
      (view.historyTxids.map fun t => (view.row t).deltaSats).sum := by
    rw [deriveHistory, (sorted.map OnchainHistoryEntry.deltaSats).sum_eq, map_map]
    rfl
  have split := view.sum_spent_add_unspent
  simp only [rows, deltaSats_row fit, sum_map_sub_cast, sum_coinsOf, sum_spentBy kept]
  omega

/-! ## The balance -/

theorem foldl_addBalance (coins : List OnchainUtxo) (b : Nat × Nat)
    (small : b.1 + b.2 + (coins.map OnchainUtxo.valueSats).sum < 2 ^ 64) :
    (coins.foldl addBalance b).1 + (coins.foldl addBalance b).2 =
      b.1 + b.2 + (coins.map OnchainUtxo.valueSats).sum := by
  induction coins generalizing b with
  | nil => rfl
  | cons u coins ih =>
    rw [map_cons, sum_cons] at small
    have step : (addBalance b u).1 + (addBalance b u).2 = b.1 + b.2 + u.valueSats := by
      have inner : ∀ a, a + u.valueSats < 2 ^ 64 →
          Word.saturatingAdd64 a u.valueSats = a + u.valueSats :=
        fun a fits => Nat.min_eq_left (Nat.le_pred_of_lt fits)
      unfold addBalance
      split_ifs
      · rw [inner b.2 (by omega), Nat.add_assoc]
      · rw [inner b.1 (by omega), Nat.add_right_comm]
    rw [foldl_cons, map_cons, sum_cons, ih _ (by omega), step, Nat.add_assoc]

/-- The two figures of the balance are the coins nobody spent, as long as those fit a word. -/
theorem balances_eq (small : view.unspentSats < 2 ^ 64) :
    view.balances.1 + view.balances.2 = view.unspentSats := by
  have folded := foldl_addBalance (view.utxos.filter fun u => u.spentHeight.isNone) (0, 0)
    (by simpa [unspentSats] using small)
  simpa [unspentSats, balances] using folded

/-- The history has one row for each transaction that created or spent a coin, and the rows'
amounts add up to the balance. -/
theorem deriveHistory_adds_up (view : Tier2View) (kept : view.toLedger.Kept)
    (fit : view.AmountsFit) :
    (view.deriveHistory.map OnchainHistoryEntry.txid).Nodup ∧
      (∀ txid, txid ∈ view.deriveHistory.map OnchainHistoryEntry.txid ↔
        ∃ u ∈ view.utxos, u.txid = txid ∨ u.spentTxid = some txid) ∧
      (view.deriveHistory.map OnchainHistoryEntry.deltaSats).sum = (view.unspentSats : Int) ∧
      (view.unspentSats < 2 ^ 64 → view.balances.1 + view.balances.2 = view.unspentSats) := by
  refine ⟨?_, fun txid => ?_, sum_deltaSats fit kept, balances_eq⟩
  · exact view.txids_deriveHistory_perm.nodup_iff.mpr view.nodup_historyTxids
  · rw [mem_txids_deriveHistory, mem_historyTxids]
    constructor
    · rintro ⟨u, member, creates | ⟨_, spends⟩⟩
      · exact ⟨u, member, .inl creates⟩
      · exact ⟨u, member, .inr spends⟩
    · rintro ⟨u, member, creates | spends⟩
      · exact ⟨u, member, .inl creates⟩
      · have together := kept.together u member
        rw [spends] at together
        exact ⟨u, member, .inr ⟨together, spends⟩⟩

/-- Two payments, the first of which is spent. -/
def spentView : Tier2View :=
  ledgerRun Segment.plainCrypto
    [.block Segment.plainScripts [Segment.payment 10 50 1, Segment.payment 11 40 10] 1]

theorem deriveHistory_adds_up_spent :
    (spentView.deriveHistory.map OnchainHistoryEntry.deltaSats).sum = 40 := by
  have kept : spentView.toLedger.Kept := kept_ledgerRun Segment.plainCrypto _
  have fit : spentView.AmountsFit := amountsFit_of_total (by decide +kernel)
  exact (deriveHistory_adds_up spentView kept fit).2.2.1

/-- A coin of `2 ^ 63` satoshis is a negative amount in its row. -/
theorem deriveHistory_overflows :
    (ledgerRun Segment.plainCrypto
        [.block Segment.plainScripts [Segment.payment 10 (2 ^ 63) 1] 1]).unspentSats = 2 ^ 63 ∧
      ((ledgerRun Segment.plainCrypto
        [.block Segment.plainScripts [Segment.payment 10 (2 ^ 63) 1] 1]).deriveHistory.map
          OnchainHistoryEntry.deltaSats).sum = -2 ^ 63 := by
  decide +kernel

end Tier2View

end Lij.Tier2
