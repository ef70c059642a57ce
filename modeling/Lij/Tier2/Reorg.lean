import Lij.Tier2.Chain

/-!
# Rolling back a reorganised chain

Rolling the ledger back to a height undoes exactly what the blocks above it did:
new coins and events go, marks are lifted, and a spend that was remembered above
the height is forgotten. The one thing a block could destroy for good is an
entry of `pendingSpends` from below, by spending the same output again or by
creating it after its spend. On a valid chain neither happens.
-/

namespace Lij.Tier2

open Bitcoin Folds List

namespace Ledger

variable {C : Crypto} {scripts : WalletScripts} {l : Ledger} {t h : Nat} {txid : Txid}

/-- A coin or event without a mark has no trace of one. -/
structure Unmarked (l : Ledger) : Prop where
  coins : ∀ u ∈ l.utxos, u.spentHeight = none → u.spentTxid = none
  events : ∀ e ∈ l.handover, e.spentTxid = none → e.spentHeight = none ∧ e.spentSecret = none

/-- Everything in the ledger happened at or below the height. -/
structure Below (t : Nat) (l : Ledger) : Prop where
  coins : ∀ u ∈ l.utxos, u.height ≤ t ∧ ∀ sh, u.spentHeight = some sh → sh ≤ t
  events : ∀ e ∈ l.handover, e.height ≤ t ∧ ∀ sh, e.spentHeight = some sh → sh ≤ t
  pending : ∀ (op : OutPoint) (spend : Txid × Nat), l.pendingSpends[op]? = some spend → spend.2 ≤ t

/-! ## Steps above the height -/

theorem unspendAbove_markSpent {op : OutPoint} {u : OnchainUtxo} (above : t < h)
    (unmarked : u.spentHeight = none → u.spentTxid = none) :
    unspendAbove t (markSpent op txid h u) = unspendAbove t u := by
  unfold markSpent
  split_ifs with spends
  · obtain ⟨open_, _⟩ := spends
    have noTx := unmarked open_
    cases u
    simp_all [unspendAbove]
  · rfl

theorem unspendEventAbove_note {op : OutPoint} {witness : List Bytes} {e : HandoverEvent}
    (above : t < h) (unmarked : e.spentTxid = none → e.spentHeight = none ∧ e.spentSecret = none) :
    unspendEventAbove t (noteHandoverSpend op txid h witness e) = unspendEventAbove t e := by
  unfold noteHandoverSpend
  split_ifs with spends
  · obtain ⟨open_, _⟩ := spends
    obtain ⟨noHeight, noSecret⟩ := unmarked open_
    cases e
    simp_all [unspendEventAbove]
  · rfl

/-- A spend above the height is undone, unless it overwrites a spend from below. -/
theorem rollback_spendInput {input : TxIn} (above : t < h) (unmarked : l.Unmarked)
    (fresh : witnessPaysUs C scripts input.witness = true →
      ∀ spend, l.pendingSpends[input.previousOutput]? = some spend → t < spend.2) :
    (l.spendInput C scripts txid h input).rollback t = l.rollback t := by
  unfold rollback spendInput
  congr 1
  · rw [filter_map, map_map]
    have kept : (fun u : OnchainUtxo => decide (u.height ≤ t)) ∘
        markSpent input.previousOutput txid h = fun u => decide (u.height ≤ t) := by
      funext u
      simp [height_markSpent]
    rw [kept]
    refine map_congr_left fun u member => ?_
    exact unspendAbove_markSpent above (unmarked.coins u (mem_of_mem_filter member))
  · rw [filter_map, map_map]
    have kept : (fun e : HandoverEvent => decide (e.height ≤ t)) ∘
        noteHandoverSpend input.previousOutput txid h input.witness =
          fun e => decide (e.height ≤ t) := by
      funext e
      simp [height_noteHandoverSpend]
    rw [kept]
    refine map_congr_left fun e member => ?_
    exact unspendEventAbove_note above (unmarked.events e (mem_of_mem_filter member))
  · dsimp only
    split_ifs with remembered
    · refine Maps.filter_insert_of_dropped (by simpa using above) fun spend found => ?_
      simpa using fresh remembered.2 spend found
    · rfl

/-- An output above the height is undone, unless a spend of it was seen below. -/
theorem rollback_receiveOutput {paid : OutPoint × TxOut} (above : t < h)
    (fresh : ∀ spend, l.pendingSpends[paid.1]? = some spend → t < spend.2) :
    (l.receiveOutput scripts h paid).rollback t = l.rollback t := by
  have high : ¬h ≤ t := Nat.not_le.mpr above
  unfold receiveOutput
  split
  · rfl
  · split_ifs
    · rfl
    · simp [rollback, newEvent, high]
    · rfl
    · unfold rollback
      congr 1
      · rw [filter_append]
        simp [newCoin, high]
      · refine Maps.filter_erase_of_dropped fun spend found => ?_
        simpa using fresh spend found

/-! ## What every step keeps -/

theorem Unmarked.spendInput {input : TxIn} (unmarked : l.Unmarked) :
    (l.spendInput C scripts txid h input).Unmarked := by
  constructor
  · intro u member
    obtain ⟨before, inside, rfl⟩ := mem_map.mp member
    unfold markSpent
    split_ifs
    · nofun
    · exact unmarked.coins before inside
  · intro e member
    obtain ⟨before, inside, rfl⟩ := mem_map.mp member
    unfold noteHandoverSpend
    split_ifs
    · nofun
    · exact unmarked.events before inside

theorem Unmarked.receiveOutput {paid : OutPoint × TxOut} (unmarked : l.Unmarked) :
    (l.receiveOutput scripts h paid).Unmarked := by
  constructor
  · intro u member
    obtain old | ⟨chain, index, rfl⟩ := mem_utxos_receiveOutput member
    · exact unmarked.coins u old
    · intro noHeight
      simpa [newCoin] using noHeight
  · intro e member
    obtain old | ⟨index, rfl⟩ := mem_handover_receiveOutput member
    · exact unmarked.events e old
    · intro _
      exact ⟨rfl, rfl⟩

/-- Every remembered spend is of one of these outpoints. -/
def PendingIn (X : Set OutPoint) (l : Ledger) : Prop :=
  ∀ (op : OutPoint) (spend : Txid × Nat), l.pendingSpends[op]? = some spend → op ∈ X

theorem PendingIn.mono {X Y : Set OutPoint} (inside : l.PendingIn X) (subset : X ⊆ Y) :
    l.PendingIn Y :=
  fun op spend found => subset (inside op spend found)

theorem Below.spendInput {input : TxIn} (below : l.Below t) (low : h ≤ t) :
    (l.spendInput C scripts txid h input).Below t := by
  constructor
  · intro u member
    obtain ⟨before, inside, rfl⟩ := mem_map.mp member
    refine ⟨height_markSpent.trans_le (below.coins before inside).1, ?_⟩
    unfold markSpent
    split_ifs
    · rintro sh ⟨⟩
      exact low
    · exact (below.coins before inside).2
  · intro e member
    obtain ⟨before, inside, rfl⟩ := mem_map.mp member
    refine ⟨height_noteHandoverSpend.trans_le (below.events before inside).1, ?_⟩
    unfold noteHandoverSpend
    split_ifs
    · rintro sh ⟨⟩
      exact low
    · exact (below.events before inside).2
  · intro op spend found
    obtain old | ⟨_, _, rfl⟩ := pending_of_spendInput found
    · exact below.pending op spend old
    · exact low

theorem Below.receiveOutput {paid : OutPoint × TxOut} (below : l.Below t) (low : h ≤ t) :
    (l.receiveOutput scripts h paid).Below t := by
  constructor
  · intro u member
    obtain old | ⟨chain, index, rfl⟩ := mem_utxos_receiveOutput member
    · exact below.coins u old
    · refine ⟨low, fun sh marked => ?_⟩
      obtain ⟨spend, found, rfl⟩ := Option.map_eq_some_iff.mp marked
      exact below.pending _ spend found
  · intro e member
    obtain old | ⟨index, rfl⟩ := mem_handover_receiveOutput member
    · exact below.events e old
    · exact ⟨low, nofun⟩
  · exact fun op spend found => below.pending op spend (pending_of_receiveOutput found)

/-- Rolling back leaves nothing above the height. -/
theorem below_rollback (l : Ledger) (t : Nat) : (l.rollback t).Below t := by
  constructor
  · intro u member
    obtain ⟨before, inside, rfl⟩ := mem_map.mp member
    have low : before.height ≤ t := by simpa using (mem_filter.mp inside).2
    unfold unspendAbove
    split
    · rename_i sh marked
      split_ifs with high
      · exact ⟨low, nofun⟩
      · refine ⟨low, fun sh' marked' => ?_⟩
        rw [marked] at marked'
        cases marked'
        exact Nat.not_lt.mp high
    · rename_i unmarked
      exact ⟨low, fun sh marked => absurd (unmarked.symm.trans marked) nofun⟩
  · intro e member
    obtain ⟨before, inside, rfl⟩ := mem_map.mp member
    have low : before.height ≤ t := by simpa using (mem_filter.mp inside).2
    unfold unspendEventAbove
    split_ifs with high
    · exact ⟨low, nofun⟩
    · refine ⟨low, fun sh marked => ?_⟩
      rw [marked] at high
      simpa using high
  · intro op spend found
    rw [rollback, Std.ExtTreeMap.getElem?_filter', Option.filter_eq_some_iff] at found
    simpa using found.2

theorem unspendAbove_of_le {u : OnchainUtxo} (low : ∀ sh, u.spentHeight = some sh → sh ≤ t) :
    unspendAbove t u = u := by
  unfold unspendAbove
  split
  · rename_i sh marked
    exact if_neg (Nat.not_lt.mpr (low sh marked))
  · rfl

theorem unspendEventAbove_of_le {e : HandoverEvent}
    (low : ∀ sh, e.spentHeight = some sh → sh ≤ t) : unspendEventAbove t e = e := by
  unfold unspendEventAbove
  refine if_neg fun high => ?_
  cases marked : e.spentHeight with
  | none => simp [marked] at high
  | some sh =>
    have := low sh marked
    simp only [marked, Option.map_some, Option.getD_some, decide_eq_true_eq] at high
    omega

/-- There is nothing to undo in a ledger that ends at the height. -/
theorem rollback_of_below (below : l.Below t) : l.rollback t = l := by
  have coins : (l.utxos.filter fun u => u.height ≤ t).map (unspendAbove t) = l.utxos := by
    rw [filter_eq_self.mpr fun u member => by simpa using (below.coins u member).1]
    refine (map_congr_left fun u member => ?_).trans (map_id l.utxos)
    exact unspendAbove_of_le (below.coins u member).2
  have events : (l.handover.filter fun e => e.height ≤ t).map (unspendEventAbove t) =
      l.handover := by
    rw [filter_eq_self.mpr fun e member => by simpa using (below.events e member).1]
    refine (map_congr_left fun e member => ?_).trans (map_id l.handover)
    exact unspendEventAbove_of_le (below.events e member).2
  have pending : (l.pendingSpends.filter fun _ spend => decide (spend.2 ≤ t)) =
      l.pendingSpends :=
    Maps.filter_of_kept fun op spend found => by simpa using below.pending op spend found
  unfold rollback
  rw [coins, events, pending]

/-! ## Transactions -/

theorem Below.applyTx {tx : Transaction} (below : l.Below t) (low : h ≤ t) :
    (l.applyTx C scripts h tx).Below t :=
  foldl_invariant (foldl_invariant below fun _ _ _ before => before.spendInput low)
    fun _ _ _ before => before.receiveOutput low

theorem Unmarked.applyTx {tx : Transaction} (unmarked : l.Unmarked) :
    (l.applyTx C scripts h tx).Unmarked :=
  foldl_invariant (foldl_invariant unmarked fun _ _ _ before => before.spendInput)
    fun _ _ _ before => before.receiveOutput

/-- An input remembers a spend only of a real outpoint, its own. -/
theorem PendingIn.spendInput {X : Set OutPoint} {input : TxIn} (inside : l.PendingIn X)
    (coinbase : input.previousOutput = nullOutPoint → input.witness.length ≤ 1) :
    (l.spendInput C scripts txid h input).PendingIn (X ∪ {op | op ∈ spentIn [input]}) := by
  intro op spend found
  obtain old | ⟨rfl, pays, _⟩ := pending_of_spendInput found
  · exact .inl (inside op spend old)
  · refine .inr (mem_spentIn.mpr ⟨input, mem_singleton_self _, rfl, fun isNull => ?_⟩)
    rw [witnessPaysUs_of_short (coinbase isNull)] at pays
    cases pays

section Fresh

variable {X : Set OutPoint}

/-- When no input spends what was spent before, the remembered spends stay those of the
outpoints spent, and above the height all inputs are undone. -/
theorem spendInputs_fresh {inputs : List TxIn} (unmarked : l.Unmarked) (inside : l.PendingIn X)
    (coinbase : ∀ input ∈ inputs, input.previousOutput = nullOutPoint → input.witness.length ≤ 1)
    (fresh : ∀ op ∈ spentIn inputs, op ∉ X) (once : (spentIn inputs).Nodup) :
    (inputs.foldl (spendInput C scripts txid h) l).Unmarked ∧
    (inputs.foldl (spendInput C scripts txid h) l).PendingIn (X ∪ {op | op ∈ spentIn inputs}) ∧
    (t < h → (inputs.foldl (spendInput C scripts txid h) l).rollback t = l.rollback t) := by
  refine foldl_along (fun done (before : Ledger) => before.Unmarked ∧
    before.PendingIn (X ∪ {op | op ∈ spentIn done}) ∧
    (t < h → before.rollback t = l.rollback t))
    ⟨unmarked, inside.mono Set.subset_union_left, fun _ => rfl⟩ ?_
  rintro done input rest before split ⟨unmarked, inside, same⟩
  have member : input ∈ inputs := by simp [split]
  refine ⟨unmarked.spendInput, ?_, fun above => ?_⟩
  · rw [spentIn_append]
    refine (inside.spendInput (coinbase input member)).mono ?_
    rintro op ((old | earlier) | own)
    · exact .inl old
    · exact .inr (mem_append_left _ earlier)
    · exact .inr (mem_append_right _ own)
  · rw [← same above]
    refine rollback_spendInput above unmarked fun pays spend found => ?_
    have real : input.previousOutput ∈ spentIn [input] := by
      refine mem_spentIn.mpr ⟨input, mem_singleton_self _, rfl, fun isNull => ?_⟩
      rw [witnessPaysUs_of_short (coinbase input member isNull)] at pays
      cases pays
    have parts : spentIn inputs = spentIn done ++ (spentIn [input] ++ spentIn rest) := by
      rw [split, ← singleton_append, spentIn_append, spentIn_append]
    -- the outpoint was not spent before this transaction, nor by an earlier input of it
    rcases inside _ spend found with old | earlier
    · refine absurd old (fresh _ ?_)
      rw [parts]
      exact mem_append_right _ (mem_append_left _ real)
    · rw [parts] at once
      exact absurd (mem_append_left _ real) (disjoint_of_nodup_append once earlier)

/-- The same for a transaction that spends nothing that was spent before and creates
nothing that was. -/
theorem applyTx_fresh {tx : Transaction} (unmarked : l.Unmarked) (inside : l.PendingIn X)
    (coinbase : ∀ input ∈ tx.input, input.previousOutput = nullOutPoint → input.witness.length ≤ 1)
    (fresh : ∀ op ∈ spentBy tx, op ∉ X) (once : (spentBy tx).Nodup)
    (created : ∀ op, op ∈ X ∨ op ∈ spentBy tx → op.txid ≠ C.computeTxid tx) :
    (l.applyTx C scripts h tx).PendingIn (X ∪ {op | op ∈ spentBy tx}) ∧
    (t < h → (l.applyTx C scripts h tx).rollback t = l.rollback t) := by
  refine foldl_invariant (I := fun after : Ledger =>
    after.PendingIn (X ∪ {op | op ∈ spentBy tx}) ∧ (t < h → after.rollback t = l.rollback t))
    (spendInputs_fresh unmarked inside coinbase fresh once).2 ?_
  rintro before paid member ⟨inside, same⟩
  refine ⟨fun op spend found => inside op spend (pending_of_receiveOutput found), fun above => ?_⟩
  rw [← same above]
  refine rollback_receiveOutput above fun spend found => ?_
  obtain ⟨_, _, rfl⟩ := mem_map.mp member
  exact absurd rfl (created _ (inside _ spend found))

end Fresh

end Ledger

/-! ## Segments -/

namespace Segment

variable {C : Crypto} {scripts : WalletScripts} {S A B : Segment} {t : Nat}

/-- Reading on along a valid segment: the remembered spends are of what was spent, and the
transactions above the height leave no trace in what is rolled back to it. -/
theorem Valid.applyAll (valid : S.Valid C) (scripts : WalletScripts) (t : Nat)
    {before txs : List (Nat × Transaction)} (rest : List (Nat × Transaction))
    (split : S.txs = before ++ txs ++ rest) {l : Ledger} (unmarked : l.Unmarked)
    (inside : l.PendingIn (spentOf before)) :
    (txs.foldl (Ledger.applyAt C scripts) l).Unmarked ∧
    (txs.foldl (Ledger.applyAt C scripts) l).PendingIn (spentOf (before ++ txs)) ∧
    ((∀ p ∈ txs, t < p.1) →
      (txs.foldl (Ledger.applyAt C scripts) l).rollback t = l.rollback t) := by
  refine foldl_along (fun done (after : Ledger) => after.Unmarked ∧
    after.PendingIn (spentOf (before ++ done)) ∧
    ((∀ p ∈ txs, t < p.1) → after.rollback t = l.rollback t))
    ⟨unmarked, by simpa using inside, fun _ => rfl⟩ ?_
  rintro done p later after here ⟨unmarked, inside, same⟩
  have place : S.txs = (before ++ done) ++ p :: (later ++ rest) := by
    simp [split, here]
  obtain ⟨fresh, once, created⟩ := valid.fresh place
  have step : (after.applyAt C scripts p).PendingIn
      (spentOf (before ++ done) ∪ {op | op ∈ spentBy p.2}) ∧
      (t < p.1 → (after.applyAt C scripts p).rollback t = after.rollback t) :=
    Ledger.applyTx_fresh unmarked inside (valid.coinbase p (by simp [place])) fresh once created
  refine ⟨unmarked.applyTx, ?_, fun above => ?_⟩
  · rw [← append_assoc, spentOf_snoc]
    exact step.1
  · exact (step.2 (above p (by simp [here]))).trans (same above)

theorem below_applyAll {txs : List (Nat × Transaction)} (low : ∀ p ∈ txs, p.1 ≤ t) :
    (txs.foldl (Ledger.applyAt C scripts) .empty).Below t := by
  refine foldl_invariant ⟨nofun, nofun, ?_⟩ fun l p member before => before.applyTx (low p member)
  intro op spend found
  simp [Ledger.empty] at found

theorem range_split {first last : Nat} (start : first ≤ t + 1) (inside : t ≤ last) :
    range' first (last + 1 - first) =
      range' first (t + 1 - first) ++ range' (t + 1) (last - t) := by
  have place : t + 1 = first + 1 * (t + 1 - first) := by omega
  have size : last + 1 - first = (t + 1 - first) + (last - t) := by omega
  rw [size, ← range'_append, ← place]

/-- Rolling a scanned segment back to a height is scanning it up to that height. -/
theorem rollback_scan (valid : S.Valid C) (start : S.birthday ≤ t) (inside : t ≤ S.tip) :
    ((S.scan C scripts).rollback t).toLedger =
      (S.applyTo C scripts (range' S.birthday (t + 1 - S.birthday)) .empty).toLedger := by
  have split : S.heights = range' S.birthday (t + 1 - S.birthday) ++
      range' (t + 1) (S.tip - t) := range_split (by omega) inside
  have low : ∀ p ∈ S.txsAt (range' S.birthday (t + 1 - S.birthday)), p.1 ≤ t := by
    intro p member
    have := mem_range'_1.mp (mem_txsAt.mp member).1
    omega
  have high : ∀ p ∈ S.txsAt (range' (t + 1) (S.tip - t)), t < p.1 := by
    intro p member
    have := mem_range'_1.mp (mem_txsAt.mp member).1
    omega
  have parts : S.txs = [] ++ S.txsAt (range' S.birthday (t + 1 - S.birthday)) ++
      S.txsAt (range' (t + 1) (S.tip - t)) := by
    rw [txs, split, txsAt_append]
    rfl
  have empty : Ledger.empty.Unmarked ∧ Ledger.empty.PendingIn (spentOf []) := by
    refine ⟨⟨nofun, nofun⟩, fun op spend found => ?_⟩
    simp [Ledger.empty] at found
  obtain ⟨unmarked, pending, _⟩ := valid.applyAll scripts t _ parts empty.1 empty.2
  obtain ⟨_, _, undone⟩ := valid.applyAll scripts t [] (by simpa using parts) unmarked pending
  change (S.scan C scripts).toLedger.rollback t = _
  rw [scan, split, applyTo_append, toLedger_applyTo, toLedger_applyTo]
  exact (undone high).trans (Ledger.rollback_of_below (below_applyAll low))

theorem applyTo_congr {heights : List Nat} {view : Tier2View}
    (same : ∀ h ∈ heights, A.block h = B.block h) :
    A.applyTo C scripts heights view = B.applyTo C scripts heights view := by
  induction heights generalizing view with
  | nil => rfl
  | cons h heights ih =>
    rw [applyTo, foldl_cons, ← applyTo, ih fun k member =>
      same k (mem_cons_of_mem _ member), same h mem_cons_self]
    rfl

section Fork

variable {fork : Nat}

/-- Reading the second chain from a height at or below the fork, on top of the first chain's
ledger rolled back to it, gives the ledger of reading the second alone. -/
theorem reapply_rolledBack {view : Tier2View} (valid : A.Valid C)
    (scanned : view.toLedger = (A.scan C scripts).toLedger)
    (sameBirthday : A.birthday = B.birthday) (agree : ∀ h ≤ fork, A.block h = B.block h)
    (onFirst : fork ≤ A.tip) (onSecond : fork ≤ B.tip) (start : A.birthday ≤ t) (low : t ≤ fork) :
    (B.applyTo C scripts (range' (t + 1) (B.tip - t)) (view.rollback t)).toLedger =
      (B.scan C scripts).toLedger := by
  have shared : A.applyTo C scripts (range' A.birthday (t + 1 - A.birthday)) .empty =
      B.applyTo C scripts (range' B.birthday (t + 1 - B.birthday)) .empty := by
    rw [sameBirthday]
    refine applyTo_congr fun h member => agree h ?_
    have := mem_range'_1.mp member
    omega
  have rolled : (view.rollback t).toLedger =
      (B.applyTo C scripts (range' B.birthday (t + 1 - B.birthday)) .empty).toLedger := by
    rw [← shared, ← rollback_scan valid start (le_trans low onFirst)]
    exact congrArg (Ledger.rollback · t) scanned
  rw [toLedger_applyTo, rolled, ← toLedger_applyTo, ← applyTo_append, scan, heights,
    range_split (by omega) (le_trans low onSecond)]

/-- Let two chains agree up to a fork. A view of the first, rolled back to a height at or
below the fork, holds nothing from above that height, and reading the second from there
gives the ledger of reading the second alone. -/
theorem rollback_reapply_eq_scan (C : Crypto) (scripts : WalletScripts) (A B : Segment)
    (fork t : Nat) (valid : A.Valid C) (sameBirthday : A.birthday = B.birthday)
    (agree : ∀ h ≤ fork, A.block h = B.block h) (onFirst : fork ≤ A.tip) (onSecond : fork ≤ B.tip)
    (start : A.birthday ≤ t) (low : t ≤ fork) :
    ((A.scan C scripts).rollback t).toLedger.Below t ∧
    (B.applyTo C scripts (range' (t + 1) (B.tip - t))
      ((A.scan C scripts).rollback t)).toLedger = (B.scan C scripts).toLedger :=
  ⟨Ledger.below_rollback _ t,
    reapply_rolledBack valid rfl sameBirthday agree onFirst onSecond start low⟩

end Fork

/-! ### A fork -/

/-- Ids are lock times, and a key is its own script. -/
def plainCrypto : Crypto := ⟨fun tx => BitVec.ofNat 256 tx.lockTime, some⟩

def plainScripts : WalletScripts := ⟨[⟨0, 0, [7]⟩]⟩

/-- A transaction that pays the wallet and spends an output of another one. -/
def payment (id value source : Nat) : Transaction :=
  ⟨2, id, [⟨⟨BitVec.ofNat 256 source, 0⟩, [], 0, []⟩], [⟨value, [7]⟩]⟩

def chainOf (blocks : List (List Transaction)) : Segment :=
  ⟨1, blocks.length, fun h => ⟨⟨0, h⟩, blocks.getD (h - 1) []⟩⟩

/-- The first chain spends the coin of block 1 in block 2, the second one does not. -/
def orphaned : Segment := chainOf [[payment 10 50 1], [payment 11 40 10], [payment 12 30 11]]

def adopted : Segment := chainOf [[payment 10 50 1], [payment 13 20 2]]

theorem orphaned_valid : orphaned.Valid plainCrypto where
  ids := by decide +kernel
  spentOnce := by decide +kernel
  spentAfter := by decide +kernel
  spentOther := by decide +kernel
  notNull := by decide +kernel
  coinbase := by decide +kernel

theorem rollback_reapply_eq_scan_fork :
    ((orphaned.scan plainCrypto plainScripts).rollback 1).toLedger.Below 1 ∧
    (adopted.applyTo plainCrypto plainScripts (range' 2 1)
      ((orphaned.scan plainCrypto plainScripts).rollback 1)).toLedger =
        (adopted.scan plainCrypto plainScripts).toLedger := by
  refine rollback_reapply_eq_scan plainCrypto plainScripts orphaned adopted 1 1 orphaned_valid rfl
    ?_ (by decide) (by decide) (by decide) le_rfl
  intro h low
  interval_cases h <;> rfl

end Segment

/-! ## Finding a reorganisation -/

def reorgWindow : Nat := 6

/-- Compare the block recorded at the top with the server's; when they differ, roll back a
small window. True when a rollback happened. -/
def reorgCheck (server : Server) : Fallible Tier2View Bool := do
  let view ← get
  let top := view.cursor.scannedTo
  match view.cursor.lastHash with
  | none => return false
  | some recorded =>
    if top = 0 ∨ top ≤ view.cursor.birthday then return false
    let headers ← Fallible.lift (server.headers top 1)
    match headers.head? with
    | none => return false
    | some current =>
      if current.hash ≠ recorded then do
        modify fun view => view.rollback (max (top - reorgWindow) view.cursor.birthday)
        return true
      else return false

/-- The check leaves the view alone or rolls it back by the window, never below the
birthday; so a fork within the window is at or above the height rolled back to. -/
theorem reorgCheck_exec (server : Server) (view : Tier2View) :
    ((reorgCheck server).exec view).2 = view ∨
    (((reorgCheck server).exec view).1 = .ok true ∧ view.cursor.birthday < view.cursor.scannedTo ∧
      ((reorgCheck server).exec view).2 =
        view.rollback (max (view.cursor.scannedTo - reorgWindow) view.cursor.birthday)) := by
  rw [reorgCheck, Fallible.exec_get_bind]
  cases view.cursor.lastHash with
  | none => exact .inl rfl
  | some recorded =>
    by_cases low : view.cursor.scannedTo = 0 ∨ view.cursor.scannedTo ≤ view.cursor.birthday
    · simp only [if_pos low]
      exact .inl rfl
    simp only [if_neg low]
    rw [Fallible.exec_bind, Fallible.exec_lift]
    cases server.headers view.cursor.scannedTo 1 with
    | error message => exact .inl rfl
    | ok headers =>
      cases headers with
      | nil => exact .inl rfl
      | cons current rest =>
        by_cases moved : current.hash ≠ recorded
        · simp only [head?_cons, if_pos moved]
          exact .inr ⟨rfl, by omega, rfl⟩
        · simp only [head?_cons, if_neg moved]
          exact .inl rfl

/-- When the check reports a reorganisation of a fully read chain and the fork is within the
window, reading the new chain from the cursor gives the new chain's ledger. -/
theorem reorgCheck_recovers {C : Crypto} {scripts : WalletScripts} {A B : Segment} {fork : Nat}
    {view : Tier2View} {server : Server} (valid : A.Valid C)
    (scanned : view.toLedger = (A.scan C scripts).toLedger)
    (birthday : view.cursor.birthday = A.birthday) (top : view.cursor.scannedTo = A.tip)
    (sameBirthday : A.birthday = B.birthday) (agree : ∀ h ≤ fork, A.block h = B.block h)
    (start : A.birthday ≤ fork) (onFirst : fork ≤ A.tip) (onSecond : fork ≤ B.tip)
    (window : A.tip ≤ fork + reorgWindow)
    (found : ((reorgCheck server).exec view).2 ≠ view) :
    (B.applyTo C scripts
      (range' (((reorgCheck server).exec view).2.cursor.scannedTo + 1)
        (B.tip - ((reorgCheck server).exec view).2.cursor.scannedTo))
      ((reorgCheck server).exec view).2).toLedger = (B.scan C scripts).toLedger := by
  obtain unchanged | ⟨_, _, rolled⟩ := reorgCheck_exec server view
  · exact absurd unchanged found
  · rw [rolled, Tier2View.scannedTo_rollback]
    refine Segment.reapply_rolledBack valid scanned sameBirthday agree onFirst onSecond ?_ ?_
    · omega
    · omega

/-! ## Following a chain through its reorganisations -/

/-- The views of a chain: one scan, then syncs, each of which checks for a reorganisation and reads
the blocks above the cursor. When blocks were replaced, the check says so. -/
inductive Tracks (C : Crypto) (scripts : WalletScripts) : Segment → Tier2View → Prop where
  | scanned (S : Segment) (hash header : Option String) (valid : S.Valid C) :
      Tracks C scripts S
        { S.scan C scripts with cursor := ⟨S.birthday, S.tip, hash, header⟩ }
  | synced {A : Segment} {view : Tier2View} (before : Tracks C scripts A view) (B : Segment)
      (server : Server) (fork : Nat) (hash header : Option String) (valid : B.Valid C)
      (sameBirthday : A.birthday = B.birthday) (agree : ∀ h ≤ fork, A.block h = B.block h)
      (start : A.birthday ≤ fork) (onFirst : fork ≤ A.tip) (onSecond : fork ≤ B.tip)
      (window : A.tip ≤ fork + reorgWindow)
      (noticed : ((reorgCheck server).exec view).2 ≠ view ∨ fork = A.tip) :
      Tracks C scripts B
        { B.applyTo C scripts (range' (((reorgCheck server).exec view).2.cursor.scannedTo + 1)
            (B.tip - ((reorgCheck server).exec view).2.cursor.scannedTo))
            ((reorgCheck server).exec view).2 with
          cursor := ⟨B.birthday, B.tip, hash, header⟩ }

/-- However often the chain reorganises within the window, the ledger is that of one direct scan
of the chain as it is now. -/
theorem Tracks.ledger_eq_scan {C : Crypto} {scripts : WalletScripts} {S : Segment}
    {view : Tier2View} (tracks : Tracks C scripts S view) :
    view.toLedger = (S.scan C scripts).toLedger := by
  suffices S.Valid C ∧ view.toLedger = (S.scan C scripts).toLedger ∧
      view.cursor.birthday = S.birthday ∧ view.cursor.scannedTo = S.tip from this.2.1
  induction tracks with
  | scanned S hash header valid => exact ⟨valid, rfl, rfl, rfl⟩
  | @synced A view before B server fork hash header valid sameBirthday agree start onFirst onSecond
      window noticed ih =>
    obtain ⟨validFirst, ledger, first, last⟩ := ih
    refine ⟨valid, ?_, rfl, rfl⟩
    by_cases moved : ((reorgCheck server).exec view).2 = view
    · obtain rfl := noticed.resolve_left (not_not.mpr moved)
      -- rolling back to the old tip would change nothing
      have same : (view.rollback A.tip).toLedger = view.toLedger :=
        (congrArg (Ledger.rollback · A.tip) ledger).trans
          ((Segment.rollback_scan validFirst start le_rfl).trans ledger.symm)
      change (B.applyTo ..).toLedger = _
      rw [moved, last, Segment.toLedger_applyTo, ← same, ← Segment.toLedger_applyTo]
      exact Segment.reapply_rolledBack validFirst ledger sameBirthday agree onFirst onSecond start
        le_rfl
    · exact reorgCheck_recovers validFirst ledger first last sameBirthday agree start onFirst
        onSecond window moved

theorem Tracks.ledger_eq_scan_fork :
    ∃ view, Tracks Segment.plainCrypto Segment.plainScripts Segment.adopted view ∧ view.toLedger =
      (Segment.adopted.scan Segment.plainCrypto Segment.plainScripts).toLedger := by
  have valid : Segment.adopted.Valid Segment.plainCrypto := by constructor <;> decide +kernel
  have tracks := @Tracks.synced _ Segment.plainScripts _ _
    (.scanned Segment.orphaned (some "old") none Segment.orphaned_valid) Segment.adopted
    ⟨fun _ _ => .ok [⟨3, "new", ""⟩], fun _ _ => .ok [], fun _ => .ok ""⟩ 1 none none valid rfl
    (fun h low => by interval_cases h <;> rfl) (by decide) (by decide) (by decide) (by decide)
    (.inl fun same => absurd (congrArg (·.cursor.scannedTo) same) (by decide +kernel))
  exact ⟨_, tracks, tracks.ledger_eq_scan⟩

end Lij.Tier2
