import Mathlib
import Lij.ChannelOpen
import Lij.OnchainSend.Size

/-!
# The largest channel that can be opened

The sheet of a self-funded open shows a Max: the coins on offer, or the chosen
ones, less the fee for spending all of them at their real sizes. The open then
picks its coins again. Chosen coins are taken as they are; the automatic pick
counts every coin at the P2WPKH size, so with a taproot coin on offer it asks for
more than the Max left aside.
-/

namespace Lij.ChannelOpen

open Bitcoin Tier2 Word Checked OnchainSend CoinSelect List

variable {W : Wallet} {view : Tier2View} {pending : List PendingTx} {marks : CoinMarks}
  {rate : UInt32} {frozen locked : List OutPoint}

/-! ## The coins on offer -/

/-- What the Max is counted over. -/
def offeredCoins (view : Tier2View) (pending : List PendingTx) (frozen : List OutPoint) :
    List SpendableUtxo :=
  spendableUtxos view pending frozen ++
    (unconfirmedChangeCandidates view pending frozen).map .fromUtxo

theorem perm_offeredCoins (view : Tier2View) (pending : List PendingTx)
    (frozen : List OutPoint) :
    (offeredCoins view pending frozen).Perm (fundingCandidates view pending frozen) :=
  (perm_insertionSort _ _).append_right _

theorem candidates_sublist (view : Tier2View) (pending : List PendingTx)
    (frozen : List OutPoint) :
    (fundingCandidates view pending frozen).Sublist (gatherSpendable view pending frozen) := by
  apply List.Sublist.append (List.Sublist.refl _)
  exact (take_sublist _ _).map _

theorem not_reserved {u : SpendableUtxo}
    (member : u ∈ fundingCandidates view pending marks.heldSet) :
    u.outpoint ∉ reservedOutpoints pending :=
  (sendable_of_mem ((candidates_sublist view pending marks.heldSet).subset member)).unreserved

/-! ## Chosen coins -/

theorem text_toLower (txid : Txid) : (Txid.text txid).toLower = Txid.text txid :=
  Hex.toLower_encode _

/-- A pin names one coin. -/
theorem outpoint_eq_of_named {op op' : OutPoint} {pin : String × Nat}
    (first : named op pin = true) (second : named op' pin = true) : op = op' := by
  have same := (named_iff.mp first).trans (named_iff.mp second).symm
  rw [text_toLower, text_toLower, Prod.mk.injEq] at same
  cases op
  cases op'
  obtain ⟨texts, rfl⟩ := same
  cases Txid.text_injective texts
  rfl

variable {coins coins' : List SpendableUtxo}

/-- Among different coins, the order does not matter to a search for one. -/
theorem find?_named (perm : coins.Perm coins') (distinct : (coins.map SpendableUtxo.outpoint).Nodup)
    (pin : String × Nat) : coins.find? (fun u => named u.outpoint pin) =
      coins'.find? fun u => named u.outpoint pin := by
  cases found' : coins'.find? fun u => named u.outpoint pin with
  | none =>
    rw [find?_eq_none] at found' ⊢
    exact fun u member => found' u (perm.mem_iff.mp member)
  | some v =>
    have member := perm.mem_iff.mpr (mem_of_find?_eq_some found')
    have isNamed : named v.outpoint pin = true := by simpa using find?_some found'
    obtain ⟨u, found⟩ : ∃ u, coins.find? (fun u => named u.outpoint pin) = some u :=
      Option.isSome_iff_exists.mp (find?_isSome.mpr ⟨v, member, isNamed⟩)
    have same := outpoint_eq_of_named (by simpa using find?_some found) isNamed
    rw [found, inj_on_of_nodup_map distinct (mem_of_find?_eq_some found) member same]

theorem resolvePinsFrom_perm (perm : coins.Perm coins')
    (distinct : (coins.map SpendableUtxo.outpoint).Nodup) (seen pins : List (String × Nat)) :
    resolvePinsFrom coins frozen locked seen pins =
      resolvePinsFrom coins' frozen locked seen pins := by
  induction pins generalizing seen with
  | nil => rfl
  | cons pin pins ih =>
    rw [resolvePinsFrom, resolvePinsFrom, find?_named perm distinct, ih, ih]

theorem pickPinned_perm (perm : coins.Perm coins')
    (distinct : (coins.map SpendableUtxo.outpoint).Nodup) (pins : List (String × Nat)) :
    pickPinned coins frozen locked pins = pickPinned coins' frozen locked pins := by
  rw [pickPinned, pickPinned, resolvePins, resolvePins, resolvePinsFrom_perm perm distinct]

/-! ## The fees -/

variable {coins : List SpendableUtxo}

theorem fundingFee_eq (rate : UInt32) (few : coins.length < 2 ^ 32) : fundingFee coins rate =
        (73 + ((coins.map SpendableUtxo.chain).map inputVbytes).sum) * satPerVb rate ∧
      fundingFee coins rate < 2 ^ 63 - 294 := by
  obtain ⟨value, small⟩ : estimateFeeInputs coins 2 0 rate = _ ∧ _ :=
    estimateFeeInputs_eq rate few (by decide) (by decide)
  refine ⟨value.trans ?_, small⟩
  have same : 11 + ((coins.map SpendableUtxo.chain).map inputVbytes).sum + 31 * 2 + 0 =
      73 + ((coins.map SpendableUtxo.chain).map inputVbytes).sum := by omega
  rw [same]

theorem fundingFee_perm (perm : coins.Perm coins') (few : coins.length < 2 ^ 32) :
    fundingFee coins rate = fundingFee coins' rate := by
  rw [(fundingFee_eq rate few).1, (fundingFee_eq rate (perm.length_eq ▸ few)).1,
    ((perm.map SpendableUtxo.chain).map inputVbytes).sum_eq]

/-- The estimate that counts every input at the P2WPKH size. -/
theorem estimateFee_eq (rate : UInt32) {n : Nat} (few : n < 2 ^ 32) :
    estimateFee n 2 rate = (73 + 68 * n) * satPerVb rate ∧
      estimateFee n 2 rate < 2 ^ 63 - 294 := by
  have inner : mul64 68 n = 68 * n := mul64_of_lt (by omega)
  have vsize : sum64 [11, mul64 68 n, mul64 31 2, 0] = 73 + 68 * n := by
    have total : [11, mul64 68 n, mul64 31 2, 0].sum = 73 + 68 * n := by
      rw [inner]
      simp only [mul64, sum_cons, sum_nil]
      omega
    rw [sum64_of_lt (by omega), total]
  have bound : (73 + 68 * n) * satPerVb rate < 2 ^ 63 - 294 := by
    calc (73 + 68 * n) * satPerVb rate
        ≤ (73 + 68 * 2 ^ 32) * 17179870 := Nat.mul_le_mul (by omega) (satPerVb_le rate)
      _ < 2 ^ 63 - 294 := by norm_num
  rw [estimateFee, estimateFeeWith, vsize, mul64_of_lt (by omega)]
  exact ⟨rfl, bound⟩

theorem fundingFee_le_estimateFee (rate : UInt32) (few : coins.length < 2 ^ 32) :
    fundingFee coins rate ≤ estimateFee coins.length 2 rate := by
  have inputs := sum_inputVbytes_le (coins.map SpendableUtxo.chain)
  rw [length_map] at inputs
  rw [(fundingFee_eq rate few).1, (estimateFee_eq rate few).1]
  exact Nat.mul_le_mul_right _ (by omega)

/-! ## When the automatic pick finds coins -/

def spCoins (coins : List SpendableUtxo) : List Nat :=
  (range coins.length).filter fun i => coins[i]?.any fun u => u.chain = chainSp

/-- The orders in which the automatic pick takes coins: silent payments largest first, then
the plain coins and the mixed ones each largest first, and a mixed coin alone. -/
def pickOrders (coins : List SpendableUtxo) : List (List Nat) :=
  let values := coins.map SpendableUtxo.valueSats
  let mixed := coins.map fun u => isMixed u.chain
  [largestFirst values (spCoins coins),
    largestFirst values (plainCoins values mixed) ++
      largestFirst values (mixedCoins values mixed)] ++
    (mixedCoins values mixed).map fun i => [i]

theorem pickSpFirst_isSome_iff {need : Nat → Nat} (word : ∀ n, need n ≤ u64Max) :
    (pickSpFirst coins need).isSome ↔
      Covers (coins.map SpendableUtxo.valueSats) need
        (largestFirst (coins.map SpendableUtxo.valueSats) (spCoins coins)) := by
  have increasing : (spCoins coins).Pairwise (· < ·) := increasing_filter_range _ _
  rw [pickSpFirst]
  change (if (spCoins coins).isEmpty then none else _).isSome ↔ _
  by_cases empty : (spCoins coins).isEmpty = true
  · rw [if_pos empty]
    rw [List.isEmpty_iff] at empty
    constructor
    · intro found
      cases found
    · rintro ⟨k, pos, short, _⟩
      rw [empty] at short
      exact absurd short (by simp [largestFirst]; omega)
  · rw [if_neg empty, Option.isSome_map]
    exact pick_part_isSome_iff increasing word

theorem pickFunding_isSome_iff {need : Nat → Nat} (word : ∀ n, need n ≤ u64Max) :
    (pickFunding coins need).isSome ↔
      ∃ order ∈ pickOrders coins, Covers (coins.map SpendableUtxo.valueSats) need order := by
  have sp : (pickSpFirst coins need).isSome ↔ _ := pickSpFirst_isSome_iff word
  have rest : (autoPick coins need).isSome ↔ _ := pickMixedLast_isSome_iff word
  have alone : ∀ i, Covers (coins.map SpendableUtxo.valueSats) need [i] ↔
      need 1 ≤ valueAt (coins.map SpendableUtxo.valueSats) i := by
    intro i
    constructor
    · rintro ⟨k, pos, short, enough⟩
      obtain rfl : k = 1 := by
        rw [length_singleton] at short
        omega
      simpa using enough
    · intro enough
      exact ⟨1, le_rfl, le_rfl, by simpa using enough⟩
  have either : (pickFunding coins need).isSome ↔
      (pickSpFirst coins need).isSome ∨ (autoPick coins need).isSome := by
    rw [pickFunding]
    cases pickSpFirst coins need <;> simp
  rw [either, sp, rest]
  simp only [pickOrders, cons_append, nil_append, mem_cons, mem_map,
    exists_eq_or_imp, exists_exists_and_eq_and, alone]
  exact or_congr_right or_comm

/-- What a first part of the order leaves out is worth no more than the fee of all coins at
their real sizes has over the fee of the part with every coin at the P2WPKH size. -/
def Spares (coins : List SpendableUtxo) (rate : UInt32) (order : List Nat) : Prop :=
  ∃ k, 1 ≤ k ∧ k ≤ order.length ∧
    (coins.map SpendableUtxo.valueSats).sum + estimateFee k 2 rate ≤
      ((order.take k).map (valueAt (coins.map SpendableUtxo.valueSats))).sum + fundingFee coins rate

/-- Some order of the automatic pick spares enough. -/
def PickSpares (coins : List SpendableUtxo) (rate : UInt32) : Prop :=
  ∃ order ∈ pickOrders coins, Spares coins rate order

theorem length_of_pickOrders {order : List Nat} (isOrder : order ∈ pickOrders coins) :
    order.length ≤ max coins.length 1 := by
  simp only [pickOrders, cons_append, nil_append, mem_cons, mem_map] at isOrder
  rcases isOrder with rfl | rfl | ⟨i, _, rfl⟩
  · rw [(perm_largestFirst _ _).length_eq]
    have short := length_filter_le (fun i => coins[i]?.any fun u => u.chain = chainSp)
      (range coins.length)
    rw [length_range] at short
    exact short.trans (le_max_left _ _)
  · rw [(perm_plain_mixed _ _).length_eq, length_range, length_map]
    exact le_max_left _ _
  · exact le_max_right _ _

/-- Without a taproot coin on offer the two sizes agree and all coins together will do. -/
theorem pickSpares_of_plain (fits : Fits coins) (some : coins ≠ [])
    (plain : ∀ u ∈ coins, inputVbytes u.chain = 68) : PickSpares coins rate := by
  let values := coins.map SpendableUtxo.valueSats
  let mixed := coins.map fun u => isMixed u.chain
  let order := largestFirst values (plainCoins values mixed) ++
    largestFirst values (mixedCoins values mixed)
  have perm : order.Perm (range values.length) := perm_plain_mixed values mixed
  have length : order.length = coins.length := by
    rw [perm.length_eq, length_range, length_map]
  have whole : ((order.take order.length).map (valueAt values)).sum = values.sum := by
    rw [take_length, (perm.map _).sum_eq, map_valueAt_range]
  have sizes : ((coins.map SpendableUtxo.chain).map inputVbytes).sum = 68 * coins.length := by
    rw [map_map]
    have const : coins.map (inputVbytes ∘ SpendableUtxo.chain) = coins.map fun _ => 68 :=
      map_congr_left plain
    rw [const, map_const', sum_replicate, smul_eq_mul, Nat.mul_comm]
  have fees : estimateFee coins.length 2 rate = fundingFee coins rate := by
    rw [(estimateFee_eq rate fits.few).1, (fundingFee_eq rate fits.few).1, sizes]
  refine ⟨order, by simp [pickOrders, order, values, mixed], order.length, ?_, le_rfl, ?_⟩
  · rw [length]
    exact length_pos_of_ne_nil some
  · rw [whole, length, fees]

/-! ## The open -/

variable {outputScript : Script} {changeIndex m : Nat} {pins : Option (List (String × Nat))}

theorem fundingOutputs_ok {spk : Script} (isSpk : W.changeScript changeIndex = .ok spk)
    (outputScript : Script) (channelValueSats changeSats : Nat) :
    ∃ outputs, fundingOutputs W outputScript channelValueSats changeSats changeIndex =
      .ok outputs ∧ outputs.head? = some ⟨channelValueSats, outputScript⟩ := by
  rw [fundingOutputs, isSpk]
  by_cases change : changeSats ≥ dustThresholdSats
  · exact ⟨_, if_pos change, rfl⟩
  · exact ⟨_, if_neg change, rfl⟩

theorem coins_of_places {picked : List Nat} (inside : ∀ i ∈ picked, i < coins.length) :
    (picked.filterMap fun i => coins[i]?).length = picked.length ∧
      (picked.filterMap fun i => coins[i]?).map SpendableUtxo.valueSats =
        picked.map (valueAt (coins.map SpendableUtxo.valueSats)) := by
  induction picked with
  | nil => exact ⟨rfl, rfl⟩
  | cons i picked ih =>
    obtain ⟨first, later⟩ := forall_mem_cons.mp inside
    obtain ⟨lengths, values⟩ := ih later
    have found : coins[i]? = some coins[i] := getElem?_eq_getElem first
    rw [filterMap_cons_some found]
    refine ⟨congrArg (· + 1) lengths, ?_⟩
    rw [map_cons, map_cons, values]
    simp [valueAt, first]

theorem picks_pickFunding {need : Nat → Nat} {picked : List Nat}
    (found : pickFunding coins need = some picked) :
    Picks (coins.map SpendableUtxo.valueSats) need picked := by
  rw [pickFunding] at found
  cases sp : pickSpFirst coins need with
  | none =>
    rw [sp] at found
    exact picks_pickMixedLast found
  | some chosen =>
    rw [sp] at found
    cases found
    rw [pickSpFirst] at sp
    split_ifs at sp
    obtain ⟨places, isPicked, rfl⟩ := Option.map_eq_some_iff.mp sp
    apply (picks_pick isPicked).lift (nodup_range.filter _)
    intro i member
    rw [length_map]
    exact mem_range.mp (mem_of_mem_filter member)

/-- The coins an open has selected: on offer, and enough for the channel and the fee at their
real sizes. -/
structure Funds (candidates : List SpendableUtxo) (m : Nat) (rate : UInt32)
    (selected : List SpendableUtxo) : Prop where
  offered : ∀ u ∈ selected, u ∈ candidates
  short : selected.length ≤ candidates.length
  total : totalOf selected = (selected.map SpendableUtxo.valueSats).sum
  small : (selected.map SpendableUtxo.valueSats).sum < 2 ^ 63
  covers : m + fundingFee selected rate ≤ (selected.map SpendableUtxo.valueSats).sum

theorem funds_of_pins {candidates selected : List SpendableUtxo} {chosen : List (String × Nat)}
    (fits : Fits candidates) (resolved : pickPinned candidates frozen locked chosen = .ok selected)
    (enough : saturatingAdd64 m (fundingFee selected rate) ≤ totalOf selected) :
    Funds candidates m rate selected := by
  obtain ⟨inside, distinct⟩ := resolvePinsFrom_eq_ok (ensure_bind_eq_ok.mp resolved).2
  have offered : ∀ u ∈ selected, u ∈ candidates := fun u member => (inside u member).1
  obtain ⟨short, sum⟩ := sum_le_of_subset distinct offered
  have small := sum.trans_lt fits.small
  refine ⟨offered, short, totalOf_eq small, small, ?_⟩
  rw [totalOf_eq small, saturatingAdd64, u64Max] at enough
  omega

/-- The pick covers its target with every coin at the larger size, so at the real sizes. -/
theorem funds_of_pick {candidates : List SpendableUtxo} {picked : List Nat}
    (fits : Fits candidates)
    (isPicked : pickFunding candidates (fundingNeed m rate) = some picked) :
    Funds candidates m rate (picked.filterMap fun i => candidates[i]?) := by
  have picks := picks_pickFunding isPicked
  have inside : ∀ i ∈ picked, i < candidates.length := by
    intro i member
    simpa using picks.inside i member
  obtain ⟨lengths, values⟩ := coins_of_places inside
  obtain ⟨list, perm, isSublist⟩ := picks.distinct.subperm fun i member =>
    mem_range.mpr (picks.inside i member)
  have short : picked.length ≤ candidates.length := by
    have bound := isSublist.length_le
    rwa [perm.length_eq, length_range, length_map] at bound
  have part : (picked.map (valueAt (candidates.map SpendableUtxo.valueSats))).sum ≤
      (candidates.map SpendableUtxo.valueSats).sum := by
    rw [← (perm.map _).sum_eq]
    conv_rhs => rw [← map_valueAt_range (candidates.map SpendableUtxo.valueSats)]
    exact (isSublist.map _).sum_le_sum fun _ _ => Nat.zero_le _
  have few := fits.few
  have small : ((picked.filterMap fun i => candidates[i]?).map SpendableUtxo.valueSats).sum <
      2 ^ 63 := by
    rw [values]
    exact part.trans_lt fits.small
  refine ⟨fun u member => ?_, lengths.trans_le short, totalOf_eq small, small, ?_⟩
  · obtain ⟨i, _, atPlace⟩ := mem_filterMap.mp member
    exact mem_of_getElem? atPlace
  · have real : fundingFee (picked.filterMap fun i => candidates[i]?) rate ≤ _ :=
      fundingFee_le_estimateFee rate (by omega)
    have bound := (estimateFee_eq rate (n := picked.length) (by omega)).2
    have covers := picks.covers
    rw [lengths] at real
    rw [fundingNeed, saturatingAdd64, u64Max] at covers
    rw [values] at small ⊢
    omega

theorem funds_of_select {selected : List SpendableUtxo}
    (fits : Fits (fundingCandidates view pending marks.heldSet))
    (isSelected : selectFundingCoins view pending marks m rate pins = .ok selected) :
    Funds (fundingCandidates view pending marks.heldSet) m rate selected := by
  obtain ⟨_, rest⟩ := ensure_bind_eq_ok.mp isSelected
  cases pins with
  | some chosen =>
    obtain ⟨coins, resolved, rest⟩ := bind_eq_ok.mp rest
    obtain ⟨enough, isCoins⟩ := ensure_bind_eq_ok.mp rest
    cases pure_eq_ok.mp isCoins
    exact funds_of_pins fits resolved enough
  | none =>
    obtain ⟨picked, isPicked, isCoins⟩ := bind_eq_ok.mp rest
    cases pure_eq_ok.mp isCoins
    exact funds_of_pick fits (context_eq_ok.mp isPicked)

/-- An open that has its coins is built, and pays the channel first. -/
theorem build_of_select {selected : List SpendableUtxo} (keyed : Keyed W selected changeIndex)
    (fits : Fits (fundingCandidates view pending marks.heldSet))
    (isSelected : selectFundingCoins view pending marks m rate pins = .ok selected)
    (openable : ldkMinChannelSats ≤ m) :
    ∃ funding, buildFundingTx W view pending marks outputScript m rate changeIndex pins =
        .ok funding ∧ funding.tx.output.head? = some ⟨m, outputScript⟩ := by
  have funds := funds_of_select fits isSelected
  have covers : add64 m (fundingFee selected rate) ≤ totalOf selected := by
    have enough := funds.covers
    have small := funds.small
    rw [funds.total, add64_of_lt (by omega)]
    exact enough
  obtain ⟨spk, isSpk⟩ := keyed.changeScript
  obtain ⟨outputs, isOutputs, first⟩ := fundingOutputs_ok isSpk outputScript m
    (sub64 (sub64 (totalOf selected) m) (fundingFee selected rate))
  obtain ⟨witnesses, signed⟩ := keyed.signs ⟨2, 0, selected.map inputOf, outputs⟩ rfl
  have unreserved : ¬selected.any (fun u => (reservedOutpoints pending).contains u.outpoint) := by
    simpa using fun u member => not_reserved (funds.offered u member)
  simp only [buildFundingTx, bind_eq_ok, ensure_eq_ok, exists_const, pure_eq_ok]
  exact ⟨_, ⟨openable, selected, isSelected, unreserved, covers, outputs, isOutputs, witnesses,
    signed, rfl⟩, first⟩

/-- A Max counted over `coins` is their value less the fee. -/
theorem max_eq (rate : UInt32) (few : coins.length < 2 ^ 32)
    (small : (coins.map SpendableUtxo.valueSats).sum < 2 ^ 63) (openable : ldkMinChannelSats ≤ m)
    (value : (if coins.isEmpty then 0 else
      totalOf coins - saturatingAdd64 (fundingFee coins rate) anchorFeeReserveSats) = m) :
    coins ≠ [] ∧ m + fundingFee coins rate = (coins.map SpendableUtxo.valueSats).sum := by
  have fee := (fundingFee_eq rate few).2
  rw [ldkMinChannelSats] at openable
  rw [totalOf_eq small, saturatingAdd64, anchorFeeReserveSats, u64Max] at value
  split_ifs at value with empty
  · omega
  · exact ⟨fun none => empty (List.isEmpty_iff.mpr none), by omega⟩

/-- The Max without chosen coins. -/
theorem max_unpinned (fits : Fits (fundingCandidates view pending marks.heldSet))
    (isMax : maxChannelValueWith view pending marks rate none = .ok m)
    (openable : ldkMinChannelSats ≤ m) :
    fundingCandidates view pending marks.heldSet ≠ [] ∧
      m + fundingFee (fundingCandidates view pending marks.heldSet) rate =
        ((fundingCandidates view pending marks.heldSet).map SpendableUtxo.valueSats).sum := by
  have perm := perm_offeredCoins view pending marks.heldSet
  have few := perm.length_eq ▸ fits.few
  have sum := (perm.map SpendableUtxo.valueSats).sum_eq
  obtain ⟨some, isSum⟩ := max_eq rate few (sum ▸ fits.small) openable
    (pure_eq_ok.mp isMax)
  rw [sum, fundingFee_perm perm few] at isSum
  exact ⟨fun none_offered => some (none_offered ▸ perm).eq_nil, isSum⟩

/-- The automatic pick opens a channel of the Max exactly when an order it tries spares
enough. -/
theorem unpinned_iff
    (keyed : ∀ selected, selectFundingCoins view pending marks m rate none = .ok selected →
      Keyed W selected changeIndex)
    (fits : Fits (fundingCandidates view pending marks.heldSet))
    (isMax : maxChannelValueWith view pending marks rate none = .ok m)
    (openable : ldkMinChannelSats ≤ m) :
    (∃ funding, buildFundingTx W view pending marks outputScript m rate changeIndex none =
        .ok funding ∧ funding.tx.output.head? = some ⟨m, outputScript⟩) ↔
      PickSpares (fundingCandidates view pending marks.heldSet) rate := by
  obtain ⟨some, isSum⟩ := max_unpinned fits isMax openable
  generalize isCoins : fundingCandidates view pending marks.heldSet = coins at fits some isSum
  have small := fits.small
  have spares : PickSpares coins rate ↔ (pickFunding coins (fundingNeed m rate)).isSome := by
    have word : ∀ n, fundingNeed m rate n ≤ u64Max := fun n => Nat.min_le_right _ _
    rw [pickFunding_isSome_iff word]
    have same : ∀ order ∈ pickOrders coins, Spares coins rate order ↔
        Covers (coins.map SpendableUtxo.valueSats) (fundingNeed m rate) order := by
      intro order isOrder
      apply exists_congr
      intro k
      refine and_congr_right fun _ => and_congr_right fun short => ?_
      have length := length_of_pickOrders isOrder
      have few := fits.few
      have bound := (estimateFee_eq rate (n := k) (by omega)).2
      rw [fundingNeed, saturatingAdd64, u64Max]
      omega
    constructor
    · rintro ⟨order, isOrder, isSpare⟩
      exact ⟨order, isOrder, (same order isOrder).mp isSpare⟩
    · rintro ⟨order, isOrder, isCover⟩
      exact ⟨order, isOrder, (same order isOrder).mpr isCover⟩
  rw [spares]
  constructor
  · rintro ⟨funding, built, _⟩
    simp only [buildFundingTx, selectFundingCoins, bind_eq_ok, ensure_eq_ok, exists_const,
      context_eq_ok, isCoins] at built
    obtain ⟨_, _, ⟨_, picked, isPicked, _⟩, _⟩ := built
    rw [isPicked]
    rfl
  · intro found
    obtain ⟨picked, isPicked⟩ := Option.isSome_iff_exists.mp found
    have isSelected : selectFundingCoins view pending marks m rate none =
        .ok (picked.filterMap fun i => coins[i]?) := by
      rw [selectFundingCoins, isCoins]
      exact ensure_bind_eq_ok.mpr ⟨some, bind_eq_ok.mpr ⟨picked, context_eq_ok.mpr isPicked, rfl⟩⟩
    have offered : Fits (fundingCandidates view pending marks.heldSet) := isCoins ▸ fits
    exact build_of_select (keyed _ isSelected) offered isSelected openable

/-- Chosen coins open a channel of their Max. -/
theorem pinned_ok {chosen : List (String × Nat)} (sound : Sound view pending)
    (keyed : ∀ selected, selectFundingCoins view pending marks m rate (some chosen) =
      .ok selected → Keyed W selected changeIndex)
    (fits : Fits (fundingCandidates view pending marks.heldSet))
    (isMax : maxChannelValueWith view pending marks rate (some chosen) = .ok m)
    (openable : ldkMinChannelSats ≤ m) :
    ∃ funding, buildFundingTx W view pending marks outputScript m rate changeIndex (some chosen) =
        .ok funding ∧ funding.tx.output.head? = some ⟨m, outputScript⟩ := by
  have distinct : ((fundingCandidates view pending marks.heldSet).map
      SpendableUtxo.outpoint).Nodup :=
    (nodup_gatherSpendable sound marks.heldSet).sublist
      ((candidates_sublist view pending marks.heldSet).map _)
  obtain ⟨coins, isCoins, value⟩ := bind_eq_ok.mp isMax
  have resolved : pickPinned (fundingCandidates view pending marks.heldSet) marks.heldSet
      marks.mixLockedSet chosen = .ok coins := by
    rw [← isCoins]
    exact pickPinned_perm (perm_offeredCoins view pending marks.heldSet).symm distinct chosen
  obtain ⟨inside, distinctCoins⟩ := resolvePinsFrom_eq_ok (ensure_bind_eq_ok.mp resolved).2
  have subset : ∀ u ∈ coins, u ∈ fundingCandidates view pending marks.heldSet :=
    fun u member => (inside u member).1
  obtain ⟨length, sum⟩ := sum_le_of_subset distinctCoins subset
  have small := sum.trans_lt fits.small
  obtain ⟨taken, isSum⟩ := max_eq rate (length.trans_lt fits.few) small openable
    (pure_eq_ok.mp value)
  have some : fundingCandidates view pending marks.heldSet ≠ [] := by
    obtain ⟨u, member⟩ := exists_mem_of_ne_nil _ taken
    exact ne_nil_of_mem (subset u member)
  have enough : saturatingAdd64 m (fundingFee coins rate) ≤ totalOf coins := by
    rw [saturatingAdd64, u64Max, totalOf_eq small]
    omega
  have isSelected : selectFundingCoins view pending marks m rate (.some chosen) = .ok coins :=
    ensure_bind_eq_ok.mpr ⟨some, bind_eq_ok.mpr ⟨coins, resolved,
      ensure_bind_eq_ok.mpr ⟨enough, rfl⟩⟩⟩
  exact build_of_select (keyed _ isSelected) fits isSelected openable

/-- The Max of an open can be opened, and the channel gets all of it, exactly when the coins
were chosen or an order of the automatic pick spares enough. -/
theorem max_openable_iff (W : Wallet) (changeIndex : Nat) (sound : Sound view pending)
    (keyed : ∀ selected, selectFundingCoins view pending marks m rate pins = .ok selected →
      Keyed W selected changeIndex)
    (fits : Fits (fundingCandidates view pending marks.heldSet))
    (isMax : maxChannelValueWith view pending marks rate pins = .ok m)
    (openable : ldkMinChannelSats ≤ m) (outputScript : Script) :
    (∃ funding, buildFundingTx W view pending marks outputScript m rate changeIndex pins =
        .ok funding ∧ funding.tx.output.head? = some ⟨m, outputScript⟩) ↔
      pins.isSome ∨ PickSpares (fundingCandidates view pending marks.heldSet) rate := by
  cases pins with
  | none =>
    rw [unpinned_iff keyed fits isMax openable]
    simp
  | some chosen =>
    constructor
    · intro _
      exact .inl rfl
    · intro _
      exact pinned_ok sound keyed fits isMax openable

/-! ## Taproot coins -/

section Sample

/-- One silent-payment coin of 100,000 sats. -/
def silentCoinView : Tier2View :=
  { Tier2View.empty with
    utxos := [⟨chainSp, 0, 10, 0, 100000, 1, none, none, some 5, none⟩] }

/-- A P2WPKH coin of 100,000 sats and a silent-payment coin of 10. -/
def dustSilentView : Tier2View :=
  { Tier2View.empty with
    utxos := [⟨chainReceive, 0, 10, 0, 100000, 1, none, none, none, none⟩,
      ⟨chainSp, 0, 11, 0, 10, 1, none, none, some 5, none⟩] }

/-- The small taproot coin is left out and the Max can be opened all the same. -/
theorem max_dustSilent :
    (∃ funding, buildFundingTx zeroWallet dustSilentView [] .empty [1] 99811 lowRate 0 none =
        .ok funding ∧ funding.tx.output.head? = some ⟨99811, [1]⟩) := by
  have isMax : maxChannelValueWith dustSilentView [] .empty lowRate none = .ok 99811 := by
    decide +kernel
  have candidates : fundingCandidates dustSilentView [] CoinMarks.empty.heldSet =
      [⟨chainReceive, 0, 10, 0, 100000, none⟩, ⟨chainSp, 0, 11, 0, 10, some 5⟩] := by rfl
  have sound : Sound dustSilentView [] := ⟨by decide, nodup_nil, forall_mem_nil _⟩
  refine (max_openable_iff zeroWallet 0 sound (fun selected _ => keyed_zeroWallet selected 0) ?_
    isMax (by decide) [1]).mpr (.inr ?_)
  · rw [candidates]
    exact ⟨by decide, by decide⟩
  · rw [candidates]
    exact ⟨[0, 1], by decide +kernel, 1, by decide +kernel, by decide +kernel, by decide +kernel⟩

/-- With the silent-payment coin the sheet offers 99,869 sats and the open is refused. -/
theorem max_silentCoin_refused :
    maxChannelValueWith silentCoinView [] .empty lowRate none = .ok 99869 ∧
      ∀ funding, buildFundingTx zeroWallet silentCoinView [] .empty [1] 99869 lowRate 0 none ≠
        .ok funding := by
  refine ⟨by decide +kernel, ?_⟩
  intro funding built
  have refused : (buildFundingTx zeroWallet silentCoinView [] .empty [1] 99869 lowRate 0
      none).isOk = false := by decide +kernel
  rw [built] at refused
  cases refused

end Sample

end Lij.ChannelOpen
