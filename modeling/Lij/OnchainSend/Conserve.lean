import Lij.OnchainSend.Plan

/-!
# What a plan keeps

A plan spends coins on offer, each once, and the integer sum of the coins is what
the recipients get, the fee and the change together. The amounts asked for are
added as 64-bit words, so this holds exactly while their sum has not wrapped.
-/

namespace Lij.OnchainSend

open Bitcoin Tier2 Word Checked List

/-! ## The estimate as a number -/

theorem satPerVb_le (rate : UInt32) : satPerVb rate ≤ 17179870 := by
  have small := rate.toNat_lt
  unfold satPerVb
  omega

theorem inputVbytes_le (chain : Nat) : inputVbytes chain ≤ 68 := by
  unfold inputVbytes
  split_ifs <;> omega

theorem sum_inputVbytes_le (chains : List Nat) :
    (chains.map inputVbytes).sum ≤ 68 * chains.length := by
  induction chains with
  | nil => exact le_rfl
  | cons chain chains ih =>
    have one := inputVbytes_le chain
    rw [map_cons, sum_cons, length_cons]
    omega

variable {selected : List SpendableUtxo}

/-- With a number of coins that fits the memory, the estimate does not wrap. -/
theorem estimateFeeInputs_eq {nOut extra : Nat} (rate : UInt32) (few : selected.length < 2 ^ 32)
    (outputs : nOut ≤ 21) (extras : extra ≤ 240) : estimateFeeInputs selected nOut extra rate =
        (11 + ((selected.map SpendableUtxo.chain).map inputVbytes).sum + 31 * nOut + extra) *
          satPerVb rate ∧
      estimateFeeInputs selected nOut extra rate < 2 ^ 63 - 294 := by
  have inputs := sum_inputVbytes_le (selected.map SpendableUtxo.chain)
  rw [length_map] at inputs
  have inner : sum64 ((selected.map SpendableUtxo.chain).map inputVbytes) =
      ((selected.map SpendableUtxo.chain).map inputVbytes).sum := sum64_of_lt (by omega)
  rw [estimateFeeInputs, estimateFeeChains, inner]
  generalize ((selected.map SpendableUtxo.chain).map inputVbytes).sum = size at *
  have outer : mul64 31 nOut = 31 * nOut := mul64_of_lt (by omega)
  have vsize : sum64 [11, size, mul64 68 0, mul64 31 nOut, extra] =
      11 + size + 31 * nOut + extra := by
    have total : [11, size, mul64 68 0, mul64 31 nOut, extra].sum =
        11 + size + 31 * nOut + extra := by
      rw [outer]
      simp only [mul64, sum_cons, sum_nil]
      omega
    rw [sum64_of_lt (by omega), total]
  have bound : (11 + size + 31 * nOut + extra) * satPerVb rate < 2 ^ 63 - 294 := by
    calc (11 + size + 31 * nOut + extra) * satPerVb rate
        ≤ (11 + 68 * 2 ^ 32 + 31 * 21 + 240) * 17179870 :=
          Nat.mul_le_mul (by omega) (satPerVb_le rate)
      _ < 2 ^ 63 - 294 := by norm_num
  rw [vsize, mul64_of_lt (by omega)]
  exact ⟨rfl, bound⟩

/-! ## The recipients of a plan -/

variable {W : Wallet} {recipients : List Recipient} {rate : UInt32}
variable {spendable : List SpendableUtxo} {frozen locked : List OutPoint}
variable {pins : Option (List (String × Nat))} {plan : Plan}

theorem checkRecipient_eq_ok {nDest i : Nat} {r : Recipient} {dest : Dest}
    (ok : checkRecipient W nDest i r = .ok dest) :
    W.parseDest r.dest = .ok dest ∧ (r.amountSats = none → i + 1 = nDest) := by
  cases amount : r.amountSats <;> simp only [checkRecipient, amount, bind_eq_ok, mapError_eq_ok,
    ensure_eq_ok, exists_const, pure_eq_ok] at ok
  · obtain ⟨_, isDest, last, rfl⟩ := ok
    exact ⟨isDest, fun _ => last⟩
  · obtain ⟨_, isDest, _, _, rfl⟩ := ok
    exact ⟨isDest, fun isNone => by cases isNone⟩

variable {dests : List Dest}

/-- Each recipient has its destination, and only the last one may leave the amount open. -/
theorem checkRecipients_eq_ok {nDest : Nat} (ok : checkRecipients W nDest recipients = .ok dests) :
    dests.length = recipients.length ∧ ∀ i r, recipients[i]? = some r →
      (∃ dest, dests[i]? = some dest ∧ W.parseDest r.dest = .ok dest) ∧
      (r.amountSats = none → i + 1 = nDest) := by
  have each := mapM_eq_ok.mp ok
  have lengths := each.length_eq
  rw [length_zipIdx] at lengths
  refine ⟨lengths.symm, fun i r atPlace => ?_⟩
  obtain ⟨inside, isPlace⟩ := List.getElem?_eq_some_iff.mp atPlace
  have inDests : i < dests.length := lengths ▸ inside
  have checked := (forall₂_iff_get.mp each).2 i (by simpa using inside) inDests
  simp only [get_eq_getElem, getElem_zipIdx, isPlace, Nat.zero_add] at checked
  obtain ⟨parsed, last⟩ := checkRecipient_eq_ok checked
  exact ⟨⟨dests[i], getElem?_eq_getElem inDests, parsed⟩, last⟩

theorem getElem?_requested {recipients : List Recipient}
    (all : ∀ r ∈ recipients, r.amountSats ≠ none) (i : Nat) :
    (requested recipients)[i]? = recipients[i]?.bind Recipient.amountSats := by
  induction recipients generalizing i with
  | nil => rfl
  | cons r recipients ih =>
    obtain ⟨known, rest⟩ := forall_mem_cons.mp all
    obtain ⟨amount, isAmount⟩ := Option.ne_none_iff_exists'.mp known
    rw [requested, filterMap_cons_some isAmount]
    cases i with
    | zero => exact isAmount.symm
    | succ i => exact ih rest i

/-! ## What the two kinds of plan are -/

theorem planRest_eq_ok {extra : Nat}
    (ok : planRest recipients dests extra rate selected = .ok plan) :
    add64 (add64 (sum64 (requested recipients))
        (estimateFeeInputs selected recipients.length extra rate)) dustThresholdSats <
      totalOf selected ∧
    plan = {
      dests, selected
      amounts := requested recipients.dropLast ++
        [sub64 (sub64 (totalOf selected) (sum64 (requested recipients)))
          (estimateFeeInputs selected recipients.length extra rate)]
      feeSats := estimateFeeInputs selected recipients.length extra rate
      changeSats := 0, foldedSats := 0, totalIn := totalOf selected } := by
  obtain ⟨left, rest⟩ := ensure_bind_eq_ok.mp ok
  exact ⟨Nat.lt_of_not_le left, (pure_eq_ok.mp rest).symm⟩

theorem planExact_eq_ok {extra : Nat} {chosen : Option (List SpendableUtxo)}
    (ok : planExact recipients dests extra rate spendable frozen locked chosen = .ok plan) :
    ∃ selected settled, selectExact (sum64 (requested recipients)) recipients.length extra rate
        spendable frozen locked chosen = .ok selected ∧
      add64 (sum64 (requested recipients))
        (estimateFeeInputs selected (recipients.length + 1) extra rate) ≤ totalOf selected ∧
      settled = settleChange (totalOf selected) (sum64 (requested recipients))
        (estimateFeeInputs selected (recipients.length + 1) extra rate) ∧
      plan = {
        dests, selected
        amounts := requested recipients
        feeSats := settled.feeSats
        changeSats := settled.changeSats
        foldedSats := settled.foldedSats
        totalIn := totalOf selected } := by
  obtain ⟨selected, isSelected, rest⟩ := bind_eq_ok.mp ok
  obtain ⟨enough, rest⟩ := ensure_bind_eq_ok.mp rest
  exact ⟨selected, _, isSelected, Nat.le_of_not_lt enough, rfl, (pure_eq_ok.mp rest).symm⟩

theorem planSend_eq_ok (ok : planSend W recipients rate spendable frozen locked pins = .ok plan) :
    ∃ dests chosen, recipients.length ≠ 0 ∧ recipients.length ≤ maxRecipients ∧
      checkRecipients W recipients.length recipients = .ok dests ∧
      choose spendable frozen locked pins = .ok chosen ∧
      (takesRest recipients = true ∧ planRest recipients dests (sum64 (dests.map destExtraVbytes))
          rate (chosen.getD spendable) = .ok plan ∨
        takesRest recipients = false ∧ planExact recipients dests
          (sum64 (dests.map destExtraVbytes)) rate spendable frozen locked chosen = .ok plan) := by
  simp only [planSend, bind_eq_ok, ensure_eq_ok, exists_const] at ok
  obtain ⟨some, few, dests, checked, _, chosen, isChosen, rest⟩ := ok
  refine ⟨dests, chosen, some, few, checked, isChosen, ?_⟩
  split_ifs at rest with takes
  · exact .inl ⟨takes, rest⟩
  · exact .inr ⟨Bool.eq_false_iff.mpr takes, rest⟩

/-! ## The coins of a plan -/

/-- The chosen coins are on offer, are named by the pins and are different. -/
theorem resolvePinsFrom_eq_ok {seen pins : List (String × Nat)} {coins : List SpendableUtxo}
    (ok : resolvePinsFrom spendable frozen locked seen pins = .ok coins) :
    (∀ u ∈ coins, u ∈ spendable ∧
        (u.outpoint.txid.text.toLower, u.outpoint.vout) ∉ seen) ∧
      (coins.map SpendableUtxo.outpoint).Nodup := by
  induction pins generalizing seen coins with
  | nil =>
    cases ok
    exact ⟨nofun, nodup_nil⟩
  | cons pin pins ih =>
    rw [resolvePinsFrom] at ok
    split_ifs at ok with again held
    · exact ih ok
    · obtain ⟨u, found, rest⟩ := bind_eq_ok.mp ok
      obtain ⟨others, isOthers, rest⟩ := bind_eq_ok.mp rest
      cases pure_eq_ok.mp rest
      have found := context_eq_ok.mp found
      have isNamed : named u.outpoint pin = true := by simpa using find?_some found
      have key := named_iff.mp isNamed
      have new : (pin.1.toLower, pin.2) ∉ seen := by simpa using again
      obtain ⟨inside, distinct⟩ := ih isOthers
      refine ⟨forall_mem_cons.mpr ⟨⟨mem_of_find?_eq_some found, ?_⟩, ?_⟩, ?_⟩
      · rw [key]
        exact new
      · intro v member
        exact ⟨(inside v member).1, fun old => (inside v member).2 (mem_cons_of_mem _ old)⟩
      · refine nodup_cons.mpr ⟨fun again => ?_, distinct⟩
        obtain ⟨v, member, same⟩ := mem_map.mp again
        refine (inside v member).2 (mem_cons.mpr (.inl ?_))
        rw [same, key]

/-- Coins at different places are different coins. -/
theorem nodup_filterMap_getElem? {spendable : List SpendableUtxo}
    (distinct : (spendable.map SpendableUtxo.outpoint).Nodup) {picked : List Nat}
    (places : picked.Nodup) :
    ((picked.filterMap fun i => spendable[i]?).map SpendableUtxo.outpoint).Nodup := by
  rw [map_filterMap]
  refine places.filterMap fun i j op atI atJ => ?_
  rw [Option.mem_def, ← getElem?_map] at atI atJ
  exact (getElem?_inj (List.getElem?_eq_some_iff.mp atI).1 distinct).mp (atI.trans atJ.symm)

/-- A plan spends coins on offer, each once. -/
theorem planSend_selected
    (ok : planSend W recipients rate spendable frozen locked pins = .ok plan)
    (distinct : (spendable.map SpendableUtxo.outpoint).Nodup) :
    (∀ u ∈ plan.selected, u ∈ spendable) ∧ (plan.selected.map SpendableUtxo.outpoint).Nodup := by
  obtain ⟨dests, chosen, _, _, _, isChosen, mode⟩ := planSend_eq_ok ok
  have pinned : ∀ coins, chosen = some coins →
      (∀ u ∈ coins, u ∈ spendable) ∧ (coins.map SpendableUtxo.outpoint).Nodup := by
    rintro coins rfl
    cases pins with
    | none => cases pure_eq_ok.mp isChosen
    | some pins =>
      obtain ⟨found, resolved, rest⟩ := bind_eq_ok.mp isChosen
      cases pure_eq_ok.mp rest
      obtain ⟨inside, distinct⟩ := resolvePinsFrom_eq_ok (ensure_bind_eq_ok.mp resolved).2
      exact ⟨fun u member => (inside u member).1, distinct⟩
  obtain ⟨_, rest⟩ | ⟨_, exact⟩ := mode
  · obtain ⟨_, rfl⟩ := planRest_eq_ok rest
    cases chosen with
    | none => exact ⟨fun _ member => member, distinct⟩
    | some coins => exact pinned coins rfl
  · obtain ⟨selected, _, isSelected, _, rfl, rfl⟩ := planExact_eq_ok exact
    cases chosen with
    | none =>
      obtain ⟨picked, isPicked, rest⟩ := bind_eq_ok.mp isSelected
      cases pure_eq_ok.mp rest
      have picks := CoinSelect.picks_pickMixedLast (context_eq_ok.mp isPicked)
      refine ⟨fun u member => ?_, nodup_filterMap_getElem? distinct picks.distinct⟩
      obtain ⟨i, _, atPlace⟩ := mem_filterMap.mp member
      exact mem_of_getElem? atPlace
    | some coins =>
      obtain ⟨_, rest⟩ := ensure_bind_eq_ok.mp isSelected
      cases pure_eq_ok.mp rest
      exact pinned _ rfl

/-! ## The amounts of a plan -/

theorem takesRest_iff : takesRest recipients = true ↔
    ∃ init last, recipients = init ++ [last] ∧ last.amountSats = none := by
  constructor
  · intro takes
    obtain ⟨last, isLast, isOpen⟩ := (Option.any_eq_true _ _).mp takes
    obtain ⟨init, rfl⟩ := getLast?_eq_some_iff.mp isLast
    exact ⟨init, last, rfl, Option.isNone_iff_eq_none.mp isOpen⟩
  · rintro ⟨init, last, rfl, isOpen⟩
    simp [takesRest, isOpen]

/-- Only the last recipient's amount is open. -/
theorem amounts_known (checked : checkRecipients W recipients.length recipients = .ok dests) :
    (takesRest recipients = false → ∀ r ∈ recipients, r.amountSats ≠ none) ∧
    ∀ init last, recipients = init ++ [last] → ∀ r ∈ init, r.amountSats ≠ none := by
  have known := (checkRecipients_eq_ok checked).2
  constructor
  · intro takes r member isOpen
    obtain ⟨i, atPlace⟩ := mem_iff_getElem?.mp member
    have isLast := (known i r atPlace).2 isOpen
    have last : recipients.getLast? = some r := by
      rw [getLast?_eq_getElem?, ← isLast, Nat.add_sub_cancel, atPlace]
    obtain ⟨init, split⟩ := getLast?_eq_some_iff.mp last
    rw [takesRest_iff.mpr ⟨init, r, split, isOpen⟩] at takes
    cases takes
  · rintro init last rfl r member isOpen
    obtain ⟨i, inside, rfl⟩ := mem_iff_getElem.mp member
    have atPlace : (init ++ [last])[i]? = some init[i] := by
      rw [getElem?_append_left inside, getElem?_eq_getElem inside]
    have isLast := (known i _ atPlace).2 isOpen
    rw [length_append, length_singleton] at isLast
    omega

theorem length_requested {recipients : List Recipient}
    (all : ∀ r ∈ recipients, r.amountSats ≠ none) :
    (requested recipients).length = recipients.length := by
  refine filterMap_length_eq_length.mpr fun r member => ?_
  exact Option.isSome_iff_ne_none.mpr (all r member)

/-- Every recipient gets an amount, and gets what was asked for it. -/
theorem planSend_amounts
    (ok : planSend W recipients rate spendable frozen locked pins = .ok plan) :
    plan.amounts.length = recipients.length ∧ ∀ (i : Nat) (r : Recipient),
      recipients[i]? = some r → ∀ amount, r.amountSats = some amount →
        plan.amounts[i]? = some amount := by
  obtain ⟨dests, chosen, _, _, checked, _, mode⟩ := planSend_eq_ok ok
  obtain ⟨allKnown, initKnown⟩ := amounts_known checked
  obtain ⟨takes, rest⟩ | ⟨takes, exact⟩ := mode
  · obtain ⟨_, rfl⟩ := planRest_eq_ok rest
    obtain ⟨init, last, rfl, isOpen⟩ := takesRest_iff.mp takes
    have known := initKnown init last rfl
    have lengths := length_requested known
    simp only [dropLast_concat]
    refine ⟨by simp [lengths], fun i r atPlace amount isAmount => ?_⟩
    have inside : i < init.length := by
      by_contra outside
      rw [getElem?_append_right (Nat.le_of_not_lt outside)] at atPlace
      have isLast : r = last := mem_singleton.mp (mem_of_getElem? atPlace)
      rw [isLast, isOpen] at isAmount
      cases isAmount
    rw [getElem?_append_left inside] at atPlace
    rw [getElem?_append_left (lengths ▸ inside), getElem?_requested known, atPlace]
    exact isAmount
  · obtain ⟨selected, _, _, _, _, rfl⟩ := planExact_eq_ok exact
    refine ⟨length_requested (allKnown takes), fun i r atPlace amount isAmount => ?_⟩
    rw [getElem?_requested (allKnown takes), atPlace]
    exact isAmount

theorem extraVbytes_le (dests : List Dest) :
    (dests.map destExtraVbytes).sum ≤ 12 * dests.length := by
  induction dests with
  | nil => exact le_rfl
  | cons dest dests ih =>
    have one : destExtraVbytes dest ≤ 12 := by
      cases dest
      · exact Nat.zero_le 12
      · exact le_rfl
    rw [map_cons, sum_cons, length_cons]
    omega

/-- Twelve vbytes for each silent payment, without a wrap. -/
theorem extraVbytes_eq (few : dests.length ≤ maxRecipients) :
    sum64 (dests.map destExtraVbytes) = (dests.map destExtraVbytes).sum ∧
      sum64 (dests.map destExtraVbytes) ≤ 240 := by
  have bound := extraVbytes_le dests
  have twenty : maxRecipients = 20 := rfl
  rw [sum64_of_lt (by omega)]
  exact ⟨rfl, by omega⟩

/-! ## The balance -/

theorem sum_le_of_subset {selected spendable : List SpendableUtxo}
    (distinct : (selected.map SpendableUtxo.outpoint).Nodup)
    (subset : ∀ u ∈ selected, u ∈ spendable) :
    selected.length ≤ spendable.length ∧ (selected.map SpendableUtxo.valueSats).sum ≤
      (spendable.map SpendableUtxo.valueSats).sum := by
  obtain ⟨part, perm, sub⟩ := (distinct.of_map _).subperm subset
  refine ⟨(distinct.of_map _).subperm subset |>.length_le, ?_⟩
  rw [← (perm.map SpendableUtxo.valueSats).sum_eq]
  exact (sub.map SpendableUtxo.valueSats).sum_le_sum fun _ _ => Nat.zero_le _

/-- The coins on offer: few enough for a 32-bit length, and their total below half a word. The
whole money supply is less than 2^51 sats. -/
structure Fits (spendable : List SpendableUtxo) : Prop where
  few : spendable.length < 2 ^ 32
  small : (spendable.map SpendableUtxo.valueSats).sum < 2 ^ 63

/-- The coins are what the recipients get, the fee and the change together, over the
integers. -/
def Plan.Balanced (plan : Plan) : Prop :=
  (plan.selected.map SpendableUtxo.valueSats).sum =
    plan.amounts.sum + plan.feeSats + plan.changeSats

instance (plan : Plan) : Decidable plan.Balanced := inferInstanceAs (Decidable (_ = _))

theorem settleChange_change (total paid fee : Nat) :
    (settleChange total paid fee).changeSats = 0 ∨
      dustThresholdSats ≤ (settleChange total paid fee).changeSats := by
  rw [settleChange]
  split_ifs with dust
  · exact .inl rfl
  · exact .inr (Nat.le_of_not_lt dust)

theorem settleChange_balanced {total paid fee : Nat} (covers : paid + fee ≤ total)
    (small : total < 2 ^ 64) :
    total =
      paid + (settleChange total paid fee).feeSats + (settleChange total paid fee).changeSats := by
  rw [settleChange]
  split_ifs with dust
  · have noWrap : saturatingAdd64 fee (total - paid - fee) = fee + (total - paid - fee) := by
      rw [saturatingAdd64, u64Max]
      omega
    simp only [noWrap]
    omega
  · simp only
    omega

theorem totalOf_eq {coins : List SpendableUtxo}
    (small : (coins.map SpendableUtxo.valueSats).sum < 2 ^ 63) :
    totalOf coins = (coins.map SpendableUtxo.valueSats).sum := sum64_of_lt (by omega)

theorem planRest_balanced_iff {extra : Nat}
    (ok : planRest recipients dests extra rate selected = .ok plan) (fits : Fits selected)
    (few : recipients.length ≤ maxRecipients) (extras : extra ≤ 240) {init : List Recipient}
    {last : Recipient} (split : recipients = init ++ [last]) (isOpen : last.amountSats = none) :
    plan.Balanced ↔ (requested recipients).sum < 2 ^ 63 := by
  obtain ⟨left, rfl⟩ := planRest_eq_ok ok
  have twenty : maxRecipients = 20 := rfl
  have asked : requested recipients = requested init := by
    rw [split, requested, filterMap_append, filterMap_cons_none isOpen,
      filterMap_nil, append_nil]
    rfl
  have feeSmall : estimateFeeInputs selected recipients.length extra rate < 2 ^ 63 - 294 :=
    (estimateFeeInputs_eq rate fits.few (by omega) extras).2
  have total := fits.small
  rw [asked, totalOf_eq total] at left
  rw [Plan.Balanced, asked, totalOf_eq total, split, dropLast_concat, ← split]
  simp only [sum_append, sum_singleton]
  generalize estimateFeeInputs selected recipients.length extra rate = fee at *
  generalize (selected.map SpendableUtxo.valueSats).sum = coins at *
  generalize isSum : (requested init).sum = amounts at *
  have dust : dustThresholdSats = 294 := rfl
  constructor
  · intro balanced
    omega
  · intro small
    have fixed : sum64 (requested init) = amounts := by
      rw [sum64_of_lt (by omega), isSum]
    rw [fixed, add64_of_lt (a := amounts) (b := fee) (by omega),
      add64_of_lt (by omega)] at left
    rw [fixed, sub64_of_le (b := amounts) (by omega) (by omega),
      sub64_of_le (by omega) (by omega)]
    omega

theorem planExact_balanced_iff {extra : Nat} (covers : add64 (sum64 (requested recipients))
      (estimateFeeInputs selected (recipients.length + 1) extra rate) ≤ totalOf selected)
    (isPlan : plan.selected = selected ∧ plan.amounts = requested recipients ∧
      plan.feeSats = (settleChange (totalOf selected) (sum64 (requested recipients))
        (estimateFeeInputs selected (recipients.length + 1) extra rate)).feeSats ∧
      plan.changeSats = (settleChange (totalOf selected) (sum64 (requested recipients))
        (estimateFeeInputs selected (recipients.length + 1) extra rate)).changeSats)
    (fits : Fits selected) (few : recipients.length ≤ maxRecipients) (extras : extra ≤ 240) :
    plan.Balanced ↔ (requested recipients).sum < 2 ^ 63 := by
  obtain ⟨isSelected, isAmounts, isFee, isChange⟩ := isPlan
  have twenty : maxRecipients = 20 := rfl
  have feeSmall : estimateFeeInputs selected (recipients.length + 1) extra rate < 2 ^ 63 - 294 :=
    (estimateFeeInputs_eq rate fits.few (by omega) extras).2
  have total := fits.small
  rw [totalOf_eq total] at covers isFee isChange
  rw [Plan.Balanced, isSelected, isAmounts, isFee, isChange]
  generalize estimateFeeInputs selected (recipients.length + 1) extra rate = fee at *
  generalize (selected.map SpendableUtxo.valueSats).sum = coins at *
  constructor
  · intro balanced
    omega
  · intro small
    have fixed : sum64 (requested recipients) = (requested recipients).sum :=
      sum64_of_lt (by omega)
    rw [fixed, add64_of_lt (by omega)] at covers
    rw [fixed]
    exact settleChange_balanced covers (by omega)

/-- A plan is balanced exactly when the amounts asked for stay below half a word. -/
theorem planSend_balanced_iff
    (ok : planSend W recipients rate spendable frozen locked pins = .ok plan)
    (distinct : (spendable.map SpendableUtxo.outpoint).Nodup) (fits : Fits spendable) :
    (plan.Balanced ↔ (requested recipients).sum < 2 ^ 63) ∧
      (plan.changeSats = 0 ∨ dustThresholdSats ≤ plan.changeSats) := by
  obtain ⟨subset, different⟩ := planSend_selected ok distinct
  obtain ⟨shorter, smaller⟩ := sum_le_of_subset different subset
  have fitsSelected : Fits plan.selected :=
    ⟨shorter.trans_lt fits.few, smaller.trans_lt fits.small⟩
  obtain ⟨dests, chosen, _, few, checked, _, mode⟩ := planSend_eq_ok ok
  have extras := (extraVbytes_eq ((checkRecipients_eq_ok checked).1 ▸ few)).2
  obtain ⟨takes, rest⟩ | ⟨takes, exact⟩ := mode
  · obtain ⟨init, last, split, isOpen⟩ := takesRest_iff.mp takes
    obtain ⟨_, isPlan⟩ := planRest_eq_ok rest
    have isSelected : plan.selected = chosen.getD spendable := by rw [isPlan]
    refine ⟨planRest_balanced_iff rest (isSelected ▸ fitsSelected) few extras split isOpen, ?_⟩
    rw [isPlan]
    exact .inl rfl
  · obtain ⟨selected, _, _, covers, rfl, rfl⟩ := planExact_eq_ok exact
    exact ⟨planExact_balanced_iff covers ⟨rfl, rfl, rfl, rfl⟩ fitsSelected few extras,
      settleChange_change _ _ _⟩

/-! ## The coins on offer -/

section Offered

variable {view : Tier2View} {pending : List PendingTx} {marks : CoinMarks}

/-- The ledger lists each coin once, and so does the pending list its change. -/
structure Sound (view : Tier2View) (pending : List PendingTx) : Prop where
  coins : (view.utxos.map OnchainUtxo.outpoint).Nodup
  rows : OwnRows pending

/-- A coin this wallet may spend now. -/
structure Sendable (view : Tier2View) (pending : List PendingTx) (marks : CoinMarks)
    (u : SpendableUtxo) : Prop where
  unspent : (∃ c ∈ view.utxos, c.outpoint = u.outpoint ∧ c.valueSats = u.valueSats ∧
      c.spentHeight = none) ∨
    ∃ p ∈ pending, p.changeOutpoint = some u.outpoint ∧ p.changeValueSats = u.valueSats ∧
      view.holds u.outpoint = false
  unreserved : u.outpoint ∉ reservedOutpoints pending
  notFrozen : u.outpoint ∉ marks.frozenSet
  notHeld : u.outpoint ∉ marks.mixLocks

theorem sendable_of_mem {u : SpendableUtxo}
    (offered : u ∈ gatherSpendable view pending marks.heldSet) :
    Sendable view pending marks u := by
  have free : ∀ op, op ∉ marks.heldSet → op ∉ marks.frozenSet ∧ op ∉ marks.mixLocks := by
    intro op notHeld
    rw [CoinMarks.heldSet, mem_append, not_or, CoinMarks.mem_mixLockedSet] at notHeld
    exact notHeld
  obtain known | change := mem_append.mp offered
  · obtain ⟨c, member, rfl⟩ := mem_map.mp known
    obtain ⟨inView, kept⟩ := mem_filter.mp member
    simp only [Bool.and_eq_true, Option.isNone_iff_eq_none, Bool.not_eq_true',
      contains_eq_mem, decide_eq_false_iff_not] at kept
    obtain ⟨⟨⟨unspent, _⟩, unreserved⟩, notHeld⟩ := kept
    obtain ⟨notFrozen, notLocked⟩ := free _ notHeld
    exact ⟨.inl ⟨c, inView, rfl, rfl, unspent⟩, unreserved, notFrozen, notLocked⟩
  · obtain ⟨c, member, rfl⟩ := mem_map.mp change
    obtain ⟨isChange, kept⟩ := mem_filter.mp member
    simp only [Bool.not_eq_true', contains_eq_mem, decide_eq_false_iff_not] at kept
    obtain ⟨notFrozen, notLocked⟩ := free _ kept
    obtain ⟨p, inPending, isChange⟩ := mem_unconfirmedChangeUtxos.mp isChange
    obtain ⟨op, output, rfl, _, unreserved, unknown⟩ := unconfirmedChangeOf_eq_some isChange
    exact ⟨.inr ⟨p, inPending, output, rfl, unknown⟩, unreserved, notFrozen, notLocked⟩

theorem nodup_changes_sublist (view : Tier2View) (reserved : List OutPoint)
    (pending : List PendingTx) :
    ((pending.filterMap (unconfirmedChangeOf view reserved)).map OnchainUtxo.outpoint).Sublist
      (pending.filterMap PendingTx.changeOutpoint) := by
  induction pending with
  | nil => exact .slnil
  | cons p pending ih =>
    cases found : unconfirmedChangeOf view reserved p with
    | none =>
      rw [filterMap_cons_none found]
      exact ih.trans (List.Sublist.filterMap _ (sublist_cons_self p pending))
    | some u =>
      obtain ⟨op, change, rfl, _⟩ := unconfirmedChangeOf_eq_some found
      rw [filterMap_cons_some found, filterMap_cons_some change]
      exact ih.cons_cons op

/-- No change is offered twice. -/
theorem nodup_unconfirmedChangeUtxos (rows : OwnRows pending) :
    ((unconfirmedChangeUtxos view pending).map OnchainUtxo.outpoint).Nodup := by
  have sorted := perm_insertionSort (fun a b : PendingTx => b.createdAtMs ≤ a.createdAtMs)
    pending
  have changes := (sorted.filterMap PendingTx.changeOutpoint).nodup_iff.mpr rows.nodup_changes
  exact changes.sublist (nodup_changes_sublist view _ _)

/-- No coin is offered twice. -/
theorem nodup_gatherSpendable (sound : Sound view pending) (frozen : List OutPoint) :
    ((gatherSpendable view pending frozen).map SpendableUtxo.outpoint).Nodup := by
  have asCoins : ∀ coins : List OnchainUtxo,
      (coins.map SpendableUtxo.fromUtxo).map SpendableUtxo.outpoint =
        coins.map OnchainUtxo.outpoint := fun coins => by simp
  rw [gatherSpendable, map_append, asCoins, asCoins]
  refine List.Nodup.append (sound.coins.sublist (filter_sublist.map _)) ?_ ?_
  · exact (nodup_unconfirmedChangeUtxos sound.rows).sublist (filter_sublist.map _)
  · intro op first second
    obtain ⟨c, member, rfl⟩ := mem_map.mp first
    obtain ⟨c', member', same⟩ := mem_map.mp second
    obtain ⟨p, _, isChange⟩ := mem_unconfirmedChangeUtxos.mp (mem_of_mem_filter member')
    obtain ⟨op, _, rfl, _, _, unknown⟩ := unconfirmedChangeOf_eq_some isChange
    have held : view.holds op = true :=
      Ledger.holds_iff.mpr ⟨c, mem_of_mem_filter member, same.symm⟩
    rw [unknown] at held
    cases held

end Offered

/-! ## The transaction of a plan -/

/-- A destination's script is its own, or a derived one for a silent payment. -/
theorem destScripts_eq_ok {derived scripts : List Script}
    (ok : destScripts dests derived = .ok scripts) :
    List.Forall₂ (fun dest spk => dest = .script spk ∨
      (∃ address, dest = .silentPayment address) ∧ spk ∈ derived) dests scripts := by
  induction dests generalizing derived scripts with
  | nil =>
    cases ok
    exact .nil
  | cons dest dests ih =>
    cases dest with
    | script own =>
      obtain ⟨rest, isRest, made⟩ := bind_eq_ok.mp ok
      cases pure_eq_ok.mp made
      exact .cons (.inl rfl) (ih isRest)
    | silentPayment address =>
      cases derived with
      | nil => cases ok
      | cons own derived =>
        obtain ⟨rest, isRest, made⟩ := bind_eq_ok.mp ok
        cases pure_eq_ok.mp made
        refine .cons (.inr ⟨⟨_, rfl⟩, mem_cons_self⟩) ((ih isRest).imp fun _ _ => ?_)
        exact Or.imp_right (And.imp_right (mem_cons_of_mem _))

theorem resolveDestScripts_eq_ok {scripts : List Script}
    (ok : resolveDestScripts W dests selected = .ok scripts) :
    ∃ derived, (derived = [] ∨
        W.deriveOutputScripts selected (dests.filterMap Dest.spAddress) = .ok derived) ∧
      List.Forall₂ (fun dest spk => dest = .script spk ∨
        (∃ address, dest = .silentPayment address) ∧ spk ∈ derived) dests scripts := by
  rw [resolveDestScripts] at ok
  split_ifs at ok
  · exact ⟨[], .inl rfl, destScripts_eq_ok ok⟩
  · obtain ⟨derived, isDerived, made⟩ := bind_eq_ok.mp ok
    exact ⟨derived, .inr isDerived, destScripts_eq_ok made⟩

/-- The transaction before it is signed. -/
def unsigned (plan : Plan) (scripts : List Script) (change : List TxOut) : Transaction where
  version := 2
  lockTime := 0
  input := plan.selected.map inputOf
  output := zipWith (fun spk amount => ⟨amount, spk⟩) scripts plan.amounts ++ change

variable {tx : Transaction}

theorem buildTx_eq_ok {changeIndex : Nat} (ok : buildTx W plan changeIndex = .ok tx) :
    ∃ scripts change witnesses, resolveDestScripts W plan.dests plan.selected = .ok scripts ∧
      changeOutput W plan.changeSats changeIndex = .ok change ∧
      signInputs W (unsigned plan scripts change) plan.selected = .ok witnesses ∧
      tx = withWitnesses (unsigned plan scripts change) witnesses := by
  simp only [buildTx, bind_eq_ok, pure_eq_ok] at ok
  obtain ⟨scripts, resolved, change, isChange, witnesses, signed, rfl⟩ := ok
  exact ⟨scripts, change, witnesses, resolved, isChange, signed, rfl⟩

theorem length_signInputs {witnesses : List (List Bytes)}
    (ok : signInputs W tx selected = .ok witnesses) : witnesses.length = selected.length := by
  have lengths := (mapM_eq_ok.mp ok).length_eq
  rw [length_zipIdx] at lengths
  exact lengths.symm

theorem previousOutputs_withWitnesses {witnesses : List (List Bytes)}
    (lengths : witnesses.length = tx.input.length) :
    (withWitnesses tx witnesses).input.map TxIn.previousOutput =
      tx.input.map TxIn.previousOutput := by
  rw [withWitnesses, map_zipWith]
  refine ext_getElem (by simp [lengths]) fun i _ _ => ?_
  simp

/-- There is a change output exactly when there is change, and it has the change's value. -/
theorem changeOutput_eq_ok {changeSats changeIndex : Nat} {change : List TxOut}
    (ok : changeOutput W changeSats changeIndex = .ok change) :
    (change.map TxOut.value).sum = changeSats ∧
    change.length = if changeSats > 0 then 1 else 0 := by
  rw [changeOutput] at ok
  split_ifs at ok ⊢ with some
  · obtain ⟨spk, _, rest⟩ := bind_eq_ok.mp ok
    cases pure_eq_ok.mp rest
    exact ⟨by simp, rfl⟩
  · cases pure_eq_ok.mp ok
    exact ⟨by simp; omega, rfl⟩

/-- The transaction spends the coins of the plan, pays every recipient what was asked at its
own script, and pays nothing beyond the plan's amounts and change. -/
structure Pays (W : Wallet) (recipients : List Recipient) (plan : Plan) (tx : Transaction) :
    Prop where
  spends : tx.input.map TxIn.previousOutput = plan.selected.map SpendableUtxo.outpoint
  pays : ∃ scripts, resolveDestScripts W plan.dests plan.selected = .ok scripts ∧
    ∀ (i : Nat) (r : Recipient), recipients[i]? = some r → ∃ out dest,
      tx.output[i]? = some out ∧ scripts[i]? = some out.scriptPubkey ∧
      W.parseDest r.dest = .ok dest ∧ (∀ spk, dest = .script spk → out.scriptPubkey = spk) ∧
      ∀ amount, r.amountSats = some amount → out.value = amount
  nothingElse : (tx.output.map TxOut.value).sum = plan.amounts.sum + plan.changeSats

theorem planSend_dests (ok : planSend W recipients rate spendable frozen locked pins = .ok plan) :
    checkRecipients W recipients.length recipients = .ok plan.dests := by
  obtain ⟨dests, chosen, _, _, checked, _, mode⟩ := planSend_eq_ok ok
  obtain ⟨_, rest⟩ | ⟨_, exact⟩ := mode
  · rw [(planRest_eq_ok rest).2]
    exact checked
  · obtain ⟨_, _, _, _, _, rfl⟩ := planExact_eq_ok exact
    exact checked

theorem length_resolved (ok : planSend W recipients rate spendable frozen locked pins = .ok plan)
    {scripts : List Script}
    (resolved : resolveDestScripts W plan.dests plan.selected = .ok scripts) :
    scripts.length = plan.amounts.length := by
  obtain ⟨_, _, each⟩ := resolveDestScripts_eq_ok resolved
  rw [← each.length_eq, (checkRecipients_eq_ok (planSend_dests ok)).1, (planSend_amounts ok).1]

/-- The values of the outputs: the amounts, then the change if there is some. -/
theorem values_of_buildTx (ok : planSend W recipients rate spendable frozen locked pins = .ok plan)
    {changeIndex : Nat} (built : buildTx W plan changeIndex = .ok tx) :
    tx.output.map TxOut.value =
      plan.amounts ++ if plan.changeSats > 0 then [plan.changeSats] else [] := by
  obtain ⟨scripts, change, witnesses, resolved, isChange, signed, rfl⟩ := buildTx_eq_ok built
  have lengths := length_resolved ok resolved
  change (zipWith _ scripts plan.amounts ++ change).map TxOut.value = _
  rw [map_append, map_zipWith]
  congr 1
  · refine ext_getElem (by simp [lengths]) fun i _ _ => ?_
    simp
  · rw [changeOutput] at isChange
    split_ifs at isChange ⊢
    · obtain ⟨spk, _, rest⟩ := bind_eq_ok.mp isChange
      cases pure_eq_ok.mp rest
      rfl
    · cases pure_eq_ok.mp isChange
      rfl

theorem pays_of_buildTx (ok : planSend W recipients rate spendable frozen locked pins = .ok plan)
    {changeIndex : Nat} (built : buildTx W plan changeIndex = .ok tx) :
    Pays W recipients plan tx := by
  obtain ⟨scripts, change, witnesses, resolved, isChange, signed, rfl⟩ := buildTx_eq_ok built
  have parsed := (checkRecipients_eq_ok (planSend_dests ok)).2
  obtain ⟨amountsLength, asked⟩ := planSend_amounts ok
  obtain ⟨_, _, each⟩ := resolveDestScripts_eq_ok resolved
  have lengths := length_resolved ok resolved
  refine ⟨?_, ⟨scripts, resolved, fun i r atPlace => ?_⟩, ?_⟩
  · rw [previousOutputs_withWitnesses]
    · simp [unsigned, inputOf]
    · rw [length_signInputs signed, unsigned, length_map]
  · obtain ⟨dest, isDest, isParsed⟩ := (parsed i r atPlace).1
    have inside : i < plan.amounts.length :=
      amountsLength ▸ (List.getElem?_eq_some_iff.mp atPlace).1
    have isOutput : (withWitnesses (unsigned plan scripts change) witnesses).output[i]? =
        some ⟨plan.amounts[i], scripts[i]⟩ := by
      change (zipWith _ scripts plan.amounts ++ change)[i]? = _
      rw [getElem?_append_left (by simp [lengths, inside])]
      simp [inside, lengths]
    refine ⟨_, dest, isOutput, getElem?_eq_getElem _, isParsed, fun spk isScript => ?_,
      fun amount isAmount => ?_⟩
    · obtain ⟨inDests, rfl⟩ := List.getElem?_eq_some_iff.mp isDest
      obtain own | ⟨⟨_, silent⟩, _⟩ := each.get inDests (lengths ▸ inside)
      · exact Dest.script.inj (own.symm.trans isScript)
      · cases silent.symm.trans isScript
    · exact (List.getElem?_eq_some_iff.mp (asked i r atPlace amount isAmount)).2
  · rw [values_of_buildTx ok built, sum_append]
    split_ifs <;> simp
    omega

/-! ## Conservation -/

/-- What a send must keep. -/
structure Conserves (W : Wallet) (view : Tier2View) (pending : List PendingTx)
    (marks : CoinMarks) (recipients : List Recipient) (changeIndex : Nat) (plan : Plan) :
    Prop where
  balanced : plan.Balanced
  change : plan.changeSats = 0 ∨ dustThresholdSats ≤ plan.changeSats
  distinct : (plan.selected.map SpendableUtxo.outpoint).Nodup
  sendable : ∀ u ∈ plan.selected, Sendable view pending marks u
  built : ∀ tx, buildTx W plan changeIndex = .ok tx → Pays W recipients plan tx

/-- A send keeps all this exactly when the amounts asked for add up to less than 2^63. -/
theorem planSend_conserves_iff (W : Wallet) (view : Tier2View) (pending : List PendingTx)
    (marks : CoinMarks) (recipients : List Recipient) (rate : UInt32)
    (pins : Option (List (String × Nat))) (changeIndex : Nat) (plan : Plan)
    (sound : Sound view pending) (fits : Fits (gatherSpendable view pending marks.heldSet))
    (ok : planSend W recipients rate (gatherSpendable view pending marks.heldSet) marks.heldSet
      marks.mixLockedSet pins = .ok plan) :
    Conserves W view pending marks recipients changeIndex plan ↔
      (requested recipients).sum < 2 ^ 63 := by
  have offered := nodup_gatherSpendable sound marks.heldSet
  obtain ⟨balanced, change⟩ := planSend_balanced_iff ok offered fits
  obtain ⟨subset, distinct⟩ := planSend_selected ok offered
  constructor
  · exact fun conserves => balanced.mp conserves.balanced
  · exact fun small => ⟨balanced.mpr small, change, distinct,
      fun u member => sendable_of_mem (subset u member), fun tx built => pays_of_buildTx ok built⟩

/-! ### One coin -/

/-- Addresses are names of one-byte scripts; signatures are empty. -/
def toyWallet : Wallet where
  parseDest text := if text = "alice" then .ok (.script [1]) else .ok (.script [2])
  deriveOutputScripts _ _ := .error "no silent payments"
  changeScript _ := .ok [3]
  signSchnorr _ _ _ := .ok []
  signEcdsa _ _ _ := .ok []
  publicKey _ := .ok []

def oneCoinView : Tier2View :=
  { Tier2View.empty with utxos := [⟨chainReceive, 0, 10, 0, 100000, 1, none, none, none, none⟩] }

def theCoin : SpendableUtxo := ⟨chainReceive, 0, 10, 0, 100000, none⟩

theorem gather_oneCoinView :
    gatherSpendable oneCoinView [] CoinMarks.empty.heldSet = [theCoin] := by
  rfl

theorem sound_oneCoinView : Sound oneCoinView [] :=
  ⟨by decide, ⟨nodup_nil, nofun⟩⟩

theorem fits_oneCoinView : Fits (gatherSpendable oneCoinView [] CoinMarks.empty.heldSet) := by
  rw [gather_oneCoinView]
  exact ⟨by decide, by decide⟩

/-- One sat per vbyte. -/
def lowRate : UInt32 := 250

def smallPlan : Plan := ⟨[.script [1]], [theCoin], [1000], 141, 98859, 0, 100000⟩

theorem planSend_conserves_iff_oneCoin :
    Conserves toyWallet oneCoinView [] .empty [⟨"alice", some 1000⟩] 0 smallPlan :=
  (planSend_conserves_iff toyWallet oneCoinView [] .empty [⟨"alice", some 1000⟩] lowRate none 0
    smallPlan sound_oneCoinView fits_oneCoinView (by decide +kernel)).mpr (by decide)

/-- Two amounts that add up to 2^64 and a thousand: their wrapped sum is a thousand. -/
def hugeAmounts : List Recipient := [⟨"alice", some (2 ^ 63)⟩, ⟨"bob", some (2 ^ 63 + 1000)⟩]

def hugePlan : Plan :=
  ⟨[.script [1], .script [2]], [theCoin], [2 ^ 63, 2 ^ 63 + 1000], 172, 98828, 0, 100000⟩

/-- The coin of 100,000 sats is planned to pay them both. -/
theorem hugeAmounts_planned :
    planSend toyWallet hugeAmounts lowRate (gatherSpendable oneCoinView [] CoinMarks.empty.heldSet)
      CoinMarks.empty.heldSet CoinMarks.empty.mixLockedSet none = .ok hugePlan ∧
    ¬Conserves toyWallet oneCoinView [] .empty hugeAmounts 0 hugePlan := by
  refine ⟨by decide +kernel, fun conserves => ?_⟩
  have unbalanced : ¬hugePlan.Balanced := by decide
  exact unbalanced conserves.balanced

end Lij.OnchainSend
