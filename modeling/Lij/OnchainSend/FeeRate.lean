import Lij.ChannelQuote
import Lij.OnchainSend.Size

/-!
# The fee rate that is paid

The fee is estimated before the transaction exists: every output but a silent
payment is counted as P2WPKH, and the number of inputs as one byte. What larger
outputs and a longer count take beyond that is paid only where the estimate has
something to spare: the rate is rounded up to whole sats per vbyte, change may be
folded into the fee, an output counted for change may stay away, and a taproot
input is rounded up.
-/

namespace Lij.OnchainSend

open Bitcoin Tier2 Word Checked List

/-- The coins cover the outputs and the rate times the virtual size, rounded down once. -/
def PaysRate (rate : UInt32) (coins : List SpendableUtxo) (tx : Transaction) : Prop :=
  (tx.output.map TxOut.value).sum + rate.toNat * tx.vsize / 250 ≤
    (coins.map SpendableUtxo.valueSats).sum

instance (rate : UInt32) (coins : List SpendableUtxo) (tx : Transaction) :
    Decidable (PaysRate rate coins tx) := inferInstanceAs (Decidable (_ ≤ _))

/-! ## The estimate and the size -/

/-- The vbytes a fee is computed for, those the transaction has beyond them and those it does
not need, and the change added to the fee. -/
structure Estimate where
  counted : Nat
  uncounted : Nat
  spare : Nat
  folded : Nat
  deriving DecidableEq, Repr

namespace Estimate

/-- For these inputs and a number of outputs; `larger` is what the outputs take beyond the
P2WPKH size, and `unused` says how many of them there are not. -/
def ofInputs (coins : List SpendableUtxo) (outputs extra larger unused folded : Nat) :
    Estimate where
  counted := 11 + ((coins.map SpendableUtxo.chain).map inputVbytes).sum + 31 * outputs + extra
  uncounted := larger + ((compactSize coins.length).length - 1)
  spare := 31 * unused + (1 + coins.countP isTaproot) / 2
  folded := folded

variable (e : Estimate) (rate : UInt32)

def fee : Nat := e.counted * satPerVb rate + e.folded

def vsize : Nat := e.counted + e.uncounted - e.spare

/-- The rate for the bytes that are there is no more than the fee for those counted and the
folded change. -/
def Covers : Prop := rate.toNat * e.vsize / 250 ≤ e.fee rate

instance : Decidable (e.Covers rate) := inferInstanceAs (Decidable (_ ≤ _))

/-- At any rate the estimate is enough where the bytes not counted are spared elsewhere. -/
theorem covers_of_spare (spared : e.uncounted ≤ e.spare) : e.Covers rate := by
  have perVb : rate.toNat ≤ satPerVb rate * 250 := by
    unfold satPerVb
    omega
  have size : e.vsize ≤ e.counted := by
    unfold vsize
    omega
  calc rate.toNat * e.vsize / 250
      ≤ satPerVb rate * 250 * e.counted / 250 := Nat.div_le_div_right (Nat.mul_le_mul perVb size)
    _ = e.counted * satPerVb rate * 250 / 250 := by ring_nf
    _ = e.counted * satPerVb rate := Nat.mul_div_cancel _ (by decide)
    _ ≤ e.fee rate := Nat.le_add_right _ _

end Estimate

theorem length_compactSize_pos (n : Nat) : 0 < (compactSize n).length := by
  unfold compactSize
  split_ifs <;> simp

/-- The virtual size of a signed transaction is the one of its estimate. -/
theorem vsize_eq_estimate {view : Tier2View} {pending : List PendingTx} {frozen : List OutPoint}
    {coins : List SpendableUtxo} {tx : Transaction} {outputBytes outputs extra larger unused : Nat}
    (folded : Nat) (offered : ∀ u ∈ coins, u ∈ gatherSpendable view pending frozen)
    (weight : tx.weight = 38 + 4 * (compactSize coins.length).length + 164 * coins.length +
      (coins.map witnessSize).sum + 4 * outputBytes)
    (bytes : outputBytes + 31 * unused = 31 * outputs + extra + larger) :
    tx.vsize = (Estimate.ofInputs coins outputs extra larger unused folded).vsize := by
  have inputs := sum_witnessSize offered
  have count := length_compactSize_pos coins.length
  simp only [Transaction.vsize, Estimate.vsize, Estimate.ofInputs]
  omega

/-! ## Sends -/

section Sends

variable {W : Wallet} {recipients : List Recipient} {rate : UInt32}
variable {spendable : List SpendableUtxo} {frozen locked : List OutPoint}
variable {pins : Option (List (String × Nat))} {plan : Plan}

/-- The estimate of a send: an output for every recipient, and one for change unless the last
recipient takes what is left. -/
def sendEstimate (recipients : List Recipient) (plan : Plan) : Estimate :=
  .ofInputs plan.selected (recipients.length + if takesRest recipients then 0 else 1)
    (plan.dests.map destExtraVbytes).sum (plan.dests.map Dest.uncounted).sum
    (if takesRest recipients ∨ plan.changeSats > 0 then 0 else 1) plan.foldedSats

/-- The weight of a signed send, from its coins and destinations. -/
theorem weight_buildTx (standard : Standard W) {changeIndex : Nat} {tx : Transaction}
    (valid : ∀ dest ∈ plan.dests, dest.Valid) (few : plan.dests.length ≤ maxRecipients)
    (lengths : plan.amounts.length = plan.dests.length)
    (built : buildTx W plan changeIndex = .ok tx) :
    tx.weight = 38 + 4 * (compactSize plan.selected.length).length +
      164 * plan.selected.length + (plan.selected.map witnessSize).sum +
      4 * ((plan.dests.map destSize).sum + if plan.changeSats > 0 then 31 else 0) := by
  obtain ⟨scripts, change, witnesses, resolved, isChange, signed, rfl⟩ := buildTx_eq_ok built
  have sizes := resolveDestScripts_size standard resolved
  have sameLength : scripts.length = plan.amounts.length := lengths ▸ sizes.length_eq.symm
  have twenty : maxRecipients = 20 := rfl
  have changes := (changeOutput_eq_ok isChange).2
  have atMostOne : change.length ≤ 1 := by
    rw [changes]
    split_ifs <;> omega
  have fewOutputs : (unsigned plan scripts change).output.length < 253 := by
    simp only [unsigned, length_append, length_zipWith]
    omega
  rw [weight_signed rfl (signed_of_signInputs standard signed) fewOutputs, unsigned,
    map_append, sum_append, sum_outputs valid sizes sameLength,
    changeOutput_size standard isChange]

theorem requested_le_amounts {recipients : List Recipient} {amounts : List Nat}
    (lengths : amounts.length = recipients.length)
    (asked : ∀ (i : Nat) (r : Recipient), recipients[i]? = some r →
      ∀ amount, r.amountSats = some amount → amounts[i]? = some amount) :
    (requested recipients).sum ≤ amounts.sum := by
  induction recipients generalizing amounts with
  | nil => exact Nat.zero_le _
  | cons r recipients ih =>
    cases amounts with
    | nil => cases lengths
    | cons amount amounts =>
      have others := ih (Nat.succ.inj lengths) fun i r atPlace => asked (i + 1) r atPlace
      rw [sum_cons]
      cases isAmount : r.amountSats with
      | none =>
        rw [requested, filterMap_cons_none isAmount]
        exact others.trans (Nat.le_add_left _ _)
      | some value =>
        have same : amount = value := by simpa using asked 0 r rfl value isAmount
        rw [requested, filterMap_cons_some isAmount, sum_cons, same]
        exact Nat.add_le_add_left others value

theorem settleChange_fee {total paid fee : Nat} (small : fee < 2 ^ 63) :
    (settleChange total paid fee).feeSats = fee + (settleChange total paid fee).foldedSats := by
  have dustIs : dustThresholdSats = 294 := rfl
  rw [settleChange]
  split_ifs with dust
  · change saturatingAdd64 fee (total - paid - fee) = fee + (total - paid - fee)
    rw [saturatingAdd64, u64Max]
    omega
  · rfl

/-- A plan that leaves the rest to the last recipient has no change, and the fee is that of the
estimate. -/
theorem planSend_fee (ok : planSend W recipients rate spendable frozen locked pins = .ok plan)
    (few : plan.selected.length < 2 ^ 32) :
    recipients.length ≤ maxRecipients ∧ (takesRest recipients → plan.changeSats = 0) ∧
      plan.feeSats = (sendEstimate recipients plan).fee rate := by
  obtain ⟨dests, chosen, _, fewRecipients, checked, _, mode⟩ := planSend_eq_ok ok
  obtain ⟨isExtra, extras⟩ := extraVbytes_eq ((checkRecipients_eq_ok checked).1 ▸ fewRecipients)
  have twenty : maxRecipients = 20 := rfl
  obtain ⟨takes, rest⟩ | ⟨takes, exact⟩ := mode
  · obtain ⟨_, rfl⟩ := planRest_eq_ok rest
    refine ⟨fewRecipients, fun _ => rfl, ?_⟩
    rw [(estimateFeeInputs_eq rate few (by omega) extras).1, isExtra]
    simp [sendEstimate, Estimate.fee, Estimate.ofInputs, takes]
  · obtain ⟨selected, _, _, _, rfl, rfl⟩ := planExact_eq_ok exact
    refine ⟨fewRecipients, fun yes => Bool.noConfusion (yes.symm.trans takes), ?_⟩
    have few : selected.length < 2 ^ 32 := few
    obtain ⟨isFee, small⟩ := estimateFeeInputs_eq rate few
      (show recipients.length + 1 ≤ 21 by omega) extras
    dsimp only
    rw [settleChange_fee (by omega)]
    simp only [sendEstimate, Estimate.fee, Estimate.ofInputs, takes, Bool.false_eq_true, if_false]
    rw [isFee, isExtra]

/-- A send pays its rate exactly when its amounts have not wrapped and its estimate covers what
it did not count. -/
theorem send_pays_iff (standard : Standard W) {view : Tier2View} {pending : List PendingTx}
    {marks : CoinMarks} (sound : Sound view pending)
    (fits : Fits (gatherSpendable view pending marks.heldSet))
    (ok : planSend W recipients rate (gatherSpendable view pending marks.heldSet) marks.heldSet
      marks.mixLockedSet pins = .ok plan)
    (valid : ∀ dest ∈ plan.dests, dest.Valid) {changeIndex : Nat} {tx : Transaction}
    (built : buildTx W plan changeIndex = .ok tx) :
    PaysRate rate plan.selected tx ↔
      (requested recipients).sum < 2 ^ 63 ∧ (sendEstimate recipients plan).Covers rate := by
  have distinct := nodup_gatherSpendable sound marks.heldSet
  obtain ⟨subset, different⟩ := planSend_selected ok distinct
  obtain ⟨shorter, smaller⟩ := sum_le_of_subset different subset
  obtain ⟨fewRecipients, noChange, isFee⟩ := planSend_fee ok (shorter.trans_lt fits.few)
  have sameLength := (checkRecipients_eq_ok (planSend_dests ok)).1
  obtain ⟨amountsLength, asked⟩ := planSend_amounts ok
  have size : tx.vsize = (sendEstimate recipients plan).vsize := by
    refine vsize_eq_estimate _ subset (weight_buildTx standard valid (sameLength ▸ fewRecipients)
      (amountsLength.trans sameLength.symm) built) ?_
    rw [sum_destSize_valid valid, sameLength]
    by_cases takes : takesRest recipients = true
    · simp only [takes, noChange takes, true_or, if_true, gt_iff_lt, lt_irrefl, if_false]
      omega
    · simp only [takes, Bool.false_eq_true, false_or, if_false]
      split_ifs <;> omega
  have nothingElse := (pays_of_buildTx ok built).nothingElse
  have balanced := (planSend_balanced_iff ok distinct fits).1
  have amounts := requested_le_amounts amountsLength asked
  have small := fits.small
  rw [PaysRate, size, Estimate.Covers, ← isFee]
  constructor
  · intro pays
    have noWrap : (requested recipients).sum < 2 ^ 63 := by omega
    have whole := balanced.mpr noWrap
    rw [Plan.Balanced] at whole
    exact ⟨noWrap, by omega⟩
  · rintro ⟨noWrap, covers⟩
    have whole := balanced.mpr noWrap
    rw [Plan.Balanced] at whole
    omega

end Sends

/-! ## Funding a channel -/

/-- The estimate of an open: the channel's output, which is P2WSH, and one for change. -/
def fundingEstimate (selected : List SpendableUtxo) (m : Nat) (rate : UInt32) : Estimate :=
  let left := ChannelOpen.leftover selected m rate
  .ofInputs selected 2 0 12 (if dustThresholdSats ≤ left then 0 else 1)
    (if dustThresholdSats ≤ left then 0 else left)

/-- The weight of a signed open. -/
theorem weight_buildFundingTx {W : Wallet} (standard : Standard W) {view : Tier2View}
    {pending : List PendingTx} {marks : CoinMarks} {script : Script}
    (isFunding : script.isP2wsh = true) {m changeIndex : Nat} {rate : UInt32}
    {pins : Option (List (String × Nat))} {selected : List SpendableUtxo}
    {funding : ChannelOpen.FundingTx}
    (fits : Fits (ChannelOpen.fundingCandidates view pending marks.heldSet))
    (isSelected : ChannelOpen.selectFundingCoins view pending marks m rate pins = .ok selected)
    (built : ChannelOpen.buildFundingTx W view pending marks script m rate changeIndex pins =
      .ok funding) :
    funding.tx.weight = 38 + 4 * (compactSize selected.length).length +
      164 * selected.length + (selected.map witnessSize).sum +
      4 * (43 + if dustThresholdSats ≤ ChannelOpen.leftover selected m rate then 31 else 0) := by
  simp only [ChannelOpen.buildFundingTx, bind_eq_ok, ensure_eq_ok, exists_const,
    pure_eq_ok] at built
  obtain ⟨_, again, isAgain, _, _, outputs, isOutputs, witnesses, signed, rfl⟩ := built
  obtain rfl : selected = again := Except.ok.inj (isSelected.symm.trans isAgain)
  rw [ChannelOpen.change_eq_leftover (ChannelOpen.funds_of_select fits isSelected)] at isOutputs
  obtain ⟨spk, isSpk, isList⟩ := bind_eq_ok.mp isOutputs
  have spkLength := length_of_isP2wpkh (standard.changeScript changeIndex spk isSpk)
  simp only [Script.isP2wsh, Bool.and_eq_true, beq_iff_eq] at isFunding
  have channel : (⟨m, script⟩ : TxOut).serialize.length = 43 := by
    rw [length_serialize_short (show script.length < 253 by omega)]
    change 9 + script.length = 43
    omega
  have change : ∀ value, (⟨value, spk⟩ : TxOut).serialize.length = 31 := by
    intro value
    rw [length_serialize_short (show spk.length < 253 by omega)]
    change 9 + spk.length = 31
    omega
  have signs := signed_of_signInputs standard signed
  split_ifs at isList with large <;> cases pure_eq_ok.mp isList
  · rw [weight_signed rfl signs (by simp), if_pos large]
    simp only [map_cons, map_nil, sum_cons, sum_nil, channel, change, Nat.add_zero]
  · rw [weight_signed rfl signs (by simp), if_neg large]
    simp only [map_cons, map_nil, sum_cons, sum_nil, channel]

theorem funding_pays_iff {W : Wallet} (standard : Standard W) {view : Tier2View}
    {pending : List PendingTx} {marks : CoinMarks} {script : Script}
    (isFunding : script.isP2wsh = true) {m changeIndex : Nat} {rate : UInt32}
    {pins : Option (List (String × Nat))} {selected : List SpendableUtxo}
    {funding : ChannelOpen.FundingTx}
    (fits : Fits (ChannelOpen.fundingCandidates view pending marks.heldSet))
    (isSelected : ChannelOpen.selectFundingCoins view pending marks m rate pins = .ok selected)
    (built : ChannelOpen.buildFundingTx W view pending marks script m rate changeIndex pins =
      .ok funding) :
    PaysRate rate selected funding.tx ↔ (fundingEstimate selected m rate).Covers rate := by
  have funds := ChannelOpen.funds_of_select fits isSelected
  have offered : ∀ u ∈ selected, u ∈ gatherSpendable view pending marks.heldSet := fun u member =>
    (ChannelOpen.candidates_sublist view pending marks.heldSet).subset (funds.offered u member)
  have size : funding.tx.vsize = (fundingEstimate selected m rate).vsize := by
    refine vsize_eq_estimate _ offered
      (weight_buildFundingTx standard isFunding fits isSelected built) ?_
    split_ifs <;> omega
  obtain ⟨_, again, isAgain, _, outputs⟩ := ChannelOpen.of_build fits built
  obtain rfl : selected = again := Except.ok.inj (isSelected.symm.trans isAgain)
  have covers := funds.covers
  have whole : (selected.map SpendableUtxo.valueSats).sum =
      m + ChannelOpen.fundingFee selected rate + ChannelOpen.leftover selected m rate := by
    rw [ChannelOpen.leftover]
    omega
  have fee : (fundingEstimate selected m rate).fee rate = ChannelOpen.fundingFee selected rate +
      if dustThresholdSats ≤ ChannelOpen.leftover selected m rate then 0
      else ChannelOpen.leftover selected m rate := by
    rw [(ChannelOpen.fundingFee_eq rate (funds.short.trans_lt fits.few)).1]
    simp only [fundingEstimate, Estimate.fee, Estimate.ofInputs]
    ring_nf
  rw [PaysRate, size, Estimate.Covers, fee, outputs, whole]
  split_ifs <;> omega

theorem standard_zeroWallet : Standard zeroWallet where
  changeScript _ spk isSpk := by
    cases isSpk
    decide
  derive _ addresses scripts isScripts spk member := by
    cases isScripts
    obtain ⟨_, _, rfl⟩ := mem_map.mp member
    decide
  schnorr _ _ _ sig isSig := by
    cases isSig
    rfl
  ecdsa _ _ _ der isDer := by
    cases isDer
    rfl
  publicKey _ pk isPk := by
    cases isPk
    rfl

def fundingScript : Script := [0x00, 0x20] ++ replicate 32 0

/-- A thousand sats to a taproot address at 253 sat per kilo-weight. -/
def taprootPlan : Plan :=
  ⟨[.script ([0x51, 0x20] ++ replicate 32 0)], [theCoin], [1000], 282, 98718, 0, 100000⟩

/-- A thousand sats to a taproot address: 153 vbytes at one sat each, for a fee of 141. -/
def toTaproot : Transaction where
  version := 2
  lockTime := 0
  input := [{ inputOf theCoin with
    witness := [replicate 71 0 ++ [sighashAll], replicate 33 0] }]
  output := [⟨1000, [0x51, 0x20] ++ replicate 32 0⟩,
    ⟨98859, [0x00, 0x14] ++ replicate 20 0⟩]

end Lij.OnchainSend
