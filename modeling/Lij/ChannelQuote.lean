import Lij.ChannelMax
import Lij.OnchainSend.Surfaces

/-!
# The quote of an open and the open

Before an open starts its sheet shows how many coins it would spend and the fee
for them. The quote and the build select the same coins by the same function, but
the build goes on where the quote stops: it refuses a channel below LDK's minimum,
and change too small to be an output goes to the fee. The quote is the open's
exactly where neither happens.
-/

namespace Lij.ChannelOpen

open Bitcoin Tier2 Word Checked OnchainSend List

structure FundingPick where
  inputs : Nat
  feeSats : Nat
  mixedInputs : Nat
  linksMixed : Bool
  deriving DecidableEq, Repr

def fundingPickQuote (view : Tier2View) (pending : List PendingTx) (marks : CoinMarks)
    (channelValueSats : Nat) (rate : UInt32) (pins : Option (List (String × Nat))) :
    Except String FundingPick := do
  let selected ← selectFundingCoins view pending marks channelValueSats rate pins
  let flags := mixedFlags (selected.map SpendableUtxo.chain)
  return {
    inputs := selected.length
    feeSats := fundingFee selected rate
    mixedInputs := flags.1
    linksMixed := flags.2 }

variable {W : Wallet} {view : Tier2View} {pending : List PendingTx} {marks : CoinMarks}
  {rate : UInt32} {outputScript : Script} {changeIndex m : Nat}
  {pins : Option (List (String × Nat))}

theorem quote_eq_ok {quote : FundingPick} :
    fundingPickQuote view pending marks m rate pins = .ok quote ↔
      ∃ selected, selectFundingCoins view pending marks m rate pins = .ok selected ∧
        quote = ⟨selected.length, fundingFee selected rate,
          (mixedFlags (selected.map SpendableUtxo.chain)).1,
          (mixedFlags (selected.map SpendableUtxo.chain)).2⟩ := by
  constructor
  · intro quoted
    obtain ⟨selected, isSelected, rest⟩ := bind_eq_ok.mp quoted
    exact ⟨selected, isSelected, (pure_eq_ok.mp rest).symm⟩
  · rintro ⟨selected, isSelected, rfl⟩
    exact bind_eq_ok.mpr ⟨selected, isSelected, rfl⟩

/-- What the coins hold beyond the channel and the fee. -/
def leftover (selected : List SpendableUtxo) (m : Nat) (rate : UInt32) : Nat :=
  (selected.map SpendableUtxo.valueSats).sum - (m + fundingFee selected rate)

theorem change_eq_leftover {candidates selected : List SpendableUtxo}
    (funds : Funds candidates m rate selected) :
    sub64 (sub64 (totalOf selected) m) (fundingFee selected rate) = leftover selected m rate := by
  have covers := funds.covers
  have small := funds.small
  have first : sub64 (totalOf selected) m =
      (selected.map SpendableUtxo.valueSats).sum - m := by
    rw [funds.total]
    exact sub64_of_le (by omega) (by omega)
  rw [first, sub64_of_le (by omega) (by omega), leftover, Nat.sub_sub]

/-- A built open spends the selected coins, and its change is what they leave over. -/
theorem of_build {funding : FundingTx} (fits : Fits (fundingCandidates view pending marks.heldSet))
    (built : buildFundingTx W view pending marks outputScript m rate changeIndex pins =
      .ok funding) :
    ldkMinChannelSats ≤ m ∧
      ∃ selected, selectFundingCoins view pending marks m rate pins = .ok selected ∧
        funding.tx.input.map TxIn.previousOutput = selected.map SpendableUtxo.outpoint ∧
        (funding.tx.output.map TxOut.value).sum =
          m + if dustThresholdSats ≤ leftover selected m rate then leftover selected m rate
            else 0 := by
  simp only [buildFundingTx, bind_eq_ok, ensure_eq_ok, exists_const, pure_eq_ok] at built
  obtain ⟨openable, selected, isSelected, _, _, outputs, isOutputs, witnesses, signed, rfl⟩ := built
  have change := change_eq_leftover (funds_of_select fits isSelected)
  refine ⟨openable, selected, isSelected, ?_, ?_⟩
  · have lengths := length_signInputs signed
    rw [previousOutputs_withWitnesses (by rw [lengths, length_map]), map_map]
    rfl
  · obtain ⟨spk, _, isList⟩ := bind_eq_ok.mp isOutputs
    rw [change] at isList
    split_ifs at isList with large
    · cases pure_eq_ok.mp isList
      rw [if_pos large]
      simp [withWitnesses]
    · cases pure_eq_ok.mp isList
      rw [if_neg large]
      simp [withWitnesses]

/-- The quote is given exactly when the open is built, counts the coins it spends, and its fee
is what those coins hold beyond the outputs. -/
structure QuoteIsBuilt (W : Wallet) (view : Tier2View) (pending : List PendingTx)
    (marks : CoinMarks) (outputScript : Script) (m : Nat) (rate : UInt32) (changeIndex : Nat)
    (pins : Option (List (String × Nat))) : Prop where
  together : (∃ quote, fundingPickQuote view pending marks m rate pins = .ok quote) ↔
    ∃ funding, buildFundingTx W view pending marks outputScript m rate changeIndex pins =
      .ok funding
  same : ∀ quote funding, fundingPickQuote view pending marks m rate pins = .ok quote →
    buildFundingTx W view pending marks outputScript m rate changeIndex pins = .ok funding →
    ∃ selected, selectFundingCoins view pending marks m rate pins = .ok selected ∧
      funding.tx.input.map TxIn.previousOutput = selected.map SpendableUtxo.outpoint ∧
      quote.inputs = funding.tx.input.length ∧
      (selected.map SpendableUtxo.valueSats).sum =
        (funding.tx.output.map TxOut.value).sum + quote.feeSats

/-- If coins are found, LDK takes a channel of that size, and the coins leave over nothing or
enough for a change output. -/
def NothingFolded (view : Tier2View) (pending : List PendingTx) (marks : CoinMarks) (m : Nat)
    (rate : UInt32) (pins : Option (List (String × Nat))) : Prop :=
  ∀ selected, selectFundingCoins view pending marks m rate pins = .ok selected →
    ldkMinChannelSats ≤ m ∧
      (leftover selected m rate = 0 ∨ dustThresholdSats ≤ leftover selected m rate)

theorem quote_is_built_of
    (keyed : ∀ selected, selectFundingCoins view pending marks m rate pins = .ok selected →
      Keyed W selected changeIndex)
    (fits : Fits (fundingCandidates view pending marks.heldSet))
    (exactly : NothingFolded view pending marks m rate pins) :
    QuoteIsBuilt W view pending marks outputScript m rate changeIndex pins where
  together := by
    constructor
    · rintro ⟨quote, quoted⟩
      obtain ⟨selected, isSelected, _⟩ := quote_eq_ok.mp quoted
      obtain ⟨funding, built, _⟩ := build_of_select (keyed _ isSelected) fits isSelected
        (exactly selected isSelected).1
      exact ⟨funding, built⟩
    · rintro ⟨funding, built⟩
      obtain ⟨_, selected, isSelected, _⟩ := of_build fits built
      exact ⟨_, quote_eq_ok.mpr ⟨selected, isSelected, rfl⟩⟩
  same := by
    intro quote funding quoted built
    obtain ⟨_, selected, isSelected, spends, outputs⟩ := of_build fits built
    obtain ⟨again, isAgain, rfl⟩ := quote_eq_ok.mp quoted
    obtain rfl : selected = again := Except.ok.inj (isSelected.symm.trans isAgain)
    have covers := (funds_of_select fits isSelected).covers
    have lengths := congrArg length spends
    rw [length_map, length_map] at lengths
    refine ⟨selected, isSelected, spends, lengths.symm, ?_⟩
    change _ = _ + fundingFee selected rate
    rw [outputs]
    have whole : (selected.map SpendableUtxo.valueSats).sum =
        m + fundingFee selected rate + leftover selected m rate := by
      rw [leftover]
      omega
    rcases (exactly selected isSelected).2 with nothing | large
    · rw [nothing, if_neg (by decide)]
      omega
    · rw [if_pos large]
      omega

/-- The quote of an open is the open it quotes, exactly when LDK takes a channel of that size
and no change is folded into the fee. -/
theorem quote_is_built_iff (W : Wallet) (view : Tier2View) (pending : List PendingTx)
    (marks : CoinMarks) (fits : Fits (fundingCandidates view pending marks.heldSet))
    (outputScript : Script) (m : Nat) (rate : UInt32) (changeIndex : Nat)
    (pins : Option (List (String × Nat)))
    (keyed : ∀ selected, selectFundingCoins view pending marks m rate pins = .ok selected →
      Keyed W selected changeIndex) :
    QuoteIsBuilt W view pending marks outputScript m rate changeIndex pins ↔
      NothingFolded view pending marks m rate pins := by
  refine ⟨fun agrees selected isSelected => ?_, quote_is_built_of keyed fits⟩
  have quoted := quote_eq_ok.mpr ⟨selected, isSelected, rfl⟩
  obtain ⟨funding, built⟩ := agrees.together.mp ⟨_, quoted⟩
  obtain ⟨openable, again, isAgain, _, outputs⟩ := of_build fits built
  obtain rfl : selected = again := Except.ok.inj (isSelected.symm.trans isAgain)
  obtain ⟨third, isThird, _, _, fee⟩ := agrees.same _ funding quoted built
  obtain rfl : selected = third := Except.ok.inj (isSelected.symm.trans isThird)
  have covers := (funds_of_select fits isSelected).covers
  change _ = _ + fundingFee selected rate at fee
  refine ⟨openable, ?_⟩
  by_cases large : dustThresholdSats ≤ leftover selected m rate
  · exact .inr large
  · rw [outputs, if_neg large] at fee
    refine .inl ?_
    rw [leftover]
    omega

/-! ## One coin -/

/-- From one coin of 100,000 sats, a channel of 99,000 is quoted as it is built. -/
theorem quote_is_built_oneCoin :
    QuoteIsBuilt zeroWallet oneCoinView [] .empty [1] 99000 lowRate 0 none := by
  have candidates : fundingCandidates oneCoinView [] CoinMarks.empty.heldSet = [theCoin] := by rfl
  have fits : Fits (fundingCandidates oneCoinView [] CoinMarks.empty.heldSet) := by
    rw [candidates]
    exact ⟨by decide, by decide⟩
  have selects : selectFundingCoins oneCoinView [] .empty 99000 lowRate none = .ok [theCoin] := by
    rfl
  refine (quote_is_built_iff zeroWallet oneCoinView [] .empty fits [1] 99000 lowRate 0 none
    fun selected _ => keyed_zeroWallet selected 0).mpr fun selected isSelected => ?_
  obtain rfl : [theCoin] = selected := Except.ok.inj (selects.symm.trans isSelected)
  decide +kernel

/-- A channel of 99,759 sats is quoted a fee of 141 sats and pays 241; one of 1,000 sats is
quoted and refused. -/
theorem quote_differs :
    (fundingPickQuote oneCoinView [] .empty 99759 lowRate none).toOption =
        some ⟨1, 141, 0, false⟩ ∧
      (buildFundingTx zeroWallet oneCoinView [] .empty [1] 99759 lowRate 0 none).toOption.map
          (fun funding => (funding.spentOutpoints, funding.tx.output, funding.feeSats)) =
        some ([theCoin.outpoint], [⟨99759, [1]⟩], 241) ∧
      (fundingPickQuote oneCoinView [] .empty 1000 lowRate none).toOption.isSome ∧
      (buildFundingTx zeroWallet oneCoinView [] .empty [1] 1000 lowRate 0 none).isOk = false := by
  decide +kernel

end Lij.ChannelOpen
