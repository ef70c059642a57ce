import Lij.OnchainSend.Plan

/-!
# Funding a channel from the wallet

A self-funded open spends coins of the wallet into the script the channel gives.
The coins on offer are those of a send, with the change of at most three pending
transactions; the automatic pick tries the silent-payment coins first. The fee is
estimated for two outputs, the funding and the change.
-/

namespace Lij.ChannelOpen

open Bitcoin Tier2 Word Checked OnchainSend

def ldkMinChannelSats : Nat := 5000

/-- Change of the three most recent pending transactions. -/
def unconfirmedChangeCandidates (view : Tier2View) (pending : List PendingTx)
    (frozen : List OutPoint) : List OnchainUtxo :=
  ((unconfirmedChangeUtxos view pending).filter fun u => !frozen.contains u.outpoint).take 3

/-- The coins on offer, as they are signed for. -/
def fundingCandidates (view : Tier2View) (pending : List PendingTx) (frozen : List OutPoint) :
    List SpendableUtxo :=
  let reserved := reservedOutpoints pending
  (view.utxos.filter fun u => u.spentHeight.isNone && isSignable u &&
    !reserved.contains u.outpoint && !frozen.contains u.outpoint).map .fromUtxo ++
  (unconfirmedChangeCandidates view pending frozen).map .fromUtxo

/-- The fee for exactly these coins and two outputs. -/
def fundingFee (coins : List SpendableUtxo) (rate : UInt32) : Nat :=
  estimateFeeChains (coins.map SpendableUtxo.chain) 0 2 0 rate

/-- The chosen coins, refused as a send refuses them. -/
def pickPinned (candidates : List SpendableUtxo) (frozen locked : List OutPoint)
    (pins : List (String × Nat)) : Except String (List SpendableUtxo) :=
  resolvePins candidates frozen locked pins

/-- What an open with `n` inputs must carry. -/
def fundingNeed (channelValueSats : Nat) (rate : UInt32) (n : Nat) : Nat :=
  saturatingAdd64 channelValueSats (estimateFee n 2 rate)

/-- The silent-payment coins alone, by the same rule. -/
def pickSpFirst (coins : List SpendableUtxo) (need : Nat → Nat) : Option (List Nat) :=
  let sp := (List.range coins.length).filter fun i => coins[i]?.any fun u => u.chain = chainSp
  if sp.isEmpty then none
  else
    (CoinSelect.pick (sp.map (CoinSelect.valueAt (coins.map SpendableUtxo.valueSats))) need).map
      fun picked => picked.map fun j => sp.getD j 0

def pickFunding (coins : List SpendableUtxo) (need : Nat → Nat) : Option (List Nat) :=
  match pickSpFirst coins need with
  | some picked => some picked
  | none => autoPick coins need

def insufficientFunding (coins : List SpendableUtxo) (channelValueSats : Nat) (rate : UInt32)
    (frozen locked : List OutPoint) : String :=
  "insufficient funds for channel: have " ++ toString (totalOf coins) ++ " sats, need " ++
    toString (add64 channelValueSats (fundingFee coins rate)) ++ " (channel " ++
    toString channelValueSats ++ " + fee " ++ toString (fundingFee coins rate) ++ ")" ++
    heldNote frozen locked

def selectFundingCoins (view : Tier2View) (pending : List PendingTx) (marks : CoinMarks)
    (channelValueSats : Nat) (rate : UInt32) (pins : Option (List (String × Nat))) :
    Except String (List SpendableUtxo) := do
  let frozen := marks.heldSet
  let locked := marks.mixLockedSet
  let candidates := fundingCandidates view pending frozen
  ensure (candidates ≠ []) "no spendable on-chain funds to open a channel"
  match pins with
  | some pins =>
    let coins ← pickPinned candidates frozen locked pins
    let fee := fundingFee coins rate
    ensure (saturatingAdd64 channelValueSats fee ≤ totalOf coins)
      ("your chosen coins cover " ++ toString (totalOf coins) ++ " sats; this channel needs " ++
        toString (saturatingAdd64 channelValueSats fee) ++ " (channel " ++
        toString channelValueSats ++ " + fee " ++ toString fee ++
        ") — add coins or lower the size")
    return coins
  | none =>
    let picked ← context (pickFunding candidates (fundingNeed channelValueSats rate))
      (insufficientFunding candidates channelValueSats rate frozen locked)
    return picked.filterMap fun i => candidates[i]?

/-- The ledger's coins on offer, largest first. -/
def spendableUtxos (view : Tier2View) (pending : List PendingTx) (frozen : List OutPoint) :
    List SpendableUtxo :=
  let reserved := reservedOutpoints pending
  ((view.utxos.filter fun u => u.spentHeight.isNone && isSignable u &&
    !reserved.contains u.outpoint && !frozen.contains u.outpoint).map .fromUtxo).insertionSort
      fun a b => b.valueSats ≤ a.valueSats

/-- Nothing is kept back for bumping a later close. -/
def anchorFeeReserveSats : Nat := 0

/-- The largest channel the chosen coins, or else all on offer, can open; zero without coins. -/
def maxChannelValueWith (view : Tier2View) (pending : List PendingTx) (marks : CoinMarks)
    (rate : UInt32) (pins : Option (List (String × Nat))) : Except String Nat := do
  let frozen := marks.heldSet
  let offered := spendableUtxos view pending frozen ++
    (unconfirmedChangeCandidates view pending frozen).map .fromUtxo
  let utxos ← match pins with
    | some pins => pickPinned offered frozen marks.mixLockedSet pins
    | none => .ok offered
  return if utxos.isEmpty then 0
    else totalOf utxos - saturatingAdd64 (fundingFee utxos rate) anchorFeeReserveSats

structure FundingTx where
  tx : Transaction
  feeSats : Nat
  changeSats : Nat
  spentOutpoints : List OutPoint
  deriving DecidableEq, Repr

/-- The funding output, then the change unless it is dust. -/
def fundingOutputs (W : Wallet) (outputScript : Script)
    (channelValueSats changeSats changeIndex : Nat) : Except String (List TxOut) := do
  let spk ← W.changeScript changeIndex
  if changeSats ≥ dustThresholdSats then
    return [⟨channelValueSats, outputScript⟩, ⟨changeSats, spk⟩]
  else return [⟨channelValueSats, outputScript⟩]

def buildFundingTx (W : Wallet) (view : Tier2View) (pending : List PendingTx) (marks : CoinMarks)
    (outputScript : Script) (channelValueSats : Nat) (rate : UInt32) (changeIndex : Nat)
    (pins : Option (List (String × Nat))) : Except String FundingTx := do
  ensure (ldkMinChannelSats ≤ channelValueSats)
    ("channel value " ++ toString channelValueSats ++ " below LDK minimum " ++
      toString ldkMinChannelSats ++ " sats")
  let selected ← selectFundingCoins view pending marks channelValueSats rate pins
  let totalIn := totalOf selected
  ensure (¬selected.any fun u => (reservedOutpoints pending).contains u.outpoint)
    "coin already committed to a pending transaction — wait one sync"
  let feeSats := fundingFee selected rate
  ensure (add64 channelValueSats feeSats ≤ totalIn)
    ("insufficient funds for channel: have " ++ toString totalIn ++ " sats, need " ++
      toString (add64 channelValueSats feeSats) ++ " (channel " ++ toString channelValueSats ++
      " + fee " ++ toString feeSats ++ ")")
  let changeSats := sub64 (sub64 totalIn channelValueSats) feeSats
  let outputs ← fundingOutputs W outputScript channelValueSats changeSats changeIndex
  let tx : Transaction :=
    { version := 2, lockTime := 0, input := selected.map inputOf, output := outputs }
  let witnesses ← signInputs W tx selected
  return {
    tx := withWitnesses tx witnesses
    feeSats := if changeSats ≥ dustThresholdSats then feeSats else add64 feeSats changeSats
    changeSats := if changeSats ≥ dustThresholdSats then changeSats else 0
    spentOutpoints := selected.map SpendableUtxo.outpoint }

end Lij.ChannelOpen
