import Lij.OnchainSend.Size
import Lij.OnchainSend.Surfaces

/-!
# The picker's quote and the send

The coin picker quotes a send before it is made: what the chosen coins hold, what
the send needs, whether they cover it, which coins it would spend and what change
it would leave. Nothing is shared with the send but the small rules, so that the
two agree is proved from both sides: the quote for chosen coins is refused exactly
when the plan is, and otherwise fee, change and coins are the plan's, whatever the
amounts wrap to.
-/

namespace Lij.OnchainSend

open Bitcoin Tier2 Word Checked List

/-- The fee for these inputs and for others not yet chosen, at the P2WPKH size. -/
def estimateFeeMixed (selected : List SpendableUtxo) (extraInputs nOut extraVbytes : Nat)
    (rate : UInt32) : Nat :=
  estimateFeeChains (selected.map SpendableUtxo.chain) extraInputs nOut extraVbytes rate

structure CoinQuote where
  chosen : List OutPoint
  chosenSats : Nat
  chosenCount : Nat
  maxSats : Nat
  maxFeeSats : Nat
  amountSats : Option Nat
  needSats : Option Nat
  feeSats : Option Nat
  covered : Option Bool
  shortSats : Option Nat
  /-- The coins that would cover the rest, when asked for. -/
  fill : List OutPoint
  fillSats : Nat
  fillCovers : Option Bool
  /-- The coins the send would spend. -/
  spend : List OutPoint
  spendSats : Nat
  changeSats : Option Nat
  /-- What the send pays for `spend`, with any leftover too small to keep. -/
  sendFeeSats : Option Nat
  foldedSats : Nat
  tinyChange : Bool
  tinyBelowSats : Nat
  spendMixed : Nat
  spendLinksMixed : Bool
  dustSats : Nat
  sendableSats : Nat
  frozenSats : Nat
  frozenCount : Nat
  satPerVb : Nat
  problem : Option String

/-- The text of a `LijError::Node`. -/
def nodeErrorText (message : String) : String := "Node error: " ++ message

/-- The chosen coins, or every coin on offer when none are chosen. -/
def quotedCoins (spendable : List SpendableUtxo) (frozen locked : List OutPoint) :
    Option (List (String × Nat)) → Except String (List SpendableUtxo)
  | some (pin :: pins) => resolvePins spendable frozen locked (pin :: pins)
  | _ => .ok spendable

/-- By the pick rule, coins beside the chosen ones that cover the rest. -/
def fillRest (spendable chosen : List SpendableUtxo) (amount extraVbytes : Nat) (rate : UInt32) :
    Option (List SpendableUtxo) :=
  let rest := spendable.filter fun u => !(chosen.map SpendableUtxo.outpoint).contains u.outpoint
  (autoPick rest fun k =>
      saturatingAdd64 amount (estimateFeeMixed chosen k 2 extraVbytes rate) - totalOf chosen).map
    fun picked => picked.filterMap fun i => rest[i]?

/-- The coins the send would spend: the chosen ones if they cover, or the automatic pick. -/
def quotedSpend (spendable chosen : List SpendableUtxo) (covered : Bool) (amount extraVbytes : Nat)
    (rate : UInt32) : Option (List (String × Nat)) → Option (List SpendableUtxo)
  | some (_ :: _) => if covered then some chosen else none
  | _ =>
    (autoPick spendable fun k =>
        saturatingAdd64 amount (estimateFeeWith k 2 extraVbytes rate)).map
      fun picked => picked.filterMap fun i => spendable[i]?

variable (W : Wallet)

def coinQuote (dest : String) (rate : UInt32) (view : Tier2View) (pending : List PendingTx)
    (marks : CoinMarks) (pins : Option (List (String × Nat))) (amountSats : Option Nat)
    (fill : Bool) : CoinQuote :=
  let extraVbytes := match W.parseDest dest with
    | .ok d => destExtraVbytes d
    | .error _ => 0
  let base := maxSendable W dest rate view pending marks
  let spendable := gatherSpendable view pending marks.heldSet
  let resolved := quotedCoins spendable marks.heldSet marks.mixLockedSet pins
  let problem := match resolved with
    | .ok _ => none
    | .error message => some (nodeErrorText message)
  let chosen := resolved.toOption.getD []
  let chosenSats := totalOf chosen
  let maxFeeSats := if chosen.isEmpty then 0 else estimateFeeInputs chosen 1 extraVbytes rate
  let fee := estimateFeeMixed chosen (if chosen.isEmpty then 1 else 0) 2 extraVbytes rate
  let covered := amountSats.map fun a => decide (saturatingAdd64 a fee ≤ chosenSats)
  let filled := if fill && problem.isNone && covered = some false then
      amountSats.map fun a => fillRest spendable chosen a extraVbytes rate
    else none
  let set := if problem.isNone then
      amountSats.bind fun a =>
        quotedSpend spendable chosen (covered.getD false) a extraVbytes rate pins
    else none
  let flags := mixedFlags ((set.getD []).map SpendableUtxo.chain)
  let settled := set.map fun coins =>
    settleChange (totalOf coins) (amountSats.getD 0) (estimateFeeInputs coins 2 extraVbytes rate)
  let tinyBelowSats := max 1000 (mul64 (5 * 68) (satPerVb rate))
  { chosen := chosen.map SpendableUtxo.outpoint
    chosenSats
    chosenCount := chosen.length
    maxSats := chosenSats - maxFeeSats
    maxFeeSats
    amountSats
    needSats := amountSats.map fun a => saturatingAdd64 a fee
    feeSats := amountSats.map fun _ => fee
    covered
    shortSats := amountSats.map fun a => saturatingAdd64 a fee - chosenSats
    fill := ((filled.join).getD []).map SpendableUtxo.outpoint
    fillSats := saturatingSum64 (((filled.join).getD []).map SpendableUtxo.valueSats)
    fillCovers := filled.map Option.isSome
    spend := (set.getD []).map SpendableUtxo.outpoint
    spendSats := totalOf (set.getD [])
    changeSats := settled.map Settled.changeSats
    sendFeeSats := settled.map Settled.feeSats
    foldedSats := (settled.map Settled.foldedSats).getD 0
    tinyChange := settled.any fun s =>
      dustThresholdSats ≤ s.changeSats && s.changeSats < tinyBelowSats
    tinyBelowSats
    spendMixed := flags.1
    spendLinksMixed := flags.2
    dustSats := dustThresholdSats
    sendableSats := base.totalSats
    frozenSats := base.frozenSats
    frozenCount := base.frozenCount
    satPerVb := base.satPerVb
    problem }

/-- The page greys the button: a chosen coin cannot be spent, or they do not cover. -/
def CoinQuote.refused (quote : CoinQuote) : Bool :=
  quote.problem.isSome || quote.covered = some false

/-! ## The plan for chosen coins -/

section Pinned

variable {W} {spendable chosen : List SpendableUtxo} {frozen locked : List OutPoint}
  {pins : List (String × Nat)} {dest : String} {d : Dest} {amount : Nat} {rate : UInt32}

/-- Pins resolve to at least one coin: the first is no repetition. -/
theorem ne_nil_of_resolvePins (ok : resolvePins spendable frozen locked pins = .ok chosen) :
    chosen ≠ [] := by
  obtain ⟨some_pin, resolved⟩ := ensure_bind_eq_ok.mp ok
  cases pins with
  | nil => exact absurd rfl some_pin
  | cons pin pins =>
    rw [resolvePinsFrom] at resolved
    split_ifs at resolved with again held
    · simp at again
    · obtain ⟨u, _, rest⟩ := bind_eq_ok.mp resolved
      obtain ⟨others, _, rest⟩ := bind_eq_ok.mp rest
      cases pure_eq_ok.mp rest
      exact cons_ne_nil _ _

theorem offered_of_resolvePins (ok : resolvePins spendable frozen locked pins = .ok chosen) :
    spendable ≠ [] := by
  rintro rfl
  have inside := (resolvePinsFrom_eq_ok (ensure_bind_eq_ok.mp ok).2).1
  cases chosen with
  | nil => exact ne_nil_of_resolvePins ok rfl
  | cons u others => exact absurd (inside u mem_cons_self).1 not_mem_nil

theorem checkRecipients_one (valid : W.parseDest dest = .ok d) (positive : amount ≠ 0) :
    checkRecipients W 1 [⟨dest, some amount⟩] = .ok [d] := by
  refine mapM_eq_ok.mpr (.cons ?_ .nil)
  refine bind_eq_ok.mpr ⟨d, mapError_eq_ok.mpr valid, ?_⟩
  refine ensure_bind_eq_ok.mpr ⟨positive, ensure_bind_eq_ok.mpr ⟨?_, rfl⟩⟩
  rintro ⟨several, _⟩
  exact absurd several (by decide)

theorem sum64_destExtraVbytes (d : Dest) :
    sum64 ([d].map destExtraVbytes) = destExtraVbytes d := by
  cases d <;> rfl

/-- What the chosen coins must hold. -/
def pinnedFee (chosen : List SpendableUtxo) (d : Dest) (rate : UInt32) : Nat :=
  estimateFeeInputs chosen 2 (destExtraVbytes d) rate

/-- The plan of a send that spends the chosen coins. -/
def pinnedPlan (chosen : List SpendableUtxo) (d : Dest) (amount : Nat) (rate : UInt32) : Plan :=
  let settled := settleChange (totalOf chosen) amount (pinnedFee chosen d rate)
  ⟨[d], chosen, [amount], settled.feeSats, settled.changeSats, settled.foldedSats, totalOf chosen⟩

/-- The second check of the exact plan, whose sum wraps where the first one's stops, adds
nothing to it. -/
theorem add64_le_of_saturatingAdd64_le {a b total : Nat} (enough : saturatingAdd64 a b ≤ total) :
    add64 a b ≤ total := by
  rw [saturatingAdd64, u64Max] at enough
  rw [add64]
  omega

theorem planExact_pinned_iff (word : amount < 2 ^ 64) {plan : Plan} :
    planExact [⟨dest, some amount⟩] [d] (destExtraVbytes d) rate spendable frozen locked
        (some chosen) = .ok plan ↔
      saturatingAdd64 amount (pinnedFee chosen d rate) ≤ totalOf chosen ∧
        plan = pinnedPlan chosen d amount rate := by
  have fixed : sum64 (requested [⟨dest, some amount⟩]) = amount := by
    change add64 0 amount = amount
    rw [add64, Nat.zero_add, Nat.mod_eq_of_lt word]
  rw [planExact, fixed]
  constructor
  · intro planned
    obtain ⟨selected, isSelected, rest⟩ := bind_eq_ok.mp planned
    obtain ⟨enough, isChosen⟩ := ensure_bind_eq_ok.mp isSelected
    cases pure_eq_ok.mp isChosen
    obtain ⟨_, isPlan⟩ := ensure_bind_eq_ok.mp rest
    exact ⟨Nat.not_lt.mp enough, (pure_eq_ok.mp isPlan).symm⟩
  · rintro ⟨enough, rfl⟩
    refine bind_eq_ok.mpr ⟨chosen, ensure_bind_eq_ok.mpr ⟨Nat.not_lt.mpr enough, rfl⟩, ?_⟩
    exact ensure_bind_eq_ok.mpr ⟨Nat.not_lt.mpr (add64_le_of_saturatingAdd64_le enough), rfl⟩

theorem planSend_pinned_iff (valid : W.parseDest dest = .ok d) (positive : amount ≠ 0)
    (word : amount < 2 ^ 64) {plan : Plan} :
    planSend W [⟨dest, some amount⟩] rate spendable frozen locked (some pins) = .ok plan ↔
      ∃ chosen, resolvePins spendable frozen locked pins = .ok chosen ∧
        saturatingAdd64 amount (pinnedFee chosen d rate) ≤ totalOf chosen ∧
        plan = pinnedPlan chosen d amount rate := by
  have checked := checkRecipients_one valid positive
  constructor
  · intro planned
    obtain ⟨dests, resolved, _, _, isDests, isResolved, mode⟩ := planSend_eq_ok planned
    cases isDests.symm.trans checked
    obtain ⟨chosen, isChosen, rest⟩ := bind_eq_ok.mp isResolved
    cases pure_eq_ok.mp rest
    obtain ⟨takes, _⟩ | ⟨_, exactly⟩ := mode
    · cases takes
    · rw [sum64_destExtraVbytes] at exactly
      exact ⟨chosen, isChosen, (planExact_pinned_iff word).mp exactly⟩
  · rintro ⟨chosen, isChosen, enough, isPlan⟩
    have few : 1 ≤ maxRecipients := by decide
    simp only [planSend, bind_eq_ok, ensure_eq_ok, exists_const]
    refine ⟨Nat.one_ne_zero, few, [d], checked, offered_of_resolvePins isChosen, some chosen,
      bind_eq_ok.mpr ⟨chosen, isChosen, rfl⟩, ?_⟩
    rw [sum64_destExtraVbytes]
    exact (planExact_pinned_iff word).mpr ⟨enough, isPlan⟩

/-! ## The quote for chosen coins -/

variable {view : Tier2View} {pending : List PendingTx} {marks : CoinMarks} {fill : Bool}

theorem quotedCoins_some (some_pin : pins ≠ []) :
    quotedCoins spendable frozen locked (some pins) = resolvePins spendable frozen locked pins := by
  cases pins with
  | nil => exact absurd rfl some_pin
  | cons pin pins => rfl

theorem quotedSpend_some (some_pin : pins ≠ []) {covered : Bool} {extraVbytes : Nat} :
    quotedSpend spendable chosen covered amount extraVbytes rate (some pins) =
      if covered then some chosen else none := by
  cases pins with
  | nil => exact absurd rfl some_pin
  | cons pin pins => rfl

theorem coinQuote_unresolved {message : String} (some_pin : pins ≠ [])
    (failed : resolvePins (gatherSpendable view pending marks.heldSet) marks.heldSet
      marks.mixLockedSet pins = .error message) :
    (coinQuote W dest rate view pending marks (some pins) (some amount) fill).refused = true := by
  rw [CoinQuote.refused, coinQuote]
  simp only [quotedCoins_some some_pin, failed, Option.isSome_some, Bool.true_or]

/-- The coins, fee, change and what is folded into the fee are the plan's. -/
def SameFigures (quote : CoinQuote) (plan : Plan) : Prop :=
  quote.spend = plan.selected.map SpendableUtxo.outpoint ∧
    quote.sendFeeSats = some plan.feeSats ∧ quote.changeSats = some plan.changeSats ∧
    quote.foldedSats = plan.foldedSats

/-- The figures of a quote whose pins resolve: the plan's, if the coins cover. -/
theorem coinQuote_resolved (valid : W.parseDest dest = .ok d) (some_pin : pins ≠ [])
    (isChosen : resolvePins (gatherSpendable view pending marks.heldSet) marks.heldSet
      marks.mixLockedSet pins = .ok chosen) :
    (coinQuote W dest rate view pending marks (some pins) (some amount) fill).refused =
        decide (¬saturatingAdd64 amount (pinnedFee chosen d rate) ≤ totalOf chosen) ∧
      (saturatingAdd64 amount (pinnedFee chosen d rate) ≤ totalOf chosen →
        SameFigures (coinQuote W dest rate view pending marks (some pins) (some amount) fill)
          (pinnedPlan chosen d amount rate)) := by
  have some_coin : chosen.isEmpty = false := by
    simpa using ne_nil_of_resolvePins isChosen
  have fee : estimateFeeMixed chosen 0 2 (destExtraVbytes d) rate = pinnedFee chosen d rate := rfl
  constructor
  · rw [CoinQuote.refused, coinQuote]
    simp only [quotedCoins_some some_pin, isChosen, valid, Except.toOption, Option.getD_some,
      some_coin, Bool.false_eq_true, if_false, fee, Option.map_some, Option.isSome_none,
      Bool.false_or]
    simp
  · intro enough
    rw [SameFigures, coinQuote]
    simp only [quotedCoins_some some_pin, quotedSpend_some some_pin, isChosen, valid,
      Except.toOption, Option.getD_some, some_coin, Bool.false_eq_true, if_false, fee,
      Option.map_some, Option.isNone_none, if_true, Option.bind_some, enough, decide_true]
    exact ⟨rfl, rfl, rfl, rfl⟩

/-! ## The quote is what is sent -/

/-- The quote is refused exactly when the send is, and otherwise has the fee, the change and
the coins of the plan and of the transaction built from it: the transaction pays the amount and
the change, and what its coins hold beyond that is the fee. -/
structure QuoteIsSent (quote : CoinQuote) (spendable : List SpendableUtxo) (amount : Nat)
    (planned : Except String Plan) (built : Except String BuiltSend) : Prop where
  refused_planned : quote.refused = true ↔ ∀ plan, planned ≠ .ok plan
  refused_built : quote.refused = true ↔ ∀ send, built ≠ .ok send
  same_planned : ∀ plan, planned = .ok plan →
    quote.spend = plan.selected.map SpendableUtxo.outpoint ∧
    quote.sendFeeSats = some plan.feeSats ∧ quote.changeSats = some plan.changeSats ∧
    quote.foldedSats = plan.foldedSats
  same_built : ∀ send, built = .ok send →
    quote.spend = send.tx.input.map TxIn.previousOutput ∧ quote.spend = send.spentOutpoints ∧
    quote.sendFeeSats = some send.feeSats ∧ quote.changeSats = some send.changeSats ∧
    send.tx.output.map TxOut.value =
      amount :: if send.changeSats > 0 then [send.changeSats] else []
  fee_built : ∀ send, built = .ok send → (spendable.map SpendableUtxo.outpoint).Nodup →
    Fits spendable → ∃ coins : List SpendableUtxo, (∀ u ∈ coins, u ∈ spendable) ∧
      coins.map SpendableUtxo.outpoint = quote.spend ∧
      (coins.map SpendableUtxo.valueSats).sum =
        (send.tx.output.map TxOut.value).sum + send.feeSats

/-- The built send, from its plan. -/
theorem of_buildSendTx {recipients : List Recipient} {changeIndex : Nat}
    {pins : Option (List (String × Nat))} {send : BuiltSend}
    (ok : buildSendTx W recipients rate changeIndex view pending marks pins = .ok send) :
    ∃ plan, planSend W recipients rate (gatherSpendable view pending marks.heldSet) marks.heldSet
        marks.mixLockedSet pins = .ok plan ∧ buildTx W plan changeIndex = .ok send.tx ∧
      send.spentOutpoints = plan.selected.map SpendableUtxo.outpoint ∧
      send.feeSats = plan.feeSats ∧ send.changeSats = plan.changeSats := by
  obtain ⟨plan, planned, rest⟩ := bind_eq_ok.mp ok
  obtain ⟨tx, built, rest⟩ := bind_eq_ok.mp rest
  cases pure_eq_ok.mp rest
  exact ⟨plan, planned, built, rfl, rfl, rfl⟩

theorem refused_iff (valid : W.parseDest dest = .ok d) (positive : amount ≠ 0)
    (word : amount < 2 ^ 64) (some_pin : pins ≠ []) :
    (coinQuote W dest rate view pending marks (some pins) (some amount) fill).refused = true ↔
      ∀ plan, planSend W [⟨dest, some amount⟩] rate (gatherSpendable view pending marks.heldSet)
        marks.heldSet marks.mixLockedSet (some pins) ≠ .ok plan := by
  cases resolved : resolvePins (gatherSpendable view pending marks.heldSet) marks.heldSet
      marks.mixLockedSet pins with
  | error message =>
    refine ⟨fun _ plan planned => ?_, fun _ => coinQuote_unresolved some_pin resolved⟩
    obtain ⟨chosen, isChosen, _⟩ := (planSend_pinned_iff valid positive word).mp planned
    rw [resolved] at isChosen
    cases isChosen
  | ok chosen =>
    rw [(coinQuote_resolved valid some_pin resolved).1, decide_eq_true_iff]
    constructor
    · intro short plan planned
      obtain ⟨again, isChosen, enough, _⟩ := (planSend_pinned_iff valid positive word).mp planned
      rw [resolved] at isChosen
      cases isChosen
      exact short enough
    · intro none_planned enough
      exact none_planned _
        ((planSend_pinned_iff valid positive word).mpr ⟨chosen, resolved, enough, rfl⟩)

variable (fill) in
theorem figures_of_planSend (valid : W.parseDest dest = .ok d) (positive : amount ≠ 0)
    (word : amount < 2 ^ 64) (some_pin : pins ≠ []) {plan : Plan}
    (planned : planSend W [⟨dest, some amount⟩] rate
      (gatherSpendable view pending marks.heldSet) marks.heldSet marks.mixLockedSet (some pins) =
        .ok plan) :
    SameFigures (coinQuote W dest rate view pending marks (some pins) (some amount) fill) plan := by
  obtain ⟨chosen, isChosen, enough, rfl⟩ := (planSend_pinned_iff valid positive word).mp planned
  exact (coinQuote_resolved valid some_pin isChosen).2 enough

variable (W) in
/-- The quote for chosen coins is the send of them. -/
theorem quote_is_sent (view : Tier2View) (pending : List PendingTx) (marks : CoinMarks)
    (rate : UInt32) (valid : W.parseDest dest = .ok d) (amount : UInt64)
    (positive : amount.toNat ≠ 0) (some_pin : pins ≠ []) (fill : Bool) (changeIndex : Nat)
    (keyed : ∀ plan, planSend W [⟨dest, some amount.toNat⟩] rate
        (gatherSpendable view pending marks.heldSet) marks.heldSet marks.mixLockedSet
        (some pins) = .ok plan → Keyed W plan.selected changeIndex ∧
      Derives W plan.selected (plan.dests.filterMap Dest.spAddress)) :
    QuoteIsSent
      (coinQuote W dest rate view pending marks (some pins) (some amount.toNat) fill)
      (gatherSpendable view pending marks.heldSet) amount.toNat
      (planSend W [⟨dest, some amount.toNat⟩] rate (gatherSpendable view pending marks.heldSet)
        marks.heldSet marks.mixLockedSet (some pins))
      (buildSendTx W [⟨dest, some amount.toNat⟩] rate changeIndex view pending marks
        (some pins)) where
  refused_planned := refused_iff valid positive amount.toNat_lt some_pin
  refused_built := by
    rw [refused_iff valid positive amount.toNat_lt some_pin]
    constructor
    · intro none_planned send built
      obtain ⟨plan, planned, _⟩ := of_buildSendTx built
      exact none_planned plan planned
    · intro none_built plan planned
      obtain ⟨tx, built⟩ := buildTx_ok (keyed plan planned).1 (keyed plan planned).2
      exact none_built _ (bind_eq_ok.mpr ⟨plan, planned, bind_eq_ok.mpr ⟨tx, built, rfl⟩⟩)
  same_planned plan planned :=
    figures_of_planSend fill valid positive amount.toNat_lt some_pin planned
  same_built send built := by
    obtain ⟨plan, planned, isTx, spent, fee, change⟩ := of_buildSendTx built
    obtain ⟨isSpend, isFee, isChange, _⟩ := figures_of_planSend fill valid positive
      amount.toNat_lt some_pin planned
    obtain ⟨chosen, _, _, isPlan⟩ := (planSend_pinned_iff valid positive amount.toNat_lt).mp planned
    have amounts : plan.amounts = [amount.toNat] := by rw [isPlan]; rfl
    rw [(pays_of_buildTx planned isTx).spends, spent, fee, change, values_of_buildTx planned isTx,
      amounts]
    exact ⟨isSpend, isSpend, isFee, isChange, rfl⟩
  fee_built send built distinct fits := by
    obtain ⟨plan, planned, isTx, _, fee, _⟩ := of_buildSendTx built
    obtain ⟨subset, different⟩ := planSend_selected planned distinct
    refine ⟨plan.selected, subset, (figures_of_planSend fill valid positive amount.toNat_lt
      some_pin planned).1.symm, ?_⟩
    obtain ⟨chosen, _, enough, isPlan⟩ :=
      (planSend_pinned_iff valid positive amount.toNat_lt).mp planned
    have small : amount.toNat < 2 ^ 63 := by
      have total : (chosen.map SpendableUtxo.valueSats).sum < 2 ^ 63 := by
        have part := (sum_le_of_subset different subset).2.trans_lt fits.small
        rwa [isPlan] at part
      rw [totalOf_eq total, saturatingAdd64, u64Max] at enough
      omega
    have balanced := (planSend_balanced_iff planned distinct fits).1.mpr (by
      simpa [requested] using small)
    rw [Plan.Balanced] at balanced
    rw [(pays_of_buildTx planned isTx).nothingElse, fee, balanced]
    omega

end Pinned

/-- One coin of 100,000 sats, chosen for a send of 1,000. -/
theorem quote_is_sent_oneCoin :
    (coinQuote zeroWallet "alice" lowRate oneCoinView [] .empty (some [(Txid.text 10, 0)])
        (some (1000 : UInt64).toNat) false).refused = false ∧
      QuoteIsSent
        (coinQuote zeroWallet "alice" lowRate oneCoinView [] .empty (some [(Txid.text 10, 0)])
          (some (1000 : UInt64).toNat) false)
        (gatherSpendable oneCoinView [] CoinMarks.empty.heldSet) (1000 : UInt64).toNat
        (planSend zeroWallet [⟨"alice", some (1000 : UInt64).toNat⟩] lowRate
          (gatherSpendable oneCoinView [] CoinMarks.empty.heldSet) CoinMarks.empty.heldSet
          CoinMarks.empty.mixLockedSet (some [(Txid.text 10, 0)]))
        (buildSendTx zeroWallet [⟨"alice", some (1000 : UInt64).toNat⟩] lowRate 0 oneCoinView []
          .empty (some [(Txid.text 10, 0)])) := by
  constructor
  · have chosen : resolvePins (gatherSpendable oneCoinView [] CoinMarks.empty.heldSet)
        CoinMarks.empty.heldSet CoinMarks.empty.mixLockedSet [(Txid.text 10, 0)] =
          .ok [theCoin] := by
      have unheld : CoinMarks.empty.heldSet = [] := rfl
      have isNamed : named theCoin.outpoint (Txid.text 10, 0) = true := named_iff.mpr rfl
      rw [gather_oneCoinView, unheld]
      refine ensure_bind_eq_ok.mpr ⟨cons_ne_nil _ _, ?_⟩
      rw [resolvePinsFrom, if_neg (by simp), if_neg (by simp)]
      exact bind_eq_ok.mpr ⟨theCoin, context_eq_ok.mpr (find?_cons_of_pos isNamed), rfl⟩
    rw [(coinQuote_resolved rfl (cons_ne_nil _ _) chosen).1]
    decide +kernel
  · exact quote_is_sent zeroWallet oneCoinView [] .empty lowRate rfl 1000 (by decide)
      (cons_ne_nil _ _) false 0 fun plan _ =>
        ⟨keyed_zeroWallet plan.selected 0, derives_zeroWallet _ _⟩

end Lij.OnchainSend
