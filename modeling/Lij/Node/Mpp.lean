import Mathlib
import Lij.Foundation.Words

/-!
# What can be sent through the provider

Three functions of the node answer how much fits through the channels to the
provider: the number the send field shows, the decision between one path and
several, and the greedy split into parts. They share the law of the provider's
forward fee and differ in what they count: the field and the split count whole
sats per channel, the decision compares the raw limit, and only the split leaves
out a channel without a short id.
-/

namespace Lij.Node.Mpp

open Word List

/-! ## The code -/

/-- The provider's first-hop policy; the recorded rate is cut at a whole. -/
structure Policy where
  baseMsat : Nat
  ppm : Nat
  capped : ppm ≤ 1000000

def Policy.unseen : Policy := ⟨1000, 1000, by decide⟩

def recordLspFeePolicy (baseMsat ppm : Nat) : Policy :=
  ⟨baseMsat, min ppm 1000000, Nat.min_le_right _ _⟩

/-- The largest amount deliverable through a capacity once the forward fee rides on top. -/
def feeAdjustedDeliverableMsat (policy : Policy) (capMsat : Nat) : Nat :=
  if capMsat ≤ policy.baseMsat then 0
  else (capMsat - policy.baseMsat) * 1000000 / (1000000 + policy.ppm)

/-- The sender's fee for delivering an amount, rounded up. -/
def quoteSelfHopFeeMsat (policy : Policy) (amountMsat downstreamFeesMsat : Nat) : Nat :=
  let forwarded := amountMsat + downstreamFeesMsat
  let prop := (forwarded * policy.ppm + 999999) / 1000000
  (policy.baseMsat + prop) % 2 ^ 64

/-- A public key in hexadecimal. -/
abbrev NodeId := String

/-- A row of the channel list. -/
structure Channel where
  counterparty : NodeId
  isUsable : Bool
  outboundCapacityMsat : Nat
  nextOutboundHtlcLimitMsat : Nat
  shortChannelId : Option Nat
  outboundScidAlias : Option Nat
  deriving DecidableEq

namespace Channel

def limit (c : Channel) : Nat := min c.outboundCapacityMsat c.nextOutboundHtlcLimitMsat

def scid (c : Channel) : Option Nat := c.shortChannelId.or c.outboundScidAlias

def deliverableMsat (policy : Policy) (c : Channel) : Nat :=
  feeAdjustedDeliverableMsat policy c.limit

def deliverableSats (policy : Policy) (c : Channel) : Nat := c.deliverableMsat policy / 1000

end Channel

/-- What the three functions read of the node. -/
structure Wallet where
  channels : List Channel
  lsp : NodeId
  policy : Policy
  feeMarginSats : Nat

namespace Wallet

/-- The usable channels to the provider. -/
def usable (W : Wallet) : List Channel :=
  (W.channels.filter fun c => c.counterparty = W.lsp).filter Channel.isUsable

def maxSendableSats (W : Wallet) : Nat :=
  sum64 (W.usable.map (Channel.deliverableSats W.policy)) - W.feeMarginSats

end Wallet

structure MppPart where
  scid : Nat
  partMsat : Nat
  deriving DecidableEq, Repr

inductive MppDecision where
  | single
  | multi (parts : List MppPart)
  | noMppSupport
  | exceedsTotal (sendableMsat : Nat)
  deriving DecidableEq, Repr

inductive PlanError where
  | noUsableChannel
  | exceedsTotal (totalSats usableSats channels : Nat)
  | incomplete (remaining : Nat)
  deriving DecidableEq, Repr

def PlanError.text : PlanError → String
  | noUsableChannel => "No usable channel to LSP for MPP"
  | exceedsTotal total usable channels =>
    s!"exceeds_total: {total} sats exceeds sendable {usable} sats across {channels} channel(s)"
  | incomplete remaining => s!"MPP split incomplete: {remaining} sats unassigned"

/-- A channel's place in the plan. -/
def planRow (policy : Policy) (c : Channel) : Option (Nat × Nat) := do
  let scid ← c.scid
  if c.deliverableSats policy = 0 then none else some (scid, c.deliverableSats policy)

/-- The largest channels are filled first; what is left over comes back beside the parts. -/
def split : Nat → List (Nat × Nat) → List MppPart × Nat
  | remaining, [] => ([], remaining)
  | remaining, (scid, usableSats) :: rest =>
    if remaining = 0 then ([], remaining)
    else
      let take := min remaining usableSats
      if take = 0 then split remaining rest
      else
        let later := split (remaining - take) rest
        (⟨scid, mul64 take 1000⟩ :: later.1, later.2)

def mppPlan (W : Wallet) (totalAmountMsat : Nat) : Except PlanError (List MppPart) :=
  let chans := (W.usable.filterMap (planRow W.policy)).insertionSort fun a b => b.2 ≤ a.2
  if chans.isEmpty then .error .noUsableChannel
  else
    let totalSats := add64 totalAmountMsat 999 / 1000
    let totalUsableSats := sum64 (chans.map Prod.snd)
    if totalSats > totalUsableSats then
      .error (.exceedsTotal totalSats totalUsableSats chans.length)
    else
      let parts := split totalSats chans
      if parts.2 > 0 then .error (.incomplete parts.2) else .ok parts.1

structure Invoice where
  amountMsat : Option Nat
  supportsBasicMpp : Bool

def noAmount : String := "Invoice has no amount — enter one to pay this open invoice"

def largest (W : Wallet) : Nat := (W.usable.map Channel.limit).foldl max 0

/-- The number carried when the plan finds too little. -/
def sendableMsat (W : Wallet) : Nat :=
  sum64 (W.usable.map (Channel.deliverableMsat W.policy)) - mul64 W.feeMarginSats 1000

/-- Once the amount is known. The source tells the plan's errors apart by their text: only
that of `PlanError.exceedsTotal` has the words it looks for. -/
def decideAmount (W : Wallet) (supportsMpp : Bool) (amountMsat : Nat) : Except String MppDecision :=
  if amountMsat ≤ largest W then .ok .single
  else if !supportsMpp then .ok .noMppSupport
  else
    match mppPlan W amountMsat with
    | .ok parts => .ok (.multi parts)
    | .error (.exceedsTotal _ _ _) => .ok (.exceedsTotal (sendableMsat W))
    | .error e => .error e.text

/-- The invoice's amount wins over the typed one. -/
def mppDecision (W : Wallet) (invoice : Invoice) (userAmountSat : Option Nat) :
    Except String MppDecision :=
  match invoice.amountMsat.or (userAmountSat.map fun s => saturatingMul64 s 1000) with
  | none => .error noAmount
  | some amountMsat => decideAmount W invoice.supportsBasicMpp amountMsat

/-! ## The fee law -/

variable {W : Wallet} {policy : Policy}

/-- The fee before the quote cuts it to 64 bits. -/
def wholeFee (policy : Policy) (amount : Nat) : Nat :=
  policy.baseMsat + (amount * policy.ppm + 999999) / 1000000

theorem quote_eq (policy : Policy) (amount : Nat) :
    quoteSelfHopFeeMsat policy amount 0 = wholeFee policy amount % 2 ^ 64 := rfl

/-- The rounded quotient inverts the rounded fee exactly. -/
theorem le_feeAdjusted_iff {cap amount : Nat} (above : policy.baseMsat < cap) :
    amount ≤ feeAdjustedDeliverableMsat policy cap ↔ amount + wholeFee policy amount ≤ cap := by
  rw [feeAdjustedDeliverableMsat, if_neg (by omega), Nat.le_div_iff_mul_le (by omega), wholeFee,
    Nat.mul_add]
  generalize amount * policy.ppm = fee
  omega

theorem feeAdjusted_of_le {cap : Nat} (below : cap ≤ policy.baseMsat) :
    feeAdjustedDeliverableMsat policy cap = 0 := if_pos below

theorem feeAdjustedDeliverableMsat_le (policy : Policy) (cap : Nat) :
    feeAdjustedDeliverableMsat policy cap ≤ cap := by
  rcases Nat.lt_or_ge policy.baseMsat cap with above | below
  · exact Nat.le_of_add_right_le ((le_feeAdjusted_iff above).mp le_rfl)
  · rw [feeAdjusted_of_le below]
    exact Nat.zero_le _

/-- A positive amount within what a capacity delivers fits it with its fee. -/
theorem add_quote_le {cap amount : Nat} (positive : 0 < amount)
    (fits : amount ≤ feeAdjustedDeliverableMsat policy cap) :
    amount + quoteSelfHopFeeMsat policy amount 0 ≤ cap := by
  rcases Nat.lt_or_ge policy.baseMsat cap with above | below
  · exact (Nat.add_le_add_left (Nat.mod_le _ _) _).trans ((le_feeAdjusted_iff above).mp fits)
  · rw [feeAdjusted_of_le below] at fits
    omega

/-- The channel's limit holds the amount with the fee for forwarding it. -/
def Carries (policy : Policy) (c : Channel) (amountMsat : Nat) : Prop :=
  amountMsat + quoteSelfHopFeeMsat policy amountMsat 0 ≤ c.limit

/-- A channel carries what it delivers, and no more unless the fee outgrows 64 bits. -/
theorem carries_iff {c : Channel} {amount : Nat} :
    Carries policy c amount ↔
      policy.baseMsat ≤ c.limit ∧ amount ≤ c.deliverableMsat policy ∨
        2 ^ 64 ≤ wholeFee policy amount ∧ Carries policy c amount := by
  constructor
  · intro carries
    by_cases cut : 2 ^ 64 ≤ wholeFee policy amount
    · exact .inr ⟨cut, carries⟩
    · have whole := carries
      rw [Carries, quote_eq, Nat.mod_eq_of_lt (by omega)] at whole
      have parts := whole
      rw [wholeFee] at parts
      refine .inl ⟨by omega, ?_⟩
      rcases Nat.lt_or_ge policy.baseMsat c.limit with above | below
      · exact (le_feeAdjusted_iff above).mpr whole
      · have none : amount = 0 := by omega
        rw [none]
        exact Nat.zero_le _
  · rintro (⟨base, within⟩ | ⟨-, carries⟩)
    · rcases Nat.eq_zero_or_pos amount with rfl | positive
      · have least : wholeFee policy 0 ≤ c.limit := by
          rw [wholeFee]
          omega
        rw [Carries, quote_eq, Nat.zero_add]
        exact (Nat.mod_le _ _).trans least
      · exact add_quote_le positive within
    · exact carries

/-- A number of whole sats a channel delivers, it carries. -/
theorem carries_of_le {c : Channel} {sats : Nat} (positive : 0 < sats)
    (fits : sats ≤ c.deliverableSats policy) : Carries policy c (sats * 1000) :=
  add_quote_le (by omega) ((Nat.le_div_iff_mul_le (by decide)).mp fits)

/-! ## The largest amount -/

/-- An amount of 64 bits that a capacity holds together with its quoted fee. -/
def Affordable (policy : Policy) (cap amount : Nat) : Prop :=
  amount < 2 ^ 64 ∧ amount + quoteSelfHopFeeMsat policy amount 0 ≤ cap

/-- The deliverable amount is the largest affordable one, and 0 when there is none. -/
def Optimal (policy : Policy) (cap : Nat) : Prop :=
  ((∃ amount, Affordable policy cap amount) →
    IsGreatest {amount | Affordable policy cap amount} (feeAdjustedDeliverableMsat policy cap)) ∧
  ((¬∃ amount, Affordable policy cap amount) → feeAdjustedDeliverableMsat policy cap = 0)

/-- The rate is at most a whole, so one more msat costs at most one msat more. A fee that outgrows
64 bits therefore passes through the value that is cut to 0. -/
theorem exists_wholeFee_eq {cap : Nat} (base : policy.baseMsat < 2 ^ 64)
    (cutOff : 2 ^ 64 ≤ wholeFee policy cap) : ∃ amount ≤ cap, wholeFee policy amount = 2 ^ 64 := by
  induction cap with
  | zero =>
    rw [wholeFee, Nat.zero_mul] at cutOff
    omega
  | succ cap ih =>
    by_cases already : 2 ^ 64 ≤ wholeFee policy cap
    · obtain ⟨amount, le, cut⟩ := ih already
      exact ⟨amount, Nat.le_succ_of_le le, cut⟩
    · refine ⟨cap + 1, le_rfl, ?_⟩
      have whole := policy.capped
      rw [wholeFee, Nat.succ_mul] at cutOff ⊢
      rw [wholeFee] at already
      omega

theorem optimal_of_uncut {cap : Nat} (small : cap < 2 ^ 64)
    (uncut : wholeFee policy cap < 2 ^ 64) : Optimal policy cap := by
  have upper : ∀ {amount}, Affordable policy cap amount →
      amount + wholeFee policy amount ≤ cap := by
    rintro amount ⟨-, affordable⟩
    have scaled := Nat.mul_le_mul_right policy.ppm (Nat.le_of_add_right_le affordable)
    rw [quote_eq, Nat.mod_eq_of_lt] at affordable
    · exact affordable
    · rw [wholeFee] at uncut ⊢
      omega
  rcases Nat.lt_or_ge policy.baseMsat cap with above | below
  · have most := (le_feeAdjusted_iff above).mp le_rfl
    have lower : Affordable policy cap (feeAdjustedDeliverableMsat policy cap) :=
      ⟨by omega, (Nat.add_le_add_left (Nat.mod_le _ _) _).trans most⟩
    exact ⟨fun _ => ⟨lower, fun _ also => (le_feeAdjusted_iff above).mpr (upper also)⟩,
      fun none => absurd ⟨_, lower⟩ none⟩
  · rw [Optimal, feeAdjusted_of_le below]
    refine ⟨?_, fun _ => rfl⟩
    rintro ⟨amount, affordable⟩
    have zero : ∀ {other}, Affordable policy cap other → other = 0 := by
      intro other also
      have whole := upper also
      rw [wholeFee] at whole
      omega
    refine ⟨?_, fun other also => (zero also).le⟩
    rw [← zero affordable]
    exact affordable

/-- The deliverable amount is the largest affordable one exactly if the fee for the whole
capacity fits in 64 bits: the quote cuts its sum to them. The deliverable amount itself never
overflows. -/
theorem deliverable_optimal_iff (policy : Policy) (cap : Nat) (base : policy.baseMsat < 2 ^ 64)
    (small : cap < 2 ^ 64) :
    (Optimal policy cap ↔ wholeFee policy cap < 2 ^ 64) ∧
      (cap - policy.baseMsat) * 1000000 < 2 ^ 128 ∧
      feeAdjustedDeliverableMsat policy cap < 2 ^ 64 := by
  refine ⟨⟨?_, optimal_of_uncut small⟩, by omega,
    (feeAdjustedDeliverableMsat_le policy cap).trans_lt small⟩
  intro optimal
  by_contra cutOff
  obtain ⟨amount, le, cut⟩ := exists_wholeFee_eq base (Nat.le_of_not_lt cutOff)
  have affordable : Affordable policy cap amount := by
    refine ⟨by omega, ?_⟩
    rw [quote_eq, cut, Nat.mod_self]
    exact le
  have most := (optimal.1 ⟨_, affordable⟩).2 affordable
  rcases Nat.lt_or_ge policy.baseMsat cap with above | below
  · have whole := (le_feeAdjusted_iff above).mp most
    omega
  · -- nothing is deliverable, and the base alone does not outgrow 64 bits
    rw [feeAdjusted_of_le below, Nat.le_zero] at most
    rw [most, wholeFee] at cut
    omega

/-- The policy assumed before one is seen, at a capacity of one bitcoin. -/
theorem unseen_optimal : Optimal .unseen 100000000000 :=
  (deliverable_optimal_iff .unseen 100000000000 (by decide) (by decide)).1.mpr (by decide)

/-- A recorded base of `2 ^ 64 - 6` msat: an amount of 6 is quoted no fee at all, and a capacity
of 10 holds it, while nothing is called deliverable. -/
theorem hugeBase_not_optimal :
    let policy := recordLspFeePolicy (2 ^ 64 - 6) 1000000
    quoteSelfHopFeeMsat policy 6 0 = 0 ∧ feeAdjustedDeliverableMsat policy 10 = 0 ∧
      ¬Optimal policy 10 := by
  refine ⟨by decide, by decide, fun optimal => ?_⟩
  have affordable : Affordable (recordLspFeePolicy (2 ^ 64 - 6) 1000000) 10 6 :=
    ⟨by decide, by decide⟩
  exact absurd ((optimal.1 ⟨6, affordable⟩).2 affordable) (by decide)

/-! ## The split -/

/-- The channels a plan draws on. -/
def planned (W : Wallet) : List Channel :=
  (W.usable.filter fun c => c.scid.isSome && c.deliverableSats W.policy != 0).insertionSort
    fun a b => b.deliverableSats W.policy ≤ a.deliverableSats W.policy

def row (policy : Policy) (c : Channel) : Nat × Nat :=
  (c.scid.getD 0, c.deliverableSats policy)

theorem filterMap_planRow (policy : Policy) (channels : List Channel) :
    channels.filterMap (planRow policy) =
      (channels.filter fun c => c.scid.isSome && c.deliverableSats policy != 0).map
        (row policy) := by
  induction channels with
  | nil => rfl
  | cons c channels ih =>
    rw [filterMap_cons, filter_cons, ih, planRow]
    cases named : c.scid with
    | none => simp
    | some scid =>
      by_cases zero : c.deliverableSats policy = 0
      · simp [zero]
      · simp [zero, row, named]

theorem rows_eq (W : Wallet) :
    (W.usable.filterMap (planRow W.policy)).insertionSort (fun a b => b.2 ≤ a.2) =
      (planned W).map (row W.policy) := by
  rw [filterMap_planRow, planned]
  exact (map_insertionSort _ _ (row W.policy) _ fun _ _ _ _ => Iff.rfl).symm

theorem planned_subperm (W : Wallet) : (planned W).Subperm W.usable :=
  (perm_insertionSort _ _).subperm.trans filter_sublist.subperm

theorem scid_of_planned {c : Channel} (member : c ∈ planned W) :
    c.scid = some (row W.policy c).1 := by
  have kept := (mem_filter.mp ((mem_insertionSort _).mp member)).2
  rw [Bool.and_eq_true] at kept
  obtain ⟨scid, named⟩ := Option.isSome_iff_exists.mp kept.1
  rw [row, named, Option.getD_some]

/-- What the channels with a short id deliver, in whole sats. -/
def plannedSats (W : Wallet) : Nat :=
  ((W.usable.filter fun c => c.scid.isSome).map (Channel.deliverableSats W.policy)).sum

theorem sum_planned (W : Wallet) :
    ((planned W).map (Channel.deliverableSats W.policy)).sum = plannedSats W := by
  rw [planned, ((perm_insertionSort _ _).map _).sum_eq, plannedSats]
  induction W.usable with
  | nil => rfl
  | cons c channels ih =>
    rw [filter_cons, filter_cons]
    cases named : c.scid with
    | none => simpa using ih
    | some scid =>
      by_cases zero : c.deliverableSats W.policy = 0
      · simpa [zero] using ih
      · simp [zero, ih]

/-- The parts of a split go to distinct channels of the list, each within what its channel
delivers, and are worth what was to be split less what is left over. -/
theorem split_spec (policy : Policy) (channels : List Channel) (remaining : Nat)
    (small : ∀ c ∈ channels, c.limit < 2 ^ 64) :
    (split remaining (channels.map (row policy))).2 =
        remaining - (channels.map (Channel.deliverableSats policy)).sum ∧
      ((split remaining (channels.map (row policy))).1.map MppPart.partMsat).sum =
        1000 * (remaining - (split remaining (channels.map (row policy))).2) ∧
      ∃ chosen, chosen.Sublist channels ∧
        List.Forall₂ (fun part c => part.scid = (row policy c).1 ∧ Carries policy c part.partMsat)
          (split remaining (channels.map (row policy))).1 chosen := by
  induction channels generalizing remaining with
  | nil => exact ⟨by simp [split], by simp [split], [], List.Sublist.refl _, .nil⟩
  | cons c channels ih =>
    have later : ∀ c ∈ channels, c.limit < 2 ^ 64 :=
      fun c member => small c (mem_cons_of_mem _ member)
    rw [map_cons, map_cons, sum_cons, split]
    by_cases done : remaining = 0
    · rw [if_pos done, done]
      exact ⟨by simp, by simp, [], nil_sublist _, .nil⟩
    rw [if_neg done]
    dsimp only [row]
    by_cases nothing : min remaining (c.deliverableSats policy) = 0
    · rw [if_pos nothing]
      obtain ⟨left, worth, chosen, isSublist, each⟩ := ih remaining later
      refine ⟨?_, worth, chosen, isSublist.cons c, each⟩
      rw [left]
      omega
    · rw [if_neg nothing]
      set take := min remaining (c.deliverableSats policy) with isTake
      obtain ⟨left, worth, chosen, isSublist, each⟩ := ih (remaining - take) later
      have within : take ≤ c.deliverableSats policy := by omega
      have fits : take * 1000 < 2 ^ 64 := by
        have bound := (Nat.le_div_iff_mul_le (by decide)).mp within
        have below := feeAdjustedDeliverableMsat_le policy c.limit
        have word := small c mem_cons_self
        exact lt_of_le_of_lt (bound.trans below) word
      have part : mul64 take 1000 = take * 1000 := mul64_of_lt fits
      refine ⟨?_, ?_, c :: chosen, isSublist.cons_cons c, .cons ⟨rfl, ?_⟩ each⟩
      · rw [left]
        omega
      · rw [map_cons, sum_cons, worth, left, part]
        show take * 1000 + _ = _
        omega
      · rw [part]
        exact carries_of_le (by omega) within

/-! ## The decision -/

/-- Money in millisatoshis fits the words it is added up in. -/
structure Fits (W : Wallet) (amountMsat : Nat) : Prop where
  limits : (W.usable.map Channel.limit).sum < 2 ^ 64
  margin : W.feeMarginSats * 1000 < 2 ^ 64
  amount : amountMsat + 999 < 2 ^ 64

variable {amount : Nat}

theorem Fits.limit (fits : Fits W amount) {c : Channel} (member : c ∈ W.usable) :
    c.limit < 2 ^ 64 :=
  lt_of_le_of_lt (single_le_sum (fun _ _ => Nat.zero_le _) _
    (mem_map.mpr ⟨c, member, rfl⟩)) fits.limits

theorem deliverableSats_le_msat (policy : Policy) (c : Channel) :
    c.deliverableSats policy ≤ c.deliverableMsat policy := Nat.div_le_self _ _

theorem sum_deliverableMsat_le (policy : Policy) (channels : List Channel) :
    (channels.map (Channel.deliverableMsat policy)).sum ≤ (channels.map Channel.limit).sum :=
  sum_le_sum fun c _ => feeAdjustedDeliverableMsat_le policy c.limit

theorem sum_deliverableSats_le (policy : Policy) (channels : List Channel) :
    (channels.map (Channel.deliverableSats policy)).sum ≤
      (channels.map (Channel.deliverableMsat policy)).sum :=
  sum_le_sum fun c _ => deliverableSats_le_msat policy c

/-- In whole sats and the odd millisatoshis. -/
theorem sum_deliverableMsat (policy : Policy) (channels : List Channel) :
    (channels.map (Channel.deliverableMsat policy)).sum =
      1000 * (channels.map (Channel.deliverableSats policy)).sum +
        (channels.map fun c => c.deliverableMsat policy % 1000).sum := by
  induction channels with
  | nil => rfl
  | cons c channels ih =>
    have parts := Nat.div_add_mod (c.deliverableMsat policy) 1000
    simp only [map_cons, sum_cons, ih, Channel.deliverableSats]
    omega

theorem plannedSats_le (W : Wallet) :
    plannedSats W ≤ (W.usable.map (Channel.deliverableSats W.policy)).sum :=
  (filter_sublist.map _).sum_le_sum fun _ _ => Nat.zero_le _

theorem maxSendableSats_eq (fits : Fits W amount) :
    W.maxSendableSats =
      (W.usable.map (Channel.deliverableSats W.policy)).sum - W.feeMarginSats := by
  rw [Wallet.maxSendableSats, sum64_of_lt]
  exact ((sum_deliverableSats_le _ _).trans (sum_deliverableMsat_le _ _)).trans_lt fits.limits

theorem sendableMsat_eq (fits : Fits W amount) :
    sendableMsat W =
      (W.usable.map (Channel.deliverableMsat W.policy)).sum - W.feeMarginSats * 1000 := by
  rw [sendableMsat, sum64_of_lt, mul64_of_lt fits.margin]
  exact (sum_deliverableMsat_le _ _).trans_lt fits.limits

/-- The parts use pairwise distinct channels, each carries its part with the fee, and
together they are the amount in whole sats. -/
def Splits (W : Wallet) (amountMsat : Nat) (parts : List MppPart) : Prop :=
  (parts.map MppPart.partMsat).sum = 1000 * divCeil amountMsat 1000 ∧
    ∃ chosen : List Channel, chosen.Subperm W.usable ∧
      List.Forall₂ (fun part c => c.scid = some part.scid ∧ Carries W.policy c part.partMsat)
        parts chosen

/-- What the plan answers. -/
theorem mppPlan_cases (fits : Fits W amount) :
    (planned W = [] ∧ mppPlan W amount = .error .noUsableChannel) ∨
      (planned W ≠ [] ∧ plannedSats W < divCeil amount 1000 ∧
        ∃ total usable n, mppPlan W amount = .error (.exceedsTotal total usable n)) ∨
      (planned W ≠ [] ∧ divCeil amount 1000 ≤ plannedSats W ∧
        ∃ parts, mppPlan W amount = .ok parts ∧ Splits W amount parts) := by
  have rounded : add64 amount 999 / 1000 = divCeil amount 1000 := by
    rw [add64_of_lt fits.amount]
    rfl
  have sums : ((planned W).map (row W.policy)).map Prod.snd =
      (planned W).map (Channel.deliverableSats W.policy) := by
    rw [map_map]
    rfl
  have total : sum64 ((planned W).map (Channel.deliverableSats W.policy)) = plannedSats W := by
    rw [sum64_of_lt, sum_planned]
    rw [sum_planned]
    exact ((plannedSats_le W).trans ((sum_deliverableSats_le _ _).trans
      (sum_deliverableMsat_le _ _))).trans_lt fits.limits
  rw [mppPlan, rows_eq]
  dsimp only
  rw [sums, total, rounded]
  by_cases empty : planned W = []
  · exact .inl ⟨empty, by simp [empty]⟩
  have some : ((planned W).map (row W.policy)).isEmpty = false := by simp [empty]
  rw [some]
  by_cases tooMuch : divCeil amount 1000 > plannedSats W
  · exact .inr (.inl ⟨empty, tooMuch, _, _, _, by rw [if_neg (by decide), if_pos tooMuch]⟩)
  · have small : ∀ c ∈ planned W, c.limit < 2 ^ 64 :=
      fun c member => fits.limit ((planned_subperm W).subset member)
    obtain ⟨left, worth, chosen, isSublist, each⟩ :=
      split_spec W.policy (planned W) (divCeil amount 1000) small
    rw [sum_planned] at left
    have none_left : (split (divCeil amount 1000) ((planned W).map (row W.policy))).2 = 0 := by
      rw [left]
      omega
    have splits : Splits W amount
        (split (divCeil amount 1000) ((planned W).map (row W.policy))).1 := by
      refine ⟨by rw [worth, none_left, Nat.sub_zero], chosen,
        isSublist.subperm.trans (planned_subperm W), ?_⟩
      obtain ⟨lengths, at_each⟩ := forall₂_iff_get.mp each
      refine forall₂_iff_get.mpr ⟨lengths, fun i inParts inChosen => ?_⟩
      obtain ⟨scid, carries⟩ := at_each i inParts inChosen
      refine ⟨?_, carries⟩
      rw [scid]
      exact scid_of_planned (isSublist.subset (get_mem _ _))
    refine .inr (.inr ⟨empty, by omega, _, ?_, splits⟩)
    rw [if_neg (by decide), if_neg tooMuch, if_neg (by omega)]

/-- The decision is one that can be carried out. -/
def Planned (W : Wallet) (amountMsat : Nat) : Except String MppDecision → Prop
  | .ok .single => ∃ c ∈ W.usable, Carries W.policy c amountMsat
  | .ok (.multi parts) => Splits W amountMsat parts
  | _ => False

/-- What the field promises of a decision: an amount it allows can be carried out, and the
number a refusal carries is the field's. -/
structure KeepsWord (W : Wallet) (amountMsat : Nat) (decision : Except String MppDecision) :
    Prop where
  sendable : amountMsat ≤ 1000 * W.maxSendableSats → Planned W amountMsat decision
  exceeds : ∀ n, decision = .ok (.exceedsTotal n) → n = 1000 * W.maxSendableSats

/-- Where the three functions agree: an amount the field allows that is within the largest
raw limit is within what some channel delivers, or its fee outgrows 64 bits and the quote is
what is left of it; an allowed amount above that limit is within what the channels with a short
id deliver; and when an amount is not, every channel delivers whole sats or the margin takes all
they deliver. -/
structure Agree (W : Wallet) (amountMsat : Nat) : Prop where
  single : amountMsat ≤ largest W → amountMsat ≤ 1000 * W.maxSendableSats →
    ∃ c ∈ W.usable,
      W.policy.baseMsat ≤ c.limit ∧ amountMsat ≤ c.deliverableMsat W.policy ∨
        2 ^ 64 ≤ wholeFee W.policy amountMsat ∧ Carries W.policy c amountMsat
  named : largest W < amountMsat → amountMsat ≤ 1000 * W.maxSendableSats →
    divCeil amountMsat 1000 ≤ plannedSats W
  whole : largest W < amountMsat → plannedSats W < divCeil amountMsat 1000 → planned W ≠ [] →
    (∀ c ∈ W.usable, 1000 ∣ c.deliverableMsat W.policy) ∨
      (W.usable.map (Channel.deliverableMsat W.policy)).sum ≤ 1000 * W.feeMarginSats

/-- The number of a refusal is the field's when no millisatoshi is lost to rounding, or when
the margin takes everything. -/
theorem sendableMsat_eq_iff (fits : Fits W amount) :
    sendableMsat W = 1000 * W.maxSendableSats ↔
      ((∀ c ∈ W.usable, 1000 ∣ c.deliverableMsat W.policy) ∨
        (W.usable.map (Channel.deliverableMsat W.policy)).sum ≤ 1000 * W.feeMarginSats) := by
  have odd : (∀ c ∈ W.usable, 1000 ∣ c.deliverableMsat W.policy) ↔
      (W.usable.map fun c => c.deliverableMsat W.policy % 1000).sum = 0 := by
    rw [sum_eq_zero_iff]
    simp [Nat.dvd_iff_mod_eq_zero]
  rw [sendableMsat_eq fits, maxSendableSats_eq fits, odd, sum_deliverableMsat]
  omega

/-- The decision keeps the field's word exactly where the three functions agree. -/
theorem keepsWord_iff_agree {invoice : Invoice} {userAmountSat : Option Nat}
    (isAmount : invoice.amountMsat.or (userAmountSat.map fun s => saturatingMul64 s 1000) =
      some amount)
    (supports : invoice.supportsBasicMpp = true) (fits : Fits W amount) :
    KeepsWord W amount (mppDecision W invoice userAmountSat) ↔ Agree W amount := by
  rw [mppDecision, isAmount]
  dsimp only
  rw [decideAmount, supports]
  by_cases one : amount ≤ largest W
  · rw [if_pos one]
    constructor
    · rintro ⟨sendable, _⟩
      refine ⟨fun _ allowed => ?_, fun more => absurd one (by omega),
        fun more => absurd one (by omega)⟩
      obtain ⟨c, member, carries⟩ := sendable allowed
      exact ⟨c, member, carries_iff.mp carries⟩
    · rintro ⟨single, _, _⟩
      refine ⟨fun allowed => ?_, fun n refused => by cases refused⟩
      obtain ⟨c, member, delivers⟩ := single one allowed
      exact ⟨c, member, carries_iff.mpr delivers⟩
  rw [if_neg one, if_neg (by decide)]
  have more : largest W < amount := by omega
  obtain ⟨empty, failed⟩ | ⟨some, tooMuch, total, usable, n, failed⟩ |
      ⟨some, enough, parts, planned, splits⟩ := mppPlan_cases fits
  · -- nothing to plan with: the field must not have allowed the amount
    rw [failed]
    have zero : plannedSats W = 0 := by rw [← sum_planned, empty]; rfl
    have positive : 0 < divCeil amount 1000 := Nat.div_pos (by omega) (by decide)
    constructor
    · rintro ⟨sendable, _⟩
      exact ⟨fun less => absurd less one, fun _ allowed => (sendable allowed).elim,
        fun _ _ some => absurd empty some⟩
    · rintro ⟨_, named, _⟩
      exact ⟨fun allowed => absurd (named more allowed) (by omega),
        fun n refused => by cases refused⟩
  · rw [failed]
    constructor
    · rintro ⟨sendable, exceeds⟩
      exact ⟨fun less => absurd less one, fun _ allowed => (sendable allowed).elim,
        fun _ _ _ => (sendableMsat_eq_iff fits).mp (exceeds _ rfl)⟩
    · rintro ⟨_, named, whole⟩
      refine ⟨fun allowed => absurd (named more allowed) (by omega), fun n refused => ?_⟩
      cases refused
      exact (sendableMsat_eq_iff fits).mpr (whole more tooMuch some)
  · rw [planned]
    exact ⟨fun _ => ⟨fun less => absurd less one, fun _ _ => enough,
      fun _ tooMuch => absurd enough (by omega)⟩, fun _ => ⟨fun _ => splits,
        fun n refused => by cases refused⟩⟩

/-! ## Two equal channels -/

section Sample

/-- Two channels of a thousand sats under the policy that holds before one was seen. -/
def twoChannels : Wallet where
  channels := [⟨"02", true, 1000000, 1000000, some 7, none⟩,
    ⟨"02", true, 1000000, 1000000, none, some 8⟩]
  lsp := "02"
  policy := .unseen
  feeMarginSats := 10

/-- Fifteen hundred sats go in two parts. -/
theorem keepsWord_twoChannels :
    KeepsWord twoChannels 1500000 (mppDecision twoChannels ⟨some 1500000, true⟩ none) ∧
      mppDecision twoChannels ⟨some 1500000, true⟩ none =
        .ok (.multi [⟨7, 998000⟩, ⟨8, 502000⟩]) := by
  refine ⟨(keepsWord_iff_agree rfl rfl ⟨by decide, by decide, by decide⟩).mpr
    ⟨?_, fun _ _ => by decide, ?_⟩, by rfl⟩
  · intro within
    exact absurd within (by decide)
  · intro _ tooMuch
    exact absurd tooMuch (by decide)

/-- A thousand sats are allowed and sent on one channel that cannot hold them with the fee,
and the refusal of three thousand names two millisatoshis more than the field. -/
theorem word_broken_twoChannels :
    (1000000 ≤ 1000 * twoChannels.maxSendableSats ∧
        mppDecision twoChannels ⟨some 1000000, true⟩ none = .ok .single ∧
        ∀ c ∈ twoChannels.usable, ¬Carries twoChannels.policy c 1000000) ∧
      (mppDecision twoChannels ⟨some 3000000, true⟩ none = .ok (.exceedsTotal 1986002) ∧
        1000 * twoChannels.maxSendableSats = 1986000) ∧
      ¬KeepsWord twoChannels 1000000 (mppDecision twoChannels ⟨some 1000000, true⟩ none) ∧
      ¬KeepsWord twoChannels 3000000 (mppDecision twoChannels ⟨some 3000000, true⟩ none) := by
  have uncarried : ∀ c ∈ twoChannels.usable, ¬Carries twoChannels.policy c 1000000 := by
    intro c member
    have limit : c.limit = 1000000 := by
      have all : ∀ c ∈ twoChannels.usable, c.limit = 1000000 := by decide
      exact all c member
    rw [Carries, limit]
    decide
  refine ⟨⟨by decide, by rfl, uncarried⟩, ⟨by rfl, by decide⟩, ?_, ?_⟩
  · rintro ⟨sendable, _⟩
    obtain ⟨c, member, carries⟩ := sendable (by decide)
    exact uncarried c member carries
  · rintro ⟨_, exceeds⟩
    exact absurd (exceeds 1986002 (by rfl)) (by decide)

end Sample

end Lij.Node.Mpp
