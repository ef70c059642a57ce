import Lij.Tatara.Amounts
import Lij.Tatara.Phone

/-!
# The quote shown before joining

Before a person joins, the wallet shows what the pool costs and whether the
coins cover it at the fee limit: one and a half times the rate shown. The quote
halves in whole sats per vbyte and rounds down, while the limit the phone then
holds the pool to is kept in thousandths. For an odd rate the quote's limit is
half a sat per vbyte too low, and the coins it says are enough need not be.

The coin of a channel's cooperative close is quoted with the band of balances
that make no change. Its ends are in closed form: the need at the limit, and one
sat less than the least balance that makes change. The top is an unchecked sum,
so the band is exact as long as that sum is a word.
-/

namespace Lij.Tatara

open Bitcoin Checked Word Phone List

/-- What the person is shown. -/
structure Quote where
  size : Nat
  coinSats : Nat
  feeSats : Nat
  changeSats : Option Nat
  covers : Bool
  needAtLimitSats : Nat
  peers : Nat
  feeRateSatVb : Nat
  toMinersSats : Nat
  noChangeBand : Option (Nat × Nat)
  deriving DecidableEq, Repr

/-- A P2WPKH script's shape: its size is what the fee counts. -/
def p2wpkhShape : Script := [0x00, 0x14] ++ replicate 20 0

/-- The change at today's rate, of coins that cover today's need. -/
def changeNow (size total peers rate needNow : Nat) (spks : List Script) :
    Except String (Option Nat) :=
  if total ≥ needNow then
    myChange total size peers (mul64 rate 1000) spks p2wpkhShape changeDust
  else .ok none

/-- The quote for coins worth `total`, with no band. -/
def quoteFor (size total : Nat) (spks : List Script) (feeRateSatVb peers : Nat) :
    Except String Quote := do
  let rate := max feeRateSatVb 1
  let limit := max (saturatingMul64 rate 3 / 2) rate
  let bareLimit ← memberNeed size peers (mul64 limit 1000) spks none
  let needNow ← memberNeed size peers (mul64 rate 1000) spks none
  let change ← changeNow size total peers rate needNow spks
  let feeSats := match change with
    | some c => total - c - size
    | none => needNow - size
  let toMinersSats := if change = none ∧ total ≥ needNow then total - needNow else 0
  return { size, coinSats := total, feeSats, changeSats := change,
           covers := total ≥ bareLimit, needAtLimitSats := bareLimit, peers,
           feeRateSatVb := rate, toMinersSats, noChangeBand := none }

/-- The quote for the coin a channel's cooperative close will pay to the wallet's own P2WPKH
address, with the band of balances that cover the pool at the fee limit and leave no change at
today's rate. -/
def quoteClose (size coinSats feeRateSatVb peers : Nat) : Except String Quote := do
  let q ← quoteFor size coinSats [p2wpkhShape] feeRateSatVb peers
  let rate := q.feeRateSatVb
  let bare ← memberNeed size peers (mul64 rate 1000) [p2wpkhShape] none
  let whole ← memberNeed size peers (mul64 rate 1000) [p2wpkhShape] (some p2wpkhShape)
  -- change exists from `whole + max dust (outCost + 1)` on; below that, none
  let top := sub64 (add64 whole (max changeDust (add64 (sub64 whole bare) 1))) 1
  let low := q.needAtLimitSats
  return { q with noChangeBand := if low ≤ top then some (low, top) else none }

variable {size total peers shown poolRate : Nat} {spks : List Script} {q : Quote}

/-- What a quote says of the need at its limit. -/
theorem quoteFor_covers (quoted : quoteFor size total spks shown peers = .ok q) :
    ∃ bareLimit, memberNeed size peers
        (mul64 (max (saturatingMul64 (max shown 1) 3 / 2) (max shown 1)) 1000) spks none =
          .ok bareLimit ∧
      (q.covers = true ↔ bareLimit ≤ total) := by
  simp only [quoteFor, bind_eq_ok, pure_eq_ok] at quoted
  obtain ⟨bareLimit, atLimit, _, _, _, _, rfl⟩ := quoted
  exact ⟨bareLimit, atLimit, decide_eq_true_iff⟩

/-- A quote is given when the need at the limit is within all bitcoin. -/
theorem quoteFor_isOk {bareLimit : Nat}
    (rates : mul64 (max shown 1) 1000 ≤
      mul64 (max (saturatingMul64 (max shown 1) 3 / 2) (max shown 1)) 1000)
    (atLimit : memberNeed size peers
      (mul64 (max (saturatingMul64 (max shown 1) 3 / 2) (max shown 1)) 1000) spks none =
        .ok bareLimit)
    (met : bareLimit ≤ maxMoney) : ∃ q, quoteFor size total spks shown peers = .ok q := by
  obtain ⟨needNow, now, less⟩ := memberNeed_mono rates atLimit
  obtain ⟨whole, withChange⟩ :=
    memberNeed_with_change now (less.trans met) (show p2wpkhShape.length ≤ 22 by decide)
  have changed : ∃ change, changeNow size total peers (max shown 1) needNow spks = .ok change := by
    unfold changeNow
    split
    · rename_i covers
      exact ⟨_, myChange_eq_ok.mpr ⟨needNow, whole, now, covers, withChange, rfl⟩⟩
    · exact ⟨none, rfl⟩
  obtain ⟨change, isChange⟩ := changed
  exact ⟨_, bind_eq_ok.mpr ⟨bareLimit, atLimit, bind_eq_ok.mpr ⟨needNow, now,
    bind_eq_ok.mpr ⟨change, isChange, rfl⟩⟩⟩⟩

/-- The limit of the quote, for the rates people are shown. -/
theorem limit_eq (sane : shown < 2 ^ 32) :
    mul64 (max (saturatingMul64 (max shown 1) 3 / 2) (max shown 1)) 1000 =
      max shown 1 * 3 / 2 * 1000 := by
  have product : saturatingMul64 (max shown 1) 3 = max shown 1 * 3 := by
    rw [saturatingMul64, u64Max]
    omega
  have largest : max (max shown 1 * 3 / 2) (max shown 1) = max shown 1 * 3 / 2 := by omega
  rw [product, largest]
  exact mul64_of_lt (by omega)

/-- With many coins every thousandth of the rate is a sat of the fee. -/
theorem fee_strict {weight rate rate' f f' : Nat} (heavy : 4000 ≤ weight) (more : rate < rate')
    (ok : fee weight rate = .ok f) (ok' : fee weight rate' = .ok f') : f < f' := by
  have upper := rate_le_fee ok'
  obtain ⟨_, rfl⟩ := fee_eq_ok.mp ok
  have lower := mul_divCeil_lt (weight * rate) (show 0 < 4000 by decide)
  have step : weight * rate + weight ≤ weight * rate' := by
    rw [← Nat.mul_succ]
    exact Nat.mul_le_mul_left weight more
  omega

theorem mapM_inputWeight_shape (k : Nat) :
    (replicate k p2wpkhShape).mapM inputWeight = .ok (replicate k 272) := by
  rw [mapM_eq_ok, forall₂_iff_get]
  refine ⟨by simp, fun i hi hj => ?_⟩
  rw [get_eq_getElem, get_eq_getElem, getElem_replicate, getElem_replicate]
  rfl

/-- What fifteen P2WPKH coins need in an empty pool of three, at a rate people are shown. -/
theorem memberNeed_shapes {rate : Nat} (sane : rate < 2 ^ 43) :
    ∃ need share own, memberNeed 0 3 rate (replicate 15 p2wpkhShape) none = .ok need ∧
      exitShare 3 rate = .ok share ∧ fee 4152 rate = .ok own ∧ need = share + own ∧
      need ≤ maxMoney := by
  have exitFee := mul_divCeil_lt (616 * rate) (show 0 < 4000 by decide)
  have shareBound := mul_divCeil_lt (2 * divCeil (616 * rate) 4000) (show 0 < 3 by decide)
  have ownBound := mul_divCeil_lt (4152 * rate) (show 0 < 4000 by decide)
  have shared : exitShare 3 rate = .ok (divCeil (2 * divCeil (616 * rate) 4000) 3) := by
    refine exitShare_eq_ok.mpr ⟨by decide, _, fee_eq_ok.mpr ⟨?_, rfl⟩, ?_, rfl⟩
    · rw [exitWeight]
      omega
    · rw [exitWeight]
      omega
  have paid : fee 4152 rate = .ok (divCeil (4152 * rate) 4000) :=
    fee_eq_ok.mpr ⟨by omega, rfl⟩
  refine ⟨_, _, _, memberNeed_eq_ok.mpr ⟨by decide, _, _, _, mapM_inputWeight_shape 15, shared,
    paid, ?_, rfl⟩, shared, paid, by rw [Nat.zero_add], ?_⟩
  · omega
  · rw [maxMoney]
    omega

/-- The coins a quote calls enough are enough at every rate the fee limit accepts exactly when
the rate shown is even or the pool's rate is not in the half sat per vbyte the quote's limit
rounds away. -/
theorem quote_covers_iff {cap : Nat} (sane : shown < 2 ^ 32)
    (accepted : withinFeeLimitMilli poolRate shown cap = true) :
    (∀ (size total peers : Nat) (spks : List Script) (changeSpk : Script) (dust : Nat) (q : Quote),
      total ≤ maxMoney → changeSpk.isP2wpkh = true →
      quoteFor size total spks shown peers = .ok q → q.covers = true →
      ∃ change, myChange total size peers poolRate spks changeSpk dust = .ok change) ↔
    (shown % 2 = 0 ∨ poolRate + 500 ≤ 1500 * shown) := by
  have within : poolRate ≤ shown * 1500 := by
    rw [withinFeeLimitMilli, Bool.and_eq_true, decide_eq_true_iff, saturatingMul64] at accepted
    omega
  have below : (shown % 2 = 0 ∨ poolRate + 500 ≤ 1500 * shown) ↔
      poolRate ≤ max shown 1 * 3 / 2 * 1000 := by omega
  rw [below]
  constructor
  · intro enough
    by_contra above
    obtain ⟨bareLimit, share, own, atLimit, shared, paid, sum, met⟩ :=
      memberNeed_shapes (show max shown 1 * 3 / 2 * 1000 < 2 ^ 43 by omega)
    rw [← limit_eq sane] at atLimit
    have rates : mul64 (max shown 1) 1000 ≤
        mul64 (max (saturatingMul64 (max shown 1) 3 / 2) (max shown 1)) 1000 := by
      rw [limit_eq sane, mul64_of_lt (by omega)]
      omega
    -- a coin worth exactly the need at the quote's limit
    obtain ⟨q, quoted⟩ : ∃ q, quoteFor 0 bareLimit _ shown 3 = .ok q :=
      quoteFor_isOk rates atLimit met
    obtain ⟨_, atLimit', covers⟩ := quoteFor_covers quoted
    cases Except.ok.inj (atLimit.symm.trans atLimit')
    obtain ⟨change, ok⟩ := enough 0 bareLimit 3 _ p2wpkhShape 0 q met (by decide) quoted
      (covers.mpr (Nat.le_refl _))
    obtain ⟨bare, _, atPool, fits, _⟩ := myChange_eq_ok.mp ok
    obtain ⟨bare', share', own', atPool', shared', paid', sum', _⟩ :=
      memberNeed_shapes (show poolRate < 2 ^ 43 by omega)
    cases Except.ok.inj (atPool.symm.trans atPool')
    obtain ⟨_, lower, lessShare⟩ := exitShare_mono (Nat.le_of_lt (Nat.lt_of_not_le above)) shared'
    cases Except.ok.inj (shared.symm.trans lower)
    have lessFee := fee_strict (by decide) (Nat.lt_of_not_le above) paid paid'
    omega
  · intro inLimit size total peers spks changeSpk dust q money isChange quoted covers
    obtain ⟨bareLimit, atLimit, means⟩ := quoteFor_covers quoted
    rw [limit_eq sane] at atLimit
    obtain ⟨bare, atPool, less⟩ := memberNeed_mono inLimit atLimit
    have enough : bare ≤ total := less.trans (means.mp covers)
    have short : changeSpk.length ≤ 22 := by
      rw [Script.isP2wpkh, Bool.and_eq_true, beq_iff_eq] at isChange
      omega
    obtain ⟨whole, withChange⟩ := memberNeed_with_change atPool (enough.trans money) short
    exact ⟨_, myChange_eq_ok.mpr ⟨bare, whole, atPool, enough, withChange, rfl⟩⟩

/-- At an even rate nothing is rounded away. -/
theorem quote_covers_even :
    ∃ change, myChange 200000 100000 3 3000 [p2wpkhShape] p2wpkhShape changeDust = .ok change := by
  have accepted : withinFeeLimitMilli 3000 2 100 = true := by decide
  have quoted : quoteFor 100000 200000 [p2wpkhShape] 2 3 =
      .ok ⟨100000, 200000, 440, some 99560, true, 100566, 3, 2, 0, none⟩ := by decide +kernel
  exact (quote_covers_iff (by decide) accepted).mpr (.inl rfl) 100000 200000 3 [p2wpkhShape]
    p2wpkhShape changeDust _ (by decide) (by decide) quoted rfl

/-- At one sat per vbyte a coin is quoted as enough, and at a rate within the fee limit it is
not. -/
theorem quote_covers_odd :
    ((quoteFor 100000 100189 [p2wpkhShape] 1 3).toOption.map Quote.covers) = some true ∧
    withinFeeLimitMilli 1500 1 100 = true ∧
    myChange 100189 100000 3 1500 [p2wpkhShape] p2wpkhShape changeDust =
      .error "the coin covers 100189 sats; the pool needs 100283" := by
  decide +kernel

/-! ## The band without change -/

/-- A change output adds to what a member needs. -/
theorem memberNeed_le_with_change {n rate bare whole : Nat} {changeSpk : Script}
    (ok : memberNeed size n rate spks none = .ok bare)
    (withChange : memberNeed size n rate spks (some changeSpk) = .ok whole) : bare ≤ whole := by
  obtain ⟨_, weights, share, own, weighed, shared, paid, _, rfl⟩ := memberNeed_eq_ok.mp ok
  obtain ⟨_, weights', share', own', weighed', shared', paid', _, rfl⟩ :=
    memberNeed_eq_ok.mp withChange
  cases Except.ok.inj (weighed.symm.trans weighed')
  cases Except.ok.inj (shared.symm.trans shared')
  obtain ⟨_, rfl⟩ := fee_eq_ok.mp paid
  obtain ⟨_, rfl⟩ := fee_eq_ok.mp paid'
  have heavier : memberWeight n weights none ≤ memberWeight n weights (some changeSpk) := by
    simp only [memberWeight, Option.map_some, Option.map_none, Option.getD_some, Option.getD_none]
    omega
  have more := divCeil_mono (b := 4000) (Nat.mul_le_mul_right rate heavier)
  omega

/-- Where nothing is needed without change, the rate is zero and nothing is needed with it. -/
theorem memberNeed_with_change_eq_zero {n rate whole : Nat} {changeSpk : Script}
    (ok : memberNeed size n rate spks none = .ok 0)
    (withChange : memberNeed size n rate spks (some changeSpk) = .ok whole) : whole = 0 := by
  obtain ⟨some, weights, share, own, weighed, shared, paid, _, total⟩ := memberNeed_eq_ok.mp ok
  obtain ⟨_, weights', share', own', weighed', shared', paid', _, rfl⟩ :=
    memberNeed_eq_ok.mp withChange
  cases Except.ok.inj (weighed.symm.trans weighed')
  cases Except.ok.inj (shared.symm.trans shared')
  have weight : 0 < memberWeight n weights none := by
    have least := input_le_memberWeight some weighed
    unfold memberWeight
    omega
  have free : rate = 0 := by
    have covered := rate_le_fee paid
    have zero : memberWeight n weights none * rate = 0 := by omega
    exact (Nat.mul_eq_zero.mp zero).resolve_left (by omega)
  obtain ⟨_, rfl⟩ := fee_eq_ok.mp paid'
  have none : divCeil (memberWeight n weights (Option.some changeSpk) * rate) 4000 = 0 := by
    rw [free, Nat.mul_zero]
    rfl
  omega

/-- What a close coin needs: at the quote's limit, and at today's rate without and with a
change output. -/
structure CloseNeeds (size shown peers bareLimit bare whole : Nat) : Prop where
  atLimit : memberNeed size peers
    (mul64 (max (saturatingMul64 (max shown 1) 3 / 2) (max shown 1)) 1000) [p2wpkhShape] none =
      .ok bareLimit
  now : memberNeed size peers (mul64 (max shown 1) 1000) [p2wpkhShape] none = .ok bare
  withChange : memberNeed size peers (mul64 (max shown 1) 1000) [p2wpkhShape]
    (some p2wpkhShape) = .ok whole

/-- The change of a coin worth `total` that needs `bare`, and `whole` with a change output. -/
def changeOf (bare whole total : Nat) : Option Nat :=
  if bare ≤ total then
    (checkedSub total whole).filter fun c => c ≥ changeDust ∧ c > whole - bare
  else none

/-- The least coin that makes change. -/
def changeFrom (bare whole : Nat) : Nat := whole + max changeDust (whole - bare + 1)

variable {bareLimit bare whole : Nat}

theorem changeOf_eq_some {c : Nat} (more : bare ≤ whole) : changeOf bare whole total = some c ↔
    changeFrom bare whole ≤ total ∧ c = total - whole := by
  unfold changeOf changeFrom
  split
  · rw [Option.filter_eq_some_iff, checkedSub_eq_some, decide_eq_true_iff]
    constructor
    · rintro ⟨⟨fits, rfl⟩, worth, pays⟩
      exact ⟨by omega, rfl⟩
    · rintro ⟨least, rfl⟩
      exact ⟨⟨by omega, rfl⟩, by omega, by omega⟩
  · constructor
    · intro absurdity
      cases absurdity
    · rintro ⟨least, _⟩
      omega

theorem changeOf_eq_none (more : bare ≤ whole) : changeOf bare whole total = none ↔
    total < changeFrom bare whole := by
  rw [Option.eq_none_iff_forall_ne_some]
  constructor
  · intro noChange
    by_contra least
    exact noChange _ ((changeOf_eq_some more).mpr ⟨Nat.le_of_not_lt least, rfl⟩)
  · intro less c change
    have least := ((changeOf_eq_some more).mp change).1
    omega

/-- The quote of a close coin, by its needs. -/
def closeQuote (size shown peers bareLimit bare whole total : Nat) : Quote :=
  let change := changeOf bare whole total
  let top := sub64 (add64 whole (max changeDust (add64 (sub64 whole bare) 1))) 1
  { size, coinSats := total
    feeSats := match change with
      | some c => total - c - size
      | none => bare - size
    changeSats := change
    covers := total ≥ bareLimit
    needAtLimitSats := bareLimit, peers
    feeRateSatVb := max shown 1
    toMinersSats := if change = none ∧ total ≥ bare then total - bare else 0
    noChangeBand := if bareLimit ≤ top then some (bareLimit, top) else none }

theorem CloseNeeds.change (needs : CloseNeeds size shown peers bareLimit bare whole) (total : Nat) :
    changeNow size total peers (max shown 1) bare [p2wpkhShape] =
      .ok (changeOf bare whole total) := by
  unfold changeNow changeOf
  split
  · rename_i covers
    exact myChange_eq_ok.mpr ⟨bare, whole, needs.now, covers, needs.withChange, rfl⟩
  · rfl

theorem CloseNeeds.quoteClose (needs : CloseNeeds size shown peers bareLimit bare whole)
    (total : Nat) : Tatara.quoteClose size total shown peers =
      .ok (closeQuote size shown peers bareLimit bare whole total) := by
  simp only [Tatara.quoteClose, quoteFor, bind_eq_ok, pure_eq_ok]
  exact ⟨_, ⟨bareLimit, needs.atLimit, bare, needs.now, _, needs.change total, rfl⟩, bare,
    needs.now, whole, needs.withChange, rfl⟩

/-- A close is quoted when its needs are words, whatever the coin is worth. -/
theorem closeNeeds_of_quoteClose (quoted : quoteClose size total shown peers = .ok q) :
    ∃ bareLimit bare whole, CloseNeeds size shown peers bareLimit bare whole := by
  simp only [quoteClose, quoteFor, bind_eq_ok, pure_eq_ok] at quoted
  obtain ⟨_, ⟨bareLimit, atLimit, _, _, _, _, rfl⟩, bare, now, whole, withChange, _⟩ := quoted
  exact ⟨bareLimit, bare, whole, atLimit, now, withChange⟩

theorem memberNeed_lt {n rate need : Nat} {changeSpk : Option Script}
    (ok : memberNeed size n rate spks changeSpk = .ok need) : size ≤ need ∧ need < 2 ^ 64 := by
  obtain ⟨_, _, _, _, _, _, _, small, rfl⟩ := memberNeed_eq_ok.mp ok
  omega

/-- A coin is in a band; no band holds no coin. -/
def InBand (band : Option (Nat × Nat)) (b : Nat) : Prop := ∃ ends ∈ band, ends.1 ≤ b ∧ b ≤ ends.2

/-- The band of `q` is exact: it has the coins whose quote covers the pool at the limit and
makes no change. What a coin that meets the need is worth is the pool size, the fee, the change
and what goes to the miners, and change is never dust. -/
def BandExact (size shown peers : Nat) (q : Quote) : Prop :=
  ∀ b < 2 ^ 64, ∃ qb, quoteClose size b shown peers = .ok qb ∧
    (InBand q.noChangeBand b ↔ qb.covers = true ∧ qb.changeSats = none) ∧
    ∀ need, memberNeed size peers (mul64 (max shown 1) 1000) [p2wpkhShape] none = .ok need →
      need ≤ b →
        b = size + qb.feeSats + qb.changeSats.getD 0 + qb.toMinersSats ∧
        ∀ c ∈ qb.changeSats, changeDust ≤ c

/-- No coin is too large to be a word and too small to make change. -/
def TopFits (size shown peers : Nat) : Prop :=
  ∀ bare whole,
    memberNeed size peers (mul64 (max shown 1) 1000) [p2wpkhShape] none = .ok bare →
    memberNeed size peers (mul64 (max shown 1) 1000) [p2wpkhShape] (some p2wpkhShape) =
      .ok whole →
    changeFrom bare whole ≤ 2 ^ 64

theorem inBand_closeQuote {b : Nat} :
    InBand (closeQuote size shown peers bareLimit bare whole total).noChangeBand b ↔
      bareLimit ≤ b ∧
        b ≤ sub64 (add64 whole (max changeDust (add64 (sub64 whole bare) 1))) 1 := by
  unfold InBand closeQuote
  dsimp only
  split
  · simp
  · simp
    omega

/-- The amounts of a quote add up. -/
theorem closeQuote_adds_up (more : bare ≤ whole) (least : size ≤ bare) (covers : bare ≤ total)
    {quote : Quote} (isQuote : closeQuote size shown peers bareLimit bare whole total = quote) :
    total = size + quote.feeSats + quote.changeSats.getD 0 + quote.toMinersSats ∧
      ∀ c ∈ quote.changeSats, changeDust ≤ c := by
  subst isQuote
  unfold closeQuote
  dsimp only
  cases change : changeOf bare whole total with
  | none =>
    simp [covers]
    omega
  | some c =>
    obtain ⟨enough, rfl⟩ := (changeOf_eq_some more).mp change
    unfold changeFrom at enough
    simp
    omega

/-- The top of the band, by the least coin that makes change. -/
theorem bandTop_eq (more : bare ≤ whole) (small : whole < 2 ^ 64)
    (cost : whole - bare + 1 < 2 ^ 64) :
    sub64 (add64 whole (max changeDust (add64 (sub64 whole bare) 1))) 1 =
      (changeFrom bare whole - 1) % 2 ^ 64 := by
  unfold changeFrom
  rw [sub64_of_le more small, add64_of_lt cost]
  unfold changeDust sub64 add64
  omega

/-- The no-change band is exact, and the amounts of every quote add up, exactly when the least
coin that makes change is at most one more than the largest word. -/
theorem noChangeBand_exact_iff (quoted : quoteClose size total shown peers = .ok q) :
    BandExact size shown peers q ↔ TopFits size shown peers := by
  obtain ⟨bareLimit, bare, whole, needs⟩ := closeNeeds_of_quoteClose quoted
  cases Except.ok.inj (quoted.symm.trans (needs.quoteClose total))
  have more := memberNeed_le_with_change needs.now needs.withChange
  have bounds := memberNeed_lt needs.withChange
  have least := (memberNeed_lt needs.now).1
  have limit := (memberNeed_lt needs.atLimit).2
  have cost : whole - bare + 1 < 2 ^ 64 := by
    by_contra large
    have zero : bare = 0 := by omega
    subst zero
    have nothing := memberNeed_with_change_eq_zero needs.now needs.withChange
    omega
  have top := bandTop_eq more bounds.2 cost
  constructor
  · intro exactBand bare' whole' now' withChange'
    cases Except.ok.inj (needs.now.symm.trans now')
    cases Except.ok.inj (needs.withChange.symm.trans withChange')
    by_contra over64
    -- the largest word covers the limit and makes no change, but is above the wrapped top
    obtain ⟨qb, quotedB, band, _⟩ := exactBand (2 ^ 64 - 1) (by decide)
    cases Except.ok.inj (quotedB.symm.trans (needs.quoteClose _))
    have inside := (inBand_closeQuote.mp (band.mpr ⟨decide_eq_true (by omega),
      (changeOf_eq_none more).mpr (by omega)⟩)).2
    rw [top] at inside
    unfold changeFrom changeDust at over64 inside
    omega
  · intro fits b small
    have fits := fits bare whole needs.now needs.withChange
    refine ⟨_, needs.quoteClose b, ?_, ?_⟩
    · have none : (closeQuote size shown peers bareLimit bare whole b).changeSats = none ↔
          b < changeFrom bare whole := changeOf_eq_none more
      have covered : (closeQuote size shown peers bareLimit bare whole b).covers = true ↔
          bareLimit ≤ b := decide_eq_true_iff
      have positive : 0 < changeFrom bare whole := by
        unfold changeFrom
        omega
      have whole64 : (changeFrom bare whole - 1) % 2 ^ 64 = changeFrom bare whole - 1 :=
        Nat.mod_eq_of_lt (by omega)
      rw [inBand_closeQuote, top, none, covered, whole64]
      omega
    · intro need needed enough
      cases Except.ok.inj (needs.now.symm.trans needed)
      exact closeQuote_adds_up more least enough rfl

/-- For amounts there can be and the rates people are shown, the band's top is a word. -/
theorem topFits_of_money (money : size ≤ maxMoney) (sane : shown < 2 ^ 32) :
    TopFits size shown peers := by
  intro bare whole now withChange
  have rates : mul64 (max shown 1) 1000 < 2 ^ 42 := by
    rw [mul64_of_lt (by omega)]
    omega
  generalize mul64 (max shown 1) 1000 = rate at *
  obtain ⟨_, weights, share, own, weighed, shared, paid, _, rfl⟩ := memberNeed_eq_ok.mp withChange
  obtain ⟨⟨three, six⟩, f, each, _, rfl⟩ := exitShare_eq_ok.mp shared
  have one : weights = [272] := Except.ok.inj (weighed.symm.trans (by rfl))
  subst one
  have part : divCeil 214 peers ≤ 214 := by
    refine (divCeil_le_iff (by omega)).mpr ?_
    omega
  have weight : memberWeight peers [272] (some p2wpkhShape) ≤ 1000 := by
    have shape : p2wpkhShape.length = 22 := rfl
    simp only [memberWeight, Option.map_some, Option.getD_some, shape, sum_singleton]
    omega
  have exits : (peers - 1) * f ≤ peers * f := Nat.mul_le_mul_right f (Nat.sub_le peers 1)
  have shareLe : divCeil ((peers - 1) * f) peers ≤ f := (divCeil_le_iff (by omega)).mpr exits
  obtain ⟨_, rfl⟩ := fee_eq_ok.mp each
  obtain ⟨_, rfl⟩ := fee_eq_ok.mp paid
  have exitFee := mul_divCeil_lt (exitWeight * rate) (show 0 < 4000 by decide)
  have ownFee := mul_divCeil_lt (memberWeight peers [272] (some p2wpkhShape) * rate)
    (show 0 < 4000 by decide)
  have product := Nat.mul_le_mul_right rate weight
  have exitsWeigh : exitWeight * rate = 616 * rate := rfl
  unfold maxMoney at money
  unfold changeFrom changeDust
  omega

/-- A hundred thousand sats in a pool of six at two sats per vbyte. -/
theorem noChangeBand_exact_six :
    BandExact 100000 2 6
      ⟨100000, 130000, 473, some 29527, true, 100616, 6, 2, 0, some (100616, 100766)⟩ := by
  have quoted : quoteClose 100000 130000 2 6 = .ok
      ⟨100000, 130000, 473, some 29527, true, 100616, 6, 2, 0, some (100616, 100766)⟩ := by
    decide +kernel
  exact (noChangeBand_exact_iff quoted).mpr (topFits_of_money (by decide) (by decide))

/-- A pool size whose band wraps: no band is given, and the largest coin covers and makes no
change. -/
theorem noChangeBand_wraps :
    ((quoteClose (2 ^ 64 - 400) (2 ^ 64 - 1) 1 3).toOption.map fun q =>
      (q.noChangeBand, q.covers, q.changeSats)) = some (none, true, none) := by
  decide +kernel

end Lij.Tatara
