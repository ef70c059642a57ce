import Lij.Tatara.Rederive

/-!
# The pool's amounts

What the fee rules of the re-derivation come to for a pool of three to six. The
default plan pays one member in every exit but the last, which pays two, so each
exit has two outputs and one weight, and the exits share one fee. A member's
need, the pool values and the last exit's fee follow from it over the natural
numbers: the checked operations of the source succeed exactly when nothing
overflows.
-/

namespace Lij.Tatara

open Bitcoin Joinstr Checked Word List

variable {n rate d : Nat}

/-- The weight of an exit: one key-path input and two outputs of 34-byte scripts. -/
def exitWeight : Nat := 616

theorem fee_eq_ok {weight rateMilli f : Nat} :
    fee weight rateMilli = .ok f ↔
      weight * rateMilli < 2 ^ 64 ∧ f = divCeil (weight * rateMilli) 4000 := by
  simp only [fee, bind_eq_ok, context_eq_ok, checkedMul64_eq_some, pure_eq_ok]
  constructor
  · rintro ⟨_, ⟨small, rfl⟩, rfl⟩
    exact ⟨small, rfl⟩
  · rintro ⟨small, rfl⟩
    exact ⟨_, ⟨small, rfl⟩, rfl⟩

/-- A fee covers the rate for its weight. -/
theorem rate_le_fee {weight rateMilli f : Nat} (ok : fee weight rateMilli = .ok f) :
    weight * rateMilli ≤ 4000 * f := by
  rw [(fee_eq_ok.mp ok).2]
  exact le_mul_divCeil _ (by decide)

theorem length_defaultPlan (two : 2 ≤ n) : (defaultPlan n).length = n - 1 := by
  rw [defaultPlan, length_append, length_replicate, length_singleton]
  omega

/-- Each exit of the default plan has two outputs. -/
theorem outputs_defaultPlan (two : 2 ≤ n) {g k : Nat} (member : (g, k) ∈ (defaultPlan n).zipIdx) :
    g + (if k + 1 < (defaultPlan n).length then 1 else 0) = 2 := by
  rw [length_defaultPlan two]
  have found := mk_mem_zipIdx_iff_getElem?.mp member
  rw [defaultPlan, getElem?_append, length_replicate, getElem?_replicate,
    getElem?_singleton] at found
  split_ifs at found <;> cases found
  · rw [if_pos (by omega)]
  · rw [if_neg (by omega)]

/-- The exits all pay the fee of one weight. -/
theorem exitFees_eq_ok (two : 2 ≤ n) {fees : List Nat} :
    exitFees (defaultPlan n) rate = .ok fees ↔
      ∃ f, fee exitWeight rate = .ok f ∧ fees = replicate (n - 1) f := by
  have same : ∀ entry ∈ (defaultPlan n).zipIdx, ∀ f,
      fee (42 + 230 + 172 * (entry.1 + if entry.2 + 1 < (defaultPlan n).length then 1 else 0))
        rate = .ok f ↔ fee exitWeight rate = .ok f := by
    intro entry member f
    rw [outputs_defaultPlan two (g := entry.1) (k := entry.2) member]
    rfl
  have lengths : (defaultPlan n).zipIdx.length = n - 1 := by
    rw [length_zipIdx, length_defaultPlan two]
  rw [exitFees, mapM_eq_ok]
  constructor
  · intro each
    have members : ∀ f ∈ fees, fee exitWeight rate = .ok f := by
      intro f inFees
      obtain ⟨entry, member, ok⟩ := exists_of_mem_right each inFees
      exact (same entry member f).mp ok
    have count : fees.length = n - 1 := each.length_eq.symm.trans lengths
    cases fees with
    | nil => simp at count; omega
    | cons f rest =>
      refine ⟨f, members f mem_cons_self, ?_⟩
      rw [← count]
      refine eq_replicate_iff.mpr ⟨rfl, fun g inFees => ?_⟩
      exact Except.ok.inj ((members g inFees).symm.trans (members f mem_cons_self))
  · rintro ⟨f, ok, rfl⟩
    rw [forall₂_iff_get]
    refine ⟨by rw [lengths, length_replicate], fun i hi hj => ?_⟩
    rw [get_eq_getElem, get_eq_getElem, getElem_replicate]
    exact (same _ (getElem_mem hi) f).mpr ok

theorem checkedSum_eq_ok {values : List Nat} {total : Nat} :
    checkedSum values = .ok total ↔ values.sum < 2 ^ 64 ∧ total = values.sum := by
  have general : ∀ (values : List Nat) (start total : Nat), start < 2 ^ 64 →
      (values.foldlM (fun total v => context (checkedAdd64 total v) "overflow") start = .ok total ↔
        start + values.sum < 2 ^ 64 ∧ total = start + values.sum) := by
    intro values
    induction values with
    | nil =>
      intro start total small
      rw [foldlM_nil, pure_eq_ok, sum_nil, Nat.add_zero]
      exact ⟨fun same => ⟨small, same.symm⟩, fun holds => holds.2.symm⟩
    | cons v values ih =>
      intro start total small
      simp only [foldlM_cons, bind_eq_ok, context_eq_ok, checkedAdd64_eq_some, sum_cons,
        ← Nat.add_assoc]
      constructor
      · rintro ⟨_, ⟨fits, rfl⟩, rest⟩
        exact (ih _ _ fits).mp rest
      · rintro ⟨fits, rfl⟩
        have first : start + v < 2 ^ 64 := by omega
        exact ⟨_, ⟨first, rfl⟩, (ih _ _ first).mpr ⟨fits, rfl⟩⟩
  have atZero := general values 0 total (by decide)
  rwa [Nat.zero_add] at atZero

/-- The equal share of the exits' fees. -/
theorem exitShare_eq_ok {share : Nat} :
    exitShare n rate = .ok share ↔ (3 ≤ n ∧ n ≤ 6) ∧ ∃ f, fee exitWeight rate = .ok f ∧
      (n - 1) * f < 2 ^ 64 ∧ share = divCeil ((n - 1) * f) n := by
  simp only [exitShare, bind_eq_ok, ensure_eq_ok, exists_const, checkedSum_eq_ok, pure_eq_ok]
  refine and_congr_right fun bounds => ?_
  simp only [exitFees_eq_ok (show 2 ≤ n by omega)]
  constructor
  · rintro ⟨_, ⟨f, one, rfl⟩, _, ⟨small, rfl⟩, rfl⟩
    rw [sum_replicate, smul_eq_mul] at *
    exact ⟨f, one, small, rfl⟩
  · rintro ⟨f, one, small, rfl⟩
    refine ⟨_, ⟨f, one, rfl⟩, (n - 1) * f, ?_, rfl⟩
    rw [sum_replicate, smul_eq_mul]
    exact ⟨small, rfl⟩

/-- The weight a member pays the funding for: its inputs, its change and its part of
what all share. -/
def memberWeight (n : Nat) (weights : List Nat) (changeSpk : Option Script) : Nat :=
  divCeil 214 n + weights.sum + (changeSpk.map fun c => 4 * (9 + c.length)).getD 0

theorem memberNeed_eq_ok {inputSpks : List Script} {changeSpk : Option Script} {need : Nat} :
    memberNeed d n rate inputSpks changeSpk = .ok need ↔ inputSpks ≠ [] ∧ ∃ weights share own,
      inputSpks.mapM inputWeight = .ok weights ∧ exitShare n rate = .ok share ∧
      fee (memberWeight n weights changeSpk) rate = .ok own ∧ d + share + own < 2 ^ 64 ∧
      need = d + share + own := by
  simp only [memberNeed, bind_eq_ok, ensure_eq_ok, exists_const, context_eq_ok,
    Option.bind_eq_some_iff, checkedAdd64_eq_some, toOption_eq_some]
  constructor
  · rintro ⟨some, weights, weighed, share, shared, _, ⟨_, rfl⟩, own, paid, small, rfl⟩
    refine ⟨some, weights, share, own, weighed, shared, ?_, small, rfl⟩
    cases changeSpk <;> exact paid
  · rintro ⟨some, weights, share, own, weighed, shared, paid, small, rfl⟩
    refine ⟨some, weights, weighed, share, shared, _, ⟨by omega, rfl⟩, own, ?_, small, rfl⟩
    cases changeSpk <;> exact paid

/-- A member covers its part when its coins are worth its need and its change. -/
theorem memberCovers_eq_ok {i : Nat} {mb : Member} :
    memberCovers d n rate i mb = .ok () ↔ mb.inputs ≠ [] ∧ ∃ need,
      (mb.inputs.map fun input => input.2.value).sum < 2 ^ 64 ∧
      memberNeed d n rate (mb.inputs.map fun input => input.2.scriptPubkey)
        (mb.change.map TxOut.scriptPubkey) = .ok need ∧
      need + (mb.change.map TxOut.value).getD 0 ≤
        (mb.inputs.map fun input => input.2.value).sum := by
  simp only [memberCovers, bind_eq_ok, ensure_eq_ok, exists_const, context_eq_ok, checkedSum_eq_ok,
    checkedSub_eq_some]
  constructor
  · rintro ⟨spends, _, ⟨small, rfl⟩, need, needed, _, ⟨less, rfl⟩, enough⟩
    exact ⟨spends, need, small, needed, (Nat.le_sub_iff_add_le less).mp enough⟩
  · rintro ⟨spends, need, small, needed, enough⟩
    have less := (Nat.le_add_left _ need).trans enough
    exact ⟨spends, _, ⟨small, rfl⟩, need, needed, _, ⟨less, rfl⟩,
      (Nat.le_sub_iff_add_le less).mpr enough⟩

/-! ## A lower rate needs less -/

theorem fee_mono {weight rate' f' : Nat} (less : rate ≤ rate')
    (ok : fee weight rate' = .ok f') : ∃ f, fee weight rate = .ok f ∧ f ≤ f' := by
  obtain ⟨small, rfl⟩ := fee_eq_ok.mp ok
  have product : weight * rate ≤ weight * rate' := Nat.mul_le_mul_left weight less
  exact ⟨_, fee_eq_ok.mpr ⟨by omega, rfl⟩, divCeil_mono product⟩

theorem exitShare_mono {rate' share' : Nat} (less : rate ≤ rate')
    (ok : exitShare n rate' = .ok share') : ∃ share, exitShare n rate = .ok share ∧
      share ≤ share' := by
  obtain ⟨bounds, f', one, small, rfl⟩ := exitShare_eq_ok.mp ok
  obtain ⟨f, lower, smaller⟩ := fee_mono less one
  have product : (n - 1) * f ≤ (n - 1) * f' := Nat.mul_le_mul_left _ smaller
  exact ⟨_, exitShare_eq_ok.mpr ⟨bounds, f, lower, by omega, rfl⟩, divCeil_mono product⟩

theorem memberNeed_mono {rate' need' : Nat} {inputSpks : List Script} {changeSpk : Option Script}
    (less : rate ≤ rate') (ok : memberNeed d n rate' inputSpks changeSpk = .ok need') :
    ∃ need, memberNeed d n rate inputSpks changeSpk = .ok need ∧ need ≤ need' := by
  obtain ⟨some, weights, share', own', weighed, shared, paid, small, rfl⟩ := memberNeed_eq_ok.mp ok
  obtain ⟨share, lowerShare, smallerShare⟩ := exitShare_mono less shared
  obtain ⟨own, lowerFee, smallerFee⟩ := fee_mono less paid
  exact ⟨d + share + own, memberNeed_eq_ok.mpr
    ⟨some, weights, share, own, weighed, lowerShare, lowerFee, by omega, rfl⟩, by omega⟩

/-- An input weighs at least as much as a key-path spend. -/
theorem input_le_memberWeight {inputSpks : List Script} {weights : List Nat}
    (some : inputSpks ≠ []) (weighed : inputSpks.mapM inputWeight = .ok weights) :
    230 ≤ weights.sum := by
  cases inputSpks with
  | nil => exact absurd rfl some
  | cons spk rest =>
    obtain _ | ⟨first, others⟩ := mapM_eq_ok.mp weighed
    rename_i weight others'
    rw [sum_cons]
    unfold inputWeight at first
    split_ifs at first <;> cases first <;> omega

/-- The bitcoin there can be, in sats. -/
def maxMoney : Nat := 2100000000000000

/-- A need that bitcoin can meet leaves room for the fee of a P2WPKH change. -/
theorem memberNeed_with_change {inputSpks : List Script} {changeSpk : Script} {bare : Nat}
    (ok : memberNeed d n rate inputSpks none = .ok bare) (met : bare ≤ maxMoney)
    (short : changeSpk.length ≤ 22) :
    ∃ whole, memberNeed d n rate inputSpks (some changeSpk) = .ok whole := by
  obtain ⟨some, weights, share, own, weighed, shared, paid, small, rfl⟩ := memberNeed_eq_ok.mp ok
  have least := input_le_memberWeight some weighed
  have covered := rate_le_fee paid
  generalize hBare : memberWeight n weights none = weight at covered
  have whole : memberWeight n weights (Option.some changeSpk) ≤ 2 * weight := by
    rw [← hBare]
    simp only [memberWeight, Option.map_some, Option.map_none, Option.getD_some, Option.getD_none]
    omega
  have product : memberWeight n weights (Option.some changeSpk) * rate ≤ 2 * (weight * rate) := by
    rw [← Nat.mul_assoc]
    exact Nat.mul_le_mul_right rate whole
  unfold maxMoney at met
  have close := mul_divCeil_lt (memberWeight n weights (Option.some changeSpk) * rate)
    (show 0 < 4000 by decide)
  exact ⟨_, memberNeed_eq_ok.mpr ⟨some, weights, share, _, weighed, shared,
    fee_eq_ok.mpr ⟨by omega, rfl⟩, by omega, rfl⟩⟩

theorem myChange_eq_ok {totalIn dust : Nat} {inputSpks : List Script} {changeSpk : Script}
    {change : Option Nat} :
    myChange totalIn d n rate inputSpks changeSpk dust = .ok change ↔ ∃ bare whole,
      memberNeed d n rate inputSpks none = .ok bare ∧ bare ≤ totalIn ∧
      memberNeed d n rate inputSpks (some changeSpk) = .ok whole ∧
      change = (checkedSub totalIn whole).filter fun c => c ≥ dust ∧ c > whole - bare := by
  simp only [myChange, bind_eq_ok, ensure_eq_ok, exists_const, pure_eq_ok]
  constructor
  · rintro ⟨bare, needs, covers, whole, withChange, rfl⟩
    exact ⟨bare, whole, needs, covers, withChange, rfl⟩
  · rintro ⟨bare, whole, needs, covers, withChange, rfl⟩
    exact ⟨bare, needs, covers, whole, withChange, rfl⟩

/-! ## The pool values -/

/-- The value of pool output `k`: what all put in, less what the exits before it took. -/
def poolValue (d f first k : Nat) : Nat := first - k * (d + f)

theorem poolValues_replicate {f first : Nat} (small : d < 2 ^ 64) (j : Nat)
    (enough : j * (d + f) ≤ first) :
    poolValues d (replicate j (1, f)) first =
      .ok ((range (j + 1)).map (poolValue d f first)) := by
  induction j generalizing first with
  | zero => simp [poolValues, poolValue]
  | succ j ih =>
    rw [Nat.add_mul, Nat.one_mul] at enough
    have product : mul64 1 d = d := by
      rw [mul64, Nat.one_mul]
      exact Nat.mod_eq_of_lt small
    have next : ((checkedSub first (mul64 1 d)).bind fun v => checkedSub v f) =
        some (first - (d + f)) := by
      rw [product, Option.bind_eq_some_iff]
      exact ⟨first - d, checkedSub_eq_some.mpr ⟨by omega, rfl⟩,
        checkedSub_eq_some.mpr ⟨by omega, by omega⟩⟩
    rw [replicate_succ, poolValues, next]
    change (poolValues d (replicate j (1, f)) (first - (d + f)) >>= fun values =>
      Except.ok (first :: values)) = _
    have later : (range (j + 1)).map (poolValue d f (first - (d + f))) =
        (range (j + 1)).map (poolValue d f first ∘ Nat.succ) := by
      refine map_congr_left fun k _ => ?_
      simp only [poolValue, Function.comp_apply, Nat.succ_eq_add_one, Nat.add_mul, Nat.one_mul]
      omega
    have all : (range (j + 1 + 1)).map (poolValue d f first) =
        first :: (range (j + 1)).map (poolValue d f (first - (d + f))) := by
      rw [range_succ_eq_map, map_cons, map_map, later]
      simp [poolValue]
    rw [ih (by omega), all]
    rfl

theorem zip_dropLast_defaultPlan (two : 2 ≤ n) (f : Nat) :
    ((defaultPlan n).zip (replicate (n - 1) f)).dropLast = replicate (n - 2) (1, f) := by
  obtain ⟨j, rfl⟩ := Nat.exists_eq_add_of_le two
  have split : replicate (2 + j - 1) f = replicate (2 + j - 2) f ++ [f] := by
    rw [← replicate_succ']
    congr 1
    omega
  rw [defaultPlan, split, zip_append (by simp)]
  simp [zip_replicate']

/-- What all members put in leaves enough for every exit and for the last one's fee. -/
theorem share_covers {f share : Nat} (positive : 0 < n)
    (shared : share = divCeil ((n - 1) * f) n) : (n - 1) * f ≤ n * share := by
  rw [shared]
  exact le_mul_divCeil _ positive

/-- With the pool's first value computed, no later value runs out. -/
theorem amounts_suffice {share first f : Nat} (bounds : 3 ≤ n ∧ n ≤ 6)
    (shared : share = divCeil ((n - 1) * f) n) (value : first = (d + share) * n)
    (fits : first < 2 ^ 64) :
    poolValues d (((defaultPlan n).zip (replicate (n - 1) f)).dropLast) first =
      .ok ((range (n - 1)).map (poolValue d f first)) ∧
    (n - 2) * (d + f) + 2 * d + f ≤ first ∧ d < 2 ^ 64 ∧ mul64 2 d = 2 * d := by
  have covers := share_covers (by omega) shared
  have expand : first = n * d + n * share := by
    rw [value, Nat.add_mul, Nat.mul_comm d, Nat.mul_comm share]
  have two : 2 * d ≤ n * d := Nat.mul_le_mul_right d (by omega)
  have small : d < 2 ^ 64 := by omega
  have enough : (n - 2) * (d + f) + 2 * d + f ≤ first := by
    obtain ⟨j, rfl⟩ := Nat.exists_eq_add_of_le (show 2 ≤ n by omega)
    have count : 2 + j - 1 = j + 1 := by omega
    rw [count, Nat.add_mul, Nat.one_mul] at covers
    rw [Nat.add_sub_cancel_left, Nat.mul_add, expand]
    have split : (2 + j) * d = 2 * d + j * d := Nat.add_mul 2 j d
    omega
  refine ⟨?_, enough, small, Nat.mod_eq_of_lt (by omega)⟩
  rw [zip_dropLast_defaultPlan (by omega), poolValues_replicate small (n - 2) (by omega)]
  congr 3
  omega

end Lij.Tatara
