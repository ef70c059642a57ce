import Lij.Bitcoin.Weight
import Lij.Joinstr.Pool
import Lij.Tatara.Amounts
import Lij.Tatara.Instance

/-!
# The two fee rules agree

The wallet computes on its own what a member has to put in, and joinstr computes
it again when it checks the registrations. For a pool as the wallet joins them
the two are the same number: the exits' share, the part of the funding's fee and
their sum, with nothing wrapping. A member whose change is the one the wallet
computed then passes both checks.
-/

namespace Lij.Tatara

open Bitcoin Joinstr Checked Word List

/-- The pools the wallet joins: one denomination, the default exits at the pool's own rate, in
a chain without anchors, within joinstr's limits. -/
structure Phase1 (params : Params) (d : Nat) : Prop where
  people : 3 ≤ params.peers ∧ params.peers ≤ 6
  classes : params.classes = [⟨d, params.peers⟩]
  exits : params.exits = Pool.defaultExits params.peers
  rates : params.exitRatesMilli = (params.feeRateMilli, params.feeRateMilli)
  split : params.feeSplit = .equal
  noAnchor : params.anchor = false
  chain : params.exitStructure = .chain
  valid : Pool.validate params = .ok ()

variable {params : Params} {d : Nat}

namespace Phase1

section

variable (phase : Phase1 params d)
include phase

/-- The limits that keep every sum in range. -/
theorem limits :
    params.feeRateMilli ≤ 1000000 ∧ d ≤ Pool.maxMoneySat := by
  have valid := phase.valid
  simp only [Pool.validate, bind_eq_ok, ensure_eq_ok, exists_const] at valid
  obtain ⟨_, _, _, range, rate, _⟩ := valid
  refine ⟨rate.1, ?_⟩
  rw [phase.classes] at range
  exact (range _ mem_cons_self).2.2

theorem exits_eq : params.exits = defaultPlan params.peers := by
  rw [phase.exits, Pool.defaultExits, defaultPlan,
    Nat.min_eq_right (by have := phase.people; omega)]

theorem exitRate_eq {j : Nat} (inside : j < params.exits.length) :
    Pool.exitRate params j = params.feeRateMilli := by
  have people := phase.people
  have limits := phase.limits
  have count : params.exits.length = params.peers - 1 := by
    rw [phase.exits_eq, length_defaultPlan (by omega)]
  rw [count] at inside
  rw [Pool.exitRate, count, phase.rates, if_neg (by omega)]
  dsimp only
  have bound : params.feeRateMilli * (params.peers - 1 - 1) ≤ 1000000 * 5 :=
    Nat.mul_le_mul limits.1 (by omega)
  have split : params.feeRateMilli * (params.peers - 1 - 1 - j) + params.feeRateMilli * j =
      params.feeRateMilli * (params.peers - 1 - 1) := by
    rw [← Nat.mul_add]
    congr 1
    omega
  rw [mul64_of_lt (by omega), mul64_of_lt (by omega), add64_of_lt (by omega), split,
    Nat.mul_div_cancel _ (by omega)]

/-- The fee of one exit. -/
theorem exitFee_eq :
    fee exitWeight params.feeRateMilli = .ok (Pool.fee exitWeight params.feeRateMilli) ∧
    Pool.fee exitWeight params.feeRateMilli ≤ 154000 := by
  have limits := phase.limits
  have small : exitWeight * params.feeRateMilli < 2 ^ 64 := by
    rw [exitWeight]
    omega
  rw [Pool.fee, mul64_of_lt small]
  refine ⟨fee_eq_ok.mpr ⟨small, rfl⟩, (divCeil_le_iff (by decide)).mpr ?_⟩
  rw [exitWeight]
  omega

theorem exitCosts_eq :
    Pool.exitCosts params = (defaultPlan params.peers).map fun g =>
      ⟨g, exitWeight, params.feeRateMilli, Pool.fee exitWeight params.feeRateMilli⟩ := by
  have people := phase.people
  have each : ∀ e ∈ params.exits.zipIdx, Pool.exitCost params e.1 e.2 =
      ⟨e.1, exitWeight, params.feeRateMilli, Pool.fee exitWeight params.feeRateMilli⟩ := by
    rintro ⟨g, j⟩ member
    have inside : j < params.exits.length := by
      have found := mk_mem_zipIdx_iff_getElem?.mp member
      exact (List.getElem?_eq_some_iff.mp found).1
    rw [phase.exits_eq] at member
    have outputs := outputs_defaultPlan (show 2 ≤ params.peers by omega) member
    rw [← phase.exits_eq] at outputs
    rw [Pool.exitCost, phase.exitRate_eq inside, outputs, phase.noAnchor]
    rfl
  rw [Pool.exitCosts, map_congr_left each, ← phase.exits_eq]
  conv_rhs => rw [← zipIdx_map_fst 0 params.exits, map_map]
  rfl

theorem exitShare_eq :
    exitShare params.peers params.feeRateMilli = .ok (Pool.exitShare params) ∧
    Pool.exitShare params ≤ 154000 := by
  have people := phase.people
  obtain ⟨exitFee, small⟩ := phase.exitFee_eq
  have sum : Pool.exitShare params =
      divCeil ((params.peers - 1) * Pool.fee exitWeight params.feeRateMilli) params.peers := by
    have fees : ((Pool.exitCosts params).map fun c => add64 c.fee (Pool.anchor params)) =
        replicate (params.peers - 1) (Pool.fee exitWeight params.feeRateMilli) := by
      rw [phase.exitCosts_eq, map_map, map_eq_replicate_iff.mpr,
        length_defaultPlan (by omega)]
      intro g _
      rw [Function.comp_apply, Pool.anchor, phase.noAnchor]
      exact add64_of_lt (show Pool.fee exitWeight params.feeRateMilli + 0 < 2 ^ 64 by omega)
    have total : (params.peers - 1) * Pool.fee exitWeight params.feeRateMilli ≤ 5 * 154000 :=
      Nat.mul_le_mul (by omega) small
    rw [Pool.exitShare, phase.split, fees, sum64_of_lt, sum_replicate, smul_eq_mul]
    rw [sum_replicate, smul_eq_mul]
    omega
  have total : (params.peers - 1) * Pool.fee exitWeight params.feeRateMilli ≤
      params.peers * 154000 := Nat.mul_le_mul (by omega) small
  rw [sum]
  refine ⟨exitShare_eq_ok.mpr ⟨people, _, exitFee, by omega, rfl⟩, ?_⟩
  exact (divCeil_le_iff (by omega)).mpr total

end

end Phase1

theorem inputWeight_agrees {spk : Script} {weight : Nat} :
    Pool.inputWeight spk = .ok weight ↔ inputWeight spk = .ok weight := by
  unfold Pool.inputWeight inputWeight
  split_ifs <;> simp

theorem inputWeights_agree {inputs : List TxOut} {weights : List Nat} :
    (inputs.mapM fun i => Pool.inputWeight i.scriptPubkey) = .ok weights ↔
      (inputs.map TxOut.scriptPubkey).mapM inputWeight = .ok weights := by
  rw [mapM_eq_ok, mapM_eq_ok, forall₂_map_left_iff]
  simp only [inputWeight_agrees]

theorem inputWeights_le {spks : List Script} {weights : List Nat}
    (weighed : spks.mapM inputWeight = .ok weights) : weights.sum ≤ 272 * spks.length := by
  have each : ∀ w ∈ weights, w ≤ 272 := by
    intro w member
    obtain ⟨spk, _, ok⟩ := exists_of_mem_right (mapM_eq_ok.mp weighed) member
    unfold inputWeight at ok
    split_ifs at ok <;> cases ok <;> decide
  have bound := sum_le_card_nsmul weights 272 each
  rw [← (mapM_eq_ok.mp weighed).length_eq, smul_eq_mul] at bound
  omega

/-- What joinstr requires of a member is what the wallet computes. -/
theorem required_agrees (phase : Phase1 params d) {inputs : List TxOut} {change : Option TxOut}
    (spends : inputs ≠ []) (few : inputs.length ≤ Pool.maxInputsPerPeer)
    (short : ∀ c, change = some c → c.scriptPubkey.length < 253) {need : Nat} :
    Pool.required params d inputs change = .ok need ↔
      memberNeed d params.peers params.feeRateMilli (inputs.map TxOut.scriptPubkey)
        (change.map TxOut.scriptPubkey) = .ok need := by
  obtain ⟨rate, amount⟩ := phase.limits
  obtain ⟨shared, smallShare⟩ := phase.exitShare_eq
  have own : (change.map fun c => 4 * c.serialize.length).getD 0 =
      ((change.map TxOut.scriptPubkey).map fun c => 4 * (9 + c.length)).getD 0 ∧
      ((change.map TxOut.scriptPubkey).map fun c => 4 * (9 + c.length)).getD 0 ≤ 1048 := by
    cases change with
    | none => exact ⟨rfl, by decide⟩
    | some c =>
      have size := short c rfl
      constructor
      · change 4 * c.serialize.length = 4 * (9 + c.scriptPubkey.length)
        rw [length_serialize_txOut, length_compactSize size]
      · change 4 * (9 + c.scriptPubkey.length) ≤ 1048
        omega
  -- both rules take their fee for one weight, and nothing wraps
  have weight : ∀ weights : List Nat,
      (inputs.map TxOut.scriptPubkey).mapM inputWeight = .ok weights →
      fee (memberWeight params.peers weights (change.map TxOut.scriptPubkey))
        params.feeRateMilli = .ok (Pool.fee (divCeil Pool.sharedWeight params.peers +
          weights.sum + (change.map fun c => 4 * c.serialize.length).getD 0)
            params.feeRateMilli) ∧
      Pool.fee (divCeil Pool.sharedWeight params.peers + weights.sum +
        (change.map fun c => 4 * c.serialize.length).getD 0) params.feeRateMilli ≤ 7200000 := by
    intro weights weighed
    have heaviest := inputWeights_le weighed
    rw [length_map] at heaviest
    have fixed : divCeil Pool.sharedWeight params.peers ≤ 214 :=
      (divCeil_le_iff (by have := phase.people; omega)).mpr (by
        rw [Pool.sharedWeight]
        have := phase.people
        omega)
    rw [Pool.maxInputsPerPeer] at few
    rw [own.1]
    change fee (memberWeight params.peers weights (change.map TxOut.scriptPubkey)) _ =
        .ok (Pool.fee (memberWeight params.peers weights (change.map TxOut.scriptPubkey)) _) ∧
      Pool.fee (memberWeight params.peers weights (change.map TxOut.scriptPubkey)) _ ≤ _
    have size : memberWeight params.peers weights (change.map TxOut.scriptPubkey) ≤ 28462 := by
      have fixed : divCeil 214 params.peers ≤ 214 := fixed
      rw [memberWeight]
      omega
    have product := Nat.mul_le_mul size rate
    have small : memberWeight params.peers weights (change.map TxOut.scriptPubkey) *
        params.feeRateMilli < 2 ^ 64 := by omega
    rw [Pool.fee, mul64_of_lt small]
    exact ⟨fee_eq_ok.mpr ⟨small, rfl⟩, (divCeil_le_iff (by decide)).mpr (by omega)⟩
  rw [Pool.required_eq_ok, memberNeed_eq_ok]
  rw [Pool.maxMoneySat] at amount
  constructor
  · rintro ⟨weights, weighed, rfl⟩
    have weighed := inputWeights_agree.mp weighed
    obtain ⟨paid, bound⟩ := weight weights weighed
    refine ⟨by simpa using spends, weights, _, _, weighed, shared, paid, by omega, ?_⟩
    rw [add64_of_lt (show d + Pool.exitShare params < 2 ^ 64 by omega), add64_of_lt (by omega)]
  · rintro ⟨_, weights, share, own', weighed, isShare, isOwn, _, rfl⟩
    obtain ⟨paid, bound⟩ := weight weights weighed
    cases Except.ok.inj (isShare.symm.trans shared)
    cases Except.ok.inj (isOwn.symm.trans paid)
    refine ⟨weights, inputWeights_agree.mpr weighed, ?_⟩
    rw [add64_of_lt (show d + Pool.exitShare params < 2 ^ 64 by omega), add64_of_lt (by omega)]

/-! ## The change the wallet computes -/

variable {r : InputRegistration} {changeSpk : Script} {dust : Nat} {change : Option Nat}

/-- With the change the wallet computed a member contributes what is required, exactly when
there is a change. -/
theorem myChange_contribution (phase : Phase1 params d)
    (few : r.inputs.length ≤ Pool.maxInputsPerPeer) (short : changeSpk.length < 253)
    (computed : myChange (Pool.inputTotal r) d params.peers params.feeRateMilli
      (r.inputs.map fun input => input.2.scriptPubkey) changeSpk dust = .ok change)
    (isChange : r.change = change.map fun v => ⟨v, changeSpk⟩) :
    r.inputs ≠ [] ∧
    ∃ need, Pool.required params d (r.inputs.map Prod.snd) r.change = .ok need ∧
      need + (r.change.map TxOut.value).getD 0 ≤ Pool.inputTotal r ∧
      (∀ c, r.change = some c → dust ≤ c.value ∧ need + c.value = Pool.inputTotal r) := by
  obtain ⟨bare, whole, needs, covers, withChange, worth⟩ := myChange_eq_ok.mp computed
  have spends : r.inputs ≠ [] := by
    intro none
    rw [none] at needs
    exact (memberNeed_eq_ok.mp needs).1 rfl
  have scripts : (r.inputs.map fun input => input.2.scriptPubkey) =
      (r.inputs.map Prod.snd).map TxOut.scriptPubkey := by
    rw [map_map]
    rfl
  rw [scripts] at needs withChange
  have some' : r.inputs.map Prod.snd ≠ [] := by simpa using spends
  have few' : (r.inputs.map Prod.snd).length ≤ Pool.maxInputsPerPeer := by
    rwa [length_map]
  refine ⟨spends, ?_⟩
  cases change with
  | none =>
    rw [Option.map_none] at isChange
    rw [isChange]
    refine ⟨bare, (required_agrees phase some' few' ?_).mpr needs, covers, nofun⟩
    nofun
  | some v =>
    rw [Option.map_some] at isChange
    rw [isChange]
    obtain ⟨left, kept⟩ := Option.filter_eq_some_iff.mp worth.symm
    obtain ⟨fits, rfl⟩ := checkedSub_eq_some.mp left
    obtain ⟨enough, _⟩ := of_decide_eq_true kept
    refine ⟨whole, (required_agrees phase some' few' ?_).mpr withChange, ?_, ?_⟩
    · rintro c ⟨⟩
      exact short
    · change whole + (Pool.inputTotal r - whole) ≤ Pool.inputTotal r
      omega
    · rintro c ⟨⟩
      exact ⟨enough, Nat.add_sub_cancel' fits⟩

/-- A change the wallet computed is accepted by everyone. When the dust it was computed with
is no less than joinstr's for its script, the registration passes the member check of the
re-derivation and, among registrations that are sound and have nothing in common with it,
joinstr's check; a member with change contributes exactly what is required. -/
theorem my_change_accepted (phase : Phase1 params d) (amount : r.amount = d)
    (money : (r.inputs.map fun input => input.2.value).sum ≤ Pool.maxMoneySat)
    (few : r.inputs.length ≤ Pool.maxInputsPerPeer) (short : changeSpk.length < 253)
    (dustRule : Pool.dustLimit changeSpk ≤ dust)
    (computed : myChange (Pool.inputTotal r) d params.peers params.feeRateMilli
      (r.inputs.map fun input => input.2.scriptPubkey) changeSpk dust = .ok change)
    (isChange : r.change = change.map fun v => ⟨v, changeSpk⟩) :
    (∀ i, memberCovers d params.peers params.feeRateMilli i
      ⟨r.musig, r.inputs, r.change, r.height⟩ = .ok ()) ∧
    (∃ need, Pool.required params d (r.inputs.map Prod.snd) r.change = .ok need ∧
      need ≤ Pool.contribution r ∧ (r.change ≠ none → Pool.contribution r = need)) ∧
    ∀ regs : List InputRegistration, r ∈ regs → regs.length = params.peers →
      (∀ other ∈ regs, other.amount = d) → Pool.Apart ⟨[], [], [], []⟩ regs →
      (∀ other ∈ regs, other ≠ r → Pool.Sound params other) →
      Pool.checkInputRegistrations params regs = .ok () := by
  obtain ⟨spends, need, required, covers, exact'⟩ :=
    myChange_contribution phase few short computed isChange
  have total : Pool.inputTotal r = (r.inputs.map fun input => input.2.value).sum := by
    rw [Pool.maxMoneySat] at money
    exact sum64_of_lt (by omega)
  have small : Pool.inputTotal r ≤ 2100000000000000 := by
    rw [total]
    exact money
  have contributes : Pool.contribution r =
      Pool.inputTotal r - (r.change.map TxOut.value).getD 0 :=
    sub64_of_le (by omega) (by omega)
  have shortChange : ∀ c, r.change = some c → c.scriptPubkey = changeSpk := by
    intro c isC
    rw [isChange] at isC
    obtain ⟨v, _, rfl⟩ := Option.map_eq_some_iff.mp isC
    rfl
  have needs := (required_agrees phase (by simpa using spends) (by rwa [length_map])
    fun c isC => by rwa [shortChange c isC]).mp required
  have sound : Pool.Sound params r := by
    obtain ⟨_, weights, _, _, weighed, _⟩ := memberNeed_eq_ok.mp needs
    refine ⟨?_, spends, few, fun input member => ?_, fun input member => ?_, fun c isC => ?_,
      need, by rw [amount]; exact required, by omega, by omega⟩
    · rw [Pool.classOf, phase.classes, amount]
      simp
    · have one : input.2.value ∈ r.inputs.map fun input => input.2.value :=
        mem_map.mpr ⟨input, member, rfl⟩
      exact (single_le_sum (fun _ _ => Nat.zero_le _) _ one).trans money
    · have spk : input.2.scriptPubkey ∈ (r.inputs.map Prod.snd).map TxOut.scriptPubkey :=
        mem_map.mpr ⟨input.2, mem_map.mpr ⟨input, member, rfl⟩, rfl⟩
      obtain ⟨weight, _, ok⟩ := exists_of_mem_right (mapM_eq_ok.mp weighed).flip spk
      exact ⟨weight, inputWeight_agrees.mpr ok⟩
    · obtain ⟨worth, balance⟩ := exact' c isC
      rw [shortChange c isC, Pool.maxMoneySat]
      omega
  refine ⟨fun i => ?_, ⟨need, required, by omega, fun some => ?_⟩, ?_⟩
  · rw [map_map] at needs
    rw [total] at small covers
    exact memberCovers_eq_ok.mpr ⟨spends, need, by change (r.inputs.map _).sum < _; omega,
      needs, covers⟩
  · obtain ⟨c, isC⟩ := Option.ne_none_iff_exists'.mp some
    rw [contributes, isC]
    have balance := (exact' c isC).2
    change Pool.inputTotal r - c.value = need
    omega
  · intro regs member count amounts apart others
    refine Pool.checkInputRegistrations_eq_ok.mpr ⟨count, ?_, ?_, apart⟩
    · rw [phase.classes]
      intro c isClass
      cases mem_singleton.mp isClass
      rw [filter_eq_self.mpr]
      · exact count
      · intro other inside
        exact beq_iff_eq.mpr (amounts other inside)
    · intro other inside
      by_cases same : other = r
      · rw [same]
        exact sound
      · exact others other inside same

namespace Instance

/-- Member `i` of the pool of three, with a coin of this value and this change. -/
def registered (i value : Nat) (change : Option TxOut) : InputRegistration where
  session := BitVec.ofNat 256 i
  amount := 100000
  musig := BitVec.ofNat 264 (10 + i)
  ring := BitVec.ofNat 264 (20 + i)
  inputs := [(⟨BitVec.ofNat 256 i, 0⟩, ⟨value, script (100 + i)⟩)]
  change
  height := 700000

/-- A P2WPKH script, as the wallet's change has. -/
def changeScript : Script := [0x00, 0x14] ++ replicate 20 7

theorem phase1_params : Phase1 Instance.params 100000 where
  people := by decide
  classes := rfl
  exits := rfl
  rates := rfl
  split := rfl
  noAnchor := rfl
  chain := rfl
  valid := by decide

end Instance

/-- A member with a coin of 200000 sats and the change computed for it. -/
theorem my_change_accepted_p2wpkh :
    memberCovers 100000 3 1000 0 ⟨BitVec.ofNat 264 11, (Instance.registered 1 200000 none).inputs,
      some ⟨99790, Instance.changeScript⟩, 700000⟩ = .ok () := by
  have computed : myChange (Pool.inputTotal (Instance.registered 1 200000
      (some ⟨99790, Instance.changeScript⟩))) 100000 3 1000 [Instance.script 101]
      Instance.changeScript 294 = .ok (some 99790) := by decide +kernel
  have accepted := @my_change_accepted Instance.params 100000
    (Instance.registered 1 200000 (some ⟨99790, Instance.changeScript⟩)) Instance.changeScript 294
    (some 99790) Instance.phase1_params rfl (by decide) (by decide) (by decide) (by decide)
    computed rfl
  exact accepted.1 0

/-- With the dust limit of a P2WPKH output a P2TR change can be computed that joinstr
refuses. -/
theorem my_change_dust :
    myChange 100522 100000 3 1000 [Instance.script 101] (Instance.script 301) 294 =
      .ok (some 300) ∧
    Pool.checkInputRegistrations Instance.params
      [Instance.registered 1 100522 (some ⟨300, Instance.script 301⟩),
        Instance.registered 2 102000 none, Instance.registered 3 102000 none] =
      .error "dust change" := by
  constructor
  · decide +kernel
  · decide +kernel

end Lij.Tatara
