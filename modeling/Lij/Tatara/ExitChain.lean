import Lij.Bitcoin.Weight
import Lij.Tatara.Amounts
import Lij.Tatara.Instance

/-!
# The exit chain conserves value

Every transaction of a re-derived pool gives out what it spends: the members'
coins become the pool output, their changes and the funding's fee; each exit
splits the pool output before it into its payouts, the next pool output and its
fee. The last exit leaves no pool output and pays what remains as its fee. The
exits are inducted over with the amount still in the pool as the invariant.

An exit finds the pool output it spends by its script. That is the pool output,
and no member's payout is paid twice, when the scripts are apart.
-/

namespace Lij.Tatara

open Bitcoin Joinstr Checked Word List

/-- The values a transaction gives out. -/
def outputSum (tx : Transaction) : Nat := (tx.output.map TxOut.value).sum

/-- What the members' coins are worth. -/
def inputSum (members : List Member) : Nat :=
  (members.map fun mb => (mb.inputs.map fun input => input.2.value).sum).sum

/-- The weight of a coin once its input is signed, as the fee rules count it. -/
def coinWeight (out : TxOut) : Nat := if out.scriptPubkey.isP2wpkh then 272 else 230

/-- The weight of the signed funding, as the fee rules count it: what all share, the coins
and the changes. -/
def fundingWeight (members : List Member) : Nat :=
  214 + (members.map fun mb => (mb.inputs.map fun input => coinWeight input.2).sum +
    (mb.change.map fun c => 4 * (9 + c.scriptPubkey.length)).getD 0).sum

/-- A member's part of it: its coins and its change. -/
def ownWeight (mb : Member) : Nat := (mb.inputs.map fun input => coinWeight input.2).sum +
  (mb.change.map fun c => 4 * (9 + c.scriptPubkey.length)).getD 0

/-- Each exit spends an output of the transaction before it, the funding first, and gives out
all of it but a fee that covers the rate for an exit's weight. -/
inductive ChainConserves (P : Primitives) (rate : Nat) : Transaction → List Transaction → Prop
  | done (parent : Transaction) : ChainConserves P rate parent []
  | exit (parent tx : Transaction) (exits : List Transaction) (vout : Nat) (spent : TxOut)
      (exitFee : Nat) (input : tx.input = [txin ⟨P.computeTxid parent, vout⟩])
      (found : parent.output[vout]? = some spent) (balance : spent.value = outputSum tx + exitFee)
      (pays : exitWeight * rate ≤ 4000 * exitFee) (rest : ChainConserves P rate tx exits) :
      ChainConserves P rate parent (tx :: exits)

variable {P : Primitives} {id : String} {d rate tip : Nat} {members : List Member}
  {payouts : List (Script × Nat)} {r : Rederived}

/-! ## What a successful re-derivation computed -/

structure RederiveSpec (P : Primitives) (id : String) (d rate : Nat) (members : List Member)
    (payouts : List (Script × Nat)) (r : Rederived) (f lockTime : Nat) : Prop where
  bounds : 3 ≤ members.length ∧ members.length ≤ 6
  count : payouts.length = members.length
  exitFee : fee exitWeight rate = .ok f
  share : r.exitShare = divCeil ((members.length - 1) * f) members.length
  shared : exitShare members.length rate = .ok r.exitShare
  fits : (d + r.exitShare) * members.length < 2 ^ 64
  pools : r.pools = (range (members.length - 1)).map
    (poolValue d f ((d + r.exitShare) * members.length))
  covers : ∀ mb ∈ members, ∃ i, memberCovers d members.length rate i mb = .ok ()
  scripts : r.poolScripts.length = members.length - 1
  scriptSize : ∀ s ∈ r.poolScripts, s.length = 34
  funding : r.funding = fundingTx P id lockTime members ⟨r.pools.getD 0 0, r.poolScripts.getD 0 []⟩
  poolVout : (r.funding.output.findIdx? fun o => o.scriptPubkey == r.poolScripts.getD 0 []) =
    some r.poolVout
  exits : exitChain P ⟨id, d, lockTime, members.length - 1, r.pools, r.poolScripts⟩
    (defaultPlan members.length) 1 ⟨P.computeTxid r.funding, r.poolVout⟩
    (payoutOrder P id payouts) = .ok r.exits

theorem perm_payoutOrder (P : Primitives) (id : String) (payouts : List (Script × Nat)) :
    (payoutOrder P id payouts).Perm payouts := perm_insertionSort _ _

theorem length_poolScript {keys : List Point} {i : Nat} {script : Script}
    (derived : poolScript P keys i = .ok script) : script.length = 34 := by
  simp only [poolScript, bind_eq_ok, ensure_eq_ok, exists_const, pure_eq_ok] at derived
  obtain ⟨_, _, _, _, _, _, _, _, key, _, rfl⟩ := derived
  rw [length_append, Bytes.length_of256]
  rfl

theorem rederive_spec (rederived : rederive P id d rate members payouts tip = .ok r) :
    ∃ f lockTime, RederiveSpec P id d rate members payouts r f lockTime := by
  simp only [rederive, bind_eq_ok, ensure_eq_ok, exists_const, pure_eq_ok] at rederived
  obtain ⟨bounds, count, fees, each, share, shared, one, added, first, all, pools, valued, _, _, _,
    _, covered, poolScripts, derived, _, _, _, lockTime, _, poolVout, place, exits, chained, rfl⟩ :=
    rederived
  have two : 2 ≤ members.length := by omega
  have length := length_defaultPlan two
  obtain ⟨f, exitFee, rfl⟩ := (exitFees_eq_ok two).mp each
  obtain ⟨_, f', exitFee', small, isShare⟩ := exitShare_eq_ok.mp shared
  cases Except.ok.inj (exitFee.symm.trans exitFee')
  obtain ⟨_, rfl⟩ := checkedAdd64_eq_some.mp (context_eq_ok.mp added)
  obtain ⟨fits, rfl⟩ := checkedMul64_eq_some.mp (context_eq_ok.mp all)
  have amounts := (amounts_suffice bounds isShare rfl fits).1
  refine ⟨f, lockTime, bounds, count, exitFee, isShare, shared, fits, ?_, ?_, ?_, ?_, rfl,
    context_eq_ok.mp place, ?_⟩
  · exact Except.ok.inj (valued.symm.trans amounts)
  · intro mb member
    obtain ⟨i, inside⟩ := mem_iff_getElem?.mp member
    exact ⟨i, forM_eq_ok.mp covered (mb, i) (mk_mem_zipIdx_iff_getElem?.mpr inside)⟩
  · rw [← (mapM_eq_ok.mp derived).length_eq, length_range, length]
  · intro script member
    obtain ⟨k, here, rfl⟩ := mem_iff_getElem.mp member
    exact length_poolScript ((forall₂_iff_get.mp (mapM_eq_ok.mp derived)).2 k
      (by rwa [(mapM_eq_ok.mp derived).length_eq]) here)
  · rw [← length]
    exact chained

/-- None of the amounts runs out: once the first pool value is computed, every later value,
the last exit's fee and its minimum are there. -/
theorem amounts_never_run_out {n share first : Nat} {fees : List Nat}
    (each : exitFees (defaultPlan n) rate = .ok fees) (shared : exitShare n rate = .ok share)
    (value : first = (d + share) * n) (fits : first < 2 ^ 64) :
    ∃ pools lastFee, poolValues d ((defaultPlan n).zip fees).dropLast first = .ok pools ∧
      checkedSub (pools.getD ((defaultPlan n).length - 1) 0)
        (mul64 ((defaultPlan n).getD ((defaultPlan n).length - 1) 0) d) = some lastFee ∧
      fees.getD ((defaultPlan n).length - 1) 0 ≤ lastFee := by
  obtain ⟨bounds, f, exitFee, _, isShare⟩ := exitShare_eq_ok.mp shared
  have two : 2 ≤ n := by omega
  obtain ⟨f', exitFee', rfl⟩ := (exitFees_eq_ok two).mp each
  cases Except.ok.inj (exitFee.symm.trans exitFee')
  obtain ⟨valued, enough, _, double⟩ := amounts_suffice bounds isShare value fits
  have last : (defaultPlan n).length - 1 = n - 2 := by rw [length_defaultPlan two]; omega
  have lastGroup : (defaultPlan n).getD (n - 2) 0 = 2 := by
    rw [defaultPlan, getD_eq_getElem?_getD, getElem?_append_right (by simp)]
    simp
  have lastPool : ((range (n - 1)).map (poolValue d f first)).getD (n - 2) 0 =
      first - (n - 2) * (d + f) := by
    rw [getD_eq_getElem?_getD, getElem?_map, getElem?_range (by omega)]
    rfl
  have lastMin : (replicate (n - 1) f).getD (n - 2) 0 = f := by
    rw [getD_eq_getElem?_getD, getElem?_replicate_of_lt (by omega)]
    rfl
  refine ⟨_, first - (n - 2) * (d + f) - 2 * d, valued, ?_, ?_⟩
  · rw [last, lastGroup, lastPool, double]
    exact checkedSub_eq_some.mpr ⟨by omega, rfl⟩
  · rw [last, lastMin]
    omega

/-! ## The funding -/

theorem outputSum_fundingTx (lockTime : Nat) (pool : TxOut) :
    outputSum (fundingTx P id lockTime members pool) =
      pool.value + ((members.filterMap Member.change).map TxOut.value).sum := by
  have perm := (perm_sortByDigest (fun o => P.tagged "joinstr/v2/output_order"
    (Bytes.ofText id ++ o.serialize)) (pool :: members.filterMap Member.change)).map TxOut.value
  exact perm.sum_eq

theorem weights_eq {spks : List Script} {weights : List Nat}
    (weighed : spks.mapM inputWeight = .ok weights) :
    weights = spks.map fun spk => if spk.isP2wpkh then 272 else 230 := by
  have each := mapM_eq_ok.mp weighed
  induction each with
  | nil => rfl
  | cons first _ ih =>
    rw [map_cons, ← ih (mapM_eq_ok.mpr ‹_›)]
    congr 1
    unfold inputWeight at first
    split_ifs at first ⊢ <;> exact (Except.ok.inj first).symm

/-- A member that covers its part puts in the denomination, its share and a surplus that
covers the rate for its part of the funding. -/
theorem memberCovers_spec {n i share : Nat} {mb : Member} (shared : exitShare n rate = .ok share)
    (covers : memberCovers d n rate i mb = .ok ()) :
    ∃ surplus, (mb.inputs.map fun input => input.2.value).sum =
        d + share + ((mb.change.map TxOut.value).getD 0 + surplus) ∧
      (divCeil 214 n + ownWeight mb) * rate ≤ 4000 * surplus := by
  obtain ⟨_, need, _, needed, enough⟩ := memberCovers_eq_ok.mp covers
  obtain ⟨_, weights, share', own, weighed, shared', paid, _, rfl⟩ := memberNeed_eq_ok.mp needed
  cases Except.ok.inj (shared.symm.trans shared')
  have isWeights := weights_eq weighed
  have pays := rate_le_fee paid
  have same : memberWeight n weights (mb.change.map TxOut.scriptPubkey) =
      divCeil 214 n + ownWeight mb := by
    rw [memberWeight, isWeights, map_map, Option.map_map, Nat.add_assoc]
    rfl
  rw [same] at pays
  generalize hw : (divCeil 214 n + ownWeight mb) * rate = w at pays ⊢
  exact ⟨(mb.inputs.map fun input => input.2.value).sum - (mb.change.map TxOut.value).getD 0 -
    (d + share), by omega, by omega⟩

/-- All members together: the pool value, the changes and a surplus for the funding's fee. -/
theorem members_cover {n share : Nat} (shared : exitShare n rate = .ok share)
    (covers : ∀ mb ∈ members, ∃ i, memberCovers d n rate i mb = .ok ()) :
    ∃ surplus, inputSum members = (d + share) * members.length +
        ((members.filterMap Member.change).map TxOut.value).sum + surplus ∧
      (divCeil 214 n * members.length + (members.map ownWeight).sum) * rate ≤ 4000 * surplus := by
  induction members with
  | nil => exact ⟨0, rfl, by simp⟩
  | cons mb members ih =>
    obtain ⟨one, others⟩ := forall_mem_cons.mp covers
    obtain ⟨i, first⟩ := one
    obtain ⟨own, balance, pays⟩ := memberCovers_spec shared first
    obtain ⟨surplus, balances, allPay⟩ := ih others
    refine ⟨own + surplus, ?_, ?_⟩
    · have change : (((mb :: members).filterMap Member.change).map TxOut.value).sum =
          (mb.change.map TxOut.value).getD 0 +
            ((members.filterMap Member.change).map TxOut.value).sum := by
        rw [filterMap_cons]
        cases mb.change with
        | none | some c => simp
      rw [inputSum, map_cons, sum_cons, balance, change, length_cons,
        Nat.mul_succ]
      rw [inputSum] at balances
      omega
    · rw [map_cons, sum_cons, length_cons]
      calc _ = (divCeil 214 n + ownWeight mb) * rate +
            (divCeil 214 n * members.length + (members.map ownWeight).sum) * rate := by ring
        _ ≤ 4000 * own + 4000 * surplus := Nat.add_le_add pays allPay
        _ = 4000 * (own + surplus) := (Nat.mul_add _ _ _).symm

theorem funding_conserves {f lockTime : Nat}
    (spec : RederiveSpec P id d rate members payouts r f lockTime) :
    ∃ fundingFee, inputSum members = outputSum r.funding + fundingFee ∧
      fundingWeight members * rate ≤ 4000 * fundingFee := by
  obtain ⟨surplus, balance, pays⟩ := members_cover spec.shared spec.covers
  have first : r.pools.getD 0 0 = (d + r.exitShare) * members.length := by
    have some : 0 < members.length - 1 := by
      have bounds := spec.bounds
      omega
    rw [spec.pools, getD_eq_getElem?_getD, getElem?_map, getElem?_range some]
    simp [poolValue]
  refine ⟨surplus, ?_, ?_⟩
  · rw [spec.funding, outputSum_fundingTx]
    dsimp only
    rw [first]
    exact balance
  · refine le_trans (Nat.mul_le_mul_right rate ?_) pays
    have shares : 214 ≤ members.length * divCeil 214 members.length :=
      le_mul_divCeil 214 (by have bounds := spec.bounds; omega)
    rw [Nat.mul_comm (divCeil 214 members.length)]
    exact Nat.add_le_add_right shares _

/-! ## The exits -/

theorem getD_mem {α : Type} {xs : List α} {k : Nat} {fallback : α} (inside : k < xs.length) :
    xs.getD k fallback ∈ xs := by
  rw [getD_eq_getElem?_getD, getElem?_eq_getElem inside]
  exact getElem_mem _

/-- A payout of the pool. -/
def payTo (d : Nat) (payout : Script × Nat) : TxOut := ⟨d, payout.1⟩

theorem perm_exitTx (plan : ExitPlan) (k : Nat) (prev : OutPoint) (group : List (Script × Nat)) :
    (exitTx P plan k prev group).output.Perm (group.map (payTo plan.denomination) ++
      if k < plan.count then [⟨plan.pools.getD k 0, plan.poolScripts.getD k []⟩] else []) :=
  perm_sortByDigest _ _

theorem outputSum_exitTx (plan : ExitPlan) (k : Nat) (prev : OutPoint)
    (group : List (Script × Nat)) :
    outputSum (exitTx P plan k prev group) = group.length * plan.denomination +
      if k < plan.count then plan.pools.getD k 0 else 0 := by
  rw [outputSum, ((perm_exitTx plan k prev group).map TxOut.value).sum_eq, map_append,
    sum_append]
  congr 1
  · simp [payTo, Function.comp_def]
  · split <;> simp

/-- The output an exit finds by the pool's script is the pool output. -/
theorem found_pool {outputs payouts : List TxOut} {pool : TxOut} {vout : Nat}
    (perm : outputs.Perm (payouts ++ [pool]))
    (apart : ∀ o ∈ payouts, o.scriptPubkey ≠ pool.scriptPubkey)
    (found : (outputs.findIdx? fun o => o.scriptPubkey == pool.scriptPubkey) = some vout) :
    outputs[vout]? = some pool := by
  obtain ⟨inside, matched, _⟩ := findIdx?_eq_some_iff_getElem.mp found
  rw [getElem?_eq_getElem inside]
  have member : outputs[vout] ∈ payouts ++ [pool] := perm.mem_iff.mp (getElem_mem inside)
  rcases mem_append.mp member with isPayout | isPool
  · exact absurd (beq_iff_eq.mp matched) (apart _ isPayout)
  · rw [mem_singleton.mp isPool]

section Chain

variable {plan : ExitPlan} {f first : Nat}

/-- A chain is its first exit and a chain that goes on at the pool output the exit leaves. -/
theorem exitChain_cons {g k : Nat} {groups : List Nat} {prev : OutPoint}
    {order : List (Script × Nat)} {txs : List Transaction}
    (chained : exitChain P plan (g :: groups) k prev order = .ok txs) :
    ∃ next rest, txs = exitTx P plan k prev (order.take g) :: rest ∧
      exitChain P plan groups (k + 1) next (order.drop g) = .ok rest ∧
      (k < plan.count → ∃ vout, ((exitTx P plan k prev (order.take g)).output.findIdx? fun o =>
          o.scriptPubkey == plan.poolScripts.getD k []) = some vout ∧
        next = ⟨P.computeTxid (exitTx P plan k prev (order.take g)), vout⟩) := by
  unfold exitChain at chained
  split at chained
  · simp only [bind_eq_ok, context_eq_ok, pure_eq_ok] at chained
    obtain ⟨vout, place, rest, later, rfl⟩ := chained
    exact ⟨_, rest, rfl, later, fun _ => ⟨vout, place, rfl⟩⟩
  · next last =>
    simp only [bind_eq_ok, pure_eq_ok] at chained
    obtain ⟨rest, later, rfl⟩ := chained
    exact ⟨prev, rest, rfl, later, fun more => absurd more last⟩

/-- The exits from exit `k` on, with `j` exits of one payout before the last: the output they
start from holds what exits before `k` left of the first value. -/
theorem exitChain_conserves (exitFee : fee exitWeight rate = .ok f)
    (pools : plan.pools = (range plan.count).map (poolValue plan.denomination f first))
    (scripts : plan.poolScripts.length = plan.count)
    (enough : (plan.count - 1) * (plan.denomination + f) + 2 * plan.denomination + f ≤ first)
    (j k : Nat) (reaches : k + j = plan.count) (positive : 1 ≤ k) (parent : Transaction)
    (vout : Nat)
    (spent : TxOut) (order : List (Script × Nat)) (txs : List Transaction)
    (apart : ∀ p ∈ order, p.1 ∉ plan.poolScripts) (length : order.length = j + 2)
    (found : parent.output[vout]? = some spent)
    (value : spent.value = poolValue plan.denomination f first (k - 1))
    (chained : exitChain P plan (replicate j 1 ++ [2]) k ⟨P.computeTxid parent, vout⟩ order =
      .ok txs) :
    ChainConserves P rate parent txs := by
  have pays := rate_le_fee exitFee
  induction j generalizing k parent vout spent order txs with
  | zero =>
    have last : ¬k < plan.count := by omega
    obtain ⟨_, _, rfl, ⟨⟩, _⟩ := exitChain_cons chained
    have sum := outputSum_exitTx (P := P) plan k ⟨P.computeTxid parent, vout⟩ (order.take 2)
    rw [if_neg last, length_take, length] at sum
    have size : min 2 (0 + 2) = 2 := rfl
    rw [size] at sum
    refine .exit parent _ [] vout spent (first - (plan.count - 1) * (plan.denomination + f) -
      2 * plan.denomination) rfl found ?_ ?_ (.done _)
    · rw [value, sum, poolValue]
      have same : k - 1 = plan.count - 1 := by omega
      rw [same]
      omega
    · refine le_trans pays (Nat.mul_le_mul_left 4000 ?_)
      omega
  | succ j ih =>
    have more : k < plan.count := by omega
    obtain ⟨_, others, rfl, later, leaves⟩ := exitChain_cons chained
    obtain ⟨next, place, rfl⟩ := leaves more
    have sum := outputSum_exitTx (P := P) plan k ⟨P.computeTxid parent, vout⟩ (order.take 1)
    have perm := perm_exitTx (P := P) plan k ⟨P.computeTxid parent, vout⟩ (order.take 1)
    rw [if_pos more] at sum perm
    have size : (order.take 1).length = 1 := by
      rw [length_take, length]
      omega
    have inScripts : plan.poolScripts.getD k [] ∈ plan.poolScripts := getD_mem (by omega)
    have isPool := found_pool perm (fun o member => by
      obtain ⟨p, inOrder, rfl⟩ := mem_map.mp member
      intro sameScript
      change p.1 = plan.poolScripts.getD k [] at sameScript
      exact apart p (mem_of_mem_take inOrder) (by rw [sameScript]; exact inScripts)) place
    have nextValue : plan.pools.getD k 0 = poolValue plan.denomination f first k := by
      rw [pools, getD_eq_getElem?_getD, getElem?_map, getElem?_range more]
      rfl
    have goesOn := ih (k + 1) (by omega) (by omega) _ next _ (order.drop 1) others
      (fun p member => apart p (mem_of_mem_drop member))
      (by rw [length_drop, length]; omega) isPool nextValue later
    refine .exit parent _ others vout spent f rfl found ?_ pays goesOn
    rw [value, sum, size, nextValue, poolValue, poolValue]
    have smaller : k * (plan.denomination + f) ≤ (plan.count - 1) * (plan.denomination + f) :=
      Nat.mul_le_mul_right _ (by omega)
    have step : k * (plan.denomination + f) = (k - 1) * (plan.denomination + f) +
        (plan.denomination + f) := by
      rw [← Nat.succ_mul]
      congr 1
      omega
    omega

/-- The exits' outputs are the payouts, each once, and pool outputs. -/
theorem exitChain_outputs (scripts : plan.poolScripts.length = plan.count) (groups : List Nat)
    (k : Nat) (prev : OutPoint) (order : List (Script × Nat)) (txs : List Transaction)
    (length : order.length = groups.sum)
    (chained : exitChain P plan groups k prev order = .ok txs) :
    ∃ pools : List TxOut, (∀ o ∈ pools, o.scriptPubkey ∈ plan.poolScripts) ∧
      (txs.flatMap Transaction.output).Perm (order.map (payTo plan.denomination) ++ pools) := by
  induction groups generalizing k prev order txs with
  | nil =>
    cases Except.ok.inj chained
    rw [length_eq_zero_iff.mp length]
    exact ⟨[], nofun, .refl _⟩
  | cons g groups ih =>
    rw [sum_cons] at length
    have drops : (order.drop g).length = groups.sum := by rw [length_drop]; omega
    obtain ⟨own, isPool, perm⟩ : ∃ own : List TxOut,
        (∀ o ∈ own, o.scriptPubkey ∈ plan.poolScripts) ∧
        (exitTx P plan k prev (order.take g)).output.Perm
          ((order.take g).map (payTo plan.denomination) ++ own) := by
      refine ⟨_, fun o member => ?_, perm_exitTx plan k prev (order.take g)⟩
      split at member
      · rw [mem_singleton.mp member]
        exact getD_mem (by omega)
      · cases member
    obtain ⟨_, rest, rfl, later, _⟩ := exitChain_cons chained
    obtain ⟨pools, inScripts, outputs⟩ := ih (k + 1) _ _ rest drops later
    refine ⟨own ++ pools, forall_mem_append.mpr ⟨isPool, inScripts⟩, ?_⟩
    -- the pool output of this exit comes after its payouts, those of later exits after theirs
    rw [flatMap_cons]
    refine (perm.append outputs).trans ?_
    rw [← append_assoc, append_assoc _ own]
    refine (List.Perm.append_right pools (List.Perm.append_left _ perm_append_comm)).trans ?_
    rw [← append_assoc, ← map_append, take_append_drop, append_assoc]

end Chain

/-! ## Scripts apart -/

structure Apart (r : Rederived) (members : List Member) (payouts : List Script) : Prop where
  distinct : payouts.Nodup
  notPool : ∀ p ∈ payouts, p ∉ r.poolScripts
  changes : ∀ c ∈ members.filterMap Member.change, c.scriptPubkey ∉ r.poolScripts

theorem scriptsApart_spec {scripts : List Script}
    (apart : scriptsApart r members scripts = .ok ()) : Apart r members scripts := by
  obtain ⟨_, each, rest⟩ := bind_eq_ok.mp apart
  have checks : ∀ i (inside : i < scripts.length), scripts[i] ∉ scripts.take i ∧
      scripts[i] ∉ r.poolScripts := by
    intro i inside
    have one := forM_eq_ok.mp each (scripts[i], i)
      (mk_mem_zipIdx_iff_getElem?.mpr (getElem?_eq_getElem inside))
    obtain ⟨new, others⟩ := ensure_bind_eq_ok.mp one
    exact ⟨new, (ensure_bind_eq_ok.mp others).1⟩
  refine ⟨?_, ?_, ?_⟩
  · refine pairwise_iff_getElem.mpr fun i j hi hj less same => ?_
    refine (checks j hj).1 (same ▸ ?_)
    exact mem_take_iff_getElem.mpr ⟨i, by omega, rfl⟩
  · intro p member
    obtain ⟨i, inside, rfl⟩ := mem_iff_getElem.mp member
    exact (checks i inside).2
  · intro c member
    have inChanges :
        c.scriptPubkey ∈ members.filterMap fun m => m.change.map TxOut.scriptPubkey := by
      obtain ⟨mb, inMembers, isChange⟩ := mem_filterMap.mp member
      exact mem_filterMap.mpr ⟨mb, inMembers, by rw [isChange]; rfl⟩
    exact ensure_eq_ok.mp (forM_eq_ok.mp rest _ inChanges)

variable {f lockTime : Nat}

section

variable (spec : RederiveSpec P id d rate members payouts r f lockTime)
include spec

theorem pool_mem_poolScripts : r.poolScripts.getD 0 [] ∈ r.poolScripts := by
  apply getD_mem
  have bounds := spec.bounds
  have scripts := spec.scripts
  omega

theorem perm_funding_output :
    r.funding.output.Perm
      (⟨r.pools.getD 0 0, r.poolScripts.getD 0 []⟩ :: members.filterMap Member.change) := by
  rw [spec.funding]
  exact perm_sortByDigest _ _

/-- The funding's pool output is where the re-derivation found it. -/
theorem funding_pool (apart : Apart r members (payouts.map Prod.fst)) :
    r.funding.output[r.poolVout]? =
      some ⟨r.pools.getD 0 0, r.poolScripts.getD 0 []⟩ := by
  have perm := (perm_funding_output spec).trans (perm_append_singleton _ _).symm
  refine found_pool perm (fun o member same => apart.changes o member ?_) spec.poolVout
  rw [same]
  exact pool_mem_poolScripts spec

theorem exits_conserve (apart : Apart r members (payouts.map Prod.fst)) :
    ChainConserves P rate r.funding r.exits := by
  have bounds := spec.bounds
  have plan : defaultPlan members.length = replicate (members.length - 2) 1 ++ [2] := rfl
  have order := perm_payoutOrder P id payouts
  obtain ⟨_, enough, _⟩ := amounts_suffice (d := d) bounds spec.share rfl spec.fits
  have chained := spec.exits
  rw [plan] at chained
  refine exitChain_conserves spec.exitFee (by exact spec.pools) (by exact spec.scripts) ?_
    (members.length - 2) 1 ?_ (Nat.le_refl 1) r.funding r.poolVout _ _ _ ?_ ?_
    (funding_pool spec apart) ?_ chained
  · have count : members.length - 1 - 1 = members.length - 2 := by omega
    dsimp only
    rw [count]
    exact enough
  · dsimp only
    omega
  · intro p member
    exact apart.notPool p.1 (mem_map_of_mem (order.mem_iff.mp member))
  · rw [order.length_eq, spec.count]
    omega
  · dsimp only
    rw [spec.pools, getD_eq_getElem?_getD, getElem?_map,
      getElem?_range (show 0 < members.length - 1 by omega)]
    rfl

/-- Every payout script gets exactly the denomination from exactly one output of the exits. -/
theorem payouts_once (apart : Apart r members (payouts.map Prod.fst)) (p : Script × Nat)
    (member : p ∈ payouts) :
    ((r.exits.flatMap Transaction.output).filter fun o => o.scriptPubkey = p.1) = [⟨d, p.1⟩] := by
  have bounds := spec.bounds
  have order := perm_payoutOrder P id payouts
  have groups : (defaultPlan members.length).sum = members.length := by
    rw [defaultPlan, sum_append, sum_replicate, sum_singleton, smul_eq_mul]
    omega
  obtain ⟨pools, inScripts, outputs⟩ := exitChain_outputs (by exact spec.scripts)
    (defaultPlan members.length) 1 _ _ r.exits (by rw [order.length_eq, spec.count, groups])
    spec.exits
  have noPools : (pools.filter fun o => o.scriptPubkey = p.1) = [] := by
    refine filter_eq_nil_iff.mpr fun o inPools same => ?_
    have isScript : o.scriptPubkey = p.1 := of_decide_eq_true same
    exact apart.notPool p.1 (mem_map_of_mem member) (isScript ▸ inScripts o inPools)
  have own : ((payouts.map (payTo d)).filter fun o => o.scriptPubkey = p.1) = [⟨d, p.1⟩] := by
    have scripts : (payouts.map (payTo d)) = (payouts.map Prod.fst).map (TxOut.mk d) := by
      rw [map_map]
      rfl
    rw [scripts, filter_map]
    have single : ((payouts.map Prod.fst).filter fun s => s = p.1) = [p.1] := by
      rw [filter_eq, apart.distinct.count, if_pos (mem_map_of_mem member)]
      rfl
    exact congrArg (List.map (TxOut.mk d)) single
  have filtered := outputs.filter fun o => decide (o.scriptPubkey = p.1)
  rw [filter_append, noPools, append_nil] at filtered
  exact perm_singleton.mp (filtered.trans (own ▸ (order.map (payTo d)).filter _))

end

/-! ## Sizes -/

/-- One input, two outputs, each to a pool script or to a payout. -/
structure ExitShape (plan : ExitPlan) (order : List (Script × Nat)) (tx : Transaction) : Prop where
  intro ::
  input : ∃ prev, tx.input = [txin prev]
  two : tx.output.length = 2
  scripts : ∀ o ∈ tx.output, o.scriptPubkey ∈ plan.poolScripts ∨ ∃ p ∈ order, o.scriptPubkey = p.1

theorem ExitShape.mono {plan : ExitPlan} {order order' : List (Script × Nat)} {tx : Transaction}
    (shape : ExitShape plan order tx) (inside : order ⊆ order') : ExitShape plan order' tx :=
  ⟨shape.input, shape.two, fun o member => (shape.scripts o member).imp_right
    fun ⟨p, isIn, same⟩ => ⟨p, inside isIn, same⟩⟩

theorem exitTx_shape {plan : ExitPlan} {k : Nat} {prev : OutPoint} {order : List (Script × Nat)}
    {g : Nat} (scripts : plan.poolScripts.length = plan.count) (enough : g ≤ order.length)
    (two : g + (if k < plan.count then 1 else 0) = 2) :
    ExitShape plan order (exitTx P plan k prev (order.take g)) := by
  have perm := perm_exitTx (P := P) plan k prev (order.take g)
  refine ⟨⟨prev, rfl⟩, ?_, fun o member => ?_⟩
  · rw [perm.length_eq, length_append, length_map, length_take,
      Nat.min_eq_left enough, ← two]
    split <;> rfl
  · rcases mem_append.mp (perm.mem_iff.mp member) with payout | pool
    · obtain ⟨p, inOrder, rfl⟩ := mem_map.mp payout
      exact .inr ⟨p, mem_of_mem_take inOrder, rfl⟩
    · split at pool
      · rw [mem_singleton.mp pool]
        exact .inl (getD_mem (by omega))
      · cases pool

theorem exitChain_shape {plan : ExitPlan} (scripts : plan.poolScripts.length = plan.count)
    (j k : Nat) (reaches : k + j = plan.count) (prev : OutPoint) (order : List (Script × Nat))
    (txs : List Transaction) (length : order.length = j + 2)
    (chained : exitChain P plan (replicate j 1 ++ [2]) k prev order = .ok txs) :
    txs.length = j + 1 ∧ ∀ tx ∈ txs, ExitShape plan order tx := by
  induction j generalizing k prev order txs with
  | zero =>
    have last : ¬k < plan.count := by omega
    obtain ⟨_, _, rfl, ⟨⟩, _⟩ := exitChain_cons chained
    refine ⟨rfl, fun tx member => ?_⟩
    rw [mem_singleton.mp member]
    exact exitTx_shape scripts (by omega) (by rw [if_neg last])
  | succ j ih =>
    have more : k < plan.count := by omega
    obtain ⟨_, others, rfl, later, _⟩ := exitChain_cons chained
    obtain ⟨count, shapes⟩ := ih (k + 1) (by omega) _ _ others
      (by rw [length_drop, length]; omega) later
    refine ⟨by rw [length_cons, count], forall_mem_cons.mpr ⟨?_, fun tx member => ?_⟩⟩
    · exact exitTx_shape scripts (by omega) (by rw [if_pos more])
    · exact (shapes tx member).mono (drop_subset _ _)

theorem exits_shape (spec : RederiveSpec P id d rate members payouts r f lockTime) :
    r.exits.length = members.length - 1 ∧ ∀ tx ∈ r.exits,
      ExitShape ⟨id, d, lockTime, members.length - 1, r.pools, r.poolScripts⟩ payouts tx := by
  have bounds := spec.bounds
  have plan : defaultPlan members.length = replicate (members.length - 2) 1 ++ [2] := rfl
  have order := perm_payoutOrder P id payouts
  have chained := spec.exits
  rw [plan] at chained
  obtain ⟨count, shapes⟩ := exitChain_shape (by exact spec.scripts) (members.length - 2) 1
    (by dsimp only; omega) _ _ _ (by rw [order.length_eq, spec.count]; omega) chained
  exact ⟨by rw [count]; omega, fun tx member => (shapes tx member).mono order.subset⟩

/-- A signed exit weighs what its fee was computed for. -/
theorem weight_signExit {tx : Transaction} {prev : OutPoint} (input : tx.input = [txin prev])
    (two : tx.output.length = 2) (short : ∀ o ∈ tx.output, o.scriptPubkey.length = 34)
    (sig : CompactSignature) : (signExit tx sig).weight = exitWeight := by
  have inputs : (signExit tx sig).input =
      [{ txin prev with witness := [Bytes.ofNat 64 sig.toNat] }] := by
    rw [signExit, input]
    rfl
  have outputs : (signExit tx sig).output = tx.output := rfl
  have sizes : (tx.output.map fun o => o.serialize.length) = replicate 2 43 := by
    rw [← two, map_eq_replicate_iff]
    intro o member
    rw [length_serialize_txOut, short o member, length_compactSize (by decide)]
  rw [weight_eq (by simp [Transaction.usesSegwit, inputs]), inputs, outputs, sizes, two]
  have item : (serializeWitness [Bytes.ofNat 64 sig.toNat]).length = 66 := by
    rw [length_serializeWitness (by simp) (by simp)]
    simp
  simp [length_compactSize, length_serialize_txIn, txin, item, exitWeight]

/-- The funding with a witness for each coin it spends. -/
def signFunding (tx : Transaction) (witness : OutPoint → List Bytes) : Transaction :=
  { tx with input := tx.input.map fun i => { i with witness := witness i.previousOutput } }

theorem sum_inputs (members : List Member) (g : OutPoint × TxOut → Nat) :
    (members.map fun mb => (mb.inputs.map g).sum).sum =
      ((members.flatMap Member.inputs).map g).sum := by
  induction members with
  | nil => rfl
  | cons mb members ih =>
    rw [map_cons, sum_cons, ih, flatMap_cons, map_append, sum_append]

theorem sum_changes (members : List Member) (g : TxOut → Nat) :
    (members.map fun mb => (mb.change.map g).getD 0).sum =
      ((members.filterMap Member.change).map g).sum := by
  induction members with
  | nil => rfl
  | cons mb members ih =>
    rw [map_cons, sum_cons, ih, filterMap_cons]
    cases mb.change with
    | none | some c => simp

theorem fundingWeight_eq (members : List Member) :
    fundingWeight members = 214 +
      (((members.flatMap Member.inputs).map fun input => coinWeight input.2).sum +
      ((members.filterMap Member.change).map fun c => 4 * (9 + c.scriptPubkey.length)).sum) := by
  rw [fundingWeight, sum_map_add, sum_inputs members fun input => coinWeight input.2,
    sum_changes]

/-- The weight of a transaction that spends these coins with these witnesses. -/
theorem weight_spending {tx : Transaction} {ops : List OutPoint} {witness : OutPoint → List Bytes}
    (inputs : tx.input = ops.map fun op => { txin op with witness := witness op })
    (few : ops.length < 253) (signed : ∀ op ∈ ops, witness op ≠ [])
    (fewOut : tx.output.length < 253) (short : ∀ o ∈ tx.output, o.scriptPubkey.length < 253) :
    tx.weight = 42 + (ops.map fun op => 164 + (serializeWitness (witness op)).length).sum +
      (tx.output.map fun o => 4 * (9 + o.scriptPubkey.length)).sum := by
  have segwit : tx.usesSegwit = true := by
    rw [Transaction.usesSegwit, inputs]
    cases ops with
    | nil => rfl
    | cons op rest => simp [signed op mem_cons_self]
  have inBytes : (tx.input.map fun i => i.serialize.length) = replicate ops.length 41 := by
    rw [inputs, map_map, map_eq_replicate_iff]
    intro op _
    rw [Function.comp_apply, length_serialize_txIn]
    rfl
  have witnesses : (tx.input.map fun i => (serializeWitness i.witness).length) =
      ops.map fun op => (serializeWitness (witness op)).length := by
    rw [inputs, map_map]
    rfl
  have outBytes : (tx.output.map fun o => o.serialize.length) =
      tx.output.map fun o => 9 + o.scriptPubkey.length := by
    refine map_congr_left fun o member => ?_
    rw [length_serialize_txOut, length_compactSize (short o member)]
  have count : tx.input.length = ops.length := by rw [inputs, length_map]
  have coinSum : (ops.map fun op => 164 + (serializeWitness (witness op)).length).sum =
      ops.length * 164 + (ops.map fun op => (serializeWitness (witness op)).length).sum := by
    rw [sum_map_add, map_const', sum_replicate, smul_eq_mul]
  rw [weight_eq segwit, inBytes, outBytes, witnesses, count, length_compactSize few,
    length_compactSize fewOut, sum_replicate, smul_eq_mul, coinSum, sum_map_mul_left]
  omega

/-- A signed funding weighs at most what its fee was computed for, when each witness is no
longer than the fee rules count it. -/
theorem weight_signFunding (spec : RederiveSpec P id d rate members payouts r f lockTime)
    (changes : ∀ c ∈ members.filterMap Member.change, c.scriptPubkey.length < 253)
    (coins : (members.flatMap Member.inputs).length < 253) (witness : OutPoint → List Bytes)
    (signed : ∀ input ∈ members.flatMap Member.inputs, witness input.1 ≠ [])
    (short : ∀ input ∈ members.flatMap Member.inputs,
      164 + (serializeWitness (witness input.1)).length ≤ coinWeight input.2) :
    (signFunding r.funding witness).weight ≤ fundingWeight members := by
  have bounds := spec.bounds
  have isFunding := spec.funding
  have outputs : (signFunding r.funding witness).output.Perm _ := perm_funding_output spec
  have poolSize := spec.scriptSize _ (pool_mem_poolScripts spec)
  obtain ⟨ops, perm, inputs⟩ : ∃ ops : List OutPoint,
      ops.Perm ((members.flatMap Member.inputs).map Prod.fst) ∧
      (signFunding r.funding witness).input =
        ops.map fun op => { txin op with witness := witness op } := by
    refine ⟨_, (perm_sortByDigest (fun op => P.tagged "joinstr/v2/input_order"
      (Bytes.ofText id ++ op.serialize)) _).trans (by rw [map_flatMap]), ?_⟩
    rw [signFunding, isFunding]
    exact map_map
  have outCount : (members.filterMap Member.change).length ≤ members.length :=
    length_filterMap_le _ _
  have outSizes : ∀ o ∈ (signFunding r.funding witness).output,
      o.scriptPubkey.length < 253 := by
    intro o member
    rcases mem_cons.mp (outputs.mem_iff.mp member) with rfl | isChange
    · exact poolSize.trans_lt (by decide)
    · exact changes o isChange
  rw [weight_spending inputs (by rw [perm.length_eq, length_map]; exact coins) ?_
    (by rw [outputs.length_eq, length_cons]; omega) outSizes]
  · have coinBytes := sum_le_sum short
    rw [(perm.map _).sum_eq, (outputs.map _).sum_eq, map_map, map_cons, sum_cons,
      poolSize, fundingWeight_eq]
    change 42 + ((members.flatMap Member.inputs).map fun input =>
      164 + (serializeWitness (witness input.1)).length).sum + _ ≤ _
    omega
  · intro op member
    obtain ⟨input, inCoins, rfl⟩ := mem_map.mp (perm.mem_iff.mp member)
    exact signed input inCoins

/-- The exit chain conserves value and pays everyone once. For a re-derivation whose scripts
are apart: the funding spends the members' coins and gives them out as the pool output, the
changes and a fee that covers the rate; each exit gives out the pool output it spends but for a
fee that covers the rate; every payout script gets exactly the denomination from exactly one
output of the exits. The weights the fees were computed for are those of the signed
transactions. And for every size, denomination and rate no amount of the chain runs out. -/
theorem exit_chain_conserves (rederived : rederive P id d rate members payouts tip = .ok r)
    (apart : scriptsApart r members (payouts.map Prod.fst) = .ok ()) :
    (r.funding.input.map TxIn.previousOutput).Perm
      ((members.flatMap Member.inputs).map Prod.fst) ∧
    (∃ fundingFee, inputSum members = outputSum r.funding + fundingFee ∧
      fundingWeight members * rate ≤ 4000 * fundingFee) ∧
    r.exits.length = members.length - 1 ∧ ChainConserves P rate r.funding r.exits ∧
    (∀ p ∈ payouts,
      ((r.exits.flatMap Transaction.output).filter fun o => o.scriptPubkey = p.1) = [⟨d, p.1⟩]) ∧
    ((∀ p ∈ payouts, p.1.length = 34) → ∀ tx ∈ r.exits, ∀ sig,
      (signExit tx sig).weight = exitWeight) ∧
    ((∀ c ∈ members.filterMap Member.change, c.scriptPubkey.length < 253) →
      (members.flatMap Member.inputs).length < 253 → ∀ witness : OutPoint → List Bytes,
      (∀ input ∈ members.flatMap Member.inputs, witness input.1 ≠ []) →
      (∀ input ∈ members.flatMap Member.inputs,
        164 + (serializeWitness (witness input.1)).length ≤ coinWeight input.2) →
      (signFunding r.funding witness).weight ≤ fundingWeight members) ∧
    ∀ (n d rate share first : Nat) (fees : List Nat),
      exitFees (defaultPlan n) rate = .ok fees → exitShare n rate = .ok share →
      first = (d + share) * n → first < 2 ^ 64 →
      ∃ pools lastFee, poolValues d ((defaultPlan n).zip fees).dropLast first = .ok pools ∧
        checkedSub (pools.getD ((defaultPlan n).length - 1) 0)
          (mul64 ((defaultPlan n).getD ((defaultPlan n).length - 1) 0) d) = some lastFee ∧
        fees.getD ((defaultPlan n).length - 1) 0 ≤ lastFee := by
  obtain ⟨f, lockTime, spec⟩ := rederive_spec rederived
  have scripts := scriptsApart_spec apart
  obtain ⟨count, shapes⟩ := exits_shape spec
  refine ⟨?_, funding_conserves spec, count, exits_conserve spec scripts, payouts_once spec scripts,
    ?_, fun changes coins witness => weight_signFunding spec changes coins witness,
    fun n d rate share first fees each shared value fits =>
      amounts_never_run_out each shared value fits⟩
  · rw [spec.funding]
    exact inputs_fundingTx _ _
  · intro payoutScript tx member sig
    obtain ⟨⟨prev, input⟩, two, inside⟩ := shapes tx member
    refine weight_signExit input two (fun o inOutput => ?_) sig
    rcases inside o inOutput with pool | ⟨p, inPayouts, same⟩
    · exact spec.scriptSize _ pool
    · rw [same]
      exact payoutScript p inPayouts

namespace Instance

/-- The members of the pool of three, as the re-derivation reads them. -/
def poolMembers : List Member :=
  [1, 2, 3].map fun i =>
    { musig := BitVec.ofNat 264 (10 + i), inputs := (member i).coins.map fun c => (c.1, c.2.1),
      change := none, height := 700000 }

/-- What is re-derived for the pool of three with these payout scripts. -/
def rederivedFor (payouts : List Nat) : Except String Rederived :=
  rederive base "p" 100000 1000 poolMembers (payouts.map fun n => (script n, 0)) 700000

def honestPool : Rederived :=
  (rederivedFor [201, 202, 203]).toOption.getD ⟨⟨2, 0, [], []⟩, 0, [], [], 0, []⟩

theorem rederivedFor_honest : rederivedFor [201, 202, 203] = .ok honestPool := by
  have ok : (rederivedFor [201, 202, 203]).isOk = true := by decide +kernel
  exact eq_ok_of_isOk ok _

theorem scriptsApart_honest :
    scriptsApart honestPool poolMembers ([201, 202, 203].map script) = .ok () := by
  decide +kernel

end Instance

/-- In the pool of three both hypotheses hold: every member's payout script is paid once. -/
theorem exit_chain_conserves_three :
    (∃ fundingFee, inputSum Instance.poolMembers =
      outputSum Instance.honestPool.funding + fundingFee ∧
      fundingWeight Instance.poolMembers * 1000 ≤ 4000 * fundingFee) ∧
    ChainConserves Instance.base 1000 Instance.honestPool.funding Instance.honestPool.exits := by
  obtain ⟨_, funding, _, exits, _⟩ :=
    exit_chain_conserves Instance.rederivedFor_honest Instance.scriptsApart_honest
  exact ⟨funding, exits⟩

/-- The re-derivation alone accepts one payout script from two members and pays it twice; it is
the check that the scripts are apart which refuses it. -/
theorem rederive_pays_twice :
    ((Instance.rederivedFor [201, 201, 203]).toOption.map fun r =>
      (((r.exits.flatMap Transaction.output).filter fun o =>
        o.scriptPubkey = Instance.script 201).map TxOut.value,
      (scriptsApart r Instance.poolMembers ([201, 201, 203].map Instance.script)).isOk)) =
    some ([100000, 100000], false) := by
  decide +kernel

end Lij.Tatara
