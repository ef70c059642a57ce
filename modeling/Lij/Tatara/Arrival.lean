import Lij.Tatara.ExitChain

/-!
# The order of arrival

Every phone hears the registrations and the payouts in an order of its own. What it
re-derives from them does not depend on that order: the members' keys are sorted before they
are aggregated, the locktime is the lowest of all heights, the funding's inputs and outputs
and the payouts stand in the order of their tagged hashes, and the exits follow from these.
-/

namespace Lij.Tatara

open Bitcoin Joinstr Checked Word List

/-! ## Sorting forgets the order it is given -/

section Sorting

variable {α : Type} {r : α → α → Prop} [DecidableRel r] [Std.Total r] [IsTrans α r]

theorem insertionSort_eq_of_perm {values values' : List α} (perm : values'.Perm values)
    (antisymm : ∀ a ∈ values, ∀ b ∈ values, r a b → r b a → a = b) :
    values'.insertionSort r = values.insertionSort r := by
  have same : (values'.insertionSort r).Perm (values.insertionSort r) :=
    ((perm_insertionSort r values').trans perm).trans (perm_insertionSort r values).symm
  apply List.Perm.eq_of_pairwise _ (pairwise_insertionSort r values')
    (pairwise_insertionSort r values) same
  intro a b inside inside'
  apply antisymm
  · exact perm.mem_iff.mp ((perm_insertionSort r values').mem_iff.mp inside)
  · exact (perm_insertionSort r values).mem_iff.mp inside'

end Sorting

section Digests

variable {α : Type} {w : Nat} (key : α → BitVec w)

theorem total_digest : Std.Total fun a b => key a ≤ key b where
  total a b := Nat.le_total (key a).toNat (key b).toNat

theorem trans_digest : IsTrans α fun a b => key a ≤ key b where
  trans _ _ _ := Nat.le_trans

end Digests

theorem sortByDigest_eq_of_perm {α : Type} {key : α → Digest} {values values' : List α}
    (perm : values'.Perm values) (noTie : Set.InjOn key {a | a ∈ values}) :
    sortByDigest key values' = sortByDigest key values := by
  apply @insertionSort_eq_of_perm _ _ _ (total_digest key) (trans_digest key) _ _ perm
  intro a inside b inside' below above
  exact noTie inside inside' (BitVec.le_antisymm below above)

section Payouts

variable (key : Script → Digest)

theorem total_payout : Std.Total fun a b : Script × Nat =>
    a.2 > b.2 ∨ a.2 = b.2 ∧ key a.1 ≤ key b.1 where
  total a b := by
    have keys := Nat.le_total (key a.1).toNat (key b.1).toNat
    have ranks := Nat.lt_trichotomy a.2 b.2
    simp only [BitVec.le_def]
    omega

theorem trans_payout : IsTrans (Script × Nat) fun a b =>
    a.2 > b.2 ∨ a.2 = b.2 ∧ key a.1 ≤ key b.1 where
  trans a b c := by
    simp only [BitVec.le_def]
    omega

end Payouts

variable {P : Primitives} {id : String} {d rate tip : Nat} {members members' : List Member}
  {payouts payouts' : List (Script × Nat)} {r : Rederived}

theorem payoutOrder_eq_of_perm (perm : payouts'.Perm payouts)
    (noTie : Set.InjOn (fun s => P.tagged "joinstr/v2/payout_order" (Bytes.ofText id ++ s))
      {s | s ∈ payouts.map Prod.fst}) :
    payoutOrder P id payouts' = payoutOrder P id payouts := by
  let key (s : Script) := P.tagged "joinstr/v2/payout_order" (Bytes.ofText id ++ s)
  apply @insertionSort_eq_of_perm _ _ _ (total_payout key) (trans_payout key) _ _ perm
  intro a inside b inside' below above
  have ranks : a.2 = b.2 := by omega
  have keys : P.tagged "joinstr/v2/payout_order" (Bytes.ofText id ++ a.1) =
      P.tagged "joinstr/v2/payout_order" (Bytes.ofText id ++ b.1) := by
    apply BitVec.le_antisymm
    · exact (below.resolve_left (by omega)).2
    · exact (above.resolve_left (by omega)).2
  have scripts := noTie (mem_map_of_mem inside) (mem_map_of_mem inside') keys
  exact Prod.ext scripts ranks

/-! ## The pool in any order -/

/-- No two of the pool's outpoints, of its funding's outputs or of its payout scripts have one
ordering hash. -/
structure NoTies (P : Primitives) (id : String) (members : List Member)
    (payouts : List (Script × Nat)) (funding : Transaction) : Prop where
  inputs : Set.InjOn
    (fun op : OutPoint => P.tagged "joinstr/v2/input_order" (Bytes.ofText id ++ op.serialize))
    {op | op ∈ members.flatMap fun mb => mb.inputs.map Prod.fst}
  outputs : Set.InjOn
    (fun o : TxOut => P.tagged "joinstr/v2/output_order" (Bytes.ofText id ++ o.serialize))
    {o | o ∈ funding.output}
  payouts : Set.InjOn (fun s => P.tagged "joinstr/v2/payout_order" (Bytes.ofText id ++ s))
    {s | s ∈ payouts.map Prod.fst}

/-- The keys are aggregated in the order of their bytes. -/
theorem poolScript_eq_of_perm {keys keys' : List Point} (perm : keys'.Perm keys) (index : Nat) :
    poolScript P keys' index = poolScript P keys index := by
  have same : keys'.insertionSort (· ≤ ·) = keys.insertionSort (· ≤ ·) := by
    apply @insertionSort_eq_of_perm _ _ _ (total_digest id) (trans_digest id) _ _ perm
    intro a _ b _ below above
    exact BitVec.le_antisymm below above
  have valid : keys'.all P.validPoint = keys.all P.validPoint := by
    rw [Bool.eq_iff_iff, all_eq_true, all_eq_true]
    simp only [perm.mem_iff]
  have none : keys' ≠ [] ↔ keys ≠ [] := by
    rw [Ne, Ne, ← length_eq_zero_iff, ← length_eq_zero_iff, perm.length_eq]
  rw [poolScript, poolScript, same, valid]
  simp only [none]

theorem min_eq_of_perm {heights heights' : List Nat} (perm : heights'.Perm heights) :
    heights'.min? = heights.min? := by
  ext h
  rw [min?_eq_some_iff, min?_eq_some_iff, perm.mem_iff]
  simp only [perm.mem_iff]

theorem fundingTx_eq_of_perm (perm : members'.Perm members) {lockTime : Nat} {pool : TxOut}
    (noTies : NoTies P id members payouts (fundingTx P id lockTime members pool)) :
    fundingTx P id lockTime members' pool = fundingTx P id lockTime members pool := by
  have outputs : Set.InjOn
      (fun o : TxOut => P.tagged "joinstr/v2/output_order" (Bytes.ofText id ++ o.serialize))
      {o | o ∈ pool :: members.filterMap Member.change} :=
    noTies.outputs.mono fun o inside => (perm_sortByDigest _ _).mem_iff.mpr inside
  rw [fundingTx, fundingTx, sortByDigest_eq_of_perm (perm.flatMap_right _) noTies.inputs,
    sortByDigest_eq_of_perm ((perm.filterMap _).cons pool) outputs]

theorem NoTies.of_perm (perm : members'.Perm members) (paid : payouts'.Perm payouts)
    {funding : Transaction} (noTies : NoTies P id members payouts funding) :
    NoTies P id members' payouts' funding where
  inputs := noTies.inputs.mono fun _ inside => (perm.flatMap_right _).mem_iff.mp inside
  outputs := noTies.outputs
  payouts := noTies.payouts.mono fun _ inside => (paid.map Prod.fst).mem_iff.mp inside

theorem rederive_of_perm (perm : members'.Perm members)
    (paid : payouts'.Perm payouts) (noTies : NoTies P id members payouts r.funding)
    (rederived : rederive P id d rate members payouts tip = .ok r) :
    rederive P id d rate members' payouts' tip = .ok r := by
  simp only [rederive, bind_eq_ok, ensure_eq_ok, exists_const, pure_eq_ok] at rederived ⊢
  obtain ⟨bounds, count, fees, each, share, shared, one, added, first, all, pools, valued, lastFee,
    left, enough, _, covered, poolScripts, derived, height, lowest, near, lockTime, locks, poolVout,
    place, exits, chained, rfl⟩ := rederived
  have keys := poolScript_eq_of_perm (P := P) (perm.map Member.musig)
  have heights := min_eq_of_perm (perm.map Member.height)
  have ordered := payoutOrder_eq_of_perm paid noTies.payouts
  have funded := fundingTx_eq_of_perm perm noTies
  -- who covers its part is asked member by member; the place only names it in the error
  have covered' : (members'.zipIdx.forM fun entry =>
      memberCovers d members.length rate entry.2 entry.1) = .ok () := by
    apply forM_eq_ok.mpr
    intro entry inside
    have member : entry.1 ∈ members := perm.mem_iff.mp (fst_mem_of_mem_zipIdx inside)
    obtain ⟨i, place⟩ := mem_iff_getElem?.mp member
    have covers := forM_eq_ok.mp covered (entry.1, i) (mk_mem_zipIdx_iff_getElem?.mpr place)
    exact memberCovers_eq_ok.mpr (memberCovers_eq_ok.mp covers)
  rw [perm.length_eq, paid.length_eq, heights, ordered]
  simp only [keys]
  refine ⟨bounds, count, fees, each, share, shared, one, added, first, all, pools, valued, lastFee,
    left, enough, (), covered', poolScripts, derived, height, lowest, near, lockTime, locks, ?_⟩
  rw [funded]
  exact ⟨poolVout, place, exits, chained, rfl⟩

/-- Whatever the order in which the registrations and the payouts arrived, one pool is
re-derived, or none. -/
theorem rederive_ignores_arrival (perm : members'.Perm members)
    (paid : payouts'.Perm payouts) (noTies : NoTies P id members payouts r.funding) :
    rederive P id d rate members' payouts' tip = .ok r ↔
      rederive P id d rate members payouts tip = .ok r :=
  ⟨rederive_of_perm perm.symm paid.symm (noTies.of_perm perm paid),
    rederive_of_perm perm paid noTies⟩

theorem injOn_mem {α β : Type} {key : α → β} {values : List α}
    (apart : ∀ a ∈ values, ∀ b ∈ values, key a = key b → a = b) :
    Set.InjOn key {a | a ∈ values} :=
  fun a inside b inside' => apart a inside b inside'

namespace Instance

def honestPayouts : List (Script × Nat) := [201, 202, 203].map fun n => (script n, 0)

def keyedPool : Rederived :=
  (rederive keyed "p" 100000 1000 poolMembers honestPayouts 700000).toOption.getD honestPool

theorem rederived_keyed :
    rederive keyed "p" 100000 1000 poolMembers honestPayouts 700000 = .ok keyedPool := by
  have ok : (rederive keyed "p" 100000 1000 poolMembers honestPayouts 700000).isOk = true := by
    decide +kernel
  exact eq_ok_of_isOk ok _

theorem noTies_keyed : NoTies keyed "p" poolMembers honestPayouts keyedPool.funding where
  inputs := injOn_mem (by decide +kernel)
  outputs := injOn_mem (by decide +kernel)
  payouts := injOn_mem (by decide +kernel)

end Instance

/-- The pool of three, with its registrations and payouts heard the other way round. -/
theorem rederive_ignores_arrival_reversed :
    rederive Instance.keyed "p" 100000 1000 Instance.poolMembers.reverse
      Instance.honestPayouts.reverse 700000 = .ok Instance.keyedPool :=
  (rederive_ignores_arrival (reverse_perm _) (reverse_perm _) Instance.noTies_keyed).mpr
    Instance.rederived_keyed

end Lij.Tatara
