import Mathlib
import Lij.OnchainSend.Plan
import Lij.Tatara.ExitChain
import Lij.Tatara.Records

/-!
# Speeding up a stuck pool

A child that spends this phone's payout alone pays for every unconfirmed transaction of the
chain up to its exit. The planner reads the sizes of the chain from the attempt record, the
exits' fees from the values the record carries and the funding's fee from the pool's rate. The
record keeps its exits signed but its funding as it was before anyone signed it, so the
planner's size of the funding is smaller than the one miners count.
-/

namespace Lij.Tatara

open Bitcoin Joinstr Checked Word OnchainSend List

/-- The size of a child with one Schnorr witness and one P2TR output. -/
def childVsize : Nat := 111

/-- One transaction of the chain, as the quote saw it. -/
structure Ancestor where
  txid : Txid
  vsize : Nat
  feeSats : Nat
  /-- What the chain servers said; no answer counts as unconfirmed. -/
  confirmed : Option Bool
  deriving DecidableEq, Repr

structure BumpQuote where
  recordId : String
  ancestors : List Ancestor
  unconfirmedVsize : Nat
  paidFeeSats : Nat
  currentSatVb : Nat
  targetSatVb : Nat
  childVsize : Nat
  childFeeSats : Nat
  coinSats : Nat
  arrivesSats : Nat
  exitTxid : Txid
  exitVout : Nat
  problem : Option String
  deriving DecidableEq, Repr

/-! ## The planner -/

section Planner

variable (P : Primitives)

/-- The fee of an exit, from the output before it that it spends. -/
def exitFeeSats (id : String) (prev e : Transaction) : Except String Nat := do
  let inSats ← e.input.foldlM (fun total i => do
    ensure (i.previousOutput.txid = P.computeTxid prev)
      s!"attempt record {id}: an exit spends something other than the last pool output"
    let o ← context prev.output[i.previousOutput.vout]?
      s!"attempt record {id}: an exit spends a missing output"
    return saturatingAdd64 total o.value) 0
  return inSats - sum64 (e.output.map TxOut.value)

def exitFeesSats (id : String) : Transaction → List Transaction → Except String (List Nat)
  | _, [] => .ok []
  | prev, e :: exits => do
    let fee ← exitFeeSats P id prev e
    let fees ← exitFeesSats id e exits
    return fee :: fees

/-- The pool's rate as the record has it, or as its first exit tells it. -/
def poolRate (r : StoredRecord) (exits : List Transaction) (fees : List Nat) : Nat :=
  let told := match exits.head?, fees.head? with
    | some e, some f => max (divCeil f (max e.vsize 1)) 1
    | _, _ => 1
  match r.rateSatVb with
  | some x => if x > 0 then x else told
  | none => told

/-- Every transaction of the chain with the fee it is taken to pay. -/
def chainFees (r : StoredRecord) : Except String (List (Transaction × Nat)) := do
  let funding ← r.funding
  let exits ← r.exits
  let fees ← exitFeesSats P r.id funding exits
  return (funding, saturatingMul64 funding.vsize (poolRate r exits fees)) :: exits.zip fees

def ancestorsOf (confirmed : Txid → Option Bool) (chain : List (Transaction × Nat)) :
    List Ancestor :=
  chain.map fun t =>
    ⟨P.computeTxid t.1, t.1.vsize, t.2, confirmed (P.computeTxid t.1)⟩

/-- The ancestors the child pays for. -/
def unconfirmed (ancestors : List Ancestor) : List Ancestor :=
  ancestors.filter fun a => a.confirmed ≠ some true

/-- The price of a child over these ancestors, or why there is none. -/
def price (q : BumpQuote) (ancestors : List Ancestor) : BumpQuote :=
  let size := saturatingSum64 ((unconfirmed ancestors).map Ancestor.vsize)
  let paid := saturatingSum64 ((unconfirmed ancestors).map Ancestor.feeSats)
  let current := paid / max size 1
  let need := saturatingMul64 q.targetSatVb (saturatingAdd64 size Tatara.childVsize)
  let childFee := max (need - paid) (saturatingMul64 q.targetSatVb Tatara.childVsize)
  let priced := { q with
    ancestors, unconfirmedVsize := size, paidFeeSats := paid, currentSatVb := current,
    childFeeSats := childFee }
  if ancestors.getLast?.bind Ancestor.confirmed = some true then
    { q with ancestors, problem := some "Your exit is already in a block — nothing to speed up." }
  else if q.targetSatVb ≤ current then
    { priced with problem := some (s!"The pool already sits at {current} sat/vB — a speed-up at " ++
        s!"{q.targetSatVb} sat/vB would change nothing.") }
  else if q.coinSats ≤ saturatingAdd64 childFee dustThresholdSats then
    { priced with
      childFeeSats := 0
      problem := some (s!"Your {q.coinSats} sats cannot pay a {childFee}-sat speed-up " ++
        "and still be worth sending.") }
  else { priced with arrivesSats := q.coinSats - childFee }

def bumpQuote (r : StoredRecord) (confirmed : Txid → Option Bool) (targetSatVb : Nat) :
    Except String BumpQuote := do
  let mine ← r.myExit
  let q : BumpQuote := {
    recordId := r.id, ancestors := [], unconfirmedVsize := 0, paidFeeSats := 0, currentSatVb := 0
    targetSatVb, childVsize := Tatara.childVsize, childFeeSats := 0
    coinSats := (mine.1.output[mine.2]?.map TxOut.value).getD 0, arrivesSats := 0
    exitTxid := P.computeTxid mine.1, exitVout := mine.2, problem := none }
  if r.channel then
    return { q with problem := some ("A channel pool's payout is the channel's own 2-of-2 — no " ++
      "member can speed it up alone; it was sent at a next-block rate.") }
  else if r.payoutIndex = none then
    return { q with problem := some ("The payout goes to another wallet's address — only that " ++
      "wallet can spend it, so only it can speed the pool up.") }
  else if targetSatVb = 0 then return { q with problem := some "No fee rate." }
  else do
    let chain ← chainFees P r
    let my ← context (chain.findIdx? fun t => P.computeTxid t.1 = P.computeTxid mine.1)
      s!"attempt record {r.id}: its exit is not in its chain"
    return price q (ancestorsOf P confirmed (chain.take (my + 1)))

/-- What signs at the wallet's m/86 indices. -/
structure Keys86 where
  secretAndScript : Nat → Except String (Scalar × Script)
  sighash : Transaction → TxOut → Except String Digest
  signSchnorr : Digest → Scalar → CompactSignature

def buildBump (keys : Keys86) (r : StoredRecord) (q : BumpQuote) (dest : Script) :
    Except String Transaction := do
  ensure (q.problem = none) (q.problem.getD "")
  ensure (q.recordId = r.id) "the quote is for another pool"
  let mine ← r.myExit
  ensure (P.computeTxid mine.1 = q.exitTxid ∧ mine.2 = q.exitVout) "the quote names another exit"
  let index ← context r.payoutIndex "the payout is not this wallet's"
  let out ← context mine.1.output[mine.2]? "the exit has no such output"
  ensure (out.value = q.coinSats ∧ q.childFeeSats ≠ 0 ∧
    saturatingAdd64 q.childFeeSats dustThresholdSats < out.value)
    "the quote no longer fits the payout"
  let key ← keys.secretAndScript index
  ensure (key.2 = out.scriptPubkey) s!"the payout is not at m/86 index {index} of this wallet"
  let input : TxIn := { previousOutput := ⟨P.computeTxid mine.1, mine.2⟩, scriptSig := []
                        sequence := enableRbfNoLocktime, witness := [] }
  let tx : Transaction := { version := 2, lockTime := 0, input := [input]
                            output := [⟨out.value - q.childFeeSats, dest⟩] }
  let digest ← (keys.sighash tx ⟨out.value, key.2⟩).mapError fun e => s!"speed-up sighash: {e}"
  return signExit tx (keys.signSchnorr digest key.1)

end Planner

theorem unconfirmed_cons_of_confirmed {a : Ancestor} {rest : List Ancestor}
    (inBlock : a.confirmed = some true) : unconfirmed (a :: rest) = unconfirmed rest :=
  filter_cons_of_neg (by simp [inBlock])

theorem unconfirmed_cons_of_not {a : Ancestor} {rest : List Ancestor}
    (notInBlock : a.confirmed ≠ some true) : unconfirmed (a :: rest) = a :: unconfirmed rest :=
  filter_cons_of_pos (by simp [notInBlock])

/-! ## What the network has -/

/-- Each exit spends one output of the transaction before it and pays out no more than that. -/
inductive ExitsPay (P : Primitives) : Transaction → List Transaction → Prop
  | done (parent : Transaction) : ExitsPay P parent []
  | exit (parent tx : Transaction) (exits : List Transaction) (i : TxIn) (spent : TxOut)
      (input : tx.input = [i]) (names : i.previousOutput.txid = P.computeTxid parent)
      (found : parent.output[i.previousOutput.vout]? = some spent)
      (covers : outputSum tx ≤ spent.value) (rest : ExitsPay P tx exits) :
      ExitsPay P parent (tx :: exits)

/-- The values of the outputs before it that a transaction spends. -/
def spentValue (parent tx : Transaction) : Nat :=
  (tx.input.map fun i => (parent.output[i.previousOutput.vout]?.map TxOut.value).getD 0).sum

/-- The fees the exits really pay. -/
def netFees : Transaction → List Transaction → List Nat
  | _, [] => []
  | parent, tx :: exits => (spentValue parent tx - outputSum tx) :: netFees tx exits

/-- The chain as the network has it: the funding with its witnesses and the fee its members
paid, and the exits. -/
def netAncestors (P : Primitives) (confirmed : Txid → Option Bool) (funding : Transaction)
    (witness : OutPoint → List Bytes) (fundingFee : Nat) (exits : List Transaction) :
    List Ancestor :=
  ⟨P.computeTxid funding, (signFunding funding witness).vsize, fundingFee,
      confirmed (P.computeTxid funding)⟩ ::
    ancestorsOf P confirmed (exits.zip (netFees funding exits))

/-- The chain up to the transaction with this txid. -/
def upTo (exitTxid : Txid) (ancestors : List Ancestor) : List Ancestor :=
  ancestors.take ((ancestors.findIdx fun a => a.txid = exitTxid) + 1)

/-- The unconfirmed ancestors and the child pay the target rate for all their bytes. -/
def Reaches (target coinSats : Nat) (ancestors : List Ancestor) (child : Transaction) : Prop :=
  target * (((unconfirmed ancestors).map Ancestor.vsize).sum + child.vsize) ≤
    ((unconfirmed ancestors).map Ancestor.feeSats).sum + (coinSats - outputSum child)

instance decidableReaches (target coinSats : Nat) (ancestors : List Ancestor)
    (child : Transaction) : Decidable (Reaches target coinSats ancestors child) :=
  inferInstanceAs (Decidable (_ ≤ _))

variable {P : Primitives} {r : StoredRecord} {confirmed : Txid → Option Bool} {target : Nat}
  {funding : Transaction} {exits : List Transaction}

theorem le_outputSum {tx : Transaction} {k : Nat} {out : TxOut} (found : tx.output[k]? = some out) :
    out.value ≤ outputSum tx :=
  le_sum_of_mem (mem_map_of_mem (mem_of_getElem? found))

theorem spentValue_eq {parent tx : Transaction} {i : TxIn} {spent : TxOut}
    (input : tx.input = [i]) (found : parent.output[i.previousOutput.vout]? = some spent) :
    spentValue parent tx = spent.value := by
  rw [spentValue, input, map_singleton, sum_singleton, found]
  rfl

/-- Along the chain the fees and what an exit pays out come out of the funding's outputs. -/
theorem ExitsPay.total (pays : ExitsPay P funding exits) :
    (netFees funding exits).sum ≤ outputSum funding ∧
      ∀ tx ∈ exits, outputSum tx ≤ outputSum funding := by
  induction pays with
  | done parent => exact ⟨Nat.zero_le _, forall_mem_nil _⟩
  | exit parent tx exits i spent input names found covers rest ih =>
    have inside := le_outputSum found
    have value := spentValue_eq input found
    refine ⟨?_, forall_mem_cons.mpr ⟨covers.trans inside, fun other later => ?_⟩⟩
    · rw [netFees, sum_cons, value]
      have after := ih.1
      omega
    · exact (ih.2 other later).trans (covers.trans inside)

/-- Exits as they were re-derived pay in this way once they are signed, since a txid does not
depend on witnesses. -/
theorem exitsPay_signed {rate : Nat}
    (witnessFree : ∀ tx sig, P.computeTxid (signExit tx sig) = P.computeTxid tx)
    {parent : Transaction} (conserves : ChainConserves P rate parent exits)
    {parent' : Transaction} (txid : P.computeTxid parent' = P.computeTxid parent)
    (output : parent'.output = parent.output) (sigs : List CompactSignature)
    (length : sigs.length = exits.length) : ExitsPay P parent' (exits.zipWith signExit sigs) := by
  induction conserves generalizing parent' sigs with
  | done parent =>
    rw [zipWith_nil_left]
    exact .done parent'
  | exit parent tx exits vout spent exitFee input found balance pays rest ih =>
    obtain ⟨sig, later, rfl⟩ := exists_cons_of_length_eq_add_one length
    rw [zipWith_cons_cons]
    refine .exit parent' (signExit tx sig) _ _ spent (by rw [signExit, input]; rfl) txid.symm
      (output ▸ found) (by rw [balance]; exact Nat.le_add_right _ _) ?_
    exact ih (witnessFree tx sig) rfl later (Nat.succ.inj length)

theorem length_netFees (parent : Transaction) (exits : List Transaction) :
    (netFees parent exits).length = exits.length := by
  induction exits generalizing parent with
  | nil => rfl
  | cons tx exits ih => rw [netFees, length_cons, length_cons, ih]

/-- The planner reads the exits' fees right. -/
theorem exitFeesSats_eq (pays : ExitsPay P funding exits) (money : outputSum funding ≤ maxMoney)
    (id : String) : exitFeesSats P id funding exits = .ok (netFees funding exits) := by
  induction pays with
  | done parent => rfl
  | exit parent tx exits i spent input names found covers rest ih =>
    have inside := le_outputSum found
    have small : maxMoney < 2 ^ 64 - 1 := by decide
    have value := spentValue_eq input found
    have outputs : sum64 (tx.output.map TxOut.value) = outputSum tx := by
      apply sum64_of_lt
      rw [← outputSum]
      omega
    have first : exitFeeSats P id parent tx = .ok (spentValue parent tx - outputSum tx) := by
      have counted : saturatingAdd64 0 spent.value = spent.value := by
        rw [saturatingAdd64, u64Max]
        omega
      simp only [exitFeeSats, input, outputs, value, foldlM_cons, foldlM_nil, bind_eq_ok,
        ensure_eq_ok, exists_const, context_eq_ok, pure_eq_ok]
      exact ⟨_, ⟨_, ⟨names, _, found, rfl⟩, rfl⟩, by rw [counted]⟩
    rw [exitFeesSats, netFees, first, ih (by omega)]
    rfl

/-! ## The price -/

/-- The child's fee when it is offered: nothing was cut off at the largest word, and the second
bound on it never counts. `V` and `F` are the sizes and the fees counted, `T` the target. -/
theorem childFee_exact {T V F coin : Nat} (asked : 0 < T) (fees : F + coin ≤ u64Max)
    (free : V = 0 → F = 0) (below : ¬T ≤ F / max (min V u64Max) 1)
    (covers : ¬coin ≤ saturatingAdd64
      (max (saturatingMul64 T (saturatingAdd64 (min V u64Max) childVsize) - F)
        (saturatingMul64 T childVsize)) dustThresholdSats) :
    max (saturatingMul64 T (saturatingAdd64 (min V u64Max) childVsize) - F)
      (saturatingMul64 T childVsize) + F = T * (V + childVsize) := by
  have open_ : saturatingMul64 T (saturatingAdd64 (min V u64Max) childVsize) < u64Max := by
    by_contra full
    apply covers
    rw [saturatingAdd64]
    omega
  have whole : saturatingAdd64 (min V u64Max) childVsize = V + childVsize := by
    have least := Nat.le_mul_of_pos_left (saturatingAdd64 (min V u64Max) childVsize) asked
    rw [saturatingMul64] at open_
    rw [saturatingAdd64] at least open_ ⊢
    omega
  rw [whole] at open_ ⊢
  have need : saturatingMul64 T (V + childVsize) = T * (V + childVsize) := by
    rw [saturatingMul64] at open_ ⊢
    omega
  have split : T * (V + childVsize) = T * V + T * childVsize := Nat.mul_add T V childVsize
  have own : saturatingMul64 T childVsize = T * childVsize := by
    rw [saturatingMul64]
    omega
  have less : F ≤ T * V := by
    rcases Nat.eq_zero_or_pos V with none | some
    · rw [free none]
      exact Nat.zero_le _
    · have counted : max (min V u64Max) 1 = V := by
        rw [saturatingAdd64] at whole
        have size : childVsize = 111 := rfl
        omega
      rw [counted] at below
      exact ((Nat.div_lt_iff_lt_mul some).mp (by omega)).le
  rw [need, own]
  omega

/-- A quote without a problem asks for exactly what the counted sizes and fees leave open. -/
theorem price_spec {q : BumpQuote} {ancestors : List Ancestor} (asked : 0 < q.targetSatVb)
    (sized : ∀ a ∈ ancestors, 1 ≤ a.vsize)
    (fees : ((unconfirmed ancestors).map Ancestor.feeSats).sum + q.coinSats ≤ u64Max)
    (offered : (price q ancestors).problem = none) :
    (price q ancestors).childFeeSats + ((unconfirmed ancestors).map Ancestor.feeSats).sum =
      q.targetSatVb * (((unconfirmed ancestors).map Ancestor.vsize).sum + childVsize) := by
  have free : ((unconfirmed ancestors).map Ancestor.vsize).sum = 0 →
      ((unconfirmed ancestors).map Ancestor.feeSats).sum = 0 := by
    intro zero
    cases left : unconfirmed ancestors with
    | nil => rfl
    | cons a rest =>
      have inside : a ∈ unconfirmed ancestors := left ▸ mem_cons_self
      have size := sized a (mem_filter.mp inside).1
      rw [left, map_cons, sum_cons] at zero
      omega
  have paid : saturatingSum64 ((unconfirmed ancestors).map Ancestor.feeSats) =
      ((unconfirmed ancestors).map Ancestor.feeSats).sum := by
    rw [saturatingSum64_eq]
    omega
  unfold price at offered ⊢
  rw [paid, saturatingSum64_eq] at offered ⊢
  dsimp only at offered ⊢
  split_ifs at offered ⊢ with inBlock reached short
  exact childFee_exact asked fees free reached short

/-! ## The quote and the child -/

/-- What a quote without a problem was computed from. -/
structure QuoteSpec (P : Primitives) (r : StoredRecord) (confirmed : Txid → Option Bool)
    (target : Nat) (mine : Transaction × Nat) (q : BumpQuote) (chain : List (Transaction × Nat))
    (my : Nat) (start : BumpQuote) : Prop where
  isMine : r.myExit = .ok mine
  asked : 0 < target
  isChain : chainFees P r = .ok chain
  place : (chain.findIdx? fun t => P.computeTxid t.1 = P.computeTxid mine.1) = some my
  targeted : start.targetSatVb = target
  coin : start.coinSats = (mine.1.output[mine.2]?.map TxOut.value).getD 0
  exit : start.exitTxid = P.computeTxid mine.1
  priced : q = price start (ancestorsOf P confirmed (chain.take (my + 1)))

theorem bumpQuote_spec {q : BumpQuote} (quoted : bumpQuote P r confirmed target = .ok q)
    (offered : q.problem = none) :
    ∃ mine chain my start, QuoteSpec P r confirmed target mine q chain my start := by
  obtain ⟨mine, isMine, rest⟩ := bind_eq_ok.mp quoted
  dsimp only at rest
  split at rest
  · cases pure_eq_ok.mp rest
    cases offered
  split at rest
  · cases pure_eq_ok.mp rest
    cases offered
  split at rest
  · cases pure_eq_ok.mp rest
    cases offered
  rename_i asked
  obtain ⟨chain, isChain, rest⟩ := bind_eq_ok.mp rest
  obtain ⟨my, place, rest⟩ := bind_eq_ok.mp rest
  cases pure_eq_ok.mp rest
  exact ⟨mine, chain, my, _, isMine, Nat.pos_of_ne_zero asked, isChain, context_eq_ok.mp place,
    rfl, rfl, rfl, rfl⟩

theorem vsize_child {input : TxIn} {out : TxOut} (noScript : input.scriptSig = [])
    (taproot : out.scriptPubkey.length = 34) (sig : CompactSignature) :
    (signExit ⟨2, 0, [input], [out]⟩ sig).vsize = childVsize := by
  have item : (serializeWitness [Bytes.ofNat 64 sig.toNat]).length = 66 := by
    rw [length_serializeWitness (by simp) (by simp)]
    simp
  have output : out.serialize.length = 43 := by
    rw [length_serialize_txOut, taproot, length_compactSize (by decide)]
  have spends : (TxIn.serialize { input with witness := [Bytes.ofNat 64 sig.toNat] }).length = 41 :=
    length_serialize_txIn noScript
  have weighs : (signExit ⟨2, 0, [input], [out]⟩ sig).weight = 444 := by
    rw [weight_eq (by simp [Transaction.usesSegwit, signExit])]
    simp [signExit, length_compactSize, item, output, spends]
  rw [Transaction.vsize, weighs]
  rfl

/-- The child that is built pays the quote's fee out of the payout. -/
theorem buildBump_spec {keys : Keys86} {q : BumpQuote} {dest : Script} {child : Transaction}
    (taproot : dest.length = 34) (built : buildBump P keys r q dest = .ok child) :
    q.problem = none ∧ child.vsize = childVsize ∧
      saturatingAdd64 q.childFeeSats dustThresholdSats < q.coinSats ∧
      outputSum child = q.coinSats - q.childFeeSats := by
  simp only [buildBump, bind_eq_ok, ensure_eq_ok, exists_const, pure_eq_ok] at built
  obtain ⟨offered, _, mine, _, _, index, _, out, _, ⟨coin, _, covers⟩, key, _, _, digest, _, rfl⟩ :=
    built
  refine ⟨offered, vsize_child rfl taproot _, coin ▸ covers, ?_⟩
  rw [← coin]
  exact sum_singleton

theorem price_keeps (q : BumpQuote) (ancestors : List Ancestor) :
    (price q ancestors).coinSats = q.coinSats ∧ (price q ancestors).exitTxid = q.exitTxid := by
  unfold price
  dsimp only
  split_ifs <;> exact ⟨rfl, rfl⟩

theorem myExit_mem {mine : Transaction × Nat} (isExits : r.exits = .ok exits)
    (isMine : r.myExit = .ok mine) : mine.1 ∈ exits := by
  simp only [StoredRecord.myExit, isExits, bind_eq_ok, context_eq_ok, Except.ok.injEq,
    exists_eq_left'] at isMine
  obtain ⟨spk, _, found⟩ := isMine
  obtain ⟨tx, inside, found⟩ := exists_of_findSome?_eq_some found
  obtain ⟨vout, _, rfl⟩ := Option.map_eq_some_iff.mp found
  exact inside

theorem vsize_pos (tx : Transaction) : 1 ≤ tx.vsize := by
  have base : 8 ≤ tx.serializeBase.length := by
    simp only [Transaction.serializeBase, length_append, length_leBytes]
    omega
  rw [Transaction.vsize, Transaction.weight]
  omega

theorem ancestors_fees (parent : Transaction) (exits : List Transaction) :
    (ancestorsOf P confirmed (exits.zip (netFees parent exits))).map Ancestor.feeSats =
      netFees parent exits := by
  rw [ancestorsOf, map_map]
  exact map_snd_zip (length_netFees parent exits).le

/-- What the planner counts: the funding as the record has it, then the exits as they are. -/
theorem counted_eq (pays : ExitsPay P funding exits) (money : outputSum funding ≤ maxMoney)
    (isFunding : r.funding = .ok funding) (isExits : r.exits = .ok exits)
    (counted : funding.vsize * poolRate r exits (netFees funding exits) ≤ maxMoney)
    {chain : List (Transaction × Nat)} (isChain : chainFees P r = .ok chain) :
    chain = (funding, funding.vsize * poolRate r exits (netFees funding exits)) ::
      exits.zip (netFees funding exits) := by
  have small : maxMoney < u64Max := by decide
  simp only [chainFees, isFunding, isExits, exitFeesSats_eq pays money, bind_eq_ok, pure_eq_ok,
    Except.ok.injEq, exists_eq_left'] at isChain
  rw [← isChain, saturatingMul64, Nat.min_eq_left (by omega)]

theorem QuoteSpec.coin_le {mine : Transaction × Nat} {q start : BumpQuote}
    {chain : List (Transaction × Nat)} {my : Nat}
    (spec : QuoteSpec P r confirmed target mine q chain my start) (isExits : r.exits = .ok exits)
    (pays : ExitsPay P funding exits) : start.coinSats ≤ outputSum funding := by
  have inside := pays.total.2 mine.1 (myExit_mem isExits spec.isMine)
  rw [spec.coin]
  cases found : mine.1.output[mine.2]? with
  | none => exact Nat.zero_le _
  | some out => exact (le_outputSum found).trans inside

/-- The real chain and the counted one differ in their first entry only. -/
theorem upTo_netAncestors (confirmed : Txid → Option Bool) (witness : OutPoint → List Bytes)
    (fundingFee : Nat) {chain : List (Transaction × Nat)} {my countedFee : Nat} {exitTxid : Txid}
    (isChain : chain = (funding, countedFee) :: exits.zip (netFees funding exits))
    (place : (chain.findIdx? fun t => P.computeTxid t.1 = exitTxid) = some my) :
    upTo exitTxid (netAncestors P confirmed funding witness fundingFee exits) =
      ⟨P.computeTxid funding, (signFunding funding witness).vsize, fundingFee,
          confirmed (P.computeTxid funding)⟩ ::
        (ancestorsOf P confirmed (exits.zip (netFees funding exits))).take my ∧
    ancestorsOf P confirmed (chain.take (my + 1)) =
      ⟨P.computeTxid funding, funding.vsize, countedFee, confirmed (P.computeTxid funding)⟩ ::
        (ancestorsOf P confirmed (exits.zip (netFees funding exits))).take my := by
  subst isChain
  have txids : ((netAncestors P confirmed funding witness fundingFee exits).findIdx
      fun a => a.txid = exitTxid) = my := by
    have named := (findIdx?_eq_some_iff_findIdx_eq.mp place).2
    rw [netAncestors, findIdx_cons, ancestorsOf, findIdx_map]
    rw [findIdx_cons] at named
    exact named
  constructor
  · rw [upTo, txids, netAncestors, take_succ_cons]
  · rw [take_succ_cons, ancestorsOf, ancestorsOf, map_cons, map_take]

/-- The speed-up reaches its rate exactly when the funding is in a block already, or paid as
much as the planner takes it to have paid and the target rate for the bytes the record lacks. -/
theorem bump_reaches_rate_iff {keys : Keys86} {dest : Script} {child : Transaction}
    {q : BumpQuote} (witness : OutPoint → List Bytes) (fundingFee : Nat)
    (isFunding : r.funding = .ok funding) (isExits : r.exits = .ok exits)
    (pays : ExitsPay P funding exits) (money : outputSum funding ≤ maxMoney)
    (counted : funding.vsize * poolRate r exits (netFees funding exits) ≤ maxMoney)
    (quoted : bumpQuote P r confirmed target = .ok q) (taproot : dest.length = 34)
    (built : buildBump P keys r q dest = .ok child) :
    Reaches target q.coinSats
        (upTo q.exitTxid (netAncestors P confirmed funding witness fundingFee exits)) child ↔
      confirmed (P.computeTxid funding) = some true ∨
        target * (signFunding funding witness).vsize +
            funding.vsize * poolRate r exits (netFees funding exits) ≤
          fundingFee + target * funding.vsize := by
  obtain ⟨offered, size, covers, left⟩ := buildBump_spec taproot built
  obtain ⟨mine, chain, my, start, spec⟩ := bumpQuote_spec quoted offered
  have isChain := counted_eq pays money isFunding isExits counted spec.isChain
  obtain ⟨coin, exit⟩ : q.coinSats = start.coinSats ∧ q.exitTxid = P.computeTxid mine.1 := by
    rw [spec.priced, ← spec.exit]
    exact price_keeps _ _
  obtain ⟨real, planned⟩ := upTo_netAncestors confirmed witness fundingFee isChain spec.place
  have coinSmall := spec.coin_le isExits pays
  have small : maxMoney + maxMoney + maxMoney < u64Max := by decide
  have fee : q.coinSats - outputSum child = q.childFeeSats := by
    rw [saturatingAdd64] at covers
    omega
  -- the exits' part is the same on both sides
  generalize isLater :
    (ancestorsOf P confirmed (exits.zip (netFees funding exits))).take my = later at real planned
  have laterFees : ((unconfirmed later).map Ancestor.feeSats).sum ≤ outputSum funding := by
    have part : (unconfirmed later).Sublist
        (ancestorsOf P confirmed (exits.zip (netFees funding exits))) :=
      filter_sublist.trans (isLater ▸ take_sublist _ _)
    have fees := part.map Ancestor.feeSats
    rw [ancestors_fees] at fees
    exact (fees.sum_le_sum fun _ _ => Nat.zero_le _).trans pays.total.1
  have sized : ∀ a ∈ ancestorsOf P confirmed (chain.take (my + 1)), 1 ≤ a.vsize := by
    intro a inside
    obtain ⟨t, _, rfl⟩ := mem_map.mp inside
    exact vsize_pos t.1
  have priced := spec.priced
  rw [planned] at priced sized
  by_cases isIn : confirmed (P.computeTxid funding) = some true
  · have paid := price_spec (q := start) (spec.targeted ▸ spec.asked) sized
      (by rw [unconfirmed_cons_of_confirmed (by exact isIn)]; omega) (priced ▸ offered)
    rw [← priced, spec.targeted, unconfirmed_cons_of_confirmed (by exact isIn)] at paid
    refine iff_of_true ?_ (.inl isIn)
    rw [exit, real, Reaches, fee, size, unconfirmed_cons_of_confirmed (by exact isIn)]
    omega
  · have paid := price_spec (q := start) (spec.targeted ▸ spec.asked) sized
      (by
        rw [unconfirmed_cons_of_not (by exact isIn), map_cons, sum_cons]
        dsimp only
        omega) (priced ▸ offered)
    rw [← priced, spec.targeted, unconfirmed_cons_of_not (by exact isIn), map_cons,
      map_cons, sum_cons, sum_cons, Nat.mul_add, Nat.mul_add] at paid
    rw [or_iff_right isIn, exit, real, Reaches, fee, size, unconfirmed_cons_of_not (by exact isIn),
      map_cons, map_cons, sum_cons, sum_cons, Nat.mul_add, Nat.mul_add]
    dsimp only at paid ⊢
    omega

namespace Instance

/-- The pool of three with coins that are worth what the pool needs, to the sat. -/
def tightMembers : List Member :=
  [1, 2, 3].map fun i =>
    { musig := BitVec.ofNat 264 (10 + i), inputs := [(⟨BitVec.ofNat 256 i, 0⟩,
        ⟨100179, script (100 + i)⟩)], change := none, height := 700000 }

def tightPool : Except String Rederived :=
  rederive base "p" 100000 1000 tightMembers ([201, 202, 203].map fun n => (script n, 0)) 700000

def tight : Rederived := tightPool.toOption.getD ⟨⟨2, 0, [], []⟩, 0, [], [], 0, []⟩

/-- The first phone's record of that pool. -/
def tightRecord : StoredRecord :=
  .fromMachine ⟨"p", tight.funding, tight.exits.zipWith signExit [0, 0], script 201,
    [⟨1, 0⟩], false, 1000, []⟩ (some 4) none 0

def keys86 : Keys86 where
  secretAndScript _ := .ok (0, script 201)
  sighash _ _ := .ok 0
  signSchnorr _ _ := 0

def tightFee : Nat := inputSum tightMembers - outputSum tight.funding

theorem tightPool_eq : tightPool = .ok tight := by
  have ok : tightPool.isOk = true := by decide +kernel
  exact eq_ok_of_isOk ok _

/-- The exits of the tight pool as they are in the record. -/
def tightExits : List Transaction := tight.exits.zipWith signExit [0, 0]

theorem exitsPay_tight : ExitsPay base tight.funding tightExits := by
  obtain ⟨f, lockTime, spec⟩ := rederive_spec tightPool_eq
  have apart : scriptsApart tight tightMembers (([201, 202, 203].map fun n =>
      (script n, 0)).map Prod.fst) = .ok () := by decide +kernel
  have conserves := exits_conserve spec (scriptsApart_spec apart)
  have two : tight.exits.length = 2 := by decide +kernel
  apply exitsPay_signed _ conserves rfl rfl [0, 0] two.symm
  intro tx sig
  change txDigest (signExit tx sig) = txDigest tx
  rw [txDigest, txDigest, signExit, flatMap_map]

/-- A quote over the tight pool with these answers, and the child it leads to. -/
def tightBump (confirmed : Txid → Option Bool) : Except String (BumpQuote × Transaction) := do
  let q ← bumpQuote base tightRecord confirmed 10
  let child ← buildBump base keys86 tightRecord q (script 9)
  return (q, child)

def tightFunded (txid : Txid) : Option Bool := some (txid == base.computeTxid tight.funding)

end Instance

/-- With the funding in a block, the child reaches its rate. -/
theorem bump_reaches_rate_funded :
    ∃ q child, Instance.tightBump Instance.tightFunded = .ok (q, child) ∧
      Reaches 10 q.coinSats (upTo q.exitTxid (netAncestors Instance.base Instance.tightFunded
        Instance.tight.funding (fun _ => [Bytes.ofNat 64 0]) Instance.tightFee
        Instance.tightExits)) child := by
  have ok : (Instance.tightBump Instance.tightFunded).isOk = true := by decide +kernel
  have made := eq_ok_of_isOk ok ⟨⟨"", [], 0, 0, 0, 0, 0, 0, 0, 0, 0, 0, none⟩, ⟨2, 0, [], []⟩⟩
  obtain ⟨q, quoted, rest⟩ := bind_eq_ok.mp made
  obtain ⟨child, built, same⟩ := bind_eq_ok.mp rest
  refine ⟨q, child, bind_eq_ok.mpr ⟨q, quoted, bind_eq_ok.mpr ⟨child, built, rfl⟩⟩, ?_⟩
  have funding : Instance.tightRecord.funding = .ok Instance.tight.funding := by decide +kernel
  have exits : Instance.tightRecord.exits = .ok Instance.tightExits := by decide +kernel
  apply (bump_reaches_rate_iff _ _ funding exits Instance.exitsPay_tight (by decide +kernel)
    (by decide +kernel) quoted (by decide) built).mpr
  left
  decide +kernel

/-- The planner counts 176 vB for a funding that has 226 on the network, and the package ends up
at 9 sat/vB where 10 were asked for. -/
theorem bump_falls_short :
    ∃ q child, Instance.tightBump (fun _ => some false) = .ok (q, child) ∧
      q.problem = none ∧ q.childFeeSats = 4080 ∧ Instance.tightFee = 228 ∧
      ¬Reaches 10 q.coinSats (upTo q.exitTxid (netAncestors Instance.base (fun _ => some false)
        Instance.tight.funding (fun _ => [Bytes.ofNat 64 0]) Instance.tightFee
        Instance.tightExits)) child := by
  have run : ((Instance.tightBump fun _ => some false).toOption.map fun made =>
      (made.1.problem, made.1.childFeeSats, Instance.tightFee,
        decide (Reaches 10 made.1.coinSats (upTo made.1.exitTxid (netAncestors Instance.base
          (fun _ => some false) Instance.tight.funding (fun _ => [Bytes.ofNat 64 0])
          Instance.tightFee Instance.tightExits)) made.2))) = some (none, 4080, 228, false) := by
    decide +kernel
  obtain ⟨⟨q, child⟩, made, facts⟩ := Option.map_eq_some_iff.mp run
  simp only [Prod.mk.injEq] at facts
  obtain ⟨noProblem, fee, paid, short⟩ := facts
  exact ⟨q, child, toOption_eq_some.mp made, noProblem, fee, paid, of_decide_eq_false short⟩

end Lij.Tatara
