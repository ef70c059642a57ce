import Lij.Foundation.Words
import Lij.Joinstr.Sign

/-!
# The wallet's own limits, re-derivation and checks

`caps` bounds what a message may carry, `rederive` computes a pool's funding and
exits from the registrations without joinstr's builder, and `checks` compares
the two and looks for this phone's own coins, change and payout. The machine
signs nothing that these functions refuse.
-/

namespace Lij.Tatara

open Bitcoin Joinstr Checked List

/-! ## Limits -/

def maxInputsPerMember : Nat := 4
def maxMessageBytes : Nat := 32 * 1024

def messageSize (P : Primitives) (json : P.Text) : Except String Unit :=
  ensure (P.size json ≤ maxMessageBytes)
    s!"pool message of {P.size json} bytes (cap {maxMessageBytes})"

def registrationInputs (count : Nat) : Except String Unit :=
  ensure (1 ≤ count ∧ count ≤ maxInputsPerMember)
    s!"a member registers 1 to {maxInputsPerMember} inputs"

/-- One nonce and one partial signature per exit, exactly. -/
def onePerExit (got exits : Nat) : Except String Unit :=
  ensure (got = exits) s!"{got} items for {exits} exits"

def withinFeeLimitMilli (poolRateMilli shownAtJoinSatVb capSatVb : Nat) : Bool :=
  poolRateMilli ≤ Word.saturatingMul64 shownAtJoinSatVb 1500 &&
    poolRateMilli ≤ Word.saturatingMul64 capSatVb 1000

/-! ## Re-derivation -/

def sequenceNumber : Nat := 0xfffffffd
def maxLocktimeLag : Nat := 100

structure Member where
  musig : Point
  inputs : List (OutPoint × TxOut)
  change : Option TxOut
  height : Nat
  deriving DecidableEq, Repr

structure Rederived where
  funding : Transaction
  poolVout : Nat
  exits : List Transaction
  pools : List Nat
  exitShare : Nat
  poolScripts : List Script
  deriving DecidableEq, Repr

/-- `ceil(w · r / 4)` with the rate in thousandths of a sat/vB. -/
def fee (weight rateMilli : Nat) : Except String Nat := do
  let x ← context (Word.checkedMul64 weight rateMilli) "fee overflow"
  return Word.divCeil x 4000

def inputWeight (spk : Script) : Except String Nat :=
  if spk.isP2wpkh then .ok 272
  else if spk.isP2tr then .ok 230
  else .error "an input is neither P2WPKH nor P2TR"

/-- One payout per exit and two in the final exit. -/
def defaultPlan (n : Nat) : List Nat := replicate (n - 2) 1 ++ [2]

/-- The fee of each exit of the plan: its payouts and, unless final, a pool output. -/
def exitFees (plan : List Nat) (feeRateMilli : Nat) : Except String (List Nat) :=
  plan.zipIdx.mapM fun (g, k) =>
    fee (42 + 230 + 172 * (g + if k + 1 < plan.length then 1 else 0)) feeRateMilli

def checkedSum (values : List Nat) : Except String Nat :=
  values.foldlM (fun total v => context (Word.checkedAdd64 total v) "overflow") 0

def exitShare (peers feeRateMilli : Nat) : Except String Nat := do
  ensure (3 ≤ peers ∧ peers ≤ 6) "a LiJ pool has 3 to 6 members"
  let fees ← exitFees (defaultPlan peers) feeRateMilli
  let total ← checkedSum fees
  return Word.divCeil total peers

/-- What one member must put in. -/
def memberNeed (denomination peers feeRateMilli : Nat) (inputSpks : List Script)
    (changeSpk : Option Script) : Except String Nat := do
  ensure (inputSpks ≠ []) "no input"
  let weights ← inputSpks.mapM inputWeight
  let change := match changeSpk with
    | some c => 4 * (9 + c.length)
    | none => 0
  let share ← exitShare peers feeRateMilli
  let own := (fee (Word.divCeil 214 peers + weights.sum + change) feeRateMilli).toOption
  context ((Word.checkedAdd64 denomination share).bind fun v => own.bind (Word.checkedAdd64 v))
    "overflow"

/-- A member's change: what is left over its need, when that is worth an output of its own. -/
def myChange (totalIn denomination peers feeRateMilli : Nat) (inputSpks : List Script)
    (changeSpk : Script) (dust : Nat) : Except String (Option Nat) := do
  let bare ← memberNeed denomination peers feeRateMilli inputSpks none
  ensure (totalIn ≥ bare)
    (s!"the coin covers {totalIn} sats; the pool needs " ++ toString bare)
  let whole ← memberNeed denomination peers feeRateMilli inputSpks (some changeSpk)
  return (Word.checkedSub totalIn whole).filter fun c => c ≥ dust ∧ c > whole - bare

/-- A value's rank in an order given by a tagged hash. -/
def sortByDigest {α : Type} (key : α → Digest) (values : List α) : List α :=
  values.insertionSort fun a b => key a ≤ key b

def txin (previousOutput : OutPoint) : TxIn :=
  { previousOutput, scriptSig := [], sequence := sequenceNumber, witness := [] }

/-- The values of the pool outputs: each exit takes its payouts and its fee. -/
def poolValues (d : Nat) : List (Nat × Nat) → Nat → Except String (List Nat)
  | [], first => .ok [first]
  | (g, exitFee) :: rest, first => do
    let next ← context
      ((Word.checkedSub first (Word.mul64 g d)).bind fun v => Word.checkedSub v exitFee)
      "a pool value runs out"
    let values ← poolValues d rest next
    return first :: values

/-- A member's inputs less its change must cover what it has to put in. -/
def memberCovers (d n feeRateMilli : Nat) (i : Nat) (mb : Member) : Except String Unit := do
  ensure (mb.inputs ≠ []) s!"member {i} has no input"
  let totalIn ← checkedSum (mb.inputs.map fun (_, out) => out.value)
  let change := (mb.change.map TxOut.value).getD 0
  let need ← memberNeed d n feeRateMilli (mb.inputs.map fun (_, out) => out.scriptPubkey)
    (mb.change.map TxOut.scriptPubkey)
  let contribution ← context (Word.checkedSub totalIn change) "change larger than the inputs"
  ensure (contribution ≥ need) s!"member {i} contributes {contribution} sats, needs {need}"

/-- What every exit of one pool shares. -/
structure ExitPlan where
  id : String
  denomination : Nat
  lockTime : Nat
  count : Nat
  pools : List Nat
  poolScripts : List Script

/-- Exit `k` pays its group and, unless final, creates pool output `k`. -/
def exitTx (P : Primitives) (plan : ExitPlan) (k : Nat) (prev : OutPoint)
    (group : List (Script × Nat)) : Transaction :=
  let payouts := group.map fun (s, _) => { value := plan.denomination, scriptPubkey := s : TxOut }
  let pool : List TxOut :=
    if k < plan.count then [⟨plan.pools.getD k 0, plan.poolScripts.getD k []⟩] else []
  { version := 2, lockTime := plan.lockTime, input := [txin prev],
    output := sortByDigest
      (fun o => P.tagged "joinstr/v2/exit_output_order"
        (Bytes.ofText plan.id ++ leBytes 4 k ++ o.serialize)) (payouts ++ pool) }

/-- The exits from exit `k` on: a chain, each spending the pool output before it. -/
def exitChain (P : Primitives) (plan : ExitPlan) :
    List Nat → Nat → OutPoint → List (Script × Nat) → Except String (List Transaction)
  | [], _, _, _ => .ok []
  | g :: groups, k, prev, order => do
    let tx := exitTx P plan k prev (order.take g)
    if k < plan.count then
      let vout ← context
        (tx.output.findIdx? fun o => o.scriptPubkey == plan.poolScripts.getD k []) "pool output"
      let rest ← exitChain P plan groups (k + 1) ⟨P.computeTxid tx, vout⟩ (order.drop g)
      return tx :: rest
    else
      let rest ← exitChain P plan groups (k + 1) prev (order.drop g)
      return tx :: rest

theorem perm_sortByDigest {α : Type} (key : α → Digest) (values : List α) :
    (sortByDigest key values).Perm values :=
  perm_insertionSort _ values

/-- Payouts by priority, highest first, then by the tagged hash of the script. -/
def payoutOrder (P : Primitives) (id : String) (payouts : List (Script × Nat)) :
    List (Script × Nat) :=
  let key (script : Script) := P.tagged "joinstr/v2/payout_order" (Bytes.ofText id ++ script)
  payouts.insertionSort fun a b => a.2 > b.2 ∨ a.2 = b.2 ∧ key a.1 ≤ key b.1

/-- The funding's inputs and outputs, each in the order of its tagged hash. -/
def fundingTx (P : Primitives) (id : String) (lockTime : Nat) (members : List Member)
    (pool : TxOut) : Transaction :=
  let points := members.flatMap fun mb => mb.inputs.map Prod.fst
  let outputs := pool :: members.filterMap Member.change
  { version := 2, lockTime,
    input := (sortByDigest
      (fun op => P.tagged "joinstr/v2/input_order" (Bytes.ofText id ++ op.serialize)) points).map
        txin,
    output := sortByDigest
      (fun o => P.tagged "joinstr/v2/output_order" (Bytes.ofText id ++ o.serialize)) outputs }

theorem inputs_fundingTx {P : Primitives} {id : String} {members : List Member} (lockTime : Nat)
    (pool : TxOut) :
    ((fundingTx P id lockTime members pool).input.map TxIn.previousOutput).Perm
      ((members.flatMap Member.inputs).map Prod.fst) := by
  have same : (fundingTx P id lockTime members pool).input.map TxIn.previousOutput =
      sortByDigest (fun op => P.tagged "joinstr/v2/input_order" (Bytes.ofText id ++ op.serialize))
        (members.flatMap fun mb => mb.inputs.map Prod.fst) := by
    rw [fundingTx, map_map]
    exact map_id' _
  rw [same, map_flatMap]
  exact perm_sortByDigest _ _

/-- The P2TR script of pool output `index`. -/
def poolScript (P : Primitives) (musigKeys : List Point) (index : Nat) : Except String Script := do
  ensure (musigKeys ≠ []) "no keys"
  ensure (musigKeys.all P.validPoint) "bad musig key"
  let ctx ← (P.keyAggContext (musigKeys.insertionSort (· ≤ ·))).mapError fun e =>
    s!"key aggregation: {e}"
  let child0 ← P.ckdPub ⟨P.aggregatedPubkey ctx, bip328ChainCode⟩ 0
  let child ← P.ckdPub child0 index
  let tweaked ← context (P.tapTweak (xOnly child.publicKey)) "Tap tweak failed"
  return [0x51, 0x20] ++ Bytes.of256 tweaked

def rederive (P : Primitives) (id : String) (denomination feeRateMilli : Nat)
    (members : List Member) (payouts : List (Script × Nat)) (myTip : Nat) :
    Except String Rederived := do
  let n := members.length
  ensure (3 ≤ n ∧ n ≤ 6) "a LiJ pool has 3 to 6 members"
  ensure (payouts.length = n) s!"{payouts.length} payouts for {n} members"
  let plan := defaultPlan n
  let m := plan.length
  let fees ← exitFees plan feeRateMilli
  let share ← exitShare n feeRateMilli
  let each ← context (Word.checkedAdd64 denomination share) "overflow"
  let first ← context (Word.checkedMul64 each n) "overflow"
  let pools ← poolValues denomination ((plan.zip fees).dropLast) first
  let lastFee ← context
    (Word.checkedSub (pools.getD (m - 1) 0) (Word.mul64 (plan.getD (m - 1) 0) denomination))
    "the final exit runs out"
  ensure (lastFee ≥ fees.getD (m - 1) 0) "the final exit pays less than its fee"
  members.zipIdx.forM fun (mb, i) => memberCovers denomination n feeRateMilli i mb
  let poolScripts ← (range m).mapM fun i => poolScript P (members.map Member.musig) i
  let h ← context (members.map Member.height).min? "no members"
  ensure (Word.saturatingAdd32 h maxLocktimeLag ≥ myTip)
    s!"the locktime is more than {maxLocktimeLag} blocks behind"
  let lockTime ← context (lockTimeFromHeight h) "bad locktime"
  let script := poolScripts.getD 0 []
  let funding := fundingTx P id lockTime members ⟨pools.getD 0 0, script⟩
  let poolVout ← context (funding.output.findIdx? fun o => o.scriptPubkey == script)
    "pool output"
  let order := payoutOrder P id payouts
  let exits ← exitChain P { id, denomination, lockTime, count := m, pools, poolScripts } plan 1
    ⟨P.computeTxid funding, poolVout⟩ order
  return { funding, poolVout, exits, pools, exitShare := share, poolScripts }

/-! ## Checks before signing -/

/-- No payout equals a pool, change or input script, and none is registered twice;
no change equals a pool script. -/
def scriptsApart (r : Rederived) (members : List Member) (payouts : List Script) :
    Except String Unit := do
  let changes := members.filterMap fun m => m.change.map TxOut.scriptPubkey
  let inputs := members.flatMap fun m => m.inputs.map fun (_, o) => o.scriptPubkey
  payouts.zipIdx.forM fun (p, i) => do
    ensure (p ∉ payouts.take i) "a payout is registered twice"
    ensure (p ∉ r.poolScripts) "a payout equals a pool output's script"
    ensure (p ∉ changes) "a payout equals a change script"
    ensure (p ∉ inputs) "a payout equals an input's script"
  changes.forM fun c => ensure (c ∉ r.poolScripts) "a change equals a pool output's script"

def sameAsRederived (built : PoolTxs) (r : Rederived) : Except String Unit := do
  ensure (built.funding = r.funding) "the funding transaction differs from the re-derivation"
  ensure (built.poolVout = r.poolVout) "the pool output's place differs"
  ensure (built.exits.length = r.exits.length)
    s!"{built.exits.length} exits, re-derived {r.exits.length}"
  (built.exits.zip r.exits).zipIdx.forM fun ((a, b), k) =>
    ensure (a = b) s!"exit {k + 1} differs from the re-derivation"
  built.funding.input.forM fun i => ensure (i.scriptSig = []) "a funding input has a script sig"

/-- This phone's payout is paid exactly once, by exactly the denomination. -/
def myPayoutOnce (exits : List Transaction) (mine : Script) (denomination : Nat) :
    Except String Unit := do
  let hits := ((exits.flatMap Transaction.output).filter fun o => o.scriptPubkey = mine).map
    TxOut.value
  ensure (hits.length = 1) s!"my payout appears {hits.length} times"
  ensure (hits.getD 0 0 = denomination)
    s!"my payout is {hits.getD 0 0} sats, not {denomination}"

/-- This phone's own inputs and change are in the funding as registered. -/
def mineInFunding (funding : Transaction) (me : Member) : Except String Unit := do
  me.inputs.forM fun (op, _) =>
    ensure ((funding.input.filter fun i => i.previousOutput = op).length = 1)
      (s!"my input {op.txid.text}:" ++ s!"{op.vout} is not in the funding once")
  match me.change with
  | some c =>
    ensure ((funding.output.filter fun o => o = c).length = 1)
      "my change is not in the funding exactly once"
  | none => return ()

end Lij.Tatara
