import Lij.Foundation.Checked
import Lij.Foundation.Words
import Lij.Joinstr.Keys

/-!
# The vendored pool rules and builder

What joinstr itself computes for a pool: the fees and the exits' amounts, what a
registration must contribute, the checks on the registrations and the funding
and exits built from them. Its arithmetic is that of a release build, which
wraps; the limits `validate` sets keep every sum and product in range.

The exits are those of a chain. The wallet refuses a pool of any other structure
before it joins, so the trees and the exits in any order are left out.
-/

namespace Lij.Joinstr.Pool

open Bitcoin Checked Word List

def sharedWeight : Nat := 214
def txOverheadWeight : Nat := 42
def keyPathInputWeight : Nat := 230
def p2trOutputWeight : Nat := 172
def p2aOutputWeight : Nat := 52
def maxPeers : Nat := 100
def maxGroup : Nat := 250
def maxAnyOrder : Nat := 7
def anchorValue : Nat := 240
def sequenceNumber : Nat := 0xfffffffd
def maxMoneySat : Nat := 2100000000000000
def maxFeeRateMilli : Nat := 1000000
def maxInputsPerPeer : Nat := 100

def p2aScript : Script := [0x51, 0x02, 0x4e, 0x73]

def fee (weight rateMilli : Nat) : Nat := divCeil (mul64 weight rateMilli) 4000

def inputWeight (spk : Script) : Except String Nat :=
  if spk.isP2wpkh then .ok 272
  else if spk.isP2tr then .ok 230
  else .error "only P2WPKH and P2TR inputs are allowed"

/-! ## Dust -/

def isOpReturn (spk : Script) : Bool := spk.head? == some 0x6a

/-- A version, and one push of the rest. -/
def isWitnessProgram (spk : Script) : Bool :=
  decide (4 ≤ spk.length ∧ spk.length ≤ 42) &&
    (spk.getD 0 1 == 0x00 || decide (0x51 ≤ spk.getD 0 1 ∧ spk.getD 0 1 ≤ 0x60)) &&
    (spk.getD 1 0).toNat == spk.length - 2

/-- `minimal_non_dust`: three sats for each vbyte of the output and of the input that
spends it. -/
def dustLimit (spk : Script) : Nat :=
  let script := (compactSize spk.length).length + spk.length
  3000 * (if isOpReturn spk then 0
    else if isWitnessProgram spk then 32 + 4 + 1 + 107 / 4 + 4 + 8 + script
    else 32 + 4 + 1 + 107 + 4 + 8 + script) / 1000

/-! ## Exits and their amounts -/

/-- One payout per exit and two in the final exit. -/
def defaultExits (peers : Nat) : List Nat := replicate (peers - 2) 1 ++ [min peers 2]

structure ExitCost where
  payouts : Nat
  weight : Nat
  rateMilli : Nat
  fee : Nat
  deriving DecidableEq, Repr

structure ExitAmounts where
  payouts : List Nat
  weight : Nat
  rateMilli : Nat
  fee : Nat
  pool : Option Nat
  deriving DecidableEq, Repr

/-- An output of an exit before it has a script. -/
inductive PlanOut where
  | payout (position value : Nat)
  | pool (index value : Nat)
  deriving DecidableEq, Repr

structure ExitPlan where
  source : Nat
  outs : List PlanOut
  fee : Nat
  weight : Nat
  rateMilli : Nat
  depth : Nat
  deriving DecidableEq, Repr

structure ExitSet where
  plans : List ExitPlan
  pools : List Nat
  deriving DecidableEq, Repr

section Rules

variable (params : Params)

def anchor : Nat := if params.anchor then anchorValue else 0

/-- Linear from the first exit's rate to the last one's. -/
def exitRate (j : Nat) : Nat :=
  let m := params.exits.length
  if m = 1 then params.exitRatesMilli.1
  else add64 (mul64 params.exitRatesMilli.1 (m - 1 - j)) (mul64 params.exitRatesMilli.2 j) / (m - 1)

def exitCost (g j : Nat) : ExitCost :=
  let outputs := g + if j + 1 < params.exits.length then 1 else 0
  let weight := txOverheadWeight + keyPathInputWeight + p2trOutputWeight * outputs +
    if params.anchor then p2aOutputWeight else 0
  ⟨g, weight, exitRate params j, fee weight (exitRate params j)⟩

def exitCosts : List ExitCost := params.exits.zipIdx.map fun e => exitCost params e.1 e.2

/-- What every peer adds for the exits on top of its denomination. -/
def exitShare : Nat :=
  match params.feeSplit with
  | .equal =>
    divCeil (sum64 ((exitCosts params).map fun c => add64 c.fee (anchor params))) params.peers
  | .byExit => 0

def classOf (amount : Nat) : Option Class := params.classes.find? fun c => c.amount == amount

def validate : Except String Unit := do
  ensure (2 ≤ params.peers ∧ params.peers ≤ maxPeers) s!"peers must be from 2 to {maxPeers}"
  ensure (params.classes ≠ []) "no denomination"
  ensure (params.classes.length ≤ maxPeers) "too many denominations"
  ensure (∀ c ∈ params.classes, (1 ≤ c.peers ∧ c.peers ≤ maxPeers) ∧
    1 ≤ c.amount ∧ c.amount ≤ maxMoneySat) "a denomination is out of range"
  ensure (params.feeRateMilli ≤ maxFeeRateMilli ∧ params.exitRatesMilli.1 ≤ maxFeeRateMilli ∧
    params.exitRatesMilli.2 ≤ maxFeeRateMilli) s!"fee rate above {maxFeeRateMilli / 1000} sat/vB"
  ensure (params.exits.length ≤ maxPeers) "too many exits"
  ensure ((params.classes.map Class.peers).sum = params.peers)
    "the denominations must add up to the number of peers"
  ensure (params.classes.map Class.amount).Nodup "denominations must be different"
  ensure (params.classes.length > 1 → ∀ c ∈ params.classes, 2 ≤ c.peers)
    "every denomination needs at least 2 peers"
  ensure (params.feeRateMilli > 0) "fee rate must be positive"
  ensure (params.exitRatesMilli.1 > 0 ∧ params.exitRatesMilli.2 > 0)
    "exit fee rates must be positive"
  ensure (params.exits ≠ []) "no exits"
  ensure (∀ g ∈ params.exits, 1 ≤ g ∧ g ≤ maxGroup) s!"every exit pays 1 to {maxGroup} peers"
  ensure (params.exits.sum = params.peers) "the exits must pay every peer once"
  match params.exitStructure with
  | .chain => pure ()
  | .anyOrder => do
    ensure (3 ≤ params.peers ∧ params.peers ≤ maxAnyOrder)
      s!"a pool with exits in any order has 3 to {maxAnyOrder} peers"
    ensure (params.exits = defaultExits params.peers)
      "a pool with exits in any order pays one peer per exit"
  | .tree => do
    ensure (params.exits = defaultExits params.peers) "a tree has no exit groups"
    ensure (params.feeSplit = .equal) "in a tree every peer shares the fees"
  let worst := match params.feeSplit with
    | .equal => 0
    | .byExit => (((exitCosts params).map fun c =>
      divCeil (add64 c.fee (anchor params)) c.payouts).max?).getD 0
  ensure (((params.classes.map Class.amount).min?).getD 0 ≥ 330 + worst)
    "payouts would be below dust"

/-- What an exit pays the payouts it takes. -/
def paid (c : ExitCost) (group : List Nat) : List Nat :=
  group.map fun a => match params.feeSplit with
    | .equal => a
    | .byExit => a - divCeil (add64 c.fee (anchor params)) c.payouts

/-- The exits from the pool value `before` the first of them. The last one leaves no pool. -/
def exitAmounts : List ExitCost → Nat → List Nat → List ExitAmounts
  | [], _, _ => []
  | [c], before, ordered =>
    let payouts := paid params c (ordered.take c.payouts)
    [⟨payouts, c.weight, c.rateMilli, before - add64 (sum64 payouts) (anchor params), none⟩]
  | c :: next :: costs, before, ordered =>
    let payouts := paid params c (ordered.take c.payouts)
    let after := before - add64 (add64 (sum64 payouts) (anchor params)) c.fee
    ⟨payouts, c.weight, c.rateMilli, c.fee, some after⟩ ::
      exitAmounts (next :: costs) after (ordered.drop c.payouts)

/-- The exits' plans: payouts by their position, pool outputs by their index. -/
def chainPlans : List ExitAmounts → Nat → Nat → List ExitPlan
  | [], _, _ => []
  | e :: exits, j, first =>
    { source := j
      outs := (e.payouts.zipIdx first).map (fun v => .payout v.2 v.1) ++
        (e.pool.map (PlanOut.pool (j + 1))).toList
      fee := e.fee, weight := e.weight, rateMilli := e.rateMilli, depth := j } ::
      chainPlans exits (j + 1) (first + e.payouts.length)

/-- Every exit of a chain for payouts of these denominations. -/
def chainSet (ordered : List Nat) : ExitSet :=
  let first := sum64 (ordered.map fun a => add64 a (exitShare params))
  let exits := exitAmounts params (exitCosts params) first ordered
  ⟨chainPlans exits 0 0, first :: exits.filterMap ExitAmounts.pool⟩

/-! ## Registrations -/

def fundingFee (inputs : List TxOut) (change : Option TxOut) : Except String Nat := do
  let weights ← inputs.mapM fun i => inputWeight i.scriptPubkey
  let own := (change.map fun c => 4 * c.serialize.length).getD 0
  return fee (divCeil sharedWeight params.peers + weights.sum + own) params.feeRateMilli

/-- What a peer of denomination `amount` with these inputs and change must contribute. -/
def required (amount : Nat) (inputs : List TxOut) (change : Option TxOut) : Except String Nat := do
  let funding ← fundingFee params inputs change
  return add64 (add64 amount (exitShare params)) funding

def inputTotal (r : InputRegistration) : Nat := sum64 (r.inputs.map fun input => input.2.value)

def contribution (r : InputRegistration) : Nat :=
  sub64 (inputTotal r) ((r.change.map TxOut.value).getD 0)

/-- What the check has seen of the registrations before. -/
structure Seen where
  sessions : List SessionKey
  keys : List Point
  outpoints : List OutPoint
  scripts : List Script
  deriving DecidableEq, Repr

def pointText (op : OutPoint) : String := op.txid.text ++ ":" ++ toString op.vout

def checkInput (outpoints : List OutPoint) (input : OutPoint × TxOut) :
    Except String (List OutPoint) := do
  ensure (outpoints.contains input.1 = false) ("input " ++ pointText input.1 ++ " registered twice")
  ensure (input.2.value ≤ maxMoneySat)
    ("input " ++ pointText input.1 ++ " is larger than all bitcoin")
  let _ ← inputWeight input.2.scriptPubkey
  return input.1 :: outpoints

def checkChange (scripts : List Script) (r : InputRegistration) : Except String (List Script) :=
  match r.change with
  | some c => do
    ensure (c.value ≤ maxMoneySat) "change larger than all bitcoin"
    ensure (scripts.contains c.scriptPubkey = false) "duplicate change script"
    ensure (c.value ≥ dustLimit c.scriptPubkey) "dust change"
    ensure (c.value ≤ inputTotal r) "change larger than inputs"
    return c.scriptPubkey :: scripts
  | none => .ok scripts

def checkRegistration (seen : Seen) (r : InputRegistration) : Except String Seen := do
  ensure ((classOf params r.amount).isSome = true) s!"unknown denomination {r.amount}"
  ensure (seen.sessions.contains r.session = false) "duplicate session key"
  ensure (seen.keys.contains r.musig = false) "duplicate musig key"
  ensure ((r.musig :: seen.keys).contains r.ring = false) "duplicate ring key"
  ensure (r.inputs ≠ []) "registration without inputs"
  ensure (r.inputs.length ≤ maxInputsPerPeer) s!"more than {maxInputsPerPeer} inputs from one peer"
  let outpoints ← r.inputs.foldlM checkInput seen.outpoints
  let scripts ← checkChange seen.scripts r
  let need ← required params r.amount (r.inputs.map Prod.snd) r.change
  ensure (inputTotal r ≥ need ∧ contribution r ≥ need)
    (s!"a peer contributes {min (contribution r) (inputTotal r)} sats but must contribute " ++
      toString need)
  return ⟨r.session :: seen.sessions, r.ring :: r.musig :: seen.keys, outpoints, scripts⟩

/-- Checks that only need the registrations themselves. -/
def checkInputRegistrations (regs : List InputRegistration) : Except String Unit := do
  ensure (regs.length = params.peers) "wrong number of registrations"
  params.classes.forM fun c =>
    ensure ((regs.filter fun r => r.amount == c.amount).length = c.peers)
      (s!"denomination {c.amount} needs " ++ toString c.peers ++ " peers")
  let _ ← regs.foldlM (checkRegistration params) ⟨[], [], [], []⟩
  return ()

end Rules

/-! ## What the check of the registrations accepts -/

section Accepted

variable {params : Params} {seen seen' : Seen} {r : InputRegistration}

/-- What the check asks of a registration by itself. -/
structure Sound (params : Params) (r : InputRegistration) : Prop where
  known : (classOf params r.amount).isSome = true
  spends : r.inputs ≠ []
  few : r.inputs.length ≤ maxInputsPerPeer
  values : ∀ input ∈ r.inputs, input.2.value ≤ maxMoneySat
  weighs : ∀ input ∈ r.inputs, ∃ weight, inputWeight input.2.scriptPubkey = .ok weight
  change : ∀ c, r.change = some c → c.value ≤ maxMoneySat ∧ dustLimit c.scriptPubkey ≤ c.value ∧
    c.value ≤ inputTotal r
  covers : ∃ need, required params r.amount (r.inputs.map Prod.snd) r.change = .ok need ∧
    need ≤ inputTotal r ∧ need ≤ contribution r

/-- Nothing of the registration was seen before, nor is any of it there twice. -/
structure Fresh (seen : Seen) (r : InputRegistration) : Prop where
  session : r.session ∉ seen.sessions
  musig : r.musig ∉ seen.keys
  ring : r.ring ∉ r.musig :: seen.keys
  outpoints : ∀ input ∈ r.inputs, input.1 ∉ seen.outpoints
  apart : (r.inputs.map Prod.fst).Nodup
  script : ∀ c, r.change = some c → c.scriptPubkey ∉ seen.scripts

def Seen.push (seen : Seen) (r : InputRegistration) : Seen where
  sessions := r.session :: seen.sessions
  keys := r.ring :: r.musig :: seen.keys
  outpoints := (r.inputs.map Prod.fst).reverse ++ seen.outpoints
  scripts := (r.change.map TxOut.scriptPubkey).toList ++ seen.scripts

/-- No session, key, coin or change script is in the registrations twice. -/
def Apart : Seen → List InputRegistration → Prop
  | _, [] => True
  | seen, r :: regs => Fresh seen r ∧ Apart (seen.push r) regs

theorem required_eq_ok {amount need : Nat} {inputs : List TxOut} {change : Option TxOut} :
    required params amount inputs change = .ok need ↔ ∃ weights,
      (inputs.mapM fun i => inputWeight i.scriptPubkey) = .ok weights ∧
      need = add64 (add64 amount (exitShare params))
        (fee (divCeil sharedWeight params.peers + weights.sum +
          (change.map fun c => 4 * c.serialize.length).getD 0) params.feeRateMilli) := by
  constructor
  · intro ok
    obtain ⟨funding, paid, rest⟩ := bind_eq_ok.mp ok
    obtain ⟨weights, weighed, same⟩ := bind_eq_ok.mp paid
    cases pure_eq_ok.mp same
    exact ⟨weights, weighed, (pure_eq_ok.mp rest).symm⟩
  · rintro ⟨weights, weighed, rfl⟩
    exact bind_eq_ok.mpr ⟨_, bind_eq_ok.mpr ⟨weights, weighed, rfl⟩, rfl⟩

theorem contains_eq_false {α : Type} [BEq α] [LawfulBEq α] {xs : List α} {x : α} :
    xs.contains x = false ↔ x ∉ xs := by
  rw [← Bool.not_eq_true, contains_iff_mem]

theorem checkInput_eq_ok {input : OutPoint × TxOut} {before after : List OutPoint} :
    checkInput before input = .ok after ↔ input.1 ∉ before ∧ input.2.value ≤ maxMoneySat ∧
      (∃ weight, inputWeight input.2.scriptPubkey = .ok weight) ∧ after = input.1 :: before := by
  simp only [checkInput, bind_eq_ok, ensure_eq_ok, exists_const, pure_eq_ok, contains_eq_false]
  constructor
  · rintro ⟨unseen, money, weight, weighed, rfl⟩
    exact ⟨unseen, money, ⟨weight, weighed⟩, rfl⟩
  · rintro ⟨unseen, money, ⟨weight, weighed⟩, rfl⟩
    exact ⟨unseen, money, weight, weighed, rfl⟩

theorem checkInputs_eq_ok {inputs : List (OutPoint × TxOut)} {before after : List OutPoint} :
    inputs.foldlM checkInput before = .ok after ↔ (∀ input ∈ inputs, input.1 ∉ before) ∧
      (inputs.map Prod.fst).Nodup ∧ (∀ input ∈ inputs, input.2.value ≤ maxMoneySat) ∧
      (∀ input ∈ inputs, ∃ weight, inputWeight input.2.scriptPubkey = .ok weight) ∧
      after = (inputs.map Prod.fst).reverse ++ before := by
  induction inputs generalizing before with
  | nil =>
    rw [foldlM_nil, pure_eq_ok]
    simp [eq_comm]
  | cons input inputs ih =>
    rw [foldlM_cons, bind_eq_ok]
    constructor
    · rintro ⟨next, first, rest⟩
      obtain ⟨unseen, money, weighed, rfl⟩ := checkInput_eq_ok.mp first
      obtain ⟨others, nodup, values, weights, rfl⟩ := ih.mp rest
      refine ⟨?_, ?_, forall_mem_cons.mpr ⟨money, values⟩,
        forall_mem_cons.mpr ⟨weighed, weights⟩, by simp⟩
      · refine forall_mem_cons.mpr ⟨unseen, fun other member seen => ?_⟩
        exact others other member (mem_cons_of_mem _ seen)
      · rw [map_cons, nodup_cons]
        refine ⟨fun member => ?_, nodup⟩
        obtain ⟨other, inside, same⟩ := mem_map.mp member
        exact others other inside (same ▸ mem_cons_self)
    · rintro ⟨unseen, nodup, values, weights, rfl⟩
      rw [map_cons, nodup_cons] at nodup
      obtain ⟨unseenFirst, unseenRest⟩ := forall_mem_cons.mp unseen
      obtain ⟨money, values⟩ := forall_mem_cons.mp values
      obtain ⟨weighed, weights⟩ := forall_mem_cons.mp weights
      refine ⟨input.1 :: before, checkInput_eq_ok.mpr ⟨unseenFirst, money, weighed, rfl⟩,
        ih.mpr ⟨fun other member seen => ?_, nodup.2, values, weights, by simp⟩⟩
      rcases mem_cons.mp seen with same | seen
      · exact nodup.1 (mem_map.mpr ⟨other, member, same⟩)
      · exact unseenRest other member seen

theorem checkChange_eq_ok {before after : List Script} :
    checkChange before r = .ok after ↔
      (∀ c, r.change = some c → c.value ≤ maxMoneySat ∧ dustLimit c.scriptPubkey ≤ c.value ∧
        c.value ≤ inputTotal r) ∧
      (∀ c, r.change = some c → c.scriptPubkey ∉ before) ∧
      after = (r.change.map TxOut.scriptPubkey).toList ++ before := by
  unfold checkChange
  cases r.change with
  | none => simp [eq_comm]
  | some c =>
    simp only [bind_eq_ok, ensure_eq_ok, exists_const, pure_eq_ok, contains_eq_false]
    constructor
    · rintro ⟨money, unseen, dust, total, rfl⟩
      refine ⟨?_, ?_, rfl⟩
      · rintro _ ⟨⟩
        exact ⟨money, dust, total⟩
      · rintro _ ⟨⟩
        exact unseen
    · rintro ⟨values, unseen, rfl⟩
      obtain ⟨money, dust, total⟩ := values c rfl
      exact ⟨money, unseen c rfl, dust, total, rfl⟩

theorem checkRegistration_eq_ok :
    checkRegistration params seen r = .ok seen' ↔
      Sound params r ∧ Fresh seen r ∧ seen' = seen.push r := by
  simp only [checkRegistration, bind_eq_ok, ensure_eq_ok, exists_const, pure_eq_ok,
    checkInputs_eq_ok, checkChange_eq_ok, contains_eq_false]
  constructor
  · rintro ⟨known, session, musig, ring, spends, few, _, ⟨unseen, apart, values, weighs, rfl⟩, _,
      ⟨change, script, rfl⟩, need, needs, covers, rfl⟩
    exact ⟨⟨known, spends, few, values, weighs, change, need, needs, covers⟩,
      ⟨session, musig, ring, unseen, apart, script⟩, rfl⟩
  · rintro ⟨⟨known, spends, few, values, weighs, change, need, needs, covers⟩,
      ⟨session, musig, ring, unseen, apart, script⟩, rfl⟩
    exact ⟨known, session, musig, ring, spends, few, _, ⟨unseen, apart, values, weighs, rfl⟩, _,
      ⟨change, script, rfl⟩, need, needs, covers, rfl⟩

theorem checkRegistrations_eq_ok {regs : List InputRegistration} :
    (∃ seen', regs.foldlM (checkRegistration params) seen = .ok seen') ↔
      (∀ r ∈ regs, Sound params r) ∧ Apart seen regs := by
  induction regs generalizing seen with
  | nil => exact ⟨fun _ => ⟨nofun, trivial⟩, fun _ => ⟨seen, rfl⟩⟩
  | cons r regs ih =>
    simp only [foldlM_cons, bind_eq_ok, checkRegistration_eq_ok]
    constructor
    · rintro ⟨seen', _, ⟨sound, fresh, rfl⟩, rest⟩
      obtain ⟨others, apart⟩ := ih.mp ⟨seen', rest⟩
      exact ⟨forall_mem_cons.mpr ⟨sound, others⟩, fresh, apart⟩
    · rintro ⟨sound, fresh, apart⟩
      obtain ⟨first, others⟩ := forall_mem_cons.mp sound
      obtain ⟨seen', rest⟩ := ih.mpr ⟨others, apart⟩
      exact ⟨seen', _, ⟨first, fresh, rfl⟩, rest⟩

/-- The joint check accepts exactly the registrations that are sound one by one, have nothing
in common and fill the pool. -/
theorem checkInputRegistrations_eq_ok {regs : List InputRegistration} :
    checkInputRegistrations params regs = .ok () ↔ regs.length = params.peers ∧
      (∀ c ∈ params.classes, (regs.filter fun r => r.amount == c.amount).length = c.peers) ∧
      (∀ r ∈ regs, Sound params r) ∧ Apart ⟨[], [], [], []⟩ regs := by
  rw [checkInputRegistrations, ensure_bind_eq_ok]
  refine and_congr_right fun _ => ?_
  rw [← checkRegistrations_eq_ok, bind_eq_ok]
  constructor
  · rintro ⟨_, classes, rest⟩
    obtain ⟨seen', each, _⟩ := bind_eq_ok.mp rest
    exact ⟨fun c member => ensure_eq_ok.mp (forM_eq_ok.mp classes c member), seen', each⟩
  · rintro ⟨classes, seen', each⟩
    exact ⟨(), forM_eq_ok.mpr fun c member => ensure_eq_ok.mpr (classes c member),
      bind_eq_ok.mpr ⟨seen', each, rfl⟩⟩

end Accepted

/-! ## The builder -/

section Build

variable (P : Primitives)

def locktime (regs : List InputRegistration) : Nat :=
  ((regs.map InputRegistration.height).min?).getD 0

def orderKey (tag id : String) (data : Bytes) : Digest := P.tagged tag (Bytes.ofText id ++ data)

/-- Higher priority first, then the tagged hash of the script. -/
def payoutOrder (id : String) (payouts : List Payout) : List Payout :=
  payouts.insertionSort fun a b => a.priority > b.priority ∨ a.priority = b.priority ∧
    orderKey P "joinstr/v2/payout_order" id a.script ≤
      orderKey P "joinstr/v2/payout_order" id b.script

def txin (previousOutput : OutPoint) : TxIn :=
  { previousOutput, scriptSig := [], sequence := sequenceNumber, witness := [] }

/-- The script of pool output `index`: its output key, already tweaked. -/
def scriptPubkey (keys : PoolKeys) (index : Nat) : Except String Script :=
  (P.outputKey keys index).map fun key => [0x51, 0x20] ++ Bytes.of256 key

def planOutput (keys : PoolKeys) (order : List Script) : PlanOut → Except String TxOut
  | .payout position value => .ok ⟨value, order.getD position []⟩
  | .pool index value => (scriptPubkey P keys index).map fun spk => ⟨value, spk⟩

/-- The outputs of exit number `k`, in transaction order. -/
def exitOutputs (params : Params) (plan : ExitPlan) (keys : PoolKeys) (order : List Script)
    (k : Nat) : Except String (List TxOut) := do
  let planned ← plan.outs.mapM (planOutput P keys order)
  let outputs := planned ++ if params.anchor then [⟨anchorValue, p2aScript⟩] else []
  return outputs.insertionSort fun a b =>
    P.tagged "joinstr/v2/exit_output_order" (Bytes.ofText params.id ++ leBytes 4 k ++ a.serialize) ≤
    P.tagged "joinstr/v2/exit_output_order" (Bytes.ofText params.id ++ leBytes 4 k ++ b.serialize)

def voutOf (outputs : List TxOut) (spk : Script) : Except String Nat :=
  context (outputs.findIdx? fun o => o.scriptPubkey == spk) "planned output missing"

/-- Where one planned output ended up after sorting. -/
def linkOut (outputs : List TxOut) (keys : PoolKeys) (order : List Script) (link : ExitLink) :
    PlanOut → Except String ExitLink
  | .payout position _ => do
    let vout ← voutOf outputs (order.getD position [])
    return { link with pays := link.pays ++ [(position, vout)] }
  | .pool index _ => do
    let spk ← scriptPubkey P keys index
    let vout ← voutOf outputs spk
    return { link with creates := link.creates ++ [(index, vout)] }

def linkOf (plan : ExitPlan) (outputs : List TxOut) (keys : PoolKeys) (order : List Script) :
    Except String ExitLink :=
  plan.outs.foldlM (linkOut P outputs keys order) ⟨plan.source, [], [], plan.depth⟩

/-- The exits from exit `t` on, with every pool output created so far by its index. -/
def buildExits (params : Params) (keys : PoolKeys) (order : List Script) (lockTime : Nat) :
    List ExitPlan → Nat → List (Option (OutPoint × TxOut)) →
    Except String (List (Transaction × TxOut × ExitLink))
  | [], _, _ => .ok []
  | plan :: plans, t, created => do
    let spent ← context (created.getD plan.source none)
      "an exit spends a pool output that is not built yet"
    let output ← exitOutputs P params plan keys order (t + 1)
    let link ← linkOf P plan output keys order
    let tx : Transaction := { version := 2, lockTime, input := [txin spent.1], output }
    let created := link.creates.foldl (fun created made => created.set made.1
      (some (⟨P.computeTxid tx, made.2⟩, tx.output.getD made.2 ⟨0, []⟩))) created
    let rest ← buildExits params keys order lockTime plans (t + 1) created
    return (tx, spent.2, link) :: rest

/-- The funding: every coin and change, and the pool output, each in its tagged order. -/
def fundingTx (id : String) (lockTime : Nat) (inputs : List (OutPoint × TxOut))
    (outputs : List TxOut) : Transaction :=
  { version := 2, lockTime, input := inputs.map fun input => txin input.1,
    output := outputs.insertionSort fun a b =>
      orderKey P "joinstr/v2/output_order" id a.serialize ≤
        orderKey P "joinstr/v2/output_order" id b.serialize }

def build (params : Params) (regs : List InputRegistration) (payouts : List Payout)
    (keys : PoolKeys) : Except String PoolTxs := do
  ensure (regs.length = params.peers ∧ payouts.length = params.peers) "incomplete pool"
  let lockTime ← context (lockTimeFromHeight (locktime regs)) "locktime"
  let ordered := payoutOrder P params.id payouts
  let order := ordered.map Payout.script
  let set := chainSet params (ordered.map Payout.amount)
  let inputs := (regs.flatMap InputRegistration.inputs).insertionSort fun a b =>
    orderKey P "joinstr/v2/input_order" params.id a.1.serialize ≤
      orderKey P "joinstr/v2/input_order" params.id b.1.serialize
  let poolSpk ← scriptPubkey P keys 0
  let funding := fundingTx P params.id lockTime inputs
    (⟨set.pools.getD 0 0, poolSpk⟩ :: regs.filterMap InputRegistration.change)
  let poolVout := funding.output.findIdx fun o => o.scriptPubkey == poolSpk
  let created := (some (⟨P.computeTxid funding, poolVout⟩, funding.output.getD poolVout ⟨0, []⟩)) ::
    replicate (set.pools.length - 1) none
  let built ← buildExits P params keys order lockTime set.plans 0 created
  return { funding, fundingPrevouts := inputs.map Prod.snd, poolVout
           exits := built.map fun x => x.1, spent := built.map fun x => x.2.1
           links := built.map fun x => x.2.2, payouts := order
           payoutAmounts := ordered.map Payout.amount }

end Build

end Lij.Joinstr.Pool
