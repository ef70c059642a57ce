import Lij.Tatara.Instance
import Lij.Tatara.Records

/-!
# The chain decides a record

What the ledger says of a record's coins and of its payout, in the terms of the
chain: which transaction spent a coin and in which block, which output of the
exits pays the record, and in which block it is. A record is wiped when its payout
is deep enough, or when the funding took none of its coins and some coin went
elsewhere that deep; its exits are sent while the funding took a coin and the
payout is not that deep.

The code keeps only the lowest block in which a coin went elsewhere. That is the
deepest one unless it is block 0, which stands for "not yet".
-/

namespace Lij.Tatara

open Bitcoin Joinstr Checked Tier2 List

/-! ## What the ledger says -/

/-- The ledger has this coin as spent, in this block and by this transaction. -/
def SpentBy (view : Tier2View) (op : OutPoint) (height : Nat) (txid : Txid) : Prop :=
  ∃ u ∈ view.utxos, u.outpoint = op ∧ u.spentHeight = some height ∧ u.spentTxid = some txid

/-- From this block on, itself counted, the ledger has scanned `settleDepth` blocks. -/
def Deep (view : Tier2View) (height : Nat) : Prop :=
  0 < height ∧ height + settleDepth ≤ view.cursor.scannedTo + 1

variable (P : Primitives) (r : StoredRecord) (view : Tier2View)
  (outsideDepth : Txid → Option Nat)

/-- The funding spent one of the record's coins. -/
def Funded : Prop :=
  ∃ funding, r.fundingHex = .ok funding ∧
    ∃ op ∈ r.inputs, ∃ height, SpentBy view op height (P.computeTxid funding)

/-- Of the outputs of the record's exits, in signing order, the first that pays the record's
script. -/
def Payout (exit : Transaction) (vout : Nat) : Prop :=
  ∃ spk before later, r.payoutSpkHex = .ok spk ∧
    r.exitsHex = (before ++ exit :: later).map .ok ∧
    (∀ tx ∈ before, ∀ out ∈ tx.output, out.scriptPubkey ≠ spk) ∧
    (∃ out, exit.output[vout]? = some out ∧ out.scriptPubkey = spk) ∧
    ∀ i < vout, ∀ out, exit.output[i]? = some out → out.scriptPubkey ≠ spk

/-- The record's payout is settled: the ledger has the output deep enough as a coin of the
wallet's own, or the exit that pays another wallet is answered to be that deep. -/
def Settled : Prop :=
  ∃ exit vout, Payout r exit vout ∧
    (∀ i, r.payoutIndex = some i → ∃ u ∈ view.utxos, u.chain = chainBip86 ∧ u.index = i ∧
      u.outpoint = ⟨P.computeTxid exit, vout⟩ ∧ Deep view u.height) ∧
    (r.payoutIndex = none → ∃ d, outsideDepth (P.computeTxid exit) = some d ∧ settleDepth ≤ d)

/-- None of the record's coins was spent by the funding, and one was spent by another transaction
deep enough. -/
def WentElsewhere : Prop :=
  ∃ funding, r.fundingHex = .ok funding ∧
    (∀ op ∈ r.inputs, ∀ height, ¬SpentBy view op height (P.computeTxid funding)) ∧
    ∃ op ∈ r.inputs, ∃ height txid, SpentBy view op height txid ∧ Deep view height

/-- The ledger lists a coin once, and the record's coins as spent in blocks after the first. -/
structure Sane : Prop where
  once : (view.utxos.map OnchainUtxo.outpoint).Nodup
  later : ∀ op ∈ r.inputs, ∀ height txid, SpentBy view op height txid → 0 < height

/-! ## What the code reads -/

variable {P r view outsideDepth}

theorem funding_eq_ok {funding : Transaction} :
    r.funding = .ok funding ↔ r.fundingHex = .ok funding := by
  rw [StoredRecord.funding, mapError_eq_ok]

theorem settleDepth_le_depth {height : Nat} :
    settleDepth ≤ depth view.cursor.scannedTo height ↔ Deep view height := by
  unfold depth Deep settleDepth
  split <;> omega

/-- In a ledger that lists a coin once, a search for its outpoint finds any coin it accepts. -/
theorem find?_eq_some_of_once (once : (view.utxos.map OnchainUtxo.outpoint).Nodup) {op : OutPoint}
    {accepts : OnchainUtxo → Bool} (places : ∀ u, accepts u = true → u.outpoint = op)
    {u : OnchainUtxo} :
    view.utxos.find? accepts = some u ↔ u ∈ view.utxos ∧ accepts u = true := by
  constructor
  · exact fun found => ⟨mem_of_find?_eq_some found, find?_some found⟩
  · rintro ⟨member, accepted⟩
    obtain ⟨v, found⟩ := Option.isSome_iff_exists.mp (find?_isSome.mpr ⟨u, member, accepted⟩)
    rw [found, inj_on_of_nodup_map once (mem_of_find?_eq_some found) member
      ((places v (find?_some found)).trans (places u accepted).symm)]

theorem mem_spends (once : (view.utxos.map OnchainUtxo.outpoint).Nodup) {height : Nat}
    {txid : Txid} :
    (height, txid) ∈ spends r view ↔ ∃ op ∈ r.inputs, SpentBy view op height txid := by
  unfold spends SpentBy
  rw [mem_filterMap]
  refine exists_congr fun op => and_congr_right fun _ => ?_
  have found : ∀ u, (view.utxos.find? fun u => u.outpoint = op) = some u ↔
      u ∈ view.utxos ∧ u.outpoint = op := by
    intro u
    rw [find?_eq_some_of_once once fun _ => of_decide_eq_true, decide_eq_true_iff]
  simp [Option.bind_eq_some_iff, found, and_assoc]

theorem funded_iff (once : (view.utxos.map OnchainUtxo.outpoint).Nodup) {funding : Transaction}
    (read : r.fundingHex = .ok funding) :
    Funded P r view ↔ ((spends r view).any fun s => s.2 = P.computeTxid funding) = true := by
  rw [any_eq_true]
  constructor
  · rintro ⟨other, read', op, member, height, spent⟩
    cases Except.ok.inj (read.symm.trans read')
    exact ⟨(height, _), (mem_spends once).mpr ⟨op, member, spent⟩, decide_eq_true rfl⟩
  · rintro ⟨⟨height, txid⟩, listed, same⟩
    obtain ⟨op, member, spent⟩ := (mem_spends once).mp listed
    cases of_decide_eq_true same
    exact ⟨funding, read, op, member, height, spent⟩

theorem exits_eq_ok {exits : List Transaction} :
    r.exits = .ok exits ↔ r.exitsHex = exits.map .ok := by
  rw [StoredRecord.exits, mapM_eq_ok]
  simp only [mapError_eq_ok]
  rw [← forall₂_eq_eq_eq, forall₂_map_right_iff]

/-- The search through the exits finds the payout. -/
theorem myExit_eq_ok {exit : Transaction} {vout : Nat} :
    r.myExit = .ok (exit, vout) ↔ Payout r exit vout := by
  simp only [StoredRecord.myExit, bind_eq_ok, mapError_eq_ok, exits_eq_ok, context_eq_ok,
    findSome?_eq_some_iff, Option.map_eq_none_iff, findIdx?_eq_none_iff, Option.map_eq_some_iff,
    findIdx?_eq_some_iff_getElem, Prod.mk.injEq, beq_iff_eq, beq_eq_false_iff_ne]
  constructor
  · rintro ⟨spk, isSpk, exits, isExits, before, tx, later, rfl,
      ⟨v, ⟨inside, pays, first⟩, rfl, rfl⟩,
      none⟩
    refine ⟨spk, before, later, isSpk, isExits, none, ⟨_, getElem?_eq_getElem inside, pays⟩,
      fun i earlier out isOut => ?_⟩
    obtain ⟨_, rfl⟩ := List.getElem?_eq_some_iff.mp isOut
    exact first i earlier
  · rintro ⟨spk, before, later, isSpk, isExits, none, ⟨out, isOut, pays⟩, first⟩
    obtain ⟨inside, rfl⟩ := List.getElem?_eq_some_iff.mp isOut
    exact ⟨spk, isSpk, _, isExits, before, exit, later, rfl,
      ⟨vout, ⟨inside, pays, fun i earlier =>
        first i earlier _ (getElem?_eq_getElem (earlier.trans inside))⟩, rfl, rfl⟩, none⟩

theorem settled_iff (once : (view.utxos.map OnchainUtxo.outpoint).Nodup) {exit : Transaction}
    {vout : Nat} (isExit : r.myExit = .ok (exit, vout)) :
    Settled P r view outsideDepth ↔
      settleDepth ≤ (paidDepth P r view outsideDepth exit vout).getD 0 := by
  have only : Settled P r view outsideDepth ↔
      (∀ i, r.payoutIndex = some i → ∃ u ∈ view.utxos, u.chain = chainBip86 ∧ u.index = i ∧
        u.outpoint = ⟨P.computeTxid exit, vout⟩ ∧ Deep view u.height) ∧
      (r.payoutIndex = none →
        ∃ d, outsideDepth (P.computeTxid exit) = some d ∧ settleDepth ≤ d) := by
    constructor
    · rintro ⟨exit', vout', payout, deep⟩
      cases Except.ok.inj (isExit.symm.trans (myExit_eq_ok.mpr payout))
      exact deep
    · exact fun deep => ⟨exit, vout, myExit_eq_ok.mp isExit, deep⟩
  have positive : ¬settleDepth ≤ 0 := by decide
  rw [only, paidDepth]
  cases r.payoutIndex with
  | none =>
    simp only [reduceCtorEq, false_implies, implies_true, true_and, forall_const]
    cases outsideDepth (P.computeTxid exit) <;> simp [positive]
  | some i =>
    simp only [Option.some.injEq, forall_eq', reduceCtorEq, false_implies, and_true]
    have found : ∀ u, (view.utxos.find? fun u => u.chain = chainBip86 ∧ u.index = i ∧
        u.outpoint = ⟨P.computeTxid exit, vout⟩) = some u ↔ u ∈ view.utxos ∧
          (u.chain = chainBip86 ∧ u.index = i) ∧ u.outpoint = ⟨P.computeTxid exit, vout⟩ := by
      intro u
      rw [find?_eq_some_of_once once fun _ found => (of_decide_eq_true found).2.2,
        decide_eq_true_iff, and_assoc]
    cases isCoin : view.utxos.find? fun u => u.chain = chainBip86 ∧ u.index = i ∧
        u.outpoint = ⟨P.computeTxid exit, vout⟩ with
    | none =>
      simp only [Option.map_none, Option.getD_none, positive, iff_false]
      rintro ⟨u, member, chain, index, place, _⟩
      cases isCoin.symm.trans ((found u).mpr ⟨member, ⟨chain, index⟩, place⟩)
    | some u =>
      simp only [Option.map_some, Option.getD_some, settleDepth_le_depth]
      constructor
      · rintro ⟨v, member, chain, index, place, deep⟩
        cases isCoin.symm.trans ((found v).mpr ⟨member, ⟨chain, index⟩, place⟩)
        exact deep
      · intro deep
        obtain ⟨member, ⟨chain, index⟩, place⟩ := (found u).mp isCoin
        exact ⟨u, member, chain, index, place, deep⟩

/-- The lowest block is the deepest spend. -/
theorem deepest_spend (sane : Sane r view) :
    (∃ height, ((spends r view).map Prod.fst).min? = some height ∧ Deep view height) ↔
    ∃ op ∈ r.inputs, ∃ height txid, SpentBy view op height txid ∧ Deep view height := by
  constructor
  · rintro ⟨height, isMin, deep⟩
    obtain ⟨⟨_, txid⟩, listed, rfl⟩ := mem_map.mp (min?_mem isMin)
    obtain ⟨op, member, spent⟩ := (mem_spends sane.once).mp listed
    exact ⟨op, member, _, txid, spent, deep⟩
  · rintro ⟨op, member, height, txid, spent, deep⟩
    have listed := mem_map_of_mem (f := Prod.fst) ((mem_spends sane.once).mpr ⟨op, member, spent⟩)
    cases isMin : ((spends r view).map Prod.fst).min? with
    | none =>
      rw [min?_eq_none_iff] at isMin
      rw [isMin] at listed
      cases listed
    | some lowest =>
      obtain ⟨⟨_, txid'⟩, inSpends, rfl⟩ := mem_map.mp (min?_mem isMin)
      obtain ⟨op', member', spent'⟩ := (mem_spends sane.once).mp inSpends
      have least := (le_min?_iff isMin).mp (Nat.le_refl _) height listed
      have later := sane.later op' member' _ txid' spent'
      exact ⟨_, rfl, later, (Nat.add_le_add_right least _).trans deep.2⟩

/-- What the code decides, in these terms. -/
theorem duty_eq_ok (sane : Sane r view) {result : Duty} :
    duty P r view outsideDepth = .ok result ↔ ∃ funding, r.fundingHex = .ok funding ∧
      (Funded P r view ∧ (∃ exit vout, Payout r exit vout) ∧
          ((Settled P r view outsideDepth ∧
              result = .wipe "settled: the payout is 6 blocks deep") ∨
            (¬Settled P r view outsideDepth ∧ result = .sendExits r.exitsHex)) ∨
        ¬Funded P r view ∧
          ((WentElsewhere P r view ∧ result = .wipe
              "settled: the coin went elsewhere, 6 blocks deep — this pool can never use it") ∨
            (¬WentElsewhere P r view ∧ result = .watch))) := by
  rw [duty, bind_eq_ok]
  simp only [funding_eq_ok]
  refine exists_congr fun funding => and_congr_right fun read => ?_
  have taken := funded_iff (P := P) sane.once read
  by_cases funded : Funded P r view
  · rw [if_pos (taken.mp funded), bind_eq_ok, Prod.exists]
    simp only [funded, not_true_eq_false, false_and, or_false, true_and]
    constructor
    · rintro ⟨exit, vout, isExit, rest⟩
      refine ⟨⟨exit, vout, myExit_eq_ok.mp isExit⟩, ?_⟩
      rw [settled_iff sane.once isExit]
      split at rest
      · exact .inl ⟨‹_›, (pure_eq_ok.mp rest).symm⟩
      · exact .inr ⟨‹_›, (pure_eq_ok.mp rest).symm⟩
    · rintro ⟨⟨exit, vout, payout⟩, verdict⟩
      have isExit := myExit_eq_ok.mpr payout
      refine ⟨exit, vout, isExit, ?_⟩
      rw [settled_iff sane.once isExit] at verdict
      obtain ⟨deep, rfl⟩ | ⟨shallow, rfl⟩ := verdict
      · exact if_pos deep
      · exact if_neg shallow
  · have elsewhere : WentElsewhere P r view ↔
        ∃ height, ((spends r view).map Prod.fst).min? = some height ∧ Deep view height := by
      rw [deepest_spend sane]
      exact ⟨fun ⟨_, _, _, spent⟩ => spent, fun spent => ⟨funding, read,
        fun op member height spends => funded ⟨funding, read, op, member, height, spends⟩, spent⟩⟩
    rw [if_neg (taken.not.mp funded), elsewhere]
    simp only [funded, false_and, false_or, not_false_eq_true, true_and]
    cases ((spends r view).map Prod.fst).min? with
    | none => simp [pure_eq_ok, eq_comm (b := result)]
    | some height =>
      simp only [Option.some.injEq, exists_eq_left']
      split
      · next deep => simp [settleDepth_le_depth.mp deep, pure_eq_ok, eq_comm (b := result)]
      · next shallow =>
        simp [settleDepth_le_depth.not.mp shallow, pure_eq_ok, eq_comm (b := result)]

theorem Funded.read (funded : Funded P r view) : ∃ funding, r.fundingHex = .ok funding := by
  obtain ⟨funding, read, _⟩ := funded
  exact ⟨funding, read⟩

theorem WentElsewhere.read (went : WentElsewhere P r view) :
    (∃ funding, r.fundingHex = .ok funding) ∧ ¬Funded P r view := by
  obtain ⟨funding, isRead, none, _⟩ := went
  refine ⟨⟨funding, isRead⟩, ?_⟩
  rintro ⟨other, isRead', op, member, height, spent⟩
  cases Except.ok.inj (isRead.symm.trans isRead')
  exact none op member height spent

/-- When a record is wiped. -/
theorem wipe_iff (sane : Sane r view) :
    (∃ why, duty P r view outsideDepth = .ok (.wipe why)) ↔
      (Funded P r view ∧ Settled P r view outsideDepth) ∨ WentElsewhere P r view := by
  simp only [duty_eq_ok sane]
  constructor
  · rintro ⟨why, funding, read, ⟨funded, _, ⟨settled, _⟩ | ⟨_, sends⟩⟩ |
      ⟨_, ⟨went, _⟩ | ⟨_, watch⟩⟩⟩
    · exact .inl ⟨funded, settled⟩
    · cases sends
    · exact .inr went
    · cases watch
  · rintro (⟨funded, settled⟩ | went)
    · obtain ⟨funding, read⟩ := funded.read
      obtain ⟨exit, vout, payout, _⟩ := id settled
      exact ⟨_, funding, read, .inl ⟨funded, ⟨exit, vout, payout⟩, .inl ⟨settled, rfl⟩⟩⟩
    · obtain ⟨⟨funding, read⟩, unfunded⟩ := went.read
      exact ⟨_, funding, read, .inr ⟨unfunded, .inl ⟨went, rfl⟩⟩⟩

/-- When a record's exits are sent. -/
theorem sendExits_iff (sane : Sane r view) {exits : List (Except String Transaction)} :
    duty P r view outsideDepth = .ok (.sendExits exits) ↔ exits = r.exitsHex ∧
      Funded P r view ∧ (∃ exit vout, Payout r exit vout) ∧ ¬Settled P r view outsideDepth := by
  rw [duty_eq_ok sane]
  constructor
  · rintro ⟨funding, read, ⟨funded, payout, ⟨_, wiped⟩ | ⟨shallow, sends⟩⟩ |
      ⟨_, ⟨_, wiped⟩ | ⟨_, watch⟩⟩⟩
    · cases wiped
    · cases sends
      exact ⟨rfl, funded, payout, shallow⟩
    · cases wiped
    · cases watch
  · rintro ⟨rfl, funded, payout, shallow⟩
    obtain ⟨funding, read⟩ := funded.read
    exact ⟨funding, read, .inl ⟨funded, payout, .inr ⟨shallow, rfl⟩⟩⟩

/-! ## A higher tip -/

/-- The view when more blocks have been scanned and nothing of the record was in them. -/
def withTip (view : Tier2View) (tip : Nat) : Tier2View :=
  { view with cursor := { view.cursor with scannedTo := tip } }

/-- Answers that are at least as deep. -/
def Deeper (outsideDepth outsideDepth' : Txid → Option Nat) : Prop :=
  ∀ txid d, outsideDepth txid = some d → ∃ d', outsideDepth' txid = some d' ∧ d ≤ d'

variable {tip : Nat} {outsideDepth' : Txid → Option Nat}

theorem Deep.withTip {height : Nat} (deep : Deep view height)
    (higher : view.cursor.scannedTo ≤ tip) : Deep (withTip view tip) height :=
  ⟨deep.1, deep.2.trans (Nat.add_le_add_right higher 1)⟩

theorem Settled.deeper (settled : Settled P r view outsideDepth)
    (higher : view.cursor.scannedTo ≤ tip) (deeper : Deeper outsideDepth outsideDepth') :
    Settled P r (withTip view tip) outsideDepth' := by
  obtain ⟨exit, vout, payout, own, outside⟩ := settled
  refine ⟨exit, vout, payout, fun i isIndex => ?_, fun none => ?_⟩
  · obtain ⟨u, member, chain, index, place, deep⟩ := own i isIndex
    exact ⟨u, member, chain, index, place, deep.withTip higher⟩
  · obtain ⟨d, answer, deep⟩ := outside none
    obtain ⟨d', answer', le⟩ := deeper _ d answer
    exact ⟨d', answer', deep.trans le⟩

theorem WentElsewhere.deeper (went : WentElsewhere P r view)
    (higher : view.cursor.scannedTo ≤ tip) : WentElsewhere P r (withTip view tip) := by
  obtain ⟨funding, isRead, none, op, member, height, txid, spent, deep⟩ := went
  exact ⟨funding, isRead, none, op, member, height, txid, spent, deep.withTip higher⟩

/-- The chain decides a record: it is wiped exactly when the funding took a coin and its payout
is settled, or the funding took none and a coin went elsewhere deep enough; its exits are sent
exactly when the funding took a coin and the payout is not settled; and a higher tip leaves a wipe
a wipe. -/
theorem duty_decides (sane : Sane r view) :
    ((∃ why, duty P r view outsideDepth = .ok (.wipe why)) ↔
      (Funded P r view ∧ Settled P r view outsideDepth) ∨ WentElsewhere P r view) ∧
    (∀ exits, duty P r view outsideDepth = .ok (.sendExits exits) ↔ exits = r.exitsHex ∧
      Funded P r view ∧ (∃ exit vout, Payout r exit vout) ∧ ¬Settled P r view outsideDepth) ∧
    ∀ tip outsideDepth', view.cursor.scannedTo ≤ tip → Deeper outsideDepth outsideDepth' →
      (∃ why, duty P r view outsideDepth = .ok (.wipe why)) →
        ∃ why, duty P r (withTip view tip) outsideDepth' = .ok (.wipe why) := by
  refine ⟨wipe_iff sane, fun exits => sendExits_iff sane,
    fun tip outsideDepth' higher deeper wiped => ?_⟩
  have sane' : Sane r (withTip view tip) := ⟨sane.once, sane.later⟩
  refine (wipe_iff sane').mpr ?_
  rcases (wipe_iff sane).mp wiped with ⟨funded, settled⟩ | went
  · exact .inl ⟨funded, settled.deeper higher deeper⟩
  · exact .inr (went.deeper higher)

/-! ## Two coins, and a payout -/

namespace Sample

/-- A record of two coins. -/
def twoCoins : StoredRecord where
  id := "1"
  fundingHex := .ok ⟨2, 7, [], []⟩
  exitsHex := [.ok ⟨2, 8, [], [⟨500, [2]⟩, ⟨900, [1]⟩]⟩]
  payoutSpkHex := .ok [1]
  payoutIndex := some 4
  inputs := [⟨1, 0⟩, ⟨2, 0⟩]
  savedMs := 0
  changeSpkHex := none
  changeIndex := none
  channel := false
  rateSatVb := none
  isPublic := false

def coin (txid : Txid) (spentHeight : Nat) (spentTxid : Txid) : OnchainUtxo :=
  ⟨0, 0, txid, 0, 1000, 1, some spentHeight, some spentTxid, none, none⟩

/-- The coins were spent by another transaction in these blocks; the tip is 200. -/
def spentAt (first second : Nat) : Tier2View :=
  { Tier2View.empty with
    utxos := [coin 1 first 3, coin 2 second 3]
    cursor := { Tier2View.empty.cursor with scannedTo := 200 } }

/-- The funding spent a coin in block 190, and the payout came in block 195. -/
def paidOut (tip : Nat) : Tier2View :=
  { Tier2View.empty with
    utxos := [coin 1 190 (Instance.base.computeTxid ⟨2, 7, [], []⟩),
      ⟨chainBip86, 4, Instance.base.computeTxid ⟨2, 8, [], [⟨500, [2]⟩, ⟨900, [1]⟩]⟩, 1, 900, 195,
        none, none, none, none⟩]
    cursor := { Tier2View.empty.cursor with scannedTo := tip } }

end Sample

/-- Both coins went elsewhere, one of them deep: the record is wiped at every higher tip. Paid in
block 195, it sends its exits at block 199 and is wiped at block 200. -/
theorem duty_decides_twoCoins :
    (∃ why, duty Instance.base Sample.twoCoins (withTip (Sample.spentAt 100 199) 300)
        (fun _ => none) = .ok (.wipe why)) ∧
      Settled Instance.base Sample.twoCoins (Sample.paidOut 200) (fun _ => none) ∧
      ¬Settled Instance.base Sample.twoCoins (Sample.paidOut 199) fun _ => none := by
  have elsewhere : Sane Sample.twoCoins (Sample.spentAt 100 199) := by
    refine ⟨by decide, ?_⟩
    rintro op - height txid ⟨u, member, -, isHeight, -⟩
    simp only [Sample.spentAt, mem_cons, not_mem_nil, or_false] at member
    rcases member with rfl | rfl <;> cases isHeight <;> decide
  have paid : ∀ tip, Sane Sample.twoCoins (Sample.paidOut tip) := by
    refine fun tip => ⟨?_, ?_⟩
    · change (map OnchainUtxo.outpoint (Sample.paidOut 0).utxos).Nodup
      decide +kernel
    · rintro op - height txid ⟨u, member, -, isHeight, -⟩
      simp only [Sample.paidOut, mem_cons, not_mem_nil, or_false] at member
      rcases member with rfl | rfl <;> cases isHeight
      decide
  have wiped : duty Instance.base Sample.twoCoins (Sample.spentAt 100 199) (fun _ => none) =
      .ok (.wipe
        "settled: the coin went elsewhere, 6 blocks deep — this pool can never use it") := by
    decide +kernel
  have settled : duty Instance.base Sample.twoCoins (Sample.paidOut 200) (fun _ => none) =
      .ok (.wipe "settled: the payout is 6 blocks deep") := by decide +kernel
  obtain ⟨_, funded, _, shallow⟩ := ((duty_decides (paid 199)).2.1 Sample.twoCoins.exitsHex).mp
    (show duty Instance.base Sample.twoCoins (Sample.paidOut 199) (fun _ => none) = _ by
      decide +kernel)
  refine ⟨(duty_decides elsewhere).2.2 300 _ (by decide)
    (fun _ d isSome => ⟨d, isSome, le_rfl⟩) ⟨_, wiped⟩, ?_, shallow⟩
  obtain ⟨_, deep⟩ | went := (duty_decides (paid 200)).1.mp ⟨_, settled⟩
  · exact deep
  · have same : Funded Instance.base Sample.twoCoins (Sample.paidOut 200) := funded
    exact absurd same went.read.2

/-- A spend marked at block 0 hides the other coin's spend, which is deep. -/
theorem spend_at_zero_hides :
    duty Instance.base Sample.twoCoins (Sample.spentAt 0 100) (fun _ => none) = .ok .watch ∧
    settleDepth ≤ depth 200 100 := by
  decide +kernel

end Lij.Tatara
