import Lij.Node.PayEndings
import Lij.Tier2.Pending

/-!
# The addresses a pool was shown

A pool's funding gets a change address of the wallet, and a payout a receive
address; both are marked when they are handed out, so that a pool that stops has
used them up as well. Sends and channel opens take their change past those
marks. A quote of an on-chain pay takes its reserve's return address from the
same branch by another rule: past the ledger, the pending sends and the other
reserves, but not past the pools' marks; and the marked rule does not look at
the reserves. The marks hold other entries as well: a silent-payment scan loads
them, waits for the provider and may write its copy back, and the note of a send
writes them anew when they cannot be read.

Here every feature that takes an index is a step, a sync may change the ledger
and the pending sends in any way, and the log keeps what was handed out, newest
first. An index derives a key, so it is below `2 ^ 31` and one more than it does
not overflow.
-/

namespace Lij.Tatara.Addresses

open Bitcoin Checked Tier2 Folds Node.OnchainPay List

/-! ## The code -/

/-- The indexes handed to pools: as payouts, and as the funding's change. -/
structure Marks where
  mixExits : Finset Nat
  mixChange : Finset Nat

/-- One past the highest index, 0 when there is none. -/
def nextAfter (indexes : Finset Nat) : Nat := indexes.sup Nat.succ

/-- One past the highest index of the chain in the ledger and, for change, on a send still
confirming. -/
def nextIndexForChain (view : Tier2View) (pending : List PendingTx) (chain : Nat) : Nat :=
  let viewMax := ((view.utxos.filter fun u => u.chain = chain).map OnchainUtxo.index).max?
  let pendingMax :=
    if chain = chainChange then
      ((pending.filter fun p => p.changeValueSats > 0).map PendingTx.changeIndex).max?
    else none
  let used := view.usedNext[chain]?.getD 0
  max (((viewMax.toList ++ pendingMax.toList).max?.map Nat.succ).getD 0) used

def nextChangeIndex (view : Tier2View) (pending : List PendingTx) : Nat :=
  nextIndexForChain view pending chainChange

/-- Past every index a pool's funding was given as well. -/
def nextChangeIndexMarked (view : Tier2View) (pending : List PendingTx) (marks : Marks) : Nat :=
  max (nextChangeIndex view pending) (nextAfter marks.mixChange)

def nextTrReceiveIndex (view : Tier2View) (marks : Marks) : Nat :=
  max (nextIndexForChain view [] chainBip86) (nextAfter marks.mixExits)

def trWidthDiv : Nat := 5

def netWidth : Nat := 2500

def netWidenMargin : Nat := 100

def branchWidth (chain width : Nat) : Nat :=
  if (bip86Branch chain).isSome then max (width / trWidthDiv) 1 else width

/-- The highest payout index: inside the net that a restore from the words alone watches. -/
def payoutIndexMax : Nat :=
  branchWidth chainBip86 netWidth - max (netWidenMargin / trWidthDiv) 1 - 1

/-- Where a pool's payout goes; another wallet's address is checked first. -/
inductive PayoutChoice where
  | thisWallet
  | outside (accepted : Bool)

def nextPayout (view : Tier2View) (marks : Marks) : Except String (Nat × Marks) := do
  let i := nextTrReceiveIndex view marks
  let most := payoutIndexMax + 1
  ensure (i ≤ payoutIndexMax)
    (s!"this wallet has used the {most} Mix addresses a restore from its 12 words is sure to " ++
      "find — it cannot take another pool's payout")
  return (i, { marks with mixExits := insert i marks.mixExits })

def payoutFor (view : Tier2View) (marks : Marks) :
    PayoutChoice → Except String (Option Nat × Marks)
  | .thisWallet => do
    let (i, marks) ← nextPayout view marks
    return (some i, marks)
  | .outside accepted => do
    ensure (accepted = true) "the payout address is refused"
    return (none, marks)

/-- The key of a change index: only a normal child index has one. -/
def changeScript (index : Nat) : Except String Unit :=
  ensure (index < 2 ^ 31) "not a normal child index"

def nextChange (view : Tier2View) (pending : List PendingTx) (marks : Marks) :
    Except String (Nat × Marks) := do
  let c := nextChangeIndexMarked view pending marks
  changeScript c
  return (c, { marks with mixChange := insert c marks.mixChange })

/-! ## The system -/

inductive Handed where
  /-- A pool's change, and its payout when that is this wallet's. -/
  | pool (payout : Option Nat) (change : Nat)
  /-- The address a coin that is kept out of a pool goes to. -/
  | keepOut (change : Nat)
  | send (change : Nat)
  | channelOpen (change : Nat)
  | reserve (index : Nat)
  deriving DecidableEq, Repr

/-- The index of the change branch. -/
def Handed.index : Handed → Nat
  | pool _ c | keepOut c | send c | channelOpen c | reserve c => c

def Handed.poolChange : Handed → Option Nat
  | pool _ c => some c
  | _ => none

def Handed.payout : Handed → Option Nat
  | pool payout _ => payout
  | _ => none

structure Wallet where
  view : Tier2View
  pending : List PendingTx
  marks : Marks
  pays : Records
  /-- The marks as the scans under way loaded them. -/
  scans : List Marks
  log : List Handed

inductive Step where
  /-- A pool join. -/
  | handOut (choice : PayoutChoice)
  /-- A join of a channel pool: the payout is the channel's. -/
  | handOutChange
  | keepOut
  /-- A send, of an amount or of everything. -/
  | send
  /-- Marks that cannot be read are taken as none. -/
  | channelOpen (marksRead : Bool)
  | quote (asked : Asked) (quote : Json.Value)
  | pay (a : Act)
  /-- `t2_note_send` rewrites the marks; when they cannot be read, with none of the old ones. -/
  | noteSend (marksRead : Bool)
  /-- A silent-payment scan loads the marks, and saves its copy when it found a new label. -/
  | scanStart (marksRead : Bool)
  | scanEnd (scan : Nat) (saved : Bool)
  /-- What a sync, a confirmation or a send's record leaves of the ledger. -/
  | sync (view : Tier2View) (pending : List PendingTx)

namespace Wallet

/-- The index of the reserve's return address, of a quote. -/
def reserveIndex (w : Wallet) : Nat :=
  max (nextIndexForChain w.view w.pending chainChange) (reserveFloor w.pays)

def handOut (w : Wallet) (choice : PayoutChoice) : Except String (Handed × Marks) := do
  let (payout, marks) ← payoutFor w.view w.marks choice
  let (c, marks) ← nextChange w.view w.pending marks
  return (.pool payout c, marks)

def handOutChange (w : Wallet) : Except String (Handed × Marks) := do
  let (c, marks) ← nextChange w.view w.pending w.marks
  return (.pool none c, marks)

def keepOut (w : Wallet) : Except String (Handed × Marks) := do
  let (c, marks) ← nextChange w.view w.pending w.marks
  return (.keepOut c, marks)

/-- What a call hands out is logged and its marks are saved; a call that fails changes nothing. -/
def hand (w : Wallet) : Except String (Handed × Marks) → Wallet
  | .error _ => w
  | .ok (handed, marks) => { w with marks, log := handed :: w.log }

def step (E : Env) (w : Wallet) : Step → Wallet
  | .handOut choice => w.hand (w.handOut choice)
  | .handOutChange => w.hand w.handOutChange
  | .keepOut => w.hand w.keepOut
  | .send =>
    w.hand (.ok (.send (nextChangeIndexMarked w.view w.pending w.marks), w.marks))
  | .channelOpen marksRead =>
    let marks := if marksRead then w.marks else ⟨∅, ∅⟩
    w.hand (.ok (.channelOpen (nextChangeIndexMarked w.view w.pending marks), w.marks))
  | .quote asked quote =>
    match recordQuote E { asked with reserveIndex := w.reserveIndex } quote w.pays with
    | .error _ => w
    | .ok pays => { w with pays, log := .reserve w.reserveIndex :: w.log }
  | .pay a => { w with pays := act E w.pays a }
  | .noteSend marksRead => { w with marks := if marksRead then w.marks else ⟨∅, ∅⟩ }
  | .scanStart marksRead => { w with scans := w.scans ++ [if marksRead then w.marks else ⟨∅, ∅⟩] }
  | .scanEnd scan saved =>
    { w with
      marks := if saved then w.scans[scan]?.getD w.marks else w.marks
      scans := w.scans.eraseIdx scan }
  | .sync view pending => { w with view, pending }

end Wallet

/-- No index of an open reserve is at or past the next change index. -/
def ReservesBelow (w : Wallet) : Prop :=
  ∀ (h : Hash) (r : Node.OnchainPay.Record), w.pays[h]? = some r → r.isOpen = true →
    r.reserveIndex < nextChangeIndexMarked w.view w.pending w.marks

/-- The two rules do not meet: what a pool or a send takes is past the open reserves, what a
reserve takes is past the pools' change; an opened channel and a send's note read the marks, and
a scan writes back only marks that have not changed since it loaded them. -/
def Apart (w : Wallet) : Step → Prop
  | .handOut _ | .handOutChange | .keepOut | .send => ReservesBelow w
  | .channelOpen marksRead => marksRead = true ∧ ReservesBelow w
  | .quote _ _ => ∀ c ∈ w.marks.mixChange, c < w.reserveIndex
  | .noteSend marksRead => marksRead = true
  | .scanEnd scan saved => saved = true → ∀ loaded, w.scans[scan]? = some loaded → loaded = w.marks
  | .pay _ | .scanStart _ | .sync _ _ => True

/-! ## What a call hands out -/

theorem lt_nextAfter {indexes : Finset Nat} {i : Nat} (member : i ∈ indexes) :
    i < nextAfter indexes :=
  Finset.le_sup (f := Nat.succ) member

theorem lt_nextChangeIndexMarked {view : Tier2View} {pending : List PendingTx} {marks : Marks}
    {c : Nat} (member : c ∈ marks.mixChange) : c < nextChangeIndexMarked view pending marks :=
  (lt_nextAfter member).trans_le (Nat.le_max_right _ _)

theorem nextPayout_eq_ok {view : Tier2View} {marks marks' : Marks} {i : Nat}
    (ok : nextPayout view marks = .ok (i, marks')) :
    i ≤ payoutIndexMax ∧ i ∉ marks.mixExits ∧ marks'.mixExits = insert i marks.mixExits ∧
      marks'.mixChange = marks.mixChange := by
  obtain ⟨most, rest⟩ := ensure_bind_eq_ok.mp ok
  cases pure_eq_ok.mp rest
  refine ⟨most, fun again => ?_, rfl, rfl⟩
  have below : nextTrReceiveIndex view marks < nextTrReceiveIndex view marks :=
    (lt_nextAfter again).trans_le (Nat.le_max_right _ _)
  exact Nat.lt_irrefl _ below

theorem nextChange_eq_ok {view : Tier2View} {pending : List PendingTx} {marks marks' : Marks}
    {c : Nat} (ok : nextChange view pending marks = .ok (c, marks')) :
    c = nextChangeIndexMarked view pending marks ∧ marks'.mixExits = marks.mixExits ∧
      marks'.mixChange = insert c marks.mixChange := by
  obtain ⟨_, rest⟩ := ensure_bind_eq_ok.mp ok
  cases pure_eq_ok.mp rest
  exact ⟨rfl, rfl, rfl⟩

/-- What one hand-out does to the marks. -/
structure HandsOut (w : Wallet) (handed : Handed) (marks : Marks) : Prop where
  /-- Past every change index a pool was given. -/
  past : ∀ c ∈ w.marks.mixChange, c < handed.index
  keepsChange : w.marks.mixChange ⊆ marks.mixChange
  keepsExits : w.marks.mixExits ⊆ marks.mixExits
  marksChange : ∀ c, handed.poolChange = some c → c ∈ marks.mixChange
  newPayout : ∀ i, handed.payout = some i →
    i ≤ payoutIndexMax ∧ i ∉ w.marks.mixExits ∧ i ∈ marks.mixExits

variable {w : Wallet} {handed : Handed} {marks : Marks}

theorem handsOut_of_unmarked (past : ∀ c ∈ w.marks.mixChange, c < handed.index)
    (noPool : handed.poolChange = none) (noPayout : handed.payout = none) :
    HandsOut w handed w.marks where
  past := past
  keepsChange := Finset.Subset.refl _
  keepsExits := Finset.Subset.refl _
  marksChange c isPool := by cases noPool.symm.trans isPool
  newPayout i isPayout := by cases noPayout.symm.trans isPayout

theorem handsOut_handOut {choice : PayoutChoice} (ok : w.handOut choice = .ok (handed, marks)) :
    HandsOut w handed marks ∧ handed.index = nextChangeIndexMarked w.view w.pending w.marks := by
  simp only [Wallet.handOut, bind_eq_ok, pure_eq_ok, Prod.exists, Prod.mk.injEq] at ok
  obtain ⟨payout, first, paid, c, second, changed, rfl, rfl⟩ := ok
  obtain ⟨isC, exits, change⟩ := nextChange_eq_ok changed
  obtain ⟨same, keptExits, payouts⟩ : first.mixChange = w.marks.mixChange ∧
      w.marks.mixExits ⊆ first.mixExits ∧ ∀ i, payout = some i →
        i ≤ payoutIndexMax ∧ i ∉ w.marks.mixExits ∧ i ∈ first.mixExits := by
    cases choice <;> simp only [payoutFor, bind_eq_ok, ensure_eq_ok, exists_const, pure_eq_ok,
      Prod.exists, Prod.mk.injEq] at paid
    · obtain ⟨i, marked, given, rfl, rfl⟩ := paid
      obtain ⟨most, new, exits, same⟩ := nextPayout_eq_ok given
      refine ⟨same, ?_, fun j isJ => ?_⟩
      · rw [exits]
        exact Finset.subset_insert _ _
      · cases isJ
        rw [exits]
        exact ⟨most, new, Finset.mem_insert_self _ _⟩
    · obtain ⟨_, rfl, rfl⟩ := paid
      exact ⟨rfl, Finset.Subset.refl _, nofun⟩
  have isNext : c = nextChangeIndexMarked w.view w.pending w.marks := by
    rw [isC, nextChangeIndexMarked, same]
    rfl
  refine ⟨⟨fun old member => ?_, ?_, ?_, fun p isPool => ?_, fun i isPayout => ?_⟩, isNext⟩
  · change old < c
    rw [isNext]
    exact lt_nextChangeIndexMarked member
  · rw [change, same]
    exact Finset.subset_insert _ _
  · rw [exits]
    exact keptExits
  · cases isPool
    rw [change]
    exact Finset.mem_insert_self _ _
  · rw [exits]
    exact payouts i isPayout

/-- A call that takes a change index alone. -/
theorem handsOut_nextChange {wrap : Nat → Handed}
    (index : ∀ c, (wrap c).index = c) (noPayout : ∀ c, (wrap c).payout = none)
    (pool : ∀ c p, (wrap c).poolChange = some p → p = c)
    (ok : (nextChange w.view w.pending w.marks >>= fun taken =>
      (pure (wrap taken.1, taken.2) : Except String (Handed × Marks))) = .ok (handed, marks)) :
    HandsOut w handed marks ∧ handed.index = nextChangeIndexMarked w.view w.pending w.marks := by
  simp only [bind_eq_ok, pure_eq_ok, Prod.exists, Prod.mk.injEq] at ok
  obtain ⟨c, second, changed, rfl, rfl⟩ := ok
  obtain ⟨isC, exits, change⟩ := nextChange_eq_ok changed
  refine ⟨⟨fun old member => ?_, ?_, ?_, fun p isPool => ?_, fun i isPayout => ?_⟩, ?_⟩
  · rw [index, isC]
    exact lt_nextChangeIndexMarked member
  · rw [change]
    exact Finset.subset_insert _ _
  · rw [exits]
  · cases pool _ _ isPool
    rw [change]
    exact Finset.mem_insert_self _ _
  · cases (noPayout _).symm.trans isPayout
  · rw [index]
    exact isC

/-! ## Whole runs -/

/-- No change index a pool was given was handed out after it, and no payout twice. -/
structure Given (w : Wallet) : Prop where
  marked : ∀ handed ∈ w.log, ∀ c, handed.poolChange = some c → c ∈ w.marks.mixChange
  exits : ∀ handed ∈ w.log, ∀ i, handed.payout = some i → i ∈ w.marks.mixExits
  fresh : w.log.Pairwise fun newer older => older.poolChange ≠ some newer.index
  payouts : (w.log.filterMap Handed.payout).Nodup
  most : ∀ i ∈ w.log.filterMap Handed.payout, i ≤ payoutIndexMax

/-- One hand-out. -/
theorem Given.hand (given : Given w) (hands : HandsOut w handed marks) :
    Given { w with marks, log := handed :: w.log } := by
  constructor
  · intro other member c isPool
    rcases mem_cons.mp member with rfl | old
    · exact hands.marksChange c isPool
    · exact hands.keepsChange (given.marked other old c isPool)
  · intro other member i isPayout
    rcases mem_cons.mp member with rfl | old
    · exact (hands.newPayout i isPayout).2.2
    · exact hands.keepsExits (given.exits other old i isPayout)
  · refine pairwise_cons.mpr ⟨fun older member isPool => ?_, given.fresh⟩
    exact Nat.lt_irrefl _ (hands.past _ (given.marked older member _ isPool))
  · cases payout : handed.payout with
    | none =>
      rw [filterMap_cons_none payout]
      exact given.payouts
    | some i =>
      rw [filterMap_cons_some payout]
      refine nodup_cons.mpr ⟨fun again => ?_, given.payouts⟩
      obtain ⟨older, member, isPayout⟩ := mem_filterMap.mp again
      exact (hands.newPayout i payout).2.1 (given.exits older member i isPayout)
  · intro i member
    obtain ⟨other, listed, isPayout⟩ := mem_filterMap.mp member
    rcases mem_cons.mp listed with rfl | old
    · exact (hands.newPayout i isPayout).1
    · exact given.most i (mem_filterMap.mpr ⟨other, old, isPayout⟩)

theorem Given.congr {w' : Wallet} (given : Given w) (log : w'.log = w.log)
    (marks : w'.marks = w.marks) : Given w' := by
  obtain ⟨marked, exits, fresh, payouts, most⟩ := given
  rw [← log] at fresh payouts most
  rw [← log, ← marks] at marked exits
  exact ⟨marked, exits, fresh, payouts, most⟩

/-- What a step does to the log: nothing, or one hand-out past the pools' marks; and what is not
a reserve is the marked rule's index. -/
theorem step_cases (E : Env) {s : Step} (apart : Apart w s) :
    ((w.step E s).log = w.log ∧ (w.step E s).marks = w.marks) ∨
    ∃ handed, HandsOut w handed (w.step E s).marks ∧ (w.step E s).log = handed :: w.log ∧
      ((∀ i, handed ≠ .reserve i) → ReservesBelow w ∧
        handed.index = nextChangeIndexMarked w.view w.pending w.marks) := by
  have hand : ∀ result : Except String (Handed × Marks), ReservesBelow w →
      (∀ handed marks, result = .ok (handed, marks) → HandsOut w handed marks ∧
        handed.index = nextChangeIndexMarked w.view w.pending w.marks) →
      ((w.hand result).log = w.log ∧ (w.hand result).marks = w.marks) ∨
      ∃ handed, HandsOut w handed (w.hand result).marks ∧
        (w.hand result).log = handed :: w.log ∧
        ((∀ i, handed ≠ .reserve i) → ReservesBelow w ∧
          handed.index = nextChangeIndexMarked w.view w.pending w.marks) := by
    intro result below each
    cases result with
    | error message => exact .inl ⟨rfl, rfl⟩
    | ok pair =>
      obtain ⟨handed, marks⟩ := pair
      obtain ⟨hands, index⟩ := each handed marks rfl
      exact .inr ⟨handed, hands, rfl, fun _ => ⟨below, index⟩⟩
  cases s with
  | handOut choice => exact hand _ apart fun handed marks ok => handsOut_handOut ok
  | handOutChange =>
    exact hand _ apart fun handed marks ok => handsOut_nextChange
      (fun _ => rfl) (fun _ => rfl) (by intro c p same; cases same; rfl) ok
  | keepOut =>
    exact hand _ apart fun handed marks ok => handsOut_nextChange
      (fun _ => rfl) (fun _ => rfl) (by intro c p none; cases none) ok
  | send =>
    refine hand _ apart fun handed marks ok => ?_
    obtain ⟨rfl, rfl⟩ := Prod.mk.inj (Except.ok.inj ok)
    exact ⟨handsOut_of_unmarked (fun c member => lt_nextChangeIndexMarked member) rfl rfl, rfl⟩
  | channelOpen marksRead =>
    obtain ⟨isRead, below⟩ := apart
    subst isRead
    refine hand _ below fun handed marks ok => ?_
    obtain ⟨rfl, rfl⟩ := Prod.mk.inj (Except.ok.inj ok)
    exact ⟨handsOut_of_unmarked (fun c member => lt_nextChangeIndexMarked member) rfl rfl, rfl⟩
  | quote asked quote =>
    unfold Wallet.step
    dsimp only
    split
    · exact .inl ⟨rfl, rfl⟩
    · exact .inr ⟨.reserve w.reserveIndex, handsOut_of_unmarked apart rfl rfl, rfl,
        fun notReserve => absurd rfl (notReserve w.reserveIndex)⟩
  | noteSend marksRead =>
    cases apart
    exact .inl ⟨rfl, rfl⟩
  | scanEnd scan saved =>
    refine .inl ⟨rfl, ?_⟩
    cases saved with
    | false => rfl
    | true =>
      change w.scans[scan]?.getD w.marks = w.marks
      cases loaded : w.scans[scan]? with
      | none => rfl
      | some held => exact apart rfl held loaded
  | pay a | scanStart marksRead | sync view pending => exact .inl ⟨rfl, rfl⟩

theorem Given.step {E : Env} {s : Step} (given : Given w) (apart : Apart w s) :
    Given (w.step E s) := by
  rcases step_cases E apart with ⟨sameLog, sameMarks⟩ | ⟨handed, hands, log, _⟩
  · exact given.congr sameLog sameMarks
  · exact (given.hand hands).congr log rfl

namespace Sample

def wallet : Wallet := ⟨.empty, [], ⟨∅, ∅⟩, ∅, [], []⟩

/-- A scan, a pool join, a send with its note, a second join: nothing is reserved. -/
def joins : List Step :=
  [.scanStart true, .scanEnd 0 true, .handOut .thisWallet, .send, .noteSend true,
    .handOut .thisWallet]

/-- A pool join, then a quote; and a quote, then a pool join. -/
def joinThenQuote : List Step :=
  [.handOut .thisWallet, .quote Node.OnchainPay.Sample.asked Node.OnchainPay.Sample.quote]

def quoteThenJoin : List Step :=
  [.quote Node.OnchainPay.Sample.asked Node.OnchainPay.Sample.quote, .handOut .thisWallet]

/-- A scan's copy of the marks is from before a pool join. -/
def staleScan : List Step :=
  [.scanStart true, .handOut .thisWallet, .scanEnd 0 true, .handOut .thisWallet]

def run (steps : List Step) : List Handed :=
  (steps.foldl (Wallet.step Node.OnchainPay.Sample.env) wallet).log

end Sample

end Lij.Tatara.Addresses
