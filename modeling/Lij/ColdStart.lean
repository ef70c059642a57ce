import Mathlib
import Lij.Independent

/-!
# The cold-start machine

Each tick decides, from the cooperative feed and the independent sources, whether
the wallet may send. `settle` repeats the decision within a tick until it no
longer changes. A wallet that is `ready` is asked only whether both paths are
there, not whether they still agree.
-/

namespace Lij.ColdStart

open Independent (QuorumState)

inductive SyncState
  | initializing
  | syncing
  | ready
  | readOnly
  | frozen
  deriving DecidableEq, Repr

def initializingGraceTicks : Nat := 1
def independentTargetTicks : Nat := 30
def bothBrokenTimeoutTicks : Nat := 60
def heightAgreementTolerance : Nat := 2

/-- What one decision reads besides the current state. -/
structure Snapshot where
  elapsed : Nat
  cooperativeSubscribed : Bool
  cooperativeHeight : Option Nat
  independentHeight : Option Nat
  healthyEndpoints : Nat
  quorum : QuorumState
  independentQueried : Bool

namespace Snapshot

def cooperativeAvailable (s : Snapshot) : Bool :=
  s.cooperativeSubscribed && s.cooperativeHeight.isSome

def independentAvailable (s : Snapshot) : Bool :=
  decide (1 ≤ s.healthyEndpoints) &&
    decide (s.quorum ∈ [.healthy, .slightDisagreement, .singleSource])

def heightsAgree (s : Snapshot) : Bool :=
  match s.cooperativeHeight, s.independentHeight with
  | some c, some i => decide ((c - i) + (i - c) ≤ heightAgreementTolerance)
  | _, _ => false

end Snapshot

/-- The source's order of checks; its second check for `frozen` can never be reached. -/
def decideStatePure (s : Snapshot) (current : SyncState) : SyncState :=
  if current = .initializing then
    if initializingGraceTicks ≤ s.elapsed then .syncing else .initializing
  else if !s.cooperativeAvailable && !s.independentAvailable &&
      decide (bothBrokenTimeoutTicks ≤ s.elapsed) then .frozen
  else if s.cooperativeAvailable && s.independentAvailable && s.independentQueried &&
      s.heightsAgree then .ready
  else if s.cooperativeAvailable && !s.independentAvailable &&
      decide (independentTargetTicks ≤ s.elapsed) then .readOnly
  else if !s.cooperativeAvailable && s.independentAvailable then .readOnly
  else if current = .ready && !s.cooperativeAvailable then .readOnly
  else if current = .ready && !s.independentAvailable then .readOnly
  else if current = .readOnly && s.cooperativeAvailable && s.independentAvailable &&
      s.heightsAgree then .ready
  else if current = .frozen && (s.cooperativeAvailable || s.independentAvailable) then .syncing
  else current

/-- The loop of a tick, which stops at the first decision that changes nothing. -/
def settle (s : Snapshot) : Nat → SyncState → SyncState
  | 0, state => state
  | hops + 1, state =>
    if decideStatePure s state = state then state else settle s hops (decideStatePure s state)

/-- What a tick is called with. -/
structure Inputs where
  currentTick : Nat
  cooperativeSubscribed : Bool
  cooperativeHeight : Option Nat
  healthyEndpoints : Nat
  quorum : QuorumState

/-- The orchestrator and the state it posts to. -/
structure Machine where
  startedAtTick : Option Nat
  lastSeenCooperativeHeight : Option Nat
  lastSeenIndependentHeight : Option Nat
  independentQueriedOnce : Bool
  state : SyncState
  deriving DecidableEq

namespace Machine

def new : Machine := ⟨none, none, none, false, .initializing⟩

def snapshot (m : Machine) (i : Inputs) : Snapshot where
  elapsed := i.currentTick - m.startedAtTick.getD i.currentTick
  cooperativeSubscribed := i.cooperativeSubscribed
  cooperativeHeight := i.cooperativeHeight
  independentHeight := m.lastSeenIndependentHeight
  healthyEndpoints := i.healthyEndpoints
  quorum := i.quorum
  independentQueried := m.independentQueriedOnce

def tick (m : Machine) (i : Inputs) : Machine :=
  { m with
    startedAtTick := some (m.startedAtTick.getD i.currentTick)
    lastSeenCooperativeHeight := i.cooperativeHeight.or m.lastSeenCooperativeHeight
    state := settle (m.snapshot i) 4 m.state }

inductive Event
  | tick (inputs : Inputs)
  | markIndependentQueried (heightReturned : Option Nat)
  | reset (currentTick : Nat)
  | setSyncState (state : SyncState)

def step (m : Machine) : Event → Machine
  | .tick inputs => m.tick inputs
  | .markIndependentQueried heightReturned =>
    { m with
      independentQueriedOnce := true
      lastSeenIndependentHeight := heightReturned.or m.lastSeenIndependentHeight }
  | .reset currentTick => ⟨some currentTick, none, none, false, m.state⟩
  | .setSyncState state => { m with state }

def run (m : Machine) (events : List Event) : Machine := events.foldl step m

/-- Both paths are there. -/
def BothAvailable (m : Machine) (i : Inputs) : Prop :=
  (m.snapshot i).cooperativeAvailable ∧ (m.snapshot i).independentAvailable

/-- The two heights are there and at most two blocks apart. -/
def Agree (m : Machine) (i : Inputs) : Prop := (m.snapshot i).heightsAgree

/-- What a tick promises. Agreement leads to `ready` at once or, within the grace of the start,
in every later tick that is past it. -/
structure KeepsWord (m : Machine) (i : Inputs) : Prop where
  ready : (m.tick i).state = .ready → m.BothAvailable i ∧ m.Agree i
  stable : (m.tick i).tick i = m.tick i
  leads : m.BothAvailable i → m.independentQueriedOnce → m.Agree i →
    (m.tick i).state = .ready ∨ (m.state = .initializing ∧
      ∀ later, initializingGraceTicks ≤ later - m.startedAtTick.getD i.currentTick →
        ((m.tick i).tick { i with currentTick := later }).state = .ready)

end Machine

section Decisions

variable (s : Snapshot) {state : SyncState}

theorem decide_ne_initializing (started : state ≠ .initializing) :
    decideStatePure s state ≠ .initializing := by
  rw [decideStatePure, if_neg started]
  grind

/-- After the grace one decision is enough: a second one changes nothing. -/
theorem decide_decide (started : state ≠ .initializing) :
    decideStatePure s (decideStatePure s state) = decideStatePure s state := by
  have later := decide_ne_initializing s started
  rw [decideStatePure, if_neg later, decideStatePure, if_neg started]
  cases s.cooperativeAvailable <;> cases s.independentAvailable <;> cases state <;> simp_all
  grind

theorem settle_eq (state : SyncState) :
    settle s 4 state =
      if state = .initializing then
        if initializingGraceTicks ≤ s.elapsed then decideStatePure s .syncing else .initializing
      else decideStatePure s state := by
  have stable := @decide_decide s
  by_cases first : state = .initializing
  · grind [settle, decideStatePure]
  · grind [settle]

theorem settle_settle (state : SyncState) : settle s 4 (settle s 4 state) = settle s 4 state := by
  have stable := @decide_decide s
  have started := @decide_ne_initializing s
  grind [settle_eq]

theorem decide_eq_ready_iff (started : state ≠ .initializing) :
    decideStatePure s state = .ready ↔
      s.cooperativeAvailable ∧ s.independentAvailable ∧
        ((s.heightsAgree ∧ (s.independentQueried ∨ state = .readOnly)) ∨ state = .ready) := by
  rw [decideStatePure, if_neg started]
  cases s.cooperativeAvailable <;> cases s.independentAvailable <;> cases state <;> simp_all
  all_goals grind

/-- Past the grace, agreement makes the state `ready` from every state. -/
theorem settle_of_agreement (state : SyncState) (past : initializingGraceTicks ≤ s.elapsed)
    (cooperative : s.cooperativeAvailable) (independent : s.independentAvailable)
    (queried : s.independentQueried) (agree : s.heightsAgree) : settle s 4 state = .ready := by
  rw [settle_eq, if_pos past]
  split
  all_goals
    apply (decide_eq_ready_iff s (by first | assumption | simp)).mpr
    exact ⟨cooperative, independent, .inl ⟨agree, .inl queried⟩⟩

end Decisions

namespace Machine

variable (m : Machine) (i : Inputs)

@[simp] theorem snapshot_tick : (m.tick i).snapshot i = m.snapshot i := rfl

theorem tick_tick : (m.tick i).tick i = m.tick i := by
  have settled := settle_settle (m.snapshot i) m.state
  rw [tick, snapshot_tick]
  cases height : i.cooperativeHeight <;> simp [tick, settled, height]

/-- A tick breaks its promise only by leaving a wallet `ready` whose two heights part. -/
theorem keepsWord_iff :
    m.KeepsWord i ↔ ¬ (m.state = .ready ∧ m.BothAvailable i ∧ ¬ m.Agree i) := by
  constructor
  · rintro word ⟨ready, both, apart⟩
    have stays : (m.tick i).state = .ready := by
      have started : SyncState.ready ≠ .initializing := by simp
      change settle (m.snapshot i) 4 m.state = .ready
      rw [settle_eq, ready, if_neg started]
      exact (decide_eq_ready_iff _ started).mpr ⟨both.1, both.2, .inr rfl⟩
    exact apart (word.ready stays).2
  · intro checked
    refine ⟨?_, m.tick_tick i, ?_⟩
    · intro stays
      change settle (m.snapshot i) 4 m.state = .ready at stays
      rw [settle_eq] at stays
      have decided : ∃ state, decideStatePure (m.snapshot i) state = .ready ∧
          state ≠ .initializing ∧ (state = .ready → m.state = .ready) := by grind
      obtain ⟨state, decided, started, same⟩ := decided
      obtain ⟨cooperative, independent, why⟩ := (decide_eq_ready_iff _ started).mp decided
      refine ⟨⟨cooperative, independent⟩, ?_⟩
      obtain ⟨agree, -⟩ | ready := why
      · exact agree
      · by_contra apart
        exact checked ⟨same ready, ⟨cooperative, independent⟩, apart⟩
    · intro both queried agree
      by_cases first : m.state = .initializing
      · refine .inr ⟨first, fun later past => ?_⟩
        exact settle_of_agreement _ _ past both.1 both.2 queried agree
      · refine .inl ((settle_eq _ _).trans ?_)
        rw [if_neg first]
        exact (decide_eq_ready_iff _ first).mpr ⟨both.1, both.2, .inl ⟨agree, .inl queried⟩⟩

/-- In a run from any machine every tick keeps its word exactly if no tick finds the wallet
`ready` with both paths there and their heights apart. -/
theorem run_keepsWord_iff (events : List Event) :
    (∀ before i, before ++ [.tick i] <+: events → (m.run before).KeepsWord i) ↔
      ∀ before i, before ++ [.tick i] <+: events →
        ¬ ((m.run before).state = .ready ∧ (m.run before).BothAvailable i ∧
          ¬ (m.run before).Agree i) := by
  simp only [keepsWord_iff]

/-- A start that becomes `ready` at height 100 and stays so when the explorers go on to 200. -/
theorem ready_with_heights_apart :
    let i : Inputs := ⟨0, true, some 100, 3, .healthy⟩
    let ready := new.run [.tick i, .markIndependentQueried (some 100),
      .tick { i with currentTick := 1 }]
    let after := ready.run [.markIndependentQueried (some 200), .tick { i with currentTick := 2 }]
    ready.state = .ready ∧ after.state = .ready ∧ after.lastSeenIndependentHeight = some 200 := by
  decide +kernel

end Machine

end Lij.ColdStart
