import Lij.Foundation.Checked
import Lij.Foundation.Folds
import Lij.Foundation.Sessions
import Lij.Storage

/-!
# The counter of channel key indexes

Each channel takes its keys at an index of its own. The next index stands in memory and under a
storage key, and a second key, the ratchet, keeps the highest value that was ever written. Both keys
are written before an index is handed out, the counter first, and any of these writes may fail. A
start reads the counter and refuses when it is below the ratchet.

A crash ends an operation after some of its writes: it is the operation with the remaining writes
failing, whose result nobody sees, followed by a start from what is stored.
-/

namespace Lij.PersistedCounter

open Bitcoin Storage Checked Fallible Folds Storing List

/-! ## The counter -/

/-- Where the counter and the ratchet are stored. -/
structure Keys where
  key : String
  ratchetKey : String
  apart : ratchetKey ≠ key

def keyNextChannelIndex : String := "lij_next_channel_index"
def keyCounterUpwardRatchet : String := "lij_counter_upward_ratchet"

def Keys.standard : Keys := ⟨keyNextChannelIndex, keyCounterUpwardRatchet, by decide⟩

def toBeBytes (n : UInt32) : Bytes := Bytes.ofNat 4 n.toNat

def parseU32 (bytes : Bytes) : Except String UInt32 :=
  if bytes.length ≠ 4 then
    .error s!"Counter value has wrong length: expected 4 bytes, got {bytes.length}"
  else .ok (UInt32.ofNat (Bytes.toNat bytes))

/-- The number under a key, 0 when there is none. -/
def stored (store : Store) (key : String) : Except String UInt32 :=
  match store key with
  | some bytes => parseU32 bytes
  | none => .ok 0

variable (keys : Keys)

/-- The next index to issue, as a start reads it. -/
def newWithKeys (store : Store) : Except String UInt32 := do
  let current ← stored store keys.key
  let ratchet ← stored store keys.ratchetKey
  if current < ratchet then
    .error (s!"Counter regression detected: counter={current} ratchet={ratchet}." ++
      "                  Refusing to issue indices to prevent address reuse.")
  else .ok current

/-- The value in memory and what is stored. -/
abbrev Counter (α : Type) : Type := Storing (UInt32 × Store) α

/-- Both keys, the counter before the ratchet, and then the value in memory. -/
def advance (next : UInt32) : Counter Unit := do
  write fun s => (s.1, s.2.set keys.key (toBeBytes next))
  write fun s => (s.1, s.2.set keys.ratchetKey (toBeBytes next))
  inMemory (modify fun _ => next)

def checkedNext (issued : UInt32) : Except String UInt32 :=
  if issued.toNat + 1 < 2 ^ 32 then .ok (issued + 1)
  else .error "Channel index counter overflow"

def readAndIncrement : Counter UInt32 := do
  let s ← read
  let next ← lift (checkedNext s.1)
  advance keys next
  return s.1

/-- Floors never lower the counter. -/
def raiseFloor (n : UInt32) : Counter Unit := do
  let s ← read
  if n ≤ s.1 then return ()
  else advance keys n

/-! ## What an operation leaves -/

/-- The ratchet is not above the value in memory, and that is not above the stored counter. -/
structure Sound (s : UInt32 × Store) : Prop where
  counter : ∃ c, stored s.2 keys.key = .ok c ∧ s.1 ≤ c
  ratchet : ∃ r, stored s.2 keys.ratchetKey = .ok r ∧ r ≤ s.1

variable {keys} {state next : UInt32} {store : Store}

theorem parseU32_toBeBytes (n : UInt32) : parseU32 (toBeBytes n) = .ok n := by
  have whole : (toBeBytes n).length = 4 := Bytes.length_ofNat 4 n.toNat
  have value : Bytes.toNat (toBeBytes n) = n.toNat := Bytes.toNat_ofNat n.toNat_lt
  rw [parseU32, if_neg (not_not.mpr whole), value, UInt32.ofNat_toNat]

theorem stored_set_same (key : String) (n : UInt32) :
    stored (store.set key (toBeBytes n)) key = .ok n := by
  rw [stored, Store.set_same]
  exact parseU32_toBeBytes n

theorem stored_set_other {key other : String} (different : other ≠ key) (bytes : Bytes) :
    stored (store.set key bytes) other = stored store other := by
  rw [stored, stored, Store.set_other different]

theorem newWithKeys_eq {c r : UInt32} (isCounter : stored store keys.key = .ok c)
    (isRatchet : stored store keys.ratchetKey = .ok r) (ordered : r ≤ c) :
    newWithKeys keys store = .ok c := by
  rw [newWithKeys, isCounter, isRatchet]
  exact if_neg (UInt32.not_lt.mpr ordered)

/-- A start from a sound state succeeds, at or above the value that was in memory. -/
theorem Sound.restart (sound : Sound keys (state, store)) :
    ∃ c, newWithKeys keys store = .ok c ∧ state ≤ c ∧ Sound keys (c, store) := by
  obtain ⟨c, isCounter, above⟩ := sound.counter
  obtain ⟨r, isRatchet, below⟩ := sound.ratchet
  have ordered : r ≤ c := UInt32.le_trans below above
  exact ⟨c, newWithKeys_eq isCounter isRatchet ordered, above,
    ⟨c, isCounter, UInt32.le_refl c⟩, r, isRatchet, ordered⟩

/-- The stored counter may move up before the value in memory does. -/
theorem Sound.writeCounter (sound : Sound keys (state, store)) (higher : state ≤ next) :
    Sound keys (state, store.set keys.key (toBeBytes next)) where
  counter := ⟨next, stored_set_same keys.key next, higher⟩
  ratchet := by
    obtain ⟨r, isRatchet, below⟩ := sound.ratchet
    exact ⟨r, (stored_set_other keys.apart _).trans isRatchet, below⟩

/-- Writing both keys ends in the new value everywhere, or in a sound state of the old one. -/
theorem ensures_advance (sound : Sound keys (state, store)) (higher : state ≤ next) :
    Ensures False (advance keys next) (state, store)
      (fun _ s => s.1 = next ∧ Sound keys s) fun s => s.1 = state ∧ Sound keys s := by
  have counter := sound.writeCounter higher
  have ratchet : Sound keys (next, (store.set keys.key (toBeBytes next)).set keys.ratchetKey
      (toBeBytes next)) := by
    refine ⟨⟨next, ?_, UInt32.le_refl next⟩, next, stored_set_same _ next, UInt32.le_refl next⟩
    rw [stored_set_other keys.apart.symm]
    exact stored_set_same _ next
  apply Ensures.write_bind
  · apply Ensures.write_bind
    · have ends : Ends (modify fun _ => next : Fallible UInt32 PUnit) state
          (fun _ s => s = next) fun _ => False := rfl
      apply (Ensures.inMemory ends).mono
      · intro _ s moved
        have whole : s = (next, _) := Prod.ext moved.1 moved.2
        rw [whole]
        exact ⟨rfl, ratchet⟩
      · rintro s ⟨impossible, _⟩
        cases impossible
    · exact fun _ => ⟨rfl, counter⟩
  · exact fun _ => ⟨rfl, sound⟩

theorem lt_of_checkedNext (isNext : checkedNext state = .ok next) : state < next := by
  rw [checkedNext] at isNext
  split_ifs at isNext with room
  cases isNext
  rw [UInt32.lt_iff_toNat_lt, UInt32.toNat_add]
  simp only [UInt32.toNat_one]
  omega

/-- An index is handed out once both keys are past it; a failure hands out nothing. -/
theorem ensures_readAndIncrement (sound : Sound keys (state, store)) :
    Ensures False (readAndIncrement keys) (state, store)
      (fun issued s => issued = state ∧ state < s.1 ∧ Sound keys s)
      fun s => s.1 = state ∧ Sound keys s := by
  apply Ensures.read_bind
  apply Ensures.lift_bind
  · intro next isNext
    have higher := lt_of_checkedNext isNext
    apply (ensures_advance sound (UInt32.le_of_lt higher)).bind
    intro _ s moved
    apply Ensures.pure
    exact ⟨rfl, moved.1 ▸ higher, moved.2⟩
  · exact fun _ => ⟨rfl, sound⟩

theorem ensures_raiseFloor (sound : Sound keys (state, store)) (n : UInt32) :
    Ensures False (raiseFloor keys n) (state, store)
      (fun _ s => n ≤ s.1 ∧ state ≤ s.1 ∧ Sound keys s) fun s => s.1 = state ∧ Sound keys s := by
  apply Ensures.read_bind
  apply Ensures.ite
  · intro low
    apply Ensures.pure
    exact ⟨low, UInt32.le_refl state, sound⟩
  · intro high
    have higher : state ≤ n := UInt32.le_of_lt (UInt32.not_le.mp high)
    apply (ensures_advance sound higher).mono
    · intro _ s moved
      rw [moved.1]
      exact ⟨UInt32.le_refl n, higher, moved.2⟩
    · exact fun _ failed => failed

/-! ## Runs -/

/-- What the callers of the counter are told. -/
inductive Event where
  | issued (index : UInt32)
  | raised (floor : UInt32)
  deriving DecidableEq, Repr

/-- Indexes issued after an event are not below this. -/
def Event.bound : Event → Nat
  | .issued index => index.toNat + 1
  | .raised floor => floor.toNat

/-- The index an event issued. -/
def Event.index : Event → Option UInt32
  | .issued index => some index
  | .raised _ => none

theorem Event.index_eq_some {e : Event} {i : UInt32} : e.index = some i ↔ e = .issued i := by
  cases e <;> simp [Event.index]

/-- What happens to the counter. Each operation comes with its writes that fail; a crash loses
the answer and the value in memory. -/
inductive Step where
  | increment (outcomes : List (Option String))
  | raise (n : UInt32) (outcomes : List (Option String))
  | restart
  | crashIncrement (outcomes : List (Option String))
  | crashRaise (n : UInt32) (outcomes : List (Option String))

/-- What is stored, the value in memory while the counter is running, and what callers were
told, oldest first. -/
structure World where
  store : Store
  live : Option UInt32
  told : List Event

namespace World

variable (keys)

/-- Read what is stored; a start that refuses leaves no counter. -/
def start (store : Store) (told : List Event) : World :=
  ⟨store, (newWithKeys keys store).toOption, told⟩

/-- The callers hear of an operation that returned. -/
def answered {α : Type} (w : World) (result : Except String α × UInt32 × Store)
    (event : α → Event) : World :=
  match result.1 with
  | .ok a => ⟨result.2.2, some result.2.1, w.told ++ [event a]⟩
  | .error _ => ⟨result.2.2, some result.2.1, w.told⟩

def step (w : World) : Step → World
  | .restart => start keys w.store w.told
  | .increment outcomes =>
    match w.live with
    | some state => w.answered ((readAndIncrement keys).run (state, w.store) outcomes) .issued
    | none => w
  | .raise n outcomes =>
    match w.live with
    | some state =>
      w.answered ((raiseFloor keys n).run (state, w.store) outcomes) fun _ => .raised n
    | none => w
  | .crashIncrement outcomes =>
    match w.live with
    | some state =>
      start keys ((readAndIncrement keys).run (state, w.store) outcomes).2.2 w.told
    | none => start keys w.store w.told
  | .crashRaise n outcomes =>
    match w.live with
    | some state => start keys ((raiseFloor keys n).run (state, w.store) outcomes).2.2 w.told
    | none => start keys w.store w.told

/-- The counter runs on a sound state, and it is past everything the callers were told. -/
structure Inv (w : World) : Prop where
  running : ∃ state, w.live = some state ∧ Sound keys (state, w.store) ∧
    ∀ e ∈ w.told, e.bound ≤ state.toNat
  ordered : w.told.Pairwise fun e e' => ∀ index, e' = .issued index → e.bound ≤ index.toNat

variable {keys} {w : World}

/-- A start from a sound state runs, not below the value that was in memory. -/
theorem inv_start (ordered : w.told.Pairwise fun e e' => ∀ index, e' = .issued index →
      e.bound ≤ index.toNat) {s : UInt32 × Store} (sound : Sound keys s)
    (past : ∀ e ∈ w.told, e.bound ≤ s.1.toNat) : Inv keys (start keys s.2 w.told) := by
  obtain ⟨c, starts, above, soundAfter⟩ := sound.restart
  refine ⟨⟨c, ?_, soundAfter, ?_⟩, ordered⟩
  · rw [start, starts]
    rfl
  · intro e member
    exact (past e member).trans (UInt32.le_iff_toNat_le.mp above)

/-- An operation that went through adds an event the new value in memory is past. -/
theorem Inv.answered {α : Type} (inv : Inv keys w) {state : UInt32} (live : w.live = some state)
    {result : Except String α × UInt32 × Store} {event : α → Event}
    (returns : ∀ a, result.1 = .ok a → Sound keys result.2 ∧ state ≤ result.2.1 ∧
      (event a).bound ≤ result.2.1.toNat ∧ ∀ index, event a = .issued index → index = state)
    (fails : ∀ message, result.1 = .error message → result.2.1 = state ∧ Sound keys result.2) :
    Inv keys (w.answered result event) := by
  obtain ⟨known, isLive, _, past⟩ := inv.running
  rw [live] at isLive
  cases isLive
  cases outcome : result.1 with
  | error message =>
    obtain ⟨same, sound⟩ := fails message outcome
    rw [World.answered, outcome]
    exact ⟨⟨_, rfl, sound, same ▸ past⟩, inv.ordered⟩
  | ok a =>
    obtain ⟨sound, grows, passed, issues⟩ := returns a outcome
    rw [World.answered, outcome]
    refine ⟨⟨_, rfl, sound, ?_⟩, ?_⟩
    · intro e member
      obtain old | new := mem_append.mp member
      · exact (past e old).trans (UInt32.le_iff_toNat_le.mp grows)
      · rw [mem_singleton.mp new]
        exact passed
    · apply pairwise_append.mpr ⟨inv.ordered, pairwise_singleton _ _, ?_⟩
      intro e member e' new index isIssued
      rw [mem_singleton.mp new] at isIssued
      rw [issues index isIssued]
      exact past e member

/-- What a run of the increment leaves, whichever writes fail. -/
theorem run_readAndIncrement {state : UInt32} {store : Store} (sound : Sound keys (state, store))
    {outcomes : List (Option String)} {result : Except String UInt32 × UInt32 × Store}
    (isRun : (readAndIncrement keys).run (state, store) outcomes = result) :
    (∀ issued, result.1 = .ok issued →
        issued = state ∧ state < result.2.1 ∧ Sound keys result.2) ∧
      ∀ message, result.1 = .error message → result.2.1 = state ∧ Sound keys result.2 :=
  isRun ▸ (ensures_readAndIncrement sound).run False.elim

theorem run_raiseFloor {state : UInt32} {store : Store} (sound : Sound keys (state, store))
    {n : UInt32} {outcomes : List (Option String)} {result : Except String Unit × UInt32 × Store}
    (isRun : (raiseFloor keys n).run (state, store) outcomes = result) :
    (∀ a, result.1 = .ok a → n ≤ result.2.1 ∧ state ≤ result.2.1 ∧ Sound keys result.2) ∧
      ∀ message, result.1 = .error message → result.2.1 = state ∧ Sound keys result.2 :=
  isRun ▸ (ensures_raiseFloor sound n).run False.elim

/-- Whatever an operation's outcome, a start after it runs and is past what callers were told. -/
theorem Inv.crash {α : Type} (inv : Inv keys w) {state : UInt32} (live : w.live = some state)
    {result : Except String α × UInt32 × Store}
    (returns : ∀ a, result.1 = .ok a → state ≤ result.2.1 ∧ Sound keys result.2)
    (fails : ∀ message, result.1 = .error message → result.2.1 = state ∧ Sound keys result.2) :
    Inv keys (start keys result.2.2 w.told) := by
  obtain ⟨known, isLive, _, past⟩ := inv.running
  rw [live] at isLive
  cases isLive
  have left : state ≤ result.2.1 ∧ Sound keys result.2 := by
    cases outcome : result.1 with
    | ok a => exact returns a outcome
    | error message =>
      obtain ⟨same, sound⟩ := fails message outcome
      exact ⟨same ▸ UInt32.le_refl _, sound⟩
  apply inv_start inv.ordered left.2
  intro e member
  exact (past e member).trans (UInt32.le_iff_toNat_le.mp left.1)

theorem Inv.step (inv : Inv keys w) (s : Step) : Inv keys (w.step keys s) := by
  obtain ⟨state, live, sound, past⟩ := inv.running
  cases s with
  | restart => exact inv_start inv.ordered sound past
  | increment outcomes =>
    rw [World.step, live]
    obtain ⟨returns, fails⟩ := run_readAndIncrement sound rfl
    apply inv.answered live _ fails
    intro issued returned
    obtain ⟨same, higher, soundAfter⟩ := returns issued returned
    refine ⟨soundAfter, UInt32.le_of_lt higher, ?_, ?_⟩
    · rw [same]
      exact UInt32.lt_iff_toNat_lt.mp higher
    · rintro index ⟨⟩
      exact same
  | raise n outcomes =>
    rw [World.step, live]
    obtain ⟨returns, fails⟩ := run_raiseFloor sound rfl
    apply inv.answered live _ fails
    intro a returned
    obtain ⟨floor, grows, soundAfter⟩ := returns a returned
    refine ⟨soundAfter, grows, UInt32.le_iff_toNat_le.mp floor, ?_⟩
    rintro index ⟨⟩
  | crashIncrement outcomes =>
    rw [World.step, live]
    obtain ⟨returns, fails⟩ := run_readAndIncrement sound rfl
    apply inv.crash live _ fails
    intro issued returned
    obtain ⟨_, higher, soundAfter⟩ := returns issued returned
    exact ⟨UInt32.le_of_lt higher, soundAfter⟩
  | crashRaise n outcomes =>
    rw [World.step, live]
    obtain ⟨returns, fails⟩ := run_raiseFloor sound rfl
    apply inv.crash live _ fails
    intro a returned
    exact (returns a returned).2

/-- A start that does not refuse begins a sound run. -/
theorem inv_of_starts {store : Store} (starts : (newWithKeys keys store).isOk = true) :
    Inv keys (start keys store []) := by
  obtain ⟨c, isOk⟩ : ∃ c, newWithKeys keys store = .ok c := ⟨_, eq_ok_of_isOk starts 0⟩
  obtain ⟨current, isCounter, rest⟩ := bind_eq_ok.mp isOk
  obtain ⟨ratchet, isRatchet, guarded⟩ := bind_eq_ok.mp rest
  split_ifs at guarded with regressed
  cases guarded
  have sound : Sound keys (c, store) :=
    ⟨⟨c, isCounter, UInt32.le_refl c⟩, ratchet, isRatchet, UInt32.not_lt.mp regressed⟩
  exact inv_start (w := ⟨store, none, []⟩) List.Pairwise.nil sound (forall_mem_nil _)

def run (keys : Keys) (store : Store) (steps : List Step) : World :=
  steps.foldl (World.step keys) (start keys store [])

/-- The indexes that were issued, oldest first. -/
def issued (w : World) : List UInt32 := w.told.filterMap Event.index

theorem nodup_issued (inv : Inv keys w) : w.issued.Nodup := by
  apply List.Pairwise.filterMap Event.index _ inv.ordered
  intro e e' past index isIndex index' isIndex' same
  have first : e = .issued index := Event.index_eq_some.mp isIndex
  have second : e' = .issued index' := Event.index_eq_some.mp isIndex'
  have less := past index' second
  rw [first, same] at less
  exact absurd less (Nat.not_succ_le_self _)

end World

/-- In every run, whatever writes fail and wherever it crashes, no index is issued twice, indexes
issued after a floor was raised are not below it, and the next start does not refuse. -/
theorem indexes_issued_once (keys : Keys) (store : Store)
    (starts : (newWithKeys keys store).isOk = true) (steps : List Step) :
    (World.run keys store steps).issued.Nodup ∧
      (∀ before n after, (World.run keys store steps).told = before ++ .raised n :: after →
        ∀ index, .issued index ∈ after → n ≤ index) ∧
      ∃ c r, stored (World.run keys store steps).store keys.key = .ok c ∧
        stored (World.run keys store steps).store keys.ratchetKey = .ok r ∧ r ≤ c ∧
        newWithKeys keys (World.run keys store steps).store = .ok c := by
  have inv : World.Inv keys (World.run keys store steps) := by
    apply foldl_invariant (World.inv_of_starts starts)
    intro w step _ inv
    exact inv.step step
  refine ⟨World.nodup_issued inv, ?_, ?_⟩
  · intro before n after split index member
    have later := (pairwise_append.mp (split ▸ inv.ordered)).2.1
    exact UInt32.le_iff_toNat_le.mpr (rel_of_pairwise_cons later member index rfl)
  · obtain ⟨state, _, sound, _⟩ := inv.running
    obtain ⟨c, isCounter, above⟩ := sound.counter
    obtain ⟨r, isRatchet, below⟩ := sound.ratchet
    have ordered : r ≤ c := UInt32.le_trans below above
    exact ⟨c, r, isCounter, isRatchet, ordered, newWithKeys_eq isCounter isRatchet ordered⟩

/-- A floor whose second write fails leaves a counter above the value in memory; the next index
lowers it again. -/
def failedFloor : List Step :=
  [.increment [], .raise 9 [none, some "quota exceeded"], .increment [],
    .crashIncrement [none, some "crash"], .increment [], .raise 7 [], .increment []]

theorem indexes_issued_once_failedFloor :
    (World.run Keys.standard Store.empty failedFloor).issued = [0, 1, 3, 7] ∧
      (World.run Keys.standard Store.empty failedFloor).issued.Nodup :=
  ⟨by decide +kernel, (indexes_issued_once Keys.standard Store.empty (by decide +kernel)
    failedFloor).1⟩

end Lij.PersistedCounter
