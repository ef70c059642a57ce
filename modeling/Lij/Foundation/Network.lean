import Lij.Foundation.Reactive
import Mathlib.Data.Fintype.Basic

/-!
# Authenticated networks of reactive machines

Several machines of one kind exchange texts. The network may deliver a text to
anyone at any time, repeat it or never deliver it, and it may make texts up; it
only cannot attribute to a machine's address a text that this machine never
posted.

Two facts reduce a statement about the network to statements about one machine:
each machine goes through a run of its own, and a text that was delivered under
a machine's address was posted in that machine's run.
-/

namespace Lij.Reactive

open List

variable {σ ι ω α τ : Type} {n : Nat}

/-- A machine on a network: its address, the text an input delivers with its
sender, and the text an output posts. -/
structure Station (σ ι ω α τ : Type) where
  machine : Machine σ ι ω
  address : σ → α
  delivered : ι → Option (α × τ)
  posted : ω → Option τ
  address_step : ∀ s input, address (machine.step s input).2 = address s

/-- The machines and everything they have posted, each text with its sender. -/
structure Net (n : Nat) (σ α τ : Type) where
  parties : Fin n → σ
  sent : List (α × τ)

namespace Station

variable (C : Station σ ι ω α τ)

/-- What a list of outputs posts under an address. -/
def posts (sender : α) (outputs : List ω) : List (α × τ) :=
  (outputs.filterMap C.posted).map fun text => (sender, text)

/-- One machine handles one input. -/
def step (net : Net n σ α τ) (i : Fin n) (input : ι) : Net n σ α τ :=
  let answer := C.machine.step (net.parties i) input
  { parties := Function.update net.parties i answer.2
    sent := net.sent ++ C.posts (C.address (net.parties i)) answer.1 }

def run : Net n σ α τ → List (Fin n × ι) → Net n σ α τ
  | net, [] => net
  | net, (i, input) :: events => run (C.step net i input) events

/-- An input may arrive unless it attributes to a machine a text that this
machine did not post. -/
def Admits (net : Net n σ α τ) (input : ι) : Prop :=
  match C.delivered input with
  | some (sender, text) => (∃ j, C.address (net.parties j) = sender) → (sender, text) ∈ net.sent
  | none => True

/-- Every input of the run was admitted when it arrived. -/
def Admissible : Net n σ α τ → List (Fin n × ι) → Prop
  | _, [] => True
  | net, (i, input) :: events => C.Admits net input ∧ Admissible (C.step net i input) events

instance [DecidableEq α] [DecidableEq τ] (net : Net n σ α τ) (input : ι) :
    Decidable (C.Admits net input) := by
  unfold Admits
  split <;> infer_instance

instance admissibleDecidable [DecidableEq α] [DecidableEq τ] :
    ∀ (net : Net n σ α τ) (events : List (Fin n × ι)), Decidable (C.Admissible net events)
  | _, [] => .isTrue trivial
  | net, (i, input) :: events =>
    have := admissibleDecidable (C.step net i input) events
    inferInstanceAs (Decidable (_ ∧ _))

/-- The inputs of one machine, in order. -/
def inputsOf (i : Fin n) (events : List (Fin n × ι)) : List ι :=
  (events.filter fun event => event.1 = i).map Prod.snd

theorem inputsOf_cons_self (i : Fin n) (input : ι) (events : List (Fin n × ι)) :
    inputsOf i ((i, input) :: events) = input :: inputsOf i events := by
  simp [inputsOf]

theorem inputsOf_cons_other {i k : Fin n} (other : k ≠ i) (input : ι)
    (events : List (Fin n × ι)) : inputsOf i ((k, input) :: events) = inputsOf i events := by
  simp [inputsOf, other]

theorem inputsOf_append (i : Fin n) (events later : List (Fin n × ι)) :
    inputsOf i (events ++ later) = inputsOf i events ++ inputsOf i later := by
  simp [inputsOf]

theorem mem_inputsOf {i : Fin n} {input : ι} {events : List (Fin n × ι)} :
    input ∈ inputsOf i events ↔ (i, input) ∈ events := by
  simp [inputsOf]

/-- Each machine of the network goes through a run of its own inputs. -/
theorem run_parties (net : Net n σ α τ) (events : List (Fin n × ι)) (i : Fin n) :
    (C.run net events).parties i = C.machine.after (net.parties i) (inputsOf i events) := by
  induction events generalizing net with
  | nil => rfl
  | cons event events ih =>
    obtain ⟨k, input⟩ := event
    rw [run, ih]
    by_cases same : k = i
    · subst same
      rw [inputsOf_cons_self, Machine.after_cons]
      simp [step]
    · rw [inputsOf_cons_other same]
      simp [step, Ne.symm same]

theorem run_append (net : Net n σ α τ) (events later : List (Fin n × ι)) :
    C.run net (events ++ later) = C.run (C.run net events) later := by
  induction events generalizing net with
  | nil => rfl
  | cons event events ih => exact ih _

theorem address_after (s : σ) (inputs : List ι) :
    C.address (C.machine.after s inputs) = C.address s := by
  induction inputs generalizing s with
  | nil => rfl
  | cons input inputs ih => rw [Machine.after_cons, ih, C.address_step]

theorem address_run (net : Net n σ α τ) (events : List (Fin n × ι)) (i : Fin n) :
    C.address ((C.run net events).parties i) = C.address (net.parties i) := by
  rw [run_parties, address_after]

/-- The text was posted in the run that machine `i` makes on these inputs. -/
def PostedIn (s : σ) (inputs : List ι) (text : τ) : Prop :=
  ∃ output, .emitted output ∈ C.machine.trace s inputs ∧ C.posted output = some text

theorem PostedIn.cons {C : Station σ ι ω α τ} {s : σ} {input : ι} {inputs : List ι} {text : τ}
    (posted : C.PostedIn (C.machine.step s input).2 inputs text) :
    C.PostedIn s (input :: inputs) text := by
  obtain ⟨output, emitted, same⟩ := posted
  exact ⟨output, mem_append_right _ emitted, same⟩

/-- Posting in the network after one step is posting in the network. -/
theorem postedIn_of_step {net : Net n σ α τ} {k j : Fin n} {input : ι}
    {events : List (Fin n × ι)} {text : τ}
    (posted : C.PostedIn ((C.step net k input).parties j) (inputsOf j events) text) :
    C.PostedIn (net.parties j) (inputsOf j ((k, input) :: events)) text := by
  by_cases same : k = j
  · subst same
    rw [inputsOf_cons_self]
    refine PostedIn.cons ?_
    simpa [step] using posted
  · rw [inputsOf_cons_other same]
    simpa [step, Ne.symm same] using posted

/-- Whatever is in the network under a sender was there before or was posted by
the machine at that address. -/
theorem mem_sent_run {net : Net n σ α τ} {events : List (Fin n × ι)} {sender : α} {text : τ}
    (member : (sender, text) ∈ (C.run net events).sent) :
    (sender, text) ∈ net.sent ∨ ∃ j, C.address (net.parties j) = sender ∧
      C.PostedIn (net.parties j) (inputsOf j events) text := by
  induction events generalizing net with
  | nil => exact .inl member
  | cons event events ih =>
    obtain ⟨k, input⟩ := event
    rcases ih member with old | ⟨j, address, posted⟩
    · rcases mem_append.mp old with before | now
      · exact .inl before
      · obtain ⟨posted, inOutputs, same⟩ := mem_map.mp now
        obtain ⟨rfl, rfl⟩ := Prod.mk.inj same
        obtain ⟨output, inAnswer, isPosted⟩ := mem_filterMap.mp inOutputs
        refine .inr ⟨k, rfl, output, ?_, isPosted⟩
        rw [inputsOf_cons_self, Machine.trace_cons]
        exact mem_append_left _ (mem_cons_of_mem _ (mem_map_of_mem inAnswer))
    · refine .inr ⟨j, ?_, C.postedIn_of_step posted⟩
      rw [← address, ← C.address_run net [(k, input)] j]
      rfl

theorem PostedIn.append {C : Station σ ι ω α τ} {s : σ} {inputs : List ι} {text : τ}
    (posted : C.PostedIn s inputs text) (more : List ι) : C.PostedIn s (inputs ++ more) text := by
  obtain ⟨output, emitted, same⟩ := posted
  rw [PostedIn, Machine.trace_append]
  exact ⟨output, mem_append_left _ emitted, same⟩

/-- In an admissible run every input was admitted by the network it arrived in. -/
theorem Admissible.admits {C : Station σ ι ω α τ} {net : Net n σ α τ} {i : Fin n} {input : ι}
    {earlier later : List (Fin n × ι)}
    (admissible : C.Admissible net (earlier ++ (i, input) :: later)) :
    C.Admits (C.run net earlier) input := by
  induction earlier generalizing net with
  | nil => exact admissible.1
  | cons event earlier ih => exact ih admissible.2

/-- A text delivered under a machine's address was posted by a machine with that
address, or was in the network from the start. -/
theorem posted_of_delivered {net : Net n σ α τ} {events : List (Fin n × ι)}
    (admissible : C.Admissible net events) {i j : Fin n} {input : ι} {text : τ}
    (arrived : (i, input) ∈ events)
    (delivers : C.delivered input = some (C.address (net.parties j), text)) :
    (C.address (net.parties j), text) ∈ net.sent ∨
      ∃ k, C.address (net.parties k) = C.address (net.parties j) ∧
        C.PostedIn (net.parties k) (inputsOf k events) text := by
  obtain ⟨earlier, later, rfl⟩ := append_of_mem arrived
  have admits := admissible.admits
  simp only [Admits, delivers] at admits
  have sent := admits ⟨j, C.address_run net earlier j⟩
  refine (C.mem_sent_run sent).imp_right fun ⟨k, atSender, posted⟩ => ⟨k, atSender, ?_⟩
  rw [inputsOf_append]
  exact posted.append _

end Station

end Lij.Reactive
