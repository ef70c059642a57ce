import Mathlib.Logic.Relation
import Mathlib.Data.List.Basic

/-!
# Reactive machines and their histories

A reactive machine answers every input with a list of outputs and a next state.
Its history interleaves what it received with what it emitted, in order, so that
"earlier in the same run" is a statement about positions of one list.

The second half separates what a machine does while it handles one input into
elementary moves: silent changes of the state, closed by one move that emits the
answer. An invariant between histories and states then has to be checked once
for each elementary move, however the handler combines them.
-/

namespace Lij.Reactive

open List

variable {σ ι ω : Type}

/-- One entry of a history: an input that arrived or an output that left. -/
inductive Event (ι ω : Type) where
  | received (input : ι)
  | emitted (output : ω)
  deriving DecidableEq

/-- `later` is everything the history has after one occurrence of `first`. -/
def Since (history : List (Event ι ω)) (first : Event ι ω) (later : List (Event ι ω)) : Prop :=
  ∃ earlier, history = earlier ++ first :: later

namespace Since

variable {history later : List (Event ι ω)} {first last : Event ι ω}

theorem append (since : Since history first later) (more : List (Event ι ω)) :
    Since (history ++ more) first (later ++ more) := by
  obtain ⟨earlier, rfl⟩ := since
  exact ⟨earlier, by simp⟩

theorem of_mem (member : first ∈ history) : ∃ later, Since history first later := by
  obtain ⟨earlier, later, rfl⟩ := append_of_mem member
  exact ⟨later, earlier, rfl⟩

/-- The last entry comes after every other one. -/
theorem last_mem (since : Since (history ++ [last]) first later) (other : last ≠ first) :
    last ∈ later := by
  obtain ⟨earlier, same⟩ := since
  rcases eq_nil_or_concat later with rfl | ⟨rest, final, rfl⟩
  · have ends := (append_inj' same rfl).2
    simp only [List.cons.injEq, and_true] at ends
    exact absurd ends other
  · rw [concat_eq_append, ← cons_append, ← append_assoc] at same
    have ends := (append_inj' same rfl).2
    simp only [List.cons.injEq, and_true] at ends
    simp [ends]

end Since

/-- An entry that no other entry resembles splits the history in one way only. -/
theorem split_unique {p : Event ι ω → Prop} {before before' later later' : List (Event ι ω)}
    {e e' : Event ι ω} (same : before ++ e :: later = before' ++ e' :: later') (holds : p e)
    (noneBefore : ∀ x ∈ before', ¬p x) (noneLater : ∀ x ∈ later', ¬p x) :
    before = before' ∧ e = e' ∧ later = later' := by
  rcases append_eq_append_iff.mp same with ⟨middle, rfl, split⟩ | ⟨middle, rfl, split⟩
  · cases middle with
    | nil =>
      cases split
      exact ⟨(append_nil _).symm, rfl, rfl⟩
    | cons x middle =>
      cases split
      exact absurd holds (noneBefore _ (by simp))
  · cases middle with
    | nil =>
      cases split
      exact ⟨append_nil _, rfl, rfl⟩
    | cons x middle =>
      cases split
      exact absurd holds (noneLater _ (by simp))

structure Machine (σ ι ω : Type) where
  step : σ → ι → List ω × σ

namespace Machine

variable (M : Machine σ ι ω)

/-- The state after a list of inputs, handled from left to right. -/
def after : σ → List ι → σ
  | s, [] => s
  | s, input :: inputs => after (M.step s input).2 inputs

/-- What handling one input adds to the history. -/
def exchange (s : σ) (input : ι) : List (Event ι ω) :=
  .received input :: (M.step s input).1.map .emitted

/-- The whole history of a list of inputs. -/
def trace : σ → List ι → List (Event ι ω)
  | _, [] => []
  | s, input :: inputs => M.exchange s input ++ trace (M.step s input).2 inputs

@[simp] theorem after_nil (s : σ) : M.after s [] = s := rfl

@[simp] theorem after_cons (s : σ) (input : ι) (inputs : List ι) :
    M.after s (input :: inputs) = M.after (M.step s input).2 inputs := rfl

@[simp] theorem trace_nil (s : σ) : M.trace s [] = [] := rfl

@[simp] theorem trace_cons (s : σ) (input : ι) (inputs : List ι) :
    M.trace s (input :: inputs) = M.exchange s input ++ M.trace (M.step s input).2 inputs := rfl

theorem after_append (s : σ) (inputs more : List ι) :
    M.after s (inputs ++ more) = M.after (M.after s inputs) more := by
  induction inputs generalizing s with
  | nil => rfl
  | cons input inputs ih => exact ih _

theorem trace_append (s : σ) (inputs more : List ι) :
    M.trace s (inputs ++ more) = M.trace s inputs ++ M.trace (M.after s inputs) more := by
  induction inputs generalizing s with
  | nil => rfl
  | cons input inputs ih => simp only [cons_append, trace_cons, ih, after_cons,
      append_assoc]

/-- A history has received nothing but the inputs of its run. -/
theorem mem_of_received {s : σ} {inputs : List ι} {input : ι}
    (received : .received input ∈ M.trace s inputs) : input ∈ inputs := by
  induction inputs generalizing s with
  | nil => cases received
  | cons first inputs ih =>
    rcases mem_append.mp received with now | later
    · rcases mem_cons.mp now with same | emitted
      · cases same
        exact mem_cons_self
      · simp at emitted
    · exact mem_cons_of_mem _ (ih later)

/-- A relation between histories and states that every exchange preserves holds
of every run. The history before the run is kept general for the induction. -/
theorem history_invariant {Inv : List (Event ι ω) → σ → Prop}
    (preserved : ∀ history s input, Inv history s →
      Inv (history ++ M.exchange s input) (M.step s input).2)
    {history : List (Event ι ω)} {s : σ} (start : Inv history s) (inputs : List ι) :
    Inv (history ++ M.trace s inputs) (M.after s inputs) := by
  induction inputs generalizing history s with
  | nil => simpa using start
  | cons input inputs ih =>
    have next := ih (preserved history s input start)
    simpa only [trace_cons, after_cons, append_assoc] using next

end Machine

/-- The elementary moves available to a handler. `silent` changes the state
without an output; `emits` closes the handling of an input with its answer. -/
structure Moves (σ ι ω : Type) where
  silent : ι → σ → σ → Prop
  emits : ι → σ → List ω → σ → Prop

namespace Moves

variable (V : Moves σ ι ω)

/-- Some silent moves followed by the answer. -/
def Answers (input : ι) (s : σ) (outputs : List ω) (s' : σ) : Prop :=
  ∃ middle, Relation.ReflTransGen (V.silent input) s middle ∧ V.emits input middle outputs s'

theorem Answers.of_silent {V : Moves σ ι ω} {input : ι} {s middle s' : σ} {outputs : List ω}
    (silent : Relation.ReflTransGen (V.silent input) s middle)
    (answers : V.Answers input middle outputs s') : V.Answers input s outputs s' := by
  obtain ⟨last, rest, emits⟩ := answers
  exact ⟨last, silent.trans rest, emits⟩

/-- An invariant between histories and states, checked move by move. The input
being handled is the last entry of the history while its moves are taken. -/
structure Keeps (Inv : List (Event ι ω) → σ → Prop) : Prop where
  receives : ∀ history s input, Inv history s → Inv (history ++ [.received input]) s
  silent : ∀ history s s' input, Inv (history ++ [.received input]) s →
    V.silent input s s' → Inv (history ++ [.received input]) s'
  emits : ∀ history s s' input outputs, Inv (history ++ [.received input]) s →
    V.emits input s outputs s' →
    Inv (history ++ .received input :: outputs.map .emitted) s'

theorem Keeps.silent_star {V : Moves σ ι ω} {Inv : List (Event ι ω) → σ → Prop}
    (keeps : V.Keeps Inv) {history : List (Event ι ω)} {s s' : σ} {input : ι}
    (holds : Inv (history ++ [.received input]) s)
    (moves : Relation.ReflTransGen (V.silent input) s s') :
    Inv (history ++ [.received input]) s' := by
  induction moves with
  | refl => exact holds
  | tail _ move ih => exact keeps.silent history _ _ input ih move

end Moves

/-- Every step of the machine consists of the given moves. -/
def Machine.Follows (M : Machine σ ι ω) (V : Moves σ ι ω) : Prop :=
  ∀ s input, V.Answers input s (M.step s input).1 (M.step s input).2

/-- Move-by-move preservation gives preservation along every run. -/
theorem Machine.Follows.history_invariant {M : Machine σ ι ω} {V : Moves σ ι ω}
    (follows : M.Follows V) {Inv : List (Event ι ω) → σ → Prop} (keeps : V.Keeps Inv)
    {history : List (Event ι ω)} {s : σ} (start : Inv history s) (inputs : List ι) :
    Inv (history ++ M.trace s inputs) (M.after s inputs) := by
  have preserved : ∀ history s input, Inv history s →
      Inv (history ++ M.exchange s input) (M.step s input).2 := by
    intro history s input holds
    obtain ⟨middle, silent, emits⟩ := follows s input
    have atMiddle := keeps.silent_star (keeps.receives history s input holds) silent
    exact keeps.emits history middle _ input _ atMiddle emits
  exact M.history_invariant preserved start inputs

/-- The same rule for invariants of the state alone. -/
theorem Machine.Follows.invariant {M : Machine σ ι ω} {V : Moves σ ι ω}
    (follows : M.Follows V) {Inv : σ → Prop}
    (silent : ∀ s s' input, Inv s → V.silent input s s' → Inv s')
    (emits : ∀ s s' input outputs, Inv s → V.emits input s outputs s' → Inv s')
    {s : σ} (start : Inv s) (inputs : List ι) : Inv (M.after s inputs) := by
  have keeps : V.Keeps (fun _ state => Inv state) :=
    { receives := fun _ _ _ holds => holds
      silent := fun _ s s' input holds move => silent s s' input holds move
      emits := fun _ s s' input outputs holds move => emits s s' input outputs holds move }
  have run := @Machine.Follows.history_invariant _ _ _ M V follows _ keeps [] s start inputs
  exact run

end Lij.Reactive
