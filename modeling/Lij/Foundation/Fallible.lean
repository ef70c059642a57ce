import Lij.Foundation.Reactive

/-!
# Fallible stateful handlers

A handler that mutates its state in place and may return an error leaves every
assignment made before the error standing. `Fallible` therefore keeps the state
on both outcomes. The rules below decide, statement by statement, that a handler
consists of the elementary moves of `Reactive.Moves`: a failing prefix is a run
of silent moves, a successful handler is such a run closed by its answer.
-/

namespace Lij

open Reactive

/-- A computation on a state that may fail with a message; the state survives. -/
abbrev Fallible (σ : Type) : Type → Type := ExceptT String (StateM σ)

namespace Fallible

variable {σ ι ω α β : Type}

def exec (m : Fallible σ α) (s : σ) : Except String α × σ := m.run.run s

/-- `ensure!` in a handler: fail with the message unless the condition holds. -/
def require (p : Prop) [Decidable p] (message : String) : Fallible σ Unit :=
  if p then pure () else throw message

/-- The `?` operator on a computation that does not touch the state. -/
def lift (result : Except String α) : Fallible σ α :=
  match result with
  | .ok a => pure a
  | .error message => throw message

@[simp] theorem exec_pure (a : α) (s : σ) : (pure a : Fallible σ α).exec s = (.ok a, s) := rfl

@[simp] theorem exec_throw (message : String) (s : σ) :
    (throw message : Fallible σ α).exec s = (.error message, s) := rfl

@[simp] theorem exec_lift (result : Except String α) (s : σ) :
    (lift result : Fallible σ α).exec s = (result, s) := by
  cases result <;> rfl

theorem exec_lift_bind_of_eq {result : Except String α} {a : α} (ok : result = .ok a)
    (f : α → Fallible σ β) (s : σ) : (lift result >>= f).exec s = (f a).exec s := by
  rw [ok]
  rfl

theorem exec_require_bind_of {p : Prop} [Decidable p] (holds : p) (message : String)
    (f : Unit → Fallible σ β) (s : σ) : (require p message >>= f).exec s = (f ()).exec s := by
  have passes : (require p message : Fallible σ Unit) = pure () := if_pos holds
  rw [passes]
  rfl

@[simp] theorem exec_get_bind (f : σ → Fallible σ β) (s : σ) :
    ((get : Fallible σ σ) >>= f).exec s = (f s).exec s := rfl

@[simp] theorem exec_modify_bind (g : σ → σ) (f : PUnit → Fallible σ β) (s : σ) :
    ((modify g : Fallible σ PUnit) >>= f).exec s = (f ⟨⟩).exec (g s) := rfl

theorem exec_bind (m : Fallible σ α) (f : α → Fallible σ β) (s : σ) :
    (m >>= f).exec s =
      match m.exec s with
      | (.ok a, s') => (f a).exec s'
      | (.error message, s') => (.error message, s') := by
  change (ExceptT.bind m f).run.run s = _
  cases h : m.exec s with
  | mk outcome s' =>
    have h' : m.run.run s = (outcome, s') := h
    cases outcome with
    | ok a | error message =>
      simp only [ExceptT.bind, ExceptT.run_mk, StateT.run_bind]
      change (let p := m.run.run s; ((ExceptT.bindCont f p.1).run p.2)) = _
      rw [h']
      rfl

theorem exec_tryCatch (m : Fallible σ α) (handler : String → Fallible σ α) (s : σ) :
    (tryCatch m handler).exec s =
      match m.exec s with
      | (.ok a, s') => (.ok a, s')
      | (.error message, s') => (handler message).exec s' := by
  change (ExceptT.tryCatch m handler).run.run s = _
  cases h : m.exec s with
  | mk outcome s' =>
    have h' : StateT.run (m : StateM σ (Except String α)) s = (outcome, s') := h
    simp only [ExceptT.tryCatch, ExceptT.run_mk, StateT.run_bind]
    rw [h']
    cases outcome with
    | ok a | error message => rfl

/-- A result reached from `s` by silent moves, closed by its answer on success. -/
def Reached (V : Moves σ ι ω) (input : ι) (s : σ) : Except String (List ω) × σ → Prop
  | (.ok outputs, s') => V.Answers input s outputs s'
  | (.error _, s') => Relation.ReflTransGen (V.silent input) s s'

/-- Running the handler from `s` consists of the moves `V`. -/
def Follows (V : Moves σ ι ω) (input : ι) (m : Fallible σ (List ω)) (s : σ) : Prop :=
  Reached V input s (m.exec s)

/-- A result without an answer of its own, reached by silent moves only; on
success its value and state satisfy `post`. -/
def Passed (V : Moves σ ι ω) (input : ι) (s : σ) (post : α → σ → Prop) :
    Except String α × σ → Prop
  | (.ok a, s') => Relation.ReflTransGen (V.silent input) s s' ∧ post a s'
  | (.error _, s') => Relation.ReflTransGen (V.silent input) s s'

def Silently (V : Moves σ ι ω) (input : ι) (m : Fallible σ α) (s : σ)
    (post : α → σ → Prop) : Prop :=
  Passed V input s post (m.exec s)

variable {V : Moves σ ι ω} {input : ι} {s s' : σ} {m : Fallible σ (List ω)}

/-- Returning the answer is the emitting move. -/
theorem Follows.pure {outputs : List ω} (emits : V.emits input s outputs s) :
    Follows V input (pure outputs) s :=
  ⟨s, .refl, emits⟩

/-- A last assignment belongs to the emitting move. -/
theorem Follows.modify_pure {g : σ → σ} {outputs : List ω}
    (emits : V.emits input s outputs (g s)) :
    Follows V input (do modify g; Pure.pure outputs) s :=
  ⟨s, .refl, emits⟩

theorem Follows.throw {message : String} :
    Follows V input (throw message : Fallible σ (List ω)) s :=
  Relation.ReflTransGen.refl

theorem Reached.of_silent {result : Except String (List ω) × σ}
    (silent : Relation.ReflTransGen (V.silent input) s s')
    (reached : Reached V input s' result) : Reached V input s result := by
  match result, reached with
  | (.ok _, _), answers => exact Moves.Answers.of_silent silent answers
  | (.error _, _), rest => exact silent.trans rest

theorem Passed.of_silent {result : Except String α × σ} {post : α → σ → Prop}
    (silent : Relation.ReflTransGen (V.silent input) s s')
    (passed : Passed V input s' post result) : Passed V input s post result := by
  match result, passed with
  | (.ok _, _), rest => exact ⟨silent.trans rest.1, rest.2⟩
  | (.error _, _), rest => exact silent.trans rest

theorem Follows.get_bind {f : σ → Fallible σ (List ω)} (follows : Follows V input (f s) s) :
    Follows V input ((get : Fallible σ σ) >>= f) s := follows

/-- An assignment is one silent move. -/
theorem Follows.modify_bind {g : σ → σ} {f : PUnit → Fallible σ (List ω)}
    (move : V.silent input s (g s)) (follows : Follows V input (f ⟨⟩) (g s)) :
    Follows V input ((modify g : Fallible σ PUnit) >>= f) s :=
  Reached.of_silent (.single move) follows

theorem Follows.require_bind {p : Prop} [Decidable p] {message : String}
    {f : Unit → Fallible σ (List ω)} (follows : p → Follows V input (f ()) s) :
    Follows V input (require p message >>= f) s := by
  unfold require
  split
  · exact follows ‹p›
  · exact Relation.ReflTransGen.refl

theorem Follows.lift_bind {result : Except String α} {f : α → Fallible σ (List ω)}
    (follows : ∀ a, result = .ok a → Follows V input (f a) s) :
    Follows V input (lift result >>= f) s := by
  cases result with
  | ok a => exact follows a rfl
  | error message => exact Relation.ReflTransGen.refl

theorem Follows.ite {p : Prop} [Decidable p] {m' : Fallible σ (List ω)}
    (yes : p → Follows V input m s) (no : ¬p → Follows V input m' s) :
    Follows V input (if p then m else m') s := by
  split
  · exact yes ‹p›
  · exact no ‹¬p›

/-- Sequencing after a silent computation. -/
theorem Follows.silently_bind {n : Fallible σ α} {f : α → Fallible σ (List ω)}
    {post : α → σ → Prop} (silently : Silently V input n s post)
    (follows : ∀ a s', post a s' → Follows V input (f a) s') :
    Follows V input (n >>= f) s := by
  unfold Silently at silently
  unfold Follows
  rw [exec_bind]
  match n.exec s, silently with
  | (.ok a, s'), ⟨silent, holds⟩ => exact .of_silent silent (follows a s' holds)
  | (.error _, _), silent => exact silent

theorem Silently.pure {a : α} {post : α → σ → Prop} (holds : post a s) :
    Silently V input (pure a) s post :=
  ⟨.refl, holds⟩

theorem Silently.get_bind {f : σ → Fallible σ α} {post : α → σ → Prop}
    (silently : Silently V input (f s) s post) :
    Silently V input ((get : Fallible σ σ) >>= f) s post := silently

theorem Silently.lift_bind {result : Except String α} {f : α → Fallible σ β}
    {post : β → σ → Prop}
    (silently : ∀ a, result = .ok a → Silently V input (f a) s post) :
    Silently V input (lift result >>= f) s post := by
  cases result with
  | ok a => exact silently a rfl
  | error message => exact Relation.ReflTransGen.refl

theorem Silently.modify_bind {g : σ → σ} {f : PUnit → Fallible σ α} {post : α → σ → Prop}
    (move : V.silent input s (g s)) (silently : Silently V input (f ⟨⟩) (g s) post) :
    Silently V input ((modify g : Fallible σ PUnit) >>= f) s post :=
  Passed.of_silent (.single move) silently

theorem Silently.bind {n : Fallible σ α} {f : α → Fallible σ β}
    {mid : α → σ → Prop} {post : β → σ → Prop} (first : Silently V input n s mid)
    (second : ∀ a s', mid a s' → Silently V input (f a) s' post) :
    Silently V input (n >>= f) s post := by
  unfold Silently at first ⊢
  rw [exec_bind]
  match n.exec s, first with
  | (.ok a, s'), ⟨silent, holds⟩ => exact .of_silent silent (second a s' holds)
  | (.error _, _), silent => exact silent

end Fallible

end Lij
