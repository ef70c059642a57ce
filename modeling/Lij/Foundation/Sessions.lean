import Lij.Foundation.Writes

/-!
# A state in memory beside the storage

A session holds a state in memory and a disk. What it does in memory keeps its
assignments when it fails, as a fallible handler does; what it does on the disk
is a sequence of writes that may fail. `Ends` is the contract of a handler, with
one rule for each statement, and the two lifts carry contracts of either side to
the session.
-/

namespace Lij

namespace Fallible

variable {σ α β ι : Type}

/-- What holds when a handler returns and when it fails. -/
def Ends (m : Fallible σ α) (s : σ) (post : α → σ → Prop) (failed : σ → Prop) : Prop :=
  match m.exec s with
  | (.ok a, s') => post a s'
  | (.error _, s') => failed s'

namespace Ends

variable {m : Fallible σ α} {s : σ} {post post' : α → σ → Prop} {failed failed' : σ → Prop}

theorem mono (ends : Ends m s post failed) (onReturn : ∀ a s, post a s → post' a s)
    (onFailure : ∀ s, failed s → failed' s) : Ends m s post' failed' := by
  rw [Ends] at ends ⊢
  match m.exec s, ends with
  | (.ok a, s'), holds => exact onReturn a s' holds
  | (.error _, s'), holds => exact onFailure s' holds

theorem and (first : Ends m s post failed) (second : Ends m s post' failed') :
    Ends m s (fun a s => post a s ∧ post' a s) fun s => failed s ∧ failed' s := by
  rw [Ends] at first second ⊢
  match m.exec s, first, second with
  | (.ok a, s'), holds, holds' => exact ⟨holds, holds'⟩
  | (.error _, s'), holds, holds' => exact ⟨holds, holds'⟩

theorem pure {a : α} (holds : post a s) : Ends (Pure.pure a) s post failed := holds

theorem bind {f : α → Fallible σ β} {after : β → σ → Prop} (first : Ends m s post failed)
    (second : ∀ a s', post a s' → Ends (f a) s' after failed) :
    Ends (m >>= f) s after failed := by
  rw [Ends] at first ⊢
  rw [exec_bind]
  match m.exec s, first with
  | (.ok a, s'), holds => exact second a s' holds
  | (.error _, _), holds => exact holds

theorem get_bind {f : σ → Fallible σ α} (then_ : Ends (f s) s post failed) :
    Ends ((get : Fallible σ σ) >>= f) s post failed := then_

theorem modify_bind {g : σ → σ} {f : PUnit → Fallible σ α}
    (then_ : Ends (f ⟨⟩) (g s) post failed) :
    Ends ((modify g : Fallible σ PUnit) >>= f) s post failed := then_

theorem lift {result : Except String α} (yes : ∀ a, result = .ok a → post a s)
    (no : failed s) : Ends (Fallible.lift result) s post failed := by
  cases result with
  | ok a => exact yes a rfl
  | error message => exact no

theorem lift_bind {result : Except String α} {f : α → Fallible σ β} {after : β → σ → Prop}
    (yes : ∀ a, result = .ok a → Ends (f a) s after failed) (no : failed s) :
    Ends (Fallible.lift result >>= f) s after failed := by
  cases result with
  | ok a => exact yes a rfl
  | error message => exact no

theorem require_cases {p : Prop} [Decidable p] {message : String} {f : Unit → Fallible σ α}
    (yes : p → Ends (f ()) s post failed) (no : ¬p → failed s) :
    Ends (require p message >>= f) s post failed := by
  by_cases holds : p
  · have passes : (require p message : Fallible σ Unit) = Pure.pure () := if_pos holds
    rw [passes]
    exact yes holds
  · have refuses : (require p message : Fallible σ Unit) = throw message := if_neg holds
    rw [refuses]
    exact no holds

theorem require_bind {p : Prop} [Decidable p] {message : String} {f : Unit → Fallible σ α}
    (yes : p → Ends (f ()) s post failed) (no : failed s) :
    Ends (require p message >>= f) s post failed := require_cases yes fun _ => no

theorem ite {p : Prop} [Decidable p] {m' : Fallible σ α} (yes : p → Ends m s post failed)
    (no : ¬p → Ends m' s post failed) : Ends (if p then m else m') s post failed := by
  split
  · exact yes ‹p›
  · exact no ‹¬p›

/-- A loop with an accumulator, each of whose rounds keeps an invariant. -/
theorem foldlM {f : β → ι → Fallible σ β} {Inv : β → σ → Prop} {xs : List ι} {b : β}
    (each : ∀ x ∈ xs, ∀ b s, Inv b s → Ends (f b x) s Inv failed) (start : Inv b s) :
    Ends (xs.foldlM f b) s Inv failed := by
  induction xs generalizing b s with
  | nil => exact pure start
  | cons x xs ih =>
    obtain ⟨first, others⟩ := List.forall_mem_cons.mp each
    rw [List.foldlM_cons]
    exact (first b s start).bind fun b' s' holds => ih others holds

/-- The contract read off a result. -/
theorem of_exec (ends : Ends m s post failed) {a : α} {s' : σ} (returned : m.exec s = (.ok a, s')) :
    post a s' := by
  rw [Ends, returned] at ends
  exact ends

theorem of_exec_error (ends : Ends m s post failed) {message : String} {s' : σ}
    (gaveUp : m.exec s = (.error message, s')) : failed s' := by
  rw [Ends, gaveUp] at ends
  exact ends

end Ends

end Fallible

namespace Storing

open Fallible

variable {σ δ α : Type}

/-- A handler of the state in memory. -/
def inMemory (m : Fallible σ α) : Storing (σ × δ) α := ExceptT.mk fun w =>
  ((m.exec w.disk.1).1, ⟨((m.exec w.disk.1).2, w.disk.2), w.outcomes⟩)

/-- An operation on the disk. -/
def onDisk (m : Storing δ α) : Storing (σ × δ) α := ExceptT.mk fun w =>
  ((m.exec ⟨w.disk.2, w.outcomes⟩).1,
    ⟨(w.disk.1, (m.exec ⟨w.disk.2, w.outcomes⟩).2.disk),
      (m.exec ⟨w.disk.2, w.outcomes⟩).2.outcomes⟩)

variable {s : σ} {d : δ} {outcomes : List (Option String)}

theorem exec_inMemory (m : Fallible σ α) :
    (inMemory m : Storing (σ × δ) α).exec ⟨(s, d), outcomes⟩ =
      ((m.exec s).1, ⟨((m.exec s).2, d), outcomes⟩) := rfl

theorem exec_onDisk (m : Storing δ α) :
    (onDisk m : Storing (σ × δ) α).exec ⟨(s, d), outcomes⟩ =
      ((m.exec ⟨d, outcomes⟩).1,
        ⟨(s, (m.exec ⟨d, outcomes⟩).2.disk), (m.exec ⟨d, outcomes⟩).2.outcomes⟩) := rfl

namespace Ensures

variable {reliable : Prop}

/-- A handler's contract holds of the session, and the disk stays. -/
theorem inMemory {m : Fallible σ α} {post : α → σ → Prop} {failed : σ → Prop}
    (ends : Ends m s post failed) :
    Ensures reliable (Storing.inMemory m : Storing (σ × δ) α) (s, d)
      (fun a s' => post a s'.1 ∧ s'.2 = d) fun s' => failed s'.1 ∧ s'.2 = d := by
  intro outcomes lands
  rw [exec_inMemory]
  rw [Ends] at ends
  match m.exec s, ends with
  | (.ok a, s'), holds => exact ⟨lands, holds, rfl⟩
  | (.error _, s'), holds => exact ⟨holds, rfl⟩

/-- A storage contract holds of the session, and the memory stays. -/
theorem onDisk {m : Storing δ α} {post : α → δ → Prop} {failed : δ → Prop}
    (ensures : Ensures reliable m d post failed) :
    Ensures reliable (Storing.onDisk m : Storing (σ × δ) α) (s, d)
      (fun a s' => post a s'.2 ∧ s'.1 = s) fun s' => failed s'.2 ∧ s'.1 = s := by
  intro outcomes lands
  rw [exec_onDisk]
  have met := ensures outcomes lands
  match m.exec ⟨d, outcomes⟩, met with
  | (.ok a, w), ⟨left, holds⟩ => exact ⟨left, holds, rfl⟩
  | (.error _, w), holds => exact ⟨holds, rfl⟩

end Ensures

end Storing

end Lij
