import Lij.Foundation.Fallible

/-!
# Writes that may fail

A storage operation is a sequence of writes, each of which lands as a whole or
fails with a message and ends the operation; what landed before it stays. The
outcomes of the coming writes are part of the state, so that one operation is a
function of the disk and of the writes that fail.

`Ensures` is the contract of an operation over every choice of failing writes:
what holds of the disk when it returns, and what holds when it gives up. With
`reliable` no write fails, and only the operation's own errors end it early.
-/

namespace Lij

open Fallible List

/-- The disk and, for each coming write, the message it fails with. Writes beyond the list
land. -/
structure Writing (δ : Type) where
  disk : δ
  outcomes : List (Option String)

abbrev Storing (δ : Type) : Type → Type := Fallible (Writing δ)

namespace Storing

variable {δ α β ι : Type}

def read : Storing δ δ := do
  let s ← get
  return s.disk

def write (update : δ → δ) : Storing δ Unit := do
  let s ← get
  match s.outcomes with
  | some message :: rest => do
    modify fun s => { s with outcomes := rest }
    throw message
  | none :: rest => modify fun s => ⟨update s.disk, rest⟩
  | [] => modify fun s => { s with disk := update s.disk }

/-- One write by the first outcome. -/
theorem exec_write (update : δ → δ) (d : δ) (outcomes : List (Option String)) :
    (write update).exec ⟨d, outcomes⟩ =
      match outcomes.head?.join with
      | none => (.ok (), ⟨update d, outcomes.drop 1⟩)
      | some message => (.error message, ⟨d, outcomes.drop 1⟩) := by
  cases outcomes with
  | nil => rfl
  | cons outcome rest => cases outcome <;> rfl

/-- Run an operation; the outcomes left over concern no later one. -/
def run (m : Storing δ α) (d : δ) (outcomes : List (Option String)) : Except String α × δ :=
  let result := m.exec ⟨d, outcomes⟩
  (result.1, result.2.disk)

/-- No write of the list fails. -/
def Lands (outcomes : List (Option String)) : Prop := ∀ outcome ∈ outcomes, outcome = none

/-- What a contract says of one result. -/
def Met (reliable : Prop) (post : α → δ → Prop) (failed : δ → Prop) :
    Except String α × Writing δ → Prop
  | (.ok a, s) => (reliable → Lands s.outcomes) ∧ post a s.disk
  | (.error _, s) => failed s.disk

def Ensures (reliable : Prop) (m : Storing δ α) (d : δ) (post : α → δ → Prop)
    (failed : δ → Prop) : Prop :=
  ∀ outcomes, (reliable → Lands outcomes) → Met reliable post failed (m.exec ⟨d, outcomes⟩)

namespace Ensures

variable {reliable : Prop} {m : Storing δ α} {d : δ} {post post' : α → δ → Prop}
variable {failed failed' : δ → Prop}

theorem mono (ensures : Ensures reliable m d post failed)
    (onReturn : ∀ a d, post a d → post' a d) (onFailure : ∀ d, failed d → failed' d) :
    Ensures reliable m d post' failed' := by
  intro outcomes lands
  have met := ensures outcomes lands
  match result : m.exec ⟨d, outcomes⟩, met with
  | (.ok a, s), ⟨left, holds⟩ => exact ⟨left, onReturn a s.disk holds⟩
  | (.error _, s), holds => exact onFailure s.disk holds

theorem pure {a : α} (holds : post a d) : Ensures reliable (Pure.pure a) d post failed :=
  fun _ lands => ⟨lands, holds⟩

theorem bind {f : α → Storing δ β} {after : β → δ → Prop}
    (first : Ensures reliable m d post failed)
    (second : ∀ a d', post a d' → Ensures reliable (f a) d' after failed) :
    Ensures reliable (m >>= f) d after failed := by
  intro outcomes lands
  have met := first outcomes lands
  rw [exec_bind]
  match m.exec ⟨d, outcomes⟩, met with
  | (.ok a, s), ⟨left, holds⟩ => exact second a s.disk holds s.outcomes left
  | (.error _, _), holds => exact holds

theorem read_bind {f : δ → Storing δ α} (then_ : Ensures reliable (f d) d post failed) :
    Ensures reliable (read >>= f) d post failed := then_

/-- A write lands, or it fails and the disk is as before. -/
theorem write {update : δ → δ} {post : Unit → δ → Prop} (lands : post () (update d))
    (fails : ¬reliable → failed d) : Ensures reliable (write update) d post failed := by
  intro outcomes safe
  match outcomes, safe with
  | [], safe => exact ⟨safe, lands⟩
  | none :: rest, safe =>
    exact ⟨fun sure outcome member => safe sure outcome (mem_cons_of_mem _ member), lands⟩
  | some message :: rest, safe =>
    refine fails fun sure => ?_
    cases safe sure _ mem_cons_self

theorem write_bind {update : δ → δ} {f : Unit → Storing δ α}
    (lands : Ensures reliable (f ()) (update d) post failed) (fails : ¬reliable → failed d) :
    Ensures reliable (Storing.write update >>= f) d post failed := by
  have first : Ensures reliable (Storing.write update) d (fun _ d' => d' = update d) failed :=
    write rfl fails
  refine first.bind fun _ d' same => ?_
  rw [same]
  exact lands

theorem require_bind {p : Prop} [Decidable p] {message : String} {f : Unit → Storing δ α}
    (yes : p → Ensures reliable (f ()) d post failed) (no : ¬p → failed d) :
    Ensures reliable (require p message >>= f) d post failed := by
  by_cases holds : p
  · have passes : (require p message : Storing δ Unit) = Pure.pure () := if_pos holds
    rw [passes]
    exact yes holds
  · have refuses : (require p message : Storing δ Unit) = MonadExcept.throw message :=
      if_neg holds
    rw [refuses]
    exact fun _ _ => no holds

theorem lift_bind {result : Except String α} {f : α → Storing δ β} {after : β → δ → Prop}
    (yes : ∀ a, result = .ok a → Ensures reliable (f a) d after failed)
    (no : (∀ a, result ≠ .ok a) → failed d) :
    Ensures reliable (lift result >>= f) d after failed := by
  cases result with
  | ok a => exact yes a rfl
  | error message => exact fun _ _ => no fun a same => by cases same

theorem ite {p : Prop} [Decidable p] {m' : Storing δ α}
    (yes : p → Ensures reliable m d post failed) (no : ¬p → Ensures reliable m' d post failed) :
    Ensures reliable (if p then m else m') d post failed := by
  split
  · exact yes ‹p›
  · exact no ‹¬p›

/-- A loop whose body keeps an invariant, however it ends, keeps it. -/
theorem forM {body : ι → Storing δ PUnit} {Inv : δ → Prop} {xs : List ι}
    (each : ∀ x ∈ xs, ∀ d, Inv d → Ensures reliable (body x) d (fun _ => Inv) Inv)
    (start : Inv d) : Ensures reliable (xs.forM body) d (fun _ => Inv) Inv := by
  induction xs generalizing d with
  | nil => exact pure start
  | cons x xs ih =>
    obtain ⟨first, others⟩ := forall_mem_cons.mp each
    change Ensures reliable (body x >>= fun _ => xs.forM body) _ _ _
    exact (first d start).bind fun _ d' holds => ih others holds

/-- The contract read off a run. -/
theorem run (ensures : Ensures reliable m d post failed) {outcomes : List (Option String)}
    (lands : reliable → Lands outcomes) :
    (∀ a, (m.run d outcomes).1 = .ok a → post a (m.run d outcomes).2) ∧
      ∀ message, (m.run d outcomes).1 = .error message → failed (m.run d outcomes).2 := by
  have met := ensures outcomes lands
  rw [Storing.run]
  match m.exec ⟨d, outcomes⟩, met with
  | (.ok a, s), ⟨_, holds⟩ =>
    refine ⟨fun b same => ?_, fun message same => by cases same⟩
    cases same
    exact holds
  | (.error _, s), holds => exact ⟨fun b same => (by cases same), fun message _ => holds⟩

/-- An invariant that holds however the operation ends. -/
theorem run_invariant {Inv : δ → Prop} (ensures : Ensures reliable m d (fun _ => Inv) Inv)
    {outcomes : List (Option String)} (lands : reliable → Lands outcomes) :
    Inv (m.run d outcomes).2 := by
  obtain ⟨onReturn, onFailure⟩ := ensures.run lands
  cases result : (m.run d outcomes).1 with
  | ok a => exact onReturn a result
  | error message => exact onFailure message result

end Ensures

/-- An operation that keeps an invariant of the disk whichever of its writes fail. -/
def Keeps (Inv : δ → Prop) (m : Storing δ α) : Prop :=
  ∀ d, Inv d → Ensures False m d (fun _ => Inv) Inv

namespace Keeps

variable {Inv : δ → Prop} {m : Storing δ α}

theorem pure (a : α) : Keeps Inv (Pure.pure a : Storing δ α) := fun _ holds => .pure holds

theorem bind {f : α → Storing δ β} (first : Keeps Inv m) (second : ∀ a, Keeps Inv (f a)) :
    Keeps Inv (m >>= f) :=
  fun d holds => (first d holds).bind fun a d' holds' => second a d' holds'

theorem read_bind {f : δ → Storing δ α} (then_ : ∀ d, Keeps Inv (f d)) :
    Keeps Inv (read >>= f) := fun d holds => .read_bind (then_ d d holds)

theorem write {update : δ → δ} (lands : ∀ d, Inv d → Inv (update d)) :
    Keeps Inv (Storing.write update) := fun d holds => .write (lands d holds) fun _ => holds

theorem require_bind {p : Prop} [Decidable p] {message : String} {f : Unit → Storing δ α}
    (then_ : Keeps Inv (f ())) : Keeps Inv (require p message >>= f) :=
  fun d holds => .require_bind (fun _ => then_ d holds) fun _ => holds

theorem lift_bind {result : Except String α} {f : α → Storing δ β}
    (then_ : ∀ a, Keeps Inv (f a)) : Keeps Inv (lift result >>= f) :=
  fun d holds => .lift_bind (fun a _ => then_ a d holds) fun _ => holds

theorem ite {p : Prop} [Decidable p] {m' : Storing δ α} (yes : p → Keeps Inv m)
    (no : ¬p → Keeps Inv m') : Keeps Inv (if p then m else m') :=
  fun d holds => .ite (fun h => yes h d holds) fun h => no h d holds

theorem forM {body : ι → Storing δ PUnit} {xs : List ι} (each : ∀ x ∈ xs, Keeps Inv (body x)) :
    Keeps Inv (xs.forM body) :=
  fun _ holds => .forM (fun x member d => each x member d) holds

/-- After the operation, whatever failed, the invariant holds. -/
theorem run (keeps : Keeps Inv m) {d : δ} (holds : Inv d) (outcomes : List (Option String)) :
    Inv (m.run d outcomes).2 := (keeps d holds).run_invariant False.elim

end Keeps

/-! ## Counting writes -/

/-- One result after `n` writes, which all landed. -/
def Made (n : Nat) (outcomes : List (Option String)) (post : α → δ → Prop) (failed : δ → Prop) :
    Except String α × Writing δ → Prop
  | (.ok a, s) =>
    s.outcomes = outcomes.drop n ∧ (∀ i < n, outcomes[i]?.join = none) ∧ post a s.disk
  | (.error _, s) => failed s.disk

/-- When the operation returns it has made `n` writes. -/
def Makes (n : Nat) (m : Storing δ α) (d : δ) (post : α → δ → Prop) (failed : δ → Prop) : Prop :=
  ∀ outcomes, Made n outcomes post failed (m.exec ⟨d, outcomes⟩)

namespace Makes

variable {n k : Nat} {m : Storing δ α} {d : δ} {post : α → δ → Prop} {failed : δ → Prop}

theorem pure {a : α} (holds : post a d) : Makes 0 (Pure.pure a) d post failed :=
  fun _ => ⟨rfl, fun _ none => absurd none (Nat.not_lt_zero _), holds⟩

theorem read_bind {f : δ → Storing δ α} (then_ : Makes n (f d) d post failed) :
    Makes n (read >>= f) d post failed := then_

theorem write {update : δ → δ} {post : Unit → δ → Prop} (lands : post () (update d))
    (fails : failed d) : Makes 1 (write update) d post failed := by
  intro outcomes
  match outcomes with
  | [] => exact ⟨rfl, fun _ _ => rfl, lands⟩
  | none :: rest =>
    refine ⟨rfl, fun i first => ?_, lands⟩
    obtain rfl : i = 0 := Nat.lt_one_iff.mp first
    rfl
  | some message :: rest => exact fails

theorem bind {f : α → Storing δ β} {after : β → δ → Prop} (first : Makes n m d post failed)
    (second : ∀ a d', post a d' → Makes k (f a) d' after failed) :
    Makes (n + k) (m >>= f) d after failed := by
  intro outcomes
  have made := first outcomes
  rw [exec_bind]
  match m.exec ⟨d, outcomes⟩, made with
  | (.error _, _), holds => exact holds
  | (.ok a, s), ⟨left, landed, holds⟩ =>
    have more := second a s.disk holds s.outcomes
    show Made (n + k) outcomes after failed ((f a).exec s)
    match (f a).exec s, more with
    | (.error _, _), holds => exact holds
    | (.ok b, s'), ⟨left', landed', holds'⟩ =>
      refine ⟨by rw [left', left, drop_drop], fun i inside => ?_, holds'⟩
      by_cases early : i < n
      · exact landed i early
      · have late := landed' (i - n) (by omega)
        rwa [left, getElem?_drop, Nat.add_sub_cancel' (Nat.not_lt.mp early)] at late

end Makes

/-! ## A loop of writes -/

section Each

variable {prepare : ι → Except String (δ → δ)} {next : α → ι → α}

/-- One write for each item, which is prepared first. -/
def writeEach (prepare : ι → Except String (δ → δ)) (next : α → ι → α) (acc : α) (xs : List ι) :
    Storing δ α :=
  xs.foldlM (fun acc x => do
    let update ← lift (prepare x)
    write update
    return next acc x) acc

/-- The item at the place cannot be prepared, or its write fails. -/
def FailsAt (prepare : ι → Except String (δ → δ)) (xs : List ι)
    (outcomes : List (Option String)) (i : Nat) : Prop :=
  (∃ x message, xs[i]? = some x ∧ prepare x = .error message) ∨
    ∃ message, outcomes[i]? = some (some message)

/-- The disk after the writes of these items. -/
def landed (prepare : ι → Except String (δ → δ)) (d : δ) (xs : List ι) : δ :=
  xs.foldl (fun d x =>
    match prepare x with
    | .ok update => update d
    | .error _ => d) d

theorem failsAt_succ {x : ι} {xs : List ι} {outcomes : List (Option String)} {i : Nat} :
    FailsAt prepare (x :: xs) outcomes (i + 1) ↔ FailsAt prepare xs (outcomes.drop 1) i := by
  rw [FailsAt, FailsAt, getElem?_cons_succ, getElem?_drop, Nat.add_comm 1 i]

/-- The loop ends at the first place that fails, with the writes before it landed. -/
theorem exec_writeEach (prepare : ι → Except String (δ → δ)) (next : α → ι → α) (acc : α)
    (xs : List ι) (d : δ) (outcomes : List (Option String)) :
    (∃ j < xs.length, FailsAt prepare xs outcomes j ∧ (∀ i < j, ¬FailsAt prepare xs outcomes i) ∧
        ∃ message, ((writeEach prepare next acc xs).exec ⟨d, outcomes⟩).1 = .error message ∧
          ((writeEach prepare next acc xs).exec ⟨d, outcomes⟩).2.disk =
            landed prepare d (xs.take j)) ∨
      ((∀ i < xs.length, ¬FailsAt prepare xs outcomes i) ∧
        (writeEach prepare next acc xs).exec ⟨d, outcomes⟩ =
          (.ok (xs.foldl next acc), ⟨landed prepare d xs, outcomes.drop xs.length⟩)) := by
  induction xs generalizing acc d outcomes with
  | nil =>
    refine .inr ⟨?_, rfl⟩
    intro i inside
    cases inside
  | cons x xs ih =>
    have loop : (writeEach prepare next acc (x :: xs)).exec ⟨d, outcomes⟩ =
        ((do
          let update ← lift (prepare x)
          write update
          writeEach prepare next (next acc x) xs : Storing δ α)).exec ⟨d, outcomes⟩ := by
      rw [writeEach, foldlM_cons]
      simp only [bind_assoc, pure_bind]
      rfl
    -- the first place decides, or the rest of the loop does
    have first : (FailsAt prepare (x :: xs) outcomes 0 ∧ ∃ message,
          (writeEach prepare next acc (x :: xs)).exec ⟨d, outcomes⟩ =
            (.error message, ⟨d, outcomes.drop (if (prepare x).isOk then 1 else 0)⟩)) ∨
        ∃ update, prepare x = .ok update ∧ ¬FailsAt prepare (x :: xs) outcomes 0 ∧
          (writeEach prepare next acc (x :: xs)).exec ⟨d, outcomes⟩ =
            (writeEach prepare next (next acc x) xs).exec ⟨update d, outcomes.drop 1⟩ := by
      rw [loop]
      cases prepared : prepare x with
      | error message => exact .inl ⟨.inl ⟨x, message, rfl, prepared⟩, message, rfl⟩
      | ok update =>
        have fine : ¬∃ y message, (x :: xs)[0]? = some y ∧ prepare y = .error message := by
          rintro ⟨y, message, same, refused⟩
          cases same
          rw [prepared] at refused
          cases refused
        rcases outcomes with _ | ⟨_ | message, outcomes⟩
        case cons.some => exact .inl ⟨.inr ⟨message, rfl⟩, message, rfl⟩
        all_goals
          refine .inr ⟨update, rfl, not_or.mpr ⟨fine, ?_⟩, rfl⟩
          rintro ⟨message, absent⟩
          cases absent
    obtain ⟨fails, message, result⟩ | ⟨update, prepared, fine, result⟩ := first
    · refine .inl ⟨0, Nat.succ_pos _, fails, ?_, message, ?_, ?_⟩
      · intro i inside
        cases inside
      · rw [result]
      · rw [result]
        rfl
    · have step : ∀ ys, landed prepare d (x :: ys) = landed prepare (update d) ys := by
        intro ys
        rw [landed, foldl_cons, prepared]
        rfl
      rw [result]
      obtain ⟨j, inside, fails, before, message, isError, disk⟩ | ⟨fine', isOk⟩ :=
        ih (next acc x) (update d) (outcomes.drop 1)
      · refine .inl ⟨j + 1, Nat.succ_lt_succ inside, failsAt_succ.mpr fails, ?_, message,
          isError, ?_⟩
        · intro i early
          cases i with
          | zero => exact fine
          | succ i => exact fun fails => before i (by omega) (failsAt_succ.mp fails)
        · rw [disk, take_succ_cons, step]
      · refine .inr ⟨?_, ?_⟩
        · intro i early
          cases i with
          | zero => exact fine
          | succ i =>
            exact fun fails => fine' i (Nat.lt_of_succ_lt_succ early) (failsAt_succ.mp fails)
        · rw [isOk, step, foldl_cons, drop_drop, length_cons, Nat.add_comm 1]

end Each

end Storing

end Lij
