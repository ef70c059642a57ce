import Mathlib.Data.List.Forall2

/-!
# Checked computations

`Except String` with the source's `ensure!`. The lemmas invert a successful
computation: a bind into its two parts, a check into its condition, a traversal
into the success of every element. Proofs about checked code use them instead of
unfolding the code.
-/

namespace Lij.Checked

open List

variable {α β : Type}

/-- `ensure!`: the message unless the condition holds. -/
def ensure (p : Prop) [Decidable p] (message : String) : Except String Unit :=
  if p then .ok () else .error message

/-- `.context(..)` on an option. -/
def context (value : Option α) (message : String) : Except String α :=
  match value with
  | some a => .ok a
  | none => .error message

@[simp] theorem ensure_eq_ok {p : Prop} [Decidable p] {message : String} {u : Unit} :
    ensure p message = .ok u ↔ p := by
  unfold ensure
  by_cases holds : p
  · simp [holds]
  · simp [holds]

@[simp] theorem context_eq_ok {value : Option α} {message : String} {a : α} :
    context value message = .ok a ↔ value = some a := by
  cases value <;> simp [context]

@[simp] theorem mapError_eq_ok {x : Except String α} {f : String → String} {a : α} :
    x.mapError f = .ok a ↔ x = .ok a := by
  cases x with
  | ok b | error message => simp [Except.mapError]

theorem bind_eq_ok {x : Except String α} {f : α → Except String β} {b : β} :
    (x >>= f) = .ok b ↔ ∃ a, x = .ok a ∧ f a = .ok b := by
  cases x with
  | ok a =>
    constructor
    · intro h
      exact ⟨a, rfl, h⟩
    · rintro ⟨_, same, h⟩
      cases same
      exact h
  | error message =>
    constructor
    · intro h
      cases h
    · rintro ⟨_, h, _⟩
      cases h

theorem ensure_bind_eq_ok {p : Prop} [Decidable p] {message : String}
    {f : Unit → Except String β} {b : β} :
    (ensure p message >>= f) = .ok b ↔ p ∧ f () = .ok b := by
  rw [bind_eq_ok]
  constructor
  · rintro ⟨_, checked, rest⟩
    exact ⟨ensure_eq_ok.mp checked, rest⟩
  · rintro ⟨holds, rest⟩
    exact ⟨(), ensure_eq_ok.mpr holds, rest⟩

theorem pure_eq_ok {a b : α} : (pure a : Except String α) = .ok b ↔ a = b := by
  constructor
  · intro h
    exact Except.ok.inj h
  · rintro rfl
    rfl

/-- What every result of the computation satisfies; its checks need not be looked at. -/
def Yields (x : Except String α) (post : α → Prop) : Prop := ∀ a, x = .ok a → post a

theorem Yields.bind {x : Except String α} {f : α → Except String β} {post : β → Prop}
    (then_ : ∀ a, Yields (f a) post) : Yields (x >>= f) post := by
  intro b ok
  obtain ⟨a, _, rest⟩ := bind_eq_ok.mp ok
  exact then_ a b rest

theorem Yields.pure {a : α} {post : α → Prop} (holds : post a) : Yields (Pure.pure a) post := by
  intro b ok
  exact pure_eq_ok.mp ok ▸ holds

/-- A traversal succeeds exactly when every element does. -/
theorem mapM_eq_ok {f : α → Except String β} {xs : List α} {ys : List β} :
    xs.mapM f = .ok ys ↔ List.Forall₂ (fun x y => f x = .ok y) xs ys := by
  induction xs generalizing ys with
  | nil =>
    simp only [mapM_nil, pure_eq_ok, forall₂_nil_left_iff]
    exact eq_comm
  | cons x xs ih =>
    rw [mapM_cons, bind_eq_ok]
    constructor
    · rintro ⟨y, first, rest⟩
      obtain ⟨tail, others, same⟩ := bind_eq_ok.mp rest
      cases pure_eq_ok.mp same
      exact .cons first (ih.mp others)
    · intro all
      cases all with
      | cons first others =>
        exact ⟨_, first, bind_eq_ok.mpr ⟨_, ih.mpr others, rfl⟩⟩

/-- The same for values that may be missing. -/
theorem mapM_eq_some {f : α → Option β} {xs : List α} {ys : List β} :
    xs.mapM f = some ys ↔ List.Forall₂ (fun x y => f x = some y) xs ys := by
  induction xs generalizing ys with
  | nil =>
    rw [mapM_nil, forall₂_nil_left_iff]
    exact ⟨fun same => (Option.some.inj same).symm, fun same => congrArg some same.symm⟩
  | cons x xs ih =>
    rw [mapM_cons, forall₂_cons_left_iff]
    constructor
    · intro ok
      obtain ⟨y, first, rest⟩ := Option.bind_eq_some_iff.mp ok
      obtain ⟨ys', others, same⟩ := Option.bind_eq_some_iff.mp rest
      cases same
      exact ⟨y, ys', first, ih.mp others, rfl⟩
    · rintro ⟨y, ys', first, others, rfl⟩
      exact Option.bind_eq_some_iff.mpr
        ⟨y, first, Option.bind_eq_some_iff.mpr ⟨ys', ih.mpr others, rfl⟩⟩

theorem exists_forall₂ {R : α → β → Prop} {xs : List α} (each : ∀ x ∈ xs, ∃ y, R x y) :
    ∃ ys, List.Forall₂ R xs ys := by
  induction xs with
  | nil => exact ⟨[], .nil⟩
  | cons x xs ih =>
    obtain ⟨⟨y, first⟩, others⟩ := forall_mem_cons.mp each
    obtain ⟨ys, rest⟩ := ih others
    exact ⟨y :: ys, .cons first rest⟩

theorem exists_mapM_eq_some {f : α → Option β} {xs : List α}
    (each : ∀ x ∈ xs, ∃ y, f x = some y) : ∃ ys, xs.mapM f = some ys :=
  (exists_forall₂ each).imp fun _ all => mapM_eq_some.mpr all

/-- A traversal whose steps all succeed succeeds. -/
theorem exists_mapM_eq_ok {f : α → Except String β} {xs : List α}
    (each : ∀ x ∈ xs, ∃ y, f x = .ok y) : ∃ ys, xs.mapM f = .ok ys :=
  (exists_forall₂ each).imp fun _ all => mapM_eq_ok.mpr all

/-- A loop of checks succeeds exactly when every check does. -/
theorem forM_eq_ok {f : α → Except String Unit} {xs : List α} :
    xs.forM f = .ok () ↔ ∀ x ∈ xs, f x = .ok () := by
  induction xs with
  | nil => simp [List.forM, pure, Except.pure]
  | cons x xs ih =>
    rw [forall_mem_cons, ← ih]
    change (f x >>= fun _ => xs.forM f) = .ok () ↔ _
    rw [bind_eq_ok]
    constructor
    · rintro ⟨_, first, rest⟩
      exact ⟨first, rest⟩
    · rintro ⟨first, rest⟩
      exact ⟨(), first, rest⟩

private theorem mem_filterAuxM {f : α → Except String Bool} {xs acc ys : List α}
    (ok : xs.filterAuxM f acc = .ok ys) :
    (∀ x ∈ acc, x ∈ ys) ∧ ∀ x ∈ xs, ∃ b, f x = .ok b ∧ (b = true → x ∈ ys) := by
  induction xs generalizing acc with
  | nil =>
    cases pure_eq_ok.mp ok
    exact ⟨fun _ member => member, nofun⟩
  | cons y xs ih =>
    obtain ⟨b, tested, rest⟩ := bind_eq_ok.mp ok
    obtain ⟨kept, others⟩ := ih rest
    refine ⟨fun x member => kept x ?_, fun x member => ?_⟩
    · cases b with
      | true => exact mem_cons_of_mem _ member
      | false => exact member
    · obtain rfl | later := mem_cons.mp member
      · refine ⟨b, tested, ?_⟩
        rintro rfl
        exact kept x mem_cons_self
      · exact others x later

/-- A checked filter keeps every element that passes. -/
theorem mem_filterM {f : α → Except String Bool} {xs ys : List α} (ok : xs.filterM f = .ok ys)
    {x : α} (member : x ∈ xs) : ∃ b, f x = .ok b ∧ (b = true → x ∈ ys) := by
  obtain ⟨zs, kept, rest⟩ := bind_eq_ok.mp ok
  cases pure_eq_ok.mp rest
  obtain ⟨b, tested, inside⟩ := (mem_filterAuxM kept).2 x member
  exact ⟨b, tested, fun passes => mem_reverse.mpr (inside passes)⟩

theorem eq_ok_of_isOk {result : Except String α} (ok : result.isOk = true) (other : α) :
    result = .ok (result.toOption.getD other) := by
  cases result with
  | ok a => rfl
  | error e => cases ok

theorem toOption_eq_some {result : Except String α} {value : α} :
    result.toOption = some value ↔ result = .ok value := by
  cases result with
  | ok other | error message => simp [Except.toOption]

/-- Every result of a pointwise relation comes from some source. -/
theorem exists_of_mem_right {R : α → β → Prop} {xs : List α} {ys : List β}
    (related : List.Forall₂ R xs ys) {y : β} (member : y ∈ ys) : ∃ x ∈ xs, R x y := by
  induction related with
  | nil => cases member
  | cons first _ ih =>
    rcases mem_cons.mp member with rfl | later
    · exact ⟨_, mem_cons_self, first⟩
    · obtain ⟨x, inside, holds⟩ := ih later
      exact ⟨x, mem_cons_of_mem _ inside, holds⟩

end Lij.Checked
