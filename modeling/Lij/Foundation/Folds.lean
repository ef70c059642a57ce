import Mathlib

/-!
# Invariants of loops

A loop over a list as a fold, with an invariant that may speak of the part of
the list already read. `foldl_invariant` is the rule for an invariant that does
not, `foldl_along` the one for an invariant that does. `Meets` is a run whose
steps all meet a condition on the state they are taken from. `sum_by_key` is the
sum of a list's values taken key by key, `sum_le_sum_take` the exchange argument
for taking the largest first.
-/

namespace Lij.Folds

open List

variable {α σ : Type} {f : σ → α → σ}

/-- What holds before the loop and is kept by every step holds after it. -/
theorem foldl_invariant {I : σ → Prop} {xs : List α} {s : σ} (start : I s)
    (step : ∀ s, ∀ x ∈ xs, I s → I (f s x)) : I (xs.foldl f s) := by
  induction xs generalizing s with
  | nil => exact start
  | cons x xs ih =>
    exact ih (step s x mem_cons_self start)
      (fun s y later => step s y (mem_cons_of_mem _ later))

/-- A loop none of whose steps changes the state does not change it. -/
theorem foldl_eq_self {xs : List α} {s : σ} (same : ∀ x ∈ xs, f s x = s) : xs.foldl f s = s := by
  apply foldl_invariant (I := fun t => t = s) rfl
  rintro t x member rfl
  exact same x member

/-- The rule with the part of the list that was read. -/
theorem foldl_along (I : List α → σ → Prop) {xs : List α} {s : σ} (start : I [] s)
    (step : ∀ done x rest s, xs = done ++ x :: rest → I done s → I (done ++ [x]) (f s x)) :
    I xs (xs.foldl f s) := by
  have general : ∀ rest done s, xs = done ++ rest → I done s → I xs (rest.foldl f s) := by
    intro rest
    induction rest with
    | nil =>
      intro done s split holds
      rw [split, append_nil]
      exact holds
    | cons x rest ih =>
      intro done s split holds
      exact ih (done ++ [x]) (f s x) (by simp [split]) (step done x rest s split holds)
  exact general xs [] s rfl start

/-- What each step brings about for its element, and the later ones keep, holds for every
element after the loop. -/
theorem foldl_each {P : α → σ → Prop} {xs : List α} (s : σ) (own : ∀ x ∈ xs, ∀ s, P x (f s x))
    (keep : xs.Pairwise fun x y => ∀ s, P x s → P x (f s y)) : ∀ x ∈ xs, P x (xs.foldl f s) := by
  refine foldl_along (fun done s => ∀ x ∈ done, P x s) (forall_mem_nil _) ?_
  rintro done x rest s rfl held y member
  obtain before | rfl := (mem_append.mp member).imp_right mem_singleton.mp
  · exact (pairwise_append.mp keep).2.2 y before x mem_cons_self s (held y before)
  · exact own y (mem_append_right _ mem_cons_self) s

/-- Every step of the run meets the condition in the state it is taken from. -/
def Meets (f : σ → α → σ) (condition : σ → α → Prop) : σ → List α → Prop
  | _, [] => True
  | s, x :: xs => condition s x ∧ Meets f condition (f s x) xs

namespace Meets

variable {condition : σ → α → Prop} {s : σ} {xs ys : List α}

theorem append :
    Meets f condition s (xs ++ ys) ↔
      Meets f condition s xs ∧ Meets f condition (xs.foldl f s) ys := by
  induction xs generalizing s with
  | nil => exact ⟨fun meets => ⟨trivial, meets⟩, fun both => both.2⟩
  | cons x xs ih =>
    simp only [cons_append, Meets, foldl_cons, ih]
    exact and_assoc.symm

/-- What every such step keeps holds at the end of the run. -/
theorem invariant {I : σ → Prop} (meets : Meets f condition s xs)
    (step : ∀ s x, I s → condition s x → I (f s x)) (start : I s) : I (xs.foldl f s) := by
  induction xs generalizing s with
  | nil => exact start
  | cons x xs ih =>
    obtain ⟨here, later⟩ := meets
    exact ih later (step s x start here)

end Meets

/-! ## Sums by key -/

section Grouped

variable {κ : Type} [DecidableEq κ]

/-- A value counts once among the keys, under its own. -/
theorem sum_single {keys : List κ} (once : keys.Nodup) {k : κ} (inside : k ∈ keys) (v : Nat) :
    (keys.map fun k' => if k = k' then v else 0).sum = v := by
  have only := sum_map_eq_nsmul_single (l := keys) k (fun k' => if k = k' then v else 0)
    fun other differs _ => if_neg differs.symm
  rw [only, count_eq_one_of_mem once inside, one_nsmul, if_pos rfl]

/-- Summing for each key the values under it gives the sum of the values that have a key. -/
theorem sum_by_key (key : α → Option κ) (value : α → Nat) {keys : List κ} (once : keys.Nodup)
    {xs : List α} (covered : ∀ x ∈ xs, ∀ k, key x = some k → k ∈ keys) :
    (keys.map fun k => ((xs.filter fun x => key x = some k).map value).sum).sum =
      ((xs.filter fun x => (key x).isSome).map value).sum := by
  induction xs with
  | nil => simp
  | cons x xs ih =>
    have rest := ih fun y later => covered y (mem_cons_of_mem x later)
    have split : ∀ k, (((x :: xs).filter fun y => key y = some k).map value).sum =
        (if key x = some k then value x else 0) +
          ((xs.filter fun y => key y = some k).map value).sum := by
      intro k
      rw [filter_cons]
      by_cases here : key x = some k
      · simp [here]
      · simp [here]
    simp only [split, sum_map_add, rest]
    cases found : key x with
    | none => simp [found]
    | some k =>
      have alone := sum_single once (covered x mem_cons_self k found) (value x)
      simp [found, alone]

end Grouped

/-! ## Sums of the largest -/

/-- Of a list in falling order, no part has more than the first members as many as it has. -/
theorem sum_le_sum_take {us ws : List Nat} (falling : ws.Pairwise (· ≥ ·)) (part : us.Sublist ws) :
    us.sum ≤ (ws.take us.length).sum := by
  induction part with
  | slnil => exact le_rfl
  | @cons us ws w part ih =>
    obtain ⟨largest, rest⟩ := pairwise_cons.mp falling
    refine (ih rest).trans ?_
    cases us with
    | nil => simp
    | cons u us =>
      have inside : us.length < ws.length := part.length_le
      rw [length_cons, take_succ_cons, sum_cons, sum_take_succ _ _ inside,
        Nat.add_comm]
      exact Nat.add_le_add_right (largest _ (getElem_mem inside)) _
  | @cons_cons us ws w part ih =>
    rw [length_cons, take_succ_cons, sum_cons, sum_cons]
    exact Nat.add_le_add_left (ih (pairwise_cons.mp falling).2) w

end Lij.Folds
