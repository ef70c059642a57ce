import Mathlib

/-!
# Machine words as natural numbers

Unsigned words are natural numbers below a power of two. Release builds wrap on
overflow, so plain sums are reduced; the checked and saturating operations of
the source are named as they are there.
-/

namespace Lij.Word

open List

def u32Max : Nat := 2 ^ 32 - 1

def u64Max : Nat := 2 ^ 64 - 1

/-- Wrapping 64-bit addition. -/
def add64 (a b : Nat) : Nat := (a + b) % 2 ^ 64

/-- Wrapping 64-bit multiplication. -/
def mul64 (a b : Nat) : Nat := (a * b) % 2 ^ 64

/-- Wrapping 32-bit addition. -/
def add32 (a b : Nat) : Nat := (a + b) % 2 ^ 32

/-- Wrapping 32-bit subtraction. -/
def sub32 (a b : Nat) : Nat := (a + 2 ^ 32 - b) % 2 ^ 32

/-- Wrapping 64-bit subtraction. -/
def sub64 (a b : Nat) : Nat := (a + 2 ^ 64 - b) % 2 ^ 64

def checkedAdd64 (a b : Nat) : Option Nat := if a + b < 2 ^ 64 then some (a + b) else none

def checkedMul64 (a b : Nat) : Option Nat := if a * b < 2 ^ 64 then some (a * b) else none

def checkedSub (a b : Nat) : Option Nat := if b ≤ a then some (a - b) else none

def saturatingMul64 (a b : Nat) : Nat := min (a * b) u64Max

def saturatingAdd64 (a b : Nat) : Nat := min (a + b) u64Max

def saturatingAdd32 (a b : Nat) : Nat := min (a + b) u32Max

/-- `div_ceil`. -/
def divCeil (a b : Nat) : Nat := (a + b - 1) / b

/-- The wrapping sum of a list. -/
def sum64 (values : List Nat) : Nat := values.foldl add64 0

@[simp] theorem checkedAdd64_eq_some {a b c : Nat} :
    checkedAdd64 a b = some c ↔ a + b < 2 ^ 64 ∧ a + b = c := by
  simp [checkedAdd64]

@[simp] theorem checkedMul64_eq_some {a b c : Nat} :
    checkedMul64 a b = some c ↔ a * b < 2 ^ 64 ∧ a * b = c := by
  simp [checkedMul64]

@[simp] theorem checkedSub_eq_some {a b c : Nat} :
    checkedSub a b = some c ↔ b ≤ a ∧ a - b = c := by
  simp [checkedSub]

theorem foldl_add64 (values : List Nat) (start : Nat) (small : start < 2 ^ 64) :
    values.foldl add64 start = (start + values.sum) % 2 ^ 64 := by
  induction values generalizing start with
  | nil => exact (Nat.mod_eq_of_lt small).symm
  | cons value values ih =>
    have step : add64 start value < 2 ^ 64 := Nat.mod_lt _ (by positivity)
    rw [foldl_cons, ih _ step, add64, sum_cons, Nat.mod_add_mod, Nat.add_assoc]

theorem sum64_eq (values : List Nat) : sum64 values = values.sum % 2 ^ 64 := by
  rw [sum64, foldl_add64 values 0 (by positivity), Nat.zero_add]

theorem sum64_of_lt {values : List Nat} (small : values.sum < 2 ^ 64) :
    sum64 values = values.sum := by
  rw [sum64_eq, Nat.mod_eq_of_lt small]

theorem add64_of_lt {a b : Nat} (small : a + b < 2 ^ 64) : add64 a b = a + b :=
  Nat.mod_eq_of_lt small

theorem mul64_of_lt {a b : Nat} (small : a * b < 2 ^ 64) : mul64 a b = a * b :=
  Nat.mod_eq_of_lt small

theorem sub64_of_le {a b : Nat} (fits : b ≤ a) (small : a < 2 ^ 64) : sub64 a b = a - b := by
  unfold sub64
  omega

/-- A sum that stops at the largest word. -/
def saturatingSum64 (values : List Nat) : Nat := values.foldl saturatingAdd64 0

theorem foldl_saturatingAdd64 (values : List Nat) (start : Nat) (small : start ≤ u64Max) :
    values.foldl saturatingAdd64 start = min (start + values.sum) u64Max := by
  induction values generalizing start with
  | nil =>
    rw [foldl_nil, sum_nil, Nat.add_zero, Nat.min_eq_left small]
  | cons value values ih =>
    have first : saturatingAdd64 start value ≤ u64Max := Nat.min_le_right _ _
    rw [foldl_cons, ih _ first, saturatingAdd64, sum_cons]
    omega

theorem saturatingSum64_eq (values : List Nat) :
    saturatingSum64 values = min values.sum u64Max := by
  rw [saturatingSum64, foldl_saturatingAdd64 values 0 (Nat.zero_le _), Nat.zero_add]

theorem saturatingSum64_of_lt {values : List Nat} (small : values.sum < 2 ^ 64) :
    saturatingSum64 values = values.sum := by
  rw [saturatingSum64_eq, u64Max]
  omega

/-! ## Division that rounds up -/

theorem le_mul_divCeil (a : Nat) {b : Nat} (positive : 0 < b) : a ≤ b * divCeil a b := by
  have whole := Nat.lt_mul_div_succ (a + b - 1) positive
  rw [Nat.mul_succ] at whole
  unfold divCeil
  omega

theorem mul_divCeil_lt (a : Nat) {b : Nat} (positive : 0 < b) : b * divCeil a b < a + b := by
  have whole := Nat.mul_div_le (a + b - 1) b
  unfold divCeil
  omega

theorem divCeil_le_iff {a b k : Nat} (positive : 0 < b) : divCeil a b ≤ k ↔ a ≤ b * k := by
  constructor
  · intro small
    exact (le_mul_divCeil a positive).trans (Nat.mul_le_mul_left b small)
  · intro covers
    have close := mul_divCeil_lt a positive
    by_contra more
    have next : b * (k + 1) ≤ b * divCeil a b := Nat.mul_le_mul_left b (by omega)
    rw [Nat.mul_succ] at next
    omega

theorem divCeil_mono {a a' b : Nat} (less : a ≤ a') : divCeil a b ≤ divCeil a' b :=
  Nat.div_le_div_right (by omega)

end Lij.Word
