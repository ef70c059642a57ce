import Mathlib

/-!
# JSON values

A parsed JSON text. An object's members are in the order of their keys, as a
sorted map keeps them; a lookup and an insertion do not depend on that order, so
nothing here assumes it.
-/

namespace Lij.Json

open List

inductive Value where
  | null
  | bool (b : Bool)
  | int (n : Int)
  | float (bits : BitVec 64)
  | str (s : String)
  | arr (items : List Value)
  | obj (members : List (String × Value))

/-- Insertion into a sorted map: the key's old value is replaced. -/
def insertMember (key : String) (v : Value) : List (String × Value) → List (String × Value)
  | [] => [(key, v)]
  | member :: rest =>
    if member.1 = key then (key, v) :: rest
    else if key < member.1 then (key, v) :: member :: rest
    else member :: insertMember key v rest

namespace Value

def get (v : Value) (key : String) : Option Value :=
  match v with
  | obj members => members.lookup key
  | _ => none

def asStr : Value → Option String
  | str s => some s
  | _ => none

def asBool : Value → Option Bool
  | bool b => some b
  | _ => none

/-- Only a number written as an unsigned 64-bit integer. -/
def asU64 : Value → Option Nat
  | int n => if 0 ≤ n ∧ n < 2 ^ 64 then some n.toNat else none
  | _ => none

def asArray : Value → Option (List Value)
  | arr items => some items
  | _ => none

/-- A change to an object; any other value is left as it is. -/
def insert (v : Value) (key : String) (new : Value) : Value :=
  match v with
  | obj members => obj (insertMember key new members)
  | other => other

/-- The text of a member, empty when there is none. -/
def text (v : Value) (key : String) : String := ((v.get key).bind asStr).getD ""

/-- The array of a member, empty when there is none. -/
def items (v : Value) (key : String) : List Value := ((v.get key).bind asArray).getD []

end Value

theorem lookup_insertMember_self (key : String) (v : Value) (members : List (String × Value)) :
    (insertMember key v members).lookup key = some v := by
  induction members with
  | nil => simp [insertMember]
  | cons member rest ih =>
    rw [insertMember]
    split_ifs with same before
    · simp
    · simp
    · rw [lookup_cons, ih, beq_false_of_ne (Ne.symm same)]

theorem lookup_insertMember_of_ne {key other : String} (ne : other ≠ key) (v : Value)
    (members : List (String × Value)) :
    (insertMember key v members).lookup other = members.lookup other := by
  induction members with
  | nil => rw [insertMember, lookup_cons, beq_false_of_ne ne]
  | cons member rest ih =>
    rw [insertMember]
    split_ifs with same before
    · rw [lookup_cons, lookup_cons, same, beq_false_of_ne ne]
    · rw [lookup_cons, beq_false_of_ne ne]
    · rw [lookup_cons, lookup_cons, ih]

namespace Value

@[simp] theorem get_insert_of_ne {key other : String} (ne : other ≠ key) (v new : Value) :
    (v.insert key new).get other = v.get other := by
  cases v with
  | obj members => exact lookup_insertMember_of_ne ne new members
  | _ => rfl

/-- Only an object takes the new member. -/
theorem get_insert_self (v : Value) (key : String) (new : Value) :
    (v.insert key new).get key = some new ∨ (v.insert key new = v ∧ v.get key = none) := by
  cases v with
  | obj members => exact .inl (lookup_insertMember_self key new members)
  | _ => exact .inr ⟨rfl, rfl⟩

@[simp] theorem text_insert_of_ne {key other : String} (ne : other ≠ key) (v new : Value) :
    (v.insert key new).text other = v.text other := by
  rw [text, get_insert_of_ne ne, text]

end Value

end Lij.Json
