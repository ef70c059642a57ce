import Mathlib

/-!
# Keys on a curve

A group of points over a field of scalars, with a base point, and the keys made
from it: a secret key is a scalar other than zero and a public key a point other
than the point at infinity. The operations on keys fail where the result would be
one of the two. Only the x coordinate of a point is ever written down; a point and
its negative share it.
-/

namespace Lij

variable {F P X : Type} [Field F] [AddCommGroup P] [Module F P]

/-- A base point and the coordinates of points. -/
structure Curve (F P X : Type) [Field F] [AddCommGroup P] [Module F P] where
  base : P
  base_ne_zero : base ≠ 0
  xOnly : P → X
  isOdd : P → Bool
  xOnly_neg : ∀ p, xOnly (-p) = xOnly p

namespace Curve

/-- A scalar other than zero. -/
@[ext] structure SecretKey (F : Type) [Field F] where
  scalar : F
  ne_zero : scalar ≠ 0

/-- A point other than the point at infinity. -/
@[ext] structure PublicKey (P : Type) [AddCommGroup P] where
  point : P
  ne_zero : point ≠ 0
  deriving DecidableEq

namespace SecretKey

variable [DecidableEq F]

def ofScalar (s : F) : Option (SecretKey F) := if h : s = 0 then none else some ⟨s, h⟩

theorem ofScalar_of_ne {s : F} (h : s ≠ 0) : ofScalar s = some ⟨s, h⟩ := dif_neg h

theorem ofScalar_eq_some {s : F} {key : SecretKey F} (read : ofScalar s = some key) :
    key.scalar = s := by
  rw [ofScalar] at read
  split at read
  · cases read
  · cases read
    rfl

def addTweak (key : SecretKey F) (t : F) : Option (SecretKey F) := ofScalar (key.scalar + t)

def mulTweak (key : SecretKey F) (t : F) : Option (SecretKey F) := ofScalar (key.scalar * t)

def negate (key : SecretKey F) : SecretKey F := ⟨-key.scalar, neg_ne_zero.mpr key.ne_zero⟩

end SecretKey

namespace PublicKey

variable [DecidableEq P] (C : Curve F P X)

def ofPoint (p : P) : Option (PublicKey P) := if h : p = 0 then none else some ⟨p, h⟩

omit [Field F] [Module F P] in
theorem ofPoint_of_ne {p : P} (h : p ≠ 0) : ofPoint p = some ⟨p, h⟩ := dif_neg h

omit [Field F] [Module F P] in
theorem ofPoint_eq_some {p : P} {key : PublicKey P} (read : ofPoint p = some key) :
    key.point = p := by
  rw [ofPoint] at read
  split at read
  · cases read
  · cases read
    rfl

def ofSecret (key : SecretKey F) : PublicKey P :=
  ⟨key.scalar • C.base, smul_ne_zero key.ne_zero C.base_ne_zero⟩

def addExpTweak (key : PublicKey P) (t : F) : Option (PublicKey P) :=
  ofPoint (key.point + t • C.base)

def mulTweak (key : PublicKey P) (t : F) : Option (PublicKey P) := ofPoint (t • key.point)

/-- The sum of keys; none if it is the point at infinity. -/
def combineKeys (keys : List (PublicKey P)) : Option (PublicKey P) :=
  ofPoint (keys.map point).sum

def negate (key : PublicKey P) : PublicKey P := ⟨-key.point, neg_ne_zero.mpr key.ne_zero⟩

end PublicKey

end Curve

end Lij
