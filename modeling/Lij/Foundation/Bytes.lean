import Mathlib.Data.List.Basic
import Mathlib.Tactic.IntervalCases
import Mathlib.Tactic.Ring

/-!
# Byte strings and hexadecimal text

Fixed-width values are written to byte strings most significant byte first, and
byte strings to lowercase hexadecimal text. Both writings are read back exactly.
The fixed width of every field is what makes a plain concatenation of fields
readable again, so the length lemmas matter as much as the inverse ones.
-/

namespace Lij

open List

abbrev Bytes := List UInt8

namespace Bytes

/-- The `count` least significant bytes of a number, most significant first. -/
def ofNat : Nat → Nat → Bytes
  | 0, _ => []
  | count + 1, value => ofNat count (value / 256) ++ [UInt8.ofNat value]

/-- The number a byte string writes, most significant byte first. -/
def toNat (bytes : Bytes) : Nat :=
  bytes.foldl (fun value byte => value * 256 + byte.toNat) 0

@[simp] theorem length_ofNat (count value : Nat) : (ofNat count value).length = count := by
  induction count generalizing value with
  | zero => rfl
  | succ count ih => simp [ofNat, ih]

theorem toNat_append_singleton (bytes : Bytes) (byte : UInt8) :
    toNat (bytes ++ [byte]) = toNat bytes * 256 + byte.toNat := by
  simp [toNat]

theorem toNat_ofNat {count value : Nat} (bound : value < 256 ^ count) :
    toNat (ofNat count value) = value := by
  induction count generalizing value with
  | zero =>
    have zero : value = 0 := by simpa using bound
    simp [ofNat, toNat, zero]
  | succ count ih =>
    have quotient : value / 256 < 256 ^ count :=
      Nat.div_lt_of_lt_mul (by rwa [Nat.pow_succ, Nat.mul_comm] at bound)
    have lowByte : (UInt8.ofNat value).toNat = value % 256 := by simp
    rw [ofNat, toNat_append_singleton, ih quotient, lowByte]
    omega

/-- The bytes of a 32-byte array. -/
def of256 (value : BitVec 256) : Bytes := ofNat 32 value.toNat

/-- The bytes of a 33-byte array. -/
def of264 (value : BitVec 264) : Bytes := ofNat 33 value.toNat

@[simp] theorem length_of256 (value : BitVec 256) : (of256 value).length = 32 :=
  length_ofNat _ _

@[simp] theorem length_of264 (value : BitVec 264) : (of264 value).length = 33 :=
  length_ofNat _ _

def to256 (bytes : Bytes) : BitVec 256 := BitVec.ofNat 256 (toNat bytes)

theorem bitVec_lt (count : Nat) (value : BitVec (8 * count)) : value.toNat < 256 ^ count := by
  have bound := value.isLt
  rwa [Nat.pow_mul] at bound

theorem to256_of256 (value : BitVec 256) : to256 (of256 value) = value := by
  have bound : value.toNat < 256 ^ 32 := bitVec_lt 32 value
  simp only [to256, of256, toNat_ofNat bound, BitVec.ofNat_toNat, BitVec.setWidth_eq]

theorem of256_injective : Function.Injective of256 :=
  Function.LeftInverse.injective to256_of256

/-- Concatenations of equally many fields of one positive width agree only when
the fields do. -/
theorem flatten_injective_of_width {width : Nat} :
    ∀ {xs ys : List Bytes}, (∀ x ∈ xs, x.length = width) → (∀ y ∈ ys, y.length = width) →
      xs.length = ys.length → xs.flatten = ys.flatten → xs = ys
  | [], [], _, _, _, _ => rfl
  | x :: xs, y :: ys, wx, wy, lengths, same => by
    have sameWidth : x.length = y.length :=
      (wx x mem_cons_self).trans (wy y mem_cons_self).symm
    obtain ⟨head, tail⟩ := append_inj same sameWidth
    have rest := flatten_injective_of_width
      (fun z hz => wx z (mem_cons_of_mem _ hz))
      (fun z hz => wy z (mem_cons_of_mem _ hz)) (by simpa using lengths) tail
    rw [head, rest]

theorem length_flatten_of_width {width : Nat} {xs : List Bytes}
    (widths : ∀ x ∈ xs, x.length = width) : xs.flatten.length = xs.length * width := by
  induction xs with
  | nil => simp
  | cons x xs ih =>
    have rest := ih (fun z hz => widths z (mem_cons_of_mem _ hz))
    simp only [flatten_cons, length_append, length_cons,
      widths x mem_cons_self, rest]
    ring

/-- The UTF-8 bytes of a text. -/
def ofText (text : String) : Bytes := text.toByteArray.data.toList

theorem ofText_append (text text' : String) :
    ofText (text ++ text') = ofText text ++ ofText text' := by
  rw [ofText, String.toByteArray_append, ByteArray.toList_data_append, ofText, ofText]

theorem ofText_injective : Function.Injective ofText := by
  intro x y same
  apply String.toByteArray_inj.mp
  exact ByteArray.ext (Array.toList_inj.mp same)

end Bytes

namespace Hex

/-- The ASCII code of a lowercase digit. -/
def digit (value : Nat) : UInt8 :=
  if value < 10 then UInt8.ofNat (48 + value) else UInt8.ofNat (87 + value)

/-- Lowercase digits only. -/
def digitValue (code : UInt8) : Option Nat :=
  if 48 ≤ code ∧ code ≤ 57 then some (code.toNat - 48)
  else if 97 ≤ code ∧ code ≤ 102 then some (code.toNat - 87)
  else none

def isDigit (code : UInt8) : Bool := (digitValue code).isSome

/-- Two digits for each byte. -/
def encodeBytes : Bytes → Bytes
  | [] => []
  | byte :: rest => digit (byte.toNat / 16) :: digit (byte.toNat % 16) :: encodeBytes rest

/-- Pairs of digits; anything else is refused. -/
def decodeBytes : Bytes → Option Bytes
  | [] => some []
  | [_] => none
  | high :: low :: rest => do
    let h ← digitValue high
    let l ← digitValue low
    let bytes ← decodeBytes rest
    return UInt8.ofNat (h * 16 + l) :: bytes

theorem digitValue_digit {value : Nat} (bound : value < 16) :
    digitValue (digit value) = some value := by
  interval_cases value <;> decide

theorem isDigit_digit {value : Nat} (bound : value < 16) : isDigit (digit value) = true := by
  simp [isDigit, digitValue_digit bound]

theorem utf8EncodeChar_digit {value : Nat} (bound : value < 16) :
    String.utf8EncodeChar (Char.ofNat (digit value).toNat) = [digit value] := by
  interval_cases value <;> decide

theorem decodeBytes_encodeBytes (bytes : Bytes) :
    decodeBytes (encodeBytes bytes) = some bytes := by
  induction bytes with
  | nil => rfl
  | cons byte rest ih =>
    have bound := byte.toNat_lt
    have high : digitValue (digit (byte.toNat / 16)) = some (byte.toNat / 16) :=
      digitValue_digit (by omega)
    have low : digitValue (digit (byte.toNat % 16)) = some (byte.toNat % 16) :=
      digitValue_digit (by omega)
    have whole : byte.toNat / 16 * 16 + byte.toNat % 16 = byte.toNat := by omega
    simp only [encodeBytes, decodeBytes, high, low, ih, whole, Option.bind_eq_bind,
      Option.bind_some, Option.pure_def, UInt8.ofNat_toNat]

@[simp] theorem length_encodeBytes (bytes : Bytes) :
    (encodeBytes bytes).length = 2 * bytes.length := by
  induction bytes with
  | nil => rfl
  | cons byte rest ih => simp only [encodeBytes, length_cons, ih]; ring

theorem all_isDigit_encodeBytes (bytes : Bytes) : (encodeBytes bytes).all isDigit = true := by
  induction bytes with
  | nil => rfl
  | cons byte rest ih =>
    have bound := byte.toNat_lt
    simp only [encodeBytes, all_cons, isDigit_digit (show byte.toNat / 16 < 16 by omega),
      isDigit_digit (show byte.toNat % 16 < 16 by omega), ih, Bool.and_self]

theorem encodeBytes_injective : Function.Injective encodeBytes := by
  intro x y same
  have decoded := congrArg decodeBytes same
  rwa [decodeBytes_encodeBytes, decodeBytes_encodeBytes, Option.some.injEq] at decoded

/-- A digit of either case. -/
def digitValueAny (code : UInt8) : Option Nat :=
  if 65 ≤ code ∧ code ≤ 70 then some (code.toNat - 55) else digitValue code

/-- Pairs of digits of either case. -/
def decodeAnyBytes : Bytes → Option Bytes
  | [] => some []
  | [_] => none
  | high :: low :: rest => do
    let h ← digitValueAny high
    let l ← digitValueAny low
    let bytes ← decodeAnyBytes rest
    return UInt8.ofNat (h * 16 + l) :: bytes

theorem digitValueAny_digit {value : Nat} (bound : value < 16) :
    digitValueAny (digit value) = some value := by
  interval_cases value <;> decide

theorem decodeAnyBytes_encodeBytes (bytes : Bytes) :
    decodeAnyBytes (encodeBytes bytes) = some bytes := by
  induction bytes with
  | nil => rfl
  | cons byte rest ih =>
    have bound := byte.toNat_lt
    have whole : byte.toNat / 16 * 16 + byte.toNat % 16 = byte.toNat := by omega
    simp only [encodeBytes, decodeAnyBytes, ih, whole, Option.bind_eq_bind, Option.bind_some,
      digitValueAny_digit (show byte.toNat / 16 < 16 by omega), Option.pure_def,
      digitValueAny_digit (show byte.toNat % 16 < 16 by omega), UInt8.ofNat_toNat]

/-- Hexadecimal text is ASCII. -/
theorem utf8Encode_encodeBytes (bytes : Bytes) :
    ByteArray.mk (encodeBytes bytes).toArray =
      ((encodeBytes bytes).map fun code => Char.ofNat code.toNat).utf8Encode := by
  refine ByteArray.ext (Array.toList_inj.mp ?_)
  simp only [utf8Encode, data_toByteArray, toList_toArray]
  induction bytes with
  | nil => rfl
  | cons byte rest ih =>
    have bound := byte.toNat_lt
    simp only [encodeBytes, map_cons, flatMap_cons, ← ih, cons_append,
      nil_append, utf8EncodeChar_digit (show byte.toNat / 16 < 16 by omega),
      utf8EncodeChar_digit (show byte.toNat % 16 < 16 by omega)]

theorem isValidUTF8_encodeBytes (bytes : Bytes) :
    (ByteArray.mk (encodeBytes bytes).toArray).IsValidUTF8 :=
  ⟨_, utf8Encode_encodeBytes bytes⟩

def encode (bytes : Bytes) : String :=
  .ofByteArray ⟨(encodeBytes bytes).toArray⟩ (isValidUTF8_encodeBytes bytes)

theorem ofText_encode (bytes : Bytes) : Bytes.ofText (encode bytes) = encodeBytes bytes :=
  toList_toArray

theorem toList_encode (bytes : Bytes) :
    (encode bytes).toList = (encodeBytes bytes).map fun code => Char.ofNat code.toNat := by
  have same : encode bytes =
      String.ofList ((encodeBytes bytes).map fun code => Char.ofNat code.toNat) :=
    String.toByteArray_inj.mp (utf8Encode_encodeBytes bytes)
  rw [same, String.toList_ofList]

theorem toLower_digit {value : Nat} (bound : value < 16) :
    (Char.ofNat (digit value).toNat).toLower = Char.ofNat (digit value).toNat := by
  interval_cases value <;> decide

/-- The digits are lowercase already. -/
theorem toLower_encode (bytes : Bytes) : (encode bytes).toLower = encode bytes := by
  apply String.toList_inj.mp
  change ((encode bytes).map Char.toLower).toList = (encode bytes).toList
  rw [String.toList_map, toList_encode, map_map]
  induction bytes with
  | nil => rfl
  | cons byte rest ih =>
    have bound := byte.toNat_lt
    simp only [encodeBytes, map_cons, ih, Function.comp_apply,
      toLower_digit (show byte.toNat / 16 < 16 by omega),
      toLower_digit (show byte.toNat % 16 < 16 by omega)]

end Hex

end Lij
