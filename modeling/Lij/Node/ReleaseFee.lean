import Mathlib
import Lij.Bitcoin.Weight
import Lij.Node.PayLocks

/-!
# What a release pays

The fee of a release is its size, estimated before it is signed, at the rate. The
estimate holds for a reserve output to the wallet's own P2WPKH script and for
scripts whose lengths take the bytes it counts for them. Without the reserve the
release is smaller, and what is left over is all fee; that jump does not make a
lower rate cost more.
-/

namespace Lij.Node.OnchainPay

open Bitcoin Checked Word List

/-- What a release is built from, besides the rate. -/
structure Terms where
  index : Nat
  lock : OutPoint
  lockValue : Nat
  script : Script
  recipientSpk : Script
  amountSats : Nat
  reserveSpk : Script

namespace Terms

variable {E : Env} {t : Terms} {rate : Nat} {tx : Transaction}

def release (t : Terms) (E : Env) (rate : Nat) : Except String Transaction :=
  buildRelease E t.index t.lock t.lockValue t.script t.recipientSpk t.amountSats t.reserveSpk rate

def vbytes (t : Terms) (withReserve : Bool) : Nat :=
  releaseVbytes t.script.length t.recipientSpk.length withReserve

def payment (t : Terms) : TxOut := ⟨t.amountSats, t.recipientSpk⟩

/-- The lengths the estimate counts, and a product that fits a word. -/
structure Estimated (t : Terms) (E : Env) (rate : Nat) : Prop where
  signature : ∀ tx, (E.signRelease t.index tx t.script t.lockValue).length ≤ 72
  script : t.script.length ≤ 0xffff
  recipient : t.recipientSpk.length < 253
  reserve : t.reserveSpk.length ≤ 22
  value : t.lockValue < 2 ^ 64
  product : t.vbytes true * max rate minRateSatKvb + 999 < 2 ^ 64

/-- The release pays the amount and its fee exactly, at the rate or above; the reserve is
given up only where it would be dust. -/
structure Pays (t : Terms) (rate : Nat) (tx : Transaction) (fee : Nat) : Prop where
  outputs : tx.output = [t.payment] ∨
    ∃ reserve ≥ releaseDust, tx.output = [t.payment, ⟨reserve, t.reserveSpk⟩]
  balance : (tx.output.map TxOut.value).sum + fee = t.lockValue
  givenUp : tx.output = [t.payment] →
    t.lockValue - t.amountSats < feeAt (t.vbytes true) rate + releaseDust
  atRate : max rate minRateSatKvb * tx.vsize ≤ 1000 * fee

theorem vbytes_false_le : t.vbytes false ≤ t.vbytes true := by
  simp only [vbytes, releaseVbytes]
  grind

/-- The fee of a size, where the product fits. -/
theorem feeAt_eq {size : Nat} (fits : size * max rate minRateSatKvb + 999 < 2 ^ 64) :
    feeAt size rate = (size * max rate minRateSatKvb + 999) / 1000 := by
  rw [feeAt, mul64_of_lt (by omega), add64_of_lt fits]

theorem Estimated.fits (est : t.Estimated E rate) (withReserve : Bool) :
    t.vbytes withReserve * max rate minRateSatKvb + 999 < 2 ^ 64 := by
  refine lt_of_le_of_lt ?_ est.product
  cases withReserve
  · exact Nat.add_le_add_right (Nat.mul_le_mul_right _ vbytes_false_le) _
  · exact le_rfl

theorem Estimated.lower (est : t.Estimated E rate) {lower : Nat} (less : lower ≤ rate) :
    t.Estimated E lower := by
  refine { est with product := lt_of_le_of_lt ?_ est.product }
  gcongr

theorem Estimated.feeAt_mono (est : t.Estimated E rate) {lower : Nat} (less : lower ≤ rate)
    (withReserve : Bool) :
    feeAt (t.vbytes withReserve) lower ≤ feeAt (t.vbytes withReserve) rate := by
  rw [feeAt_eq (est.fits _), feeAt_eq ((est.lower less).fits _)]
  gcongr

/-- A release with its witness. -/
def signed (t : Terms) (E : Env) (output : List TxOut) : Transaction :=
  let unsigned : Transaction :=
    { version := 2, lockTime := 0, output
      input := [{ previousOutput := t.lock, scriptSig := [], sequence := 0xfffffffd,
                  witness := [] }] }
  { unsigned with
    input := [{ previousOutput := t.lock, scriptSig := [], sequence := 0xfffffffd,
                witness := [E.signRelease t.index unsigned t.script t.lockValue,
                  Bytes.of256 (E.secret t.index), t.script] }] }

/-- When a release is built, and with which outputs. -/
theorem Estimated.release_eq_ok (est : t.Estimated E rate) :
    t.release E rate = .ok tx ↔ t.amountSats ≤ t.lockValue ∧
      ((feeAt (t.vbytes true) rate + releaseDust ≤ t.lockValue - t.amountSats ∧
          tx = t.signed E [t.payment,
            ⟨t.lockValue - t.amountSats - feeAt (t.vbytes true) rate, t.reserveSpk⟩]) ∨
        (t.lockValue - t.amountSats < feeAt (t.vbytes true) rate + releaseDust ∧
          feeAt (t.vbytes false) rate ≤ t.lockValue - t.amountSats ∧
          tx = t.signed E [t.payment])) := by
  have fee := feeAt_eq (est.fits true)
  have fits := est.fits true
  have value := est.value
  have dust : add64 (feeAt (t.vbytes true) rate) releaseDust =
      feeAt (t.vbytes true) rate + releaseDust := add64_of_lt (by rw [releaseDust]; omega)
  have built : t.release E rate = releaseOutputs t.script.length t.lockValue t.recipientSpk
      t.amountSats t.reserveSpk rate >>= fun output => pure (t.signed E output) := rfl
  have size : ∀ b, releaseVbytes t.script.length t.recipientSpk.length b = t.vbytes b :=
    fun _ => rfl
  rw [built, releaseOutputs]
  simp only [size, dust]
  by_cases enough : t.amountSats ≤ t.lockValue
  · by_cases back : feeAt (t.vbytes true) rate + releaseDust ≤ t.lockValue - t.amountSats
    · rw [if_pos back, sub64_of_le (by omega) (by omega)]
      simp [ensure, enough, back, Nat.not_lt.mpr back, bind, Except.bind, pure, Except.pure,
        payment, eq_comm]
    · rw [if_neg back]
      by_cases pays : feeAt (t.vbytes false) rate ≤ t.lockValue - t.amountSats <;>
        simp [ensure, enough, back, Nat.lt_of_not_le back, pays, bind, Except.bind, pure,
          Except.pure, payment, eq_comm]
  · simp [ensure, enough, bind, Except.bind]

theorem length_compactSize_le {size : Nat} (small : size ≤ 0xffff) :
    (compactSize size).length ≤ 3 := by
  rw [compactSize]
  split_ifs <;> simp

section

variable (est : t.Estimated E rate)
include est

/-- The witness is no larger than the estimate counts, whatever the outputs are. -/
theorem Estimated.weight_le (output : List TxOut) (few : output.length < 253) :
    (t.signed E output).weight ≤
      4 * (51 + (output.map fun o => o.serialize.length).sum) + 112 + t.script.length := by
  have counted := length_compactSize_le est.script
  have one : (compactSize (0 + 1)).length = 1 := length_compactSize (by decide)
  have three : (compactSize (0 + 1 + 1 + 1)).length = 1 := length_compactSize (by decide)
  have secret : (compactSize 32).length = 1 := length_compactSize (by decide)
  have segwit : (t.signed E output).usesSegwit = true := rfl
  rw [weight_eq segwit]
  simp only [signed, map_cons, map_nil, sum_cons, sum_nil, length_cons,
    length_nil, length_compactSize few, length_serialize_txIn, serializeWitness,
    serializeItem, flatMap_cons, flatMap_nil, length_append, Bytes.length_of256]
  generalize isSignature : E.signRelease t.index _ t.script t.lockValue = signature
  have short : signature.length ≤ 72 := isSignature ▸ est.signature _
  have signed : (compactSize signature.length).length = 1 := length_compactSize (by omega)
  omega

theorem Estimated.length_payment :
    t.payment.serialize.length = 9 + t.recipientSpk.length := by
  rw [length_serialize_txOut, payment, length_compactSize est.recipient]

theorem Estimated.vsize_without_le :
    (t.signed E [t.payment]).vsize ≤ t.vbytes false := by
  have weight := est.weight_le [t.payment] (by simp)
  simp [est.length_payment, Transaction.vsize, vbytes, releaseVbytes] at weight ⊢
  omega

theorem Estimated.vsize_with_le (value : Nat) :
    (t.signed E [t.payment, ⟨value, t.reserveSpk⟩]).vsize ≤ t.vbytes true := by
  have weight := est.weight_le [t.payment, ⟨value, t.reserveSpk⟩] (by simp)
  have own := est.reserve
  have reserve : (TxOut.serialize ⟨value, t.reserveSpk⟩).length ≤ 31 := by
    simp only [length_serialize_txOut, length_compactSize (show t.reserveSpk.length < 253 by omega)]
    omega
  simp [est.length_payment, Transaction.vsize, vbytes, releaseVbytes] at weight ⊢
  omega

/-- The fee of a size pays the rate for all that is not larger. -/
theorem Estimated.rate_mul_le {size : Nat} {withReserve : Bool}
    (enough : size ≤ t.vbytes withReserve) :
    max rate minRateSatKvb * size ≤ 1000 * feeAt (t.vbytes withReserve) rate := by
  have product := Nat.mul_le_mul_right (max rate minRateSatKvb) enough
  rw [feeAt_eq (est.fits _), Nat.mul_comm]
  omega

end

/-- What a release leaves to the miners. -/
def fee (t : Terms) (rate : Nat) : Nat :=
  if feeAt (t.vbytes true) rate + releaseDust ≤ t.lockValue - t.amountSats then
    feeAt (t.vbytes true) rate
  else t.lockValue - t.amountSats

theorem Estimated.pays (est : t.Estimated E rate) (ok : t.release E rate = .ok tx) :
    t.Pays rate tx (t.fee rate) := by
  obtain ⟨enough, ⟨back, rfl⟩ | ⟨short, pays, rfl⟩⟩ := est.release_eq_ok.mp ok
  · rw [fee, if_pos back]
    refine ⟨.inr ⟨_, by omega, rfl⟩, ?_, by simp [signed], est.rate_mul_le (est.vsize_with_le _)⟩
    simp [signed, payment]
    omega
  · rw [fee, if_neg (Nat.not_le.mpr short)]
    refine ⟨.inl rfl, by simp [signed, payment, enough], fun _ => short, ?_⟩
    exact (est.rate_mul_le est.vsize_without_le).trans (Nat.mul_le_mul_left _ pays)

/-- For every lock, amount, script and rate within the estimate a built release pays exactly,
and at a lower rate it is built too, for no larger fee. -/
theorem release_pays_and_lower (est : t.Estimated E rate) (ok : t.release E rate = .ok tx) :
    ∃ fee, t.Pays rate tx fee ∧ ∀ lower ≤ rate, ∃ tx' fee',
      t.release E lower = .ok tx' ∧ t.Pays lower tx' fee' ∧ fee' ≤ fee := by
  refine ⟨t.fee rate, est.pays ok, fun lower less => ?_⟩
  have reserve := est.feeAt_mono less true
  have without := est.feeAt_mono less false
  obtain ⟨enough, outputs⟩ := est.release_eq_ok.mp ok
  have built : ∃ tx', t.release E lower = .ok tx' := by
    simp only [(est.lower less).release_eq_ok]
    by_cases back : feeAt (t.vbytes true) lower + releaseDust ≤ t.lockValue - t.amountSats
    · exact ⟨_, enough, .inl ⟨back, rfl⟩⟩
    · exact ⟨_, enough, .inr ⟨by omega, by omega, rfl⟩⟩
  obtain ⟨tx', ok'⟩ := built
  refine ⟨tx', t.fee lower, ok', (est.lower less).pays ok', ?_⟩
  rw [fee, fee]
  split_ifs <;> omega

end Terms

namespace Sample

/-- Signatures of the largest size, and a lock with its hand-over script of 114 bytes. -/
def signer : Env := { env with signRelease := fun _ _ _ _ => replicate 72 0 }

def terms (reserveLen : Nat) : Terms :=
  ⟨0, ⟨9, 0⟩, 101700, replicate 114 0, replicate 22 0, 100000,
    replicate reserveLen 1⟩

theorem estimated_terms : (terms 22).Estimated signer 5000 := by
  refine ⟨fun _ => ?_, ?_, ?_, ?_, ?_, ?_⟩ <;> simp [terms, signer, Terms.vbytes, releaseVbytes,
    minRateSatKvb]

end Sample

/-- A lock of 101,700 sats with a reserve, released at 5 sat/vB and at 1 sat/vB. -/
theorem release_pays_own_reserve : ∃ tx fee, (Sample.terms 22).release Sample.signer 5000 = .ok tx ∧
    (Sample.terms 22).Pays 5000 tx fee ∧ ∃ tx' fee',
      (Sample.terms 22).release Sample.signer 1000 = .ok tx' ∧
      (Sample.terms 22).Pays 1000 tx' fee' ∧ fee' ≤ fee := by
  have ok := Sample.estimated_terms.release_eq_ok.mpr
    ⟨by decide, .inl ⟨by decide +kernel, rfl⟩⟩
  obtain ⟨fee, pays, lower⟩ := Terms.release_pays_and_lower Sample.estimated_terms ok
  exact ⟨_, fee, ok, pays, lower 1000 (by decide)⟩

/-- A reserve script of 34 bytes: the outputs, the fee that is left and the size of the release
at 1 sat/vB. -/
theorem large_reserve_underpaid :
    ((Sample.terms 34).release Sample.signer 1000).toOption.map (fun tx =>
      (tx.output.map TxOut.value, 101700 - (tx.output.map TxOut.value).sum, tx.vsize)) =
      some ([100000, 1530], 170, 181) := by
  decide +kernel

end Lij.Node.OnchainPay
