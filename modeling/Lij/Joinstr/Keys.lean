import Lij.Foundation.Checked
import Lij.Joinstr.Basic
import Mathlib.Data.List.Sort

/-!
# The pool's keys

A pool's outputs are `tr(musig(K1,...,KN)/0/*)`: the members' keys, sorted, are
aggregated, the aggregate is the key of a BIP-328 extended key, its child
`0/index` is derived and tweaked as BIP-86 says. joinstr tweaks the signing
context and reads the output key off it.
-/

namespace Lij.Joinstr

open Checked

/-- SHA256("MuSig2MuSig2MuSig2"). -/
def bip328ChainCode : Digest :=
  0x868087ca02a6f974c4598924c36b57762d32cb45717167e300622c7167e38965

def syntheticXpub (agg : Point) : Xpub := ⟨agg, bip328ChainCode⟩

/-- A point without the byte that holds its parity. -/
def xOnly (key : Point) : XOnlyPublicKey := key.setWidth 256

namespace Primitives

variable (P : Primitives)

/-- The untweaked context of sorted keys, the first child of their extended key and its tweak. -/
def poolBase (keys : List Point) : Except String (P.Ctx × Xpub × Scalar) := do
  let base ← P.keyAggContext keys
  let xpub := syntheticXpub (P.aggregatedPubkey base)
  let t0 ← P.ckdPubTweak xpub 0
  let child0 ← P.ckdPub xpub 0
  return (base, child0, t0)

/-- `PoolKeys::new`. -/
def newPoolKeys (keys : List Point) : Except String PoolKeys := do
  ensure (keys ≠ []) "a pool needs at least one key"
  let sorted := keys.insertionSort (· ≤ ·)
  let _ ← P.poolBase sorted
  return { keys := sorted }

/-- The signing context of pool output `index`. -/
def ctx (keys : PoolKeys) (index : Nat) : Except String P.Ctx := do
  let (base, child0, t0) ← P.poolBase keys.keys
  let t1 ← P.ckdPubTweak child0 index
  let first ← P.withPlainTweak base t0
  let second ← P.withPlainTweak first t1
  P.withUnspendableTaprootTweak second

def outputKey (keys : PoolKeys) (index : Nat) : Except String XOnlyPublicKey :=
  (P.ctx keys index).map fun ctx => xOnly (P.aggregatedPubkey ctx)

end Primitives

end Lij.Joinstr
