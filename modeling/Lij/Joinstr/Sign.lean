import Lij.Joinstr.Keys

/-!
# MuSig2 signing of the pre-signed exits

Every exit has one message, computed from the transactions, and one secret nonce
bound to it. Aggregation checks every partial signature and the final signature
before it returns anything, and attaching writes exactly one signature into each
exit. The theorems say what a successful aggregation and attachment leave behind.
-/

namespace Lij.Joinstr

open Bitcoin Checked List

structure ExitMessage where
  index : Nat
  key : Nat
  msg : Digest
  outputKey : XOnlyPublicKey
  deriving DecidableEq, Repr

/-- One member's secret nonces for one signing, each bound to its exit. -/
abbrev ExitNonces (P : Primitives) := List (Nat × Digest × P.SecNonce)

/-- One signer's key, nonces and partial signatures. -/
structure Signer where
  key : Point
  nonces : List PubNonce
  sigs : List PartialSignature
  deriving DecidableEq, Repr

def exitMessages (P : Primitives) (keys : PoolKeys) (txs : PoolTxs) :
    Except String (List ExitMessage) :=
  ((txs.exits.zip txs.spent).zip txs.links).zipIdx.mapM fun entry => do
    let (((tx, spent), link), i) := entry
    let outputKey ← P.outputKey keys link.source
    return { index := i, key := link.source, msg := P.exitSighash tx spent, outputKey }

def makeNonces (P : Primitives) (seckey : Scalar) (keys : PoolKeys) (msgs : List ExitMessage)
    (id : String) (aux : Digest) : Except String (ExitNonces P × List PubNonce) := do
  ensure (msgs ≠ []) "no exits to sign"
  ensure (P.basePointMul seckey ∈ keys.keys) "this key is not one of the pool's keys"
  let secs ← msgs.mapM fun m => do
    let ctx ← P.ctx keys m.key
    let extra := Bytes.ofText id ++ leBytes 4 (m.index + 1)
    let seed := P.tagged "joinstr/v2/lij/nonce-seed" (Bytes.of256 aux ++ leBytes 4 m.index)
    return (m.index, m.msg, P.secNonce seed seckey (P.aggregatedPubkey ctx) m.msg extra)
  return (secs, secs.map fun entry => P.publicNonce entry.2.2)

/-- The aggregate of every signer's nonce for exit `i`. -/
def aggNonceAt (P : Primitives) (nonces : List (List PubNonce)) (i : Nat) : P.AggNonce :=
  P.aggNonce (nonces.map fun list => list.getD i 0)

def partialSign (P : Primitives) (seckey : Scalar) (keys : PoolKeys) (msgs : List ExitMessage)
    (secnonces : ExitNonces P) (nonces : List (List PubNonce)) :
    Except String (List PartialSignature) := do
  ensure (nonces.length = keys.keys.length) "missing nonces"
  ensure (secnonces.length = msgs.length)
    s!"{secnonces.length} secret nonces for {msgs.length} exits"
  ensure (∀ list ∈ nonces, list.length = msgs.length)
    "a member's nonce list does not have one nonce per exit"
  (secnonces.zip msgs).zipIdx.mapM fun entry => do
    let (((index, msg, sec), m), i) := entry
    ensure (index = m.index ∧ msg = m.msg)
      s!"the nonce for exit {i + 1} was made for another message"
    let ctx ← P.ctx keys m.key
    (P.signPartial ctx seckey sec (aggNonceAt P nonces i) m.msg).mapError
      fun e => s!"sign exit {i + 1}: {e}"

/-- Check and aggregate the partial signatures of one exit. -/
def aggregateExit (P : Primitives) (keys : PoolKeys) (signers : List Signer) (m : ExitMessage)
    (i : Nat) : Except String CompactSignature := do
  let ctx ← P.ctx keys m.key
  let agg := aggNonceAt P (signers.map Signer.nonces) i
  let bad := signers.filter fun s =>
    !P.verifyPartial ctx (s.sigs.getD i 0) agg s.key (s.nonces.getD i 0) m.msg
  ensure (bad = [])
    (s!"invalid partial signature for exit {i + 1} from " ++
      String.intercalate ", " (bad.map fun s => Hex.encode (Bytes.of264 s.key)))
  let sig ← (P.aggregatePartial ctx agg (signers.map fun s => s.sigs.getD i 0) m.msg).mapError
    fun e => s!"aggregate exit {i + 1}: {e}"
  ensure (P.verifySchnorr sig m.msg m.outputKey) s!"exit {i + 1} signature does not verify"
  return sig

/-- The signers must be exactly the pool's keys, each with one entry per exit. -/
def aggregate (P : Primitives) (keys : PoolKeys) (msgs : List ExitMessage)
    (signers : List Signer) : Except String (List CompactSignature) := do
  let got := (signers.map Signer.key).insertionSort (· ≤ ·)
  let want := keys.keys.insertionSort (· ≤ ·)
  ensure (got = want) "the signers are not exactly the pool's keys"
  signers.forM fun s =>
    ensure (s.nonces.length = msgs.length ∧ s.sigs.length = msgs.length)
      (Hex.encode (Bytes.of264 s.key) ++
        " did not send one nonce and one partial signature per exit")
  msgs.zipIdx.mapM fun entry => aggregateExit P keys signers entry.1 entry.2

/-- Every signature an aggregation returns verifies for its exit's message and key. -/
theorem aggregate_verifies {P : Primitives} {keys : PoolKeys} {msgs : List ExitMessage}
    {signers : List Signer} {sigs : List CompactSignature}
    (aggregated : aggregate P keys msgs signers = .ok sigs) :
    List.Forall₂ (fun m sig => P.verifySchnorr sig m.msg m.outputKey = true) msgs sigs := by
  simp only [aggregate, aggregateExit, bind_eq_ok, ensure_eq_ok, exists_const, mapM_eq_ok,
    pure_eq_ok] at aggregated
  obtain ⟨_, _, _, each⟩ := aggregated
  rw [← zipIdx_map_fst 0 msgs, forall₂_map_left_iff]
  refine each.imp fun entry sig exit => ?_
  obtain ⟨_, _, _, _, _, verifies, rfl⟩ := exit
  exact verifies

/-- The signature as the only witness item of an exit's input. -/
def signExit (tx : Transaction) (sig : CompactSignature) : Transaction :=
  { tx with input := tx.input.map fun i => { i with witness := [Bytes.ofNat 64 sig.toNat] } }

/-- One signature per exit, each exit with its one input. -/
def attach (txs : PoolTxs) (sigs : List CompactSignature) : Except String PoolTxs := do
  ensure (sigs.length = txs.exits.length)
    s!"{sigs.length} signatures for {txs.exits.length} exits"
  ensure (∀ tx ∈ txs.exits, tx.input.length = 1) "an exit without exactly one input"
  return { txs with exits := zipWith signExit txs.exits sigs }

/-- Attaching changes the exits only, each by its own signature. -/
theorem attach_eq_ok {txs txs' : PoolTxs} {sigs : List CompactSignature}
    (attached : attach txs sigs = .ok txs') :
    sigs.length = txs.exits.length ∧ (∀ tx ∈ txs.exits, tx.input.length = 1) ∧
      txs' = { txs with exits := zipWith signExit txs.exits sigs } := by
  simp only [attach, bind_eq_ok, ensure_eq_ok, exists_const, pure_eq_ok] at attached
  obtain ⟨lengths, inputs, rfl⟩ := attached
  exact ⟨lengths, inputs, rfl⟩

end Lij.Joinstr
