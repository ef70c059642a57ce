import Lij.Foundation.Folds
import Lij.Tier2.Fetch

/-!
# Segments of the block chain

A segment is the blocks from the wallet's birthday to a tip. What the ledger
relies on is stated once: transaction ids do not repeat, an output is spent at
most once and after it was created, and a coinbase input carries no key. The
scan of a segment applies its blocks in ascending order.
-/

namespace Lij.Tier2

open Bitcoin List

/-- The outpoint of a coinbase input. -/
def nullOutPoint : OutPoint := ⟨0, 0xffffffff⟩

structure Segment where
  birthday : Nat
  tip : Nat
  block : Nat → Block

/-- The outpoints that inputs spend. -/
def spentIn (inputs : List TxIn) : List OutPoint :=
  (inputs.map TxIn.previousOutput).filter (· ≠ nullOutPoint)

/-- The outpoints a transaction spends. -/
def spentBy (tx : Transaction) : List OutPoint := spentIn tx.input

theorem mem_spentIn {inputs : List TxIn} {op : OutPoint} :
    op ∈ spentIn inputs ↔ ∃ input ∈ inputs, input.previousOutput = op ∧ op ≠ nullOutPoint := by
  simp only [spentIn, mem_filter, mem_map, decide_eq_true_eq]
  constructor
  · rintro ⟨⟨input, member, same⟩, real⟩
    exact ⟨input, member, same, real⟩
  · rintro ⟨input, member, same, real⟩
    exact ⟨⟨input, member, same⟩, real⟩

theorem spentIn_append (first second : List TxIn) :
    spentIn (first ++ second) = spentIn first ++ spentIn second := by
  simp [spentIn]

/-- A transaction at its height. -/
def Ledger.applyAt (C : Crypto) (scripts : WalletScripts) (l : Ledger)
    (p : Nat × Transaction) : Ledger :=
  l.applyTx C scripts p.1 p.2

namespace Segment

def heights (S : Segment) : List Nat := range' S.birthday (S.tip + 1 - S.birthday)

/-- The transactions of some of the blocks with their heights, in block order. -/
def txsAt (S : Segment) (heights : List Nat) : List (Nat × Transaction) :=
  heights.flatMap fun h => (S.block h).txdata.map fun tx => (h, tx)

def txs (S : Segment) : List (Nat × Transaction) := S.txsAt S.heights

structure Valid (C : Crypto) (S : Segment) : Prop where
  ids : (S.txs.map fun p => C.computeTxid p.2).Nodup
  spentOnce : (S.txs.flatMap fun p => spentBy p.2).Nodup
  /-- No transaction spends an output of a later one, or of its own. -/
  spentAfter : S.txs.Pairwise fun earlier later =>
    ∀ op ∈ spentBy earlier.2, op.txid ≠ C.computeTxid later.2
  spentOther : ∀ p ∈ S.txs, ∀ op ∈ spentBy p.2, op.txid ≠ C.computeTxid p.2
  notNull : ∀ p ∈ S.txs, C.computeTxid p.2 ≠ nullOutPoint.txid
  /-- A coinbase input has at most the witness commitment's one item. -/
  coinbase : ∀ p ∈ S.txs, ∀ input ∈ p.2.input, input.previousOutput = nullOutPoint →
    input.witness.length ≤ 1

/-- The blocks of these heights applied to a view, in the given order. -/
def applyTo (S : Segment) (C : Crypto) (scripts : WalletScripts) (heights : List Nat)
    (view : Tier2View) : Tier2View :=
  heights.foldl (fun view h => view.applyTxs C scripts (S.block h).txdata h) view

/-- The whole segment, each block once and in ascending order. -/
def scan (S : Segment) (C : Crypto) (scripts : WalletScripts) : Tier2View :=
  S.applyTo C scripts S.heights .empty

variable {C : Crypto} {scripts : WalletScripts} {S : Segment}

theorem mem_heights {h : Nat} : h ∈ S.heights ↔ S.birthday ≤ h ∧ h ≤ S.tip := by
  rw [heights, mem_range'_1]
  omega

theorem mem_txsAt {heights : List Nat} {p : Nat × Transaction} :
    p ∈ S.txsAt heights ↔ p.1 ∈ heights ∧ p.2 ∈ (S.block p.1).txdata := by
  simp only [txsAt, mem_flatMap, mem_map]
  constructor
  · rintro ⟨h, inside, tx, member, rfl⟩
    exact ⟨inside, member⟩
  · rintro ⟨inside, member⟩
    exact ⟨p.1, inside, p.2, member, rfl⟩

/-- The outpoints that these transactions spend. -/
def spentOf (txs : List (Nat × Transaction)) : Set OutPoint := {op | ∃ p ∈ txs, op ∈ spentBy p.2}

theorem spentOf_snoc (txs : List (Nat × Transaction)) (p : Nat × Transaction) :
    spentOf (txs ++ [p]) = spentOf txs ∪ {op | op ∈ spentBy p.2} := by
  ext op
  simp only [spentOf, mem_append, mem_singleton, Set.mem_ofPred_eq, Set.mem_union]
  constructor
  · rintro ⟨q, old | rfl, spends⟩
    · exact .inl ⟨q, old, spends⟩
    · exact .inr spends
  · rintro (⟨q, old, spends⟩ | spends)
    · exact ⟨q, .inl old, spends⟩
    · exact ⟨p, .inr rfl, spends⟩

theorem txsAt_append (first second : List Nat) :
    S.txsAt (first ++ second) = S.txsAt first ++ S.txsAt second :=
  flatMap_append

theorem applyTo_append (first second : List Nat) (view : Tier2View) :
    S.applyTo C scripts (first ++ second) view =
      S.applyTo C scripts second (S.applyTo C scripts first view) :=
  foldl_append

/-- Blocks act on the ledger transaction by transaction. -/
theorem toLedger_applyTo (heights : List Nat) (view : Tier2View) :
    (S.applyTo C scripts heights view).toLedger =
      (S.txsAt heights).foldl (Ledger.applyAt C scripts) view.toLedger := by
  rw [txsAt, foldl_flatMap]
  induction heights generalizing view with
  | nil => rfl
  | cons h heights ih =>
    rw [applyTo, foldl_cons, ← applyTo, ih, foldl_cons, foldl_map]
    rfl

/-- On a valid segment a transaction spends nothing that was spent before it, and nothing
spent so far is its own output. -/
theorem Valid.fresh (valid : S.Valid C) {done rest : List (Nat × Transaction)}
    {p : Nat × Transaction} (split : S.txs = done ++ p :: rest) :
    (∀ op ∈ spentBy p.2, op ∉ spentOf done) ∧ (spentBy p.2).Nodup ∧
      ∀ op, op ∈ spentOf done ∨ op ∈ spentBy p.2 → op.txid ≠ C.computeTxid p.2 := by
  have once := valid.spentOnce
  have after := valid.spentAfter
  rw [split, flatMap_append, flatMap_cons] at once
  rw [split] at after
  refine ⟨?_, (List.Nodup.of_append_left (List.Nodup.of_append_right once)), ?_⟩
  · rintro op spends ⟨q, earlier, spent⟩
    exact disjoint_of_nodup_append once (mem_flatMap.mpr ⟨q, earlier, spent⟩)
      (mem_append_left _ spends)
  · rintro op (⟨q, earlier, spent⟩ | own)
    · exact (pairwise_append.mp after).2.2 q earlier p mem_cons_self op spent
    · exact valid.spentOther p (by simp [split]) op own

end Segment

end Lij.Tier2
