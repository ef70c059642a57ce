import Lij.Tier2.Answers
import Lij.Tier2.Facts

/-!
# The newest-first walk

The walk opens at some height and grows in both directions, batch by batch, and
a batch that fails half way is tried again. Its ledger reflects the blocks read
so far, whatever their order. A taproot spend read before its coin is known from
the block's filter and noted as a hint; reading the hinted blocks again settles
the coin. When the walk has reached both ends its coins are those of the direct
scan.
-/

namespace Lij.Tier2

open Bitcoin Folds Checked List

/-! ## What a step can do to the coins -/

namespace Ledger

variable {C : Crypto} {scripts : WalletScripts} {l l' l'' : Ledger} {h : Nat}

/-- No coin is lost, and a coin without a mark was there before or is new. -/
structure Grows (l l' : Ledger) : Prop where
  held : ∀ op, l.holds op = true → l'.holds op = true
  opened : ∀ u ∈ l'.utxos, u.spentHeight = none → u ∈ l.utxos ∨ l.holds u.outpoint = false

theorem Grows.refl (l : Ledger) : Grows l l := ⟨fun _ held => held, fun _ member _ => .inl member⟩

theorem Grows.trans (first : Grows l l') (second : Grows l' l'') : Grows l l'' := by
  refine ⟨fun op held => second.held op (first.held op held), fun u member unmarked => ?_⟩
  obtain old | new := second.opened u member unmarked
  · exact first.opened u old unmarked
  · refine .inr (Bool.eq_false_iff.mpr fun held => ?_)
    rw [first.held _ held] at new
    cases new

theorem Grows.mark (l : Ledger) (op : OutPoint) (txid : Txid) : Grows l (l.mark op txid h) := by
  refine ⟨fun op' held => holds_mark.trans held, fun u member unmarked => ?_⟩
  obtain ⟨before, inside, rfl⟩ := mem_map.mp member
  rw [(markSpent_open unmarked).1]
  exact .inl inside

theorem Grows.spendInput (l : Ledger) (txid : Txid) (input : TxIn) :
    Grows l (l.spendInput C scripts txid h input) :=
  let marked := Grows.mark l input.previousOutput txid
  ⟨marked.held, marked.opened⟩

theorem Grows.receiveOutput (l : Ledger) (paid : OutPoint × TxOut) :
    Grows l (l.receiveOutput scripts h paid) := by
  obtain ⟨_, coins, _⟩ | ⟨_, same⟩ | ⟨missing, r, _, coins, _⟩ :=
    receiveOutput_cases l scripts h paid
  · constructor
    · intro op held
      rw [holds, coins]
      exact held
    · exact fun u member _ => .inl (coins ▸ member)
  · rw [same]
    exact .refl l
  · constructor
    · intro op held
      obtain ⟨u, member, same⟩ := holds_iff.mp held
      exact holds_iff.mpr ⟨u, coins ▸ mem_append_left _ member, same⟩
    · intro u member _
      rw [coins] at member
      obtain old | rfl := (mem_append.mp member).imp_right mem_singleton.mp
      · exact .inl old
      · exact .inr missing

theorem Grows.applyAll (l : Ledger) (txs : List (Nat × Transaction)) :
    Grows l (txs.foldl (Ledger.applyAt C scripts) l) := by
  refine foldl_invariant (.refl l) fun after p _ grows => grows.trans ?_
  refine foldl_invariant (foldl_invariant (.refl after) ?_) ?_
  · exact fun before input _ grows => grows.trans (.spendInput before _ input)
  · exact fun before paid _ grows => grows.trans (.receiveOutput before paid)

end Ledger

/-! ## The filters of a segment -/

/-- An output of the block has the script, or an output it spends does. -/
def Touches (S : Segment) (C : Crypto) (h : Nat) (script : Script) : Prop :=
  ∃ tx ∈ (S.block h).txdata, (∃ out ∈ tx.output, out.scriptPubkey = script) ∨
    ∃ op ∈ spentBy tx, ∃ found, S.outputOf C op = some found ∧ found.2.scriptPubkey = script

/-- The text of the hash of the segment's block at a height. -/
def hashText (K : ChainCrypto) (S : Segment) (h : Nat) : String :=
  hashToStr (K.blockHash (S.block h).header)

/-- What the walk's filter test finds at a height. -/
def findAt (K : ChainCrypto) (S : Segment) (scripts : WalletScripts) (filter : Nat → Bytes)
    (h : Nat) : Except String (Option MatchedBlock) :=
  testFilter K scripts (filter h) ⟨h, hashText K S h, "", ""⟩

/-- What the walk relies on: a valid chain whose spends of P2WPKH coins carry their key, a
header hash and a merkle root that bind their block, and filters without false
negatives. -/
structure Setting (K : ChainCrypto) (S : Segment) (scripts : WalletScripts)
    (filter : Nat → Bytes) : Prop where
  valid : S.Valid K.toCrypto
  keyed : S.KeyedSpends K.toCrypto scripts
  bound : ∀ h ∈ S.heights, ∀ block, K.checkMerkleRoot block = true →
    K.blockHash block.header = K.blockHash (S.block h).header → block = S.block h
  complete : ∀ h ∈ S.heights, ∀ script, Touches S K.toCrypto h script → ∀ query hit,
    script ∈ query → K.matchAny (filter h) (K.blockHash (S.block h).header) query = .ok hit →
    hit = true

section Filters

variable {K : ChainCrypto} {S : Segment} {scripts : WalletScripts} {filter : Nat → Bytes}
variable {h : Nat}

theorem findAt_some {m : MatchedBlock} (found : findAt K S scripts filter h = .ok (some m)) :
    m.height = h ∧ m.blockHash = hashText K S h ∧
      trHits K (filter h) (K.blockHash (S.block h).header) scripts = .ok m.trHits := by
  obtain ⟨hash, hit, parsed, _, outcome⟩ := testFilter_eq_ok found
  have isHash : hash = K.blockHash (S.block h).header :=
    Except.ok.inj (parsed.symm.trans (hashFromStr_hashToStr _))
  cases hit with
  | true =>
    obtain ⟨_, same, height, blockHash, hits⟩ := outcome
    cases same
    exact ⟨height, blockHash, isHash ▸ hits⟩
  | false => cases outcome

theorem findAt_none (found : findAt K S scripts filter h = .ok none) :
    blockMatches K (filter h) (K.blockHash (S.block h).header) scripts = .ok false := by
  obtain ⟨hash, hit, parsed, looked, outcome⟩ := testFilter_eq_ok found
  have isHash : hash = K.blockHash (S.block h).header :=
    Except.ok.inj (parsed.symm.trans (hashFromStr_hashToStr _))
  cases hit with
  | true =>
    obtain ⟨_, none, _⟩ := outcome
    cases none
  | false => exact isHash ▸ looked

/-- A taproot script that every query for it finds is among the hits. -/
theorem mem_trHits {bytes : Bytes} {hash : BlockHash} {hits : List (Nat × Nat)}
    (named : trHits K bytes hash scripts = .ok hits) {e : MatchEntry} (entry : e ∈ scripts.entries)
    (taproot : (bip86Branch e.chain).isSome)
    (always : ∀ query hit, e.scriptPubkey ∈ query → K.matchAny bytes hash query = .ok hit →
      hit = true) : (e.chain, e.index) ∈ hits := by
  have isTr : e ∈ scripts.trEntries := mem_filter.mpr ⟨entry, taproot⟩
  rw [trHits, if_neg (by simp [ne_nil_of_mem isTr])] at named
  obtain ⟨any, looked, rest⟩ := bind_eq_ok.mp named
  have found : any = true :=
    always _ any (mem_map_of_mem isTr) (mapError_eq_ok.mp looked)
  rw [found, if_neg (by simp)] at rest
  obtain ⟨kept, filtered, rest⟩ := bind_eq_ok.mp rest
  cases pure_eq_ok.mp rest
  obtain ⟨hit, looked, inside⟩ := mem_filterM filtered isTr
  exact mem_map.mpr ⟨e, inside (always _ hit (mem_singleton_self _)
    (mapError_eq_ok.mp looked)), rfl⟩

/-- The script of a payment that a transaction spends is touched by its block. -/
theorem touches_of_spent {p : Nat × Transaction} (member : p ∈ S.txs) {op : OutPoint}
    (spends : op ∈ spentBy p.2) {r : Receipt}
    (paid : (S.facts K.toCrypto scripts).paid op = some r) :
    ∃ script, Touches S K.toCrypto p.1 script ∧
      scripts.ownerOf script = some (r.chain, r.index) := by
  obtain ⟨_, _, out, _, _, isOutput, receipt⟩ := Segment.payer_of_paid paid
  exact ⟨out.scriptPubkey, ⟨p.2, (Segment.mem_txsAt.mp member).2,
    .inr ⟨op, spends, _, isOutput, rfl⟩⟩,
    (Segment.receiptOf_eq_some receipt).1⟩

namespace Setting

variable (setting : Setting K S scripts filter)
include setting

theorem block_of_fetch {server : Server} {block : Block} (inside : h ∈ S.heights)
    (fetched : fetchBlockBound K server h (hashText K S h) = .ok block) : block = S.block h := by
  obtain ⟨hash, merkle⟩ := fetchBlockBound_eq_ok fetched
  rw [hashText, hashFromStr_hashToStr] at hash
  exact setting.bound h inside block merkle (Except.ok.inj hash).symm

/-- The filter of a block names the BIP86 coins it spends. -/
theorem hit_of_spent {m : MatchedBlock} {p : Nat × Transaction} (member : p ∈ S.txs)
    (found : findAt K S scripts filter p.1 = .ok (some m)) {op : OutPoint}
    (spends : op ∈ spentBy p.2) {r : Receipt}
    (paid : (S.facts K.toCrypto scripts).paid op = some r)
    (taproot : (bip86Branch r.chain).isSome) : (r.chain, r.index) ∈ m.trHits := by
  obtain ⟨script, touches, owner⟩ := touches_of_spent member spends paid
  obtain ⟨e, entry, rfl, place⟩ := WalletScripts.entry_of_ownerOf owner
  obtain ⟨chain, index⟩ := Prod.mk.inj place
  rw [← chain] at taproot ⊢
  rw [← index]
  refine mem_trHits (findAt_some found).2.2 entry taproot fun query hit asked answered => ?_
  exact setting.complete p.1 (Segment.mem_txsAt.mp member).1 _ touches query hit asked answered

/-- A block whose filter does not match touches nothing of the wallet. -/
theorem untouched {script : Script} (inside : h ∈ S.heights)
    (found : findAt K S scripts filter h = .ok none) (touches : Touches S K.toCrypto h script) :
    scripts.ownerOf script = none := by
  by_contra owned
  obtain ⟨place, owner⟩ := Option.ne_none_iff_exists'.mp owned
  obtain ⟨e, entry, rfl, _⟩ := WalletScripts.entry_of_ownerOf owner
  have looked := findAt_none found
  rw [blockMatches, if_neg (by simp [ne_nil_of_mem entry])] at looked
  cases setting.complete h inside _ touches _ _ (mem_map_of_mem entry)
    (mapError_eq_ok.mp looked)

/-- Nor does it pay the wallet or spend one of its coins. -/
theorem foreign {p : Nat × Transaction} (member : p ∈ S.txs)
    (found : findAt K S scripts filter p.1 = .ok none) {op : OutPoint}
    (involved : op.txid = K.computeTxid p.2 ∨ op ∈ spentBy p.2) :
    (S.facts K.toCrypto scripts).paid op = none := by
  obtain ⟨inside, inBlock⟩ := Segment.mem_txsAt.mp member
  by_contra isPaid
  obtain ⟨r, paid⟩ := Option.ne_none_iff_exists'.mp isPaid
  obtain own | spends := involved
  · obtain ⟨q, payer, out, id, atPlace, _, receipt⟩ := Segment.payer_of_paid paid
    obtain rfl := setting.valid.eq_of_id payer member (id.symm.trans own)
    have touches : Touches S K.toCrypto q.1 out.scriptPubkey :=
      ⟨q.2, inBlock, .inl ⟨out, mem_of_getElem? atPlace, rfl⟩⟩
    have owner := (Segment.receiptOf_eq_some receipt).1
    rw [setting.untouched inside found touches] at owner
    cases owner
  · obtain ⟨script, touches, owner⟩ := touches_of_spent member spends paid
    rw [setting.untouched inside found touches] at owner
    cases owner

end Setting

end Filters

/-! ## What the walk keeps -/

section Walked

variable {K : ChainCrypto} {S : Segment} {scripts : WalletScripts} {filter : Nat → Bytes}
variable {R : Set Nat} {view : Tier2View} {h : Nat}

/-- The outpoints created in the blocks read. -/
def createdAt (K : ChainCrypto) (S : Segment) (R : Set Nat) : Set OutPoint :=
  {op | ∃ p ∈ S.txs, p.1 ∈ R ∧ op.txid = K.computeTxid p.2}

/-- The outpoints spent in the blocks read. -/
def spentAt (S : Segment) (R : Set Nat) : Set OutPoint :=
  {op | ∃ p ∈ S.txs, p.1 ∈ R ∧ op ∈ spentBy p.2}

/-- A coin without its mark although its spend was read. -/
def Lagging (S : Segment) (R : Set Nat) (view : Tier2View) (u : OnchainUtxo) : Prop :=
  u ∈ view.utxos ∧ u.spentHeight = none ∧ u.outpoint ∈ spentAt S R

/-- The view reflects the blocks read, and the spend that a coin lags behind is hinted in a
block that was not yet read for it. -/
structure Walked (K : ChainCrypto) (S : Segment) (scripts : WalletScripts) (R : Set Nat)
    (view : Tier2View) : Prop where
  inside : ∀ h ∈ R, h ∈ S.heights
  reflects : view.toLedger.Reflects (S.facts K.toCrypto scripts) (createdAt K S R) (spentAt S R)
  /-- A coin spent in its own block is marked when the block is read. -/
  later : ∀ u ∈ view.utxos, u.spentHeight = none →
    ∀ s, (S.facts K.toCrypto scripts).spent u.outpoint = some s → s.2 ≠ u.height
  hinted : ∀ op ∈ spentAt S R, ∀ r s, (S.facts K.toCrypto scripts).paid op = some r →
    (S.facts K.toCrypto scripts).spent op = some s → (bip86Branch r.chain).isSome →
    ∃ hint ∈ view.trHints, hint.chain = r.chain ∧ hint.index = r.index ∧ hint.height = s.2
  hints : ∀ hint ∈ view.trHints, hint.height ∈ R ∧ hint.hash = hashText K S hint.height
  checked : ∀ hint ∈ view.trHints, ∀ op ∈ hint.checked, view.holds op = true ∧
    ∀ s, (S.facts K.toCrypto scripts).spent op = some s → s.2 = hint.height →
      ∀ u ∈ view.utxos, u.outpoint = op → u.spentHeight ≠ none

theorem walked_fresh (noCoins : view.toLedger = .empty) (noHints : view.trHints = []) :
    Walked K S scripts ∅ view := by
  have created : createdAt K S ∅ = ∅ := by simp [createdAt]
  have spent : spentAt S ∅ = ∅ := by simp [spentAt]
  refine ⟨nofun, ?_, ?_, ?_, ?_, ?_⟩
  · rw [created, spent, noCoins]
    exact Segment.reflects_empty _
  all_goals first | rw [noHints] | rw [spent] | rw [noCoins]
  all_goals nofun

theorem mem_txsAt_singleton {p : Nat × Transaction} (inside : h ∈ S.heights) :
    p ∈ S.txsAt [h] ↔ p ∈ S.txs ∧ p.1 = h := by
  rw [Segment.mem_txsAt, Segment.txs, Segment.mem_txsAt, mem_singleton]
  constructor
  · rintro ⟨rfl, member⟩
    exact ⟨⟨inside, member⟩, rfl⟩
  · rintro ⟨⟨_, member⟩, rfl⟩
    exact ⟨rfl, member⟩

/-- One more block read adds the transactions of that block. -/
theorem exists_insert (inside : h ∈ S.heights) {P : Nat × Transaction → Prop} :
    (∃ p ∈ S.txs, p.1 ∈ insert h R ∧ P p) ↔
      (∃ p ∈ S.txs, p.1 ∈ R ∧ P p) ∨ ∃ p ∈ S.txsAt [h], P p := by
  simp only [mem_txsAt_singleton inside, Set.mem_insert_iff, or_and_right, and_or_left, exists_or,
    and_assoc]
  exact or_comm

theorem createdAt_insert (inside : h ∈ S.heights) :
    createdAt K S (insert h R) = createdAt K S R ∪ Segment.createdOf K.toCrypto (S.txsAt [h]) :=
  Set.ext fun _ => exists_insert inside

theorem spentAt_insert (inside : h ∈ S.heights) :
    spentAt S (insert h R) = spentAt S R ∪ Segment.spentOf (S.txsAt [h]) :=
  Set.ext fun _ => exists_insert inside

/-- The block stands as a run in the order of the segment. -/
theorem txs_split (inside : h ∈ S.heights) :
    ∃ before rest, S.txs = before ++ S.txsAt [h] ++ rest := by
  obtain ⟨lower, upper, split⟩ := append_of_mem inside
  refine ⟨S.txsAt lower, S.txsAt upper, ?_⟩
  rw [Segment.txs, split, ← singleton_append, ← append_assoc, Segment.txsAt_append,
    Segment.txsAt_append]

/-! ## Hints -/

theorem mem_noteTrHint {txs : List Transaction} {m : MatchedBlock} {hints : List TrHint}
    {hit : Nat × Nat} {hint : TrHint}
    (member : hint ∈ Tier2View.noteTrHint scripts txs m hints hit) :
    hint ∈ hints ∨ hint.height = m.height ∧ hint.hash = m.blockHash ∧ hint.checked = [] := by
  unfold Tier2View.noteTrHint at member
  split_ifs at member
  · exact .inl member
  · obtain old | rfl := (mem_append.mp member).imp_right mem_singleton.mp
    · exact .inl old
    · exact .inr ⟨rfl, rfl, rfl⟩

theorem mem_noteTrHint_of_mem {txs : List Transaction} {m : MatchedBlock} {hints : List TrHint}
    {hit : Nat × Nat} {hint : TrHint} (member : hint ∈ hints) :
    hint ∈ Tier2View.noteTrHint scripts txs m hints hit := by
  unfold Tier2View.noteTrHint
  split_ifs
  · exact member
  · exact mem_append_left _ member

/-- A hit is hinted afterwards. -/
theorem noteTrHint_hinted (txs : List Transaction) (m : MatchedBlock) (hints : List TrHint)
    (hit : Nat × Nat) : ∃ hint ∈ Tier2View.noteTrHint scripts txs m hints hit,
      hint.chain = hit.1 ∧ hint.index = hit.2 ∧ hint.height = m.height := by
  unfold Tier2View.noteTrHint
  split_ifs with known
  · obtain ⟨hint, member, same⟩ := any_eq_true.mp known
    exact ⟨hint, member, by simpa using same⟩
  · exact ⟨_, mem_append_right _ (mem_singleton_self _), rfl, rfl, rfl⟩

theorem mem_noteTrHints (txs : List Transaction) (m : MatchedBlock) :
    ∀ hint ∈ (view.noteTrHints scripts txs m).trHints, hint ∈ view.trHints ∨
      hint.height = m.height ∧ hint.hash = m.blockHash ∧ hint.checked = [] := by
  refine foldl_invariant (I := fun hints : List TrHint => ∀ hint ∈ hints, hint ∈ view.trHints ∨
    hint.height = m.height ∧ hint.hash = m.blockHash ∧ hint.checked = [])
    (fun _ member => .inl member) fun hints hit _ before hint member => ?_
  exact (mem_noteTrHint member).elim (before hint) .inr

/-- Hints stay, and every hit of the block is hinted. -/
theorem noteTrHints_hinted (scripts : WalletScripts) (view : Tier2View) (txs : List Transaction)
    (m : MatchedBlock) :
    (∀ hint ∈ view.trHints, hint ∈ (view.noteTrHints scripts txs m).trHints) ∧
    ∀ hit ∈ m.trHits, ∃ hint ∈ (view.noteTrHints scripts txs m).trHints,
      hint.chain = hit.1 ∧ hint.index = hit.2 ∧ hint.height = m.height := by
  refine foldl_along (fun (done : List (Nat × Nat)) (hints : List TrHint) =>
    (∀ hint ∈ view.trHints, hint ∈ hints) ∧ ∀ hit ∈ done, ∃ hint ∈ hints,
      hint.chain = hit.1 ∧ hint.index = hit.2 ∧ hint.height = m.height)
        ⟨fun _ member => member, nofun⟩ ?_
  rintro done hit rest hints _ ⟨kept, hinted⟩
  refine ⟨fun hint member => mem_noteTrHint_of_mem (kept hint member), fun hit' member => ?_⟩
  obtain earlier | rfl := (mem_append.mp member).imp_right mem_singleton.mp
  · obtain ⟨hint, inside, same⟩ := hinted hit' earlier
    exact ⟨hint, mem_noteTrHint_of_mem inside, same⟩
  · exact noteTrHint_hinted txs m hints hit'

/-! ## Reading a block -/

/-- A coin's payment was read, and is the coin's height. -/
theorem Ledger.Reflects.paid {l : Ledger} {facts : Facts} {created spent : Set OutPoint}
    (reflects : l.Reflects facts created spent) {u : OnchainUtxo} (member : u ∈ l.utxos) :
    ∃ r, facts.paid u.outpoint = some r ∧ u.outpoint ∈ created ∧ u.height = r.height ∧
      u.chain = r.chain ∧ u.index = r.index := by
  obtain ⟨read, r, paid, unmarked | ⟨_, s, _, marked⟩⟩ := reflects.coin u member
  · exact ⟨r, paid, read, by rw [unmarked]; exact ⟨rfl, rfl, rfl⟩⟩
  · exact ⟨r, paid, read, by rw [marked]; exact ⟨rfl, rfl, rfl⟩⟩

/-- Reading one more block keeps what the walk keeps, and only coins of that block can
newly lag. -/
theorem Walked.applyBlock (setting : Setting K S scripts filter)
    (walked : Walked K S scripts R view) (inside : h ∈ S.heights) {m : MatchedBlock}
    (found : findAt K S scripts filter h = .ok (some m)) (closeTxids : List Txid) :
    Walked K S scripts (insert h R)
      (view.applyBlock K.toCrypto scripts closeTxids m (S.block h)) ∧
    ∀ u, Lagging S (insert h R) (view.applyBlock K.toCrypto scripts closeTxids m (S.block h)) u →
      Lagging S R view u ∨ u.height = h := by
  obtain ⟨atHeight, isHash, hits⟩ := findAt_some found
  let after := view.applyBlock K.toCrypto scripts closeTxids m (S.block h)
  have ledger : after.toLedger =
      (S.txsAt [h]).foldl (Ledger.applyAt K.toCrypto scripts) view.toLedger := by
    have one : S.txsAt [h] = (S.block h).txdata.map fun tx => (h, tx) := by simp [Segment.txsAt]
    rw [one, foldl_map]
    change view.toLedger.applyTxs _ _ _ m.height = _
    rw [atHeight]
    rfl
  have reflects : after.toLedger.Reflects (S.facts K.toCrypto scripts)
      (createdAt K S (insert h R)) (spentAt S (insert h R)) := by
    rw [createdAt_insert inside, spentAt_insert inside, ledger]
    refine setting.valid.reflects_applyAll setting.keyed (fun p member => ?_) walked.reflects
    exact ((mem_txsAt_singleton inside).mp member).1
  have grows : Ledger.Grows view.toLedger after.toLedger := ledger ▸ .applyAll _ _
  have settled : Ledger.Settled (Segment.spentOf (S.txsAt [h])) after.toLedger := by
    obtain ⟨before, rest, split⟩ := txs_split inside
    exact ledger ▸ setting.valid.settled_applyAll before rest split
  have notHere : ∀ u ∈ after.utxos, u.spentHeight = none →
      ∀ s, (S.facts K.toCrypto scripts).spent u.outpoint = some s → s.2 ≠ h := by
    intro u member unmarked s spent here
    obtain ⟨p, isSpender, spends, rfl⟩ := Segment.spender_of_spent spent
    exact settled u member unmarked ⟨p, (mem_txsAt_singleton inside).mpr ⟨isSpender, here⟩, spends⟩
  have newHeight : ∀ u ∈ after.utxos, view.holds u.outpoint = false → u.height = h := by
    intro u member missing
    obtain ⟨r, paid, ⟨q, isPayer', readOrHere, id'⟩, height, _⟩ := reflects.paid member
    obtain ⟨p, isPayer, out, id, _, _, receipt⟩ := Segment.payer_of_paid paid
    obtain rfl := setting.valid.eq_of_id isPayer isPayer' (id.symm.trans id')
    rw [(Segment.receiptOf_eq_some receipt).2.1] at height
    by_contra other
    have read := readOrHere.resolve_left fun here => other (height.trans here)
    rw [walked.reflects.complete _ ⟨p, isPayer, read, id⟩ r paid] at missing
    cases missing
  obtain ⟨hintsKept, hitsHinted⟩ := noteTrHints_hinted scripts view (S.block h).txdata m
  refine ⟨⟨?_, reflects, ?_, ?_, ?_, ?_⟩, ?_⟩
  · rintro k (rfl | read)
    · exact inside
    · exact walked.inside k read
  · intro u member unmarked s spent
    obtain old | new := grows.opened u member unmarked
    · exact walked.later u old unmarked s spent
    · rw [newHeight u member new]
      exact notHere u member unmarked s spent
  · rintro op ⟨p, isSpender, rfl | read, spends⟩ r s paid spent taproot
    · rw [setting.valid.spent_eq isSpender spends] at spent
      cases spent
      obtain ⟨hint, noted, chain, index, height⟩ :=
        hitsHinted _ (setting.hit_of_spent isSpender found spends paid taproot)
      exact ⟨hint, noted, chain, index, height.trans atHeight⟩
    · obtain ⟨hint, noted, same⟩ :=
        walked.hinted op ⟨p, isSpender, read, spends⟩ r s paid spent taproot
      exact ⟨hint, hintsKept hint noted, same⟩
  · intro hint noted
    obtain old | ⟨height, hash, _⟩ := mem_noteTrHints _ m hint noted
    · exact ⟨.inr (walked.hints hint old).1, (walked.hints hint old).2⟩
    · rw [height, hash, atHeight]
      exact ⟨.inl rfl, isHash⟩
  · intro hint noted op isChecked
    obtain old | ⟨_, _, unread⟩ := mem_noteTrHints _ m hint noted
    · obtain ⟨held, marked⟩ := walked.checked hint old op isChecked
      refine ⟨grows.held op held, fun s spent here u member same unmarked => ?_⟩
      obtain before | new := grows.opened u member unmarked
      · exact marked s spent here u before same unmarked
      · rw [same, held] at new
        cases new
    · rw [unread] at isChecked
      cases isChecked
  · rintro u ⟨member, unmarked, spent⟩
    obtain old | new := grows.opened u member unmarked
    · rw [spentAt_insert inside] at spent
      exact .inl ⟨old, unmarked, spent.resolve_right (settled u member unmarked)⟩
    · exact .inr (newHeight u member new)

/-- A block whose filter does not match counts as read. -/
theorem Walked.skip (setting : Setting K S scripts filter) (walked : Walked K S scripts R view)
    (inside : h ∈ S.heights) (found : findAt K S scripts filter h = .ok none) :
    Walked K S scripts (insert h R) view ∧
    ∀ u, Lagging S (insert h R) view u → Lagging S R view u := by
  have foreignSpent : ∀ op ∈ spentAt S (insert h R), op ∈ spentAt S R ∨
      (S.facts K.toCrypto scripts).paid op = none ∧
        ∃ s, (S.facts K.toCrypto scripts).spent op = some s := by
    rintro op ⟨p, member, rfl | read, spends⟩
    · exact .inr ⟨setting.foreign member found (.inr spends), _,
        setting.valid.spent_eq member spends⟩
    · exact .inl ⟨p, member, read, spends⟩
  have moreSpent : spentAt S R ⊆ spentAt S (insert h R) :=
    fun op ⟨p, member, read, spends⟩ => ⟨p, member, .inr read, spends⟩
  refine ⟨⟨?_, ?_, walked.later, ?_, ?_, walked.checked⟩, ?_⟩
  · rintro k (rfl | read)
    · exact inside
    · exact walked.inside k read
  · refine (walked.reflects.widenPaid ?_ ?_).widenSpent moreSpent foreignSpent
    · exact fun op ⟨p, member, read, id⟩ => ⟨p, member, .inr read, id⟩
    · rintro op ⟨p, member, rfl | read, id⟩
      · exact .inr (.inl (setting.foreign member found (.inl id)))
      · exact .inl ⟨p, member, read, id⟩
  · intro op spends r s paid
    obtain seen | ⟨unpaid, _⟩ := foreignSpent op spends
    · exact walked.hinted op seen r s paid
    · rw [unpaid] at paid
      cases paid
  · exact fun hint noted => ⟨.inr (walked.hints hint noted).1, (walked.hints hint noted).2⟩
  · rintro u ⟨member, unmarked, spent⟩
    obtain seen | ⟨unpaid, _⟩ := foreignSpent _ spent
    · exact ⟨member, unmarked, seen⟩
    · obtain ⟨_, _, paid, _⟩ := walked.reflects.coin u member
      rw [unpaid] at paid
      cases paid

/-! ## Reading a hinted block again -/

theorem mem_modify {α : Type} {xs : List α} {i : Nat} {f : α → α} {x : α}
    (member : x ∈ xs.modify i f) : x ∈ xs ∨ ∃ y, xs[i]? = some y ∧ x = f y := by
  obtain ⟨j, found⟩ := mem_iff_getElem?.mp member
  rw [getElem?_modify] at found
  by_cases here : i = j
  · subst here
    obtain ⟨y, atPlace, rfl⟩ := Option.map_eq_some_iff.mp (by simpa using found)
    exact .inr ⟨y, atPlace, rfl⟩
  · exact .inl (mem_of_getElem? (by simpa [here] using found))

/-- Every element stays, as it is or changed. -/
theorem exists_mem_modify {α : Type} {xs : List α} {i : Nat} {f : α → α} {x : α}
    (member : x ∈ xs) : x ∈ xs.modify i f ∨ f x ∈ xs.modify i f := by
  obtain ⟨j, found⟩ := mem_iff_getElem?.mp member
  by_cases here : i = j
  · subst here
    exact .inr (mem_iff_getElem?.mpr ⟨i, by simp [found]⟩)
  · exact .inl (mem_iff_getElem?.mpr ⟨j, by simp [here, found]⟩)

section ReadHint

variable {op : OutPoint} {i : Nat} {hint : TrHint}

theorem trHints_readHint {C : Crypto} {txs : List Transaction} :
    (view.readHint C op i h txs).trHints =
      view.trHints.modify i (Tier2View.noteChecked op) := by
  unfold Tier2View.readHint
  dsimp only
  split_ifs <;> rfl

theorem toLedger_readHint {C : Crypto} {txs : List Transaction} :
    (view.readHint C op i h txs).toLedger =
      match Tier2View.spenderIn txs op with
      | some tx => view.toLedger.mark op (C.computeTxid tx) h
      | none => view.toLedger := by
  unfold Tier2View.readHint Tier2View.applyTrSpend
  cases Tier2View.spenderIn txs op <;> rfl

/-- Reading a hinted block for a known coin finds the spend there is, and only that. -/
theorem Walked.ledger_readHint (setting : Setting K S scripts filter)
    (walked : Walked K S scripts R view) (noted : hint ∈ view.trHints)
    (held : view.holds op = true) :
    (view.readHint K.toCrypto op i hint.height (S.block hint.height).txdata).toLedger.Reflects
      (S.facts K.toCrypto scripts) (createdAt K S R) (spentAt S R) ∧
    Ledger.Grows view.toLedger
      (view.readHint K.toCrypto op i hint.height (S.block hint.height).txdata).toLedger ∧
    ∀ s, (S.facts K.toCrypto scripts).spent op = some s → s.2 = hint.height →
      ∀ u ∈ (view.readHint K.toCrypto op i hint.height (S.block hint.height).txdata).utxos,
        u.outpoint = op → u.spentHeight ≠ none := by
  obtain ⟨read, _⟩ := walked.hints hint noted
  have inside := walked.inside _ read
  have real : op ≠ nullOutPoint := by
    rintro rfl
    obtain ⟨u, member, same⟩ := Ledger.holds_iff.mp held
    obtain ⟨_, _, paid, _⟩ := walked.reflects.coin u member
    rw [same, setting.valid.paid_null] at paid
    cases paid
  rw [toLedger_readHint]
  cases found : Tier2View.spenderIn (S.block hint.height).txdata op with
  | some tx =>
    obtain ⟨inBlock, input, isInput, same⟩ := Tier2View.spenderIn_eq_some found
    have member : (hint.height, tx) ∈ S.txs := Segment.mem_txsAt.mpr ⟨inside, inBlock⟩
    have spends : op ∈ spentBy tx := mem_spentIn.mpr ⟨input, isInput, same, real⟩
    have spent : (S.facts K.toCrypto scripts).spent op = some (K.computeTxid tx, hint.height) :=
      setting.valid.spent_eq member spends
    refine ⟨walked.reflects.mark spent ⟨_, member, read, spends⟩, .mark _ _ _, ?_⟩
    intro s _ _ u isCoin same unmarked
    obtain ⟨before, _, rfl⟩ := mem_map.mp isCoin
    obtain ⟨untouched, other⟩ := Ledger.markSpent_open unmarked
    exact other (untouched ▸ same)
  | none =>
    refine ⟨walked.reflects, .refl _, fun s spent here => ?_⟩
    obtain ⟨p, member, spends, rfl⟩ := Segment.spender_of_spent spent
    obtain ⟨_, inBlock⟩ := Segment.mem_txsAt.mp member
    obtain ⟨input, isInput, same, _⟩ := mem_spentIn.mp spends
    have here : p.1 = hint.height := here
    exact absurd same (Tier2View.spenderIn_eq_none found (here ▸ inBlock) isInput)

/-- It adds no coin: one without a mark was there before. -/
theorem Walked.open_readHint (setting : Setting K S scripts filter)
    (walked : Walked K S scripts R view) (noted : hint ∈ view.trHints)
    (held : view.holds op = true) {u : OnchainUtxo}
    (member : u ∈ (view.readHint K.toCrypto op i hint.height (S.block hint.height).txdata).utxos)
    (unmarked : u.spentHeight = none) : u ∈ view.utxos := by
  obtain ⟨reflects, grows, _⟩ := walked.ledger_readHint (i := i) setting noted held
  obtain old | new := grows.opened u member unmarked
  · exact old
  · obtain ⟨read, r, paid, _⟩ := reflects.coin u member
    rw [walked.reflects.complete _ read r paid] at new
    cases new

/-- Reading a hinted block for a known coin keeps what the walk keeps. -/
theorem Walked.readHint (setting : Setting K S scripts filter) (walked : Walked K S scripts R view)
    (atPlace : view.trHints[i]? = some hint) (held : view.holds op = true) :
    Walked K S scripts R
      (view.readHint K.toCrypto op i hint.height (S.block hint.height).txdata) := by
  have noted : hint ∈ view.trHints := mem_of_getElem? atPlace
  obtain ⟨reflects, grows, found⟩ := walked.ledger_readHint (i := i) setting noted held
  refine ⟨walked.inside, reflects, ?_, ?_, ?_, ?_⟩
  · exact fun u member unmarked => walked.later u
      (walked.open_readHint setting noted held member unmarked) unmarked
  · intro op' spends r s paid spent taproot
    obtain ⟨other, inside, place⟩ := walked.hinted op' spends r s paid spent taproot
    rw [trHints_readHint]
    obtain kept | changed := exists_mem_modify (i := i) (f := Tier2View.noteChecked op) inside
    · exact ⟨other, kept, place⟩
    · exact ⟨_, changed, place⟩
  · intro other inside
    rw [trHints_readHint] at inside
    obtain kept | ⟨before, isHint, rfl⟩ := mem_modify inside
    · exact walked.hints other kept
    · exact walked.hints before (mem_of_getElem? isHint)
  · intro other inside op' isChecked
    have before : ∀ hint' ∈ view.trHints, op' ∈ hint'.checked →
        (view.readHint K.toCrypto op i hint.height (S.block hint.height).txdata).holds op' = true ∧
        ∀ s, (S.facts K.toCrypto scripts).spent op' = some s → s.2 = hint'.height →
          ∀ u ∈ (view.readHint K.toCrypto op i hint.height (S.block hint.height).txdata).utxos,
            u.outpoint = op' → u.spentHeight ≠ none := by
      intro hint' noted' isChecked'
      obtain ⟨held', marked⟩ := walked.checked hint' noted' op' isChecked'
      refine ⟨grows.held op' held', fun s spent here u member isCoin unmarked => ?_⟩
      exact marked s spent here u (walked.open_readHint setting noted held member unmarked) isCoin
        unmarked
    rw [trHints_readHint] at inside
    obtain kept | ⟨earlier, isHint, rfl⟩ := mem_modify inside
    · exact before other kept isChecked
    · cases atPlace.symm.trans isHint
      obtain old | now := mem_append.mp isChecked
      · exact before hint noted old
      · cases mem_singleton.mp now
        exact ⟨grows.held op held, found⟩

end ReadHint

/-! ## The loop over the hinted blocks -/

theorem Setting.block_of_cached (setting : Setting K S scripts filter)
    (walked : Walked K S scripts R view) {server : Server} {blocks : List (Nat × Block)}
    (cached : ∀ entry ∈ blocks, entry.2 = S.block entry.1) {hint : TrHint}
    (noted : hint ∈ view.trHints) {block : Block}
    (read : cachedBlock K server blocks hint = .ok block) : block = S.block hint.height := by
  obtain ⟨isRead, isHash⟩ := walked.hints hint noted
  unfold cachedBlock at read
  cases found : blocks.find? (fun entry => entry.1 = hint.height) with
  | some entry =>
    have height : entry.1 = hint.height := by simpa using find?_some found
    rw [found] at read
    cases read
    rw [cached entry (mem_of_find?_eq_some found), height]
  | none =>
    rw [found, isHash] at read
    exact setting.block_of_fetch (walked.inside _ isRead) read

/-- Where a hint points does not change while hinted blocks are read. -/
theorem getElem?_readHint {C : Crypto} {op : OutPoint} {i j : Nat} {txs : List Transaction}
    {hint : TrHint} (atPlace : view.trHints[j]? = some hint) :
    ∃ after, (view.readHint C op i h txs).trHints[j]? = some after ∧
      after.height = hint.height := by
  rw [trHints_readHint, getElem?_modify, atPlace]
  by_cases here : i = j
  · exact ⟨Tier2View.noteChecked op hint, by simp [here], rfl⟩
  · exact ⟨hint, by simp [here], rfl⟩

/-- The loop keeps what the walk keeps; when it succeeds, the coin of every check is marked
if the check's block spends it. -/
theorem Walked.resolveChecks (setting : Setting K S scripts filter) (server : Server)
    (checks : List (OutPoint × Nat)) {blocks : List (Nat × Block)}
    (cached : ∀ entry ∈ blocks, entry.2 = S.block entry.1) (walked : Walked K S scripts R view) :
    Walked K S scripts R ((resolveChecks K server checks blocks).exec view).2 ∧
    (∀ u ∈ ((resolveChecks K server checks blocks).exec view).2.utxos, u.spentHeight = none →
      u ∈ view.utxos) ∧
    (((resolveChecks K server checks blocks).exec view).1 = .ok () →
      ∀ check ∈ checks, ∀ hint, view.trHints[check.2]? = some hint →
      ∀ s, (S.facts K.toCrypto scripts).spent check.1 = some s → s.2 = hint.height →
      ∀ u ∈ ((resolveChecks K server checks blocks).exec view).2.utxos, u.outpoint = check.1 →
        u.spentHeight ≠ none) := by
  induction checks generalizing blocks view with
  | nil => exact ⟨walked, fun _ member _ => member, fun _ => forall_mem_nil _⟩
  | cons check checks ih =>
    rw [Tier2.resolveChecks, Fallible.exec_get_bind]
    by_cases seeks : (view.utxos.any fun u => u.outpoint = check.1 ∧ u.spentHeight = none) = true
    · rw [if_pos seeks]
      have held : view.holds check.1 = true := by
        obtain ⟨u, member, same⟩ := any_eq_true.mp seeks
        exact Ledger.holds_iff.mpr ⟨u, member, (of_decide_eq_true same).1⟩
      rw [Fallible.exec_bind, Fallible.exec_lift]
      cases atPlace : view.trHints[check.2]? with
      | none => exact ⟨walked, fun _ member _ => member, fun ok => by cases ok⟩
      | some hint =>
        have noted : hint ∈ view.trHints := mem_of_getElem? atPlace
        simp only [context]
        rw [Fallible.exec_bind, Fallible.exec_lift]
        cases read : cachedBlock K server blocks hint with
        | error message => exact ⟨walked, fun _ member _ => member, fun ok => by cases ok⟩
        | ok block =>
          have isBlock := setting.block_of_cached walked cached noted read
          subst isBlock
          have after := walked.readHint setting atPlace held
          have cached' : ∀ entry ∈ (hint.height, S.block hint.height) :: blocks,
              entry.2 = S.block entry.1 := forall_mem_cons.mpr ⟨rfl, cached⟩
          obtain ⟨kept, opened, settled⟩ := ih cached' after
          refine ⟨kept, fun u member unmarked => ?_, fun ok check' member => ?_⟩
          · exact walked.open_readHint setting noted held (opened u member unmarked) unmarked
          · obtain rfl | later := mem_cons.mp member
            · intro hint' atPlace' s spent here u isCoin same unmarked
              cases atPlace.symm.trans atPlace'
              exact (walked.ledger_readHint setting noted held).2.2 s spent here u
                (opened u isCoin unmarked) same unmarked
            · intro hint' atPlace' s spent here
              obtain ⟨hint'', atPlace'', height⟩ := getElem?_readHint atPlace'
              exact settled ok check' later hint'' atPlace'' s spent (here.trans height.symm)
    · rw [if_neg seeks]
      obtain ⟨kept, opened, settled⟩ := ih cached walked
      refine ⟨kept, opened, fun ok check' member => ?_⟩
      obtain rfl | later := mem_cons.mp member
      · intro hint atPlace s spent here u isCoin same unmarked
        refine seeks (any_eq_true.mpr ⟨u, opened u isCoin unmarked, ?_⟩)
        exact decide_eq_true ⟨same, unmarked⟩
      · exact settled ok check' later

/-- The hinted block of a lagging coin's spend is among those to read. -/
theorem Walked.mem_trSpendChecks (setting : Setting K S scripts filter)
    (walked : Walked K S scripts R view) {u : OnchainUtxo} (lags : Lagging S R view u) :
    ∃ i hint s, (u.outpoint, i) ∈ view.trSpendChecks ∧ view.trHints[i]? = some hint ∧
      (S.facts K.toCrypto scripts).spent u.outpoint = some s ∧ s.2 = hint.height := by
  obtain ⟨member, unmarked, read⟩ := lags
  obtain ⟨r, paid, _, height, chain, index⟩ := walked.reflects.paid member
  obtain ⟨s, spent⟩ := walked.reflects.known _ read
  have taproot := walked.reflects.lagging u member unmarked read
  obtain ⟨hint, noted, sameChain, sameIndex, sameHeight⟩ :=
    walked.hinted _ read r s paid spent (chain ▸ taproot)
  have above : hint.height > u.height := by
    have notBelow := setting.valid.height_le paid spent
    have notHere := walked.later u member unmarked s spent
    omega
  have unread : u.outpoint ∉ hint.checked := fun isChecked =>
    (walked.checked hint noted _ isChecked).2 s spent sameHeight.symm u member rfl unmarked
  obtain ⟨i, atPlace⟩ := mem_iff_getElem?.mp noted
  refine ⟨i, hint, s, ?_, atPlace, spent, sameHeight.symm⟩
  refine mem_map.mpr ⟨⟨hint.paidHere, hint.height, u.outpoint, i⟩, ?_, rfl⟩
  rw [(perm_insertionSort _ _).mem_iff, mem_flatMap]
  refine ⟨u, mem_filter.mpr ⟨member, ?_⟩, mem_map.mpr ⟨(hint, i), ?_, rfl⟩⟩
  · simp [Tier2View.seeksSpend, unmarked, taproot]
  · refine mem_filter.mpr ⟨mem_zipIdx_iff_getElem?.mpr atPlace, ?_⟩
    simp [sameChain, sameIndex, chain, index, above, unread]

theorem Walked.resolveTrSpends (setting : Setting K S scripts filter) (server : Server)
    (walked : Walked K S scripts R view) :
    Walked K S scripts R ((resolveTrSpends K server).exec view).2 ∧
    (∀ u, Lagging S R ((resolveTrSpends K server).exec view).2 u → Lagging S R view u) ∧
    (((resolveTrSpends K server).exec view).1 = .ok () →
      ∀ u, ¬Lagging S R ((resolveTrSpends K server).exec view).2 u) := by
  rw [Tier2.resolveTrSpends, Fallible.exec_get_bind]
  obtain ⟨kept, opened, settled⟩ := walked.resolveChecks setting server view.trSpendChecks
    (forall_mem_nil _)
  have before : ∀ u, Lagging S R
      ((Tier2.resolveChecks K server view.trSpendChecks []).exec view).2 u → Lagging S R view u :=
    fun u ⟨member, unmarked, read⟩ => ⟨opened u member unmarked, unmarked, read⟩
  refine ⟨kept, before, fun ok u lags => ?_⟩
  obtain ⟨i, hint, s, isCheck, atPlace, spent, here⟩ :=
    walked.mem_trSpendChecks setting (before u lags)
  exact settled ok _ isCheck hint atPlace s spent here u lags.1 rfl lags.2.1

/-! ## One batch -/

/-- What a batch over some heights leaves: all that was read before is still read, and a coin
lags only if it did before or was met in the batch. -/
structure Extends (K : ChainCrypto) (S : Segment) (scripts : WalletScripts) (hs : List Nat)
    (R : Set Nat) (view : Tier2View) (R' : Set Nat) (after : Tier2View) : Prop where
  grows : R ⊆ R'
  walked : Walked K S scripts R' after
  lagging : ∀ u, Lagging S R' after u → Lagging S R view u ∨ u.height ∈ hs

theorem Extends.refl (hs : List Nat) (walked : Walked K S scripts R view) :
    Extends K S scripts hs R view R view :=
  ⟨subset_rfl, walked, fun _ => .inl⟩

theorem Extends.trans {hs : List Nat} {R' R'' : Set Nat} {view' view'' : Tier2View}
    (first : Extends K S scripts hs R view R' view')
    (second : Extends K S scripts hs R' view' R'' view'') :
    Extends K S scripts hs R view R'' view'' :=
  ⟨first.grows.trans second.grows, second.walked,
    fun u lags => (second.lagging u lags).elim (first.lagging u) .inr⟩

/-- The heights of a batch whose filter does not match count as read. -/
theorem Walked.skipAll (setting : Setting K S scripts filter) (hs : List Nat)
    (inside : ∀ h ∈ hs, h ∈ S.heights) {passed : List Nat} (sub : ∀ h ∈ passed, h ∈ hs)
    (unmatched : ∀ h ∈ passed, findAt K S scripts filter h = .ok none)
    (walked : Walked K S scripts R view) :
    ∃ R', Extends K S scripts hs R view R' view ∧ ∀ h ∈ passed, h ∈ R' := by
  induction passed with
  | nil => exact ⟨R, .refl hs walked, nofun⟩
  | cons h passed ih =>
    obtain ⟨sub, subRest⟩ := forall_mem_cons.mp sub
    obtain ⟨unmatched, unmatchedRest⟩ := forall_mem_cons.mp unmatched
    obtain ⟨R', ext, read⟩ := ih subRest unmatchedRest
    obtain ⟨kept, lagging⟩ := ext.walked.skip setting (inside h sub) unmatched
    refine ⟨insert h R', ext.trans ⟨Set.subset_insert h R', kept, fun u => .inl ∘ lagging u⟩, ?_⟩
    exact forall_mem_cons.mpr ⟨.inl rfl, fun k member => .inr (read k member)⟩

/-- Applying fetched blocks of the batch, in any order. -/
theorem Walked.applyFed (setting : Setting K S scripts filter) {hs : List Nat}
    (inside : ∀ h ∈ hs, h ∈ S.heights) (server : Server) (closeTxids : List Txid)
    {fed : List (MatchedBlock × Block)}
    (matched : ∀ p ∈ fed, p.1.height ∈ hs ∧ findAt K S scripts filter p.1.height = .ok (some p.1))
    (fetched : ∀ p ∈ fed, fetchBlockBound K server p.1.height p.1.blockHash = .ok p.2)
    (walked : Walked K S scripts R view) :
    ∃ R', Extends K S scripts hs R view R' (fed.foldl
      (fun view p => view.applyBlock K.toCrypto scripts closeTxids p.1 p.2) view) ∧
      ∀ p ∈ fed, p.1.height ∈ R' := by
  refine foldl_along (fun (done : List (MatchedBlock × Block)) (after : Tier2View) =>
    ∃ R', Extends K S scripts hs R view R' after ∧ ∀ p ∈ done, p.1.height ∈ R')
    ⟨R, .refl hs walked, nofun⟩ ?_
  rintro done p rest before split ⟨R', ext, read⟩
  have member : p ∈ fed := split ▸ mem_append_right done (mem_cons_self ..)
  obtain ⟨here, found⟩ := matched p member
  have isBlock : p.2 = S.block p.1.height := by
    have fetched := fetched p member
    rw [(findAt_some found).2.1] at fetched
    exact setting.block_of_fetch (inside _ here) fetched
  obtain ⟨kept, lagging⟩ := ext.walked.applyBlock setting (inside _ here) found closeTxids
  rw [isBlock]
  refine ⟨insert p.1.height R', ext.trans ⟨Set.subset_insert _ R', kept, fun u lags => ?_⟩, ?_⟩
  · refine (lagging u lags).imp_right fun height => ?_
    rw [height]
    exact here
  · intro q isDone
    obtain earlier | rfl := (mem_append.mp isDone).imp_right mem_singleton.mp
    · exact .inr (read q earlier)
    · exact .inl rfl

/-- A batch over some heights. When it succeeds all of them are read and no coin lags. -/
theorem Walked.fetchAndApply (setting : Setting K S scripts filter) {hs : List Nat}
    (inside : ∀ h ∈ hs, h ∈ S.heights) (server : Server) (closeTxids : List Txid)
    {matched : List MatchedBlock}
    (sound : ∀ m ∈ matched, m.height ∈ hs ∧ findAt K S scripts filter m.height = .ok (some m))
    (complete : ∀ h ∈ hs, findAt K S scripts filter h = .ok none ∨ ∃ m ∈ matched, m.height = h)
    (walked : Walked K S scripts R view) :
    ∃ R', Extends K S scripts hs R view R'
      ((fetchAndApply K server scripts closeTxids matched).exec view).2 ∧
      (((fetchAndApply K server scripts closeTxids matched).exec view).1 = .ok () →
        (∀ h ∈ hs, h ∈ R') ∧ ∀ u,
          ¬Lagging S R' ((fetchAndApply K server scripts closeTxids matched).exec view).2 u) := by
  obtain ⟨fed, first, fetched, state, whole⟩ :=
    applyMatched_fed (K := K) server scripts closeTxids matched view
  have fedMatched : ∀ p ∈ fed, p.1.height ∈ hs ∧
      findAt K S scripts filter p.1.height = .ok (some p.1) :=
    fun p member => sound p.1 (first.subset (mem_map_of_mem member))
  obtain ⟨R', ext, read⟩ := walked.applyFed setting inside server closeTxids fedMatched fetched
  rw [← state] at ext
  rw [Tier2.fetchAndApply, Fallible.exec_bind]
  generalize (applyMatched K server scripts closeTxids matched).exec view = applied at *
  obtain ⟨error | ok, mid⟩ := applied
  · exact ⟨R', ext, fun ok => nomatch ok⟩
  · have allFed := whole rfl
    let passed := hs.filter fun h => decide (findAt K S scripts filter h = .ok none)
    have unmatched : ∀ h ∈ passed, findAt K S scripts filter h = .ok none :=
      fun h member => of_decide_eq_true (mem_filter.mp member).2
    obtain ⟨R'', skipped, readPassed⟩ := ext.walked.skipAll setting hs inside
      (fun h member => (mem_filter.mp member).1) unmatched
    obtain ⟨kept, before, settled⟩ := skipped.walked.resolveTrSpends setting server
    have resolved : Extends K S scripts hs R'' _ R'' _ :=
      ⟨subset_rfl, kept, fun u => .inl ∘ before u⟩
    refine ⟨R'', (ext.trans skipped).trans resolved, fun ok => ⟨fun h member => ?_, settled ok⟩⟩
    obtain none | ⟨m, isMatched, rfl⟩ := complete h member
    · exact readPassed h (mem_filter.mpr ⟨member, decide_eq_true none⟩)
    · rw [← allFed] at isMatched
      obtain ⟨p, isFed, rfl⟩ := mem_map.mp isMatched
      exact skipped.grows (read p isFed)

end Walked

end Lij.Tier2
