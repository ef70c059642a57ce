import Lij.Tier2.Chain

/-!
# The ledger as a reflection of what was read

A payment and a spend are facts of the chain, and the ledger reflects the ones
whose outputs and inputs were read, in whatever order that happened. Two sets
describe how far the reading is: the outpoints whose creation was read and the
outpoints whose spend was read. A coin whose spend was read is marked, with one
exception: a taproot spend read before its coin leaves no trace in the ledger,
so a BIP86 coin may lag behind.

One lemma for an input and one for an output say how the sets grow. A ledger
that reflects everything and has no lagging coin is determined by the facts.
-/

namespace Lij.Tier2

open Bitcoin Folds List

/-- What an output pays into the wallet. -/
structure Receipt where
  chain : Nat
  index : Nat
  value : Nat
  height : Nat
  deriving DecidableEq, Repr

/-- The payments and the spends of a chain. -/
structure Facts where
  paid : OutPoint → Option Receipt
  spent : OutPoint → Option (Txid × Nat)

/-- The coin of a payment, with its spend if there is one. -/
def Receipt.coin (r : Receipt) (op : OutPoint) (spend : Option (Txid × Nat)) : OnchainUtxo :=
  Ledger.newCoin r.chain r.index op r.value r.height spend

@[simp] theorem Receipt.outpoint_coin (r : Receipt) (op : OutPoint) (spend : Option (Txid × Nat)) :
    (r.coin op spend).outpoint = op := rfl

/-- What an output at a height pays, if it pays the wallet a coin. -/
def receiptOf (scripts : WalletScripts) (height : Nat) (out : TxOut) : Option Receipt :=
  match scripts.ownerOf out.scriptPubkey with
  | none => none
  | some (chain, index) =>
    if chain = chainHandover then none else some ⟨chain, index, out.value, height⟩

namespace Ledger

variable {C : Crypto} {scripts : WalletScripts} {F : Facts} {P Q : Set OutPoint} {l : Ledger}

/-- The ledger reflects the payments read, in `P`, and the spends read, in `Q`. -/
structure Reflects (F : Facts) (P Q : Set OutPoint) (l : Ledger) : Prop where
  known : ∀ op ∈ Q, ∃ s, F.spent op = some s
  coin : ∀ u ∈ l.utxos, u.outpoint ∈ P ∧ ∃ r, F.paid u.outpoint = some r ∧
    (u = r.coin u.outpoint none ∨
      u.outpoint ∈ Q ∧ ∃ s, F.spent u.outpoint = some s ∧ u = r.coin u.outpoint (some s))
  complete : ∀ op ∈ P, ∀ r, F.paid op = some r → l.holds op = true
  /-- A coin without its mark although its spend was read is a BIP86 coin. -/
  lagging : ∀ u ∈ l.utxos, u.spentHeight = none → u.outpoint ∈ Q → (bip86Branch u.chain).isSome
  pending : ∀ (op : OutPoint) (s : Txid × Nat), l.pendingSpends[op]? = some s →
    op ∈ Q ∧ F.spent op = some s
  /-- The spend of a coin to come is remembered, unless it is a BIP86 coin. -/
  awaited : ∀ op ∈ Q, l.holds op = false → ∀ r s, F.paid op = some r → F.spent op = some s →
    bip86Branch r.chain = none → l.pendingSpends[op]? = some s

/-- No coin lags behind these spends. -/
def Settled (Q : Set OutPoint) (l : Ledger) : Prop :=
  ∀ u ∈ l.utxos, u.spentHeight = none → u.outpoint ∉ Q

/-- Mark the coin of an outpoint. -/
def mark (op : OutPoint) (txid : Txid) (h : Nat) (l : Ledger) : Ledger :=
  { l with utxos := l.utxos.map (markSpent op txid h) }

theorem Settled.mono {Q' : Set OutPoint} (settled : Settled Q l) (fewer : Q' ⊆ Q) :
    Settled Q' l :=
  fun u member unmarked seen => settled u member unmarked (fewer seen)

theorem holds_mark {op op' : OutPoint} {txid : Txid} {h : Nat} :
    (l.mark op txid h).holds op' = l.holds op' := by
  simp only [holds, mark, any_map]
  congr 1
  funext u
  simp [outpoint_markSpent]

/-- Only the coins and the remembered spends matter. -/
theorem Reflects.congr {l' : Ledger} (reflects : Reflects F P Q l) (coins : l'.utxos = l.utxos)
    (pending : l'.pendingSpends = l.pendingSpends) : Reflects F P Q l' := by
  cases l
  cases l'
  cases coins
  cases pending
  exact ⟨reflects.known, reflects.coin, reflects.complete, reflects.lagging, reflects.pending,
    reflects.awaited⟩

/-- Outpoints that pay nothing, or that are held already, may count as read. -/
theorem Reflects.widenPaid {P' : Set OutPoint} (reflects : Reflects F P Q l) (more : P ⊆ P')
    (nothing : ∀ op ∈ P', op ∈ P ∨ F.paid op = none ∨ l.holds op = true) :
    Reflects F P' Q l := by
  refine ⟨reflects.known, ?_, ?_, reflects.lagging, reflects.pending, reflects.awaited⟩
  · intro u member
    obtain ⟨read, state⟩ := reflects.coin u member
    exact ⟨more read, state⟩
  · intro op inside r paid
    obtain read | unpaid | held := nothing op inside
    · exact reflects.complete op read r paid
    · rw [unpaid] at paid
      cases paid
    · exact held

/-- Spends of what is not the wallet's may count as read. -/
theorem Reflects.widenSpent {Q' : Set OutPoint} (reflects : Reflects F P Q l) (more : Q ⊆ Q')
    (foreign : ∀ op ∈ Q', op ∈ Q ∨ F.paid op = none ∧ ∃ s, F.spent op = some s) :
    Reflects F P Q' l := by
  have own : ∀ op ∈ Q', ∀ r, F.paid op = some r → op ∈ Q := by
    intro op inside r paid
    obtain seen | ⟨unpaid, _⟩ := foreign op inside
    · exact seen
    · rw [unpaid] at paid
      cases paid
  refine ⟨?_, ?_, reflects.complete, ?_, ?_, ?_⟩
  · intro op inside
    obtain seen | ⟨_, known⟩ := foreign op inside
    · exact reflects.known op seen
    · exact known
  · intro u member
    obtain ⟨read, r, paid, state⟩ := reflects.coin u member
    refine ⟨read, r, paid, state.imp_right fun marked => ⟨more marked.1, marked.2⟩⟩
  · intro u member unmarked seen
    obtain ⟨_, r, paid, _⟩ := reflects.coin u member
    exact reflects.lagging u member unmarked (own _ seen r paid)
  · intro op s found
    obtain ⟨seen, spend⟩ := reflects.pending op s found
    exact ⟨more seen, spend⟩
  · intro op seen missing r s paid
    exact reflects.awaited op (own op seen r paid) missing r s paid

/-! ## One input -/

section Mark

variable {op : OutPoint} {txid : Txid} {h : Nat}

theorem Reflects.coin_mark (reflects : Reflects F P Q l) (spend : F.spent op = some (txid, h))
    {u : OnchainUtxo} (member : u ∈ (l.mark op txid h).utxos) :
    u.outpoint ∈ P ∧ ∃ r, F.paid u.outpoint = some r ∧
      (u = r.coin u.outpoint none ∨
        u.outpoint ∈ insert op Q ∧ ∃ s, F.spent u.outpoint = some s ∧
          u = r.coin u.outpoint (some s)) := by
  obtain ⟨before, inside, rfl⟩ := mem_map.mp member
  obtain ⟨read, r, paid, state⟩ := reflects.coin before inside
  rw [outpoint_markSpent]
  refine ⟨read, r, paid, ?_⟩
  unfold markSpent
  split_ifs with spends
  · obtain ⟨unmarked, rfl⟩ := spends
    refine .inr ⟨Set.mem_insert _ _, (txid, h), spend, ?_⟩
    obtain open_ | ⟨_, s, _, marked⟩ := state
    · rw [open_]
      rfl
    · rw [marked] at unmarked
      cases unmarked
  · obtain open_ | ⟨seen, marked⟩ := state
    · exact .inl open_
    · exact .inr ⟨Set.mem_insert_of_mem _ seen, marked⟩

theorem Reflects.lagging_mark (reflects : Reflects F P Q l) {u : OnchainUtxo}
    (member : u ∈ (l.mark op txid h).utxos) (unmarked : u.spentHeight = none)
    (seen : u.outpoint ∈ insert op Q) : (bip86Branch u.chain).isSome := by
  obtain ⟨before, inside, rfl⟩ := mem_map.mp member
  obtain ⟨same, other⟩ := markSpent_open unmarked
  rw [same] at unmarked seen ⊢
  exact reflects.lagging before inside unmarked (Set.mem_of_mem_insert_of_ne seen other)

/-- Marking a coin whose spend was read before. -/
theorem Reflects.mark (reflects : Reflects F P Q l) (spend : F.spent op = some (txid, h))
    (seen : op ∈ Q) : Reflects F P Q (l.mark op txid h) := by
  have same : insert op Q = Q := Set.insert_eq_of_mem seen
  refine ⟨reflects.known, ?_, ?_, ?_, reflects.pending, ?_⟩
  · intro u member
    have := reflects.coin_mark spend member
    rwa [same] at this
  · intro op' read r paid
    rw [holds_mark]
    exact reflects.complete op' read r paid
  · intro u member unmarked inside
    exact reflects.lagging_mark member unmarked (same.symm ▸ inside)
  · intro op' inside missing
    rw [holds_mark] at missing
    exact reflects.awaited op' inside missing

theorem Settled.mark (settled : Settled Q l) : Settled (insert op Q) (l.mark op txid h) := by
  intro u member unmarked seen
  obtain ⟨before, inside, rfl⟩ := mem_map.mp member
  obtain ⟨same, other⟩ := markSpent_open unmarked
  rw [same] at unmarked seen
  exact settled before inside unmarked (Set.mem_of_mem_insert_of_ne seen other)

end Mark

section Input

variable {txid : Txid} {h : Nat} {input : TxIn}

/-- An input adds its outpoint to the spends read. Its witness must name a key of the wallet
when it spends a coin that is not BIP86. -/
theorem Reflects.spendInput (reflects : Reflects F P Q l)
    (spend : F.spent input.previousOutput = some (txid, h))
    (pays : ∀ r, F.paid input.previousOutput = some r → bip86Branch r.chain = none →
      witnessPaysUs C scripts input.witness = true) :
    Reflects F P (insert input.previousOutput Q) (l.spendInput C scripts txid h input) := by
  refine ⟨?_, fun u member => reflects.coin_mark spend member, ?_,
    fun u member => reflects.lagging_mark member, ?_, ?_⟩
  · rintro op (rfl | seen)
    · exact ⟨_, spend⟩
    · exact reflects.known op seen
  · intro op read r paid
    exact holds_mark.trans (reflects.complete op read r paid)
  · intro op s found
    obtain old | ⟨rfl, _, rfl⟩ := pending_of_spendInput found
    · obtain ⟨seen, isSpend⟩ := reflects.pending op s old
      exact ⟨Set.mem_insert_of_mem _ seen, isSpend⟩
    · exact ⟨Set.mem_insert _ _, spend⟩
  · intro op seen missing r s paid isSpend plain
    have missing : l.holds op = false := holds_mark.symm.trans missing
    unfold Ledger.spendInput
    dsimp only
    by_cases own : op = input.previousOutput
    · subst own
      rw [if_pos ⟨by simp [missing], pays r paid plain⟩, Maps.ext_getElem?_insert, if_pos rfl,
        ← spend, isSpend]
    · have old := reflects.awaited op (Set.mem_of_mem_insert_of_ne seen own) missing r s paid
        isSpend plain
      split_ifs
      · rw [Maps.ext_getElem?_insert, if_neg (Ne.symm own), old]
      · exact old

/-- A coinbase input changes nothing that is reflected. -/
theorem Reflects.spendNull (reflects : Reflects F P Q l)
    (unpaid : F.paid input.previousOutput = none) (short : input.witness.length ≤ 1) :
    Reflects F P Q (l.spendInput C scripts txid h input) := by
  have others : l.utxos.map (markSpent input.previousOutput txid h) = l.utxos := by
    refine (map_congr_left fun u member => ?_).trans (map_id l.utxos)
    obtain ⟨_, r, paid, _⟩ := reflects.coin u member
    refine if_neg fun spends => ?_
    rw [spends.2, unpaid] at paid
    cases paid
  have noKey : witnessPaysUs C scripts input.witness = false := witnessPaysUs_of_short short
  have same : l.spendInput C scripts txid h input =
      { l with handover := (l.spendInput C scripts txid h input).handover } := by
    unfold Ledger.spendInput
    simp [others, noKey]
  rw [same]
  exact ⟨reflects.known, reflects.coin, reflects.complete, reflects.lagging, reflects.pending,
    reflects.awaited⟩

theorem Settled.spendInput (settled : Settled Q l) :
    Settled (insert input.previousOutput Q) (l.spendInput C scripts txid h input) :=
  settled.mark

end Input

/-! ## One output -/

section Output

variable {h : Nat} {paid : OutPoint × TxOut}

/-- An output pays no coin, or a known one, or a new one with the spend remembered for it. -/
theorem receiveOutput_cases (l : Ledger) (scripts : WalletScripts) (h : Nat)
    (paid : OutPoint × TxOut) :
    (receiptOf scripts h paid.2 = none ∧ (l.receiveOutput scripts h paid).utxos = l.utxos ∧
      (l.receiveOutput scripts h paid).pendingSpends = l.pendingSpends) ∨
    (l.holds paid.1 = true ∧ l.receiveOutput scripts h paid = l) ∨
    (l.holds paid.1 = false ∧ ∃ r, receiptOf scripts h paid.2 = some r ∧
      (l.receiveOutput scripts h paid).utxos =
        l.utxos ++ [r.coin paid.1 l.pendingSpends[paid.1]?] ∧
      (l.receiveOutput scripts h paid).pendingSpends = l.pendingSpends.erase paid.1) := by
  unfold receiveOutput receiptOf
  cases scripts.ownerOf paid.2.scriptPubkey with
  | none => exact .inl ⟨rfl, rfl, rfl⟩
  | some owner =>
    obtain ⟨chain, index⟩ := owner
    by_cases handover : chain = chainHandover
    · simp only [if_pos handover]
      split_ifs <;> exact .inl ⟨trivial, rfl, rfl⟩
    · simp only [if_neg handover]
      cases held : l.holds paid.1 with
      | true => exact .inr (.inl ⟨rfl, rfl⟩)
      | false => exact .inr (.inr ⟨rfl, _, rfl, rfl, rfl⟩)

/-- An output adds its outpoint to the payments read. -/
theorem Reflects.receiveOutput (reflects : Reflects F P Q l)
    (fact : F.paid paid.1 = receiptOf scripts h paid.2) :
    Reflects F (insert paid.1 P) Q (l.receiveOutput scripts h paid) := by
  obtain ⟨nothing, coins, pending⟩ | ⟨held, same⟩ | ⟨missing, r, pays, coins, pending⟩ :=
    receiveOutput_cases l scripts h paid
  · refine (reflects.widenPaid (Set.subset_insert _ _) ?_).congr coins pending
    rintro op (rfl | read)
    · exact .inr (.inl (fact.trans nothing))
    · exact .inl read
  · rw [same]
    refine reflects.widenPaid (Set.subset_insert _ _) ?_
    rintro op (rfl | read)
    · exact .inr (.inr held)
    · exact .inl read
  · have heldAfter : ∀ op, (l.receiveOutput scripts h paid).holds op = true ↔
        l.holds op = true ∨ op = paid.1 := by
      intro op
      simp only [holds_iff, coins, mem_append, mem_singleton]
      constructor
      · rintro ⟨u, old | rfl, same⟩
        · exact .inl ⟨u, old, same⟩
        · exact .inr same.symm
      · rintro (⟨u, old, same⟩ | rfl)
        · exact ⟨u, .inl old, same⟩
        · exact ⟨_, .inr rfl, rfl⟩
    refine ⟨reflects.known, ?_, ?_, ?_, ?_, ?_⟩
    · intro u member
      rw [coins] at member
      obtain old | rfl := (mem_append.mp member).imp_right mem_singleton.mp
      · obtain ⟨read, state⟩ := reflects.coin u old
        exact ⟨Set.mem_insert_of_mem _ read, state⟩
      · refine ⟨Set.mem_insert _ _, r, fact.trans pays, ?_⟩
        cases found : l.pendingSpends[paid.1]? with
        | none => exact .inl rfl
        | some s =>
          obtain ⟨seen, spend⟩ := reflects.pending _ s found
          exact .inr ⟨seen, s, spend, rfl⟩
    · rintro op (rfl | read) r' isPaid
      · exact (heldAfter _).mpr (.inr rfl)
      · exact (heldAfter _).mpr (.inl (reflects.complete op read r' isPaid))
    · intro u member unmarked seen
      rw [coins] at member
      obtain old | rfl := (mem_append.mp member).imp_right mem_singleton.mp
      · exact reflects.lagging u old unmarked seen
      · -- a spend that was read and is not remembered is a BIP86 one
        by_contra plain
        have plain : bip86Branch r.chain = none := Option.not_isSome_iff_eq_none.mp plain
        obtain ⟨s, spend⟩ := reflects.known _ seen
        have found : l.pendingSpends[paid.1]? = some s :=
          reflects.awaited _ seen missing r s (fact.trans pays) spend plain
        rw [found] at unmarked
        cases unmarked
    · intro op s found
      rw [pending, Maps.ext_getElem?_erase] at found
      split_ifs at found
      exact reflects.pending op s found
    · intro op seen missingAfter r' s isPaid spend plain
      have gone := mt (heldAfter op).mpr (by simp [missingAfter])
      rw [pending, Maps.ext_getElem?_erase, if_neg fun same => gone (.inr same.symm)]
      exact reflects.awaited op seen (Bool.not_eq_true _ ▸ fun held => gone (.inl held)) r' s isPaid
        spend plain

theorem Settled.receiveOutput (settled : Settled Q l) (fresh : paid.1 ∉ Q) :
    Settled Q (l.receiveOutput scripts h paid) := by
  intro u member unmarked
  obtain ⟨_, coins, _⟩ | ⟨_, same⟩ | ⟨_, r, _, coins, _⟩ := receiveOutput_cases l scripts h paid
  · exact settled u (coins ▸ member) unmarked
  · exact settled u (same ▸ member) unmarked
  · rw [coins] at member
    obtain old | rfl := (mem_append.mp member).imp_right mem_singleton.mp
    · exact settled u old unmarked
    · exact fresh

end Output

/-! ## A ledger that reflects everything -/

/-- When every payment and every spend was read and no coin lags, the coins are the facts. -/
theorem Reflects.mem_utxos_iff (reflects : Reflects F P Q l) (settled : Settled Q l)
    (allPaid : ∀ op r, F.paid op = some r → op ∈ P)
    (allSpent : ∀ op s, F.spent op = some s → op ∈ Q)
    {u : OnchainUtxo} :
    u ∈ l.utxos ↔ ∃ op r, F.paid op = some r ∧ u = r.coin op (F.spent op) := by
  have coinIs : ∀ u ∈ l.utxos, ∃ r, F.paid u.outpoint = some r ∧
      u = r.coin u.outpoint (F.spent u.outpoint) := by
    intro u member
    obtain ⟨_, r, paid, unmarked | ⟨_, s, spend, marked⟩⟩ := reflects.coin u member
    · refine ⟨r, paid, ?_⟩
      have unspent : F.spent u.outpoint = none := by
        by_contra spent
        obtain ⟨s, spend⟩ := Option.ne_none_iff_exists'.mp spent
        refine settled u member ?_ (allSpent _ s spend)
        rw [unmarked]
        rfl
      rw [unspent]
      exact unmarked
    · exact ⟨r, paid, spend ▸ marked⟩
  constructor
  · intro member
    obtain ⟨r, paid, same⟩ := coinIs u member
    exact ⟨_, r, paid, same⟩
  · rintro ⟨op, r, paid, rfl⟩
    obtain ⟨u, member, rfl⟩ := holds_iff.mp (reflects.complete op (allPaid op r paid) r paid)
    obtain ⟨r', paid', same⟩ := coinIs u member
    cases paid.symm.trans paid'
    exact same ▸ member

end Ledger

/-! ## The facts of a segment -/

namespace Segment

variable {C : Crypto} {scripts : WalletScripts} {S : Segment}

/-- The output that an outpoint names, with its height. -/
def outputOf (S : Segment) (C : Crypto) (op : OutPoint) : Option (Nat × TxOut) :=
  (S.txs.find? fun p => C.computeTxid p.2 = op.txid).bind fun p =>
    (p.2.output[op.vout]?).map fun out => (p.1, out)

def facts (S : Segment) (C : Crypto) (scripts : WalletScripts) : Facts where
  paid op := (S.outputOf C op).bind fun found => receiptOf scripts found.1 found.2
  spent op := (S.txs.find? fun p => op ∈ spentBy p.2).map fun p => (C.computeTxid p.2, p.1)

/-- Every spend of an m/84 coin carries a signature and the coin's key. -/
def KeyedSpends (S : Segment) (C : Crypto) (scripts : WalletScripts) : Prop :=
  ∀ p ∈ S.txs, ∀ input ∈ p.2.input, ∀ found chain index,
    S.outputOf C input.previousOutput = some found →
    scripts.ownerOf found.2.scriptPubkey = some (chain, index) → chain ≠ chainHandover →
    bip86Branch chain = none → ∃ sig pk, input.witness = [sig, pk] ∧
      pk.length = 33 ∧ C.wpkhScript pk = some found.2.scriptPubkey

theorem Valid.eq_of_id (valid : S.Valid C) {p q : Nat × Transaction} (first : p ∈ S.txs)
    (second : q ∈ S.txs) (same : C.computeTxid p.2 = C.computeTxid q.2) : p = q :=
  inj_on_of_nodup_map valid.ids first second same

variable {op : OutPoint}

theorem Valid.eq_of_spends (valid : S.Valid C) {p q : Nat × Transaction} (first : p ∈ S.txs)
    (second : q ∈ S.txs) (spends : op ∈ spentBy p.2) (spends' : op ∈ spentBy q.2) : p = q := by
  by_contra different
  have apart := (nodup_flatMap.mp valid.spentOnce).2
  have symmetric :
      Std.Symm (Function.onFun List.Disjoint fun p : Nat × Transaction => spentBy p.2) :=
    ⟨fun _ _ disjoint => disjoint.symm⟩
  exact apart.forall first second different spends spends'

theorem find?_eq_of_unique {α : Type} {xs : List α} {keep : α → Bool} {x : α} (member : x ∈ xs)
    (holds : keep x = true) (unique : ∀ y ∈ xs, keep y = true → y = x) :
    xs.find? keep = some x := by
  cases found : xs.find? keep with
  | none => exact absurd holds (by simpa using find?_eq_none.mp found x member)
  | some y => rw [unique y (mem_of_find?_eq_some found) (find?_some found)]

variable {p : Nat × Transaction}

theorem Valid.outputOf_eq (valid : S.Valid C) (member : p ∈ S.txs) (vout : Nat) :
    S.outputOf C ⟨C.computeTxid p.2, vout⟩ =
      (p.2.output[vout]?).map fun out => (p.1, out) := by
  have found : S.txs.find? (fun q => C.computeTxid q.2 = C.computeTxid p.2) = some p := by
    refine find?_eq_of_unique member (by simp) fun q inside same => ?_
    exact valid.eq_of_id inside member (by simpa using same)
  simp [outputOf, found]

theorem Valid.paid_eq (valid : S.Valid C) (member : p ∈ S.txs) (vout : Nat) :
    (S.facts C scripts).paid ⟨C.computeTxid p.2, vout⟩ =
      (p.2.output[vout]?).bind (receiptOf scripts p.1) := by
  change (S.outputOf C _).bind _ = _
  rw [valid.outputOf_eq member]
  cases p.2.output[vout]? <;> rfl

theorem Valid.spent_eq (valid : S.Valid C) (member : p ∈ S.txs) (spends : op ∈ spentBy p.2) :
    (S.facts C scripts).spent op = some (C.computeTxid p.2, p.1) := by
  have found : S.txs.find? (fun q => op ∈ spentBy q.2) = some p := by
    refine find?_eq_of_unique member (by simpa using spends) fun q inside spends' => ?_
    exact valid.eq_of_spends inside member (by simpa using spends') spends
  simp [facts, found]

/-- A spend is some transaction's. -/
theorem spender_of_spent {s : Txid × Nat} (spent : (S.facts C scripts).spent op = some s) :
    ∃ p ∈ S.txs, op ∈ spentBy p.2 ∧ s = (C.computeTxid p.2, p.1) := by
  obtain ⟨p, found, rfl⟩ := Option.map_eq_some_iff.mp spent
  exact ⟨p, mem_of_find?_eq_some found, by simpa using find?_some found, rfl⟩

/-- A payment is some transaction's output. -/
theorem payer_of_paid {r : Receipt} (paid : (S.facts C scripts).paid op = some r) :
    ∃ p ∈ S.txs, ∃ out, op.txid = C.computeTxid p.2 ∧ p.2.output[op.vout]? = some out ∧
      S.outputOf C op = some (p.1, out) ∧ receiptOf scripts p.1 out = some r := by
  obtain ⟨found, isOutput, isReceipt⟩ := Option.bind_eq_some_iff.mp paid
  obtain ⟨p, isTx, isOut⟩ := Option.bind_eq_some_iff.mp isOutput
  obtain ⟨out, atPlace, rfl⟩ := Option.map_eq_some_iff.mp isOut
  have id : C.computeTxid p.2 = op.txid := by simpa using find?_some isTx
  exact ⟨p, mem_of_find?_eq_some isTx, out, id.symm, atPlace, isOutput, isReceipt⟩

theorem receiptOf_eq_some {height : Nat} {out : TxOut} {r : Receipt}
    (receipt : receiptOf scripts height out = some r) :
    scripts.ownerOf out.scriptPubkey = some (r.chain, r.index) ∧ r.height = height ∧
      r.chain ≠ chainHandover := by
  unfold receiptOf at receipt
  split at receipt
  · cases receipt
  · split_ifs at receipt with handover
    cases receipt
    exact ⟨‹_›, rfl, handover⟩

/-- The key in the witness is recognised. -/
theorem KeyedSpends.paysUs (keyed : S.KeyedSpends C scripts) (member : p ∈ S.txs) {input : TxIn}
    (inside : input ∈ p.2.input) {r : Receipt}
    (paid : (S.facts C scripts).paid input.previousOutput = some r)
    (plain : bip86Branch r.chain = none) : witnessPaysUs C scripts input.witness = true := by
  obtain ⟨q, _, out, _, _, isOutput, receipt⟩ := payer_of_paid paid
  obtain ⟨owner, _, isCoin⟩ := receiptOf_eq_some receipt
  obtain ⟨sig, pk, witness, length, script⟩ :=
    keyed p member input inside _ _ _ isOutput owner isCoin plain
  simp [witnessPaysUs, witness, length, script, owner]

/-- The transactions stand in the order of their heights. -/
theorem txs_sorted (S : Segment) : S.txs.Pairwise fun a b => a.1 ≤ b.1 := by
  rw [txs, txsAt, pairwise_flatMap]
  constructor
  · intro h _
    rw [pairwise_map]
    exact pairwise_of_forall fun _ _ => le_rfl
  · refine pairwise_le_range'.imp fun {h k} lower => ?_
    simp only [mem_map]
    rintro _ ⟨_, _, rfl⟩ _ ⟨_, _, rfl⟩
    exact lower

/-- A coin is not spent below its own height. -/
theorem Valid.height_le (valid : S.Valid C) {r : Receipt} {s : Txid × Nat}
    (paid : (S.facts C scripts).paid op = some r) (spent : (S.facts C scripts).spent op = some s) :
    r.height ≤ s.2 := by
  obtain ⟨p, isPayer, out, id, _, _, receipt⟩ := payer_of_paid paid
  obtain ⟨q, isSpender, spends, rfl⟩ := spender_of_spent spent
  rw [(receiptOf_eq_some receipt).2.1]
  -- of two transactions one is the earlier, and it is not the spender
  let Earlier (a b : Nat × Transaction) : Prop :=
    (∀ op ∈ spentBy a.2, op.txid ≠ C.computeTxid b.2) ∧ a.1 ≤ b.1
  have ordered : S.txs.Pairwise fun a b => Earlier a b ∨ Earlier b a :=
    (valid.spentAfter.and S.txs_sorted).imp .inl
  have symmetric : Std.Symm fun a b => Earlier a b ∨ Earlier b a := ⟨fun _ _ => Or.symm⟩
  by_cases same : p = q
  · exact absurd (same ▸ id) (valid.spentOther q isSpender op spends)
  · obtain ⟨_, lower⟩ | ⟨before, _⟩ := ordered.forall isPayer isSpender same
    · exact lower
    · exact absurd id (before op spends)

/-! ## Reading transactions -/

section Reading

variable {P Q : Set OutPoint} {l : Ledger} {p : Nat × Transaction}

theorem Valid.paid_null (valid : S.Valid C) : (S.facts C scripts).paid nullOutPoint = none := by
  by_contra paid
  obtain ⟨r, paid⟩ := Option.ne_none_iff_exists'.mp paid
  obtain ⟨p, member, _, id, _⟩ := payer_of_paid paid
  exact valid.notNull p member id.symm

theorem Valid.reflects_inputs (valid : S.Valid C) (keyed : S.KeyedSpends C scripts)
    (member : p ∈ S.txs) (reflects : Ledger.Reflects (S.facts C scripts) P Q l) :
    Ledger.Reflects (S.facts C scripts) P (Q ∪ {op | op ∈ spentBy p.2})
      (p.2.input.foldl (Ledger.spendInput C scripts (C.computeTxid p.2) p.1) l) := by
  refine foldl_along (fun done (after : Ledger) => Ledger.Reflects (S.facts C scripts) P
    (Q ∪ {op | op ∈ spentIn done}) after) ?_ ?_
  · simpa [spentIn] using reflects
  intro done input rest after split reflects
  have inside : input ∈ p.2.input := by simp [split]
  by_cases isNull : input.previousOutput = nullOutPoint
  · have none : spentIn (done ++ [input]) = spentIn done := by simp [spentIn, isNull]
    rw [none]
    refine reflects.spendNull ?_ (valid.coinbase p member input inside isNull)
    rw [isNull]
    exact valid.paid_null
  · have more : Q ∪ {op | op ∈ spentIn (done ++ [input])} =
        insert input.previousOutput (Q ∪ {op | op ∈ spentIn done}) := by
      ext op
      simp [spentIn, isNull, or_left_comm, or_comm]
    rw [more]
    refine reflects.spendInput ?_ fun r => keyed.paysUs member inside
    exact valid.spent_eq member (mem_spentIn.mpr ⟨input, inside, rfl, isNull⟩)

/-- Reading a transaction adds its outputs to the payments read and what it spends to the
spends read. -/
theorem Valid.reflects_applyAt (valid : S.Valid C) (keyed : S.KeyedSpends C scripts)
    (member : p ∈ S.txs) (reflects : Ledger.Reflects (S.facts C scripts) P Q l) :
    Ledger.Reflects (S.facts C scripts) (P ∪ {op | op.txid = C.computeTxid p.2})
      (Q ∪ {op | op ∈ spentBy p.2}) (l.applyAt C scripts p) := by
  have outputs : Ledger.Reflects (S.facts C scripts)
      (P ∪ {op | op ∈ (Ledger.outputsOf C p.2).map Prod.fst}) (Q ∪ {op | op ∈ spentBy p.2})
      (l.applyAt C scripts p) := by
    refine foldl_along (fun done (after : Ledger) => Ledger.Reflects (S.facts C scripts)
      (P ∪ {op | op ∈ done.map Prod.fst}) (Q ∪ {op | op ∈ spentBy p.2}) after) ?_ ?_
    · simpa using valid.reflects_inputs keyed member reflects
    intro done paid rest after split reflects
    have inside : paid ∈ Ledger.outputsOf C p.2 := by simp [split]
    have more : P ∪ {op | op ∈ (done ++ [paid]).map Prod.fst} =
        insert paid.1 (P ∪ {op | op ∈ done.map Prod.fst}) := by
      ext op
      simp [or_left_comm, or_comm]
    rw [more]
    refine reflects.receiveOutput ?_
    obtain ⟨⟨out, vout⟩, placed, rfl⟩ := mem_map.mp inside
    have atPlace : p.2.output[vout]? = some out := mem_zipIdx_iff_getElem?.mp placed
    rw [valid.paid_eq member, atPlace]
    rfl
  refine outputs.widenPaid ?_ ?_
  · refine Set.union_subset_union_right _ fun op inside => ?_
    obtain ⟨paid, isOutput, rfl⟩ := mem_map.mp inside
    obtain ⟨_, _, rfl⟩ := mem_map.mp isOutput
    rfl
  · rintro op (old | own)
    · exact .inl (.inl old)
    · -- an outpoint beyond the outputs pays nothing
      obtain ⟨txid, vout⟩ := op
      cases (own : txid = _)
      cases atPlace : p.2.output[vout]? with
      | none =>
        refine .inr (.inl ?_)
        rw [valid.paid_eq member, atPlace]
        rfl
      | some out =>
        refine .inl (.inr (mem_map.mpr ⟨(⟨_, vout⟩, out), ?_, rfl⟩))
        exact mem_map.mpr ⟨(out, vout), mem_zipIdx_iff_getElem?.mpr atPlace, rfl⟩

/-- No known coin lags behind the transaction just read, when none of its outputs was spent
before. -/
theorem settled_applyAt (settled : Ledger.Settled Q l)
    (created : ∀ op, op ∈ Q ∨ op ∈ spentBy p.2 → op.txid ≠ C.computeTxid p.2) :
    Ledger.Settled (Q ∪ {op | op ∈ spentBy p.2}) (l.applyAt C scripts p) := by
  refine foldl_invariant (I := fun after : Ledger =>
    Ledger.Settled (Q ∪ {op | op ∈ spentBy p.2}) after) ?_ ?_
  · refine foldl_along (fun done (after : Ledger) =>
      Ledger.Settled (Q ∪ {op | op ∈ spentIn done}) after) ?_ ?_
    · simpa [spentIn] using settled
    intro done input rest after split settled
    refine settled.spendInput.mono ?_
    rintro op (old | inside)
    · exact Set.mem_insert_of_mem _ (.inl old)
    · rw [Set.mem_ofPred_eq, spentIn_append] at inside
      obtain earlier | own := mem_append.mp inside
      · exact Set.mem_insert_of_mem _ (.inr earlier)
      · obtain ⟨_, isInput, rfl, _⟩ := mem_spentIn.mp own
        cases mem_singleton.mp isInput
        exact Set.mem_insert _ _
  · intro before paid inside settled
    refine settled.receiveOutput fun spent => ?_
    obtain ⟨_, _, rfl⟩ := mem_map.mp inside
    exact created _ spent rfl

/-- The outpoints of these transactions' outputs. -/
def createdOf (C : Crypto) (txs : List (Nat × Transaction)) : Set OutPoint :=
  {op | ∃ p ∈ txs, op.txid = C.computeTxid p.2}

theorem createdOf_snoc (txs : List (Nat × Transaction)) (p : Nat × Transaction) :
    createdOf C (txs ++ [p]) = createdOf C txs ∪ {op | op.txid = C.computeTxid p.2} := by
  ext op
  simp only [createdOf, mem_append, mem_singleton, Set.mem_ofPred_eq, Set.mem_union]
  constructor
  · rintro ⟨q, old | rfl, id⟩
    · exact .inl ⟨q, old, id⟩
    · exact .inr id
  · rintro (⟨q, old, id⟩ | id)
    · exact ⟨q, .inl old, id⟩
    · exact ⟨p, .inr rfl, id⟩

theorem Valid.reflects_applyAll (valid : S.Valid C) (keyed : S.KeyedSpends C scripts)
    {txs : List (Nat × Transaction)} (inside : ∀ p ∈ txs, p ∈ S.txs)
    (reflects : Ledger.Reflects (S.facts C scripts) P Q l) :
    Ledger.Reflects (S.facts C scripts) (P ∪ createdOf C txs) (Q ∪ spentOf txs)
      (txs.foldl (Ledger.applyAt C scripts) l) := by
  refine foldl_along (fun done (after : Ledger) => Ledger.Reflects (S.facts C scripts)
    (P ∪ createdOf C done) (Q ∪ spentOf done) after) ?_ ?_
  · simpa [createdOf, spentOf] using reflects
  intro done p rest after split reflects
  rw [createdOf_snoc, spentOf_snoc, ← Set.union_assoc, ← Set.union_assoc]
  exact valid.reflects_applyAt keyed (inside p (by simp [split])) reflects

/-- Reading a run of transactions in chain order leaves no known coin behind them. -/
theorem Valid.settled_applyAll (valid : S.Valid C) (before : List (Nat × Transaction))
    {txs : List (Nat × Transaction)} (rest : List (Nat × Transaction))
    (split : S.txs = before ++ txs ++ rest) :
    Ledger.Settled (spentOf txs) (txs.foldl (Ledger.applyAt C scripts) l) := by
  refine foldl_along (fun done (after : Ledger) => Ledger.Settled (spentOf done) after) ?_ ?_
  · rintro u _ _ ⟨p, none, _⟩
    cases none
  intro done p later after here settled
  rw [spentOf_snoc]
  have place : S.txs = (before ++ done) ++ p :: (later ++ rest) := by simp [split, here]
  obtain ⟨_, _, created⟩ := valid.fresh place
  refine settled_applyAt settled fun op spent => created op (spent.imp_left ?_)
  rintro ⟨q, isDone, spends⟩
  exact ⟨q, mem_append_right _ isDone, spends⟩

theorem reflects_empty (F : Facts) : Ledger.Reflects F ∅ ∅ .empty := by
  refine ⟨nofun, nofun, nofun, nofun, fun op s found => ?_, nofun⟩
  simp [Ledger.empty] at found

/-- The coins of the direct scan are the facts of the segment. -/
theorem Valid.mem_scan_iff (valid : S.Valid C) (keyed : S.KeyedSpends C scripts)
    {u : OnchainUtxo} :
    u ∈ (S.scan C scripts).utxos ↔ ∃ op r, (S.facts C scripts).paid op = some r ∧
      u = r.coin op ((S.facts C scripts).spent op) := by
  have reflects := valid.reflects_applyAll keyed (fun p member => member) (reflects_empty _)
  rw [Set.empty_union, Set.empty_union] at reflects
  have settled : Ledger.Settled (spentOf S.txs)
      (S.txs.foldl (Ledger.applyAt C scripts) .empty) :=
    valid.settled_applyAll [] [] (by simp)
  have scanned : (S.scan C scripts).toLedger = S.txs.foldl (Ledger.applyAt C scripts) .empty :=
    toLedger_applyTo _ _
  rw [scanned]
  refine reflects.mem_utxos_iff settled ?_ ?_
  · intro op r paid
    obtain ⟨p, member, _, id, _⟩ := payer_of_paid paid
    exact ⟨p, member, id⟩
  · intro op s spent
    obtain ⟨p, member, spends, _⟩ := spender_of_spent spent
    exact ⟨p, member, spends⟩

end Reading

end Segment

end Lij.Tier2
