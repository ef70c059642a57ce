import Lij.CancelledOpen
import Lij.Storage

/-!
# The wallet's books as the node reads them

Two decisions of the node's tick may drop a channel: the cancelled-open audit of
outbound channels and the drop of inbound channels that were never funded. Both
first ask the wallet's own books, the pending list and the confirmed history,
whether the funding is known. The node reads the view for that from its own
store, and a view that cannot be read counts as an empty history.
-/

namespace Lij.Node

open Bitcoin Tier2 Storage List
open CancelledOpen (Verdict verdict)

/-! ## The decisions -/

/-- The pending list and the confirmed history, as sets of transaction ids. -/
structure Books where
  pending : List Txid
  history : List Txid

/-- The verdict on one candidate: the quorum is asked only about a funding the books
do not know. -/
def judge (books : Books) (quorum : Txid → Option Bool) (firstDead : Option Nat) (nowMs : Nat)
    (funding : Txid) : Verdict :=
  let inPending := books.pending.contains funding
  let inHistory := books.history.contains funding
  let quorumKnows := if inPending || inHistory then some true else quorum funding
  verdict inPending inHistory quorumKnows firstDead nowMs

abbrev ChannelId := BitVec 256

/-- The clock of fundings that look dead. -/
abbrev DeadMap := Std.ExtTreeMap Txid Nat

/-- One candidate of the audit: its clock is cleared, started or left alone, and a dead
one is closed without a broadcast. -/
def auditCandidate (books : Books) (quorum : Txid → Option Bool) (nowMs : Nat)
    (state : DeadMap × List ChannelId) (candidate : ChannelId × Txid) :
    DeadMap × List ChannelId :=
  let map := state.1
  let funding := candidate.2
  match judge books quorum map[funding]? nowMs funding with
  | .alive => (map.erase funding, state.2)
  | .unknown => state
  | .watching => (if map.contains funding then map else map.insert funding nowMs, state.2)
  | .dead => (map.erase funding, state.2 ++ [candidate.1])

/-- The audit of the outbound channels that are not ready and have no confirmation. A
channel that left the list takes its clock with it; the clocks of the inbound fundings stand in
the same map and stay. -/
def audit (books : Books) (quorum : Txid → Option Bool) (nowMs : Nat) (map : DeadMap)
    (candidates : List (ChannelId × Txid)) (inbound : List Txid) : DeadMap × List ChannelId :=
  let live := candidates.map Prod.snd ++ inbound
  candidates.foldl (auditCandidate books quorum nowMs)
    (map.filter fun funding _ => live.contains funding, [])

/-- One channel as the never-funded rule sees it. -/
structure ChannelView where
  isOutbound : Bool
  confirmationsRequired : Option Nat
  confirmations : Option Nat
  ourClaimableSats : Nat
  pendingInboundHtlcs : Nat
  pendingOutboundHtlcs : Nat
  fundingKnownToBooks : Bool
  deriving DecidableEq, Repr

/-- What the rule reads of a channel; the balance is missing when there is no monitor. -/
structure ChannelDetails where
  isOutbound : Bool
  confirmationsRequired : Option Nat
  confirmations : Option Nat
  claimableSats : Option Nat
  pendingInboundHtlcs : Nat
  pendingOutboundHtlcs : Nat
  fundingTxid : Option Txid
  deriving DecidableEq, Repr

def jitChannelView (c : ChannelDetails) (books : Books) : ChannelView where
  isOutbound := c.isOutbound
  confirmationsRequired := c.confirmationsRequired
  confirmations := c.confirmations
  -- without a monitor the rule refuses rather than guesses
  ourClaimableSats := c.claimableSats.getD Word.u64Max
  pendingInboundHtlcs := c.pendingInboundHtlcs
  pendingOutboundHtlcs := c.pendingOutboundHtlcs
  fundingKnownToBooks :=
    match c.fundingTxid with
    | some funding => books.pending.contains funding || books.history.contains funding
    | none => true

def refuseReasonChannel (v : ChannelView) : Option String :=
  if v.isOutbound then some "the channel is outbound — this wallet funded it"
  else if v.confirmationsRequired ≠ some 0 then some "the channel is not zero-conf"
  else if v.confirmations.getD 0 > 0 then
    some "the funding has confirmations — it exists on chain"
  else if v.ourClaimableSats > 0 then some "this wallet owns sats in the channel"
  else if v.pendingInboundHtlcs > 0 ∨ v.pendingOutboundHtlcs > 0 then
    some "a payment is pending in the channel"
  else if v.fundingKnownToBooks then some "the funding is known to this wallet's own books"
  else none

def refuseReason (senderIsCounterparty senderIsActiveLsp : Bool) (v : ChannelView) :
    Option String :=
  if !senderIsCounterparty then some "the sender is not the channel's counterparty"
  else if !senderIsActiveLsp then some "the sender is not this wallet's active provider"
  else refuseReasonChannel v

/-! ## Reading the books -/

/-- The books through a reader of the store. A view that does not load is an empty
history. -/
def readBooks (format : Format) (read : String → Except String (Option Bytes)) : Books where
  pending :=
    match read pendingKey with
    | .ok (some bytes) => format.pendingTxids bytes
    | _ => []
  history :=
    match loadView format read with
    | .ok view => view.deriveHistory.map OnchainHistoryEntry.txid
    | .error _ => []

/-- The node reads its own store, without the encrypting wrapper. -/
def jitBooks (format : Format) (store : Store) : Books := readBooks format (plain store)

/-- The books know a funding: it is in the history, the audit finds it alive and closes
no channel for it, and the never-funded rule counts it as known and refuses the drop. -/
structure Knows (books : Books) (funding : Txid) : Prop where
  inHistory : funding ∈ books.history
  alive : ∀ quorum firstDead nowMs, judge books quorum firstDead nowMs funding = .alive
  notClosed : ∀ quorum nowMs map candidates inbound channel,
    channel ∈ (audit books quorum nowMs map candidates inbound).2 →
      ∃ other, (channel, other) ∈ candidates ∧ other ≠ funding
  known : ∀ c : ChannelDetails, c.fundingTxid = some funding →
    (jitChannelView c books).fundingKnownToBooks = true
  refused : ∀ (c : ChannelDetails) (counterparty activeLsp : Bool), c.fundingTxid = some funding →
    (refuseReason counterparty activeLsp (jitChannelView c books)).isSome = true

/-- Every funding the view confirms is known. -/
def KnowsConfirmed (books : Books) (view : Tier2View) : Prop :=
  ∀ funding ∈ view.deriveHistory.map OnchainHistoryEntry.txid, Knows books funding

theorem judge_of_mem_history {books : Books} {funding : Txid} (known : funding ∈ books.history)
    (quorum : Txid → Option Bool) (firstDead : Option Nat) (nowMs : Nat) :
    judge books quorum firstDead nowMs funding = .alive := by
  have inHistory : books.history.contains funding = true := contains_iff_mem.mpr known
  simp only [judge, verdict, inHistory, Bool.or_true, if_true]

/-- The audit closes only candidates it judged dead, so none that the books know. -/
theorem not_closed_of_mem_history {books : Books} {funding : Txid}
    (known : funding ∈ books.history) (quorum : Txid → Option Bool) (nowMs : Nat)
    (candidates : List (ChannelId × Txid)) (state : DeadMap × List ChannelId)
    (channel : ChannelId)
    (closed : channel ∈ (candidates.foldl (auditCandidate books quorum nowMs) state).2) :
    channel ∈ state.2 ∨ ∃ other, (channel, other) ∈ candidates ∧ other ≠ funding := by
  induction candidates generalizing state with
  | nil => exact .inl closed
  | cons candidate candidates ih =>
    rcases ih _ closed with before | ⟨other, member, different⟩
    · obtain ⟨map, done⟩ := state
      obtain ⟨first, its⟩ := candidate
      simp only [auditCandidate] at before
      cases verdict : judge books quorum map[its]? nowMs its with
      | dead =>
        rw [verdict] at before
        rcases mem_append.mp before with old | new
        · exact .inl old
        · cases mem_singleton.mp new
          refine .inr ⟨its, mem_cons_self, fun same => ?_⟩
          rw [same, judge_of_mem_history known] at verdict
          cases verdict
      | alive | unknown | watching =>
        rw [verdict] at before
        exact .inl before
    · exact .inr ⟨other, mem_cons_of_mem _ member, different⟩

theorem refuseReason_of_known {v : ChannelView} (known : v.fundingKnownToBooks = true)
    (counterparty activeLsp : Bool) : (refuseReason counterparty activeLsp v).isSome = true := by
  unfold refuseReason refuseReasonChannel
  rw [known, if_pos rfl]
  split_ifs <;> rfl

theorem knows_of_mem_history {books : Books} {funding : Txid} (member : funding ∈ books.history) :
    Knows books funding := by
  have known : ∀ c : ChannelDetails, c.fundingTxid = some funding →
      (jitChannelView c books).fundingKnownToBooks = true := by
    intro c own
    simp [jitChannelView, own, member]
  refine ⟨member, judge_of_mem_history member, ?_, known, fun c _ _ own =>
    refuseReason_of_known (known c own) _ _⟩
  intro quorum nowMs map candidates _ channel closed
  exact (not_closed_of_mem_history member quorum nowMs candidates _ channel closed).resolve_left
    not_mem_nil

/-- Knowing the ids is all it takes. -/
theorem knowsConfirmed_iff {books : Books} {view : Tier2View} :
    KnowsConfirmed books view ↔ ∀ funding ∈ view.historyTxids, funding ∈ books.history := by
  constructor
  · intro knows funding member
    exact (knows funding (Tier2View.mem_txids_deriveHistory.mpr member)).inHistory
  · intro subset funding member
    exact knows_of_mem_history (subset funding (Tier2View.mem_txids_deriveHistory.mp member))

variable {format : Format} {cipher : Cipher} {key : BitVec 256} {inner saved later : Store}
  {nonce : BitVec 96} {view : Tier2View}

/-- The node's history is empty once a view was saved. -/
theorem history_jitBooks_of_saved
    (save : saveView format (encrypted cipher key) inner nonce view = .ok saved)
    (kept : later viewKey = saved viewKey) : (jitBooks format later).history = [] := by
  obtain ⟨e, fails⟩ := loadView_plain_of_saved save kept
  simp only [jitBooks, readBooks, fails]

/-- After the sync saved a view through the encrypting store, and as long as the view's
key is not written again, the node knows every funding the view confirms exactly when
the view holds no coin at all. -/
theorem node_knows_confirmed_iff_no_coin
    (save : saveView format (encrypted cipher key) inner nonce view = .ok saved)
    (kept : later viewKey = saved viewKey) :
    KnowsConfirmed (jitBooks format later) view ↔ view.utxos = [] := by
  rw [knowsConfirmed_iff, history_jitBooks_of_saved save kept,
    ← Tier2View.historyTxids_eq_nil_iff]
  constructor
  · intro subset
    refine eq_nil_iff_forall_not_mem.mpr fun funding member => ?_
    exact absurd (subset funding member) not_mem_nil
  · intro none funding member
    rw [none] at member
    cases member

/-! ## A confirmed funding that is judged dead -/

/-- A format that tells two views apart, for a view with one coin. -/
def oneCoin : Tier2View :=
  { Tier2View.empty with
    utxos := [Ledger.newCoin chainReceive 0 ⟨7, 0⟩ 21000 900000 none] }

def oneCoinFormat : Format where
  printView view := if view.utxos = [] then [0x7b, 0x7d] else [0x7b, 0x31, 0x7d]
  parseView bytes :=
    if bytes = [0x7b, 0x7d] then .ok .empty
    else if bytes = [0x7b, 0x31, 0x7d] then .ok oneCoin
    else .error "expected value at line 1 column 1"
  pendingTxids _ := []
  parseView_magic rest := ⟨"expected value at line 1 column 1", by simp⟩

/-- A cipher that writes the nonce in front. -/
def nonceCipher : Cipher where
  encrypt _ nonce plain := .ok (Bytes.ofNat 12 nonce.toNat ++ plain)
  decrypt _ ciphertext := .ok (ciphertext.drop 12)

/-- What the sync leaves in the store. -/
def oneCoinStore : Store :=
  Store.empty.set viewKey (encMagic ++ (Bytes.ofNat 12 5 ++ [0x7b, 0x31, 0x7d]))

theorem oneCoin_saved : saveView oneCoinFormat (encrypted nonceCipher 9) .empty 5 oneCoin =
    .ok oneCoinStore := rfl

/-- The wrapper reads the view with its coin, whose transaction the history lists; the
node reads no history and, when the chain servers do not answer for the transaction,
finds the funding dead after two hours and closes its channel. -/
theorem confirmed_funding_judged_dead :
    loadView oneCoinFormat ((encrypted nonceCipher 9).get oneCoinStore) = .ok oneCoin ∧
    7 ∈ oneCoin.deriveHistory.map OnchainHistoryEntry.txid ∧
    (jitBooks oneCoinFormat oneCoinStore).history = [] ∧
    judge (jitBooks oneCoinFormat oneCoinStore) (fun _ => some false) (some 0) 7200000 7 = .dead ∧
    (audit (jitBooks oneCoinFormat oneCoinStore) (fun _ => some false) 7200000
      ((∅ : DeadMap).insert 7 0) [(3, 7)] []).2 = [3] ∧
    ¬KnowsConfirmed (jitBooks oneCoinFormat oneCoinStore) oneCoin := by
  refine ⟨?_, by decide +kernel, history_jitBooks_of_saved oneCoin_saved rfl, by decide +kernel,
    by decide +kernel, ?_⟩
  · exact loadView_encrypted_of_saved (fun ct ok => by cases ok; rfl) rfl oneCoin_saved rfl
  · rw [knowsConfirmed_iff, history_jitBooks_of_saved oneCoin_saved rfl]
    intro subset
    exact absurd (subset 7 (by decide +kernel)) not_mem_nil

/-- The condition is met by a view that was saved before any coin was found. -/
theorem node_knows_confirmed_iff_no_coin_empty :
    KnowsConfirmed (jitBooks oneCoinFormat
      (Store.empty.set viewKey (encMagic ++ (Bytes.ofNat 12 5 ++ [0x7b, 0x7d])))) .empty := by
  have save : saveView oneCoinFormat (encrypted nonceCipher 9) .empty 5 .empty =
      .ok (Store.empty.set viewKey (encMagic ++ (Bytes.ofNat 12 5 ++ [0x7b, 0x7d]))) := rfl
  exact (node_knows_confirmed_iff_no_coin save rfl).mpr rfl

end Lij.Node
