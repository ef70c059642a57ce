import Lij.ChannelOpen
import Lij.Tatara.Holds

/-!
# What a pool's funding offers before it exists

A saved record puts its funding among the sends still confirming, with the change
the record names, before anybody signed. That change is offered as the change of
any send is. Nothing else of the funding is: no other output of it, no payout of
an exit, and of the transactions that descend from it only the change of this
wallet's own sends.
-/

namespace Lij.Tatara.Store

open Bitcoin Joinstr Checked Tier2 Storing Fallible OnchainSend List

/-! ## Rows of the pending list -/

/-- Every pending row is of a kind. -/
def Rows (good : PendingTx → Prop) (d : Disk) : Prop := ∀ p ∈ d.pending, good p

variable {P : Primitives} {seatKey : BitVec 256 → Except String String}
variable {good : PendingTx → Prop}

theorem rows_write {update : Disk → Disk} (same : ∀ d, (update d).pending = d.pending) :
    Keeps (Rows good) (write update) :=
  .write fun d rows => by rw [Rows, same]; exact rows

theorem rows_recordPending {p : PendingTx} (isGood : good p) :
    Keeps (Rows good) (recordPending p) := by
  intro d rows
  refine .read_bind (.write (fun q member => ?_) fun _ => rows)
  obtain old | new := mem_append.mp member
  · exact rows q (mem_of_mem_filter old)
  · exact mem_singleton.mp new ▸ isGood

theorem rows_removePendingByTxid (txid : Txid) :
    Keeps (Rows good) (removePendingByTxid txid) := by
  intro d rows
  refine .read_bind (.ite (fun _ => .write (fun q member => ?_) fun _ => rows) fun _ => .pure rows)
  exact rows q (mem_of_mem_filter member)

theorem rows_lock (coins : List OutPoint) (nowMs : Nat) : Keeps (Rows good) (lock coins nowMs) :=
  .read_bind fun _ => rows_write fun _ => rfl

theorem rows_unlock (coins : List OutPoint) : Keeps (Rows good) (unlock coins) :=
  .read_bind fun _ => .bind (rows_write fun _ => rfl) fun _ => .pure _

theorem rows_reconcile (coins : List OutPoint) (nowMs : Nat) :
    Keeps (Rows good) (reconcile coins nowMs) := by
  refine .read_bind fun d => ?_
  dsimp only
  split_ifs
  · exact .bind (rows_write fun _ => rfl) fun _ => .pure _
  · exact .pure _

theorem rows_dropRow (tx : Except String Transaction) : Keeps (Rows good) (dropRow P tx) := by
  cases tx with
  | error => exact .pure _
  | ok tx => exact rows_removePendingByTxid _

theorem rows_dropPoolRows (r : StoredRecord) : Keeps (Rows good) (dropPoolRows P r) :=
  .bind (rows_dropRow _) fun _ => rows_dropRow _

theorem rows_dropPoolRowsFor (coins : List OutPoint) :
    Keeps (Rows good) (dropPoolRowsFor P coins) :=
  .read_bind fun _ => .forM fun r _ => rows_dropPoolRows r

theorem rows_wipe (id : String) : Keeps (Rows good) (wipe id) := by
  refine .read_bind fun d => ?_
  cases d.records.find? fun r => r.id = id with
  | none => exact .pure _
  | some gone => exact .bind (rows_write fun _ => rfl) fun _ => .pure _

theorem rows_recordWipe (id : String) : Keeps (Rows good) (recordWipe P id) := by
  refine .bind (rows_wipe id) fun gone => ?_
  cases gone with
  | none => exact .pure _
  | some r =>
    refine .bind (rows_dropPoolRows r) fun _ => .read_bind fun d => ?_
    exact .bind (rows_write fun _ => rfl) fun _ => .pure _

theorem rows_settlePass (outsideDepth : Txid → Option Nat) :
    Keeps (Rows good) (settlePass P outsideDepth) := by
  refine .read_bind fun d => .bind (.forM fun entry _ => ?_) fun _ => .pure _
  exact .bind (rows_recordWipe _) fun _ => .pure _

theorem rows_seatNew (seat : Seat) (entropy : BitVec 256) (nowMs : Nat) :
    Keeps (Rows good) (seatNew seatKey seat entropy nowMs) := by
  refine .read_bind fun d => .require_bind <| .require_bind <| .require_bind <| .require_bind ?_
  refine .lift_bind fun seatPk => .bind (rows_lock _ _) fun _ => ?_
  exact .bind (rows_write fun _ => rfl) fun _ => .pure _

theorem rows_seatDrop (seatPk : String) : Keeps (Rows good) (seatDrop seatPk) := by
  refine .read_bind fun d => ?_
  cases d.seats.find? fun s => s.seatPk = seatPk with
  | none => exact .pure _
  | some gone =>
    refine .bind (rows_write fun _ => rfl) fun _ => .bind (rows_unlock _) fun _ => .pure _

/-- A save adds the two rows of its record. -/
theorem rows_recordSave {rec : StoredRecord} {nowMs : Nat}
    (funding : ∀ f view, rec.funding = .ok f → good (fundingRow P rec f view nowMs))
    (exit : ∀ tx vout, good (exitRow P tx vout nowMs)) :
    Keeps (Rows good) (recordSave P rec nowMs) := by
  refine .bind ?_ fun _ => .bind (.read_bind fun _ => rows_write fun _ => rfl) fun _ =>
    rows_lock _ _
  refine .read_bind fun d => ?_
  cases isFunding : rec.funding with
  | error => exact .pure _
  | ok f =>
    cases rec.myExit with
    | error => exact .pure _
    | ok paid =>
      cases rec.exits with
      | error => exact .pure _
      | ok exits =>
        refine .bind (rows_recordPending (funding f d.view isFunding)) fun _ => ?_
        exact .ite (fun _ => .pure _) fun _ => rows_recordPending (exit paid.1 paid.2)

/-! ## Runs -/

/-- The records an operation saves. -/
def Op.saves : Op → List StoredRecord
  | .recordSave rec _ => [rec]
  | _ => []

/-- A send of this wallet's pays its change from itself, and is none of the transactions in
question. -/
def Op.Foreign (txids : List Txid) : Op → Prop
  | .send row => row.txid ∉ txids ∧ ∀ op, row.changeOutpoint = some op → op.txid = row.txid
  | _ => True

/-- Operations one after the other, whichever writes fail, with the records they saved. -/
inductive Reached (P : Primitives) (seatKey : BitVec 256 → Except String String) (txids : List Txid)
    (start : Disk) : List StoredRecord → Disk → Prop
  | refl : Reached P seatKey txids start [] start
  | step {saved : List StoredRecord} {d : Disk} (before : Reached P seatKey txids start saved d)
      (op : Op) (foreign : op.Foreign txids) (outcomes : List (Option String)) :
      Reached P seatKey txids start (saved ++ op.saves) (Store.step P seatKey d op outcomes)

/-- The change a record names in its funding. -/
def ChangeOf (P : Primitives) (r : StoredRecord) (op : OutPoint) (value : Nat) : Prop :=
  ∃ f vout, r.funding = .ok f ∧ r.change = some (vout, value) ∧ op = ⟨P.computeTxid f, vout⟩

/-- A row whose change is its own and, for a transaction in question, a saved record's. -/
def RowOf (P : Primitives) (saved : List StoredRecord) (txids : List Txid) (p : PendingTx) : Prop :=
  ∀ op, p.changeOutpoint = some op → op.txid = p.txid ∧
    (p.txid ∈ txids → ∃ r ∈ saved, ChangeOf P r op p.changeValueSats)

variable {txids : List Txid} {start d : Disk} {saved : List StoredRecord}

theorem rowOf_fundingRow {rec : StoredRecord} (member : rec ∈ saved) {f : Transaction}
    (isFunding : rec.funding = .ok f) (view : Tier2View) (nowMs : Nat) :
    RowOf P saved txids (fundingRow P rec f view nowMs) := by
  intro op isChange
  obtain ⟨⟨vout, value⟩, isOutput, rfl⟩ := Option.map_eq_some_iff.mp isChange
  refine ⟨rfl, fun _ => ⟨rec, member, f, vout, isFunding, ?_, rfl⟩⟩
  rw [fundingRow, isOutput]
  rfl

theorem rowOf_exitRow (tx : Transaction) (vout nowMs : Nat) :
    RowOf P saved txids (exitRow P tx vout nowMs) := by
  intro op isChange
  cases isChange

theorem rows_exec {op : Op} (foreign : op.Foreign txids) (saves : ∀ r ∈ op.saves, r ∈ saved) :
    Keeps (Rows (RowOf P saved txids)) (op.exec P seatKey) := by
  cases op with
  | lock coins nowMs => apply rows_lock
  | unlock coins => exact .bind (rows_unlock coins) fun _ => .pure _
  | seatNew seat entropy nowMs => exact .bind (rows_seatNew seat entropy nowMs) fun _ => .pure _
  | seatDrop seatPk => exact .bind (rows_seatDrop seatPk) fun _ => .pure _
  | recordSave rec nowMs =>
    have member : rec ∈ saved := saves rec mem_cons_self
    apply rows_recordSave
    · exact fun f view isFunding => rowOf_fundingRow member isFunding view nowMs
    · exact fun tx vout => rowOf_exitRow tx vout nowMs
  | recordWipe id => exact .bind (rows_recordWipe id) fun _ => .pure _
  | settlePass outsideDepth => exact .bind (rows_settlePass outsideDepth) fun _ => .pure _
  | reconcile nowMs => exact .read_bind fun d => .bind (rows_reconcile _ nowMs) fun _ => .pure _
  | keepOut coins => apply rows_dropPoolRowsFor
  | ledger view =>
    have keeps : Keeps (Rows (RowOf P saved txids)) (write fun d : Disk => { d with view }) :=
      rows_write fun _ => rfl
    exact keeps
  | send row =>
    obtain ⟨other, own⟩ := foreign
    apply rows_recordPending
    exact fun op isChange => ⟨own op isChange, fun same => absurd same other⟩
  | forget txid => apply rows_removePendingByTxid

/-- In every run, a row of a transaction in question is a saved record's. -/
theorem rows_of_reached (fresh : Rows (RowOf P [] txids) start)
    (reached : Reached P seatKey txids start saved d) : Rows (RowOf P saved txids) d := by
  induction reached with
  | refl => exact fresh
  | @step saved d _ op foreign outcomes ih =>
    have more : Rows (RowOf P (saved ++ op.saves) txids) d := by
      intro p member op' isChange
      obtain ⟨own, recorded⟩ := ih p member op' isChange
      refine ⟨own, fun same => ?_⟩
      obtain ⟨r, inside, isChange⟩ := recorded same
      exact ⟨r, mem_append_left _ inside, isChange⟩
    refine (rows_exec foreign fun r member => ?_).run more outcomes
    exact mem_append_right _ member

/-! ## Coins on offer -/

/-- A coin with its value is offered to a send or Max, to a channel's funding, or counted in the
totals. -/
inductive Offered (view : Tier2View) (pending : List PendingTx) (marks : CoinMarks) :
    OutPoint → Nat → Prop
  | send {u : SpendableUtxo} (member : u ∈ gatherSpendable view pending marks.heldSet) :
      Offered view pending marks u.outpoint u.valueSats
  | funding {u : SpendableUtxo}
      (member : u ∈ ChannelOpen.fundingCandidates view pending marks.heldSet) :
      Offered view pending marks u.outpoint u.valueSats
  | counted {u : OnchainUtxo} (member : u ∈ summaryCoins view pending) :
      Offered view pending marks u.outpoint u.valueSats

/-- A coin on offer stands in the ledger or is the change of a pending row. -/
theorem offered_cases {view : Tier2View} {pending : List PendingTx} {marks : CoinMarks}
    {op : OutPoint} {value : Nat} (offered : Offered view pending marks op value) :
    (∃ u ∈ view.utxos, u.outpoint = op) ∨
      ∃ p ∈ pending, p.changeOutpoint = some op ∧ p.changeValueSats = value := by
  have change : ∀ {u : OnchainUtxo}, u ∈ unconfirmedChangeUtxos view pending →
      ∃ p ∈ pending, p.changeOutpoint = some u.outpoint ∧ p.changeValueSats = u.valueSats := by
    intro u member
    obtain ⟨p, inside, isChange⟩ := mem_unconfirmedChangeUtxos.mp member
    obtain ⟨op, output, rfl, _⟩ := unconfirmedChangeOf_eq_some isChange
    exact ⟨p, inside, output, rfl⟩
  cases offered with
  | send member =>
    obtain known | pending := mem_append.mp member
    · obtain ⟨u, inside, rfl⟩ := mem_map.mp known
      exact .inl ⟨u, mem_of_mem_filter inside, rfl⟩
    · obtain ⟨u, inside, rfl⟩ := mem_map.mp pending
      exact .inr (change (mem_of_mem_filter inside))
  | funding member =>
    obtain known | pending := mem_append.mp member
    · obtain ⟨u, inside, rfl⟩ := mem_map.mp known
      exact .inl ⟨u, mem_of_mem_filter inside, rfl⟩
    · obtain ⟨u, inside, rfl⟩ := mem_map.mp pending
      exact .inr (change (mem_of_mem_filter (mem_of_mem_take inside)))
  | counted member =>
    obtain known | pending := mem_append.mp member
    · exact .inl ⟨_, mem_of_mem_filter (mem_of_mem_filter known), rfl⟩
    · exact .inr (change pending)

/-- The transactions that descend from one, given what each transaction spends. -/
inductive Descends (inputsOf : Txid → List OutPoint) (txid : Txid) : Txid → Prop
  | self : Descends inputsOf txid txid
  | child {child : Txid} {op : OutPoint} (spends : op ∈ inputsOf child)
      (parent : Descends inputsOf txid op.txid) : Descends inputsOf txid child

/-- While a funding and its descendants are not in the ledger, what is offered of them is the
change a saved record of that funding names, and the change of this wallet's own pending
rows, which are no exits' when the exits are neither sends nor other records' fundings. -/
theorem offered_of_funding (P : Primitives) (seatKey : BitVec 256 → Except String String)
    (start d : Disk) (saved : List StoredRecord) (funding : Transaction) (exits : List Transaction)
    (fresh : ∀ p ∈ start.pending, p.txid ∉ (funding :: exits).map P.computeTxid ∧
      ∀ op, p.changeOutpoint = some op → op.txid = p.txid)
    (reached : Reached P seatKey ((funding :: exits).map P.computeTxid) start saved d)
    (apart : ∀ exit ∈ exits, ∀ r ∈ saved, ∀ f, r.funding = .ok f →
      P.computeTxid f ≠ P.computeTxid exit)
    (inputsOf : Txid → List OutPoint)
    (unconfirmed : ∀ u ∈ d.view.utxos, ¬Descends inputsOf (P.computeTxid funding) u.txid)
    (op : OutPoint) (value : Nat) (offered : Offered d.view d.pending d.marks op value)
    (descends : Descends inputsOf (P.computeTxid funding) op.txid) :
    (op.txid = P.computeTxid funding ∧ ∃ r' ∈ saved, ChangeOf P r' op value) ∨
      op.txid ≠ P.computeTxid funding ∧ (∀ exit ∈ exits, op.txid ≠ P.computeTxid exit) ∧
        ∃ p ∈ d.pending, p.txid = op.txid ∧ p.changeOutpoint = some op ∧
          p.changeValueSats = value := by
  obtain ⟨u, inLedger, rfl⟩ | ⟨p, inPending, isChange, rfl⟩ := offered_cases offered
  · exact absurd descends (unconfirmed u inLedger)
  · have rows : Rows (RowOf P saved ((funding :: exits).map P.computeTxid)) d :=
      rows_of_reached (fun p member op isChange => ⟨(fresh p member).2 op isChange,
        fun same => absurd same (fresh p member).1⟩) reached
    obtain ⟨own, recorded⟩ := rows p inPending op isChange
    rw [← own] at recorded
    by_cases same : op.txid = P.computeTxid funding
    · exact .inl ⟨same, recorded (same ▸ mem_cons_self)⟩
    · refine .inr ⟨same, fun exit member isExit => ?_, p, inPending, own.symm, isChange, rfl⟩
      obtain ⟨r, inside, f, vout, isFunding, _, rfl⟩ :=
        recorded (isExit ▸ mem_cons_of_mem _ (mem_map_of_mem member))
      exact apart exit member r inside f isFunding isExit

/-! ### One record -/

theorem Descends.eq_of_noInputs {txid child : Txid} (descends : Descends (fun _ => []) txid child) :
    child = txid := by
  cases descends with
  | self => rfl
  | child inside => exact absurd inside not_mem_nil

/-- Two members' coins into a pool output, with this phone's change; nobody has signed. -/
def poolFunding : Transaction where
  version := 2
  lockTime := 0
  input := [⟨theCoin, [], enableRbfNoLocktime, []⟩, ⟨⟨2, 0⟩, [], enableRbfNoLocktime, []⟩]
  output := [⟨198000, [5]⟩, ⟨1000, [7]⟩]

def poolExit : Transaction where
  version := 2
  lockTime := 0
  input := [⟨⟨Instance.txDigest poolFunding, 0⟩, [], enableRbfNoLocktime, []⟩]
  output := [⟨99000, [4]⟩, ⟨98000, [6]⟩]

def poolRecord : StoredRecord :=
  .fromMachine ⟨"attempt", poolFunding, [poolExit], [4], [theCoin], false,
    2000, []⟩ (some 4) (some ([7], 9)) 5

def beforeSave : Disk :=
  { Disk.empty with
    view := { Tier2View.empty with
      utxos :=
        [⟨chainReceive, 0, theCoin.txid, theCoin.vout, 100000, 1, none, none, none, none⟩] } }

def afterSave : Disk := step Instance.base plainKey beforeSave (.recordSave poolRecord 5) []

def changeOutpoint : OutPoint := ⟨Instance.txDigest poolFunding, 1⟩

theorem offered_change : Offered afterSave.view afterSave.pending afterSave.marks
    changeOutpoint 1000 :=
  .send (u := ⟨chainChange, 9, Instance.txDigest poolFunding, 1, 1000, none⟩) (by decide +kernel)

theorem offered_of_funding_change : ∃ r' ∈ [poolRecord],
    ChangeOf Instance.base r' changeOutpoint 1000 := by
  have reached : Reached Instance.base plainKey
      ([poolFunding, poolExit].map Instance.base.computeTxid) beforeSave [poolRecord] afterSave :=
    .step .refl (.recordSave poolRecord 5) trivial []
  have exits : ∀ exit ∈ [poolExit], ∀ r ∈ [poolRecord], ∀ f, r.funding = .ok f →
      Instance.base.computeTxid f ≠ Instance.base.computeTxid exit := by
    intro exit isExit r isRecord f isFunding
    cases mem_singleton.mp isExit
    cases mem_singleton.mp isRecord
    cases Except.ok.inj isFunding
    decide +kernel
  have apart : ∀ u ∈ afterSave.view.utxos,
      ¬Descends (fun _ => []) (Instance.txDigest poolFunding) u.txid := by
    have one : ∀ u ∈ afterSave.view.utxos, u.txid ≠ Instance.txDigest poolFunding := by
      decide +kernel
    intro u member descends
    exact one u member descends.eq_of_noInputs
  have result := offered_of_funding Instance.base plainKey beforeSave afterSave [poolRecord]
    poolFunding [poolExit] (forall_mem_nil _) reached exits (fun _ => []) apart changeOutpoint 1000
    offered_change .self
  obtain ⟨_, change⟩ | ⟨other, _⟩ := result
  · exact change
  · exact absurd rfl other

/-- The record is saved, no input of its funding is signed, and its change is offered. -/
theorem unsigned_change_offered :
    (∀ i ∈ poolFunding.input, i.witness = []) ∧
      changeOutpoint.txid = Instance.base.computeTxid poolFunding ∧
      afterSave.records = [poolRecord] ∧
      Offered afterSave.view afterSave.pending afterSave.marks changeOutpoint 1000 := by
  refine ⟨by decide, rfl, by rfl, offered_change⟩

end Lij.Tatara.Store
