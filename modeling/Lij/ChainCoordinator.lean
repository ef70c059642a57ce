import Mathlib

/-!
# The chain coordinator

Every call that LDK hears about the chain goes through the coordinator. Two lanes
of the bridge mint best-block updates, each against the coordinator's own tip, and
a shared floor drops what would step LDK back. A block of equal height passes the
floor, but both lanes drop it before: only a higher block tells LDK of a
reorganisation.
-/

namespace Lij.ChainCoordinator

inductive ChainSource
  | hydrated
  | cooperativeBridge
  | independentEsplora
  deriving DecidableEq, Repr

/-- The hash of a header and the reading of a raw transaction. -/
structure Codec (Hash Header Tx : Type) where
  allZeros : Hash
  blockHash : Header → Hash
  deserialize : List UInt8 → Option Tx

/-- A confirmation as the bridge or an explorer reports it. -/
structure Confirmation (Txid Hash Header : Type) where
  txid : Txid
  height : Nat
  blockHash : Hash
  blockHeader : Header
  txIndex : Nat
  rawTx : List UInt8

structure ConfirmationData (Txid Hash : Type) where
  txid : Txid
  height : Nat
  blockHash : Hash
  txIndex : Nat
  rawTx : List UInt8
  source : ChainSource

inductive PendingLdkAction (Txid Header Tx : Type)
  | none
  | transactionsConfirmed (header : Header) (txdata : List (Nat × Tx)) (height : Nat)
  | bestBlockUpdated (header : Header) (height : Nat)
  | transactionUnconfirmed (txid : Txid)
  deriving DecidableEq

structure Coordinator (Txid Hash : Type) where
  tipHeight : Nat
  tipHash : Hash
  confirmedTxs : Txid → Option (ConfirmationData Txid Hash)
  bridgeObservedTip : Option (Nat × Hash)
  ldkBestFloor : Option Nat

inductive TxStatus
  | unconfirmed
  | notFound
  | confirmed (height : Nat)

/-- The calls of the coordinator that touch its chain state or answer with an action. -/
inductive Call (Txid Hash Header : Type)
  | hydrateFromChannels (channels : List (Txid × Nat × Nat))
  | ingestBridgeTip (height : Nat) (hash : Hash) (header : Header)
  | ingestBridgeConf (conf : Confirmation Txid Hash Header)
  | ingestBridgeBlockHeader (header : Header) (height : Nat)
  | ingestBridgeTipObserved (height : Nat) (hash : Hash)
  | ingestIndependentTip (height : Nat) (hash : Hash)
  | seedFloor (height : Nat) (hash : Hash)
  | ingestIndependentTxStatus (txid : Txid) (status : TxStatus)
  | ingestIndependentConfirmation (conf : Confirmation Txid Hash Header)
  | forceUnconfirm (txid : Txid)

variable {Txid Hash Header Tx : Type} [DecidableEq Txid] (K : Codec Hash Header Tx)

namespace Coordinator

variable (c : Coordinator Txid Hash)

def new (tipHeight : Nat) (tipHash : Hash) : Coordinator Txid Hash :=
  ⟨tipHeight, tipHash, fun _ => none, none, none⟩

def confirm (data : ConfirmationData Txid Hash) : Coordinator Txid Hash :=
  { c with confirmedTxs := Function.update c.confirmedTxs data.txid (some data) }

/-- The floor is passed by a block that is not below it. -/
def emitBestBlock (header : Header) (height : Nat) :
    Coordinator Txid Hash × PendingLdkAction Txid Header Tx :=
  if height < c.ldkBestFloor.getD 0 then (c, .none)
  else ({ c with ldkBestFloor := some height }, .bestBlockUpdated header height)

/-- What the two lanes of the bridge do with a block. -/
def ingestBlock (height : Nat) (hash : Hash) (header : Header) :
    Coordinator Txid Hash × PendingLdkAction Txid Header Tx :=
  if height ≤ c.tipHeight then (c, .none)
  else { c with tipHeight := height, tipHash := hash }.emitBestBlock header height

/-- A confirmation is noted also when its transaction cannot be read. -/
def ingestConf (conf : Confirmation Txid Hash Header) (source : ChainSource) :
    Coordinator Txid Hash × PendingLdkAction Txid Header Tx :=
  (c.confirm ⟨conf.txid, conf.height, conf.blockHash, conf.txIndex, conf.rawTx, source⟩,
    match K.deserialize conf.rawTx with
    | some tx => .transactionsConfirmed conf.blockHeader [(conf.txIndex, tx)] conf.height
    | none => .none)

/-- A call; the independent observations only log. -/
def step : Call Txid Hash Header → Coordinator Txid Hash × PendingLdkAction Txid Header Tx
  | .hydrateFromChannels channels =>
    (channels.foldl
      (fun c ch => c.confirm ⟨ch.1, ch.2.1, K.allZeros, ch.2.2, [], .hydrated⟩) c, .none)
  | .ingestBridgeTip height hash header => c.ingestBlock height hash header
  | .ingestBridgeConf conf => c.ingestConf K conf .cooperativeBridge
  | .ingestBridgeBlockHeader header height => c.ingestBlock height (K.blockHash header) header
  | .ingestBridgeTipObserved height hash =>
    if height < (c.bridgeObservedTip.map Prod.fst).getD 0 then (c, .none)
    else ({ c with bridgeObservedTip := some (height, hash) }, .none)
  | .ingestIndependentTip _ _ => (c, .none)
  | .seedFloor height hash =>
    ({ c with
      bridgeObservedTip :=
        if (c.bridgeObservedTip.map Prod.fst).getD 0 < height then some (height, hash)
        else c.bridgeObservedTip
      ldkBestFloor := if c.ldkBestFloor.all (· < height) then some height else c.ldkBestFloor },
      .none)
  | .ingestIndependentTxStatus _ _ => (c, .none)
  | .ingestIndependentConfirmation conf =>
    if (c.confirmedTxs conf.txid).map (·.height) = some conf.height then (c, .none)
    else c.ingestConf K conf .independentEsplora
  | .forceUnconfirm txid =>
    ({ c with confirmedTxs := Function.update c.confirmedTxs txid none },
      .transactionUnconfirmed txid)

end Coordinator

/-- The block an action gives LDK as its best. -/
def PendingLdkAction.emitted : PendingLdkAction Txid Header Tx → Option (Header × Nat)
  | .bestBlockUpdated header height => some (header, height)
  | _ => .none

def Call.seeded : Call Txid Hash Header → Option Nat
  | .seedFloor height _ => some height
  | _ => none

/-- The block a bridge lane offers. -/
def Call.offer : Call Txid Hash Header → Option (Header × Nat)
  | .ingestBridgeTip height _ header => some (header, height)
  | .ingestBridgeBlockHeader header height => some (header, height)
  | _ => none

/-- A coordinator with what has been promised to LDK: the heights seeded or emitted, and the
block emitted last. -/
structure Watched (Txid Hash Header : Type) where
  coordinator : Coordinator Txid Hash
  promised : List Nat
  lastEmitted : Option (Header × Nat)

namespace Watched

variable (w : Watched Txid Hash Header)

def start (c : Coordinator Txid Hash) : Watched Txid Hash Header := ⟨c, c.ldkBestFloor.toList, none⟩

def step (call : Call Txid Hash Header) : Watched Txid Hash Header :=
  let after := w.coordinator.step K call
  { coordinator := after.1
    promised := call.seeded.toList ++ (after.2.emitted.map Prod.snd).toList ++ w.promised
    lastEmitted := after.2.emitted.or w.lastEmitted }

def run (calls : List (Call Txid Hash Header)) : Watched Txid Hash Header :=
  calls.foldl (step K) w

end Watched

/-- What a call keeps: LDK's tip never steps back, an unconfirmation is asked for, and what is
confirmed stays so until then. A block of the bridge is passed on exactly if it is above the tip
and not below the floor, so one that is not above the block emitted last changes nothing,
whatever its hash. -/
structure Follows (w : Watched Txid Hash Header) (call : Call Txid Hash Header) : Prop where
  forward : ∀ block ∈ (w.coordinator.step K call).2.emitted, ∀ promised ∈ w.promised,
    promised ≤ block.2
  explicit : ∀ txid, (w.coordinator.step K call).2 = .transactionUnconfirmed txid →
    call = .forceUnconfirm txid
  kept : ∀ txid, (w.coordinator.confirmedTxs txid).isSome → call ≠ .forceUnconfirm txid →
    ((w.coordinator.step K call).1.confirmedTxs txid).isSome
  passed : ∀ block ∈ call.offer, (w.coordinator.step K call).2.emitted = some block ↔
    w.coordinator.tipHeight < block.2 ∧ w.coordinator.ldkBestFloor.getD 0 ≤ block.2
  dropped : ∀ block ∈ call.offer, ∀ last ∈ w.lastEmitted, block.2 ≤ last.2 →
    w.coordinator.step K call = (w.coordinator, .none)

section Steps

variable (c : Coordinator Txid Hash) (call : Call Txid Hash Header)

/-- A best block comes only from a lane of the bridge, above the tip and not below the floor. -/
theorem step_emits {block : Header × Nat} (emits : (c.step K call).2.emitted = some block) :
    call.offer = some block ∧ c.tipHeight < block.2 ∧ c.ldkBestFloor.getD 0 ≤ block.2 ∧
      (c.step K call).1.tipHeight = block.2 ∧ (c.step K call).1.ldkBestFloor = some block.2 := by
  cases call <;>
    grind [Coordinator.step, Coordinator.ingestBlock, Coordinator.emitBestBlock,
      Coordinator.ingestConf, Call.offer, PendingLdkAction.emitted]

/-- What the lanes do with a block, by its height alone. -/
theorem step_offer {block : Header × Nat} (offer : call.offer = some block) :
    (block.2 ≤ c.tipHeight → c.step K call = (c, .none)) ∧
      ((c.step K call).2.emitted = some block ↔
        c.tipHeight < block.2 ∧ c.ldkBestFloor.getD 0 ≤ block.2) := by
  cases call with
  | ingestBridgeTip height hash header =>
    cases offer
    grind [Coordinator.step, Coordinator.ingestBlock, Coordinator.emitBestBlock,
      PendingLdkAction.emitted]
  | ingestBridgeBlockHeader header height =>
    cases offer
    grind [Coordinator.step, Coordinator.ingestBlock, Coordinator.emitBestBlock,
      PendingLdkAction.emitted]
  | _ => cases offer

theorem confirmedTxs_confirm (data : ConfirmationData Txid Hash) (txid : Txid) :
    (c.confirm data).confirmedTxs txid =
      if txid = data.txid then some data else c.confirmedTxs txid :=
  Function.update_apply ..

/-- What hydrating leaves alone. -/
theorem hydrate_frame (channels : List (Txid × Nat × Nat)) :
    (c.step K (.hydrateFromChannels channels)).1.tipHeight = c.tipHeight ∧
      (c.step K (.hydrateFromChannels channels)).1.ldkBestFloor = c.ldkBestFloor ∧
      ∀ txid, (c.confirmedTxs txid).isSome →
        ((c.step K (.hydrateFromChannels channels)).1.confirmedTxs txid).isSome := by
  induction channels generalizing c with
  | nil => exact ⟨rfl, rfl, fun _ => id⟩
  | cons channel rest ih =>
    obtain ⟨tip, floor, kept⟩ := ih (c.confirm ⟨channel.1, channel.2.1, K.allZeros, channel.2.2,
      [], .hydrated⟩)
    refine ⟨tip, floor, fun txid before => kept txid ?_⟩
    rw [confirmedTxs_confirm]
    split <;> simp [before]

/-- Neither the tip nor the floor goes down, and a seeded height is under the floor. -/
theorem step_forward :
    c.tipHeight ≤ (c.step K call).1.tipHeight ∧
      c.ldkBestFloor.getD 0 ≤ (c.step K call).1.ldkBestFloor.getD 0 ∧
      ∀ height ∈ call.seeded, height ≤ (c.step K call).1.ldkBestFloor.getD 0 := by
  cases call with
  | hydrateFromChannels channels =>
    obtain ⟨tip, floor, -⟩ := hydrate_frame K c channels
    simp [tip, floor, Call.seeded]
  | seedFloor height hash =>
    cases floor : c.ldkBestFloor <;> grind [Coordinator.step, Call.seeded]
  | _ =>
    grind [Coordinator.step, Coordinator.ingestBlock, Coordinator.emitBestBlock,
      Coordinator.ingestConf, Coordinator.confirm, Call.seeded]

theorem step_explicit {txid : Txid}
    (unconfirms : (c.step K call).2 = .transactionUnconfirmed txid) :
    call = .forceUnconfirm txid := by
  cases call <;>
    grind [Coordinator.step, Coordinator.ingestBlock, Coordinator.emitBestBlock,
      Coordinator.ingestConf]

theorem step_kept {txid : Txid} (confirmed : (c.confirmedTxs txid).isSome)
    (other : call ≠ .forceUnconfirm txid) : ((c.step K call).1.confirmedTxs txid).isSome := by
  cases call with
  | hydrateFromChannels channels => exact (hydrate_frame K c channels).2.2 txid confirmed
  | forceUnconfirm unconfirmed =>
    have apart : txid ≠ unconfirmed := fun same => other (by rw [same])
    simpa [Coordinator.step, apart] using confirmed
  | _ =>
    grind [Coordinator.step, Coordinator.ingestBlock, Coordinator.emitBestBlock,
      Coordinator.ingestConf, confirmedTxs_confirm]

end Steps

/-- What is promised is under the floor, and the tip is not below the block emitted last. -/
structure Inv (w : Watched Txid Hash Header) : Prop where
  floor : ∀ height ∈ w.promised, height ≤ w.coordinator.ldkBestFloor.getD 0
  tip : ∀ last ∈ w.lastEmitted, last.2 ≤ w.coordinator.tipHeight

theorem Inv.step {w : Watched Txid Hash Header} (inv : Inv w) (call : Call Txid Hash Header) :
    Inv (w.step K call) := by
  obtain ⟨tip, floor, seeded⟩ := step_forward K w.coordinator call
  have emits := @step_emits _ _ _ _ _ K w.coordinator call
  refine ⟨fun height member => ?_, fun last member => ?_⟩
  · simp only [Watched.step, List.mem_append, Option.mem_toList] at member
    obtain (isSeed | isBlock) | before := member
    · exact seeded height isSeed
    · obtain ⟨block, emitted, rfl⟩ := Option.map_eq_some_iff.mp isBlock
      simp [Watched.step, (emits emitted).2.2.2.2]
    · exact (inv.floor height before).trans floor
  · obtain emitted | ⟨-, before⟩ := Option.or_eq_some_iff.mp member
    · exact (emits emitted).2.2.2.1.ge
    · exact (inv.tip last before).trans tip

theorem inv_run (c : Coordinator Txid Hash) (calls : List (Call Txid Hash Header)) :
    Inv ((Watched.start c).run K calls) := by
  refine List.foldlRecOn (motive := Inv) calls _ ⟨?_, by simp [Watched.start]⟩ ?_
  · cases floor : c.ldkBestFloor <;> simp [Watched.start, floor]
  · exact fun w inv call _ => inv.step K call

/-- At every point of a run from any coordinator, a call keeps LDK's view. -/
theorem run_follows (c : Coordinator Txid Hash) (before : List (Call Txid Hash Header))
    (call : Call Txid Hash Header) : Follows K ((Watched.start c).run K before) call := by
  have inv := inv_run K c before
  refine ⟨fun block action promised member => ?_, fun _ => step_explicit K _ call,
    fun _ => step_kept K _ call, fun block offer => (step_offer K _ call offer).2,
    fun block offer last emitted notAbove => ?_⟩
  · exact (inv.floor promised member).trans (step_emits K _ call action).2.2.1
  · exact (step_offer K _ call offer).1 (notAbove.trans (inv.tip last emitted))

/-- A header is its own hash: the block of height 100 is replaced at that height, and LDK
does not hear of it. -/
theorem tip_reorg_dropped :
    let K : Codec Nat Nat Nat := ⟨0, id, fun _ => none⟩
    let w := (Watched.start (Coordinator.new 0 0 : Coordinator Nat Nat)).run K
      [.ingestBridgeTip 100 7 7]
    w.lastEmitted = some (7, 100) ∧ w.coordinator.ldkBestFloor = some 100 ∧
      (w.coordinator.step K (.ingestBridgeTip 100 8 8)).2 = .none ∧
      (w.coordinator.step K (.ingestBridgeBlockHeader 8 100)).2 = .none :=
  ⟨rfl, rfl, rfl, rfl⟩

/-! ## Which transactions are confirmed -/

/-- What a call says of a transaction: confirmed, unconfirmed or nothing. -/
def Call.word (txid : Txid) : Call Txid Hash Header → Option Bool
  | .hydrateFromChannels channels => if txid ∈ channels.map Prod.fst then some true else none
  | .ingestBridgeConf conf => if txid = conf.txid then some true else none
  | .ingestIndependentConfirmation conf => if txid = conf.txid then some true else none
  | .forceUnconfirm unconfirmed => if txid = unconfirmed then some false else none
  | _ => none

theorem step_word (c : Coordinator Txid Hash) (call : Call Txid Hash Header) (txid : Txid) :
    ((c.step K call).1.confirmedTxs txid).isSome =
      (call.word txid).getD (c.confirmedTxs txid).isSome := by
  cases call with
  | hydrateFromChannels channels =>
    simp only [Coordinator.step, Call.word]
    induction channels generalizing c with
    | nil => rfl
    | cons channel rest ih =>
      rw [List.foldl_cons, ih, confirmedTxs_confirm]
      by_cases here : txid = channel.1 <;> by_cases later : txid ∈ rest.map Prod.fst <;>
        simp_all
  | forceUnconfirm unconfirmed =>
    by_cases same : txid = unconfirmed <;> simp [Coordinator.step, Call.word, same]
  | _ =>
    grind [Coordinator.step, Coordinator.ingestBlock, Coordinator.emitBestBlock,
      Coordinator.ingestConf, confirmedTxs_confirm, Call.word, Option.map_eq_some_iff]

/-- Over every run a transaction counts as confirmed exactly when the last call that speaks of it
confirms it; tips, floors and the explorers' observations change nothing. -/
theorem confirmed_is_last_word (w : Watched Txid Hash Header)
    (calls : List (Call Txid Hash Header)) (txid : Txid) :
    ((w.run K calls).coordinator.confirmedTxs txid).isSome = calls.foldl
      (fun known call => (call.word txid).getD known) (w.coordinator.confirmedTxs txid).isSome := by
  induction calls generalizing w with
  | nil => rfl
  | cons call calls ih => exact (ih (w.step K call)).trans (by rw [Watched.step, step_word]; rfl)

end Lij.ChainCoordinator
