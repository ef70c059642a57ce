import Lij.Foundation.Folds
import Lij.Tatara.Instance
import Lij.Tatara.Store

/-!
# A coin promised to a pool stays held

Every coin a seat in force or an unsettled record names should be held, and no
coin be named by two seats. The operations keep this as long as nothing frees a
coin that someone else still names: `unlock` looks at the records and not at the
seats, and wiping a record frees its inputs without looking at either.
-/

namespace Lij.Tatara.Store

open Bitcoin Joinstr Checked Tier2 Storing Fallible List

/-- What may happen to the storage: the Mix's operations, and changes of the ledger and of the
pending sends by the rest of the wallet. -/
inductive Op where
  | lock (coins : List OutPoint) (nowMs : Nat)
  | unlock (coins : List OutPoint)
  | seatNew (seat : Seat) (entropy : BitVec 256) (nowMs : Nat)
  | seatDrop (seatPk : String)
  | recordSave (rec : StoredRecord) (nowMs : Nat)
  | recordWipe (id : String)
  | settlePass (outsideDepth : Txid → Option Nat)
  /-- Called with the coins of the seats in force. -/
  | reconcile (nowMs : Nat)
  | keepOut (coins : List OutPoint)
  | ledger (view : Tier2View)
  | send (row : PendingTx)
  | forget (txid : Txid)

section Step

variable (P : Primitives) (seatKey : BitVec 256 → Except String String)

def Op.exec : Op → Storing Disk Unit
  | .lock coins nowMs => Store.lock coins nowMs
  | .unlock coins => do
    let _ ← Store.unlock coins
  | .seatNew seat entropy nowMs => do
    let _ ← Store.seatNew seatKey seat entropy nowMs
  | .seatDrop seatPk => do
    let _ ← Store.seatDrop seatPk
  | .recordSave rec nowMs => Store.recordSave P rec nowMs
  | .recordWipe id => do
    let _ ← Store.recordWipe P id
  | .settlePass outsideDepth => do
    let _ ← Store.settlePass P outsideDepth
  | .reconcile nowMs => do
    let d ← read
    let _ ← Store.reconcile d.seatCoins nowMs
  | .keepOut coins => dropPoolRowsFor P coins
  | .ledger view => write fun d => { d with view }
  | .send row => Store.recordPending row
  | .forget txid => Store.removePendingByTxid txid

/-- One operation, with the writes of it that fail. -/
def step (d : Disk) (op : Op) (outcomes : List (Option String)) : Disk :=
  ((op.exec P seatKey).run d outcomes).2

end Step

/-! ## The promise -/

/-- Coins named by a seat or a record are held, and no coin is named by two seats. -/
structure Held (d : Disk) : Prop where
  held : ∀ op, op ∈ heldInputs d.records ∨ op ∈ d.seatCoins → op ∈ d.marks.mixLocks
  apart : d.seats.Pairwise fun s s' => s.coins.Disjoint s'.coins

/-- With one record for each id. -/
structure Kept (d : Disk) : Prop extends Held d where
  ids : (d.records.map StoredRecord.id).Nodup

/-- No seat and no other record names a coin of the record with this id. -/
def Alone (d : Disk) (id : String) : Prop :=
  ∀ r ∈ d.records, r.id = id → ∀ op ∈ r.inputs, op ∉ d.seatCoins ∧
    ∀ r' ∈ d.records, r'.id ≠ id → op ∉ r'.inputs

/-- What the operations rely on. -/
def Careful (P : Primitives) (d : Disk) (op : Op) (outcomes : List (Option String)) : Prop :=
  match op with
  | .unlock coins => ∀ op ∈ coins, op ∈ d.seatCoins → op ∈ heldInputs d.records
  | .recordSave rec _ => Lands outcomes ∨ ∀ op ∈ rec.inputs, op ∈ d.marks.mixLocks
  | .recordWipe id => Alone d id
  | .settlePass outsideDepth => ∀ r ∈ d.records,
      (∃ why, duty P r d.view outsideDepth = .ok (.wipe why)) → Alone d r.id
  | _ => True

variable {P : Primitives} {seatKey : BitVec 256 → Except String String}
variable {d d' : Disk} {reliable : Prop}

theorem mem_heldInputs {records : List StoredRecord} {op : OutPoint} :
    op ∈ heldInputs records ↔ ∃ r ∈ records, op ∈ r.inputs := mem_flatMap

theorem mem_seatCoins {op : OutPoint} : op ∈ d.seatCoins ↔ ∃ s ∈ d.seats, op ∈ s.coins :=
  mem_flatMap

/-! ## Pending rows -/

/-- The Mix's three keys are as they were. -/
structure SameMix (d d' : Disk) : Prop where
  marks : d'.marks = d.marks
  records : d'.records = d.records
  seats : d'.seats = d.seats

theorem SameMix.refl (d : Disk) : SameMix d d := ⟨rfl, rfl, rfl⟩

theorem SameMix.trans {d'' : Disk} (first : SameMix d d') (second : SameMix d' d'') :
    SameMix d d'' :=
  ⟨second.marks.trans first.marks, second.records.trans first.records,
    second.seats.trans first.seats⟩

theorem Kept.congr (kept : Kept d) (same : SameMix d d') : Kept d' := by
  refine ⟨⟨fun op named => ?_, ?_⟩, ?_⟩
  · rw [same.marks]
    refine kept.held op ?_
    rwa [Disk.seatCoins, same.records, same.seats] at named
  · rw [same.seats]
    exact kept.apart
  · rw [same.records]
    exact kept.ids

/-- An operation that touches only the pending rows. -/
def OnlyRows (m : Storing Disk Unit) : Prop :=
  ∀ (reliable : Prop) (d : Disk),
    Ensures reliable m d (fun _ d' => SameMix d d') fun d' => SameMix d d'

theorem OnlyRows.bind {m n : Storing Disk Unit} (first : OnlyRows m) (second : OnlyRows n) :
    OnlyRows (do m; n) := by
  intro reliable d
  refine (first reliable d).bind fun _ d' same => ?_
  exact (second reliable d').mono (fun _ _ same' => same.trans same')
    fun _ same' => same.trans same'

theorem onlyRows_pure : OnlyRows (pure ()) := fun _ d => .pure (.refl d)

theorem onlyRows_recordPending (p : PendingTx) : OnlyRows (recordPending p) :=
  fun _ d => .read_bind (.write ⟨rfl, rfl, rfl⟩ fun _ => .refl d)

theorem onlyRows_removePendingByTxid (txid : Txid) : OnlyRows (removePendingByTxid txid) := by
  intro reliable d
  refine .read_bind (.ite (fun _ => ?_) fun _ => onlyRows_pure reliable d)
  exact .write ⟨rfl, rfl, rfl⟩ fun _ => .refl d

theorem onlyRows_poolRows (r : StoredRecord) (nowMs : Nat) : OnlyRows (poolRows P r nowMs) := by
  intro reliable d
  refine .read_bind ?_
  cases r.funding with
  | error => exact onlyRows_pure reliable d
  | ok funding =>
    cases r.myExit with
    | error => exact onlyRows_pure reliable d
    | ok exit =>
      cases r.exits with
      | error => exact onlyRows_pure reliable d
      | ok exits =>
        refine (onlyRows_recordPending _).bind ?_ reliable d
        intro reliable d
        refine .ite (fun _ => onlyRows_pure reliable d) fun _ => ?_
        exact onlyRows_recordPending _ reliable d

theorem onlyRows_dropRow (tx : Except String Transaction) : OnlyRows (dropRow P tx) := by
  cases tx with
  | error => exact onlyRows_pure
  | ok tx => exact onlyRows_removePendingByTxid _

theorem onlyRows_dropPoolRows (r : StoredRecord) : OnlyRows (dropPoolRows P r) :=
  (onlyRows_dropRow r.funding).bind (onlyRows_dropRow _)

theorem onlyRows_dropPoolRowsFor (coins : List OutPoint) : OnlyRows (dropPoolRowsFor P coins) := by
  intro reliable d
  refine .read_bind (.forM (fun r _ d' same => ?_) (SameMix.refl d))
  exact (onlyRows_dropPoolRows r reliable d').mono (fun _ _ same' => same.trans same')
    fun _ same' => same.trans same'

theorem OnlyRows.kept {m : Storing Disk Unit} (only : OnlyRows m) (kept : Kept d) :
    Ensures reliable m d (fun _ => Kept) Kept :=
  (only reliable d).mono (fun _ _ same => kept.congr same) fun _ same => kept.congr same

/-! ## Holds -/

theorem Kept.mixLock (kept : Kept d) (coins : List OutPoint) (nowMs : Nat) :
    Kept { d with marks := d.marks.mixLock coins nowMs } :=
  ⟨⟨fun op named => CoinMarks.mem_mixLock.mpr (.inl (kept.held op named)), kept.apart⟩, kept.ids⟩

/-- Freeing coins that nobody names. -/
theorem Kept.mixUnlock (kept : Kept d) {coins : List OutPoint}
    (free : ∀ op ∈ coins, op ∉ heldInputs d.records ∧ op ∉ d.seatCoins) :
    Kept { d with marks := d.marks.mixUnlock coins } := by
  refine ⟨⟨fun op named => ?_, kept.apart⟩, kept.ids⟩
  refine CoinMarks.mem_mixUnlock.mpr ⟨kept.held op named, fun member => ?_⟩
  obtain ⟨unrecorded, unseated⟩ := free op member
  exact named.elim unrecorded unseated

theorem lock_kept (kept : Kept d) (coins : List OutPoint) (nowMs : Nat) :
    Ensures reliable (lock coins nowMs) d (fun _ => Kept) Kept :=
  .read_bind (.write (kept.mixLock coins nowMs) fun _ => kept)

theorem unlock_kept (kept : Kept d) {coins : List OutPoint}
    (free : ∀ op ∈ coins, op ∈ d.seatCoins → op ∈ heldInputs d.records) :
    Ensures reliable (unlock coins) d (fun _ => Kept) Kept := by
  refine .read_bind (.write_bind (.pure ?_) fun _ => kept)
  refine kept.mixUnlock fun op member => ?_
  obtain ⟨asked, unnamed⟩ := mem_filter.mp member
  have unrecorded : op ∉ heldInputs d.records := by simpa using unnamed
  exact ⟨unrecorded, fun seated => unrecorded (free op asked seated)⟩

theorem mem_sortedCoins {coins : List OutPoint} {op : OutPoint} :
    op ∈ sortedCoins coins ↔ op ∈ coins := mem_insertionSort _

theorem reconcile_kept (kept : Kept d) (nowMs : Nat) :
    Ensures reliable (reconcile d.seatCoins nowMs) d (fun _ => Kept) Kept := by
  refine .read_bind ?_
  have named : ∀ op, op ∈ (heldInputs d.records ++ d.seatCoins).dedup ↔
      op ∈ heldInputs d.records ∨ op ∈ d.seatCoins := fun op => by
    rw [mem_dedup, mem_append]
  have free : ∀ op ∈ sortedCoins (d.marks.mixLockedSet.filter fun op =>
      !(heldInputs d.records ++ d.seatCoins).dedup.contains op),
      op ∉ heldInputs d.records ∧ op ∉ d.seatCoins := by
    intro op member
    obtain ⟨_, unnamed⟩ := mem_filter.mp (mem_sortedCoins.mp member)
    rw [Bool.not_eq_true', contains_eq_mem, decide_eq_false_iff_not, named, not_or] at unnamed
    exact unnamed
  have fresh := (kept.mixUnlock free).mixLock (sortedCoins
    ((heldInputs d.records ++ d.seatCoins).dedup.filter fun op =>
      !d.marks.mixLockedSet.contains op)) nowMs
  dsimp only
  split_ifs
  · exact .write_bind (.pure fresh) fun _ => kept
  · exact .pure kept

/-! ## Records -/

theorem put_spec (rec : StoredRecord) : Ensures reliable (put rec) d
    (fun _ d' => d' = { d with records := d.records.filter (fun r => r.id ≠ rec.id) ++ [rec] })
    (fun d' => d' = d) :=
  .read_bind (.write rfl fun _ => rfl)

theorem recordSave_kept (kept : Kept d) (rec : StoredRecord) (nowMs : Nat)
    (safe : reliable ∨ ∀ op ∈ rec.inputs, op ∈ d.marks.mixLocks) :
    Ensures reliable (recordSave P rec nowMs) d (fun _ => Kept) Kept := by
  refine ((onlyRows_poolRows rec nowMs reliable d).mono (fun _ _ same => same)
    fun _ same => kept.congr same).bind fun _ d' same => ?_
  have kept' := kept.congr same
  refine ((put_spec rec).mono (fun _ _ put => put) fun _ same => same ▸ kept').bind
    fun _ d'' put => ?_
  subst put
  -- with the record written, its inputs wait for the hold
  have named : ∀ op, op ∈ heldInputs (d'.records.filter (fun r => r.id ≠ rec.id) ++ [rec]) ∨
      op ∈ d'.seatCoins → op ∈ d'.marks.mixLocks ∨ op ∈ rec.inputs := by
    rintro op (recorded | seated)
    · obtain ⟨r, inside, names⟩ := mem_heldInputs.mp recorded
      obtain old | new := mem_append.mp inside
      · exact .inl (kept'.held op (.inl (mem_heldInputs.mpr ⟨r, mem_of_mem_filter old, names⟩)))
      · rw [mem_singleton] at new
        exact .inr (new ▸ names)
    · exact .inl (kept'.held op (.inr seated))
  have ids : ((d'.records.filter (fun r => r.id ≠ rec.id) ++ [rec]).map StoredRecord.id).Nodup := by
    rw [map_append]
    refine (kept'.ids.sublist (filter_sublist.map _)).append (nodup_singleton _) ?_
    intro id first last
    obtain ⟨r, member, rfl⟩ := mem_map.mp first
    have other : r.id ≠ rec.id := by simpa using (mem_filter.mp member).2
    exact other (mem_singleton.mp last)
  refine .read_bind (.write ?_ fun unsure => ?_)
  · exact ⟨⟨fun op names => CoinMarks.mem_mixLock.mpr (named op names), kept'.apart⟩, ids⟩
  · refine ⟨⟨fun op names => ?_, kept'.apart⟩, ids⟩
    obtain held | new := named op names
    · exact held
    · change op ∈ d'.marks.mixLocks
      rw [same.marks]
      exact safe.resolve_left unsure op new

theorem eraseP_eq_filter {records : List StoredRecord} (id : String)
    (ids : (records.map StoredRecord.id).Nodup) :
    records.eraseP (fun r => r.id = id) = records.filter fun r => r.id ≠ id := by
  induction records with
  | nil => rfl
  | cons r records ih =>
    obtain ⟨new, rest⟩ := nodup_cons.mp ids
    by_cases same : r.id = id
    · rw [eraseP_cons_of_pos (by simpa using same), filter_cons_of_neg (by simpa using same)]
      refine (filter_eq_self.mpr fun r' member => ?_).symm
      have other : r'.id ≠ id := fun again =>
        new (mem_map.mpr ⟨r', member, again.trans same.symm⟩)
      simpa using other
    · rw [eraseP_cons_of_neg (by simpa using same),
        filter_cons_of_pos (by simpa using same), ih rest]

/-- The record with an id is gone, and nothing else. -/
theorem wipe_spec (kept : Kept d) (id : String) : Ensures reliable (wipe id) d
    (fun gone d' => (gone = none ∧ d' = d) ∨ ∃ r, gone = some r ∧ r ∈ d.records ∧ r.id = id ∧
      d' = { d with records := d.records.filter fun r => r.id ≠ id })
    (fun d' => d' = d) := by
  refine .read_bind ?_
  cases found : d.records.find? fun r => r.id = id with
  | none => exact .pure (.inl ⟨rfl, rfl⟩)
  | some r =>
    have isId : r.id = id := by simpa using find?_some found
    refine .write_bind (.pure (.inr ⟨r, rfl, mem_of_find?_eq_some found, isId, ?_⟩))
      fun _ => rfl
    rw [eraseP_eq_filter id kept.ids]

/-- The invariant on a disk that lost records and nothing else of the Mix's promises. -/
structure Shrunk (d d' : Disk) : Prop where
  kept : Kept d'
  records : ∀ r ∈ d'.records, r ∈ d.records
  seats : d'.seats = d.seats

theorem Alone.shrunk {id : String} (alone : Alone d id) (shrunk : Shrunk d d') : Alone d' id := by
  intro r member isId op names
  obtain ⟨unseated, others⟩ := alone r (shrunk.records r member) isId op names
  rw [Disk.seatCoins, shrunk.seats]
  exact ⟨unseated, fun r' member' => others r' (shrunk.records r' member')⟩

theorem recordWipe_shrunk (kept : Kept d) {id : String} (alone : Alone d id) :
    Ensures reliable (recordWipe P id) d (fun _ => Shrunk d) (Shrunk d) := by
  have unchanged : Shrunk d d := ⟨kept, fun _ member => member, rfl⟩
  refine ((wipe_spec kept id).mono (fun _ _ spec => spec) fun _ same => same ▸ unchanged).bind
    fun gone d' spec => ?_
  obtain ⟨rfl, rfl⟩ | ⟨r, rfl, member, isId, rfl⟩ := spec
  · exact .pure unchanged
  have fewer : ∀ r' ∈ d.records.filter (fun r => r.id ≠ id), r' ∈ d.records ∧ r'.id ≠ id :=
    fun r' inside => ⟨mem_of_mem_filter inside, by simpa using (mem_filter.mp inside).2⟩
  have keptFewer : Kept { d with records := d.records.filter fun r => r.id ≠ id } := by
    refine ⟨⟨fun op named => kept.held op (named.imp_left fun recorded => ?_), kept.apart⟩,
      kept.ids.sublist (filter_sublist.map _)⟩
    obtain ⟨r', inside, names⟩ := mem_heldInputs.mp recorded
    exact mem_heldInputs.mpr ⟨r', (fewer r' inside).1, names⟩
  have inRecords : ∀ d'', SameMix { d with records := d.records.filter fun r => r.id ≠ id } d'' →
      ∀ r' ∈ d''.records, r' ∈ d.records ∧ r'.id ≠ id := fun d'' same => by
    rw [same.records]
    exact fewer
  have rows : ∀ d'', SameMix { d with records := d.records.filter fun r => r.id ≠ id } d'' →
      Shrunk d d'' := fun d'' same =>
    ⟨keptFewer.congr same, fun r' inside => (inRecords d'' same r' inside).1, same.seats⟩
  refine ((onlyRows_dropPoolRows r reliable _).mono (fun _ _ same => same) rows).bind
    fun _ d'' same => ?_
  refine .read_bind (.write_bind (.pure ⟨(rows d'' same).kept.mixUnlock fun op names => ?_,
    (rows d'' same).records, same.seats⟩) fun _ => rows d'' same)
  obtain ⟨unseated, others⟩ := alone r member isId op names
  refine ⟨fun recorded => ?_, ?_⟩
  · obtain ⟨r', inside, names'⟩ := mem_heldInputs.mp recorded
    obtain ⟨member', other⟩ := inRecords d'' same r' inside
    exact others r' member' other names'
  · rw [Disk.seatCoins, same.seats]
    exact unseated

theorem Shrunk.trans {d'' : Disk} (first : Shrunk d d') (second : Shrunk d' d'') : Shrunk d d'' :=
  ⟨second.kept, fun r member => first.records r (second.records r member),
    second.seats.trans first.seats⟩

/-- What a settle pass wipes are the records whose duty is to be wiped. -/
theorem mem_settleReport_wiped {records : List StoredRecord} {view : Tier2View}
    {outsideDepth : Txid → Option Nat} {entry : String × String}
    (member : entry ∈ (settleReport P records view outsideDepth).wiped) :
    ∃ r ∈ records, r.id = entry.1 ∧ ∃ why, duty P r view outsideDepth = .ok (.wipe why) := by
  have noted : ∀ entry ∈ (settleReport P records view outsideDepth).wiped, ∃ r ∈ records,
      r.id = entry.1 ∧ ∃ why, duty P r view outsideDepth = .ok (.wipe why) := by
    refine Folds.foldl_invariant (I := fun rep : SettleReport => ∀ entry ∈ rep.wiped, ∃ r ∈ records,
      r.id = entry.1 ∧ ∃ why, duty P r view outsideDepth = .ok (.wipe why))
      (forall_mem_nil _) fun rep r inside earlier => ?_
    cases isDuty : duty P r view outsideDepth with
    | error e => exact earlier
    | ok due =>
      cases due with
      | watch | sendExits txs => exact earlier
      | wipe why =>
        intro entry member
        obtain old | new := mem_append.mp member
        · exact earlier entry old
        · rw [mem_singleton] at new
          exact ⟨r, inside, by rw [new], why, isDuty⟩
  exact noted entry member

theorem settlePass_kept (kept : Kept d) {outsideDepth : Txid → Option Nat}
    (alone : ∀ r ∈ d.records, (∃ why, duty P r d.view outsideDepth = .ok (.wipe why)) →
      Alone d r.id) :
    Ensures reliable (settlePass P outsideDepth) d (fun _ => Kept) Kept := by
  have loop : Ensures reliable ((settleReport P d.records d.view outsideDepth).wiped.forM
      fun entry => do let _ ← recordWipe P entry.1) d (fun _ => Shrunk d) (Shrunk d) := by
    refine .forM (fun entry member d' shrunk => ?_) ⟨kept, fun _ member => member, rfl⟩
    obtain ⟨r, inside, isId, wiped⟩ := mem_settleReport_wiped member
    have alone' := (alone r inside wiped).shrunk shrunk
    rw [isId] at alone'
    refine ((recordWipe_shrunk shrunk.kept alone').mono (fun _ _ more => shrunk.trans more)
      fun _ more => shrunk.trans more).bind fun _ _ more => .pure more
  exact .read_bind ((loop.mono (fun _ _ shrunk => shrunk.kept) fun _ shrunk => shrunk.kept).bind
    fun _ d' kept' => .pure kept')

/-! ## Seats -/

theorem seatNew_kept (kept : Kept d) (seat : Seat) (entropy : BitVec 256) (nowMs : Nat) :
    Ensures reliable (seatNew seatKey seat entropy nowMs) d (fun _ => Kept) Kept := by
  refine .read_bind (.require_bind (fun _ => ?_) fun _ => kept)
  refine .require_bind (fun _ => ?_) fun _ => kept
  refine .require_bind (fun _ => ?_) fun _ => kept
  refine .require_bind (fun free => ?_) fun _ => kept
  refine .lift_bind (fun seatPk _ => ?_) fun _ => kept
  have spec : ∀ coins, Ensures reliable (lock coins nowMs) d
      (fun _ d' => d' = { d with marks := d.marks.mixLock coins nowMs }) fun d' => d' = d :=
    fun coins => .read_bind (.write rfl fun _ => rfl)
  refine ((spec seat.coins).mono (fun _ _ locked => locked) fun _ same => same ▸ kept).bind
    fun _ d' locked => ?_
  subst locked
  refine .write_bind (.pure ?_) fun _ => kept.mixLock seat.coins nowMs
  refine ⟨⟨fun op named => CoinMarks.mem_mixLock.mpr ?_, ?_⟩, kept.ids⟩
  · obtain recorded | seated := named
    · exact .inl (kept.held op (.inl recorded))
    · rw [Disk.seatCoins, flatMap_append, mem_append] at seated
      refine seated.imp (fun old => kept.held op (.inr old)) fun new => ?_
      simpa using new
  · refine pairwise_append.mpr ⟨kept.apart, pairwise_singleton _ _, fun s member s' isNew => ?_⟩
    rw [mem_singleton] at isNew
    subst isNew
    -- a coin of another seat is held, and a held coin was refused
    intro op old new
    have held := kept.held op (.inr (mem_seatCoins.mpr ⟨s, member, old⟩))
    refine free (any_eq_true.mpr ⟨op, new, ?_⟩)
    simpa [CoinMarks.mem_mixLockedSet] using held

theorem seatDrop_kept (kept : Kept d) (seatPk : String) :
    Ensures reliable (seatDrop seatPk) d (fun _ => Kept) Kept := by
  refine .read_bind ?_
  cases found : d.seats.find? fun s => s.seatPk = seatPk with
  | none => exact .pure kept
  | some gone =>
    obtain ⟨isGone, before, later, split, others⟩ := find?_eq_some_iff_append.mp found
    have erased : d.seats.eraseP (fun s => s.seatPk = seatPk) = before ++ later := by
      rw [split, eraseP_append_right _ fun s member => by simpa using others s member,
        eraseP_cons_of_pos (by simpa using isGone)]
    have apart := kept.apart
    rw [split, pairwise_middle fun disjoint => List.Disjoint.symm disjoint] at apart
    obtain ⟨fromGone, apartLeft⟩ := pairwise_cons.mp apart
    have fewer : ∀ op, op ∈ (before ++ later).flatMap Seat.coins → op ∈ d.seatCoins := by
      intro op member
      rw [Disk.seatCoins, split]
      simp only [flatMap_append, flatMap_cons, mem_append] at member ⊢
      exact member.imp_right .inr
    have keptLeft : Kept { d with seats := before ++ later } :=
      ⟨⟨fun op named => kept.held op (named.imp_right (fewer op)), apartLeft⟩, kept.ids⟩
    rw [erased]
    refine .write_bind ?_ fun _ => kept
    refine (unlock_kept keptLeft fun op member seated => ?_).bind fun _ _ kept' => .pure kept'
    obtain ⟨s, inside, names⟩ := mem_flatMap.mp seated
    exact (fromGone s inside member names).elim

/-! ## Every operation and every run -/

theorem exec_kept (kept : Kept d) {op : Op} {outcomes : List (Option String)}
    (careful : Careful P d op outcomes) : Kept (step P seatKey d op outcomes) := by
  have anyway : ∀ {m : Storing Disk Unit}, Ensures False m d (fun _ => Kept) Kept →
      Kept (m.run d outcomes).2 := fun ensures => ensures.run_invariant False.elim
  have ignore : ∀ {α : Type} {m : Storing Disk α}, Ensures False m d (fun _ => Kept) Kept →
      Ensures False (do let _ ← m) d (fun _ => Kept) Kept :=
    fun ensures => ensures.bind fun _ _ kept' => .pure kept'
  rw [step]
  cases op with
  | lock coins nowMs => exact anyway (lock_kept kept coins nowMs)
  | unlock coins => exact anyway (ignore (unlock_kept kept careful))
  | seatNew seat entropy nowMs => exact anyway (ignore (seatNew_kept kept seat entropy nowMs))
  | seatDrop seatPk => exact anyway (ignore (seatDrop_kept kept seatPk))
  | recordSave rec nowMs =>
    obtain lands | already := careful
    · exact (recordSave_kept kept rec nowMs (.inl trivial)).run_invariant fun _ => lands
    · exact anyway (recordSave_kept kept rec nowMs (.inr already))
  | recordWipe id =>
    exact anyway (ignore ((recordWipe_shrunk kept careful).mono (fun _ _ shrunk => shrunk.kept)
      fun _ shrunk => shrunk.kept))
  | settlePass outsideDepth => exact anyway (ignore (settlePass_kept kept careful))
  | reconcile nowMs => exact anyway (.read_bind (ignore (reconcile_kept kept nowMs)))
  | keepOut coins => exact anyway ((onlyRows_dropPoolRowsFor coins).kept kept)
  | ledger view =>
    have ensures : Ensures False (write fun d : Disk => { d with view }) d (fun _ => Kept) Kept :=
      .write (kept.congr ⟨rfl, rfl, rfl⟩) fun _ => kept
    exact anyway ensures
  | send row => exact anyway ((onlyRows_recordPending row).kept kept)
  | forget txid => exact anyway ((onlyRows_removePendingByTxid txid).kept kept)

/-- One careful operation. -/
def CarefulStep (P : Primitives) (seatKey : BitVec 256 → Except String String) (d d' : Disk) :
    Prop :=
  ∃ op outcomes, Careful P d op outcomes ∧ d' = step P seatKey d op outcomes

/-- Whatever the order of the operations and whichever of their writes fail: while none of them
frees a coin that a seat or another record names, promised coins stay held. -/
theorem careful_held (P : Primitives) (seatKey : BitVec 256 → Except String String)
    (start d : Disk) (fresh : Kept start)
    (reached : Relation.ReflTransGen (CarefulStep P seatKey) start d) : Held d := by
  have kept : Kept d := by
    induction reached with
    | refl => exact fresh
    | tail _ one ih =>
      obtain ⟨op, outcomes, careful, rfl⟩ := one
      exact exec_kept ih careful
  exact kept.toHeld

/-! ### A seat whose record is wiped -/

def theCoin : OutPoint := ⟨1, 0⟩

def seatOf (size : Nat) : Seat :=
  ⟨"", 0, "", "provider", "https://lsp.example", size, .chain, [theCoin], [], 0, false⟩

/-- A record as the page's tests write it, without transactions. -/
def bareRecord : StoredRecord :=
  ⟨"attempt", .error "", [], .error "", some 0, [theCoin], 1, none, none, false, none, false⟩

def plainKey (_ : BitVec 256) : Except String String := .ok "seat key"

/-- The operations one after the other, every write landing. -/
def afterOps (ops : List Op) : Disk :=
  ops.foldl (fun d op => step Instance.base plainKey d op []) .empty

/-- A seat takes its coin; a record with another coin is saved and wiped again. -/
def besideSeat : List Op :=
  [.seatNew (seatOf 100000) 7 5, .recordSave { bareRecord with inputs := [⟨2, 0⟩] } 6,
    .recordWipe "attempt"]

theorem careful_held_oneSeat :
    theCoin ∈ (afterOps besideSeat).seatCoins ∧ (⟨2, 0⟩ : OutPoint) ∈
      (afterOps (besideSeat.take 2)).marks.mixLocks ∧
    (⟨2, 0⟩ : OutPoint) ∉ (afterOps besideSeat).marks.mixLocks ∧ Held (afterOps besideSeat) := by
  have alone : Alone (afterOps (besideSeat.take 2)) "attempt" := by
    unfold Alone
    decide +kernel
  refine ⟨by decide +kernel, by decide +kernel, by decide +kernel,
    careful_held Instance.base plainKey .empty _ ?_ ?_⟩
  · exact ⟨⟨fun op named => by simp [Disk.empty, heldInputs, Disk.seatCoins] at named,
      List.Pairwise.nil⟩, nodup_nil⟩
  · have first : CarefulStep Instance.base plainKey .empty (afterOps (besideSeat.take 1)) :=
      ⟨.seatNew (seatOf 100000) 7 5, [], trivial, rfl⟩
    have second : CarefulStep Instance.base plainKey (afterOps (besideSeat.take 1))
        (afterOps (besideSeat.take 2)) := ⟨.recordSave _ 6, [], .inl (by simp [Lands]), rfl⟩
    have third : CarefulStep Instance.base plainKey (afterOps (besideSeat.take 2))
        (afterOps besideSeat) := ⟨.recordWipe "attempt", [], alone, rfl⟩
    exact ((Relation.ReflTransGen.single first).tail second).tail third

/-- A seat takes a coin, an attempt's record with it is saved and wiped again. The seat is in
force and its coin is free, so a second seat takes it as well. -/
theorem wiped_coin_free :
    (let d := afterOps [.seatNew (seatOf 100000) 7 5, .recordSave bareRecord 6,
      .recordWipe "attempt"]
     theCoin ∈ d.seatCoins ∧ theCoin ∉ d.marks.mixLocks) ∧
    (afterOps [.seatNew (seatOf 100000) 7 5, .recordSave bareRecord 6, .recordWipe "attempt",
      .seatNew (seatOf 50000) 8 9]).seats.map Seat.coins = [[theCoin], [theCoin]] := by
  refine ⟨⟨?_, ?_⟩, ?_⟩ <;> decide +kernel

end Lij.Tatara.Store
