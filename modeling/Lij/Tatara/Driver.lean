import Lij.Tatara.Holds
import Lij.Tatara.PhoneInstance
import Lij.Tatara.PhoneSteps

/-!
# The phone and its storage

After every call of the page, a record the phone asks for is written before the
phone is told it is saved, and a stop before this phone's signature wipes it
again. The funding signature goes out only over a record on the disk, whichever
writes fail. A stop leaves no record behind as long as no save of a record fails
at its last write, the hold of its coins: the record is then on the disk and the
phone was never told.
-/

namespace Lij.Tatara.Store

open Bitcoin Joinstr Checked Tier2 Storing Fallible List

variable {P : Primitives} {d d' : Disk} {reliable : Prop}

/-! ## Saving and wiping one record -/

/-- The pending rows a save writes. -/
def rowWrites (r : StoredRecord) : Nat :=
  match r.funding, r.myExit, r.exits with
  | .ok _, .ok _, .ok _ => if r.channel then 1 else 2
  | _, _, _ => 0

/-- The hold of the coins is written, or a write of the save before it fails. -/
def Whole (r : StoredRecord) (outcomes : List (Option String)) : Prop :=
  (∀ i ≤ rowWrites r, outcomes[i]?.join = none) → outcomes[rowWrites r + 1]?.join = none

theorem recordPending_makes {p : PendingTx} : Makes 1 (recordPending p) d
    (fun _ d' => d'.records = d.records) fun d' => d'.records = d.records :=
  .read_bind (.write rfl rfl)

theorem poolRows_makes {r : StoredRecord} {nowMs : Nat} : Makes (rowWrites r) (poolRows P r nowMs) d
    (fun _ d' => d'.records = d.records) fun d' => d'.records = d.records := by
  refine .read_bind ?_
  rw [rowWrites]
  cases r.funding with
  | error => exact .pure rfl
  | ok funding =>
    cases r.myExit with
    | error => exact .pure rfl
    | ok exit =>
      cases r.exits with
      | error => exact .pure rfl
      | ok exits =>
        cases r.channel with
        | true => exact recordPending_makes.bind fun _ d' same => .pure same
        | false =>
          have both : Makes (1 + 1) (do
              recordPending (fundingRow P r funding d.view nowMs)
              recordPending (exitRow P exit.1 exit.2 nowMs)) d
              (fun _ d' => d'.records = d.records) fun d' => d'.records = d.records := by
            refine recordPending_makes.bind fun _ d' same => ?_
            rw [← same]
            exact recordPending_makes
          exact both

/-- A save that fails without having written the hold has not written the record either. -/
theorem records_of_whole {r : StoredRecord} {nowMs : Nat} {outcomes : List (Option String)}
    {message : String} {w : Writing Disk} (whole : Whole r outcomes)
    (failed : (recordSave P r nowMs).exec ⟨d, outcomes⟩ = (.error message, w)) :
    w.disk.records = d.records := by
  have before : Makes (rowWrites r + 1) (do poolRows P r nowMs; put r) d (fun _ _ => True)
      fun d' => d'.records = d.records := by
    refine poolRows_makes.bind fun _ d' same => ?_
    rw [← same]
    exact .read_bind (.write trivial rfl)
  have made := before outcomes
  have split : recordSave P r nowMs = (do (do poolRows P r nowMs; put r); lock r.inputs nowMs) := by
    rw [recordSave, bind_assoc]
  rw [split, exec_bind] at failed
  match (do poolRows P r nowMs; put r : Storing Disk Unit).exec ⟨d, outcomes⟩, made, failed with
  | (.error _, _), same, failed =>
    cases failed
    exact same
  | (.ok _, ⟨d', left⟩), ⟨isLeft, landed, _⟩, failed =>
    have lands : left.head?.join = none := by
      rw [show left = outcomes.drop (rowWrites r + 1) from isLeft, head?_drop]
      exact whole fun i inside => landed i (by omega)
    match left, lands, failed with
    | [], _, failed => cases failed
    | none :: rest, _, failed => cases failed

/-- The record stands alone under its id and its coins are held; a failed save may have written
it or not. -/
theorem recordSave_spec {r : StoredRecord} {nowMs : Nat} :
    Ensures reliable (recordSave P r nowMs) d
      (fun _ d' => d'.records = d.records.filter (fun r' => r'.id ≠ r.id) ++ [r] ∧
        ∀ op, op ∈ d.marks.mixLocks ∨ op ∈ r.inputs → op ∈ d'.marks.mixLocks)
      (fun d' => d'.records = d.records ∨
        d'.records = d.records.filter (fun r' => r'.id ≠ r.id) ++ [r]) := by
  refine ((onlyRows_poolRows r nowMs reliable d).mono (fun _ _ same => same)
    fun _ same => .inl same.records).bind fun _ d' same => ?_
  refine ((put_spec r).mono (fun _ _ put => put) fun _ isSame => .inl (isSame ▸ same.records)).bind
    fun _ d'' put => ?_
  subst put
  rw [← same.records, ← same.marks]
  exact .read_bind (.write ⟨rfl, fun op => CoinMarks.mem_mixLock.mpr⟩ fun _ => .inr rfl)

theorem forall_mem_eraseP {records : List StoredRecord} {id : String}
    (one : (records.filter fun r => r.id = id).length ≤ 1) :
    ∀ r ∈ records.eraseP (fun r => r.id = id), r.id ≠ id := by
  induction records with
  | nil => exact forall_mem_nil _
  | cons r records ih =>
    by_cases same : r.id = id
    · rw [filter_cons_of_pos (by simpa using same), length_cons] at one
      rw [eraseP_cons_of_pos (by simpa using same)]
      have none_ : records.filter (fun r => r.id = id) = [] :=
        length_eq_zero_iff.mp (by omega)
      intro r' member
      simpa using filter_eq_nil_iff.mp none_ r' member
    · rw [filter_cons_of_neg (by simpa using same)] at one
      rw [eraseP_cons_of_neg (by simpa using same)]
      exact forall_mem_cons.mpr ⟨same, ih one⟩

/-- A wipe leaves no record with the id, or has not begun. -/
theorem recordWipe_spec {id : String} (one : (d.records.filter fun r => r.id = id).length ≤ 1) :
    Ensures reliable (recordWipe P id) d (fun _ d' => ∀ r ∈ d'.records, r.id ≠ id)
      (fun d' => d'.records = d.records ∨ ∀ r ∈ d'.records, r.id ≠ id) := by
  have wiped : Ensures reliable (wipe id) d (fun _ d' => ∀ r ∈ d'.records, r.id ≠ id)
      (fun d' => d'.records = d.records ∨ ∀ r ∈ d'.records, r.id ≠ id) := by
    refine .read_bind ?_
    cases found : d.records.find? fun r => r.id = id with
    | none =>
      refine .pure fun r member => ?_
      simpa using find?_eq_none.mp found r member
    | some gone => exact .write_bind (.pure (forall_mem_eraseP one)) fun _ => .inl rfl
  refine wiped.bind fun gone d' none_ => ?_
  cases gone with
  | none => exact .pure none_
  | some r =>
    refine ((onlyRows_dropPoolRows r reliable d').mono (fun _ _ same => same)
      fun _ same => .inr (same.records ▸ none_)).bind fun _ d'' same => ?_
    rw [← same.records] at none_
    exact .read_bind (.write_bind (.pure none_) fun _ => .inr none_)

end Lij.Tatara.Store

namespace Lij.Tatara.Phone

open Bitcoin Joinstr Checked Storing Fallible Store List

variable {P : Primitives}

/-! ## After every call -/

section

variable (W : Radio P)

/-- A record asked for is written before the phone is told it is saved; three rounds at most. -/
def saveRounds (now : Nat) : Nat → Out → Bool → Storing (Phone P × Disk) (Out × Bool)
  | 0, out, dirty => return ({ out with save := none }, dirty)
  | rounds + 1, out, dirty =>
    match out.save with
    | none => return (out, dirty)
    | some rec => do
      let s ← Storing.read
      onDisk (recordSave P { rec with isPublic := s.1.isPublic }
        (Word.saturatingMul64 now 1000))
      let o2 ← inMemory (onRecordSaved W now)
      saveRounds now rounds (Out.merge { out with save := none } o2) true

/-- A stop before this phone's signature wipes its record. -/
def wipeStopped (saved : Out × Bool) : Storing (Phone P × Disk) (Out × Bool) :=
  if (saved.1.stopped.map Stop.wipeRecord).getD false then do
    let s ← Storing.read
    let wiped ← onDisk (recordWipe P s.1.poolId)
    return (saved.1, saved.2 || wiped)
  else return saved

def after (out : Out) (now : Nat) : Storing (Phone P × Disk) (Out × Bool) := do
  let saved ← saveRounds W now 3 out false
  wipeStopped saved

/-- One call of the page with its saves. -/
def step (c : Call) (now : Nat) : Storing (Phone P × Disk) (Out × Bool) := do
  let out ← inMemory (call W now c)
  after W out now

end

/-- Opened with the pool's key, the event is a member's funding signatures. -/
def CarriesFundingSigs (W : Radio P) (p : Phone P) (e : Wire.Event) : Prop :=
  ∃ sender json seen, (Wire.openEvent W.toNostr p.poolSk p.poolX e).exec [] =
    (.ok (some (sender, json)), seen) ∧ P.kindOf json = some .fundingSigs

/-- The record of the transactions this phone signs is on the disk, and its coins are held. -/
def OnDisk (p : Phone P) (d : Disk) : Prop :=
  ∃ built, p.machine.built = some built ∧ ∃ r ∈ d.records, r.id = p.poolId ∧
    r.fundingHex = .ok built.funding ∧ r.exitsHex = built.exits.map .ok ∧
    r.inputs = p.machine.me.coins.map Prod.fst ∧ ∀ op ∈ r.inputs, op ∈ d.marks.mixLocks

/-- What the rest of the wallet does to the storage: this attempt's record and the holds stay. -/
structure Elsewhere (id : String) (d d' : Disk) : Prop where
  records : d'.records.filter (fun r => r.id = id) = d.records.filter fun r => r.id = id
  holds : ∀ op ∈ d.marks.mixLocks, op ∈ d'.marks.mixLocks

/-- A call whose record, if it asks for one, is saved whole or not at all. -/
def SavesWhole (W : Radio P) (p : Phone P) (c : Call) (now : Nat)
    (outcomes : List (Option String)) : Prop :=
  ∀ out p', (call W now c).exec p = (.ok out, p') → ∀ rec, out.save = some rec →
    Whole rec outcomes

/-- The sessions reached from a start by the page's calls, whichever of their writes fail, while
the rest of the wallet uses the storage too. In a careful run every record is saved whole or not
at all. -/
inductive Reached (W : Radio P) (careful : Prop) (start : Phone P × Disk) :
    Phone P × Disk → Prop
  | refl : Reached W careful start start
  | step {s : Phone P × Disk} (reached : Reached W careful start s) (c : Call) (now : Nat)
      (outcomes : List (Option String)) (whole : careful → SavesWhole W s.1 c now outcomes) :
      Reached W careful start ((Phone.step W c now).run s outcomes).2
  | elsewhere {p : Phone P} {d d' : Disk} (reached : Reached W careful start (p, d))
      (others : Elsewhere p.poolId d d') : Reached W careful start (p, d')

/-! ## The invariant -/

/-- The phone, its machine and the disk agree on the record. -/
structure Tracked (W : Radio P) (careful : Prop) (p : Phone P) (d : Disk) : Prop where
  id : p.machine.id = p.poolId
  key : p.poolX = Wire.keyHex (W.xonly p.poolSk)
  signed : p.signed = true → p.machine.phase = .fundingSigned
  early : Attempt.rank p.machine.phase < 5 → p.recordSaved = false
  flag : p.machine.recordSaved = true → p.recordSaved = true
  onDisk : p.recordSaved = true →
    Attempt.rank p.machine.phase = 5 ∨ Attempt.rank p.machine.phase = 6 → OnDisk p d
  one : (d.records.filter fun r => r.id = p.poolId).length ≤ 1
  gone : careful → p.recordSaved = false → ∀ r ∈ d.records, r.id ≠ p.poolId

variable {W : Radio P} {careful : Prop} {p p' : Phone P} {d d' : Disk} {now : Nat}

theorem OnDisk.congr (onDisk : OnDisk p d) (poolId : p'.poolId = p.poolId)
    (built : p'.machine.built = p.machine.built)
    (coins : p'.machine.me.coins = p.machine.me.coins) : OnDisk p' d := by
  obtain ⟨txs, isBuilt, r, member, isId, rest⟩ := onDisk
  exact ⟨txs, built.trans isBuilt, r, member, isId.trans poolId.symm, coins ▸ rest⟩

theorem Tracked.aside (tracked : Tracked W careful p d) (aside : Aside p p') :
    Tracked W careful p' d where
  id := by rw [aside.machine, aside.poolId]; exact tracked.id
  key := by rw [aside.poolX, aside.poolSk]; exact tracked.key
  signed := by rw [aside.machine, aside.signed]; exact tracked.signed
  early := by rw [aside.machine, aside.recordSaved]; exact tracked.early
  flag := by rw [aside.machine, aside.recordSaved]; exact tracked.flag
  onDisk := by
    rw [aside.machine, aside.recordSaved]
    intro saved phase
    exact (tracked.onDisk saved phase).congr aside.poolId (by rw [aside.machine])
      (by rw [aside.machine])
  one := by rw [aside.poolId]; exact tracked.one
  gone := by rw [aside.poolId, aside.recordSaved]; exact tracked.gone

theorem Tracked.elsewhere (tracked : Tracked W careful p d) (others : Elsewhere p.poolId d d') :
    Tracked W careful p d' where
  __ := tracked
  onDisk := fun saved phase => by
    obtain ⟨built, isBuilt, r, member, isId, funding, exits, inputs, held⟩ :=
      tracked.onDisk saved phase
    have inFilter : r ∈ d'.records.filter fun r => r.id = p.poolId := by
      rw [others.records]
      exact mem_filter.mpr ⟨member, by simpa using isId⟩
    exact ⟨built, isBuilt, r, mem_of_mem_filter inFilter, isId, funding, exits, inputs,
      fun op names => others.holds op (held op names)⟩
  one := by rw [others.records]; exact tracked.one
  gone := fun safe unsaved => by
    have none_ : d.records.filter (fun r => r.id = p.poolId) = [] := by
      rw [filter_eq_nil_iff]
      intro r member
      simpa using tracked.gone safe unsaved r member
    rw [← others.records, filter_eq_nil_iff] at none_
    intro r member
    simpa using none_ r member

/-! ## The machine's answers -/

/-- The machine's part of the phone after an answer. -/
theorem Tracked.heard (tracked : Tracked W careful p d) {input : Input P}
    {acts : List (Action P)} {b : Attempt P} (heard : Attempt.Heard input p.machine acts b)
    (acted : Acted acts { p with machine := b } p')
    (told : input = .recordSaved → p.recordSaved = true) : Tracked W careful p' d := by
  have saved : p'.recordSaved = p.recordSaved := acted.recordSaved
  have isB : p'.machine = b := acted.machine
  have poolId : p'.poolId = p.poolId := acted.poolId
  have key : p'.poolX = Wire.keyHex (W.xonly p'.poolSk) := by
    rw [acted.poolX, acted.poolSk]
    exact tracked.key
  have one : (d.records.filter fun r => r.id = p'.poolId).length ≤ 1 := poolId ▸ tracked.one
  have gone : careful → p'.recordSaved = false → ∀ r ∈ d.records, r.id ≠ p'.poolId := by
    rw [poolId, saved]
    exact tracked.gone
  have flag {b : Attempt P} (carried : Attempt.Carried input p.machine b) :
      b.recordSaved = true → p.recordSaved = true := fun now =>
    (carried.saved now).elim tracked.flag fun answer => told answer.1
  cases heard with
  | setup carried plain phase =>
    have before : p'.signed = true → p.signed = true := fun now =>
      (acted.signed now).resolve_right fun inside => plain _ inside
    refine ⟨by rw [isB, carried.id, tracked.id, poolId], key, fun now => ?_, fun low => ?_,
      by rw [isB, saved]; exact flag carried, fun isSaved late => ?_, one, gone⟩
    · have was := tracked.signed (before now)
      rw [isB]
      obtain same | ⟨low, _⟩ := phase
      · rw [same, was]
      · rw [was] at low
        exact absurd low (by decide)
    · rw [saved]
      rw [isB] at low
      obtain same | ⟨low', _⟩ := phase
      · exact tracked.early (same ▸ low)
      · exact tracked.early low'
    · rw [isB] at late
      obtain same | ⟨_, low⟩ := phase
      · rw [same] at late
        exact (tracked.onDisk (saved ▸ isSaved) late).congr poolId
          (by rw [isB, carried.built late]) (by rw [isB, carried.coins])
      · omega
  | @stopped mid carried live reason named =>
    have unsigned : p'.signed ≠ true := fun now => by
      obtain before | inside := acted.signed now
      · exact live.2 (tracked.signed before)
      · obtain abort | stop := mem_append.mp inside
        · split at abort
          · cases mem_singleton.mp abort
          · cases abort
        · cases mem_singleton.mp stop
    have top : Attempt.rank p'.machine.phase = 7 := by rw [isB]; rfl
    exact ⟨by rw [isB, poolId]; exact carried.id.trans tracked.id, key,
      fun now => absurd now unsigned, fun low => absurd low (by omega),
      fun now => saved ▸ flag carried (by rw [isB] at now; exact now),
      fun _ late => absurd late (by omega), one, gone⟩
  | recordGiven carried before after built isBuilt _ _ _ _ payout coins =>
    have unsaved : p.recordSaved = false := tracked.early (by rw [before]; decide)
    have unsigned : p'.signed ≠ true := fun now => by
      obtain was | inside := acted.signed now
      · rw [tracked.signed was] at before
        cases before
      · simp at inside
    refine ⟨by rw [isB, carried.id, tracked.id, poolId], key, fun now => absurd now unsigned,
      fun low => ?_, by rw [isB, saved]; exact flag carried, fun isSaved => ?_, one, gone⟩
    · rw [isB, after] at low
      exact absurd low (by decide)
    · rw [saved, unsaved] at isSaved
      cases isSaved
  | funded carried before after isSaved witnesses =>
    refine ⟨by rw [isB, carried.id, tracked.id, poolId], key, fun _ => by rw [isB, after],
      fun low => ?_, by rw [isB, saved]; exact flag carried, fun isSaved _ => ?_, one, gone⟩
    · rw [isB, after] at low
      exact absurd low (by decide)
    · have phase : Attempt.rank p.machine.phase = 5 := by rw [before]; rfl
      exact (tracked.onDisk (saved ▸ isSaved) (.inl phase)).congr poolId
        (by rw [isB, carried.built (.inl phase)]) (by rw [isB, carried.coins])

/-- An event that opens as funding signatures was sealed as such. -/
theorem kind_of_carries {author : SecretKey} {toPk : String} {json : P.Text} {sealedAt : Nat}
    {iv : Bytes} {e : Wire.Event} (key : p.poolX = Wire.keyHex (W.xonly p.poolSk))
    (isSealed : Wire.sealEvent W.toNostr author toPk json sealedAt iv = .ok e)
    (carries : CarriesFundingSigs W p e) : P.kindOf json = some .fundingSigs := by
  obtain ⟨sender, json', seen, opened, isKind⟩ := carries
  obtain ⟨checked, read⟩ := Wire.openEvent_eq_some opened
  have isPool := Wire.tag_of_sealEvent isSealed checked
  rw [isPool, key] at isSealed
  rw [← (Wire.readEvent_sealEvent isSealed read).2]
  exact isKind

/-- The record asked for is that of the transactions in the machine's hand. -/
def Matches (p : Phone P) (rec : StoredRecord) : Prop :=
  rec.id = p.poolId ∧ ∃ built, p.machine.built = some built ∧
    rec.fundingHex = .ok built.funding ∧ rec.exitsHex = built.exits.map .ok ∧
    rec.inputs = p.machine.me.coins.map Prod.fst

/-- The phone between a call and its saves, with what the page is told. -/
structure Mid (W : Radio P) (careful : Prop) (p : Phone P) (d : Disk) (out : Out) : Prop where
  tracked : Tracked W careful p d
  save : ∀ rec, out.save = some rec → p.machine.phase = .funding ∧ p.recordSaved = false ∧
    Matches p rec ∧ out.stopped = none
  stop : ∀ stop, out.stopped = some stop →
    p.machine.phase = .stopped ∧ stop.wipeRecord = p.recordSaved
  relay : ∀ e ∈ out.relay, CarriesFundingSigs W p e →
    p.machine.phase = .fundingSigned ∧ OnDisk p d

/-- Which of the machine's answers give out a record, a stop or a funding signature. -/
theorem mid_of_heard (tracked : Tracked W careful p d) {input : Input P}
    {acts : List (Action P)} {b : Attempt P} {out : Out}
    (heard : Attempt.Heard input p.machine acts b)
    (acted : Acted acts { p with machine := b } p') (told : Told W acts p now out)
    (isTold : input = .recordSaved → p.recordSaved = true) : Mid W careful p' d out := by
  have tracked' := tracked.heard heard acted isTold
  have isB : p'.machine = b := acted.machine
  -- a funding signature on the relay is one the machine posted
  have posted : ∀ e ∈ out.relay, CarriesFundingSigs W p' e →
      ∃ json, .post json ∈ acts ∧ P.kindOf json = some .fundingSigs := by
    intro e member carries
    obtain ⟨json, iv, inside, isSealed⟩ := told.relay e member
    exact ⟨json, inside, kind_of_carries tracked'.key isSealed carries⟩
  cases heard with
  | setup carried plain phase =>
    refine ⟨tracked', fun rec isSave => ?_, fun stop isStop => ?_, fun e member carries => ?_⟩
    · obtain ⟨r, inside, _⟩ := told.save rec isSave
      exact absurd inside (plain _)
    · obtain ⟨⟨reason, named, inside⟩, _⟩ := told.stopped stop isStop
      exact absurd inside (plain _)
    · obtain ⟨json, inside, isKind⟩ := posted e member carries
      exact absurd isKind (plain _ inside)
  | @stopped mid carried live reason named =>
    have unsigned : p.signed = false := by
      cases isSigned : p.signed with
      | true => exact absurd (tracked.signed isSigned) live.2
      | false => rfl
    have cases_ : ∀ {act : Action P}, act ∈ mid.stopActions reason named →
        act = post (.abort "stopped") ∨ act = .stopped reason named := by
      intro act inside
      obtain abort | stop := mem_append.mp inside
      · split at abort
        · exact .inl (mem_singleton.mp abort)
        · cases abort
      · exact .inr (mem_singleton.mp stop)
    refine ⟨tracked', fun rec isSave => ?_, fun stop isStop => ⟨by rw [isB]; rfl, ?_⟩,
      fun e member carries => ?_⟩
    · obtain ⟨r, inside, _⟩ := told.save rec isSave
      obtain same | same := cases_ inside <;> cases same
    · have quiet : Action.fundingSigned ∉ mid.stopActions reason named := fun inside => by
        obtain same | same := cases_ inside <;> cases same
      rw [(told.stopped stop isStop).2 quiet, unsigned, acted.recordSaved]
      exact Bool.and_true _
    · obtain ⟨json, inside, isKind⟩ := posted e member carries
      obtain same | same := cases_ inside
      · rw [Action.post.inj same, P.kindOf_envelopeJson] at isKind
        cases isKind
      · cases same
  | recordGiven carried before after built isBuilt _ _ _ _ payout coins =>
    refine ⟨tracked', fun rec isSave => ⟨by rw [isB, after], ?_, ?_, ?_⟩, fun stop isStop => ?_,
      fun e member carries => ?_⟩
    · rw [acted.recordSaved]
      exact tracked.early (by rw [before]; decide)
    · obtain ⟨r, inside, isRec⟩ := told.save rec isSave
      have isR : r = b.record built payout := by simpa using inside
      rw [isRec, isR]
      refine ⟨?_, built, by rw [isB, isBuilt], rfl, rfl, by rw [isB]; rfl⟩
      rw [← tracked'.id, isB]
      rfl
    · cases isStop : out.stopped with
      | none => rfl
      | some stop =>
        obtain ⟨⟨reason, named, inside⟩, _⟩ := told.stopped stop isStop
        simp at inside
    · obtain ⟨⟨reason, named, inside⟩, _⟩ := told.stopped stop isStop
      simp at inside
    · obtain ⟨json, inside, _⟩ := posted e member carries
      simp at inside
  | funded carried before after isSaved witnesses =>
    have onDisk : OnDisk p' d := by
      refine tracked'.onDisk ?_ (.inr (by rw [isB, after]; rfl))
      exact tracked'.flag (by rw [isB]; exact isSaved)
    refine ⟨tracked', fun rec isSave => ?_, fun stop isStop => ?_,
      fun e member carries => ⟨by rw [isB, after], onDisk⟩⟩
    · obtain ⟨r, inside, _⟩ := told.save rec isSave
      simp [post] at inside
    · obtain ⟨⟨reason, named, inside⟩, _⟩ := told.stopped stop isStop
      simp [post] at inside

/-! ## Calls -/

theorem CarriesFundingSigs.congr {e : Wire.Event} (carries : CarriesFundingSigs W p' e)
    (poolSk : p'.poolSk = p.poolSk) (poolX : p'.poolX = p.poolX) : CarriesFundingSigs W p e := by
  rw [CarriesFundingSigs, poolSk, poolX] at carries
  exact carries

theorem Mid.aside {out : Out} (mid : Mid W careful p d out) (aside : Aside p p')
    (c : Option Complete) : Mid W careful p' d { out with complete := c } where
  tracked := mid.tracked.aside aside
  save := fun rec isSave => by
    obtain ⟨phase, unsaved, ⟨isId, built, rest⟩, running⟩ := mid.save rec isSave
    rw [aside.machine, aside.recordSaved]
    exact ⟨phase, unsaved, ⟨isId.trans aside.poolId.symm, built, by rwa [aside.machine]⟩, running⟩
  stop := by rw [aside.machine, aside.recordSaved]; exact mid.stop
  relay := fun e member carries => by
    obtain ⟨phase, onDisk⟩ := mid.relay e member (carries.congr aside.poolSk aside.poolX)
    exact ⟨aside.machine ▸ phase, onDisk.congr aside.poolId (by rw [aside.machine])
      (by rw [aside.machine])⟩

theorem onMachine_mid (tracked : Tracked W careful p d) {input : Input P}
    (isTold : input = .recordSaved → p.recordSaved = true) :
    Ends (onMachine W input now) p
      (fun out p' => Mid W careful p' d out ∧ p'.recordSaved = p.recordSaved ∧
        p'.poolSk = p.poolSk ∧ p'.poolX = p.poolX)
      fun p' => Tracked W careful p' d := by
  have heard := Attempt.on_heard p.machine input
  refine onMachine_spec.mono (fun out p' both => ?_)
    fun p' acted => tracked.heard heard acted isTold
  obtain ⟨acted, told⟩ := both
  exact ⟨mid_of_heard tracked heard acted told isTold, acted.recordSaved, acted.poolSk, acted.poolX⟩

/-- A call of the page leaves the phone ready for its saves. -/
theorem call_mid (tracked : Tracked W careful p d) (c : Call) :
    Ends (call W now c) p (fun out p' => Mid W careful p' d out)
      fun p' => Tracked W careful p' d := by
  refine call_ends ⟨fun p' out aside idle => ?_, fun p' aside => tracked.aside aside,
    fun p' input aside other => ?_, fun p' p'' out c mid aside => mid.aside aside (some c)⟩ c
  · refine ⟨tracked.aside aside, fun rec isSave => ?_, fun stop isStop => ?_,
      fun e member carries => ?_⟩
    · rw [idle.save] at isSave
      cases isSave
    · rw [idle.stopped] at isStop
      cases isStop
    · obtain ⟨toPk, msg, sealedAt, iv, otherKind, isSealed⟩ := (idle.relay e member).sealed
      have isKind := kind_of_carries tracked.key isSealed
        (carries.congr aside.poolSk aside.poolX)
      rw [P.kindOf_envelopeJson, Option.some.injEq] at isKind
      exact absurd isKind otherKind
  · exact (onMachine_mid (tracked.aside aside) fun same => absurd same other).mono
      (fun _ _ both => both.1) fun _ tracked => tracked

/-! ## The saves of a call -/

/-- What holds when a step has been carried out. -/
structure Carried (W : Radio P) (careful : Prop) (out : Out) (s : Phone P × Disk) : Prop where
  tracked : Tracked W careful s.1 s.2
  written : ∀ e ∈ out.relay, CarriesFundingSigs W s.1 e → OnDisk s.1 s.2
  wiped : careful → ∀ stop, out.stopped = some stop → ∀ r ∈ s.2.records, r.id ≠ s.1.poolId

theorem filter_eq_nil {records : List StoredRecord} {id : String}
    (none_ : ∀ r ∈ records, r.id ≠ id) : records.filter (fun r => r.id = id) = [] := by
  rw [filter_eq_nil_iff]
  intro r member
  simpa using none_ r member

/-- Once the attempt stopped, its saved record may go. -/
theorem Tracked.stopped (tracked : Tracked W careful p d) (phase : p.machine.phase = .stopped)
    (saved : p.recordSaved = true)
    (records : d'.records = d.records ∨ ∀ r ∈ d'.records, r.id ≠ p.poolId) :
    Tracked W careful p d' where
  __ := tracked
  onDisk := fun _ late => by
    rw [phase] at late
    exact absurd late (by decide)
  one := by
    obtain same | none_ := records
    · rw [same]
      exact tracked.one
    · rw [filter_eq_nil none_]
      exact Nat.zero_le 1
  gone := fun _ unsaved => by
    rw [saved] at unsaved
    cases unsaved

theorem wipeStopped_spec {reliable : Prop} {saved : Out × Bool}
    (mid : Mid W careful p d saved.1) :
    Ensures reliable (wipeStopped saved) (p, d) (fun result s => Carried W careful result.1 s)
      fun s => Tracked W careful s.1 s.2 := by
  refine .ite (fun wipes => ?_) fun keeps => .pure ⟨mid.tracked, fun e member carries =>
    (mid.relay e member carries).2, fun safe stop isStop => ?_⟩
  · obtain ⟨stop, isStop, isWipe⟩ : ∃ stop, saved.1.stopped = some stop ∧
        stop.wipeRecord = true := by
      cases isStop : saved.1.stopped with
      | none =>
        rw [isStop] at wipes
        cases wipes
      | some stop =>
        rw [isStop] at wipes
        exact ⟨stop, rfl, wipes⟩
    obtain ⟨phase, isSaved⟩ := mid.stop stop isStop
    have isSaved : p.recordSaved = true := isSaved.symm.trans isWipe
    have wiping : Ensures reliable (onDisk (recordWipe P p.poolId)) (p, d) _ _ :=
      (recordWipe_spec mid.tracked.one).onDisk
    refine .read_bind ((wiping.mono (fun _ _ both => both) fun s both => ?_).bind
      fun wiped s both => .pure ?_)
    · obtain ⟨records, isP⟩ := both
      rw [isP]
      exact mid.tracked.stopped phase isSaved records
    · obtain ⟨none_, isP⟩ := both
      refine ⟨?_, fun e member carries => ?_, fun _ _ _ => by rw [isP]; exact none_⟩
      · rw [isP]
        exact mid.tracked.stopped phase isSaved (.inr none_)
      · rw [isP] at carries
        have signed := (mid.relay e member carries).1
        rw [phase] at signed
        cases signed
  · obtain ⟨_, isSaved⟩ := mid.stop stop isStop
    rw [isStop] at keeps
    have unsaved : p.recordSaved = false := by
      rw [← isSaved]
      exact Bool.not_eq_true _ ▸ keeps
    exact mid.tracked.gone safe unsaved

/-- With nothing to save, only a stop is carried out. -/
theorem after_of_save_none {out : Out} (nothing : out.save = none) :
    after W out now = wipeStopped (out, false) := by
  rw [after, saveRounds, nothing, pure_bind]

/-- One record under the id after it was put. -/
theorem length_filter_put (records : List StoredRecord) (rec : StoredRecord) :
    ((records.filter (fun r => r.id ≠ rec.id) ++ [rec]).filter
      fun r => r.id = rec.id).length ≤ 1 := by
  have others : (records.filter fun r => r.id ≠ rec.id).filter (fun r => r.id = rec.id) = [] :=
    filter_eq_nil fun r member => by simpa using (mem_filter.mp member).2
  rw [filter_append, others, nil_append]
  exact length_filter_le _ [rec]

/-- The session with the record written and the phone told. -/
theorem Tracked.saved (tracked : Tracked W careful p d) {rec : StoredRecord}
    (phase : p.machine.phase = .funding) (isMatch : Matches p rec)
    (records : d'.records = d.records.filter (fun r => r.id ≠ rec.id) ++ [rec])
    (held : ∀ op ∈ rec.inputs, op ∈ d'.marks.mixLocks) :
    Tracked W careful { p with recordSaved := true } d' where
  __ := tracked
  early := fun low => by
    rw [show p.machine.phase = .funding from phase] at low
    exact absurd low (by decide)
  flag := fun _ => rfl
  onDisk := fun _ _ => by
    obtain ⟨isId, built, isBuilt, funding, exits, inputs⟩ := isMatch
    refine ⟨built, isBuilt, rec, ?_, isId, funding, exits, inputs, held⟩
    rw [records]
    exact mem_append_right _ mem_cons_self
  one := by
    change (d'.records.filter fun r => r.id = p.poolId).length ≤ 1
    rw [records, ← isMatch.1]
    exact length_filter_put d.records rec
  gone := fun _ unsaved => by cases unsaved

/-- A save that failed: the phone is not told, and the record may be on the disk or not. -/
theorem Tracked.unsaved (tracked : Tracked W careful p d) (unsaved : p.recordSaved = false)
    {rec : StoredRecord} (isId : rec.id = p.poolId)
    (records : d'.records = d.records ∨
      d'.records = d.records.filter (fun r => r.id ≠ rec.id) ++ [rec])
    (whole : careful → d'.records = d.records) : Tracked W careful p d' where
  __ := tracked
  onDisk := fun saved => by
    rw [unsaved] at saved
    cases saved
  one := by
    obtain same | put := records
    · rw [same]
      exact tracked.one
    · rw [put, ← isId]
      exact length_filter_put d.records rec
  gone := fun safe _ => by
    rw [whole safe]
    exact tracked.gone safe unsaved

/-- The phone told that its record is saved: what it answers joins what was to be done. -/
theorem merged_mid {out o2 : Out} {told : Phone P} (mid : Mid W careful p d out)
    (phase : p.machine.phase = .funding) (running : out.stopped = none)
    (mid' : Mid W careful told d' o2) (saved : told.recordSaved = true)
    (poolSk : told.poolSk = p.poolSk) (poolX : told.poolX = p.poolX) :
    (Out.merge { out with save := none } o2).save = none ∧
      Mid W careful told d' (Out.merge { out with save := none } o2) := by
  have nothing : o2.save = none := by
    cases isSave : o2.save with
    | none => rfl
    | some rec =>
      obtain ⟨_, unsaved, _⟩ := mid'.save rec isSave
      rw [saved] at unsaved
      cases unsaved
  have none_ : (Out.merge { out with save := none } o2).save = none := by
    rw [Out.merge, nothing]
    rfl
  refine ⟨none_, mid'.tracked, fun rec isSave => ?_, fun stop isStop => ?_,
    fun e member carries => ?_⟩
  · rw [none_] at isSave
    cases isSave
  · have isO2 : o2.stopped.or out.stopped = some stop := isStop
    rw [running, Option.or_none] at isO2
    exact mid'.stop stop isO2
  · obtain first | second := mem_append.mp member
    · obtain ⟨signed, _⟩ := mid.relay e first (carries.congr poolSk poolX)
      rw [phase] at signed
      cases signed
    · exact mid'.relay e second carries

/-- The saves of a call, whichever writes fail. -/
theorem after_carried {out : Out} {outcomes : List (Option String)} (mid : Mid W careful p d out)
    (whole : careful → ∀ rec, out.save = some rec → Whole rec outcomes) :
    Met False (fun result s => Carried W careful result.1 s) (fun s => Tracked W careful s.1 s.2)
      ((after W out now).exec ⟨(p, d), outcomes⟩) := by
  cases isSave : out.save with
  | none =>
    rw [after_of_save_none isSave]
    exact wipeStopped_spec mid outcomes False.elim
  | some rec =>
    obtain ⟨phase, unsaved, isMatch, running⟩ := mid.save rec isSave
    have rest : ∀ d', Tracked W careful { p with recordSaved := true } d' →
        Ensures False (do
          let o2 ← inMemory (onRecordSaved W now)
          let saved ← saveRounds W now 2 (Out.merge { out with save := none } o2) true
          wipeStopped saved) (p, d') (fun result s => Carried W careful result.1 s)
          fun s => Tracked W careful s.1 s.2 := by
      intro d' tracked
      have telling : Ends (onRecordSaved W now) p
          (fun o2 p' => Mid W careful p' d' o2 ∧ p'.recordSaved = true ∧
            p'.poolSk = p.poolSk ∧ p'.poolX = p.poolX)
          fun p' => Tracked W careful p' d' := .modify_bind (onMachine_mid tracked fun _ => rfl)
      refine ((Ensures.inMemory telling).mono (fun _ _ both => both)
          fun s both => both.2 ▸ both.1).bind
        fun o2 s both => ?_
      obtain ⟨told, _⟩ := s
      obtain ⟨⟨mid', saved, poolSk, poolX⟩, rfl⟩ := both
      obtain ⟨none_, merged⟩ := merged_mid mid phase running mid' saved poolSk poolX
      rw [saveRounds, none_, pure_bind]
      exact wipeStopped_spec merged
    have unfolded : after W out now = (do
        let s ← Storing.read
        onDisk (recordSave P { rec with isPublic := s.1.isPublic }
          (Word.saturatingMul64 now 1000))
        let o2 ← inMemory (onRecordSaved W now)
        let saved ← saveRounds W now 2 (Out.merge { out with save := none } o2) true
        wipeStopped saved) := by
      rw [after, saveRounds, isSave]
      simp only [bind_assoc]
    let save := recordSave P { rec with isPublic := p.isPublic } (Word.saturatingMul64 now 1000)
    have saves : Ensures False save d _ _ := recordSave_spec
    have saving := saves outcomes False.elim
    rw [unfolded]
    change Met _ _ _ (exec (onDisk save >>= _) ⟨(p, d), outcomes⟩)
    rw [exec_bind, exec_onDisk]
    match result : save.exec ⟨d, outcomes⟩, saving with
    | (.ok _, w), ⟨_, records, held⟩ =>
      have isMatch' : Matches p { rec with isPublic := p.isPublic } := isMatch
      have tracked := mid.tracked.saved phase isMatch' records fun op names =>
        held op (.inr names)
      exact rest w.disk tracked w.outcomes False.elim
    | (.error _, w), records =>
      have isId : ({ rec with isPublic := p.isPublic } : StoredRecord).id = p.poolId := isMatch.1
      refine mid.tracked.unsaved unsaved isId records fun safe => ?_
      have whole' : Whole { rec with isPublic := p.isPublic } outcomes := whole safe rec isSave
      exact records_of_whole whole' result

/-- One step of the session. -/
theorem step_carried {outcomes : List (Option String)} (tracked : Tracked W careful p d) (c : Call)
    (whole : careful → SavesWhole W p c now outcomes) :
    Met False (fun result s => Carried W careful result.1 s) (fun s => Tracked W careful s.1 s.2)
      ((step W c now).exec ⟨(p, d), outcomes⟩) := by
  have called : Ends (call W now c) p _ _ := call_mid tracked c
  rw [step, exec_bind, exec_inMemory]
  cases result : (call W now c).exec p with
  | mk outcome p' =>
    cases outcome with
    | ok out =>
      exact after_carried (called.of_exec result)
        fun safe rec isSave => whole safe out p' result rec isSave
    | error message => exact called.of_exec_error result

theorem tracked_of_reached {start s : Phone P × Disk} (begun : Tracked W careful start.1 start.2)
    (reached : Reached W careful start s) : Tracked W careful s.1 s.2 := by
  induction reached with
  | refl => exact begun
  | @step s _ c now outcomes whole ih =>
    have met := step_carried ih c whole
    rw [run]
    cases result : (step W c now).exec ⟨s, outcomes⟩ with
    | mk outcome w =>
      rw [result] at met
      cases outcome with
      | ok answer => exact met.2.tracked
      | error message => exact met
  | elsewhere _ others ih => exact ih.elsewhere others

/-! ## Joining -/

/-- A phone that just joined, on a disk without a record of its pool. -/
theorem tracked_start {c : Common} {params : Params} {timeout : Nat} {poolSk : SecretKey}
    {out : Out} (begun : start W c params timeout poolSk = .ok (p, out))
    (fresh : ∀ r ∈ d.records, r.id ≠ params.id) (creator : Bool) :
    Tracked W careful { p with creator } d := by
  have joined := start_begun begun
  have none_ : ∀ r ∈ d.records, r.id ≠ p.poolId := joined.poolId ▸ fresh
  exact {
    id := joined.id.trans joined.poolId.symm
    key := joined.key
    signed := fun signed => by cases joined.unsigned.symm.trans signed
    early := fun _ => joined.unsaved
    flag := fun saved => by cases joined.unnoted.symm.trans saved
    onDisk := fun saved => by cases joined.unsaved.symm.trans saved
    one := by
      change (d.records.filter fun r => r.id = p.poolId).length ≤ 1
      rw [filter_eq_nil none_]
      exact Nat.zero_le 1
    gone := fun _ _ => none_ }

/-- The record is on the disk before the signature leaves, and gone after a stop. -/
theorem record_before_signature (P : Primitives) (W : Radio P) (c : Common) (params : Params)
    (timeout : Nat) (poolSk : SecretKey) (creator : Bool) (p : Phone P) (first : Out) (d : Disk)
    (begun : start W c params timeout poolSk = .ok (p, first))
    (fresh : ∀ r ∈ d.records, r.id ≠ params.id) :
    (∀ s, Reached W False ({ p with creator }, d) s →
      ∀ call now outcomes out dirty s', (step W call now).run s outcomes = (.ok (out, dirty), s') →
        ∀ e ∈ out.relay, CarriesFundingSigs W s'.1 e → OnDisk s'.1 s'.2) ∧
    ∀ s, Reached W True ({ p with creator }, d) s →
      ∀ call now outcomes out dirty s', SavesWhole W s.1 call now outcomes →
        (step W call now).run s outcomes = (.ok (out, dirty), s') →
        out.stopped.isSome → ∀ r ∈ s'.2.records, r.id ≠ s'.1.poolId := by
  have carried : ∀ {careful : Prop} {s : Phone P × Disk} {call : Call} {now : Nat}
      {outcomes : List (Option String)} {out : Out} {dirty : Bool} {s' : Phone P × Disk},
      Reached W careful ({ p with creator }, d) s →
      (careful → SavesWhole W s.1 call now outcomes) →
      (step W call now).run s outcomes = (.ok (out, dirty), s') → Carried W careful out s' := by
    intro careful s call now outcomes out dirty s' reached whole returned
    have tracked := tracked_of_reached (tracked_start begun fresh creator) reached
    have met := step_carried tracked call whole
    obtain ⟨isOk, isState⟩ := Prod.mk.inj returned
    cases result : (step W call now).exec ⟨s, outcomes⟩ with
    | mk outcome w =>
      rw [result] at met isOk isState
      cases isOk
      exact isState ▸ met.2
  refine ⟨fun s reached call now outcomes out dirty s' returned => ?_,
    fun s reached call now outcomes out dirty s' whole returned stopped => ?_⟩
  · exact (carried reached False.elim returned).written
  · obtain ⟨stop, isStop⟩ := Option.isSome_iff_exists.mp stopped
    exact (carried reached (fun _ => whole) returned).wiped trivial stop isStop

/-! ### Phone 1 among three -/

section Sample

open PhoneInstance

def phone1 : Phone Instance.primitives × Out :=
  PhoneInstance.joined.toOption.getD (fresh radio common 7 1 begun, .default)

theorem joined_phone1 : PhoneInstance.joined = .ok phone1 := by
  have ok : PhoneInstance.joined.isOk = true := by decide +kernel
  exact eq_ok_of_isOk ok _

attribute [irreducible] phone1

theorem started_phone1 : start radio common Instance.params 0 7 = .ok (phone1.1, phone1.2) :=
  joined_phone1

/-- Where phone 1's sessions start. -/
def phone1Start : Phone Instance.primitives × Disk := ({ phone1.1 with creator := false }, .empty)

/-- Calls one after the other, each with the writes of it that fail. -/
@[irreducible]
def session (calls : List Call) (now : Nat) (outcomes : List (Option String)) :
    Phone Instance.primitives × Disk :=
  calls.foldl (fun s c => ((step radio c now).run s outcomes).2) phone1Start

theorem reached_session {careful : Prop} (calls : List Call) (now : Nat)
    (outcomes : List (Option String)) (whole : careful → ∀ p c, SavesWhole radio p c now outcomes) :
    Reached radio careful phone1Start (session calls now outcomes) := by
  have steps : ∀ (calls : List Call) (s : Phone Instance.primitives × Disk),
      Reached radio careful phone1Start s → Reached radio careful phone1Start
        (calls.foldl (fun s c => ((step radio c now).run s outcomes).2) s) := by
    intro calls
    induction calls with
    | nil => exact fun s reached => reached
    | cons c calls ih =>
      exact fun s reached => ih _ (reached.step c now outcomes fun isCareful => whole isCareful _ c)
  rw [session]
  exact steps calls _ .refl

/-- The record is saved and the phone's own coin checked again. -/
@[irreducible]
def signing : Except String (Out × Bool) × Phone Instance.primitives × Disk :=
  (step radio (.coinResult (Txid.text 1) 0 (some true)) 1).run (session untilRecord 1 []) []

/-- Does the event open as funding signatures? -/
def opensAsFundingSigs (e : Wire.Event) : Bool :=
  match (Wire.openEvent radio.toNostr signing.2.1.poolSk signing.2.1.poolX e).exec [] with
  | (.ok (some (_, json)), _) => Instance.primitives.kindOf json == some .fundingSigs
  | _ => false

theorem carries_of_opens {e : Wire.Event} (opens : opensAsFundingSigs e = true) :
    CarriesFundingSigs radio signing.2.1 e := by
  rw [opensAsFundingSigs] at opens
  split at opens
  · rename_i sender json seen opened
    exact ⟨sender, json, seen, opened, eq_of_beq opens⟩
  · cases opens

/-- The setup times out after every partial signature is in. -/
@[irreducible]
def stopping (outcomes : List (Option String)) :
    Except String (Out × Bool) × Phone Instance.primitives × Disk :=
  (step radio .tick 400).run ((step radio .tick 200).run (session untilRecord 1 outcomes) []).2 []

theorem savesWhole_landing (p : Phone Instance.primitives) (c : Call) (now : Nat) :
    SavesWhole radio p c now [] := fun _ _ _ _ _ _ => rfl

/-- Phone 1's signature leaves over a record on its disk; and when it stops before it signs, the
record it had saved is gone. -/
theorem record_before_signature_phone1 :
    ((∃ out dirty, signing.1 = .ok (out, dirty) ∧
      ∃ e ∈ out.relay, CarriesFundingSigs radio signing.2.1 e) ∧
    OnDisk signing.2.1 signing.2.2) ∧
    (session untilRecord 1 []).2.records.length = 1 ∧
    ((stopping []).1.toOption.map fun result => result.1.stopped.isSome) = some true ∧
    ∀ r ∈ (stopping []).2.2.records, r.id ≠ (stopping []).2.1.poolId := by
  obtain ⟨written, wiped⟩ := record_before_signature _ radio common Instance.params 0 7 false
    phone1.1 phone1.2 .empty started_phone1 (forall_mem_nil _)
  refine ⟨?_, by decide +kernel, ?_⟩
  · have signs : (match signing.1 with
        | .ok (out, _) => out.relay.any opensAsFundingSigs
        | .error _ => false) = true := by decide +kernel
    have safe := written (session untilRecord 1 []) (reached_session untilRecord 1 [] False.elim)
    split at signs
    · rename_i out dirty isOk
      obtain ⟨e, member, opens⟩ := any_eq_true.mp signs
      have carries := carries_of_opens opens
      refine ⟨⟨out, dirty, isOk, e, member, carries⟩, ?_⟩
      refine safe (.coinResult (Txid.text 1) 0 (some true)) 1 [] out dirty signing.2 ?_ e member
        carries
      rw [← isOk, signing]
    · cases signs
  · have stops : ((stopping []).1.toOption.map fun result => result.1.stopped.isSome) =
        some true := by decide +kernel
    have reached := (@reached_session True untilRecord 1 []
      fun _ p c => savesWhole_landing p c 1).step .tick 200 [] fun _ => savesWhole_landing _ _ _
    refine ⟨stops, ?_⟩
    obtain ⟨⟨out, dirty⟩, isOk, stopped⟩ := Option.map_eq_some_iff.mp stops
    refine wiped _ reached .tick 400 [] out dirty (stopping []).2 (savesWhole_landing _ _ _) ?_
      stopped
    rw [← toOption_eq_some.mp isOk, stopping]

/-- Every save of phone 1 fails at the hold, which is its fourth write. -/
def unheld : List (Option String) := [none, none, none, some "quota exceeded"]

/-- The stop is carried out, this phone never signed, and its record is still there. -/
theorem stopped_record_left :
    ((stopping unheld).1.toOption.map fun result => result.1.stopped.isSome) = some true ∧
    (stopping unheld).2.1.signed = false ∧
    (stopping unheld).2.2.records.map StoredRecord.id = [(stopping unheld).2.1.poolId] := by
  decide +kernel

end Sample

end Lij.Tatara.Phone
