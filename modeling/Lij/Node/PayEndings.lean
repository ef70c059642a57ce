import Lij.Node.PayLocks

/-!
# The endings of an on-chain pay

A record ends by a mark, by the node's word on its payments or by the events of
the walk. The marks, the reports and the node's word look at whether the record
is still open; the loop over the walk's events looks once, before it starts. A
list in which one output of the lock's amount was spent with the secret and
another one without it moves the record from one ending to the other.

As long as the spends of each list agree, and a spend by the record's own
release shows the secret, a record that has ended stays as it is and a payment
whose release was seen is not put down as taken back.
-/

namespace Lij.Node.OnchainPay

open Bitcoin Checked Tier2 Folds List

/-! ## The system -/

/-- What changes records once they are quoted. -/
inductive Act where
  | mark (h : Hash) (m : Mark)
  | report (h : Hash) (report : Json.Value)
  | events (events : List HandoverEvent)
  | markReleased (h : Hash) (txid : Txid)
  | markReleasedV2 (h : Hash) (txid : Txid) (txidFast : Option Txid) (tip : Nat)
  | latch (h : Hash) (settled : Bool)

variable (E : Env)

/-- A call that fails changes nothing. -/
def act (recs : Records) : Act → Records
  | .mark h m => (mark recs h m).toOption.getD recs
  | .report h report => (lockReport E recs h report).toOption.getD recs
  | .events events => noteEvents E recs events
  | .markReleased h txid => (markReleased recs h txid).toOption.getD recs
  | .markReleasedV2 h txid txidFast tip =>
    (markReleasedV2 recs h txid txidFast tip).toOption.getD recs
  | .latch h settled => latch recs h settled

/-- The event is a spend of the record's lock. -/
def LockSpend (r : Record) (ev : HandoverEvent) : Prop :=
  ev.index = r.index ∧ ev.valueSats = r.lockSats ∧ ev.spentTxid.isSome = true

/-- By the record's own secret, or by its own release or the release's fast copy. -/
def OwnSpend (r : Record) (ev : HandoverEvent) : Prop :=
  HandoverEvent.released E r.index ev = true ∨ ev.spentTxid = r.releaseTxid ∨
    ev.spentTxid = r.releaseTxidFast

/-- The spends of an open record's lock all show its secret, or none of them is its own. A record
without a lock has no events. -/
def Agrees (recs : Records) : Act → Prop
  | .events events => ∀ (h : Hash) (r : Record), recs[h]? = some r → r.isOpen = true →
      (r.t = none → ∀ ev ∈ events, ev.index ≠ r.index) ∧
      ((∀ ev ∈ events, LockSpend r ev → HandoverEvent.released E r.index ev = true) ∨
        ∀ ev ∈ events, LockSpend r ev → ¬OwnSpend E r ev)
  | _ => True

/-! ## The events of one record -/

variable {E}

/-- The ending the spends of a list give: with the secret or without it. -/
def ending (withSecret : Bool) : State := if withSecret then .done else .takenBack

theorem isOpen_ending (withSecret : Bool) : (ending withSecret).isOpen = false := by
  cases withSecret <;> rfl

variable {r : Record} {ev : HandoverEvent} {withSecret : Bool}

theorem index_sight : (r.sight ev).index = r.index := by
  unfold Record.sight
  split <;> rfl

theorem sight_of_closed (closed : r.isOpen = false) : r.sight ev = r := by
  unfold Record.sight
  rw [if_neg]
  rintro (isLocked | ⟨isSeen, _⟩)
  · simp [Record.isOpen, isLocked, State.isOpen] at closed
  · simp [Record.isOpen, isSeen, State.isOpen] at closed

theorem isOpen_sight (isOpen : r.isOpen = true) : (r.sight ev).isOpen = true := by
  unfold Record.sight
  split
  · rfl
  · exact isOpen

/-- The fields the loop reads do not change in it. -/
theorem noteEvent_reads :
    (noteEvent E r ev).index = r.index ∧ (noteEvent E r ev).lockSats = r.lockSats := by
  unfold noteEvent Record.settle Record.sight
  repeat' split
  all_goals exact ⟨rfl, rfl⟩

/-- A spend ends an open record. -/
theorem state_settle_of_spent {spent : Txid} (isSpent : ev.spentTxid = some spent)
    (agrees : HandoverEvent.released E r.index ev = withSecret) (isOpen : r.isOpen = true) :
    (r.settle E ev).state = ending withSecret := by
  unfold Record.settle
  rw [isSpent]
  dsimp only
  subst agrees
  have notDone : r.state ≠ .done := by
    intro isDone
    simp [Record.isOpen, isDone, State.isOpen] at isOpen
  have notTaken : r.state ≠ .takenBack := by
    intro isTaken
    simp [Record.isOpen, isTaken, State.isOpen] at isOpen
  cases released : HandoverEvent.released E r.index ev with
  | true => simp [notDone, ending]
  | false => simp [notTaken, ending]

/-- In the ending that a spend gives, the spend changes nothing. -/
theorem settle_of_ended (agrees : ∀ spent, ev.spentTxid = some spent →
      HandoverEvent.released E r.index ev = withSecret) (ended : r.state = ending withSecret) :
    r.settle E ev = r := by
  unfold Record.settle
  cases isSpent : ev.spentTxid with
  | none => rfl
  | some spent =>
    have agrees := agrees spent isSpent
    cases withSecret with
    | true | false => simp [agrees, ended, ending]

theorem noteEvent_of_ended
    (agrees : LockSpend r ev → HandoverEvent.released E r.index ev = withSecret)
    (own : ev.index = r.index) (ended : r.state = ending withSecret) : noteEvent E r ev = r := by
  unfold noteEvent
  split
  · rfl
  · rename_i value
    rw [not_not] at value
    have closed : r.isOpen = false := by
      rw [Record.isOpen, ended]
      exact isOpen_ending withSecret
    rw [sight_of_closed closed]
    refine settle_of_ended (fun spent isSpent => ?_) ended
    exact agrees ⟨own, value, by rw [isSpent]; rfl⟩

/-- One event of an open record: it stays open, or it is a spend and ends the record. -/
theorem noteEvent_of_open
    (agrees : LockSpend r ev → HandoverEvent.released E r.index ev = withSecret)
    (own : ev.index = r.index) (isOpen : r.isOpen = true) :
    (LockSpend r ev → (noteEvent E r ev).state = ending withSecret) ∧
      (¬LockSpend r ev → (noteEvent E r ev).isOpen = true) := by
  unfold noteEvent
  split
  · rename_i other
    exact ⟨fun spend => absurd spend.2.1 other, fun _ => isOpen⟩
  · rename_i value
    rw [not_not] at value
    have openSight : (r.sight ev).isOpen = true := isOpen_sight isOpen
    cases isSpent : ev.spentTxid with
    | none =>
      refine ⟨fun spend => ?_, fun _ => ?_⟩
      · have some := spend.2.2
        rw [isSpent] at some
        cases some
      · rw [Record.settle, isSpent]
        exact openSight
    | some spent =>
      have spend : LockSpend r ev := ⟨own, value, by rw [isSpent]; rfl⟩
      refine ⟨fun _ => state_settle_of_spent isSpent ?_ openSight, fun no => absurd spend no⟩
      rw [index_sight]
      exact agrees spend

/-- Events whose spends agree leave a record open or in the one ending they give. -/
theorem foldl_noteEvent {events : List HandoverEvent}
    (agrees : ∀ ev ∈ events, ev.index = r.index ∧
      (LockSpend r ev → HandoverEvent.released E r.index ev = withSecret))
    (state : r.isOpen = true ∨ r.state = ending withSecret) :
    ((events.foldl (noteEvent E) r).isOpen = true ∨
      (events.foldl (noteEvent E) r).state = ending withSecret) ∧
    (r.state = ending withSecret → events.foldl (noteEvent E) r = r) ∧
    ((∃ ev ∈ events, LockSpend r ev) →
      (events.foldl (noteEvent E) r).state = ending withSecret) := by
  induction events generalizing r with
  | nil => exact ⟨state, fun _ => rfl, fun ⟨_, member, _⟩ => (not_mem_nil member).elim⟩
  | cons ev events ih =>
    obtain ⟨own, agree⟩ := agrees ev mem_cons_self
    obtain ⟨index, lockSats⟩ := @noteEvent_reads E r ev
    have spendIff : ∀ e, LockSpend (noteEvent E r ev) e ↔ LockSpend r e := by
      intro e
      unfold LockSpend
      rw [index, lockSats]
    have later : ∀ e ∈ events, e.index = (noteEvent E r ev).index ∧
        (LockSpend (noteEvent E r ev) e →
          HandoverEvent.released E (noteEvent E r ev).index e = withSecret) := by
      intro e member
      rw [spendIff, index]
      exact agrees e (mem_cons_of_mem _ member)
    rw [foldl_cons]
    rcases state with isOpen | ended
    · obtain ⟨spends, stays⟩ := noteEvent_of_open agree own isOpen
      have next : (noteEvent E r ev).isOpen = true ∨
          (noteEvent E r ev).state = ending withSecret := by
        by_cases spend : LockSpend r ev
        · exact .inr (spends spend)
        · exact .inl (stays spend)
      obtain ⟨final, fixed, ends⟩ := ih later next
      refine ⟨final, fun ended => ?_, fun ⟨e, member, spend⟩ => ?_⟩
      · rw [Record.isOpen, ended, isOpen_ending] at isOpen
        cases isOpen
      · rcases mem_cons.mp member with rfl | inRest
        · rw [fixed (spends spend)]
          exact spends spend
        · exact ends ⟨e, inRest, (spendIff e).mpr spend⟩
    · have same := noteEvent_of_ended agree own ended
      rw [same] at later ⊢
      obtain ⟨final, fixed, ends⟩ := ih later (.inr ended)
      refine ⟨final, fixed, fun _ => ?_⟩
      rw [fixed ended]
      exact ended

/-! ## Whole runs -/

variable {recs : Records} {h : Hash}

theorem getElem?_update_fixed {h' : Hash} {change : Record → Except String Record}
    (found : recs[h]? = some r) (fixed : ∀ r', change r = .ok r' → r' = r) :
    ((update recs h' change).toOption.getD recs)[h]? = some r := by
  cases result : update recs h' change with
  | error message => exact found
  | ok recs' =>
    obtain ⟨old, isOld, rest⟩ := bind_eq_ok.mp result
    obtain ⟨new, changed, rest⟩ := bind_eq_ok.mp rest
    cases pure_eq_ok.mp rest
    change (recs.insert h' new)[h]? = some r
    rw [Maps.ext_getElem?_insert]
    split
    · rename_i same
      subst same
      cases Option.some.inj (found.symm.trans (context_eq_ok.mp isOld))
      exact congrArg some (fixed new changed)
    · exact found

/-- No call of the page, the provider or the node changes a record that has ended. -/
theorem act_of_closed (found : recs[h]? = some r) (closed : r.isOpen = false) (a : Act) :
    (act E recs a)[h]? = some r := by
  have notOpen : ∀ s : State, s.isOpen = true → r.state ≠ s := by
    intro s isOpen same
    rw [Record.isOpen, same, isOpen] at closed
    cases closed
  cases a with
  | mark h' m =>
    refine getElem?_update_fixed found fun r' ok => ?_
    cases m with
    | paying a b best =>
      obtain ⟨before, _⟩ := ensure_bind_eq_ok.mp ok
      exact (before.elim (notOpen _ rfl) (notOpen _ rfl)).elim
    | failed reason | returned reason =>
      obtain ⟨isOpen, _⟩ := ensure_bind_eq_ok.mp ok
      cases closed.symm.trans isOpen
  | report h' report =>
    refine getElem?_update_fixed found fun r' ok => ?_
    have past : ¬(r.state = .paying ∨ r.state = .quoted ∨ r.state = .locked) := by
      rintro (now | now | now)
      · exact notOpen _ rfl now
      · exact notOpen _ rfl now
      · exact notOpen _ rfl now
    rw [reportRecord, if_pos past] at ok
    cases ok
    rfl
  | events events =>
    change (recs.map _)[h]? = some r
    rw [Std.ExtTreeMap.getElem?_map, found, Option.map_some, noteRecord, if_neg]
    rw [closed]
    simp
  | markReleased h' txid | markReleasedV2 h' txid txidFast tip =>
    refine getElem?_update_fixed found fun r' ok => ?_
    obtain ⟨before, _⟩ := ensure_bind_eq_ok.mp ok
    exact (before.elim (notOpen _ rfl) (notOpen _ rfl)).elim
  | latch h' settled =>
    change (recs.map _)[h]? = some r
    rw [Std.ExtTreeMap.getElem?_map, found, Option.map_some, latchRecord, if_pos]
    rw [closed]
    simp

theorem foldl_act_of_closed {acts : List Act} (found : recs[h]? = some r)
    (closed : r.isOpen = false) : (acts.foldl (act E) recs)[h]? = some r :=
  foldl_invariant (I := fun recs => recs[h]? = some r) found fun _ a _ found =>
    act_of_closed found closed a

/-- The events of a record's own index. -/
def ownEvents (r : Record) (events : List HandoverEvent) : List HandoverEvent :=
  events.filter fun ev => ev.index = r.index

/-- An open record's events, when their spends agree. -/
theorem ownEvents_agree {events : List HandoverEvent}
    (agrees : (∀ ev ∈ events, LockSpend r ev → HandoverEvent.released E r.index ev = true) ∨
      ∀ ev ∈ events, LockSpend r ev → ¬OwnSpend E r ev) :
    ∃ withSecret, ∀ ev ∈ ownEvents r events, ev.index = r.index ∧
      (LockSpend r ev → HandoverEvent.released E r.index ev = withSecret) := by
  rcases agrees with all | others
  · refine ⟨true, fun ev member => ?_⟩
    obtain ⟨listed, own⟩ := mem_filter.mp member
    exact ⟨of_decide_eq_true own, all ev listed⟩
  · refine ⟨false, fun ev member => ?_⟩
    obtain ⟨listed, own⟩ := mem_filter.mp member
    refine ⟨of_decide_eq_true own, fun spend => ?_⟩
    rw [Bool.eq_false_iff]
    exact fun released => others ev listed spend (.inl released)

/-- What a run keeps of a record `r` in the state it has before the list `events`: no later event
of the list changes an ending, and if the list shows the lock's spend by the record's own secret
or release, the record is not put down as taken back. -/
structure EndsRight (E : Env) (r : Record) (events : List HandoverEvent) (final : Option Record) :
    Prop where
  absorbs : r.isOpen = true → r.t.isSome = true → ∀ first later,
    ownEvents r events = first ++ later → (first.foldl (noteEvent E) r).isOpen = false →
      later.foldl (noteEvent E) (first.foldl (noteEvent E) r) = first.foldl (noteEvent E) r
  verdict : r.state ≠ .takenBack → (∃ ev ∈ events, LockSpend r ev ∧ OwnSpend E r ev) →
    ∀ r' ∈ final, r'.state ≠ .takenBack

/-- Later events of a list whose spends agree leave an ending as it is. -/
theorem absorbs_of_agrees {events first later : List HandoverEvent}
    (agree : ∀ ev ∈ ownEvents r events, ev.index = r.index ∧
      (LockSpend r ev → HandoverEvent.released E r.index ev = withSecret))
    (isOpen : r.isOpen = true) (split : ownEvents r events = first ++ later)
    (closed : (first.foldl (noteEvent E) r).isOpen = false) :
    later.foldl (noteEvent E) (first.foldl (noteEvent E) r) = first.foldl (noteEvent E) r := by
  rw [split] at agree
  obtain ⟨final, _, _⟩ := foldl_noteEvent
    (fun ev member => agree ev (mem_append_left later member)) (.inl isOpen)
  have ended := final.resolve_left (by rw [closed]; simp)
  have reads : (first.foldl (noteEvent E) r).index = r.index ∧
      (first.foldl (noteEvent E) r).lockSats = r.lockSats := by
    refine foldl_invariant
      (I := fun now : Record => now.index = r.index ∧ now.lockSats = r.lockSats)
      ⟨rfl, rfl⟩ fun now ev _ same => ?_
    obtain ⟨index, lockSats⟩ := @noteEvent_reads E now ev
    exact ⟨index.trans same.1, lockSats.trans same.2⟩
  refine (foldl_noteEvent (fun ev member => ?_) (.inr ended)).2.1 ended
  obtain ⟨own, spends⟩ := agree ev (mem_append_right first member)
  rw [reads.1]
  refine ⟨own, fun spend => spends ?_⟩
  unfold LockSpend at spend ⊢
  rwa [reads.1, reads.2] at spend

/-- In every run whose event lists agree, a record that has ended is never changed again, no
event of a list changes an ending an earlier event of it gave, and a record whose lock a walk saw
spent by the record's own secret or release is never put down as taken back. -/
theorem ended_stays_ended {start : Records} {before after : List Act}
    (agrees : Meets (act E) (Agrees E) start (before ++ after))
    (found : (before.foldl (act E) start)[h]? = some r) :
    (r.isOpen = false → ((before ++ after).foldl (act E) start)[h]? = some r) ∧
    ∀ events rest, after = .events events :: rest →
      EndsRight E r events ((before ++ after).foldl (act E) start)[h]? := by
  have closedStays : r.isOpen = false → ((before ++ after).foldl (act E) start)[h]? = some r := by
    intro closed
    rw [foldl_append]
    exact foldl_act_of_closed found closed
  refine ⟨closedStays, fun events rest split => ?_⟩
  subst split
  obtain ⟨_, ⟨here, _⟩⟩ := Meets.append.mp agrees
  have here : ∀ isOpen : r.isOpen = true, _ := here h r found
  constructor
  · intro isOpen _ first later split closed
    obtain ⟨withSecret, agree⟩ := ownEvents_agree (here isOpen).2
    exact absorbs_of_agrees agree isOpen split closed
  · rintro notTaken ⟨ev, member, spend, own⟩ r' final
    cases isOpen : r.isOpen with
    | false =>
      cases Option.some.inj ((closedStays isOpen).symm.trans final)
      exact notTaken
    | true =>
      obtain ⟨locked, agree⟩ := here isOpen
      have set : r.t.isSome = true := by
        rw [Option.isSome_iff_ne_none]
        exact fun unset => locked unset ev member spend.1
      -- one spend is the record's own, so all of them show the secret
      have all := agree.resolve_right fun others => others ev member spend own
      have isDone : (noteRecord E events r).state = .done := by
        have shown : ∀ e ∈ ownEvents r events, e.index = r.index ∧
            (LockSpend r e → HandoverEvent.released E r.index e = true) := by
          intro e inOwn
          obtain ⟨listed, isOwn⟩ := mem_filter.mp inOwn
          exact ⟨of_decide_eq_true isOwn, all e listed⟩
        rw [noteRecord, if_pos ⟨isOpen, set⟩]
        exact (foldl_noteEvent shown (.inl isOpen)).2.2
          ⟨ev, mem_filter.mpr ⟨member, decide_eq_true spend.1⟩, spend⟩
      have next : ((before ++ [Act.events events]).foldl (act E) start)[h]? =
          some (noteRecord E events r) := by
        rw [foldl_append]
        change ((before.foldl (act E) start).map _)[h]? = _
        rw [Std.ExtTreeMap.getElem?_map, found, Option.map_some]
      have stays : ((before ++ .events events :: rest).foldl (act E) start)[h]? =
          some (noteRecord E events r) := by
        rw [append_cons, foldl_append]
        refine foldl_act_of_closed next ?_
        rw [Record.isOpen, isDone]
        rfl
      cases Option.some.inj (stays.symm.trans final)
      rw [isDone]
      simp

/-! ## Two lists of events -/

namespace Sample

/-- The lock of the sample payment, spent with its secret. -/
def spentWithSecret : HandoverEvent :=
  ⟨0, 9, 0, 2000, 1001, some 10, some 1003, some (Bytes.of256 1)⟩

/-- Another output of the lock's amount, spent without it. -/
def spentWithout : HandoverEvent :=
  ⟨0, 11, 0, 2000, 1001, some 12, some 1150, none⟩

end Sample

/-- The steady run has one record, read off one evaluation. -/
theorem steady_record :
    ((Sample.world Sample.steady).recs[(1 : Hash)]?.map fun r => (r.index, r.t)) =
        some (0, some 1144) ∧
      (Sample.world Sample.steady).recs.toList.length = 1 := by
  decide +kernel

/-- The release was seen: the payment is done and stays so when its second payment comes back. -/
theorem ended_stays_ended_one : ∃ r,
    (Sample.world Sample.steady).recs[(1 : Hash)]? = some r ∧
      EndsRight Sample.env r [Sample.spentWithSecret]
        ([Act.events [Sample.spentWithSecret], .latch 1 false].foldl (act Sample.env)
          (Sample.world Sample.steady).recs)[(1 : Hash)]? := by
  obtain ⟨recorded, one⟩ := steady_record
  obtain ⟨r, found, fields⟩ := Option.map_eq_some_iff.mp recorded
  have record := Prod.mk.inj fields
  have only : ∀ (h : Hash) (r' : Record), (Sample.world Sample.steady).recs[h]? = some r' →
      r' = r := by
    intro h r' found'
    have listed := Std.ExtTreeMap.mem_toList_iff_getElem?_eq_some.mpr found'
    have listedR := Std.ExtTreeMap.mem_toList_iff_getElem?_eq_some.mpr found
    obtain ⟨entry, single⟩ := length_eq_one_iff.mp one
    rw [single, mem_singleton] at listed listedR
    exact (Prod.mk.inj (listed.trans listedR.symm)).2
  have run : Meets (act Sample.env) (Agrees Sample.env) (Sample.world Sample.steady).recs
      ([] ++ [Act.events [Sample.spentWithSecret], .latch 1 false]) := by
    refine ⟨fun h r' found' _ => ?_, trivial, trivial⟩
    cases only h r' found'
    refine ⟨fun unset => ?_, .inl fun ev member _ => ?_⟩
    · cases record.2.symm.trans unset
    · cases mem_singleton.mp member
      rw [record.1]
      decide
  exact ⟨r, found, (ended_stays_ended run found).2 _ _ rfl⟩

/-- One list with both spends: the first event ends the record as done, the second one puts it
down as taken back. -/
theorem second_event_changes_ending :
    ((noteEvents Sample.env (Sample.world Sample.steady).recs
      [Sample.spentWithSecret])[(1 : Hash)]?.map Record.state) = some .done ∧
    ((noteEvents Sample.env (Sample.world Sample.steady).recs
      [Sample.spentWithSecret, Sample.spentWithout])[(1 : Hash)]?.map Record.state) =
        some .takenBack := by
  decide +kernel

end Lij.Node.OnchainPay
