import Lij.Foundation.Folds

/-!
# The dirty flag and the uploads

Most changes of the state raise the dirty flag. A backup tick takes the flag,
prepares a copy of the state and uploads it; the upload is answered, refused or
fails, and a failure raises the flag again. A refusal is shown as a conflict and
stops the ticks. The flag has a mirror in storage, written when the flag rises and
deleted when it is taken, from which a reload starts; the first session of a new
wallet has a flag without a mirror. Some of what a copy holds is written without
raising the flag.

A state is the number of changes made so far, and a copy is the state it was
prepared from. The flag, the conflict and the uploads waiting for their answers
belong to the page and are gone after a reload; a request on its way still reaches
the worker.

`Covered` is what must never fail: a change that the cloud's copy lacks is marked,
on its way or shown as a conflict. Every upload seals its copy anew, so the worker
decides by the number alone.
-/

namespace Lij.Backup

open Folds List

/-- The flag in memory and the mark in storage, which it mirrors when it is attached to it. -/
structure DirtyFlag where
  flag : Bool
  mirror : Bool
  attached : Bool
  deriving DecidableEq, Repr

namespace DirtyFlag

/-- A flag with no mirror. -/
def new (value : Bool) : DirtyFlag := ⟨value, false, false⟩

/-- The flag starts as the mirror says, and lowered when the mirror cannot be read. -/
def withStorage (mirror read : Bool) : DirtyFlag := ⟨mirror && read, mirror, true⟩

/-- The mirror is written on an edge; the write may fail. -/
def mirrorWrite (d : DirtyFlag) (was now written : Bool) : DirtyFlag :=
  if was = now then d else if d.attached && written then { d with mirror := now } else d

def store (d : DirtyFlag) (value written : Bool) : DirtyFlag :=
  mirrorWrite { d with flag := value } d.flag value written

/-- Take the flag: what it was, and the flag afterwards. -/
def swap (d : DirtyFlag) (value written : Bool) : Bool × DirtyFlag :=
  (d.flag, d.store value written)

theorem store_flag (d : DirtyFlag) (value written : Bool) :
    (d.store value written).flag = value := by
  rw [store, mirrorWrite]
  split
  · rfl
  · split <;> rfl

/-- A raised flag has its mirror if it is attached to one and the write lands. -/
theorem store_raised {d : DirtyFlag} (mirrored : d.attached → d.flag → d.mirror)
    (attached : (d.store true true).attached) : (d.store true true).mirror := by
  rw [store, mirrorWrite] at attached ⊢
  split at attached
  · next raised =>
    rw [if_pos raised]
    exact mirrored attached raised
  · next lowered =>
    rw [if_neg lowered]
    split
    · rfl
    · next apart => simp_all

end DirtyFlag

inductive Stage
  | sent
  | accepted
  | refused (existing : Nat)
  deriving DecidableEq, Repr

structure Push where
  /-- Sent by a tick; a manual push does not take the flag. -/
  background : Bool
  version : Nat
  content : Nat
  stage : Stage
  deriving DecidableEq, Repr

structure Uploads where
  changes : Nat
  dirty : DirtyFlag
  /-- The number the phone holds. -/
  version : Nat
  conflict : Nat
  /-- The page's pushes that wait for their answers. -/
  pushes : List Push
  /-- Requests on their way whose answer no page waits for. -/
  orphans : List Push
  cloudVersion : Nat
  cloudContent : Nat
  deriving DecidableEq, Repr

/-- A `Bool` says whether a storage write landed, of a tick whether the copy was prepared, and of a
reload whether the mirror was read. -/
inductive UploadEvent
  /-- A change, and whether its writer raises the flag. -/
  | change (raised mirrored : Bool)
  /-- `maybe_backup` up to the request. -/
  | tick (prepared deleted : Bool)
  /-- `backup_now` up to the request. -/
  | manual
  /-- The worker handles a request. -/
  | handled (push : Push)
  | orphanHandled (push : Push)
  /-- The page reads the answer. -/
  | answered (push : Push) (committed : Bool)
  /-- The upload ends in an error that is no refusal. -/
  | failed (push : Push) (mirrored : Bool)
  | reload (read : Bool)
  deriving DecidableEq, Repr

namespace Uploads

/-- The first session of a wallet: a new one's flag has no mirror. -/
def fresh (isNew : Bool) : Uploads :=
  ⟨0, if isNew then .new false else .withStorage false true, 0, 0, [], [], 0, 0⟩

/-- A copy of the state with the next number. -/
def request (s : Uploads) (background : Bool) : Push :=
  ⟨background, s.version + 1, s.changes, .sent⟩

def accepts (s : Uploads) (push : Push) : Bool := s.cloudVersion < push.version

/-- The push as the worker answers it. -/
def answer (s : Uploads) (push : Push) : Push :=
  { push with stage := if s.accepts push then .accepted else .refused s.cloudVersion }

/-- The cloud after the worker has handled the push. -/
def stored (s : Uploads) (push : Push) : Uploads :=
  { s with
    cloudVersion := if s.accepts push then push.version else s.cloudVersion
    cloudContent := if s.accepts push then push.content else s.cloudContent }

def step (s : Uploads) : UploadEvent → Uploads
  | .change raised mirrored =>
    { s with
      changes := s.changes + 1
      dirty := if raised then s.dirty.store true mirrored else s.dirty }
  | .tick prepared deleted =>
    if s.conflict > 0 then s
    else
      let taken := s.dirty.swap false deleted
      -- the flag is taken before the copy is prepared
      let s := { s with dirty := taken.2 }
      if taken.1 && prepared then { s with pushes := s.request true :: s.pushes } else s
  | .manual => { s with pushes := s.request false :: s.pushes }
  | .handled push =>
    if push ∈ s.pushes ∧ push.stage = .sent then
      { s.stored push with pushes := s.answer push :: s.pushes.erase push }
    else s
  | .orphanHandled push =>
    if push ∈ s.orphans then { s.stored push with orphans := s.orphans.erase push } else s
  | .answered push committed =>
    if push ∈ s.pushes then
      match push.stage with
      | .sent => s
      | .accepted =>
        { s with
          pushes := s.pushes.erase push
          version := if committed then max s.version push.version else s.version
          conflict := 0 }
      | .refused existing => { s with pushes := s.pushes.erase push, conflict := existing }
    else s
  | .failed push mirrored =>
    if push ∈ s.pushes then
      { s with
        pushes := s.pushes.erase push
        orphans := if push.stage = .sent then push :: s.orphans else s.orphans
        dirty := if push.background then s.dirty.store true mirrored else s.dirty }
    else s
  | .reload read =>
    { s with
      dirty := .withStorage s.dirty.mirror read
      conflict := 0
      pushes := []
      orphans := s.pushes.filter (fun push => push.stage = .sent) ++ s.orphans }

def run (isNew : Bool) (events : List UploadEvent) : Uploads := events.foldl step (fresh isNew)

/-- A change the cloud's copy lacks is marked, on its way or shown as a conflict. -/
def Covered (s : Uploads) : Prop :=
  s.cloudContent < s.changes →
    s.dirty.flag ∨ (∃ push ∈ s.pushes, push.content = s.changes) ∨ 0 < s.conflict

/-- Every change raises the flag, the mirror's writes land, a taken flag gets its copy, and the
page is not left, nor its conflict cleared by another push's answer, while the last change depends
on it. -/
def Careful (s : Uploads) : UploadEvent → Prop
  | .change raised mirrored => raised ∧ mirrored
  | .tick prepared _ => s.dirty.flag → s.conflict = 0 → prepared
  | .answered push _ => push.stage = .accepted → s.conflict = 0 ∨ push.content = s.changes
  | .failed push mirrored => push.background → mirrored
  | .reload read => s.dirty.attached ∧ s.dirty.flag ∧ read ∨
      s.dirty.flag = false ∧ s.conflict = 0 ∧ ∀ push ∈ s.pushes, push.background = false
  | _ => True

/-! ## The invariant -/

/-- A request that may still reach the worker. -/
def Travels (s : Uploads) (push : Push) : Prop :=
  (push ∈ s.pushes ∧ push.stage = .sent) ∨ push ∈ s.orphans

/-- The cloud and the requests on their way: a higher number never carries an older state. -/
structure Ordered (s : Uploads) : Prop where
  cloud : s.cloudContent ≤ s.changes
  numbered : ∀ push, s.Travels push → 0 < push.version ∧ push.version ≤ s.version + 1
  taken : ∀ push, s.Travels push → push.content ≤ s.changes
  ordered : ∀ push later, s.Travels push → s.Travels later → push.version < later.version →
    push.content ≤ later.content
  newer : ∀ push, s.Travels push → s.cloudVersion < push.version → s.cloudContent ≤ push.content

namespace Ordered

variable {s : Uploads}

theorem mono (ordered : s.Ordered) {s' : Uploads}
    (fewer : ∀ push, s'.Travels push → s.Travels push)
    (version : s.version ≤ s'.version := by exact Nat.le_refl _)
    (changes : s.changes ≤ s'.changes := by exact Nat.le_refl _)
    (sameVersion : s'.cloudVersion = s.cloudVersion := by rfl)
    (sameContent : s'.cloudContent = s.cloudContent := by rfl) : s'.Ordered where
  cloud := by
    rw [sameContent]
    exact Nat.le_trans ordered.cloud changes
  numbered push travels := by
    obtain ⟨positive, bound⟩ := ordered.numbered push (fewer push travels)
    exact ⟨positive, by omega⟩
  taken push travels := Nat.le_trans (ordered.taken push (fewer push travels)) changes
  ordered push later travels travels' :=
    ordered.ordered push later (fewer push travels) (fewer later travels')
  newer push travels := by
    rw [sameVersion, sameContent]
    exact ordered.newer push (fewer push travels)

/-- A new request has the highest number and the last state. -/
theorem request (ordered : s.Ordered) (background : Bool) :
    ({ s with pushes := s.request background :: s.pushes } : Uploads).Ordered := by
  have travels : ∀ push, ({ s with pushes := s.request background :: s.pushes } : Uploads).Travels
      push → push = s.request background ∨ s.Travels push := by
    rintro push (⟨member, sent⟩ | orphan)
    · obtain same | before := mem_cons.mp member
      · exact .inl same
      · exact .inr (.inl ⟨before, sent⟩)
    · exact .inr (.inr orphan)
  refine ⟨ordered.cloud, ?_, ?_, ?_, ?_⟩
  · intro push here
    obtain rfl | before := travels push here
    · exact ⟨Nat.succ_pos _, Nat.le_refl _⟩
    · exact ordered.numbered push before
  · intro push here
    obtain rfl | before := travels push here
    · exact Nat.le_refl _
    · exact ordered.taken push before
  · intro push later here there below
    obtain rfl | before := travels later there
    · obtain rfl | before' := travels push here
      · exact Nat.le_refl _
      · exact ordered.taken push before'
    · obtain rfl | before' := travels push here
      · have bound := (ordered.numbered later before).2
        change s.version + 1 < later.version at below
        omega
      · exact ordered.ordered push later before' before below
  · intro push here above
    obtain rfl | before := travels push here
    · exact ordered.cloud
    · exact ordered.newer push before above

/-- The cloud's state does not go back. -/
theorem le_stored (ordered : s.Ordered) {push : Push} (travels : s.Travels push) :
    s.cloudContent ≤ (s.stored push).cloudContent := by
  change _ ≤ if s.accepts push then push.content else s.cloudContent
  split
  · rename_i above
    exact ordered.newer push travels (of_decide_eq_true above)
  · exact Nat.le_refl _

theorem stored (ordered : s.Ordered) {push : Push} (travels : s.Travels push) :
    (s.stored push).Ordered := by
  refine ⟨?_, ordered.numbered, ordered.taken, ordered.ordered, ?_⟩
  · change (if s.accepts push then push.content else s.cloudContent) ≤ s.changes
    split
    · exact ordered.taken push travels
    · exact ordered.cloud
  · intro later there above
    change (if s.accepts push then push.version else s.cloudVersion) < later.version at above
    change (if s.accepts push then push.content else s.cloudContent) ≤ later.content
    split at above
    · rename_i accepted
      rw [if_pos accepted]
      exact ordered.ordered push later travels there above
    · rename_i refused
      rw [if_neg refused]
      exact ordered.newer later there above

end Ordered

structure Inv (s : Uploads) : Prop where
  requests : s.Ordered
  /-- Only a tick's push may carry the last change alone: a failed manual push marks nothing. -/
  covered : s.cloudContent < s.changes →
    s.dirty.flag ∨ (∃ push ∈ s.pushes, push.background ∧ push.content = s.changes) ∨ 0 < s.conflict
  mirrored : s.dirty.attached → s.dirty.flag → s.dirty.mirror
  answered : ∀ push ∈ s.pushes, push.stage = .accepted → push.content ≤ s.cloudContent
  refused : ∀ push ∈ s.pushes, ∀ existing, push.stage = .refused existing → 0 < existing

namespace Inv

variable {s : Uploads} {push : Push}

theorem covers (inv : s.Inv) : s.Covered := fun lacks =>
  (inv.covered lacks).imp_right
    (Or.imp_left fun ⟨push, member, _, carries⟩ => ⟨push, member, carries⟩)

theorem change (inv : s.Inv) : (s.step (.change true true)).Inv where
  requests := inv.requests.mono (fun _ travels => travels) (Nat.le_refl _) (Nat.le_succ _)
  covered _ := .inl (DirtyFlag.store_flag _ _ _)
  mirrored attached _ := DirtyFlag.store_raised inv.mirrored attached
  __ := inv

/-- A request of the page joins its pushes. -/
theorem request (inv : s.Inv) (background : Bool) :
    ({ s with pushes := s.request background :: s.pushes } : Uploads).Inv where
  requests := inv.requests.request background
  covered lacks := (inv.covered lacks).imp_right
    (Or.imp_left fun ⟨push, member, carries⟩ => ⟨push, mem_cons_of_mem _ member, carries⟩)
  mirrored := inv.mirrored
  answered push member stage := by
    obtain rfl | before := mem_cons.mp member
    · cases stage
    · exact inv.answered push before stage
  refused push member existing stage := by
    obtain rfl | before := mem_cons.mp member
    · cases stage
    · exact inv.refused push before existing stage

/-- A tick takes the flag and sends the state it stood for. -/
theorem tick (inv : s.Inv) {dirty : DirtyFlag} (taken : dirty.flag = false) :
    ({ s with dirty := dirty, pushes := s.request true :: s.pushes } : Uploads).Inv where
  requests := (inv.requests.request true).mono fun _ travels => travels
  covered _ := .inr (.inl ⟨s.request true, mem_cons_self, rfl, rfl⟩)
  mirrored _ flag := by
    rw [taken] at flag
    cases flag
  answered := (inv.request true).answered
  refused := (inv.request true).refused

/-- A tick that finds the flag down leaves it down. -/
theorem idle (inv : s.Inv) (lowered : s.dirty.flag = false) {dirty : DirtyFlag}
    (still : dirty.flag = false) : ({ s with dirty := dirty } : Uploads).Inv where
  requests := inv.requests.mono fun _ travels => travels
  covered lacks := by
    obtain flag | carried := inv.covered lacks
    · rw [lowered] at flag
      cases flag
    · exact .inr carried
  mirrored _ flag := by
    rw [still] at flag
    cases flag
  __ := inv

/-- A push other than the one that is taken out still carries the change. -/
theorem carried_erase (other : ∀ q ∈ s.pushes, q.background → q.content = s.changes → q ≠ push)
    (carried : ∃ q ∈ s.pushes, q.background ∧ q.content = s.changes) :
    ∃ q ∈ s.pushes.erase push, q.background ∧ q.content = s.changes := by
  obtain ⟨q, member, background, carries⟩ := carried
  refine ⟨q, ?_, background, carries⟩
  exact (mem_erase_of_ne (other q member background carries)).mpr member

theorem handled (inv : s.Inv) (member : push ∈ s.pushes) (sent : push.stage = .sent) :
    ({ s.stored push with pushes := s.answer push :: s.pushes.erase push } : Uploads).Inv := by
  have travels : s.Travels push := .inl ⟨member, sent⟩
  have further := inv.requests.le_stored travels
  refine ⟨?_, ?_, inv.mirrored, ?_, ?_⟩
  · refine (inv.requests.stored travels).mono ?_
    rintro q (⟨here, waiting⟩ | orphan)
    · obtain rfl | before := mem_cons.mp here
      · change (if s.accepts push then Stage.accepted else .refused s.cloudVersion) = .sent
          at waiting
        split at waiting <;> cases waiting
      · exact .inl ⟨mem_of_mem_erase before, waiting⟩
    · exact .inr orphan
  · intro lacks
    obtain flag | ⟨q, here, background, carries⟩ | shown :=
      inv.covered (Nat.lt_of_le_of_lt further lacks)
    · exact .inl flag
    · -- the push itself goes on carrying the change until its answer is read
      by_cases same : q = push
      · rw [same] at background carries
        exact .inr (.inl ⟨s.answer push, mem_cons_self, background, carries⟩)
      · refine .inr (.inl ⟨q, mem_cons_of_mem _ ?_, background, carries⟩)
        exact (mem_erase_of_ne same).mpr here
    · exact .inr (.inr shown)
  · intro q here accepted
    obtain rfl | before := mem_cons.mp here
    · change (if s.accepts push then Stage.accepted else .refused s.cloudVersion) = .accepted
        at accepted
      change push.content ≤ if s.accepts push then push.content else s.cloudContent
      split at accepted
      · rename_i above
        exact Nat.le_of_eq (if_pos above).symm
      · cases accepted
    · exact Nat.le_trans (inv.answered q (mem_of_mem_erase before) accepted) further
  · intro q here existing refused
    obtain rfl | before := mem_cons.mp here
    · change (if s.accepts push then Stage.accepted else .refused s.cloudVersion) =
        .refused existing at refused
      split at refused
      · cases refused
      · rename_i notAbove
        cases refused
        have positive := (inv.requests.numbered push travels).1
        have below : ¬s.cloudVersion < push.version := fun above => notAbove (decide_eq_true above)
        omega
    · exact inv.refused q (mem_of_mem_erase before) existing refused

theorem orphanHandled (inv : s.Inv) (member : push ∈ s.orphans) :
    ({ s.stored push with orphans := s.orphans.erase push } : Uploads).Inv := by
  have travels : s.Travels push := .inr member
  have further := inv.requests.le_stored travels
  refine ⟨?_, ?_, inv.mirrored, ?_, inv.refused⟩
  · refine (inv.requests.stored travels).mono ?_
    rintro q (waiting | orphan)
    · exact .inl waiting
    · exact .inr (mem_of_mem_erase orphan)
  · intro lacks
    exact inv.covered (Nat.lt_of_le_of_lt further lacks)
  · intro q here accepted
    exact Nat.le_trans (inv.answered q here accepted) further

/-- A push of the page is done with. -/
theorem travels_erase {orphans : List Push} (kept : ∀ q ∈ orphans, s.Travels q) {s' : Uploads}
    (pushes : s'.pushes = s.pushes.erase push) (left : s'.orphans = orphans) :
    ∀ q, s'.Travels q → s.Travels q := by
  rintro q (⟨here, waiting⟩ | orphan)
  · rw [pushes] at here
    exact .inl ⟨mem_of_mem_erase here, waiting⟩
  · rw [left] at orphan
    exact kept q orphan

theorem accepted (inv : s.Inv) (member : push ∈ s.pushes) (stage : push.stage = .accepted)
    (careful : s.conflict = 0 ∨ push.content = s.changes) (committed : Bool) :
    ({ s with
        pushes := s.pushes.erase push
        version := if committed then max s.version push.version else s.version
        conflict := 0 } : Uploads).Inv := by
  have reached := inv.answered push member stage
  refine ⟨?_, ?_, inv.mirrored, ?_, ?_⟩
  · refine inv.requests.mono (travels_erase (fun _ orphan => .inr orphan) rfl rfl) ?_
    dsimp only
    split <;> omega
  · intro lacks
    change s.cloudContent < s.changes at lacks
    obtain flag | carried | shown := inv.covered lacks
    · exact .inl flag
    · refine .inr (.inl (carried_erase ?_ carried))
      intro q _ _ carries same
      rw [← same] at reached
      omega
    · omega
  · intro q here
    exact inv.answered q (mem_of_mem_erase here)
  · intro q here
    exact inv.refused q (mem_of_mem_erase here)

theorem refusedRead (inv : s.Inv) (member : push ∈ s.pushes) {existing : Nat}
    (stage : push.stage = .refused existing) :
    ({ s with pushes := s.pushes.erase push, conflict := existing } : Uploads).Inv where
  requests := inv.requests.mono (travels_erase (fun _ orphan => .inr orphan) rfl rfl)
  covered _ := .inr (.inr (inv.refused push member existing stage))
  mirrored := inv.mirrored
  answered q here := inv.answered q (mem_of_mem_erase here)
  refused q here := inv.refused q (mem_of_mem_erase here)

theorem failed (inv : s.Inv) (member : push ∈ s.pushes) {written : Bool}
    (careful : push.background → written) :
    ({ s with
        pushes := s.pushes.erase push
        orphans := if push.stage = .sent then push :: s.orphans else s.orphans
        dirty := if push.background then s.dirty.store true written else s.dirty } :
      Uploads).Inv := by
  have kept : ∀ q ∈ if push.stage = .sent then push :: s.orphans else s.orphans, s.Travels q := by
    intro q orphan
    split at orphan
    · rename_i sent
      obtain rfl | before := mem_cons.mp orphan
      · exact .inl ⟨member, sent⟩
      · exact .inr before
    · exact .inr orphan
  refine ⟨inv.requests.mono (travels_erase kept rfl rfl), ?_, ?_, ?_, ?_⟩
  · intro lacks
    dsimp only
    by_cases background : push.background
    · rw [if_pos background]
      exact .inl (DirtyFlag.store_flag _ _ _)
    · rw [if_neg background]
      obtain flag | carried | shown := inv.covered lacks
      · exact .inl flag
      · refine .inr (.inl (carried_erase ?_ carried))
        intro q _ marked _ same
        exact background (same ▸ marked)
      · exact .inr (.inr shown)
  · dsimp only
    by_cases background : push.background
    · rw [if_pos background, careful background]
      intro attached _
      exact DirtyFlag.store_raised inv.mirrored attached
    · rw [if_neg background]
      exact inv.mirrored
  · intro q here
    exact inv.answered q (mem_of_mem_erase here)
  · intro q here
    exact inv.refused q (mem_of_mem_erase here)

theorem reload (inv : s.Inv) {read : Bool} (careful : s.dirty.attached ∧ s.dirty.flag ∧ read ∨
      s.dirty.flag = false ∧ s.conflict = 0 ∧ ∀ push ∈ s.pushes, push.background = false) :
    (s.step (.reload read)).Inv where
  requests := by
    refine inv.requests.mono ?_
    rintro q (⟨here, _⟩ | orphan)
    · cases here
    · obtain waiting | orphan := mem_append.mp orphan
      · obtain ⟨here, sent⟩ := mem_filter.mp waiting
        exact .inl ⟨here, of_decide_eq_true sent⟩
      · exact .inr orphan
  covered lacks := by
    obtain ⟨attached, flag, isRead⟩ | ⟨lowered, noConflict, noTick⟩ := careful
    · exact .inl (Bool.and_eq_true_iff.mpr ⟨inv.mirrored attached flag, isRead⟩)
    · obtain flag | ⟨q, here, background, _⟩ | shown := inv.covered lacks
      · rw [lowered] at flag
        cases flag
      · rw [noTick q here] at background
        cases background
      · omega
  mirrored _ flag := (Bool.and_eq_true_iff.mp flag).1
  answered _ here := by cases here
  refused _ here := by cases here

theorem step (inv : s.Inv) (event : UploadEvent) (careful : s.Careful event) :
    (s.step event).Inv := by
  cases event with
  | change raised written =>
    obtain ⟨rfl, rfl⟩ : raised = true ∧ written = true := careful
    exact inv.change
  | tick prepared deleted =>
    rw [Uploads.step]
    split
    · exact inv
    · rename_i noConflict
      have none : s.conflict = 0 := by omega
      dsimp only [DirtyFlag.swap]
      cases flag : s.dirty.flag with
      | true =>
        rw [careful flag none]
        exact inv.tick (DirtyFlag.store_flag _ _ _)
      | false => exact inv.idle flag (DirtyFlag.store_flag _ _ _)
  | manual => exact inv.request false
  | handled push =>
    rw [Uploads.step]
    split
    · rename_i waiting
      exact inv.handled waiting.1 waiting.2
    · exact inv
  | orphanHandled push =>
    rw [Uploads.step]
    split
    · rename_i member
      exact inv.orphanHandled member
    · exact inv
  | answered push committed =>
    rw [Uploads.step]
    split
    · rename_i member
      cases stage : push.stage with
      | sent => exact inv
      | accepted => exact inv.accepted member stage (careful stage) committed
      | refused existing => exact inv.refusedRead member stage
    · exact inv
  | failed push written =>
    rw [Uploads.step]
    split
    · rename_i member
      exact inv.failed member careful
    · exact inv
  | reload read => exact inv.reload careful

theorem fresh (isNew : Bool) : (Uploads.fresh isNew).Inv where
  requests := {
    cloud := Nat.le_refl _
    numbered := fun _ travels => nomatch travels
    taken := fun _ travels => nomatch travels
    ordered := fun _ _ travels => nomatch travels
    newer := fun _ travels => nomatch travels }
  covered lacks := absurd lacks (Nat.lt_irrefl _)
  mirrored _ flag := by cases isNew <;> cases flag
  answered _ here := by cases here
  refused _ here := by cases here

end Inv

end Uploads

open Uploads

theorem not_covered_of_idle {s : Uploads} (lacks : s.cloudContent < s.changes)
    (lowered : s.dirty.flag = false) (empty : s.pushes = []) (calm : s.conflict = 0) :
    ¬s.Covered := by
  intro covered
  obtain flag | ⟨push, member, _⟩ | shown := covered lacks
  · rw [lowered] at flag
    cases flag
  · rw [empty] at member
    cases member
  · omega

end Lij.Backup
