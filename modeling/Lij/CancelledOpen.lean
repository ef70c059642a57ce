import Lij.Foundation.Folds
import Lij.Foundation.Maps

/-!
# The cancelled-open audit

Every thirtieth tick starts a task that judges the channels whose funding nothing
knows. A task loads the clock map, awaits one answer after another and writes the
whole map back at its end. Two tasks under way at once can therefore undo each
other's clearing of a clock, and a reload forgets what a task has not yet written.
`Clear` says which steps cannot do so.
-/

namespace Lij.CancelledOpen

open Folds List

/-- How long a funding must look dead, at every check, before the channel is discarded. -/
def deadFloorMs : Nat := 2 * 3600 * 1000

inductive Verdict
  | alive | watching | dead | unknown
  deriving DecidableEq, Repr

def verdict (inPending inHistory : Bool) (quorumKnows : Option Bool) (firstDeadMs : Option Nat)
    (nowMs : Nat) : Verdict :=
  if inPending || inHistory then .alive
  else
    match quorumKnows, firstDeadMs with
    | some true, _ => .alive
    | none, _ => .unknown
    | some false, some t0 => if deadFloorMs ≤ nowMs - t0 then .dead else .watching
    | some false, none => .watching

/-- The clocks, by funding txid. -/
abbrev DeadMap := Std.ExtTreeMap String Nat

/-- The provider's word on a funding it was to publish. -/
inductive FundingStatus
  | abandoned | cancelled | orphan | held | paid | funded | published | confirmed
  deriving DecidableEq, Repr

/-- An inbound channel whose funding the books do not know. -/
structure Inbound where
  funding : String
  nothingOwned : Bool
  watchApplies : Bool

/-- An audit under way: what the tick gave it, its copy of the clocks and what is left to do. -/
structure Task where
  pending : List String
  history : List String
  inbound : List Inbound
  candidates : List String
  map : DeadMap
  now : Nat
  changed : Bool

namespace Task

/-- A channel that left the list takes its clock with it. -/
def load (stored : DeadMap) (now : Nat) (pending history : List String) (inbound : List Inbound)
    (candidates : List String) : Task :=
  let live := candidates ++ inbound.map Inbound.funding
  let map := stored.filter fun k _ => live.contains k
  { pending, history, inbound, candidates, map, now, changed := map.size != stored.size }

def clear (t : Task) (funding : String) : Task :=
  { t with map := t.map.erase funding, changed := t.changed || t.map.contains funding }

/-- The clock starts with the task's own time, unless it runs already. -/
def mark (t : Task) (funding : String) : Task :=
  if t.map.contains funding then t
  else { t with map := t.map.insert funding t.now, changed := true }

def remove (t : Task) (funding : String) : Task :=
  { t with map := t.map.erase funding, changed := true }

/-- What the provider's answer about an inbound channel does to its clock; `known` is the
quorum's answer, asked for only where the provider has no record. -/
def judgeInbound (t : Task) (c : Inbound) (status : Option FundingStatus)
    (known : Option Bool) : Task :=
  match status with
  | some .abandoned | some .cancelled | some .orphan =>
    if c.nothingOwned then t.remove c.funding else t.mark c.funding
  | some .held | some .paid | some .funded => if c.watchApplies then t.mark c.funding else t
  | some .published | some .confirmed => t.clear c.funding
  | none =>
    if c.watchApplies then
      if known = some false then t.mark c.funding else t.clear c.funding
    else t

/-- The quorum is asked only where the books are silent. -/
def known (t : Task) (funding : String) (quorum : Option Bool) : Option Bool :=
  if t.pending.contains funding || t.history.contains funding then some true else quorum

def judgement (t : Task) (funding : String) (quorum : Option Bool) : Verdict :=
  verdict (t.pending.contains funding) (t.history.contains funding) (t.known funding quorum)
    t.map[funding]? t.now

end Task

/-- One look at a funding: what was known of it, by the books or by the quorum. -/
structure Check where
  funding : String
  known : Option Bool
  now : Nat
  deriving DecidableEq

/-- A channel thrown away, with the clock it was judged by and the checks made until then. -/
structure Closing where
  funding : String
  since : Option Nat
  now : Nat
  checks : List Check

/-- The clocks in storage, the tasks under way, and, newest first, what was found and done. -/
structure Wallet where
  stored : DeadMap
  tasks : List Task
  checks : List Check
  closings : List Closing

inductive Event
  | tick (now : Nat) (pending history : List String) (inbound : List Inbound)
      (candidates : List String)
  | provider (task : Nat) (status : Option FundingStatus) (known : Option Bool)
  | quorum (task : Nat) (known : Option Bool)
  | save (task : Nat) (written : Bool)
  | reload

namespace Wallet

def fresh : Wallet := ⟨∅, [], [], []⟩

/-- The task's next candidate is judged. -/
def judge (w : Wallet) (i : Nat) (t : Task) (funding : String) (quorum : Option Bool) : Wallet :=
  let checks := ⟨funding, t.known funding quorum, t.now⟩ :: w.checks
  let put (t : Task) : Wallet := { w with checks, tasks := w.tasks.set i t }
  match t.judgement funding quorum with
  | .alive => put (t.clear funding)
  | .unknown => put t
  | .watching => put (t.mark funding)
  | .dead =>
    { put (t.remove funding) with
      closings := ⟨funding, t.map[funding]?, t.now, checks⟩ :: w.closings }

def onTask (w : Wallet) (i : Nat) (f : Task → Wallet) : Wallet :=
  match w.tasks[i]? with
  | some t => f t
  | none => w

/-- A task goes through its inbound channels, then its candidates, then it saves. -/
def step (w : Wallet) : Event → Wallet
  | .tick now pending history inbound candidates =>
    { w with tasks := w.tasks ++ [Task.load w.stored now pending history inbound candidates] }
  | .provider i status known => w.onTask i fun t =>
    match t.inbound with
    | [] => w
    | c :: rest =>
      let judged := Task.judgeInbound { t with inbound := rest } c status known
      { w with tasks := w.tasks.set i judged }
  | .quorum i known => w.onTask i fun t =>
    match t.inbound, t.candidates with
    | [], funding :: rest => w.judge i { t with candidates := rest } funding known
    | _, _ => w
  | .save i written => w.onTask i fun t =>
    if t.inbound.isEmpty && t.candidates.isEmpty then
      let stored := if t.changed && written then t.map else w.stored
      { w with tasks := w.tasks.eraseIdx i, stored }
    else w
  | .reload => { w with tasks := [] }

end Wallet

/-! ## Evidence -/

/-- Back to the check that started the clock at `since`, every check of the funding found it
unknown to the books and to the quorum. -/
def Unbroken (funding : String) (since : Nat) : List Check → Prop
  | [] => False
  | c :: older =>
    c = ⟨funding, some false, since⟩ ∨
      (c.funding = funding → c.known = some false) ∧ Unbroken funding since older

instance decidableUnbroken (funding : String) (since : Nat) : DecidablePred (Unbroken funding since)
  | [] => inferInstanceAs (Decidable False)
  | c :: older =>
    have := decidableUnbroken funding since older
    inferInstanceAs (Decidable (c = ⟨funding, some false, since⟩ ∨
      (c.funding = funding → c.known = some false) ∧ Unbroken funding since older))

/-- The clock ran for the whole waiting period, and no check broke it. -/
def Closing.Justified (c : Closing) : Prop :=
  ∃ since ∈ c.since, since + deadFloorMs ≤ c.now ∧ Unbroken c.funding since c.checks

section Evidence

variable {ours : String → Prop} {checks : List Check} {stored : DeadMap} {t : Task}
  {funding : String}

/-- Every clock of the wallet's own fundings rests on an unbroken row of checks. -/
def Backed (ours : String → Prop) (checks : List Check) (map : DeadMap) : Prop :=
  ∀ funding since, ours funding → map[funding]? = some since → Unbroken funding since checks

theorem Task.judgement_cases (t : Task) (funding : String) (quorum : Option Bool) :
    t.judgement funding quorum = .alive ∨
      t.judgement funding quorum = .unknown ∧ quorum = none ∨
      t.judgement funding quorum = .watching ∧ t.known funding quorum = some false ∨
      t.judgement funding quorum = .dead ∧ t.known funding quorum = some false ∧
        ∃ since, t.map[funding]? = some since ∧ since + deadFloorMs ≤ t.now := by
  rw [Task.judgement, verdict.eq_def, Task.known]
  grind [deadFloorMs]

/-- What holds of a task that alone holds the clocks. -/
structure Task.Sound (ours : String → Prop) (checks : List Check) (stored : DeadMap) (t : Task) :
    Prop where
  backed : Backed ours checks t.map
  same : t.changed = false → t.map = stored
  own : ∀ funding ∈ t.candidates, ours funding
  others : ∀ c ∈ t.inbound, ¬ ours c.funding

namespace Task.Sound

variable (sound : t.Sound ours checks stored)
include sound

/-- A check that finds unknown what has a clock keeps what the clocks rest on. -/
theorem check (c : Check) (unknown : t.map.contains c.funding → c.known = some false) :
    t.Sound ours (c :: checks) stored := by
  refine { sound with backed := fun funding since own found => .inr ⟨?_, ?_⟩ }
  · rintro rfl
    exact unknown (by simp [Std.ExtTreeMap.contains_eq_isSome_getElem?, found])
  · exact sound.backed funding since own found

theorem remove : (t.remove funding).Sound ours checks stored := by
  refine ⟨fun other since own found => ?_, nofun, sound.own, sound.others⟩
  rw [Task.remove, Maps.ext_getElem?_erase] at found
  split at found
  · cases found
  · exact sound.backed other since own found

theorem clear : (t.clear funding).Sound ours checks stored := by
  refine { sound.remove with same := fun unchanged => ?_ }
  obtain ⟨unchanged, absent⟩ := Bool.or_eq_false_iff.mp unchanged
  rw [← sound.same unchanged]
  exact Maps.erase_of_absent absent

theorem mark (fresh : ours funding → Unbroken funding t.now checks) :
    (t.mark funding).Sound ours checks stored := by
  rw [Task.mark]
  split
  · exact sound
  · refine ⟨fun other since own found => ?_, nofun, sound.own, sound.others⟩
    rw [Maps.ext_getElem?_insert] at found
    split at found
    · cases found
      subst_vars
      exact fresh own
    · exact sound.backed other since own found

/-- An inbound channel's clock is none of the wallet's own. -/
theorem judgeInbound {c : Inbound} (other : ¬ ours c.funding) (status : Option FundingStatus)
    (known : Option Bool) : (t.judgeInbound c status known).Sound ours checks stored := by
  have marked := sound.mark fun own => absurd own other
  rw [Task.judgeInbound.eq_def]
  split <;> repeat' split
  all_goals first | exact sound | exact sound.clear | exact sound.remove | exact marked

end Task.Sound

theorem Task.sound_load (backed : Backed ours checks stored) (now : Nat)
    (pending history : List String) {inbound : List Inbound} {candidates : List String}
    (own : ∀ funding ∈ candidates, ours funding) (others : ∀ c ∈ inbound, ¬ ours c.funding) :
    (Task.load stored now pending history inbound candidates).Sound ours checks stored := by
  refine ⟨fun other since isOwn found => ?_, fun unchanged => ?_, own, others⟩
  · rw [Task.load, Std.ExtTreeMap.getElem?_filter'] at found
    exact backed other since isOwn (Option.filter_eq_some_iff.mp found).1
  · have sizes := bne_eq_false_iff_eq.mp unchanged
    exact Std.ExtTreeMap.filter_eq_self_iff.mpr (Std.ExtTreeMap.size_filter_eq_size_iff.mp sizes)

end Evidence

/-! ## Whole runs -/

namespace Wallet

/-- The steps by which no clearing of a clock is lost: a task starts only when none is under
way, its save lands, no reload comes between a change and its save, and the quorum answers. The
wallet's own fundings are told apart from those of its peers. -/
def Clear (ours : String → Prop) (w : Wallet) : Event → Prop
  | .tick _ _ _ inbound candidates =>
    w.tasks = [] ∧ (∀ funding ∈ candidates, ours funding) ∧ ∀ c ∈ inbound, ¬ ours c.funding
  | .provider .. => True
  | .quorum _ known => known ≠ none
  | .save _ written => written = true
  | .reload => ∀ t ∈ w.tasks, t.changed = false

structure Inv (ours : String → Prop) (w : Wallet) : Prop where
  quiet : w.tasks = [] → Backed ours w.checks w.stored
  alone : w.tasks.length ≤ 1
  sound : ∀ t ∈ w.tasks, t.Sound ours w.checks w.stored
  justified : ∀ c ∈ w.closings, c.Justified

namespace Inv

variable {ours : String → Prop} {w : Wallet} {t : Task}

theorem put (inv : Inv ours w) (only : w.tasks = [t]) {t' : Task} {checks : List Check}
    (sound : t'.Sound ours checks w.stored) :
    Inv ours { w with tasks := w.tasks.set 0 t', checks } :=
  ⟨by simp [only], by simp [only], by simpa [only] using sound, inv.justified⟩

/-- Only the one task under way takes a step. -/
theorem onTask (inv : Inv ours w) {i : Nat} {f : Task → Wallet}
    (each : ∀ t, i = 0 → w.tasks = [t] → t.Sound ours w.checks w.stored → Inv ours (f t)) :
    Inv ours (w.onTask i f) := by
  rw [Wallet.onTask]
  split
  next t found =>
    obtain ⟨inside, isTask⟩ := List.getElem?_eq_some_iff.mp found
    have few := inv.alone
    have first : i = 0 := by omega
    obtain ⟨only, isOnly⟩ := length_eq_one_iff.mp (Nat.le_antisymm few (by omega))
    refine each t first ?_ (inv.sound t (mem_of_getElem? found))
    grind
  · exact inv

/-- A check of the task's next candidate keeps the invariant and closes only a channel whose
clock ran unbroken. -/
theorem judge (inv : Inv ours w) (only : w.tasks = [t]) {t' : Task} {funding : String}
    {quorum : Option Bool} (sound : t'.Sound ours w.checks w.stored) (own : ours funding)
    (answered : quorum ≠ none) : Inv ours (w.judge 0 t' funding quorum) := by
  rw [Wallet.judge]
  obtain alive | ⟨-, silent⟩ | ⟨watching, isUnknown⟩ | ⟨dead, isUnknown, since, isSince, long⟩ :=
    t'.judgement_cases funding quorum
  · simp only [alive]
    exact inv.put only (sound.clear.check _ (by simp [Task.clear]))
  · exact absurd silent answered
  · simp only [watching]
    exact inv.put only ((sound.check _ fun _ => isUnknown).mark fun _ => .inl (by rw [isUnknown]))
  · simp only [dead]
    refine { inv.put only (sound.remove.check _ (by simp [Task.remove])) with justified := ?_ }
    intro c member
    obtain rfl | earlier := mem_cons.mp member
    · have row := sound.check ⟨funding, _, t'.now⟩ fun _ => isUnknown
      exact ⟨since, isSince, long, row.backed funding since own isSince⟩
    · exact inv.justified c earlier

theorem step (inv : Inv ours w) (e : Event) (clear : w.Clear ours e) : Inv ours (w.step e) := by
  cases e with
  | tick now pending history inbound candidates =>
    obtain ⟨none, own, others⟩ := clear
    have sound := Task.sound_load (inv.quiet none) now pending history own others
    rw [Wallet.step, none]
    exact ⟨by simp, by simp, by simpa using sound, inv.justified⟩
  | provider i status known =>
    refine inv.onTask ?_
    rintro t rfl only sound
    split
    · exact inv
    next c rest isNext =>
      have others := forall_mem_cons.mp (isNext ▸ sound.others)
      exact inv.put only (Task.Sound.judgeInbound (t := { t with inbound := rest })
        { sound with others := others.2 } others.1 status known)
  | quorum i known =>
    refine inv.onTask ?_
    rintro t rfl only sound
    split
    next funding rest _ isNext =>
      have own := forall_mem_cons.mp (isNext ▸ sound.own)
      exact inv.judge only { sound with own := own.2 } own.1 clear
    · exact inv
  | save i written =>
    cases clear
    refine inv.onTask ?_
    rintro t rfl only sound
    split
    · refine ⟨fun _ => ?_, by simp [only], by simp [only], inv.justified⟩
      cases changed : t.changed with
      | false => simpa [changed, sound.same changed] using sound.backed
      | true => simpa [changed] using sound.backed
    · exact inv
  | reload =>
    refine ⟨fun _ => ?_, by simp [Wallet.step], by simp [Wallet.step], inv.justified⟩
    cases tasks : w.tasks with
    | nil => exact inv.quiet tasks
    | cons t rest =>
      have isTask : t ∈ w.tasks := by simp [tasks]
      have sound := inv.sound t isTask
      rw [Wallet.step, ← sound.same (clear t isTask)]
      exact sound.backed

end Inv

/-- Over every run whose steps are all clear, a channel is thrown away only after the full
waiting period in which every check found its funding unknown. The clocks a task holds, and those
in storage when none is under way, all rest on such a row of checks: no save brings back a clock
that was cleared. -/
theorem closes_only_on_unbroken {ours : String → Prop} {events : List Event}
    (clear : Meets step (Clear ours) fresh events) :
    (∀ c ∈ (events.foldl step fresh).closings, c.Justified) ∧
      (∀ t ∈ (events.foldl step fresh).tasks,
        Backed ours (events.foldl step fresh).checks t.map) ∧
      ((events.foldl step fresh).tasks = [] →
        Backed ours (events.foldl step fresh).checks (events.foldl step fresh).stored) := by
  have inv : Inv ours (events.foldl step fresh) :=
    clear.invariant (fun _ e inv clear => inv.step e clear)
      ⟨by simp [fresh, Backed], by simp [fresh], by simp [fresh], by simp [fresh]⟩
  exact ⟨inv.justified, fun t running => (inv.sound t running).backed, inv.quiet⟩

/-- Unknown for two hours: the channel is thrown away. -/
theorem closed_after_two_hours :
    let events : List Event := [.tick 0 [] [] [] ["f"], .quorum 0 (some false), .save 0 true,
      .reload, .tick deadFloorMs [] [] [] ["f"], .quorum 0 (some false), .save 0 true]
    (events.foldl step fresh).closings.length = 1 ∧
      ∀ c ∈ (events.foldl step fresh).closings, c.Justified :=
  ⟨by decide +kernel, (@closes_only_on_unbroken (fun f => f = "f") _
    (by simp only [Meets, Clear]; decide +kernel)).1⟩

/-- The second task holds the clock of `f` while the third, half a minute later, clears it; the
second's save brings the clock back, and the fourth throws the channel away. -/
theorem cleared_clock_comes_back :
    let hour := 3600 * 1000
    let events : List Event := [.tick 0 [] [] [] ["f"], .quorum 0 (some false), .save 0 true,
      .tick hour [] [] [] ["f", "g"], .quorum 0 (some false),
      .tick (hour + 30000) [] [] [] ["f"], .quorum 1 (some true), .save 1 true,
      .quorum 0 (some false), .save 0 true,
      .tick (2 * hour) [] [] [] ["f", "g"], .quorum 0 (some false)]
    let w := events.foldl step fresh
    w.closings.map (fun c => (c.funding, c.since)) = [("f", some 0)] ∧
      ∀ c ∈ w.closings, ⟨"f", some true, hour + 30000⟩ ∈ c.checks ∧ ¬ Unbroken "f" 0 c.checks := by
  decide +kernel

end Wallet

end Lij.CancelledOpen
