import Lij.Foundation.Folds
import Mathlib.Data.List.Basic
import Mathlib.Logic.Function.Basic

/-!
# Phones and one cloud copy

Phones with the same words keep one copy in the cloud. A copy carries a number,
and the worker takes an upload whose number is above the stored one. Each phone
holds a number of its own: an upload carries the next one, which becomes the
phone's when the worker's answer arrives. A lost answer is covered by a note of
the upload, which the phone compares with what the cloud says it holds. A refusal
stops the background uploads until the person decides; the decision to replace
takes the refused number for the phone's own.

Requests and answers are in flight until they arrive or are lost, and a reload
drops the answers of its page. A write to the phone's storage may fail, which the
code ignores.

A phone's number must not get ahead of the cloud's: `Behind` says that it is below
it, or equal to it when the phone has pushed or loaded the stored copy or the
person chose to replace it. A device file moves the number without the cloud, at
the export to the next one and at the import to the file's.
-/

namespace Lij.Backup

open Folds List

/-- The SHA-256 of the sealed bytes. -/
abbrev Fingerprint := BitVec 256

structure Copy where
  version : Nat
  fingerprint : Fingerprint
  deriving DecidableEq, Repr

structure PhoneState where
  /-- The number the phone holds. -/
  version : Nat
  /-- The note of the upload on its way. -/
  inflight : Option Copy
  /-- The cloud's number when it refused this phone's copy; zero without a refusal. -/
  conflict : Nat
  /-- Which load of the page this is. -/
  session : Nat
  /-- The copies the phone has pushed or has loaded from the cloud. -/
  known : List Fingerprint
  /-- The numbers of the copies the person chose to replace. -/
  chosen : List Nat
  deriving DecidableEq, Repr

namespace PhoneState

def fresh : PhoneState := ⟨0, none, 0, 0, [], []⟩

/-- The number the next copy would carry; a 64-bit sum. -/
def versionPeek (p : PhoneState) : Nat :=
  if p.version + 1 < 18446744073709551616 then p.version + 1 else 0

/-- Keep a number, only upward; the write may fail. -/
def versionCommit (p : PhoneState) (version : Nat) (written : Bool) : PhoneState :=
  if p.version < version ∧ written then { p with version := version } else p

def note (p : PhoneState) (copy : Copy) (written : Bool) : PhoneState :=
  if written then { p with inflight := some copy } else p

def clearNote (p : PhoneState) (written : Bool) : PhoneState :=
  if written then { p with inflight := none } else p

section

variable (p : PhoneState) (version : Nat) (copy : Copy) (written : Bool)

theorem versionCommit_version :
    (p.versionCommit version written).version = p.version ∨
      (p.versionCommit version written).version = version := by
  rw [versionCommit]
  split
  · exact .inr rfl
  · exact .inl rfl

theorem le_versionCommit : p.version ≤ (p.versionCommit version written).version := by
  rw [versionCommit]
  split
  · next up => exact up.1.le
  · exact Nat.le_refl _

theorem versionCommit_unwritten : p.versionCommit version false = p :=
  if_neg fun written => by cases written.2

@[simp] theorem versionCommit_inflight :
    (p.versionCommit version written).inflight = p.inflight := by
  rw [versionCommit]
  split <;> rfl

@[simp] theorem versionCommit_conflict :
    (p.versionCommit version written).conflict = p.conflict := by
  rw [versionCommit]
  split <;> rfl

@[simp] theorem versionCommit_known : (p.versionCommit version written).known = p.known := by
  rw [versionCommit]
  split <;> rfl

@[simp] theorem versionCommit_chosen : (p.versionCommit version written).chosen = p.chosen := by
  rw [versionCommit]
  split <;> rfl

@[simp] theorem note_version : (p.note copy written).version = p.version := by
  cases written <;> rfl

@[simp] theorem note_conflict : (p.note copy written).conflict = p.conflict := by
  cases written <;> rfl

@[simp] theorem note_chosen : (p.note copy written).chosen = p.chosen := by
  cases written <;> rfl

@[simp] theorem clearNote_version : (p.clearNote written).version = p.version := by
  cases written <;> rfl

@[simp] theorem clearNote_known : (p.clearNote written).known = p.known := by
  cases written <;> rfl

@[simp] theorem clearNote_chosen : (p.clearNote written).chosen = p.chosen := by
  cases written <;> rfl

variable {p copy written}

theorem note_inflight {noted : Copy} (found : (p.note copy written).inflight = some noted) :
    noted = copy ∨ p.inflight = some noted := by
  cases written with
  | false => exact .inr found
  | true => exact .inl (Option.some.inj found).symm

theorem clearNote_inflight {noted : Copy} (found : (p.clearNote written).inflight = some noted) :
    p.inflight = some noted := by
  cases written with
  | false => exact found
  | true => cases found

/-- The next number is one above, or zero at the end of the range. -/
theorem versionPeek_le : p.versionPeek ≤ p.version + 1 := by
  rw [versionPeek]
  split
  · exact Nat.le_refl _
  · exact Nat.zero_le _

end

end PhoneState

/-- What is under way between a phone and the worker. -/
inductive Message (ι : Type)
  | push (phone : ι) (session : Nat) (copy : Copy)
  | accepted (phone : ι) (session : Nat) (copy : Copy)
  | refused (phone : ι) (session : Nat) (existing : Nat)
  | pulled (phone : ι) (session : Nat) (copy : Copy)
  | metaRead (phone : ι) (session : Nat) (copy : Copy)
  deriving DecidableEq, Repr

structure World (ι : Type) where
  stored : Option Copy
  phones : ι → PhoneState
  flight : List (Message ι)

namespace World

variable {ι : Type}

section

variable [DecidableEq ι]

def start : World ι := ⟨none, fun _ => .fresh, []⟩

/-- Zero when the cloud holds no copy. -/
def number (w : World ι) : Nat := w.stored.elim 0 Copy.version

def setPhone (w : World ι) (i : ι) (p : PhoneState) : World ι :=
  { w with phones := Function.update w.phones i p }

theorem setPhone_same (w : World ι) (i : ι) (p : PhoneState) : (w.setPhone i p).phones i = p := by
  simp [setPhone]

/-- What holds of the changed phone and of every other one holds of all. -/
theorem forall_setPhone {w : World ι} {i : ι} {p : PhoneState} {P : ι → PhoneState → Prop}
    (changed : P i p) (others : ∀ j, P j (w.phones j)) : ∀ j, P j ((w.setPhone i p).phones j) :=
  (Function.forall_update_iff _ P).mpr ⟨changed, fun j _ => others j⟩

def send (w : World ι) (m : Message ι) : World ι := { w with flight := m :: w.flight }

/-- A message arrives, or is lost. -/
def arrive (w : World ι) (m : Message ι) : World ι := { w with flight := w.flight.erase m }

/-- A copy of the phone's state goes up: the note first, then the request. -/
def upload (w : World ι) (i : ι) (fingerprint : Fingerprint) (noted : Bool) : World ι :=
  let p := w.phones i
  let copy : Copy := ⟨p.versionPeek, fingerprint⟩
  (w.setPhone i { p.note copy noted with known := fingerprint :: p.known }).send
    (.push i p.session copy)

/-- The worker takes a copy above the stored one, answers a resend of the stored one like an
accepted push and refuses any other. -/
def handle (w : World ι) (i : ι) (session : Nat) (copy : Copy) : World ι :=
  match w.stored with
  | none => { w with stored := some copy }.send (.accepted i session copy)
  | some c =>
    if c.version < copy.version then
      { w with stored := some copy }.send (.accepted i session copy)
    else if c.fingerprint = copy.fingerprint then w.send (.accepted i session copy)
    else w.send (.refused i session c.version)

end

end World

/-- What a phone, its person, the worker and the network do. A `Bool` says whether a write to the
phone's storage landed. -/
inductive Event (ι : Type)
  /-- `maybe_backup`. -/
  | backgroundPush (phone : ι) (fingerprint : Fingerprint) (noted : Bool)
  /-- `backup_now`. -/
  | manualPush (phone : ι) (fingerprint : Fingerprint) (noted : Bool)
  /-- The worker handles a push. -/
  | handled (phone : ι) (session : Nat) (copy : Copy)
  | lost (message : Message ι)
  | acceptedRead (phone : ι) (session : Nat) (copy : Copy) (committed cleared : Bool)
  | refusedRead (phone : ι) (session : Nat) (existing : Nat) (cleared : Bool)
  | reload (phone : ι)
  /-- The worker answers the phone's question for the copy, or for its number. -/
  | pullAnswered (phone : ι)
  | metaAnswered (phone : ι)
  /-- `adopt_cloud_backup` writes the copy; a failed restore does not reach the number. -/
  | adopt (phone : ι) (session : Nat) (copy : Copy) (restored : Bool)
  /-- The cloud's copy carries the note of this phone's own upload: `backup_adopt_own`. -/
  | adoptOwn (phone : ι) (session : Nat) (copy : Copy) (committed cleared : Bool)
  /-- `backup_replace_cloud`; no copy goes up when there is none to prepare. -/
  | replace (phone : ι) (fingerprint : Option Fingerprint) (committed noted : Bool)
  /-- `export_backup_blob`. -/
  | exportFile (phone : ι) (committed : Bool)
  /-- `import_backup_blob` and `import_backup_file`. -/
  | importFile (phone : ι) (version : Nat)
  deriving DecidableEq, Repr

namespace World

variable {ι : Type} [DecidableEq ι]

def step (w : World ι) : Event ι → World ι
  | .backgroundPush i fingerprint noted =>
    -- a refusal stops the automatic uploads
    if (w.phones i).conflict = 0 then w.upload i fingerprint noted else w
  | .manualPush i fingerprint noted => w.upload i fingerprint noted
  | .handled i session copy =>
    if .push i session copy ∈ w.flight then
      (w.arrive (.push i session copy)).handle i session copy
    else w
  | .lost m => w.arrive m
  | .acceptedRead i session copy committed cleared =>
    if .accepted i session copy ∈ w.flight then
      let w := w.arrive (.accepted i session copy)
      let p := w.phones i
      -- the answer of an earlier load of the page reaches no one
      if p.session = session then
        w.setPhone i
          { (p.versionCommit copy.version committed).clearNote cleared with conflict := 0 }
      else w
    else w
  | .refusedRead i session existing cleared =>
    if .refused i session existing ∈ w.flight then
      let w := w.arrive (.refused i session existing)
      let p := w.phones i
      if p.session = session then
        w.setPhone i { p.clearNote cleared with conflict := existing }
      else w
    else w
  | .reload i =>
    let p := w.phones i
    w.setPhone i { p with conflict := 0, session := p.session + 1 }
  | .pullAnswered i =>
    match w.stored with
    | some c => w.send (.pulled i (w.phones i).session c)
    | none => w
  | .metaAnswered i =>
    match w.stored with
    | some c => w.send (.metaRead i (w.phones i).session c)
    | none => w
  | .adopt i session copy restored =>
    if .pulled i session copy ∈ w.flight then
      let w := w.arrive (.pulled i session copy)
      let p := w.phones i
      if p.session = session ∧ restored then
        w.setPhone i
          { p with version := copy.version, conflict := 0, known := copy.fingerprint :: p.known }
      else w
    else w
  | .adoptOwn i session copy committed cleared =>
    if .metaRead i session copy ∈ w.flight then
      let w := w.arrive (.metaRead i session copy)
      let p := w.phones i
      if p.session = session ∧ p.version < copy.version ∧ p.inflight = some copy then
        w.setPhone i
          { (p.versionCommit copy.version committed).clearNote cleared with conflict := 0 }
      else w
    else w
  | .replace i fingerprint committed noted =>
    let p := w.phones i
    let p' :=
      if 0 < p.conflict then
        { p.versionCommit p.conflict committed with chosen := p.conflict :: p.chosen }
      else p
    let w := w.setPhone i { p' with conflict := 0 }
    match fingerprint with
    | some fingerprint => w.upload i fingerprint noted
    | none => w
  | .exportFile i committed =>
    let p := w.phones i
    w.setPhone i (p.versionCommit p.versionPeek committed)
  | .importFile i version => w.setPhone i { w.phones i with version := version }

def run (w : World ι) (events : List (Event ι)) : World ι := events.foldl step w

end World

/-! ## The number never gets ahead of the cloud's -/

namespace World

variable {ι : Type}

/-- The stored copy, if there is one, is of the phone's making or loading, or the person chose to
replace it. -/
def Entitled (w : World ι) (i : ι) : Prop :=
  ∀ c, w.stored = some c →
    c.fingerprint ∈ (w.phones i).known ∨ c.version ∈ (w.phones i).chosen

def Behind (w : World ι) (i : ι) (n : Nat) : Prop :=
  n ≤ w.number ∧ (n = w.number → w.Entitled i)

/-- What a message in flight may say. -/
def Truthful (w : World ι) : Message ι → Prop
  | .push i _ copy =>
    copy.version ≤ w.number + 1 ∧ (copy.version = w.number + 1 → w.Entitled i) ∧
      copy.fingerprint ∈ (w.phones i).known ∧ (w.stored = none → copy.version ≠ 0)
  | .accepted i _ copy => w.Behind i copy.version
  | .refused _ _ existing => existing ≤ w.number
  | .pulled _ _ copy => copy.version ≤ w.number ∧ (copy.version = w.number → w.stored = some copy)
  | .metaRead _ _ copy => copy.version ≤ w.number ∧ (copy.version = w.number → w.stored = some copy)

structure Inv (w : World ι) : Prop where
  behind : ∀ i, w.Behind i (w.phones i).version
  conflict : ∀ i, (w.phones i).conflict ≤ w.number
  noted : ∀ i copy, (w.phones i).inflight = some copy → copy.fingerprint ∈ (w.phones i).known
  truthful : ∀ m ∈ w.flight, w.Truthful m

/-- Nothing the phones know or chose is forgotten, and the cloud's copy stays. -/
structure Grows (w w' : World ι) : Prop where
  stored : w'.stored = w.stored
  known : ∀ i, (w.phones i).known ⊆ (w'.phones i).known
  chosen : ∀ i, (w.phones i).chosen ⊆ (w'.phones i).chosen

namespace Grows

variable {w w' : World ι} {i : ι} {n : Nat}

theorem number (grows : Grows w w') : w'.number = w.number := by
  rw [World.number, grows.stored, World.number]

theorem entitled (grows : Grows w w') (entitled : w.Entitled i) : w'.Entitled i := by
  intro c stored
  rw [grows.stored] at stored
  obtain known | chosen := entitled c stored
  · exact .inl (grows.known i known)
  · exact .inr (grows.chosen i chosen)

theorem behind (grows : Grows w w') (behind : w.Behind i n) : w'.Behind i n := by
  rw [Behind, grows.number]
  exact ⟨behind.1, fun same => grows.entitled (behind.2 same)⟩

theorem truthful (grows : Grows w w') {m : Message ι} (truthful : w.Truthful m) :
    w'.Truthful m := by
  cases m with
  | push j session copy =>
    obtain ⟨small, entitled, known, positive⟩ := truthful
    rw [Truthful, grows.number, grows.stored]
    exact ⟨small, fun same => grows.entitled (entitled same), grows.known j known, positive⟩
  | accepted j session copy => exact grows.behind truthful
  | refused j session existing =>
    rw [Truthful, grows.number]
    exact truthful
  | pulled j session copy | metaRead j session copy =>
    rw [Truthful, grows.number, grows.stored]
    exact truthful

end Grows

theorem versionCommit_behind {w : World ι} {i : ι} {p : PhoneState} {n : Nat} {written : Bool}
    (before : w.Behind i p.version)
    (after : w.Behind i n) : w.Behind i (p.versionCommit n written).version := by
  obtain same | same := p.versionCommit_version n written
  · rwa [same]
  · rwa [same]

theorem number_of_stored {w : World ι} {c : Copy} (stored : w.stored = some c) :
    w.number = c.version := by
  rw [number, stored]
  rfl

/-- The cloud's answer says what it holds. -/
theorem truthful_stored {w : World ι} {c : Copy} (stored : w.stored = some c) :
    c.version ≤ w.number ∧ (c.version = w.number → w.stored = some c) :=
  ⟨(number_of_stored stored).ge, fun _ => stored⟩

namespace Inv

variable [DecidableEq ι] {w : World ι} {i : ι} {p : PhoneState} {m : Message ι}

omit [DecidableEq ι] in
theorem send (inv : w.Inv) (truthful : w.Truthful m) : (w.send m).Inv where
  __ := inv
  truthful m' member := by
    have same : Grows w (w.send m) :=
      ⟨rfl, fun _ => List.Subset.refl _, fun _ => List.Subset.refl _⟩
    obtain rfl | before := mem_cons.mp member
    · exact same.truthful truthful
    · exact same.truthful (inv.truthful m' before)

theorem arrive (inv : w.Inv) : (w.arrive m).Inv where
  __ := inv
  truthful m' member := by
    have same : Grows w (w.arrive m) :=
      ⟨rfl, fun _ => List.Subset.refl _, fun _ => List.Subset.refl _⟩
    exact same.truthful (inv.truthful m' (mem_of_mem_erase member))

theorem grows_setPhone (known : (w.phones i).known ⊆ p.known)
    (chosen : (w.phones i).chosen ⊆ p.chosen) : Grows w (w.setPhone i p) where
  stored := rfl
  known := forall_setPhone (P := fun j q => (w.phones j).known ⊆ q.known) known
    fun _ => List.Subset.refl _
  chosen := forall_setPhone (P := fun j q => (w.phones j).chosen ⊆ q.chosen) chosen
    fun _ => List.Subset.refl _

/-- One phone changes and forgets nothing. -/
theorem setPhone (inv : w.Inv) (known : (w.phones i).known ⊆ p.known)
    (chosen : (w.phones i).chosen ⊆ p.chosen) (behind : (w.setPhone i p).Behind i p.version)
    (conflict : p.conflict ≤ w.number)
    (noted : ∀ copy, p.inflight = some copy → copy.fingerprint ∈ p.known) :
    (w.setPhone i p).Inv := by
  have grows := grows_setPhone known chosen
  refine ⟨?_, ?_, ?_, fun m member => grows.truthful (inv.truthful m member)⟩
  · exact forall_setPhone (P := fun j q => (w.setPhone i p).Behind j q.version) behind
      fun j => grows.behind (inv.behind j)
  · exact forall_setPhone (P := fun _ q => q.conflict ≤ w.number) conflict inv.conflict
  · exact forall_setPhone (P := fun _ q => ∀ copy, q.inflight = some copy →
      copy.fingerprint ∈ q.known) noted inv.noted

/-- The phone changes its number, its conflict and its note and learns nothing. -/
theorem setNumber (inv : w.Inv) (known : p.known = (w.phones i).known)
    (chosen : p.chosen = (w.phones i).chosen) (behind : w.Behind i p.version)
    (conflict : p.conflict ≤ w.number)
    (noted : ∀ copy, p.inflight = some copy → (w.phones i).inflight = some copy) :
    (w.setPhone i p).Inv := by
  have sameKnown : (w.phones i).known ⊆ p.known := known ▸ List.Subset.refl _
  have sameChosen : (w.phones i).chosen ⊆ p.chosen := chosen ▸ List.Subset.refl _
  refine inv.setPhone sameKnown sameChosen ((grows_setPhone sameKnown sameChosen).behind behind)
    conflict ?_
  intro copy found
  exact sameKnown (inv.noted i copy (noted copy found))

/-- A number the cloud's allows becomes the phone's, and the upload's note is cleared. -/
theorem settle (inv : w.Inv) {n : Nat} (behind : w.Behind i n) (committed cleared : Bool) :
    (w.setPhone i
      { ((w.phones i).versionCommit n committed).clearNote cleared with conflict := 0 }).Inv := by
  refine inv.setNumber (by simp) (by simp) ?_ (Nat.zero_le _) ?_
  · rw [PhoneState.clearNote_version]
    exact versionCommit_behind (inv.behind i) behind
  · intro copy found
    have before := PhoneState.clearNote_inflight found
    rwa [PhoneState.versionCommit_inflight] at before

theorem upload (inv : w.Inv) (i : ι) (fingerprint : Fingerprint) (noted : Bool) :
    (w.upload i fingerprint noted).Inv := by
  have known : (w.phones i).known ⊆ fingerprint :: (w.phones i).known :=
    subset_cons_self _ _
  have chosen : (w.phones i).chosen ⊆
      ((w.phones i).note ⟨(w.phones i).versionPeek, fingerprint⟩ noted).chosen := by
    rw [PhoneState.note_chosen]
    exact List.Subset.refl _
  have grows : Grows w (w.setPhone i
      { (w.phones i).note ⟨(w.phones i).versionPeek, fingerprint⟩ noted with
        known := fingerprint :: (w.phones i).known }) := grows_setPhone known chosen
  refine Inv.send (inv.setPhone known chosen (grows.behind ?_) ?_ ?_) ?_
  · rw [PhoneState.note_version]
    exact inv.behind i
  · rw [PhoneState.note_conflict]
    exact inv.conflict i
  · intro copy found
    obtain rfl | before := PhoneState.note_inflight found
    · exact mem_cons_self
    · exact mem_cons_of_mem _ (inv.noted i copy before)
  · have least := inv.behind i
    have next : (w.phones i).versionPeek ≤ (w.phones i).version + 1 := PhoneState.versionPeek_le
    refine ⟨?_, ?_, ?_, ?_⟩
    · exact Nat.le_trans next (Nat.succ_le_succ least.1)
    · intro ahead
      refine grows.entitled (least.2 ?_)
      change (w.phones i).versionPeek = w.number + 1 at ahead
      have small := least.1
      omega
    · rw [setPhone_same]
      exact mem_cons_self
    · intro empty
      have small := least.1
      rw [number, show w.stored = none from empty] at small
      rw [PhoneState.versionPeek, Nat.le_zero.mp small]
      exact Nat.one_ne_zero

omit [DecidableEq ι] in
/-- An accepted push has the number above the stored one, so every number that was not ahead is
now below. -/
theorem accept (inv : w.Inv) {session : Nat} {copy : Copy}
    (pushed : w.Truthful (.push i session copy))
    (above : ∀ c, w.stored = some c → c.version < copy.version) :
    ({ w with stored := some copy }.send (.accepted i session copy)).Inv := by
  obtain ⟨small, _, known, positive⟩ := pushed
  have next : w.number < copy.version := by
    cases stored : w.stored with
    | none =>
      rw [number, stored]
      exact Nat.pos_of_ne_zero (positive stored)
    | some c => exact number_of_stored stored ▸ above c stored
  have behind : ∀ j n, n ≤ w.number → ({ w with stored := some copy } : World ι).Behind j n := by
    intro j n before
    refine ⟨?_, fun same => ?_⟩
    · change n ≤ copy.version
      omega
    · change n = copy.version at same
      omega
  refine Inv.send ⟨?_, ?_, inv.noted, ?_⟩ ?_
  · intro j
    exact behind j _ (inv.behind j).1
  · intro j
    exact (behind j _ (inv.conflict j)).1
  · intro m member
    have before := inv.truthful m member
    cases m with
    | push j session' copy' =>
      obtain ⟨small', _, known', _⟩ := before
      refine ⟨?_, fun same => ?_, known', fun empty => by cases empty⟩
      · change copy'.version ≤ copy.version + 1
        omega
      · change copy'.version = copy.version + 1 at same
        omega
    | accepted j session' copy' => exact behind j _ before.1
    | refused j session' existing => exact (behind j _ before).1
    | pulled j session' copy' | metaRead j session' copy' =>
      refine ⟨(behind j _ before.1).1, fun same => ?_⟩
      change copy'.version = copy.version at same
      have small' := before.1
      omega
  · refine ⟨Nat.le_refl _, fun _ c stored => ?_⟩
    cases stored
    exact .inl known

omit [DecidableEq ι] in
theorem handle (inv : w.Inv) {session : Nat} {copy : Copy}
    (pushed : w.Truthful (.push i session copy)) : (w.handle i session copy).Inv := by
  rw [World.handle]
  cases stored : w.stored with
  | none => exact inv.accept pushed fun c found => nomatch stored.symm.trans found
  | some c =>
    have number := number_of_stored stored
    dsimp only
    split
    · rename_i above
      refine inv.accept pushed fun c' found => ?_
      cases stored.symm.trans found
      exact above
    · rename_i notAbove
      split
      · rename_i same
        refine inv.send ⟨?_, fun _ c' found => ?_⟩
        · rw [number]
          exact Nat.not_lt.mp notAbove
        · cases stored.symm.trans found
          exact .inl (same ▸ pushed.2.2.1)
      · exact inv.send (Nat.le_of_eq number.symm)

end Inv

/-- The step moves the phone's number without the cloud only as far as the cloud's copy allows. -/
def Keeps (w : World ι) : Event ι → Prop
  | .exportFile i committed => committed → w.Behind i (w.phones i).versionPeek
  | .importFile i version => w.Behind i version
  | _ => True

variable [DecidableEq ι] {w : World ι}

/-- The person's decision takes the refused number for the phone's. -/
theorem Inv.choose (inv : w.Inv) (i : ι) (committed : Bool) :
    (w.setPhone i
      { (w.phones i).versionCommit (w.phones i).conflict committed with
        chosen := (w.phones i).conflict :: (w.phones i).chosen, conflict := 0 }).Inv := by
  have known : (w.phones i).known ⊆
      ((w.phones i).versionCommit (w.phones i).conflict committed).known := by
    rw [PhoneState.versionCommit_known]
    exact List.Subset.refl _
  have chosen : (w.phones i).chosen ⊆ (w.phones i).conflict :: (w.phones i).chosen :=
    subset_cons_self _ _
  refine inv.setPhone known chosen ?_ (Nat.zero_le _) ?_
  · have grows := grows_setPhone (p :=
      { (w.phones i).versionCommit (w.phones i).conflict committed with
        chosen := (w.phones i).conflict :: (w.phones i).chosen, conflict := 0 }) known chosen
    refine versionCommit_behind (grows.behind (inv.behind i)) ⟨?_, fun same c stored => ?_⟩
    · rw [grows.number]
      exact inv.conflict i
    · rw [setPhone_same, ← number_of_stored stored, ← same]
      exact .inr mem_cons_self
  · intro copy found
    rw [PhoneState.versionCommit_inflight] at found
    rw [PhoneState.versionCommit_known]
    exact inv.noted i copy found

theorem Inv.step (inv : w.Inv) (event : Event ι) (keeps : w.Keeps event) : (w.step event).Inv := by
  cases event with
  | backgroundPush i fingerprint noted =>
    rw [World.step]
    split
    · exact inv.upload i fingerprint noted
    · exact inv
  | manualPush i fingerprint noted => exact inv.upload i fingerprint noted
  | handled i session copy =>
    rw [World.step]
    split
    · rename_i member
      exact inv.arrive.handle (inv.truthful _ member)
    · exact inv
  | lost m => exact inv.arrive
  | acceptedRead i session copy committed cleared =>
    rw [World.step]
    split
    · rename_i member
      dsimp only
      split
      · exact inv.arrive.settle (inv.truthful _ member) committed cleared
      · exact inv.arrive
    · exact inv
  | refusedRead i session existing cleared =>
    rw [World.step]
    split
    · rename_i member
      dsimp only
      split
      · refine inv.arrive.setNumber (by simp) (by simp) ?_ (inv.truthful _ member)
          fun _ => PhoneState.clearNote_inflight
        rw [PhoneState.clearNote_version]
        exact inv.behind i
      · exact inv.arrive
    · exact inv
  | reload i => exact inv.setNumber rfl rfl (inv.behind i) (Nat.zero_le _) fun _ found => found
  | pullAnswered i | metaAnswered i =>
    rw [World.step]
    cases stored : w.stored with
    | none => exact inv
    | some c => exact inv.send (truthful_stored stored)
  | adopt i session copy restored =>
    rw [World.step]
    split
    · rename_i member
      dsimp only
      split
      · have known : (w.phones i).known ⊆ copy.fingerprint :: (w.phones i).known :=
          subset_cons_self _ _
        refine inv.arrive.setPhone known (List.Subset.refl _) ⟨(inv.truthful _ member).1, ?_⟩
          (Nat.zero_le _) ?_
        · intro same c stored
          cases ((inv.truthful _ member).2 same).symm.trans stored
          rw [setPhone_same]
          exact .inl mem_cons_self
        · intro noted found
          exact known (inv.noted i noted found)
      · exact inv.arrive
    · exact inv
  | adoptOwn i session copy committed cleared =>
    rw [World.step]
    split
    · rename_i member
      dsimp only
      split
      · rename_i own
        refine inv.arrive.settle ⟨(inv.truthful _ member).1, ?_⟩ committed cleared
        intro same c stored
        cases ((inv.truthful _ member).2 same).symm.trans stored
        exact .inl (inv.noted i _ own.2.2)
      · exact inv.arrive
    · exact inv
  | replace i fingerprint committed noted =>
    have decided : (w.setPhone i { (if 0 < (w.phones i).conflict then
          { (w.phones i).versionCommit (w.phones i).conflict committed with
            chosen := (w.phones i).conflict :: (w.phones i).chosen }
        else w.phones i) with conflict := 0 }).Inv := by
      split
      · exact inv.choose i committed
      · exact inv.setNumber rfl rfl (inv.behind i) (Nat.zero_le _) fun _ found => found
    cases fingerprint with
    | none => exact decided
    | some fingerprint => exact decided.upload i fingerprint noted
  | exportFile i committed =>
    refine inv.setNumber (by simp) (by simp) ?_ (by simpa using inv.conflict i) (by simp)
    cases committed with
    | false =>
      rw [PhoneState.versionCommit_unwritten]
      exact inv.behind i
    | true => exact versionCommit_behind (inv.behind i) (keeps rfl)
  | importFile i version =>
    exact inv.setNumber rfl rfl keeps (inv.conflict i) fun _ found => found

omit [DecidableEq ι] in
theorem Inv.start : (start : World ι).Inv where
  behind _ := ⟨Nat.le_refl _, fun _ c stored => by cases stored⟩
  conflict _ := Nat.le_refl _
  noted _ _ found := by cases found
  truthful _ member := by cases member

/-- The worker takes the push over the stored copy. -/
def Replaces (w : World ι) (i : ι) (session : Nat) (copy c : Copy) : Prop :=
  .push i session copy ∈ w.flight ∧ w.stored = some c ∧
    (c.version < copy.version ∨ c.fingerprint = copy.fingerprint)

omit [DecidableEq ι] in
theorem Inv.entitled (inv : w.Inv) {i : ι} {session : Nat} {copy c : Copy}
    (replaces : w.Replaces i session copy c) :
    c.fingerprint ∈ (w.phones i).known ∨ c.version ∈ (w.phones i).chosen := by
  obtain ⟨member, stored, above | same⟩ := replaces
  · obtain ⟨small, entitled, _, _⟩ := inv.truthful _ member
    rw [number_of_stored stored] at small entitled
    exact entitled (by omega) c stored
  · rw [same]
    exact .inl (inv.truthful _ member).2.2.1

end World

open World

/-- In every run in which device files keep the phones' numbers from getting ahead, a push the
worker takes replaces a copy that the phone pushed or loaded or that its person chose to
replace. -/
theorem replaced_copy_known {ι : Type} [DecidableEq ι] (before after : List (Event ι)) (i : ι)
    (session : Nat) (copy c : Copy)
    (keeps : Meets World.step World.Keeps (World.start : World ι)
      (before ++ .handled i session copy :: after))
    (replaces : ((World.start : World ι).run before).Replaces i session copy c) :
    c.fingerprint ∈ (((World.start : World ι).run before).phones i).known ∨
      c.version ∈ (((World.start : World ι).run before).phones i).chosen := by
  have inv : ((World.start : World ι).run before).Inv :=
    (Meets.append.mp keeps).1.invariant (fun w event inv keeps => inv.step event keeps) Inv.start
  exact inv.entitled replaces

/-- One phone's upload is stored and its answer lost; the person saves a device file, which takes
the number of that upload. The next upload replaces it. -/
theorem replaced_copy_ownUpload :
    (1 : Fingerprint) ∈ (((World.start : World Bool).run
        [.manualPush true 1 true, .handled true 0 ⟨1, 1⟩, .lost (.accepted true 0 ⟨1, 1⟩),
          .exportFile true true, .backgroundPush true 2 true]).phones true).known ∨
      1 ∈ (((World.start : World Bool).run
        [.manualPush true 1 true, .handled true 0 ⟨1, 1⟩, .lost (.accepted true 0 ⟨1, 1⟩),
          .exportFile true true, .backgroundPush true 2 true]).phones true).chosen := by
  refine replaced_copy_known _ [] true 0 ⟨2, 2⟩ ⟨1, 1⟩
    ⟨trivial, trivial, trivial, fun _ => ⟨by decide, fun _ c stored => ?_⟩, trivial, trivial,
      trivial⟩ ⟨by decide, rfl, .inl (by decide)⟩
  cases stored
  exact .inl (by decide)

/-- A second phone loads the first one's copy and goes on from it. The first phone, one step
behind, saves a device file and is then level with the cloud: its next upload replaces the copy of
the second, which it never saw. -/
theorem replaced_copy_unseen :
    let w := (World.start : World Bool).run
      [.manualPush true 1 true, .handled true 0 ⟨1, 1⟩, .acceptedRead true 0 ⟨1, 1⟩ true true,
        .pullAnswered false, .adopt false 0 ⟨1, 1⟩ true,
        .backgroundPush false 2 true, .handled false 0 ⟨2, 2⟩,
        .exportFile true true, .backgroundPush true 3 true]
    w.Replaces true 0 ⟨3, 3⟩ ⟨2, 2⟩ ∧ 2 ∉ (w.phones true).known ∧ (w.phones true).chosen = [] ∧
      (w.step (.handled true 0 ⟨3, 3⟩)).stored = some ⟨3, 3⟩ :=
  ⟨⟨by decide, rfl, .inl (by decide)⟩, by decide, rfl, rfl⟩

end Lij.Backup
