import Lij.Backup.Cloud

/-!
# One phone and its cloud copy

A phone that is alone with the cloud can still be told that another phone's copy
is there. A retry after a lost answer carries the old number and fresh bytes, and
so do two uploads under way at once; the worker refuses the later one. A copy of
the phone's own reads as another's when the note of it is gone and the number was
not kept. `Clear` says when neither happens: an upload starts when no other is
outstanding and the cloud's number is not above the phone's, its note is written,
the note goes only once the number is kept, and no older copy or file is taken.
-/

namespace Lij.Backup

open Folds List

/-- `backup_meta_is_own`, for a cloud that keeps every copy's fingerprint. -/
def metaIsOwn (cloud : Copy) (inflight : Option Copy) : Bool :=
  match inflight with
  | some noted => noted.version == cloud.version && noted.fingerprint == cloud.fingerprint
  | none => false

theorem metaIsOwn_self (copy : Copy) : metaIsOwn copy (some copy) = true := by
  simp [metaIsOwn]

/-- A copy on its way up, or the worker's word that it was taken. -/
def Message.outstanding {ι : Type} : Message ι → Bool
  | .push .. | .accepted .. => true
  | _ => false

namespace World

/-- When one phone stays clear of itself. -/
def Clear (w : World Unit) : Event Unit → Prop
  | .backgroundPush _ _ noted | .manualPush _ _ noted | .replace _ (some _) _ noted =>
    w.flight.countP Message.outstanding = 0 ∧ w.number ≤ (w.phones ()).version ∧
      (w.phones ()).version + 1 < 18446744073709551616 ∧ noted = true
  | .acceptedRead _ _ _ committed cleared | .adoptOwn _ _ _ committed cleared =>
    cleared = true → committed = true
  | .adopt _ _ copy _ => w.number ≤ copy.version
  | .importFile _ version => w.number ≤ version
  | _ => True

/-- What the cloud holds, or has told the phone it holds. -/
def Told (w : World Unit) (copy : Copy) : Prop :=
  w.stored = some copy ∨ ∃ session, .metaRead () session copy ∈ w.flight

/-- The cloud's number covers the copy, and one above the phone's own number is the noted one. -/
def Known (w : World Unit) (copy : Copy) : Prop :=
  copy.version ≤ w.number ∧
    ((w.phones ()).version < copy.version → (w.phones ()).inflight = some copy)

/-- What may be under way: an upload is noted and above the stored copy, and none was refused. -/
def Fits (w : World Unit) : Message Unit → Prop
  | .push _ _ copy => w.number < copy.version ∧ (w.phones ()).inflight = some copy
  | .accepted _ _ copy => w.number ≤ copy.version
  | .refused .. => False
  | .metaRead _ _ copy => w.Known copy
  | .pulled .. => True

/-- At most one upload is outstanding. -/
structure Alone (w : World Unit) : Prop where
  single : w.flight.countP Message.outstanding ≤ 1
  fits : ∀ m ∈ w.flight, w.Fits m
  known : ∀ copy, w.stored = some copy → w.Known copy
  calm : (w.phones ()).conflict = 0

namespace Alone

variable {w : World Unit} {p : PhoneState}

theorem told (alone : w.Alone) {copy : Copy} (told : w.Told copy) : w.Known copy := by
  obtain stored | ⟨session, member⟩ := told
  · exact alone.known copy stored
  · exact alone.fits _ member

theorem setPhone (alone : w.Alone) (calm : p.conflict = 0)
    (noted : ∀ session copy, .push () session copy ∈ w.flight → p.inflight = some copy)
    (own : ∀ copy, w.Known copy → p.version < copy.version → p.inflight = some copy) :
    (w.setPhone () p).Alone := by
  have same := w.setPhone_same () p
  have known {copy : Copy} (known : w.Known copy) : (w.setPhone () p).Known copy :=
    ⟨known.1, by rw [same]; exact own copy known⟩
  refine ⟨alone.single, fun m member => ?_, fun copy stored => known (alone.known copy stored),
    by rwa [same]⟩
  have fits := alone.fits m member
  cases m with
  | push i session copy => exact ⟨fits.1, by rw [same]; exact noted session copy member⟩
  | metaRead i session copy => exact known fits
  | accepted i session copy | refused i session existing | pulled i session copy => exact fits

/-- The number grows and the note stays. -/
theorem raise (alone : w.Alone) (calm : p.conflict = 0)
    (inflight : p.inflight = (w.phones ()).inflight) (grows : (w.phones ()).version ≤ p.version) :
    (w.setPhone () p).Alone := by
  refine alone.setPhone calm ?_ fun copy known below => ?_
  · rw [inflight]
    exact fun session copy member => (alone.fits _ member).2
  · rw [inflight]
    exact known.2 (grows.trans_lt below)

/-- The number reaches the cloud's. -/
theorem reach (alone : w.Alone) (calm : p.conflict = 0)
    (noted : ∀ session copy, .push () session copy ∈ w.flight → p.inflight = some copy)
    (reaches : w.number ≤ p.version) : (w.setPhone () p).Alone := by
  refine alone.setPhone calm noted fun copy known below => ?_
  have small := known.1
  omega

theorem arrive (alone : w.Alone) (m : Message Unit) : (w.arrive m).Alone where
  single := erase_sublist.countP_le.trans alone.single
  fits m' member := alone.fits m' (mem_of_mem_erase member)
  known := alone.known
  calm := alone.calm

/-- Once the answer has arrived nothing is on its way up. -/
theorem none_of_arrive (alone : w.Alone) {m : Message Unit} (member : m ∈ w.flight)
    (outstanding : m.outstanding = true) : (w.flight.erase m).countP Message.outstanding = 0 := by
  have one := alone.single
  rw [countP_erase, if_pos ⟨member, outstanding⟩]
  omega

theorem send (alone : w.Alone) {m : Message Unit} (fits : w.Fits m)
    (one : m.outstanding = true → w.flight.countP Message.outstanding = 0) :
    (w.send m).Alone := by
  refine ⟨?_, fun m' member => ?_, alone.known, alone.calm⟩
  · rw [World.send, countP_cons]
    split
    · next outstanding => rw [one outstanding]
    · exact alone.single
  · obtain rfl | before := mem_cons.mp member
    · exact fits
    · exact alone.fits m' before

/-- A clear upload is the only one, noted, and above the stored copy. -/
theorem upload (alone : w.Alone) (none : w.flight.countP Message.outstanding = 0)
    (known : w.number ≤ (w.phones ()).version)
    (small : (w.phones ()).version + 1 < 18446744073709551616) (fingerprint : Fingerprint) :
    (w.upload () fingerprint true).Alone := by
  have phone := alone.reach (p := { (w.phones ()).note
    ⟨(w.phones ()).versionPeek, fingerprint⟩ true with
      known := fingerprint :: (w.phones ()).known }) alone.calm
    (fun session copy member => absurd rfl (countP_eq_zero.mp none _ member)) known
  refine phone.send ⟨?_, ?_⟩ fun _ => none
  · rw [PhoneState.versionPeek, if_pos small]
    exact Nat.lt_succ_of_le known
  · rw [setPhone_same]
    rfl

/-- The cloud stores the copy that the phone noted. -/
theorem store (alone : w.Alone) (none : w.flight.countP Message.outstanding = 0) {copy : Copy}
    (above : w.number < copy.version) (noted : (w.phones ()).inflight = some copy) :
    ({ w with stored := some copy } : World Unit).Alone := by
  refine { alone with fits := fun m member => ?_, known := fun other stored => ?_ }
  · have fits := alone.fits m member
    cases m with
    | push i session copy | accepted i session copy =>
      exact absurd rfl (countP_eq_zero.mp none _ member)
    | metaRead i session other => exact ⟨fits.1.trans above.le, fits.2⟩
    | refused i session existing | pulled i session copy => exact fits
  · cases stored
    exact ⟨Nat.le_refl _, fun _ => noted⟩

/-- The worker takes the copy on its way. -/
theorem handled (alone : w.Alone) {session : Nat} {copy : Copy}
    (member : .push () session copy ∈ w.flight) :
    ((w.arrive (.push () session copy)).handle () session copy).Alone := by
  obtain ⟨above, noted⟩ := alone.fits _ member
  have none := alone.none_of_arrive member rfl
  have taken : (w.arrive (.push () session copy)).handle () session copy =
      { w.arrive (.push () session copy) with stored := some copy }.send
        (.accepted () session copy) := by
    rw [handle]
    cases stored : w.stored with
    | none => simp [World.arrive, stored]
    | some c =>
      have lower : c.version < copy.version := by simpa [number, stored] using above
      simp [World.arrive, stored, lower]
  rw [taken]
  exact ((alone.arrive _).store none above noted).send (Nat.le_refl _) fun _ => none

/-- An answer or a word of the cloud about the noted copy: the number is kept before the note
goes. -/
theorem settle (alone : w.Alone) {version : Nat} {committed cleared : Bool}
    (kept : cleared = true → committed = true)
    (last : cleared = true → w.number ≤ version)
    (quiet : cleared = true → ∀ session copy, .push () session copy ∉ w.flight) :
    (w.setPhone () { ((w.phones ()).versionCommit version committed).clearNote cleared with
      conflict := 0 }).Alone := by
  cases cleared with
  | false =>
    exact alone.raise rfl (PhoneState.versionCommit_inflight _ _ _)
      (PhoneState.le_versionCommit _ _ _)
  | true =>
    cases kept rfl
    refine alone.reach rfl (fun session copy member => absurd member (quiet rfl session copy)) ?_
    refine (last rfl).trans ?_
    change version ≤ ((w.phones ()).versionCommit version true).version
    rw [PhoneState.versionCommit]
    split
    · exact Nat.le_refl _
    · next low => exact not_lt.mp fun up => low ⟨up, rfl⟩

/-- A noted copy above the phone's number is the last that the cloud took. -/
theorem number_le (alone : w.Alone) {copy : Copy} (above : (w.phones ()).version < copy.version)
    (noted : (w.phones ()).inflight = some copy) : w.number ≤ copy.version := by
  cases stored : w.stored with
  | none => simp [number, stored]
  | some c =>
    have isNumber : w.number = c.version := by simp [number, stored]
    by_contra more
    have same := (alone.known c stored).2 (by omega)
    cases same.symm.trans noted
    omega

/-- The noted copy is not on its way when the cloud knows it. -/
theorem not_push (alone : w.Alone) {copy : Copy} (told : w.Known copy)
    (noted : (w.phones ()).inflight = some copy) {session : Nat} {other : Copy} :
    .push () session other ∉ w.flight := by
  intro member
  obtain ⟨above, isNoted⟩ := alone.fits _ member
  cases isNoted.symm.trans noted
  exact absurd told.1 (not_le.mpr above)

/-- A step that is clear keeps the phone from a conflict with itself. -/
theorem step (alone : w.Alone) (e : Event Unit) (clear : w.Clear e) : (w.step e).Alone := by
  cases e with
  | backgroundPush i fingerprint noted =>
    obtain ⟨none, known, small, rfl⟩ := clear
    rw [World.step, if_pos alone.calm]
    exact alone.upload none known small fingerprint
  | manualPush i fingerprint noted =>
    obtain ⟨none, known, small, rfl⟩ := clear
    exact alone.upload none known small fingerprint
  | handled i session copy =>
    rw [World.step]
    split
    · next member => exact alone.handled member
    · exact alone
  | lost m => exact alone.arrive m
  | acceptedRead i session copy committed cleared =>
    rw [World.step]
    split
    · next member =>
      have none := alone.none_of_arrive member rfl
      dsimp only
      split
      · exact (alone.arrive _).settle clear (fun _ => alone.fits _ member)
          fun _ session' copy' member' => countP_eq_zero.mp none _ member' rfl
      · exact alone.arrive _
    · exact alone
  | refusedRead i session existing cleared =>
    rw [World.step, if_neg (alone.fits (.refused i session existing))]
    exact alone
  | reload i => exact alone.raise rfl rfl (Nat.le_refl _)
  | pullAnswered i =>
    rw [World.step]
    split
    · exact alone.send trivial fun outstanding => by cases outstanding
    · exact alone
  | metaAnswered i =>
    rw [World.step]
    split
    · next c stored =>
      exact alone.send (alone.known c stored) fun outstanding => by cases outstanding
    · exact alone
  | adopt i session copy restored =>
    rw [World.step]
    split
    · dsimp only
      split
      · exact (alone.arrive _).reach rfl (fun _ _ up => ((alone.arrive _).fits _ up).2) clear
      · exact alone.arrive _
    · exact alone
  | adoptOwn i session copy committed cleared =>
    rw [World.step]
    split
    · next member =>
      dsimp only
      split
      · next fresh =>
        have told : w.Known copy := alone.fits _ member
        exact (alone.arrive _).settle clear (fun _ => alone.number_le fresh.2.1 fresh.2.2)
          fun _ _ _ member' => alone.not_push told fresh.2.2 (mem_of_mem_erase member')
      · exact alone.arrive _
    · exact alone
  | replace i fingerprint committed noted =>
    have same : ¬ 0 < (w.phones ()).conflict := by simp [alone.calm]
    have quiet := alone.raise (p := { w.phones () with conflict := 0 }) rfl rfl (Nat.le_refl _)
    cases fingerprint with
    | none =>
      rw [World.step, if_neg same]
      exact quiet
    | some fingerprint =>
      obtain ⟨none, known, small, rfl⟩ := clear
      rw [World.step, if_neg same]
      refine quiet.upload none ?_ ?_ fingerprint
      · rwa [setPhone_same]
      · rwa [setPhone_same]
  | exportFile i committed =>
    exact alone.raise ((PhoneState.versionCommit_conflict _ _ _).trans alone.calm)
      (PhoneState.versionCommit_inflight _ _ _) (PhoneState.le_versionCommit _ _ _)
  | importFile i version =>
    exact alone.reach alone.calm (fun _ _ up => (alone.fits _ up).2) clear

end Alone

theorem alone_start : World.start.Alone := by
  constructor <;> simp [World.start, PhoneState.fresh]

/-- Over every clear run of one phone no conflict is ever entered, and a copy above the phone's
number, which the cloud holds or has told the phone of, is known as its own. -/
theorem onePhone_never_conflicts {events : List (Event Unit)}
    (meets : Meets World.step World.Clear World.start events) :
    ((World.start.run events).phones ()).conflict = 0 ∧
    ∀ copy, (World.start.run events).Told copy →
      ((World.start.run events).phones ()).version < copy.version →
      metaIsOwn copy ((World.start.run events).phones ()).inflight = true := by
  have alone : (World.start.run events).Alone :=
    meets.invariant (fun _ e alone clear => alone.step e clear) alone_start
  refine ⟨alone.calm, fun copy told above => ?_⟩
  rw [(alone.told told).2 above]
  exact metaIsOwn_self copy

/-- An upload, its answer lost; the page is reloaded, is told of its own copy, knows it and goes
on from its number. -/
theorem onePhone_recognises_own :
    let told : List (Event Unit) := [.manualPush () 1 true, .handled () 0 ⟨1, 1⟩,
      .lost (.accepted () 0 ⟨1, 1⟩), .reload (), .metaAnswered ()]
    ((World.start.run told).phones ()).version = 0 ∧
    metaIsOwn ⟨1, 1⟩ ((World.start.run told).phones ()).inflight = true ∧
    ((World.start.run (told ++ [.adoptOwn () 1 ⟨1, 1⟩ true true,
      .backgroundPush () 2 true])).phones ()).conflict = 0 := by
  intro told
  have clear : Meets World.step World.Clear World.start (told ++ [.adoptOwn () 1 ⟨1, 1⟩ true true,
      .backgroundPush () 2 true]) := by
    simp only [told, cons_append, nil_append, Meets, Clear]
    decide +kernel
  refine ⟨by decide +kernel, ?_, (onePhone_never_conflicts clear).1⟩
  exact (onePhone_never_conflicts (Meets.append.mp clear).1).2 ⟨1, 1⟩ (.inl (by decide +kernel))
    (by decide +kernel)

/-- An upload, its answer lost, and the retry while the app is open: the phone's own copy is
reported as another phone's. -/
theorem retry_conflicts_with_own :
    ((World.start.run [.backgroundPush () 1 true, .handled () 0 ⟨1, 1⟩,
      .lost (.accepted () 0 ⟨1, 1⟩), .backgroundPush () 2 true, .handled () 0 ⟨1, 2⟩,
      .refusedRead () 0 1 true]).phones ()).conflict = 1 := by
  decide +kernel

end World

end Lij.Backup
