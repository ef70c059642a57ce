import Lij.Foundation.Maps
import Lij.Foundation.Writes
import Lij.Storage

/-!
# Restoring a backup

A backup is one encrypted bundle of storage entries, each value written in
hexadecimal. A restore opens the bundle and writes its entries back one key at a
time, in key order, and last the bundle's number under the key of the phone's own
number. A value is decoded when its turn comes, and each write may fail, so an
error in the middle leaves the entries before it in the store.

`Settled` says when the restore is all or nothing: the entries written before the
first failure were there already, and the bundle does not carry another value
under the key of the number.
-/

namespace Lij.Backup

open Fallible Storing Storage List

def backupVersionKey : String := "lij_backup_version"
def monitorKeyPrefix : String := "lij:monitor:"

/-- The text of an error of the backup. -/
def backupError (text : String) : String := "Backup error: " ++ text

structure StateBlob where
  version : UInt64
  encryptedData : Bytes
  savedAtMs : UInt64

abbrev Bundle := Std.TreeMap String String

/-- Opening a copy: the cipher, the JSON form of the bundle and the reader of hexadecimal text. -/
structure Opening where
  cipher : Cipher
  parseBundle : Bytes → Except String Bundle
  hexDecode : String → Except String Bytes

namespace Opening

/-- Decrypt a copy and read its bundle. -/
def bundle (O : Opening) (key : BitVec 256) (blob : StateBlob) : Except String Bundle := do
  let plaintext ← (O.cipher.decrypt key blob.encryptedData).mapError fun e =>
    backupError ("backup decrypt: " ++ e)
  (O.parseBundle plaintext).mapError fun e => backupError ("backup bundle parse: " ++ e)

/-- The write of one entry. -/
def entryWrite (O : Opening) (entry : String × String) : Except String (Store → Store) := do
  let bytes ← (O.hexDecode entry.2).mapError fun e => backupError ("backup entry hex: " ++ e)
  return fun store => store.set entry.1 bytes

def countMonitor (monitors : Nat) (entry : String × String) : Nat :=
  if monitorKeyPrefix.toList.isPrefixOf entry.1.toList then monitors + 1 else monitors

def versionBytes (blob : StateBlob) : Bytes := Bytes.ofNat 8 blob.version.toNat

/-- Write a copy's entries into the store. Returns the number of channel monitors. -/
def injectStateBlob (O : Opening) (key : BitVec 256) (blob : StateBlob) : Storing Store Nat := do
  let bundle ← lift (O.bundle key blob)
  let monitors ← writeEach O.entryWrite countMonitor 0 bundle.toList
  write fun store => store.set backupVersionKey (versionBytes blob)
  return monitors

/-- The error's text put behind a word of the caller's. -/
def relabel {α : Type} (label : String) (m : Storing Store α) : Storing Store α :=
  tryCatch m fun e => throw (backupError (label ++ e))

/-- Restore the cloud's copy with the words alone. `rootKey` is the key the words give and `pulled`
the cloud's answer. -/
def adoptCloudBackup (O : Opening) (rootKey : Except String (BitVec 256))
    (pulled : Except String (Option StateBlob)) : Storing Store (Nat × UInt64 × UInt64) := do
  let key ← lift rootKey
  match pulled with
  | .ok (some blob) => do
    let n ← relabel "CORRUPT: " (O.injectStateBlob key blob)
    return (n, blob.version, blob.savedAtMs)
  | .ok none => throw (backupError "NO_COPY")
  | .error e => throw (backupError ("FETCH: " ++ e))

end Opening

open Opening

variable {O : Opening} {key : BitVec 256} {blob : StateBlob} {bundle : Bundle} {store : Store}
variable {outcomes : List (Option String)}

/-! ## The entries of a bundle -/

/-- The store holds the entry's bytes. -/
def Holds (O : Opening) (store : Store) (entry : String × String) : Prop :=
  ∃ bytes, O.hexDecode entry.2 = .ok bytes ∧ store entry.1 = some bytes

/-- No two entries have one key. -/
def DistinctKeys (entries : List (String × String)) : Prop :=
  entries.Pairwise fun a b => a.1 ≠ b.1

theorem toList_distinctKeys (bundle : Bundle) : DistinctKeys bundle.toList := by
  apply Std.TreeMap.distinct_keys_toList.imp
  intro a b different same
  exact different (by rw [same]; exact Std.ReflCmp.compare_self)

theorem entryWrite_ok {entry : String × String} {bytes : Bytes}
    (decoded : O.hexDecode entry.2 = .ok bytes) :
    O.entryWrite entry = .ok fun store => store.set entry.1 bytes := by
  simp only [entryWrite, decoded]
  rfl

theorem entryWrite_error {entry : String × String} {e : String}
    (refused : O.hexDecode entry.2 = .error e) :
    O.entryWrite entry = .error (backupError ("backup entry hex: " ++ e)) := by
  simp only [entryWrite, refused]
  rfl

/-- A key that no entry has keeps its value. -/
theorem landed_absent {entries : List (String × String)} {name : String}
    (absent : ∀ entry ∈ entries, entry.1 ≠ name) :
    landed O.entryWrite store entries name = store name := by
  induction entries generalizing store with
  | nil => rfl
  | cons entry entries ih =>
    obtain ⟨other, others⟩ := forall_mem_cons.mp absent
    rw [landed, foldl_cons, ← landed, ih others]
    cases decoded : O.hexDecode entry.2 with
    | error e => rw [entryWrite_error decoded]
    | ok bytes =>
      rw [entryWrite_ok decoded]
      exact Store.set_other other.symm bytes

/-- An entry that decodes is in the store afterwards: no later entry has its key. -/
theorem landed_entry {entries : List (String × String)} (distinct : DistinctKeys entries)
    {entry : String × String} (member : entry ∈ entries) {bytes : Bytes}
    (decoded : O.hexDecode entry.2 = .ok bytes) :
    landed O.entryWrite store entries entry.1 = some bytes := by
  induction entries generalizing store with
  | nil => cases member
  | cons first entries ih =>
    obtain ⟨others, distinct⟩ := pairwise_cons.mp distinct
    rw [landed, foldl_cons, ← landed]
    obtain rfl | later := mem_cons.mp member
    · rw [landed_absent fun other inside => (others other inside).symm, entryWrite_ok decoded]
      exact Store.set_same store entry.1 bytes
    · exact ih distinct later

/-- Writing entries changes nothing exactly when they were in the store. -/
theorem landed_eq_iff {entries : List (String × String)} (distinct : DistinctKeys entries)
    (decodes : ∀ entry ∈ entries, ∃ bytes,
      O.hexDecode entry.2 = .ok bytes) :
    landed O.entryWrite store entries = store ↔ ∀ entry ∈ entries, Holds O store entry := by
  constructor
  · intro same entry member
    obtain ⟨bytes, decoded⟩ := decodes entry member
    refine ⟨bytes, decoded, ?_⟩
    have written : landed O.entryWrite store entries entry.1 = some bytes :=
      landed_entry distinct member decoded
    rwa [same] at written
  · intro held
    clear decodes distinct
    induction entries with
    | nil => rfl
    | cons entry entries ih =>
      obtain ⟨⟨bytes, decoded, here⟩, others⟩ := forall_mem_cons.mp held
      have unchanged : store.set entry.1 bytes = store :=
        Function.update_eq_self_iff.mpr here.symm
      rw [landed, foldl_cons, ← landed, entryWrite_ok decoded]
      simpa only [unchanged] using ih others

/-! ## All or nothing -/

/-- The restore of the entries fails at this place: the entry does not decode or its write fails;
the place behind the last entry is the write of the number. -/
def RestoreFailsAt (O : Opening) (bundle : Bundle) (outcomes : List (Option String))
    (j : Nat) : Prop :=
  (∃ entry e, bundle.toList[j]? = some entry ∧ O.hexDecode entry.2 = .error e) ∨
    ∃ message, outcomes[j]? = some (some message)

theorem restoreFailsAt_iff {j : Nat} :
    RestoreFailsAt O bundle outcomes j ↔ FailsAt O.entryWrite bundle.toList outcomes j := by
  refine or_congr ⟨?_, ?_⟩ Iff.rfl
  · rintro ⟨entry, e, here, refused⟩
    exact ⟨entry, _, here, entryWrite_error refused⟩
  · rintro ⟨entry, message, here, refused⟩
    cases decoded : O.hexDecode entry.2 with
    | error e => exact ⟨entry, e, here, decoded⟩
    | ok bytes =>
      rw [entryWrite_ok decoded] at refused
      cases refused

/-- Entries before which and at which nothing fails decode. -/
theorem decodes_of_not_fails {j : Nat} (fine : ∀ i < j, ¬RestoreFailsAt O bundle outcomes i) :
    ∀ entry ∈ bundle.toList.take j, ∃ bytes,
      O.hexDecode entry.2 = .ok bytes := by
  intro entry member
  obtain ⟨i, inside, here⟩ := mem_take_iff_getElem.mp member
  cases decoded : O.hexDecode entry.2 with
  | ok bytes => exact ⟨bytes, rfl⟩
  | error e =>
    refine absurd (Or.inl ⟨entry, e, ?_, decoded⟩) (fine i (by omega))
    rw [getElem?_eq_getElem (by omega), here]

/-- The copy is in the store: every entry and the number. -/
def Restored (O : Opening) (blob : StateBlob) (bundle : Bundle) (store : Store) : Prop :=
  (∀ entry ∈ bundle.toList, Holds O store entry) ∧
    store backupVersionKey = some (versionBytes blob)

/-- A restore either leaves every key as it was and returns an error, or writes the copy. -/
def AllOrNothing {α : Type} (restore : Storing Store α) (store : Store)
    (outcomes : List (Option String)) (restored : Store → Prop) : Prop :=
  (∀ message, (restore.run store outcomes).1 = .error message →
      (restore.run store outcomes).2 = store) ∧
    ∀ a, (restore.run store outcomes).1 = .ok a → restored (restore.run store outcomes).2

section

variable {α : Type} {restore : Storing Store α} {after : Store} {restored : Store → Prop}

theorem allOrNothing_of_error {message : String}
    (result : restore.run store outcomes = (.error message, after)) :
    AllOrNothing restore store outcomes restored ↔ after = store := by
  simp [AllOrNothing, result]

theorem allOrNothing_of_ok {a : α} (result : restore.run store outcomes = (.ok a, after)) :
    AllOrNothing restore store outcomes restored ↔ restored after := by
  simp [AllOrNothing, result]

end

/-- The copy whose restore is asked for is in the store. -/
def RestoredFrom (O : Opening) (key : BitVec 256) (blob : StateBlob) (store : Store) : Prop :=
  ∃ bundle, O.bundle key blob = .ok bundle ∧ Restored O blob bundle store

/-- What stands before a bundle's restore: the entries ahead of the first failure are in the store
already, and if nothing fails the bundle has no other value under the key of the number. -/
structure SettledFor (O : Opening) (blob : StateBlob) (bundle : Bundle) (store : Store)
    (outcomes : List (Option String)) : Prop where
  before : ∀ j ≤ bundle.toList.length, RestoreFailsAt O bundle outcomes j →
    (∀ i < j, ¬RestoreFailsAt O bundle outcomes i) →
      ∀ entry ∈ bundle.toList.take j, Holds O store entry
  number : (∀ j ≤ bundle.toList.length, ¬RestoreFailsAt O bundle outcomes j) →
    ∀ text, bundle[backupVersionKey]? = some text →
      O.hexDecode text = .ok (versionBytes blob)

/-- The same of the bundle the copy opens to, if it opens. -/
def Settled (O : Opening) (key : BitVec 256) (blob : StateBlob) (store : Store)
    (outcomes : List (Option String)) : Prop :=
  ∀ bundle, O.bundle key blob = .ok bundle → SettledFor O blob bundle store outcomes

/-- A restore ends at its first failing place, with the entries before it written. -/
theorem run_injectStateBlob (opened : O.bundle key blob = .ok bundle) :
    (∃ j ≤ bundle.toList.length, RestoreFailsAt O bundle outcomes j ∧
        (∀ i < j, ¬RestoreFailsAt O bundle outcomes i) ∧
        ∃ message, (O.injectStateBlob key blob).run store outcomes =
          (.error message, landed O.entryWrite store (bundle.toList.take j))) ∨
      ((∀ j ≤ bundle.toList.length, ¬RestoreFailsAt O bundle outcomes j) ∧
        ∃ monitors, (O.injectStateBlob key blob).run store outcomes =
          (.ok monitors, (landed O.entryWrite store bundle.toList).set backupVersionKey
            (versionBytes blob))) := by
  have loop := exec_writeEach O.entryWrite countMonitor 0 bundle.toList store outcomes
  simp only [← restoreFailsAt_iff] at loop
  have run : (O.injectStateBlob key blob).exec ⟨store, outcomes⟩ =
      ((do
        let monitors ← writeEach O.entryWrite countMonitor 0 bundle.toList
        write fun store => store.set backupVersionKey (versionBytes blob)
        return monitors : Storing Store Nat)).exec ⟨store, outcomes⟩ := by
    rw [injectStateBlob, opened]
    rfl
  rw [Storing.run, run, exec_bind]
  obtain ⟨j, inside, fails, before, message, isError, disk⟩ | ⟨fine, isOk⟩ := loop
  · refine .inl ⟨j, inside.le, fails, before, message, ?_⟩
    cases result : (writeEach O.entryWrite countMonitor 0 bundle.toList).exec ⟨store, outcomes⟩
      with
    | mk outcome left =>
      rw [result] at isError disk
      cases isError
      exact congrArg (Prod.mk _) disk
  · rw [isOk]
    dsimp only
    rw [exec_bind, exec_write, head?_drop]
    -- the entries landed; the number's write is the last place
    cases last : outcomes[bundle.toList.length]?.join with
    | none =>
      refine .inr ⟨?_, _, rfl⟩
      intro j inside
      obtain early | rfl := Nat.lt_or_eq_of_le inside
      · exact fine j early
      · rintro (⟨entry, _, here, _⟩ | ⟨message, here⟩)
        · rw [getElem?_eq_none le_rfl] at here
          cases here
        · rw [here] at last
          cases last
    | some message =>
      refine .inl ⟨bundle.toList.length, le_rfl, .inr ⟨message, ?_⟩, fine, message, ?_⟩
      · exact Option.join_eq_some_iff.mp last
      · rw [take_length]

/-- A restore that fails first at `j` leaves the store as it was exactly when the entries before
`j` were there. -/
theorem settledFor_of_failsAt {j : Nat} (inside : j ≤ bundle.toList.length)
    (fails : RestoreFailsAt O bundle outcomes j)
    (before : ∀ i < j, ¬RestoreFailsAt O bundle outcomes i) :
    landed O.entryWrite store (bundle.toList.take j) = store ↔
      SettledFor O blob bundle store outcomes := by
  have distinct : DistinctKeys (bundle.toList.take j) :=
    (toList_distinctKeys bundle).sublist (take_sublist _ _)
  rw [landed_eq_iff distinct (decodes_of_not_fails before)]
  refine ⟨?_, fun settled => settled.before j inside fails before⟩
  intro held
  refine ⟨?_, fun fine => absurd fails (fine j inside)⟩
  intro j' _ fails' before'
  obtain early | rfl | late := Nat.lt_trichotomy j j'
  · exact absurd fails (before' j early)
  · exact held
  · exact absurd fails' (before j' late)

/-- A restore in which nothing fails leaves the copy in the store unless the bundle has another
value under the key of the number. -/
theorem settledFor_of_fine
    (fine : ∀ j ≤ bundle.toList.length, ¬RestoreFailsAt O bundle outcomes j) :
    Restored O blob bundle ((landed O.entryWrite store bundle.toList).set backupVersionKey
        (versionBytes blob)) ↔
      SettledFor O blob bundle store outcomes := by
  have decodes : ∀ entry ∈ bundle.toList, ∃ bytes,
      O.hexDecode entry.2 = .ok bytes := by
    have all := decodes_of_not_fails fun i (early : i < bundle.toList.length) => fine i early.le
    rwa [take_length] at all
  constructor
  · rintro ⟨entries, _⟩
    refine ⟨fun j inside fails => absurd fails (fine j inside), fun _ text found => ?_⟩
    have member := Std.TreeMap.mem_toList_iff_getElem?_eq_some.mpr found
    obtain ⟨bytes, decoded, held⟩ := entries _ member
    rw [Store.set_same] at held
    rw [decoded, Option.some.inj held]
  · intro settled
    refine ⟨?_, Store.set_same _ _ _⟩
    intro entry member
    obtain ⟨bytes, decoded⟩ := decodes entry member
    refine ⟨bytes, decoded, ?_⟩
    by_cases number : entry.1 = backupVersionKey
    · have found : bundle[backupVersionKey]? = some entry.2 := by
        rw [← number]
        exact Std.TreeMap.mem_toList_iff_getElem?_eq_some.mp member
      rw [number, Store.set_same]
      cases decoded.symm.trans (settled.number fine _ found)
      rfl
    · rw [Store.set_other number]
      exact landed_entry (toList_distinctKeys bundle) member decoded

/-- Whether the restore is all or nothing is settled before it starts. -/
theorem injectStateBlob_settled :
    AllOrNothing (O.injectStateBlob key blob) store outcomes (RestoredFrom O key blob) ↔
      Settled O key blob store outcomes := by
  cases opened : O.bundle key blob with
  | error message =>
    have run : (O.injectStateBlob key blob).run store outcomes = (.error message, store) := by
      rw [injectStateBlob, opened]
      rfl
    exact iff_of_true ((allOrNothing_of_error run).mpr rfl) fun _ opened' =>
      nomatch opened.symm.trans opened'
  | ok bundle =>
    have one : Settled O key blob store outcomes ↔ SettledFor O blob bundle store outcomes := by
      simp [Settled, opened]
    have restoredFrom (store' : Store) :
        RestoredFrom O key blob store' ↔ Restored O blob bundle store' := by
      simp [RestoredFrom, opened]
    rw [one]
    obtain ⟨j, inside, fails, before, message, run⟩ | ⟨fine, monitors, run⟩ :=
      run_injectStateBlob opened
    · rw [allOrNothing_of_error run]
      exact settledFor_of_failsAt inside fails before
    · rw [allOrNothing_of_ok run, restoredFrom]
      exact settledFor_of_fine fine

/-- The cloud's restore is the same with other words for the error. -/
theorem run_adoptCloudBackup :
    (O.adoptCloudBackup (.ok key) (.ok (some blob))).run store outcomes =
      match (O.injectStateBlob key blob).run store outcomes with
      | (.ok n, after) => (.ok (n, blob.version, blob.savedAtMs), after)
      | (.error e, after) => (.error (backupError ("CORRUPT: " ++ e)), after) := by
  have body : O.adoptCloudBackup (.ok key) (.ok (some blob)) = (do
      let n ← relabel "CORRUPT: " (O.injectStateBlob key blob)
      return (n, blob.version, blob.savedAtMs)) := rfl
  rw [Storing.run, Storing.run, body, exec_bind, relabel, exec_tryCatch]
  cases (O.injectStateBlob key blob).exec ⟨store, outcomes⟩ with
  | mk outcome left =>
    cases outcome with
    | ok n | error e => rfl

theorem adoptCloudBackup_settled :
    AllOrNothing (O.adoptCloudBackup (.ok key) (.ok (some blob))) store outcomes
        (RestoredFrom O key blob) ↔ Settled O key blob store outcomes := by
  rw [← injectStateBlob_settled]
  have run : (O.adoptCloudBackup (.ok key) (.ok (some blob))).run store outcomes = _ :=
    run_adoptCloudBackup
  cases result : (O.injectStateBlob key blob).run store outcomes with
  | mk outcome after =>
    rw [result] at run
    cases outcome with
    | error e => rw [allOrNothing_of_error run, allOrNothing_of_error result]
    | ok n => rw [allOrNothing_of_ok run, allOrNothing_of_ok result]

/-- An answer of the cloud without a copy writes nothing. -/
theorem adoptCloudBackup_nothing {rootKey : Except String (BitVec 256)}
    {pulled : Except String (Option StateBlob)}
    (nothing : ∀ key blob, rootKey = .ok key → pulled ≠ .ok (some blob)) :
    ∃ message,
      (O.adoptCloudBackup rootKey pulled).run store outcomes = (.error message, store) := by
  cases rootKey with
  | error e => exact ⟨e, rfl⟩
  | ok key =>
    cases pulled with
    | error e => exact ⟨_, rfl⟩
    | ok copy =>
      cases copy with
      | none => exact ⟨_, rfl⟩
      | some blob => exact absurd rfl (nothing key blob rfl)

/-- A restore, from a file or from the cloud's answer, is all or nothing exactly when what is
written ahead of its first failure was in the store already and no entry of the bundle loses its
place to the number. -/
theorem restore_allOrNothing_iff (O : Opening) (store : Store)
    (outcomes : List (Option String)) :
    (∀ key blob,
      AllOrNothing (O.injectStateBlob key blob) store outcomes (RestoredFrom O key blob) ↔
        Settled O key blob store outcomes) ∧
    ∀ rootKey pulled,
      AllOrNothing (O.adoptCloudBackup rootKey pulled) store outcomes (fun after =>
          ∃ key blob, rootKey = .ok key ∧ pulled = .ok (some blob) ∧
            RestoredFrom O key blob after) ↔
        ∀ key blob, rootKey = .ok key → pulled = .ok (some blob) →
          Settled O key blob store outcomes := by
  refine ⟨fun key blob => injectStateBlob_settled, fun rootKey pulled => ?_⟩
  by_cases copy : ∃ key blob, rootKey = .ok key ∧ pulled = .ok (some blob)
  · obtain ⟨key, blob, rfl, rfl⟩ := copy
    simpa using adoptCloudBackup_settled
  · have nothing : ∀ key blob, rootKey = .ok key → pulled ≠ .ok (some blob) :=
      fun key blob sameKey sameBlob => copy ⟨key, blob, sameKey, sameBlob⟩
    obtain ⟨message, run⟩ := adoptCloudBackup_nothing (O := O) nothing
    exact iff_of_true ((allOrNothing_of_error run).mpr rfl) fun key blob sameKey sameBlob =>
      absurd sameBlob (nothing key blob sameKey)

/-- Two entries, one behind the other. -/
def twoEntries : Opening where
  cipher := { encrypt := fun _ _ plain => .ok plain, decrypt := fun _ sealed => .ok sealed }
  parseBundle _ := .ok (.ofList [("lij:monitor:a", "02"), ("lij_channel_manager", "02")])
  hexDecode _ := .ok [2]

/-- The storage is full at the second write: the error says so, and the first entry, a channel
monitor, has taken the place of the phone's own. -/
theorem restore_halfDone :
    ((twoEntries.adoptCloudBackup (.ok 0) (.ok (some ⟨7, [], 0⟩))).run
        (Store.empty.set "lij:monitor:a" [1]) [none, some "quota"]).1 =
      .error (backupError "CORRUPT: quota") ∧
    ((twoEntries.adoptCloudBackup (.ok 0) (.ok (some ⟨7, [], 0⟩))).run
        (Store.empty.set "lij:monitor:a" [1]) [none, some "quota"]).2 "lij:monitor:a" =
      some [2] ∧
    (Store.empty.set "lij:monitor:a" [1]) "lij:monitor:a" = some [1] := by
  decide +kernel

end Lij.Backup
