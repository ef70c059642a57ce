import Lij.Foundation.Checked
import Lij.Tier2.View

/-!
# Storage and the keys encrypted at rest

The wallet keeps bytes under text keys. `EncryptedKeys` wraps a store so that the
values of the named keys are written encrypted, behind a four-byte mark, and are
decrypted when they are read through the wrapper. The store underneath answers
every read and write; a reader that is not given the wrapper gets the stored
bytes as they are.

Encryption and the JSON form of the view are parameters. The one thing the
proofs use of the form is that a text starting with the mark's first letter is
no JSON value.
-/

namespace Lij.Storage

open Bitcoin Checked Tier2

abbrev Store := String → Option Bytes

namespace Store

def empty : Store := fun _ => none

def set (store : Store) (key : String) (value : Bytes) : Store :=
  Function.update store key (some value)

theorem set_same (store : Store) (key : String) (value : Bytes) :
    store.set key value key = some value := by simp [set]

theorem set_other {store : Store} {key other : String} (different : other ≠ key) (value : Bytes) :
    store.set key value other = store other := by simp [set, different]

end Store

/-- AES-256-GCM; the nonce is drawn for each encryption. -/
structure Cipher where
  encrypt : BitVec 256 → BitVec 96 → Bytes → Except String Bytes
  decrypt : BitVec 256 → Bytes → Except String Bytes

structure EncryptedKeys where
  cipher : Cipher
  key : BitVec 256
  keys : List String

/-- `ENC1`. -/
def encMagic : Bytes := [0x45, 0x4e, 0x43, 0x31]

namespace EncryptedKeys

def covered (wrapper : EncryptedKeys) (key : String) : Bool := wrapper.keys.any fun k => k = key

def get (wrapper : EncryptedKeys) (inner : Store) (key : String) :
    Except String (Option Bytes) :=
  match inner key with
  | none => .ok none
  | some raw =>
    -- passed through, or a value from before the encryption
    if !wrapper.covered key || !encMagic.isPrefixOf raw then .ok (some raw)
    else
      match wrapper.cipher.decrypt wrapper.key (raw.drop encMagic.length) with
      | .ok plain => .ok (some plain)
      | .error e => .error (s!"encrypted key {key}: " ++ e)

def set (wrapper : EncryptedKeys) (inner : Store) (nonce : BitVec 96) (key : String)
    (value : Bytes) : Except String Store :=
  if !wrapper.covered key then .ok (inner.set key value)
  else
    match wrapper.cipher.encrypt wrapper.key nonce value with
    | .ok ct => .ok (inner.set key (encMagic ++ ct))
    | .error e => .error (s!"encrypt {key}: " ++ e)

end EncryptedKeys

def viewKey : String := "tier2_view"
def marksKey : String := "tier2_marks"
def nwcKey : String := "lij_nwc"
def txStoreKey : String := "tier2_txs"
def recordsKey : String := "tatara_records"
def seatsKey : String := "tatara_seats"
def closeJoinsKey : String := "tatara_close_joins"
def pendingKey : String := "tier2_pending"

def encryptedKeys : List String :=
  [viewKey, marksKey, nwcKey, txStoreKey, recordsKey, seatsKey, closeJoinsKey]

/-- The one list of on-chain keys encrypted at rest. -/
def encrypted (cipher : Cipher) (key : BitVec 256) : EncryptedKeys :=
  { cipher, key, keys := encryptedKeys }

/-! ## The persisted view -/

/-- The JSON forms of what the books are read from. -/
structure Format where
  printView : Tier2View → Bytes
  parseView : Bytes → Except String Tier2View
  /-- The ids of a stored pending list; a list that does not parse counts as empty. -/
  pendingTxids : Bytes → List Txid
  /-- No JSON value starts with the letter `E`. -/
  parseView_magic : ∀ rest, ∃ e, parseView (0x45 :: rest) = .error e

/-- The sync saves the view through the encrypting store. -/
def saveView (format : Format) (wrapper : EncryptedKeys) (inner : Store) (nonce : BitVec 96)
    (view : Tier2View) : Except String Store :=
  wrapper.set inner nonce viewKey (format.printView view)

/-- Load the view through a reader of the store, or a fresh one if none was saved. -/
def loadView (format : Format) (read : String → Except String (Option Bytes)) :
    Except String Tier2View := do
  match ← read viewKey with
  | some bytes => (format.parseView bytes).mapError fun e => "tier2 view parse: " ++ e
  | none => return .empty

/-- Reading the store without the wrapper. -/
def plain (store : Store) (key : String) : Except String (Option Bytes) := .ok (store key)

variable {format : Format} {cipher : Cipher} {key : BitVec 256} {inner later : Store}
  {nonce : BitVec 96} {view : Tier2View}

theorem saveView_eq_ok {saved : Store}
    (save : saveView format (encrypted cipher key) inner nonce view = .ok saved) :
    ∃ ct, cipher.encrypt key nonce (format.printView view) = .ok ct ∧
      saved viewKey = some (encMagic ++ ct) := by
  have covered : (encrypted cipher key).covered viewKey = true := by
    simp [EncryptedKeys.covered, encrypted, encryptedKeys]
  simp only [saveView, EncryptedKeys.set, covered, Bool.not_true, Bool.false_eq_true, if_false]
    at save
  cases result : (encrypted cipher key).cipher.encrypt (encrypted cipher key).key nonce
      (format.printView view) with
  | error e =>
    rw [result] at save
    cases save
  | ok ct =>
    rw [result] at save
    cases save
    exact ⟨ct, result, Store.set_same _ _ _⟩

/-- A saved view cannot be read without the wrapper. -/
theorem loadView_plain_of_saved {saved : Store}
    (save : saveView format (encrypted cipher key) inner nonce view = .ok saved)
    (kept : later viewKey = saved viewKey) : ∃ e, loadView format (plain later) = .error e := by
  obtain ⟨ct, _, stored⟩ := saveView_eq_ok save
  obtain ⟨e, fails⟩ := format.parseView_magic ([0x4e, 0x43, 0x31] ++ ct)
  refine ⟨"tier2 view parse: " ++ e, ?_⟩
  have read : plain later viewKey = .ok (some (encMagic ++ ct)) := by rw [plain, kept, stored]
  rw [loadView, read]
  change (format.parseView (0x45 :: ([0x4e, 0x43, 0x31] ++ ct))).mapError _ = _
  rw [fails]
  rfl

/-- Read through the wrapper it comes back as it was saved. -/
theorem loadView_encrypted_of_saved {saved : Store}
    (roundTrip : ∀ ct, cipher.encrypt key nonce (format.printView view) = .ok ct →
      cipher.decrypt key ct = .ok (format.printView view))
    (parses : format.parseView (format.printView view) = .ok view)
    (save : saveView format (encrypted cipher key) inner nonce view = .ok saved)
    (kept : later viewKey = saved viewKey) :
    loadView format ((encrypted cipher key).get later) = .ok view := by
  obtain ⟨ct, encrypts, stored⟩ := saveView_eq_ok save
  have read : (encrypted cipher key).get later viewKey = .ok (some (format.printView view)) := by
    have covered : (encrypted cipher key).covered viewKey = true := by
      simp [EncryptedKeys.covered, encrypted, encryptedKeys]
    have marked : encMagic.isPrefixOf (encMagic ++ ct) = true :=
      List.isPrefixOf_iff_prefix.mpr (List.prefix_append _ _)
    have decrypts : (encrypted cipher key).cipher.decrypt (encrypted cipher key).key
        ((encMagic ++ ct).drop encMagic.length) = .ok (format.printView view) := by
      rw [List.drop_left]
      exact roundTrip ct encrypts
    simp only [EncryptedKeys.get, kept, stored, covered, marked, decrypts, Bool.not_true,
      Bool.or_self, Bool.false_eq_true, if_false]
  rw [loadView, read]
  change (format.parseView (format.printView view)).mapError _ = _
  rw [parses]
  rfl

end Lij.Storage
