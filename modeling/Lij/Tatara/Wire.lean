import Lij.Foundation.Fallible
import Lij.Tatara.Rederive

/-!
# The pool's channel

Pool messages travel as nostr events, encrypted to the pool's key and tagged with
it. Every member holds the pool's private key, so only the event's signature says
who sent it: the id and the signature are checked before anything is read, an
event already seen is ignored, and the size is capped before decryption.
-/

namespace Lij.Tatara

open Bitcoin Joinstr Checked

/-- The engine's nostr code: keys, ECDH, event ids, Schnorr signatures and NIP-04. A signature
draws random bytes; `signSchnorr` is any choice of them. -/
structure Nostr (P : Primitives) where
  secretKey : Digest → Except String SecretKey
  xonly : SecretKey → SessionKey
  onCurve : SessionKey → Bool
  ecdhX : SecretKey → SessionKey → Except String Digest
  eventId : String → Nat → Nat → List (List String) → String → String
  signSchnorr : SecretKey → String → String
  verifySchnorr : SessionKey → String → String → Except String Unit
  encrypt : Digest → Bytes → P.Text → Except String String
  decrypt : Digest → String → Except String P.Text
  ecdhX_symm : ∀ a b, ecdhX a (xonly b) = ecdhX b (xonly a)
  decrypt_encrypt : ∀ {x iv text content}, encrypt x iv text = .ok content →
    decrypt x content = .ok text

namespace Wire

structure Event where
  id : String
  pubkey : String
  createdAt : Nat
  kind : Nat
  tags : List (List String)
  content : String
  sig : String
  deriving DecidableEq, Repr

def kind : Nat := 4

/-- The most an event's content may carry: a capped message in base64 with its padding. -/
def maxContent : Nat := (maxMessageBytes + 16) * 4 / 3 + 64

/-- The nostr name of a key. -/
def keyHex (key : SessionKey) : String := Hex.encode (Bytes.of256 key)

/-- The bytes of a text with its capital letters made small. -/
def asciiLowercase (text : String) : Bytes :=
  (Bytes.ofText text).map fun b => if 65 ≤ b ∧ b ≤ 90 then b + 32 else b

section

variable {P : Primitives} (W : Nostr P)

def pubkeyFromHex (hex : String) : Except String SessionKey := do
  let bytes ← context (Hex.decodeAnyBytes (Bytes.ofText hex)) "nwc: pubkey is not hex"
  ensure (bytes.length = 32 ∧ W.onCurve (Bytes.to256 bytes)) "nwc: pubkey is not a curve point"
  return Bytes.to256 bytes

def signEvent (sk : SecretKey) (createdAt kind : Nat) (tags : List (List String))
    (content : String) : Event :=
  let pubkey := keyHex (W.xonly sk)
  let id := W.eventId pubkey createdAt kind tags content
  { id, pubkey, createdAt, kind, tags, content, sig := W.signSchnorr sk id }

/-- The id is the hash of the fields and the signature is the author's. -/
def verifyEvent (ev : Event) : Except String Unit := do
  let id := W.eventId ev.pubkey ev.createdAt ev.kind ev.tags ev.content
  ensure (Bytes.ofText id = asciiLowercase ev.id) "nwc: event id does not match its fields"
  let author ← pubkeyFromHex W ev.pubkey
  W.verifySchnorr author id ev.sig

/-- Seal a pool message: encrypted to the pool's key, tagged with it, signed by the author. -/
def sealEvent (author : SecretKey) (poolPk : String) (json : P.Text) (createdAt : Nat)
    (iv : Bytes) :
    Except String Event := do
  ensure (P.size json ≤ maxMessageBytes) "message too large to send"
  let pool ← pubkeyFromHex W poolPk
  let shared ← W.ecdhX author pool
  let content ← W.encrypt shared iv json
  return signEvent W author createdAt kind [["p", poolPk]] content

/-- What is checked of an event before it is looked up among those seen. -/
def checkEvent (poolPk : String) (ev : Event) : Except String Unit := do
  ensure (ev.kind = kind) "not a pool message"
  ensure (ev.tags.any fun t => t.take 2 == ["p", poolPk]) "not for this pool"
  ensure ((Bytes.ofText ev.content).length ≤ maxContent) "pool event too large"
  ensure ((Bytes.ofText ev.pubkey).length = 64 ∧ (Bytes.ofText ev.pubkey).all Hex.isDigit)
    "bad author key"
  (verifyEvent W ev).mapError fun _ => "event id or signature"

/-- The author's key and the message. -/
def readEvent (poolSk : SecretKey) (ev : Event) : Except String (SessionKey × P.Text) := do
  let author ← pubkeyFromHex W ev.pubkey
  let shared ← W.ecdhX poolSk author
  let json ← W.decrypt shared ev.content
  ensure (P.size json ≤ maxMessageBytes) "pool message too large"
  return (author, json)

/-- Open a pool event, once; none for an event already seen. -/
def openEvent (poolSk : SecretKey) (poolPk : String) (ev : Event) :
    Fallible (List String) (Option (SessionKey × P.Text)) := do
  Fallible.lift (checkEvent W poolPk ev)
  let seen ← get
  if ev.id ∈ seen then return none
  modify fun seen => seen ++ [ev.id]
  let opened ← Fallible.lift (readEvent W poolSk ev)
  return some opened

end

/-! ## What a sealed event says -/

variable {P : Primitives} {W : Nostr P}

theorem pubkeyFromHex_keyHex {key key' : SessionKey}
    (read : pubkeyFromHex W (keyHex key) = .ok key') : key' = key := by
  obtain ⟨bytes, decoded, rest⟩ := bind_eq_ok.mp read
  obtain ⟨_, same⟩ := ensure_bind_eq_ok.mp rest
  rw [keyHex, Hex.ofText_encode, Hex.decodeAnyBytes_encodeBytes] at decoded
  have isBytes : Bytes.of256 key = bytes := Option.some.inj (context_eq_ok.mp decoded)
  rw [← pure_eq_ok.mp same, ← isBytes, Bytes.to256_of256]

/-- The pool's key opens what was sealed to it. -/
theorem readEvent_sealEvent {author poolSk : SecretKey} {json json' : P.Text} {createdAt : Nat}
    {iv : Bytes} {ev : Event} {sender : SessionKey}
    (sealed : sealEvent W author (keyHex (W.xonly poolSk)) json createdAt iv = .ok ev)
    (opened : readEvent W poolSk ev = .ok (sender, json')) :
    sender = W.xonly author ∧ json' = json := by
  simp only [sealEvent, readEvent, bind_eq_ok, ensure_eq_ok, exists_const,
    pure_eq_ok] at sealed opened
  obtain ⟨_, pool, isPool, shared, isShared, content, encrypted, rfl⟩ := sealed
  obtain ⟨key, isKey, shared', isShared', text, decrypted, _, ⟨⟩⟩ := opened
  have isAuthor : sender = W.xonly author := pubkeyFromHex_keyHex isKey
  refine ⟨isAuthor, ?_⟩
  rw [pubkeyFromHex_keyHex isPool] at isShared
  rw [isAuthor, W.ecdhX_symm, isShared] at isShared'
  cases isShared'
  have back : W.decrypt shared content = .ok json := W.decrypt_encrypt encrypted
  exact Except.ok.inj (decrypted.symm.trans back)

theorem exec_openEvent {poolSk : SecretKey} {poolPk : String} {ev : Event} (seen : List String)
    (checked : checkEvent W poolPk ev = .ok ()) :
    (openEvent W poolSk poolPk ev).exec seen =
      if ev.id ∈ seen then (.ok none, seen)
      else ((readEvent W poolSk ev).map some, seen ++ [ev.id]) := by
  have looked : (openEvent W poolSk poolPk ev).exec seen =
      (if ev.id ∈ seen then pure none else do
        modify fun seen => seen ++ [ev.id]
        let opened ← Fallible.lift (readEvent W poolSk ev)
        return some opened : Fallible (List String) (Option (SessionKey × P.Text))).exec seen := by
    rw [openEvent, checked]
    rfl
  rw [looked]
  split
  · rfl
  · cases readEvent W poolSk ev <;> rfl

theorem exec_openEvent_error {poolSk : SecretKey} {poolPk : String} {ev : Event}
    {seen : List String} {message : String} (refused : checkEvent W poolPk ev = .error message) :
    (openEvent W poolSk poolPk ev).exec seen = (.error message, seen) := by
  rw [openEvent, refused]
  rfl

/-- What an event that opens has passed. -/
theorem openEvent_eq_some {poolSk : SecretKey} {poolPk : String} {ev : Event}
    {seen seen' : List String} {opened : SessionKey × P.Text}
    (opens : (openEvent W poolSk poolPk ev).exec seen = (.ok (some opened), seen')) :
    checkEvent W poolPk ev = .ok () ∧ readEvent W poolSk ev = .ok opened := by
  cases checked : checkEvent W poolPk ev with
  | error message =>
    rw [exec_openEvent_error checked] at opens
    cases opens
  | ok _ =>
    rw [exec_openEvent seen checked] at opens
    split at opens
    · cases opens
    · refine ⟨rfl, ?_⟩
      have read := congrArg Prod.fst opens
      cases result : readEvent W poolSk ev with
      | error message =>
        rw [result] at read
        cases read
      | ok x =>
        rw [result] at read
        cases read
        rfl

/-- The pool's tag is the key the event was sealed to. -/
theorem tag_of_sealEvent {author : SecretKey} {toPk poolPk : String} {json : P.Text}
    {createdAt : Nat} {iv : Bytes} {ev : Event}
    (sealed : sealEvent W author toPk json createdAt iv = .ok ev)
    (checked : checkEvent W poolPk ev = .ok ()) : toPk = poolPk := by
  simp only [sealEvent, checkEvent, bind_eq_ok, ensure_eq_ok, exists_const,
    pure_eq_ok] at sealed checked
  obtain ⟨_, pool, _, shared, _, content, _, rfl⟩ := sealed
  obtain ⟨_, tagged, _⟩ := checked
  simpa [signEvent] using tagged

end Wire

end Lij.Tatara
