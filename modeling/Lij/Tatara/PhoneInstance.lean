import Lij.Joinstr.Pool
import Lij.Tatara.Instance
import Lij.Tatara.Turns

/-!
# A phone among three

A relay for the pool of three of the machine's instance: the texts of one attempt
stand in a book, an event's content is the length of a text's place in it, and
every signature verifies. Phone 1 runs the attempt through this relay.

The same pool once more with joinstr's own rules and builder, keys that are told
apart and events whose ids say their author.
-/

namespace Lij.Tatara.PhoneInstance

open Bitcoin Joinstr Instance List

/-- The part of phone 1: every key it derives is 1. -/
def me : MyPart :=
  { member 1 with musig := 1, ring := 1, change := some ⟨1778, script 301⟩ }

def joined1 : Except String (Attempt primitives × List (Action primitives)) :=
  Attempt.new params .regtest me 0 ⟨120⟩

def begun : Attempt primitives :=
  match joined1 with
  | .ok (a, _) => a
  | .error _ => Attempt.fresh params .regtest me 0 ⟨120⟩ 0

/-- The registration of phone 1. -/
def registration1 : Wire :=
  match joined1 with
  | .ok (_, [.post json]) => json
  | _ => .view ""

/-- The payout of phone 1. -/
def output1 : Wire :=
  .envelope (.output (Hex.encode (script 201)) ⟨Hex.encode (Bytes.of256 1), "", []⟩ 0
    (some 100000))

/-- The view of the pool, as every member posts it. -/
def view : Wire := .view "2ba6f45f9304f1ee9d07da1fc69b531ce16d414e0825b3e7ee86aa43f0c0fb7c"

def nonces : Wire := .envelope (.nonces 0 [nonceHex 0, nonceHex 0])

def psigs : Wire := .envelope (.partialSigs 0 [psigHex 0, psigHex 0])

/-- The funding signature of member `i`. -/
def fundingSigs (i : Nat) : Wire :=
  .envelope (.fundingSigs [⟨Txid.text (BitVec.ofNat 256 i), 0, [Hex.encode [1]]⟩])

/-- Every text of one attempt, in the order of the events that carry them. -/
def book : List Wire :=
  [registration1, registration 2, registration 3, output1, output 2, output 3, view, view, view,
    nonces, nonces, nonces, psigs, psigs, psigs, fundingSigs 1, fundingSigs 2, fundingSigs 3,
    .envelope (.abort "stopped")]

/-- The content of the event with the text at place `i`. -/
def content (i : Nat) : String := Hex.encode (replicate i 0)

theorem length_content (i : Nat) : (Bytes.ofText (content i)).length = 2 * i := by
  rw [content, Hex.ofText_encode, Hex.length_encodeBytes, length_replicate]

def encode (book : List Wire) (text : Wire) : Except String String :=
  (Checked.context (book.findIdx? fun t => t = text) "not in the book").map content

def decode (book : List Wire) (content : String) : Except String Wire :=
  Checked.context book[(Bytes.ofText content).length / 2]? "not in the book"

theorem decode_encode {book : List Wire} {text : Wire} {found : String}
    (isContent : encode book text = .ok found) : decode book found = .ok text := by
  cases place : book.findIdx? fun t => t = text with
  | none =>
    rw [encode, place] at isContent
    cases isContent
  | some i =>
    rw [encode, place] at isContent
    cases isContent
    obtain ⟨inside, isText, _⟩ := findIdx?_eq_some_iff_getElem.mp place
    rw [decode, length_content, Nat.mul_div_cancel_left _ (by decide), Checked.context_eq_ok,
      getElem?_eq_getElem inside]
    exact congrArg some (of_decide_eq_true isText)

def radio : Radio primitives where
  secretKey _ := .ok 1
  xonly _ := 1
  onCurve _ := true
  ecdhX _ _ := .ok 0
  eventId _ _ _ _ content := content
  signSchnorr _ _ := ""
  verifySchnorr _ _ _ := .ok ()
  encrypt _ _ := encode book
  decrypt _ := decode book
  ecdhX_symm _ _ := rfl
  decrypt_encrypt := decode_encode
  verifyInput _ _ _ _ := .ok ()

/-- The event with the text at place `i`, by a sender. -/
def event (sender : SessionKey) (i : Nat) : Wire.Event where
  id := content i
  pubkey := Wire.keyHex sender
  createdAt := 0
  kind := 4
  tags := [["p", Wire.keyHex 1]]
  content := content i
  sig := ""

def deliver (sender : SessionKey) (i : Nat) : Phone.Call := .relayEvent ⟨0, some (event sender i)⟩

def common : Phone.Common where
  attemptId := "attempt"
  coins := me.coins
  payout := some (script 201)
  payoutIndex := some 0
  changeSpk := script 301
  changeIndex := 0
  tip := 700000
  rateAtJoin := 1
  entropy := 0
  now := 0
  refused := []
  network := .regtest
  isPublic := false

/-- Phone 1 when it has joined. -/
def joined : Except String (Phone primitives × Out) := Phone.start radio common params 0 7

/-- The calls until every partial signature is in. -/
def untilRecord : List Phone.Call :=
  [deliver 1 0, deliver 2 1, deliver 3 2,
    .coinResult (Txid.text 2) 0 (some true), .coinResult (Txid.text 3) 0 (some true),
    deliver 99 3, deliver 99 4, deliver 99 5, deliver 1 6, deliver 2 7, deliver 3 8,
    deliver 1 9, deliver 2 10, deliver 3 11, deliver 1 12, deliver 2 13, deliver 3 14]

/-! ## With joinstr's own rules -/

def joinstr : Primitives :=
  { base with checkInputRegistrations := Pool.checkInputRegistrations, build := Pool.build base }

/-- Phone 1 with keys of its own for the exits and for the ring. -/
def poolMe : MyPart :=
  { member 1 with musig := 167, ring := 74, change := some ⟨1778, script 301⟩ }

def poolRegistration1 : Wire :=
  match Attempt.new (P := joinstr) params .regtest poolMe 0 ⟨120⟩ with
  | .ok (_, [.post json]) => json
  | _ => .view ""

def poolOutput1 : Wire :=
  .envelope (.output (Hex.encode (script 201)) ⟨Hex.encode (Bytes.of256 74), "", []⟩ 0
    (some 100000))

def poolView : Wire := .view "c4f3b8c45289d398746cd3f84c3b6dd792deddb07d928d714380c26bb2cb86c5"

def poolBook : List Wire :=
  [poolRegistration1, registration 2, registration 3, poolOutput1, output 2, output 3,
    poolView, poolView, poolView, nonces, nonces, nonces, psigs, psigs, psigs,
    fundingSigs 1, fundingSigs 2, fundingSigs 3, .envelope (.abort "stopped")]

/-- An event's id is its author's name and its content; one signature is good. -/
def poolRadio : Radio joinstr where
  secretKey bytes := .ok (BitVec.ofNat 256 (bytes.toNat % 251 + 1))
  xonly _ := 1
  onCurve _ := true
  ecdhX _ _ := .ok 0
  eventId pubkey _ _ _ content := pubkey ++ content
  signSchnorr _ _ := ""
  verifySchnorr _ _ _ := .ok ()
  encrypt _ _ := encode poolBook
  decrypt _ := decode poolBook
  ecdhX_symm _ _ := rfl
  decrypt_encrypt := decode_encode
  verifyInput _ _ _ items := if items = [[1]] then .ok () else .error "bad signature"

/-- The event with the text at place `i`, by a sender. -/
def poolEvent (sender : SessionKey) (i : Nat) : Wire.Event :=
  { event sender i with id := Wire.keyHex sender ++ content i }

def relay (sender : SessionKey) (i : Nat) : Phone.Call :=
  .relayEvent ⟨0, some (poolEvent sender i)⟩

def poolJoined : Except String (Phone joinstr × Out) := Phone.start poolRadio common params 0 7

/-- Phone 1 when it has joined, and what the page does first. -/
def poolPhone : Phone joinstr × Out :=
  poolJoined.toOption.getD (Phone.fresh poolRadio common 7 1
    (Attempt.fresh params .regtest poolMe 0 ⟨120⟩ 0), .default)

theorem joined_poolPhone : poolJoined = .ok poolPhone := by
  have ok : poolJoined.isOk = true := by decide +kernel
  exact Checked.eq_ok_of_isOk ok _

attribute [irreducible] poolPhone

theorem started_poolPhone :
    Phone.start poolRadio common params 0 7 = .ok (poolPhone.1, poolPhone.2) :=
  joined_poolPhone

/-- The calls until two partial signatures are in; the third comes at place 14. -/
def poolCalls : List Phone.Call :=
  [relay 1 0, relay 2 1, relay 3 2,
    .coinResult (Txid.text 2) 0 (some true), .coinResult (Txid.text 3) 0 (some true),
    relay 99 3, relay 99 4, relay 99 5, relay 1 6, relay 2 7, relay 3 8, relay 1 9, relay 2 10,
    relay 3 11, relay 1 12, relay 2 13]

/-- Every partial signature is in, the record is saved and the coin checked again. -/
def signingTurns : List (Phone.Turn × Nat) :=
  (poolCalls ++ [relay 3 14]).map (fun c => (.call c, 1)) ++
    [(.recordSaved, 1), (.call (.coinResult (Txid.text 1) 0 (some true)), 1)]

end Lij.Tatara.PhoneInstance
