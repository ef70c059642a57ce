import Lij.Tatara.Machine

/-!
# An instance of the primitives

The laws `Primitives` asks for are consistent and the machine runs on them. In
this instance texts are the messages themselves, digests are a polynomial in the
bytes, signatures are constants that verify, and the builder is the wallet's own
re-derivation. A pool of three with its members' registrations, payouts, nonces
and signatures is set up over it for runs that have to be exhibited.
-/

namespace Lij.Tatara.Instance

open Bitcoin Joinstr

/-- A text is what was written into it. -/
inductive Wire where
  | envelope (msg : Msg)
  | view (hash : String)
  deriving DecidableEq

def Wire.kind : Wire → Kind
  | .envelope msg => msg.kind
  | .view _ => .view

/-- A digest of bytes that keeps their order apart. -/
def digest (bytes : Bytes) : Digest :=
  BitVec.ofNat 256 (bytes.foldl (fun acc b => acc * 257 + b.toNat + 1) 0)

def txDigest (tx : Transaction) : Txid :=
  digest (tx.input.flatMap (fun i => i.previousOutput.serialize) ++
    tx.output.flatMap TxOut.serialize ++ leBytes 4 tx.lockTime)

def base : Primitives where
  Text := Wire
  textEq := inferInstance
  Ctx := Point
  SecNonce := Unit
  AggNonce := Unit
  tagged _ bytes := digest bytes
  computeTxid := txDigest
  size _ := 1000
  parseStrict text :=
    match text with
    | .envelope msg => .ok msg
    | .view _ => .error "unknown message type"
  viewFields text :=
    match text with
    | .envelope _ => none
    | .view hash => some ⟨3, some "2", some hash⟩
  envelopeJson := .envelope
  viewJson := .view
  kindOf text := some text.kind
  envelopeJson_injective _ _ same := Wire.envelope.inj same
  kindOf_envelopeJson _ := rfl
  kindOf_viewJson _ := rfl
  viewFields_kind text isView := by
    cases text with
    | envelope msg => cases isView
    | view hash => rfl
  viewFields_viewJson _ := rfl
  validPoint _ := true
  validNonce _ := true
  validPartialSignature _ := true
  basePointMul scalar := BitVec.ofNat 264 scalar.toNat
  addressFromScript script _ := .ok (Hex.encode script)
  addressToScript address _ := strictHexRange address 22 34
  prove _ _ _ _ := .ok "proof"
  verifyProof _ _ _ := .ok ()
  ringSign _ key _ _ := .ok ⟨Hex.encode (Bytes.of256 key), "", []⟩
  ringVerify _ _ sig := .ok sig.keyImage
  keyAggContext _ := .ok (0 : Point)
  aggregatedPubkey := id
  withPlainTweak ctx tweak := .ok (ctx + tweak.setWidth 264)
  withUnspendableTaprootTweak ctx := .ok (ctx + 1)
  ckdPub xpub index := .ok { xpub with
    publicKey := xpub.publicKey + (BitVec.ofNat 256 index).setWidth 264 }
  ckdPubTweak _ index := .ok (BitVec.ofNat 256 index)
  tapTweak key := some (key + 1)
  secNonce _ _ _ _ _ := ()
  publicNonce _ := 0
  aggNonce _ := ()
  signPartial _ _ _ _ _ := .ok 0
  verifyPartial _ _ _ _ _ _ := true
  aggregatePartial _ _ _ _ := .ok 0
  verifySchnorr _ _ _ := true
  exitSighash tx _ := txDigest tx
  signInput _ _ _ _ _ := .ok [[1]]
  checkInputRegistrations _ _ := .ok ()
  build _ _ _ _ := .error "not built"

/-- An aggregate that keeps the keys and their order apart. -/
def aggregateKey (keys : List Point) : Point := keys.foldl (fun sum key => 3 * sum + key) 0

def keyed : Primitives := { base with keyAggContext := fun keys => .ok (aggregateKey keys) }

/-- The builder builds what the re-derivation expects. -/
def builder (params : Params) (regs : List InputRegistration) (payouts : List Payout)
    (_ : PoolKeys) : Except String PoolTxs := do
  let members := regs.map fun r => { musig := r.musig, inputs := r.inputs, change := r.change,
                                     height := r.height : Member }
  let d := (params.classes.map Class.amount).headD 0
  let r ← rederive base params.id d params.feeRateMilli members
    (payouts.map fun p => (p.script, p.priority)) 0
  return { funding := r.funding, fundingPrevouts := [], poolVout := r.poolVout, exits := r.exits
           spent := r.exits.map fun _ => ⟨0, []⟩
           links := r.exits.zipIdx.map fun (_, i) => ⟨i, [], [], i⟩
           payouts := payouts.map Payout.script, payoutAmounts := payouts.map Payout.amount }

def primitives : Primitives := { base with build := builder }

/-! ## A pool of three -/

def params : Params where
  id := "p"
  peers := 3
  classes := [⟨100000, 3⟩]
  feeRateMilli := 1000
  exits := [1, 2]
  exitRatesMilli := (1000, 1000)
  feeSplit := .equal
  anchor := false
  exitStructure := .chain
  payoutType := .p2tr

/-- A P2TR script told apart by a number. -/
def script (n : Nat) : Script := [0x51, 0x20] ++ Bytes.ofNat 32 n

/-- Member `i`: one coin, one payout, keys told apart by `i`. -/
def member (i : Nat) : MyPart where
  coins := [(⟨BitVec.ofNat 256 i, 0⟩, ⟨102000, script (100 + i)⟩, 0)]
  change := none
  tip := 700000
  payout := some (script (200 + i))
  session := BitVec.ofNat 256 i
  musig := BitVec.ofNat 256 (10 + i)
  ring := BitVec.ofNat 256 (20 + i)
  entropy := 0
  rateAtJoin := 1

/-- What member `i` does when it joins. -/
def joined (i : Nat) : Except String (Attempt primitives × List (Action primitives)) :=
  Attempt.new params .regtest (member i) 0 ⟨60⟩

/-- The registration member `i` posts. -/
def registration (i : Nat) : Wire :=
  match joined i with
  | .ok (_, [.post json]) => json
  | _ => .view ""

/-- The payout member `i` sends under a one-time key. -/
def output (i : Nat) : Wire :=
  .envelope (.output (Hex.encode (script (200 + i)))
    ⟨Hex.encode (Bytes.of256 (BitVec.ofNat 256 (20 + i))), "", []⟩ 0 (some 100000))

def start (i : Nat) : Attempt primitives :=
  match joined i with
  | .ok (a, _) => a
  | .error _ => Attempt.fresh params .regtest (member i) 0 ⟨60⟩ 0

/-- What member `i` posts when it joins. -/
def posts (i : Nat) : List (Action primitives) :=
  match joined i with
  | .ok (_, acts) => acts
  | .error _ => []

theorem joined_eq {i : Nat} (ok : (joined i).isOk = true) : joined i = .ok (start i, posts i) := by
  unfold start posts
  cases result : joined i with
  | ok pair => rfl
  | error e =>
    rw [result] at ok
    cases ok

/-- The events of one member until its view is posted, for the given membership. -/
def untilView (members : List Nat) : List (Input primitives) :=
  members.map (fun i => .msg (BitVec.ofNat 256 i) (registration i)) ++
    [.coinsChecked [] []] ++ members.map (fun i => .msg 99 (output i))

/-- The view of a member after these events, as it posts it. -/
def viewText (a : Attempt primitives) : Wire :=
  .view (Hex.encode (Bytes.of256 (a.myView.getD 0)))

/-- Every member's view, which all agree, and its nonces for the two exits. -/
def viewsAndNonces (members : List Nat) (view : Wire) : List (Input primitives) :=
  members.map (fun i => .msg (BitVec.ofNat 256 i) view) ++
    members.map (fun i => .msg (BitVec.ofNat 256 i)
      (.envelope (.nonces 0 [nonceHex 0, nonceHex 0])))

/-- Every member's partial signatures, then the page's answers. -/
def signaturesAndAnswers (members : List Nat) : List (Input primitives) :=
  members.map (fun i => .msg (BitVec.ofNat 256 i)
      (.envelope (.partialSigs 0 [psigHex 0, psigHex 0]))) ++
    [.recordSaved, .coinsChecked [] []]

end Lij.Tatara.Instance
