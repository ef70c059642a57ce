import Lij.Tatara.Machine

/-!
# What one event can do to an attempt

The elementary moves of the attempt machine with the conditions under which the
handlers take them. A handler notes what a message or an answer brought
(`Silent`) and closes with an answer to the page (`Emits`). `on_follows` says
that handling an event never does anything else; every invariant of whole runs
is then checked against these two lists and never against the handlers.
-/

namespace Lij.Tatara.Attempt

open Bitcoin Joinstr Checked Fallible Reactive

variable {P : Primitives}

abbrev History (P : Primitives) := List (Event (Input P) (Action P))

/-- The attempt still listens. -/
def Live (a : Attempt P) : Prop := a.phase ≠ .stopped ∧ a.phase ≠ .fundingSigned

/-- The phases in the order an attempt goes through them. -/
def rank : Phase → Nat
  | .inputs => 0
  | .channel => 1
  | .payouts => 2
  | .view => 3
  | .signing => 4
  | .funding => 5
  | .fundingSigned => 6
  | .stopped => 7

theorem post_ne_of_kind {msg msg' : Msg} (different : msg.kind ≠ msg'.kind) :
    (post msg : Action P) ≠ post msg' := by
  intro same
  exact different (P.kind_of_envelopeJson_eq (Action.post.inj same))

/-- The witness a coin contributes to the funding. -/
structure Signs (tx : Transaction) (prevouts : List TxOut) (P : Primitives)
    (coin : OutPoint × TxOut × SecretKey) (w : WitnessMsg) : Prop where
  txid : w.txid = coin.1.txid.text
  vout : w.vout = coin.1.vout
  signed : ∃ idx aux witness, (tx.input.findIdx? fun i => i.previousOutput == coin.1) = some idx ∧
    P.signInput tx idx prevouts coin.2.2 aux = .ok witness ∧ w.witness = witness.map Hex.encode

/-- Every member's view is in and equals this phone's own; in a public pool the
views that came do. -/
structure ViewsAgree (a : Attempt P) (mine : Digest) : Prop where
  complete : a.isPublic = true ∨ a.params.peers ≤ a.views.size
  own : a.myView = some mine
  same : ∀ v ∈ Maps.values a.views, v = mine

/-- What a build that passed every check guarantees. -/
structure BuildSpec (a : Attempt P) (checked : CheckedBuild P) : Prop where
  rederived : ∃ r, rederive P a.id a.d a.rateMilli a.members a.payouts a.me.tip = .ok r ∧
    sameAsRederived checked.built r = .ok ()
  built : ∃ payouts, P.build a.params a.registrations payouts checked.keys = .ok checked.built
  messages : exitMessages P checked.keys checked.built = .ok checked.msgs
  channel : a.params.payoutType = .p2wsh → ∃ txid vout,
    checked.fundChannel = [.fundChannel txid vout]
  onChain : a.params.payoutType ≠ .p2wsh → checked.fundChannel = []

theorem checkedBuild_spec {a : Attempt P} {checked : CheckedBuild P}
    (passed : a.checkedBuild = .ok checked) : a.BuildSpec checked := by
  simp only [checkedBuild, bind_eq_ok, ensure_eq_ok, exists_const, pure_eq_ok] at passed
  obtain ⟨_, r, rederived, _, _, keys, _, built, isBuilt, _, same, payout, _, _, _, self, _, _, _,
    fundChannel, channel, msgs, messages, rfl⟩ := passed
  refine ⟨⟨r, rederived, same⟩, ⟨_, isBuilt⟩, messages, fun isChannel => ?_, fun onChain => ?_⟩
  · rw [if_pos isChannel] at channel
    obtain ⟨found, _, rest⟩ := bind_eq_ok.mp channel
    exact ⟨_, _, (pure_eq_ok.mp rest).symm⟩
  · rw [if_neg onChain] at channel
    exact (pure_eq_ok.mp channel).symm

/-- A change of the state that no action reports. -/
inductive Silent (input : Input P) : Attempt P → Attempt P → Prop
  | auxDrawn (a : Attempt P) : Silent input a { a with auxN := Word.add32 a.auxN 1 }
  | registered (a : Attempt P) (sender : SessionKey) (reg : InputRegistration) (json : P.Text)
      (sent : input = .msg sender json) (phase : a.phase = .inputs) (new : sender ∉ a.regs)
      (room : a.regs.size < a.params.peers) (session : reg.session = sender) :
      Silent input a { a with regs := a.regs.insert sender (reg, json) }
  | payoutNoted (a : Attempt P) (key : String) (spk : Script) (json : P.Text)
      (phase : a.phase = .payouts ∨ a.phase = .inputs ∨ a.phase = .channel)
      (full : a.params.peers ≤ a.regs.size) :
      Silent input a { a with
        images := a.images.insert key (spk, json), payouts := a.payouts ++ [(spk, 0)] }
  | viewNoted (a : Attempt P) (sender : SessionKey) (json : P.Text) (v : ViewFields)
      (hash : Digest) (sent : input = .msg sender json) (fields : P.viewFields json = some v)
      (read : viewHashOf v = .ok hash) (known : sender ∈ a.regs) (new : sender ∉ a.views) :
      Silent input a { a with views := a.views.insert sender hash }
  | noncesNoted (a : Attempt P) (sender : SessionKey) (json : P.Text) (nonces : List PubNonce)
      (sent : input = .msg sender json) (known : sender ∈ a.regs) (new : sender ∉ a.nonces) :
      Silent input a { a with nonces := a.nonces.insert sender (nonces, json) }
  | psigsNoted (a : Attempt P) (sender : SessionKey) (json : P.Text)
      (psigs : List PartialSignature) (sent : input = .msg sender json)
      (known : sender ∈ a.regs) (new : sender ∉ a.psigs) :
      Silent input a { a with psigs := a.psigs.insert sender (psigs, json) }
  | noncesDropped (a : Attempt P) (phase : a.phase = .view) :
      Silent input a { a with myNonces := none }
  | builtDropped (a : Attempt P) (phase : a.phase = .signing) :
      Silent input a { a with built := none }
  | payoutTaken (a : Attempt P) (spk : Script) (given : input = .payoutGiven spk)
      (phase : a.phase = .channel) :
      Silent input a { a with me := { a.me with payout := some spk } }
  | recordSaved (a : Attempt P) (answer : input = .recordSaved) (phase : a.phase = .funding) :
      Silent input a { a with recordSaved := true }
  | rechecked (a : Attempt P) (answer : input = .coinsChecked [] []) (phase : a.phase = .funding) :
      Silent input a { a with recheckOk := true }
  | channelSaved (a : Attempt P) (answer : input = .channelSaved)
      (channel : a.params.payoutType = .p2wsh)
      (phase : a.phase = .view ∨ a.phase = .signing ∨ a.phase = .funding) :
      Silent input a { a with channelSaved := true }

/-- An answer to the page with the change of the state that belongs to it. -/
inductive Emits (input : Input P) : Attempt P → List (Action P) → Attempt P → Prop
  | nothing (a : Attempt P) : Emits input a [] a
  | clockStarted (a : Attempt P) (deadline : Nat) :
      Emits input a [] { a with clockPhase := a.phase, deadline }
  | stopped (a : Attempt P) (reason : String) (named : List SessionKey) (live : a.Live) :
      Emits input a (a.stopActions reason named) a.stopped
  | coinsAsked (a : Attempt P) (coins : List (OutPoint × TxOut)) (phase : a.phase = .inputs)
      (full : a.params.peers ≤ a.regs.size) (member : a.me.session ∈ a.regs)
      (checked : P.checkInputRegistrations a.params a.registrations = .ok ()) :
      Emits input a [.checkCoins coins] { a with coinsAsked := true }
  | channelAsked (a : Attempt P) (phase : a.phase = .inputs) (asked : a.coinsAsked = true) :
      Emits input a [.openChannel a.d] { a with phase := .channel }
  | payoutPosted (a : Attempt P) (json : P.Text) (phase : a.phase = .inputs ∨ a.phase = .channel)
      (asked : a.phase = .inputs → a.coinsAsked = true) :
      Emits input a [.postPayout json] { a with phase := .payouts }
  | viewPosted (a : Attempt P) (checked : CheckedBuild P) (secs : ExitNonces P)
      (pubs : List PubNonce) (phase : a.phase = .payouts) (full : a.params.peers ≤ a.regs.size)
      (passed : a.checkedBuild = .ok checked) :
      Emits input a
        ([.post (P.viewJson (Hex.encode (Bytes.of256 (a.viewHash checked.built checked.msgs)))),
          post (.nonces 0 (pubs.map nonceHex))] ++ checked.fundChannel)
        { a with
          myNonces := some secs, myView := some (a.viewHash checked.built checked.msgs)
          built := some checked.built, keys := some checked.keys, msgs := some checked.msgs
          phase := .view }
  | signed (a : Attempt P) (mine : Digest) (psigs : List PartialSignature)
      (phase : a.phase = .view) (agree : a.ViewsAgree mine)
      (nonces : a.params.peers ≤ a.nonces.size) :
      Emits input a [post (.partialSigs 0 (psigs.map psigHex))]
        { a with myNonces := none, phase := .signing }
  | recordGiven (a : Attempt P) (keys : PoolKeys) (msgs : List ExitMessage)
      (signers : List Signer) (sigs : List CompactSignature) (unsigned built : PoolTxs)
      (payout : Script) (coins : List (OutPoint × TxOut)) (phase : a.phase = .signing)
      (ownKeys : a.keys = some keys) (ownMsgs : a.msgs = some msgs)
      (ownSigners : a.signers = .ok signers) (aggregated : aggregate P keys msgs signers = .ok sigs)
      (ownBuilt : a.built = some unsigned) (attached : attach unsigned sigs = .ok built)
      (ownCoins : coins = a.me.coins.map fun coin => (coin.1, coin.2.1)) :
      Emits input a [.saveRecord (a.record built payout), .checkCoins coins]
        { a with built := some built, phase := .funding }
  | fundingPosted (a : Attempt P) (built : PoolTxs) (witnesses : List WitnessMsg)
      (phase : a.phase = .funding) (ready : a.readyToFund) (ownBuilt : a.built = some built)
      (signs : List.Forall₂ (Signs built.funding built.fundingPrevouts P) a.me.coins witnesses) :
      Emits input a [post (.fundingSigs witnesses), .fundingSigned]
        { a with phase := .fundingSigned }

def moves (P : Primitives) : Moves (Attempt P) (Input P) (Action P) := ⟨Silent, Emits⟩

def machine (P : Primitives) : Machine (Attempt P) (Input P) (Action P) := ⟨on⟩

variable {input : Input P} {a : Attempt P}

/-! ## Handlers -/

theorem stop_follows (reason : String) (named : List SessionKey) (live : a.Live) :
    Follows (moves P) input (stop reason named) a :=
  .get_bind (.modify_pure (.stopped a reason named live))

theorem nothing_follows : Follows (moves P) input (pure []) a := .pure (.nothing a)

/-- Drawing random bytes moves the counter only. -/
theorem aux_silently : Silently (moves P) input aux a
    (fun _ b => b = { a with auxN := Word.add32 a.auxN 1 }) :=
  Silently.modify_bind (.auxDrawn a) ⟨.refl, rfl⟩

/-- Signing the coins draws random bytes and signs each coin at its place. -/
theorem signCoins_silently (tx : Transaction) (prevouts : List TxOut)
    (coins : List (OutPoint × TxOut × SecretKey)) (a : Attempt P) :
    Silently (moves P) input (signCoins tx prevouts coins) a (fun witnesses b =>
      (∃ n, b = { a with auxN := n }) ∧ List.Forall₂ (Signs tx prevouts P) coins witnesses) := by
  induction coins generalizing a with
  | nil => exact .pure ⟨⟨a.auxN, rfl⟩, .nil⟩
  | cons coin coins ih =>
    obtain ⟨op, out, sk⟩ := coin
    refine .lift_bind fun idx found => .bind aux_silently fun aux b drawn => ?_
    refine .lift_bind fun witness signed => .bind (ih b) fun rest c reached => ?_
    obtain ⟨⟨n, rfl⟩, others⟩ := reached
    subst drawn
    have first : Signs tx prevouts P (op, out, sk)
        ⟨op.txid.text, op.vout, witness.map Hex.encode⟩ :=
      { txid := rfl, vout := rfl
        signed := ⟨idx, aux, witness, context_eq_ok.mp found, signed, rfl⟩ }
    exact .pure ⟨⟨n, rfl⟩, .cons first others⟩

theorem tryFund_follows (phase : a.phase = .funding) : Follows (moves P) input tryFund a := by
  refine .get_bind (.ite (fun _ => nothing_follows) fun ready => ?_)
  refine .lift_bind fun built ownBuilt => ?_
  refine .silently_bind (signCoins_silently _ _ _ a) fun witnesses b reached => ?_
  obtain ⟨⟨n, rfl⟩, signs⟩ := reached
  exact .modify_pure (.fundingPosted { a with auxN := n } built witnesses phase
    (not_not.mp ready) (context_eq_ok.mp ownBuilt) signs)

theorem live_of_phase {p : Phase} (phase : a.phase = p) (hs : p ≠ .stopped)
    (hf : p ≠ .fundingSigned) : a.Live := by
  rw [Live, phase]
  exact ⟨hs, hf⟩

/-- The last partial signature: the taken build is dropped if anything fails after
it was taken, and otherwise comes back signed. -/
theorem enterFunding_follows (phase : a.phase = .signing) :
    Follows (moves P) input enterFunding a := by
  have live : a.Live := live_of_phase phase (by decide) (by decide)
  refine .get_bind (.lift_bind fun keys ownKeys => .lift_bind fun msgs ownMsgs =>
    .lift_bind fun signers ownSigners => ?_)
  cases aggregated : aggregate P keys msgs signers with
  | error text => exact stop_follows _ _ live
  | ok sigs =>
    refine .lift_bind fun unsigned ownBuilt => ?_
    have dropped : Silent input a { a with built := none } := .builtDropped a phase
    cases signed : a.signedBuild unsigned sigs with
    | error e => exact .modify_bind dropped .throw
    | ok result =>
      obtain ⟨built, attached, rest⟩ := bind_eq_ok.mp signed
      obtain ⟨payout, _, same⟩ := bind_eq_ok.mp rest
      cases pure_eq_ok.mp same
      exact ⟨a, .refl, .recordGiven a keys msgs signers sigs unsigned built payout _ phase
        (context_eq_ok.mp ownKeys) (context_eq_ok.mp ownMsgs) ownSigners aggregated
        (context_eq_ok.mp ownBuilt) attached rfl⟩

variable {sender : SessionKey} {json : P.Text}

theorem onPsigs_follows (offset : Nat) (sigs : List String) (sent : input = .msg sender json)
    (known : sender ∈ a.regs) : Follows (moves P) input (onPsigs sender offset sigs json) a := by
  refine .get_bind ?_
  cases seen : a.psigs[sender]? with
  | some old => exact .require_bind fun _ => nothing_follows
  | none =>
    refine .require_bind fun _ => .lift_bind fun _ _ => .lift_bind fun parsed _ => ?_
    have new : sender ∉ a.psigs := by simpa using seen
    refine .modify_bind (.psigsNoted a sender json parsed sent known new) (.get_bind ?_)
    refine .ite (fun _ => nothing_follows) fun go => enterFunding_follows ?_
    exact not_not.mp (not_or.mp go).1

/-- When `trySign` goes on. -/
theorem ready_iff : ¬(a.phase ≠ .view ∨ (a.isPublic = false ∧ a.views.size < a.params.peers) ∨
      a.nonces.size < a.params.peers) ↔
    a.phase = .view ∧ (a.isPublic = true ∨ a.params.peers ≤ a.views.size) ∧
      a.params.peers ≤ a.nonces.size := by
  simp only [not_or, not_and_or, not_not, not_lt, Bool.not_eq_false]

theorem trySign_follows (live : a.Live) : Follows (moves P) input trySign a := by
  refine .get_bind (.ite (fun _ => nothing_follows) fun go => ?_)
  obtain ⟨inView, complete, enough⟩ := ready_iff.mp go
  refine .lift_bind fun mine own => ?_
  refine .ite (fun _ => stop_follows _ _ live) fun allSame => ?_
  have agree : a.ViewsAgree mine :=
    { complete, own := context_eq_ok.mp own, same := by simpa using allSame }
  refine .lift_bind fun secs _ => ?_
  have dropped : Silent input a { a with myNonces := none } := .noncesDropped a inView
  cases a.partialSigs secs with
  | error e => exact .modify_bind dropped .throw
  | ok psigs => exact ⟨a, .refl, .signed a mine psigs inView agree enough⟩

theorem onNonces_follows (offset : Nat) (nonces : List String) (sent : input = .msg sender json)
    (known : sender ∈ a.regs) (live : a.Live) :
    Follows (moves P) input (onNonces sender offset nonces json) a := by
  refine .get_bind ?_
  cases seen : a.nonces[sender]? with
  | some old => exact .require_bind fun _ => nothing_follows
  | none =>
    refine .require_bind fun _ => .lift_bind fun _ _ => .lift_bind fun parsed _ => ?_
    have new : sender ∉ a.nonces := by simpa using seen
    exact .modify_bind (.noncesNoted a sender json parsed sent known new) (trySign_follows live)

theorem onView_follows {v : ViewFields} (sent : input = .msg sender json)
    (fields : P.viewFields json = some v) (live : a.Live) :
    Follows (moves P) input (onView sender v) a := by
  refine .get_bind (.ite (fun _ => nothing_follows) fun registered => ?_)
  have known : sender ∈ a.regs := not_not.mp registered
  refine .lift_bind fun hash read => ?_
  cases seen : a.views[sender]? with
  | some old => exact .require_bind fun _ => nothing_follows
  | none =>
    have new : sender ∉ a.views := by simpa using seen
    exact .modify_bind (.viewNoted a sender json v hash sent fields read known new)
      (trySign_follows live)

theorem buildAndCheck_follows (phase : a.phase = .payouts)
    (full : a.params.peers ≤ a.regs.size) : Follows (moves P) input buildAndCheck a := by
  refine .get_bind (.lift_bind fun checked passed => ?_)
  refine .silently_bind aux_silently fun aux b drawn => .lift_bind fun nonces _ => ?_
  subst drawn
  obtain ⟨secs, pubs⟩ := nonces
  exact .modify_pure (.viewPosted { a with auxN := Word.add32 a.auxN 1 } checked secs pubs phase
    full passed)

theorem onOutput_follows (address : String) (ringSig : RingSig) (priority : Nat)
    (denomination : Option Nat) (json : P.Text) (live : a.Live) :
    Follows (moves P) input (onOutput address ringSig priority denomination json) a := by
  refine .get_bind (.ite (fun _ => nothing_follows) fun open_ => ?_)
  refine .ite (fun _ => nothing_follows) fun closed => ?_
  have full : a.params.peers ≤ a.regs.size := not_lt.mp closed
  refine .lift_bind fun read _ => ?_
  cases seen : a.images[read.2]? with
  | some old => exact .ite (fun _ => nothing_follows) fun _ => stop_follows _ _ live
  | none =>
    refine .require_bind fun _ => ?_
    refine .modify_bind (.payoutNoted a read.2 read.1 json (not_not.mp open_) full) (.get_bind ?_)
    refine .ite (fun _ => nothing_follows) fun _ => .require_bind fun phase => ?_
    exact buildAndCheck_follows phase full

theorem registerPayout_follows (phase : a.phase = .inputs ∨ a.phase = .channel)
    (asked : a.phase = .inputs → a.coinsAsked = true) :
    Follows (moves P) input registerPayout a := by
  refine .get_bind (.lift_bind fun payout _ => ?_)
  refine .silently_bind aux_silently fun aux b drawn => ?_
  refine .lift_bind fun sig _ => .lift_bind fun address _ => ?_
  subst drawn
  exact .modify_pure (.payoutPosted { a with auxN := Word.add32 a.auxN 1 } _ phase asked)

theorem onCoins_follows (bad unanswered : List OutPoint)
    (answer : input = .coinsChecked bad unanswered) (live : a.Live) :
    Follows (moves P) input (onCoins bad unanswered) a := by
  refine .get_bind (.ite (fun inFunding => ?_) fun _ => ?_)
  · refine .require_bind fun noneUnanswered => .require_bind fun noneBad => ?_
    subst noneUnanswered noneBad
    exact .modify_bind (.rechecked a answer inFunding) (tryFund_follows inFunding)
  · refine .ite (fun _ => nothing_follows) fun go => ?_
    have inInputs : a.phase = .inputs := not_not.mp (not_or.mp go).1
    have asked : a.coinsAsked = true := Bool.not_eq_false _ ▸ (not_or.mp go).2
    refine .ite (fun _ => stop_follows _ _ live) fun _ => ?_
    refine .ite (fun _ => stop_follows _ _ live) fun _ => ?_
    refine .ite (fun _ => .modify_pure (.channelAsked a inInputs asked)) fun _ => ?_
    exact registerPayout_follows (.inl inInputs) fun _ => asked

theorem closeRegistration_follows (phase : a.phase = .inputs)
    (full : a.params.peers ≤ a.regs.size) : Follows (moves P) input closeRegistration a := by
  have live : a.Live := live_of_phase phase (by decide) (by decide)
  refine .get_bind (.lift_bind fun _ checked =>
    .ite (fun _ => stop_follows _ _ live) fun member => ?_)
  exact .modify_pure (.coinsAsked a _ phase full (not_not.mp member) checked)

/-- A registration that was read belongs to its sender. -/
theorem session_of_readRegistration {musigPubkey ringPubkey : String}
    {ins : List (OutPoint × TxOut)} {change : Option ChangeMsg} {height : Nat}
    {reg : InputRegistration}
    (read : a.readRegistration sender musigPubkey ringPubkey ins change height = .ok reg) :
    reg.session = sender := by
  simp only [readRegistration, bind_eq_ok, pure_eq_ok] at read
  obtain ⟨_, _, _, _, _, _, rfl⟩ := read
  rfl

theorem onInputs_follows (musigPubkey ringPubkey : String) (inputs : List InputMsg)
    (change : Option ChangeMsg) (height : Nat) (denomination : Option Nat)
    (sent : input = .msg sender json) (live : a.Live) : Follows (moves P) input
      (onInputs sender musigPubkey ringPubkey inputs change height denomination json) a := by
  refine .get_bind ?_
  cases seen : a.regs[sender]? with
  | some old => exact .require_bind fun _ => nothing_follows
  | none =>
    refine .ite (fun _ => nothing_follows) fun go => ?_
    obtain ⟨notInputs, notFull⟩ := not_or.mp go
    have inInputs : a.phase = .inputs := not_not.mp notInputs
    have new : sender ∉ a.regs := by simpa using seen
    refine .require_bind fun _ => .lift_bind fun _ _ => .lift_bind fun ins _ => ?_
    refine .ite (fun _ => stop_follows _ _ live) fun _ => .lift_bind fun reg read => ?_
    refine .modify_bind (.registered a sender reg json sent inInputs new (not_le.mp notFull)
      (session_of_readRegistration read)) (.get_bind ?_)
    refine .ite (fun _ => nothing_follows) fun full => ?_
    exact closeRegistration_follows inInputs (not_lt.mp full)

theorem onMsg_follows (sent : input = .msg sender json) (live : a.Live) :
    Follows (moves P) input (onMsg sender json) a := by
  refine .lift_bind fun _ _ => ?_
  cases fields : P.viewFields json with
  | some v => exact onView_follows sent fields live
  | none =>
    refine .lift_bind fun msg _ => .get_bind ?_
    cases msg with
    | inputs musigPubkey ringPubkey inputs change height denomination =>
      exact onInputs_follows _ _ _ _ _ _ sent live
    | output address ringSig priority denomination =>
      exact onOutput_follows _ _ _ _ _ live
    | nonces offset nonces =>
      exact .ite (fun known => onNonces_follows _ _ sent known live) fun _ => nothing_follows
    | partialSigs offset sigs =>
      exact .ite (fun known => onPsigs_follows _ _ sent known) fun _ => nothing_follows
    | abort reason => exact .ite (fun _ => stop_follows _ _ live) fun _ => nothing_follows
    | joinPool | credentials text | reject reason | fundingSigs witnesses => exact nothing_follows

theorem onTick_follows (now : Nat) (live : a.Live) : Follows (moves P) input (onTick now) a := by
  refine .get_bind (.ite (fun _ => .modify_pure (.clockStarted a _)) fun _ => ?_)
  refine .ite (fun _ => ?_) fun _ => nothing_follows
  refine .ite (fun _ => stop_follows _ _ live) fun _ => ?_
  exact .ite (fun _ => stop_follows _ _ live) fun _ => stop_follows _ _ live

theorem step_follows (input : Input P) (live : a.Live) :
    Follows (moves P) input (step input) a := by
  refine .get_bind ?_
  cases input with
  | tick now => exact onTick_follows now live
  | coinsChecked bad unanswered => exact onCoins_follows bad unanswered rfl live
  | recordSaved =>
    refine .ite (fun _ => nothing_follows) fun phase => ?_
    have inFunding := not_not.mp phase
    exact .modify_bind (.recordSaved a rfl inFunding) (tryFund_follows inFunding)
  | payoutGiven spk =>
    refine .ite (fun _ => nothing_follows) fun phase => .require_bind fun _ => ?_
    have inChannel := not_not.mp phase
    exact .modify_bind (.payoutTaken a spk rfl inChannel)
      (registerPayout_follows (.inr inChannel)
      fun inInputs => absurd (inInputs.symm.trans inChannel) (by decide))
  | channelSaved =>
    refine .ite (fun _ => nothing_follows) fun go => ?_
    obtain ⟨channel, phase⟩ := not_or.mp go
    refine .modify_bind (.channelSaved a rfl (not_not.mp channel) (not_not.mp phase)) ?_
    exact .ite (fun inFunding => tryFund_follows inFunding) fun _ => nothing_follows
  | channelFailed why | leave =>
    exact .ite (fun _ => nothing_follows) fun _ => stop_follows _ _ live
  | msg sender json => exact onMsg_follows rfl live

/-! ## The machine -/

/-- Silent moves never change the phase. -/
theorem Silent.phase_eq {b : Attempt P} (move : Silent input a b) : b.phase = a.phase := by
  cases move <;> rfl

theorem phase_eq_of_silent {b : Attempt P}
    (silent : Relation.ReflTransGen (Silent input) a b) : b.phase = a.phase := by
  induction silent with
  | refl => rfl
  | tail _ move ih => exact move.phase_eq.trans ih

/-- Handling an event consists of silent moves and one answer. -/
theorem on_follows (P : Primitives) : (machine P).Follows (moves P) := by
  intro a input
  change (moves P).Answers input a (on a input).1 (on a input).2
  unfold on
  split
  · exact ⟨a, .refl, .nothing a⟩
  · rename_i notHalted
    have live : a.Live := not_or.mp notHalted
    have follows := step_follows input live
    unfold Follows at follows
    match (step input).exec a, follows with
    | (.ok acts, b), answers => exact answers
    | (.error e, b), silent =>
      have liveAfter : b.Live := by
        rw [Live, phase_eq_of_silent silent]
        exact live
      cases input with
      | msg sender json =>
        dsimp only
        split
        · exact ⟨b, silent, .stopped b e [sender] liveAfter⟩
        · exact ⟨b, silent, .nothing b⟩
      | _ => exact ⟨b, silent, .stopped b e [] liveAfter⟩

/-- A stopped or finished attempt ignores everything. -/
theorem on_halted (halted : a.phase = .stopped ∨ a.phase = .fundingSigned) (input : Input P) :
    a.on input = ([], a) := by
  unfold on
  exact if_pos halted

/-! ## Joining -/

/-- Proving the coins draws random bytes only. -/
theorem proveCoins_silently (coins : List (OutPoint × TxOut × SecretKey))
    (a : Attempt P) : Fallible.Silently (moves P) input (proveCoins coins) a
      (fun _ b => ∃ n, b = { a with auxN := n }) := by
  induction coins generalizing a with
  | nil => exact .pure ⟨a.auxN, rfl⟩
  | cons coin coins ih =>
    obtain ⟨op, out, sk⟩ := coin
    refine .get_bind (.bind aux_silently fun aux b drawn => ?_)
    refine .lift_bind fun proof _ => .bind (ih b) fun rest c reached => ?_
    obtain ⟨n, rfl⟩ := reached
    subst drawn
    exact .pure ⟨n, rfl⟩

/-- A new attempt is a fresh one that has drawn its proofs' random bytes and
posts its input registration. -/
theorem new_spec {params : Params} {me : MyPart} {network : Network} {now : Nat}
    {timeouts : Timeouts} {acts : List (Action P)}
    (joined : new params network me now timeouts = .ok (a, acts)) :
    (∃ d n, a = { fresh params network me now timeouts d with auxN := n }) ∧
      ∃ msg : Msg, acts = [post msg] ∧ msg.kind = .inputs := by
  obtain ⟨_, rest⟩ := ensure_bind_eq_ok.mp joined
  obtain ⟨_, _, rest⟩ := bind_eq_ok.mp rest
  obtain ⟨_, rest⟩ := ensure_bind_eq_ok.mp rest
  have registered : Fallible.Silently (moves P) .leave myRegistration
      (fresh params network me now timeouts ((params.classes.map Class.amount).headD 0))
      (fun msg b => (∃ n, b = { fresh params network me now timeouts
        ((params.classes.map Class.amount).headD 0) with auxN := n }) ∧ msg.kind = .inputs) := by
    refine .get_bind (.bind (proveCoins_silently _ _) fun inputs b reached => ?_)
    exact .lift_bind fun change _ => .pure ⟨reached, rfl⟩
  unfold Fallible.Silently at registered
  split at rest
  · rename_i msg b executed
    rw [executed] at registered
    obtain ⟨same, posted⟩ := Prod.mk.inj (pure_eq_ok.mp rest)
    subst same
    exact ⟨⟨_, registered.2.1⟩, msg, posted.symm, registered.2.2⟩
  · cases rest

/-- The attempt as the page configures it right after joining. -/
def configured (a : Attempt P) (refused : List OutPoint) (isPublic : Bool) (deadline : Nat) :
    Attempt P :=
  ((a.refusing refused).withPublic isPublic).firstPhaseUntil deadline

end Lij.Tatara.Attempt
