import Lij.Tatara.Instance
import Lij.Tatara.MessageDraws

/-!
# What a stranger's message and an ignored error leave behind

A message of a key that is not registered changes nothing, unless it is a
registration that reads well by itself while registration is open, or a payout
whose ring signature verifies. The registration is taken, or it proves a refused
coin and the attempt stops naming it. The payout is noted, and built on when it is
the last; a second one under a known key image stops the attempt and names no one.

An error that does not stop the attempt is not always free of traces. A payout
is noted before the build that it completes, and this phone's own messages come
back to it as the relay's echo: what they bring is noted before the check of
everybody's data fails, and the secret nonces are taken before the signing does.
`Residue` lists these traces.
-/

namespace Lij.Tatara.Attempt

open Bitcoin Joinstr Checked Fallible

variable {P : Primitives}

/-- The inputs of a registration that reads well by itself while registration is open. -/
structure ReadsInputs (a : Attempt P) (sender : SessionKey) (musigPubkey ringPubkey : String)
    (inputs : List InputMsg) (change : Option ChangeMsg) (height : Nat)
    (denomination : Option Nat) (json : P.Text) (ins : List (OutPoint × TxOut)) : Prop where
  phase : a.phase = .inputs
  room : a.regs.size < a.params.peers
  parsed : P.parseStrict json =
    .ok (.inputs musigPubkey ringPubkey inputs change height denomination)
  amount : denomination.getD a.d = a.d
  count : registrationInputs inputs.length = .ok ()
  proofs : inputs.mapM (readInput P a.id sender) = .ok ins

/-- The message is a registration valid on its own. -/
def ReadsRegistration (a : Attempt P) (sender : SessionKey) (json : P.Text)
    (reg : InputRegistration) : Prop :=
  ∃ musigPubkey ringPubkey inputs change height denomination ins,
    a.ReadsInputs sender musigPubkey ringPubkey inputs change height denomination json ins ∧
    a.readRegistration sender musigPubkey ringPubkey ins change height = .ok reg

/-- The message is a registration that proves a coin this phone refuses. -/
def ProvesRefused (a : Attempt P) (sender : SessionKey) (json : P.Text) : Prop :=
  ∃ musigPubkey ringPubkey inputs change height denomination ins,
    a.ReadsInputs sender musigPubkey ringPubkey inputs change height denomination json ins ∧
    ∃ input ∈ ins, input.1 ∈ a.refused

/-- The message is a payout with a valid ring signature of the full pool. -/
structure ReadsPayout (a : Attempt P) (json : P.Text) (spk : Script) (image : String) : Prop where
  intro ::
  phase : a.phase = .payouts ∨ a.phase = .inputs ∨ a.phase = .channel
  full : a.params.peers ≤ a.regs.size
  reads : ∃ address ringSig priority denomination,
    P.parseStrict json = .ok (.output address ringSig priority denomination) ∧
    a.readOutput address ringSig priority denomination = .ok (spk, image)

/-- The payout is noted, and perhaps one random value drawn for the nonces it completes. -/
def NotesPayout (a : Attempt P) (json : P.Text) (b : Attempt P) : Prop :=
  ∃ spk image, a.ReadsPayout json spk image ∧ image ∉ a.images ∧
    (b = a.withPayout spk image json ∨
      b = { a.withPayout spk image json with auxN := Word.add32 a.auxN 1 })

/-- What a message of a key that is not registered can do: nothing, be taken as a
registration (and close it), be refused as one, bring a payout that is noted or that completes
the build, or bring a second one under a known key image. -/
inductive StrangerEffect (a : Attempt P) (sender : SessionKey) (json : P.Text) :
    List (Action P) × Attempt P → Prop
  | nothing : StrangerEffect a sender json ([], a)
  | registered (reg : InputRegistration) (reads : a.ReadsRegistration sender json reg)
      (acts : List (Action P)) (coinsAsked : Bool) :
      StrangerEffect a sender json
        (acts, { a with regs := a.regs.insert sender (reg, json), coinsAsked })
  | closed (reg : InputRegistration) (reads : a.ReadsRegistration sender json reg)
      (acts : List (Action P)) :
      StrangerEffect a sender json
        (acts, stopped { a with regs := a.regs.insert sender (reg, json) })
  | refused (proves : a.ProvesRefused sender json) : StrangerEffect a sender json
      (a.stopActions "a member brought a coin refused after an earlier pool" [sender], a.stopped)
  | second (spk : Script) (image : String) (reads : a.ReadsPayout json spk image)
      (seen : image ∈ a.images) : StrangerEffect a sender json
        (a.stopActions "two payouts under one key image" [], a.stopped)
  | noted (b : Attempt P) (notes : a.NotesPayout json b) : StrangerEffect a sender json ([], b)
  | built (spk : Script) (image : String) (reads : a.ReadsPayout json spk image)
      (new : image ∉ a.images) (phase : a.phase = .payouts)
      (last : a.params.peers ≤ (a.withPayout spk image json).payouts.length)
      (checked : CheckedBuild P) (passes : (a.withPayout spk image json).checkedBuild = .ok checked)
      (aux : Digest) (secs : ExitNonces P) (pubs : List PubNonce)
      (made : makeNonces P a.me.musig checked.keys checked.msgs a.id aux = .ok (secs, pubs)) :
      StrangerEffect a sender json
        ([.post (P.viewJson (Hex.encode (Bytes.of256
            ((a.withPayout spk image json).viewHash checked.built checked.msgs)))),
          post (.nonces 0 (pubs.map nonceHex))] ++ checked.fundChannel,
        { a.withPayout spk image json with
          auxN := Word.add32 a.auxN 1, myNonces := some secs
          myView := some ((a.withPayout spk image json).viewHash checked.built checked.msgs)
          built := some checked.built, keys := some checked.keys, msgs := some checked.msgs
          phase := .view })

/-- What an error that is ignored may leave behind. -/
inductive Residue (a : Attempt P) (sender : SessionKey) (json : P.Text) : Attempt P → Prop
  | nothing : Residue a sender json a
  | payout (b : Attempt P) (notes : a.NotesPayout json b) : Residue a sender json b
  | registration (entry : InputRegistration × P.Text) :
      Residue a sender json { a with regs := a.regs.insert sender entry }
  | view (known : sender ∈ a.regs) (hash : Digest) (myNonces : Option (ExitNonces P))
      (taken : myNonces = a.myNonces ∨ myNonces = none) :
      Residue a sender json { a with views := a.views.insert sender hash, myNonces }
  | nonces (known : sender ∈ a.regs) (entry : List PubNonce × P.Text)
      (myNonces : Option (ExitNonces P)) (taken : myNonces = a.myNonces ∨ myNonces = none) :
      Residue a sender json { a with nonces := a.nonces.insert sender entry, myNonces }
  | psigs (known : sender ∈ a.regs) (entry : List PartialSignature × P.Text)
      (built : Option PoolTxs) (taken : built = a.built ∨ built = none) :
      Residue a sender json { a with psigs := a.psigs.insert sender entry, built }

variable {a b : Attempt P} {sender : SessionKey} {json : P.Text}

/-! ## Strangers -/

/-- The state of a stranger's message whose handling fails. -/
def StrangerError (a : Attempt P) (sender : SessionKey) (json : P.Text) (b : Attempt P) : Prop :=
  b = a ∨ (∃ reg, a.ReadsRegistration sender json reg ∧
    b = { a with regs := a.regs.insert sender (reg, json) }) ∨ a.NotesPayout json b

/-- The contract of a handler of a stranger's message. -/
def Strangely (a : Attempt P) (sender : SessionKey) (json : P.Text) (m : Answer P) : Prop :=
  Ends m a (fun acts b => StrangerEffect a sender json (acts, b)) (StrangerError a sender json)

theorem strangely_nothing : Strangely a sender json (pure []) := .pure .nothing

theorem onInputs_strangely {musigPubkey ringPubkey : String} {inputs : List InputMsg}
    {change : Option ChangeMsg} {height : Nat} {denomination : Option Nat}
    (parsed : P.parseStrict json =
      .ok (.inputs musigPubkey ringPubkey inputs change height denomination))
    (stranger : sender ∉ a.regs) :
    Strangely a sender json
      (onInputs sender musigPubkey ringPubkey inputs change height denomination json) := by
  have unseen : a.regs[sender]? = none := by simpa using stranger
  have same : StrangerError a sender json a := .inl rfl
  refine .get_bind ?_
  rw [unseen]
  refine .ite (fun _ => strangely_nothing) fun go => ?_
  obtain ⟨notInputs, notFull⟩ := not_or.mp go
  refine .require_bind (fun amount => .lift_bind (fun _ count => .lift_bind (fun ins proofs => ?_)
    same) same) same
  have reads : a.ReadsInputs sender musigPubkey ringPubkey inputs change height denomination json
      ins := ⟨not_not.mp notInputs, not_le.mp notFull, parsed, amount, count, proofs⟩
  refine .ite (fun refused => ?_) fun _ => .lift_bind (fun reg read => ?_) same
  · obtain ⟨input, member, isRefused⟩ := List.any_eq_true.mp refused
    have proves : a.ProvesRefused sender json :=
      ⟨_, _, _, _, _, _, ins, reads, input, member, by simpa using isRefused⟩
    exact .get_bind (.modify_bind (.pure (.refused proves)))
  · have valid : a.ReadsRegistration sender json reg := ⟨_, _, _, _, _, _, ins, reads, read⟩
    refine .modify_bind (.get_bind (.ite (fun _ => .pure (.registered reg valid _ a.coinsAsked))
      fun _ => .get_bind ?_))
    refine .lift_bind (fun _ _ => .ite (fun _ => ?_) fun _ => ?_) (.inr (.inl ⟨reg, valid, rfl⟩))
    · exact .get_bind (.modify_bind (.pure (.closed reg valid _)))
    · exact .modify_bind (.pure (.registered reg valid _ true))

theorem onOutput_strangely {address : String} {ringSig : RingSig} {priority : Nat}
    {denomination : Option Nat}
    (parsed : P.parseStrict json = .ok (.output address ringSig priority denomination)) :
    Strangely a sender json (onOutput address ringSig priority denomination json) := by
  refine .get_bind (.ite (fun _ => strangely_nothing) fun inPhase => ?_)
  refine .ite (fun _ => strangely_nothing) fun full => .lift_bind (fun read ok => ?_) (.inl rfl)
  have reads : a.ReadsPayout json read.1 read.2 :=
    ⟨not_not.mp inPhase, not_lt.mp full, _, _, _, _, parsed, ok⟩
  cases seen : a.images[read.2]? with
  | some old =>
    have known : read.2 ∈ a.images := by simp [Std.TreeMap.mem_iff_isSome_getElem?, seen]
    exact .ite (fun _ => strangely_nothing)
      fun _ => .get_bind (.modify_bind (.pure (.second _ _ reads known)))
  | none =>
    have new : read.2 ∉ a.images := by simpa using seen
    have notes : a.NotesPayout json (a.withPayout read.1 read.2 json) :=
      ⟨_, _, reads, new, .inl rfl⟩
    refine .require_bind (fun _ => .modify_bind (.get_bind ?_)) (.inl rfl)
    refine .ite (fun _ => .pure (.noted _ notes)) fun last =>
      .require_bind (fun phase => ?_) (.inr (.inr notes))
    refine .get_bind (.lift_bind (fun checked passes => .bind aux_ends ?_) (.inr (.inr notes)))
    rintro value _ rfl
    exact .lift_bind (fun nonces made => .modify_bind (.pure (.built _ _ reads new phase
      (not_lt.mp last) checked passes value nonces.1 nonces.2 made)))
      (.inr (.inr ⟨_, _, reads, new, .inr rfl⟩))

theorem onMsg_strangely (stranger : sender ∉ a.regs) :
    Strangely a sender json (onMsg sender json) := by
  refine .lift_bind (fun _ _ => ?_) (.inl rfl)
  cases P.viewFields json with
  | some v => exact .get_bind (.ite (fun _ => strangely_nothing) fun known => absurd stranger known)
  | none =>
    refine .lift_bind (fun msg parsed => .get_bind ?_) (.inl rfl)
    cases msg with
    | inputs musigPubkey ringPubkey inputs change height denomination =>
      exact onInputs_strangely parsed stranger
    | output address ringSig priority denomination => exact onOutput_strangely parsed
    | nonces offset nonces | partialSigs offset sigs =>
      exact .ite (fun known => absurd known stranger) fun _ => strangely_nothing
    | abort reason =>
      exact .ite (fun known => absurd known.1 stranger) fun _ => strangely_nothing
    | joinPool | credentials text | reject reason | fundingSigs witnesses =>
      exact strangely_nothing

theorem on_strangerEffect (stranger : sender ∉ a.regs) :
    StrangerEffect a sender json (a.on (.msg sender json)) := by
  unfold on
  split
  · exact .nothing
  · have ends : Strangely a sender json (step (.msg sender json)) :=
      .get_bind (onMsg_strangely stranger)
    cases result : (step (.msg sender json)).exec a with
    | mk outcome c =>
      cases outcome with
      | ok acts => exact Ends.of_exec ends result
      | error e =>
        dsimp only
        rcases Ends.of_exec_error ends result with rfl | ⟨reg, reads, rfl⟩ | notes
        · rw [if_neg fun known => stranger known.1]
          exact .nothing
        · split
          · exact .closed reg reads _
          · exact .registered reg reads [] a.coinsAsked
        · have regs : c.regs = a.regs := by
            obtain ⟨spk, image, _, _, rfl | rfl⟩ := notes <;> rfl
          rw [if_neg fun known => stranger (regs ▸ known.1)]
          exact .noted c notes

/-! ## Ignored errors -/

/-- The contract of a handler whose errors leave only these traces. -/
def LeavesResidue (a : Attempt P) (sender : SessionKey) (json : P.Text) (m : Answer P)
    (s : Attempt P) : Prop :=
  Ends m s (fun _ _ => True) (Residue a sender json)

theorem stop_residue (reason : String) (named : List SessionKey) (s : Attempt P) :
    LeavesResidue a sender json (stop reason named) s :=
  .get_bind (.modify_bind (.pure trivial))

theorem trySign_residue (kept : Residue a sender json b)
    (taken : Residue a sender json { b with myNonces := none }) :
    LeavesResidue a sender json trySign b := by
  refine .get_bind (.ite (fun _ => .pure trivial) fun _ => .lift_bind (fun mine _ => ?_) kept)
  refine .ite (fun _ => stop_residue _ _ b) fun _ => .lift_bind (fun secs _ => .modify_bind ?_) kept
  exact .lift_bind (fun psigs _ => .modify_bind (.pure trivial)) taken

theorem Strangely.residue {m : Answer P} (strangely : Strangely a sender json m) :
    LeavesResidue a sender json m a := by
  refine Ends.mono strangely (fun _ _ _ => trivial) fun b failed => ?_
  obtain rfl | ⟨reg, _, rfl⟩ | notes := failed
  · exact .nothing
  · exact .registration (reg, json)
  · exact .payout b notes

theorem enterFunding_residue (kept : Residue a sender json b)
    (taken : Residue a sender json { b with built := none }) :
    LeavesResidue a sender json enterFunding b := by
  refine .get_bind (.lift_bind (fun keys _ => .lift_bind (fun msgs _ => .lift_bind
    (fun signers _ => ?_) kept) kept) kept)
  cases aggregate P keys msgs signers with
  | error text => exact stop_residue _ _ b
  | ok sigs =>
    refine .lift_bind (fun unsigned _ => .modify_bind ?_) kept
    exact .lift_bind (fun signed _ => .modify_bind (.pure trivial)) taken

theorem onMsg_residue : LeavesResidue a sender json (onMsg sender json) a := by
  refine .lift_bind (fun _ _ => ?_) .nothing
  cases P.viewFields json with
  | some v =>
    refine .get_bind (.ite (fun _ => .pure trivial) fun registered => ?_)
    have known : sender ∈ a.regs := not_not.mp registered
    refine .lift_bind (fun hash _ => ?_) .nothing
    cases a.views[sender]? with
    | some old => exact .require_bind (fun _ => .pure trivial) .nothing
    | none =>
      exact .modify_bind (trySign_residue (.view known hash a.myNonces (.inl rfl))
        (.view known hash none (.inr rfl)))
  | none =>
    refine .lift_bind (fun msg parsed => .get_bind ?_) .nothing
    cases msg with
    | inputs musigPubkey ringPubkey inputs change height denomination =>
      cases seen : a.regs[sender]? with
      | some old =>
        refine .get_bind ?_
        rw [seen]
        exact .require_bind (fun _ => .pure trivial) .nothing
      | none => exact (onInputs_strangely parsed (by simpa using seen)).residue
    | output address ringSig priority denomination => exact (onOutput_strangely parsed).residue
    | nonces offset nonces =>
      refine .ite (fun known => .get_bind ?_) fun _ => .pure trivial
      cases a.nonces[sender]? with
      | some old => exact .require_bind (fun _ => .pure trivial) .nothing
      | none =>
        refine .require_bind (fun _ => .lift_bind (fun _ _ => .lift_bind (fun pubs _ => ?_)
          .nothing) .nothing) .nothing
        exact .modify_bind (trySign_residue (.nonces known (pubs, json) a.myNonces (.inl rfl))
          (.nonces known (pubs, json) none (.inr rfl)))
    | partialSigs offset sigs =>
      refine .ite (fun known => .get_bind ?_) fun _ => .pure trivial
      cases a.psigs[sender]? with
      | some old => exact .require_bind (fun _ => .pure trivial) .nothing
      | none =>
        refine .require_bind (fun _ => .lift_bind (fun _ _ => .lift_bind (fun psigs _ => ?_)
          .nothing) .nothing) .nothing
        refine .modify_bind (.get_bind (.ite (fun _ => .pure trivial) fun _ => ?_))
        exact enterFunding_residue (.psigs known (psigs, json) a.built (.inl rfl))
          (.psigs known (psigs, json) none (.inr rfl))
    | abort reason => exact .ite (fun _ => stop_residue _ _ a) fun _ => .pure trivial
    | joinPool | credentials text | reject reason | fundingSigs witnesses => exact .pure trivial

/-- What an error leaves does not change who this phone is. -/
theorem Residue.session (residue : Residue a sender json b) : b.me.session = a.me.session := by
  cases residue with
  | payout b notes => obtain ⟨spk, image, _, _, rfl | rfl⟩ := notes <;> rfl
  | _ => rfl

/-- The traces of messages other than payouts are those of registered senders. -/
theorem Residue.known (residue : Residue a sender json b) :
    b = a ∨ a.NotesPayout json b ∨ sender ∈ b.regs := by
  cases residue with
  | nothing => exact .inl rfl
  | payout b notes => exact .inr (.inl notes)
  | registration entry => exact .inr (.inr (by simp))
  | view known hash myNonces taken | nonces known entry myNonces taken
  | psigs known entry built taken => exact .inr (.inr known)

/-- Member 1's attempt, which refuses member 2's coin. -/
def refusingStart : Attempt Instance.primitives :=
  (Instance.start 1).refusing [⟨BitVec.ofNat 256 2, 0⟩]

/-- Member 1 joined when fees were lower than the pool's rate. -/
def cheapJoined : Except String (Attempt Instance.primitives × List (Action Instance.primitives)) :=
  new Instance.params .regtest { Instance.member 1 with rateAtJoin := 0 } 0 ⟨60⟩

def cheapStart : Attempt Instance.primitives :=
  match cheapJoined with
  | .ok (a, _) => a
  | .error _ => Instance.start 1

/-- The attempt with all payouts but the last. -/
def beforeLastPayout : Attempt Instance.primitives :=
  (machine _).after cheapStart ((Instance.untilView [1, 2, 3]).dropLast)

end Lij.Tatara.Attempt
