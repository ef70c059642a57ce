import Lij.Tatara.MessageDraws
import Lij.Tatara.Views
import Lij.Tatara.WriteAhead

/-!
# Secret nonces are used once

A secret nonce that signs two different messages gives the key away. The nonces
of an attempt are made when its own build passes every check, leave the state
with the one call of the partial signing and with every stop, and are never made
again. `callOn` names the call that handling an event makes, with what it is
given; a posted signature is the result of such a call, and a whole run makes at
most one.
-/

namespace Lij.Tatara.Attempt

open Bitcoin Joinstr Checked Fallible Reactive List

variable {P : Primitives}

/-- What one call of the partial signing is given. -/
structure SigningCall (P : Primitives) where
  seckey : Scalar
  keys : PoolKeys
  msgs : List ExitMessage
  secs : ExitNonces P
  nonces : List (List PubNonce)

/-- The call carried out. -/
def SigningCall.run (call : SigningCall P) : Except String (List PartialSignature) :=
  partialSign P call.seckey call.keys call.msgs call.secs call.nonces

/-- The call of the partial signing that `trySign` makes in this state. -/
def signingCall (a : Attempt P) : Option (SigningCall P) :=
  if a.phase ≠ .view ∨ (a.isPublic = false ∧ a.views.size < a.params.peers) ∨
      a.nonces.size < a.params.peers then none
  else do
    let mine ← a.myView
    if (Maps.values a.views).any fun v => v ≠ mine then none
    else do
      let secs ← a.myNonces
      let nonces ← a.nonceOrder.toOption
      let keys ← a.keys
      let msgs ← a.msgs
      return { seckey := a.me.musig, keys, msgs, secs, nonces }

/-- The state in which handling an event calls `trySign`, if it does: after a
registered member's first view or first nonces were noted. -/
def signingState (a : Attempt P) : Input P → Option (Attempt P)
  | .msg sender json =>
    if (messageSize P json).isOk then
      match P.viewFields json with
      | some v =>
        if sender ∈ a.regs ∧ sender ∉ a.views then
          (viewHashOf v).toOption.map fun hash =>
            { a with views := a.views.insert sender hash }
        else none
      | none =>
        match P.parseStrict json with
        | .ok (.nonces offset nonces) =>
          if sender ∈ a.regs ∧ sender ∉ a.nonces ∧ offset = 0 ∧
              (onePerExit nonces.length a.exitCount).isOk then
            (nonces.mapM (nonceFromHex P)).toOption.map fun parsed =>
              { a with nonces := a.nonces.insert sender (parsed, json) }
          else none
        | _ => none
    else none
  | _ => none

/-- The call of the partial signing made while an event is handled. -/
def callOn (a : Attempt P) (input : Input P) : Option (SigningCall P) :=
  if a.phase = .stopped ∨ a.phase = .fundingSigned then none
  else (a.signingState input).bind signingCall

/-- The calls of a whole run. -/
def callsOf : Attempt P → List (Input P) → List (SigningCall P)
  | _, [] => []
  | a, input :: inputs => (a.callOn input).toList ++ callsOf (a.on input).2 inputs

variable {me : MyPart} {least : Nat} {a b : Attempt P}

/-! ## The call -/

/-- What the state holds when the partial signing is called. -/
structure Calls (a : Attempt P) (call : SigningCall P) : Prop where
  intro ::
  phase : a.phase = .view
  secs : a.myNonces = some call.secs
  keys : a.keys = some call.keys
  msgs : a.msgs = some call.msgs
  agree : ∃ mine, a.ViewsAgree mine
  enough : a.params.peers ≤ a.nonces.size
  order : a.nonceOrder = .ok call.nonces
  seckey : call.seckey = a.me.musig

variable {call : SigningCall P}

theorem signingCall_eq_some :
    a.signingCall = some call ↔ a.Calls call := by
  constructor
  · intro made
    unfold signingCall at made
    split at made
    · cases made
    · rename_i go
      obtain ⟨phase, complete, enough⟩ := ready_iff.mp go
      obtain ⟨mine, own, rest⟩ := Option.bind_eq_some_iff.mp made
      split at rest
      · cases rest
      · rename_i allSame
        simp only [bind, Option.bind_eq_some_iff, toOption_eq_some] at rest
        obtain ⟨secs, taken, nonces, order, keys, ownKeys, msgs, ownMsgs, ⟨⟩⟩ := rest
        exact ⟨phase, taken, ownKeys, ownMsgs,
          ⟨mine, complete, own, by simpa using allSame⟩, enough,
          order, rfl⟩
  · rintro ⟨phase, secs, keys, msgs, ⟨mine, complete, own, same⟩, enough, order, seckey⟩
    rw [signingCall, if_neg (ready_iff.mpr ⟨phase, complete, enough⟩)]
    simpa [own, secs, toOption_eq_some.mpr order, keys, msgs, ← seckey] using same

/-- `trySign` posts nothing but the result of its call, and draws nothing. -/
theorem trySign_ends (drawing : Drawing me least a) :
    Ends trySign a (fun acts b => Drawing me least b ∧ ∀ act ∈ acts, isSignature act = true →
      ∃ call psigs, a.signingCall = some call ∧ call.run = .ok psigs ∧
        act = post (.partialSigs 0 (psigs.map psigHex))) (Drawing me least) := by
  refine .get_bind (.ite (fun _ => .pure ⟨drawing, nofun⟩) fun go => ?_)
  obtain ⟨phase, complete, enough⟩ := ready_iff.mp go
  refine .lift_bind (fun mine own => .ite (fun _ => ?_) fun allSame => ?_) drawing
  · refine (stop_ends _ _ drawing.spent).mono (fun acts b quietly => ?_) fun _ failed => failed
    refine ⟨quietly.1, fun act member signature => ?_⟩
    rw [quietly.2 act member] at signature
    cases signature
  · have agree : a.ViewsAgree mine :=
      { complete, own := context_eq_ok.mp own, same := by simpa using allSame }
    have dropped : Drawing me least { a with myNonces := none } :=
      drawing.congr {} rfl (Nat.le_refl _)
    refine .lift_bind (fun secs taken => .modify_bind (.lift_bind (fun psigs signed => ?_)
      dropped)) drawing
    refine .modify_bind (.pure ⟨drawing.congr {} rfl ?_, fun act member _ => ?_⟩)
    · rw [remaining, remaining, phase]
    · simp only [partialSigs, bind_eq_ok, context_eq_ok] at signed
      obtain ⟨order, ordered, keys, ownKeys, msgs, ownMsgs, result⟩ := signed
      refine ⟨⟨a.me.musig, keys, msgs, secs, order⟩, psigs, signingCall_eq_some.mpr ?_, result,
        mem_singleton.mp member⟩
      exact ⟨phase, context_eq_ok.mp taken, ownKeys, ownMsgs, ⟨mine, agree⟩, enough, ordered, rfl⟩

/-- What a handler of messages may post: signatures of the call it makes. -/
def SignsOnly (a : Attempt P) (input : Input P) (acts : List (Action P)) : Prop :=
  ∀ act ∈ acts, isSignature act = true → ∃ b call psigs, a.signingState input = some b ∧
    b.signingCall = some call ∧ call.run = .ok psigs ∧
    act = post (.partialSigs 0 (psigs.map psigHex))

variable {acts : List (Action P)}

theorem Quiet.signing (quiet : Quiet acts) (a : Attempt P) (input : Input P) :
    SignsOnly a input acts := by
  intro act member signature
  rw [quiet act member] at signature
  cases signature

theorem Quietly.signing {m : Answer P} {failed : Attempt P → Prop}
    (ends : Ends m a (Quietly me least) failed) (input : Input P) :
    Ends m a (fun acts b => Drawing me least b ∧ SignsOnly a input acts) failed :=
  ends.mono (fun _ _ quietly => ⟨quietly.1, quietly.2.signing a input⟩) fun _ holds => holds

variable {input : Input P}

theorem trySign_signing (drawing : Drawing me least b) (calls : a.signingState input = some b) :
    Ends trySign b (fun acts c => Drawing me least c ∧ SignsOnly a input acts)
      (Drawing me least) := by
  refine (trySign_ends drawing).mono (fun acts c signs => ⟨signs.1, ?_⟩) fun _ holds => holds
  intro act member signature
  obtain ⟨call, psigs, made, result, same⟩ := signs.2 act member signature
  exact ⟨b, call, psigs, calls, made, result, same⟩

theorem onMsg_ends (few : Few me) (drawing : Drawing me least a) (sender : SessionKey)
    (json : P.Text) :
    Ends (onMsg sender json) a
      (fun acts b => Drawing me least b ∧ SignsOnly a (.msg sender json) acts)
      (Drawing me least) := by
  refine .lift_bind (fun size sized => ?_) drawing
  have nothing : Ends (pure []) a
      (fun acts b => Drawing me least b ∧ SignsOnly a (.msg sender json) acts)
      (Drawing me least) := Quietly.signing (nothing_ends drawing) _
  cases fields : P.viewFields json with
  | some v =>
    refine .get_bind (.ite (fun _ => nothing) fun registered => .lift_bind (fun hash read => ?_)
      drawing)
    have known : sender ∈ a.regs := not_not.mp registered
    cases seen : a.views[sender]? with
    | some old => exact .require_bind (fun _ => nothing) drawing
    | none =>
      have new : sender ∉ a.views := by simpa using seen
      refine .modify_bind (trySign_signing (drawing.congr {} rfl (Nat.le_refl _)) ?_)
      simp [signingState, sized, fields, known, new, read, Except.isOk, Except.toBool,
        Except.toOption]
  | none =>
    refine .lift_bind (fun msg parsed => .get_bind ?_) drawing
    cases msg with
    | inputs musigPubkey ringPubkey inputs change height denomination =>
      exact Quietly.signing (onInputs_ends drawing _ _ _ _ _ _ _ _) _
    | output address ringSig priority denomination =>
      exact Quietly.signing (onOutput_ends few drawing _ _ _ _ _) _
    | nonces offset nonces =>
      refine .ite (fun known => .get_bind ?_) fun _ => nothing
      cases seen : a.nonces[sender]? with
      | some old => exact .require_bind (fun _ => nothing) drawing
      | none =>
        have new : sender ∉ a.nonces := by simpa using seen
        refine .require_bind (fun whole => .lift_bind (fun each one => .lift_bind
          (fun pubs read => .modify_bind ?_) drawing) drawing) drawing
        refine trySign_signing (drawing.congr {} rfl (Nat.le_refl _)) ?_
        simp [signingState, sized, fields, parsed, known, new, whole, one, read, Except.isOk,
          Except.toBool, Except.toOption]
    | partialSigs offset sigs =>
      refine .ite (fun _ => ?_) fun _ => nothing
      exact Quietly.signing (onPsigs_ends drawing _ _ _ _) _
    | abort reason =>
      refine .ite (fun _ => ?_) fun _ => nothing
      exact Quietly.signing (stop_ends _ _ drawing.spent) _
    | joinPool | credentials text | reject reason | fundingSigs witnesses => exact nothing

theorem step_ends (few : Few me) (drawing : Drawing me least a) (input : Input P)
    (notMsg : ∀ sender json, input ≠ .msg sender json) :
    Ends (step input) a (Quietly me least) (Spent me least) := by
  have spent := drawing.spent
  refine .get_bind ?_
  cases input with
  | tick now => exact onTick_ends drawing now
  | coinsChecked bad unanswered => exact onCoins_ends few drawing bad unanswered
  | recordSaved =>
    refine .ite (fun _ => nothing_ends drawing) fun phase => .modify_bind ?_
    exact tryFund_ends few (drawing.congr {} rfl (Nat.le_refl _)) (not_not.mp phase)
  | payoutGiven spk =>
    refine .ite (fun _ => nothing_ends drawing) fun phase => .require_bind (fun _ => ?_) spent
    refine .modify_bind (registerPayout_ends few (drawing.congr {} rfl (Nat.le_refl _)) ?_)
    exact .inr (not_not.mp phase)
  | channelSaved =>
    refine .ite (fun _ => nothing_ends drawing) fun _ => .modify_bind ?_
    have noted : Drawing me least { a with channelSaved := true } :=
      drawing.congr {} rfl (Nat.le_refl _)
    exact .ite (fun phase => tryFund_ends few noted phase) fun _ => nothing_ends noted
  | channelFailed why =>
    exact .ite (fun _ => nothing_ends drawing) fun _ => stop_ends _ _ spent
  | leave => exact .ite (fun _ => nothing_ends drawing) fun _ => stop_ends _ _ spent
  | msg sender json => exact absurd rfl (notMsg sender json)

/-- Handling an event keeps the counter in its bounds and posts no signature but the
result of the call it makes. -/
theorem on_signs (few : Few me) (drawing : Drawing me least a) (input : Input P) :
    Drawing me least (a.on input).2 ∧ ∀ act ∈ (a.on input).1, isSignature act = true →
      ∃ call psigs, a.callOn input = some call ∧ call.run = .ok psigs ∧
        act = post (.partialSigs 0 (psigs.map psigHex)) := by
  by_cases halted : a.phase = .stopped ∨ a.phase = .fundingSigned
  · rw [on_halted halted]
    exact ⟨drawing, nofun⟩
  · have quiet : ∀ acts : List (Action P), Quiet acts → ∀ act ∈ acts, isSignature act = true →
        ∃ call psigs, a.callOn input = some call ∧ call.run = .ok psigs ∧
          act = post (.partialSigs 0 (psigs.map psigHex)) := by
      intro acts quiet act member signature
      rw [quiet act member] at signature
      cases signature
    unfold on
    rw [if_neg halted]
    by_cases isMsg : ∃ sender json, input = .msg sender json
    · obtain ⟨sender, json, rfl⟩ := isMsg
      have ends : Ends (step (.msg sender json)) a _ _ :=
        .get_bind (onMsg_ends few drawing sender json)
      cases result : (step (.msg sender json)).exec a with
      | mk outcome c =>
        cases outcome with
        | ok acts =>
          obtain ⟨after, signs⟩ := ends.of_exec result
          refine ⟨after, fun act member signature => ?_⟩
          obtain ⟨b, call, psigs, state, made, run, same⟩ := signs act member signature
          refine ⟨call, psigs, ?_, run, same⟩
          rw [callOn, if_neg halted, state]
          exact made
        | error e =>
          have after := ends.of_exec_error result
          dsimp only
          split
          · exact ⟨after.spent.stopped, quiet _ (quiet_stopActions c e [sender])⟩
          · exact ⟨after, nofun⟩
    · have ends := step_ends few drawing input fun sender json same => isMsg ⟨sender, json, same⟩
      cases result : (step input).exec a with
      | mk outcome c =>
        cases outcome with
        | ok acts =>
          have after := ends.of_exec result
          exact ⟨after.1, quiet acts after.2⟩
        | error e =>
          have after := ends.of_exec_error result
          cases input with
          | msg sender json => exact absurd ⟨sender, json, rfl⟩ isMsg
          | _ => exact ⟨after.stopped, quiet _ (quiet_stopActions c e [])⟩

theorem Drawing.run (few : Few me) (drawing : Drawing me least a) (inputs : List (Input P)) :
    Drawing me least ((machine P).after a inputs) := by
  induction inputs generalizing a with
  | nil => exact drawing
  | cons input inputs ih => exact ih (on_signs few drawing input).1

/-! ## Nonces leave with the first call -/

/-- The nonces are gone and cannot come back. -/
structure Gone (a : Attempt P) : Prop where
  made : 3 ≤ rank a.phase
  nonces : a.myNonces = none

theorem Gone.silent (gone : Gone a) (move : Silent input a b) : Gone b := by
  refine ⟨?_, ?_⟩
  · rw [move.phase_eq]
    exact gone.made
  · cases move <;> first | exact gone.nonces | rfl

theorem Gone.emits (gone : Gone a) (move : Emits input a acts b) : Gone b := by
  have made := gone.made
  cases move with
  | nothing => exact gone
  | clockStarted deadline | coinsAsked coins phase full member => exact ⟨made, gone.nonces⟩
  | stopped reason named live => exact ⟨by simp [rank, Attempt.stopped], rfl⟩
  | channelAsked phase | viewPosted checked secs pubs phase full passed =>
    rw [phase] at made
    exact absurd made (by decide)
  | payoutPosted json phase =>
    rcases phase with phase | phase <;> rw [phase] at made <;> exact absurd made (by decide)
  | signed mine psigs phase agree nonces => exact ⟨by simp [rank], rfl⟩
  | recordGiven keys msgs signers sigs unsigned built payout coins phase =>
    exact ⟨by simp [rank], gone.nonces⟩
  | fundingPosted built witnesses phase ready => exact ⟨by simp [rank], gone.nonces⟩

theorem Gone.on (gone : Gone a) (input : Input P) : Gone (a.on input).2 :=
  (on_follows P).invariant (fun _ _ _ holds move => Gone.silent holds move)
    (fun _ _ _ _ holds move => Gone.emits holds move) gone [input]

/-- What noting a view or nonces leaves as it was. -/
theorem signingState_same (calls : a.signingState input = some b) :
    (∃ views, b = { a with views }) ∨ ∃ nonces, b = { a with nonces } := by
  cases input with
  | msg sender json =>
    simp only [signingState] at calls
    split at calls
    · cases fields : P.viewFields json with
      | some v =>
        simp only [fields] at calls
        split at calls
        · obtain ⟨hash, _, same⟩ := Option.map_eq_some_iff.mp calls
          exact .inl ⟨_, same.symm⟩
        · cases calls
      | none =>
        simp only [fields] at calls
        split at calls
        · split at calls
          · obtain ⟨parsed, _, same⟩ := Option.map_eq_some_iff.mp calls
            exact .inr ⟨_, same.symm⟩
          · cases calls
        · cases calls
    · cases calls
  | _ => cases calls

theorem callOn_eq_some (made : a.callOn input = some call) :
    a.Live ∧ ∃ b, a.signingState input = some b ∧ b.Calls call := by
  unfold callOn at made
  split at made
  · cases made
  · rename_i live
    obtain ⟨b, state, called⟩ := Option.bind_eq_some_iff.mp made
    exact ⟨not_or.mp live, b, state, signingCall_eq_some.mp called⟩

/-- The secret nonces of a call are those of the state, for its own messages. -/
theorem callOn_uses (made : a.callOn input = some call) :
    a.phase = .view ∧ a.myNonces = some call.secs ∧ a.keys = some call.keys ∧
      a.msgs = some call.msgs := by
  obtain ⟨_, b, state, calls⟩ := callOn_eq_some made
  rcases signingState_same state with ⟨views, rfl⟩ | ⟨nonces, rfl⟩
  · exact ⟨calls.phase, calls.secs, calls.keys, calls.msgs⟩
  · exact ⟨calls.phase, calls.secs, calls.keys, calls.msgs⟩

theorem callOn_of_gone (gone : Gone a) (input : Input P) : a.callOn input = none := by
  cases made : a.callOn input with
  | none => rfl
  | some call =>
    have taken := (callOn_uses made).2.1
    rw [gone.nonces] at taken
    cases taken

theorem callsOf_of_gone (gone : Gone a) (inputs : List (Input P)) : callsOf a inputs = [] := by
  induction inputs generalizing a with
  | nil => rfl
  | cons input inputs ih =>
    rw [callsOf, callOn_of_gone gone input, ih (gone.on input)]
    rfl

/-- Where `trySign` is called, the event's handling ends as `trySign` does. -/
theorem step_exec_of_signingState (calls : a.signingState input = some b) :
    (step input).exec a = trySign.exec b := by
  cases input with
  | msg sender json =>
    change (onMsg sender json).exec a = _
    simp only [signingState] at calls
    split at calls
    · rename_i small
      have sized := eq_ok_of_isOk small ()
      cases fields : P.viewFields json with
      | some v =>
        simp only [fields] at calls
        split at calls
        · rename_i first
          obtain ⟨hash, read, rfl⟩ := Option.map_eq_some_iff.mp calls
          have new : a.views[sender]? = none := by simpa using first.2
          rw [onMsg, exec_lift_bind_of_eq sized, fields]
          dsimp only
          rw [onView, exec_get_bind, if_neg (not_not.mpr first.1),
            exec_lift_bind_of_eq (toOption_eq_some.mp read), new]
          rfl
        · cases calls
      | none =>
        simp only [fields] at calls
        split at calls
        · rename_i offset nonces parsed
          split at calls
          · rename_i first
            obtain ⟨known, unseen, whole, one⟩ := first
            obtain ⟨pubs, read, rfl⟩ := Option.map_eq_some_iff.mp calls
            have new : a.nonces[sender]? = none := by simpa using unseen
            have each := eq_ok_of_isOk one ()
            rw [onMsg, exec_lift_bind_of_eq sized, fields]
            dsimp only
            rw [exec_lift_bind_of_eq parsed, exec_get_bind]
            dsimp only
            rw [if_pos known, onNonces, exec_get_bind, new]
            dsimp only
            rw [exec_require_bind_of whole, exec_lift_bind_of_eq each,
              exec_lift_bind_of_eq (toOption_eq_some.mp read)]
            rfl
          · cases calls
        · cases calls
    · cases calls
  | _ => cases calls

/-- The call takes the nonces with it, whether it succeeds or fails. -/
theorem trySign_takes (calls : b.Calls call) : Ends trySign b (fun _ c => Gone c) Gone := by
  have made : 3 ≤ rank b.phase := by
    rw [calls.phase]
    decide
  have taken : Gone { b with myNonces := none } := ⟨made, rfl⟩
  obtain ⟨mine, agree⟩ := calls.agree
  have go := ready_iff.mpr ⟨calls.phase, agree.complete, calls.enough⟩
  unfold Ends
  rw [trySign, exec_get_bind, if_neg go, exec_lift_bind_of_eq (context_eq_ok.mpr agree.own), if_neg]
  · rw [exec_lift_bind_of_eq (context_eq_ok.mpr calls.secs), exec_modify_bind]
    cases signed : b.partialSigs call.secs with
    | error e => exact taken
    | ok psigs => exact ⟨Nat.le_of_ble_eq_true rfl, rfl⟩
  · simpa using agree.same

theorem gone_of_callOn (made : a.callOn input = some call) : Gone (a.on input).2 := by
  obtain ⟨live, b, state, calls⟩ := callOn_eq_some made
  have ends := trySign_takes calls
  rw [Ends, ← step_exec_of_signingState state] at ends
  unfold on
  rw [if_neg (not_or.mpr live)]
  cases result : (step input).exec a with
  | mk outcome c =>
    rw [result] at ends
    cases outcome with
    | ok acts => exact ends
    | error e =>
      cases input with
      | msg sender json =>
        dsimp only
        split
        · exact ⟨Nat.le_of_ble_eq_true rfl, rfl⟩
        · exact ends
      | _ => exact ⟨Nat.le_of_ble_eq_true rfl, rfl⟩

/-- A run calls the partial signing at most once, from whatever state. -/
theorem length_callsOf_le (a : Attempt P) (inputs : List (Input P)) :
    (callsOf a inputs).length ≤ 1 := by
  induction inputs generalizing a with
  | nil => exact Nat.zero_le 1
  | cons input inputs ih =>
    rw [callsOf]
    cases made : a.callOn input with
    | none => exact ih _
    | some call =>
      rw [callsOf_of_gone (gone_of_callOn made)]
      exact Nat.le_refl 1

/-! ## What is signed was viewed -/

/-- Does this entry of the history post partial signatures? -/
def signatureEvent : Event (Input P) (Action P) → Bool
  | .emitted act => isSignature act
  | .received _ => false

/-- The signatures posted so far. -/
def signatures (history : History P) : Nat := history.countP signatureEvent

@[simp] theorem signatures_append (history more : History P) :
    signatures (history ++ more) = signatures history + signatures more :=
  countP_append

@[simp] theorem signatures_received (input : Input P) (history : History P) :
    signatures (.received input :: history) = signatures history :=
  countP_cons_of_neg (by simp [signatureEvent])

theorem signatures_of_quiet (quiet : Quiet acts) : signatures (acts.map .emitted) = 0 := by
  refine countP_eq_zero.mpr fun e member => ?_
  obtain ⟨act, inActs, rfl⟩ := mem_map.mp member
  simp [signatureEvent, quiet act inActs]

/-- The invariant between the history of a run and the nonces of the attempt. -/
structure Sighted (history : History P) (a : Attempt P) : Prop where
  unmade : rank a.phase < 3 → a.myNonces = none
  view : a.phase = .view → ∃ built keys msgs, a.built = some built ∧ a.keys = some keys ∧
    a.msgs = some msgs ∧ exitMessages P keys built = .ok msgs ∧
    .emitted (.post (viewText P (a.viewHash built msgs))) ∈ history
  unsigned : rank a.phase < 4 → signatures history = 0
  once : signatures history ≤ 1
  gone : 4 ≤ rank a.phase → a.myNonces = none

variable {history : History P}

section

variable (sighted : Sighted history a)
include sighted

theorem Sighted.append {more : History P} (quiet : signatures more = 0) :
    Sighted (history ++ more) a where
  __ := sighted
  view := by
    intro phase
    obtain ⟨built, keys, msgs, ownBuilt, ownKeys, ownMsgs, messages, posted⟩ := sighted.view phase
    exact ⟨built, keys, msgs, ownBuilt, ownKeys, ownMsgs, messages, mem_append_left _ posted⟩
  unsigned := by
    intro low
    rw [signatures_append, sighted.unsigned low, quiet]
  once := by
    rw [signatures_append, quiet]
    exact sighted.once

/-- A change outside the fields the invariant reads keeps it. -/
theorem Sighted.congr (phase : b.phase = a.phase)
    (nonces : b.myNonces = a.myNonces ∨ b.myNonces = none)
    (build : a.phase = .view → b.built = a.built ∧ b.keys = a.keys ∧ b.msgs = a.msgs ∧
      ∀ built msgs, b.viewHash built msgs = a.viewHash built msgs) : Sighted history b where
  unmade := fun low => nonces.elim (·.trans (sighted.unmade (phase ▸ low))) fun none => none
  view := by
    intro inView
    rw [phase] at inView
    obtain ⟨sameBuilt, sameKeys, sameMsgs, sameHash⟩ := build inView
    obtain ⟨built, keys, msgs, ownBuilt, ownKeys, ownMsgs, messages, posted⟩ := sighted.view inView
    refine ⟨built, keys, msgs, sameBuilt.trans ownBuilt, sameKeys.trans ownKeys,
      sameMsgs.trans ownMsgs, messages, ?_⟩
    rw [sameHash]
    exact posted
  unsigned := by
    rw [phase]
    exact sighted.unsigned
  once := sighted.once
  gone := fun high => nonces.elim (·.trans (sighted.gone (phase ▸ high))) fun none => none

theorem Sighted.silent (move : Silent input a b) : Sighted history b := by
  refine sighted.congr move.phase_eq ?_ fun inView => ?_
  · cases move <;> first | exact .inl rfl | exact .inr rfl
  · cases move with
    | registered sender reg json sent phase | builtDropped phase =>
      exact absurd (phase.symm.trans inView) (by decide)
    | _ => exact ⟨rfl, rfl, rfl, fun _ _ => rfl⟩

/-- An answer that leaves the early phases, or stays in them, without nonces. -/
theorem Sighted.early (before : rank a.phase < 3) (nonces : b.myNonces = a.myNonces)
    (after : rank b.phase < 3) : Sighted history b where
  unmade := fun _ => nonces.trans (sighted.unmade before)
  view := by
    intro inView
    rw [inView] at after
    exact absurd after (by decide)
  unsigned := fun _ => sighted.unsigned (by omega)
  once := sighted.once
  gone := fun high => absurd high (by omega)

/-- An answer that moves to a phase after the signing. -/
theorem Sighted.late (nonces : b.myNonces = none) (after : 4 ≤ rank b.phase) :
    Sighted history b where
  unmade := fun _ => nonces
  view := by
    intro inView
    rw [inView] at after
    exact absurd after (by decide)
  unsigned := fun low => absurd after (by omega)
  once := sighted.once
  gone := fun _ => nonces

theorem Sighted.emits (move : Emits input a acts b) : Sighted (history ++ acts.map .emitted) b := by
  cases move with
  | nothing => exact sighted.append rfl
  | clockStarted deadline =>
    have same : Sighted history { a with clockPhase := a.phase, deadline } :=
      sighted.congr rfl (.inl rfl) fun _ => ⟨rfl, rfl, rfl, fun _ _ => rfl⟩
    exact same.append rfl
  | stopped reason named live =>
    have ended : Sighted history a.stopped := sighted.late rfl (Nat.le_of_ble_eq_true rfl)
    exact ended.append (signatures_of_quiet (quiet_stopActions a reason named))
  | coinsAsked coins phase full member =>
    have same : Sighted history { a with coinsAsked := true } :=
      sighted.congr rfl (.inl rfl) fun _ => ⟨rfl, rfl, rfl, fun _ _ => rfl⟩
    exact same.append rfl
  | channelAsked phase =>
    have asked : Sighted history { a with phase := .channel } :=
      sighted.early (by simp [phase, rank]) rfl (by simp [rank])
    exact asked.append rfl
  | payoutPosted json phase =>
    have posted : Sighted history { a with phase := .payouts } := by
      refine sighted.early ?_ rfl (by simp [rank])
      rcases phase with phase | phase <;> simp [phase, rank]
    exact posted.append rfl
  | viewPosted checked secs pubs phase full passed =>
    have quiet : signatures ((([.post (P.viewJson (Hex.encode (Bytes.of256
        (a.viewHash checked.built checked.msgs)))), post (.nonces 0 (pubs.map nonceHex))] ++
        checked.fundChannel).map .emitted : History P)) = 0 := by
      refine signatures_of_quiet fun act member => ?_
      rcases mem_append.mp member with posts | funds
      · simp only [mem_cons, not_mem_nil, or_false] at posts
        rcases posts with rfl | rfl
        · simp
        · simp [Msg.kind]
      · exact fundChannel_quiet passed act funds
    have none := sighted.unsigned (by simp [phase, rank])
    exact {
      unmade := fun low => by simp [rank] at low
      view := fun _ => ⟨checked.built, checked.keys, checked.msgs, rfl, rfl, rfl,
        (checkedBuild_spec passed).messages, mem_append_right _ (by
          rw [map_append, map_cons]
          exact mem_append_left _ mem_cons_self)⟩
      unsigned := fun _ => by rw [signatures_append, none, quiet]
      once := by rw [signatures_append, none, quiet]; exact Nat.zero_le 1
      gone := fun high => by simp [rank] at high }
  | signed mine psigs phase agree nonces =>
    have none := sighted.unsigned (by simp [phase, rank])
    exact {
      unmade := fun _ => rfl
      view := fun impossible => by cases impossible
      unsigned := fun low => by simp [rank] at low
      once := by
        rw [signatures_append, none, Nat.zero_add]
        exact countP_le_length
      gone := fun _ => rfl }
  | recordGiven keys msgs signers sigs unsigned built payout coins phase =>
    have funded : Sighted history { a with built := some built, phase := .funding } :=
      sighted.late (sighted.gone (by simp [phase, rank])) (Nat.le_of_ble_eq_true rfl)
    exact funded.append rfl
  | fundingPosted built witnesses phase ready =>
    have posted : Sighted history { a with phase := .fundingSigned } :=
      sighted.late (sighted.gone (by simp [phase, rank])) (Nat.le_of_ble_eq_true rfl)
    refine posted.append (signatures_of_quiet fun act member => ?_)
    simp only [mem_cons, not_mem_nil, or_false] at member
    rcases member with rfl | rfl
    · simp [Msg.kind]
    · rfl

end

theorem sighted_keeps (P : Primitives) : (moves P).Keeps Sighted where
  receives := by
    intro history s input sighted
    exact sighted.append (signatures_received input [])
  silent := fun history s s' input sighted move => sighted.silent move
  emits := by
    intro history s s' input outputs sighted move
    have answered := sighted.emits move
    rwa [append_assoc, singleton_append] at answered

/-! ## Random values -/

/-- What the hash behind the `n`-th random value is given. -/
def auxBytes (entropy : Digest) (n : Nat) : Bytes := Bytes.of256 entropy ++ leBytes 4 n

def auxValue (P : Primitives) (entropy : Digest) (n : Nat) : Digest :=
  P.tagged "lij/tatara/aux/v1" (auxBytes entropy n)

/-- The values an attempt has drawn: the counter numbers them from one. -/
def drawn (a : Attempt P) : List Digest := (range' 1 a.auxN).map (auxValue P a.me.entropy)

/-- The hash has no collision among what this attempt gave it. -/
def AuxCollisionFree (a : Attempt P) : Prop :=
  ∀ i ≤ a.auxN, ∀ j ≤ a.auxN,
    auxValue P a.me.entropy i = auxValue P a.me.entropy j →
    auxBytes a.me.entropy i = auxBytes a.me.entropy j

theorem leBytes_injOn {i j : Nat} (smallI : i < 2 ^ 32) (smallJ : j < 2 ^ 32)
    (same : leBytes 4 i = leBytes 4 j) : i = j := by
  have bytes : Bytes.ofNat 4 i = Bytes.ofNat 4 j := reverse_injective same
  have first : Bytes.toNat (Bytes.ofNat 4 i) = i := Bytes.toNat_ofNat (by omega)
  rw [← first, bytes, Bytes.toNat_ofNat (by omega)]

theorem drawn_nodup (few : Few me) (drawing : Drawing me least a) (linkable : Linkable P)
    (free : AuxCollisionFree a) : a.drawn.Nodup := by
  have budget := drawing.budget linkable
  unfold Few at few
  refine List.Nodup.map_on ?_ nodup_range'
  intro i inI j inJ same
  obtain ⟨_, _, hi⟩ := mem_range'.mp inI
  obtain ⟨_, _, hj⟩ := mem_range'.mp inJ
  have bytes := free i (by omega) j (by omega) same
  exact leBytes_injOn (by omega) (by omega) (append_cancel_left bytes)

/-- The counter only grows, so what was drawn stays drawn. -/
theorem drawn_prefix (few : Few me) (drawing : Drawing me least a) (linkable : Linkable P)
    (inputs : List (Input P)) : a.drawn <+: ((machine P).after a inputs).drawn := by
  have later : Drawing me a.auxN ((machine P).after a inputs) :=
    Drawing.run few ⟨drawing.toRinged, fun _ => Nat.le_refl _, drawing.budget⟩ inputs
  have grows := later.least linkable
  rw [drawn, drawn, later.entropy, ← drawing.entropy]
  have split : range' 1 a.auxN ++
      range' (1 + a.auxN) (((machine P).after a inputs).auxN - a.auxN) =
      range' 1 ((machine P).after a inputs).auxN := by
    rw [range'_append_1, Nat.add_sub_cancel' grows]
  exact List.IsPrefix.map _ ⟨_, split⟩

theorem proveCoins_ends (coins : List (OutPoint × TxOut × SecretKey)) (a : Attempt P)
    (room : a.auxN + coins.length < 2 ^ 32) :
    Ends (proveCoins coins) a
      (fun _ b => b = { a with auxN := a.auxN + coins.length }) (fun _ => True) := by
  induction coins generalizing a with
  | nil => exact .pure rfl
  | cons coin coins ih =>
    obtain ⟨op, out, sk⟩ := coin
    rw [length_cons] at room
    have next : Word.add32 a.auxN 1 = a.auxN + 1 := Nat.mod_eq_of_lt (by omega)
    refine .get_bind (.bind aux_ends ?_)
    rintro value _ rfl
    refine .lift_bind (fun proof _ => .bind (ih _ ?_) ?_) trivial
    · change Word.add32 a.auxN 1 + coins.length < 2 ^ 32
      omega
    · rintro rest _ rfl
      refine .pure ?_
      simp only [next, length_cons]
      congr 1
      omega

/-- A new attempt has drawn one value for each of its coins. -/
theorem new_drawing {params : Params} {network : Network} {now : Nat} {timeouts : Timeouts}
    (joined : new params network me now timeouts = .ok (a, acts)) : Few me ∧ Drawing me 0 a := by
  obtain ⟨_, rest⟩ := ensure_bind_eq_ok.mp joined
  obtain ⟨_, counted, rest⟩ := bind_eq_ok.mp rest
  obtain ⟨_, rest⟩ := ensure_bind_eq_ok.mp rest
  have atMost : me.coins.length ≤ 4 := (ensure_eq_ok.mp counted).2
  refine ⟨by unfold Few; omega, ?_⟩
  have registered : Ends myRegistration
      (fresh (P := P) params network me now timeouts ((params.classes.map Class.amount).headD 0))
      (fun _ b => b = { fresh params network me now timeouts
        ((params.classes.map Class.amount).headD 0) with auxN := 0 + me.coins.length })
      (fun _ => True) := by
    have short : (fresh (P := P) params network me now timeouts
        ((params.classes.map Class.amount).headD 0)).auxN + me.coins.length < 2 ^ 32 := by
      change 0 + me.coins.length < 2 ^ 32
      omega
    refine .get_bind (.bind (proveCoins_ends me.coins _ short) ?_)
    rintro inputs _ rfl
    exact .lift_bind (fun change _ => .pure rfl) trivial
  unfold Ends at registered
  split at rest
  · rename_i msg b executed
    rw [executed] at registered
    obtain ⟨same, _⟩ := Prod.mk.inj (pure_eq_ok.mp rest)
    subst same
    cases registered
    refine ⟨⟨rfl, rfl, Nat.zero_le _, fun some => absurd some (Nat.lt_irrefl 0), ?_, rfl⟩,
      fun _ => Nat.zero_le _, fun _ => ?_⟩
    · intro image member
      exact absurd member Std.TreeMap.not_mem_emptyc
    · change 0 + me.coins.length + (me.coins.length + 2) ≤ _
      omega
  · cases rest

theorem Drawing.configured (drawing : Drawing me least a) (refused : List OutPoint)
    (isPublic : Bool) (deadline : Nat) :
    Drawing me least (a.configured refused isPublic deadline) := by
  unfold Attempt.configured firstPhaseUntil
  split
  · exact drawing.congr {} rfl (Nat.le_refl _)
  · exact drawing.congr {} rfl (Nat.le_refl _)

theorem Sighted.start {params : Params} {network : Network} {now : Nat} {timeouts : Timeouts}
    (joined : new params network me now timeouts = .ok (a, acts)) (refused : List OutPoint)
    (isPublic : Bool) (deadline : Nat) :
    Sighted (acts.map .emitted) (a.configured refused isPublic deadline) := by
  obtain ⟨⟨d, n, rfl⟩, msg, rfl, kind⟩ := new_spec joined
  have none : signatures ([post msg].map .emitted : History P) = 0 := by
    refine signatures_of_quiet fun act member => ?_
    rw [mem_singleton.mp member, isSignature_post, kind]
    rfl
  have fresh : Sighted ([post msg].map .emitted)
      { fresh (P := P) params network me now timeouts d with auxN := n } :=
    { unmade := fun _ => rfl
      view := nofun
      unsigned := fun _ => none
      once := none ▸ Nat.zero_le 1
      gone := fun _ => rfl }
  unfold Attempt.configured firstPhaseUntil
  split
  · exact fresh.congr rfl (.inl rfl) fun _ => ⟨rfl, rfl, rfl, fun _ _ => rfl⟩
  · exact fresh.congr rfl (.inl rfl) fun _ => ⟨rfl, rfl, rfl, fun _ _ => rfl⟩

/-! ## Whole runs -/

/-- A stopped attempt posts nothing more. -/
theorem signatures_trace_of_stopped (stopped : a.phase = .stopped) (inputs : List (Input P)) :
    signatures ((machine P).trace a inputs) = 0 := by
  induction inputs with
  | nil => rfl
  | cons input inputs ih =>
    have still : (machine P).step a input = ([], a) := on_halted (.inl stopped) input
    rw [Machine.trace_cons, Machine.exchange, still]
    exact (signatures_received input _).trans ih

/-- Nonces are used once: a run posts partial signatures at most once and calls the partial
signing at most once; every posted signature is the result of such a call; the call takes the
nonces of the state and signs the exit messages of the attempt's own build, whose view hash it
had posted; after a stop the nonces are gone and nothing is signed any more; and the random
values drawn are pairwise distinct, the earlier ones a prefix of the later. -/
theorem nonces_used_once {params : Params} {network : Network} {now : Nat} {timeouts : Timeouts}
    {acts : List (Action P)} (joined : new params network me now timeouts = .ok (a, acts))
    (refused : List OutPoint) (isPublic : Bool) (deadline : Nat) (inputs : List (Input P)) :
    let start := a.configured refused isPublic deadline
    let final := (machine P).after start inputs
    signatures (acts.map .emitted ++ (machine P).trace start inputs) ≤ 1 ∧
    (callsOf start inputs).length ≤ 1 ∧
    (∀ before input later, inputs = before ++ input :: later →
      let state := (machine P).after start before
      (∀ act ∈ (state.on input).1, isSignature act = true →
        ∃ call psigs, state.callOn input = some call ∧ call.run = .ok psigs ∧
          act = post (.partialSigs 0 (psigs.map psigHex))) ∧
      ∀ call, state.callOn input = some call → state.myNonces = some call.secs ∧
        ∃ built, state.built = some built ∧ exitMessages P call.keys built = .ok call.msgs ∧
          .emitted (.post (viewText P (state.viewHash built call.msgs))) ∈
            (acts.map .emitted ++ (machine P).trace start before : History P)) ∧
    (∀ before later, inputs = before ++ later →
      ((machine P).after start before).phase = .stopped →
      ((machine P).after start before).myNonces = none ∧
      callsOf ((machine P).after start before) later = [] ∧
      signatures ((machine P).trace ((machine P).after start before) later) = 0) ∧
    (Linkable P → final.AuxCollisionFree → final.drawn.Nodup ∧
      ∀ before later, inputs = before ++ later →
        ((machine P).after start before).drawn <+: final.drawn) := by
  intro start final
  obtain ⟨few, joining⟩ := new_drawing joined
  have drawing : ∀ before, Drawing me 0 ((machine P).after start before) :=
    Drawing.run few (joining.configured refused isPublic deadline)
  have sighted : ∀ before, Sighted (acts.map .emitted ++ (machine P).trace start before)
      ((machine P).after start before) :=
    (on_follows P).history_invariant (sighted_keeps P)
      (Sighted.start joined refused isPublic deadline)
  refine ⟨(sighted inputs).once, length_callsOf_le start inputs, ?_, ?_, ?_⟩
  · intro before input later split state
    refine ⟨(on_signs few (drawing before) input).2, fun call made => ?_⟩
    obtain ⟨inView, taken, ownKeys, ownMsgs⟩ := callOn_uses made
    obtain ⟨built, keys, msgs, ownBuilt, viewKeys, viewMsgs, messages, posted⟩ :=
      (sighted before).view inView
    cases Option.some.inj (ownKeys.symm.trans viewKeys)
    cases Option.some.inj (ownMsgs.symm.trans viewMsgs)
    exact ⟨taken, built, ownBuilt, messages, posted⟩
  · intro before later split stopped
    have none := (sighted before).gone (by rw [stopped]; decide)
    have gone : Gone ((machine P).after start before) := ⟨by rw [stopped]; decide, none⟩
    exact ⟨none, callsOf_of_gone gone later, signatures_trace_of_stopped stopped later⟩
  · intro linkable free
    refine ⟨drawn_nodup few (drawing inputs) linkable free, fun before later split => ?_⟩
    change _ <+: ((machine P).after start inputs).drawn
    rw [split, Machine.after_append]
    exact drawn_prefix few (drawing before) linkable later

/-! ## A run over linkable ring signatures -/

/-- The key image of a ring key, for keys that are their own secrets. -/
def imageOf (key : Point) : String := Hex.encode (Bytes.of256 (BitVec.ofNat 256 key.toNat))

/-- The instance whose ring signatures verify under their members' key images only. -/
def linked : Primitives :=
  { Instance.primitives with
    ringVerify := fun ring _ sig =>
      if sig.keyImage ∈ ring.map imageOf then .ok sig.keyImage else .error "bad ring signature" }

theorem linkable_linked : Linkable linked := by
  intro ring images nodup verified
  have inRing : images ⊆ ring.map imageOf := by
    intro image member
    obtain ⟨m, sig, ok⟩ := verified image member
    change (if sig.keyImage ∈ ring.map imageOf then .ok sig.keyImage else .error _ :
      Except String String) = .ok image at ok
    split at ok
    · cases ok
      assumption
    · cases ok
  have short := (nodup.subperm inRing).length_le
  rwa [length_map] at short

/-- The same event for the linkable instance. -/
def relink : Input Instance.primitives → Input linked
  | .msg sender json => .msg sender json
  | .coinsChecked bad unanswered => .coinsChecked bad unanswered
  | .recordSaved => .recordSaved
  | .payoutGiven spk => .payoutGiven spk
  | .channelSaved => .channelSaved
  | .channelFailed why => .channelFailed why
  | .tick now => .tick now
  | .leave => .leave

def linkedJoined : Except String (Attempt linked × List (Action linked)) :=
  new Instance.params .regtest (Instance.member 1) 0 ⟨60⟩

def linkedStart : Attempt linked :=
  match linkedJoined with
  | .ok (a, _) => a
  | .error _ => fresh Instance.params .regtest (Instance.member 1) 0 ⟨60⟩ 0

def linkedFinal : Attempt linked :=
  (machine linked).after (linkedStart.configured [] false 0) (completeRun.map relink)

theorem linkedJoined_eq : ∃ acts, linkedJoined = .ok (linkedStart, acts) := by
  have ok : linkedJoined.isOk = true := by decide +kernel
  unfold linkedStart
  cases result : linkedJoined with
  | ok pair => exact ⟨pair.2, rfl⟩
  | error e =>
    rw [result] at ok
    cases ok

/-- What the complete attempt ends with, read off one evaluation. -/
theorem linkedFinal_ends :
    (callsOf (linkedStart.configured [] false 0) (completeRun.map relink)).length = 1 ∧
      linkedFinal.phase = .fundingSigned ∧ linkedFinal.drawn.length = 4 ∧
      linkedFinal.auxN = 4 ∧ linkedFinal.me.entropy = 0 := by
  decide +kernel

/-- A complete attempt signs once and draws four values, all different. -/
theorem nonces_used_once_linked :
    (callsOf (linkedStart.configured [] false 0) (completeRun.map relink)).length = 1 ∧
      linkedFinal.phase = .fundingSigned ∧ linkedFinal.drawn.length = 4 ∧
      linkedFinal.drawn.Nodup := by
  obtain ⟨acts, joined⟩ := linkedJoined_eq
  have used := nonces_used_once joined [] false 0 (completeRun.map relink)
  obtain ⟨calls, phase, drawn, count, entropy⟩ := linkedFinal_ends
  refine ⟨calls, phase, drawn, ?_⟩
  refine (used.2.2.2.2 linkable_linked ?_).1
  change linkedFinal.AuxCollisionFree
  rw [AuxCollisionFree, count, entropy]
  decide +kernel

end Lij.Tatara.Attempt
