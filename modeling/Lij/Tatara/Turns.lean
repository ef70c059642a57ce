import Lij.Tatara.PhoneSteps

/-!
# Runs of a phone

A run is the list of the page's turns, each with the phone before and after it. A
turn feeds the machine at most one input, which `machineInput` reads off the phone
and the turn; `turn_ends` reduces a fact about every turn to what happens around
that input.
-/

namespace Lij.Tatara.Phone

open Bitcoin Joinstr Checked Fallible

variable {P : Primitives}

/-- What the page does: a call, or the answer that the record is saved. -/
inductive Turn where
  | call (c : Call)
  | recordSaved

def turn (W : Radio P) (now : Nat) : Turn → Fallible (Phone P) Out
  | .call c => call W now c
  | .recordSaved => onRecordSaved W now

/-- One turn of a run, with the phone it met, what the page was told and the phone it left. -/
structure Played (P : Primitives) where
  turn : Turn
  now : Nat
  before : Phone P
  result : Except String Out
  after : Phone P

/-- The turn played on a phone. A turn that fails keeps what it had assigned. -/
def play (W : Radio P) (p : Phone P) (t : Turn) (now : Nat) : Played P where
  turn := t
  now := now
  before := p
  result := ((turn W now t).exec p).1
  after := ((turn W now t).exec p).2

/-- The runs from a phone, the last turn at the end. -/
inductive Plays (W : Radio P) (start : Phone P) : List (Played P) → Phone P → Prop
  | nil : Plays W start [] start
  | snoc {history : List (Played P)} {p : Phone P} (before : Plays W start history p) (t : Turn)
      (now : Nat) : Plays W start (history ++ [play W p t now]) (play W p t now).after

/-- The turns played one after the other. -/
def playAll (W : Radio P) : Phone P → List (Turn × Nat) → List (Played P) × Phone P
  | p, [] => ([], p)
  | p, x :: xs =>
    let first := play W p x.1 x.2
    let rest := playAll W first.after xs
    (first :: rest.1, rest.2)

/-- The complete funding the page was given in this turn. -/
def Played.complete (x : Played P) : Option Complete := x.result.toOption.bind Out.complete

variable (W : Radio P)

/-- What an event opens to; none for an event that is refused or was seen before. -/
def opened (p : Phone P) (e : Wire.Event) : Option (SessionKey × P.Text) :=
  match ((Wire.openEvent W.toNostr p.boundSeen.poolSk p.boundSeen.poolX e).exec
    p.boundSeen.seen).1 with
  | .ok (some message) => some message
  | _ => none

/-- The event a turn brings from the relay. -/
def Turn.event : Turn → Option Wire.Event
  | .call (.relayEvent text) => if text.size ≤ 64 * 1024 then text.event else none
  | _ => none

/-- The phone with the ids of the events read, after a turn's event. -/
def received (p : Phone P) (t : Turn) : Phone P :=
  match t.event with
  | some e => { p.boundSeen with
      seen := ((Wire.openEvent W.toNostr p.boundSeen.poolSk p.boundSeen.poolX e).exec
        p.boundSeen.seen).2 }
  | none => p

/-- The answer a turn brings for a coin. -/
def Turn.answer : Turn → Option (OutPoint × Option Bool)
  | .call (.coinResult txid vout ok) =>
    (parseTxid txid).toOption.map fun txid => (⟨txid, vout⟩, ok)
  | _ => none

/-- The answer is written down. -/
def noted (p : Phone P) (op : OutPoint) (ok : Option Bool) : Phone P :=
  { p with answers := p.answers.insert op ok }

/-- Is this coin one of those asked for? -/
def isAsked (p : Phone P) (op : OutPoint) : Bool := p.asked.any fun coin => coin.1 == op

/-- What the machine hears once every asked coin is answered. -/
def allAnswered (p : Phone P) : Option (Input P) :=
  if p.answers.size < p.asked.length then none
  else some (.coinsChecked (p.answered (some false)) (p.answered none))

/-- The message of an event for the machine: the handshake of a public pool is not. -/
def forMachine (p : Phone P) (message : SessionKey × P.Text) : Option (Input P) :=
  if p.isPublic ∧ isJoinPool message.2 then none else some (.msg message.1 message.2)

/-- The input a turn feeds the machine. -/
def machineInput (now : Nat) (p : Phone P) (t : Turn) : Option (Input P) :=
  match t with
  | .call (.relayEvent _) => (t.event.bind (p.opened W)).bind p.forMachine
  | .call (.coinResult ..) => t.answer.bind fun a =>
    if p.isAsked a.1 then (p.noted a.1 a.2).allAnswered else none
  | .call (.payoutGiven spk) => some (.payoutGiven spk)
  | .call .channelSaved => some .channelSaved
  | .call (.channelFailed why) => some (.channelFailed why)
  | .call .leave => if p.signed ∨ p.done then none else some .leave
  | .call .tick => some (.tick now)
  | .recordSaved => some .recordSaved

/-- An input that is neither a message nor an answer about the coins or the record. -/
def Aloof : Input P → Prop
  | .msg .. => False
  | .coinsChecked .. => False
  | .recordSaved => False
  | _ => True

variable {W} {p : Phone P} {t : Turn} {now : Nat} {post : Out → Phone P → Prop}
  {failed : Phone P → Prop}

/-- What is shown of every turn: what it does without the machine, and what the machine's answer
does to the phone the turn prepared. -/
structure TurnCases (W : Radio P) (p : Phone P) (t : Turn) (now : Nat)
    (post : Out → Phone P → Prop) (failed : Phone P → Prop) : Prop where
  idle : machineInput W now p t = none → (∀ a, t.answer = some a → p.isAsked a.1 = false) →
    ∀ n joiners out, out.complete = none → post out { p.received W t with n, joiners }
  gaveUp : machineInput W now p t = none → t.answer = none →
    ∀ n joiners, failed { p.received W t with n, joiners }
  heard : ∀ sender json, machineInput W now p t = some (.msg sender json) → t.answer = none →
    Ends (hear W sender json now) ((p.received W t).collectWitnesses W sender json) post failed
  noted : ∀ op ok out, machineInput W now p t = none → t.answer = some (op, ok) →
    out.complete = none → post out (p.noted op ok)
  checked : ∀ op ok bad unanswered, t.answer = some (op, ok) →
    (p.noted op ok).asked.length ≤ (p.noted op ok).answers.size →
    machineInput W now p t = some (.coinsChecked bad unanswered) →
    bad = (p.noted op ok).answered (some false) → unanswered = (p.noted op ok).answered none →
    Ends (onMachine W (.coinsChecked bad unanswered) now) { p with asked := [], answers := ∅ } post
      failed
  saved : t = .recordSaved →
    Ends (onMachine W .recordSaved now) { p with recordSaved := true } post failed
  plain : ∀ input, machineInput W now p t = some input → t.answer = none → Aloof input →
    Ends (onMachine W input now) p post failed

theorem isJoinPool_iff {json : P.Text} :
    isJoinPool json = true ↔ P.parseStrict json = .ok .joinPool := by
  rw [isJoinPool]
  split
  · rename_i isJoin
    exact ⟨fun _ => isJoin, fun _ => rfl⟩
  · rename_i other
    exact ⟨fun impossible => (by cases impossible), fun isJoin => absurd isJoin other⟩

/-- A join request brings no witness. -/
theorem collectWitnesses_joinPool {sender : SessionKey} {json : P.Text}
    (isJoin : isJoinPool json = true) : p.collectWitnesses W sender json = p := by
  rw [collectWitnesses, isJoinPool_iff.mp isJoin]

theorem seatJoiner_eq (p : Phone P) (sender : SessionKey) : ∃ joiners,
    p.seatJoiner sender = { p with joiners } := by
  rw [seatJoiner]
  split
  · exact ⟨_, rfl⟩
  · exact ⟨p.joiners, rfl⟩

theorem answerJoin_cases {sender : SessionKey}
    (idle : ∀ n joiners out, out.complete = none → post out { p with n, joiners })
    (gaveUp : ∀ n joiners, failed { p with n, joiners }) :
    Ends (answerJoin W sender now) p post failed := by
  obtain ⟨joiners, isSeated⟩ := seatJoiner_eq p sender
  refine .modify_bind ?_
  rw [isSeated]
  refine next_spec.bind fun iv p' isNext => .get_bind ?_
  subst isNext
  exact .lift_bind (fun e _ => .pure (idle _ _ _ rfl)) (gaveUp _ _)

theorem readOpened_cases {sender : SessionKey} {json : P.Text}
    (idle : p.forMachine (sender, json) = none →
      ∀ n joiners out, out.complete = none → post out { p with n, joiners })
    (gaveUp : p.forMachine (sender, json) = none → ∀ n joiners, failed { p with n, joiners })
    (heard : p.forMachine (sender, json) = some (.msg sender json) →
      Ends (hear W sender json now) (p.collectWitnesses W sender json) post failed) :
    Ends (readOpened W sender json now) p post failed := by
  have isPublic : (p.collectWitnesses W sender json).isPublic = p.isPublic :=
    (aside_collectWitnesses p sender json).isPublic
  refine .modify_bind (.get_bind ?_)
  refine .ite (fun handshake => ?_) fun other => ?_
  · rw [isPublic] at handshake
    have notHeard : p.forMachine (sender, json) = none := if_pos handshake
    rw [collectWitnesses_joinPool handshake.2]
    refine .ite (fun _ => answerJoin_cases (idle notHeard) (gaveUp notHeard)) fun _ => ?_
    exact .pure (idle notHeard p.n p.joiners _ rfl)
  · rw [isPublic] at other
    exact heard (if_neg other)

theorem relayEvent_cases {text : RelayText}
    (cases : TurnCases W p (.call (.relayEvent text)) now post failed) :
    Ends (relayEvent W text now) p post failed := by
  have isEvent : (Turn.call (.relayEvent text)).event =
      if text.size ≤ 64 * 1024 then text.event else none := rfl
  have isInput : machineInput W now p (.call (.relayEvent text)) =
      ((Turn.call (.relayEvent text)).event.bind (p.opened W)).bind p.forMachine := rfl
  -- Without an event the turn leaves the phone as it was.
  have without : (Turn.call (.relayEvent text)).event = none →
      machineInput W now p (.call (.relayEvent text)) = none ∧
        p.received W (.call (.relayEvent text)) = p := by
    intro none
    rw [isInput, received, none]
    exact ⟨rfl, rfl⟩
  refine .require_cases (fun small => ?_) fun large => ?_
  · rw [if_pos small] at isEvent
    cases found : text.event with
    | none =>
      obtain ⟨noInput, same⟩ := without (isEvent.trans found)
      have quiet := cases.idle noInput (fun _ impossible => by cases impossible) p.n p.joiners
      rw [same] at quiet
      exact .get_bind (.pure (quiet _ rfl))
    | some e =>
      rw [found] at isEvent
      rw [isEvent] at isInput
      have isReceived : p.received W (.call (.relayEvent text)) = { p.boundSeen with
          seen := ((Wire.openEvent W.toNostr p.boundSeen.poolSk p.boundSeen.poolX e).exec
            p.boundSeen.seen).2 } := by rw [received, isEvent]
      have isPublic : (p.received W (.call (.relayEvent text))).isPublic = p.isPublic := by
        rw [isReceived, boundSeen]
        split <;> rfl
      have sameInput : (p.received W (.call (.relayEvent text))).forMachine = p.forMachine := by
        funext message
        rw [forMachine, forMachine, isPublic]
      refine .modify_bind (.get_bind (.modify_bind ?_))
      change Ends _ { p.boundSeen with
        seen := ((Wire.openEvent W.toNostr p.boundSeen.poolSk p.boundSeen.poolX e).exec
          p.boundSeen.seen).2 } post failed
      rw [← isReceived]
      split
      · rename_i sender json opens
        have isOpened : p.opened W e = some (sender, json) := by rw [opened, opens]
        have reads : machineInput W now p (.call (.relayEvent text)) =
            (p.received W (.call (.relayEvent text))).forMachine (sender, json) := by
          rw [isInput, Option.bind_some, isOpened, Option.bind_some, sameInput]
        refine readOpened_cases (fun none => ?_) (fun none => ?_) fun some => ?_
        · exact cases.idle (reads.trans none) (fun _ impossible => by cases impossible)
        · exact cases.gaveUp (reads.trans none) rfl
        · exact cases.heard sender json (reads.trans some) rfl
      · rename_i unopened
        have isOpened : p.opened W e = none := by
          rw [opened]
          split
          · rename_i message opens
            exact absurd opens (unopened message.1 message.2)
          · rfl
        have noInput : machineInput W now p (.call (.relayEvent text)) = none := by
          rw [isInput, Option.bind_some, isOpened, Option.bind_none]
        exact .get_bind (.pure (cases.idle noInput (fun _ impossible => by cases impossible) _ _ _
          rfl))
  · obtain ⟨noInput, same⟩ := without (isEvent.trans (if_neg large))
    have gaveUp := cases.gaveUp noInput rfl p.n p.joiners
    rw [same] at gaveUp
    exact gaveUp

theorem coinResult_cases {txid : String} {vout : Nat} {ok : Option Bool}
    (cases : TurnCases W p (.call (.coinResult txid vout ok)) now post failed) :
    Ends (coinResult W txid vout ok now) p post failed := by
  have isAnswer : (Turn.call (.coinResult txid vout ok)).answer =
      (parseTxid txid).toOption.map fun txid => (⟨txid, vout⟩, ok) := rfl
  have isInput : machineInput W now p (.call (.coinResult txid vout ok)) =
      (Turn.call (.coinResult txid vout ok)).answer.bind fun a =>
        if p.isAsked a.1 then (p.noted a.1 a.2).allAnswered else none := rfl
  rw [coinResult]
  cases parsed : parseTxid txid with
  | error message =>
    rw [parsed] at isAnswer
    rw [isAnswer] at isInput
    exact cases.gaveUp isInput isAnswer p.n p.joiners
  | ok id =>
    rw [parsed] at isAnswer
    rw [isAnswer] at isInput
    refine .get_bind (.ite (fun unasked => ?_) fun asked => ?_)
    · have notAsked : p.isAsked ⟨id, vout⟩ = false := Bool.eq_false_iff.mpr unasked
      have noInput : machineInput W now p (.call (.coinResult txid vout ok)) = none :=
        isInput.trans (if_neg (Bool.eq_false_iff.mp notAsked))
      refine .pure (cases.idle noInput (fun a isA => ?_) p.n p.joiners _ rfl)
      cases isAnswer.symm.trans isA
      exact notAsked
    · have isAsked : p.isAsked ⟨id, vout⟩ = true := not_not.mp asked
      have reads : machineInput W now p (.call (.coinResult txid vout ok)) =
          (p.noted ⟨id, vout⟩ ok).allAnswered := isInput.trans (if_pos isAsked)
      refine .modify_bind (.get_bind (.ite (fun open_ => ?_) fun full => ?_))
      · exact .pure (cases.noted ⟨id, vout⟩ ok _ (reads.trans (if_pos open_)) isAnswer rfl)
      · exact .modify_bind (cases.checked ⟨id, vout⟩ ok _ _ isAnswer (Nat.not_lt.mp full)
          (reads.trans (if_neg full)) rfl rfl)

/-- What is shown of the machine's answers holds of the turn. -/
theorem turn_ends (cases : TurnCases W p t now post failed) :
    Ends (turn W now t) p post failed := by
  cases t with
  | recordSaved => exact .modify_bind (cases.saved rfl)
  | call c =>
    cases c with
    | relayEvent text => exact relayEvent_cases cases
    | coinResult txid vout ok => exact coinResult_cases cases
    | payoutGiven spk | channelSaved | channelFailed why | tick =>
      exact cases.plain _ rfl rfl trivial
    | leave =>
      refine .get_bind (.ite (fun ended => ?_) fun going => ?_)
      · exact .pure (cases.idle (if_pos ended) (fun _ impossible => by cases impossible) p.n
          p.joiners _ rfl)
      · exact cases.plain _ (if_neg going) rfl trivial

/-- The machine hears a message, and then the funding is complete or is not. -/
theorem hear_cases {sender : SessionKey} {json : P.Text} {mid : Out → Phone P → Prop}
    (fed : Ends (onMachine W (.msg sender json) now) p mid failed)
    (quiet : ∀ out p', mid out p' →
      p'.completeGiven = true ∨ p'.signed = false ∨ p'.signedFunding = none → post out p')
    (completes : ∀ out p' tx, mid out p' → p'.completeGiven = false → p'.signed = true →
      p'.signedFunding = some tx → post { out with complete := some ⟨tx, p'.exits⟩ }
        { p' with completeGiven := true, done := true }) :
    Ends (hear W sender json now) p post failed := by
  refine fed.bind fun out p' holds => ?_
  have ends : Ends tryComplete p' (fun c p'' =>
      (c = none ∧ p'' = p' ∧
        (p'.completeGiven = true ∨ p'.signed = false ∨ p'.signedFunding = none)) ∨
      ∃ tx, c = some ⟨tx, p'.exits⟩ ∧ p'' = { p' with completeGiven := true, done := true } ∧
        p'.completeGiven = false ∧ p'.signed = true ∧ p'.signedFunding = some tx) failed := by
    refine .get_bind (.ite (fun early => ?_) fun ready => ?_)
    · refine .pure (.inl ⟨rfl, rfl, ?_⟩)
      exact early.elim .inl fun unsigned => .inr (.inl unsigned)
    · obtain ⟨notGiven, notUnsigned⟩ := not_or.mp ready
      cases found : p'.signedFunding with
      | none => exact .pure (.inl ⟨rfl, rfl, .inr (.inr rfl)⟩)
      | some tx =>
        exact .modify_bind (.pure (.inr ⟨tx, rfl, rfl, Bool.eq_false_iff.mpr notGiven,
          Bool.not_eq_false _ |>.mp notUnsigned, rfl⟩))
  refine ends.bind fun c p'' cases_ => ?_
  obtain ⟨rfl, rfl, why⟩ | ⟨tx, rfl, rfl, notGiven, isSigned, isFunding⟩ := cases_
  · exact .pure (quiet out p'' holds why)
  · exact .pure (completes out p' tx holds notGiven isSigned isFunding)

theorem received_eq (p : Phone P) (t : Turn) : ∃ seen, p.received W t = { p with seen } := by
  rw [received]
  split
  · rw [boundSeen]
    split
    · exact ⟨_, rfl⟩
    · exact ⟨_, rfl⟩
  · exact ⟨p.seen, rfl⟩

theorem machine_collectWitnesses (p : Phone P) (sender : SessionKey) (json : P.Text) :
    (p.collectWitnesses W sender json).machine = p.machine :=
  (aside_collectWitnesses p sender json).machine

/-- The machine after a turn has heard the turn's input and nothing else; the keys stay and the
events seen are those read before with the turn's own. -/
structure Framed (W : Radio P) (p : Phone P) (t : Turn) (now : Nat) (p' : Phone P) : Prop where
  machine : p'.machine =
    ((machineInput W now p t).map fun input => (p.machine.on input).2).getD p.machine
  seen : p'.seen = (p.received W t).seen
  poolSk : p'.poolSk = p.poolSk
  poolX : p'.poolX = p.poolX

/-- A turn that brings no event leaves the events seen. -/
theorem received_of_answer (p : Phone P) {a : OutPoint × Option Bool}
    (isAnswer : t.answer = some a) :
    p.received W t = p := by
  rw [received]
  cases t with
  | recordSaved => rfl
  | call c =>
    cases c with
    | relayEvent => cases isAnswer
    | _ => rfl

theorem received_of_aloof (p : Phone P) {input : Input P}
    (isInput : machineInput W now p t = some input) (aloof : Aloof input) : p.received W t = p := by
  rw [received]
  cases t with
  | recordSaved => rfl
  | call c =>
    cases c with
    | relayEvent text =>
      obtain ⟨message, _, forMachine⟩ := Option.bind_eq_some_iff.mp isInput
      rw [Phone.forMachine] at forMachine
      split at forMachine
      · cases forMachine
      · cases forMachine
        exact False.elim aloof
    | _ => rfl

theorem turn_framed (p : Phone P) (t : Turn) (now : Nat) :
    Ends (turn W now t) p (fun _ => Framed W p t now) (Framed W p t now) := by
  obtain ⟨seen, isReceived⟩ := received_eq (W := W) p t
  have fed : ∀ {q : Phone P} {input : Input P}, q.machine = p.machine →
      machineInput W now p t = some input → q.seen = (p.received W t).seen →
      q.poolSk = p.poolSk → q.poolX = p.poolX →
      Ends (onMachine W input now) q (fun _ => Framed W p t now) (Framed W p t now) := by
    intro q input machine isInput sameSeen poolSk poolX
    have each : ∀ p', Acted (q.machine.on input).1 { q with machine := (q.machine.on input).2 } p' →
        Framed W p t now p' := by
      intro p' acted
      refine ⟨?_, acted.seen.trans sameSeen, acted.poolSk.trans poolSk, acted.poolX.trans poolX⟩
      rw [acted.machine, isInput, ← machine]
      rfl
    exact onMachine_spec.mono (fun _ p' both => each p' both.1) each
  have still : ∀ {p' : Phone P}, machineInput W now p t = none → p'.machine = p.machine →
      p'.seen = (p.received W t).seen → p'.poolSk = p.poolSk → p'.poolX = p.poolX →
      Framed W p t now p' := by
    intro p' none machine sameSeen poolSk poolX
    refine ⟨?_, sameSeen, poolSk, poolX⟩
    rw [none, machine]
    rfl
  refine turn_ends
    { idle := fun none _ n joiners out _ => ?_
      gaveUp := fun none _ n joiners => ?_
      heard := fun sender json isInput _ => ?_
      noted := fun op ok out none isAnswer _ => ?_
      checked := fun op ok bad unanswered isAnswer _ isInput _ _ => ?_
      saved := fun isSaved => ?_
      plain := fun input isInput _ aloof => ?_ }
  · rw [isReceived]
    exact still none rfl (by rw [isReceived]) rfl rfl
  · rw [isReceived]
    exact still none rfl (by rw [isReceived]) rfl rfl
  · obtain ⟨_, collected⟩ := collectWitnesses_eq (W := W) (p.received W t) sender json
    rw [collected]
    refine hear_cases (fed ?_ isInput rfl ?_ ?_) (fun _ _ holds _ => holds)
      fun _ _ _ holds _ _ _ => ⟨holds.machine, holds.seen, holds.poolSk, holds.poolX⟩
    all_goals rw [isReceived]
  · exact still none rfl (by rw [received_of_answer p isAnswer]; rfl) rfl rfl
  · exact fed rfl isInput (by rw [received_of_answer p isAnswer]) rfl rfl
  · subst isSaved
    exact fed rfl rfl rfl rfl rfl
  · exact fed rfl isInput (by rw [received_of_aloof p isInput aloof]) rfl rfl

/-! ## Runs -/

/-- A turn's contract, of its result and the phone it leaves. -/
theorem play_ends {Q : Except String Out → Phone P → Prop}
    (ends : Ends (turn W now t) p (fun out => Q (.ok out)) fun p' => ∀ e, Q (.error e) p') :
    Q (play W p t now).result (play W p t now).after := by
  rw [play]
  rw [Ends] at ends
  split at ends
  · rename_i out p' executed
    rw [executed]
    exact ends
  · rename_i e p' executed
    rw [executed]
    exact ends e

theorem framed_play (p : Phone P) (t : Turn) (now : Nat) :
    Framed W p t now (play W p t now).after :=
  play_ends (Q := fun _ p' => Framed W p t now p')
    ((turn_framed p t now).mono (fun _ _ holds => holds) fun _ holds _ => holds)

/-- What every turn keeps holds of every run. -/
theorem Plays.invariant {start : Phone P} {history : List (Played P)}
    {I : List (Played P) → Phone P → Prop} (plays : Plays W start history p) (begins : I [] start)
    (each : ∀ history p t now, I history p →
      I (history ++ [play W p t now]) (play W p t now).after) : I history p := by
  induction plays with
  | nil => exact begins
  | snoc before t now ih => exact each _ _ t now ih

theorem plays_append {start : Phone P} {history : List (Played P)} {turns : List (Turn × Nat)}
    (plays : Plays W start history p) :
    Plays W start (history ++ (playAll W p turns).1) (playAll W p turns).2 := by
  induction turns generalizing history p with
  | nil =>
    rw [playAll, List.append_nil]
    exact plays
  | cons x turns ih =>
    have rest := ih (plays.snoc x.1 x.2)
    rw [List.append_assoc, List.singleton_append] at rest
    exact rest

theorem plays_playAll (p : Phone P) (turns : List (Turn × Nat)) :
    Plays W p (playAll W p turns).1 (playAll W p turns).2 :=
  plays_append .nil

end Lij.Tatara.Phone
