import Lij.Tatara.PhoneInstance
import Lij.Tatara.Turns

/-!
# The re-check before signing is a fresh one

The page answers for coins, not for asks. What makes an answer belong to an ask is
that each ask replaces the list of the coins asked for and forgets the answers, and
that the list is cleared before the machine hears the verdict. The machine takes a
verdict for the re-check only in the phase it enters with the record, so the coins
of that verdict are the ones asked for with the record.
-/

namespace Lij.Tatara

open Bitcoin Joinstr Checked Fallible Reactive List

variable {P : Primitives}

namespace Attempt

variable {input : Input P} {a b : Attempt P} {acts : List (Action P)}

/-- The re-check is passed only by a verdict without a fault, in the funding phase. -/
theorem Silent.rechecks (move : Silent input a b) (passed : b.recheckOk = true) :
    a.recheckOk = true ∨ input = .coinsChecked [] [] ∧ a.phase = .funding := by
  cases move with
  | rechecked answer phase => exact .inr ⟨answer, phase⟩
  | _ => exact .inl passed

theorem Emits.recheckOk (move : Emits input a acts b) : b.recheckOk = a.recheckOk := by
  cases move <;> rfl

theorem on_rechecks (passed : (a.on input).2.recheckOk = true) :
    a.recheckOk = true ∨ input = .coinsChecked [] [] ∧ a.phase = .funding := by
  obtain ⟨middle, silent, emits⟩ := on_follows P a input
  have before : middle.recheckOk = true := (Emits.recheckOk emits).symm.trans passed
  clear emits
  induction silent with
  | refl => exact .inl before
  | tail earlier move ih =>
    obtain was | ⟨answer, phase⟩ := move.rechecks before
    · exact ih was
    · exact .inr ⟨answer, phase_eq_of_silent earlier ▸ phase⟩

/-- Coins are asked for when registration closes and with the record. -/
theorem Emits.asks {coins : List (OutPoint × TxOut)} (move : Emits input a acts b)
    (member : .checkCoins coins ∈ acts) : a.phase = .inputs ∨ a.phase = .signing := by
  cases move with
  | nothing | clockStarted => cases member
  | stopped => simp [stopActions, post] at member
  | coinsAsked _ phase | channelAsked phase => exact .inl phase
  | payoutPosted | signed => cases mem_singleton.mp member
  | viewPosted checked secs pubs phase full passed =>
    have spec := checkedBuild_spec passed
    obtain posts | funds := mem_append.mp member
    · obtain view | nonces := mem_pair.mp posts
      · cases view
      · cases nonces
    · by_cases channel : a.params.payoutType = .p2wsh
      · obtain ⟨txid, vout, isFund⟩ := spec.channel channel
        rw [isFund] at funds
        cases mem_singleton.mp funds
      · rw [spec.onChain channel] at funds
        cases funds
  | recordGiven _ _ _ _ _ _ _ _ phase => exact .inr phase
  | fundingPosted => simp [post] at member

theorem on_asks {coins : List (OutPoint × TxOut)} (member : .checkCoins coins ∈ (a.on input).1) :
    a.phase ≠ .funding := by
  obtain ⟨middle, silent, emits⟩ := on_follows P a input
  have early := Emits.asks emits member
  rw [phase_eq_of_silent silent] at early
  obtain phase | phase := early
  · rw [phase]
    decide
  · rw [phase]
    decide

end Attempt

namespace Phone

variable {W : Radio P} {p p' q : Phone P} {t : Turn} {now : Nat} {input : Input P}

/-! ## Runs seen by their asks -/

/-- The turn gave the machine the verdict of a coin check. -/
def Played.Feeds (W : Radio P) (x : Played P) : Prop :=
  ∃ bad unanswered, machineInput W x.now x.before x.turn = some (.coinsChecked bad unanswered)

/-- The machine answered the turn with an ask for coins. -/
def Played.Asks (W : Radio P) (x : Played P) : Prop :=
  ∃ input coins, machineInput W x.now x.before x.turn = some input ∧
    .checkCoins coins ∈ (x.before.machine.on input).1

/-- The page was given the record to save. -/
def Played.GivesRecord (x : Played P) : Prop :=
  ∃ out, x.result = .ok out ∧ out.save.isSome = true

/-- The last answer the page gave for a coin in these turns. -/
def lastAnswer (plays : List (Played P)) (op : OutPoint) : Option (Option Bool) :=
  plays.foldl (fun last x => x.turn.answer.elim last fun a => if a.1 = op then some a.2 else last)
    none

/-- This phone's coins as the machine asks for them. -/
def ownCoins (p : Phone P) : List (OutPoint × TxOut) :=
  p.machine.me.coins.map fun coin => (coin.1, coin.2.1)

theorem lastAnswer_snoc (plays : List (Played P)) (x : Played P) (op : OutPoint) :
    lastAnswer (plays ++ [x]) op = x.turn.answer.elim (lastAnswer plays op)
      fun a => if a.1 = op then some a.2 else lastAnswer plays op := by
  rw [lastAnswer, foldl_append]
  rfl

theorem isAsked_of_mem {coin : OutPoint × TxOut} (member : coin ∈ p.asked) :
    p.isAsked coin.1 = true :=
  any_eq_true.mpr ⟨coin, member, beq_self_eq_true _⟩

/-- A verdict comes from the answer that completed the list. -/
theorem answer_of_coinsChecked {bad unanswered : List OutPoint}
    (isInput : machineInput W now p t = some (.coinsChecked bad unanswered)) : ∃ op ok,
      t.answer = some (op, ok) ∧ p.isAsked op = true ∧
      bad = (p.noted op ok).answered (some false) ∧ unanswered = (p.noted op ok).answered none := by
  cases t with
  | recordSaved => cases isInput
  | call c =>
    cases c with
    | relayEvent text =>
      obtain ⟨message, _, forMachine⟩ := Option.bind_eq_some_iff.mp isInput
      rw [Phone.forMachine] at forMachine
      split at forMachine <;> cases forMachine
    | coinResult txid vout ok =>
      obtain ⟨answer, isAnswer, rest⟩ := Option.bind_eq_some_iff.mp isInput
      split at rest
      · rename_i asked
        rw [allAnswered] at rest
        split at rest
        · cases rest
        · cases rest
          exact ⟨answer.1, answer.2, isAnswer, asked, rfl, rfl⟩
      · cases rest
    | leave =>
      rw [machineInput] at isInput
      split at isInput <;> cases isInput
    | _ => cases isInput

/-! ## One input of the machine -/

/-- What an answer of the machine does to the coins asked for. -/
inductive AskCase (acts : List (Action P)) (q : Phone P) (saves : Bool) (p' : Phone P) : Prop
  | kept (asked : p'.asked = q.asked) (answers : p'.answers = q.answers)
      (phase : p'.machine.phase = .funding → q.machine.phase = .funding)
  | setup (coins : List (OutPoint × TxOut)) (asks : .checkCoins coins ∈ acts)
      (phase : p'.machine.phase ≠ .funding)
  | record (gives : saves = true) (coins : List (OutPoint × TxOut))
      (asks : .checkCoins coins ∈ acts) (asked : p'.asked = p'.ownCoins) (answers : p'.answers = ∅)

theorem AskCase.congr {acts : List (Action P)} {saves : Bool} {p'' : Phone P}
    (asks : AskCase acts q saves p') (machine : p''.machine = p'.machine)
    (asked : p''.asked = p'.asked) (answers : p''.answers = p'.answers) :
    AskCase acts q saves p'' := by
  cases asks with
  | kept sameAsked sameAnswers phase =>
    exact .kept (asked.trans sameAsked) (answers.trans sameAnswers) (machine ▸ phase)
  | setup coins member phase => exact .setup coins member (machine ▸ phase)
  | record saved coins member isOwn empty =>
    refine .record saved coins member ?_ (answers.trans empty)
    rw [asked, isOwn, ownCoins, ownCoins, machine]

/-- The record is given out with the ask for this phone's own coins. -/
theorem act_record {rec : Record} {coins : List (OutPoint × TxOut)} {failed : Phone P → Prop} :
    Ends (act W [.saveRecord rec, .checkCoins coins] now) q
      (fun out p' => out.save.isSome = true ∧ p'.machine = q.machine ∧ p'.asked = coins ∧
        p'.answers = ∅) failed :=
  ⟨rfl, rfl, rfl, rfl⟩

theorem onMachine_asks : Ends (onMachine W input now) q
    (fun out p' => AskCase (q.machine.on input).1 q out.save.isSome p')
    (AskCase (q.machine.on input).1 q false) := by
  refine .get_bind (.modify_bind ?_)
  have heard := Attempt.on_heard q.machine input
  have late : ∀ coins, .checkCoins coins ∈ (q.machine.on input).1 → q.machine.phase ≠ .funding :=
    fun coins member => Attempt.on_asks member
  generalize (q.machine.on input).1 = acts at heard late
  generalize (q.machine.on input).2 = b at heard
  -- An answer that asks for no coin, or asks in a phase before the funding's.
  have quietly : (b.phase = .funding → q.machine.phase = .funding) →
      Ends (act W acts now) { q with machine := b }
        (fun out p' => AskCase acts q out.save.isSome p')
        (AskCase acts q false) := by
    intro phase
    have each : ∀ {saves p'}, Acted acts { q with machine := b } p' → AskCase acts q saves p' := by
      intro saves p' acted
      have entered : p'.machine.phase = .funding → q.machine.phase = .funding := by
        rw [acted.machine]
        exact phase
      obtain ⟨asked, answers⟩ | ⟨coins, member, _⟩ := acted.asks
      · exact .kept asked answers entered
      · exact .setup coins member fun funding => late coins member (entered funding)
    exact act_spec.mono (fun _ _ both => each both.1) fun _ acted => each acted
  cases heard with
  | setup carried plain phase =>
    refine quietly fun funding => ?_
    obtain same | ⟨_, low⟩ := phase
    · rw [← same, funding]
    · rw [funding] at low
      exact absurd low (by decide)
  | stopped => exact quietly fun impossible => by cases impossible
  | recordGiven carried before after built isBuilt _ _ _ _ payout coins ownCoins =>
    refine act_record.mono (fun out p' given => ?_) fun _ impossible => impossible
    obtain ⟨saves, machine, asked, answers⟩ := given
    refine .record saves coins (mem_pair.mpr (.inr rfl)) ?_ answers
    rw [asked, Phone.ownCoins, machine]
    exact ownCoins
  | funded carried before after =>
    refine quietly fun funding => ?_
    rw [after] at funding
    cases funding

/-! ## Turns -/

variable {history : List (Played P)}

/-- While coins are asked for: the turn that asked for them fed no verdict since, and in the
funding phase it gave the record out and the answers held are the last ones since. -/
structure Fresh (W : Radio P) (history : List (Played P)) (p : Phone P) : Prop where
  asking : p.asked ≠ [] → ∃ before z later, history = before ++ z :: later ∧ z.Asks W ∧
    ∀ y ∈ later, ¬y.Feeds W
  record : p.machine.phase = .funding → p.asked ≠ [] → ∃ before z later,
    history = before ++ z :: later ∧ z.GivesRecord ∧ p.asked = p.ownCoins ∧
      ∀ coin ∈ p.asked, p.answers[coin.1]? = lastAnswer later coin.1

/-- A turn with no input for the machine brings no verdict. -/
theorem Played.not_feeds {x : Played P} (none : machineInput W x.now x.before x.turn = none) :
    ¬x.Feeds W := by
  rintro ⟨bad, unanswered, isVerdict⟩
  cases none.symm.trans isVerdict

/-- A turn without a verdict that leaves the ask as it is. -/
theorem Fresh.stays (fresh : Fresh W history p) {x : Played P} (quiet : ¬x.Feeds W)
    (asked : p'.asked = p.asked) (own : p'.ownCoins = p.ownCoins)
    (phase : p'.machine.phase = .funding → p.machine.phase = .funding)
    (answers : ∀ coin ∈ p.asked, ∀ later, p.answers[coin.1]? = lastAnswer later coin.1 →
      p'.answers[coin.1]? = lastAnswer (later ++ [x]) coin.1) : Fresh W (history ++ [x]) p' where
  asking := fun open_ => by
    obtain ⟨before, z, later, rfl, asks, none⟩ := fresh.asking (asked ▸ open_)
    refine ⟨before, z, later ++ [x], by simp, asks, fun y member => ?_⟩
    obtain old | new := mem_append.mp member
    · exact none y old
    · rw [mem_singleton.mp new]
      exact quiet
  record := fun funding open_ => by
    obtain ⟨before, z, later, rfl, gives, isOwn, held⟩ :=
      fresh.record (phase funding) (asked ▸ open_)
    refine ⟨before, z, later ++ [x], by simp, gives, ?_, fun coin member => ?_⟩
    · rw [asked, own, isOwn]
    · rw [asked] at member
      exact answers coin member later (held coin member)

/-- The same for a turn that brings no answer. -/
theorem Fresh.stays_unanswered (fresh : Fresh W history p) {x : Played P} (quiet : ¬x.Feeds W)
    (noAnswer : x.turn.answer = none) (asked : p'.asked = p.asked)
    (answers : p'.answers = p.answers)
    (own : p'.ownCoins = p.ownCoins)
    (phase : p'.machine.phase = .funding → p.machine.phase = .funding) :
    Fresh W (history ++ [x]) p' := by
  refine fresh.stays quiet asked own phase fun coin member later held => ?_
  rw [lastAnswer_snoc, noAnswer, answers]
  exact held

/-- Nothing is asked for. -/
theorem fresh_of_nil (nothing : p.asked = []) : Fresh W history p :=
  ⟨fun open_ => absurd nothing open_, fun _ open_ => absurd nothing open_⟩

/-- The turn asks for coins. -/
theorem fresh_of_asks {x : Played P} (asks : x.Asks W)
    (record : p.machine.phase = .funding →
      x.GivesRecord ∧ p.asked = p.ownCoins ∧ p.answers = ∅) : Fresh W (history ++ [x]) p where
  asking := fun _ => ⟨history, x, [], rfl, asks, forall_mem_nil _⟩
  record := fun funding _ => by
    obtain ⟨gives, own, empty⟩ := record funding
    refine ⟨history, x, [], rfl, gives, own, fun coin _ => ?_⟩
    rw [empty]
    exact Std.TreeMap.getElem?_emptyc

/-- A turn that feeds the machine asks anew, or what was asked for stays. -/
theorem fresh_of_askCase {x : Played P} {saves : Bool} (isBefore : x.before = p)
    (isInput : machineInput W x.now x.before x.turn = some input) (machine : q.machine = p.machine)
    (gives : saves = true → x.GivesRecord) (asks : AskCase (q.machine.on input).1 q saves p')
    (kept : p'.asked = q.asked → p'.answers = q.answers →
      (p'.machine.phase = .funding → q.machine.phase = .funding) → Fresh W (history ++ [x]) p') :
    Fresh W (history ++ [x]) p' := by
  have asksOf : ∀ {coins}, .checkCoins coins ∈ (q.machine.on input).1 → x.Asks W := by
    intro coins member
    refine ⟨input, coins, isInput, ?_⟩
    rw [isBefore, ← machine]
    exact member
  cases asks with
  | kept sameAsked sameAnswers phase => exact kept sameAsked sameAnswers phase
  | setup coins member phase =>
    exact fresh_of_asks (asksOf member) fun funding => absurd funding phase
  | record saved coins member isOwn empty =>
    exact fresh_of_asks (asksOf member) fun _ => ⟨gives saved, isOwn, empty⟩

/-- A turn that feeds the machine something else than a verdict. -/
theorem Fresh.fed (fresh : Fresh W history p) {x : Played P} {saves : Bool}
    (isBefore : x.before = p)
    (isInput : machineInput W x.now x.before x.turn = some input)
    (noVerdict : ∀ bad unanswered, input ≠ .coinsChecked bad unanswered)
    (noAnswer : x.turn.answer = none) (machine : q.machine = p.machine) (asked : q.asked = p.asked)
    (answers : q.answers = p.answers) (after : p'.machine = (p.machine.on input).2)
    (gives : saves = true → x.GivesRecord) (asks : AskCase (q.machine.on input).1 q saves p') :
    Fresh W (history ++ [x]) p' := by
  have quiet : ¬x.Feeds W := by
    rintro ⟨bad, unanswered, isVerdict⟩
    exact noVerdict bad unanswered (Option.some.inj (isInput.symm.trans isVerdict))
  have own : p'.ownCoins = p.ownCoins := by
    rw [ownCoins, after, (Attempt.carried_on _ _).coins, ownCoins]
  refine fresh_of_askCase isBefore isInput machine gives asks fun sameAsked sameAnswers phase => ?_
  rw [machine] at phase
  exact fresh.stays_unanswered quiet noAnswer (sameAsked.trans asked) (sameAnswers.trans answers)
    own phase

/-- The machine's answer to such an input, whatever the turn adds to it. -/
theorem Fresh.fed_ends (fresh : Fresh W history p) {t : Turn} {now : Nat}
    (isInput : machineInput W now p t = some input)
    (noVerdict : ∀ bad unanswered, input ≠ .coinsChecked bad unanswered)
    (noAnswer : t.answer = none) (machine : q.machine = p.machine) (asked : q.asked = p.asked)
    (answers : q.answers = p.answers) :
    Ends (onMachine W input now) q
      (fun out p' => ∀ out' p'', out'.save = out.save → p''.machine = p'.machine →
        p''.asked = p'.asked → p''.answers = p'.answers →
        Fresh W (history ++ [⟨t, now, p, .ok out', p''⟩]) p'')
      fun p' => ∀ e, Fresh W (history ++ [⟨t, now, p, .error e, p'⟩]) p' := by
  have asks : Ends (onMachine W input now) q _ _ := onMachine_asks
  refine (onMachine_spec.and asks).mono
    (fun out p' holds out' p'' sameSave sameMachine sameAsked sameAnswers => ?_)
    fun p' holds e => ?_
  · refine fresh.fed rfl isInput noVerdict noAnswer machine asked answers ?_
      (fun saves => ⟨out', rfl, sameSave ▸ saves⟩)
      (holds.2.congr sameMachine sameAsked sameAnswers)
    rw [sameMachine, holds.1.1.machine, machine]
  · refine fresh.fed rfl isInput noVerdict noAnswer machine asked answers ?_
      (fun impossible => by cases impossible) holds.2
    rw [holds.1.machine, machine]

theorem Fresh.play (fresh : Fresh W history p) (t : Turn) (now : Nat) :
    Fresh W (history ++ [play W p t now]) (play W p t now).after := by
  obtain ⟨seen, isReceived⟩ := received_eq (W := W) p t
  refine play_ends (Q := fun result p' => Fresh W (history ++ [⟨t, now, p, result, p'⟩]) p') ?_
  -- A turn without an input leaves the ask; one with an input other than a verdict may ask anew.
  refine turn_ends
    { idle := fun none unasked n joiners out _ => ?_
      gaveUp := fun none noAnswer n joiners e => ?_
      heard := fun sender json isInput noAnswer => ?_
      noted := fun op ok out none isAnswer _ => ?_
      checked := fun op ok bad unanswered _ _ isInput _ _ => ?_
      saved := fun isSaved => ?_
      plain := fun input isInput noAnswer aloof => ?_ }
  · rw [isReceived]
    refine fresh.stays (Played.not_feeds none) rfl rfl id fun coin member later held => ?_
    rw [lastAnswer_snoc]
    cases isAnswer : t.answer with
    | none => exact held
    | some a =>
      have other : a.1 ≠ coin.1 := fun same => by
        have isAsked := isAsked_of_mem member
        rw [← same, unasked a isAnswer] at isAsked
        cases isAsked
      exact held.trans (if_neg other).symm
  · rw [isReceived]
    exact fresh.stays_unanswered (Played.not_feeds none) noAnswer rfl rfl rfl id
  · rw [isReceived]
    obtain ⟨_, collected⟩ := collectWitnesses_eq (W := W) { p with seen } sender json
    rw [collected]
    refine hear_cases (fresh.fed_ends isInput (fun _ _ => by rintro ⟨⟩) noAnswer rfl rfl rfl)
      (fun out p' holds _ => holds out p' rfl rfl rfl rfl) fun out p' tx holds _ _ _ => ?_
    exact holds _ _ rfl rfl rfl rfl
  · refine fresh.stays (Played.not_feeds none) rfl rfl id fun coin member later held => ?_
    rw [lastAnswer_snoc, isAnswer]
    exact Maps.getElem?_insert.trans (by rw [held]; rfl)
  · refine onMachine_asks.mono (fun out p' asks => ?_) fun p' asks e => ?_
    · exact fresh_of_askCase rfl isInput (by rfl) (fun saves => ⟨out, rfl, saves⟩) asks
        fun nothing _ _ => fresh_of_nil nothing
    · exact fresh_of_askCase rfl isInput (by rfl) (fun no => (by cases no)) asks
        fun nothing _ _ => fresh_of_nil nothing
  · subst isSaved
    have ends : Ends (onMachine W .recordSaved now) { p with recordSaved := true } _ _ :=
      fresh.fed_ends (t := .recordSaved) rfl (fun _ _ => by rintro ⟨⟩) rfl rfl rfl rfl
    exact ends.mono (fun out p' holds => holds out p' rfl rfl rfl rfl) fun _ holds => holds
  · refine (fresh.fed_ends isInput ?_ noAnswer rfl rfl rfl).mono
      (fun out p' holds => holds out p' rfl rfl rfl rfl) fun _ holds => holds
    rintro bad unanswered rfl
    exact aloof

/-! ## Runs -/

/-- A coin neither failed nor unanswered was answered for. -/
theorem answered_true {coin : OutPoint × TxOut} (member : coin ∈ p.asked)
    (noBad : [] = p.answered (some false)) (noneOpen : [] = p.answered none) :
    p.answers[coin.1]? = some (some true) := by
  have other : ∀ answer, [] = p.answered answer → p.answers[coin.1]?.join ≠ answer := by
    intro answer nothing same
    have inside : coin.1 ∈ p.answered answer :=
      mem_map.mpr ⟨coin, mem_filter.mpr ⟨member, beq_iff_eq.mpr same⟩, rfl⟩
    rw [← nothing] at inside
    cases inside
  have notFalse := other _ noBad
  have notNone := other _ noneOpen
  cases held : p.answers[coin.1]? with
  | none =>
    rw [held] at notNone
    exact absurd rfl notNone
  | some answer =>
    rw [held] at notFalse notNone
    cases answer with
    | none => exact absurd rfl notNone
    | some ok =>
      cases ok with
      | false => exact absurd rfl notFalse
      | true => rfl

/-- A verdict without a fault in the funding phase rests on answers given since the record. -/
theorem Fresh.verdict (fresh : Fresh W history p) {x : Played P} (isTurn : x.turn = t)
    (isInput : machineInput W now p t = some (.coinsChecked [] []))
    (funding : p.machine.phase = .funding) : ∃ before z later, history = before ++ z :: later ∧
      z.GivesRecord ∧ ∀ coin ∈ p.machine.me.coins,
        lastAnswer (later ++ [x]) coin.1 = some (some true) := by
  obtain ⟨op, ok, isAnswer, isAsked, noBad, noneOpen⟩ := answer_of_coinsChecked isInput
  have open_ : p.asked ≠ [] := by
    intro nothing
    rw [Phone.isAsked, nothing] at isAsked
    cases isAsked
  obtain ⟨before, z, later, isHistory, gives, own, held⟩ := fresh.record funding open_
  refine ⟨before, z, later, isHistory, gives, fun coin member => ?_⟩
  have asked : (coin.1, coin.2.1) ∈ p.asked := by
    rw [own]
    exact mem_map.mpr ⟨coin, member, rfl⟩
  have isTrue : (p.noted op ok).answers[coin.1]? = some (some true) :=
    answered_true (p := p.noted op ok) asked noBad noneOpen
  have noted : (p.noted op ok).answers[coin.1]? =
      if op = coin.1 then some ok else p.answers[coin.1]? :=
    Maps.getElem?_insert
  rw [lastAnswer_snoc, isTurn, isAnswer, ← isTrue, noted, held _ asked]
  rfl

structure RunFresh (W : Radio P) (history : List (Played P)) (p : Phone P) : Prop where
  fresh : Fresh W history p
  recheck : ∀ earlier x, earlier ++ [x] <+: history → x.before.machine.recheckOk = false →
    x.after.machine.recheckOk = true → ∃ before z later, earlier = before ++ z :: later ∧
      z.GivesRecord ∧ ∀ coin ∈ x.before.machine.me.coins,
        lastAnswer (later ++ [x]) coin.1 = some (some true)
  once : ∀ earlier x, earlier ++ [x] <+: history → x.Feeds W → ∃ before z later,
    earlier = before ++ z :: later ∧ z.Asks W ∧ ∀ y ∈ later, ¬y.Feeds W

theorem RunFresh.play (run : RunFresh W history p) (t : Turn) (now : Nat) :
    RunFresh W (history ++ [play W p t now]) (play W p t now).after := by
  refine ⟨run.fresh.play t now, fun earlier x inside unchecked passed => ?_,
    fun earlier x inside feeds => ?_⟩
  · obtain whole | before := prefix_concat_iff.mp inside
    · obtain ⟨rfl, same⟩ := append_inj' whole rfl
      cases same
      rw [(framed_play p t now).machine] at passed
      cases isInput : machineInput W now p t with
      | none =>
        rw [isInput] at passed
        cases unchecked.symm.trans passed
      | some input =>
        rw [isInput] at passed
        obtain was | ⟨rfl, funding⟩ := Attempt.on_rechecks passed
        · cases unchecked.symm.trans was
        · exact run.fresh.verdict rfl isInput funding
    · exact run.recheck earlier x before unchecked passed
  · obtain whole | before := prefix_concat_iff.mp inside
    · obtain ⟨rfl, same⟩ := append_inj' whole rfl
      cases same
      obtain ⟨bad, unanswered, isInput⟩ := feeds
      obtain ⟨op, ok, _, isAsked, _⟩ := answer_of_coinsChecked isInput
      refine run.fresh.asking fun nothing => ?_
      have open_ : p.isAsked op = true := isAsked
      rw [Phone.isAsked, nothing] at open_
      cases open_
    · exact run.once earlier x before feeds

/-- The re-check before signing is a fresh one. In every run of a phone, a turn after which the
re-check is passed comes after the turn that gave the record out, and since then the last answer
for each of this phone's coins, that turn's own included, was that it is good. And every verdict
the machine hears answers an ask with no other verdict in between. -/
theorem recheck_is_fresh {c : Common} {params : Params} {timeout : Nat} {poolSk : SecretKey}
    {first : Phone P} {out : Out} {creator : Bool}
    (started : start W c params timeout poolSk = .ok (first, out))
    (plays : Plays W { first with creator } history p) :
    (∀ earlier x, earlier ++ [x] <+: history → x.before.machine.recheckOk = false →
      x.after.machine.recheckOk = true → ∃ before z later, earlier = before ++ z :: later ∧
        z.GivesRecord ∧ ∀ coin ∈ x.before.machine.me.coins,
          lastAnswer (later ++ [x]) coin.1 = some (some true)) ∧
    ∀ earlier x, earlier ++ [x] <+: history → x.Feeds W → ∃ before z later,
      earlier = before ++ z :: later ∧ z.Asks W ∧ ∀ y ∈ later, ¬y.Feeds W := by
  have begun := start_begun started
  have notYet : ∀ (earlier : List (Played P)) x, ¬earlier ++ [x] <+: [] := fun earlier x inside =>
    append_ne_nil_of_right_ne_nil _ (cons_ne_nil x []) (prefix_nil.mp inside)
  have run : RunFresh W history p := by
    refine plays.invariant ⟨fresh_of_nil begun.notAsking, fun earlier x inside => ?_,
      fun earlier x inside => ?_⟩ fun history p t now run => run.play t now
    · exact absurd inside (notYet earlier x)
    · exact absurd inside (notYet earlier x)
  exact ⟨run.recheck, run.once⟩

section Sample

open PhoneInstance

/-- Phone 1 until its own coin is answered for again. -/
def recheckRun : List (Played joinstr) × Phone joinstr := playAll poolRadio poolPhone.1 signingTurns

theorem plays_recheckRun : Plays poolRadio { poolPhone.1 with creator := poolPhone.1.creator }
    recheckRun.1 recheckRun.2 :=
  plays_playAll poolPhone.1 signingTurns

/-- The last turn of that run passes the re-check. -/
theorem recheck_is_fresh_three : ∃ earlier x, earlier ++ [x] = recheckRun.1 ∧
    x.before.machine.recheckOk = false ∧ x.after.machine.recheckOk = true ∧
    ∃ before z later, earlier = before ++ z :: later ∧ z.GivesRecord ∧
      ∀ coin ∈ x.before.machine.me.coins, lastAnswer (later ++ [x]) coin.1 = some (some true) := by
  have last : (recheckRun.1.getLast?.map fun x =>
      (x.before.machine.recheckOk, x.after.machine.recheckOk)) = some (false, true) := by
    decide +kernel
  obtain ⟨x, isLast, marks⟩ := Option.map_eq_some_iff.mp last
  obtain ⟨unchecked, passed⟩ := Prod.mk.inj marks
  obtain ⟨earlier, whole⟩ := getLast?_eq_some_iff.mp isLast
  refine ⟨earlier, x, whole.symm, unchecked, passed, ?_⟩
  exact (recheck_is_fresh started_poolPhone plays_recheckRun).1 earlier x
    (whole ▸ prefix_refl _) unchecked passed

end Sample

end Phone

end Lij.Tatara
