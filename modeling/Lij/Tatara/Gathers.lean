import Lij.Tatara.Completes

/-!
# Once everyone signed

A phone takes a member's funding signatures when it has built the funding they
are checked against, and looks for a complete funding whenever it has read a
message. An event is read once: one that came before the funding was built is
remembered as seen and never read again. When no funding signatures come that
early, and the phone's own come back after it signed, every input has its witness
with the last event and the funding is given out.
-/

namespace Lij.Tatara

open Bitcoin Joinstr Checked Fallible List

variable {P : Primitives}

namespace Attempt

variable {input : Input P} {a : Attempt P}

/-- A record is given out in the signing phase only. -/
theorem not_saveRecord_of_late (late : 5 ≤ rank a.phase) (rec : Record) :
    .saveRecord rec ∉ (a.on input).1 := by
  have heard := on_heard a input
  generalize (a.on input).1 = acts at heard
  generalize (a.on input).2 = b at heard
  intro member
  cases heard with
  | setup carried plain => exact plain _ member
  | stopped => exact not_mem_stopActions (fun _ => by rintro ⟨⟩) (fun _ _ => by rintro ⟨⟩) member
  | recordGiven carried before =>
    rw [before] at late
    exact absurd late (by decide)
  | funded => simp [post] at member

end Attempt

namespace Phone

variable {W : Radio P} {p p' q : Phone P} {t : Turn} {now : Nat} {sender : SessionKey}
  {json : P.Text} {history : List (Played P)}
  {brought : SessionKey → OutPoint → List Bytes → Prop}

/-! ## What a turn gathers -/

/-- A witness is short enough to be looked at. -/
def Short (items : List Bytes) : Prop :=
  items ≠ [] ∧ items.length ≤ 2 ∧ ∀ i ∈ items, i.length ≤ 80

/-- The entry of a sender's message is good: it is for a coin the sender registered and its
witness passes the check of the input that spends the coin. -/
structure GoodEntry (W : Radio P) (p : Phone P) (tx : Transaction) (sender : SessionKey)
    (w : WitnessMsg) (op : OutPoint) : Prop where
  intro ::
  accepted : ∃ items, Entry w op items ∧ p.machine.owns sender op = true ∧ Short items ∧
    Verifies W p tx op items

theorem GoodEntry.congr {tx : Transaction} {w : WitnessMsg} {op : OutPoint}
    (good : GoodEntry W p tx sender w op) (regs : p'.machine.regs = p.machine.regs)
    (prevouts : p'.fundingPrevouts = p.fundingPrevouts) : GoodEntry W p' tx sender w op := by
  obtain ⟨items, entry, owned, short, idx, found, verified⟩ := good.accepted
  refine ⟨items, entry, ?_, short, idx, found, ?_⟩
  · rw [owns_congr regs]
    exact owned
  · rw [prevouts]
    exact verified

/-- What a turn keeps once there is a funding. -/
structure Gathered (W : Radio P) (p p' : Phone P) : Prop where
  funding : ∀ tx, p.funding = some tx → p'.funding = some tx ∧
    p'.fundingPrevouts = p.fundingPrevouts ∧ p'.machine.regs = p.machine.regs
  witnesses : ∀ op : OutPoint, p.witnesses[op]?.isSome = true → p'.witnesses[op]?.isSome = true
  signed : p.signed = true → p'.signed = true

/-- A good entry of a message is held afterwards. -/
theorem collected_of_good {tx : Transaction} {witnesses : List WitnessMsg} {w : WitnessMsg}
    {op : OutPoint} (parsed : P.parseStrict json = .ok (.fundingSigs witnesses))
    (isFunding : p.funding = some tx) (lengths : p.fundingPrevouts.length = tx.input.length)
    (member : w ∈ witnesses) (good : GoodEntry W p tx sender w op) :
    (p.collectWitnesses W sender json).witnesses[op]?.isSome = true := by
  obtain ⟨items, entry, owned, short, verifies⟩ := good.accepted
  have collects : p.collectWitnesses W sender json = { p with
      witnesses := (witnesses.filterMap (p.acceptWitness W tx sender)).foldl
        (fun held w => held.insert w.1 w.2) p.witnesses } := by
    rw [collectWitnesses, parsed, isFunding]
    exact if_neg (not_not.mpr lengths)
  have accepted : (op, items) ∈ witnesses.filterMap (p.acceptWitness W tx sender) :=
    mem_filterMap.mpr ⟨w, member, acceptWitness_eq_some.mpr ⟨entry, owned, short, verifies⟩⟩
  rw [collects]
  obtain ⟨v, _, found⟩ | ⟨absent, _⟩ := Maps.getElem?_foldl_insert
    (witnesses.filterMap (p.acceptWitness W tx sender)) p.witnesses op
  · exact Option.isSome_iff_exists.mpr ⟨v, found⟩
  · exact absurd accepted (absent items)

/-- A message takes no held witness away. -/
theorem collected_of_held {op : OutPoint} (held : p.witnesses[op]?.isSome = true) :
    (p.collectWitnesses W sender json).witnesses[op]?.isSome = true := by
  obtain same | ⟨_, _, _, items, _, _, _, found, _⟩ := witness_collected (W := W) p sender json op
  · rw [same]
    exact held
  · exact Option.isSome_iff_exists.mpr ⟨items, found⟩

theorem gathered_acted {input : Input P} (kept : Kept W brought q)
    (acted : Acted (q.machine.on input).1 { q with machine := (q.machine.on input).2 } p') :
    Gathered W q p' := by
  refine ⟨fun tx isFunding => ?_, fun op held => ?_, acted.kept⟩
  · have late := (kept.funded tx isFunding).late
    obtain ⟨funding, prevouts, _⟩ | ⟨rec, member, _⟩ := acted.funding
    · refine ⟨funding.trans isFunding, prevouts, ?_⟩
      rw [acted.machine]
      refine (Attempt.carried_on _ _).regs fun inputs => ?_
      rw [inputs] at late
      exact absurd late (by decide)
    · exact absurd member (Attempt.not_saveRecord_of_late late rec)
  · rw [acted.witnesses]
    exact held

theorem Gathered.trans {p'' : Phone P} (first : Gathered W p p') (second : Gathered W p' p'') :
    Gathered W p p'' where
  funding := fun tx isFunding => by
    obtain ⟨same, prevouts, regs⟩ := first.funding tx isFunding
    obtain ⟨same', prevouts', regs'⟩ := second.funding tx same
    exact ⟨same', prevouts'.trans prevouts, regs'.trans regs⟩
  witnesses := fun op held => second.witnesses op (first.witnesses op held)
  signed := fun signed => second.signed (first.signed signed)

/-- A phone that differs neither in the machine nor in the funding and what was collected. -/
theorem gathered_of_eq (machine : p'.machine = p.machine := by rfl)
    (funding : p'.funding = p.funding := by rfl)
    (prevouts : p'.fundingPrevouts = p.fundingPrevouts := by rfl)
    (witnesses : p'.witnesses = p.witnesses := by rfl)
    (signed : p'.signed = p.signed := by rfl) : Gathered W p p' := by
  refine ⟨fun tx isFunding => ⟨funding.trans isFunding, prevouts, by rw [machine]⟩,
    fun op held => ?_, fun before => signed.trans before⟩
  rw [witnesses]
  exact held

theorem gathered_collected (p : Phone P) (sender : SessionKey) (json : P.Text) :
    Gathered W p (p.collectWitnesses W sender json) := by
  have machine := machine_collectWitnesses (W := W) p sender json
  obtain same | ⟨_, _, _, _, same⟩ := collectWitnesses_cases (W := W) p sender json
  · rw [same]
    exact gathered_of_eq
  · refine ⟨fun tx isFunding => ?_, fun op held => collected_of_held held, ?_⟩
    · rw [same]
      exact ⟨isFunding, rfl, rfl⟩
    · rw [same]
      exact id

/-- A machine that has signed answers nothing. -/
theorem onMachine_halted {input : Input P} (halted : q.machine.phase = .fundingSigned) :
    Ends (onMachine W input now) q (fun _ p' => p' = q) fun _ => False := by
  refine .get_bind (.modify_bind ?_)
  rw [Attempt.on_halted (.inr halted)]
  exact (rfl : q = q)

/-- What a turn gathers, and whether it completes. -/
structure TurnGathers (W : Radio P) (p : Phone P) (t : Turn) (now : Nat) (p' : Phone P) : Prop where
  gathered : Gathered W p p'
  collected : ∀ sender json witnesses tx w op,
    machineInput W now p t = some (.msg sender json) →
    P.parseStrict json = .ok (.fundingSigs witnesses) → p.funding = some tx → w ∈ witnesses →
    GoodEntry W p tx sender w op → p'.witnesses[op]?.isSome = true
  finished : p.signed = true → ∀ sender json, machineInput W now p t = some (.msg sender json) →
    p'.completeGiven = true ∨ p'.signedFunding = none
  waits : p.signed = true → (∀ sender json, machineInput W now p t ≠ some (.msg sender json)) →
    p'.completeGiven = p.completeGiven ∧ p'.signedFunding = p.signedFunding

theorem signedFunding_congr (funding : p'.funding = p.funding)
    (witnesses : p'.witnesses = p.witnesses) : p'.signedFunding = p.signedFunding := by
  rw [signedFunding, funding, witnesses, signedFunding]

/-- The phone after a message: what the message brought is held, and a signed phone has looked
for the complete funding. -/
theorem hear_gathers (kept : Kept W brought p) (isInput : machineInput W now p t =
      some (.msg sender json)) (seen : List String) :
    Ends (hear W sender json now) ({ p with seen }.collectWitnesses W sender json)
      (fun _ => TurnGathers W p t now) (TurnGathers W p t now) := by
  generalize isQ : { p with seen }.collectWitnesses W sender json = q
  have start : Gathered W p q := by
    rw [← isQ]
    exact (gathered_of_eq : Gathered W p { p with seen }).trans
      (gathered_collected _ sender json)
  have keptQ : Kept W (fun _ _ _ => True) q := by
    have before : Kept W (fun _ _ _ => True) { p with seen } :=
      (kept.mono fun _ _ _ _ => trivial).congr
    rw [← isQ]
    exact before.collected fun _ _ _ _ _ _ _ => trivial
  have isSame : ∀ {sender' json'}, machineInput W now p t = some (.msg sender' json') →
      sender' = sender ∧ json' = json := by
    intro sender' json' isInput'
    cases isInput.symm.trans isInput'
    exact ⟨rfl, rfl⟩
  -- A good entry was held before the machine heard the message, and stays.
  have gathers : ∀ {p' : Phone P}, Gathered W q p' →
      (p.signed = true → p'.completeGiven = true ∨ p'.signedFunding = none) →
      TurnGathers W p t now p' := by
    intro p' gathered finished
    refine ⟨start.trans gathered, ?_, fun signed _ _ _ => finished signed,
      fun _ silent => absurd isInput (silent sender json)⟩
    intro sender' json' witnesses tx w op isInput' parsed isFunding member good
    obtain ⟨rfl, rfl⟩ := isSame isInput'
    apply gathered.witnesses op
    rw [← isQ]
    refine collected_of_good parsed isFunding ?_ member (good.congr rfl rfl)
    exact (kept.funded tx isFunding).prevouts
  have aside := isQ ▸ aside_collectWitnesses (W := W) { p with seen } sender json
  by_cases isSigned : p.signed = true
  · have halted : q.machine.phase = .fundingSigned := by
      rw [aside.machine]
      exact kept.signed isSigned
    have fed : Ends (onMachine W (.msg sender json) now) q (fun _ p' => p' = q)
        (TurnGathers W p t now) :=
      (onMachine_halted halted).mono (fun _ _ same => same) fun _ impossible => impossible.elim
    refine hear_cases fed (fun out p' same why => ?_) fun out p' tx same _ _ _ => ?_
    · subst same
      refine gathers gathered_of_eq fun _ => ?_
      obtain given | unsigned | missing := why
      · exact .inl given
      · rw [aside.signed, isSigned] at unsigned
        cases unsigned
      · exact .inr missing
    · subst same
      exact gathers gathered_of_eq fun _ => .inl rfl
  · have each : ∀ p', Acted (q.machine.on (.msg sender json)).1
        { q with machine := (q.machine.on (.msg sender json)).2 } p' → TurnGathers W p t now p' :=
      fun p' acted => gathers (gathered_acted keptQ acted) fun signed => absurd signed isSigned
    refine hear_cases (onMachine_spec.mono (fun _ p' both => each p' both.1) each)
      (fun _ _ holds _ => holds) fun out p' tx holds _ _ _ => ?_
    obtain ⟨gathered, collected, finished, waits⟩ := holds
    refine ⟨gathered.trans gathered_of_eq, collected,
      fun signed => absurd signed isSigned, fun signed => absurd signed isSigned⟩

theorem turn_gathers (kept : Kept W brought p) :
    Ends (turn W now t) p (fun _ => TurnGathers W p t now) (TurnGathers W p t now) := by
  obtain ⟨seen, isReceived⟩ := received_eq (W := W) p t
  -- A turn without a message: nothing is collected, and a signed phone waits.
  have waiting : ∀ {p' : Phone P}, Gathered W p p' →
      (∀ sender json, machineInput W now p t ≠ some (.msg sender json)) →
      (p.signed = true → p'.completeGiven = p.completeGiven ∧ p'.signedFunding = p.signedFunding) →
      TurnGathers W p t now p' := by
    intro p' gathered silent same
    refine ⟨gathered, fun sender json _ _ _ _ isInput => ?_, fun _ sender json isInput => ?_,
      fun signed _ => same signed⟩
    · exact absurd isInput (silent sender json)
    · exact absurd isInput (silent sender json)
  have fed : ∀ {q : Phone P} {input : Input P}, machineInput W now p t = some input →
      (∀ sender json, input ≠ .msg sender json) → q.machine = p.machine → q.funding = p.funding →
      q.fundingPrevouts = p.fundingPrevouts → q.witnesses = p.witnesses → q.signed = p.signed →
      q.completeGiven = p.completeGiven →
      Ends (onMachine W input now) q (fun _ => TurnGathers W p t now) (TurnGathers W p t now) := by
    intro q input isInput noMessage machine funding prevouts witnesses signed given
    have silent : ∀ sender json, machineInput W now p t ≠ some (.msg sender json) :=
      fun sender json isMsg => noMessage sender json (Option.some.inj (isInput.symm.trans isMsg))
    have keptQ : Kept W brought q := kept.congr machine funding prevouts witnesses signed
    have start : Gathered W p q := gathered_of_eq machine funding prevouts witnesses signed
    by_cases isSigned : p.signed = true
    · refine (onMachine_halted (machine ▸ kept.signed isSigned)).mono (fun _ p' same => ?_)
        fun _ impossible => impossible.elim
      subst same
      exact waiting start silent fun _ => ⟨given, signedFunding_congr funding witnesses⟩
    · have each : ∀ p', Acted (q.machine.on input).1
          { q with machine := (q.machine.on input).2 } p' → TurnGathers W p t now p' :=
        fun p' acted => waiting (start.trans (gathered_acted keptQ acted)) silent
          fun signed => absurd signed isSigned
      exact onMachine_spec.mono (fun _ p' both => each p' both.1) each
  refine turn_ends
    { idle := fun none _ n joiners out _ => ?_
      gaveUp := fun none _ n joiners => ?_
      heard := fun sender json isInput _ => ?_
      noted := fun op ok out none isAnswer _ => ?_
      checked := fun op ok bad unanswered _ _ isInput _ _ => ?_
      saved := fun isSaved => ?_
      plain := fun input isInput _ aloof => ?_ }
  · rw [isReceived]
    refine waiting gathered_of_eq (fun _ _ isMsg => ?_) fun _ => ⟨rfl, rfl⟩
    cases none.symm.trans isMsg
  · rw [isReceived]
    refine waiting gathered_of_eq (fun _ _ isMsg => ?_) fun _ => ⟨rfl, rfl⟩
    cases none.symm.trans isMsg
  · rw [isReceived]
    exact hear_gathers kept isInput seen
  · refine waiting gathered_of_eq (fun _ _ isMsg => ?_) fun _ => ⟨rfl, rfl⟩
    cases none.symm.trans isMsg
  · exact fed isInput (fun _ _ => by rintro ⟨⟩) rfl rfl rfl rfl rfl rfl
  · subst isSaved
    exact fed rfl (fun _ _ => by rintro ⟨⟩) rfl rfl rfl rfl rfl rfl
  · refine fed isInput ?_ rfl rfl rfl rfl rfl rfl
    rintro sender json rfl
    exact aloof

/-! ## Events -/

/-- An event's id tells its author and its content: ids are hashes of the fields. -/
def IdsApart (W : Radio P) : Prop :=
  ∀ poolX e e', Wire.checkEvent W.toNostr poolX e = .ok () →
    Wire.checkEvent W.toNostr poolX e' = .ok () → e.id = e'.id →
    e.pubkey = e'.pubkey ∧ e.content = e'.content

theorem readEvent_congr {e e' : Wire.Event} (poolSk : SecretKey) (pubkey : e.pubkey = e'.pubkey)
    (content : e.content = e'.content) :
    Wire.readEvent W.toNostr poolSk e = Wire.readEvent W.toNostr poolSk e' := by
  rw [Wire.readEvent, pubkey, content, Wire.readEvent]

theorem boundSeen_eq (p : Phone P) :
    ∃ seen, p.boundSeen = { p with seen } ∧ ∀ id ∈ seen, id ∈ p.seen := by
  rw [boundSeen]
  split
  · exact ⟨[], rfl, forall_mem_nil _⟩
  · exact ⟨p.seen, rfl, fun _ member => member⟩

/-- A checked event is read now, or an event of its id was checked before. -/
theorem opened_or_seen {e : Wire.Event} {message : SessionKey × P.Text}
    (checked : Wire.checkEvent W.toNostr p.poolX e = .ok ())
    (reads : Wire.readEvent W.toNostr p.poolSk e = .ok message) :
    p.opened W e = some message ∨ e.id ∈ p.seen := by
  obtain ⟨seen, isBound, inside⟩ := boundSeen_eq p
  rw [opened, isBound, Wire.exec_openEvent seen checked]
  by_cases known : e.id ∈ seen
  · exact .inr (inside e.id known)
  · rw [if_neg known, reads]
    exact .inl rfl

/-- The ids remembered after a turn: those before, and the id of a checked event it brought and
read if it can be read. -/
theorem seen_received {id : String} (member : id ∈ (p.received W t).seen) :
    id ∈ p.seen ∨ ∃ e, t.event = some e ∧ e.id = id ∧
      Wire.checkEvent W.toNostr p.poolX e = .ok () ∧
      ∀ message, Wire.readEvent W.toNostr p.poolSk e = .ok message →
        p.opened W e = some message := by
  obtain ⟨seen, isBound, inside⟩ := boundSeen_eq p
  cases isEvent : t.event with
  | none =>
    rw [received, isEvent] at member
    exact .inl member
  | some e =>
    rw [received, isEvent, isBound] at member
    have inOpened : id ∈ ((Wire.openEvent W.toNostr p.poolSk p.poolX e).exec seen).2 := member
    cases checked : Wire.checkEvent W.toNostr p.poolX e with
    | error message =>
      rw [Wire.exec_openEvent_error checked] at inOpened
      exact .inl (inside id inOpened)
    | ok _ =>
      rw [Wire.exec_openEvent seen checked] at inOpened
      by_cases known : e.id ∈ seen
      · rw [if_pos known] at inOpened
        exact .inl (inside id inOpened)
      · rw [if_neg known] at inOpened
        obtain old | new := mem_append.mp inOpened
        · exact .inl (inside id old)
        · refine .inr ⟨e, rfl, (mem_singleton.mp new).symm, checked, fun message reads => ?_⟩
          rw [opened, isBound, Wire.exec_openEvent seen checked, if_neg known, reads]
          rfl

/-- Opened funding signatures reach the machine. -/
theorem machineInput_of_opened {e : Wire.Event} {witnesses : List WitnessMsg}
    (isEvent : t.event = some e) (opens : p.opened W e = some (sender, json))
    (parsed : P.parseStrict json = .ok (.fundingSigs witnesses)) :
    machineInput W now p t = some (.msg sender json) := by
  have notJoin : ¬isJoinPool json = true := by
    rw [isJoinPool_iff, parsed]
    rintro ⟨⟩
  have isInput : machineInput W now p t = (t.event.bind (p.opened W)).bind p.forMachine := by
    cases t with
    | recordSaved => cases isEvent
    | call c =>
      cases c with
      | relayEvent => rfl
      | _ => cases isEvent
  rw [isInput, isEvent, Option.bind_some, opens, Option.bind_some]
  exact if_neg fun both => notJoin both.2

/-! ## Runs -/

/-- Funding signatures come in this turn only once the funding is built, and this phone's own
only once it signed. -/
def Played.Timely (W : Radio P) (x : Played P) : Prop :=
  ∀ sender json witnesses, machineInput W x.now x.before x.turn = some (.msg sender json) →
    P.parseStrict json = .ok (.fundingSigs witnesses) →
    x.before.funding.isSome = true ∧
      (sender = x.before.machine.me.session → x.before.signed = true)

/-- What a run of timely turns gathers. -/
structure Gathers (W : Radio P) (history : List (Played P)) (p : Phone P) : Prop where
  seen : ∀ id ∈ p.seen, ∃ x ∈ history, ∃ e, x.turn.event = some e ∧ e.id = id ∧
    Wire.checkEvent W.toNostr p.poolX e = .ok () ∧
    ∀ message, Wire.readEvent W.toNostr p.poolSk e = .ok message →
      x.before.opened W e = some message
  heard : ∀ x ∈ history, ∀ e message, x.turn.event = some e →
    Wire.checkEvent W.toNostr p.poolX e = .ok () →
    Wire.readEvent W.toNostr p.poolSk e = .ok message →
    ∃ y ∈ history, ∃ e', y.turn.event = some e' ∧ y.before.opened W e' = some message
  collected : ∀ y ∈ history, ∀ sender json witnesses,
    machineInput W y.now y.before y.turn = some (.msg sender json) →
    P.parseStrict json = .ok (.fundingSigs witnesses) → ∃ tx, p.funding = some tx ∧
      ∀ w ∈ witnesses, ∀ op, GoodEntry W p tx sender w op → p.witnesses[op]?.isSome = true
  finishes : ∀ y ∈ history, ∀ json witnesses,
    machineInput W y.now y.before y.turn = some (.msg p.machine.me.session json) →
    P.parseStrict json = .ok (.fundingSigs witnesses) →
    p.signed = true ∧ (p.completeGiven = true ∨ p.signedFunding = none)

theorem session_play (p : Phone P) (t : Turn) (now : Nat) :
    (play W p t now).after.machine.me.session = p.machine.me.session := by
  rw [(framed_play p t now).machine]
  cases machineInput W now p t with
  | none => rfl
  | some input => exact (Attempt.carried_on p.machine input).session

theorem Gathers.play (ids : IdsApart W) (kept : Kept W brought p) (gathers : Gathers W history p)
    (timely : (play W p t now).Timely W) :
    Gathers W (history ++ [play W p t now]) (play W p t now).after := by
  obtain ⟨_, seen, poolSk, poolX⟩ := framed_play (W := W) p t now
  have turned : TurnGathers W p t now (Phone.play W p t now).after :=
    play_ends (Q := fun _ => TurnGathers W p t now)
      ((turn_gathers kept).mono (fun _ _ holds => holds) fun _ holds _ => holds)
  have last : Phone.play W p t now ∈ history ++ [Phone.play W p t now] :=
    mem_append_right _ mem_cons_self
  have earlier : ∀ {y}, y ∈ history → y ∈ history ++ [Phone.play W p t now] :=
    fun member => mem_append_left _ member
  refine ⟨fun id member => ?_, fun x inside e message isEvent checked reads => ?_,
    fun y inside sender json witnesses isInput parsed => ?_,
    fun y inside json witnesses isInput parsed => ?_⟩
  · rw [seen] at member
    rw [poolSk, poolX]
    obtain old | ⟨e, isEvent, isId, checked, opens⟩ := seen_received member
    · obtain ⟨x, inside, rest⟩ := gathers.seen id old
      exact ⟨x, earlier inside, rest⟩
    · exact ⟨_, last, e, isEvent, isId, checked, opens⟩
  · rw [poolX] at checked
    rw [poolSk] at reads
    obtain old | new := mem_append.mp inside
    · obtain ⟨y, member, e', rest⟩ := gathers.heard x old e message isEvent checked reads
      exact ⟨y, earlier member, e', rest⟩
    · cases mem_singleton.mp new
      obtain opens | known := opened_or_seen checked reads
      · exact ⟨_, last, e, isEvent, opens⟩
      · obtain ⟨y, member, e', isEvent', sameId, checked', opens⟩ := gathers.seen e.id known
        obtain ⟨pubkey, content⟩ := ids p.poolX e' e checked' checked sameId
        refine ⟨y, earlier member, e', isEvent', opens message ?_⟩
        rw [readEvent_congr p.poolSk pubkey content]
        exact reads
  · obtain old | new := mem_append.mp inside
    · obtain ⟨tx, isFunding, held⟩ := gathers.collected y old sender json witnesses isInput parsed
      obtain ⟨same, prevouts, regs⟩ := turned.gathered.funding tx isFunding
      refine ⟨tx, same, fun w member op good => turned.gathered.witnesses op ?_⟩
      exact held w member op (good.congr regs.symm prevouts.symm)
    · cases mem_singleton.mp new
      obtain ⟨tx, isFunding⟩ := Option.isSome_iff_exists.mp
        (timely sender json witnesses isInput parsed).1
      obtain ⟨same, prevouts, regs⟩ := turned.gathered.funding tx isFunding
      refine ⟨tx, same, fun w member op good => ?_⟩
      exact turned.collected sender json witnesses tx w op isInput parsed isFunding member
        (good.congr regs.symm prevouts.symm)
  · rw [session_play] at isInput
    obtain old | new := mem_append.mp inside
    · obtain ⟨signed, done⟩ := gathers.finishes y old json witnesses isInput parsed
      refine ⟨turned.gathered.signed signed, ?_⟩
      by_cases message : ∃ sender json, machineInput W now p t = some (.msg sender json)
      · obtain ⟨sender, json', isMessage⟩ := message
        exact turned.finished signed sender json' isMessage
      · obtain ⟨given, funding⟩ := turned.waits signed
          fun sender json' isMessage => message ⟨sender, json', isMessage⟩
        rw [given, funding]
        exact done
    · cases mem_singleton.mp new
      have signed := (timely _ json witnesses isInput parsed).2 rfl
      exact ⟨turned.gathered.signed signed, turned.finished signed _ json isInput⟩

/-- The relay brought the funding signatures of a member at some time: an event that is theirs
and says a good witness for every coin the member registered. -/
def Delivered (W : Radio P) (history : List (Played P)) (p : Phone P)
    (session : SessionKey) : Prop :=
  ∃ x ∈ history, ∃ e json witnesses, x.turn.event = some e ∧
    Wire.checkEvent W.toNostr p.poolX e = .ok () ∧
    Wire.readEvent W.toNostr p.poolSk e = .ok (session, json) ∧
    P.parseStrict json = .ok (.fundingSigs witnesses) ∧
    ∀ op, p.machine.owns session op = true → ∃ tx, p.funding = some tx ∧
      ∃ w ∈ witnesses, GoodEntry W p tx session w op

/-- What is claimed of a state: when this phone signed and every member's funding signatures were
delivered, the funding was given out once, signed by the coins' owners. -/
def Finishes (W : Radio P) (history : List (Played P)) (p : Phone P) : Prop :=
  p.signed = true → (∀ session ∈ p.machine.regs, Delivered W history p session) →
    (history.filter fun x => x.complete.isSome).length = 1 ∧
    ∃ earlier x c, earlier ++ [x] <+: history ∧ x.complete = some c ∧
      Completed W (earlier ++ [x]) x.after c

/-- Every input of the funding has a witness once every member's signatures are held. -/
theorem signedFunding_of_held {tx : Transaction} (isFunding : p.funding = some tx)
    (held : ∀ i ∈ tx.input, p.witnesses[i.previousOutput]?.isSome = true) :
    p.signedFunding ≠ none := by
  have each : ∃ input, (tx.input.mapM fun i =>
      p.witnesses[i.previousOutput]?.map fun w => { i with witness := w }) = some input := by
    refine exists_mapM_eq_some fun i member => ?_
    obtain ⟨w, found⟩ := Option.isSome_iff_exists.mp (held i member)
    exact ⟨_, by rw [found]; rfl⟩
  obtain ⟨input, signs⟩ := each
  rw [signedFunding, isFunding, Option.bind_eq_bind, Option.bind_some, signs]
  rintro ⟨⟩

theorem finishes_of_gathers (keeps : RunKeeps W history p) (gathers : Gathers W history p) :
    Finishes W history p := by
  intro signed delivered
  have fundingSigned := keeps.kept.signed signed
  have asked : p.machine.coinsAsked = true :=
    keeps.kept.settled.asked (by rw [fundingSigned]; decide) (by rw [fundingSigned]; decide)
  -- Delivered signatures reached the machine in some turn.
  have heard : ∀ session ∈ p.machine.regs, ∃ y ∈ history, ∃ json witnesses,
      machineInput W y.now y.before y.turn = some (.msg session json) ∧
      P.parseStrict json = .ok (.fundingSigs witnesses) ∧
      ∀ op, p.machine.owns session op = true → ∃ tx, p.funding = some tx ∧
        ∃ w ∈ witnesses, GoodEntry W p tx session w op := by
    intro session member
    obtain ⟨x, inside, e, json, witnesses, isEvent, checked, reads, parsed, good⟩ :=
      delivered session member
    obtain ⟨y, inHistory, e', isEvent', opens⟩ :=
      gathers.heard x inside e (session, json) isEvent checked reads
    exact ⟨y, inHistory, json, witnesses, machineInput_of_opened isEvent' opens parsed,
      parsed, good⟩
  obtain ⟨own, ownInside, ownJson, ownWitnesses, ownInput, ownParsed, _⟩ :=
    heard p.machine.me.session (keeps.kept.settled.member asked)
  obtain ⟨tx, isFunding, _⟩ :=
    gathers.collected own ownInside _ ownJson ownWitnesses ownInput ownParsed
  have complete : p.signedFunding ≠ none := by
    refine signedFunding_of_held isFunding fun i member => ?_
    have isCoin : i.previousOutput ∈ p.machine.coins :=
      (keeps.kept.funded tx isFunding).coins.mem_iff.mp (mem_map.mpr ⟨i, member, rfl⟩)
    obtain ⟨session, owned⟩ := Attempt.mem_coins.mp isCoin
    obtain ⟨y, inside, json, witnesses, isInput, parsed, good⟩ :=
      heard session (Attempt.mem_of_owns owned)
    obtain ⟨tx', isFunding', w, isEntry, goodEntry⟩ := good _ owned
    cases isFunding.symm.trans isFunding'
    obtain ⟨tx', isFunding', held⟩ := gathers.collected y inside session json witnesses
      isInput parsed
    cases isFunding.symm.trans isFunding'
    exact held w isEntry _ goodEntry
  have given : p.completeGiven = true :=
    (gathers.finishes own ownInside ownJson ownWitnesses ownInput ownParsed).2.resolve_right
      complete
  have once : (history.filter fun x => x.complete.isSome).length = 1 := by
    rw [keeps.given, given]
    rfl
  refine ⟨once, ?_⟩
  obtain ⟨x, isOnly⟩ := length_eq_one_iff.mp once
  obtain ⟨inside, isComplete⟩ := mem_filter.mp (isOnly ▸ mem_singleton_self x)
  obtain ⟨earlier, later, whole⟩ := append_of_mem inside
  obtain ⟨c, isSome⟩ := Option.isSome_iff_exists.mp isComplete
  have start : earlier ++ [x] <+: history := ⟨later, by rw [whole]; simp⟩
  exact ⟨earlier, x, c, start, isSome, keeps.completed earlier x c start isSome⟩

/-- Once everyone signed, the pool completes: in every run whose funding signatures all come
timely, every state finishes. -/
theorem timely_pool_completes (rules : PoolRules P) (ids : IdsApart W) {c : Common}
    {params : Params} {timeout : Nat} {poolSk : SecretKey} {first : Phone P} {out : Out}
    {creator : Bool} (started : start W c params timeout poolSk = .ok (first, out))
    (plays : Plays W { first with creator } history p) (timely : ∀ x ∈ history, x.Timely W) :
    Finishes W history p := by
  have begun : Begun W params { first with creator } := { start_begun started with }
  have both : (∀ x ∈ history, x.Timely W) → RunKeeps W history p ∧ Gathers W history p := by
    refine plays.invariant (I := fun history p => (∀ x ∈ history, x.Timely W) →
        RunKeeps W history p ∧ Gathers W history p)
      (fun _ => ⟨runKeeps_of_plays rules begun .nil, ?_⟩) fun history p t now ih timely => ?_
    · refine ⟨fun id member => ?_, forall_mem_nil _, forall_mem_nil _,
        forall_mem_nil _⟩
      rw [begun.unseen] at member
      cases member
    · obtain ⟨keeps, gathers⟩ := ih fun x member => timely x (mem_append_left _ member)
      refine ⟨keeps.play rules t now, gathers.play ids keeps.kept ?_⟩
      exact timely _ (mem_append_right _ mem_cons_self)
  exact finishes_of_gathers (both timely).1 (both timely).2

section Sample

open PhoneInstance

/-- The sample relay's ids tell events apart: the author's name is 64 characters long. -/
theorem idsApart_poolRadio : IdsApart poolRadio := by
  have named : ∀ {poolX e}, Wire.checkEvent poolRadio.toNostr poolX e = .ok () →
      (Bytes.ofText e.pubkey).length = 64 ∧
      Bytes.ofText e.pubkey ++ Bytes.ofText e.content = Wire.asciiLowercase e.id := by
    intro poolX e checked
    simp only [Wire.checkEvent, bind_eq_ok, ensure_eq_ok, exists_const, mapError_eq_ok] at checked
    obtain ⟨_, _, _, ⟨length, _⟩, rest⟩ := checked
    obtain ⟨same, _⟩ := ensure_bind_eq_ok.mp rest
    refine ⟨length, ?_⟩
    rw [← Bytes.ofText_append]
    exact same
  intro poolX e e' checked checked' sameId
  obtain ⟨length, isId⟩ := named checked
  obtain ⟨length', isId'⟩ := named checked'
  rw [sameId, ← isId'] at isId
  obtain ⟨pubkey, content⟩ := append_inj isId (length.trans length'.symm)
  exact ⟨Bytes.ofText_injective pubkey, Bytes.ofText_injective content⟩

theorem parseTxid_text (txid : Txid) : parseTxid txid.text = .ok txid := by
  have length : (Bytes.of256 txid).length = 32 := Bytes.length_of256 txid
  have decoded : Hex.decodeAnyBytes (Bytes.ofText txid.text) = some (Bytes.of256 txid) := by
    rw [Txid.ofText_text, Hex.decodeAnyBytes_encodeBytes]
  refine bind_eq_ok.mpr ⟨_, context_eq_ok.mpr decoded, ensure_bind_eq_ok.mpr ⟨length, ?_⟩⟩
  rw [Bytes.to256_of256]
  rfl

/-- Did the relay bring member `i`'s funding signature, which is good for its coin? -/
def brings (history : List (Played joinstr)) (p : Phone joinstr) (i : Nat) : Bool :=
  let session : SessionKey := BitVec.ofNat 256 i
  let coin : OutPoint := ⟨BitVec.ofNat 256 i, 0⟩
  (history.any fun x => x.turn.event == some (poolEvent session (14 + i))) &&
    (Wire.checkEvent poolRadio.toNostr p.poolX (poolEvent session (14 + i))).toBool &&
    decide (Wire.readEvent poolRadio.toNostr p.poolSk (poolEvent session (14 + i)) =
      .ok (session, fundingSigs i)) &&
    ((p.machine.regs[session]?.map fun r => r.1.inputs.map Prod.fst) == some [coin]) &&
    ((p.funding.bind fun tx => tx.input.findIdx? fun i => i.previousOutput == coin).isSome)

theorem delivered_of_brings {history : List (Played joinstr)} {p : Phone joinstr} {i : Nat}
    (isBrought : brings history p i = true) :
    Delivered poolRadio history p (BitVec.ofNat 256 i) := by
  rw [brings, Bool.and_eq_true, Bool.and_eq_true, Bool.and_eq_true, Bool.and_eq_true] at isBrought
  obtain ⟨⟨⟨⟨delivered, checked⟩, reads⟩, registered⟩, spent⟩ := isBrought
  obtain ⟨x, inside, isEvent⟩ := any_eq_true.mp delivered
  refine ⟨x, inside, _, fundingSigs i, _, eq_of_beq isEvent, toBool_eq_true.mp checked,
    of_decide_eq_true reads, rfl, fun op owned => ?_⟩
  obtain ⟨r, found, member⟩ := Attempt.owns_iff.mp owned
  have isCoin : op = ⟨BitVec.ofNat 256 i, 0⟩ := by
    have coins := eq_of_beq registered
    rw [found, Option.map_some, Option.some.injEq] at coins
    rw [coins] at member
    exact mem_singleton.mp member
  obtain ⟨idx, place⟩ := Option.isSome_iff_exists.mp spent
  obtain ⟨tx, isFunding, place⟩ := Option.bind_eq_some_iff.mp place
  have decoded : ([Hex.encode [1]].mapM fun h => Hex.decodeAnyBytes (Bytes.ofText h)) =
      some [[1]] := by decide
  have short : Short [[1]] := ⟨by decide, by decide, by decide⟩
  refine ⟨tx, isFunding, _, mem_singleton_self _, [[1]], ⟨?_, ?_, decoded⟩, owned, short, idx, ?_,
    rfl⟩
  · rw [isCoin]
    exact parseTxid_text _
  · rw [isCoin]
  · rw [isCoin]
    exact place

/-- Does the turn bring funding signatures too early? -/
def isTimely (x : Played joinstr) : Bool :=
  match machineInput poolRadio x.now x.before x.turn with
  | some (.msg sender json) =>
    match joinstr.parseStrict json with
    | .ok (.fundingSigs _) =>
      x.before.funding.isSome && (decide (sender ≠ x.before.machine.me.session) || x.before.signed)
    | _ => true
  | _ => true

theorem timely_of_isTimely {x : Played joinstr} (timely : isTimely x = true) :
    x.Timely poolRadio := by
  intro sender json witnesses isInput parsed
  rw [isTimely, isInput] at timely
  dsimp only at timely
  rw [parsed] at timely
  obtain ⟨funded, own⟩ := (Bool.and_eq_true _ _).mp timely
  refine ⟨funded, fun isOwn => ?_⟩
  obtain other | signed := (Bool.or_eq_true _ _).mp own
  · exact absurd isOwn (of_decide_eq_true other)
  · exact signed

theorem delivered_members {history : List (Played joinstr)} {p : Phone joinstr}
    (members : p.machine.regs.keys = [1, 2, 3]) (each : [1, 2, 3].all (brings history p) = true) :
    ∀ session ∈ p.machine.regs, Delivered poolRadio history p session := by
  intro session member
  have inKeys : session ∈ p.machine.regs.keys := Std.TreeMap.mem_keys.mpr member
  rw [members] at inKeys
  have brought := all_eq_true.mp each
  obtain rfl | rfl | rfl : session = 1 ∨ session = 2 ∨ session = 3 := by simpa using inKeys
  · exact delivered_of_brings (i := 1) (brought 1 (by simp))
  · exact delivered_of_brings (i := 2) (brought 2 (by simp))
  · exact delivered_of_brings (i := 3) (brought 3 (by simp))

/-- This phone signed, the members are the three, and the relay brought each one's signature. -/
def allSigned (r : List (Played joinstr) × Phone joinstr) : Bool :=
  r.2.signed && (r.2.machine.regs.keys == [1, 2, 3]) && [1, 2, 3].all (brings r.1 r.2)

theorem delivered_of_allSigned {r : List (Played joinstr) × Phone joinstr}
    (all : allSigned r = true) : r.2.signed = true ∧
      ∀ session ∈ r.2.machine.regs, Delivered poolRadio r.1 r.2 session := by
  rw [allSigned, Bool.and_eq_true, Bool.and_eq_true] at all
  exact ⟨all.1.1, delivered_members (eq_of_beq all.1.2) all.2⟩

/-- The pool of three completes. -/
theorem timely_pool_completes_three : poolRun.2.signed = true ∧
    (∀ session ∈ poolRun.2.machine.regs, Delivered poolRadio poolRun.1 poolRun.2 session) ∧
    (poolRun.1.filter fun x => x.complete.isSome).length = 1 := by
  have facts : (allSigned poolRun && poolRun.1.all isTimely) = true := by decide +kernel
  obtain ⟨all, timely⟩ := (Bool.and_eq_true _ _).mp facts
  obtain ⟨signed, delivered⟩ := delivered_of_allSigned all
  have finishes := timely_pool_completes poolRules_joinstr idsApart_poolRadio started_poolPhone
    plays_poolRun fun x member => timely_of_isTimely (all_eq_true.mp timely x member)
  exact ⟨signed, delivered, (finishes signed delivered).1⟩

/-- Two members' signatures come before the last partial signature, and once more at the end. -/
def earlyTurns : List (Turn × Nat) :=
  (poolCalls ++ [relay 2 16, relay 3 17, relay 3 14]).map (fun c => (.call c, 1)) ++
    [(.recordSaved, 1), (.call (.coinResult (Txid.text 1) 0 (some true)), 1)] ++
    [relay 1 15, relay 2 16, relay 3 17].map fun c => (.call c, 1)

def earlyRun : List (Played joinstr) × Phone joinstr := playAll poolRadio poolPhone.1 earlyTurns

/-- Everyone signed and the relay brought every signature, some of them twice, but nothing is
given out. -/
theorem early_signatures_lost :
    Plays poolRadio { poolPhone.1 with creator := poolPhone.1.creator } earlyRun.1 earlyRun.2 ∧
    earlyRun.2.signed = true ∧
    (∀ session ∈ earlyRun.2.machine.regs, Delivered poolRadio earlyRun.1 earlyRun.2 session) ∧
    (earlyRun.1.filter fun x => x.complete.isSome).length = 0 := by
  have facts : (allSigned earlyRun &&
      (earlyRun.1.filter fun x => x.complete.isSome).length == 0) = true := by decide +kernel
  obtain ⟨all, none⟩ := (Bool.and_eq_true _ _).mp facts
  obtain ⟨signed, delivered⟩ := delivered_of_allSigned all
  exact ⟨plays_playAll poolPhone.1 earlyTurns, signed, delivered, eq_of_beq none⟩

end Sample

end Phone

end Lij.Tatara
