import Lij.Foundation.Sessions
import Lij.Tatara.Heard
import Lij.Tatara.Phone

/-!
# What a call does to a phone

Carrying out the machine's actions touches few fields of the phone, and what the
page is told comes from those actions (`act_spec`). A call of the page feeds the
machine at most one input; before and after it only the fields of the relay, the
coin checks and the completion change (`call_ends`).
-/

namespace Lij.Tatara.Phone

open Bitcoin Joinstr Checked Fallible List

variable {P : Primitives} {W : Radio P} {p p' p'' : Phone P} {acts : List (Action P)}

/-! ## Actions -/

/-- What no call changes but through the machine's answer. -/
structure Fixed (p p' : Phone P) : Prop where
  poolId : p'.poolId = p.poolId := by rfl
  poolSk : p'.poolSk = p.poolSk := by rfl
  poolX : p'.poolX = p.poolX := by rfl
  sessionSk : p'.sessionSk = p.sessionSk := by rfl
  payoutIndex : p'.payoutIndex = p.payoutIndex := by rfl
  change : p'.change = p.change := by rfl
  machine : p'.machine = p.machine := by rfl
  recordSaved : p'.recordSaved = p.recordSaved := by rfl
  isPublic : p'.isPublic = p.isPublic := by rfl

theorem Fixed.trans (first : Fixed p p') (second : Fixed p' p'') : Fixed p p'' where
  poolId := second.poolId.trans first.poolId
  poolSk := second.poolSk.trans first.poolSk
  poolX := second.poolX.trans first.poolX
  sessionSk := second.sessionSk.trans first.sessionSk
  payoutIndex := second.payoutIndex.trans first.payoutIndex
  change := second.change.trans first.change
  machine := second.machine.trans first.machine
  recordSaved := second.recordSaved.trans first.recordSaved
  isPublic := second.isPublic.trans first.isPublic

/-- What stays while actions are carried out. -/
structure Acted (acts : List (Action P)) (p p' : Phone P) : Prop extends Fixed p p' where
  seen : p'.seen = p.seen := by rfl
  witnesses : p'.witnesses = p.witnesses := by rfl
  completeGiven : p'.completeGiven = p.completeGiven := by rfl
  signed : p'.signed = true → p.signed = true ∨ .fundingSigned ∈ acts := by exact .inl
  kept : p.signed = true → p'.signed = true := by exact id
  funding : (p'.funding = p.funding ∧ p'.fundingPrevouts = p.fundingPrevouts ∧
      p'.exits = p.exits) ∨
    ∃ rec, .saveRecord rec ∈ acts ∧ p'.funding = some rec.funding ∧
      p'.fundingPrevouts = rec.prevouts ∧ p'.exits = rec.exits := by exact .inl ⟨rfl, rfl, rfl⟩
  asks : (p'.asked = p.asked ∧ p'.answers = p.answers) ∨
    ∃ coins, .checkCoins coins ∈ acts ∧ p'.asked = coins ∧ p'.answers = ∅ := by
      exact .inl ⟨rfl, rfl⟩

theorem Acted.refl (acts : List (Action P)) (p : Phone P) : Acted acts p p := {}

theorem Acted.trans (first : Acted acts p p') (second : Acted acts p' p'') : Acted acts p p'' where
  toFixed := first.toFixed.trans second.toFixed
  seen := second.seen.trans first.seen
  witnesses := second.witnesses.trans first.witnesses
  completeGiven := second.completeGiven.trans first.completeGiven
  signed := fun now => (second.signed now).elim first.signed .inr
  kept := fun before => second.kept (first.kept before)
  funding := by
    obtain ⟨funding, prevouts, exits⟩ | given := second.funding
    · rw [funding, prevouts, exits]
      exact first.funding
    · exact .inr given
  asks := by
    obtain ⟨asked, answers⟩ | asks := second.asks
    · rw [asked, answers]
      exact first.asks
    · exact .inr asks

/-- What the page is told comes from the actions. -/
structure Told (W : Radio P) (acts : List (Action P)) (p : Phone P) (now : Nat) (out : Out) :
    Prop where
  relay : ∀ e ∈ out.relay, ∃ json iv, .post json ∈ acts ∧
    Wire.sealEvent W.toNostr p.sessionSk p.poolX json now iv = .ok e
  save : ∀ rec, out.save = some rec → ∃ r, .saveRecord r ∈ acts ∧
    rec = .fromMachine r p.payoutIndex (some p.change) (Word.saturatingMul64 now 1000)
  stopped : ∀ stop, out.stopped = some stop → (∃ reason named, .stopped reason named ∈ acts) ∧
    (.fundingSigned ∉ acts → stop.wipeRecord = (p.recordSaved && !p.signed))
  complete : out.complete = none

/-- Drawing random bytes moves the counter only. -/
theorem next_spec {label : String} {failed : Phone P → Prop} : Ends (next label) p
    (fun _ p' => p' = { p with n := Word.add32 p.n 1 }) failed :=
  .modify_bind (.get_bind (.pure rfl))

theorem sealPost_spec {author : SecretKey} {json : P.Text} {now : Nat} :
    Ends (sealPost W author json now) p
      (fun e p' => Acted acts p p' ∧
        ∃ iv, Wire.sealEvent W.toNostr author p.poolX json now iv = .ok e) (Acted acts p) := by
  have drawn : Acted acts p { p with n := Word.add32 p.n 1 } := {}
  refine next_spec.bind fun iv p' isNext => .get_bind ?_
  subst isNext
  exact .lift (fun e sealed => ⟨drawn, _, sealed⟩) drawn

theorem actOne_spec {start : Phone P} {now : Nat} {out : Out} {a : Action P} (member : a ∈ acts)
    (acted : Acted acts start p) (told : Told W acts start now out) :
    Ends (actOne W now out a) p (fun out' p' => Acted acts start p' ∧ Told W acts start now out')
      (Acted acts start) := by
  cases a with
  | post json =>
    refine .get_bind (.bind (sealPost_spec.mono (fun _ _ sealed => sealed)
      fun _ more => acted.trans more) fun e p' sealed => .pure ?_)
    obtain ⟨more, iv, sealed⟩ := sealed
    refine ⟨acted.trans more, { told with relay := fun e' inRelay => ?_ }⟩
    obtain old | new := mem_append.mp inRelay
    · exact told.relay e' old
    · rw [mem_singleton.mp new]
      rw [acted.sessionSk, acted.poolX] at sealed
      exact ⟨json, iv, member, sealed⟩
  | postPayout json =>
    have drawn : Acted acts p { p with n := Word.add32 p.n 1 } := {}
    refine next_spec.bind fun bytes p' isNext => ?_
    subst isNext
    refine .lift_bind (fun k _ => ?_) (acted.trans drawn)
    refine .bind (sealPost_spec.mono (fun _ _ sealed => sealed)
      fun _ more => (acted.trans drawn).trans more) fun e p' sealed => .pure ?_
    exact ⟨(acted.trans drawn).trans sealed.1, { told with }⟩
  | checkCoins coins =>
    refine .modify_bind (.pure ⟨acted.trans ?_, { told with }⟩)
    exact { asks := .inr ⟨coins, member, rfl, rfl⟩ }
  | saveRecord rec =>
    refine .modify_bind (.get_bind (.pure ⟨acted.trans ?_, { told with
      save := fun stored isSaved => ⟨rec, member, ?_⟩ }⟩))
    · exact { funding := .inr ⟨rec, member, rfl, rfl, rfl⟩ }
    · rw [← acted.payoutIndex, ← acted.change]
      exact (Option.some.inj isSaved).symm
  | fundingSigned =>
    refine .modify_bind (.pure ⟨acted.trans ?_, { told with }⟩)
    exact { signed := fun _ => .inr member, kept := fun _ => rfl }
  | openChannel sats =>
    exact .modify_bind (.pure ⟨acted.trans {}, { told with }⟩)
  | fundChannel txid vout => exact .pure ⟨acted, { told with }⟩
  | stopped reason named =>
    refine .get_bind (.pure ⟨acted, { told with
      stopped := fun stop isStop => ⟨⟨reason, named, member⟩, fun unsigned => ?_⟩ }⟩)
    have same : p.signed = start.signed := by
      apply Bool.eq_iff_iff.mpr
      exact ⟨fun now => (acted.signed now).resolve_right unsigned, acted.kept⟩
    rw [← Option.some.inj isStop, stopOf, acted.recordSaved, same]

theorem act_spec {now : Nat} : Ends (act W acts now) p
    (fun out p' => Acted acts p p' ∧ Told W acts p now out) (Acted acts p) := by
  have loop : Ends (acts.foldlM (actOne W now) .default) p
      (fun out p' => Acted acts p p' ∧ Told W acts p now out) (Acted acts p) := by
    refine .foldlM (fun a member out p' both => actOne_spec member both.1 both.2) ⟨.refl acts p, ?_⟩
    exact ⟨forall_mem_nil _, fun _ same => (by cases same), fun _ same => (by cases same), rfl⟩
  refine loop.bind fun out p' both => .get_bind (.pure ⟨both.1, ?_⟩)
  exact ⟨both.2.relay, both.2.save, both.2.stopped, both.2.complete⟩

/-- The machine's answer, carried out. -/
theorem onMachine_spec {input : Input P} {now : Nat} : Ends (onMachine W input now) p
    (fun out p' => Acted (p.machine.on input).1 { p with machine := (p.machine.on input).2 } p' ∧
      Told W (p.machine.on input).1 p now out)
    (Acted (p.machine.on input).1 { p with machine := (p.machine.on input).2 }) := by
  refine .get_bind (.modify_bind (act_spec.mono (fun out p' both => ⟨both.1, ?_⟩)
    fun _ acted => acted))
  exact ⟨both.2.relay, both.2.save, both.2.stopped, both.2.complete⟩

/-! ## Calls -/

/-- Only the fields of the relay, of the coin checks and of the completion differ. -/
structure Aside (p p' : Phone P) : Prop extends Fixed p p' where
  signed : p'.signed = p.signed := by rfl

theorem Aside.refl (p : Phone P) : Aside p p := {}

theorem Aside.trans (first : Aside p p') (second : Aside p' p'') : Aside p p'' where
  toFixed := first.toFixed.trans second.toFixed
  signed := second.signed.trans first.signed

/-- A reply of the handshake. -/
structure Reply (W : Radio P) (p : Phone P) (e : Wire.Event) : Prop where
  intro ::
  sealed : ∃ toPk msg now iv, msg.kind ≠ .fundingSigs ∧
    Wire.sealEvent W.toNostr p.poolSk toPk (P.envelopeJson msg) now iv = .ok e

/-- An answer without the machine: nothing, or a reply of the handshake. -/
structure Idle (W : Radio P) (p : Phone P) (out : Out) : Prop where
  relay : ∀ e ∈ out.relay, Reply W p e
  save : out.save = none
  stopped : out.stopped = none

theorem idle_quiet (p p' : Phone P) : Idle W p p'.quiet :=
  ⟨forall_mem_nil _, rfl, rfl⟩

variable {post : Out → Phone P → Prop} {failed : Phone P → Prop} {now : Nat}

/-- What is shown of every call: what it does without the machine, what the machine's answer
does, and that a complete funding changes nothing more. -/
structure Covers (W : Radio P) (p : Phone P) (now : Nat) (post : Out → Phone P → Prop)
    (failed : Phone P → Prop) : Prop where
  idle : ∀ p' out, Aside p p' → Idle W p out → post out p'
  gaveUp : ∀ p', Aside p p' → failed p'
  fed : ∀ p' input, Aside p p' → input ≠ .recordSaved → Ends (onMachine W input now) p' post failed
  completed : ∀ p' p'' out c, post out p' → Aside p' p'' → post { out with complete := some c } p''

theorem Covers.aside (covers : Covers W p now post failed) (aside : Aside p p') :
    Covers W p' now post failed where
  idle := fun p'' out more idle => by
    refine covers.idle p'' out (aside.trans more) ⟨fun e member => ?_, idle.save, idle.stopped⟩
    obtain ⟨toPk, msg, now, iv, other, sealed⟩ := (idle.relay e member).sealed
    exact ⟨toPk, msg, now, iv, other, aside.poolSk ▸ sealed⟩
  gaveUp := fun p'' more => covers.gaveUp p'' (aside.trans more)
  fed := fun p'' input more => covers.fed p'' input (aside.trans more)
  completed := covers.completed

theorem joinReply_kind (p : Phone P) (sender : SessionKey) :
    (p.joinReply sender).kind ≠ .fundingSigs := by
  rw [joinReply]
  split <;> rintro ⟨⟩

theorem aside_seatJoiner (p : Phone P) (sender : SessionKey) : Aside p (p.seatJoiner sender) := by
  rw [seatJoiner]
  split
  · exact {}
  · exact .refl p

theorem answerJoin_ends (covers : Covers W p now post failed) (sender : SessionKey) :
    Ends (answerJoin W sender now) p post failed := by
  have seated := aside_seatJoiner p sender
  have drawn : Aside p { p.seatJoiner sender with n := Word.add32 (p.seatJoiner sender).n 1 } :=
    seated.trans {}
  refine .modify_bind (next_spec.bind fun iv p' isNext => .get_bind ?_)
  subst isNext
  refine .lift_bind (fun e sealed => .pure (covers.idle _ _ drawn ⟨fun e' member => ?_, rfl, rfl⟩))
    (covers.gaveUp _ drawn)
  rw [mem_singleton.mp member]
  have byPool : Wire.sealEvent W.toNostr p.poolSk _ _ now _ = .ok e := drawn.poolSk ▸ sealed
  exact ⟨_, _, now, _, joinReply_kind _ sender, byPool⟩

theorem tryComplete_ends {out : Out} (holds : post out p)
    (completed : ∀ p' c, Aside p p' → post { out with complete := some c } p') :
    Ends (do
      match ← tryComplete with
      | some c => return { out with complete := some c }
      | none => return out) p post failed := by
  have ends : Ends tryComplete p (fun c p' => (c = none ∧ p' = p) ∨ (c.isSome = true ∧ Aside p p'))
      failed := by
    refine .get_bind (.ite (fun _ => .pure (.inl ⟨rfl, rfl⟩)) fun _ => ?_)
    cases p.signedFunding with
    | none => exact .pure (.inl ⟨rfl, rfl⟩)
    | some tx =>
      exact .modify_bind (.pure (.inr ⟨rfl, {}⟩))
  refine ends.bind fun c p' cases_ => ?_
  obtain ⟨rfl, rfl⟩ | ⟨isSome, aside⟩ := cases_
  · exact .pure holds
  · obtain ⟨c, rfl⟩ := Option.isSome_iff_exists.mp isSome
    exact .pure (completed p' c aside)

/-- Nothing but the witnesses is collected. -/
theorem collectWitnesses_eq (p : Phone P) (sender : SessionKey) (json : P.Text) :
    ∃ witnesses, p.collectWitnesses W sender json = { p with witnesses } := by
  rw [collectWitnesses]
  split
  · split <;> exact ⟨_, rfl⟩
  · exact ⟨_, rfl⟩

theorem aside_collectWitnesses (p : Phone P) (sender : SessionKey) (json : P.Text) :
    Aside p (p.collectWitnesses W sender json) := by
  obtain ⟨_, collected⟩ := collectWitnesses_eq (W := W) p sender json
  rw [collected]
  exact {}

section

variable (covers : Covers W p now post failed)
include covers

theorem readOpened_ends (sender : SessionKey) (json : P.Text) :
    Ends (readOpened W sender json now) p post failed := by
  have collected := aside_collectWitnesses (W := W) p sender json
  have covers' := covers.aside collected
  refine .modify_bind (.get_bind (.ite (fun _ => .ite (fun _ => ?_) fun _ => ?_) fun _ => ?_))
  · exact answerJoin_ends covers' sender
  · exact .pure (covers'.idle _ _ (.refl _) (idle_quiet _ _))
  · refine (covers'.fed _ _ (.refl _) (by rintro ⟨⟩)).bind fun out p' holds => ?_
    exact tryComplete_ends holds fun p'' c aside => covers.completed p' p'' out c holds aside

theorem read_ends (e : Wire.Event) : Ends (read W e now) p post failed := by
  have bounded : Aside p p.boundSeen := by
    rw [boundSeen]
    split
    · exact {}
    · exact .refl p
  refine .modify_bind (.get_bind (.modify_bind ?_))
  have noted : Aside p { p.boundSeen with
      seen := ((Wire.openEvent W.toNostr p.boundSeen.poolSk p.boundSeen.poolX e).exec
        p.boundSeen.seen).2 } :=
    bounded.trans {}
  split
  · exact readOpened_ends (covers.aside noted) _ _
  · exact .get_bind (.pure (covers.idle _ _ noted (idle_quiet _ _)))

theorem coinResult_ends (txid : String) (vout : Nat) (ok : Option Bool) :
    Ends (coinResult W txid vout ok now) p post failed := by
  refine .lift_bind (fun txid _ => .get_bind (.ite (fun _ => ?_) fun _ => ?_))
    (covers.gaveUp p (.refl p))
  · exact .pure (covers.idle _ _ (.refl p) (idle_quiet _ _))
  · have noted : Aside p { p with answers := p.answers.insert ⟨txid, vout⟩ ok } := {}
    refine .modify_bind (.get_bind (.ite (fun _ => ?_) fun _ => ?_))
    · exact .pure (covers.idle _ _ noted (idle_quiet _ _))
    · refine .modify_bind (covers.fed _ _ (noted.trans ?_) (by rintro ⟨⟩))
      exact {}

theorem call_ends (c : Call) : Ends (call W now c) p post failed := by
  have idle : post p.quiet p := covers.idle p _ (.refl p) (idle_quiet p p)
  cases c with
  | relayEvent text =>
    refine .require_bind (fun _ => ?_) (covers.gaveUp p (.refl p))
    cases text.event with
    | none => exact .get_bind (.pure idle)
    | some e => exact read_ends covers e
  | coinResult txid vout ok => exact coinResult_ends covers txid vout ok
  | payoutGiven spk | channelSaved | channelFailed why =>
    exact covers.fed p _ (.refl p) (by rintro ⟨⟩)
  | leave =>
    refine .get_bind (.ite (fun _ => .pure idle) fun _ => ?_)
    exact covers.fed p _ (.refl p) (by rintro ⟨⟩)
  | tick => exact covers.fed p _ (.refl p) (by rintro ⟨⟩)

end

/-! ## Joining -/

/-- The machine as the phone sets it up. -/
theorem setUp_eq (c : Common) (timeout : Nat) (a : Attempt P) : ∃ deadline,
    setUp c timeout a =
      { a with refused := a.refused ++ c.refused, isPublic := c.isPublic, deadline } := by
  rw [setUp, Attempt.firstPhaseUntil]
  split
  · split
    · exact ⟨_, rfl⟩
    · exact ⟨_, rfl⟩
  · exact ⟨_, rfl⟩

/-- A phone that just joined: nothing registered, recorded or signed. -/
structure Begun (W : Radio P) (params : Params) (p : Phone P) : Prop where
  id : p.machine.id = params.id
  poolId : p.poolId = params.id
  phase : p.machine.phase = .inputs
  regs : p.machine.regs = ∅
  unnoted : p.machine.recordSaved = false
  unasked : p.machine.coinsAsked = false
  unbuilt : p.machine.built = none
  unchecked : p.machine.recheckOk = false
  unsaved : p.recordSaved = false
  unsigned : p.signed = false
  unfunded : p.funding = none
  incomplete : p.completeGiven = false
  unheld : p.witnesses = ∅
  notAsking : p.asked = []
  unseen : p.seen = []
  key : p.poolX = Wire.keyHex (W.xonly p.poolSk)

theorem start_begun {c : Common} {params : Params} {timeout : Nat} {poolSk : SecretKey}
    {out : Out} (started : start W c params timeout poolSk = .ok (p, out)) :
    Begun W params p := by
  obtain ⟨sessionSk, _, rest⟩ := bind_eq_ok.mp started
  obtain ⟨me, _, rest⟩ := bind_eq_ok.mp rest
  obtain ⟨⟨a, acts⟩, joined, rest⟩ := bind_eq_ok.mp rest
  obtain ⟨⟨size, n, rfl⟩, msg, rfl, _⟩ := Attempt.new_spec joined
  obtain ⟨deadline, setUp⟩ := setUp_eq c timeout
    ({ Attempt.fresh params c.network me c.now ⟨phaseS⟩ size with auxN := n } : Attempt P)
  rw [setUp] at rest
  split at rest
  · rename_i out' p' executed
    obtain ⟨acted, _⟩ := act_spec.of_exec executed
    obtain ⟨rfl, _⟩ := Prod.mk.inj (pure_eq_ok.mp rest)
    have unsigned : p'.signed = false := by
      refine Bool.eq_false_iff.mpr fun signed => ?_
      obtain before | inside := acted.signed signed
      · cases before
      · cases mem_singleton.mp inside
    have unfunded : p'.funding = none := by
      obtain ⟨same, _⟩ | ⟨rec, inside, _⟩ := acted.funding
      · exact same
      · cases mem_singleton.mp inside
    have notAsking : p'.asked = [] := by
      obtain ⟨same, _⟩ | ⟨coins, inside, _⟩ := acted.asks
      · exact same
      · cases mem_singleton.mp inside
    have key : p'.poolX = Wire.keyHex (W.xonly p'.poolSk) := by
      rw [acted.poolX, acted.poolSk]
      rfl
    refine ⟨?_, acted.poolId, ?_, ?_, ?_, ?_, ?_, ?_, acted.recordSaved, unsigned, unfunded,
      acted.completeGiven, acted.witnesses, notAsking, acted.seen, key⟩ <;>
    · rw [acted.machine]
      rfl
  · cases rest

end Lij.Tatara.Phone
