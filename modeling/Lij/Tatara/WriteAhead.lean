import Lij.Tatara.Instance
import Lij.Tatara.Moves

/-!
# Nothing is signed before it is written down

A funding signature leaves this phone at most once, and only after the page was
given the record of exactly that funding, answered that the record is saved,
answered that this phone's coins are still unspent and, in a channel pool,
answered that the channel is saved. The invariant `Kept` relates the history of
the run to the attempt's flags; it is checked move by move.
-/

namespace Lij.Tatara.Attempt

open Bitcoin Joinstr Checked Reactive List

variable {P : Primitives}

/-- The event of a funding signature leaving the phone. -/
def fundingSignature (witnesses : List WitnessMsg) : Event (Input P) (Action P) :=
  .emitted (post (.fundingSigs witnesses))

theorem fundingSignature_injective :
    Function.Injective (fundingSignature : List WitnessMsg → Event (Input P) (Action P)) := by
  intro ws ws' same
  have texts := Action.post.inj (Event.emitted.inj same)
  exact Msg.fundingSigs.inj (P.envelopeJson_injective texts)

/-- Every exit of the record carries the signature `aggregate` accepted for its
message, and the messages are those of the record's own transactions. -/
structure ExitsSigned (P : Primitives) (record : Record) : Prop where
  intro ::
  signed : ∃ keys msgs signers sigs unsigned built,
    exitMessages P keys unsigned = .ok msgs ∧ aggregate P keys msgs signers = .ok sigs ∧
    List.Forall₂ (fun m sig => P.verifySchnorr sig m.msg m.outputKey = true) msgs sigs ∧
    attach unsigned sigs = .ok built ∧ record.exits = built.exits ∧
    record.funding = unsigned.funding

/-- What must have happened before a funding signature leaves. -/
structure Justified (me : MyPart) (params : Params) (before : History P)
    (witnesses : List WitnessMsg) : Prop where
  recorded : ∃ record later, Since before (.emitted (.saveRecord record)) later ∧
    ExitsSigned P record ∧
    List.Forall₂ (Signs record.funding record.prevouts P) me.coins witnesses ∧
    .received .recordSaved ∈ later ∧ .received (.coinsChecked [] []) ∈ later
  channel : params.payoutType = .p2wsh → ∃ txid vout later,
    Since before (.emitted (.fundChannel txid vout)) later ∧ .received .channelSaved ∈ later
  own : ∀ w ∈ witnesses, ∃ coin ∈ me.coins, w.txid = coin.1.txid.text ∧ w.vout = coin.1.vout

/-- The record given out for the build in hand, with the answers since then. -/
def Recorded (history : History P) (a : Attempt P) : Prop :=
  ∃ built record later, a.built = some built ∧ record.funding = built.funding ∧
    record.prevouts = built.fundingPrevouts ∧ ExitsSigned P record ∧
    Since history (.emitted (.saveRecord record)) later ∧
    (a.recordSaved = true → .received .recordSaved ∈ later) ∧
    (a.recheckOk = true → .received (.coinsChecked [] []) ∈ later)

/-- The invariant between the history of a run and the attempt. -/
structure Kept (me : MyPart) (params : Params) (history : History P) (a : Attempt P) : Prop where
  coins : a.me.coins = me.coins
  pool : a.params = params
  unposted : a.phase ≠ .fundingSigned → ∀ ws, fundingSignature ws ∉ history
  unflagged : rank a.phase < 5 → a.recordSaved = false ∧ a.recheckOk = false
  unsaved : rank a.phase < 3 → a.channelSaved = false
  asked : 3 ≤ rank a.phase → rank a.phase ≤ 5 → params.payoutType = .p2wsh →
    ∃ txid vout, .emitted (.fundChannel txid vout) ∈ history
  saved : a.channelSaved = true → ∃ txid vout later,
    Since history (.emitted (.fundChannel txid vout)) later ∧ .received .channelSaved ∈ later
  messages : a.phase = .view ∨ a.phase = .signing → ∀ built, a.built = some built →
    ∃ keys msgs, a.keys = some keys ∧ a.msgs = some msgs ∧ exitMessages P keys built = .ok msgs
  recorded : a.phase = .funding → Recorded history a
  posted : a.phase = .fundingSigned → ∃ before ws later,
    history = before ++ fundingSignature ws :: .emitted .fundingSigned :: later ∧
    Justified me params before ws ∧ (∀ ws', fundingSignature ws' ∉ before) ∧
    ∀ e ∈ later, ∃ input, e = .received input

variable {me : MyPart} {params : Params} {history : History P} {a b : Attempt P}

/-! ## Growing histories -/

theorem Recorded.append (recorded : Recorded history a) (more : History P) :
    Recorded (history ++ more) a := by
  obtain ⟨built, record, later, own, funding, prevouts, exits, since, saved, ok⟩ := recorded
  exact ⟨built, record, later ++ more, own, funding, prevouts, exits, since.append more,
    fun h => mem_append_left _ (saved h), fun h => mem_append_left _ (ok h)⟩

theorem saved_append {more : History P} (saved : ∃ txid vout later,
      Since history (.emitted (.fundChannel txid vout)) later ∧ .received .channelSaved ∈ later) :
    ∃ txid vout later, Since (history ++ more) (.emitted (.fundChannel txid vout)) later ∧
      .received .channelSaved ∈ later := by
  obtain ⟨txid, vout, later, since, member⟩ := saved
  exact ⟨txid, vout, later ++ more, since.append more, mem_append_left _ member⟩

/-- While no signature has left, entries that are no signature keep the invariant. -/
theorem Kept.append (kept : Kept me params history a) {more : History P}
    (unsigned : a.phase ≠ .fundingSigned) (quiet : ∀ ws, fundingSignature ws ∉ more) :
    Kept me params (history ++ more) a where
  __ := kept
  unposted := by
    intro _ ws member
    rcases mem_append.mp member with old | new
    · exact kept.unposted unsigned ws old
    · exact quiet ws new
  asked := by
    intro low high channel
    obtain ⟨txid, vout, member⟩ := kept.asked low high channel
    exact ⟨txid, vout, mem_append_left _ member⟩
  saved := fun h => saved_append (kept.saved h)
  recorded := fun h => (kept.recorded h).append more
  posted := fun h => absurd h unsigned

theorem Kept.receives (kept : Kept me params history a) (input : Input P) :
    Kept me params (history ++ [.received input]) a := by
  by_cases phase : a.phase = .fundingSigned
  · obtain ⟨before, ws, later, same, justified, first, rest⟩ := kept.posted phase
    have beyond : 5 < rank a.phase := by rw [phase]; decide
    refine ⟨kept.coins, kept.pool, fun h => absurd phase h, kept.unflagged, kept.unsaved,
      fun _ h => absurd h (by omega), fun h => saved_append (kept.saved h), kept.messages,
      fun h => (by rw [phase] at h; cases h),
      fun _ => ⟨before, ws, later ++ [.received input], by simp [same], justified, first, ?_⟩⟩
    intro e member
    rcases mem_append.mp member with old | new
    · exact rest e old
    · exact ⟨input, mem_singleton.mp new⟩
  · refine kept.append phase fun ws member => ?_
    simp [fundingSignature] at member

/-! ## Silent moves -/

/-- A change outside the fields the invariant reads keeps it. -/
theorem Kept.congr (kept : Kept me params history a) (coins : b.me.coins = a.me.coins := by rfl)
    (pool : b.params = a.params := by rfl) (phase : b.phase = a.phase := by rfl)
    (recordSaved : b.recordSaved = a.recordSaved := by rfl)
    (recheckOk : b.recheckOk = a.recheckOk := by rfl)
    (channelSaved : b.channelSaved = a.channelSaved := by rfl) (built : b.built = a.built := by rfl)
    (keys : b.keys = a.keys := by rfl) (msgs : b.msgs = a.msgs := by rfl) :
    Kept me params history b where
  coins := coins.trans kept.coins
  pool := pool.trans kept.pool
  unposted := phase ▸ kept.unposted
  unflagged := by rw [phase, recordSaved, recheckOk]; exact kept.unflagged
  unsaved := by rw [phase, channelSaved]; exact kept.unsaved
  asked := phase ▸ kept.asked
  saved := channelSaved ▸ kept.saved
  messages := by rw [phase, built, keys, msgs]; exact kept.messages
  recorded := by
    intro h
    obtain ⟨built', record, later, own, rest⟩ := kept.recorded (phase ▸ h)
    exact ⟨built', record, later, built.trans own, by rw [recordSaved, recheckOk]; exact rest⟩
  posted := phase ▸ kept.posted

theorem Kept.silent {input : Input P} (kept : Kept me params (history ++ [.received input]) a)
    (move : Silent input a b) : Kept me params (history ++ [.received input]) b := by
  cases move with
  | auxDrawn | registered | payoutNoted | viewNoted | noncesNoted | psigsNoted | noncesDropped
  | payoutTaken => exact kept.congr
  | builtDropped phase =>
    exact { kept with
      messages := fun _ built own => by cases own
      recorded := fun h => absurd (phase.symm.trans h) (by decide) }
  | recordSaved answer phase =>
    subst answer
    obtain ⟨built, record, later, own, funding, prevouts, exits, since, _, ok⟩ :=
      kept.recorded phase
    exact { kept with
      unflagged := fun low => absurd (show rank a.phase < 5 from low) (by rw [phase]; decide)
      recorded := fun _ => ⟨built, record, later, own, funding, prevouts, exits, since,
        fun _ => since.last_mem (by simp), ok⟩ }
  | rechecked answer phase =>
    subst answer
    obtain ⟨built, record, later, own, funding, prevouts, exits, since, saved, _⟩ :=
      kept.recorded phase
    exact { kept with
      unflagged := fun low => absurd (show rank a.phase < 5 from low) (by rw [phase]; decide)
      recorded := fun _ => ⟨built, record, later, own, funding, prevouts, exits, since, saved,
        fun _ => since.last_mem (by simp)⟩ }
  | channelSaved answer channel phase =>
    subst answer
    have low : 3 ≤ rank a.phase := by rcases phase with h | h | h <;> rw [h] <;> decide
    have high : rank a.phase ≤ 5 := by rcases phase with h | h | h <;> rw [h] <;> decide
    obtain ⟨txid, vout, member⟩ := kept.asked low high (kept.pool ▸ channel)
    obtain ⟨later, since⟩ := Since.of_mem member
    exact { kept with
      unsaved := fun early => absurd low (not_le.mpr (show rank a.phase < 3 from early))
      saved := fun _ => ⟨txid, vout, later, since, since.last_mem (by simp)⟩ }

/-! ## Answers -/

variable {acts : List (Action P)}

/-- Outside the two funding answers no funding signature is among the actions. -/
theorem quiet_of_forall_ne (different : ∀ ws, post (.fundingSigs ws) ∉ acts)
    (ws : List WitnessMsg) :
    fundingSignature ws ∉ (acts.map .emitted : History P) := by
  intro member
  obtain ⟨act, inActs, same⟩ := mem_map.mp member
  cases same
  exact different ws inActs

section

variable (kept : Kept me params history a)
include kept

theorem Kept.stopped {more : History P} (live : a.Live) (quiet : ∀ ws, fundingSignature ws ∉ more) :
    Kept me params (history ++ more) a.stopped := by
  have grown := kept.append live.2 quiet
  exact { grown with
    unposted := fun _ => grown.unposted live.2
    unflagged := fun low => by simp [rank, Attempt.stopped] at low
    unsaved := fun low => by simp [rank, Attempt.stopped] at low
    asked := fun _ high => by simp [rank, Attempt.stopped] at high
    messages := fun h => h.elim nofun nofun
    recorded := nofun
    posted := nofun }

/-- Entering one of the phases up to the payouts. -/
theorem Kept.early {p : Phase} (before : rank a.phase < 3) (after : rank p < 3) :
    Kept me params history { a with phase := p } where
  __ := kept
  unposted := fun _ => kept.unposted
    (by rintro h; rw [h] at before; exact absurd before (by decide))
  unflagged := fun _ => kept.unflagged (by omega)
  unsaved := fun _ => kept.unsaved before
  asked := fun low => absurd after (not_lt.mpr low)
  messages := by
    rintro (h | h) <;> (change p = _ at h; rw [h] at after; exact absurd after (by decide))
  recorded := fun h => by change p = _ at h; rw [h] at after; exact absurd after (by decide)
  posted := fun h => by change p = _ at h; rw [h] at after; exact absurd after (by decide)

theorem Kept.viewPosted {checked : CheckedBuild P} {secs : ExitNonces P} {view : Digest}
    (phase : a.phase = .payouts) (passed : a.checkedBuild = .ok checked)
    (quiet : ∀ ws, post (.fundingSigs ws) ∉ acts)
    (channel : ∀ act ∈ checked.fundChannel, act ∈ acts) :
    Kept me params (history ++ acts.map .emitted)
      { a with
        myNonces := some secs, myView := some view, built := some checked.built
        keys := some checked.keys, msgs := some checked.msgs, phase := .view } := by
  have grown : Kept me params (history ++ acts.map .emitted) a :=
    kept.append (by rw [phase]; decide) (quiet_of_forall_ne quiet)
  have spec := checkedBuild_spec passed
  have early : rank a.phase < 3 := by rw [phase]; decide
  exact { grown with
    unposted := fun _ => grown.unposted (by rw [phase]; decide)
    unflagged := fun _ => kept.unflagged (by omega)
    unsaved := fun low => by simp [rank] at low
    asked := by
      intro _ _ isChannel
      obtain ⟨txid, vout, funds⟩ := spec.channel (kept.pool ▸ isChannel)
      have asked : Action.fundChannel txid vout ∈ acts := channel _ (by simp [funds])
      exact ⟨txid, vout, mem_append_right _ (mem_map_of_mem asked)⟩
    saved := fun h => absurd (kept.unsaved early) (by simp [show a.channelSaved = true from h])
    messages := by
      intro _ built own
      cases own
      exact ⟨checked.keys, checked.msgs, rfl, rfl, spec.messages⟩
    recorded := nofun
    posted := nofun }

theorem Kept.recordGiven {keys : PoolKeys} {msgs : List ExitMessage} {signers : List Signer}
    {sigs : List CompactSignature} {unsigned built : PoolTxs} {payout : Script}
    {coins : List (OutPoint × TxOut)} (phase : a.phase = .signing) (ownKeys : a.keys = some keys)
    (ownMsgs : a.msgs = some msgs) (aggregated : aggregate P keys msgs signers = .ok sigs)
    (ownBuilt : a.built = some unsigned) (attached : attach unsigned sigs = .ok built) :
    Kept me params
      (history ++ [.emitted (.saveRecord (a.record built payout)), .emitted (.checkCoins coins)])
      { a with built := some built, phase := .funding } := by
  have grown : Kept me params (history ++ [.emitted (.saveRecord (a.record built payout)),
      .emitted (.checkCoins coins)]) a :=
    kept.append (by rw [phase]; decide)
      (by intro ws member; simp [fundingSignature, post] at member)
  obtain ⟨keys', msgs', sameKeys, sameMsgs, messages⟩ :=
    kept.messages (.inr phase) unsigned ownBuilt
  cases ownKeys.symm.trans sameKeys
  cases ownMsgs.symm.trans sameMsgs
  obtain ⟨_, _, same⟩ := attach_eq_ok attached
  have exits : ExitsSigned P (a.record built payout) :=
    ⟨keys, msgs, signers, sigs, unsigned, built, messages, aggregated,
      aggregate_verifies aggregated, attached, rfl, by rw [same]; rfl⟩
  have flags := kept.unflagged (by rw [phase]; decide)
  exact { grown with
    unposted := fun _ => grown.unposted (by rw [phase]; decide)
    unflagged := fun low => by simp [rank] at low
    unsaved := fun low => by simp [rank] at low
    asked := fun _ _ => grown.asked (by rw [phase]; decide) (by rw [phase]; decide)
    messages := fun h => h.elim nofun nofun
    recorded := fun _ => ⟨built, a.record built payout, [.emitted (.checkCoins coins)], rfl, rfl,
      rfl, exits, ⟨history, rfl⟩, fun h => Bool.noConfusion (flags.1.symm.trans h),
      fun h => Bool.noConfusion (flags.2.symm.trans h)⟩
    posted := nofun }

theorem Kept.fundingPosted {built : PoolTxs} {witnesses : List WitnessMsg}
    (phase : a.phase = .funding) (ready : a.readyToFund) (ownBuilt : a.built = some built)
    (signs : List.Forall₂ (Signs built.funding built.fundingPrevouts P) a.me.coins witnesses) :
    Kept me params (history ++ [fundingSignature witnesses, .emitted .fundingSigned])
      { a with phase := .fundingSigned } := by
  obtain ⟨recordSaved, recheckOk, channelOk⟩ := ready
  obtain ⟨built', record, later, own, funding, prevouts, exits, since, saved, ok⟩ :=
    kept.recorded phase
  cases ownBuilt.symm.trans own
  rw [← funding, ← prevouts, kept.coins] at signs
  have justified : Justified me params history witnesses :=
    { recorded := ⟨record, later, since, exits, signs, saved recordSaved, ok recheckOk⟩
      channel := by
        intro isChannel
        rcases channelOk with onChain | channelSaved
        · rw [kept.pool, isChannel] at onChain
          cases onChain
        · exact kept.saved channelSaved
      own := by
        intro w member
        obtain ⟨coin, inCoins, signed⟩ := exists_of_mem_right signs member
        exact ⟨coin, inCoins, signed.txid, signed.vout⟩ }
  exact { kept with
    unposted := fun h => absurd rfl h
    unflagged := fun low => by simp [rank] at low
    unsaved := fun low => by simp [rank] at low
    asked := fun _ high => by simp [rank] at high
    saved := fun h => saved_append (kept.saved h)
    messages := fun h => h.elim nofun nofun
    recorded := nofun
    posted := fun _ => ⟨history, witnesses, [], rfl, justified,
      kept.unposted (by rw [phase]; decide), nofun⟩ }

theorem Kept.signed (phase : a.phase = .view) (quiet : ∀ ws, post (.fundingSigs ws) ∉ acts) :
    Kept me params (history ++ acts.map .emitted)
      { a with myNonces := none, phase := .signing } := by
  have grown : Kept me params (history ++ acts.map .emitted) a :=
    kept.append (by rw [phase]; decide) (quiet_of_forall_ne quiet)
  exact { grown with
    unposted := fun _ => grown.unposted (by rw [phase]; decide)
    unflagged := fun _ => grown.unflagged (by rw [phase]; decide)
    unsaved := fun low => by simp [rank] at low
    asked := fun _ _ => grown.asked (by rw [phase]; decide) (by rw [phase]; decide)
    messages := fun _ => grown.messages (.inl phase)
    recorded := nofun
    posted := nofun }

theorem Kept.emits {input : Input P} (move : Emits input a acts b) :
    Kept me params (history ++ acts.map .emitted) b := by
  cases move with
  | nothing => simpa using kept
  | clockStarted =>
    rw [map_nil, append_nil]
    exact kept.congr
  | stopped reason named live =>
    refine kept.stopped live (quiet_of_forall_ne fun ws member => ?_)
    unfold stopActions at member
    split at member
    · simp only [cons_append, nil_append, mem_cons, not_mem_nil, or_false]
        at member
      rcases member with same | same
      · exact post_ne_of_kind (by simp [Msg.kind]) same
      · cases same
    · simp [post] at member
  | coinsAsked coins phase =>
    have grown : Kept me params (history ++ [Action.checkCoins coins].map .emitted) a :=
      kept.append (by rw [phase]; decide)
        (quiet_of_forall_ne fun ws member => by simp [post] at member)
    exact grown.congr
  | channelAsked phase =>
    have grown : Kept me params (history ++ [Action.openChannel a.d].map .emitted) a :=
      kept.append (by rw [phase]; decide)
        (quiet_of_forall_ne fun ws member => by simp [post] at member)
    exact grown.early (by rw [phase]; decide) (by decide)
  | payoutPosted json phase =>
    have early : rank a.phase < 3 := by rcases phase with h | h <;> rw [h] <;> decide
    have unsigned : a.phase ≠ .fundingSigned := by rcases phase with h | h <;> rw [h] <;> decide
    have grown : Kept me params (history ++ [Action.postPayout json].map .emitted) a :=
      kept.append unsigned (quiet_of_forall_ne fun ws member => by simp [post] at member)
    exact grown.early early (by decide)
  | viewPosted checked secs pubs phase full passed =>
    refine kept.viewPosted phase passed (fun ws member => ?_)
      fun act member => mem_append_right _ member
    rcases mem_append.mp member with posts | channel
    · simp only [mem_cons, not_mem_nil, or_false] at posts
      rcases posts with same | same
      · exact P.viewJson_ne_envelopeJson _ _ (Action.post.inj same).symm
      · exact post_ne_of_kind (by simp [Msg.kind]) same
    · have spec := checkedBuild_spec passed
      by_cases isChannel : a.params.payoutType = .p2wsh
      · obtain ⟨txid, vout, funds⟩ := spec.channel isChannel
        simp [funds, post] at channel
      · simp [spec.onChain isChannel] at channel
  | signed mine psigs phase =>
    refine kept.signed phase fun ws member => ?_
    exact post_ne_of_kind (by simp [Msg.kind]) (mem_singleton.mp member)
  | recordGiven keys msgs signers sigs unsigned built payout coins phase ownKeys ownMsgs _
      aggregated ownBuilt attached =>
      exact kept.recordGiven phase ownKeys ownMsgs aggregated ownBuilt attached
  | fundingPosted built witnesses phase ready ownBuilt signs =>
    exact kept.fundingPosted phase ready ownBuilt signs

end

theorem kept_keeps (me : MyPart) (params : Params) : (moves P).Keeps (Kept me params) where
  receives _ _ input kept := kept.receives input
  silent _ _ _ _ kept move := kept.silent move
  emits history s s' input outputs kept move := by
    have answered := kept.emits move
    simpa using answered

theorem Kept.start {network : Network} {now : Nat} {timeouts : Timeouts}
    (joined : new params network me now timeouts = .ok (a, acts)) :
    Kept me params (acts.map .emitted) a := by
  obtain ⟨⟨d, n, rfl⟩, msg, rfl, kind⟩ := new_spec joined
  exact {
    coins := rfl
    pool := rfl
    unposted := fun _ => quiet_of_forall_ne fun ws member =>
      post_ne_of_kind (by rw [kind]; simp [Msg.kind]) (mem_singleton.mp member)
    unflagged := fun _ => ⟨rfl, rfl⟩
    unsaved := fun _ => rfl
    asked := fun low => by simp [rank, fresh] at low
    saved := nofun
    messages := fun h => h.elim nofun nofun
    recorded := nofun
    posted := nofun }

/-! ## Whole runs -/

/-- Entering the funding phase is the only thing that gives out a record. -/
theorem saveRecord_enters_funding {input : Input P} {record : Record}
    (given : .saveRecord record ∈ (a.on input).1) :
    a.phase = .signing ∧ (a.on input).2.phase = .funding := by
  obtain ⟨middle, silent, emits⟩ := on_follows P a input
  change Emits input middle (a.on input).1 (a.on input).2 at emits
  have phase := phase_eq_of_silent silent
  generalize (a.on input).1 = acts at given emits
  generalize (a.on input).2 = b at emits
  cases emits with
  | recordGiven keys msgs signers sigs unsigned built payout coins inSigning =>
    exact ⟨phase.symm.trans inSigning, rfl⟩
  | nothing | clockStarted | coinsAsked | channelAsked | payoutPosted => simp at given
  | stopped reason named live => simp [stopActions, post] at given
  | viewPosted checked secs pubs _ _ passed =>
    have spec := checkedBuild_spec passed
    by_cases isChannel : middle.params.payoutType = .p2wsh
    · obtain ⟨txid, vout, funds⟩ := spec.channel isChannel
      simp [funds, post] at given
    · simp [spec.onChain isChannel, post] at given
  | signed | fundingPosted => simp [post] at given

theorem Kept.configured (kept : Kept me params history a) (refused : List OutPoint)
    (isPublic : Bool) (deadline : Nat) :
    Kept me params history (a.configured refused isPublic deadline) := by
  unfold Attempt.configured firstPhaseUntil
  split
  · exact kept.congr
  · exact kept.congr

/-- Write-ahead safety of whole runs: a funding signature leaves at most once; before it
the record of that funding, with every exit signed, was given out when the funding phase
was entered, saved and followed by a clean re-check of the coins, and in a channel pool the
channel was saved after it was asked for; after it the attempt is finished and silent. -/
theorem fundingSignature_written_ahead {network : Network} {now : Nat} {timeouts : Timeouts}
    {acts : List (Action P)} (joined : new params network me now timeouts = .ok (a, acts))
    (refused : List OutPoint) (isPublic : Bool) (deadline : Nat) (inputs : List (Input P)) :
    let start := a.configured refused isPublic deadline
    let history : History P := acts.map .emitted ++ (machine P).trace start inputs
    let final := (machine P).after start inputs
    (∀ before ws later before' ws' later',
      history = before ++ fundingSignature ws :: later →
      history = before' ++ fundingSignature ws' :: later' →
      before = before' ∧ ws = ws' ∧ later = later') ∧
    (∀ before ws later, history = before ++ fundingSignature ws :: later →
      Justified me params before ws ∧ final.phase = .fundingSigned ∧
      (∃ rest, later = .emitted .fundingSigned :: rest ∧
        ∀ e ∈ rest, ∃ input, e = .received input) ∧
      ∀ input, (final.on input).1 = []) ∧
    ∀ (b : Attempt P) input record, .saveRecord record ∈ (b.on input).1 →
      b.phase = .signing ∧ (b.on input).2.phase = .funding := by
  intro start history final
  have kept : Kept me params history final :=
    (on_follows P).history_invariant (kept_keeps me params)
      ((Kept.start joined).configured refused isPublic deadline) inputs
  have finished : ∀ before ws later, history = before ++ fundingSignature ws :: later →
      final.phase = .fundingSigned := by
    intro before ws later same
    by_contra other
    exact kept.unposted other ws (by rw [same]; simp)
  -- every split at a signature is the one the invariant describes
  have canonical : final.phase = .fundingSigned → ∃ before₀ ws₀ rest,
      Justified me params before₀ ws₀ ∧ (∀ e ∈ rest, ∃ input, e = .received input) ∧
      ∀ before ws later, history = before ++ fundingSignature ws :: later →
        before = before₀ ∧ ws = ws₀ ∧ later = .emitted .fundingSigned :: rest := by
    intro phase
    obtain ⟨before₀, ws₀, rest, same₀, justified, first, received⟩ := kept.posted phase
    refine ⟨before₀, ws₀, rest, justified, received, fun before ws later same => ?_⟩
    have noneLater : ∀ e ∈ (.emitted .fundingSigned :: rest : History P),
        ¬∃ ws, e = fundingSignature ws := by
      rintro _ member ⟨w, rfl⟩
      rcases mem_cons.mp member with done | inRest
      · simp [fundingSignature, post] at done
      · obtain ⟨input, wrong⟩ := received _ inRest
        cases wrong
    have noneBefore : ∀ e ∈ before₀, ¬∃ ws, e = fundingSignature ws := by
      rintro _ member ⟨w, rfl⟩
      exact first w member
    obtain ⟨sameBefore, sameEntry, sameLater⟩ :=
      split_unique (same.symm.trans same₀) ⟨ws, rfl⟩ noneBefore noneLater
    exact ⟨sameBefore, fundingSignature_injective sameEntry, sameLater⟩
  refine ⟨?_, ?_, fun b input record given => saveRecord_enters_funding given⟩
  · intro before ws later before' ws' later' same same'
    obtain ⟨_, _, _, _, _, unique⟩ := canonical (finished before ws later same)
    obtain ⟨rfl, rfl, rfl⟩ := unique before ws later same
    obtain ⟨rfl, rfl, rfl⟩ := unique before' ws' later' same'
    exact ⟨rfl, rfl, rfl⟩
  · intro before ws later same
    have phase := finished before ws later same
    obtain ⟨_, _, rest, justified, received, unique⟩ := canonical phase
    obtain ⟨rfl, rfl, rfl⟩ := unique before ws later same
    exact ⟨justified, phase, ⟨rest, rfl, received⟩, fun input => by rw [on_halted (.inr phase)]⟩

/-- The events of a complete honest attempt of the pool of three. -/
def completeRun : List (Input Instance.primitives) :=
  let members := [1, 2, 3]
  let first := Instance.untilView members
  let view := Instance.viewText ((machine _).after (Instance.start 1) first)
  first ++ Instance.viewsAndNonces members view ++ Instance.signaturesAndAnswers members

/-- In a complete attempt the signature does leave, and it is justified. -/
theorem fundingSignature_written_ahead_completeRun :
    ((machine Instance.primitives).after (Instance.start 1) completeRun).phase = .fundingSigned ∧
    ∀ before ws later,
      (Instance.posts 1).map .emitted ++ (machine _).trace
        ((Instance.start 1).configured [] false 0) completeRun =
          before ++ fundingSignature ws :: later →
      Justified (Instance.member 1) Instance.params before ws := by
  refine ⟨by decide +kernel, fun before ws later same => ?_⟩
  have joined := Instance.joined_eq (i := 1) (by decide +kernel)
  have safe := fundingSignature_written_ahead joined [] false 0 completeRun
  exact (safe.2.1 before ws later same).1

end Lij.Tatara.Attempt
