import Lij.Foundation.Network
import Lij.Tatara.Instance
import Lij.Tatara.Views

/-!
# Members who sign agree on what they sign

Any number of members of one pool run over a network that reorders, repeats,
drops and makes up messages, but cannot speak for a member. A member signs the
exits only when every registered session, itself included, has sent its own view
hash. So two members who sign, one of whom registered the other, hash the same
concatenation and therefore hold the same funding and the same exit messages.

Agreement is relative to the registrations: members who never heard of each other
may each complete a pool of their own under one id.
-/

namespace Lij.Tatara.Attempt

open Bitcoin Joinstr Checked Reactive List

variable {P : Primitives}

/-- The build this phone posted its view of. -/
structure Built (a : Attempt P) : Prop where
  intro ::
  full : a.params.peers ≤ a.regs.size
  build : ∃ built msgs, a.built = some built ∧ a.msgs = some msgs ∧
    a.myView = some (a.viewHash built msgs) ∧ Unsigned built.funding ∧
    msgs.map ExitMessage.index = range msgs.length

/-- The invariant between the history of a run and what the attempt knows about views. -/
structure Viewed (params : Params) (session : SessionKey) (history : History P) (a : Attempt P) :
    Prop where
  pool : a.params = params
  id : a.id = params.id
  session : a.me.session = session
  closed : a.isPublic = false
  size : a.regs.size ≤ params.peers
  viewers : ∀ s, s ∈ a.views → s ∈ a.regs
  read : ∀ s h, a.views[s]? = some h →
    ∃ json, .received (.msg s json) ∈ history ∧ ReadsView P json h
  posted : ∀ json h, .emitted (.post json) ∈ history → ReadsView P json h → a.myView = some h
  own : ∀ h, a.myView = some h → .emitted (.post (viewText P h)) ∈ history
  unset : rank a.phase < 3 → a.myView = none
  built : a.phase = .view → a.Built

variable {params : Params} {session : SessionKey} {history : History P} {a b : Attempt P}

/-- Entries that post no view keep the invariant. -/
theorem Viewed.append (viewed : Viewed params session history a) {more : History P}
    (quiet : ∀ json h, .emitted (.post json) ∈ more → ¬ReadsView P json h) :
    Viewed params session (history ++ more) a :=
  { viewed with
    read := by
      intro s h found
      obtain ⟨json, received, reads⟩ := viewed.read s h found
      exact ⟨json, mem_append_left _ received, reads⟩
    posted := by
      intro json h emitted reads
      rcases mem_append.mp emitted with old | new
      · exact viewed.posted json h old reads
      · exact absurd reads (quiet json h new)
    own := fun h own => mem_append_left _ (viewed.own h own) }

/-- Everything but the phase and the build is unchanged. -/
structure SameViews (a b : Attempt P) : Prop where
  pool : b.params = a.params := by rfl
  id : b.id = a.id := by rfl
  session : b.me.session = a.me.session := by rfl
  closed : b.isPublic = a.isPublic := by rfl
  regs : b.regs = a.regs := by rfl
  views : b.views = a.views := by rfl
  myView : b.myView = a.myView := by rfl

theorem Built.congr (done : a.Built) (pool : b.params = a.params) (id : b.id = a.id)
    (regs : b.regs = a.regs) (myView : b.myView = a.myView) (built : b.built = a.built)
    (msgs : b.msgs = a.msgs) : b.Built := by
  obtain ⟨full, txs, ms, ownTxs, ownMsgs, ownView, rest⟩ := done
  refine ⟨by rw [pool, regs]; exact full, txs, ms, built.trans ownTxs, msgs.trans ownMsgs, ?_, rest⟩
  rw [myView, ownView]
  simp only [viewHash, viewBytes, id, regs]

/-- A change of other fields, or of the phase, keeps the invariant unless it opens
the view phase. -/
theorem Viewed.congr (viewed : Viewed params session history a)
    (early : rank b.phase < 3 → rank a.phase < 3 := by exact fun low => low)
    (built : b.phase = .view → a.phase = .view ∧ b.built = a.built ∧ b.msgs = a.msgs := by
      exact fun phase => ⟨phase, rfl, rfl⟩)
    (same : SameViews a b := by exact {}) : Viewed params session history b where
  pool := same.pool.trans viewed.pool
  id := same.id.trans viewed.id
  session := same.session.trans viewed.session
  closed := same.closed.trans viewed.closed
  size := same.regs ▸ viewed.size
  viewers := by rw [same.regs, same.views]; exact viewed.viewers
  read := same.views ▸ viewed.read
  posted := same.myView ▸ viewed.posted
  own := same.myView ▸ viewed.own
  unset := fun low => same.myView.trans (viewed.unset (early low))
  built := by
    intro inView
    obtain ⟨before, sameBuilt, sameMsgs⟩ := built inView
    exact (viewed.built before).congr same.pool same.id same.regs same.myView sameBuilt sameMsgs

variable {input : Input P}

theorem Viewed.silent (viewed : Viewed params session (history ++ [.received input]) a)
    (move : Silent input a b) : Viewed params session (history ++ [.received input]) b := by
  cases move with
  | auxDrawn | payoutNoted | noncesNoted | psigsNoted | noncesDropped | payoutTaken | recordSaved
  | rechecked | channelSaved =>
    exact viewed.congr
  | builtDropped phase =>
    exact viewed.congr (fun low => low) fun inView => absurd (phase.symm.trans inView) (by decide)
  | registered sender reg json sent phase new room =>
    exact { viewed with
      size := by
        change (a.regs.insert sender (reg, json)).size ≤ params.peers
        rw [Maps.size_insert_of_notMem new, ← viewed.pool]
        exact room
      viewers := fun s known => Std.TreeMap.mem_insert.mpr (.inr (viewed.viewers s known))
      built := fun inView => absurd (phase.symm.trans inView) (by decide) }
  | viewNoted sender json v hash sent fields read known new =>
    subst sent
    exact { viewed with
      viewers := by
        intro s inViews
        rcases Std.TreeMap.mem_insert.mp inViews with isSender | old
        · rw [← Std.LawfulEqOrd.eq_of_compare isSender]
          exact known
        · exact viewed.viewers s old
      read := by
        intro s h found
        change (a.views.insert sender hash)[s]? = some h at found
        rw [Maps.getElem?_insert] at found
        split at found
        · rename_i isSender
          subst isSender
          cases found
          exact ⟨json, by simp, v, fields, read⟩
        · exact viewed.read s h found
      built := fun inView => (viewed.built inView).congr rfl rfl rfl rfl rfl rfl }

/-- Answers that post messages of joinstr's only. -/
theorem quiet_of_envelopes {acts : List (Action P)}
    (envelopes : ∀ json, .post json ∈ acts → ∃ msg, json = P.envelopeJson msg) (json : P.Text)
    (h : Digest) (emitted : .emitted (.post json) ∈ (acts.map .emitted : History P)) :
    ¬ReadsView P json h := by
  obtain ⟨act, inActs, same⟩ := mem_map.mp emitted
  cases same
  obtain ⟨msg, rfl⟩ := envelopes json inActs
  exact not_readsView_envelopeJson msg h

/-- The view phase opens with the view posted. -/
theorem Viewed.viewPosted (viewed : Viewed params session history a) {checked : CheckedBuild P}
    {secs : ExitNonces P} {pubs : List PubNonce} (phase : a.phase = .payouts)
    (full : a.params.peers ≤ a.regs.size) (passed : a.checkedBuild = .ok checked) :
    Viewed params session
      (history ++ ([.post (viewText P (a.viewHash checked.built checked.msgs)),
        post (.nonces 0 (pubs.map nonceHex))] ++ checked.fundChannel).map .emitted)
      { a with
        myNonces := some secs, myView := some (a.viewHash checked.built checked.msgs)
        built := some checked.built, keys := some checked.keys, msgs := some checked.msgs
        phase := .view } := by
  have spec := checkedBuild_spec passed
  have unset : a.myView = none := viewed.unset (by rw [phase]; decide)
  have channel : ∀ json, .post json ∉ checked.fundChannel := by
    intro json member
    by_cases isChannel : a.params.payoutType = .p2wsh
    · obtain ⟨txid, vout, funds⟩ := spec.channel isChannel
      simp [funds] at member
    · simp [spec.onChain isChannel] at member
  exact { viewed with
    read := by
      intro s h found
      obtain ⟨json, received, reads⟩ := viewed.read s h found
      exact ⟨json, mem_append_left _ received, reads⟩
    posted := by
      intro json h emitted reads
      rcases mem_append.mp emitted with old | new
      · rw [viewed.posted json h old reads] at unset
        cases unset
      · obtain ⟨act, inActs, same⟩ := mem_map.mp new
        cases same
        rcases mem_append.mp inActs with posts | funds
        · simp only [mem_cons, not_mem_nil, or_false] at posts
          rcases posts with isView | isNonces
          · rw [Action.post.inj isView] at reads
            exact congrArg some (readsView_viewText.mp reads).symm
          · rw [Action.post.inj isNonces] at reads
            exact absurd reads (not_readsView_envelopeJson _ h)
        · exact absurd funds (channel json)
    own := by
      intro h own
      cases own
      simp
    unset := fun low => by simp [rank] at low
    built := fun _ => ⟨full, checked.built, checked.msgs, rfl, rfl, rfl, spec.unsigned,
      index_of_exitMessages spec.messages⟩ }

theorem Viewed.emits {acts : List (Action P)} (viewed : Viewed params session history a)
    (move : Emits input a acts b) : Viewed params session (history ++ acts.map .emitted) b := by
  have grown (envelopes : ∀ json, .post json ∈ acts → ∃ msg, json = P.envelopeJson msg) :
      Viewed params session (history ++ acts.map .emitted) a :=
    viewed.append (quiet_of_envelopes envelopes)
  cases move with
  | nothing => simpa using viewed
  | clockStarted => exact (grown (by simp)).congr
  | stopped reason named live =>
    refine (grown fun json member => ?_).congr (fun low => ?_) nofun
    · unfold stopActions at member
      split at member
      · simp only [cons_append, nil_append, mem_cons, not_mem_nil,
          or_false, reduceCtorEq] at member
        exact ⟨_, Action.post.inj member⟩
      · simp at member
    · simp [rank, Attempt.stopped] at low
  | coinsAsked coins phase =>
    exact (grown (by simp)).congr
  | channelAsked phase =>
    exact (grown (by simp)).congr (fun _ => by rw [phase]; decide) nofun
  | payoutPosted json phase =>
    refine (grown (by simp)).congr (fun _ => ?_) nofun
    rcases phase with h | h <;> rw [h] <;> decide
  | viewPosted checked secs pubs phase full passed =>
    exact viewed.viewPosted phase full passed
  | signed mine psigs phase =>
    refine (grown fun json member => ?_).congr (fun low => ?_) nofun
    · exact ⟨_, Action.post.inj (mem_singleton.mp member)⟩
    · simp [rank] at low
  | recordGiven keys msgs signers sigs unsigned built payout coins phase =>
    refine (grown (by simp)).congr (fun low => ?_) nofun
    simp [rank] at low
  | fundingPosted built witnesses phase =>
    refine (grown fun json member => ?_).congr (fun low => ?_) nofun
    · simp only [mem_cons, not_mem_nil, or_false, reduceCtorEq] at member
      exact ⟨_, Action.post.inj member⟩
    · simp [rank] at low

theorem viewed_keeps (params : Params) (session : SessionKey) :
    (moves P).Keeps (Viewed params session) where
  receives _ _ input viewed := viewed.append (by simp)
  silent _ _ _ _ viewed move := viewed.silent move
  emits history s s' input outputs viewed move := by
    have answered := viewed.emits move
    simpa using answered

/-! ## Starting to sign -/

/-- What a member knows at the moment it signs the exits. -/
structure Signing (params : Params) (a : Attempt P) (mine : Digest) : Prop where
  full : a.regs.size = params.peers
  own : a.myView = some mine
  views : ∀ s, s ∈ a.regs → a.views[s]? = some mine
  built : a.Built

/-- The signing phase is only entered from the view phase, by signing. -/
theorem Emits.signing {acts : List (Action P)} (move : Emits input a acts b)
    (before : a.phase ≠ .signing) (after : b.phase = .signing) :
    a.phase = .view ∧ (∃ mine, a.ViewsAgree mine) ∧
      b = { a with myNonces := none, phase := .signing } := by
  cases move with
  | signed mine psigs phase agree => exact ⟨phase, ⟨mine, agree⟩, rfl⟩
  | nothing | clockStarted | coinsAsked => exact absurd after before
  | stopped | channelAsked | payoutPosted | viewPosted | recordGiven | fundingPosted => cases after

theorem Viewed.signing (viewed : Viewed params session history a) (before : a.phase ≠ .signing)
    (after : (a.on input).2.phase = .signing) : ∃ mine, Signing params (a.on input).2 mine := by
  obtain ⟨middle, silent, emits⟩ := on_follows P a input
  change Emits input middle (a.on input).1 (a.on input).2 at emits
  have keeps := viewed_keeps (P := P) params session
  have atMiddle := keeps.silent_star (keeps.receives history a input viewed) silent
  have notYet : middle.phase ≠ .signing := by rwa [phase_eq_of_silent silent]
  obtain ⟨inView, ⟨mine, agree⟩, same⟩ := emits.signing notYet after
  have done := atMiddle.built inView
  have full : middle.regs.size = params.peers :=
    le_antisymm atMiddle.size (atMiddle.pool ▸ done.full)
  have complete : middle.regs.size ≤ middle.views.size := by
    rcases agree.complete with isPublic | enough
    · rw [atMiddle.closed] at isPublic
      cases isPublic
    · rwa [full, ← atMiddle.pool]
  refine ⟨mine, ?_⟩
  rw [same]
  refine ⟨full, agree.own, fun s registered => ?_, done.congr rfl rfl rfl rfl rfl rfl⟩
  -- as many views as registrations, each from a registered session: none is missing
  have present := Maps.mem_of_subset_of_size_le atMiddle.viewers complete registered
  obtain ⟨v, found⟩ := Maps.mem_iff_exists_getElem?.mp present
  rw [agree.same v (Maps.mem_values.mpr ⟨s, found⟩)] at found
  exact found

/-! ## A pool over a network -/

/-- A phone that joined the pool, as its page configured it. -/
structure Joined (P : Primitives) (params : Params) where
  network : Network
  me : MyPart
  now : Nat
  timeouts : Timeouts
  attempt : Attempt P
  posts : List (Action P)
  joined : new params network me now timeouts = .ok (attempt, posts)
  refused : List OutPoint
  deadline : Nat

/-- The pools of this module are not public. -/
def Joined.start (member : Joined P params) : Attempt P :=
  member.attempt.configured member.refused false member.deadline

theorem Joined.viewed (member : Joined P params) :
    Viewed params member.me.session (member.posts.map .emitted) member.start := by
  obtain ⟨⟨d, n, isFresh⟩, msg, isPosts, kind⟩ := new_spec member.joined
  rw [isPosts]
  have fresh : Viewed params member.me.session [.emitted (post msg)]
      ((member.attempt.refusing member.refused).withPublic false) := by
    rw [isFresh]
    exact {
      pool := rfl
      id := rfl
      session := rfl
      closed := rfl
      size := Nat.zero_le _
      viewers := fun s known => absurd known Std.TreeMap.not_mem_emptyc
      read := fun s h found => by
        change (∅ : Std.TreeMap SessionKey Digest)[s]? = some h at found
        simp at found
      posted := by
        intro json h emitted reads
        rw [mem_singleton] at emitted
        rw [Action.post.inj (Event.emitted.inj emitted)] at reads
        exact absurd reads (not_readsView_envelopeJson msg h)
      own := nofun
      unset := fun _ => rfl
      built := nofun }
  unfold Joined.start configured firstPhaseUntil
  split
  · exact fresh.congr
  · exact fresh

theorem session_eq_of_silent (silent : Relation.ReflTransGen (Silent input) a b) :
    b.me.session = a.me.session := by
  induction silent with
  | refl => rfl
  | tail _ move ih =>
    refine Eq.trans ?_ ih
    cases move <;> rfl

/-- Handling an event never changes this phone's session. -/
theorem session_on (a : Attempt P) (input : Input P) :
    (a.on input).2.me.session = a.me.session := by
  obtain ⟨middle, silent, emits⟩ := on_follows P a input
  change Emits input middle (a.on input).1 (a.on input).2 at emits
  rw [← session_eq_of_silent silent]
  generalize (a.on input).1 = acts at emits
  generalize (a.on input).2 = b at emits
  cases emits <;> rfl

/-- An attempt on the pool's wire: texts are attributed to sessions. Payouts leave
through a forwarder, under no session. -/
def station (P : Primitives) : Station (Attempt P) (Input P) (Action P) SessionKey P.Text where
  machine := machine P
  address a := a.me.session
  delivered
    | .msg sender json => some (sender, json)
    | _ => none
  posted
    | .post json => some json
    | _ => none
  address_step := session_on

variable {n : Nat}

/-- The members of one pool with their registrations on the wire. -/
def pool (members : Fin n → Joined P params) : Net n (Attempt P) SessionKey P.Text where
  parties i := (members i).start
  sent := (finRange n).flatMap fun i =>
    (station P).posts (members i).me.session (members i).posts

theorem Joined.session_start (member : Joined P params) :
    member.start.me.session = member.me.session := member.viewed.session

variable {members : Fin n → Joined P params}

/-- The first texts on the wire are registrations, none of them a view. -/
theorem not_readsView_of_mem_pool {sender : SessionKey} {json : P.Text}
    (sent : (sender, json) ∈ (pool members).sent) (h : Digest) : ¬ReadsView P json h := by
  obtain ⟨i, _, posted⟩ := mem_flatMap.mp sent
  obtain ⟨text, inPosts, same⟩ := mem_map.mp posted
  obtain ⟨rfl, rfl⟩ := Prod.mk.inj same
  obtain ⟨_, msg, isPosts, _⟩ := new_spec (members i).joined
  rw [isPosts] at inPosts
  simp only [post, station, filterMap_cons, filterMap_nil, mem_singleton] at inPosts
  rw [inPosts]
  exact not_readsView_envelopeJson msg h

/-- What member `i` received and emitted, its own registration included. -/
def historyOf (members : Fin n → Joined P params) (events : List (Fin n × Input P)) (i : Fin n) :
    History P :=
  (members i).posts.map .emitted ++
    (machine P).trace (members i).start (Station.inputsOf i events)

theorem viewed_run (members : Fin n → Joined P params) (events : List (Fin n × Input P))
    (i : Fin n) : Viewed params (members i).me.session (historyOf members events i)
      (((station P).run (pool members) events).parties i) := by
  rw [Station.run_parties]
  exact (on_follows P).history_invariant (viewed_keeps params _) (members i).viewed _

theorem historyOf_prefix {seen events : List (Fin n × Input P)} (early : seen <+: events)
    (i : Fin n) {e : Event (Input P) (Action P)} (member : e ∈ historyOf members seen i) :
    e ∈ historyOf members events i := by
  obtain ⟨later, rfl⟩ := early
  rw [historyOf, Station.inputsOf_append, Machine.trace_append, ← append_assoc]
  exact mem_append_left _ member

theorem mem_of_received_historyOf {events : List (Fin n × Input P)} {i : Fin n}
    (received : .received input ∈ historyOf members events i) : (i, input) ∈ events := by
  rcases mem_append.mp received with posted | later
  · simp at posted
  · exact Station.mem_inputsOf.mp ((machine P).mem_of_received later)

/-- Member `i` turns to signing with the last of these events, in this state. -/
def StartsSigning (members : Fin n → Joined P params) (i : Fin n)
    (seen : List (Fin n × Input P)) (a : Attempt P) : Prop :=
  ∃ before input, seen = before ++ [(i, input)] ∧
    (((station P).run (pool members) before).parties i).phase ≠ .signing ∧
    a = ((station P).run (pool members) seen).parties i ∧ a.phase = .signing

theorem StartsSigning.signing {i : Fin n} {seen : List (Fin n × Input P)}
    (starts : StartsSigning members i seen a) : ∃ mine, Signing params a mine := by
  obtain ⟨before, input, rfl, notYet, rfl, inSigning⟩ := starts
  have step : ((station P).run (pool members) (before ++ [(i, input)])).parties i =
      ((((station P).run (pool members) before).parties i).on input).2 := by
    rw [Station.run_append]
    simp [Station.run, Station.step, station, machine]
  rw [step] at inSigning ⊢
  exact (viewed_run members before i).signing notYet inSigning

/-- A view that arrived from a member is the member's own, at the end of the run. -/
theorem myView_of_received (distinct : Function.Injective fun i => (members i).me.session)
    {events : List (Fin n × Input P)} (admissible : (station P).Admissible (pool members) events)
    {i j : Fin n} {json : P.Text} {h : Digest}
    (arrived : (i, .msg (members j).me.session json) ∈ events) (reads : ReadsView P json h) :
    (((station P).run (pool members) events).parties j).myView = some h := by
  have address (k : Fin n) : (station P).address ((pool members).parties k) =
      (members k).me.session := (members k).session_start
  have delivers : (station P).delivered (.msg (members j).me.session json) =
      some ((station P).address ((pool members).parties j), json) := by
    rw [address j]
    rfl
  rcases (station P).posted_of_delivered admissible arrived delivers with
    first | ⟨k, atSender, output, emitted, posted⟩
  · exact absurd reads (not_readsView_of_mem_pool first h)
  · rw [address, address] at atSender
    cases distinct atSender
    have isPost : output = .post json := by
      cases output <;> simp_all [station]
    rw [isPost] at emitted
    exact (viewed_run members events j).posted json h (mem_append_right _ emitted) reads

/-- Neither the view hash nor the funding's id collides between these two attempts:
equal hashes were taken of equal bytes, and unsigned fundings with one id are one. -/
structure CollisionFree (a b : Attempt P) : Prop where
  view : ∀ built msgs built' msgs', a.built = some built → a.msgs = some msgs →
    b.built = some built' → b.msgs = some msgs' →
    a.viewHash built msgs = b.viewHash built' msgs' →
    a.viewBytes built msgs = b.viewBytes built' msgs'
  txid : ∀ built built', a.built = some built → b.built = some built' →
    Unsigned built.funding → Unsigned built'.funding →
    P.computeTxid built.funding = P.computeTxid built'.funding → built.funding = built'.funding

/-- Both hold the same funding and the same messages of the exits, in order. -/
def SamePool (a b : Attempt P) : Prop :=
  ∃ built msgs built' msgs', a.built = some built ∧ a.msgs = some msgs ∧
    b.built = some built' ∧ b.msgs = some msgs' ∧ built.funding = built'.funding ∧
    msgs.map (fun m => (m.index, m.msg)) = msgs'.map fun m => (m.index, m.msg)

theorem map_index_msg {msgs msgs' : List ExitMessage}
    (indexes : msgs.map ExitMessage.index = range msgs.length)
    (indexes' : msgs'.map ExitMessage.index = range msgs'.length)
    (same : msgs.map ExitMessage.msg = msgs'.map ExitMessage.msg) :
    msgs.map (fun m => (m.index, m.msg)) = msgs'.map fun m => (m.index, m.msg) := by
  have lengths : msgs.length = msgs'.length := by simpa using congrArg length same
  have zipped (ms : List ExitMessage) : ms.map (fun m => (m.index, m.msg)) =
      (ms.map ExitMessage.index).zip (ms.map ExitMessage.msg) := by
    rw [zip_map']
  rw [zipped, zipped, indexes, indexes', same, lengths]

theorem Signing.samePool {mine : Digest} (signing : Signing params a mine)
    (signing' : Signing params b mine) (sameId : a.id = b.id) (free : CollisionFree a b) :
    SamePool a b := by
  obtain ⟨_, built, msgs, ownBuilt, ownMsgs, ownView, unsigned, indexes⟩ := signing.built
  obtain ⟨_, built', msgs', ownBuilt', ownMsgs', ownView', unsigned', indexes'⟩ := signing'.built
  have hashes : a.viewHash built msgs = b.viewHash built' msgs' := by
    have left := Option.some.inj (ownView.symm.trans signing.own)
    have right := Option.some.inj (ownView'.symm.trans signing'.own)
    exact left.trans right.symm
  have bytes := free.view built msgs built' msgs' ownBuilt ownMsgs ownBuilt' ownMsgs' hashes
  have sizes : a.regs.size = b.regs.size := signing.full.trans signing'.full.symm
  obtain ⟨txids, messages⟩ := viewBytes_parts sameId sizes bytes
  exact ⟨built, msgs, built', msgs', ownBuilt, ownMsgs, ownBuilt', ownMsgs',
    free.txid built built' ownBuilt ownBuilt' unsigned unsigned' txids,
    map_index_msg indexes indexes' messages⟩

/-- Agreement before signing: whoever signs the exits knows exactly as many sessions as
the pool has peers and received from each of them a view equal to its own; and two
members who sign, one of whom registered the other, hold the same funding and the same
exit messages. -/
theorem signing_members_agree (members : Fin n → Joined P params)
    (distinct : Function.Injective fun i => (members i).me.session)
    (events : List (Fin n × Input P))
    (admissible : (station P).Admissible (pool members) events) :
    (∀ i seen a, seen <+: events → StartsSigning members i seen a →
      a.regs.size = params.peers ∧ ∃ mine, a.myView = some mine ∧
        ∀ s, s ∈ a.regs → ∃ json, (i, .msg s json) ∈ seen ∧ ReadsView P json mine) ∧
    ∀ i j seen seen' a b, seen <+: events → seen' <+: events →
      StartsSigning members i seen a → StartsSigning members j seen' b →
      (members j).me.session ∈ a.regs → CollisionFree a b → SamePool a b := by
  have received : ∀ i seen a mine s, StartsSigning members i seen a → Signing params a mine →
      s ∈ a.regs → ∃ json, (i, .msg s json) ∈ seen ∧ ReadsView P json mine := by
    intro i seen a mine s starts signing registered
    obtain ⟨before, input, -, -, isParty, -⟩ := starts
    have found := signing.views s registered
    rw [isParty] at found
    obtain ⟨json, arrived, reads⟩ := (viewed_run members seen i).read s mine found
    exact ⟨json, mem_of_received_historyOf arrived, reads⟩
  constructor
  · intro i seen a _ starts
    obtain ⟨mine, signing⟩ := starts.signing
    exact ⟨signing.full, mine, signing.own, fun s registered =>
      received i seen a mine s starts signing registered⟩
  · intro i j seen seen' a b early early' starts starts' registered free
    obtain ⟨mine, signing⟩ := starts.signing
    obtain ⟨mine', signing'⟩ := starts'.signing
    obtain ⟨json, arrived, reads⟩ := received i seen a mine _ starts signing registered
    -- the view that `i` received is the one `j` ends with, and so is the one `j` signed under
    have final := myView_of_received distinct admissible (early.subset arrived) reads
    obtain ⟨_, _, -, -, rfl, -⟩ := starts
    obtain ⟨_, _, -, -, rfl, -⟩ := starts'
    have viewed := viewed_run members seen i
    have viewed' := viewed_run members seen' j
    have posted := historyOf_prefix early' j (viewed'.own mine' signing'.own)
    have final' := (viewed_run members events j).posted _ mine' posted
      (readsView_viewText.mpr rfl)
    have sameView : mine' = mine := Option.some.inj (final'.symm.trans final)
    subst sameView
    exact signing.samePool signing' (viewed.id.trans viewed'.id.symm) free

/-! ## Two pools under one id, and one pool -/

/-- Member `i` of the pool of three as an honest phone. -/
def honest (i : Nat) (ok : (Instance.joined i).isOk = true) :
    Joined Instance.primitives Instance.params where
  network := .regtest
  me := Instance.member i
  now := 0
  timeouts := ⟨60⟩
  attempt := Instance.start i
  posts := Instance.posts i
  joined := Instance.joined_eq ok
  refused := []
  deadline := 0

/-- The views and nonces of a pool as its members post them. -/
def signingInputs (members : List Nat) : List (Input Instance.primitives) :=
  Instance.viewsAndNonces members (Instance.viewText
    ((machine _).after (Instance.start (members.headD 0)) (Instance.untilView members)))

/-- Two honest members who never hear of each other. -/
def strangers : Fin 2 → Joined Instance.primitives Instance.params
  | 0 => honest 1 (by decide +kernel)
  | 1 => honest 4 (by decide +kernel)

/-- Each is shown two other sessions, different ones, and completes a pool with them. -/
def splitRun : List (Fin 2 × Input Instance.primitives) :=
  (Instance.untilView [1, 2, 3] ++ signingInputs [1, 2, 3]).map (fun input => (0, input)) ++
    (Instance.untilView [4, 5, 6] ++ signingInputs [4, 5, 6]).map (fun input => (1, input))

/-- Without the registration the agreement fails: both strangers reach the signing phase
of the pool with one set of parameters, under different view hashes and with different
fundings. -/
theorem strangers_sign_different_fundings :
    let net := (station Instance.primitives).run (pool strangers) splitRun
    (station Instance.primitives).Admissible (pool strangers) splitRun ∧
    (net.parties 0).phase = .signing ∧ (net.parties 1).phase = .signing ∧
    (net.parties 0).myView ≠ (net.parties 1).myView ∧
    (net.parties 0).built.map PoolTxs.funding ≠ (net.parties 1).built.map PoolTxs.funding := by
  decide +kernel

/-- Two honest members of one pool. -/
def pair : Fin 2 → Joined Instance.primitives Instance.params
  | 0 => honest 1 (by decide +kernel)
  | 1 => honest 2 (by decide +kernel)

/-- The nonces that are delivered last. -/
def lastNonces : Input Instance.primitives :=
  .msg 3 (.envelope (.nonces 0 [nonceHex 0, nonceHex 0]))

/-- Both build the pool, and the first one is shown the views and all other nonces. -/
def firstReady : List (Fin 2 × Input Instance.primitives) :=
  (Instance.untilView [1, 2, 3]).map (fun input => (0, input)) ++
    (Instance.untilView [1, 2, 3]).map (fun input => (1, input)) ++
    (signingInputs [1, 2, 3]).dropLast.map fun input => (0, input)

def firstSigns : List (Fin 2 × Input Instance.primitives) := firstReady ++ [(0, lastNonces)]

def secondReady : List (Fin 2 × Input Instance.primitives) :=
  firstSigns ++ (signingInputs [1, 2, 3]).dropLast.map fun input => (1, input)

def bothSign : List (Fin 2 × Input Instance.primitives) := secondReady ++ [(1, lastNonces)]

/-- The attempt of a member of the pair after some events. -/
def pairAfter (events : List (Fin 2 × Input Instance.primitives)) (i : Fin 2) :
    Attempt Instance.primitives :=
  ((station Instance.primitives).run (pool pair) events).parties i

theorem collisionFree_of_eq {a b : Attempt P}
    (views : (a.built.bind fun built => a.msgs.map (a.viewBytes built)) =
      b.built.bind fun built => b.msgs.map (b.viewBytes built))
    (fundings : a.built.map PoolTxs.funding = b.built.map PoolTxs.funding) :
    CollisionFree a b where
  view built msgs built' msgs' ownBuilt ownMsgs ownBuilt' ownMsgs' _ := by
    simpa [ownBuilt, ownMsgs, ownBuilt', ownMsgs'] using views
  txid built built' ownBuilt ownBuilt' _ _ _ := by
    simpa [ownBuilt, ownBuilt'] using fundings

theorem pair_decided :
    (station Instance.primitives).Admissible (pool pair) bothSign ∧
    (pairAfter firstReady 0).phase ≠ .signing ∧
    (pairAfter firstSigns 0).phase = .signing ∧
    (pairAfter secondReady 1).phase ≠ .signing ∧
    (pairAfter bothSign 1).phase = .signing ∧
    (pair 1).me.session ∈ (pairAfter firstSigns 0).regs ∧
    ((pairAfter firstSigns 0).built.bind fun built =>
      (pairAfter firstSigns 0).msgs.map ((pairAfter firstSigns 0).viewBytes built)) =
      ((pairAfter bothSign 1).built.bind fun built =>
        (pairAfter bothSign 1).msgs.map ((pairAfter bothSign 1).viewBytes built)) ∧
    (pairAfter firstSigns 0).built.map PoolTxs.funding =
      (pairAfter bothSign 1).built.map PoolTxs.funding := by
  decide +kernel

/-- The pair signs the same pool. -/
theorem signing_members_agree_pair :
    SamePool (pairAfter firstSigns 0) (pairAfter bothSign 1) := by
  obtain ⟨admissible, before, after, before', after', registered, views, fundings⟩ := pair_decided
  have distinct : Function.Injective fun i => (pair i).me.session := by decide
  have agree := signing_members_agree pair distinct bothSign admissible
  have early : firstSigns <+: bothSign := by
    rw [bothSign, secondReady, append_assoc]
    exact prefix_append _ _
  exact agree.2 0 1 firstSigns bothSign _ _ early (prefix_refl _)
    ⟨firstReady, lastNonces, rfl, before, rfl, after⟩
    ⟨secondReady, lastNonces, rfl, before', rfl, after'⟩ registered
    (collisionFree_of_eq views fundings)

end Lij.Tatara.Attempt
