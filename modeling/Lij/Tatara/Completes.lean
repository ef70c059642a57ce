import Lij.Tatara.Closing
import Lij.Tatara.PhoneInstance
import Lij.Tatara.Turns

/-!
# A complete funding is signed by the coins' owners

The phone collects witnesses from untrusted events and puts them into the funding
its own machine gave out. `Kept` is the invariant that ties the two together: a
held witness was brought by a member for a coin that member registered and passed
the check of the funding's input that spends the coin. Every turn keeps it,
whatever the relay brings.
-/

namespace Lij.Tatara.Phone

open Bitcoin Joinstr Checked Fallible List

variable {P : Primitives} {W : Radio P} {p p' : Phone P}

/-! ## Witnesses -/

/-- The coin and the witness an entry of a message says. -/
structure Entry (w : WitnessMsg) (op : OutPoint) (items : List Bytes) : Prop where
  txid : parseTxid w.txid = .ok op.txid
  vout : w.vout = op.vout
  items : (w.witness.mapM fun h => Hex.decodeAnyBytes (Bytes.ofText h)) = some items

/-- The witness passes the check of the input that spends the coin. -/
def Verifies (W : Radio P) (p : Phone P) (tx : Transaction) (op : OutPoint) (items : List Bytes) :
    Prop :=
  ∃ idx, (tx.input.findIdx? fun i => i.previousOutput == op) = some idx ∧
    W.verifyInput tx idx p.fundingPrevouts items = .ok ()

theorem toBool_eq_true {result : Except String Unit} : result.toBool = true ↔ result = .ok () := by
  cases result with
  | ok u => exact ⟨fun _ => rfl, fun _ => rfl⟩
  | error e =>
    exact ⟨fun impossible => (by cases impossible), fun impossible => (by cases impossible)⟩

theorem acceptWitness_eq_some {tx : Transaction} {sender : SessionKey} {w : WitnessMsg}
    {op : OutPoint} {items : List Bytes} :
    p.acceptWitness W tx sender w = some (op, items) ↔
      Entry w op items ∧ p.machine.owns sender op = true ∧
        (items ≠ [] ∧ items.length ≤ 2 ∧ ∀ i ∈ items, i.length ≤ 80) ∧
        Verifies W p tx op items := by
  simp only [acceptWitness, Option.bind_eq_bind, Option.bind_eq_some_iff, Option.guard_eq_some',
    exists_const, toOption_eq_some, toBool_eq_true, Option.pure_def, Option.some.injEq,
    Prod.mk.injEq]
  constructor
  · rintro ⟨txid, parsed, owned, _, decoded, short, idx, found, verified, rfl, rfl⟩
    exact ⟨⟨parsed, rfl, decoded⟩, owned, short, idx, found, verified⟩
  · rintro ⟨⟨parsed, isVout, decoded⟩, owned, short, idx, found, verified⟩
    obtain ⟨txid, vout⟩ := op
    obtain rfl : w.vout = vout := isVout
    exact ⟨txid, parsed, owned, items, decoded, short, idx, found, verified, rfl, rfl⟩

theorem collectWitnesses_cases (p : Phone P) (sender : SessionKey) (json : P.Text) :
    p.collectWitnesses W sender json = p ∨ ∃ witnesses tx,
      P.parseStrict json = .ok (.fundingSigs witnesses) ∧ p.funding = some tx ∧
      p.collectWitnesses W sender json = { p with
        witnesses := (witnesses.filterMap (p.acceptWitness W tx sender)).foldl
          (fun held w => held.insert w.1 w.2) p.witnesses } := by
  rw [collectWitnesses]
  split
  · rename_i witnesses tx parsed isFunding
    split
    · exact .inl rfl
    · exact .inr ⟨witnesses, tx, parsed, isFunding, rfl⟩
  · exact .inl rfl

/-- A message changes the witness of a coin only for the session that registered it. -/
theorem witness_collected (p : Phone P) (sender : SessionKey) (json : P.Text) (op : OutPoint) :
    (p.collectWitnesses W sender json).witnesses[op]? = p.witnesses[op]? ∨
      ∃ tx witnesses w items, p.funding = some tx ∧
        P.parseStrict json = .ok (.fundingSigs witnesses) ∧ w ∈ witnesses ∧
        (p.collectWitnesses W sender json).witnesses[op]? = some items ∧ Entry w op items ∧
        p.machine.owns sender op = true ∧ Verifies W p tx op items := by
  obtain same | ⟨witnesses, tx, parsed, isFunding, same⟩ := collectWitnesses_cases p sender json
  · rw [same]
    exact .inl rfl
  · rw [same]
    obtain ⟨items, member, found⟩ | ⟨_, kept⟩ := Maps.getElem?_foldl_insert
      (witnesses.filterMap (p.acceptWitness W tx sender)) p.witnesses op
    · obtain ⟨w, inside, accepted⟩ := mem_filterMap.mp member
      obtain ⟨entry, owned, _, verifies⟩ := acceptWitness_eq_some.mp accepted
      exact .inr ⟨tx, witnesses, w, items, isFunding, parsed, inside, found, entry, owned, verifies⟩
    · exact .inl kept

/-! ## The invariant -/

/-- The turn brings this witness for the coin in a message of the sender. -/
def Brings (W : Radio P) (now : Nat) (p : Phone P) (t : Turn) (sender : SessionKey) (op : OutPoint)
    (items : List Bytes) : Prop :=
  ∃ json witnesses w, machineInput W now p t = some (.msg sender json) ∧
    P.parseStrict json = .ok (.fundingSigs witnesses) ∧ w ∈ witnesses ∧ Entry w op items

/-- Some turn of the run brought it. -/
def Brought (W : Radio P) (history : List (Played P)) (sender : SessionKey) (op : OutPoint)
    (items : List Bytes) : Prop :=
  ∃ x ∈ history, Brings W x.now x.before x.turn sender op items

/-- The funding this phone was given spends the registered coins, each once. -/
structure Funded (p : Phone P) (tx : Transaction) : Prop where
  late : 5 ≤ Attempt.rank p.machine.phase
  coins : (tx.input.map TxIn.previousOutput).Perm p.machine.coins
  once : p.machine.coins.Nodup
  prevouts : p.fundingPrevouts.length = tx.input.length

/-- A held witness is its owner's and passes the check of the input that spends the coin. -/
def Owned (W : Radio P) (brought : SessionKey → OutPoint → List Bytes → Prop) (p : Phone P)
    (tx : Transaction) (op : OutPoint) (items : List Bytes) : Prop :=
  ∃ sender, p.machine.owns sender op = true ∧ Verifies W p tx op items ∧ brought sender op items

structure Kept (W : Radio P) (brought : SessionKey → OutPoint → List Bytes → Prop) (p : Phone P) :
    Prop where
  settled : p.machine.Settled
  early : Attempt.rank p.machine.phase < 5 → p.funding = none
  unfunded : p.funding = none → ∀ op : OutPoint, p.witnesses[op]? = none
  funded : ∀ tx, p.funding = some tx → p.Funded tx
  held : ∀ tx, p.funding = some tx → ∀ (op : OutPoint) items, p.witnesses[op]? = some items →
    Owned W brought p tx op items
  signed : p.signed = true → p.machine.phase = .fundingSigned

variable {brought brought' : SessionKey → OutPoint → List Bytes → Prop}

theorem Kept.mono (kept : Kept W brought p)
    (more : ∀ sender op items, brought sender op items → brought' sender op items) :
    Kept W brought' p where
  __ := kept
  held := fun tx isFunding op items found => by
    obtain ⟨sender, owned, verifies, was⟩ := kept.held tx isFunding op items found
    exact ⟨sender, owned, verifies, more sender op items was⟩

/-- Fields apart from the machine's, the funding's and the witnesses' do not matter. -/
theorem Kept.congr (kept : Kept W brought p) (machine : p'.machine = p.machine := by rfl)
    (funding : p'.funding = p.funding := by rfl)
    (prevouts : p'.fundingPrevouts = p.fundingPrevouts := by rfl)
    (witnesses : p'.witnesses = p.witnesses := by rfl)
    (signed : p'.signed = p.signed := by rfl) : Kept W brought p' := by
  refine ⟨machine ▸ kept.settled, ?_, ?_, fun tx isFunding => ?_,
    fun tx isFunding op items found => ?_,
    ?_⟩
  · rw [machine, funding]
    exact kept.early
  · rw [funding, witnesses]
    exact kept.unfunded
  · obtain ⟨late, coins, once, length⟩ := kept.funded tx (funding ▸ isFunding)
    rw [← machine] at late coins once
    rw [← prevouts] at length
    exact ⟨late, coins, once, length⟩
  · rw [witnesses] at found
    obtain ⟨sender, owned, ⟨idx, place, verified⟩, was⟩ :=
      kept.held tx (funding ▸ isFunding) op items found
    rw [← machine] at owned
    rw [← prevouts] at verified
    exact ⟨sender, owned, ⟨idx, place, verified⟩, was⟩
  · rw [signed, machine]
    exact kept.signed

theorem Kept.collected (kept : Kept W brought p) {sender : SessionKey} {json : P.Text}
    (brings : ∀ witnesses w op items, P.parseStrict json = .ok (.fundingSigs witnesses) →
      w ∈ witnesses → Entry w op items → brought sender op items) :
    Kept W brought (p.collectWitnesses W sender json) := by
  obtain same | ⟨witnesses, tx, _, isFunding, same⟩ := collectWitnesses_cases (W := W) p sender json
  · rw [same]
    exact kept
  · have collected : ∀ (op : OutPoint) items,
        (p.collectWitnesses W sender json).witnesses[op]? = some items →
        Owned W brought p tx op items := by
      intro op items found
      obtain unchanged | ⟨tx', witnesses, w, items', isFunding', parsed, member, new, entry, owned,
        verifies⟩ := witness_collected (W := W) p sender json op
      · exact kept.held tx isFunding op items (unchanged.symm.trans found)
      · cases new.symm.trans found
        cases isFunding.symm.trans isFunding'
        exact ⟨sender, owned, verifies, brings witnesses w op items parsed member entry⟩
    rw [same] at collected ⊢
    exact
      { settled := kept.settled
        early := kept.early
        unfunded := fun unfunded => by cases unfunded.symm.trans isFunding
        funded := fun tx' isFunding' => by
          obtain ⟨late, coins, once, length⟩ := kept.funded tx' isFunding'
          exact ⟨late, coins, once, length⟩
        held := fun tx' isFunding' op items found => by
          cases isFunding.symm.trans isFunding'
          exact collected op items found
        signed := kept.signed }

theorem coins_congr {a b : Attempt P} (regs : b.regs = a.regs) : b.coins = a.coins := by
  rw [Attempt.coins, Attempt.registrations, regs, Attempt.coins, Attempt.registrations]

theorem owns_congr {a b : Attempt P} (regs : b.regs = a.regs) (sender : SessionKey)
    (op : OutPoint) : b.owns sender op = a.owns sender op := by
  rw [Attempt.owns, regs, Attempt.owns]

/-- The machine moved on without giving a record out. -/
theorem Kept.moved {b : Attempt P} {acts : List (Action P)} (kept : Kept W brought p)
    (settled : b.Settled) (acted : Acted acts { p with machine := b } p')
    (noRecord : ∀ rec, .saveRecord rec ∉ acts)
    (regs : p.machine.phase ≠ .inputs → b.regs = p.machine.regs)
    (forward : Attempt.rank b.phase < 5 → Attempt.rank p.machine.phase < 5)
    (signed : p'.signed = true → b.phase = .fundingSigned) : Kept W brought p' := by
  have machine : p'.machine = b := acted.machine
  have witnesses : p'.witnesses = p.witnesses := acted.witnesses
  obtain ⟨funding, prevouts⟩ : p'.funding = p.funding ∧ p'.fundingPrevouts = p.fundingPrevouts := by
    obtain ⟨funding, prevouts, _⟩ | ⟨rec, member, _⟩ := acted.funding
    · exact ⟨funding, prevouts⟩
    · exact absurd member (noRecord rec)
  -- Once there is a funding, the registrations are those it was built from.
  have closed : ∀ tx, p.funding = some tx → b.regs = p.machine.regs := by
    intro tx isFunding
    refine regs fun inputs => ?_
    have late := (kept.funded tx isFunding).late
    rw [inputs] at late
    exact absurd late (by decide)
  refine ⟨machine ▸ settled, ?_, ?_, fun tx isFunding => ?_,
    fun tx isFunding op items found => ?_, ?_⟩
  · rw [machine, funding]
    exact fun low => kept.early (forward low)
  · rw [funding, witnesses]
    exact kept.unfunded
  · rw [funding] at isFunding
    obtain ⟨late, coins, once, length⟩ := kept.funded tx isFunding
    have same := coins_congr (closed tx isFunding)
    refine ⟨?_, ?_, ?_, prevouts ▸ length⟩
    · rw [machine]
      exact Nat.not_lt.mp fun low => absurd (forward low) (Nat.not_lt.mpr late)
    · rw [machine, same]
      exact coins
    · rw [machine, same]
      exact once
  · rw [funding] at isFunding
    rw [witnesses] at found
    obtain ⟨sender, owned, ⟨idx, place, verified⟩, was⟩ := kept.held tx isFunding op items found
    refine ⟨sender, ?_, ⟨idx, place, prevouts ▸ verified⟩, was⟩
    rw [machine, owns_congr (closed tx isFunding)]
    exact owned
  · rw [machine]
    exact signed

/-- The record is given out: its funding is the build's, and no witness is held yet. -/
theorem Kept.recorded {b : Attempt P} {built : PoolTxs} {acts : List (Action P)}
    (kept : Kept W brought p) (payout : Script) (settled : b.Settled)
    (acted : Acted acts { p with machine := b } p')
    (record : ∀ rec, .saveRecord rec ∈ acts → rec = b.record built payout)
    (before : p.machine.phase = .signing) (after : b.phase = .funding)
    (isBuilt : b.built = some built) (notSigned : .fundingSigned ∉ acts) : Kept W brought p' := by
  have machine : p'.machine = b := acted.machine
  have unfunded : p.funding = none := kept.early (by rw [before]; decide)
  have unheld : ∀ op : OutPoint, p'.witnesses[op]? = none := by
    rw [acted.witnesses]
    exact kept.unfunded unfunded
  have unsigned : p'.signed ≠ true := fun now => by
    obtain was | inside := acted.signed now
    · rw [kept.signed was] at before
      cases before
    · exact notSigned inside
  refine ⟨machine ▸ settled, fun low => ?_, fun _ => unheld, fun tx isFunding => ?_,
    fun tx _ op items found => ?_, fun now => absurd now unsigned⟩
  · rw [machine, after] at low
    exact absurd low (by decide)
  · obtain ⟨same, _⟩ | ⟨rec, member, isRecord, prevouts, _⟩ := acted.funding
    · have none : p'.funding = none := same.trans unfunded
      cases none.symm.trans isFunding
    · rw [record rec member] at isRecord prevouts
      cases isRecord.symm.trans isFunding
      obtain ⟨coins, once, length⟩ := settled.spends built isBuilt
      refine ⟨?_, ?_, ?_, ?_⟩
      · rw [machine, after]
        decide
      · rw [machine]
        exact coins
      · rw [machine]
        exact once
      · rw [prevouts]
        exact length
  · cases (unheld op).symm.trans found

theorem Kept.acted (rules : PoolRules P) (kept : Kept W brought p) {input : Input P}
    (acted : Acted (p.machine.on input).1 { p with machine := (p.machine.on input).2 } p') :
    Kept W brought p' := by
  have settled := kept.settled.on rules input
  have heard := Attempt.on_heard p.machine input
  generalize (p.machine.on input).1 = acts at acted heard
  generalize (p.machine.on input).2 = b at acted heard settled
  cases heard with
  | setup carried plain phase =>
    refine kept.moved settled acted (fun rec member => plain _ member) carried.regs
      (fun low => ?_) fun now => ?_
    · obtain same | ⟨low, _⟩ := phase
      · rwa [same] at low
      · exact low
    · obtain was | inside := acted.signed now
      · have signed := kept.signed was
        obtain same | ⟨low, _⟩ := phase
        · exact same.trans signed
        · rw [signed] at low
          exact absurd low (by decide)
      · exact absurd inside fun inside => plain _ inside
  | stopped carried live reason named =>
    refine kept.moved settled acted
      (fun rec => Attempt.not_mem_stopActions (fun _ => by rintro ⟨⟩) fun _ _ => by rintro ⟨⟩)
      carried.regs (fun low => ?_) fun now => ?_
    · exact absurd low (show ¬Attempt.rank .stopped < 5 by decide)
    · obtain was | inside := acted.signed now
      · exact absurd (kept.signed was) live.2
      · exact absurd inside
          (Attempt.not_mem_stopActions (fun _ => by rintro ⟨⟩) fun _ _ => by rintro ⟨⟩)
  | recordGiven carried before after built isBuilt _ _ _ _ payout coins =>
    refine kept.recorded payout settled acted (fun rec member => ?_) before after isBuilt ?_
    · obtain same | other := mem_pair.mp member
      · exact Action.saveRecord.inj same
      · cases other
    · simp
  | funded carried before after =>
    refine kept.moved settled acted (fun rec member => ?_) carried.regs (fun low => ?_)
      fun _ => after
    · obtain same | other := mem_pair.mp member
      · cases same
      · cases other
    · rw [after] at low
      exact absurd low (by decide)

/-! ## Turns -/

variable {t : Turn} {now : Nat} {complete : Option Complete}

/-- What a turn does to the witnesses and to the completion. -/
structure TurnKeeps (W : Radio P) (brought : SessionKey → OutPoint → List Bytes → Prop)
    (p : Phone P) (t : Turn) (now : Nat) (complete : Option Complete) (p' : Phone P) : Prop where
  kept : Kept W brought p'
  changes : ∀ op : OutPoint, p'.witnesses[op]? ≠ p.witnesses[op]? → ∃ sender json,
    machineInput W now p t = some (.msg sender json) ∧ p.machine.owns sender op = true
  given : (complete = none ∧ p'.completeGiven = p.completeGiven) ∨
    ∃ tx, complete = some ⟨tx, p'.exits⟩ ∧ p.completeGiven = false ∧ p'.completeGiven = true ∧
      p'.signed = true ∧ p'.signedFunding = some tx

theorem onMachine_keeps {q : Phone P} {input : Input P} (rules : PoolRules P)
    (kept : Kept W brought q) (given : q.completeGiven = p.completeGiven)
    (changes : ∀ op : OutPoint, q.witnesses[op]? ≠ p.witnesses[op]? → ∃ sender json,
      machineInput W now p t = some (.msg sender json) ∧ p.machine.owns sender op = true) :
    Ends (onMachine W input now) q
      (fun out p' => out.complete = none ∧ TurnKeeps W brought p t now none p')
      (TurnKeeps W brought p t now none) := by
  have keeps : ∀ p', Acted (q.machine.on input).1 { q with machine := (q.machine.on input).2 } p' →
      TurnKeeps W brought p t now none p' := by
    intro p' acted
    refine ⟨kept.acted rules acted, fun op changed => changes op ?_,
      .inl ⟨rfl, acted.completeGiven.trans given⟩⟩
    rwa [acted.witnesses] at changed
  exact onMachine_spec.mono (fun out p' both => ⟨both.2.complete, keeps p' both.1⟩) keeps

theorem turn_keeps (rules : PoolRules P) (kept : Kept W brought p)
    (brings : ∀ sender op items, Brings W now p t sender op items → brought sender op items) :
    Ends (turn W now t) p (fun out => TurnKeeps W brought p t now out.complete)
      (TurnKeeps W brought p t now none) := by
  obtain ⟨seen, isReceived⟩ := received_eq (W := W) p t
  -- A phone that differs from `p` neither in the machine nor in what was collected.
  have still : ∀ {q : Phone P}, Kept W brought q → q.witnesses = p.witnesses →
      q.completeGiven = p.completeGiven → TurnKeeps W brought p t now none q := by
    intro q keptQ witnesses given
    exact ⟨keptQ, fun op changed => absurd (by rw [witnesses]) changed, .inl ⟨rfl, given⟩⟩
  have fed : ∀ {q : Phone P} {input : Input P}, Kept W brought q → q.witnesses = p.witnesses →
      q.completeGiven = p.completeGiven → Ends (onMachine W input now) q
        (fun out => TurnKeeps W brought p t now out.complete)
        (TurnKeeps W brought p t now none) := by
    intro q input keptQ witnesses given
    have ends : Ends (onMachine W input now) q _ _ := onMachine_keeps (t := t) rules keptQ given
      fun op changed => absurd (by rw [witnesses]) changed
    exact ends.mono (fun out p' both => both.1 ▸ both.2) fun _ keeps => keeps
  refine turn_ends
    { idle := fun _ _ n joiners out quiet => ?_
      gaveUp := fun _ _ n joiners => ?_
      heard := fun sender json isInput _ => ?_
      noted := fun op ok out _ _ quiet => ?_
      checked := fun op ok bad unanswered _ _ _ _ _ => ?_
      saved := fun _ => ?_
      plain := fun input _ _ _ => fed kept rfl rfl }
  · rw [isReceived, quiet]
    exact still kept.congr rfl rfl
  · rw [isReceived]
    exact still kept.congr rfl rfl
  · rw [isReceived]
    have keptQ : Kept W brought ({ p with seen }.collectWitnesses W sender json) := by
      refine (kept.congr : Kept W brought { p with seen }).collected ?_
      intro witnesses w op items parsed member entry
      exact brings sender op items ⟨json, witnesses, w, isInput, parsed, member, entry⟩
    have given : ({ p with seen }.collectWitnesses W sender json).completeGiven =
        p.completeGiven := by
      obtain ⟨_, collected⟩ := collectWitnesses_eq (W := W) { p with seen } sender json
      rw [collected]
    refine hear_cases (onMachine_keeps (t := t) rules keptQ given fun op changed => ?_)
      (fun out p' both _ => both.1 ▸ both.2) fun out p' tx both notGiven isSigned isFunding => ?_
    · obtain unchanged | ⟨_, _, _, _, _, _, _, _, _, owned, _⟩ :=
        witness_collected (W := W) { p with seen } sender json op
      · exact absurd unchanged changed
      · exact ⟨sender, json, isInput, owned⟩
    · obtain ⟨_, keptP, changes, given'⟩ := both
      have sameGiven : p'.completeGiven = p.completeGiven := by
        obtain ⟨_, same⟩ | ⟨_, impossible, _⟩ := given'
        · exact same
        · cases impossible
      refine ⟨keptP.congr, changes, .inr ⟨tx, rfl, ?_, rfl, isSigned, isFunding⟩⟩
      exact sameGiven ▸ notGiven
  · rw [quiet]
    exact still kept.congr rfl rfl
  · exact fed kept.congr rfl rfl
  · exact fed kept.congr rfl rfl

/-! ## Completion -/

/-- The signed funding is the phone's funding with the held witnesses. -/
theorem signedFunding_eq_some {tx' : Transaction} (isSigned : p.signedFunding = some tx') :
    ∃ tx, p.funding = some tx ∧ tx' = { tx with input := tx'.input } ∧
      List.Forall₂ (fun i i' => i'.previousOutput = i.previousOutput ∧
        p.witnesses[i.previousOutput]? = some i'.witness) tx.input tx'.input := by
  obtain ⟨tx, isFunding, rest⟩ := Option.bind_eq_some_iff.mp isSigned
  obtain ⟨input, signs, same⟩ := Option.bind_eq_some_iff.mp rest
  cases same
  refine ⟨tx, isFunding, rfl, (mapM_eq_some.mp signs).imp fun i i' signed => ?_⟩
  obtain ⟨w, found, rfl⟩ := Option.map_eq_some_iff.mp signed
  exact ⟨rfl, found⟩

theorem findIdx?_eq_of_nodup {tx : Transaction} {op : OutPoint} {idx k : Nat} {i : TxIn}
    (once : (tx.input.map TxIn.previousOutput).Nodup)
    (found : (tx.input.findIdx? fun i => i.previousOutput == op) = some idx)
    (place : tx.input[k]? = some i) (same : i.previousOutput = op) : idx = k := by
  obtain ⟨inside, isOp, _⟩ := findIdx?_eq_some_iff_getElem.mp found
  obtain ⟨inside', rfl⟩ := List.getElem?_eq_some_iff.mp place
  have atIdx : idx < (tx.input.map TxIn.previousOutput).length := by rwa [length_map]
  have atK : k < (tx.input.map TxIn.previousOutput).length := by rwa [length_map]
  have equal : (tx.input.map TxIn.previousOutput)[idx] = (tx.input.map TxIn.previousOutput)[k] := by
    rw [getElem_map, getElem_map, eq_of_beq isOp, same]
  exact once.getElem_inj_iff.mp equal

/-- The phone that gave the complete funding out has signed, and each input carries a witness
that passes that input's check and that the session which registered the coin sent. -/
structure Completed (W : Radio P) (history : List (Played P)) (p : Phone P) (c : Complete) :
    Prop where
  signed : p.signed = true ∧ p.machine.phase = .fundingSigned
  inputs : ∃ tx, p.funding = some tx ∧ c.fundingHex = { tx with input := c.fundingHex.input } ∧
    c.fundingHex.input.map TxIn.previousOutput = tx.input.map TxIn.previousOutput ∧
    ∀ k i, c.fundingHex.input[k]? = some i → ∃ sender,
      p.machine.owns sender i.previousOutput = true ∧
      W.verifyInput tx k p.fundingPrevouts i.witness = .ok () ∧
      Brought W history sender i.previousOutput i.witness

variable {history : List (Played P)}

theorem Kept.completed {tx' : Transaction} {exits : List Transaction}
    (kept : Kept W (Brought W history) p) (signed : p.signed = true)
    (isSigned : p.signedFunding = some tx') : Completed W history p ⟨tx', exits⟩ := by
  obtain ⟨tx, isFunding, sameRest, each⟩ := signedFunding_eq_some isSigned
  obtain ⟨_, coins, once, _⟩ := kept.funded tx isFunding
  have distinct : (tx.input.map TxIn.previousOutput).Nodup := coins.nodup_iff.mpr once
  have sameCoins : tx'.input.map TxIn.previousOutput = tx.input.map TxIn.previousOutput := by
    have points : List.Forall₂ (fun i i' => TxIn.previousOutput i' = TxIn.previousOutput i)
        tx.input tx'.input := each.imp fun _ _ both => both.1
    rw [← forall₂_eq_eq_eq, forall₂_map_left_iff, forall₂_map_right_iff]
    exact points.flip
  refine ⟨⟨signed, kept.signed signed⟩, tx, isFunding, sameRest, sameCoins, fun k i' place => ?_⟩
  obtain ⟨inside', rfl⟩ := List.getElem?_eq_some_iff.mp place
  have inside : k < tx.input.length := each.length_eq ▸ inside'
  obtain ⟨samePoint, found⟩ := each.get inside inside'
  obtain ⟨sender, owned, ⟨idx, isPlace, verified⟩, was⟩ := kept.held tx isFunding _ _ found
  have isIdx : idx = k := findIdx?_eq_of_nodup distinct isPlace
    (getElem?_eq_getElem inside) rfl
  subst isIdx
  have owned' : p.machine.owns sender (tx'.input.get ⟨idx, inside'⟩).previousOutput = true :=
    samePoint ▸ owned
  exact ⟨sender, owned', verified, samePoint ▸ was⟩

/-- What holds of a run. -/
structure RunKeeps (W : Radio P) (history : List (Played P)) (p : Phone P) : Prop where
  kept : Kept W (Brought W history) p
  given : (history.filter fun x => x.complete.isSome).length = if p.completeGiven then 1 else 0
  completed : ∀ earlier x c, earlier ++ [x] <+: history → x.complete = some c →
    Completed W (earlier ++ [x]) x.after c
  changes : ∀ x ∈ history, ∀ op : OutPoint, x.after.witnesses[op]? ≠ x.before.witnesses[op]? →
    ∃ sender json, machineInput W x.now x.before x.turn = some (.msg sender json) ∧
      x.before.machine.owns sender op = true

theorem Brought.append {sender : SessionKey} {op : OutPoint} {items : List Bytes}
    (was : Brought W history sender op items) (x : Played P) :
    Brought W (history ++ [x]) sender op items := by
  obtain ⟨y, member, brings⟩ := was
  exact ⟨y, mem_append_left _ member, brings⟩

theorem RunKeeps.play (rules : PoolRules P) (keeps : RunKeeps W history p) (t : Turn) (now : Nat) :
    RunKeeps W (history ++ [play W p t now]) (play W p t now).after := by
  have kept : Kept W (Brought W (history ++ [Phone.play W p t now])) p :=
    keeps.kept.mono fun sender op items was => was.append _
  have ends := turn_keeps (t := t) (W := W) rules kept fun sender op items brings =>
    ⟨Phone.play W p t now, mem_append_right _ mem_cons_self, brings⟩
  have after : TurnKeeps W (Brought W (history ++ [Phone.play W p t now])) p t now
      (Phone.play W p t now).complete (Phone.play W p t now).after :=
    play_ends (Q := fun result p' => TurnKeeps W (Brought W (history ++ [Phone.play W p t now])) p t
      now (result.toOption.bind Out.complete) p') (ends.mono (fun _ _ holds => holds)
        fun _ holds _ => holds)
  refine ⟨after.kept, ?_, fun earlier x c inside isComplete => ?_, fun x member op changed => ?_⟩
  · rw [filter_append, length_append, keeps.given]
    obtain ⟨none, same⟩ | ⟨tx, some, before, now, _⟩ := after.given
    · rw [same, filter_singleton, none]
      rfl
    · rw [before, now, filter_singleton, some]
      rfl
  · obtain whole | before := prefix_concat_iff.mp inside
    · obtain ⟨rfl, same⟩ := append_inj' whole rfl
      cases same
      obtain ⟨none, _⟩ | ⟨tx, some, _, _, signed, isSigned⟩ := after.given
      · cases none.symm.trans isComplete
      · cases some.symm.trans isComplete
        exact after.kept.completed signed isSigned
    · exact keeps.completed earlier x c before isComplete
  · obtain before | last := mem_append.mp member
    · exact keeps.changes x before op changed
    · cases mem_singleton.mp last
      exact after.changes op changed

theorem kept_begun {params : Params} (begun : Begun W params p) : Kept W brought p where
  settled :=
    { full := fun asked => by rw [begun.unasked] at asked; cases asked
      member := fun asked => by rw [begun.unasked] at asked; cases asked
      checked := fun asked => by rw [begun.unasked] at asked; cases asked
      asked := fun late => by rw [begun.phase] at late; exact absurd late (by decide)
      unbuilt := fun _ => begun.unbuilt
      spends := fun built isBuilt => by cases begun.unbuilt.symm.trans isBuilt }
  early := fun _ => begun.unfunded
  unfunded := fun _ op => by rw [begun.unheld]; exact Std.TreeMap.getElem?_emptyc
  funded := fun tx isFunding => by cases begun.unfunded.symm.trans isFunding
  held := fun tx isFunding => by cases begun.unfunded.symm.trans isFunding
  signed := fun signed => by cases begun.unsigned.symm.trans signed

theorem runKeeps_of_plays (rules : PoolRules P) {params : Params} {first : Phone P}
    (begun : Begun W params first) (plays : Plays W first history p) : RunKeeps W history p := by
  refine plays.invariant ⟨kept_begun begun, ?_, fun earlier x c inside => ?_, ?_⟩
    fun history p t now keeps => keeps.play rules t now
  · rw [begun.incomplete]
    rfl
  · exact absurd (prefix_nil.mp inside) (append_ne_nil_of_right_ne_nil _ (by simp))
  · exact forall_mem_nil _

/-- A complete funding is really complete. In every run of a phone the page is given a complete
funding at most once, after this phone signed; each input of it then carries a witness that
passed that input's check and came in a message of the session which registered the coin. And no
turn changes a held witness but a message of the session that registered its coin. -/
theorem complete_signed_by_owners (rules : PoolRules P) {c : Common} {params : Params}
    {timeout : Nat} {poolSk : SecretKey} {first : Phone P} {out : Out} {creator : Bool}
    {history : List (Played P)} (started : start W c params timeout poolSk = .ok (first, out))
    (plays : Plays W { first with creator } history p) :
    (history.filter fun x => x.complete.isSome).length ≤ 1 ∧
    (∀ earlier x c, earlier ++ [x] <+: history → x.complete = some c →
      Completed W (earlier ++ [x]) x.after c) ∧
    ∀ x ∈ history, ∀ op : OutPoint, x.after.witnesses[op]? ≠ x.before.witnesses[op]? →
      ∃ sender json, machineInput W x.now x.before x.turn = some (.msg sender json) ∧
        x.before.machine.owns sender op = true := by
  have begun : Begun W params { first with creator } := { start_begun started with }
  have keeps := runKeeps_of_plays rules begun plays
  refine ⟨?_, keeps.completed, keeps.changes⟩
  rw [keeps.given]
  split <;> decide

section Sample

open PhoneInstance

theorem poolRules_joinstr : PoolRules joinstr := poolRules_of_joinstr rfl rfl

/-- The relay then brings every member's funding signature. -/
def completeTurns : List (Turn × Nat) :=
  signingTurns ++ [relay 1 15, relay 2 16, relay 3 17].map fun c => (.call c, 1)

def poolRun : List (Played joinstr) × Phone joinstr := playAll poolRadio poolPhone.1 completeTurns

theorem plays_poolRun : Plays poolRadio { poolPhone.1 with creator := poolPhone.1.creator }
    poolRun.1 poolRun.2 :=
  plays_playAll poolPhone.1 completeTurns

/-- Phone 1's pool completes with the last signature. -/
theorem complete_signed_by_owners_three :
    (poolRun.1.filter fun x => x.complete.isSome).length ≤ 1 ∧
    ∃ earlier x c, earlier ++ [x] = poolRun.1 ∧ x.complete = some c ∧
      Completed poolRadio (earlier ++ [x]) x.after c := by
  have last : (poolRun.1.getLast?.bind Played.complete).isSome = true := by decide +kernel
  obtain ⟨c, found⟩ := Option.isSome_iff_exists.mp last
  obtain ⟨x, isLast, isComplete⟩ := Option.bind_eq_some_iff.mp found
  obtain ⟨earlier, whole⟩ := getLast?_eq_some_iff.mp isLast
  obtain ⟨once, completed, _⟩ :=
    complete_signed_by_owners poolRules_joinstr started_poolPhone plays_poolRun
  refine ⟨once, earlier, x, c, whole.symm, isComplete, ?_⟩
  exact completed earlier x c (whole ▸ prefix_refl _) isComplete

end Sample

end Lij.Tatara.Phone
