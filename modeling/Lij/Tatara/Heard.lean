import Lij.Tatara.Moves

/-!
# What an answer of the machine means for the record

Seen from the phone, the machine's answer to one event is one of four: something
of the setup, a stop, the record to save, or the funding signature. `on_heard`
reads this off the moves, with what each of the four leaves untouched: the pool's
id, this phone's coins, the build once its record is given out, and the note that
the record is saved.
-/

namespace Lij.Tatara

open Bitcoin Joinstr Checked Reactive List

variable {P : Primitives}

/-- An action of the setup: no record, no stop and no funding signature. -/
def Action.Plain : Action P → Prop
  | .post json => P.kindOf json ≠ some .fundingSigs
  | .saveRecord _ => False
  | .fundingSigned => False
  | .stopped .. => False
  | _ => True

theorem Action.plain_post {msg : Msg} (other : msg.kind ≠ .fundingSigs) :
    (Tatara.post msg : Action P).Plain := by
  intro same
  rw [P.kindOf_envelopeJson, Option.some.injEq] at same
  exact other same

namespace Attempt

variable {input : Input P} {a b c : Attempt P} {acts : List (Action P)}

/-- What no event changes, and when the rest changes. -/
structure Carried (input : Input P) (a b : Attempt P) : Prop where
  id : b.id = a.id := by rfl
  session : b.me.session = a.me.session := by rfl
  coins : b.me.coins = a.me.coins := by rfl
  regs : a.phase ≠ .inputs → b.regs = a.regs := by exact fun _ => rfl
  built : rank a.phase = 5 ∨ rank a.phase = 6 → b.built = a.built := by exact fun _ => rfl
  saved : b.recordSaved = true →
    a.recordSaved = true ∨ input = .recordSaved ∧ a.phase = .funding := by exact .inl

theorem Carried.refl (input : Input P) (a : Attempt P) : Carried input a a := {}

theorem Carried.trans (first : Carried input a b) (phase : b.phase = a.phase)
    (second : Carried input b c) : Carried input a c where
  id := second.id.trans first.id
  session := second.session.trans first.session
  coins := second.coins.trans first.coins
  regs := fun late => (second.regs (phase ▸ late)).trans (first.regs late)
  built := fun late => (second.built (phase ▸ late)).trans (first.built late)
  saved := fun now => by
    obtain before | ⟨answer, funding⟩ := second.saved now
    · exact first.saved before
    · exact .inr ⟨answer, phase ▸ funding⟩

theorem Silent.carried (move : Silent input a b) : Carried input a b := by
  cases move with
  | registered _ _ _ _ phase =>
    exact { regs := fun late => absurd phase late }
  | builtDropped phase =>
    refine { built := fun late => ?_ }
    rw [phase] at late
    exact absurd late (by decide)
  | recordSaved answer phase =>
    exact { saved := fun _ => .inr ⟨answer, phase⟩ }
  | _ => exact {}

theorem carried_of_silent (moves : Relation.ReflTransGen (Silent input) a b) :
    Carried input a b := by
  induction moves with
  | refl => exact .refl input a
  | tail before move ih => exact ih.trans (phase_eq_of_silent before) move.carried

/-- Notes may drop the build and never make one. -/
theorem built_of_silent {built : PoolTxs} (moves : Relation.ReflTransGen (Silent input) a b)
    (isBuilt : b.built = some built) : a.built = some built := by
  induction moves with
  | refl => exact isBuilt
  | tail _ move ih =>
    apply ih
    cases move with
    | builtDropped => cases isBuilt
    | _ => exact isBuilt

/-- A stop posts and names, and nothing else. -/
theorem not_mem_stopActions {reason : String} {named : List SessionKey}
    {act : Action P} (notPost : ∀ json, act ≠ .post json)
    (notStop : ∀ reason named, act ≠ .stopped reason named) : act ∉ a.stopActions reason named := by
  intro member
  obtain abort | stop := mem_append.mp member
  · split at abort
    · exact notPost _ (mem_singleton.mp abort)
    · cases abort
  · exact notStop _ _ (mem_singleton.mp stop)

/-- The four kinds of answer. -/
inductive Heard (input : Input P) (a : Attempt P) : List (Action P) → Attempt P → Prop
  | setup {acts : List (Action P)} {b : Attempt P} (carried : Carried input a b)
      (plain : ∀ act ∈ acts, act.Plain)
      (phase : b.phase = a.phase ∨ rank a.phase < 5 ∧ rank b.phase < 5) : Heard input a acts b
  | stopped {b : Attempt P} (carried : Carried input a b) (live : a.Live) (reason : String)
      (named : List SessionKey) : Heard input a (b.stopActions reason named) b.stopped
  | recordGiven {b : Attempt P} (carried : Carried input a b) (before : a.phase = .signing)
      (after : b.phase = .funding) (built : PoolTxs) (isBuilt : b.built = some built)
      (unsigned : PoolTxs) (isUnsigned : a.built = some unsigned)
      (sameFunding : built.funding = unsigned.funding)
      (samePrevouts : built.fundingPrevouts = unsigned.fundingPrevouts) (payout : Script)
      (coins : List (OutPoint × TxOut))
      (ownCoins : coins = b.me.coins.map fun coin => (coin.1, coin.2.1)) :
      Heard input a [.saveRecord (b.record built payout), .checkCoins coins] b
  | funded {b : Attempt P} (carried : Carried input a b) (before : a.phase = .funding)
      (after : b.phase = .fundingSigned) (saved : b.recordSaved = true)
      (witnesses : List WitnessMsg) :
      Heard input a [post (.fundingSigs witnesses), .fundingSigned] b

theorem Emits.heard (move : Emits input a acts b) (live : a.Live) : Heard input a acts b := by
  have early : ∀ {p : Phase}, a.phase = p → rank p < 5 → rank a.phase < 5 :=
    fun phase low => phase ▸ low
  cases move with
  | nothing => exact .setup (.refl input a) (forall_mem_nil _) (.inl rfl)
  | clockStarted =>
    exact .setup {} (forall_mem_nil _) (.inl rfl)
  | stopped reason named => exact .stopped (.refl input a) live reason named
  | coinsAsked =>
    refine .setup {} ?_ (.inl rfl)
    exact forall_mem_singleton.mpr trivial
  | channelAsked phase =>
    refine .setup {} ?_
      (.inr ⟨early phase (by decide), show rank .channel < 5 by decide⟩)
    exact forall_mem_singleton.mpr trivial
  | payoutPosted json phase =>
    refine .setup {} ?_
      (.inr ⟨?_, show rank .payouts < 5 by decide⟩)
    · exact forall_mem_singleton.mpr trivial
    · exact phase.elim (early · (by decide)) (early · (by decide))
  | viewPosted checked secs pubs phase full passed =>
    refine .setup { built := fun late => ?_ } ?_
      (.inr ⟨early phase (by decide), show rank .view < 5 by decide⟩)
    · rw [phase] at late
      exact absurd late (by decide)
    · intro act member
      obtain posts | funds := mem_append.mp member
      · obtain view | nonces := mem_pair.mp posts
        · rw [view]
          intro same
          rw [P.kindOf_viewJson] at same
          cases same
        · rw [nonces]
          apply Action.plain_post
          rintro ⟨⟩
      · have spec := checkedBuild_spec passed
        by_cases channel : a.params.payoutType = .p2wsh
        · obtain ⟨txid, vout, isFund⟩ := spec.channel channel
          rw [isFund] at funds
          rw [mem_singleton.mp funds]
          trivial
        · rw [spec.onChain channel] at funds
          exact absurd funds not_mem_nil
  | signed mine psigs phase =>
    refine .setup {} ?_
      (.inr ⟨early phase (by decide), show rank .signing < 5 by decide⟩)
    refine forall_mem_singleton.mpr (Action.plain_post ?_)
    rintro ⟨⟩
  | recordGiven keys msgs signers sigs unsigned built payout coins phase _ _ _ _ ownBuilt attached
      ownCoins =>
      obtain ⟨_, _, same⟩ := attach_eq_ok attached
      have carried : Carried input a { a with built := some built, phase := .funding } := by
        refine { built := fun late => ?_ }
        rw [phase] at late
        exact absurd late (by decide)
      exact .recordGiven carried phase rfl built rfl unsigned ownBuilt (by rw [same])
        (by rw [same]) payout coins ownCoins
  | fundingPosted built witnesses phase ready =>
    have carried : Carried input a { a with phase := .fundingSigned } :=
      {}
    exact .funded carried phase rfl ready.1 witnesses

/-- Notes taken before the answer belong to it. -/
theorem Heard.of_silent (moves : Relation.ReflTransGen (Silent input) a b)
    (heard : Heard input b acts c) : Heard input a acts c := by
  have phase := phase_eq_of_silent moves
  have first := carried_of_silent moves
  cases heard with
  | setup carried plain phase' =>
    exact .setup (first.trans phase carried) plain (phase ▸ phase')
  | stopped carried live reason named =>
    exact .stopped (first.trans phase carried) (by rwa [Live, phase] at live) reason named
  | recordGiven carried before after built isBuilt unsigned isUnsigned sameFunding samePrevouts
      payout coins ownCoins =>
      exact .recordGiven (first.trans phase carried) (phase ▸ before) after built isBuilt unsigned
        (built_of_silent moves isUnsigned) sameFunding samePrevouts payout coins ownCoins
  | funded carried before after saved witnesses =>
    exact .funded (first.trans phase carried) (phase ▸ before) after saved witnesses

theorem on_heard (a : Attempt P) (input : Input P) :
    Heard input a (a.on input).1 (a.on input).2 := by
  by_cases halted : a.phase = .stopped ∨ a.phase = .fundingSigned
  · rw [on_halted halted]
    exact .setup (.refl input a) (forall_mem_nil _) (.inl rfl)
  · obtain ⟨middle, silent, emits⟩ := on_follows P a input
    have live : middle.Live := by
      rw [Live, phase_eq_of_silent silent]
      exact not_or.mp halted
    exact (Emits.heard emits live).of_silent silent

theorem carried_on (a : Attempt P) (input : Input P) : Carried input a (a.on input).2 := by
  have heard := on_heard a input
  generalize (a.on input).1 = acts at heard
  generalize (a.on input).2 = b at heard
  cases heard with
  | stopped carried => exact { carried with }
  | setup carried | recordGiven carried | funded carried => exact carried

/-! ## What a run never forgets -/

/-- Every entry of the first map stands unchanged in the second. -/
def Extends {α : Type} (map map' : Std.TreeMap SessionKey α) : Prop :=
  ∀ (s : SessionKey) v, map[s]? = some v → map'[s]? = some v

/-- A new key overwrites nothing. -/
theorem extends_insert {α : Type} {map : Std.TreeMap SessionKey α} {s : SessionKey} {v : α}
    (new : s ∉ map) : Extends map (map.insert s v) := by
  intro k w found
  rw [Maps.getElem?_insert, if_neg, found]
  rintro rfl
  exact new (Maps.mem_iff_exists_getElem?.mpr ⟨w, found⟩)

/-- What was noted first stays as it was, payouts are only added, and the phase goes forward. -/
structure Remembers (a b : Attempt P) : Prop where
  regs : Extends a.regs b.regs := by exact fun _ _ found => found
  views : Extends a.views b.views := by exact fun _ _ found => found
  nonces : Extends a.nonces b.nonces := by exact fun _ _ found => found
  psigs : Extends a.psigs b.psigs := by exact fun _ _ found => found
  payouts : a.payouts <+: b.payouts := by exact prefix_rfl
  phase : rank a.phase ≤ rank b.phase := by exact le_rfl

theorem Remembers.trans (first : Remembers a b) (second : Remembers b c) : Remembers a c where
  regs s r := second.regs s r ∘ first.regs s r
  views s v := second.views s v ∘ first.views s v
  nonces s n := second.nonces s n ∘ first.nonces s n
  psigs s n := second.psigs s n ∘ first.psigs s n
  payouts := first.payouts.trans second.payouts
  phase := first.phase.trans second.phase

theorem Silent.remembers (move : Silent input a b) : Remembers a b := by
  cases move with
  | registered _ _ _ _ _ new => exact { regs := extends_insert new }
  | viewNoted _ _ _ _ _ _ _ _ new => exact { views := extends_insert new }
  | noncesNoted _ _ _ _ _ new => exact { nonces := extends_insert new }
  | psigsNoted _ _ _ _ _ new => exact { psigs := extends_insert new }
  | payoutNoted => exact { payouts := prefix_append _ _ }
  | _ => exact {}

theorem Emits.remembers (move : Emits input a acts b) : Remembers a b := by
  cases move with
  | nothing | clockStarted | coinsAsked => exact {}
  | stopped =>
    refine { phase := ?_ }
    change rank a.phase ≤ 7
    cases a.phase <;> decide
  | payoutPosted _ phase =>
    refine { phase := ?_ }
    rcases phase with phase | phase <;> simp [phase, rank]
  | channelAsked phase | viewPosted _ _ _ phase | signed _ _ phase
  | recordGiven _ _ _ _ _ _ _ _ phase | fundingPosted _ _ phase =>
    exact { phase := by simp [phase, rank] }

/-- Whatever is sent, in any order and however often, what a member said first is never
overwritten or forgotten, no payout is dropped and no phase is gone back to. -/
theorem after_remembers (a : Attempt P) (inputs : List (Input P)) :
    Remembers a ((machine P).after a inputs) := by
  refine @Machine.Follows.invariant _ _ _ _ _ (on_follows P) (Remembers a) ?_ ?_ a {} inputs
  · exact fun _ _ _ before move => before.trans (Silent.remembers move)
  · exact fun _ _ _ _ before move => before.trans (Emits.remembers move)

end Attempt

end Lij.Tatara
