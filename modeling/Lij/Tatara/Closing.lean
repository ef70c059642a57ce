import Lij.Joinstr.Pool
import Lij.Tatara.Heard
import Lij.Tatara.Views

/-!
# Registration closes before anything is built

The coins are asked for once every registration is in and joinstr's check passed
over all of them; from then on no registration changes. A build that follows
spends exactly the registered coins, each once. `Settled` is the invariant, kept
by every move of the machine.
-/

namespace Lij.Tatara

open Bitcoin Joinstr Checked Reactive List

variable {P : Primitives}

/-- What is used of joinstr's pool rules: a pool that passes its check has no coin twice, and
a build lists one coin for each input of its funding. -/
structure PoolRules (P : Primitives) : Prop where
  apart : ∀ {params regs}, P.checkInputRegistrations params regs = .ok () →
    (regs.flatMap fun r => r.inputs.map Prod.fst).Nodup
  prevouts : ∀ {params regs payouts keys built}, P.build params regs payouts keys = .ok built →
    built.fundingPrevouts.length = built.funding.input.length

/-- What the check collects from the registrations one by one is collected once: `own` is what
a registration brings and `collected` what was seen of it before. -/
theorem nodup_of_apart {α : Type} {own : InputRegistration → List α}
    {collected : Pool.Seen → List α}
    (fresh : ∀ {seen r}, Pool.Fresh seen r → (own r).Nodup ∧ ∀ x ∈ own r, x ∉ collected seen)
    (pushed : ∀ {seen r x}, x ∈ collected (seen.push r) ↔ x ∈ own r ∨ x ∈ collected seen)
    {seen : Pool.Seen} {regs : List InputRegistration} (apart : Pool.Apart seen regs) :
    (regs.flatMap own).Nodup ∧ ∀ x ∈ regs.flatMap own, x ∉ collected seen := by
  induction regs generalizing seen with
  | nil => exact ⟨.nil, forall_mem_nil _⟩
  | cons r regs ih =>
    obtain ⟨first, rest⟩ := apart
    obtain ⟨others, unseen⟩ := ih rest
    obtain ⟨distinct, new⟩ := fresh first
    have later : ∀ x ∈ regs.flatMap own, x ∉ own r ∧ x ∉ collected seen := by
      intro x member
      exact not_or.mp (pushed.not.mp (unseen x member))
    rw [flatMap_cons]
    refine ⟨nodup_append.mpr ⟨distinct, others, ?_⟩, fun x member => ?_⟩
    · intro x mine x' other same
      exact (later x' other).1 (same ▸ mine)
    · obtain mine | other := mem_append.mp member
      · exact new x mine
      · exact (later x other).2

theorem coins_apart {seen : Pool.Seen} {regs : List InputRegistration}
    (apart : Pool.Apart seen regs) : (regs.flatMap fun r => r.inputs.map Prod.fst).Nodup := by
  refine (@nodup_of_apart _ _ Pool.Seen.outpoints ?_ ?_ _ _ apart).1
  · intro seen r first
    refine ⟨first.apart, fun op mine => ?_⟩
    obtain ⟨input, inside, rfl⟩ := mem_map.mp mine
    exact first.outpoints input inside
  · intro seen r op
    rw [Pool.Seen.push, mem_append, mem_reverse]

/-- Joinstr's own rules have both properties, whatever its builder hashes with. -/
theorem poolRules_of_joinstr {Q : Primitives}
    (checks : P.checkInputRegistrations = Pool.checkInputRegistrations)
    (builds : P.build = Pool.build Q) : PoolRules P where
  apart := by
    intro params regs ok
    rw [checks] at ok
    exact coins_apart (Pool.checkInputRegistrations_eq_ok.mp ok).2.2.2
  prevouts := by
    intro params regs payouts keys built ok
    rw [builds] at ok
    simp only [Pool.build, bind_eq_ok, ensure_eq_ok, exists_const, pure_eq_ok] at ok
    obtain ⟨_, lockTime, _, poolSpk, _, exits, _, rfl⟩ := ok
    rw [Pool.fundingTx, length_map, length_map]

namespace Attempt

variable {input : Input P} {a b : Attempt P} {acts : List (Action P)}

/-- Every coin the members registered. -/
def coins (a : Attempt P) : List OutPoint := a.registrations.flatMap fun r => r.inputs.map Prod.fst

theorem owns_iff {session : SessionKey} {op : OutPoint} : a.owns session op = true ↔
    ∃ r, a.regs[session]? = some r ∧ op ∈ r.1.inputs.map Prod.fst := by
  rw [owns]
  split
  · rename_i r json found
    rw [any_eq_true]
    constructor
    · rintro ⟨input, member, same⟩
      exact ⟨_, found, mem_map.mpr ⟨input, member, eq_of_beq same⟩⟩
    · rintro ⟨r', found', member⟩
      cases found.symm.trans found'
      obtain ⟨input, inside, same⟩ := mem_map.mp member
      exact ⟨input, inside, beq_iff_eq.mpr same⟩
  · rename_i missing
    constructor
    · intro impossible
      cases impossible
    · rintro ⟨r, found, _⟩
      rw [missing] at found
      cases found

theorem mem_of_owns {session : SessionKey} {op : OutPoint} (owned : a.owns session op = true) :
    session ∈ a.regs := by
  obtain ⟨r, found, _⟩ := owns_iff.mp owned
  exact Maps.mem_iff_exists_getElem?.mpr ⟨r, found⟩

theorem mem_coins {op : OutPoint} : op ∈ a.coins ↔ ∃ session, a.owns session op = true := by
  rw [coins, registrations, mem_flatMap]
  constructor
  · rintro ⟨r, member, inside⟩
    obtain ⟨stored, isStored, rfl⟩ := mem_map.mp member
    obtain ⟨session, found⟩ := Maps.mem_values.mp isStored
    exact ⟨session, owns_iff.mpr ⟨stored, found, inside⟩⟩
  · rintro ⟨session, owned⟩
    obtain ⟨stored, found, inside⟩ := owns_iff.mp owned
    exact ⟨stored.1, mem_map.mpr ⟨stored, Maps.mem_values.mpr ⟨session, found⟩, rfl⟩, inside⟩

/-- A build spends the registered coins, each once, and lists what they hold. -/
structure Spends (a : Attempt P) (built : PoolTxs) : Prop where
  coins : (built.funding.input.map TxIn.previousOutput).Perm a.coins
  once : a.coins.Nodup
  prevouts : built.fundingPrevouts.length = built.funding.input.length

theorem Spends.congr {built : PoolTxs} (spends : a.Spends built) (same : b.coins = a.coins) :
    b.Spends built :=
  ⟨same ▸ spends.coins, same ▸ spends.once, spends.prevouts⟩

/-- What holds once the coins were asked for. -/
structure Settled (a : Attempt P) : Prop where
  full : a.coinsAsked = true → a.params.peers ≤ a.regs.size
  member : a.coinsAsked = true → a.me.session ∈ a.regs
  checked : a.coinsAsked = true → P.checkInputRegistrations a.params a.registrations = .ok ()
  asked : 1 ≤ rank a.phase → rank a.phase ≤ 6 → a.coinsAsked = true
  unbuilt : a.phase = .inputs → a.built = none
  spends : ∀ built, a.built = some built → a.Spends built

theorem BuildSpec.spends {checked : CheckedBuild P} (rules : PoolRules P)
    (spec : a.BuildSpec checked)
    (passed : P.checkInputRegistrations a.params a.registrations = .ok ()) :
    a.Spends checked.built := by
  obtain ⟨r, rederived, same⟩ := spec.rederived
  obtain ⟨sameFunding, _⟩ := ensure_bind_eq_ok.mp same
  obtain ⟨lockTime, pool, isFunding⟩ := rederive_funding _ rederived
  obtain ⟨payouts, built⟩ := spec.built
  refine ⟨?_, rules.apart passed, rules.prevouts built⟩
  have members : (a.members.flatMap Member.inputs).map Prod.fst = a.coins := by
    rw [Attempt.members, coins, flatMap_map, map_flatMap]
  rw [sameFunding, isFunding, ← members]
  exact inputs_fundingTx lockTime pool

/-- A state that differs in nothing registration or the build depends on. -/
theorem Settled.congr (settled : a.Settled) (params : b.params = a.params) (regs : b.regs = a.regs)
    (session : b.me.session = a.me.session) (coinsAsked : b.coinsAsked = a.coinsAsked)
    (phase : b.phase = a.phase) (built : b.built = a.built ∨ b.built = none) : b.Settled := by
  have sameRegs : b.registrations = a.registrations := by rw [registrations, regs, registrations]
  have sameCoins : b.coins = a.coins := by rw [coins, sameRegs, coins]
  refine ⟨?_, ?_, ?_, ?_, fun early => ?_, fun txs isBuilt => ?_⟩
  · rw [coinsAsked, params, regs]
    exact settled.full
  · rw [coinsAsked, session, regs]
    exact settled.member
  · rw [coinsAsked, params, sameRegs]
    exact settled.checked
  · rw [phase, coinsAsked]
    exact settled.asked
  · obtain same | none := built
    · rw [same]
      exact settled.unbuilt (phase ▸ early)
    · exact none
  · obtain same | none := built
    · exact (settled.spends txs (same ▸ isBuilt)).congr sameCoins
    · rw [none] at isBuilt
      cases isBuilt

theorem Settled.silent (settled : a.Settled) (move : Silent input a b) : b.Settled := by
  cases move with
  | registered sender reg json _ phase new room =>
    have unasked : a.coinsAsked ≠ true := fun asked =>
      absurd (settled.full asked) (Nat.not_le.mpr room)
    have unbuilt := settled.unbuilt phase
    refine ⟨fun asked => absurd asked unasked, fun asked => absurd asked unasked,
      fun asked => absurd asked unasked, fun late => ?_, fun _ => unbuilt, fun txs isBuilt => ?_⟩
    · rw [show rank a.phase = 0 by rw [phase]; rfl] at late
      exact absurd late (by decide)
    · cases unbuilt.symm.trans isBuilt
  | builtDropped => exact settled.congr rfl rfl rfl rfl rfl (.inr rfl)
  | _ => exact settled.congr rfl rfl rfl rfl rfl (.inl rfl)

/-- A later phase of an attempt whose coins were asked for. -/
theorem Settled.advance {phase : Phase} (settled : a.Settled) (asked : a.coinsAsked = true)
    (later : phase ≠ .inputs) : { a with phase }.Settled where
  __ := settled
  asked := fun _ _ => asked
  unbuilt := fun same => absurd same later
  spends := fun txs isBuilt => (settled.spends txs isBuilt).congr rfl

/-- The same with what the build brings. -/
theorem Settled.build {phase : Phase} {built : PoolTxs} (settled : a.Settled)
    (asked : a.coinsAsked = true) (later : phase ≠ .inputs) (spends : a.Spends built) :
    { a with built := some built, phase }.Settled where
  __ := settled
  asked := fun _ _ => asked
  unbuilt := fun same => absurd same later
  spends := fun txs isBuilt => by
    cases isBuilt
    exact spends.congr rfl

theorem Settled.emits (rules : PoolRules P) (settled : a.Settled) (move : Emits input a acts b) :
    b.Settled := by
  have askedIn : ∀ {p : Phase}, a.phase = p → 1 ≤ rank p → rank p ≤ 6 → a.coinsAsked = true :=
    fun phase late early => settled.asked (phase ▸ late) (phase ▸ early)
  cases move with
  | nothing => exact settled
  | clockStarted => exact settled.congr rfl rfl rfl rfl rfl (.inl rfl)
  | stopped reason named live =>
    exact ⟨settled.full, settled.member, settled.checked,
      fun _ top => absurd top (show ¬rank .stopped ≤ 6 by decide), nofun,
      fun txs isBuilt => (settled.spends txs isBuilt).congr rfl⟩
  | coinsAsked coins phase full member checked =>
    refine ⟨fun _ => full, fun _ => member, fun _ => checked, fun _ _ => rfl, settled.unbuilt,
      fun txs isBuilt => ?_⟩
    cases (settled.unbuilt phase).symm.trans isBuilt
  | channelAsked phase asked => exact settled.advance asked (by decide)
  | payoutPosted json phase asked =>
    refine settled.advance ?_ (by decide)
    exact phase.elim asked (askedIn · (by decide) (by decide))
  | viewPosted checked secs pubs phase full passed =>
    have asked := askedIn phase (by decide) (by decide)
    have spends := (checkedBuild_spec passed).spends rules (settled.checked asked)
    exact (settled.build asked (show Phase.view ≠ .inputs by decide) spends).congr rfl rfl rfl rfl
      rfl (.inl rfl)
  | signed mine psigs phase =>
    have asked := askedIn phase (by decide) (by decide)
    exact (settled.advance asked (show Phase.signing ≠ .inputs by decide)).congr rfl rfl rfl rfl
      rfl (.inl rfl)
  | recordGiven keys msgs signers sigs unsigned built payout coins phase _ _ _ _
    ownBuilt attached =>
    have asked := askedIn phase (by decide) (by decide)
    obtain ⟨_, _, same⟩ := attach_eq_ok attached
    refine settled.build asked (by decide) ?_
    obtain ⟨perm, once, prevouts⟩ := settled.spends unsigned ownBuilt
    rw [same]
    exact ⟨perm, once, prevouts⟩
  | fundingPosted built witnesses phase =>
    exact settled.advance (askedIn phase (by decide) (by decide)) (by decide)

theorem Settled.on (rules : PoolRules P) (settled : a.Settled) (input : Input P) :
    (a.on input).2.Settled :=
  (on_follows P).invariant (fun _ _ _ holds move => Settled.silent holds move)
    (fun _ _ _ _ holds move => Settled.emits rules holds move) settled [input]

end Attempt

end Lij.Tatara
