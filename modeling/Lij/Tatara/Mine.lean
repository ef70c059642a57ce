import Lij.Tatara.Closing
import Lij.Tatara.ExitChain
import Lij.Tatara.Required

/-!
# What the checks keep for this phone

The checks before signing are comparisons, one by one: joinstr's build against the
re-derivation, this phone's payout against the exits, its coins and its change against the
funding, every script against every other. Together they say where this phone's money goes:
each coin into the funding and nowhere else, its change once out of the funding, its payout
once out of the exits, and the exits in one chain from the funding.
-/

namespace Lij.Tatara

open Bitcoin Joinstr Checked Word List

/-- A transaction has one input, which spends an output of the transaction before it. -/
def SpendsOutputOf (P : Primitives) (parent tx : Transaction) : Prop :=
  ∃ vout spent, tx.input = [txin ⟨P.computeTxid parent, vout⟩] ∧ parent.output[vout]? = some spent

/-- One of these transactions names another by its txid. -/
def Names (P : Primitives) (txs : List Transaction) (tx named : Transaction) : Prop :=
  tx ∈ txs ∧ named ∈ txs ∧ ∃ i ∈ tx.input, i.previousOutput.txid = P.computeTxid named

/-- No txid of these transactions was hashed from itself. -/
def Acyclic (P : Primitives) (txs : List Transaction) : Prop :=
  ∀ tx, ¬Relation.TransGen (Names P txs) tx tx

theorem acyclic_of_rank {P : Primitives} {txs : List Transaction} (rank : Transaction → Nat)
    (falls : ∀ tx ∈ txs, ∀ named ∈ txs, ∀ i ∈ tx.input,
      i.previousOutput.txid = P.computeTxid named → rank named < rank tx) : Acyclic P txs := by
  have along : ∀ tx named, Relation.TransGen (Names P txs) tx named → rank named < rank tx := by
    intro tx named path
    induction path with
    | single step =>
      obtain ⟨isIn, isIn', i, input, same⟩ := step
      exact falls _ isIn _ isIn' i input same
    | tail _ step ih =>
      obtain ⟨isIn, isIn', i, input, same⟩ := step
      exact (falls _ isIn _ isIn' i input same).trans ih
  exact fun tx path => Nat.lt_irrefl _ (along tx tx path)

/-- Where the coins, the change and the payout of one member go. -/
structure KeepsMine (P : Primitives) (d : Nat) (me : Member) (mine : Script)
    (funding : Transaction) (exits : List Transaction) : Prop where
  spent : ∀ input ∈ me.inputs,
    (funding.input.filter fun i => i.previousOutput = input.1).length = 1
  nowhereElse : ∀ input ∈ me.inputs, ∀ tx ∈ exits, ∀ i ∈ tx.input, i.previousOutput ≠ input.1
  change : ∀ c, me.change = some c →
    (funding.output.filter fun o => o.scriptPubkey = c.scriptPubkey) = [c]
  changeOnly : ∀ c, me.change = some c →
    ∀ tx ∈ exits, ∀ o ∈ tx.output, o.scriptPubkey ≠ c.scriptPubkey
  payout : ((exits.flatMap Transaction.output).filter fun o => o.scriptPubkey = mine) = [⟨d, mine⟩]
  notFunding : ∀ o ∈ funding.output, o.scriptPubkey ≠ mine
  chain : List.IsChain (SpendsOutputOf P) (funding :: exits)

variable {P : Primitives} {id : String} {d rate tip : Nat} {members : List Member}
  {payouts : List (Script × Nat)} {r : Rederived}

/-! ## The chain -/

theorem chain_of_conserves {parent : Transaction} {exits : List Transaction}
    (conserves : ChainConserves P rate parent exits) :
    List.IsChain (SpendsOutputOf P) (parent :: exits) := by
  induction conserves with
  | done parent => exact .singleton parent
  | exit parent tx exits vout spent exitFee input found balance pays rest ih =>
    exact .cons_cons ⟨vout, spent, input, found⟩ ih

/-- Along a chain every later transaction names the first, directly or through others. -/
theorem names_of_chain {txs : List Transaction} {first : Transaction} {later : List Transaction}
    (chain : List.IsChain (SpendsOutputOf P) (first :: later)) (inside : first :: later ⊆ txs)
    (tx : Transaction) (member : tx ∈ later) :
    Relation.TransGen (Names P txs) tx first ∧ ∃ parent ∈ first :: later,
      SpendsOutputOf P parent tx := by
  induction later generalizing first with
  | nil => cases member
  | cons next later ih =>
    obtain ⟨spends, rest⟩ := isChain_cons_cons.mp chain
    have step : Names P txs next first := by
      obtain ⟨vout, spent, input, _⟩ := spends
      refine ⟨inside (mem_cons_of_mem _ mem_cons_self), inside mem_cons_self, ?_⟩
      exact ⟨_, input ▸ mem_singleton_self _, rfl⟩
    obtain rfl | after := mem_cons.mp member
    · exact ⟨.single step, first, mem_cons_self, spends⟩
    · obtain ⟨path, parent, isIn, spends⟩ :=
        ih rest (fun _ isIn => inside (mem_cons_of_mem _ isIn)) after
      exact ⟨path.tail step, parent, mem_cons_of_mem _ isIn, spends⟩

/-- A coin the funding spends is spent by no exit: the exit would spend an output of the funding
or of an exit, and the funding would have been hashed from its own txid. -/
theorem not_spent_by_exits {funding : Transaction} {exits : List Transaction}
    (acyclic : Acyclic P (funding :: exits))
    (chain : List.IsChain (SpendsOutputOf P) (funding :: exits)) {coin : TxIn}
    (inFunding : coin ∈ funding.input) (tx : Transaction) (member : tx ∈ exits) (i : TxIn)
    (inExit : i ∈ tx.input) : i.previousOutput ≠ coin.previousOutput := by
  intro same
  have all : funding :: exits ⊆ funding :: exits := List.Subset.refl _
  obtain ⟨_, parent, isIn, vout, spent, input, _⟩ := names_of_chain chain all tx member
  rw [input, mem_singleton] at inExit
  have names : Names P (funding :: exits) funding parent := by
    refine ⟨mem_cons_self, isIn, coin, inFunding, ?_⟩
    rw [← same, inExit]
    rfl
  obtain rfl | isExit := mem_cons.mp isIn
  · exact acyclic _ (.single names)
  · exact acyclic funding (.head names (names_of_chain chain all parent isExit).1)

/-! ## The scripts -/

theorem payouts_not_changes {scripts : List Script}
    (apart : scriptsApart r members scripts = .ok ()) (p : Script) (member : p ∈ scripts) :
    ∀ c ∈ members.filterMap Member.change, c.scriptPubkey ≠ p := by
  obtain ⟨_, each, _⟩ := bind_eq_ok.mp apart
  obtain ⟨i, place⟩ := mem_iff_getElem?.mp member
  have one := forM_eq_ok.mp each (p, i) (mk_mem_zipIdx_iff_getElem?.mpr place)
  simp only [bind_eq_ok, ensure_eq_ok, exists_const] at one
  obtain ⟨_, _, notChange, _⟩ := one
  intro c isChange same
  obtain ⟨mb, inMembers, changes⟩ := mem_filterMap.mp isChange
  exact notChange (mem_filterMap.mpr ⟨mb, inMembers, by rw [changes, ← same]; rfl⟩)

theorem changes_apart {seen : Pool.Seen} {regs : List InputRegistration}
    (apart : Pool.Apart seen regs) :
    ((regs.filterMap InputRegistration.change).map TxOut.scriptPubkey).Nodup := by
  have collected := (@nodup_of_apart _ (fun r => (r.change.map TxOut.scriptPubkey).toList)
    Pool.Seen.scripts ?_ ?_ _ _ apart).1
  · rw [map_filterMap, filterMap_eq_flatMap_toList]
    exact collected
  · intro seen r first
    cases changes : r.change with
    | none => exact ⟨.nil, forall_mem_nil _⟩
    | some c =>
      exact ⟨nodup_singleton _, forall_mem_singleton.mpr (first.script c changes)⟩
  · intro seen r script
    rw [Pool.Seen.push, mem_append]

theorem sessions_apart {seen : Pool.Seen} {regs : List InputRegistration}
    (apart : Pool.Apart seen regs) : (regs.map InputRegistration.session).Nodup := by
  have collected := (@nodup_of_apart _ (fun r => [r.session]) Pool.Seen.sessions ?_ ?_ _ _ apart).1
  · rw [map_eq_flatMap]
    exact collected
  · intro seen r first
    exact ⟨nodup_singleton _, forall_mem_singleton.mpr first.session⟩
  · intro seen r session
    rw [Pool.Seen.push, mem_cons, mem_singleton]

variable {f lockTime : Nat}

section

variable (spec : RederiveSpec P id d rate members payouts r f lockTime)
include spec

/-- A change script that no other member registered is paid once by the funding. -/
theorem change_paid_once (apart : Apart r members (payouts.map Prod.fst))
    (distinct : ((members.filterMap Member.change).map TxOut.scriptPubkey).Nodup) {c : TxOut}
    (isChange : c ∈ members.filterMap Member.change) :
    (r.funding.output.filter fun o => o.scriptPubkey = c.scriptPubkey) = [c] := by
  have notPool : r.poolScripts.getD 0 [] ≠ c.scriptPubkey := by
    intro same
    exact apart.changes c isChange (same ▸ pool_mem_poolScripts spec)
  have single : ((members.filterMap Member.change).filter
      fun o => o.scriptPubkey = c.scriptPubkey) = [c] := by
    apply perm_singleton.mp
    apply (perm_ext_iff_of_nodup (distinct.of_map.filter _) (nodup_singleton c)).mpr
    intro o
    rw [mem_filter, mem_singleton, decide_eq_true_iff]
    constructor
    · rintro ⟨found, same⟩
      exact inj_on_of_nodup_map distinct found isChange same
    · rintro rfl
      exact ⟨isChange, rfl⟩
  have filtered := (perm_funding_output spec).filter fun o => o.scriptPubkey = c.scriptPubkey
  rw [filter_cons_of_neg (by simpa using notPool), single] at filtered
  exact perm_singleton.mp filtered

end

/-- An exit pays the payouts it takes and, unless final, the next pool output. -/
theorem exitChain_pays {plan : ExitPlan} (groups : List Nat) (k : Nat) (prev : OutPoint)
    (order : List (Script × Nat)) (txs : List Transaction)
    (chained : exitChain P plan groups k prev order = .ok txs) (tx : Transaction)
    (member : tx ∈ txs) (o : TxOut) (inOutput : o ∈ tx.output) :
    (∃ p ∈ order, o = payTo plan.denomination p) ∨
      ∃ j < plan.count, o.value = plan.pools.getD j 0 := by
  induction groups generalizing k prev order txs with
  | nil =>
    cases Except.ok.inj chained
    cases member
  | cons g groups ih =>
    obtain ⟨_, rest, rfl, later, _⟩ := exitChain_cons chained
    obtain rfl | isLater := mem_cons.mp member
    · have perm := perm_exitTx (P := P) plan k prev (order.take g)
      rcases mem_append.mp (perm.mem_iff.mp inOutput) with payout | pool
      · obtain ⟨p, taken, rfl⟩ := mem_map.mp payout
        exact .inl ⟨p, mem_of_mem_take taken, rfl⟩
      · split at pool
        · rename_i more
          rw [mem_singleton.mp pool]
          exact .inr ⟨k, more, rfl⟩
        · cases pool
    · refine (ih _ _ _ rest later isLater).imp_left ?_
      rintro ⟨p, left, same⟩
      exact ⟨p, mem_of_mem_drop left, same⟩

/-- The output that pays a script the denomination is a payout's: a pool output holds two
payouts at least. -/
theorem mem_payouts_of_paid (positive : 0 < d)
    (spec : RederiveSpec P id d rate members payouts r f lockTime) {mine : Script}
    (paid : (⟨d, mine⟩ : TxOut) ∈ r.exits.flatMap Transaction.output) :
    mine ∈ payouts.map Prod.fst := by
  have order := perm_payoutOrder P id payouts
  obtain ⟨tx, isExit, isOutput⟩ := mem_flatMap.mp paid
  rcases exitChain_pays _ _ _ _ _ spec.exits tx isExit _ isOutput with payout | ⟨j, less, value⟩
  · obtain ⟨p, inOrder, same⟩ := payout
    rw [show mine = p.1 from congrArg TxOut.scriptPubkey same]
    exact mem_map_of_mem (order.mem_iff.mp inOrder)
  · obtain ⟨_, enough, _⟩ := amounts_suffice (d := d) spec.bounds spec.share rfl spec.fits
    dsimp only at less value
    rw [spec.pools, getD_eq_getElem?_getD, getElem?_map, getElem?_range less,
      Option.map_some, Option.getD_some, poolValue] at value
    have before : j * (d + f) ≤ (members.length - 2) * (d + f) :=
      Nat.mul_le_mul_right _ (by omega)
    omega

/-! ## All checks together -/

namespace Attempt

variable {a : Attempt P} {checked : CheckedBuild P}

/-- What the build was compared with and what was looked up in it. -/
structure Passed (a : Attempt P) (checked : CheckedBuild P) (r : Rederived) (mine : Script)
    (reg : InputRegistration) : Prop where
  rederived : rederive P a.id a.d a.rateMilli a.members a.payouts a.me.tip = .ok r
  apart : scriptsApart r a.members (a.payouts.map Prod.fst) = .ok ()
  same : sameAsRederived checked.built r = .ok ()
  isMine : a.me.payout = some mine
  payout : myPayoutOnce checked.built.exits mine a.d = .ok ()
  registered : reg ∈ a.registrations
  session : reg.session = a.me.session
  coins : mineInFunding checked.built.funding
    ⟨reg.musig, reg.inputs, reg.change, reg.height⟩ = .ok ()

theorem passed_of_checkedBuild (passed : a.checkedBuild = .ok checked) :
    ∃ r mine reg, a.Passed checked r mine reg := by
  simp only [checkedBuild, bind_eq_ok, ensure_eq_ok, exists_const, context_eq_ok,
    pure_eq_ok] at passed
  obtain ⟨_, r, rederived, _, apart, keys, _, built, _, _, same, mine, isMine, _, payout, me, isMe,
    _, coins, fundChannel, _, msgs, _, rfl⟩ := passed
  obtain ⟨entry, found, rfl⟩ := Option.map_eq_some_iff.mp isMe
  have zipped : a.members.zip a.registrations = a.registrations.map fun reg =>
      ((⟨reg.musig, reg.inputs, reg.change, reg.height⟩ : Member), reg) := by
    have both : a.members.zip (a.registrations.map fun reg => reg) = _ := zip_map'
    rwa [map_id'] at both
  rw [zipped] at found
  obtain ⟨reg, registered, rfl⟩ := mem_map.mp (mem_of_find?_eq_some found)
  have session := find?_some found
  exact ⟨r, mine, reg, rederived, apart, same, isMine, payout, registered, eq_of_beq session,
    coins⟩

end Attempt

theorem built_eq_rederived {built : PoolTxs} (same : sameAsRederived built r = .ok ()) :
    built.funding = r.funding ∧ built.exits = r.exits := by
  simp only [sameAsRederived, bind_eq_ok, ensure_eq_ok, exists_const] at same
  obtain ⟨funding, _, length, _, each, _⟩ := same
  refine ⟨funding, ext_getElem length fun k inside inside' => ?_⟩
  have pair : (built.exits.zip r.exits)[k]? = some (built.exits[k], r.exits[k]) := by
    rw [getElem?_zip_eq_some]
    exact ⟨getElem?_eq_getElem inside, getElem?_eq_getElem inside'⟩
  exact ensure_eq_ok.mp
    (forM_eq_ok.mp each (_, k) (mk_mem_zipIdx_iff_getElem?.mpr pair))

theorem paid_of_myPayoutOnce {exits : List Transaction} {mine : Script}
    (once : myPayoutOnce exits mine d = .ok ()) :
    ((exits.flatMap Transaction.output).filter fun o => o.scriptPubkey = mine) = [⟨d, mine⟩] := by
  obtain ⟨one, rest⟩ := ensure_bind_eq_ok.mp once
  have amount := ensure_eq_ok.mp rest
  rw [length_map] at one
  obtain ⟨o, single⟩ := length_eq_one_iff.mp one
  have inside : o ∈ (exits.flatMap Transaction.output).filter fun o => o.scriptPubkey = mine :=
    single ▸ mem_singleton_self o
  have script : o.scriptPubkey = mine := of_decide_eq_true (mem_filter.mp inside).2
  rw [single] at amount ⊢
  rw [show o = ⟨o.value, o.scriptPubkey⟩ from rfl, script]
  exact congrArg (fun value => [TxOut.mk value mine]) amount

theorem keepsMine_of_checks {me : Member} {mine : Script} (positive : 0 < d)
    (rederived : rederive P id d rate members payouts tip = .ok r)
    (apart : scriptsApart r members (payouts.map Prod.fst) = .ok ())
    (distinct : ((members.filterMap Member.change).map TxOut.scriptPubkey).Nodup)
    (payout : myPayoutOnce r.exits mine d = .ok ()) (member : me ∈ members)
    (coins : mineInFunding r.funding me = .ok ()) (acyclic : Acyclic P (r.funding :: r.exits)) :
    KeepsMine P d me mine r.funding r.exits := by
  obtain ⟨f, lockTime, spec⟩ := rederive_spec rederived
  have scripts := scriptsApart_spec apart
  have chain := chain_of_conserves (exits_conserve spec scripts)
  have paid := paid_of_myPayoutOnce payout
  have isPayout : mine ∈ payouts.map Prod.fst := by
    apply mem_payouts_of_paid positive spec
    exact (mem_filter.mp (paid ▸ mem_singleton_self _)).1
  obtain ⟨_, each, _⟩ := bind_eq_ok.mp coins
  have once : ∀ input ∈ me.inputs,
      (r.funding.input.filter fun i => i.previousOutput = input.1).length = 1 :=
    fun input inside => ensure_eq_ok.mp (forM_eq_ok.mp each input inside)
  have isChange : ∀ c, me.change = some c → c ∈ members.filterMap Member.change :=
    fun c changes => mem_filterMap.mpr ⟨me, member, changes⟩
  refine ⟨once, ?_, ?_, ?_, paid, ?_, chain⟩
  · intro input inside tx isExit i inExit
    obtain ⟨coin, single⟩ := length_eq_one_iff.mp (once input inside)
    have found := mem_filter.mp (single ▸ mem_singleton_self coin)
    rw [← of_decide_eq_true found.2]
    exact not_spent_by_exits acyclic chain found.1 tx isExit i inExit
  · exact fun c changes => change_paid_once spec scripts distinct (isChange c changes)
  · intro c changes tx isExit o inOutput same
    rcases ((exits_shape spec).2 tx isExit).scripts o inOutput with pool | ⟨p, isPaid, isScript⟩
    · exact scripts.changes c (isChange c changes) (same ▸ pool)
    · exact payouts_not_changes apart p.1 (mem_map_of_mem isPaid) c (isChange c changes)
        (same.symm.trans isScript)
  · intro o inOutput same
    rcases mem_cons.mp ((perm_funding_output spec).mem_iff.mp inOutput) with rfl | change
    · exact scripts.notPool mine isPayout (same ▸ pool_mem_poolScripts spec)
    · exact payouts_not_changes apart mine isPayout o change same

/-- What the wallet checks is enough: once the registrations passed joinstr's check and the
build passed the wallet's, this phone's coins, change and payout go where they should. -/
theorem checks_keep_mine {a : Attempt P} {checked : Attempt.CheckedBuild P} (positive : 0 < a.d)
    (registered : Pool.checkInputRegistrations a.params a.registrations = .ok ())
    (passed : a.checkedBuild = .ok checked)
    (acyclic : Acyclic P (checked.built.funding :: checked.built.exits)) :
    ∃ mine, a.me.payout = some mine ∧ ∃ reg ∈ a.registrations, reg.session = a.me.session ∧
      (∀ reg' ∈ a.registrations, reg'.session = a.me.session → reg' = reg) ∧
      KeepsMine P a.d ⟨reg.musig, reg.inputs, reg.change, reg.height⟩ mine
        checked.built.funding checked.built.exits := by
  obtain ⟨r, mine, reg, spec⟩ := Attempt.passed_of_checkedBuild passed
  obtain ⟨funding, exits⟩ := built_eq_rederived spec.same
  have apart := (Pool.checkInputRegistrations_eq_ok.mp registered).2.2.2
  refine ⟨mine, spec.isMine, reg, spec.registered, spec.session, ?_, ?_⟩
  · intro reg' member session
    exact inj_on_of_nodup_map (sessions_apart apart) member spec.registered
      (session.trans spec.session.symm)
  · have distinct : ((a.members.filterMap Member.change).map TxOut.scriptPubkey).Nodup := by
      rw [Attempt.members, filterMap_map]
      exact changes_apart apart
    have payout := spec.payout
    have coins := spec.coins
    rw [funding, exits] at acyclic ⊢
    rw [exits] at payout
    rw [funding] at coins
    exact keepsMine_of_checks positive spec.rederived spec.apart distinct payout
      (mem_map_of_mem spec.registered) coins acyclic

namespace Instance

/-- The first phone of the pool of three when everything has arrived; it gets change. -/
def myAttempt : Attempt primitives :=
  let heard (i : Nat) (reg : InputRegistration) := (reg, registration i)
  { start 1 with
    regs := (((∅ : Std.TreeMap _ _ _).insert 1 (heard 1 (registered 1 150000
      (some ⟨47000, changeScript⟩)))).insert 2 (heard 2 (registered 2 102000 none))).insert 3
        (heard 3 (registered 3 102000 none))
    payouts := [201, 202, 203].map fun n => (script n, 0) }

def myBuild : Attempt.CheckedBuild primitives :=
  myAttempt.checkedBuild.toOption.getD ⟨⟨⟨2, 0, [], []⟩, [], 0, [], [], [], [], []⟩, ⟨[]⟩, [], []⟩

theorem checkedBuild_myAttempt : myAttempt.checkedBuild = .ok myBuild := by
  have ok : myAttempt.checkedBuild.isOk = true := by decide +kernel
  exact eq_ok_of_isOk ok _

theorem acyclic_myBuild : Acyclic primitives (myBuild.built.funding :: myBuild.built.exits) := by
  apply acyclic_of_rank fun tx => (myBuild.built.funding :: myBuild.built.exits).idxOf tx
  decide +kernel

end Instance

/-- The first phone of the pool of three gets its change back from the funding. -/
theorem checks_keep_mine_three :
    (Instance.myBuild.built.funding.output.filter fun o =>
      o.scriptPubkey = Instance.changeScript) = [⟨47000, Instance.changeScript⟩] := by
  have registered : Pool.checkInputRegistrations Instance.myAttempt.params
      Instance.myAttempt.registrations = .ok () := by decide +kernel
  have own : Instance.registered 1 150000 (some ⟨47000, Instance.changeScript⟩) ∈
      Instance.myAttempt.registrations := by decide +kernel
  obtain ⟨mine, _, reg, _, _, only, keeps⟩ := checks_keep_mine (by decide) registered
    Instance.checkedBuild_myAttempt Instance.acyclic_myBuild
  have session : (Instance.registered 1 150000 (some ⟨47000, Instance.changeScript⟩)).session =
      Instance.myAttempt.me.session := by decide +kernel
  obtain rfl := only _ own session
  exact keeps.change ⟨47000, Instance.changeScript⟩ rfl

end Lij.Tatara
