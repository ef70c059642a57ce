import Lij.Foundation.Folds
import Lij.Node.OnchainPay

/-!
# What a release spends

A release shows the payment's secret, so it must spend an output that pays the
hand-over script of the record as it is. The record's take-back block, the
script the walk watches and the outpoint the walk saw are written by three
paths: the provider's reports, the snapshot a walk takes when it starts, and the
events it hands back when it ends. They meet through the payment's index alone.

A report for a record that is `locked` already may name another block. A walk
that started before it then hands back an output of the old script, and the
release is built for the new one. As long as a repeated report keeps the block,
and no quote is taken under a hash that has a record, every release spends an
output that was read in a block and pays exactly the record's script and amount.
-/

namespace Lij.Node.OnchainPay

open Bitcoin Checked Tier2 Folds List

/-! ## The system -/

/-- The wallet's own scripts; none of them is watched as a hand-over output. -/
structure Net where
  scripts : WalletScripts
  noHandover : ∀ e ∈ scripts.entries, e.chain ≠ chainHandover

/-- A running walk: the scripts it took when it started and its copy of the ledger. -/
structure Walk where
  net : Net
  extras : List (Nat × Script)
  view : Ledger

structure World where
  recs : Records
  stored : Ledger
  walks : List Walk
  /-- The outputs of all blocks read so far. -/
  seen : List (OutPoint × TxOut)

/-- A new wallet. -/
def World.start : World := ⟨∅, .empty, [], []⟩

inductive Step where
  | quote (asked : Asked) (quote : Json.Value)
  | mark (h : Hash) (m : Mark)
  | report (h : Hash) (report : Json.Value)
  | latch (h : Hash) (settled : Bool)
  | markReleased (h : Hash) (txid : Txid)
  | markReleasedV2 (h : Hash) (txid : Txid) (txidFast : Option Txid) (tip : Nat)
  | rewalkDone
  /-- A walk loads the ledger and takes the hand-over scripts. -/
  | walkStart (net : Net)
  | walkRead (i : Nat) (txs : List Transaction) (height : Nat)
  | walkRollback (i height : Nat)
  | walkRebuild (i : Nat)
  | walkSave (i : Nat)
  /-- A walk hands its events to the records. -/
  | walkEnd (i : Nat)

variable (E : Env) (C : Crypto)

def Walk.read (walk : Walk) (txs : List Transaction) (height : Nat) : Walk :=
  { walk with view := walk.view.applyTxs C (walk.net.scripts.withExtras walk.extras) txs height }

/-- A call that fails changes nothing. -/
def World.apply (w : World) (result : Except String Records) : World :=
  { w with recs := result.toOption.getD w.recs }

def World.step (w : World) : Step → World
  | .quote asked quote => w.apply (recordQuote E asked quote w.recs)
  | .mark h m => w.apply (OnchainPay.mark w.recs h m)
  | .report h report => w.apply (lockReport E w.recs h report)
  | .latch h settled => w.apply (.ok (OnchainPay.latch w.recs h settled))
  | .markReleased h txid => w.apply (OnchainPay.markReleased w.recs h txid)
  | .markReleasedV2 h txid txidFast tip =>
    w.apply (OnchainPay.markReleasedV2 w.recs h txid txidFast tip)
  | .rewalkDone => w.apply (.ok (OnchainPay.rewalkDone w.recs))
  | .walkStart net => { w with walks := ⟨net, extras E w.recs, w.stored⟩ :: w.walks }
  | .walkRead i txs height =>
    if i < w.walks.length then
      { w with
        walks := w.walks.modify i fun walk => walk.read C txs height
        seen := txs.flatMap (Ledger.outputsOf C) ++ w.seen }
    else w
  | .walkRollback i height =>
    { w with walks := w.walks.modify i fun walk =>
        { walk with view := walk.view.rollback height } }
  | .walkRebuild i =>
    { w with walks := w.walks.modify i fun walk => { walk with view := .empty } }
  | .walkSave i => { w with stored := (w.walks[i]?.map Walk.view).getD w.stored }
  | .walkEnd i =>
    match w.walks[i]? with
    | none => w
    | some walk =>
      { w with
        recs := if walk.extras ≠ [] then noteEvents E w.recs walk.view.handover else w.recs
        walks := w.walks.eraseIdx i }

/-- A repeated report keeps the take-back block, and a quote is under a new hash. -/
def Steady (w : World) : Step → Prop
  | .report h report =>
    ∀ r t, w.recs[h]? = some r → r.state = .locked → r.t = some t → (readReport report).t = t
  | .quote asked _ => w.recs[E.hashOf (E.secret asked.index)]? = none
  | _ => True

/-! ## One record -/

variable {E} {C}

/-- What no later change of a record touches; a take-back block, once set, is kept. -/
structure Keeps (r r' : Record) : Prop where
  index : r'.index = r.index := by rfl
  hash : r'.hash = r.hash := by rfl
  wPubkey : r'.wPubkey = r.wPubkey := by rfl
  lPubkey : r'.lPubkey = r.lPubkey := by rfl
  lockSats : r'.lockSats = r.lockSats := by rfl
  t : ∀ t, r.t = some t → r'.t = some t := by exact fun _ => id

theorem Keeps.refl (r : Record) : Keeps r r := {}

theorem Keeps.trans {r r' r'' : Record} (first : Keeps r r') (second : Keeps r' r'') :
    Keeps r r'' where
  index := second.index.trans first.index
  hash := second.hash.trans first.hash
  wPubkey := second.wPubkey.trans first.wPubkey
  lPubkey := second.lPubkey.trans first.lPubkey
  lockSats := second.lockSats.trans first.lockSats
  t t set := second.t t (first.t t set)

theorem Keeps.spkAt {r r' : Record} (keeps : Keeps r r') (t : Nat) :
    r'.spkAt E t = r.spkAt E t := by
  unfold Record.spkAt
  rw [keeps.hash, keeps.wPubkey, keeps.lPubkey]

/-- The outpoint was read in a block and pays this record's script. -/
def Paid (E : Env) (seen : List (OutPoint × TxOut)) (r : Record) (op : OutPoint) (value : Nat) :
    Prop :=
  ∃ t, r.t = some t ∧ (op, ⟨value, r.spkAt E t⟩) ∈ seen

variable {seen : List (OutPoint × TxOut)} {r r' : Record}

theorem Paid.keeps {op : OutPoint} {value : Nat} (paid : Paid E seen r op value)
    (keeps : Keeps r r') : Paid E seen r' op value := by
  obtain ⟨t, set, member⟩ := paid
  refine ⟨t, keeps.t t set, ?_⟩
  rw [keeps.spkAt]
  exact member

variable {more : List (OutPoint × TxOut)}

theorem Paid.mono {op : OutPoint} {value : Nat} (paid : Paid E seen r op value)
    (sub : seen ⊆ more) : Paid E more r op value := by
  obtain ⟨t, set, member⟩ := paid
  exact ⟨t, set, sub member⟩

/-- A lock was sighted only after it was reported, and what was sighted is the lock. -/
structure Sighted (E : Env) (seen : List (OutPoint × TxOut)) (r : Record) : Prop where
  unlocked : r.state = .quoted ∨ r.state = .paying → r.t = none
  early : r.state = .quoted ∨ r.state = .paying ∨ r.state = .locked → r.lockSeenTxid = none
  lock : ∀ txid, r.lockSeenTxid = some txid →
    ∃ vout, r.lockVout = some vout ∧ Paid E seen r ⟨txid, vout⟩ r.lockSats

theorem Sighted.mono (sighted : Sighted E seen r) (sub : seen ⊆ more) : Sighted E more r where
  __ := sighted
  lock id found := by
    obtain ⟨v, isVout, paid⟩ := sighted.lock id found
    exact ⟨v, isVout, paid.mono sub⟩

/-- What a change of one record must keep. -/
def Good (E : Env) (seen : List (OutPoint × TxOut)) (r r' : Record) : Prop :=
  Sighted E seen r → Keeps r r' ∧ Sighted E seen r'

theorem Good.refl (r : Record) : Good E seen r r := fun sighted => ⟨.refl r, sighted⟩

theorem Good.trans {r'' : Record} (first : Good E seen r r') (second : Good E seen r' r'') :
    Good E seen r r'' := by
  intro sighted
  obtain ⟨keeps, sighted⟩ := first sighted
  obtain ⟨keeps', sighted⟩ := second sighted
  exact ⟨keeps.trans keeps', sighted⟩

/-- A change that leaves the lock's fields alone and does not go back before the sighting. -/
structure Aside (r r' : Record) : Prop extends Keeps r r' where
  sameT : r'.t = r.t := by rfl
  lockSeenTxid : r'.lockSeenTxid = r.lockSeenTxid := by rfl
  lockVout : r'.lockVout = r.lockVout := by rfl
  state : r'.state = r.state ∨ (r.state = .quoted ∧ r'.state = .paying) ∨
    ¬(r'.state = .quoted ∨ r'.state = .paying ∨ r'.state = .locked) := by exact .inl rfl

theorem Aside.refl (r : Record) : Aside r r := {}

theorem Aside.good (aside : Aside r r') : Good E seen r r' := by
  intro sighted
  refine ⟨aside.toKeeps, fun now => ?_, fun now => ?_, fun id found => ?_⟩
  · rw [aside.sameT]
    apply sighted.unlocked
    have := aside.state
    grind
  · rw [aside.lockSeenTxid]
    apply sighted.early
    have := aside.state
    grind
  · obtain ⟨v, isVout, paid⟩ := sighted.lock id (aside.lockSeenTxid.symm.trans found)
    refine ⟨v, aside.lockVout.trans isVout, ?_⟩
    rw [aside.lockSats]
    exact paid.keeps aside.toKeeps

theorem aside_markRecord {m : Mark} (ok : markRecord r m = .ok r') : Aside r r' := by
  cases m with
  | paying a b best =>
    obtain ⟨before, rest⟩ := ensure_bind_eq_ok.mp ok
    cases pure_eq_ok.mp rest
    refine { state := ?_ }
    rcases before with isQuoted | isPaying
    · exact .inr (.inl ⟨isQuoted, rfl⟩)
    · exact .inl isPaying.symm
  | failed reason | returned reason =>
    obtain ⟨_, rest⟩ := ensure_bind_eq_ok.mp ok
    obtain ⟨_, rest⟩ := ensure_bind_eq_ok.mp rest
    cases pure_eq_ok.mp rest
    exact { state := .inr (.inr (by simp)) }

theorem aside_latchRecord {h : Hash} {settled : Bool} : Aside r (latchRecord h settled r) := by
  unfold latchRecord
  split
  · exact .refl r
  · split
    · exact { state := .inr (.inr (by simp)) }
    · split
      · refine { state := .inr (.inr ?_) }
        cases r.t <;> simp
      · exact .refl r

/-- A report past the lock changes nothing; an earlier one sets the take-back block, or keeps
it. -/
theorem good_reportRecord {report : Report}
    (steady : ∀ t, r.state = .locked → r.t = some t → report.t = t)
    (ok : reportRecord E r report = .ok r') : Good E seen r r' := by
  intro sighted
  unfold reportRecord at ok
  split at ok
  · cases ok
    exact ⟨.refl r, sighted⟩
  · rename_i past
    rw [not_not] at past
    obtain ⟨_, rest⟩ := ensure_bind_eq_ok.mp ok
    obtain ⟨_, _, rest⟩ := bind_eq_ok.mp rest
    cases pure_eq_ok.mp rest
    have unseen : r.lockSeenTxid = none := sighted.early (by tauto)
    have keepsT : ∀ t, r.t = some t → some report.t = some t := by
      intro t set
      by_cases isLocked : r.state = .locked
      · rw [steady t isLocked set]
      · rw [sighted.unlocked (by tauto)] at set
        cases set
    refine ⟨{ t := keepsT }, by simp, fun _ => unseen, fun id found => ?_⟩
    cases unseen.symm.trans found

variable {ev : HandoverEvent}

/-- An event of the lock's own output, of the record as it is. -/
theorem good_noteEvent (paid : Paid E seen r ev.outpoint ev.valueSats) :
    Good E seen r (noteEvent E r ev) := by
  unfold noteEvent
  split
  · exact .refl r
  · rename_i value
    rw [not_not] at value
    have sight : Good E seen r (r.sight ev) := by
      intro sighted
      unfold Record.sight
      split
      · refine ⟨{}, by simp, by simp, fun id found => ?_⟩
        cases found
        refine ⟨ev.vout, rfl, ?_⟩
        obtain ⟨t, isT, member⟩ := paid
        rw [value] at member
        exact ⟨t, isT, member⟩
      · exact ⟨.refl r, sighted⟩
    refine sight.trans (Aside.good ?_)
    unfold Record.settle
    split
    · exact .refl _
    · split
      · split
        · exact { state := .inr (.inr (by simp)) }
        · exact .refl _
      · split
        · exact { state := .inr (.inr (by simp)) }
        · exact .refl _

theorem good_noteRecord {events : List HandoverEvent}
    (paid : ∀ ev ∈ events, ev.index = r.index → Paid E seen r ev.outpoint ev.valueSats) :
    Good E seen r (noteRecord E events r) := by
  unfold noteRecord
  split
  · rename_i reads
    intro sighted
    -- along the loop the record is kept, so that each event is still one of its own
    refine foldl_invariant (I := fun now => Keeps r now ∧ Sighted E seen now)
      ⟨.refl r, sighted⟩ fun now ev member inv => ?_
    obtain ⟨listed, own⟩ := mem_filter.mp member
    have paidNow : Paid E seen now ev.outpoint ev.valueSats :=
      (paid ev listed (of_decide_eq_true own)).keeps inv.1
    obtain ⟨keeps, sighted⟩ := good_noteEvent paidNow inv.2
    exact ⟨inv.1.trans keeps, sighted⟩
  · exact .refl r

/-! ## Where the walk's events come from -/

/-- The same output of the same payment. -/
structure SameOutput (ev old : HandoverEvent) : Prop where
  index : ev.index = old.index
  outpoint : ev.outpoint = old.outpoint
  value : ev.valueSats = old.valueSats

variable {height : Nat}

theorem sameOutput_noteHandoverSpend {op : OutPoint} {txid : Txid} {witness : List Bytes} :
    SameOutput (Ledger.noteHandoverSpend op txid height witness ev) ev := by
  unfold Ledger.noteHandoverSpend
  split <;> exact ⟨rfl, rfl, rfl⟩

theorem sameOutput_unspendEventAbove :
    SameOutput (Ledger.unspendEventAbove height ev) ev := by
  unfold Ledger.unspendEventAbove
  split <;> exact ⟨rfl, rfl, rfl⟩

/-- An event is an old one, or an output of the block that a watched script owns. -/
def Origin (old : List HandoverEvent) (scripts : WalletScripts) (outs : List (OutPoint × TxOut))
    (ev : HandoverEvent) : Prop :=
  (∃ before ∈ old, SameOutput ev before) ∨
    ∃ paid ∈ outs, scripts.ownerOf paid.2.scriptPubkey = some (chainHandover, ev.index) ∧
      ev.outpoint = paid.1 ∧ ev.valueSats = paid.2.value

theorem Origin.sameOutput {old : List HandoverEvent} {scripts : WalletScripts}
    {outs : List (OutPoint × TxOut)} {ev ev' : HandoverEvent} (origin : Origin old scripts outs ev)
    (same : SameOutput ev' ev) : Origin old scripts outs ev' := by
  rcases origin with ⟨before, member, first⟩ | ⟨paid, member, owner, outpoint, value⟩
  · exact .inl ⟨before, member, same.index.trans first.index,
      same.outpoint.trans first.outpoint, same.value.trans first.value⟩
  · refine .inr ⟨paid, member, ?_, same.outpoint.trans outpoint, same.value.trans value⟩
    rw [same.index]
    exact owner

theorem owner_of_new_event {l : Ledger} {scripts : WalletScripts} {paid : OutPoint × TxOut}
    (member : ev ∈ (l.receiveOutput scripts height paid).handover) :
    ev ∈ l.handover ∨ (scripts.ownerOf paid.2.scriptPubkey = some (chainHandover, ev.index) ∧
      ev.outpoint = paid.1 ∧ ev.valueSats = paid.2.value) := by
  unfold Ledger.receiveOutput at member
  split at member
  · exact .inl member
  · rename_i chain index owner
    split at member
    · rename_i isHandover
      split at member
      · exact .inl member
      · rcases mem_append.mp member with old | new
        · exact .inl old
        · cases mem_singleton.mp new
          rw [isHandover] at owner
          exact .inr ⟨owner, rfl, rfl⟩
    · split at member <;> exact .inl member

/-- What a block adds to the events. -/
theorem origin_applyTxs {l : Ledger} {scripts : WalletScripts} {txs : List Transaction} :
    ∀ ev ∈ (l.applyTxs C scripts txs height).handover,
      Origin l.handover scripts (txs.flatMap (Ledger.outputsOf C)) ev := by
  let I : Ledger → Prop := fun now => ∀ ev ∈ now.handover,
    Origin l.handover scripts (txs.flatMap (Ledger.outputsOf C)) ev
  have start : I l := fun ev member => .inl ⟨ev, member, rfl, rfl, rfl⟩
  refine foldl_invariant (I := I) start fun now tx inTxs inv => ?_
  refine foldl_invariant (I := I) ?_ ?_
  · refine foldl_invariant (I := I) inv ?_
    intro now input _ inv ev member
    obtain ⟨old, inOld, rfl⟩ := mem_map.mp member
    exact (inv old inOld).sameOutput sameOutput_noteHandoverSpend
  · intro now paid inOutputs inv ev member
    rcases owner_of_new_event member with old | ⟨owner, outpoint, value⟩
    · exact inv ev old
    · exact .inr ⟨paid, mem_flatMap.mpr ⟨tx, inTxs, inOutputs⟩, owner, outpoint, value⟩

/-- A hand-over script of the walk is one it took when it started. -/
theorem extra_of_ownerOf {net : Net} {extras : List (Nat × Script)} {spk : Script} {index : Nat}
    (owner : (net.scripts.withExtras extras).ownerOf spk = some (chainHandover, index)) :
    (index, spk) ∈ extras := by
  obtain ⟨e, member, isSpk, place⟩ := WalletScripts.entry_of_ownerOf owner
  obtain ⟨chain, isIndex⟩ := Prod.mk.inj place
  rcases mem_append.mp member with own | extra
  · exact absurd chain (net.noHandover e own)
  · obtain ⟨pair, inExtras, rfl⟩ := mem_map.mp extra
    cases isSpk
    cases isIndex
    exact inExtras

/-! ## The whole system -/

/-- The record of the event's payment is the one whose script the output pays. -/
def Known (E : Env) (recs : Records) (seen : List (OutPoint × TxOut)) (ev : HandoverEvent) : Prop :=
  ∃ r, recs[E.hashOf (E.secret ev.index)]? = some r ∧ Paid E seen r ev.outpoint ev.valueSats

/-- A watched script is the one of its payment's record. -/
def Watched (E : Env) (recs : Records) (extra : Nat × Script) : Prop :=
  ∃ r t, recs[E.hashOf (E.secret extra.1)]? = some r ∧ r.t = some t ∧ extra.2 = r.spkAt E t

/-- Records are kept under the hash of their index's secret. -/
structure Kept (E : Env) (seen : List (OutPoint × TxOut)) (h : Hash) (r : Record) : Prop where
  hash : r.hash = h
  derives : E.hashOf (E.secret r.index) = h
  sighted : Sighted E seen r

structure Sound (E : Env) (w : World) : Prop where
  records : ∀ (h : Hash) (r : Record), w.recs[h]? = some r → Kept E w.seen h r
  stored : ∀ ev ∈ w.stored.handover, Known E w.recs w.seen ev
  events : ∀ walk ∈ w.walks, ∀ ev ∈ walk.view.handover, Known E w.recs w.seen ev
  watched : ∀ walk ∈ w.walks, ∀ extra ∈ walk.extras, Watched E w.recs extra

theorem Known.sameOutput {recs : Records} {ev ev' : HandoverEvent} (known : Known E recs seen ev)
    (same : SameOutput ev' ev) : Known E recs seen ev' := by
  obtain ⟨r, found, paid⟩ := known
  refine ⟨r, ?_, ?_⟩
  · rw [same.index]
    exact found
  · rw [same.outpoint, same.value]
    exact paid

/-- Every record's successor keeps it. -/
def Follows (recs recs' : Records) : Prop :=
  ∀ (h : Hash) (r : Record), recs[h]? = some r → ∃ r', recs'[h]? = some r' ∧ Keeps r r'

theorem Known.follows {recs recs' : Records} (known : Known E recs seen ev)
    (follows : Follows recs recs') : Known E recs' seen ev := by
  obtain ⟨r, found, paid⟩ := known
  obtain ⟨r', found', keeps⟩ := follows _ r found
  exact ⟨r', found', paid.keeps keeps⟩

theorem Watched.follows {recs recs' : Records} {extra : Nat × Script}
    (watched : Watched E recs extra) (follows : Follows recs recs') : Watched E recs' extra := by
  obtain ⟨r, t, found, set, script⟩ := watched
  obtain ⟨r', found', keeps⟩ := follows _ r found
  exact ⟨r', t, found', keeps.t t set, script.trans (keeps.spkAt t).symm⟩

variable {w : World}

/-- New records for old. -/
theorem Sound.withRecs {recs' : Records} (sound : Sound E w) (follows : Follows w.recs recs')
    (kept : ∀ (h : Hash) (r : Record), recs'[h]? = some r → Kept E w.seen h r) :
    Sound E { w with recs := recs' } where
  records := kept
  stored ev member := (sound.stored ev member).follows follows
  events walk running ev member := (sound.events walk running ev member).follows follows
  watched walk running extra member := (sound.watched walk running extra member).follows follows

theorem Kept.good {h : Hash} (kept : Kept E seen h r) (good : Good E seen r r') :
    Keeps r r' ∧ Kept E seen h r' := by
  obtain ⟨keeps, sighted⟩ := good kept.sighted
  refine ⟨keeps, keeps.hash.trans kept.hash, ?_, sighted⟩
  rw [keeps.index]
  exact kept.derives

theorem Sound.insert {h : Hash} (sound : Sound E w)
    (keeps : ∀ r, w.recs[h]? = some r → Keeps r r') (kept : Kept E w.seen h r') :
    Sound E { w with recs := w.recs.insert h r' } := by
  refine sound.withRecs (fun key old isOld => ?_) fun key new isNew => ?_
  · rw [Maps.ext_getElem?_insert]
    split
    · rename_i same
      subst same
      exact ⟨r', rfl, keeps old isOld⟩
    · exact ⟨old, isOld, .refl old⟩
  · rw [Maps.ext_getElem?_insert] at isNew
    split at isNew
    · rename_i same
      subst same
      cases isNew
      exact kept
    · exact sound.records key new isNew

theorem Sound.update {h : Hash} {change : Record → Except String Record} (sound : Sound E w)
    (good : ∀ r r', w.recs[h]? = some r → change r = .ok r' → Good E w.seen r r') :
    Sound E (w.apply (OnchainPay.update w.recs h change)) := by
  unfold World.apply
  cases result : OnchainPay.update w.recs h change with
  | error message => exact sound
  | ok recs' =>
    obtain ⟨r, found, rest⟩ := bind_eq_ok.mp result
    obtain ⟨r', changed, rest⟩ := bind_eq_ok.mp rest
    cases pure_eq_ok.mp rest
    have found := context_eq_ok.mp found
    have both := (sound.records h r found).good (good r r' found changed)
    refine sound.insert (fun old isOld => ?_) both.2
    cases Option.some.inj (found.symm.trans isOld)
    exact both.1

theorem Sound.map {f : Record → Record} (sound : Sound E w)
    (good : ∀ (h : Hash) (r : Record), w.recs[h]? = some r → Good E w.seen r (f r)) :
    Sound E { w with recs := w.recs.map fun _ r => f r } := by
  refine sound.withRecs (fun h old isOld => ?_) fun h new isNew => ?_
  · refine ⟨f old, ?_, ((sound.records h old isOld).good (good h old isOld)).1⟩
    rw [Std.ExtTreeMap.getElem?_map, isOld]
    rfl
  · rw [Std.ExtTreeMap.getElem?_map] at isNew
    obtain ⟨old, isOld, rfl⟩ := Option.map_eq_some_iff.mp isNew
    exact ((sound.records h old isOld).good (good h old isOld)).2

/-- A quote that passes its checks is the record of its index's hash, with no lock. -/
theorem checkQuote_yields {asked : Asked} {quote : Json.Value} :
    Yields (checkQuote E asked quote) fun r =>
      r.index = asked.index ∧ r.hash = E.hashOf (E.secret asked.index) ∧ r.state = .quoted ∧
        r.t = none ∧ r.lockSeenTxid = none := by
  unfold checkQuote
  -- the checks decide whether there is a record, not what it is
  repeat' refine .bind fun _ => ?_
  exact .pure ⟨rfl, rfl, rfl, rfl, rfl⟩

theorem recordQuote_eq_ok {asked : Asked} {quote : Json.Value} {recs recs' : Records}
    (ok : recordQuote E asked quote recs = .ok recs') :
    ∃ r, checkQuote E asked quote = .ok r ∧ (recs[r.hash]?.map Record.isOpen).getD false = false ∧
      recs' = recs.insert r.hash r := by
  obtain ⟨r, checked, rest⟩ := bind_eq_ok.mp ok
  obtain ⟨closed, rest⟩ := ensure_bind_eq_ok.mp rest
  exact ⟨r, checked, closed, (pure_eq_ok.mp rest).symm⟩

section

variable (sound : Sound E w)
include sound

theorem Sound.quote {asked : Asked} {quote : Json.Value}
    (new : w.recs[E.hashOf (E.secret asked.index)]? = none) :
    Sound E (w.apply (recordQuote E asked quote w.recs)) := by
  unfold World.apply
  cases result : recordQuote E asked quote w.recs with
  | error message => exact sound
  | ok recs' =>
    obtain ⟨r, checked, _, rfl⟩ := recordQuote_eq_ok result
    obtain ⟨index, hash, state, unset, unseen⟩ := checkQuote_yields _ checked
    rw [← hash] at new
    refine sound.insert (fun old isOld => ?_) ⟨rfl, ?_, fun _ => unset, fun _ => unseen, ?_⟩
    · cases new.symm.trans isOld
    · rw [index]
      exact hash.symm
    · intro id found
      cases unseen.symm.trans found

/-! ### The walk's steps -/

theorem watched_extras : ∀ extra ∈ extras E w.recs, Watched E w.recs extra := by
  intro extra member
  obtain ⟨entry, listed, isExtra⟩ := mem_filterMap.mp member
  have found := Std.ExtTreeMap.mem_toList_iff_getElem?_eq_some.mp listed
  unfold Record.extra at isExtra
  split at isExtra
  · obtain ⟨t, set, rfl⟩ := Option.map_eq_some_iff.mp isExtra
    refine ⟨entry.2, t, ?_, set, rfl⟩
    rw [(sound.records entry.1 entry.2 found).derives]
    exact found
  · cases isExtra

/-- A block read by a walk. -/
theorem known_read {walk : Walk} {txs : List Transaction} (running : walk ∈ w.walks) :
    ∀ ev ∈ (walk.read C txs height).view.handover,
      Known E w.recs (txs.flatMap (Ledger.outputsOf C) ++ w.seen) ev := by
  intro ev member
  rcases origin_applyTxs ev member with ⟨old, inOld, same⟩ | ⟨paid, inBlock, owner, outpoint, value⟩
  · obtain ⟨r, found, paid⟩ := (sound.events walk running old inOld).sameOutput same
    exact ⟨r, found, paid.mono (subset_append_right _ _)⟩
  · obtain ⟨r, t, found, set, script⟩ :=
      sound.watched walk running _ (extra_of_ownerOf owner)
    refine ⟨r, found, t, set, mem_append_left _ ?_⟩
    have out : (⟨ev.valueSats, r.spkAt E t⟩ : TxOut) = paid.2 := by
      rw [value, ← script]
    rw [outpoint, out]
    exact inBlock

/-- A walk's own ledger changes; its scripts stay. -/
theorem Sound.modify {i : Nat} {f : Walk → Walk} (sub : w.seen ⊆ more)
    (sameExtras : ∀ walk, (f walk).extras = walk.extras)
    (known : ∀ walk ∈ w.walks, ∀ ev ∈ (f walk).view.handover, Known E w.recs more ev) :
    Sound E { w with walks := w.walks.modify i f, seen := more } := by
  have mono : ∀ ev, Known E w.recs w.seen ev → Known E w.recs more ev := by
    rintro ev ⟨r, found, paid⟩
    exact ⟨r, found, paid.mono sub⟩
  have cases' : ∀ walk ∈ w.walks.modify i f, walk ∈ w.walks ∨ ∃ old ∈ w.walks, walk = f old := by
    intro walk member
    obtain ⟨j, at_j⟩ := mem_iff_getElem?.mp member
    rw [getElem?_modify] at at_j
    obtain ⟨old, isOld, rfl⟩ := Option.map_eq_some_iff.mp at_j
    split
    · exact .inr ⟨old, mem_of_getElem? isOld, rfl⟩
    · exact .inl (mem_of_getElem? isOld)
  constructor
  · intro h r found
    obtain ⟨hash, derives, sighted⟩ := sound.records h r found
    exact ⟨hash, derives, sighted.mono sub⟩
  · intro ev member
    exact mono ev (sound.stored ev member)
  · intro walk running ev member
    rcases cases' walk running with same | ⟨old, isOld, rfl⟩
    · exact mono ev (sound.events walk same ev member)
    · exact known old isOld ev member
  · intro walk running extra member
    rcases cases' walk running with same | ⟨old, isOld, rfl⟩
    · exact sound.watched walk same extra member
    · rw [sameExtras] at member
      exact sound.watched old isOld extra member

/-- Fewer walks. -/
theorem Sound.withWalks {walks : List Walk} (fewer : walks ⊆ w.walks) :
    Sound E { w with walks } where
  __ := sound
  events walk running := sound.events walk (fewer running)
  watched walk running := sound.watched walk (fewer running)

theorem Sound.noteEvents {walk : Walk} (running : walk ∈ w.walks) :
    Sound E { w with recs := OnchainPay.noteEvents E w.recs walk.view.handover } := by
  refine sound.map fun h r found => good_noteRecord fun ev member own => ?_
  obtain ⟨r', found', paid⟩ := sound.events walk running ev member
  rw [own, (sound.records h r found).derives] at found'
  cases Option.some.inj (found.symm.trans found')
  exact paid

end

theorem Sound.start : Sound E .start := by
  constructor
  · intro h r found
    simp [World.start] at found
  · intro ev member
    cases member
  · intro walk running
    cases running
  · intro walk running
    cases running

/-- One step of the system. -/
theorem Sound.step {s : Step} (sound : Sound E w) (steady : Steady E w s) :
    Sound E (w.step E C s) := by
  cases s with
  | quote asked quote => exact sound.quote steady
  | mark h m => exact sound.update fun r r' _ ok => (aside_markRecord ok).good
  | report h report =>
    exact sound.update fun r r' found ok =>
      good_reportRecord (fun t isLocked set => steady r t found isLocked set) ok
  | latch h settled => exact sound.map fun _ r _ => aside_latchRecord.good
  | markReleased h txid | markReleasedV2 h txid txidFast tip =>
    refine sound.update fun r r' _ ok => Aside.good ?_
    obtain ⟨_, rest⟩ := ensure_bind_eq_ok.mp ok
    cases pure_eq_ok.mp rest
    exact { state := .inr (.inr (by simp)) }
  | rewalkDone =>
    exact sound.map fun _ r _ => Aside.good {}
  | walkStart net =>
    refine ⟨sound.records, sound.stored, fun walk running => ?_, fun walk running => ?_⟩
    · rcases mem_cons.mp running with rfl | old
      · exact sound.stored
      · exact sound.events walk old
    · rcases mem_cons.mp running with rfl | old
      · exact watched_extras sound
      · exact sound.watched walk old
  | walkRead i txs height =>
    rw [World.step]
    split_ifs
    · exact sound.modify (subset_append_right _ _) (fun _ => rfl) fun walk running =>
        known_read sound running
    · exact sound
  | walkRollback i height =>
    refine sound.modify (List.Subset.refl _) (fun _ => rfl) fun walk running ev member => ?_
    obtain ⟨old, inOld, rfl⟩ := mem_map.mp member
    exact (sound.events walk running old (mem_of_mem_filter inOld)).sameOutput
      sameOutput_unspendEventAbove
  | walkRebuild i =>
    refine sound.modify (List.Subset.refl _) (fun _ => rfl) fun walk running ev member => ?_
    cases member
  | walkSave i =>
    refine ⟨sound.records, fun ev member => ?_, sound.events, sound.watched⟩
    cases running : w.walks[i]? with
    | none =>
      rw [World.step, running] at member
      exact sound.stored ev member
    | some walk =>
      rw [World.step, running] at member
      exact sound.events walk (mem_of_getElem? running) ev member
  | walkEnd i =>
    unfold World.step
    dsimp only
    split
    · exact sound
    · rename_i walk running
      split
      · exact (sound.noteEvents (mem_of_getElem? running)).withWalks
          (eraseIdx_subset)
      · exact sound.withWalks eraseIdx_subset

/-! ## The release -/

theorem input_buildRelease {index lockValue amountSats rate : Nat} {lock : OutPoint}
    {script recipientSpk reserveSpk : Script} {tx : Transaction}
    (ok : buildRelease E index lock lockValue script recipientSpk amountSats reserveSpk rate =
      .ok tx) : tx.input.map TxIn.previousOutput = [lock] := by
  obtain ⟨_, _, rest⟩ := bind_eq_ok.mp ok
  cases pure_eq_ok.mp rest
  rfl

/-- A release and its fast copy spend the outpoint the record holds. -/
theorem releaseKvb_eq_ok {recs : Records} {h : Hash} {rate tip : Nat} {tx : Transaction}
    {fast : Option Transaction} (ok : releaseKvb E recs h rate tip = .ok (tx, fast)) :
    ∃ r txid vout, recs[h]? = some r ∧ r.lockSeenTxid = some txid ∧ r.lockVout = some vout ∧
      ∀ release ∈ tx :: fast.toList, release.input.map TxIn.previousOutput = [⟨txid, vout⟩] := by
  simp only [releaseKvb, bind_eq_ok, ensure_eq_ok, exists_const, context_eq_ok, pure_eq_ok] at ok
  obtain ⟨r, found, _, _, _, _, _, _, txid, isTxid, vout, isVout, _, _, _, _, release, built,
    same⟩ := ok
  obtain ⟨isTx, isFast⟩ := Prod.mk.inj same
  refine ⟨r, txid, vout, found, isTxid, isVout, fun tx' member => ?_⟩
  rcases mem_cons.mp member with rfl | copy
  · rw [← isTx]
    exact input_buildRelease built
  · rw [← isFast] at copy
    have isCopy := Option.mem_toList.mp copy
    exact input_buildRelease (toOption_eq_some.mp isCopy)

/-- In every run in which a repeated report keeps the take-back block and quotes are under new
hashes, a release spends an output that was read in a block and that pays exactly the hand-over
script of the record's take-back block, with the lock's amount. -/
theorem release_spends_seen_lock {steps : List Step}
    (steady : Meets (World.step E C) (Steady E) .start steps) {h : Hash} {rate tip : Nat}
    {tx : Transaction} {fast : Option Transaction}
    (released : releaseKvb E (steps.foldl (World.step E C) .start).recs h rate tip =
      .ok (tx, fast)) :
    ∃ r t op, (steps.foldl (World.step E C) .start).recs[h]? = some r ∧ r.t = some t ∧
      (op, ⟨r.lockSats, E.wsh (handoverScript r.hash r.wPubkey r.lPubkey t)⟩) ∈
        (steps.foldl (World.step E C) .start).seen ∧
      ∀ release ∈ tx :: fast.toList, release.input.map TxIn.previousOutput = [op] := by
  have sound : Sound E (steps.foldl (World.step E C) .start) :=
    steady.invariant (fun _ _ sound now => sound.step now) .start
  obtain ⟨r, txid, vout, found, isTxid, isVout, spends⟩ := releaseKvb_eq_ok released
  obtain ⟨v, isVout', t, set, member⟩ := (sound.records h r found).sighted.lock txid isTxid
  cases Option.some.inj (isVout.symm.trans isVout')
  exact ⟨r, t, ⟨txid, vout⟩, found, set, member, spends⟩

/-! ## Two runs -/

namespace Sample

/-- Keys and hashes that are easy to compute. -/
def key : Key := BitVec.ofNat 264 (2 * 2 ^ 256 + 5)

def env : Env where
  secret index := BitVec.ofNat 256 (index + 1)
  hashOf := id
  releasePubkey _ := .ok key
  recipientSpk _ := .ok (replicate 22 0)
  changeSpkAt _ := .ok (replicate 22 1)
  wsh := id
  address script := if script = handoverScript 1 key key 1144 then "first" else "second"
  parseInvoice text :=
    if text = "a" then .ok ⟨7, some 15000, key, true, 0⟩ else .ok ⟨1, some 2000000, key, true, 200⟩
  signRelease _ _ _ _ := []

def crypto : Crypto where
  computeTxid tx := BitVec.ofNat 256 tx.lockTime
  wpkhScript _ := none

def asked : Asked := ⟨0, "recipient", 1000, 500, 500, Hex.encode (Bytes.of264 key), 0⟩

def quote : Json.Value :=
  .obj [("payment_hash", .str (Hex.encode (Bytes.of256 1))),
    ("L", .str (Hex.encode (Bytes.of264 key))), ("provider_fee_sats", .int 10),
    ("lock_fee_sats", .int 5), ("lock_sats", .int 2000), ("refund_blocks", .int 144),
    ("stop_release_blocks", .int 12), ("b_expiry_blocks", .int 200),
    ("a", .obj [("bolt11", .str "a")]), ("b", .obj [("bolt11", .str "b")])]

def report (t : Int) (address : String) : Json.Value :=
  .obj [("T", .int t), ("lock_block", .int 1000), ("handover_address", .str address),
    ("lock_txids", .arr [.str "09"])]

/-- The provider's lock, for the take-back block 1144. -/
def lockTx : Transaction :=
  ⟨2, 9, [], [⟨2000, handoverScript 1 key key 1144⟩]⟩

def net : Net := ⟨⟨[]⟩, fun _ member => (not_mem_nil member).elim⟩

/-- One report, then a walk that sees the lock. -/
def steady : List Step :=
  [.quote asked quote, .report 1 (report 1144 "first"), .walkStart net,
    .walkRead 0 [lockTx] 1001, .walkEnd 0]

/-- A second report with another take-back block, while the walk is under way. -/
def changed : List Step :=
  [.quote asked quote, .report 1 (report 1144 "first"), .walkStart net,
    .walkRead 0 [lockTx] 1001, .report 1 (report 1150 "second"), .walkEnd 0]

def world (steps : List Step) : World := steps.foldl (World.step env crypto) .start

end Sample

/-- A run whose release is built. -/
theorem release_spends_seen_lock_one :
    ∃ tx fast r t op,
      releaseKvb Sample.env (Sample.world Sample.steady).recs 1 0 1002 = .ok (tx, fast) ∧
      (Sample.world Sample.steady).recs[(1 : Hash)]? = some r ∧ r.t = some t ∧
      (op, ⟨r.lockSats, Sample.env.wsh (handoverScript r.hash r.wPubkey r.lPubkey t)⟩) ∈
        (Sample.world Sample.steady).seen ∧
      ∀ release ∈ tx :: fast.toList, release.input.map TxIn.previousOutput = [op] := by
  have built : (releaseKvb Sample.env (Sample.world Sample.steady).recs 1 0 1002).isOk = true := by
    decide +kernel
  have released := eq_ok_of_isOk built (Sample.lockTx, none)
  have run : Meets (World.step Sample.env Sample.crypto) (Steady Sample.env) .start
      Sample.steady := by
    refine ⟨?_, ?_, trivial, trivial, trivial, trivial⟩
    · exact Std.ExtTreeMap.getElem?_empty
    · intro r t found isLocked _
      have early : ((World.step Sample.env Sample.crypto .start
          (.quote Sample.asked Sample.quote)).recs[(1 : Hash)]?.map Record.state) =
            some .quoted := by decide +kernel
      rw [found, Option.map_some, isLocked] at early
      cases early
  obtain ⟨r, t, op, found, set, seen, spends⟩ := release_spends_seen_lock run released
  exact ⟨_, _, r, t, op, released, found, set, seen, spends⟩

/-- The report changed the take-back block while a walk was under way: the release is built, and
nothing that was read in a block pays its script. -/
theorem release_after_changed_report :
    ((releaseKvb Sample.env (Sample.world Sample.changed).recs 1 0 1002).toOption.map fun built =>
      built.1.input.map TxIn.previousOutput) = some [⟨9, 0⟩] ∧
    ((Sample.world Sample.changed).recs[(1 : Hash)]?.map Record.t) = some (some 1150) ∧
    ∀ out ∈ (Sample.world Sample.changed).seen,
      out.2.scriptPubkey ≠
        Sample.env.wsh (handoverScript 1 Sample.key Sample.key 1150) := by
  decide +kernel

end Lij.Node.OnchainPay
