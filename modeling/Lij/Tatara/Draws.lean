import Lij.Foundation.Sessions
import Lij.Tatara.Moves

/-!
# The random values an attempt draws

Every random value of an attempt is a hash of its entropy and of a counter that
is raised before each draw. The counter is a 32-bit word, so its values are
distinct as long as it does not wrap. It does not: an attempt draws one value for
each coin when it joins and one when it registers its payout, one when the last
payout lets it build the pool, and one for each coin when it signs the funding.
The build can fail after its draw and be tried again with the next payout, which
needs one more key image than there are ring keys; a linkable ring signature has
none.

The same pass over the handlers says where a partial signature can come from:
only from `trySign`.
-/

namespace Lij.Tatara.Attempt

open Bitcoin Joinstr Checked Fallible List

variable {P : Primitives}

/-- No ring of keys verifies signatures under more key images than it has keys. -/
def Linkable (P : Primitives) : Prop :=
  ∀ (ring : List Point) (images : List String), images.Nodup →
    (∀ image ∈ images, ∃ m sig, P.ringVerify ring m sig = .ok image) →
    images.length ≤ ring.length

/-- How many more values the attempt may draw. -/
def remaining (a : Attempt P) : Nat :=
  match a.phase with
  | .inputs | .channel => a.me.coins.length + 2
  | .payouts => a.me.coins.length + if a.payouts.length < a.params.peers then 1 else 0
  | .view | .signing | .funding => a.me.coins.length
  | .fundingSigned | .stopped => 0

/-- What the ring signatures of the registered payouts say about their number. -/
structure Ringed (me : MyPart) (a : Attempt P) : Prop where
  coins : a.me.coins = me.coins
  entropy : a.me.entropy = me.entropy
  size : a.regs.size ≤ a.params.peers
  closed : 0 < a.images.size → a.params.peers ≤ a.regs.size
  ring : ∀ image ∈ a.images, ∃ m sig, P.ringVerify a.ringKeys m sig = .ok image
  payouts : a.payouts.length = a.images.size

/-- A part that draws no more than a word can count. -/
def Few (me : MyPart) : Prop := 2 * me.coins.length + 2 < 2 ^ 32

/-- The counter has come from `least` and stays below what the attempt may draw in all. -/
structure Drawing (me : MyPart) (least : Nat) (a : Attempt P) : Prop extends Ringed me a where
  least : Linkable P → least ≤ a.auxN
  budget : Linkable P → a.auxN + a.remaining ≤ 2 * me.coins.length + 2

/-- The counter of an attempt that is about to stop. -/
structure Spent (me : MyPart) (least : Nat) (a : Attempt P) : Prop extends Ringed me a where
  least : Linkable P → least ≤ a.auxN
  spent : Linkable P → a.auxN ≤ 2 * me.coins.length + 2

/-- Does this action post partial signatures? -/
def isSignature : Action P → Bool
  | .post json => P.kindOf json = some .partialSigs
  | _ => false

@[simp] theorem isSignature_post (msg : Msg) :
    isSignature (post msg : Action P) = (msg.kind = .partialSigs : Bool) := by
  simp [isSignature, post, P.kindOf_envelopeJson]

@[simp] theorem isSignature_view (hash : String) :
    isSignature (.post (P.viewJson hash) : Action P) = false := by
  simp [isSignature, P.kindOf_viewJson]

def Quiet (acts : List (Action P)) : Prop := ∀ act ∈ acts, isSignature act = false

/-- The contract of a handler that does not sign exits. -/
def Quietly (me : MyPart) (least : Nat) (acts : List (Action P)) (a : Attempt P) : Prop :=
  Drawing me least a ∧ Quiet acts

variable {me : MyPart} {least : Nat} {a b : Attempt P}

theorem quiet_nil : Quiet ([] : List (Action P)) := by
  intro act member
  cases member

theorem quiet_stopActions (a : Attempt P) (reason : String) (named : List SessionKey) :
    Quiet (a.stopActions reason named) := by
  intro act member
  rcases mem_append.mp member with abort | stopped
  · split at abort
    · rw [mem_singleton.mp abort]
      simp [Msg.kind]
    · cases abort
  · rw [mem_singleton.mp stopped]
    rfl

/-! ## Frames -/

/-- Everything the invariants read, but the counter and the phase, is unchanged. -/
structure SameRing (a b : Attempt P) : Prop where
  coins : b.me.coins = a.me.coins := by rfl
  entropy : b.me.entropy = a.me.entropy := by rfl
  pool : b.params = a.params := by rfl
  regs : b.regs = a.regs := by rfl
  images : b.images = a.images := by rfl
  payouts : b.payouts = a.payouts := by rfl

theorem Ringed.congr (ringed : Ringed me a) (same : SameRing a b) : Ringed me b := by
  have ringKeys : b.ringKeys = a.ringKeys := by
    unfold ringKeys registrations
    rw [same.regs]
  constructor
  · rw [same.coins]
    exact ringed.coins
  · rw [same.entropy]
    exact ringed.entropy
  · rw [same.regs, same.pool]
    exact ringed.size
  · rw [same.regs, same.pool, same.images]
    exact ringed.closed
  · rw [same.images, ringKeys]
    exact ringed.ring
  · rw [same.payouts, same.images]
    exact ringed.payouts

theorem Drawing.congr (drawing : Drawing me least a) (same : SameRing a b)
    (auxN : b.auxN = a.auxN) (left : b.remaining ≤ a.remaining) : Drawing me least b := by
  refine ⟨drawing.toRinged.congr same, fun linkable => ?_, fun linkable => ?_⟩
  · rw [auxN]
    exact drawing.least linkable
  · have budget := drawing.budget linkable
    omega

theorem Drawing.spent (drawing : Drawing me least a) : Spent me least a where
  __ := drawing
  spent := fun linkable => Nat.le_of_add_right_le (drawing.budget linkable)

theorem Spent.congr (spent : Spent me least a) (same : SameRing a b) (auxN : b.auxN = a.auxN) :
    Spent me least b := by
  refine ⟨spent.toRinged.congr same, ?_, ?_⟩
  · rw [auxN]
    exact spent.least
  · rw [auxN]
    exact spent.spent

/-- A finished attempt draws nothing more. -/
theorem Spent.halted (spent : Spent me least a) (halted : a.remaining = 0) :
    Drawing me least a := by
  refine ⟨spent.toRinged, spent.least, fun linkable => ?_⟩
  rw [halted]
  exact spent.spent linkable

theorem Spent.fundingSigned (spent : Spent me least a) :
    Drawing me least { a with phase := .fundingSigned } := by
  have finished : Spent me least { a with phase := .fundingSigned } := spent.congr {} rfl
  exact finished.halted rfl

theorem Spent.stopped (spent : Spent me least a) : Drawing me least a.stopped :=
  (spent.congr (b := a.stopped) {} rfl).halted rfl

/-- One draw from a counter that is allowed it. -/
theorem add32_auxN (few : Few me) (allowed : a.auxN < 2 * me.coins.length + 2) :
    Word.add32 a.auxN 1 = a.auxN + 1 := by
  unfold Few at few
  exact Nat.mod_eq_of_lt (by omega)

theorem Spent.draw (spent : Spent me least a) (few : Few me)
    (allowed : Linkable P → a.auxN < 2 * me.coins.length + 2) :
    Spent me least { a with auxN := Word.add32 a.auxN 1 } := by
  refine ⟨spent.toRinged.congr {}, fun linkable => ?_, fun linkable => ?_⟩
  · have atLeast := spent.least linkable
    change least ≤ Word.add32 a.auxN 1
    rw [add32_auxN few (allowed linkable)]
    omega
  · have room := allowed linkable
    change Word.add32 a.auxN 1 ≤ _
    rw [add32_auxN few room]
    omega

/-- A draw that moves to a phase with one draw less. -/
theorem Drawing.draw (drawing : Drawing me least a) (few : Few me) (same : SameRing a b)
    (auxN : b.auxN = Word.add32 a.auxN 1) (left : b.remaining + 1 ≤ a.remaining) :
    Drawing me least b := by
  refine ⟨drawing.toRinged.congr same, fun linkable => ?_, fun linkable => ?_⟩
  all_goals
    have budget := drawing.budget linkable
    have atLeast := drawing.least linkable
    rw [auxN, add32_auxN few (by omega)]
    omega

theorem aux_ends {failed : Attempt P → Prop} :
    Ends aux a (fun _ b => b = { a with auxN := Word.add32 a.auxN 1 }) failed := rfl

theorem stop_ends (reason : String) (named : List SessionKey) {failed : Attempt P → Prop}
    (spent : Spent me least a) :
    Ends (stop reason named) a (Quietly me least) failed :=
  .get_bind (.modify_bind (.pure ⟨spent.stopped, quiet_stopActions a reason named⟩))

theorem nothing_ends {failed : Attempt P → Prop} (drawing : Drawing me least a) :
    Ends (pure []) a (Quietly me least) failed := .pure ⟨drawing, quiet_nil⟩

/-- The attempt with one more payout. -/
def withPayout (a : Attempt P) (spk : Script) (image : String) (json : P.Text) : Attempt P :=
  { a with images := a.images.insert image (spk, json), payouts := a.payouts ++ [(spk, 0)] }

theorem remaining_withPayout_le (a : Attempt P) (spk : Script) (image : String) (json : P.Text) :
    (a.withPayout spk image json).remaining ≤ a.remaining := by
  have longer : (a.withPayout spk image json).payouts.length = a.payouts.length + 1 := by
    change (a.payouts ++ [(spk, 0)]).length = _
    simp
  unfold remaining
  rw [longer]
  change (match a.phase with
    | .inputs | .channel => a.me.coins.length + 2
    | .payouts => a.me.coins.length + if a.payouts.length + 1 < a.params.peers then 1 else 0
    | .view | .signing | .funding => a.me.coins.length
    | .fundingSigned | .stopped => 0) ≤ _
  cases a.phase with
  | payouts =>
    dsimp only
    split <;> split <;> omega
  | _ => exact Nat.le_refl _

/-! ## Page answers -/

/-- Signing the coins draws one value each. -/
theorem signCoins_ends (few : Few me) (tx : Transaction) (prevouts : List TxOut)
    (coins : List (OutPoint × TxOut × SecretKey)) (a : Attempt P) (spent : Spent me least a)
    (allowed : Linkable P → a.auxN + coins.length ≤ 2 * me.coins.length + 2) :
    Ends (signCoins tx prevouts coins) a
      (fun _ b => Spent me least b ∧ ∃ n, b = { a with auxN := n }) (Spent me least) := by
  induction coins generalizing a with
  | nil => exact .pure ⟨spent, a.auxN, rfl⟩
  | cons coin coins ih =>
    obtain ⟨op, out, sk⟩ := coin
    have first : Linkable P → a.auxN < 2 * me.coins.length + 2 := by
      intro linkable
      have all := allowed linkable
      rw [length_cons] at all
      omega
    have drawn := spent.draw few first
    refine .lift_bind (fun idx _ => .bind aux_ends ?_) spent
    rintro value _ rfl
    refine .lift_bind (fun witness _ => .bind (ih _ drawn fun linkable => ?_) ?_) drawn
    · have all := allowed linkable
      change Word.add32 a.auxN 1 + coins.length ≤ _
      rw [add32_auxN few (first linkable)]
      rw [length_cons] at all
      omega
    · rintro rest b ⟨after, n, rfl⟩
      exact .pure ⟨after, n, rfl⟩

theorem tryFund_ends (few : Few me) (drawing : Drawing me least a) (phase : a.phase = .funding) :
    Ends tryFund a (Quietly me least) (Spent me least) := by
  have spent := drawing.spent
  refine .get_bind (.ite (fun _ => nothing_ends drawing) fun _ => ?_)
  refine .lift_bind (fun built _ => ?_) spent
  have allowed : Linkable P → a.auxN + a.me.coins.length ≤ 2 * me.coins.length + 2 := by
    intro linkable
    have budget := drawing.budget linkable
    rwa [remaining, phase] at budget
  refine .bind (signCoins_ends few _ _ _ a spent allowed) ?_
  rintro witnesses b ⟨after, n, rfl⟩
  refine .modify_bind (.pure ⟨after.fundingSigned, ?_⟩)
  intro act member
  simp only [mem_cons, not_mem_nil, or_false] at member
  rcases member with rfl | rfl
  · simp [Msg.kind]
  · rfl

theorem registerPayout_ends (few : Few me) (drawing : Drawing me least a)
    (phase : a.phase = .inputs ∨ a.phase = .channel) :
    Ends registerPayout a (Quietly me least) (Spent me least) := by
  have left : a.remaining = a.me.coins.length + 2 := by
    rcases phase with phase | phase <;> rw [remaining, phase]
  have drawn : Spent me least { a with auxN := Word.add32 a.auxN 1 } := by
    refine drawing.spent.draw few fun linkable => ?_
    have budget := drawing.budget linkable
    omega
  refine .get_bind (.lift_bind (fun payout _ => .bind aux_ends ?_) drawing.spent)
  rintro value _ rfl
  refine .lift_bind (fun sig _ => .lift_bind (fun address _ => ?_) drawn) drawn
  refine .modify_bind (.pure ⟨drawing.draw few {} rfl ?_, ?_⟩)
  · rw [left]
    change a.me.coins.length + (if _ then 1 else 0) + 1 ≤ _
    split <;> omega
  · intro act member
    rw [mem_singleton.mp member]
    rfl

theorem onCoins_ends (few : Few me) (drawing : Drawing me least a)
    (bad unanswered : List OutPoint) :
    Ends (onCoins bad unanswered) a (Quietly me least) (Spent me least) := by
  have spent := drawing.spent
  refine .get_bind (.ite (fun inFunding => ?_) fun _ => ?_)
  · refine .require_bind (fun _ => .require_bind (fun _ => .modify_bind ?_) spent) spent
    exact tryFund_ends few (drawing.congr {} rfl (Nat.le_refl _)) inFunding
  · refine .ite (fun _ => nothing_ends drawing) fun go => ?_
    have inInputs : a.phase = .inputs := not_not.mp (not_or.mp go).1
    refine .ite (fun _ => stop_ends _ _ spent) fun _ => ?_
    refine .ite (fun _ => stop_ends _ _ spent) fun _ => ?_
    refine .ite (fun _ => .modify_bind (.pure ⟨drawing.congr {} rfl ?_, ?_⟩)) fun _ => ?_
    · rw [remaining, remaining, inInputs]
    · intro act member
      rw [mem_singleton.mp member]
      rfl
    · exact registerPayout_ends few drawing (.inl inInputs)

section

variable (drawing : Drawing me least a)
include drawing

theorem onTick_ends (now : Nat) : Ends (onTick now) a (Quietly me least) (Spent me least) := by
  have spent := drawing.spent
  refine .get_bind (.ite (fun _ => .modify_bind ?_) fun _ => ?_)
  · exact nothing_ends (drawing.congr {} rfl (Nat.le_refl _))
  · refine .ite (fun _ => ?_) fun _ => nothing_ends drawing
    refine .ite (fun _ => stop_ends _ _ spent) fun _ => ?_
    exact .ite (fun _ => stop_ends _ _ spent) fun _ => stop_ends _ _ spent

end

end Lij.Tatara.Attempt
