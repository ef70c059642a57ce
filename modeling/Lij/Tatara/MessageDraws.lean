import Lij.Tatara.Draws

/-!
# The draws of the message handlers

What a message makes an attempt draw, and with it the budget of a whole run.
-/

namespace Lij.Tatara.Attempt

open Bitcoin Joinstr Checked Fallible List

variable {P : Primitives} {me : MyPart} {least : Nat} {a b : Attempt P}

section

variable (drawing : Drawing me least a)
include drawing

theorem closeRegistration_ends :
    Ends closeRegistration a (Quietly me least) (Drawing me least) := by
  refine .get_bind (.lift_bind (fun _ _ => .ite (fun _ => stop_ends _ _ drawing.spent) ?_) drawing)
  refine fun _ => .modify_bind (.pure ⟨drawing.congr {} rfl (Nat.le_refl _), ?_⟩)
  intro act member
  rw [mem_singleton.mp member]
  rfl

/-- A registration is only noted while no payout is. -/
theorem Drawing.register {sender : SessionKey} {entry : InputRegistration × P.Text}
    (new : sender ∉ a.regs) (room : a.regs.size < a.params.peers) :
    Drawing me least { a with regs := a.regs.insert sender entry } := by
  have empty : a.images.size = 0 := by
    by_contra some
    exact absurd (drawing.closed (Nat.pos_of_ne_zero some)) (not_le.mpr room)
  refine ⟨⟨drawing.coins, drawing.entropy, ?_, fun some => absurd empty (Nat.ne_of_gt some), ?_,
    drawing.payouts⟩, drawing.least, drawing.budget⟩
  · change (a.regs.insert sender entry).size ≤ a.params.peers
    rw [Maps.size_insert_of_notMem new]
    exact room
  · intro image member
    have none : a.images.isEmpty = true := by
      rw [Std.TreeMap.isEmpty_eq_size_eq_zero, empty]
      rfl
    exact absurd member (Std.TreeMap.not_mem_of_isEmpty none)

theorem onInputs_ends (sender : SessionKey) (musigPubkey ringPubkey : String)
    (inputs : List InputMsg) (change : Option ChangeMsg) (height : Nat) (denomination : Option Nat)
    (json : P.Text) :
    Ends (onInputs sender musigPubkey ringPubkey inputs change height denomination json) a
      (Quietly me least) (Drawing me least) := by
  refine .get_bind ?_
  cases seen : a.regs[sender]? with
  | some old => exact .require_bind (fun _ => nothing_ends drawing) drawing
  | none =>
    refine .ite (fun _ => nothing_ends drawing) fun go => ?_
    have new : sender ∉ a.regs := by simpa using seen
    have room : a.regs.size < a.params.peers := not_le.mp (not_or.mp go).2
    refine .require_bind (fun _ => .lift_bind (fun _ _ => .lift_bind (fun ins _ => ?_) drawing)
      drawing) drawing
    refine .ite (fun _ => stop_ends _ _ drawing.spent) fun _ => .lift_bind (fun reg _ => ?_)
      drawing
    have registered : Drawing me least { a with regs := a.regs.insert sender (reg, json) } :=
      drawing.register new room
    refine .modify_bind (.get_bind (.ite (fun _ => nothing_ends registered) fun _ => ?_))
    exact closeRegistration_ends registered

end

theorem length_ringKeys (a : Attempt P) : a.ringKeys.length = a.regs.size := by
  rw [ringKeys, length_insertionSort, length_map, registrations, length_map,
    Maps.length_values]

/-- A payout that was read carries a key image its ring signature verifies under. -/
theorem ringVerify_of_readOutput {address : String} {ringSig : RingSig} {priority : Nat}
    {denomination : Option Nat} {read : Script × String}
    (ok : a.readOutput address ringSig priority denomination = .ok read) :
    ∃ m sig, P.ringVerify a.ringKeys m sig = .ok read.2 := by
  simp only [readOutput, bind_eq_ok, ensure_eq_ok, exists_const, pure_eq_ok] at ok
  obtain ⟨_, _, _, _, _, _, image, verified, rfl⟩ := ok
  exact ⟨_, _, verified⟩

/-- With linkable signatures a new key image is one the members still owe. -/
theorem Ringed.payouts_lt (ringed : Ringed me a) (linkable : Linkable P) {image : String}
    (new : image ∉ a.images) (verified : ∃ m sig, P.ringVerify a.ringKeys m sig = .ok image) :
    a.payouts.length < a.params.peers := by
  have nodup : (image :: a.images.keys).Nodup :=
    nodup_cons.mpr ⟨fun member => new (Std.TreeMap.mem_keys.mp member), Maps.nodup_keys _⟩
  have bound := linkable a.ringKeys (image :: a.images.keys) nodup fun key member => by
    rcases mem_cons.mp member with rfl | old
    · exact verified
    · exact ringed.ring key (Std.TreeMap.mem_keys.mp old)
  rw [length_cons, Std.TreeMap.length_keys, length_ringKeys] at bound
  have size := ringed.size
  have payouts := ringed.payouts
  omega

theorem Ringed.withPayout (ringed : Ringed me a) {spk : Script} {image : String} {json : P.Text}
    (new : image ∉ a.images) (full : a.params.peers ≤ a.regs.size)
    (verified : ∃ m sig, P.ringVerify a.ringKeys m sig = .ok image) :
    Ringed me (a.withPayout spk image json) where
  __ := ringed
  closed := fun _ => full
  ring := by
    intro key member
    rcases Std.TreeMap.mem_insert.mp member with same | old
    · cases Std.LawfulEqOrd.eq_of_compare same
      exact verified
    · exact ringed.ring key old
  payouts := by
    change (a.payouts ++ [(spk, 0)]).length = (a.images.insert image (spk, json)).size
    rw [length_append, Maps.size_insert_of_notMem new, ringed.payouts]
    rfl

theorem fundChannel_quiet {checked : CheckedBuild P} (passed : b.checkedBuild = .ok checked) :
    Quiet checked.fundChannel := by
  have spec := checkedBuild_spec passed
  by_cases isChannel : b.params.payoutType = .p2wsh
  · obtain ⟨txid, vout, same⟩ := spec.channel isChannel
    rw [same]
    intro act member
    rw [mem_singleton.mp member]
    rfl
  · rw [spec.onChain isChannel]
    exact quiet_nil

/-- The build draws once; when it fails the last payout has used up the draw. -/
theorem buildAndCheck_ends (few : Few me) {a : Attempt P} (drawing : Drawing me least a)
    (phase : a.phase = .payouts) (enough : ¬a.payouts.length < a.params.peers)
    (room : Linkable P → a.auxN + a.me.coins.length + 1 ≤ 2 * me.coins.length + 2) :
    Ends buildAndCheck a (Quietly me least) (Drawing me least) := by
  have left : a.remaining = a.me.coins.length := by
    rw [remaining, phase]
    exact congrArg (a.me.coins.length + ·) (if_neg enough)
  have drawn : ∀ b : Attempt P, SameRing a b → b.auxN = Word.add32 a.auxN 1 →
      b.remaining = a.me.coins.length → Drawing me least b := by
    intro b same auxN remaining
    refine ⟨drawing.toRinged.congr same, fun linkable => ?_, fun linkable => ?_⟩
    all_goals
      have atLeast := drawing.least linkable
      have allowed := room linkable
      rw [auxN, add32_auxN few (by omega)]
      omega
  refine .get_bind (.lift_bind (fun checked passed => .bind aux_ends ?_) drawing)
  rintro value _ rfl
  refine .lift_bind (fun nonces _ => .modify_bind (.pure ⟨drawn _ {} rfl rfl, ?_⟩)) ?_
  · intro act member
    rcases mem_append.mp member with posts | funds
    · simp only [mem_cons, not_mem_nil, or_false] at posts
      rcases posts with rfl | rfl
      · simp
      · simp [Msg.kind]
    · exact fundChannel_quiet passed act funds
  · exact drawn _ {} rfl left

theorem onOutput_ends (few : Few me) (drawing : Drawing me least a) (address : String)
    (ringSig : RingSig) (priority : Nat) (denomination : Option Nat) (json : P.Text) :
    Ends (onOutput address ringSig priority denomination json) a (Quietly me least)
      (Drawing me least) := by
  refine .get_bind (.ite (fun _ => nothing_ends drawing) fun _ => ?_)
  refine .ite (fun _ => nothing_ends drawing) fun closed => ?_
  refine .lift_bind (fun read ok => ?_) drawing
  have verified := ringVerify_of_readOutput ok
  cases seen : a.images[read.2]? with
  | some old => exact .ite (fun _ => nothing_ends drawing) fun _ => stop_ends _ _ drawing.spent
  | none =>
    have new : read.2 ∉ a.images := by simpa using seen
    refine .require_bind (fun _ => .modify_bind (.get_bind ?_)) drawing
    have noted : Drawing me least (a.withPayout read.1 read.2 json) := by
      refine ⟨drawing.toRinged.withPayout new (not_lt.mp closed) verified, drawing.least, ?_⟩
      intro linkable
      have budget := drawing.budget linkable
      have less := remaining_withPayout_le a read.1 read.2 json
      change a.auxN + _ ≤ _
      omega
    refine .ite (fun _ => nothing_ends noted) fun enough => .require_bind (fun phase => ?_) noted
    refine buildAndCheck_ends few noted phase enough fun linkable => ?_
    have budget := drawing.budget linkable
    have owed := drawing.payouts_lt linkable new verified
    rw [remaining, show a.phase = .payouts from phase] at budget
    dsimp only at budget
    rw [if_pos owed] at budget
    exact budget

theorem enterFunding_ends (drawing : Drawing me least a) (phase : a.phase = .signing) :
    Ends enterFunding a (Quietly me least) (Drawing me least) := by
  refine .get_bind (.lift_bind (fun keys _ => .lift_bind (fun msgs _ => .lift_bind
    (fun signers _ => ?_) drawing) drawing) drawing)
  cases aggregate P keys msgs signers with
  | error text => exact stop_ends _ _ drawing.spent
  | ok sigs =>
    have dropped : Drawing me least { a with built := none } :=
      drawing.congr {} rfl (Nat.le_refl _)
    refine .lift_bind (fun unsigned _ => .modify_bind (.lift_bind (fun signed _ => ?_) dropped))
      drawing
    refine .modify_bind (.pure ⟨drawing.congr {} rfl ?_, ?_⟩)
    · rw [remaining, remaining, phase]
    · intro act member
      simp only [mem_cons, not_mem_nil, or_false] at member
      rcases member with rfl | rfl <;> rfl

theorem onPsigs_ends (drawing : Drawing me least a) (sender : SessionKey) (offset : Nat)
    (sigs : List String) (json : P.Text) :
    Ends (onPsigs sender offset sigs json) a (Quietly me least) (Drawing me least) := by
  refine .get_bind ?_
  cases a.psigs[sender]? with
  | some old => exact .require_bind (fun _ => nothing_ends drawing) drawing
  | none =>
    refine .require_bind (fun _ => .lift_bind (fun _ _ => .lift_bind (fun parsed _ => ?_)
      drawing) drawing) drawing
    have noted : Drawing me least { a with psigs := a.psigs.insert sender (parsed, json) } :=
      drawing.congr {} rfl (Nat.le_refl _)
    refine .modify_bind (.get_bind (.ite (fun _ => nothing_ends noted) fun go => ?_))
    exact enterFunding_ends noted (not_not.mp (not_or.mp go).1)

end Lij.Tatara.Attempt
