import Lij.Foundation.Writes
import Lij.Tier2.NewestFirst

/-!
# The downward walk

The newest-first walk reads batches below its lowest block until it has reached
the birthday. One pass of the loop asks the server for a batch, applies the
blocks it matches and moves the lowest block, first in memory and then, by saving
the view, on disk. A step that fails earlier moves nothing; a step that only
fails to save has moved in memory.

Over a server that serves the chain a step reads exactly the heights from its new
lowest block up to the old one, so successive steps cover a range without gap or
overlap, and there are at most as many of them as there are blocks above the
birthday.
-/

namespace Lij.Tier2

open Bitcoin Checked Fallible List

/-! ## The loop's body -/

/-- The view in memory and the one last saved. -/
structure Walking where
  view : Tier2View
  stored : Tier2View

def saveView : Storing Walking Unit := Storing.write fun s => { s with stored := s.view }

/-- What a computation on the view does to the view in memory. -/
def onView {α : Type} (m : Fallible Tier2View α) : Storing Walking α := do
  let s ← get
  modify fun s' => { s' with disk := { s'.disk with view := (m.exec s.disk.view).2 } }
  lift (m.exec s.disk.view).1

def downStep (K : ChainCrypto) (server : Server) (scripts : WalletScripts)
    (closeTxids : List Txid) (batch : Nat) (down : DownCursor) : Storing Walking DownCursor := do
  let s ← get
  let o ← lift (syncStepDown K server scripts down.low down.lowHash down.lowFilterHeader
    s.disk.view.cursor.birthday batch)
  -- highest first, so that a spend lands before its coin when both are inside
  onView (fetchAndApply K server scripts closeTxids (descending o.matched))
  let next : DownCursor := ⟨o.low, o.lowHash, o.lowFilterHeader, o.done⟩
  modify fun s => { s with disk := { s.disk with view := { s.disk.view with down := some next } } }
  saveView
  return next

/-- One pass of the loop, with the server it meets and the message saving fails with. -/
structure Attempt where
  server : Server
  closeTxids : List Txid
  batch : Nat
  save : Option String

namespace Walking

/-- The cursor the loop goes on from. -/
def cursor (s : Walking) : DownCursor := s.view.down.getD ⟨0, "", "", false⟩

def floor (s : Walking) : Nat := s.view.cursor.birthday

def attempt (K : ChainCrypto) (scripts : WalletScripts) (s : Walking) (a : Attempt) :
    Except String DownCursor × Walking :=
  (downStep K a.server scripts a.closeTxids a.batch s.cursor).run s [a.save]

end Walking

/-! ## What fetching leaves alone -/

section Frame

variable {K : ChainCrypto} {I : Tier2View → Prop}

theorem resolveChecks_invariant (server : Server)
    (hint : ∀ view op i h txs, I view → I (view.readHint K.toCrypto op i h txs))
    (checks : List (OutPoint × Nat)) (blocks : List (Nat × Block)) {view : Tier2View}
    (start : I view) : I ((resolveChecks K server checks blocks).exec view).2 := by
  induction checks generalizing blocks view with
  | nil => exact start
  | cons check checks ih =>
    rw [resolveChecks, exec_get_bind]
    split_ifs
    · rw [exec_bind, exec_lift]
      cases context view.trHints[check.2]? "index out of bounds" with
      | error message => exact start
      | ok found =>
        dsimp only
        rw [exec_bind, exec_lift]
        cases cachedBlock K server blocks found with
        | error message => exact start
        | ok block => exact ih _ (hint _ _ _ _ _ start)
    · exact ih _ start

/-- What applying a block and reading a hinted one both keep, a batch keeps. -/
theorem fetchAndApply_invariant (server : Server) (scripts : WalletScripts)
    (closeTxids : List Txid) (matched : List MatchedBlock)
    (block : ∀ view m b, I view → I (view.applyBlock K.toCrypto scripts closeTxids m b))
    (hint : ∀ view op i h txs, I view → I (view.readHint K.toCrypto op i h txs))
    {view : Tier2View} (start : I view) :
    I ((fetchAndApply K server scripts closeTxids matched).exec view).2 := by
  obtain ⟨fed, _, _, state, _⟩ := applyMatched_fed server scripts closeTxids matched view
  have applied : I ((applyMatched K server scripts closeTxids matched).exec view).2 := by
    rw [state]
    exact Folds.foldl_invariant start fun view p _ holds => block view p.1 p.2 holds
  rw [fetchAndApply, exec_bind]
  generalize (applyMatched K server scripts closeTxids matched).exec view = run at applied
  obtain ⟨error | ok, after⟩ := run
  · exact applied
  · exact resolveChecks_invariant server hint _ _ applied

theorem cursors_readHint (C : Crypto) (view : Tier2View) (op : OutPoint) (i h : Nat)
    (txs : List Transaction) :
    (view.readHint C op i h txs).cursor = view.cursor ∧
      (view.readHint C op i h txs).down = view.down := by
  unfold Tier2View.readHint
  dsimp only
  split_ifs <;> exact ⟨rfl, rfl⟩

/-- A batch moves no cursor. -/
theorem cursors_fetchAndApply (server : Server) (scripts : WalletScripts)
    (closeTxids : List Txid) (matched : List MatchedBlock) (view : Tier2View) :
    ((fetchAndApply K server scripts closeTxids matched).exec view).2.cursor = view.cursor ∧
      ((fetchAndApply K server scripts closeTxids matched).exec view).2.down = view.down := by
  apply fetchAndApply_invariant (I := fun after => after.cursor = view.cursor ∧
    after.down = view.down) server scripts closeTxids matched
  · exact fun _ _ _ kept => kept
  · intro before op i h txs kept
    have same := cursors_readHint K.toCrypto before op i h txs
    exact ⟨same.1.trans kept.1, same.2.trans kept.2⟩
  · exact ⟨rfl, rfl⟩

end Frame

/-! ## What a batch reads -/

theorem downStart_lt {low floor : Nat} (above : floor < low) (batch : Nat) :
    floor ≤ downStart low floor batch ∧ downStart low floor batch < low := by
  rw [downStart]
  omega

/-- The items of the chain's own filters. -/
def filterItem (K : ChainCrypto) (S : Segment) (filter : Nat → Bytes)
    (filterHeader : Nat → String) (h : Nat) : FilterItem :=
  ⟨h, hashText K S h, Hex.encode (filter h), filterHeader h⟩

/-- A server that, if it answers, serves the chain: as many items as were asked for, each
filter under its own height and block. -/
structure Honest (K : ChainCrypto) (S : Segment) (filter : Nat → Bytes)
    (filterHeader : Nat → String) (server : Server) : Prop where
  headers : ∀ start count items, server.headers start count = .ok items → items.length = count
  filters : ∀ start count items, server.filters start count = .ok items →
    items = (range' start count).map (filterItem K S filter filterHeader)

section Reads

variable {K : ChainCrypto} {S : Segment} {scripts : WalletScripts} {filter : Nat → Bytes}
  {filterHeader : Nat → String}

theorem hexDecode_encode (bytes : Bytes) : hexDecode (Hex.encode bytes) = .ok bytes := by
  rw [hexDecode, Hex.ofText_encode, Hex.decodeAnyBytes_encodeBytes]
  rfl

/-- The scan of the items from `start` up to the known block tests every height below it. -/
theorem tested_of_scan {low bottom : Nat} {lowFilterHeader : String} (n : Nat) {start : Nat}
    {anchor : Option FilterHeader} {matched : List MatchedBlock} (reaches : start + n = low)
    (scanned : scanFilters K (testBelow K scripts low lowFilterHeader bottom) anchor
      ((range' start (n + 1)).map (filterItem K S filter filterHeader)) = .ok matched) :
    ∃ found, (range' start n).mapM (findAt K S scripts filter) = .ok found ∧
      matched = found.reduceOption := by
  induction n generalizing start anchor matched with
  | zero =>
    rw [Nat.add_zero] at reaches
    rw [range'_succ, range'_zero, map_cons, map_nil] at scanned
    obtain ⟨chained, found, others, _, tested, ⟨⟩, rfl⟩ := scanFilters_cons scanned
    have known : (filterItem K S filter filterHeader start).height = low := reaches
    rw [testBelow, if_pos known] at tested
    obtain ⟨_, isNone⟩ := ensure_bind_eq_ok.mp tested
    cases pure_eq_ok.mp isNone
    exact ⟨[], rfl, rfl⟩
  | succ n ih =>
    rw [range'_succ, map_cons] at scanned
    obtain ⟨chained, found, others, chain, tested, later, rfl⟩ := scanFilters_cons scanned
    obtain ⟨higher, looked, rfl⟩ := ih (by omega) later
    have bytes : chained.1 = filter start :=
      Except.ok.inj ((chainFilter_eq_ok chain).1.symm.trans (hexDecode_encode _))
    have below : (filterItem K S filter filterHeader start).height ≠ low := by
      change start ≠ low
      omega
    rw [testBelow, if_neg below, bytes] at tested
    have here : findAt K S scripts filter start = .ok found := tested
    refine ⟨found :: higher, ?_, ?_⟩
    · rw [range'_succ, mapM_cons]
      exact bind_eq_ok.mpr ⟨found, here, bind_eq_ok.mpr ⟨higher, looked, rfl⟩⟩
    · cases found with
      | none | some m => rfl

/-- A batch of an honest server tests every height from its new lowest block up to the old
one. -/
theorem tested_of_honest {server : Server} (honest : Honest K S filter filterHeader server)
    {low floor batch : Nat} {lowHash lowFilterHeader : String} {out : DownOutcome}
    (above : floor < low) (word : low < 2 ^ 32)
    (ok : syncStepDown K server scripts low lowHash lowFilterHeader floor batch = .ok out) :
    ∃ found, (range' out.low (low - out.low)).mapM (findAt K S scripts filter) = .ok found ∧
      out.matched = found.reduceOption := by
  obtain ⟨isLow, _, headers, filters, _, served, some_header, answered, _, _, scanned⟩ :=
    syncStepDown_above above ok
  have below := (downStart_lt above batch).2
  rw [← isLow] at below
  have length := honest.headers _ _ _ served
  -- the one count that wraps is zero, and then there are no headers
  have count : Word.add32 (low - out.low) 1 = low - out.low + 1 := by
    have pos : headers.length ≠ 0 := fun none => some_header (length_eq_zero_iff.mp none)
    rw [Word.add32] at length ⊢
    omega
  rw [count] at answered
  rw [honest.filters _ _ _ answered] at scanned
  exact tested_of_scan (low - out.low) (by omega) scanned

end Reads

/-! ## One step -/

def DownOutcome.next (o : DownOutcome) : DownCursor := ⟨o.low, o.lowHash, o.lowFilterHeader, o.done⟩

namespace Walking

section Step

variable (K : ChainCrypto) (scripts : WalletScripts) (s : Walking) (a : Attempt)

/-- What the server's answer comes to. -/
def asked : Except String DownOutcome :=
  syncStepDown K a.server scripts s.cursor.low s.cursor.lowHash s.cursor.lowFilterHeader s.floor
    a.batch

/-- The outcome of fetching the matched blocks, and the view after it. -/
def fetched (matched : List MatchedBlock) : Except String Unit × Tier2View :=
  (fetchAndApply K a.server scripts a.closeTxids (descending matched)).exec s.view

/-- The view after a batch, with the cursor moved. -/
def moved (o : DownOutcome) : Tier2View :=
  { (s.fetched K scripts a o.matched).2 with down := some o.next }

/-- How a step ends: no usable answer, a block that could not be fetched, a view that could
not be saved, or moved. -/
theorem attempt_cases :
    (∃ message, s.asked K scripts a = .error message ∧
        s.attempt K scripts a = (.error message, s)) ∨
      ∃ o, s.asked K scripts a = .ok o ∧
        ((∃ message, (s.fetched K scripts a o.matched).1 = .error message ∧
            s.attempt K scripts a =
              (.error message, { s with view := (s.fetched K scripts a o.matched).2 })) ∨
          (s.fetched K scripts a o.matched).1 = .ok () ∧
            ((∃ message, a.save = some message ∧ s.attempt K scripts a =
                (.error message, { s with view := s.moved K scripts a o })) ∨
              a.save = none ∧ s.attempt K scripts a =
                (.ok o.next, ⟨s.moved K scripts a o, s.moved K scripts a o⟩))) := by
  have runs : s.attempt K scripts a = ((downStep K a.server scripts a.closeTxids a.batch
      s.cursor).exec ⟨s, [a.save]⟩).map id Writing.disk := rfl
  rw [runs, downStep, exec_get_bind, exec_bind, exec_lift]
  cases answer : s.asked K scripts a with
  | error message =>
    refine .inl ⟨message, rfl, ?_⟩
    rw [asked, floor] at answer
    rw [answer]
    rfl
  | ok o =>
    refine .inr ⟨o, rfl, ?_⟩
    rw [asked, floor] at answer
    rw [answer]
    dsimp only
    rw [exec_bind, onView, exec_get_bind, exec_modify_bind, exec_lift]
    cases outcome : (s.fetched K scripts a o.matched).1 with
    | error message =>
      refine .inl ⟨message, rfl, ?_⟩
      rw [fetched] at outcome ⊢
      rw [outcome]
      rfl
    | ok _ =>
      refine .inr ⟨rfl, ?_⟩
      rw [fetched] at outcome
      rw [outcome]
      dsimp only
      rw [exec_modify_bind, exec_bind, saveView, Storing.exec_write]
      cases save : a.save with
      | some message => exact .inl ⟨message, rfl, rfl⟩
      | none => exact .inr ⟨rfl, rfl⟩

/-- Everything succeeded but saving. -/
def Unsaved (message : String) (after : Walking) : Prop :=
  a.save = some message ∧ ∃ o, s.asked K scripts a = .ok o ∧
    (s.fetched K scripts a o.matched).1 = .ok () ∧ after.view = s.moved K scripts a o ∧
    (s.floor < s.cursor.low → o.low < s.cursor.low)

/-- What one step does. -/
structure Progresses (S : Segment) (filter : Nat → Bytes) : Prop where
  /-- A step above the floor goes down. -/
  lowers : ∀ next after, s.attempt K scripts a = (.ok next, after) → s.floor < s.cursor.low →
    s.floor ≤ next.low ∧ next.low < s.cursor.low
  /-- It has tested every height down to its new lowest block and applied what matched. -/
  reads : ∀ next after, s.attempt K scripts a = (.ok next, after) → s.floor < s.cursor.low →
    ∃ found, (range' next.low (s.cursor.low - next.low)).mapM
        (findAt K S scripts filter) = .ok found ∧
      after.view = { (s.fetched K scripts a found.reduceOption).2 with down := some next }
  /-- At or below the floor there is nothing to read. -/
  bottom : ∀ next after, s.attempt K scripts a = (.ok next, after) → s.cursor.low ≤ s.floor →
    next = { s.cursor with done := true }
  marked : ∀ next after, s.attempt K scripts a = (.ok next, after) →
    after.view.down = some next ∧ after.stored = after.view ∧
      (next.done = true ↔ next.low ≤ s.floor)
  /-- A failed step leaves the cursor alone, unless what failed was the last thing it does,
  saving: then the blocks are applied and the cursor has moved in memory only. -/
  failed : ∀ message after, s.attempt K scripts a = (.error message, after) →
    after.stored = s.stored ∧ (after.view.down = s.view.down ∨ s.Unsaved K scripts a message after)

variable {K scripts s a}

theorem of_attempt_ok {next : DownCursor} {after : Walking}
    (ok : s.attempt K scripts a = (.ok next, after)) :
    ∃ o, s.asked K scripts a = .ok o ∧ next = o.next ∧
      after = ⟨s.moved K scripts a o, s.moved K scripts a o⟩ := by
  obtain ⟨message, _, ended⟩ | ⟨o, answer, ⟨message, _, ended⟩ |
    ⟨_, ⟨message, _, ended⟩ | ⟨_, ended⟩⟩⟩ := s.attempt_cases K scripts a
  all_goals cases ok.symm.trans ended
  exact ⟨o, answer, rfl, rfl⟩

theorem asked_bottom (bottom : s.cursor.low ≤ s.floor) :
    s.asked K scripts a =
      .ok ⟨s.cursor.low, s.cursor.lowHash, s.cursor.lowFilterHeader, [], true⟩ := by
  rw [asked, syncStepDown, if_pos bottom]
  rfl

theorem failed_of_attempt {message : String} {after : Walking}
    (ended : s.attempt K scripts a = (.error message, after)) :
    after.stored = s.stored ∧
      (after.view.down = s.view.down ∨ s.Unsaved K scripts a message after) := by
  obtain ⟨_, _, found⟩ | ⟨o, answer, ⟨_, _, found⟩ | ⟨applied, ⟨_, save, found⟩ | ⟨_, found⟩⟩⟩ :=
    s.attempt_cases K scripts a
  all_goals cases ended.symm.trans found
  · exact ⟨rfl, .inl rfl⟩
  · exact ⟨rfl, .inl (cursors_fetchAndApply _ _ _ _ _).2⟩
  · refine ⟨rfl, .inr ⟨save, o, answer, applied, rfl, fun above => ?_⟩⟩
    rw [(syncStepDown_above above answer).1]
    exact (downStart_lt above a.batch).2

theorem floor_attempt {outcome : Except String DownCursor} {after : Walking}
    (ended : s.attempt K scripts a = (outcome, after)) : after.floor = s.floor := by
  have kept : ∀ matched, (s.fetched K scripts a matched).2.cursor.birthday = s.floor := fun _ =>
    congrArg SyncCursor.birthday (cursors_fetchAndApply _ _ _ _ _).1
  obtain ⟨_, _, found⟩ | ⟨o, _, ⟨_, _, found⟩ | ⟨_, ⟨_, _, found⟩ | ⟨_, found⟩⟩⟩ :=
    s.attempt_cases K scripts a
  all_goals cases ended.symm.trans found
  · rfl
  all_goals exact kept _

theorem progresses {S : Segment} {filter : Nat → Bytes} {filterHeader : Nat → String}
    (honest : Honest K S filter filterHeader a.server) (word : s.cursor.low < 2 ^ 32) :
    s.Progresses K scripts a S filter where
  lowers next after ok above := by
    obtain ⟨o, answer, rfl, _⟩ := of_attempt_ok ok
    have start := (syncStepDown_above above answer).1
    have between := downStart_lt above a.batch
    rw [← start] at between
    exact between
  reads next after ok above := by
    obtain ⟨o, answer, rfl, rfl⟩ := of_attempt_ok ok
    obtain ⟨found, tested, matched⟩ := tested_of_honest honest above word answer
    refine ⟨found, tested, ?_⟩
    rw [← matched]
    rfl
  bottom next after ok bottom := by
    obtain ⟨o, answer, rfl, _⟩ := of_attempt_ok ok
    cases answer.symm.trans (asked_bottom bottom)
    rfl
  marked next after ok := by
    obtain ⟨o, answer, rfl, rfl⟩ := of_attempt_ok ok
    refine ⟨rfl, rfl, ?_⟩
    rcases Nat.lt_or_ge s.floor s.cursor.low with above | bottom
    · have done := (syncStepDown_above above answer).2.1
      change o.done = true ↔ o.low ≤ s.floor
      rw [done, decide_eq_true_iff]
    · cases answer.symm.trans (asked_bottom bottom)
      exact ⟨fun _ => bottom, fun _ => rfl⟩
  failed message after ended := failed_of_attempt ended

end Step

end Walking

/-! ## A whole walk -/

/-- Where the walk stands, and the heights its successful steps covered, latest first. -/
structure Progress where
  state : Walking
  covered : List (List Nat)

namespace Progress

variable (K : ChainCrypto) (scripts : WalletScripts)

/-- One more attempt, unless the walk is done. -/
def next (p : Progress) (a : Attempt) : Progress :=
  if p.state.cursor.done then p
  else
    let result := p.state.attempt K scripts a
    match result.1 with
    | .ok down =>
      ⟨result.2, range' down.low (p.state.cursor.low - down.low) :: p.covered⟩
    | .error _ => ⟨result.2, p.covered⟩

def run (p : Progress) (attempts : List Attempt) : Progress := attempts.foldl (next K scripts) p

/-- The steps taken from `low` on have covered one range, each of them something unless the
walk started at its floor. -/
structure Covers (low floor : Nat) (p : Progress) : Prop where
  floor_eq : p.state.floor = floor
  below : p.state.cursor.low ≤ low
  covered : p.covered.flatten = range' p.state.cursor.low (low - p.state.cursor.low)
  marked : p.covered ≠ [] → (p.state.cursor.done = true ↔ p.state.cursor.low ≤ floor)
  bounded : (low ≤ floor ∧ p.covered.length ≤ 1) ∨
    (floor < low ∧ floor ≤ p.state.cursor.low ∧ p.covered.length ≤ low - p.state.cursor.low)

variable {K scripts} {low floor : Nat} {p : Progress} {a : Attempt}

/-- A step from below the floor is the only one. -/
theorem Covers.first (covers : Covers low floor p) (going : p.state.cursor.done = false)
    (bottom : p.state.cursor.low ≤ floor) : p.covered = [] ∧ p.state.cursor.low = low := by
  have none_yet : p.covered = [] := by
    by_contra some_step
    rw [(covers.marked some_step).mpr bottom] at going
    cases going
  refine ⟨none_yet, ?_⟩
  have lengths := congrArg List.length covers.covered
  rw [none_yet, length_range'] at lengths
  have below := covers.below
  change 0 = _ at lengths
  omega

theorem Covers.next_ok (covers : Covers low floor p) (going : p.state.cursor.done = false)
    {down : DownCursor} {after : Walking}
    (ok : p.state.attempt K scripts a = (.ok down, after)) :
    Covers low floor
      ⟨after, range' down.low (p.state.cursor.low - down.low) :: p.covered⟩ := by
  have floor_eq := covers.floor_eq
  have below := covers.below
  obtain ⟨o, answer, rfl, rfl⟩ := Walking.of_attempt_ok ok
  have keeps : (p.state.moved K scripts a o).cursor.birthday = floor := by
    rw [← floor_eq]
    exact congrArg SyncCursor.birthday (cursors_fetchAndApply _ _ _ _ _).1
  rcases Nat.lt_or_ge p.state.floor p.state.cursor.low with above | bottom
  · obtain ⟨isLow, done, _⟩ := syncStepDown_above above answer
    have between := downStart_lt above a.batch
    rw [← isLow] at between
    refine ⟨keeps, ?_, ?_, fun _ => ?_, ?_⟩
    · exact between.2.le.trans below
    · have split : low - o.low = (p.state.cursor.low - o.low) + (low - p.state.cursor.low) := by
        omega
      change range' o.low (p.state.cursor.low - o.low) ++ p.covered.flatten =
        range' o.low (low - o.low)
      rw [covers.covered, split, ← range'_append_1]
      congr 2
      omega
    · change o.done = true ↔ o.low ≤ floor
      rw [done, decide_eq_true_iff, floor_eq]
    · refine .inr ⟨by omega, floor_eq ▸ between.1, ?_⟩
      change p.covered.length + 1 ≤ low - o.low
      obtain ⟨under, _⟩ | ⟨_, _, count⟩ := covers.bounded
      · omega
      · omega
  · cases answer.symm.trans (Walking.asked_bottom bottom)
    rw [floor_eq] at bottom
    obtain ⟨none_yet, isLow⟩ := covers.first going bottom
    refine ⟨keeps, below, ?_, fun _ => ⟨fun _ => bottom, fun _ => rfl⟩, .inl ⟨isLow ▸ bottom, ?_⟩⟩
    · change range' p.state.cursor.low (p.state.cursor.low - p.state.cursor.low) ++
        p.covered.flatten = _
      rw [Nat.sub_self, covers.covered]
      rfl
    · rw [none_yet]
      exact le_rfl

theorem Covers.next_failed (covers : Covers low floor p) (saves : a.save = none)
    {message : String} {after : Walking}
    (ended : p.state.attempt K scripts a = (.error message, after)) :
    Covers low floor ⟨after, p.covered⟩ := by
  have same : after.view.down = p.state.view.down := by
    obtain same | failed := (Walking.failed_of_attempt ended).2
    · exact same
    · cases saves.symm.trans failed.1
  have cursor : after.cursor = p.state.cursor := congrArg (Option.getD · _) same
  have keeps : after.floor = p.state.floor := Walking.floor_attempt ended
  refine ⟨keeps.trans covers.floor_eq, ?_, ?_, ?_, ?_⟩
  all_goals dsimp only; rw [cursor]
  · exact covers.below
  · exact covers.covered
  · exact covers.marked
  · exact covers.bounded

theorem Covers.next (covers : Covers low floor p) (saves : a.save = none) :
    Covers low floor (p.next K scripts a) := by
  rw [Progress.next]
  split_ifs with done
  · exact covers
  · have going := Bool.eq_false_iff.mpr done
    cases result : p.state.attempt K scripts a with
    | mk outcome after =>
      cases outcome with
      | ok down => exact covers.next_ok going result
      | error message => exact covers.next_failed saves result

end Progress

/-- The downward walk goes down and ends. A step that succeeds above the floor lowers the
lowest block and has read every height in between; at the floor it only marks the walk
done; a step that fails leaves the cursor alone unless what failed was saving it. While the
view can be saved, the heights of successive steps are one range without gap or overlap, and
there are at most as many steps as blocks above the floor, or one from below it. -/
theorem syncDown_progress (K : ChainCrypto) (S : Segment) (scripts : WalletScripts)
    (filter : Nat → Bytes) (filterHeader : Nat → String) :
    (∀ (s : Walking) (a : Attempt), Honest K S filter filterHeader a.server →
      s.cursor.low < 2 ^ 32 → s.Progresses K scripts a S filter) ∧
    ∀ (start : Walking) (attempts : List Attempt), (∀ a ∈ attempts, a.save = none) →
      (Progress.run K scripts ⟨start, []⟩ attempts).covered.flatten =
          range' (Progress.run K scripts ⟨start, []⟩ attempts).state.cursor.low
            (start.cursor.low - (Progress.run K scripts ⟨start, []⟩ attempts).state.cursor.low) ∧
        ((Progress.run K scripts ⟨start, []⟩ attempts).covered ≠ [] →
          ((Progress.run K scripts ⟨start, []⟩ attempts).state.cursor.done = true ↔
            (Progress.run K scripts ⟨start, []⟩ attempts).state.cursor.low ≤ start.floor)) ∧
        (Progress.run K scripts ⟨start, []⟩ attempts).covered.length ≤
          max 1 (start.cursor.low - start.floor) := by
  refine ⟨fun s a honest word => Walking.progresses honest word, ?_⟩
  intro start attempts saves
  have initial : Progress.Covers start.cursor.low start.floor ⟨start, []⟩ := by
    refine ⟨rfl, le_rfl, ?_, fun some_step => absurd rfl some_step, ?_⟩
    · rw [Nat.sub_self]
      rfl
    · rcases Nat.lt_or_ge start.floor start.cursor.low with above | bottom
      · exact .inr ⟨above, above.le, Nat.zero_le _⟩
      · exact .inl ⟨bottom, Nat.zero_le _⟩
  have covers : Progress.Covers start.cursor.low start.floor
      (Progress.run K scripts ⟨start, []⟩ attempts) :=
    Folds.foldl_invariant initial fun p a member holds => holds.next (saves a member)
  refine ⟨covers.covered, covers.marked, ?_⟩
  obtain ⟨_, count⟩ | ⟨_, above, count⟩ := covers.bounded
  · exact count.trans (le_max_left _ _)
  · exact (count.trans (Nat.sub_le_sub_left above _)).trans (le_max_right _ _)

/-! ## Two blocks -/

/-- A view that still has to reach its birthday, from block `low`. -/
def walkingAt (birthday low : Nat) (lowHash : String) : Walking :=
  let view := { Tier2View.empty with
    cursor := ⟨birthday, low, none, none⟩
    down := some ⟨low, lowHash, hashToStr 0, false⟩ }
  ⟨view, view⟩

def twoBlocks : Segment := ⟨1, 2, fun h => ⟨if h = 1 then ⟨0, 5⟩ else ⟨5, 6⟩, []⟩⟩

/-- It answers for the two blocks and nothing else. -/
def twoBlockServer : Server where
  headers start count := if start = 1 ∧ count = 2 then .ok smallHeaders else .error "not here"
  filters start count := if start = 1 ∧ count = 2 then .ok smallFilters else .error "not here"
  block height := .ok (if height = 1 then "0005" else "0506")

theorem honest_twoBlockServer :
    Honest small twoBlocks (fun _ => []) (fun _ => hashToStr 0) twoBlockServer where
  headers start count items served := by
    simp only [twoBlockServer] at served
    split_ifs at served with asked
    cases served
    exact asked.2.symm
  filters start count items served := by
    simp only [twoBlockServer] at served
    split_ifs at served with asked
    cases served
    obtain ⟨rfl, rfl⟩ := asked
    rfl

/-- From block 2 the step reads block 1 and the walk is done: a second attempt adds nothing. -/
theorem syncDown_progress_twoBlocks :
    let s := walkingAt 1 2 (hashToStr 6)
    let a : Attempt := ⟨twoBlockServer, [], 100, none⟩
    s.Progresses small smallScripts a twoBlocks (fun _ => []) ∧
      (s.attempt small smallScripts a).1.toOption = some ⟨1, hashToStr 5, hashToStr 0, true⟩ ∧
      (Progress.run small smallScripts ⟨s, []⟩ [a, a]).covered.length ≤ 1 := by
  intro s a
  obtain ⟨steps, runs⟩ := syncDown_progress small twoBlocks smallScripts (fun _ => [])
    fun _ => hashToStr 0
  refine ⟨steps s a honest_twoBlockServer (by decide), by decide +kernel, ?_⟩
  exact (runs s [a, a] (by simp [a])).2.2

/-- A cursor below its birthday is marked and not moved; a step whose save fails has moved. -/
theorem step_keeps_and_moves :
    ((walkingAt 10 5 "").attempt small ⟨[]⟩ ⟨honest, [], 100, none⟩).1.toOption =
        some ⟨5, "", hashToStr 0, true⟩ ∧
      (((walkingAt 1 2 (hashToStr 6)).attempt small ⟨[]⟩ ⟨honest, [], 100, some "full"⟩).1).isOk =
        false ∧
      ((walkingAt 1 2 (hashToStr 6)).attempt small ⟨[]⟩ ⟨honest, [], 100, some "full"⟩).2.cursor =
        ⟨1, hashToStr 5, hashToStr 0, true⟩ := by
  decide +kernel

end Lij.Tier2
