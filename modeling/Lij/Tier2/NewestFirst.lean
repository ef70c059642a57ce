import Lij.Tier2.Walk

/-!
# The walk and the direct scan

A walk opens at some height and is extended above and below in batches of any
size, in any order. A batch tests the filters of its heights and fetches the
blocks they match; when it fails, the view keeps what was applied and the walk
stays where it was. Once the walk has reached the birthday and the tip, its
coins are those of the scan that applies every block once in ascending order.
-/

namespace Lij.Tier2

open Bitcoin Checked List

/-! ## The steps of a walk -/

/-- The opening reads its block only if the block's filter matches. -/
def openAt (K : ChainCrypto) (server : Server) (scripts : WalletScripts) (closeTxids : List Txid)
    (found : Option MatchedBlock) : Fallible Tier2View Unit :=
  match found with
  | some m => fetchAndApply K server scripts closeTxids [m]
  | none => return ()

/-- Highest first. -/
def descending (matched : List MatchedBlock) : List MatchedBlock :=
  matched.insertionSort fun a b => b.height ≤ a.height

/-- The heights covered move only when the step succeeds. -/
def moved (outcome : Except String Unit) (range next : Option (Nat × Nat)) :
    Option (Nat × Nat) :=
  match outcome with
  | .ok _ => next
  | .error _ => range

theorem moved_cases {outcome : Except String Unit} {range next : Option (Nat × Nat)}
    {heights : Nat × Nat} (after : moved outcome range next = some heights) :
    range = some heights ∨ next = some heights := by
  cases outcome with
  | ok _ => exact .inr after
  | error _ => exact .inl after

/-- The walks over a segment: the lowest and the highest block covered, and the view. The
server may answer differently at every step. -/
inductive Walk (K : ChainCrypto) (S : Segment) (scripts : WalletScripts)
    (filter : Nat → Bytes) : Option (Nat × Nat) → Tier2View → Prop
  | fresh (view : Tier2View) (noCoins : view.toLedger = .empty) (noHints : view.trHints = []) :
      Walk K S scripts filter none view
  | opening {view : Tier2View} (walk : Walk K S scripts filter none view) (server : Server)
      (closeTxids : List Txid) (h : Nat) (found : Option MatchedBlock) (inside : h ∈ S.heights)
      (tested : findAt K S scripts filter h = .ok found) :
      Walk K S scripts filter
        (moved ((openAt K server scripts closeTxids found).exec view).1 none (some (h, h)))
        ((openAt K server scripts closeTxids found).exec view).2
  | forward {view : Tier2View} {low top : Nat}
      (walk : Walk K S scripts filter (some (low, top)) view) (server : Server)
      (closeTxids : List Txid) (n : Nat) (found : List (Option MatchedBlock))
      (inside : top + n ≤ S.tip)
      (tested : (range' (top + 1) n).mapM (findAt K S scripts filter) = .ok found) :
      Walk K S scripts filter
        (moved ((fetchAndApply K server scripts closeTxids found.reduceOption).exec view).1
          (some (low, top)) (some (low, top + n)))
        ((fetchAndApply K server scripts closeTxids found.reduceOption).exec view).2
  | down {view : Tier2View} {low top : Nat}
      (walk : Walk K S scripts filter (some (low, top)) view) (server : Server)
      (closeTxids : List Txid) (n : Nat) (found : List (Option MatchedBlock))
      (inside : S.birthday + n ≤ low)
      (tested : (range' (low - n) n).mapM (findAt K S scripts filter) = .ok found) :
      Walk K S scripts filter
        (moved ((fetchAndApply K server scripts closeTxids
            (descending found.reduceOption)).exec view).1
          (some (low, top)) (some (low - n, top)))
        ((fetchAndApply K server scripts closeTxids (descending found.reduceOption)).exec view).2

section Covering

variable {K : ChainCrypto} {S : Segment} {scripts : WalletScripts} {filter : Nat → Bytes}
variable {view : Tier2View}

/-- The blocks that the filters of some heights match. -/
theorem mem_reduceOption_of_tested {hs : List Nat} {found : List (Option MatchedBlock)}
    (tested : hs.mapM (findAt K S scripts filter) = .ok found) :
    (∀ m ∈ found.reduceOption,
      m.height ∈ hs ∧ findAt K S scripts filter m.height = .ok (some m)) ∧
    ∀ h ∈ hs, findAt K S scripts filter h = .ok none ∨
      ∃ m ∈ found.reduceOption, m.height = h := by
  have answers := mapM_eq_ok.mp tested
  constructor
  · intro m member
    obtain ⟨h, inside, answer⟩ := exists_of_mem_right answers (reduceOption_mem_iff.mp member)
    obtain rfl := (findAt_some answer).1
    exact ⟨inside, answer⟩
  · intro h member
    obtain ⟨answer, inside, found⟩ := exists_of_mem_right answers.flip member
    cases answer with
    | none => exact .inl found
    | some m => exact .inr ⟨m, reduceOption_mem_iff.mpr inside, (findAt_some found).1⟩

/-- What holds of a walk: the heights it covers are read, and no coin of theirs lags. -/
def Covering (K : ChainCrypto) (S : Segment) (scripts : WalletScripts)
    (range : Option (Nat × Nat)) (view : Tier2View) : Prop :=
  ∃ R, Walked K S scripts R view ∧ ∀ low top, range = some (low, top) →
    (∀ h, low ≤ h → h ≤ top → h ∈ R) ∧ ∀ u, Lagging S R view u → ¬(low ≤ u.height ∧ u.height ≤ top)

/-- A batch next to the heights covered, or over the first ones. -/
theorem Covering.batch (setting : Setting K S scripts filter) {range : Option (Nat × Nat)}
    (cover : Covering K S scripts range view) (server : Server) (closeTxids : List Txid)
    {hs : List Nat} {matched : List MatchedBlock} {low' top' : Nat}
    (inside : ∀ h ∈ hs, h ∈ S.heights)
    (sound : ∀ m ∈ matched, m.height ∈ hs ∧ findAt K S scripts filter m.height = .ok (some m))
    (complete : ∀ h ∈ hs, findAt K S scripts filter h = .ok none ∨ ∃ m ∈ matched, m.height = h)
    (apart : ∀ low top, range = some (low, top) → ∀ h ∈ hs, ¬(low ≤ h ∧ h ≤ top))
    (within : ∀ h, low' ≤ h → h ≤ top' →
      h ∈ hs ∨ ∃ low top, range = some (low, top) ∧ low ≤ h ∧ h ≤ top) :
    Covering K S scripts
      (moved ((fetchAndApply K server scripts closeTxids matched).exec view).1 range
        (some (low', top')))
      ((fetchAndApply K server scripts closeTxids matched).exec view).2 := by
  obtain ⟨R, walked, covered⟩ := cover
  obtain ⟨R', ext, done⟩ :=
    walked.fetchAndApply setting inside server closeTxids sound complete
  generalize (fetchAndApply K server scripts closeTxids matched).exec view = run at *
  obtain ⟨error | ok, after⟩ := run
  · refine ⟨R', ext.walked, fun low top isRange => ⟨fun h above below => ?_, fun u lags => ?_⟩⟩
    · exact ext.grows ((covered low top isRange).1 h above below)
    · obtain before | here := ext.lagging u lags
      · exact (covered low top isRange).2 u before
      · exact apart low top isRange u.height here
  · obtain ⟨read, settled⟩ := done rfl
    refine ⟨R', ext.walked, fun low top isRange => ⟨fun h above below => ?_, fun u lags => ?_⟩⟩
    · cases isRange
      obtain here | ⟨low, top, isRange, above, below⟩ := within h above below
      · exact read h here
      · exact ext.grows ((covered low top isRange).1 h above below)
    · exact absurd lags (settled u)

/-- An opening whose block does not match: none of its coins can lag. -/
theorem Covering.openUnmatched (setting : Setting K S scripts filter) {h : Nat}
    (cover : Covering K S scripts none view) (inside : h ∈ S.heights)
    (unmatched : findAt K S scripts filter h = .ok none) :
    Covering K S scripts (some (h, h)) view := by
  obtain ⟨R, walked, _⟩ := cover
  obtain ⟨kept, _⟩ := walked.skip setting inside unmatched
  refine ⟨insert h R, kept, fun low top isRange => ?_⟩
  cases isRange
  refine ⟨fun k above below => .inl (le_antisymm below above), fun u lags here => ?_⟩
  obtain ⟨r, paid, _, height, _⟩ := kept.reflects.paid lags.1
  obtain ⟨p, isPayer, out, id, _, _, receipt⟩ := Segment.payer_of_paid paid
  have atHere : p.1 = h := by
    rw [← (Segment.receiptOf_eq_some receipt).2.1, ← height]
    exact le_antisymm here.2 here.1
  rw [← atHere] at unmatched
  rw [setting.foreign isPayer unmatched (.inl id)] at paid
  cases paid

/-- A walk stays in the segment. -/
theorem Walk.inside {range : Option (Nat × Nat)} (walk : Walk K S scripts filter range view)
    {low top : Nat} (covers : range = some (low, top)) :
    S.birthday ≤ low ∧ low ≤ top ∧ top ≤ S.tip := by
  induction walk generalizing low top with
  | fresh => cases covers
  | opening walk server closeTxids h found inside tested ih =>
    obtain before | next := moved_cases covers
    · cases before
    · cases next
      have bounds := Segment.mem_heights.mp inside
      omega
  | forward walk server closeTxids n found inside tested ih
  | down walk server closeTxids n found inside tested ih =>
    have bounds := ih rfl
    obtain before | next := moved_cases covers
    · cases before
      exact bounds
    · cases next
      omega

/-- Every walk covers its heights. -/
theorem Walk.covering (setting : Setting K S scripts filter) {range : Option (Nat × Nat)}
    (walk : Walk K S scripts filter range view) : Covering K S scripts range view := by
  induction walk with
  | fresh view noCoins noHints => exact ⟨∅, walked_fresh noCoins noHints, nofun⟩
  | opening walk server closeTxids h found inside tested ih =>
    cases found with
    | none => exact ih.openUnmatched setting inside tested
    | some m =>
      have height := (findAt_some tested).1
      refine ih.batch setting server closeTxids (forall_mem_singleton.mpr inside)
        (forall_mem_singleton.mpr ⟨?_, height.symm ▸ tested⟩)
        (forall_mem_singleton.mpr (.inr ⟨m, mem_singleton_self m, height⟩)) nofun
        fun k above below => .inl ?_
      · exact mem_singleton.mpr height
      · exact mem_singleton.mpr (le_antisymm below above)
  | @forward _ low top walk server closeTxids n found inside tested ih =>
    have bounds := walk.inside rfl
    obtain ⟨sound, complete⟩ := mem_reduceOption_of_tested tested
    refine ih.batch setting server closeTxids (fun h member => ?_) sound complete ?_ ?_
    · have above := mem_range'_1.mp member
      exact Segment.mem_heights.mpr (by omega)
    · intro low top isRange h member
      cases isRange
      have above := mem_range'_1.mp member
      omega
    · intro h above below
      by_cases old : h ≤ top
      · exact .inr ⟨low, top, rfl, above, old⟩
      · exact .inl (mem_range'_1.mpr (by omega))
  | @down _ low top walk server closeTxids n found inside tested ih =>
    have bounds := walk.inside rfl
    obtain ⟨sound, complete⟩ := mem_reduceOption_of_tested tested
    have same : ∀ m, m ∈ descending found.reduceOption ↔ m ∈ found.reduceOption :=
      fun m => (perm_insertionSort _ _).mem_iff
    refine ih.batch setting server closeTxids (fun h member => ?_)
      (fun m member => sound m ((same m).mp member)) (fun h member => ?_) ?_ ?_
    · have below := mem_range'_1.mp member
      exact Segment.mem_heights.mpr (by omega)
    · obtain unmatched | ⟨m, isFound, height⟩ := complete h member
      · exact .inl unmatched
      · exact .inr ⟨m, (same m).mpr isFound, height⟩
    · intro low top isRange h member
      cases isRange
      have below := mem_range'_1.mp member
      omega
    · intro h above below
      by_cases old : low ≤ h
      · exact .inr ⟨low, top, rfl, old, below⟩
      · exact .inl (mem_range'_1.mpr (by omega))

end Covering

/-! ## A taproot coin met after its spend -/

/-- Block 1 pays a BIP86 script and block 2 spends the coin. -/
def spentAbove : Segment :=
  ⟨1, 2, fun h => ⟨⟨0, h⟩, if h = 1 then [⟨2, 10, [], [⟨50, [7]⟩]⟩]
    else [⟨2, 11, [⟨⟨10, 0⟩, [], 0, [[1]]⟩], [⟨40, [8]⟩]⟩]⟩⟩

/-- A block is its height in one byte, and every filter matches. -/
def byHeight : ChainCrypto where
  computeTxid tx := BitVec.ofNat 256 tx.lockTime
  wpkhScript _ := none
  sha256d _ := 0
  decodeHeader _ := .error "not served"
  blockHash header := BitVec.ofNat 256 header.time
  validPow _ := true
  decodeBlock bytes :=
    match bytes with
    | [h] => .ok (spentAbove.block h.toNat)
    | _ => .error "one byte"
  checkMerkleRoot block :=
    block.header = ⟨0, block.header.time⟩ ∧ block.header.time ≤ 2 ∧
      block.txdata = (spentAbove.block block.header.time).txdata
  matchAny _ _ _ := .ok true

def taprootScripts : WalletScripts := ⟨[⟨chainBip86, 0, [7]⟩]⟩

def byHeightServer : Server where
  headers _ _ := .error "not served"
  filters _ _ := .error "not served"
  block height := .ok (if height = 1 then "01" else "02")

theorem spentAbove_setting : Setting byHeight spentAbove taprootScripts fun _ => [] where
  valid := {
    ids := by decide +kernel
    spentOnce := by decide +kernel
    spentAfter := by decide +kernel
    spentOther := by decide +kernel
    notNull := by decide +kernel
    coinbase := by decide +kernel }
  keyed p member input inside found chain index isOutput owner coin plain := by
    obtain ⟨e, entry, _, place⟩ := WalletScripts.entry_of_ownerOf owner
    cases mem_singleton.mp entry
    cases place
    cases plain
  bound h inside block merkle same := by
    obtain ⟨header, low, txdata⟩ := of_decide_eq_true merkle
    obtain ⟨above, below⟩ := Segment.mem_heights.mp inside
    have height : block.header.time = h := by
      have toNat := congrArg BitVec.toNat same
      change (BitVec.ofNat 256 block.header.time).toNat = (BitVec.ofNat 256 h).toNat at toNat
      have tip : spentAbove.tip = 2 := rfl
      rw [BitVec.toNat_ofNat, BitVec.toNat_ofNat, Nat.mod_eq_of_lt (by omega),
        Nat.mod_eq_of_lt (by omega)] at toNat
      exact toNat
    obtain ⟨⟨prev, time⟩, txs⟩ := block
    cases height
    cases (Header.mk.inj header).1
    exact congrArg (Block.mk ⟨0, time⟩) txdata
  complete h inside script touches query hit asked answered := (Except.ok.inj answered).symm

/-- Every filter matches and names the one script. -/
def taprootMatch (h : Nat) : MatchedBlock := ⟨h, hashText byHeight spentAbove h, [(chainBip86, 0)]⟩

theorem findAt_spentAbove (h : Nat) :
    findAt byHeight spentAbove taprootScripts (fun _ => []) h = .ok (some (taprootMatch h)) := by
  rw [findAt, testFilter, hashText, hashFromStr_hashToStr]
  rfl

end Lij.Tier2
