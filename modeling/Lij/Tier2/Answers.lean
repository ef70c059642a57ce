import Lij.Tier2.Fetch

/-!
# What a server's answer can do

Every header of an accepted answer is checked: its proof of work, its hash and
its link to the header before it. Every filter is chained to the filter before
it and given to the test. The two lists are not tied to each other, though: a
block to fetch carries the height and the hash of the filter item, and the
forward mark counts headers. The main results say exactly which answers keep the
walk on the validated chain and which leave no height unread.
-/

namespace Lij.Tier2

open Bitcoin Checked List

variable {K : ChainCrypto} {scripts : WalletScripts} {server : Server}

/-! ## Headers -/

/-- Header `i` of an answer passed every check: its proof of work holds and it links to
the one before it, the first one to the anchor. -/
structure CheckedHeader (K : ChainCrypto) (anchor : Option BlockHash) (items : List HeaderItem)
    (i : Nat) (header : Header) : Prop where
  item : ∃ it, items[i]? = some it ∧ parseHeader K it.header = .ok header ∧
    hashFromStr it.hash = .ok (K.blockHash header)
  pow : K.validPow header = true
  anchored : i = 0 → ∀ hash, anchor = some hash → header.prevBlockhash = hash
  linked : ∀ j, i = j + 1 → ∃ it before, items[j]? = some it ∧
    parseHeader K it.header = .ok before ∧ header.prevBlockhash = K.blockHash before

theorem validateHeader_eq_ok {prev : Option BlockHash} {it : HeaderItem} {hash : BlockHash}
    (ok : validateHeader K prev it = .ok hash) :
    ∃ header, parseHeader K it.header = .ok header ∧ K.validPow header = true ∧
      hashFromStr it.hash = .ok hash ∧ K.blockHash header = hash ∧
      ∀ ph, prev = some ph → header.prevBlockhash = ph := by
  simp only [validateHeader, bind_eq_ok, ensure_eq_ok, exists_const, mapError_eq_ok,
    pure_eq_ok] at ok
  obtain ⟨header, parsed, pow, _, served, same, links, rfl⟩ := ok
  refine ⟨header, parsed, pow, served, same, ?_⟩
  rintro ph rfl
  simpa using links

/-- Every header of an accepted list is checked. -/
theorem validateHeaders_checked {items : List HeaderItem} {prev : Option BlockHash}
    {last : BlockHash} (ok : validateHeaders K items prev = .ok last) {i : Nat}
    (inside : i < items.length) : ∃ header, CheckedHeader K prev items i header := by
  induction items generalizing prev i with
  | nil => cases inside
  | cons it items ih =>
    obtain ⟨hash, first, rest⟩ := bind_eq_ok.mp ok
    obtain ⟨header, parsed, pow, served, same, links⟩ := validateHeader_eq_ok first
    cases i with
    | zero => exact ⟨header, ⟨it, rfl, parsed, same ▸ served⟩, pow, fun _ => links, nofun⟩
    | succ i =>
      obtain ⟨next, checked⟩ := ih rest (Nat.lt_of_succ_lt_succ inside)
      refine ⟨next, checked.item, checked.pow, nofun, fun j position => ?_⟩
      obtain rfl : i = j := Nat.succ.inj position
      cases i with
      | zero => exact ⟨it, header, rfl, parsed, (checked.anchored rfl hash rfl).trans same.symm⟩
      | succ k => exact checked.linked k rfl

/-- The hash that a list is accepted with is its last header's. -/
theorem validateHeaders_last {items : List HeaderItem} {prev : Option BlockHash}
    {last : BlockHash} (ok : validateHeaders K items prev = .ok last) (nonempty : items ≠ []) :
    ∃ it, items.getLast? = some it ∧ hashFromStr it.hash = .ok last := by
  induction items generalizing prev with
  | nil => exact absurd rfl nonempty
  | cons it items ih =>
    obtain ⟨hash, first, rest⟩ := bind_eq_ok.mp ok
    obtain ⟨header, _, _, served, _, _⟩ := validateHeader_eq_ok first
    cases items with
    | nil =>
      cases context_eq_ok.mp rest
      exact ⟨it, rfl, served⟩
    | cons second items =>
      rw [getLast?_cons_cons]
      exact ih rest (by simp)

/-- What an accepted item states is what its header hashes to. -/
theorem CheckedHeader.hash_eq {anchor : Option BlockHash} {items : List HeaderItem} {i : Nat}
    {header : Header} (checked : CheckedHeader K anchor items i header) {it : HeaderItem}
    (found : items[i]? = some it) : hashFromStr it.hash = .ok (K.blockHash header) := by
  obtain ⟨it', found', _, served⟩ := checked.item
  cases found.symm.trans found'
  exact served

/-! ## Filters -/

/-- Filter `i` of an answer is chained to the one before it, the first one to the anchor. -/
structure ChainedFilter (K : ChainCrypto) (anchor : Option FilterHeader)
    (filters : List FilterItem) (i : Nat) (f : FilterItem) (bytes : Bytes) : Prop where
  item : filters[i]? = some f
  decoded : hexDecode f.filter = .ok bytes
  anchored : i = 0 → ∀ pfh, anchor = some pfh →
    filterHeaderInternal f.filterHeader = .ok (computeFilterHeader K bytes pfh)
  linked : ∀ j, i = j + 1 → ∃ before pfh, filters[j]? = some before ∧
    filterHeaderInternal before.filterHeader = .ok pfh ∧
    filterHeaderInternal f.filterHeader = .ok (computeFilterHeader K bytes pfh)

variable {f : FilterItem}

theorem chainFilter_eq_ok {prev : Option FilterHeader} {chained : Bytes × FilterHeader}
    (ok : chainFilter K prev f = .ok chained) :
    hexDecode f.filter = .ok chained.1 ∧ filterHeaderInternal f.filterHeader = .ok chained.2 ∧
      ∀ pfh, prev = some pfh → computeFilterHeader K chained.1 pfh = chained.2 := by
  simp only [chainFilter, bind_eq_ok, ensure_eq_ok, exists_const, mapError_eq_ok, pure_eq_ok] at ok
  obtain ⟨bytes, decoded, served, parsed, links, rfl⟩ := ok
  refine ⟨decoded, parsed, ?_⟩
  rintro pfh rfl
  simpa using links

variable {test : Bytes → FilterItem → Except String (Option MatchedBlock)}

variable {filters : List FilterItem}

variable {matched : List MatchedBlock} {anchor : Option FilterHeader}

theorem scanFilters_cons (ok : scanFilters K test anchor (f :: filters) = .ok matched) :
    ∃ chained found others, chainFilter K anchor f = .ok chained ∧ test chained.1 f = .ok found ∧
      scanFilters K test (some chained.2) filters = .ok others ∧
      matched = found.toList ++ others := by
  simp only [scanFilters, bind_eq_ok, pure_eq_ok] at ok
  obtain ⟨chained, chain, found, tested, others, scanned, rfl⟩ := ok
  exact ⟨chained, found, others, chain, tested, scanned, rfl⟩

/-- Every filter of an answer is chained and given to the test, and what the test finds
is kept. -/
theorem scanFilters_reads (ok : scanFilters K test anchor filters = .ok matched) {i : Nat}
    (item : filters[i]? = some f) :
    ∃ bytes found, ChainedFilter K anchor filters i f bytes ∧ test bytes f = .ok found ∧
      ∀ m, found = some m → m ∈ matched := by
  induction filters generalizing anchor matched i with
  | nil => simp at item
  | cons first filters ih =>
    obtain ⟨chained, found, others, chain, tested, scanned, rfl⟩ := scanFilters_cons ok
    obtain ⟨decoded, served, links⟩ := chainFilter_eq_ok chain
    cases i with
    | zero =>
      cases item
      refine ⟨chained.1, found, ⟨rfl, decoded, fun _ pfh anchored => ?_, nofun⟩, tested, ?_⟩
      · rw [links pfh anchored, served]
      · rintro m rfl
        simp
    | succ i =>
      obtain ⟨bytes, later, chainedLater, testedLater, kept⟩ := ih scanned item
      refine ⟨bytes, later, ⟨item, chainedLater.decoded, nofun, fun j position => ?_⟩,
        testedLater, fun m hit => mem_append_right _ (kept m hit)⟩
      obtain rfl : i = j := Nat.succ.inj position
      cases i with
      | zero => exact ⟨first, chained.2, rfl, served, chainedLater.anchored rfl _ rfl⟩
      | succ k => exact chainedLater.linked k rfl

/-- Every block to fetch was found by the test in some filter of the answer. -/
theorem mem_scanFilters (ok : scanFilters K test anchor filters = .ok matched) {m : MatchedBlock}
    (member : m ∈ matched) :
    ∃ f ∈ filters, ∃ bytes, hexDecode f.filter = .ok bytes ∧ test bytes f = .ok (some m) := by
  induction filters generalizing anchor matched with
  | nil =>
    cases ok
    cases member
  | cons first filters ih =>
    obtain ⟨chained, found, others, chain, tested, scanned, rfl⟩ := scanFilters_cons ok
    rcases mem_append.mp member with here | later
    · obtain rfl := Option.mem_toList.mp here
      exact ⟨first, mem_cons_self, chained.1, (chainFilter_eq_ok chain).1, tested⟩
    · obtain ⟨f, inside, found⟩ := ih scanned later
      exact ⟨f, mem_cons_of_mem _ inside, found⟩

/-- A filter item whose filter has one of the wallet's scripts. -/
def Matches (K : ChainCrypto) (scripts : WalletScripts) (f : FilterItem) : Prop :=
  ∃ bytes hash, hexDecode f.filter = .ok bytes ∧ hashFromStr f.hash = .ok hash ∧
    blockMatches K bytes hash scripts = .ok true

variable {bytes : Bytes} {found : Option MatchedBlock}

/-- The test reads the filter under the item's own hash; a match becomes a block with the
item's own height and hash. -/
theorem testFilter_eq_ok (ok : testFilter K scripts bytes f = .ok found) :
    ∃ hash hit, hashFromStr f.hash = .ok hash ∧ blockMatches K bytes hash scripts = .ok hit ∧
      if hit then ∃ m, found = some m ∧ m.height = f.height ∧ m.blockHash = f.hash ∧
        trHits K bytes hash scripts = .ok m.trHits
      else found = none := by
  obtain ⟨hash, parsed, rest⟩ := bind_eq_ok.mp ok
  obtain ⟨hit, looked, rest⟩ := bind_eq_ok.mp rest
  refine ⟨hash, hit, mapError_eq_ok.mp parsed, looked, ?_⟩
  cases hit with
  | true =>
    obtain ⟨hits, named, rest⟩ := bind_eq_ok.mp rest
    cases pure_eq_ok.mp rest
    exact ⟨_, rfl, rfl, rfl, named⟩
  | false => exact (pure_eq_ok.mp rest).symm

theorem testFilter_some {m : MatchedBlock} (decoded : hexDecode f.filter = .ok bytes)
    (ok : testFilter K scripts bytes f = .ok (some m)) :
    Matches K scripts f ∧ m.height = f.height ∧ m.blockHash = f.hash := by
  obtain ⟨hash, hit, parsed, looked, outcome⟩ := testFilter_eq_ok ok
  cases hit with
  | true =>
    obtain ⟨_, same, height, blockHash, _⟩ := outcome
    cases same
    exact ⟨⟨bytes, hash, decoded, parsed, looked⟩, height, blockHash⟩
  | false => cases outcome

theorem testFilter_of_matches (decoded : hexDecode f.filter = .ok bytes)
    (ok : testFilter K scripts bytes f = .ok found) (hits : Matches K scripts f) :
    ∃ m, found = some m ∧ m.height = f.height ∧ m.blockHash = f.hash := by
  obtain ⟨hash, hit, parsed, looked, outcome⟩ := testFilter_eq_ok ok
  obtain ⟨bytes', hash', decoded', parsed', looked'⟩ := hits
  cases decoded.symm.trans decoded'
  cases parsed.symm.trans parsed'
  cases looked.symm.trans looked'
  obtain ⟨m, isFound, height, blockHash, _⟩ := outcome
  exact ⟨m, isFound, height, blockHash⟩

/-- Below the known block the downward test is the forward one. -/
theorem testBelow_of_ne {low start : Nat} {lowFilterHeader : String} (other : f.height ≠ low) :
    testBelow K scripts low lowFilterHeader start bytes f = testFilter K scripts bytes f :=
  if_neg other

theorem testBelow_low {low start : Nat} {lowFilterHeader : String} (known : f.height = low)
    (ok : testBelow K scripts low lowFilterHeader start bytes f = .ok found) :
    f.filterHeader = lowFilterHeader ∧ found = none := by
  rw [testBelow, if_pos known] at ok
  obtain ⟨same, rest⟩ := ensure_bind_eq_ok.mp ok
  exact ⟨same, (pure_eq_ok.mp rest).symm⟩

/-! ## The validated chain -/

/-- The hash belongs to a checked header of the answer, the one at this height. -/
def ChainHash (K : ChainCrypto) (lastHash : Option String) (headers : List HeaderItem)
    (start height : Nat) (hash : BlockHash) : Prop :=
  ∃ i header anchor, height = start + i ∧ lastHash.mapM hashFromStr = .ok anchor ∧
    CheckedHeader K anchor headers i header ∧ K.blockHash header = hash

/-- Every block to fetch is bound to a checked header's hash, and so every block applied
to any view, from whatever server it is fetched, is one of the checked headers'. -/
structure OnChain (K : ChainCrypto) (lastHash : Option String) (headers : List HeaderItem)
    (start : Nat) (matched : List MatchedBlock) : Prop where
  validated : ∀ m ∈ matched, ∃ hash, hashFromStr m.blockHash = .ok hash ∧
    ChainHash K lastHash headers start m.height hash
  applied : ∀ server scripts closeTxids view, ∃ fed : List (MatchedBlock × Block),
    (∀ p ∈ fed, ChainHash K lastHash headers start p.1.height (K.blockHash p.2.header)) ∧
    ((applyMatched K server scripts closeTxids matched).exec view).2 =
      fed.foldl (fun view p => view.applyBlock K.toCrypto scripts closeTxids p.1 p.2) view

/-- The filter item states the hash of the header item at its height. -/
def Named (headers : List HeaderItem) (start : Nat) (f : FilterItem) : Prop :=
  ∃ i it hash, f.height = start + i ∧ headers[i]? = some it ∧ hashFromStr it.hash = .ok hash ∧
    hashFromStr f.hash = .ok hash

section Validated

variable {lastHash : Option String} {anchor : Option BlockHash} {headers : List HeaderItem}
variable {last : BlockHash} {start : Nat}

/-- In an accepted answer a filter item's hash is a checked header's exactly when the item
names the header item at its height. -/
theorem chainHash_iff_named (anchored : lastHash.mapM hashFromStr = .ok anchor)
    (valid : validateHeaders K headers anchor = .ok last) {f : FilterItem} :
    (∃ hash, hashFromStr f.hash = .ok hash ∧ ChainHash K lastHash headers start f.height hash) ↔
      Named headers start f := by
  constructor
  · rintro ⟨hash, parsed, i, header, _, height, _, checked, rfl⟩
    obtain ⟨it, found, _, served⟩ := checked.item
    exact ⟨i, it, _, height, found, served, parsed⟩
  · rintro ⟨i, it, hash, height, found, served, parsed⟩
    obtain ⟨inside, _⟩ := List.getElem?_eq_some_iff.mp found
    obtain ⟨header, checked⟩ := validateHeaders_checked valid inside
    refine ⟨hash, parsed, i, header, anchor, height, anchored, checked, ?_⟩
    exact Except.ok.inj ((checked.hash_eq found).symm.trans served)

theorem onChain_of_validated {matched : List MatchedBlock}
    (validated : ∀ m ∈ matched, ∃ hash, hashFromStr m.blockHash = .ok hash ∧
      ChainHash K lastHash headers start m.height hash) :
    OnChain K lastHash headers start matched := by
  refine ⟨validated, fun server scripts closeTxids view => ?_⟩
  obtain ⟨fed, first, bound, state, _⟩ := applyMatched_fed (K := K) server scripts closeTxids
    matched view
  refine ⟨fed, fun p member => ?_, state⟩
  obtain ⟨hash, parsed, onChain⟩ := validated p.1
    (first.subset (mem_map_of_mem member))
  cases parsed.symm.trans (fetchBlockBound_eq_ok (bound p member)).1
  exact onChain

/-- When the test is the wallet's on some of the items and finds nothing in the others, the
blocks to fetch are on the chain exactly when the tested items that match name its
headers. -/
theorem onChain_iff_named (anchored : lastHash.mapM hashFromStr = .ok anchor)
    (valid : validateHeaders K headers anchor = .ok last) {filterAnchor : Option FilterHeader}
    {filters : List FilterItem} {matched : List MatchedBlock}
    (scanned : scanFilters K test filterAnchor filters = .ok matched) (tested : FilterItem → Prop)
    (runs : ∀ bytes f, tested f → test bytes f = testFilter K scripts bytes f)
    (passes : ∀ bytes f found, ¬tested f → test bytes f = .ok found → found = none) :
    OnChain K lastHash headers start matched ↔
      ∀ f ∈ filters, tested f → Matches K scripts f → Named headers start f := by
  constructor
  · intro onChain f inside isTested hits
    obtain ⟨i, item⟩ := mem_iff_getElem?.mp inside
    obtain ⟨bytes, found, chained, outcome, kept⟩ := scanFilters_reads scanned item
    rw [runs bytes f isTested] at outcome
    obtain ⟨m, isFound, height, blockHash⟩ := testFilter_of_matches chained.decoded outcome hits
    rw [← chainHash_iff_named anchored valid, ← height, ← blockHash]
    exact onChain.validated m (kept m isFound)
  · intro named
    refine onChain_of_validated fun m member => ?_
    obtain ⟨f, inside, bytes, decoded, outcome⟩ := mem_scanFilters scanned member
    have isTested : tested f := by
      by_contra skipped
      cases passes bytes f _ skipped outcome
    rw [runs bytes f isTested] at outcome
    obtain ⟨hits, height, blockHash⟩ := testFilter_some decoded outcome
    rw [height, blockHash, chainHash_iff_named anchored valid]
    exact named f inside isTested hits

end Validated

/-! ## The two steps -/

theorem optionMapM_mapError {text : Option String} {anchor : Option BlockHash}
    {wrap : String → String} :
    (text.mapM fun h => (hashFromStr h).mapError wrap) = .ok anchor ↔
      text.mapM hashFromStr = .ok anchor := by
  cases text with
  | none => rfl
  | some h =>
    cases parsed : hashFromStr h with
    | ok hash | error message => simp [Option.mapM, parsed, Except.mapError]

/-- A forward step leaves the mark where it is, or has checked every header and filter of
its answer and counts the headers. -/
theorem syncStep_cases {cursor : SyncCursor} {tipHeight batch : Nat} {headers : List HeaderItem}
    {out : SyncOutcome}
    (served : server.headers (nextStart cursor) (nextCount cursor tipHeight batch) = .ok headers)
    (answered : server.filters (nextStart cursor) (nextCount cursor tipHeight batch) = .ok filters)
    (ok : syncStep K server scripts cursor tipHeight batch = .ok out) :
    (¬(nextStart cursor ≤ tipHeight ∧ headers ≠ []) ∧ out.scannedTo = cursor.scannedTo ∧
      out.matched = []) ∨
    ((nextStart cursor ≤ tipHeight ∧ headers ≠ []) ∧ ∃ anchor last filterAnchor,
      cursor.lastHash.mapM hashFromStr = .ok anchor ∧ validateHeaders K headers anchor = .ok last ∧
      cursor.lastFilterHeader.mapM filterHeaderInternal = .ok filterAnchor ∧
      scanFilters K (testFilter K scripts) filterAnchor filters = .ok out.matched ∧
      out.scannedTo = Word.sub32 (Word.add32 (nextStart cursor) headers.length) 1) := by
  by_cases above : nextStart cursor > tipHeight
  · rw [syncStep, if_pos above] at ok
    cases pure_eq_ok.mp ok
    exact .inl ⟨fun reads => absurd reads.1 (Nat.not_le.mpr above), rfl, rfl⟩
  rw [syncStep, if_neg above] at ok
  obtain ⟨_, got, rest⟩ := bind_eq_ok.mp ok
  cases served.symm.trans got
  obtain ⟨_, got, rest⟩ := bind_eq_ok.mp rest
  cases answered.symm.trans got
  by_cases none : headers = []
  · rw [if_pos none] at rest
    cases pure_eq_ok.mp rest
    exact .inl ⟨fun reads => reads.2 none, rfl, rfl⟩
  simp only [if_neg none, bind_eq_ok, pure_eq_ok] at rest
  obtain ⟨anchor, anchored, last, valid, filterAnchor, filterAnchored, matched, scanned, rfl⟩ :=
    rest
  exact .inr ⟨⟨Nat.not_lt.mp above, none⟩, anchor, last, filterAnchor,
    optionMapM_mapError.mp anchored, valid, filterAnchored, scanned, rfl⟩

/-- A batch above the floor: the answers it was checked against and where it ends. -/
theorem syncStepDown_above {low floor batch : Nat} {lowHash lowFilterHeader : String}
    {out : DownOutcome} (above : floor < low)
    (ok : syncStepDown K server scripts low lowHash lowFilterHeader floor batch = .ok out) :
    out.low = downStart low floor batch ∧ out.done = decide (out.low ≤ floor) ∧
      ∃ headers filters last,
        server.headers out.low (Word.add32 (low - out.low) 1) = .ok headers ∧ headers ≠ [] ∧
        server.filters out.low (Word.add32 (low - out.low) 1) = .ok filters ∧
        validateHeaders K headers none = .ok last ∧ hashToStr last = lowHash ∧
        scanFilters K (testBelow K scripts low lowFilterHeader out.low) none filters =
          .ok out.matched := by
  rw [syncStepDown, if_neg (Nat.not_le.mpr above)] at ok
  simp only [bind_eq_ok, ensure_eq_ok, exists_const, pure_eq_ok] at ok
  obtain ⟨headers, served, filters, answered, _, last, valid, reaches, matched, scanned, _, head,
    rfl⟩ := ok
  refine ⟨rfl, rfl, headers, filters, last, served, ?_, answered, valid, reaches, scanned⟩
  rintro rfl
  cases head

/-- A downward step has nothing left to read, or has checked every header and filter of an
answer of the wanted length, up to the known block. -/
theorem syncStepDown_cases {low floor batch : Nat} {lowHash lowFilterHeader : String}
    {headers : List HeaderItem} {out : DownOutcome}
    (served : server.headers (downStart low floor batch)
      (Word.add32 (low - downStart low floor batch) 1) = .ok headers)
    (answered : server.filters (downStart low floor batch)
      (Word.add32 (low - downStart low floor batch) 1) = .ok filters)
    (ok : syncStepDown K server scripts low lowHash lowFilterHeader floor batch = .ok out) :
    (low ≤ floor ∧ out.low = low ∧ out.matched = []) ∨
    (floor < low ∧ ∃ last, validateHeaders K headers none = .ok last ∧ headers ≠ [] ∧
      hashToStr last = lowHash ∧ out.low = downStart low floor batch ∧
      scanFilters K (testBelow K scripts low lowFilterHeader (downStart low floor batch)) none
        filters = .ok out.matched) := by
  by_cases bottom : low ≤ floor
  · rw [syncStepDown, if_pos bottom] at ok
    cases pure_eq_ok.mp ok
    exact .inl ⟨bottom, rfl, rfl⟩
  obtain ⟨isLow, _, _, _, last, got, nonempty, got', valid, reaches, scanned⟩ :=
    syncStepDown_above (Nat.not_le.mp bottom) ok
  rw [isLow] at got got' scanned
  cases served.symm.trans got
  cases answered.symm.trans got'
  exact .inr ⟨Nat.not_le.mp bottom, last, valid, nonempty, reaches, isLow, scanned⟩

/-! ## Which answers stay on the validated chain -/

/-- The blocks to fetch after a step are on the validated chain exactly when every item of
the answer whose filter matches states the hash of the header at its height. In a
downward step items labelled as the known block are not tested, and the checked
headers end at the known block. -/
theorem matched_onChain_iff_named (K : ChainCrypto) (server : Server) (scripts : WalletScripts) :
    (∀ cursor tipHeight batch headers filters out,
      server.headers (nextStart cursor) (nextCount cursor tipHeight batch) = .ok headers →
      server.filters (nextStart cursor) (nextCount cursor tipHeight batch) = .ok filters →
      syncStep K server scripts cursor tipHeight batch = .ok out →
      (OnChain K cursor.lastHash headers (nextStart cursor) out.matched ↔
        (nextStart cursor ≤ tipHeight ∧ headers ≠ [] →
          ∀ f ∈ filters, Matches K scripts f → Named headers (nextStart cursor) f))) ∧
    (∀ low lowHash lowFilterHeader floor batch headers filters out,
      server.headers (downStart low floor batch)
        (Word.add32 (low - downStart low floor batch) 1) = .ok headers →
      server.filters (downStart low floor batch)
        (Word.add32 (low - downStart low floor batch) 1) = .ok filters →
      syncStepDown K server scripts low lowHash lowFilterHeader floor batch = .ok out →
      ((OnChain K none headers (downStart low floor batch) out.matched ∧
          (floor < low → ∃ it hash, headers.getLast? = some it ∧ hashFromStr it.hash = .ok hash ∧
            hashToStr hash = lowHash)) ↔
        (floor < low → ∀ f ∈ filters, f.height ≠ low → Matches K scripts f →
          Named headers (downStart low floor batch) f))) := by
  constructor
  · intro cursor tipHeight batch headers filters out served answered ok
    obtain ⟨idle, _, nothing⟩ | ⟨reads, anchor, last, filterAnchor, anchored, valid, _,
      scanned, _⟩ :=
      syncStep_cases served answered ok
    · rw [nothing]
      exact ⟨fun _ reads => absurd reads idle, fun _ => onChain_of_validated nofun⟩
    · rw [onChain_iff_named anchored valid scanned (fun _ => True) (fun _ _ _ => rfl)
        (fun _ _ _ skipped => absurd trivial skipped)]
      exact ⟨fun named _ f inside => named f inside trivial,
        fun named f inside _ => named reads f inside⟩
  · intro low lowHash lowFilterHeader floor batch headers filters out served answered ok
    obtain ⟨bottom, _, nothing⟩ | ⟨above, last, valid, nonempty, reaches, _, scanned⟩ :=
      syncStepDown_cases served answered ok
    · rw [nothing]
      exact ⟨fun _ above => absurd above (Nat.not_lt.mpr bottom), fun _ =>
        ⟨onChain_of_validated nofun, fun above => absurd above (Nat.not_lt.mpr bottom)⟩⟩
    · obtain ⟨it, isLast, hash⟩ := validateHeaders_last valid nonempty
      rw [onChain_iff_named rfl valid scanned (fun f => f.height ≠ low)
        (fun _ _ other => testBelow_of_ne other)
        (fun _ _ _ known outcome => (testBelow_low (not_not.mp known) outcome).2)]
      exact ⟨fun named _ => named.1, fun named =>
        ⟨named above, fun _ => ⟨it, last, isLast, hash, reaches⟩⟩⟩

/-! ### A server that invents a block -/

/-- A chain small enough to run: a header is two bytes, its predecessor's hash and its own,
and hashes below 16 have enough work. Every block pays the script of one byte and every
filter matches. -/
def small : ChainCrypto where
  computeTxid tx := BitVec.ofNat 256 tx.lockTime
  wpkhScript _ := none
  sha256d _ := 0
  decodeHeader bytes :=
    match bytes with
    | [prev, own] => .ok ⟨BitVec.ofNat 256 prev.toNat, own.toNat⟩
    | _ => .error "two bytes"
  blockHash header := BitVec.ofNat 256 header.time
  validPow header := BitVec.ult (BitVec.ofNat 256 header.time) 16
  decodeBlock bytes :=
    match bytes with
    | [prev, own] =>
      .ok ⟨⟨BitVec.ofNat 256 prev.toNat, own.toNat⟩, [⟨2, own.toNat, [], [⟨50, [7]⟩]⟩]⟩
    | _ => .error "two bytes"
  checkMerkleRoot _ := true
  matchAny _ _ _ := .ok true

def smallScripts : WalletScripts := ⟨[⟨0, 0, [7]⟩]⟩

def smallCursor : SyncCursor := ⟨1, 0, none, none⟩

def smallHeaders : List HeaderItem := [⟨1, hashToStr 5, "0005"⟩, ⟨2, hashToStr 6, "0506"⟩]

def smallFilters : List FilterItem :=
  [⟨1, hashToStr 5, "", hashToStr 0⟩, ⟨2, hashToStr 6, "", hashToStr 0⟩]

def honest : Server where
  headers _ _ := .ok smallHeaders
  filters _ _ := .ok smallFilters
  block height := .ok (if height = 1 then "0005" else "0506")

theorem smallFilters_named (member : f ∈ smallFilters) : Named smallHeaders 1 f := by
  rcases mem_cons.mp member with rfl | rest
  · exact ⟨0, _, 5, rfl, rfl, by rfl, by rfl⟩
  · cases mem_singleton.mp rest
    exact ⟨1, _, 6, rfl, rfl, by rfl, by rfl⟩

theorem matched_onChain_iff_named_honest :
    OnChain small none smallHeaders 1 [⟨1, hashToStr 5, []⟩, ⟨2, hashToStr 6, []⟩] ∧
    OnChain small none smallHeaders 1 [⟨1, hashToStr 5, []⟩] := by
  obtain ⟨forward, down⟩ := matched_onChain_iff_named small honest smallScripts
  refine ⟨(forward smallCursor 2 10 smallHeaders smallFilters
    ⟨2, _, some (hashToStr 6), some (hashToStr 0), true⟩ rfl rfl (by decide +kernel)).mpr ?_,
    ((down 2 (hashToStr 6) (hashToStr 0) 1 10 smallHeaders smallFilters
      ⟨1, hashToStr 5, hashToStr 0, _, true⟩ rfl rfl (by decide +kernel)).mpr ?_).1⟩
  · exact fun _ f member _ => smallFilters_named member
  · exact fun _ f member _ _ => smallFilters_named member

/-- The headers are good; the first filter item names a block of its own, without work. -/
def forger : Server where
  headers _ _ := .ok smallHeaders
  filters _ _ := .ok [⟨1, hashToStr 99, "", hashToStr 0⟩, ⟨2, hashToStr 6, "", hashToStr 0⟩]
  block height := .ok (if height = 1 then "0063" else "0506")

def forged : List MatchedBlock := [⟨1, hashToStr 99, []⟩, ⟨2, hashToStr 6, []⟩]

/-- The made-up block is matched, fetched and applied: its coin is in the view. -/
theorem forged_block_credited :
    (syncStep small forger smallScripts smallCursor 2 10).map SyncOutcome.matched = .ok forged ∧
    ¬OnChain small none smallHeaders 1 forged ∧
    ((fetchAndApply small forger smallScripts [] forged).exec .empty).2.utxos.map
      OnchainUtxo.txid = [99, 6] ∧
    small.validPow ⟨0, 99⟩ = false := by
  refine ⟨by decide +kernel, ?_, by decide +kernel, by decide⟩
  intro onChain
  obtain ⟨hash, parsed, i, header, anchor, _, _, checked, same⟩ :=
    onChain.validated ⟨1, hashToStr 99, []⟩ mem_cons_self
  have forgedHash : hashFromStr (hashToStr 99) = .ok 99 := by rfl
  cases parsed.symm.trans forgedHash
  have work : BitVec.ult (small.blockHash header) 16 = true := checked.pow
  rw [same] at work
  cases work

/-! ## Which answers leave no height unread -/

/-- The filter of this height stands at its place in the answer, is chained to the filter
header before it and was tested; a match is among the blocks to fetch. -/
def Covered (K : ChainCrypto) (scripts : WalletScripts) (lastFilterHeader : Option String)
    (filters : List FilterItem) (matched : List MatchedBlock) (start height : Nat) : Prop :=
  ∃ f bytes anchor hash hit, f.height = height ∧
    lastFilterHeader.mapM filterHeaderInternal = .ok anchor ∧
    ChainedFilter K anchor filters (height - start) f bytes ∧ hashFromStr f.hash = .ok hash ∧
    blockMatches K bytes hash scripts = .ok hit ∧
    (hit = true → ∃ m ∈ matched, m.height = height ∧ m.blockHash = f.hash)

/-- The answer has a filter at this place and it is labelled with its height. -/
def Labelled (filters : List FilterItem) (start i : Nat) : Prop :=
  ∃ f, filters[i]? = some f ∧ f.height = start + i

/-- The number of headers as the step counts them, `len() as u32`. -/
def headerCount (headers : List HeaderItem) : Nat := headers.length % 2 ^ 32

theorem covered_of_labelled {lastFilterHeader : Option String} {start height : Nat}
    (anchored : lastFilterHeader.mapM filterHeaderInternal = .ok anchor)
    (scanned : scanFilters K test anchor filters = .ok matched) (above : start ≤ height)
    (runs : ∀ bytes f, f.height = height → test bytes f = testFilter K scripts bytes f)
    (labelled : Labelled filters start (height - start)) :
    Covered K scripts lastFilterHeader filters matched start height := by
  obtain ⟨f, item, label⟩ := labelled
  have isHeight : f.height = height := by omega
  obtain ⟨bytes, found, chained, outcome, kept⟩ := scanFilters_reads scanned item
  rw [runs bytes f isHeight] at outcome
  obtain ⟨hash, hit, parsed, looked, result⟩ := testFilter_eq_ok outcome
  refine ⟨f, bytes, anchor, hash, hit, isHeight, anchored, chained, parsed, looked, ?_⟩
  rintro rfl
  obtain ⟨m, isFound, atHeight, blockHash, _⟩ := result
  exact ⟨m, kept m isFound, atHeight.trans isHeight, blockHash⟩

theorem Covered.labelled {lastFilterHeader : Option String} {start i : Nat}
    (covered : Covered K scripts lastFilterHeader filters matched start (start + i)) :
    Labelled filters start i := by
  obtain ⟨f, bytes, anchor, hash, hit, height, _, chained, _⟩ := covered
  have item := chained.item
  rw [Nat.add_sub_cancel_left] at item
  exact ⟨f, item, height⟩

/-- The mark of a forward step, as a number. -/
theorem mark_eq {start count : Nat} (positive : 0 < start) (inRange : start < 2 ^ 32) :
    Word.sub32 (Word.add32 start count) 1 = (start + count % 2 ^ 32 - 1) % 2 ^ 32 := by
  simp only [Word.sub32, Word.add32]
  omega

theorem nextStart_pos (cursor : SyncCursor) : 0 < nextStart cursor := by
  simp only [nextStart, Word.saturatingAdd32, Word.u32Max]
  omega

/-- A step leaves no height unread exactly when the answer's filters stand in place and are
labelled in order: in a forward step as many as there are headers, which are not more
than the heights left, in a downward step up to the known block. -/
theorem heights_covered_iff_labelled (K : ChainCrypto) (server : Server)
    (scripts : WalletScripts) :
    (∀ cursor tipHeight batch headers filters out, tipHeight < 2 ^ 32 →
      server.headers (nextStart cursor) (nextCount cursor tipHeight batch) = .ok headers →
      server.filters (nextStart cursor) (nextCount cursor tipHeight batch) = .ok filters →
      syncStep K server scripts cursor tipHeight batch = .ok out →
      ((¬(nextStart cursor ≤ tipHeight ∧ headers ≠ []) ∧ out.scannedTo = cursor.scannedTo ∨
          nextStart cursor ≤ out.scannedTo ∧ out.scannedTo ≤ tipHeight ∧
            ∀ height, nextStart cursor ≤ height → height ≤ out.scannedTo →
              Covered K scripts cursor.lastFilterHeader filters out.matched (nextStart cursor)
                height) ↔
        (nextStart cursor ≤ tipHeight ∧ headers ≠ [] →
          0 < headerCount headers ∧ headerCount headers ≤ tipHeight - nextStart cursor + 1 ∧
            ∀ i < headerCount headers, Labelled filters (nextStart cursor) i))) ∧
    (∀ low lowHash lowFilterHeader floor batch headers filters out,
      server.headers (downStart low floor batch)
        (Word.add32 (low - downStart low floor batch) 1) = .ok headers →
      server.filters (downStart low floor batch)
        (Word.add32 (low - downStart low floor batch) 1) = .ok filters →
      syncStepDown K server scripts low lowHash lowFilterHeader floor batch = .ok out →
      ((low ≤ floor ∧ out.low = low ∨
          floor < low ∧ (∀ height, out.low ≤ height → height < low →
            Covered K scripts none filters out.matched out.low height) ∧
          ∃ f bytes, ChainedFilter K none filters (low - out.low) f bytes ∧ f.height = low ∧
            f.filterHeader = lowFilterHeader) ↔
        (floor < low → ∀ i ≤ low - downStart low floor batch,
          Labelled filters (downStart low floor batch) i))) := by
  constructor
  · intro cursor tipHeight batch headers filters out inRange served answered ok
    obtain ⟨idle, unchanged, _⟩ | ⟨reads, anchor, last, filterAnchor, _, _, anchored,
      scanned, mark⟩ :=
      syncStep_cases served answered ok
    · exact ⟨fun _ reads => absurd reads idle, fun _ => .inl ⟨idle, unchanged⟩⟩
    have positive := nextStart_pos cursor
    rw [mark_eq positive (by omega)] at mark
    have counted : headerCount headers < 2 ^ 32 := Nat.mod_lt _ (by decide)
    constructor
    · rintro (⟨idle, _⟩ | ⟨above, below, covered⟩) _
      · exact absurd reads idle
      · simp only [headerCount] at counted ⊢
        refine ⟨by omega, by omega, fun i inside => ?_⟩
        exact (covered (nextStart cursor + i) (Nat.le_add_right _ _) (by omega)).labelled
    · intro condition
      obtain ⟨nonzero, few, labelled⟩ := condition reads
      simp only [headerCount] at nonzero few labelled counted
      refine .inr ⟨by omega, by omega, fun height above below => ?_⟩
      exact covered_of_labelled anchored scanned above (fun _ _ _ => rfl)
        (labelled _ (by omega))
  · intro low lowHash lowFilterHeader floor batch headers filters out served answered ok
    obtain ⟨bottom, unchanged, _⟩ | ⟨above, last, _, _, _, isLow, scanned⟩ :=
      syncStepDown_cases served answered ok
    · exact ⟨fun _ above => absurd above (Nat.not_lt.mpr bottom), fun _ => .inl ⟨bottom, unchanged⟩⟩
    have started : downStart low floor batch < low := by
      simp only [downStart]
      omega
    rw [isLow]
    constructor
    · rintro (⟨bottom, _⟩ | ⟨_, covered, f, bytes, chained, height, _⟩) _ i inside
      · exact absurd bottom (Nat.not_le.mpr above)
      · by_cases top : i = low - downStart low floor batch
        · exact ⟨f, top ▸ chained.item, by omega⟩
        · exact (covered (downStart low floor batch + i) (Nat.le_add_right _ _)
            (by omega)).labelled
    · intro condition
      have labelled := condition above
      refine .inr ⟨above, fun height reached below => ?_, ?_⟩
      · refine covered_of_labelled rfl scanned reached (fun bytes f isHeight => ?_)
          (labelled _ (by omega))
        exact testBelow_of_ne (by omega)
      · obtain ⟨f, item, label⟩ := labelled _ le_rfl
        have known : f.height = low := by omega
        obtain ⟨bytes, found, chained, outcome, _⟩ := scanFilters_reads scanned item
        exact ⟨f, bytes, chained, known, (testBelow_low known outcome).1⟩

theorem smallFilters_labelled {i : Nat} (inside : i < 2) : Labelled smallFilters 1 i := by
  match i with
  | 0 => exact ⟨_, rfl, rfl⟩
  | 1 => exact ⟨_, rfl, rfl⟩

theorem heights_covered_iff_labelled_honest :
    (∀ height, 1 ≤ height → height ≤ 2 → Covered small smallScripts none smallFilters
      [⟨1, hashToStr 5, []⟩, ⟨2, hashToStr 6, []⟩] 1 height) ∧
    (∀ height, 1 ≤ height → height < 2 → Covered small smallScripts none smallFilters
      [⟨1, hashToStr 5, []⟩] 1 height) := by
  obtain ⟨forward, down⟩ := heights_covered_iff_labelled small honest smallScripts
  constructor
  · have reads : nextStart smallCursor ≤ 2 ∧ smallHeaders ≠ [] := by decide
    obtain ⟨idle, _⟩ | ⟨_, _, covered⟩ := (forward smallCursor 2 10 smallHeaders smallFilters
      ⟨2, [⟨1, hashToStr 5, []⟩, ⟨2, hashToStr 6, []⟩], some (hashToStr 6),
        some (hashToStr 0), true⟩
      (by decide) rfl rfl (by decide +kernel)).mpr
        fun _ => ⟨by decide, by decide, fun i inside => smallFilters_labelled inside⟩
    · exact absurd reads idle
    · exact covered
  · obtain ⟨bottom, _⟩ | ⟨_, covered, _⟩ := (down 2 (hashToStr 6) (hashToStr 0) 1 10 smallHeaders
      smallFilters ⟨1, hashToStr 5, hashToStr 0, [⟨1, hashToStr 5, []⟩], true⟩ rfl rfl
      (by decide +kernel)).mpr
        fun _ i inside => smallFilters_labelled (Nat.lt_succ_of_le inside)
    · exact absurd bottom (by decide)
    · exact covered

/-- Good headers and no filters at all. -/
def silent : Server := { honest with filters := fun _ _ => .ok [] }

/-- No filter carries the known block's label, so none is compared with its header. -/
def relabelling : Server :=
  { honest with filters := fun _ _ => .ok [⟨3, hashToStr 5, "", hashToStr 0⟩,
      ⟨4, hashToStr 6, "", hashToStr 0⟩] }

/-- Without filters the mark still moves up over both heights; with labels above the known block's
the low mark moves down over a height that has no filter. -/
theorem heights_passed_unread :
    syncStep small silent smallScripts smallCursor 2 10 =
      .ok ⟨2, [], some (hashToStr 6), none, true⟩ ∧
    ¬Covered small smallScripts none [] [] 1 1 ∧
    syncStepDown small relabelling smallScripts 2 (hashToStr 6) (hashToStr 0) 1 10 =
      .ok ⟨1, hashToStr 5, hashToStr 0, [⟨3, hashToStr 5, []⟩, ⟨4, hashToStr 6, []⟩], true⟩ ∧
    ¬Covered small smallScripts none [⟨3, hashToStr 5, "", hashToStr 0⟩,
      ⟨4, hashToStr 6, "", hashToStr 0⟩] [⟨3, hashToStr 5, []⟩, ⟨4, hashToStr 6, []⟩] 1 1 := by
  refine ⟨by decide +kernel, ?_, by decide +kernel, ?_⟩
  · rintro ⟨f, bytes, anchor, hash, hit, _, _, chained, _⟩
    cases chained.item
  · rintro ⟨f, bytes, anchor, hash, hit, height, _, chained, _⟩
    cases chained.item
    cases height

end Lij.Tier2
