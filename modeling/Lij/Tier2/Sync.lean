import Lij.Foundation.Checked
import Lij.Tier2.View

/-!
# Reading headers and filters from a server

One batch of the walk, forward from the cursor or downward from the lowest known
block. The server answers with two lists: headers, whose proof of work and
linkage are checked, and compact filters, whose filter headers are chained. A
filter that matches the wallet's scripts yields a block to fetch.

Double SHA-256, the decoding of headers and blocks, the proof-of-work check and
the Golomb-coded set query are the bitcoin crate's and are parameters.
-/

namespace Lij.Tier2

open Bitcoin Checked

abbrev BlockHash := BitVec 256

abbrev FilterHeader := BitVec 256

structure Header where
  prevBlockhash : BlockHash
  time : Nat
  deriving DecidableEq, Repr

structure Block where
  header : Header
  txdata : List Transaction

structure ChainCrypto extends Crypto where
  sha256d : Bytes → BitVec 256
  decodeHeader : Bytes → Except String Header
  blockHash : Header → BlockHash
  /-- The hash meets the target the header states. -/
  validPow : Header → Bool
  decodeBlock : Bytes → Except String Block
  checkMerkleRoot : Block → Bool
  /-- `BlockFilter::match_any`, keyed by the block's hash. -/
  matchAny : Bytes → BlockHash → List Script → Except String Bool

def hexDecode (text : String) : Except String Bytes :=
  context (Hex.decodeAnyBytes (Bytes.ofText text)) "Invalid hex"

/-- A 32-byte hash in display order. -/
def hashFromStr (text : String) : Except String (BitVec 256) := do
  let bytes ← hexDecode text
  ensure (bytes.length = 32) "bad hex string length"
  return Bytes.to256 bytes

def hashToStr (hash : BitVec 256) : String := Hex.encode (Bytes.of256 hash)

@[simp] theorem hashFromStr_hashToStr (hash : BitVec 256) :
    hashFromStr (hashToStr hash) = .ok hash := by
  have decoded : hexDecode (hashToStr hash) = .ok (Bytes.of256 hash) := by
    rw [hexDecode, hashToStr, Hex.ofText_encode, Hex.decodeAnyBytes_encodeBytes]
    rfl
  refine bind_eq_ok.mpr ⟨_, decoded, ensure_bind_eq_ok.mpr ⟨Bytes.length_of256 hash, ?_⟩⟩
  rw [Bytes.to256_of256]
  rfl

/-! ## Answers -/

structure HeaderItem where
  height : Nat
  hash : String
  header : String
  deriving DecidableEq, Repr

structure FilterItem where
  height : Nat
  hash : String
  filter : String
  filterHeader : String
  deriving DecidableEq, Repr

/-- What the server answers to a request; anything, or nothing. -/
structure Server where
  headers : Nat → Nat → Except String (List HeaderItem)
  filters : Nat → Nat → Except String (List FilterItem)
  block : Nat → Except String String

/-- A block to fetch, with the hash it is bound to and the BIP86 scripts its filter names. -/
structure MatchedBlock where
  height : Nat
  blockHash : String
  trHits : List (Nat × Nat)
  deriving DecidableEq, Repr

structure SyncOutcome where
  scannedTo : Nat
  matched : List MatchedBlock
  lastHash : Option String
  lastFilterHeader : Option String
  caughtUp : Bool
  deriving DecidableEq, Repr

/-! ## Headers -/

variable (K : ChainCrypto)

def parseHeader (text : String) : Except String Header := do
  let bytes ← (hexDecode text).mapError fun e => "header hex: " ++ e
  (K.decodeHeader bytes).mapError fun e => "header decode: " ++ e

/-- One header: proof of work, the served hash, and the link to its predecessor. -/
def validateHeader (prev : Option BlockHash) (it : HeaderItem) : Except String BlockHash := do
  let header ← parseHeader K it.header
  ensure (K.validPow header = true) s!"pow invalid at {it.height}"
  let want ← (hashFromStr it.hash).mapError fun e => s!"served hash parse at {it.height}: " ++ e
  ensure (K.blockHash header = want) s!"header hash mismatch at {it.height} (computed != served)"
  ensure (prev.all (fun ph => header.prevBlockhash = ph) = true)
    s!"header chain break at {it.height}"
  return want

def validateHeaders : List HeaderItem → Option BlockHash → Except String BlockHash
  | [], prev => context prev "validate_headers: empty batch"
  | it :: items, prev => do
    let hash ← validateHeader K prev it
    validateHeaders items (some hash)

/-! ## Filters -/

/-- BIP157: the hash of the filter's hash and the previous filter header. -/
def computeFilterHeader (filter : Bytes) (prev : FilterHeader) : FilterHeader :=
  K.sha256d (Bytes.of256 (K.sha256d filter) ++ Bytes.of256 prev)

def filterHeaderInternal (text : String) : Except String FilterHeader :=
  (hashFromStr text).mapError fun e => "filter header parse: " ++ e

def blockMatches (filter : Bytes) (hash : BlockHash) (scripts : WalletScripts) :
    Except String Bool :=
  if scripts.entries.isEmpty then .ok false
  else (K.matchAny filter hash (scripts.entries.map MatchEntry.scriptPubkey)).mapError
    fun e => "bip158 match: " ++ e

def WalletScripts.trEntries (scripts : WalletScripts) : List MatchEntry :=
  scripts.entries.filter fun e => (bip86Branch e.chain).isSome

/-- The wallet's BIP86 scripts in a filter. -/
def trHits (filter : Bytes) (hash : BlockHash) (scripts : WalletScripts) :
    Except String (List (Nat × Nat)) := do
  let tr := scripts.trEntries
  if tr.isEmpty then return []
  let any ← (K.matchAny filter hash (tr.map MatchEntry.scriptPubkey)).mapError
    fun e => "bip158 match: " ++ e
  if !any then return []
  let hit ← tr.filterM fun e => (K.matchAny filter hash [e.scriptPubkey]).mapError
    fun e => "bip158 match: " ++ e
  return hit.map fun e => (e.chain, e.index)

/-- The filter's bytes and its served header, chained to the one before it. -/
def chainFilter (prev : Option FilterHeader) (f : FilterItem) :
    Except String (Bytes × FilterHeader) := do
  let bytes ← (hexDecode f.filter).mapError fun e => s!"filter hex at {f.height}: " ++ e
  let served ← filterHeaderInternal f.filterHeader
  ensure (prev.all (fun pfh => computeFilterHeader K bytes pfh = served) = true)
    s!"filter-header chain break at {f.height}"
  return (bytes, served)

/-- The block to fetch, when the filter matches. It carries the filter item's own
height and hash. -/
def testFilter (scripts : WalletScripts) (bytes : Bytes) (f : FilterItem) :
    Except String (Option MatchedBlock) := do
  let hash ← (hashFromStr f.hash).mapError fun e => s!"filter block hash at {f.height}: " ++ e
  let hit ← blockMatches K bytes hash scripts
  if hit then do
    let hits ← trHits K bytes hash scripts
    return some { height := f.height, blockHash := f.hash, trHits := hits }
  else return none

/-- The loop over an answer's filters, each chained to the one before it and given to the
walk's test: the blocks to fetch. -/
def scanFilters (test : Bytes → FilterItem → Except String (Option MatchedBlock)) :
    Option FilterHeader → List FilterItem → Except String (List MatchedBlock)
  | _, [] => .ok []
  | prev, f :: filters => do
    let chained ← chainFilter K prev f
    let found ← test chained.1 f
    let rest ← scanFilters test (some chained.2) filters
    return found.toList ++ rest

/-! ## Forward -/

/-- The first height of the next forward batch. -/
def nextStart (cursor : SyncCursor) : Nat :=
  max (Word.saturatingAdd32 cursor.scannedTo 1) cursor.birthday

def nextCount (cursor : SyncCursor) (tipHeight batch : Nat) : Nat :=
  min (tipHeight - nextStart cursor + 1) (max batch 1)

def syncStep (server : Server) (scripts : WalletScripts) (cursor : SyncCursor)
    (tipHeight batch : Nat) : Except String SyncOutcome := do
  let start := nextStart cursor
  let unchanged (caughtUp : Bool) : SyncOutcome :=
    { scannedTo := cursor.scannedTo, matched := [], lastHash := cursor.lastHash
      lastFilterHeader := cursor.lastFilterHeader, caughtUp }
  if start > tipHeight then return unchanged true
  let headers ← server.headers start (nextCount cursor tipHeight batch)
  let filters ← server.filters start (nextCount cursor tipHeight batch)
  if headers = [] then return unchanged false
  let prevAnchor ← cursor.lastHash.mapM fun h =>
    (hashFromStr h).mapError fun e => "cursor last_hash parse: " ++ e
  let lastHash ← validateHeaders K headers prevAnchor
  let prevFilterHeader ← cursor.lastFilterHeader.mapM filterHeaderInternal
  let matched ← scanFilters K (testFilter K scripts) prevFilterHeader filters
  -- the mark counts headers, whatever the filters covered
  let scannedTo := Word.sub32 (Word.add32 start headers.length) 1
  return {
    scannedTo, matched, lastHash := some (hashToStr lastHash)
    lastFilterHeader := ((filters.map FilterItem.filterHeader).getLast?).or cursor.lastFilterHeader
    caughtUp := decide (scannedTo ≥ tipHeight) }

/-! ## Downward -/

structure DownOutcome where
  low : Nat
  lowHash : String
  lowFilterHeader : String
  matched : List MatchedBlock
  done : Bool
  deriving DecidableEq, Repr

/-- The downward walk's test: an item labelled as the known block is compared with the
stored filter header and not tested again. -/
def testBelow (scripts : WalletScripts) (low : Nat) (lowFilterHeader : String) (start : Nat)
    (bytes : Bytes) (f : FilterItem) : Except String (Option MatchedBlock) :=
  if f.height = low then do
    ensure (f.filterHeader = lowFilterHeader)
      (s!"down batch {start}..{low}: filter-header chain does not reach the known header" ++
        s!" at {low}")
    return none
  else testFilter K scripts bytes f

/-- The bottom of the next downward batch. -/
def downStart (low floor batch : Nat) : Nat := max (low - max batch 1) floor

def syncStepDown (server : Server) (scripts : WalletScripts) (low : Nat) (lowHash : String)
    (lowFilterHeader : String) (floor batch : Nat) : Except String DownOutcome := do
  if low ≤ floor then return { low, lowHash, lowFilterHeader, matched := [], done := true }
  let start := downStart low floor batch
  -- the known block is read again as the overlap
  let count := Word.add32 (low - start) 1
  let headers ← server.headers start count
  let filters ← server.filters start count
  ensure (headers.length % 2 ^ 32 = count ∧ filters.length % 2 ^ 32 = count)
    (s!"down batch {start}..{low}: server returned {headers.length} headers" ++
      s!" / {filters.length} filters, wanted {count}")
  let topHash ← validateHeaders K headers none
  ensure (hashToStr topHash = lowHash)
    s!"down batch {start}..{low}: header chain does not reach the known block at {low}"
  let matched ← scanFilters K (testBelow K scripts low lowFilterHeader start) none filters
  let bottom ← context headers.head? "down batch: empty"
  return {
    low := start, lowHash := bottom.hash
    lowFilterHeader := (filters.head?.map FilterItem.filterHeader).getD ""
    matched, done := decide (start ≤ floor) }

end Lij.Tier2
