import Mathlib
import Lij.Bitcoin.Basic
import Lij.Foundation.Folds
import Lij.Foundation.Json
import Lij.Foundation.Maps
import Lij.Foundation.Words

/-!
# The Black start kit across copies

Before a push the wallet merges its own kit with the kits other holders have.
Channels are matched by their funding outpoint. Each merged channel entry is kept
here beside the own or held entry it was copied from: the copy differs from that
source in the marks the merge adds and in nothing else, so the signed CLOSE it
carries is the source's.
-/

namespace Lij.KitMerge

open Bitcoin Json List

/-! ## The code -/

/-- What the merge asks of its libraries: a transaction read from hexadecimal text,
and the lower case of a text. -/
structure Decoder where
  parseTx : String → Option Transaction
  lowercase : String → String

/-- The BOLT 3 number of a commitment transaction, out of its locktime and its first
input's sequence. -/
def decodeCommitmentNumber (tx : Transaction) (factor : Nat) : Option Nat := do
  let input ← tx.input.head?
  let lt := tx.lockTime
  let sq := input.sequence
  if lt >>> 24 ≠ 0x20 ∨ sq >>> 24 ≠ 0x80 then none
  else some ((((sq &&& 0xffffff) <<< 24 ||| (lt &&& 0xffffff)) ^^^ factor) &&& 0xffffffffffff)

/-- A held kit, opened: its envelope's sequence number and its plaintext. -/
structure HeldKit where
  seq : Nat
  plain : Value

/-- One chain answer. An outpoint without one is unknown. -/
inductive Fact where
  | unspent
  | spent (spender : Option String)

abbrev Chain := Std.TreeMap String Fact

def funding (entry : Value) : String := entry.text "funding_txo"

/-- The delayed output a channel entry's COLLECT spends, read from its sweeps. -/
def toLocalOutpoint (K : Decoder) (entry : Value) : Option String :=
  ["sweep_hex_normal", "sweep_hex_high"].findSome? fun key => do
    let tx ← K.parseTx (← (← entry.get key).asStr)
    let input ← tx.input.head?
    return Txid.text input.previousOutput.txid ++ ":" ++ toString input.previousOutput.vout

def coinLegs : List String := ["silent_payments", "taproot_coins"]

def coinKey (coin : Value) : String :=
  coin.text "txid" ++ ":" ++ toString (((coin.get "vout").bind Value.asU64).getD Word.u64Max)

/-- Held kits, the highest sequence number first. -/
def bySeq (held : List HeldKit) : List HeldKit := held.insertionSort fun a b => b.seq ≤ a.seq

/-- One held entry against the best one so far for its funding outpoint. -/
def consider (numberOf : Value → Option Nat) (best : Std.TreeMap String (Value × Nat))
    (entry : Value × Nat) : Std.TreeMap String (Value × Nat) :=
  let f := funding entry.1
  if f = "" then best
  else
    match best[f]? with
    | none => best.insert f entry
    | some cur =>
      match numberOf entry.1, numberOf cur.1 with
      | some a, some b => if a > b then best.insert f entry else best
      | _, _ => best

def bestHeld (held : List HeldKit) (numberOf : Value → Option Nat) :
    Std.TreeMap String (Value × Nat) :=
  (bySeq held).foldl
    (fun best kit =>
      (kit.plain.items "channels").foldl (fun best e => consider numberOf best (e, kit.seq)) best)
    ∅

/-- Whether a channel entry this copy does not hold can still matter. -/
def stillMatters (K : Decoder) (chain : Chain) (entry : Value) : Bool :=
  match chain[funding entry]? with
  | none | some .unspent => true
  | some (.spent none) => true
  | some (.spent (some spender)) =>
    let ownClose := K.lowercase (entry.text "commitment_txid")
    if ownClose ≠ "" ∧ spender = ownClose then
      match toLocalOutpoint K entry with
      | none => false
      | some tl =>
        match chain[tl]? with
        | some (.spent _) => false
        | _ => true
    else false

/-- A channel entry of the merged kit, beside the entry it was copied from. -/
structure Merged where
  source : Value
  entry : Value

/-- The held entry kept over this copy's older one. -/
def keptNewer (h : Value) (hn own : Nat) : Value :=
  ((h.insert "kept_newer" (.bool true)).insert "this_copy_commitment_number" (.int own)).insert
    "commitment_number" (.int hn)

/-- An own entry, or the newer held entry in its place. -/
def mergeOwn (numberOf : Value → Option Nat) (best : Std.TreeMap String (Value × Nat))
    (e : Value) : Merged :=
  match best[funding e]? with
  | none => ⟨e, e⟩
  | some h =>
    match numberOf h.1, numberOf e with
    | some hn, some own => if hn > own then ⟨h.1, keptNewer h.1 hn own⟩ else ⟨e, e⟩
    | _, _ => ⟨e, e⟩

/-- Whether the merge reports an own entry as the older one. -/
def isOlder (numberOf : Value → Option Nat) (best : Std.TreeMap String (Value × Nat))
    (e : Value) : Bool :=
  match best[funding e]? with
  | none => false
  | some h =>
    match numberOf h.1, numberOf e with
    | some hn, some own => hn > own
    | _, _ => false

/-- The marks of everything carried over from a held kit. -/
def carriedMarks (nowMs : Nat) (v : Value) (seq : Nat) : Value :=
  let since := ((v.get "carried_since").bind Value.asU64).getD nowMs
  ((v.insert "carried" (.bool true)).insert "carried_since" (.int since)).insert
    "carried_from_seq" (.int seq)

def carriedEntry (numberOf : Value → Option Nat) (nowMs : Nat) (h : Value × Nat) : Value :=
  let c := carriedMarks nowMs h.1 h.2
  match c.get "commitment_number", numberOf h.1 with
  | none, some n => c.insert "commitment_number" (.int n)
  | _, _ => c

/-- The held entries whose channels this copy does not have. The map's order is the
order of the funding outpoints, in which the source sorts them. -/
def foreign (own : Value) (best : Std.TreeMap String (Value × Nat)) :
    List (Value × Nat) :=
  let owned := (own.items "channels").map funding
  (best.toList.filter fun found => !owned.contains found.1).map Prod.snd

def mergedChannels (K : Decoder) (own : Value) (held : List HeldKit) (chain : Chain)
    (numberOf : Value → Option Nat) (nowMs : Nat) : List Merged :=
  let best := bestHeld held numberOf
  (own.items "channels").map (mergeOwn numberOf best) ++
    ((foreign own best).filter fun h => stillMatters K chain h.1).map fun h =>
      ⟨h.1, carriedEntry numberOf nowMs h⟩

/-- A coin leg while the held kits are read. -/
structure Leg where
  coins : List Value
  seen : List String
  carried : Nat
  dropped : Nat

def mergeCoin (chain : Chain) (nowMs seq : Nat) (leg : Leg) (coin : Value) : Leg :=
  let key := coinKey coin
  if key ∈ leg.seen then leg
  else
    match chain[key]? with
    | some (.spent _) => { leg with seen := key :: leg.seen, dropped := leg.dropped + 1 }
    | _ =>
      { leg with
        seen := key :: leg.seen
        coins := leg.coins ++ [carriedMarks nowMs coin seq]
        carried := leg.carried + 1 }

def mergeLeg (own : Value) (held : List HeldKit) (chain : Chain) (nowMs : Nat) (name : String) :
    Leg :=
  let coins := own.items name
  (bySeq held).foldl
    (fun leg kit => (kit.plain.items name).foldl (mergeCoin chain nowMs kit.seq) leg)
    { coins, seen := coins.map coinKey, carried := 0, dropped := 0 }

/-- A leg that neither this copy nor a held kit has stays absent. -/
def setLeg (own kit : Value) (name : String) (leg : Leg) : Value :=
  if !leg.coins.isEmpty || (own.get name).isSome then kit.insert name (.arr leg.coins) else kit

structure Report where
  heldOpened : Nat
  carriedChannels : Nat
  carriedCoins : Nat
  keptNewer : List String
  dropped : Nat
  seq : Nat

/-- The merged kit and its report. -/
def merge (K : Decoder) (own : Value) (held : List HeldKit) (chain : Chain)
    (numberOf : Value → Option Nat) (nowMs : Nat) : Value × Report :=
  let best := bestHeld held numberOf
  let channels := (mergedChannels K own held chain numberOf nowMs).map Merged.entry
  let matters := (foreign own best).countP fun h => stillMatters K chain h.1
  let legs := coinLegs.map fun name => (name, mergeLeg own held chain nowMs name)
  let maxHeld := (held.map HeldKit.seq).foldl max 0
  let seq := max nowMs (Word.saturatingAdd64 maxHeld 1)
  let withLegs := legs.foldl (fun kit leg => setLeg own kit leg.1 leg.2)
    (own.insert "channels" (.arr channels))
  ((withLegs.insert "seq" (.int seq)).insert "made_at" (.int nowMs),
    { heldOpened := held.length
      carriedChannels := matters
      carriedCoins := (legs.map fun leg => leg.2.carried).sum
      keptNewer := ((own.items "channels").filter (isOlder numberOf best)).map
        fun e => e.text "channel_id"
      dropped := (foreign own best).length - matters + (legs.map fun leg => leg.2.dropped).sum
      seq })

/-- How the node reads an entry's commitment number: its plain member, else the
exported commitment decoded with the factor of a channel this copy knows. -/
def nodeNumberOf (K : Decoder) (factors : Std.TreeMap String Nat) (e : Value) : Option Nat :=
  match (e.get "commitment_number").bind Value.asU64 with
  | some n => some n
  | none => do
    let f ← (e.get "funding_txo").bind Value.asStr
    let factor ← factors[f]?
    let tx ← K.parseTx (← (e.get "commitment_hex").bind Value.asStr)
    decodeCommitmentNumber tx factor

/-! ## The channels of the merged kit -/

variable {K : Decoder} {held : List HeldKit} {chain : Chain} {numberOf : Value → Option Nat}
  {nowMs : Nat} {f : String}

theorem items_insert_of_ne {key other : String} (ne : other ≠ key) (v new : Value) :
    (v.insert key new).items other = v.items other := by
  rw [Value.items, Value.get_insert_of_ne ne, Value.items]

theorem items_setLeg {own kit : Value} {name : String} {leg : Leg} (ne : "channels" ≠ name) :
    (setLeg own kit name leg).items "channels" = kit.items "channels" := by
  rw [setLeg]
  split_ifs
  · exact items_insert_of_ne ne _ _
  · rfl

theorem items_merge (members : List (String × Value)) :
    (merge K (.obj members) held chain numberOf nowMs).1.items "channels" =
      (mergedChannels K (.obj members) held chain numberOf nowMs).map Merged.entry := by
  simp only [merge, coinLegs, map_cons, map_nil, foldl_cons, foldl_nil]
  rw [items_insert_of_ne (by decide), items_insert_of_ne (by decide), items_setLeg (by decide),
    items_setLeg (by decide), Value.items]
  simp only [Value.insert, Value.get, lookup_insertMember_self, Option.bind_some, Value.asArray,
    Option.getD_some]

theorem funding_carriedMarks (v : Value) (seq : Nat) :
    funding (carriedMarks nowMs v seq) = funding v := by
  simp [funding, carriedMarks]

theorem funding_carriedEntry (h : Value × Nat) :
    funding (carriedEntry numberOf nowMs h) = funding h.1 := by
  rw [carriedEntry]
  split
  · rw [funding, Value.text_insert_of_ne (by decide)]
    exact funding_carriedMarks _ _
  · exact funding_carriedMarks _ _

theorem funding_keptNewer (h : Value) (hn own : Nat) :
    funding (keptNewer h hn own) = funding h := by
  simp [funding, keptNewer]

/-! ## The held entries of one funding outpoint -/

/-- The held entries with their kits' sequence numbers, in the order they are read. -/
def heldEntries (held : List HeldKit) : List (Value × Nat) :=
  (bySeq held).flatMap fun kit => (kit.plain.items "channels").map fun e => (e, kit.seq)

/-- Those for one funding outpoint. -/
def heldFor (held : List HeldKit) (f : String) : List (Value × Nat) :=
  (heldEntries held).filter fun e => funding e.1 = f

def ownFor (own : Value) (f : String) : List Value :=
  (own.items "channels").filter fun e => funding e = f

/-- All entries for a funding outpoint, own and held. -/
def entriesFor (own : Value) (held : List HeldKit) (f : String) : List Value :=
  ownFor own f ++ (heldFor held f).map Prod.fst

/-- The entry's number is known and is the largest known one among the entries. -/
def Newest (numberOf : Value → Option Nat) (entries : List Value) (e : Value) : Prop :=
  ∃ n, numberOf e = some n ∧ ∀ other ∈ entries, ∀ n', numberOf other = some n' → n' ≤ n

/-- The better of the best entry so far and the next one. -/
def better (numberOf : Value → Option Nat) (cur entry : Value × Nat) : Value × Nat :=
  match numberOf entry.1, numberOf cur.1 with
  | some a, some b => if a > b then entry else cur
  | _, _ => cur

/-- An entry is passed over, or it takes the place of its outpoint. -/
theorem consider_cases (best : Std.TreeMap String (Value × Nat)) (entry : Value × Nat) :
    consider numberOf best entry = best ∨
      funding entry.1 ≠ "" ∧
        consider numberOf best entry = best.insert (funding entry.1) entry := by
  dsimp only [consider]
  split_ifs with unnamed
  · exact .inl rfl
  · split
    · exact .inr ⟨unnamed, rfl⟩
    · split
      · split_ifs
        · exact .inr ⟨unnamed, rfl⟩
        · exact .inl rfl
      · exact .inl rfl

theorem getElem?_consider (outpoint : f ≠ "") (best : Std.TreeMap String (Value × Nat))
    (entry : Value × Nat) :
    (consider numberOf best entry)[f]? =
      if funding entry.1 = f then
        some ((best[f]?.map fun cur => better numberOf cur entry).getD entry)
      else best[f]? := by
  by_cases same : funding entry.1 = f
  · rw [consider, if_pos same, same, if_neg outpoint]
    cases found : best[f]? with
    | none => simp
    | some cur =>
      simp only [Option.map_some, Option.getD_some, better]
      split
      · split_ifs
        · simp
        · exact found
      · exact found
  · rw [if_neg same]
    obtain passed | ⟨_, put⟩ := consider_cases best entry
    · rw [passed]
    · rw [put, Maps.getElem?_insert, if_neg same]

theorem bestHeld_eq_foldl (held : List HeldKit) (numberOf : Value → Option Nat) :
    bestHeld held numberOf = (heldEntries held).foldl (consider numberOf) ∅ := by
  rw [bestHeld, heldEntries, foldl_flatMap]
  simp only [foldl_map]

/-- The best entry for an outpoint depends on the entries for it alone. -/
theorem getElem?_foldl_consider (outpoint : f ≠ "") (entries : List (Value × Nat))
    (best : Std.TreeMap String (Value × Nat)) :
    (entries.foldl (consider numberOf) best)[f]? =
      (entries.filter fun e => funding e.1 = f).foldl
        (fun cur e => some ((cur.map fun cur => better numberOf cur e).getD e)) best[f]? := by
  induction entries generalizing best with
  | nil => rfl
  | cons entry entries ih =>
    rw [foldl_cons, ih, getElem?_consider outpoint]
    by_cases same : funding entry.1 = f
    · rw [if_pos same, filter_cons_of_pos (by simpa using same), foldl_cons]
    · rw [if_neg same, filter_cons_of_neg (by simpa using same)]

theorem foldl_better (cur : Value × Nat) (entries : List (Value × Nat)) :
    entries.foldl (fun cur e => some ((cur.map fun cur => better numberOf cur e).getD e))
      (some cur) = some (entries.foldl (better numberOf) cur) := by
  induction entries generalizing cur with
  | nil => rfl
  | cons entry entries ih => exact ih _

/-- An entry of unknown number is never replaced. -/
theorem foldl_better_of_unknown {cur : Value × Nat} (unknown : numberOf cur.1 = none)
    (entries : List (Value × Nat)) : entries.foldl (better numberOf) cur = cur := by
  induction entries with
  | nil => rfl
  | cons entry entries ih =>
    have kept : better numberOf cur entry = cur := by
      rw [better, unknown]
      cases numberOf entry.1 <;> rfl
    rw [foldl_cons, kept, ih]

/-- From an entry of known number on, the newest one is kept. -/
theorem foldl_better_of_known {cur : Value × Nat} {n : Nat} (known : numberOf cur.1 = some n)
    (entries : List (Value × Nat)) :
    entries.foldl (better numberOf) cur ∈ cur :: entries ∧
      Newest numberOf ((cur :: entries).map Prod.fst) (entries.foldl (better numberOf) cur).1 := by
  induction entries generalizing cur n with
  | nil =>
    exact ⟨mem_cons_self, n, known, forall_mem_cons.mpr
      ⟨fun n' read => (Option.some.inj (known.symm.trans read)).ge, nofun⟩⟩
  | cons entry entries ih =>
    -- the entry that stays is at least as new as the one that goes
    have step : (better numberOf cur entry = cur ∧
          ∀ m, numberOf entry.1 = some m → m ≤ n) ∨
        (better numberOf cur entry = entry ∧ ∃ m, numberOf entry.1 = some m ∧ n ≤ m) := by
      rw [better, known]
      cases number : numberOf entry.1 with
      | none => exact .inl ⟨rfl, fun m read => by cases read⟩
      | some m =>
        dsimp only
        split_ifs with newer
        · exact .inr ⟨rfl, m, rfl, by omega⟩
        · exact .inl ⟨rfl, fun m' read => by cases read; omega⟩
    rw [foldl_cons]
    obtain ⟨stays, older⟩ | ⟨replaced, m, number, le⟩ := step
    · rw [stays]
      obtain ⟨member, best, bestNumber, largest⟩ := ih known
      obtain ⟨head, tail⟩ := forall_mem_cons.mp largest
      refine ⟨?_, best, bestNumber, forall_mem_cons.mpr ⟨head, forall_mem_cons.mpr
        ⟨fun n' read => (older n' read).trans (head n known), tail⟩⟩⟩
      simp only [mem_cons] at member ⊢
      tauto
    · rw [replaced]
      obtain ⟨member, best, bestNumber, largest⟩ := ih number
      refine ⟨mem_cons_of_mem _ member, best, bestNumber,
        forall_mem_cons.mpr ⟨fun n' read => ?_, largest⟩⟩
      cases known.symm.trans read
      exact le.trans ((forall_mem_cons.mp largest).1 m number)

/-- The first held entry read for the outpoint has a known number. -/
def FirstKnown (numberOf : Value → Option Nat) (held : List HeldKit) (f : String) : Prop :=
  ∃ h, (heldFor held f).head? = some h ∧ (numberOf h.1).isSome

theorem bestHeld_of_nil (outpoint : f ≠ "") (none_held : heldFor held f = []) :
    (bestHeld held numberOf)[f]? = none := by
  rw [bestHeld_eq_foldl, getElem?_foldl_consider outpoint]
  rw [heldFor] at none_held
  rw [none_held]
  simp

variable {h : Value × Nat}

theorem bestHeld_of_cons (outpoint : f ≠ "") {rest : List (Value × Nat)}
    (first : heldFor held f = h :: rest) :
    (bestHeld held numberOf)[f]? = some (rest.foldl (better numberOf) h) := by
  rw [bestHeld_eq_foldl, getElem?_foldl_consider outpoint]
  rw [heldFor] at first
  rw [first, foldl_cons, Std.TreeMap.getElem?_emptyc]
  exact foldl_better h rest

theorem funding_of_mem_heldFor (member : h ∈ heldFor held f) :
    funding h.1 = f := by simpa using (mem_filter.mp member).2

/-- What is found for an outpoint: one of its held entries, the newest when the first
one's number is known, and else the first one. -/
theorem bestHeld_spec (outpoint : f ≠ "") {b : Value × Nat}
    (found : (bestHeld held numberOf)[f]? = some b) :
    b ∈ heldFor held f ∧
      (FirstKnown numberOf held f → Newest numberOf ((heldFor held f).map Prod.fst) b.1) ∧
      (¬FirstKnown numberOf held f → numberOf b.1 = none ∧ (heldFor held f).head? = some b) := by
  cases list : heldFor held f with
  | nil =>
    rw [bestHeld_of_nil outpoint list] at found
    cases found
  | cons h rest =>
    rw [bestHeld_of_cons outpoint list] at found
    have isBest := Option.some.inj found
    cases number : numberOf h.1 with
    | none =>
      rw [foldl_better_of_unknown number] at isBest
      subst isBest
      refine ⟨mem_cons_self, ?_, fun _ => ⟨number, rfl⟩⟩
      rintro ⟨h', first, known⟩
      rw [list] at first
      cases first
      rw [number] at known
      cases known
    | some n =>
      obtain ⟨member, newest⟩ := foldl_better_of_known number rest
      rw [isBest] at member newest
      refine ⟨member, fun _ => newest, fun unknown => absurd ?_ unknown⟩
      exact ⟨h, by rw [list]; rfl, by rw [number]; rfl⟩

theorem bestHeld_unnamed : (bestHeld held numberOf)[""]? = none := by
  rw [bestHeld_eq_foldl]
  refine Folds.foldl_invariant (I := fun best => best[""]? = none) (by simp) ?_
  intro best entry _ absent
  obtain passed | ⟨named, put⟩ := consider_cases best entry
  · rw [passed, absent]
  · rw [put, Maps.getElem?_insert, if_neg named, absent]

/-- The key of a held entry is its funding outpoint. -/
theorem funding_of_bestHeld {key : String} {b : Value × Nat}
    (found : (bestHeld held numberOf)[key]? = some b) : key ≠ "" ∧ funding b.1 = key := by
  have named : key ≠ "" := by
    rintro rfl
    rw [bestHeld_unnamed] at found
    cases found
  exact ⟨named, funding_of_mem_heldFor (bestHeld_spec named found).1⟩

/-! ## Nothing revoked -/

variable {own : Value}

/-- Every entry of the merged kit for the outpoint comes from an own or held entry with the
largest known commitment number. -/
def NothingRevoked (K : Decoder) (own : Value) (held : List HeldKit) (chain : Chain)
    (numberOf : Value → Option Nat) (nowMs : Nat) (f : String) : Prop :=
  ∀ m ∈ mergedChannels K own held chain numberOf nowMs, funding m.entry = f →
    m.source ∈ entriesFor own held f ∧ Newest numberOf (entriesFor own held f) m.source

/-- When the entries for an outpoint can be told apart by their numbers: each own entry is
a newest one, or it gives way to a held entry that is, which needs its own number and that
of the held entry read first; and where this copy has none, the held entry read first has
a known number or no longer matters. -/
structure Orderable (K : Decoder) (own : Value) (held : List HeldKit) (chain : Chain)
    (numberOf : Value → Option Nat) (f : String) : Prop where
  ours : ∀ e ∈ ownFor own f, Newest numberOf (entriesFor own held f) e ∨
    ((numberOf e).isSome ∧ FirstKnown numberOf held f ∧
      ∃ h ∈ heldFor held f, Newest numberOf (entriesFor own held f) h.1)
  theirs : ownFor own f = [] → FirstKnown numberOf held f ∨
    ∀ h, (heldFor held f).head? = some h → stillMatters K chain h.1 = false

theorem mem_entriesFor_of_own {e : Value} (member : e ∈ ownFor own f) :
    e ∈ entriesFor own held f := mem_append_left _ member

theorem mem_entriesFor_of_held (member : h ∈ heldFor held f) : h.1 ∈ entriesFor own held f :=
  mem_append_right _ (mem_map.mpr ⟨h, member, rfl⟩)

/-- Where an own entry's place in the merged kit is taken from: a held entry takes it when
both numbers are known and the held one is larger. -/
theorem mergeOwn_cases (numberOf : Value → Option Nat) (best : Std.TreeMap String (Value × Nat))
    (e : Value) :
    (∃ b hn own, best[funding e]? = some b ∧ numberOf b.1 = some hn ∧ numberOf e = some own ∧
        own < hn ∧ mergeOwn numberOf best e = ⟨b.1, keptNewer b.1 hn own⟩) ∨
      (mergeOwn numberOf best e = ⟨e, e⟩ ∧ ∀ b hn own, best[funding e]? = some b →
        numberOf b.1 = some hn → numberOf e = some own → hn ≤ own) := by
  rw [mergeOwn]
  cases best[funding e]? with
  | none => exact .inr ⟨rfl, nofun⟩
  | some b =>
    cases theirs : numberOf b.1 with
    | none =>
      refine .inr ⟨by simp [theirs], fun b' _ _ same number => ?_⟩
      cases same
      cases theirs.symm.trans number
    | some hn =>
      cases numberOf e with
      | none => exact .inr ⟨by simp [theirs], nofun⟩
      | some own =>
        by_cases newer : hn > own
        · exact .inl ⟨b, hn, own, rfl, theirs, rfl, newer, by simp [theirs, newer]⟩
        · refine .inr ⟨by simp [theirs, newer], fun b' hn' own' same number isOwn => ?_⟩
          cases same
          cases isOwn
          cases theirs.symm.trans number
          omega

theorem funding_mergeOwn (e : Value) :
    funding (mergeOwn numberOf (bestHeld held numberOf) e).entry = funding e := by
  obtain ⟨b, _, _, found, _, _, _, merged⟩ | ⟨merged, _⟩ :=
    mergeOwn_cases numberOf (bestHeld held numberOf) e
  · rw [merged]
    exact (funding_keptNewer _ _ _).trans (funding_of_bestHeld found).2
  · rw [merged]

/-- An own entry's place goes to a newest entry exactly when the numbers tell which. -/
theorem newest_mergeOwn_iff (outpoint : f ≠ "") {e : Value} (member : e ∈ ownFor own f) :
    (Newest numberOf (entriesFor own held f)
        (mergeOwn numberOf (bestHeld held numberOf) e).source) ↔
      (Newest numberOf (entriesFor own held f) e ∨
        ((numberOf e).isSome ∧ FirstKnown numberOf held f ∧
          ∃ h ∈ heldFor held f, Newest numberOf (entriesFor own held f) h.1)) := by
  have isFor : funding e = f := by simpa using (mem_filter.mp member).2
  have isEntry : e ∈ entriesFor own held f := mem_entriesFor_of_own member
  have cases := mergeOwn_cases numberOf (bestHeld held numberOf) e
  rw [isFor] at cases
  constructor
  · intro newest
    obtain ⟨b, hn, own, found, theirs, ours, _, merged⟩ | ⟨merged, _⟩ := cases
    all_goals rw [merged] at newest
    · obtain ⟨isHeld, _, unknown⟩ := bestHeld_spec outpoint found
      refine .inr ⟨by rw [ours]; rfl, ?_, b, isHeld, newest⟩
      by_contra notKnown
      rw [(unknown notKnown).1] at theirs
      cases theirs
    · exact .inl newest
  · rintro (⟨n, number, largest⟩ | ⟨known, firstKnown, h, isHeld, n, number, largest⟩)
    · obtain ⟨b, hn, own, found, theirs, ours, newer, _⟩ | ⟨merged, _⟩ := cases
      · have isHeld := (bestHeld_spec outpoint found).1
        have bound := largest b.1 (mem_entriesFor_of_held isHeld) hn theirs
        rw [number] at ours
        cases ours
        omega
      · rw [merged]
        exact ⟨n, number, largest⟩
    · -- the best held entry is as new as the newest one
      obtain ⟨first, isFirst, _⟩ := id firstKnown
      have ⟨b, found⟩ : ∃ b, (bestHeld held numberOf)[f]? = some b := by
        cases list : heldFor held f with
        | nil => rw [list] at isFirst; cases isFirst
        | cons head rest => exact ⟨_, bestHeld_of_cons outpoint list⟩
      obtain ⟨bestHeldMember, newestHeld, _⟩ := bestHeld_spec outpoint found
      obtain ⟨m, theirs, bounds⟩ := newestHeld firstKnown
      have above : n ≤ m := bounds h.1 (mem_map.mpr ⟨h, isHeld, rfl⟩) n number
      have newest : ∀ other ∈ entriesFor own held f, ∀ n', numberOf other = some n' → n' ≤ m :=
        fun other isOther n' read => (largest other isOther n' read).trans above
      obtain ⟨b', hn, own, found', theirs', ours, newer, merged⟩ | ⟨merged, older⟩ := cases
      · rw [found] at found'
        cases found'
        rw [merged]
        exact ⟨m, theirs, newest⟩
      · obtain ⟨on, ours⟩ := Option.isSome_iff_exists.mp known
        rw [merged]
        exact ⟨on, ours, fun other isOther n' read =>
          (newest other isOther n' read).trans (older b m on found theirs ours)⟩

theorem mem_foreign :
    h ∈ foreign own (bestHeld held numberOf) ↔
      (bestHeld held numberOf)[funding h.1]? = some h ∧ ownFor own (funding h.1) = [] := by
  have unowned : ∀ key, (!((own.items "channels").map funding).contains key) = true ↔
      ownFor own key = [] := by
    intro key
    rw [ownFor, filter_eq_nil_iff]
    simp
  constructor
  · intro member
    obtain ⟨found, inMap, rfl⟩ := mem_map.mp member
    obtain ⟨inMap, apart⟩ := mem_filter.mp inMap
    have looked := Std.TreeMap.mem_toList_iff_getElem?_eq_some.mp inMap
    rw [(funding_of_bestHeld looked).2]
    exact ⟨looked, (unowned _).mp apart⟩
  · rintro ⟨found, apart⟩
    refine mem_map.mpr ⟨(funding h.1, h), mem_filter.mpr ⟨?_, (unowned _).mpr apart⟩, rfl⟩
    exact Std.TreeMap.mem_toList_iff_getElem?_eq_some.mpr found

theorem nothingRevoked_iff_orderable (outpoint : f ≠ "") :
    NothingRevoked K own held chain numberOf nowMs f ↔
      Orderable K own held chain numberOf f := by
  constructor
  · intro clean
    refine ⟨?_, ?_⟩
    · intro e member
      have isFor : funding e = f := by simpa using (mem_filter.mp member).2
      refine (newest_mergeOwn_iff outpoint member).mp (clean _ ?_ ?_).2
      · exact mem_append_left _ (mem_map.mpr ⟨e, (mem_filter.mp member).1, rfl⟩)
      · rw [funding_mergeOwn, isFor]
    · intro unowned
      refine or_iff_not_imp_left.mpr fun notKnown h first => ?_
      by_contra matters
      rw [Bool.not_eq_false] at matters
      obtain ⟨rest, list⟩ := head?_eq_some_iff.mp first
      have found : (bestHeld held numberOf)[f]? = some _ := bestHeld_of_cons outpoint list
      obtain ⟨unknown, isFirst⟩ := (bestHeld_spec outpoint found).2.2 notKnown
      rw [first] at isFirst
      rw [← Option.some.inj isFirst] at found unknown
      have isFor := (funding_of_bestHeld found).2
      have inForeign : h ∈ foreign own (bestHeld held numberOf) := by
        refine mem_foreign.mpr ?_
        rw [isFor]
        exact ⟨found, unowned⟩
      have merged := clean ⟨h.1, carriedEntry numberOf nowMs h⟩
        (mem_append_right _ (mem_map.mpr
          ⟨h, mem_filter.mpr ⟨inForeign, matters⟩, rfl⟩))
        ((funding_carriedEntry h).trans isFor)
      obtain ⟨_, n, number, _⟩ := merged
      rw [unknown] at number
      cases number
  · intro orderable m member isFor
    rcases mem_append.mp member with fromOwn | fromHeld
    · obtain ⟨e, isOwn, rfl⟩ := mem_map.mp fromOwn
      rw [funding_mergeOwn] at isFor
      have member : e ∈ ownFor own f := mem_filter.mpr ⟨isOwn, by simpa using isFor⟩
      refine ⟨?_, (newest_mergeOwn_iff outpoint member).mpr (orderable.ours e member)⟩
      obtain ⟨b, _, _, found, _, _, _, merged⟩ | ⟨merged, _⟩ :=
        mergeOwn_cases numberOf (bestHeld held numberOf) e
      · rw [isFor] at found
        rw [merged]
        exact mem_entriesFor_of_held (bestHeld_spec outpoint found).1
      · rw [merged]
        exact mem_entriesFor_of_own member
    · obtain ⟨h, isKept, rfl⟩ := mem_map.mp fromHeld
      obtain ⟨inForeign, matters⟩ := mem_filter.mp isKept
      have isHeld : funding h.1 = f := (funding_carriedEntry h).symm.trans isFor
      obtain ⟨found, unowned⟩ := mem_foreign.mp inForeign
      rw [isHeld] at found unowned
      obtain ⟨isEntry, newest, first⟩ := bestHeld_spec outpoint found
      have known : FirstKnown numberOf held f := by
        by_contra notKnown
        obtain firstKnown | finished := orderable.theirs unowned
        · exact notKnown firstKnown
        · rw [finished h (first notKnown).2] at matters
          cases matters
      refine ⟨mem_entriesFor_of_held isEntry, ?_⟩
      rw [entriesFor, unowned, nil_append]
      exact newest known

/-- A merged entry carries its source's CLOSE. -/
theorem close_of_merged {m : Merged}
    (member : m ∈ mergedChannels K own held chain numberOf nowMs) :
    m.entry.get "commitment_hex" = m.source.get "commitment_hex" := by
  have marks : ∀ (v : Value) (seq : Nat),
      (carriedMarks nowMs v seq).get "commitment_hex" = v.get "commitment_hex" := by
    intro v seq
    simp [carriedMarks]
  rcases mem_append.mp member with fromOwn | fromHeld
  · obtain ⟨e, _, rfl⟩ := mem_map.mp fromOwn
    obtain ⟨_, _, _, _, _, _, _, merged⟩ | ⟨merged, _⟩ :=
      mergeOwn_cases numberOf (bestHeld held numberOf) e
    · simp [merged, keptNewer]
    · rw [merged]
  · obtain ⟨h, _, rfl⟩ := mem_map.mp fromHeld
    dsimp only [carriedEntry]
    split
    · rw [Value.get_insert_of_ne (by decide), marks]
    · exact marks _ _

/-- Some own or held entry for the outpoint has a known number. -/
def SomeKnown (own : Value) (held : List HeldKit) (numberOf : Value → Option Nat) (f : String) :
    Prop :=
  ∃ e ∈ entriesFor own held f, (numberOf e).isSome

/-- The channels of the merged kit are copies of own and held entries with the CLOSE of
each, and those for a funding outpoint are of the largest known commitment number exactly
when the entries for it can be told apart. -/
theorem merge_newest (members : List (String × Value)) (outpoint : f ≠ "") :
    (merge K (.obj members) held chain numberOf nowMs).1.items "channels" =
        (mergedChannels K (.obj members) held chain numberOf nowMs).map Merged.entry ∧
      (∀ m ∈ mergedChannels K (.obj members) held chain numberOf nowMs,
        m.entry.get "commitment_hex" = m.source.get "commitment_hex") ∧
      ((SomeKnown (.obj members) held numberOf f →
          NothingRevoked K (.obj members) held chain numberOf nowMs f) ↔
        (SomeKnown (.obj members) held numberOf f →
          Orderable K (.obj members) held chain numberOf f)) :=
  ⟨items_merge members, fun _ => close_of_merged, by
    rw [nothingRevoked_iff_orderable outpoint]⟩

/-! ## Three kits of one channel -/

section Sample

def channel (number : Option Nat) (close : String) : Value :=
  .obj ((number.map fun n => ("commitment_number", Value.int n)).toList ++
    [("commitment_txid", .str close), ("funding_txo", .str "aa:0")])

def kit (entries : List Value) : Value := .obj [("channels", .arr entries)]

/-- Texts that never decode. -/
def noDecoder : Decoder := ⟨fun _ => none, id⟩

/-- An older engine's kit without numbers, and an older kit with the newest state. -/
def twoHeld : List HeldKit :=
  [⟨20, kit [channel none "c2"]⟩, ⟨10, kit [channel (some 9) "c3"]⟩]

/-- One held kit with the newer state: it takes this copy's place. -/
theorem newer_close_kept :
    NothingRevoked noDecoder (kit [channel (some 4) "c1"]) [⟨10, kit [channel (some 9) "c3"]⟩] ∅
      (nodeNumberOf noDecoder ∅) 50 "aa:0" := by
  have ours : ownFor (kit [channel (some 4) "c1"]) "aa:0" = [channel (some 4) "c1"] := by rfl
  have theirs : heldFor [⟨10, kit [channel (some 9) "c3"]⟩] "aa:0" =
      [(channel (some 9) "c3", 10)] := by rfl
  have orderable : Orderable noDecoder (kit [channel (some 4) "c1"])
      [⟨10, kit [channel (some 9) "c3"]⟩] ∅ (nodeNumberOf noDecoder ∅) "aa:0" := by
    refine ⟨fun e member => .inr ⟨?_, ⟨_, by rw [theirs]; rfl, rfl⟩,
      (channel (some 9) "c3", 10), by rw [theirs]; simp, 9, rfl, ?_⟩, fun unowned => ?_⟩
    · rw [ours, mem_singleton] at member
      rw [member]
      rfl
    · intro other isOther n' read
      rw [entriesFor, ours, theirs, map_singleton] at isOther
      rcases mem_cons.mp isOther with rfl | later
      · rw [← Option.some.inj (show some 4 = some n' from read)]
        decide
      · rw [mem_singleton.mp later] at read
        exact (Option.some.inj (show some 9 = some n' from read)).ge
    · rw [ours] at unowned
      cases unowned
  exact (merge_newest _ (by decide)).2.2.mpr (fun _ => orderable)
    ⟨channel (some 9) "c3", by rw [entriesFor, theirs]; simp, rfl⟩

/-- The held entry without a number, read first, hides the newer one: this copy's revoked
CLOSE stays in the kit. -/
theorem revoked_close_kept :
    SomeKnown (kit [channel (some 4) "c1"]) twoHeld (nodeNumberOf noDecoder ∅) "aa:0" ∧
      ¬NothingRevoked noDecoder (kit [channel (some 4) "c1"]) twoHeld ∅
        (nodeNumberOf noDecoder ∅) 50 "aa:0" := by
  have first : (mergedChannels noDecoder (kit [channel (some 4) "c1"]) twoHeld ∅
      (nodeNumberOf noDecoder ∅) 50) =
      [⟨channel (some 4) "c1", channel (some 4) "c1"⟩] := by rfl
  have entries : entriesFor (kit [channel (some 4) "c1"]) twoHeld "aa:0" =
      [channel (some 4) "c1", channel none "c2", channel (some 9) "c3"] := by rfl
  refine ⟨⟨channel (some 9) "c3", by simp [entries], rfl⟩, fun clean => ?_⟩
  obtain ⟨_, n, number, largest⟩ :=
    clean ⟨_, _⟩ (by rw [first]; exact mem_singleton.mpr rfl) rfl
  have four : n = 4 := (Option.some.inj number).symm
  have nine := largest (channel (some 9) "c3") (by simp [entries]) 9 rfl
  omega

end Sample

end Lij.KitMerge
