import Lij.CoinSelect
import Lij.Foundation.Folds

/-!
# Which sets of coins the pick finds

The pick reads coins in one order and never tries a set that is not a first part
of it. Here the first parts are compared with all sets of coins. Largest first
misses nothing, whatever the target does as coins are added, since the `n`
largest coins are worth at least any `n` coins. With mixed coins last the plain
coins come in whole before a mixed one, so a set is found if it is all plain, is
one coin or holds every plain coin, and others may be missed where a plain coin
is worth less than its own input costs.
-/

namespace Lij.CoinSelect

open Word List

variable {values : List Nat} {need : Nat → Nat} {order : List Nat}

/-- A set of coins that carries what a transaction with that many inputs needs. -/
structure SetCovers (values : List Nat) (need : Nat → Nat) (coins : Finset Nat) : Prop where
  nonempty : coins.Nonempty
  inside : ∀ i ∈ coins, i < values.length
  covers : need coins.card ≤ ∑ i ∈ coins, valueAt values i

theorem falling_largestFirst (values order : List Nat) :
    ((largestFirst values order).map (valueAt values)).Pairwise (· ≥ ·) := by
  have sorted := pairwise_largestFirst values order
  refine pairwise_map.mpr (sorted.imp fun {a b} before => ?_)
  obtain less | ⟨same, _⟩ := before
  · exact less.le
  · exact same.ge

variable (values) in
/-- The members of a set of coins, in an order that has all of them. -/
theorem members_of_order (distinct : order.Nodup) {coins : Finset Nat}
    (within : ∀ i ∈ coins, i ∈ order) :
    (order.filter (· ∈ coins)).length = coins.card ∧
      ((order.filter (· ∈ coins)).map (valueAt values)).sum = ∑ i ∈ coins, valueAt values i := by
  have same : (order.filter (· ∈ coins)).toFinset = coins := by
    ext i
    simp only [mem_toFinset, mem_filter, decide_eq_true_eq]
    exact ⟨fun both => both.2, fun member => ⟨within i member, member⟩⟩
  have once : (order.filter (· ∈ coins)).Nodup := distinct.filter _
  constructor
  · rw [← toFinset_card_of_nodup once, same]
  · rw [← sum_toFinset _ once, same]

theorem sum_toFinset_take (distinct : order.Nodup) (k : Nat) :
    ∑ i ∈ (order.take k).toFinset, valueAt values i =
      ((order.take k).map (valueAt values)).sum :=
  sum_toFinset _ (distinct.sublist (take_sublist k order))

theorem card_toFinset_take (distinct : order.Nodup) {k : Nat} (short : k ≤ order.length) :
    (order.take k).toFinset.card = k := by
  rw [toFinset_card_of_nodup (distinct.sublist (take_sublist k order)),
    length_take, Nat.min_eq_left short]

/-- The coins of a first part that covers. -/
theorem setCovers_take (distinct : order.Nodup) (inside : ∀ i ∈ order, i < values.length) {k : Nat}
    (pos : 1 ≤ k) (short : k ≤ order.length)
    (covers : need k ≤ ((order.take k).map (valueAt values)).sum) :
    SetCovers values need (order.take k).toFinset := by
  have size := card_toFinset_take distinct short
  refine ⟨?_, ?_, ?_⟩
  · rw [← Finset.card_pos, size]
    exact pos
  · intro i member
    exact inside i (mem_of_mem_take (mem_toFinset.mp member))
  · rw [size, sum_toFinset_take distinct]
    exact covers

/-- Largest first, some first part covers exactly when some set does: the `n` largest coins
are worth at least any `n` coins. -/
theorem covers_largestFirst_iff (distinct : order.Nodup)
    (inside : ∀ i ∈ order, i < values.length) :
    Covers values need (largestFirst values order) ↔
      ∃ coins, SetCovers values need coins ∧ ∀ i ∈ coins, i ∈ order := by
  have perm := perm_largestFirst values order
  have sortedDistinct : (largestFirst values order).Nodup := perm.nodup_iff.mpr distinct
  constructor
  · rintro ⟨k, pos, short, covers⟩
    refine ⟨((largestFirst values order).take k).toFinset, ?_, fun i member => ?_⟩
    · exact setCovers_take sortedDistinct (fun i member => inside i (perm.mem_iff.mp member))
        pos short covers
    · exact perm.mem_iff.mp (mem_of_mem_take (mem_toFinset.mp member))
  · rintro ⟨coins, isCover, within⟩
    have members := members_of_order values sortedDistinct
      fun i member => perm.mem_iff.mpr (within i member)
    have part : ((largestFirst values order).filter (· ∈ coins)).Sublist
        (largestFirst values order) := filter_sublist
    refine ⟨coins.card, isCover.nonempty.card_pos, ?_, ?_⟩
    · rw [← members.1]
      exact part.length_le
    · have most := Folds.sum_le_sum_take (falling_largestFirst values order)
        (part.map (valueAt values))
      rw [length_map, members.1, members.2, ← map_take] at most
      exact isCover.covers.trans most

/-! ## The pick -/

/-- The smallest of the coins that cover alone, the lowest place if several are. -/
structure SmallestAlone (values : List Nat) (need : Nat → Nat) (order : List Nat) (i : Nat) :
    Prop where
  member : i ∈ order
  alone : need 1 ≤ valueAt values i
  smallest : ∀ j ∈ order, need 1 ≤ valueAt values j →
    valueAt values i < valueAt values j ∨ valueAt values i = valueAt values j ∧ i ≤ j

theorem smallestAlone_of_single {i : Nat} (found : single values need order = some i) :
    SmallestAlone values need order i := by
  obtain ⟨member, alone⟩ := single_eq_some found
  refine ⟨member, alone, fun j isCoin enough => ?_⟩
  obtain ⟨_, earlier, later, split, before⟩ := find?_eq_some_iff_append.mp found
  have inSorted : j ∈ smallestFirst values order := mem_smallestFirst.mpr isCoin
  rw [split] at inSorted
  have sorted := pairwise_smallestFirst values order
  rw [split] at sorted
  rcases mem_append.mp inSorted with first | rest
  · have short_of := before j first
    simp only [Bool.not_eq_true', decide_eq_false_iff_not] at short_of
    exact absurd enough short_of
  · rcases mem_cons.mp rest with rfl | last
    · exact .inr ⟨rfl, le_rfl⟩
    · exact rel_of_pairwise_cons (pairwise_append.mp sorted).2.1 last

theorem pick_of_single {i : Nat} (found : single values need (range values.length) = some i) :
    pick values need = some [i] := by
  have some_coin : values ≠ [] := by
    rintro rfl
    cases found
  rw [pick, if_neg (by simpa using some_coin), found]

theorem firstCover_of_pick (word : ∀ n, need n ≤ u64Max) {picked : List Nat}
    (missed : single values need (range values.length) = none)
    (found : pick values need = some picked) :
    ∃ k, FirstCover values need (largestFirst values (range values.length)) 0 0 k ∧
      picked = (largestFirst values (range values.length)).take k := by
  rw [pick, missed] at found
  split_ifs at found with empty
  have loop := cover_from values word (largestFirst values (range values.length)) [] 0
  rw [Nat.zero_min] at loop
  rcases loop with ⟨k, isFirst, covered⟩ | ⟨_, none_covered⟩
  · rw [covered] at found
    cases found
    exact ⟨k, isFirst, rfl⟩
  · rw [none_covered] at found
    cases found

theorem single_none_iff :
    single values need order = none ↔ ∀ i ∈ order, valueAt values i < need 1 := by
  rw [← Option.not_isSome_iff_eq_none, single_isSome_iff]
  simp only [not_exists, not_and, Nat.not_le]

/-- A target as the source has it, a word for each number of inputs. -/
def wordNeed (target : Nat → UInt64) (n : Nat) : Nat := (target n).toNat

theorem wordNeed_le (target : Nat → UInt64) (n : Nat) : wordNeed target n ≤ u64Max :=
  Nat.le_sub_one_of_lt (target n).toNat_lt

/-- Coins are found whenever some set of them covers its target, and they are the smallest
coin that covers alone or else the fewest of the largest. -/
theorem pick_complete (values : List Nat) (target : Nat → UInt64) :
    ((pick values (wordNeed target)).isSome ↔
        ∃ coins, SetCovers values (wordNeed target) coins) ∧
      ∀ picked, pick values (wordNeed target) = some picked →
        Picks values (wordNeed target) picked ∧
        ((∃ i < values.length, wordNeed target 1 ≤ valueAt values i) →
          ∃ i, picked = [i] ∧
            SmallestAlone values (wordNeed target) (range values.length) i) ∧
        ((∀ i < values.length, valueAt values i < wordNeed target 1) →
          ∃ k, FirstCover values (wordNeed target)
              (largestFirst values (range values.length)) 0 0 k ∧
            picked = (largestFirst values (range values.length)).take k) := by
  have word := wordNeed_le target
  refine ⟨?_, fun picked found => ⟨picks_pick found, ?_, ?_⟩⟩
  · rw [pick_isSome_iff word, covers_largestFirst_iff nodup_range
      fun i member => mem_range.mp member]
    constructor
    · rintro ⟨coins, isCover, _⟩
      exact ⟨coins, isCover⟩
    · rintro ⟨coins, isCover⟩
      exact ⟨coins, isCover, fun i member => mem_range.mpr (isCover.inside i member)⟩
  · rintro ⟨i, inside, enough⟩
    have isSome := single_isSome_iff.mpr ⟨i, mem_range.mpr inside, enough⟩
    obtain ⟨j, isSingle⟩ := Option.isSome_iff_exists.mp isSome
    rw [pick_of_single isSingle] at found
    cases found
    exact ⟨j, rfl, smallestAlone_of_single isSingle⟩
  · intro none_alone
    apply firstCover_of_pick word _ found
    exact single_none_iff.mpr fun i member => none_alone i (mem_range.mp member)

/-! ## Mixed coins last -/

/-- The set is all plain, or holds every plain coin. -/
def PlainFirst (values : List Nat) (mixed : List Bool) (coins : Finset Nat) : Prop :=
  (∀ i ∈ coins, i ∈ plainCoins values mixed) ∨ ∀ i ∈ plainCoins values mixed, i ∈ coins

section MixedLast

variable {mixed : List Bool}

theorem nodup_plain_mixed (values : List Nat) (mixed : List Bool) :
    (largestFirst values (plainCoins values mixed) ++
      largestFirst values (mixedCoins values mixed)).Nodup :=
  (perm_plain_mixed values mixed).nodup_iff.mpr nodup_range

theorem nodup_plainCoins (values : List Nat) (mixed : List Bool) :
    (plainCoins values mixed).Nodup := nodup_range.filter _

theorem plainFirst_of_covers
    (covers : Covers values need (largestFirst values (plainCoins values mixed) ++
      largestFirst values (mixedCoins values mixed))) :
    ∃ coins, SetCovers values need coins ∧ PlainFirst values mixed coins := by
  obtain ⟨k, pos, short, enough⟩ := covers
  have perm := perm_plain_mixed values mixed
  have plainPerm := perm_largestFirst values (plainCoins values mixed)
  refine ⟨_, setCovers_take (nodup_plain_mixed values mixed)
    (fun i member => mem_range.mp (perm.mem_iff.mp member)) pos short enough, ?_⟩
  rcases Nat.le_total k (largestFirst values (plainCoins values mixed)).length with few | many
  · refine .inl fun i member => ?_
    rw [mem_toFinset, take_append_of_le_length few] at member
    exact plainPerm.mem_iff.mp (mem_of_mem_take member)
  · refine .inr fun i member => ?_
    rw [mem_toFinset, take_append, take_of_length_le many]
    exact mem_append_left _ (plainPerm.mem_iff.mpr member)

/-- All plain coins and some mixed ones are worth no more than all plain coins and as many of
the largest mixed ones. -/
theorem covers_of_all_plain {coins : Finset Nat} (isCover : SetCovers values need coins)
    (allPlain : ∀ i ∈ plainCoins values mixed, i ∈ coins) :
    Covers values need (largestFirst values (plainCoins values mixed) ++
      largestFirst values (mixedCoins values mixed)) := by
  have perm := perm_plain_mixed values mixed
  have plainPerm := perm_largestFirst values (plainCoins values mixed)
  have members := members_of_order values (nodup_plain_mixed values mixed) fun i member =>
    perm.mem_iff.mpr (mem_range.mpr (isCover.inside i member))
  have whole : (largestFirst values (plainCoins values mixed)).filter (· ∈ coins) =
      largestFirst values (plainCoins values mixed) :=
    filter_eq_self.mpr fun i member =>
      decide_eq_true (allPlain i (plainPerm.mem_iff.mp member))
  have part : ((largestFirst values (mixedCoins values mixed)).filter (· ∈ coins)).Sublist
      (largestFirst values (mixedCoins values mixed)) := filter_sublist
  rw [filter_append, whole, length_append, map_append, sum_append] at members
  obtain ⟨size, worth⟩ := members
  refine ⟨coins.card, isCover.nonempty.card_pos, ?_, ?_⟩
  · rw [← size, length_append]
    exact Nat.add_le_add_left part.length_le _
  · have most := Folds.sum_le_sum_take (falling_largestFirst values (mixedCoins values mixed))
      (part.map (valueAt values))
    rw [length_map, ← map_take] at most
    have covers := isCover.covers
    rw [← worth] at covers
    refine covers.trans ?_
    rw [← size, take_length_add_append, map_append, sum_append]
    exact Nat.add_le_add_left most _

theorem covers_plain_mixed_iff :
    Covers values need (largestFirst values (plainCoins values mixed) ++
        largestFirst values (mixedCoins values mixed)) ↔
      ∃ coins, SetCovers values need coins ∧ PlainFirst values mixed coins := by
  refine ⟨plainFirst_of_covers, ?_⟩
  rintro ⟨coins, isCover, onlyPlain | allPlain⟩
  · apply Covers.append
    exact (covers_largestFirst_iff (nodup_plainCoins values mixed)
      (plainCoins_inside values mixed)).mpr ⟨coins, isCover, onlyPlain⟩
  · exact covers_of_all_plain isCover allPlain

/-- A coin that pays for its own input keeps a set covering. -/
theorem SetCovers.insert_coin {coins : Finset Nat} (isCover : SetCovers values need coins) {i : Nat}
    (inside : i < values.length)
    (pays : ∀ n, 1 ≤ n → n < values.length → need (n + 1) ≤ need n + valueAt values i) :
    SetCovers values need (insert i coins) := by
  by_cases member : i ∈ coins
  · rw [Finset.insert_eq_of_mem member]
    exact isCover
  have within : ∀ j ∈ insert i coins, j < values.length := by
    intro j isCoin
    rcases Finset.mem_insert.mp isCoin with rfl | old
    · exact inside
    · exact isCover.inside j old
  have room : (insert i coins).card ≤ values.length := by
    have subset : insert i coins ⊆ Finset.range values.length :=
      fun j isCoin => Finset.mem_range.mpr (within j isCoin)
    simpa using Finset.card_le_card subset
  refine ⟨⟨i, Finset.mem_insert_self i coins⟩, within, ?_⟩
  rw [Finset.card_insert_of_notMem member] at room ⊢
  rw [Finset.sum_insert member]
  have step := pays coins.card isCover.nonempty.card_pos (by omega)
  have covers := isCover.covers
  omega

/-- Adding every plain coin to a set that covers, where each pays for its own input. -/
theorem SetCovers.add_plain {coins : Finset Nat} (isCover : SetCovers values need coins)
    (pays : ∀ i ∈ plainCoins values mixed, ∀ n, 1 ≤ n → n < values.length →
      need (n + 1) ≤ need n + valueAt values i) :
    SetCovers values need ((plainCoins values mixed).toFinset ∪ coins) := by
  have some_of : ∀ added : Finset Nat, (∀ i ∈ added, i ∈ plainCoins values mixed) →
      SetCovers values need (added ∪ coins) := by
    intro added
    induction added using Finset.induction_on with
    | empty =>
      intro _
      rw [Finset.empty_union]
      exact isCover
    | insert i added _ ih =>
      intro plain
      rw [Finset.insert_union]
      have isPlain := plain i (Finset.mem_insert_self i added)
      apply SetCovers.insert_coin (ih fun j member => plain j (Finset.mem_insert_of_mem member))
      · exact plainCoins_inside values mixed i isPlain
      · exact pays i isPlain
  exact some_of _ fun i member => mem_toFinset.mp member

theorem mixed_of_not_plain {i : Nat} (inside : i < values.length)
    (notPlain : i ∉ plainCoins values mixed) : i ∈ mixedCoins values mixed := by
  refine mem_filter.mpr ⟨mem_range.mpr inside, ?_⟩
  by_contra isPlain
  exact notPlain (mem_filter.mpr ⟨mem_range.mpr inside, by simpa using isPlain⟩)

theorem setCovers_singleton {i : Nat} (inside : i < values.length)
    (enough : need 1 ≤ valueAt values i) : SetCovers values need {i} :=
  ⟨Finset.singleton_nonempty i, fun j member => by rwa [Finset.mem_singleton.mp member],
    by simpa using enough⟩

/-- A set that covers and is found: plain coins first, or one coin. -/
theorem pickMixedLast_isSome_iff_set (word : ∀ n, need n ≤ u64Max) :
    (pickMixedLast values mixed need).isSome ↔
      ∃ coins, SetCovers values need coins ∧ (PlainFirst values mixed coins ∨ coins.card = 1) := by
  rw [pickMixedLast_isSome_iff word, covers_plain_mixed_iff]
  constructor
  · rintro (⟨i, member, enough⟩ | ⟨coins, isCover, first⟩)
    · exact ⟨{i}, setCovers_singleton (mixedCoins_inside values mixed i member) enough,
        .inr (Finset.card_singleton i)⟩
    · exact ⟨coins, isCover, .inl first⟩
  · rintro ⟨coins, isCover, first | one⟩
    · exact .inr ⟨coins, isCover, first⟩
    · obtain ⟨i, rfl⟩ := Finset.card_eq_one.mp one
      have inside := isCover.inside i (Finset.mem_singleton_self i)
      by_cases isPlain : i ∈ plainCoins values mixed
      · refine .inr ⟨{i}, isCover, .inl fun j member => ?_⟩
        rwa [Finset.mem_singleton.mp member]
      · exact .inl ⟨i, mixed_of_not_plain inside isPlain, by simpa using isCover.covers⟩

/-- The plain coins cover among themselves. -/
def PlainCovers (values : List Nat) (mixed : List Bool) (need : Nat → Nat) : Prop :=
  ∃ coins, SetCovers values need coins ∧ ∀ i ∈ coins, i ∈ plainCoins values mixed

theorem pick_plain_isSome_iff (word : ∀ n, need n ≤ u64Max) :
    (pick ((plainCoins values mixed).map (valueAt values)) need).isSome ↔
      PlainCovers values mixed need := by
  have increasing : (plainCoins values mixed).Pairwise (· < ·) := increasing_filter_range _ _
  rw [pick_part_isSome_iff increasing word]
  exact covers_largestFirst_iff (nodup_plainCoins values mixed) (plainCoins_inside values mixed)

/-- While the plain coins cover, only they are picked. -/
theorem plain_of_pickMixedLast (word : ∀ n, need n ≤ u64Max) {picked : List Nat}
    (plain : PlainCovers values mixed need)
    (found : pickMixedLast values mixed need = some picked) :
    ∀ i ∈ picked, i ∉ mixedCoins values mixed := by
  obtain ⟨chosen, isPick⟩ := Option.isSome_iff_exists.mp ((pick_plain_isSome_iff word).mpr plain)
  rw [pickMixedLast, isPick] at found
  cases found
  intro i member isMixed
  obtain ⟨j, isChosen, rfl⟩ := mem_map.mp member
  have inside := (picks_pick isPick).inside j isChosen
  rw [length_map] at inside
  have isPlain : (plainCoins values mixed).getD j 0 ∈ plainCoins values mixed := by
    rw [getD_eq_getElem _ _ inside]
    exact getElem_mem inside
  have flag := of_mem_filter isPlain
  rw [of_mem_filter isMixed] at flag
  cases flag

theorem alone_of_pickMixedLast (word : ∀ n, need n ≤ u64Max) {picked : List Nat}
    (noPlain : ¬ PlainCovers values mixed need)
    (alone : ∃ i ∈ mixedCoins values mixed, need 1 ≤ valueAt values i)
    (found : pickMixedLast values mixed need = some picked) :
    ∃ i, picked = [i] ∧ SmallestAlone values need (mixedCoins values mixed) i := by
  have missed : pick ((plainCoins values mixed).map (valueAt values)) need = none := by
    rw [← Option.not_isSome_iff_eq_none, pick_plain_isSome_iff word]
    exact noPlain
  obtain ⟨i, isSingle⟩ := Option.isSome_iff_exists.mp (single_isSome_iff.mpr alone)
  rw [pickMixedLast, missed, isSingle] at found
  cases found
  exact ⟨i, rfl, smallestAlone_of_single isSingle⟩

end MixedLast

/-- With mixed coins last, coins are found exactly when some set covers that is one coin, is
all plain or holds every plain coin; that is whenever any set covers, if each plain coin
pays for its own input. A mixed coin is taken only if no plain coins cover, and then the
smallest that covers alone. -/
theorem pickMixedLast_complete (values : List Nat) (mixed : List Bool) (target : Nat → UInt64) :
    ((pickMixedLast values mixed (wordNeed target)).isSome ↔
        ∃ coins, SetCovers values (wordNeed target) coins ∧
          (PlainFirst values mixed coins ∨ coins.card = 1)) ∧
      ((∀ i ∈ plainCoins values mixed, ∀ n, 1 ≤ n → n < values.length →
          wordNeed target (n + 1) ≤ wordNeed target n + valueAt values i) →
        (∃ coins, SetCovers values (wordNeed target) coins) →
          (pickMixedLast values mixed (wordNeed target)).isSome) ∧
      ∀ picked, pickMixedLast values mixed (wordNeed target) = some picked →
        Picks values (wordNeed target) picked ∧
        ((∃ i ∈ picked, i ∈ mixedCoins values mixed) →
          ¬ PlainCovers values mixed (wordNeed target)) ∧
        (¬ PlainCovers values mixed (wordNeed target) →
          (∃ i ∈ mixedCoins values mixed, wordNeed target 1 ≤ valueAt values i) →
          ∃ i, picked = [i] ∧
            SmallestAlone values (wordNeed target) (mixedCoins values mixed) i) := by
  have word := wordNeed_le target
  have found_iff : (pickMixedLast values mixed (wordNeed target)).isSome ↔ _ :=
    pickMixedLast_isSome_iff_set word
  refine ⟨found_iff, ?_, fun picked found => ⟨picks_pickMixedLast found, ?_, ?_⟩⟩
  · rintro pays ⟨coins, isCover⟩
    refine found_iff.mpr ⟨_, isCover.add_plain pays, .inl (.inr fun i isPlain => ?_)⟩
    exact Finset.mem_union_left _ (mem_toFinset.mpr isPlain)
  · rintro ⟨i, member, isMixed⟩ plain
    exact plain_of_pickMixedLast word plain found i member isMixed
  · intro noPlain alone
    exact alone_of_pickMixedLast word noPlain alone found

/-- Four coins of one sat come in before the two mixed ones that would do without them. -/
theorem pickMixedLast_misses :
    Monotone (wordNeed fun n => UInt64.ofNat (100 + 60 * min n 6)) ∧
      SetCovers [1, 1, 1, 1, 150, 150] (wordNeed fun n => UInt64.ofNat (100 + 60 * min n 6))
        {4, 5} ∧
      pickMixedLast [1, 1, 1, 1, 150, 150] [false, false, false, false, true, true]
        (wordNeed fun n => UInt64.ofNat (100 + 60 * min n 6)) = none := by
  refine ⟨fun n n' le => ?_, ⟨by decide, by decide, by decide⟩, by decide⟩
  have small : ∀ k, 100 + 60 * min k 6 < 2 ^ 64 := fun k => by omega
  simp only [wordNeed, UInt64.toNat_ofNat', Nat.mod_eq_of_lt (small n), Nat.mod_eq_of_lt (small n')]
  omega

end Lij.CoinSelect
