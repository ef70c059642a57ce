import Lij.Foundation.Words

/-!
# Picking coins

One rule for sends and self-funded channel opens: the smallest single coin that
covers the target alone, else largest first until covered. Mixed coins come
last. `need n` is what a transaction with `n` inputs must carry, so the target
grows with the coins taken.
-/

namespace Lij.CoinSelect

open Word List

variable {values : List Nat} {need : Nat → Nat}

def valueAt (values : List Nat) (i : Nat) : Nat := values.getD i 0

/-- Smaller values first; equal values keep the caller's order. -/
def smallestFirst (values : List Nat) (order : List Nat) : List Nat :=
  order.insertionSort fun a b =>
    valueAt values a < valueAt values b ∨ valueAt values a = valueAt values b ∧ a ≤ b

def largestFirst (values : List Nat) (order : List Nat) : List Nat :=
  order.insertionSort fun a b =>
    valueAt values b < valueAt values a ∨ valueAt values a = valueAt values b ∧ a ≤ b

/-- The smallest of the coins that covers the one-input target. -/
def single (values : List Nat) (need : Nat → Nat) (order : List Nat) : Option Nat :=
  (smallestFirst values order).find? fun i => need 1 ≤ valueAt values i

/-- Take coins in order until the target for that many inputs is covered. -/
def cover (values : List Nat) (need : Nat → Nat) :
    List Nat → List Nat → Nat → Option (List Nat)
  | [], _, _ => none
  | i :: order, chosen, total =>
    let chosen := chosen ++ [i]
    let total := saturatingAdd64 total (valueAt values i)
    if need chosen.length ≤ total then some chosen else cover values need order chosen total

def pick (values : List Nat) (need : Nat → Nat) : Option (List Nat) :=
  if values.isEmpty then none
  else
    match single values need (range values.length) with
    | some i => some [i]
    | none => cover values need (largestFirst values (range values.length)) [] 0

/-- The places of the coins on no BIP86 branch, and of those on one. -/
def plainCoins (values : List Nat) (mixed : List Bool) : List Nat :=
  (range values.length).filter fun i => !mixed.getD i false

def mixedCoins (values : List Nat) (mixed : List Bool) : List Nat :=
  (range values.length).filter fun i => mixed.getD i false

/-- The other coins alone; else the smallest single mixed coin that covers; else every other
coin and then mixed ones, each largest first. -/
def pickMixedLast (values : List Nat) (mixed : List Bool) (need : Nat → Nat) : Option (List Nat) :=
  match pick ((plainCoins values mixed).map (valueAt values)) need with
  | some picked => some (picked.map fun j => (plainCoins values mixed).getD j 0)
  | none =>
    match single values need (mixedCoins values mixed) with
    | some i => some [i]
    | none =>
      cover values need (largestFirst values (plainCoins values mixed) ++
        largestFirst values (mixedCoins values mixed)) [] 0

/-! ## What is picked -/

variable {order : List Nat}

theorem mem_smallestFirst {i : Nat} :
    i ∈ smallestFirst values order ↔ i ∈ order := mem_insertionSort _

theorem perm_largestFirst (values order : List Nat) : (largestFirst values order).Perm order :=
  perm_insertionSort _ _

theorem single_eq_some {i : Nat} (found : single values need order = some i) :
    i ∈ order ∧ need 1 ≤ valueAt values i :=
  ⟨mem_smallestFirst.mp (mem_of_find?_eq_some found), by simpa using find?_some found⟩

/-- A set of different coins that covers its target. -/
structure Picks (values : List Nat) (need : Nat → Nat) (picked : List Nat) : Prop where
  distinct : picked.Nodup
  inside : ∀ i ∈ picked, i < values.length
  covers : need picked.length ≤ (picked.map (valueAt values)).sum

theorem picks_single (inside : ∀ i ∈ order, i < values.length) {i : Nat}
    (found : single values need order = some i) : Picks values need [i] := by
  obtain ⟨member, enough⟩ := single_eq_some found
  exact ⟨nodup_singleton i, forall_mem_singleton.mpr (inside i member),
    by simpa using enough⟩

/-- The loop takes a first part of the order, and what it has counted is at most the sum of
the coins. -/
theorem cover_eq_some {order chosen picked : List Nat} {total : Nat}
    (counted : total ≤ (chosen.map (valueAt values)).sum)
    (found : cover values need order chosen total = some picked) :
    picked <+: chosen ++ order ∧ need picked.length ≤ (picked.map (valueAt values)).sum := by
  induction order generalizing chosen total with
  | nil => cases found
  | cons i order ih =>
    have counted' : saturatingAdd64 total (valueAt values i) ≤
        ((chosen ++ [i]).map (valueAt values)).sum := by
      rw [map_append, sum_append, saturatingAdd64]
      simp only [map_cons, map_nil, sum_cons, sum_nil, Nat.add_zero]
      omega
    rw [cover] at found
    split_ifs at found with enough
    · cases found
      exact ⟨append_cons chosen i order ▸ prefix_append _ _, enough.trans counted'⟩
    · rw [append_cons]
      exact ih counted' found

theorem picks_cover {order picked : List Nat} (distinct : order.Nodup)
    (inside : ∀ i ∈ order, i < values.length) (found : cover values need order [] 0 = some picked) :
    Picks values need picked := by
  obtain ⟨first, covers⟩ := cover_eq_some (Nat.zero_le _) found
  rw [nil_append] at first
  exact ⟨distinct.sublist first.sublist, fun i member => inside i (first.subset member), covers⟩

theorem picks_pick {picked : List Nat} (found : pick values need = some picked) :
    Picks values need picked := by
  have inside : ∀ i ∈ range values.length, i < values.length := fun i => mem_range.mp
  rw [pick] at found
  split_ifs at found with empty
  cases alone : single values need (range values.length) with
  | some i =>
    rw [alone] at found
    cases found
    exact picks_single inside alone
  | none =>
    rw [alone] at found
    have perm := perm_largestFirst values (range values.length)
    exact picks_cover (perm.nodup_iff.mpr nodup_range)
      (fun i member => inside i (perm.mem_iff.mp member)) found

/-- Coins picked from a part of the list are coins of the list. -/
theorem Picks.lift {plain : List Nat} (distinct : plain.Nodup)
    (inside : ∀ i ∈ plain, i < values.length) {picked : List Nat}
    (picks : Picks (plain.map (valueAt values)) need picked) :
    Picks values need (picked.map fun j => plain.getD j 0) := by
  have short : ∀ j ∈ picked, j < plain.length := fun j member => by
    simpa using picks.inside j member
  have place : ∀ j ∈ picked, ∃ lt : j < plain.length, plain.getD j 0 = plain.get ⟨j, lt⟩ :=
    fun j member => ⟨short j member, by simp [short j member]⟩
  refine ⟨?_, ?_, ?_⟩
  · refine picks.distinct.map_on fun j first j' second same => ?_
    obtain ⟨lt, isPlace⟩ := place j first
    obtain ⟨lt', isPlace'⟩ := place j' second
    rw [isPlace, isPlace'] at same
    exact Fin.mk.inj (distinct.injective_get same)
  · intro i member
    obtain ⟨j, isPicked, rfl⟩ := mem_map.mp member
    obtain ⟨lt, isPlace⟩ := place j isPicked
    rw [isPlace]
    exact inside _ (get_mem plain _)
  · rw [length_map, map_map]
    refine picks.covers.trans (le_of_eq ?_)
    refine congrArg sum (map_congr_left fun j member => ?_)
    simp [valueAt, short j member]

theorem plainCoins_inside (values : List Nat) (mixed : List Bool) :
    ∀ i ∈ plainCoins values mixed, i < values.length :=
  fun _ member => mem_range.mp (mem_of_mem_filter member)

theorem mixedCoins_inside (values : List Nat) (mixed : List Bool) :
    ∀ i ∈ mixedCoins values mixed, i < values.length :=
  fun _ member => mem_range.mp (mem_of_mem_filter member)

/-- The plain coins and then the mixed ones are all coins. -/
theorem perm_plain_mixed (values : List Nat) (mixed : List Bool) :
    (largestFirst values (plainCoins values mixed) ++
      largestFirst values (mixedCoins values mixed)).Perm (range values.length) := by
  refine ((perm_largestFirst _ _).append (perm_largestFirst _ _)).trans ?_
  refine perm_append_comm.trans ?_
  exact filter_append_perm (fun i => mixed.getD i false) (range values.length)

theorem picks_pickMixedLast {mixed : List Bool} {picked : List Nat}
    (found : pickMixedLast values mixed need = some picked) : Picks values need picked := by
  unfold pickMixedLast at found
  split at found
  · next chosen others =>
    cases found
    exact (picks_pick others).lift (nodup_range.filter _) (plainCoins_inside values mixed)
  · split at found
    · next i alone =>
      cases found
      exact picks_single (mixedCoins_inside values mixed) alone
    · have perm := perm_plain_mixed values mixed
      exact picks_cover (perm.nodup_iff.mpr nodup_range)
        (fun i member => mem_range.mp (perm.mem_iff.mp member)) found

/-! ## When coins are picked -/

theorem map_valueAt_range (values : List Nat) :
    (range values.length).map (valueAt values) = values := by
  refine ext_getElem (by simp) fun i lt lt' => ?_
  simp [valueAt, lt']

/-- Some first part of the order covers its target. -/
def Covers (values : List Nat) (need : Nat → Nat) (order : List Nat) : Prop :=
  ∃ k, 1 ≤ k ∧ k ≤ order.length ∧ need k ≤ ((order.take k).map (valueAt values)).sum

theorem Covers.append {order later : List Nat} (covers : Covers values need order) :
    Covers values need (order ++ later) := by
  obtain ⟨k, pos, short, enough⟩ := covers
  refine ⟨k, pos, by rw [length_append]; omega, ?_⟩
  rw [take_append_of_le_length short]
  exact enough

/-- The shortest first part of the order that covers its target, with `before` coins worth
`total` taken already. -/
structure FirstCover (values : List Nat) (need : Nat → Nat) (order : List Nat)
    (before total k : Nat) : Prop where
  some_coin : 1 ≤ k
  short : k ≤ order.length
  covers : need (before + k) ≤ total + ((order.take k).map (valueAt values)).sum
  first : ∀ j, 1 ≤ j → j < k →
    total + ((order.take j).map (valueAt values)).sum < need (before + j)

theorem FirstCover.cons {i before total k : Nat}
    (short_of : total + valueAt values i < need (before + 1))
    (later : FirstCover values need order (before + 1) (total + valueAt values i) k) :
    FirstCover values need (i :: order) before total (k + 1) := by
  refine ⟨by omega, by rw [length_cons]; have := later.short; omega, ?_, ?_⟩
  · have covers := later.covers
    rw [take_succ_cons, map_cons, sum_cons]
    have same : before + (k + 1) = before + 1 + k := by omega
    rw [same]
    omega
  · intro j pos less
    obtain _ | _ | j := j
    · omega
    · simpa using short_of
    · have first := later.first (j + 1) (by omega) (by omega)
      rw [take_succ_cons, map_cons, sum_cons]
      have same : before + (j + 1 + 1) = before + 1 + (j + 1) := by omega
      rw [same]
      omega

variable (values) in
/-- The loop takes the shortest first part that covers, and nothing if there is none. The
count may stop at the largest word, which no target exceeds. -/
theorem cover_from (word : ∀ n, need n ≤ u64Max) (order chosen : List Nat) (total : Nat) :
    (∃ k, FirstCover values need order chosen.length total k ∧
        cover values need order chosen (min total u64Max) = some (chosen ++ order.take k)) ∨
      ((∀ k, 1 ≤ k → k ≤ order.length →
          total + ((order.take k).map (valueAt values)).sum < need (chosen.length + k)) ∧
        cover values need order chosen (min total u64Max) = none) := by
  induction order generalizing chosen total with
  | nil =>
    refine .inr ⟨fun k pos short => ?_, rfl⟩
    rw [length_nil] at short
    omega
  | cons i order ih =>
    have next : saturatingAdd64 (min total u64Max) (valueAt values i) =
        min (total + valueAt values i) u64Max := by
      rw [saturatingAdd64]
      omega
    rw [cover, next, length_append, length_singleton]
    have bound := word (chosen.length + 1)
    by_cases enough : need (chosen.length + 1) ≤ min (total + valueAt values i) u64Max
    · rw [if_pos enough]
      refine .inl ⟨1, ⟨le_rfl, by simp, ?_, fun j pos less => by omega⟩, rfl⟩
      simpa using enough.trans (Nat.min_le_left _ _)
    · have short_of : total + valueAt values i < need (chosen.length + 1) := by omega
      rw [if_neg enough]
      have rest := ih (chosen ++ [i]) (total + valueAt values i)
      rw [length_append, length_singleton] at rest
      rcases rest with ⟨k, isFirst, found⟩ | ⟨never, missed⟩
      · refine .inl ⟨k + 1, isFirst.cons short_of, ?_⟩
        rw [found, take_succ_cons, ← append_cons]
      · refine .inr ⟨fun k pos short => ?_, missed⟩
        obtain _ | _ | k := k
        · omega
        · simpa using short_of
        · rw [length_cons] at short
          have later := never (k + 1) (by omega) (by omega)
          rw [take_succ_cons, map_cons, sum_cons]
          have same : chosen.length + (k + 1 + 1) = chosen.length + 1 + (k + 1) := by omega
          rw [same]
          omega

theorem cover_isSome_iff (word : ∀ n, need n ≤ u64Max) :
    (cover values need order [] 0).isSome ↔ Covers values need order := by
  have loop := cover_from values word order [] 0
  rw [Nat.zero_min, length_nil] at loop
  simp only [Nat.zero_add] at loop
  rcases loop with ⟨k, isFirst, found⟩ | ⟨never, missed⟩
  · have covers := isFirst.covers
    rw [Nat.zero_add, Nat.zero_add] at covers
    rw [found]
    exact ⟨fun _ => ⟨k, isFirst.some_coin, isFirst.short, covers⟩, fun _ => rfl⟩
  · rw [missed]
    constructor
    · intro found
      cases found
    · rintro ⟨k, pos, short, covers⟩
      exact absurd covers (Nat.not_le.mpr (never k pos short))

theorem pairwise_sorted {r : Nat → Nat → Prop} [DecidableRel r] (total : ∀ a b, r a b ∨ r b a)
    (trans : ∀ a b c, r a b → r b c → r a c) (order : List Nat) :
    (order.insertionSort r).Pairwise r := by
  have : Std.Total r := ⟨total⟩
  have : IsTrans Nat r := ⟨trans⟩
  exact pairwise_insertionSort r order

theorem pairwise_smallestFirst (values order : List Nat) :
    (smallestFirst values order).Pairwise fun a b =>
      valueAt values a < valueAt values b ∨ valueAt values a = valueAt values b ∧ a ≤ b :=
  pairwise_sorted (fun a b => by omega) (fun a b c => by omega) order

theorem pairwise_largestFirst (values order : List Nat) :
    (largestFirst values order).Pairwise fun a b =>
      valueAt values b < valueAt values a ∨ valueAt values a = valueAt values b ∧ a ≤ b :=
  pairwise_sorted (fun a b => by omega) (fun a b c => by omega) order

/-- The first coin of the order is a largest one. -/
theorem le_of_largestFirst {order rest : List Nat} {first i : Nat}
    (sorted : largestFirst values order = first :: rest) (member : i ∈ order) :
    valueAt values i ≤ valueAt values first := by
  have pairwise := pairwise_largestFirst values order
  rw [sorted] at pairwise
  have inSorted := (perm_largestFirst values order).mem_iff.mpr member
  rw [sorted] at inSorted
  rcases mem_cons.mp inSorted with rfl | later
  · exact le_rfl
  · obtain less | ⟨same, _⟩ := rel_of_pairwise_cons pairwise later <;> omega

theorem single_isSome_iff :
    (single values need order).isSome ↔ ∃ i ∈ order, need 1 ≤ valueAt values i := by
  rw [single, find?_isSome]
  simp only [mem_smallestFirst, decide_eq_true_eq]

theorem covers_of_single {i : Nat} (member : i ∈ order) (enough : need 1 ≤ valueAt values i) :
    Covers values need (largestFirst values order) := by
  cases sorted : largestFirst values order with
  | nil =>
    have absent := (perm_largestFirst values order).mem_iff.mpr member
    rw [sorted] at absent
    cases absent
  | cons first rest =>
    refine ⟨1, le_rfl, by simp, ?_⟩
    have largest := le_of_largestFirst sorted member
    simp only [take_succ_cons, take_zero, map_cons, map_nil, sum_cons,
      sum_nil]
    omega

/-- Coins are picked exactly when a first part of them, largest first, covers its target. -/
theorem pick_isSome_iff (word : ∀ n, need n ≤ u64Max) :
    (pick values need).isSome ↔
      Covers values need (largestFirst values (range values.length)) := by
  rw [pick]
  by_cases empty : values.isEmpty = true
  · rw [if_pos empty]
    rw [List.isEmpty_iff] at empty
    subst empty
    constructor
    · intro found
      cases found
    · rintro ⟨k, pos, short, _⟩
      exact absurd short (by simp [largestFirst]; omega)
  rw [if_neg empty]
  cases alone : single values need (range values.length) with
  | some i =>
    obtain ⟨member, enough⟩ := single_eq_some alone
    exact ⟨fun _ => covers_of_single member enough, fun _ => rfl⟩
  | none => exact cover_isSome_iff word

/-- Sorting the places of a part of the coins, and sorting the part. -/
theorem largestFirst_part {part : List Nat} (increasing : part.Pairwise (· < ·)) :
    (largestFirst (part.map (valueAt values)) (range part.length)).map
      (fun j => part.getD j 0) = largestFirst values part := by
  have whole : (range part.length).map (fun j => part.getD j 0) = part := by
    refine ext_getElem (by simp) fun i lt lt' => ?_
    simp [lt']
  have at_place : ∀ j < part.length,
      valueAt (part.map (valueAt values)) j = valueAt values (part.getD j 0) := by
    intro j lt
    simp [valueAt, lt]
  have order : ∀ a < part.length, ∀ b < part.length,
      (a ≤ b ↔ part.getD a 0 ≤ part.getD b 0) := by
    intro a inA b inB
    have strict := pairwise_iff_getElem.mp increasing
    simp only [getD_eq_getElem?_getD, getElem?_eq_getElem inA,
      getElem?_eq_getElem inB, Option.getD_some]
    rcases Nat.lt_trichotomy a b with less | rfl | more
    · have := strict a b inA inB less
      omega
    · simp
    · have := strict b a inB inA more
      omega
  rw [largestFirst, largestFirst]
  conv_rhs => rw [← whole]
  refine map_insertionSort _ _ _ _ fun a inA b inB => ?_
  rw [mem_range] at inA inB
  rw [at_place a inA, at_place b inB, order a inA b inB]

theorem pick_part_isSome_iff {part : List Nat} (increasing : part.Pairwise (· < ·))
    (word : ∀ n, need n ≤ u64Max) :
    (pick (part.map (valueAt values)) need).isSome ↔
      Covers values need (largestFirst values part) := by
  rw [pick_isSome_iff word, length_map, ← largestFirst_part increasing, Covers, Covers,
    length_map]
  have inside : ∀ j ∈ largestFirst (part.map (valueAt values)) (range part.length),
      j < part.length := fun j member => mem_range.mp
        ((perm_largestFirst _ _).mem_iff.mp member)
  have sums : ∀ k, (((largestFirst (part.map (valueAt values)) (range part.length)).map
        fun j => part.getD j 0).take k).map (valueAt values) =
      ((largestFirst (part.map (valueAt values)) (range part.length)).take k).map
        (valueAt (part.map (valueAt values))) := by
    intro k
    rw [← map_take, map_map]
    refine map_congr_left fun j member => ?_
    have lt := inside j (mem_of_mem_take member)
    simp [valueAt, lt]
  simp only [sums]

theorem increasing_filter_range (n : Nat) (keep : Nat → Bool) :
    ((range n).filter keep).Pairwise (· < ·) :=
  pairwise_lt_range.sublist filter_sublist

/-- With mixed coins last: a mixed coin alone, or a first part of the plain coins and then
the mixed ones, each largest first. -/
theorem pickMixedLast_isSome_iff {mixed : List Bool} (word : ∀ n, need n ≤ u64Max) :
    (pickMixedLast values mixed need).isSome ↔
      (∃ i ∈ mixedCoins values mixed, need 1 ≤ valueAt values i) ∨
        Covers values need (largestFirst values (plainCoins values mixed) ++
          largestFirst values (mixedCoins values mixed)) := by
  have plain : (pick ((plainCoins values mixed).map (valueAt values)) need).isSome ↔
      Covers values need (largestFirst values (plainCoins values mixed)) :=
    pick_part_isSome_iff (increasing_filter_range _ _) word
  unfold pickMixedLast
  split
  · next picked found =>
      rw [found] at plain
      exact ⟨fun _ => .inr (plain.mp rfl).append, fun _ => rfl⟩
  · split
    · next i alone => exact ⟨fun _ => .inl ⟨i, single_eq_some alone⟩, fun _ => rfl⟩
    · next none_alone =>
        rw [cover_isSome_iff word]
        refine ⟨.inr, fun either => either.resolve_left fun alone => ?_⟩
        rw [← single_isSome_iff, none_alone] at alone
        cases alone

end Lij.CoinSelect
