import Mathlib
import Lij.Foundation.Json
import Lij.KitMerge

/-!
# Keeping a sealed kit under its holder's cap

A kit that is too large gives up carried coins one at a time, the lowest height
first, until its text fits. How long the text of a kit is stays a parameter: what
is removed, and in which order, does not depend on it.
-/

namespace Lij.KitTrim

open Json KitMerge List

/-- A coin of a kit and where it stands. -/
structure Place where
  leg : String
  index : Nat
  coin : Value

def isCarried (coin : Value) : Bool := (coin.get "carried").bind Value.asBool == some true

def knownHeight (coin : Value) : Option Nat := (coin.get "height").bind Value.asU64

def height (coin : Value) : Nat := (knownHeight coin).getD 0

def places (kit : Value) (leg : String) : List Place :=
  (kit.items leg).zipIdx.map fun c => ⟨leg, c.2, c.1⟩

def carriedPlaces (kit : Value) : List Place :=
  (coinLegs.flatMap (places kit)).filter (isCarried ·.coin)

/-- The oldest carried coin over both legs: of equal heights the one read first. -/
def pick (kit : Value) : Option Place := (carriedPlaces kit).argmin (height ·.coin)

def remove (kit : Value) (place : Place) : Value :=
  kit.insert place.leg (.arr ((kit.items place.leg).eraseIdx place.index))

def coins (kit : Value) : List Value := coinLegs.flatMap kit.items

variable {kit coin : Value} {place : Place}

theorem mem_carriedPlaces :
    place ∈ carriedPlaces kit ↔ place.leg ∈ coinLegs ∧
      (kit.items place.leg)[place.index]? = some place.coin ∧ isCarried place.coin = true := by
  simp only [carriedPlaces, places, mem_filter, mem_flatMap, mem_map, Prod.exists,
    mk_mem_zipIdx_iff_getElem?]
  constructor
  · rintro ⟨⟨leg, isLeg, coin, index, stands, rfl⟩, carried⟩
    exact ⟨isLeg, stands, carried⟩
  · rintro ⟨isLeg, stands, carried⟩
    exact ⟨⟨_, isLeg, _, _, stands, rfl⟩, carried⟩

theorem items_remove (kit : Value) (place : Place) (leg : String) :
    (remove kit place).items leg =
      if leg = place.leg then (kit.items leg).eraseIdx place.index else kit.items leg := by
  split_ifs with same
  · subst same
    rcases Value.get_insert_self kit place.leg
      (.arr ((kit.items place.leg).eraseIdx place.index)) with new | ⟨unchanged, absent⟩
    · rw [remove, Value.items, new]
      rfl
    · rw [remove, unchanged, Value.items, absent]
      rfl
  · exact items_insert_of_ne same _ _

theorem length_coins_remove (carried : place ∈ carriedPlaces kit) :
    (coins kit).length = (coins (remove kit place)).length + 1 := by
  obtain ⟨isLeg, stands, -⟩ := mem_carriedPlaces.mp carried
  obtain ⟨bound, -⟩ := List.getElem?_eq_some_iff.mp stands
  have shorter := length_eraseIdx_add_one bound
  simp only [coins, coinLegs, flatMap_cons, flatMap_nil, append_nil, length_append, items_remove]
  rcases mem_pair.mp isLeg with leg | leg <;> rw [leg] at shorter <;> simp [leg] <;> omega

theorem mem_carriedPlaces_of_pick (picked : pick kit = some place) :
    place ∈ carriedPlaces kit :=
  argmin_mem picked

/-- The loop: each round measures the kit's text and removes one coin, until it fits or no
carried coin is left. -/
def trimToFit (size : Value → Nat) (maxPlain : Nat) (kit : Value) : Value × Nat :=
  if size kit ≤ maxPlain then (kit, 0)
  else
    match picked : pick kit with
    | none => (kit, 0)
    | some place =>
      let rest := trimToFit size maxPlain (remove kit place)
      (rest.1, rest.2 + 1)
termination_by (coins kit).length
decreasing_by
  rw [length_coins_remove (mem_carriedPlaces_of_pick picked)]
  exact Nat.lt_succ_self _

/-! ## What a run of the loop removes -/

theorem mem_coins (carried : place ∈ carriedPlaces kit) :
    place.coin ∈ coins kit :=
  have ⟨isLeg, stands, _⟩ := mem_carriedPlaces.mp carried
  mem_flatMap.mpr ⟨_, isLeg, mem_of_getElem? stands⟩

theorem mem_coins_of_remove (left : coin ∈ coins (remove kit place)) : coin ∈ coins kit := by
  obtain ⟨leg, isLeg, inLeg⟩ := mem_flatMap.mp left
  rw [items_remove] at inLeg
  refine mem_flatMap.mpr ⟨leg, isLeg, ?_⟩
  split_ifs at inLeg
  · exact mem_of_mem_eraseIdx inLeg
  · exact inLeg

theorem exists_place (stands : coin ∈ coins kit)
    (carried : isCarried coin = true) : ∃ place ∈ carriedPlaces kit, place.coin = coin := by
  obtain ⟨leg, isLeg, inLeg⟩ := mem_flatMap.mp stands
  obtain ⟨index, stands⟩ := mem_iff_getElem?.mp inLeg
  exact ⟨⟨leg, index, coin⟩, mem_carriedPlaces.mpr ⟨isLeg, stands, carried⟩, rfl⟩

theorem height_pick_le (picked : pick kit = some place)
    (stands : coin ∈ coins kit) (carried : isCarried coin = true) :
    height place.coin ≤ height coin := by
  obtain ⟨other, isPlace, rfl⟩ := exists_place stands carried
  exact le_of_mem_argmin (f := fun p : Place => height p.coin) isPlace picked

theorem filter_eraseIdx {p : Value → Bool} (not_kept : p coin = false) :
    ∀ {l : List Value} {i : Nat}, l[i]? = some coin → (l.eraseIdx i).filter p = l.filter p
  | _ :: _, 0, stands => by
    cases stands
    rw [eraseIdx_cons_zero, filter_cons_of_neg (by simp [not_kept])]
  | a :: l, i + 1, stands => by
    have rest : l[i]? = some coin := stands
    rw [eraseIdx_cons_succ, filter_cons, filter_cons, filter_eraseIdx not_kept rest]

/-- A round leaves every other member of the kit and every coin that is not carried. -/
structure Spares (kit after : Value) : Prop where
  member : ∀ key ∉ coinLegs, after.get key = kit.get key
  own : ∀ leg, (after.items leg).filter (!isCarried ·) = (kit.items leg).filter (!isCarried ·)

theorem spares_remove (carried : place ∈ carriedPlaces kit) :
    Spares kit (remove kit place) := by
  obtain ⟨isLeg, stands, marked⟩ := mem_carriedPlaces.mp carried
  refine ⟨fun key other => Value.get_insert_of_ne (ne_of_mem_of_not_mem isLeg other).symm _ _,
    fun leg => ?_⟩
  rw [items_remove]
  split_ifs with same
  · rw [same, filter_eraseIdx (by simp [marked]) stands]
  · rfl

/-- The kit and the count of a trim, told by the coins `gone` in the order they went. -/
structure Trimmed (size : Value → Nat) (maxPlain : Nat) (kit : Value) (gone : List Place)
    (result : Value × Nat) : Prop where
  after : result = (gone.foldl remove kit, gone.length)
  length : (coins kit).length = (coins result.1).length + result.2
  spared : Spares kit result.1
  carried : ∀ place ∈ gone, place.coin ∈ coins kit ∧ isCarried place.coin = true
  ordered : gone.Pairwise fun a b => height a.coin ≤ height b.coin
  /-- Before each removal the kit was over the limit and had the removed coin in its place. -/
  needed : ∀ n (round : n < gone.length), maxPlain < size ((gone.take n).foldl remove kit) ∧
    gone[n] ∈ carriedPlaces ((gone.take n).foldl remove kit)
  done : size result.1 ≤ maxPlain ∨ ∀ coin ∈ coins result.1, isCarried coin = false

variable {size : Value → Nat} {maxPlain : Nat}

theorem Trimmed.nil (done : size kit ≤ maxPlain ∨ ∀ coin ∈ coins kit, isCarried coin = false) :
    Trimmed size maxPlain kit [] (kit, 0) :=
  ⟨rfl, rfl, ⟨fun _ _ => rfl, fun _ => rfl⟩, nofun, .nil, nofun, done⟩

theorem Trimmed.cons {gone : List Place} {result : Value × Nat} (large : maxPlain < size kit)
    (picked : pick kit = some place)
    (rest : Trimmed size maxPlain (remove kit place) gone result) :
    Trimmed size maxPlain kit (place :: gone) (result.1, result.2 + 1) := by
  have isPlace := mem_carriedPlaces_of_pick picked
  have spared := spares_remove isPlace
  refine ⟨by rw [rest.after]; rfl, by rw [length_coins_remove isPlace, rest.length]; rfl,
    ⟨fun key other => (rest.spared.member key other).trans (spared.member key other),
      fun leg => (rest.spared.own leg).trans (spared.own leg)⟩, ?_, ?_, ?_, rest.done⟩
  · intro other removed
    rcases mem_cons.mp removed with rfl | later
    · exact ⟨mem_coins isPlace, (mem_carriedPlaces.mp isPlace).2.2⟩
    · exact (rest.carried other later).imp_left mem_coins_of_remove
  · refine pairwise_cons.mpr ⟨fun later isLater => ?_, rest.ordered⟩
    obtain ⟨stands, marked⟩ := rest.carried later isLater
    exact height_pick_le picked (mem_coins_of_remove stands) marked
  · rintro (_ | n) round
    · exact ⟨large, isPlace⟩
    · exact rest.needed n (Nat.lt_of_succ_lt_succ round)

/-- Every trim ends. It takes carried coins only, in the order of their heights (a height that
cannot be read counts as 0), none once the text fits, and it ends over the limit only when no
carried coin is left; the channels and every other member stay. -/
theorem trimToFit_trims (size : Value → Nat) (maxPlain : Nat) (kit : Value) :
    ∃ gone, Trimmed size maxPlain kit gone (trimToFit size maxPlain kit) := by
  fun_induction trimToFit size maxPlain kit with
  | case1 kit fits => exact ⟨[], .nil (.inl fits)⟩
  | case2 kit large none_left =>
    refine ⟨[], .nil (.inr fun coin stands => Bool.eq_false_iff.mpr fun carried => ?_)⟩
    obtain ⟨place, isPlace, -⟩ := exists_place stands carried
    rw [argmin_eq_none.mp none_left] at isPlace
    cases isPlace
  | case3 kit large place picked rest ih =>
    obtain ⟨gone, trimmed⟩ := ih
    exact ⟨place :: gone, trimmed.cons (not_le.mp large) picked⟩

/-- Trimming to one limit and then to another is trimming to the lower of the two, with the
removals counted together; so trimming again removes nothing. -/
theorem trimToFit_twice (size : Value → Nat) (first second : Nat) (kit : Value) :
    trimToFit size (min second first) kit =
      ((trimToFit size second (trimToFit size first kit).1).1,
        (trimToFit size second (trimToFit size first kit).1).2 + (trimToFit size first kit).2) := by
  fun_induction trimToFit size first kit with
  | case1 kit fits =>
    rcases le_total second first with lower | higher
    · rw [min_eq_left lower]
      rfl
    · rw [min_eq_right higher, trimToFit, trimToFit, if_pos fits, if_pos (fits.trans higher)]
      rfl
  | case2 kit large noneLeft =>
    have stays : ∀ limit, trimToFit size limit kit = (kit, 0) := by
      intro limit
      rw [trimToFit]
      split <;> [rfl; (split <;> simp_all)]
    rw [stays, stays]
    rfl
  | case3 kit large place picked rest ih =>
    have larger : ¬size kit ≤ min second first := fun fits => large (fits.trans (min_le_right ..))
    rw [trimToFit, if_neg larger]
    split
    · simp_all
    · next other found =>
      cases found.symm.trans picked
      rw [ih]
      rfl

section Sample

def carriedCoin (members : List (String × Value)) : Value :=
  .obj (("carried", .bool true) :: members)

/-- A kit of silent-payment coins, the first of height 0 and the last of no height. -/
def kitOf (coins : List Value) : Value :=
  .obj [("silent_payments", .arr (coins ++ [carriedCoin []]))]

def heightZero : Value := carriedCoin [("height", .int 0)]

/-- A coin whose height is 0 goes before a coin without a height that stands after it. -/
theorem zero_before_unknown :
    knownHeight heightZero = some 0 ∧ knownHeight (carriedCoin []) = none ∧
      ∀ size maxPlain, maxPlain < size (kitOf [heightZero]) → size (kitOf []) ≤ maxPlain →
        trimToFit size maxPlain (kitOf [heightZero]) = (kitOf [], 1) := by
  refine ⟨rfl, rfl, fun size maxPlain large fits => ?_⟩
  have first : pick (kitOf [heightZero]) = some ⟨"silent_payments", 0, heightZero⟩ := by rfl
  have left : remove (kitOf [heightZero]) ⟨"silent_payments", 0, heightZero⟩ = kitOf [] := by
    rfl
  rw [trimToFit, if_neg (not_le.mpr large)]
  split
  · next none_left => cases first.symm.trans none_left
  · next place picked =>
    cases first.symm.trans picked
    rw [left, trimToFit, if_pos fits]

end Sample

end Lij.KitTrim
