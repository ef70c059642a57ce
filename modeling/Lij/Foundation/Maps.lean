import Mathlib
import Std.Data.ExtTreeMap
import Std.Data.TreeMap

/-!
# Ordered maps

The values of an ordered map in key order, and the counting argument by which a
map whose keys are all expected ones, and are as many as expected, has them all.
For extensional maps: lookups after an insertion or an erasure, and the filters
that do not notice one.
-/

namespace Lij.Maps

open List

variable {κ α β : Type} [Ord κ] [Std.TransOrd κ] [Std.LawfulEqOrd κ]

/-- The values in the order of their keys. -/
def values (map : Std.TreeMap κ α) : List α := map.toList.map Prod.snd

theorem mem_values {map : Std.TreeMap κ α} {v : α} :
    v ∈ values map ↔ ∃ k : κ, map[k]? = some v := by
  constructor
  · intro member
    obtain ⟨⟨k, _⟩, inList, rfl⟩ := mem_map.mp member
    exact ⟨k, Std.TreeMap.mem_toList_iff_getElem?_eq_some.mp inList⟩
  · rintro ⟨k, found⟩
    exact mem_map.mpr ⟨(k, v), Std.TreeMap.mem_toList_iff_getElem?_eq_some.mpr found, rfl⟩

omit [Std.TransOrd κ] [Std.LawfulEqOrd κ] in
theorem length_values (map : Std.TreeMap κ α) : (values map).length = map.size := by
  rw [values, length_map, Std.TreeMap.length_toList]

omit [Std.LawfulEqOrd κ] in
theorem mem_iff_exists_getElem? {map : Std.TreeMap κ α} {k : κ} :
    k ∈ map ↔ ∃ v, map[k]? = some v := by
  rw [Std.TreeMap.mem_iff_isSome_getElem?, Option.isSome_iff_exists]

theorem getElem?_insert {map : Std.TreeMap κ α} {k k' : κ} {v : α} [DecidableEq κ] :
    (map.insert k v)[k']? = if k = k' then some v else map[k']? := by
  simp only [Std.TreeMap.getElem?_insert, Std.compare_eq_iff_eq]

/-- After a list of pairs is put in, a key has one of its new values or its old one. -/
theorem getElem?_foldl_insert [DecidableEq κ] (xs : List (κ × α)) (map : Std.TreeMap κ α) (k : κ) :
    (∃ v, (k, v) ∈ xs ∧ (xs.foldl (fun held x => held.insert x.1 x.2) map)[k]? = some v) ∨
      (∀ v, (k, v) ∉ xs) ∧ (xs.foldl (fun held x => held.insert x.1 x.2) map)[k]? = map[k]? := by
  induction xs generalizing map with
  | nil => exact .inr ⟨fun _ => not_mem_nil, rfl⟩
  | cons x xs ih =>
    rw [foldl_cons]
    obtain ⟨v, member, found⟩ | ⟨absent, same⟩ := ih (map.insert x.1 x.2)
    · exact .inl ⟨v, mem_cons_of_mem _ member, found⟩
    · rw [getElem?_insert] at same
      by_cases isKey : x.1 = k
      · rw [if_pos isKey] at same
        exact .inl ⟨x.2, mem_cons.mpr (.inl (Prod.ext isKey.symm rfl)), same⟩
      · rw [if_neg isKey] at same
        refine .inr ⟨fun v member => ?_, same⟩
        obtain rfl | later := mem_cons.mp member
        · exact isKey rfl
        · exact absent v later

omit [Std.LawfulEqOrd κ] in
theorem size_insert_of_notMem {map : Std.TreeMap κ α} {k : κ} {v : α} (new : k ∉ map) :
    (map.insert k v).size = map.size + 1 := by
  rw [Std.TreeMap.size_insert, if_neg]
  simpa using new

theorem nodup_keys (map : Std.TreeMap κ α) : map.keys.Nodup := by
  refine Std.TreeMap.distinct_keys.imp fun {a b} different same => different ?_
  rw [same]
  exact Std.ReflCmp.compare_self

/-- Keys that are all expected, and are as many as expected, are all of them. -/
theorem mem_of_subset_of_size_le {map : Std.TreeMap κ α} {expected : Std.TreeMap κ β}
    (subset : ∀ k, k ∈ map → k ∈ expected) (size : expected.size ≤ map.size) {k : κ}
    (member : k ∈ expected) : k ∈ map := by
  have lists : map.keys ⊆ expected.keys := by
    intro key inMap
    rw [Std.TreeMap.mem_keys] at inMap ⊢
    exact subset key inMap
  have lengths : expected.keys.length ≤ map.keys.length := by
    rw [Std.TreeMap.length_keys, Std.TreeMap.length_keys]
    exact size
  have perm : map.keys.Perm expected.keys :=
    ((nodup_keys map).subperm lists).perm_of_length_le lengths
  rw [← Std.TreeMap.mem_keys, perm.mem_iff, Std.TreeMap.mem_keys]
  exact member

/-! ## Extensional maps -/

section Extensional

variable [DecidableEq κ] {map : Std.ExtTreeMap κ α} {k k' : κ} {v : α}

theorem ext_getElem?_insert :
    (map.insert k v)[k']? = if k = k' then some v else map[k']? := by
  simp only [Std.ExtTreeMap.getElem?_insert, Std.compare_eq_iff_eq]

theorem ext_getElem?_erase :
    (map.erase k)[k']? = if k = k' then none else map[k']? := by
  simp only [Std.ExtTreeMap.getElem?_erase, Std.compare_eq_iff_eq]

theorem erase_of_absent (absent : map.contains k = false) : map.erase k = map := by
  refine Std.ExtTreeMap.ext_getElem? fun key => ?_
  rw [ext_getElem?_erase]
  split
  · subst_vars
    exact (Std.ExtTreeMap.getElem?_eq_none_of_contains_eq_false absent).symm
  · rfl

/-- A filter that drops a key's entry, old and new, does not notice the key's insertion. -/
theorem filter_insert_of_dropped {keep : κ → α → Bool} (new : keep k v = false)
    (old : ∀ w, map[k]? = some w → keep k w = false) :
    (map.insert k v).filter keep = map.filter keep := by
  refine Std.ExtTreeMap.ext_getElem? fun key => ?_
  rw [Std.ExtTreeMap.getElem?_filter', Std.ExtTreeMap.getElem?_filter', ext_getElem?_insert]
  by_cases same : k = key
  · subst same
    cases found : map[k]? with
    | none => simp [Option.filter, new]
    | some w => simp [Option.filter, new, old w found]
  · rw [if_neg same]

theorem filter_erase_of_dropped {keep : κ → α → Bool}
    (old : ∀ w, map[k]? = some w → keep k w = false) :
    (map.erase k).filter keep = map.filter keep := by
  refine Std.ExtTreeMap.ext_getElem? fun key => ?_
  rw [Std.ExtTreeMap.getElem?_filter', Std.ExtTreeMap.getElem?_filter', ext_getElem?_erase]
  by_cases same : k = key
  · subst same
    cases found : map[k]? with
    | none => simp
    | some w => simp [Option.filter, old w found]
  · rw [if_neg same]

omit [DecidableEq κ] in
theorem filter_of_kept {keep : κ → α → Bool} (all : ∀ k v, map[k]? = some v → keep k v = true) :
    map.filter keep = map := by
  refine Std.ExtTreeMap.ext_getElem? fun key => ?_
  rw [Std.ExtTreeMap.getElem?_filter']
  cases found : map[key]? with
  | none => rfl
  | some v => simp [Option.filter, all key v found]

end Extensional

end Lij.Maps
