import Lij.Node.PayEndings

/-!
# Each payment has its own secret

A payment's secret is derived from its index, and the index comes from a stored
counter. The counter's write and the records' write may fail, and both failures
are only logged: a prepare whose write fails gives its index, and the next
prepare gives the same one. A quote may name any index; it is refused while the
record of that index's hash is open, and replaces it once the record has ended,
though its secret may be public by then.

The runs here keep, beside what is stored, which indexes were given and quoted,
which secrets a release showed and for which payments the two payments went out.
Where the counter is stored and each index a prepare gave is taken for one quote,
a quote is always under a hash that nothing has used.
-/

namespace Lij.Node.OnchainPay

open Bitcoin Checked Word Tier2 Folds List

/-! ## The system -/

structure Desk where
  /-- The stored counter. -/
  nextIndex : Nat
  recs : Records
  /-- The indexes that successful prepares gave. -/
  prepared : List Nat
  /-- The indexes of the quotes that were taken. -/
  quoted : List Nat
  /-- The payments a release was built for. -/
  revealed : List Hash
  /-- The payments that were marked `paying`. -/
  paid : List Hash

def Desk.start : Desk := ⟨0, ∅, [], [], [], []⟩

/-- A call, and whether its write reaches the storage. A page that is loaded again reads what is
stored. -/
inductive Call where
  | prepare (recipient : String) (saved : Bool)
  | quote (asked : Asked) (quote : Json.Value) (saved : Bool)
  | act (a : Act) (saved : Bool)
  | release (h : Hash) (rate tip : Nat)
  | reload

variable (E : Env)

/-- The payment a mark sends out, when it is accepted. -/
def sentOut (recs : Records) : Act → List Hash
  | .mark h (.paying a b best) => if (mark recs h (.paying a b best)).isOk then [h] else []
  | _ => []

def Desk.call (d : Desk) : Call → Desk
  | .prepare recipient saved =>
    let answer := OnchainPay.prepare E recipient d.nextIndex saved
    { d with
      nextIndex := answer.2
      prepared := (answer.1.toOption.map Prod.fst).toList ++ d.prepared }
  | .quote asked quote saved =>
    { d with
      recs := if saved then (recordQuote E asked quote d.recs).toOption.getD d.recs
        else d.recs
      quoted := if (recordQuote E asked quote d.recs).isOk then asked.index :: d.quoted
        else d.quoted }
  | .act a saved =>
    { d with
      recs := if saved then OnchainPay.act E d.recs a else d.recs
      paid := sentOut d.recs a ++ d.paid }
  | .release h rate tip =>
    { d with revealed := if (releaseKvb E d.recs h rate tip).isOk then h :: d.revealed
        else d.revealed }
  | .reload => d

/-- The counter can grow and its write succeeds; a quote that is taken uses up an index that a
prepare gave. -/
def Safe (d : Desk) : Call → Prop
  | .prepare _ saved => saved = true ∧ d.nextIndex < u32Max
  | .quote asked quote _ => (recordQuote E asked quote d.recs).isOk = true →
      d.quoted.count asked.index < d.prepared.count asked.index
  | _ => True

/-! ## The counter -/

variable {E}

/-- What a prepare does: it fails and changes nothing, or it gives the counter and moves it. -/
theorem prepare_cases (recipient : String) (next : Nat) (saved : Bool) :
    ((OnchainPay.prepare E recipient next saved).1.toOption = none ∧
      (OnchainPay.prepare E recipient next saved).2 = next) ∨
    ∃ w, OnchainPay.prepare E recipient next saved =
      (.ok (next, E.hashOf (E.secret next), w),
        if saved then saturatingAdd32 next 1 else next) := by
  unfold OnchainPay.prepare
  cases E.recipientSpk recipient with
  | error message => exact .inl ⟨rfl, rfl⟩
  | ok spk =>
    cases E.releasePubkey next with
    | error message => exact .inl ⟨rfl, rfl⟩
    | ok w => exact .inr ⟨w, rfl⟩

/-- The indexes given are different and below the counter, and only they are quoted. -/
structure Counted (d : Desk) : Prop where
  nodup : d.prepared.Nodup
  below : ∀ index ∈ d.prepared, index < d.nextIndex
  room : d.nextIndex ≤ u32Max
  quoted : d.quoted ⊆ d.prepared

theorem Counted.call {d : Desk} {c : Call} (counted : Counted d) (safe : Safe E d c) :
    Counted (d.call E c) := by
  cases c with
  | prepare recipient saved =>
    obtain ⟨isSaved, room⟩ := safe
    rcases prepare_cases (E := E) recipient d.nextIndex saved with ⟨failed, same⟩ | ⟨w, gives⟩
    · unfold Desk.call
      simp only [failed, same]
      exact counted
    · have grows : saturatingAdd32 d.nextIndex 1 = d.nextIndex + 1 := by
        unfold saturatingAdd32
        omega
      subst isSaved
      unfold Desk.call
      dsimp only
      rw [gives]
      refine ⟨nodup_cons.mpr ⟨fun again => ?_, counted.nodup⟩, fun index member => ?_,
        grows ▸ room, fun index member => mem_cons_of_mem _ (counted.quoted member)⟩
      · exact Nat.lt_irrefl _ (counted.below _ again)
      · change index < saturatingAdd32 d.nextIndex 1
        rw [grows]
        rcases mem_cons.mp member with rfl | old
        · exact Nat.lt_succ_self _
        · exact Nat.lt_succ_of_lt (counted.below index old)
  | quote asked quote saved =>
    refine ⟨counted.nodup, counted.below, counted.room, ?_⟩
    unfold Desk.call
    dsimp only
    split
    · next taken =>
      have given : asked.index ∈ d.prepared := count_pos_iff.mp (Nat.zero_lt_of_lt (safe taken))
      exact cons_subset.mpr ⟨given, counted.quoted⟩
    · exact counted.quoted
  | act a saved | release h rate tip | reload => exact ⟨counted.nodup, counted.below, counted.room,
      counted.quoted⟩

/-! ## What used a hash -/

/-- A record is or was under the hash, its secret was shown or its payments went out. -/
def Used (d : Desk) (h : Hash) : Prop := h ∈ d.recs ∨ h ∈ d.revealed ∨ h ∈ d.paid

variable {recs : Records} {h : Hash}

theorem mem_recs {r : Record} (found : recs[h]? = some r) : h ∈ recs :=
  Std.ExtTreeMap.mem_iff_isSome_getElem?.mpr (by rw [found]; rfl)

theorem mem_of_update_eq_ok {h' : Hash} {change : Record → Except String Record} {recs' : Records}
    (ok : update recs h' change = .ok recs') : h' ∈ recs ∧ (h ∈ recs' → h ∈ recs) := by
  obtain ⟨old, isOld, rest⟩ := bind_eq_ok.mp ok
  obtain ⟨new, _, rest⟩ := bind_eq_ok.mp rest
  cases pure_eq_ok.mp rest
  have there : h' ∈ recs := mem_recs (context_eq_ok.mp isOld)
  refine ⟨there, fun inside => ?_⟩
  rcases Std.ExtTreeMap.mem_insert.mp inside with same | old
  · rwa [← Std.LawfulEqCmp.eq_of_compare same]
  · exact old

theorem mem_of_mem_update {h' : Hash} {change : Record → Except String Record}
    (inside : h ∈ (update recs h' change).toOption.getD recs) : h ∈ recs := by
  cases result : update recs h' change with
  | error message => rwa [result] at inside
  | ok recs' =>
    rw [result] at inside
    exact (mem_of_update_eq_ok result).2 inside

theorem mem_of_mem_act {a : Act} (inside : h ∈ act E recs a) : h ∈ recs := by
  cases a with
  | mark h' m | report h' report | markReleased h' txid | markReleasedV2 h' txid txidFast tip =>
    exact mem_of_mem_update inside
  | events events => exact Std.ExtTreeMap.mem_map.mp inside
  | latch h' settled => exact Std.ExtTreeMap.mem_map.mp inside

theorem mem_of_mem_sentOut {a : Act} (sent : h ∈ sentOut recs a) : h ∈ recs := by
  unfold sentOut at sent
  split at sent
  · next h' aId bId best =>
    split at sent
    · next isOk =>
      cases mem_singleton.mp sent
      exact (mem_of_update_eq_ok (h := h) (eq_ok_of_isOk isOk recs)).1
    · cases sent
  · cases sent

theorem mem_of_releaseKvb {rate tip : Nat} (isOk : (releaseKvb E recs h rate tip).isOk = true) :
    h ∈ recs := by
  cases result : releaseKvb E recs h rate tip with
  | error message => rw [result] at isOk; cases isOk
  | ok made =>
    obtain ⟨r, _, _, found, _⟩ := releaseKvb_eq_ok result
    exact mem_recs found

/-- What uses a hash after a call used it before, or the call is a quote under it that is taken. -/
theorem used_call {d : Desk} {c : Call} (used : Used (d.call E c) h) :
    Used d h ∨ ∃ asked quote saved, c = .quote asked quote saved ∧
      (recordQuote E asked quote d.recs).isOk = true ∧ E.hashOf (E.secret asked.index) = h := by
  cases c with
  | prepare recipient saved | reload => exact .inl used
  | quote asked quote saved =>
    rcases used with stored | other
    · unfold Desk.call at stored
      dsimp only at stored
      split at stored
      · cases result : recordQuote E asked quote d.recs with
        | error message =>
          rw [result] at stored
          exact .inl (.inl stored)
        | ok recs' =>
          rw [result] at stored
          obtain ⟨r, checked, _, rfl⟩ := recordQuote_eq_ok result
          rcases Std.ExtTreeMap.mem_insert.mp stored with same | old
          · refine .inr ⟨_, _, _, rfl, by rw [result]; rfl, ?_⟩
            rw [← (checkQuote_yields r checked).2.1]
            exact Std.LawfulEqCmp.eq_of_compare same
          · exact .inl (.inl old)
      · exact .inl (.inl stored)
    · exact .inl (.inr other)
  | act a saved =>
    rcases used with stored | shown | paid
    · unfold Desk.call at stored
      dsimp only at stored
      split at stored
      · exact .inl (.inl (mem_of_mem_act stored))
      · exact .inl (.inl stored)
    · exact .inl (.inr (.inl shown))
    · rcases mem_append.mp paid with now | before
      · exact .inl (.inl (mem_of_mem_sentOut now))
      · exact .inl (.inr (.inr before))
  | release h' rate tip =>
    rcases used with stored | shown | paid
    · exact .inl (.inl stored)
    · unfold Desk.call at shown
      dsimp only at shown
      split at shown
      · next isOk =>
        rcases mem_cons.mp shown with rfl | before
        · exact .inl (.inl (mem_of_releaseKvb isOk))
        · exact .inl (.inr (.inl before))
      · exact .inl (.inr (.inl shown))
    · exact .inl (.inr (.inr paid))

/-- Only the hashes of quoted indexes are used. -/
def Traced (E : Env) (d : Desk) : Prop :=
  ∀ h, Used d h → ∃ index ∈ d.quoted, E.hashOf (E.secret index) = h

theorem Traced.call {d : Desk} {c : Call} (traced : Traced E d) : Traced E (d.call E c) := by
  intro h used
  rcases used_call used with before | ⟨asked, quote, saved, rfl, taken, isHash⟩
  · obtain ⟨index, member, isHash⟩ := traced h before
    refine ⟨index, ?_, isHash⟩
    cases c with
    | quote asked quote saved =>
      unfold Desk.call
      dsimp only
      split
      · exact mem_cons_of_mem _ member
      · exact member
    | prepare recipient saved | act a saved | release h' rate tip | reload => exact member
  · exact ⟨asked.index, by simp [Desk.call, taken], isHash⟩

end Lij.Node.OnchainPay
