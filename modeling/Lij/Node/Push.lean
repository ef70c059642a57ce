import Mathlib
import Lij.Foundation.Folds

/-!
# The pushes a wallet made

A push is recorded under its payment hash. Three functions write its status: the
page marks it, the event pass latches what LDK says of its payment, and the list
folds in LDK's recent payments for the records still open. A write that fails is
logged and forgotten.
-/

namespace Lij.Node.Push

open List Folds

/-! ## The code -/

inductive Status
  | prepared
  | locked
  | void
  | taken
  | returned
  deriving DecidableEq

structure PushOut where
  index : Nat
  hash : String
  amountSats : Nat
  expiry : Nat
  created : Nat
  lsp : String
  status : Status
  paymentId : Option String
  updated : Nat

/-- The stored records by payment hash. -/
abbrev Outs := Std.TreeMap String PushOut

/-- One of LDK's recent payments; a fulfilled one may have lost its hash. -/
inductive RecentPayment
  | fulfilled (hash : Option String)
  | abandoned (hash : String)
  | pending

/-- A payment hash, and whether its payment settled or failed back. -/
abbrev Word := String × Bool

def RecentPayment.word : RecentPayment → Option Word
  | fulfilled hash => hash.map (·, true)
  | abandoned hash => some (hash, false)
  | pending => none

/-- The statuses the page may set. -/
def pageStatus : String → Option Status
  | "locked" => some .locked
  | "void" => some .void
  | "prepared" => some .prepared
  | _ => none

def pushMark (out : Outs) (now : Nat) (hash status : String) (paymentId : Option String) :
    Except String Outs :=
  if hash ∉ out then .error "no such push"
  else
    match pageStatus status with
    | none => .error s!"push_mark does not set '{status}' — LDK does"
    | some next =>
      .ok (out.modify hash fun r =>
        { r with status := next, paymentId := paymentId.or r.paymentId, updated := now })

/-- A record after LDK's word on its payment. -/
def PushOut.hear (r : PushOut) (now : Nat) (taken : Bool) : PushOut :=
  let next := if taken then .taken else if r.status = .void then .void else .returned
  { r with status := next, updated := now }

def pushLatch (out : Outs) (now : Nat) (word : Word) : Outs :=
  out.modify word.1 fun r =>
    if r.status = (r.hear now word.2).status then r else r.hear now word.2

/-- One of LDK's words folded into the list: only a record still open takes it. -/
def foldIn (now : Nat) (out : Outs) (word : Word) : Outs :=
  out.modify word.1 fun r =>
    if r.status = .locked ∨ r.status = .prepared ∨ (r.status = .void ∧ word.2) then
      r.hear now word.2
    else r

/-- The list, newest first, and the records it stores. -/
def pushOutJson (out : Outs) (now : Nat) (words : List Word) : List PushOut × Outs :=
  let out := words.foldl (foldIn now) out
  (out.values.insertionSort fun a b => b.created ≤ a.created, out)

/-! ## Runs -/

inductive Event
  | mark (hashHex status : String) (paymentId : Option String)
  | latch (word : Word)
  | list (payments : List RecentPayment)

/-- What LDK says in an event. -/
def Event.words : Event → List Word
  | mark .. => []
  | latch word => [word]
  | list payments => payments.filterMap RecentPayment.word

/-- A call at a time; `saved` says whether its write succeeds. -/
structure Call where
  now : Nat
  saved : Bool
  event : Event

/-- The stored records, and all that LDK has said. -/
structure World where
  outs : Outs
  said : List Word

section

variable (key : String → String)

/-- The records a call writes. `key` trims a hash the page hands over and puts it in lower
case. -/
def Call.outs (c : Call) (out : Outs) : Outs :=
  match c.event with
  | .mark hashHex status paymentId =>
    (pushMark out c.now (key hashHex) status paymentId).toOption.getD out
  | .latch word => pushLatch out c.now word
  | .list payments => (pushOutJson out c.now (Event.list payments).words).2

def step (w : World) (c : Call) : World :=
  ⟨if c.saved then c.outs key w.outs else w.outs, w.said ++ c.event.words⟩

/-- A push whose payment LDK said to be settled is stored as taken. -/
def Kept (w : World) : Prop :=
  ∀ word ∈ w.said, word.2 → ∀ r ∈ w.outs[word.1]?, r.status = .taken

/-- The page marks no push that is said to be settled, nor does LDK say that it failed back; a
word that it settled is written, and a list does not bring it for a record that is returned, or
together with the opposite word. -/
def Clear (w : World) (c : Call) : Prop :=
  match c.event with
  | .mark hashHex status _ =>
    c.saved → key hashHex ∈ w.outs → (pageStatus status).isSome → (key hashHex, true) ∉ w.said
  | .latch (hash, false) => c.saved → hash ∈ w.outs → (hash, true) ∉ w.said
  | .latch (hash, true) => ∀ r ∈ w.outs[hash]?, r.status = .taken ∨ c.saved
  | .list payments =>
    ∀ word ∈ (Event.list payments).words, word.2 → ∀ r ∈ w.outs[word.1]?,
      r.status = .taken ∨
        c.saved ∧ r.status ≠ .returned ∧ (word.1, false) ∉ (Event.list payments).words

end

theorem getElem?_modify (out : Outs) (k hash : String) (f : PushOut → PushOut) :
    (out.modify k f)[hash]? = if k = hash then out[hash]?.map f else out[hash]? := by
  rw [Std.TreeMap.getElem?_modify]
  simp only [Std.compare_eq_iff_eq]
  split
  · next same => rw [same]
  · rfl

variable {out : Outs} {now : Nat} {hash : String} {words : List Word}

/-- The stored record of a hash satisfies `P`, if there is one. -/
def On (out : Outs) (hash : String) (P : Status → Prop) : Prop :=
  ∀ r, out[hash]? = some r → P r.status

/-- What LDK's words for a hash cannot undo, the whole list keeps. -/
theorem on_foldl_foldIn {P : Status → Prop} (holds : On out hash P)
    (kept : ∀ r : PushOut, ∀ taken, (hash, taken) ∈ words → P r.status →
      r.status ≠ .taken → P (r.hear now taken).status) :
    On (words.foldl (foldIn now) out) hash P := by
  refine foldl_invariant (I := fun out => On out hash P) holds ?_
  rintro out ⟨other, taken⟩ member before r found
  rw [foldIn, getElem?_modify] at found
  split at found
  · next same =>
    subst same
    obtain ⟨old, stored, rfl⟩ := Option.map_eq_some_iff.mp found
    have := before old stored
    split
    · next isOpen =>
      refine kept old taken member this ?_
      rintro status
      simp [status] at isOpen
    · exact this
  · exact before r found

theorem taken_foldl (holds : On out hash (· = .taken)) :
    On (words.foldl (foldIn now) out) hash (· = .taken) :=
  on_foldl_foldIn holds fun _ _ _ status ne => absurd status ne

/-- A list that says a payment settled, and nothing else of it, makes its record taken unless it
is returned. -/
theorem settled_foldl (settled : (hash, true) ∈ words) (never : (hash, false) ∉ words)
    (holds : On out hash (· ≠ .returned)) :
    On (words.foldl (foldIn now) out) hash (· = .taken) := by
  obtain ⟨before, after, rfl⟩ := append_of_mem settled
  rw [foldl_append, foldl_cons]
  apply taken_foldl
  have standing : On (before.foldl (foldIn now) out) hash (· ≠ .returned) := by
    refine on_foldl_foldIn holds ?_
    rintro r (_ | _) member - -
    · exact absurd (mem_append_left _ member) never
    · simp [PushOut.hear]
  intro r found
  rw [foldIn, getElem?_modify, if_pos rfl] at found
  obtain ⟨old, stored, rfl⟩ := Option.map_eq_some_iff.mp found
  have := standing old stored
  cases status : old.status <;> simp_all [PushOut.hear]

section

variable {key : String → String} {w : World} {c : Call}

/-- Without a write, a clear call says nothing the records do not show already. -/
theorem taken_of_unsaved (clear : Clear key w c) (unsaved : c.saved = false)
    (said : (hash, true) ∈ c.event.words) : On w.outs hash (· = .taken) := by
  obtain ⟨now, saved, event⟩ := c
  subst unsaved
  intro r found
  cases event with
  | mark => cases said
  | latch word =>
    cases mem_singleton.mp said
    exact (clear r found).resolve_right Bool.false_ne_true
  | list payments =>
    rcases clear (hash, true) said rfl r found with taken | ⟨written, -⟩
    · exact taken
    · cases written

theorem kept_writes (kept : Kept w) (clear : Clear key w c) (saved : c.saved = true)
    (said : (hash, true) ∈ w.said ∨ (hash, true) ∈ c.event.words) :
    On (c.outs key w.outs) hash (· = .taken) := by
  obtain ⟨now, _, event⟩ := c
  cases event with
  | mark hashHex status paymentId =>
    have before := said.resolve_right not_mem_nil
    intro r found
    simp only [Call.outs, pushMark] at found
    split at found
    · exact kept _ before rfl r found
    · next present =>
      split at found
      · exact kept _ before rfl r found
      · next next page =>
        rw [Except.toOption, Option.getD_some, getElem?_modify] at found
        have other : key hashHex ≠ hash := by
          rintro rfl
          exact clear saved (not_not.mp present) (by simp [page]) before
        rw [if_neg other] at found
        exact kept _ before rfl r found
  | latch word =>
    obtain ⟨marked, taken⟩ := word
    intro r found
    simp only [Call.outs, pushLatch, getElem?_modify] at found
    by_cases own : marked = hash
    · subst own
      obtain ⟨old, stored, rfl⟩ := Option.map_eq_some_iff.mp (by simpa using found)
      cases taken with
      | true =>
        split
        · next same => exact same
        · rfl
      | false =>
        have inside : marked ∈ w.outs := Std.TreeMap.mem_iff_isSome_getElem?.mpr (by simp [stored])
        exact absurd (said.resolve_right (by simp [Event.words])) (clear saved inside)
    · rw [if_neg own] at found
      refine kept (hash, true) (said.resolve_right ?_) rfl r found
      simp [Event.words, Ne.symm own]
  | list payments =>
    rcases said with before | now
    · exact taken_foldl (kept _ before rfl)
    · by_cases already : On w.outs hash (· = .taken)
      · exact taken_foldl already
      · obtain ⟨r, found, ne⟩ : ∃ r, w.outs[hash]? = some r ∧ r.status ≠ .taken := by
          simpa [On] using already
        obtain ⟨-, standing, never⟩ := (clear (hash, true) now rfl r found).resolve_left ne
        refine settled_foldl now never ?_
        intro r' found'
        cases found.symm.trans found'
        exact standing

theorem kept_step (w : World) (c : Call) (kept : Kept w) (clear : Clear key w c) :
    Kept (step key w c) := by
  rintro ⟨hash, _⟩ said rfl
  have said := mem_append.mp said
  cases saved : c.saved with
  | true =>
    simp only [step, saved, if_true]
    exact kept_writes kept clear saved said
  | false =>
    simp only [step, saved, Bool.false_eq_true, if_false]
    exact said.elim (kept _ · rfl) (taken_of_unsaved clear saved)

end

/-- In a run of clear calls from any records, a push whose payment LDK said to be settled is
stored as taken from then on. -/
theorem taken_stays_taken (key : String → String) (outs : Outs) (calls : List Call)
    (clear : Meets (step key) (Clear key) ⟨outs, []⟩ calls) :
    Kept (calls.foldl (step key) ⟨outs, []⟩) :=
  clear.invariant kept_step (by simp [Kept])

/-- A locked push under the hash "aa". -/
def oneLocked : Outs := Std.TreeMap.empty.insert "aa" ⟨0, "aa", 5, 90, 1, "02", .locked, none, 1⟩

/-- Its payment settles, the list repeats it, and the page's mark of another push fails. -/
theorem settled_and_listed :
    Kept (([⟨2, true, .latch ("aa", true)⟩, ⟨3, true, .list [.fulfilled (some "aa"), .pending]⟩,
      ⟨4, true, .mark "bb" "locked" none⟩] : List Call).foldl (step id) ⟨oneLocked, []⟩) :=
  taken_stays_taken id oneLocked _ (by
    simp only [Meets, Clear]
    exact ⟨by decide +kernel, by decide +kernel, by decide +kernel, trivial⟩)

/-- After the payment settled, the page's late report of the lock makes the push locked again,
and a later word that it failed back makes it returned. -/
theorem taken_overwritten :
    let settled := step id ⟨oneLocked, []⟩ ⟨2, true, .latch ("aa", true)⟩
    let marked := step id settled ⟨3, true, .mark "aa" "locked" (some "id")⟩
    let failed := step id settled ⟨3, true, .latch ("aa", false)⟩
    Kept settled ∧ ¬Kept marked ∧ ¬Kept failed := by
  simp only [Kept]
  decide +kernel

end Lij.Node.Push
