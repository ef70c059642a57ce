import Mathlib
import Lij.Foundation.Folds

/-!
# The independent chain sources

The client asks several explorers at once, notes for each one how often it failed
in a row, and takes a height that more than half of the answers name. An answer
that arrives counts as a success when it arrives; an answer other than the
majority's is counted as a failure after the round.
-/

namespace Lij.Independent

def maxConsecutiveFailures : Nat := 3

/-- How long a demoted endpoint is left alone, in milliseconds. -/
def demotedRetryMs : Nat := 60000

structure EndpointHealth where
  url : String
  consecutiveFailures : Nat
  isHealthy : Bool
  probed : Bool
  lastFailureMs : Nat
  deriving DecidableEq, Repr

namespace EndpointHealth

def new (url : String) : EndpointHealth := ⟨url, 0, true, false, 0⟩

def recordSuccess (e : EndpointHealth) : EndpointHealth :=
  { e with consecutiveFailures := 0, isHealthy := true, probed := true }

def recordFailure (e : EndpointHealth) (now : Nat) : EndpointHealth :=
  { e with
    consecutiveFailures := e.consecutiveFailures + 1
    probed := true
    lastFailureMs := now
    isHealthy := e.isHealthy && decide (e.consecutiveFailures + 1 < maxConsecutiveFailures) }

end EndpointHealth

inductive QuorumState
  | healthy
  | slightDisagreement
  | singleSource
  | noQuorum
  | totalDisagreement
  | insufficientEndpoints
  deriving DecidableEq, Repr

structure Client where
  endpoints : List EndpointHealth
  lastQuorumState : QuorumState
  lastConsensusHeight : Option Nat
  deriving DecidableEq, Repr

/-- An endpoint's answer to the question for the tip height. -/
abbrev Answer := String × Option Nat

/-- A round at a time, with the answers in the order they arrive. -/
structure Round where
  now : Nat
  answers : List Answer

inductive Majority
  | clear (value : Nat)
  | evenSplit
  | allDifferent
  deriving DecidableEq, Repr

/-- The value more than half of the answers name. The source takes a most frequent value and
asks whether it is one. -/
def strictMajority (values : List Nat) : Majority :=
  match values.find? fun v => values.length < 2 * values.count v with
  | some v => .clear v
  | none => if values ≠ [] ∧ values.Nodup then .allDifferent else .evenSplit

namespace Client

def healthyCount (c : Client) : Nat := c.endpoints.countP fun e => e.isHealthy && e.probed

/-- The first endpoint with the url of a result notes it. -/
def record (now : Nat) (endpoints : List EndpointHealth) (result : String × Bool) :
    List EndpointHealth :=
  match endpoints with
  | [] => []
  | e :: rest =>
    if e.url = result.1 then (if result.2 then e.recordSuccess else e.recordFailure now) :: rest
    else e :: record now rest result

def recordEndpointResult (c : Client) (now : Nat) (url : String) (succeeded : Bool) : Client :=
  let c := { c with endpoints := record now c.endpoints (url, succeeded) }
  if c.healthyCount = 0 then { c with lastQuorumState := .insufficientEndpoints } else c

/-- The endpoints a round asks: the healthy ones and those demoted long enough ago, or else all. -/
def urlsToAsk (c : Client) (now : Nat) : List String :=
  let urls := (c.endpoints.filter fun e =>
    e.isHealthy || decide (demotedRetryMs ≤ now - e.lastFailureMs)).map EndpointHealth.url
  if urls = [] then c.endpoints.map EndpointHealth.url else urls

/-- The first height that arrives is reported at once. -/
def reportFirst (c : Client) (height : Nat) : Client :=
  { c with
    lastQuorumState :=
      if c.lastQuorumState ∈ [.healthy, .slightDisagreement, .singleSource] then c.lastQuorumState
      else .singleSource
    lastConsensusHeight := c.lastConsensusHeight.or (some height) }

/-- The answers as they arrive; `reported` says that a height came before. -/
def queryAll (c : Client) (now : Nat) (reported : Bool) : List Answer → Client
  | [] => c
  | answer :: rest =>
    let c := c.recordEndpointResult now answer.1 answer.2.isSome
    match answer.2 with
    | some height => (if reported then c else c.reportFirst height).queryAll now true rest
    | none => c.queryAll now reported rest

def dissenters (answers : List Answer) (value : Nat) : List String :=
  (answers.filter fun a => a.2.isSome ∧ a.2 ≠ some value).map Prod.fst

def demote (c : Client) (now : Nat) (urls : List String) : Client :=
  urls.foldl (fun c url => c.recordEndpointResult now url false) c

/-- One round of the tip height: the answers in the order they arrive. -/
def fetchTipHeight (c : Client) (now : Nat) (answers : List Answer) : Option Nat × Client :=
  let c := c.queryAll now false answers
  match answers.filterMap Prod.snd with
  | [] => (none, { c with lastQuorumState := .insufficientEndpoints })
  | [height] =>
    (some height, { c with lastQuorumState := .singleSource, lastConsensusHeight := some height })
  | heights =>
    match strictMajority heights with
    | .clear value =>
      let urls := dissenters answers value
      (some value,
        { c.demote now urls with
          lastQuorumState := if urls = [] then .healthy else .slightDisagreement
          lastConsensusHeight := some value })
    | .evenSplit => (none, { c with lastQuorumState := .noQuorum })
    | .allDifferent => (none, { c with lastQuorumState := .totalDisagreement })

def run (c : Client) (rounds : List Round) : Client :=
  rounds.foldl (fun c r => (c.fetchTipHeight r.now r.answers).2) c

/-- The entries of a url: its results are noted in the first. -/
def own (endpoints : List EndpointHealth) (url : String) : List EndpointHealth :=
  endpoints.filter fun e => e.url = url

end Client

open Client List

namespace Round

def heights (r : Round) : List Nat := r.answers.filterMap Prod.snd

/-- In the round the url answered a height other than the majority's. -/
def Dissents (r : Round) (url : String) : Prop :=
  ∃ value height, strictMajority r.heights = .clear value ∧ (url, some height) ∈ r.answers ∧
    height ≠ value

/-- What the round notes, in this order: each answer, then a failure for each wrong height. -/
def results (r : Round) : List (String × Bool) :=
  r.answers.map (fun a => (a.1, a.2.isSome)) ++
    match strictMajority r.heights with
    | .clear value => (dissenters r.answers value).map fun url => (url, false)
    | _ => []

end Round

theorem endpoints_recordEndpointResult (c : Client) (now : Nat) (url : String) (succeeded : Bool) :
    (c.recordEndpointResult now url succeeded).endpoints =
      record now c.endpoints (url, succeeded) :=
  (apply_ite Client.endpoints _ _ _).trans (ite_self _)

theorem endpoints_queryAll (c : Client) (now : Nat) (reported : Bool) (answers : List Answer) :
    (c.queryAll now reported answers).endpoints =
      (answers.map fun a => (a.1, a.2.isSome)).foldl (record now) c.endpoints := by
  induction answers generalizing c reported with
  | nil => rfl
  | cons answer rest ih =>
    obtain ⟨url, height | height⟩ := answer
    · simp [queryAll, ih, endpoints_recordEndpointResult]
    · cases reported <;> simp [queryAll, ih, reportFirst, endpoints_recordEndpointResult]

theorem endpoints_demote (c : Client) (now : Nat) (urls : List String) :
    (c.demote now urls).endpoints =
      (urls.map fun url => (url, false)).foldl (record now) c.endpoints := by
  induction urls generalizing c with
  | nil => rfl
  | cons url rest ih =>
    refine (ih (c.recordEndpointResult now url false)).trans ?_
    rw [endpoints_recordEndpointResult]
    rfl

theorem endpoints_fetchTipHeight (c : Client) (r : Round) :
    (c.fetchTipHeight r.now r.answers).2.endpoints =
      r.results.foldl (record r.now) c.endpoints := by
  have asked := endpoints_queryAll c r.now false r.answers
  rw [fetchTipHeight, Round.results, foldl_append, ← asked, Round.heights]
  split
  · next none => rw [none]; rfl
  · -- a single height is its own majority
    next height single =>
    have agree : dissenters r.answers height = [] := by
      simp only [dissenters, map_eq_nil_iff, filter_eq_nil_iff]
      rintro ⟨url, _ | other⟩ answered
      · simp
      · have named : other ∈ r.answers.filterMap Prod.snd :=
          mem_filterMap.mpr ⟨_, answered, rfl⟩
        simpa [single] using named
    have own : strictMajority [height] = .clear height := by simp [strictMajority]
    simp only [single, own, agree]
    rfl
  · split
    · next majority => simpa [majority] using endpoints_demote _ _ _
    · next majority => simp [majority]
    · next majority => simp [majority]

section Own

variable {url : String}

def noted (now : Nat) (succeeded : Bool) (e : EndpointHealth) : EndpointHealth :=
  if succeeded then e.recordSuccess else e.recordFailure now

theorem own_record (now : Nat) (endpoints : List EndpointHealth) (result : String × Bool) :
    own (record now endpoints result) url =
      if result.1 = url then (own endpoints url).modifyHead (noted now result.2)
      else own endpoints url := by
  have sameUrl : ∀ e : EndpointHealth, (noted now result.2 e).url = e.url := by
    intro e
    rw [noted]
    split <;> rfl
  induction endpoints with
  | nil => simp [record, own]
  | cons e rest ih =>
    rw [record]
    change own (if e.url = result.1 then noted now result.2 e :: rest else _) url = _
    simp only [own] at ih ⊢
    by_cases here : e.url = result.1
    · rw [if_pos here]
      by_cases wanted : result.1 = url <;> simp [sameUrl, here, wanted]
    · rw [if_neg here]
      by_cases wanted : e.url = url
      · simp [ih, wanted, Ne.symm (wanted ▸ here)]
      · simpa [filter_cons, wanted] using ih

/-- The entries of a url see only its own results. -/
theorem own_foldl_record (now : Nat) (results : List (String × Bool))
    (endpoints : List EndpointHealth) :
    own (results.foldl (record now) endpoints) url =
      (results.filter fun r => r.1 = url).foldl (fun es r => es.modifyHead (noted now r.2))
        (own endpoints url) := by
  induction results generalizing endpoints with
  | nil => rfl
  | cons result rest ih =>
    rw [foldl_cons, ih, own_record]
    by_cases mine : result.1 = url <;> simp [mine]

/-- All entries of a url but the first stay as they are listed. -/
theorem tail_own_foldl_record (now : Nat) (results : List (String × Bool))
    (endpoints : List EndpointHealth) :
    (own (results.foldl (record now) endpoints) url).tail = (own endpoints url).tail ∧
      (own (results.foldl (record now) endpoints) url).length = (own endpoints url).length := by
  induction results generalizing endpoints with
  | nil => exact ⟨rfl, rfl⟩
  | cons result rest ih =>
    obtain ⟨tail, length⟩ := ih (record now endpoints result)
    rw [foldl_cons, tail, length, own_record]
    split <;> simp

theorem tail_own_run (c : Client) (rounds : List Round) :
    (own (c.run rounds).endpoints url).tail = (own c.endpoints url).tail ∧
      (own (c.run rounds).endpoints url).length = (own c.endpoints url).length := by
  induction rounds generalizing c with
  | nil => exact ⟨rfl, rfl⟩
  | cons r rounds ih =>
    have one := @tail_own_foldl_record url r.now r.results c.endpoints
    rw [← endpoints_fetchTipHeight] at one
    obtain ⟨tail, length⟩ := ih (c.fetchTipHeight r.now r.answers).2
    exact ⟨tail.trans one.1, length.trans one.2⟩

/-- A url that answers once and dissents notes a success and then a failure. -/
theorem results_of_dissents {r : Round} (dissents : r.Dissents url)
    (once : r.answers.countP (fun a => a.1 = url) ≤ 1) :
    (r.results.filter fun result => result.1 = url) = [(url, true), (url, false)] := by
  obtain ⟨value, height, majority, answered, differs⟩ := dissents
  have mine : (r.answers.filter fun a => a.1 = url) = [(url, some height)] := by
    have member : (url, some height) ∈ r.answers.filter fun a => a.1 = url := by
      simp [answered]
    rw [countP_eq_length_filter] at once
    obtain ⟨answer, single⟩ := length_eq_one_iff.mp (once.antisymm (length_pos_of_mem member))
    rw [single] at member ⊢
    rw [mem_singleton.mp member]
  have arrived : ((r.answers.map fun a => (a.1, a.2.isSome)).filter fun result => result.1 = url) =
      [(url, true)] := by
    rw [filter_map]
    simp only [Function.comp_def, mine, map_singleton, Option.isSome_some]
  have demoted : (((dissenters r.answers value).map fun u => (u, false)).filter
      fun result : String × Bool => result.1 = url) = [(url, false)] := by
    rw [filter_map, dissenters, filter_map, filter_comm]
    simp only [Function.comp_def, mine]
    simp [differs]
  rw [Round.results, majority, filter_append, arrived, demoted]
  rfl

end Own

/-- A client that has asked nothing yet. -/
def start (urls : List String) : Client := ⟨urls.map .new, .insufficientEndpoints, none⟩

theorem own_start (urls : List String) (url : String) :
    own (start urls).endpoints url = replicate (urls.count url) (.new url) := by
  induction urls with
  | nil => rfl
  | cons head urls ih =>
    simp only [own, start] at ih ⊢
    by_cases same : head = url
    · simp [EndpointHealth.new, same, ih, replicate_succ]
    · simpa [EndpointHealth.new, same] using ih

/-- A healthy endpoint is asked at any time. -/
theorem mem_urlsToAsk {c : Client} {e : EndpointHealth} (member : e ∈ c.endpoints)
    (healthy : e.isHealthy = true) (now : Nat) : e.url ∈ c.urlsToAsk now := by
  have asks : e.url ∈ (c.endpoints.filter fun e => e.isHealthy ||
      decide (demotedRetryMs ≤ now - e.lastFailureMs)).map EndpointHealth.url :=
    mem_map_of_mem (mem_filter.mpr ⟨member, by simp [healthy]⟩)
  rw [urlsToAsk, if_neg (ne_nil_of_mem asks)]
  exact asks

/-- Whatever was asked before, a url that dissents in a round has a healthy entry after it and is
asked again: its answer sets the count back to zero before its dissent is counted. A url listed
once has one answer in a round; of one listed more often only the first entry is ever noted. -/
theorem liar_never_dropped (urls : List String) (url : String) (before : List Round) (last : Round)
    (dissents : last.Dissents url)
    (asked : last.answers.countP (fun a => a.1 = url) ≤ urls.count url) (now : Nat) :
    let after := (start urls).run (before ++ [last])
    (∃ e ∈ after.endpoints, e.url = url ∧ e.isHealthy = true) ∧ url ∈ after.urlsToAsk now ∧
      (urls.Nodup → ∀ e ∈ after.endpoints, e.url = url →
        e.isHealthy = true ∧ e.consecutiveFailures = 1) := by
  intro after
  have listed : 0 < urls.count url := by
    obtain ⟨_, height, _, answered, _⟩ := dissents
    exact (countP_pos_iff.mpr ⟨_, answered, by simp⟩).trans_le asked
  have ends : own after.endpoints url = (last.results.filter fun r => r.1 = url).foldl
      (fun es r => es.modifyHead (noted last.now r.2))
        (own ((start urls).run before).endpoints url) := by
    rw [← own_foldl_record, ← endpoints_fetchTipHeight]
    simp [after, run]
  obtain ⟨tail, length⟩ := @tail_own_run url (start urls) before
  rw [own_start, length_replicate] at length
  rw [own_start, tail_replicate] at tail
  obtain ⟨first, isOwn⟩ : ∃ first, own ((start urls).run before).endpoints url =
      first :: replicate (urls.count url - 1) (.new url) := by
    cases own : own ((start urls).run before).endpoints url with
    | nil =>
      rw [own] at length
      exact absurd length.symm listed.ne'
    | cons first rest => exact ⟨first, by rw [own] at tail; rw [← tail]; rfl⟩
  have mem_own : ∀ {e}, e ∈ own after.endpoints url ↔ e ∈ after.endpoints ∧ e.url = url := by
    simp [own]
  have single : urls.count url = 1 →
      own after.endpoints url = [(first.recordSuccess).recordFailure last.now] := by
    intro one
    rw [ends, results_of_dissents dissents (one ▸ asked), isOwn, one]
    rfl
  obtain ⟨e, member, healthy⟩ : ∃ e ∈ own after.endpoints url, e.isHealthy = true := by
    by_cases one : urls.count url = 1
    · exact ⟨_, by rw [single one]; exact mem_singleton_self _, rfl⟩
    · have later : EndpointHealth.new url ∈ (own after.endpoints url).tail := by
        rw [(tail_own_run (start urls) (before ++ [last])).1, own_start, tail_replicate,
          mem_replicate]
        exact ⟨by omega, rfl⟩
      exact ⟨_, mem_of_mem_tail later, rfl⟩
  obtain ⟨inside, isUrl⟩ := mem_own.mp member
  refine ⟨⟨e, inside, isUrl, healthy⟩, ?_, fun distinct e inside isUrl => ?_⟩
  · exact isUrl ▸ mem_urlsToAsk inside healthy now
  · have one : urls.count url = 1 := (nodup_iff_count_le_one.mp distinct url).antisymm listed
    have isFirst := mem_own.mpr ⟨inside, isUrl⟩
    rw [single one, mem_singleton] at isFirst
    exact isFirst ▸ ⟨rfl, rfl⟩

theorem liar_never_dropped_three :
    let answers : List Answer := [("a", some 100), ("c", some 999), ("b", some 100)]
    let after := (start ["a", "b", "c"]).run ([⟨1, answers⟩, ⟨2, answers⟩] ++ [⟨3, answers⟩])
    "c" ∈ after.urlsToAsk 4 ∧
      ∀ e ∈ after.endpoints, e.url = "c" → e.isHealthy = true ∧ e.consecutiveFailures = 1 := by
  intro answers after
  obtain ⟨-, asked, healthy⟩ := liar_never_dropped ["a", "b", "c"] "c"
    [⟨1, answers⟩, ⟨2, answers⟩] ⟨3, answers⟩ ⟨100, 999, by decide +kernel, by decide, by decide⟩
    (by decide) 4
  exact ⟨asked, healthy (by decide)⟩

/-- Two explorers agree and the third names another height in three rounds: it is still healthy,
with one failure counted. -/
theorem liar_stays_healthy :
    let answers : List Answer := [("a", some 100), ("b", some 100), ("c", some 999)]
    let after := (start ["a", "b", "c"]).run [⟨1, answers⟩, ⟨2, answers⟩, ⟨3, answers⟩]
    strictMajority [100, 100, 999] = .clear 100 ∧ after.urlsToAsk 4 = ["a", "b", "c"] ∧
      own after.endpoints "c" = [⟨"c", 1, true, true, 3⟩] := by
  decide +kernel

/-! ## Who may promote the quorum -/

def feeTolerancePct : Nat := 25

def median (rates : List Nat) : Nat := (rates.insertionSort (· ≤ ·)).getD (rates.length / 2) 0

/-- How far the rates lie from their median, in percent of it. -/
def maxDev (rates : List Nat) : Nat :=
  let m := median rates
  (rates.map fun r => ((r - m) + (m - r)) * 100 / max m 1).foldl max 0

namespace Client

/-- What every query does with its answers: it notes which endpoints gave one. The queries for
outspends and the broadcasts do nothing else to the client. -/
def probe (c : Client) (now : Nat) (results : List (String × Bool)) : Client :=
  results.foldl (fun c r => c.recordEndpointResult now r.1 r.2) c

/-- One round of fee rates: the fast rate of the quote. -/
def fetchFeeQuote (c : Client) (now : Nat) (answers : List Answer) : Option Nat × Client :=
  let c := c.probe now (answers.map fun a => (a.1, a.2.isSome))
  let rates := answers.filterMap Prod.snd
  if rates = [] then (none, { c with lastQuorumState := .insufficientEndpoints })
  else
    (some (median rates),
      if maxDev rates ≤ feeTolerancePct then { c with lastQuorumState := .healthy } else c)

def Promoted (c : Client) : Prop :=
  c.lastQuorumState = .healthy ∨ c.lastQuorumState = .slightDisagreement

end Client

/-- More than half of the heights are the same. -/
def Agreed (heights : List Nat) : Prop := ∃ v, heights.length < 2 * heights.count v

inductive Call
  | tipHeight (now : Nat) (answers : List Answer)
  | feeQuote (now : Nat) (answers : List Answer)
  | other (now : Nat) (results : List (String × Bool))

/-- The client, and the heights of its last completed round. -/
structure World where
  client : Client
  heights : List Nat

namespace World

def step (w : World) : Call → World
  | .tipHeight now answers =>
    ⟨(w.client.fetchTipHeight now answers).2, answers.filterMap Prod.snd⟩
  | .feeQuote now answers => { w with client := (w.client.fetchFeeQuote now answers).2 }
  | .other now results => { w with client := w.client.probe now results }

/-- Fee rates that agree come only while the last round of heights has a majority. -/
def Clear (w : World) : Call → Prop
  | .feeQuote _ answers =>
    answers.filterMap Prod.snd ≠ [] → maxDev (answers.filterMap Prod.snd) ≤ feeTolerancePct →
      Agreed w.heights
  | _ => True

end World

theorem promoted_probe {c : Client} {now : Nat} {results : List (String × Bool)}
    (promoted : (c.probe now results).Promoted) : c.Promoted := by
  induction results generalizing c with
  | nil => exact promoted
  | cons r results ih =>
    have first : (c.recordEndpointResult now r.1 r.2).Promoted := ih promoted
    rw [recordEndpointResult] at first
    split at first
    · simp [Promoted] at first
    · exact first

theorem majority_of_clear {heights : List Nat} {v : Nat}
    (clear : strictMajority heights = .clear v) : heights.length < 2 * heights.count v := by
  rw [strictMajority] at clear
  split at clear
  · next found =>
    cases clear
    simpa using find?_some found
  · split_ifs at clear

theorem agreed_of_promoted {c : Client} {now : Nat} {answers : List Answer}
    (promoted : (c.fetchTipHeight now answers).2.Promoted) :
    Agreed (answers.filterMap Prod.snd) := by
  rw [fetchTipHeight] at promoted
  split at promoted
  · simp [Promoted] at promoted
  · simp [Promoted] at promoted
  · split at promoted
    · next v clear => exact ⟨v, majority_of_clear clear⟩
    · simp [Promoted] at promoted
    · simp [Promoted] at promoted

theorem majority_of_answers {c : Client} {now : Nat} {answers : List Answer} {v : Nat}
    (two : 2 ≤ (answers.filterMap Prod.snd).length)
    (answered : (c.fetchTipHeight now answers).1 = some v) :
    (answers.filterMap Prod.snd).length < 2 * (answers.filterMap Prod.snd).count v := by
  rw [fetchTipHeight] at answered
  split at answered
  · cases answered
  · next single =>
    rw [single] at two
    simp at two
  · split at answered
    · next clear =>
      cases answered
      exact majority_of_clear clear
    · cases answered
    · cases answered

/-- Of all calls only a fee quote can promote the state without a majority. -/
theorem real_step (w : World) (call : Call) (real : w.client.Promoted → Agreed w.heights)
    (clear : w.Clear call) : (w.step call).client.Promoted → Agreed (w.step call).heights := by
  intro promoted
  cases call with
  | tipHeight now answers => exact agreed_of_promoted promoted
  | other now results => exact real (promoted_probe promoted)
  | feeQuote now answers =>
    simp only [World.step, fetchFeeQuote] at promoted
    split_ifs at promoted with none close
    · simp [Promoted] at promoted
    · exact clear none close
    · exact real (promoted_probe promoted)

/-- Over every run of calls whose fee quotes agree only while the last round of heights has a
majority, the state is healthy or slightly divided only if that round has one; and a height that
a round of two or more answers returns is named by more than half of them. -/
theorem quorum_is_real (urls : List String) (calls : List Call)
    (clear : Folds.Meets World.step World.Clear ⟨start urls, []⟩ calls) :
    ((calls.foldl World.step ⟨start urls, []⟩).client.Promoted →
        Agreed (calls.foldl World.step ⟨start urls, []⟩).heights) ∧
      ∀ (c : Client) now answers v, 2 ≤ (answers.filterMap Prod.snd).length →
        (c.fetchTipHeight now answers).1 = some v →
        (answers.filterMap Prod.snd).length < 2 * (answers.filterMap Prod.snd).count v :=
  ⟨clear.invariant (I := fun w => w.client.Promoted → Agreed w.heights) real_step
    fun promoted => by simp [start, Promoted] at promoted,
    fun _ _ _ _ => majority_of_answers⟩

/-- Two of three heights agree, then the fee rates do. -/
theorem quorum_then_fees :
    let answers : List Answer := [("a", some 100), ("b", some 100), ("c", some 101)]
    Agreed (([.tipHeight 1 answers, .feeQuote 2 answers] : List Call).foldl World.step
      ⟨start ["a", "b", "c"], []⟩).heights := by
  intro answers
  exact (quorum_is_real ["a", "b", "c"] [.tipHeight 1 answers, .feeQuote 2 answers]
    ⟨trivial, fun _ _ => ⟨100, by decide⟩, trivial⟩).1 (.inl (by decide +kernel))

/-- Three heights all differ, and fee rates that agree make the state healthy. -/
theorem fees_promote :
    let tip : List Answer := [("a", some 1), ("b", some 2), ("c", some 3)]
    let w := ([.tipHeight 1 tip, .feeQuote 2 [("a", some 5)]] : List Call).foldl World.step
      ⟨start ["a", "b", "c"], []⟩
    w.client.lastQuorumState = .healthy ∧ ¬Agreed w.heights := by
  refine ⟨by decide +kernel, ?_⟩
  rintro ⟨v, most⟩
  change [1, 2, 3].length < 2 * [1, 2, 3].count v at most
  have once := nodup_iff_count_le_one.mp (show [1, 2, 3].Nodup by decide) v
  simp only [length_cons, length_nil] at most
  omega

end Lij.Independent
