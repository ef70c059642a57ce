import Lij.SilentPayment.Model

/-!
# Sender and receiver agree

The outputs of a sender, seen from one receiver. `Made` is the sender's list with
its numbers counted instead of kept in groups, `Paid` the part of it that went to
one scan key: the numbers are then 0, 1, 2 and so on without a gap. A receiver whose
addresses these are finds all of it, since its search stops only at a number without
an output.

A shared scan key with a spend key that is not the receiver's, or that has a label it
does not look for, takes a number the receiver cannot find, and everything behind it
is lost to the search.
-/

namespace Lij.SilentPayment

open Bitcoin Checked Curve List

variable {F P : Type} [Field F] [DecidableEq F] [AddCommGroup P] [DecidableEq P] [Module F P]
variable {S : Scheme F P}

namespace Scheme

/-! ## The tweak -/

omit [DecidableEq F] [DecidableEq P] in
theorem publicKey_negate (key : SecretKey F) :
    S.publicKey key.negate = (S.publicKey key).negate :=
  PublicKey.ext (neg_smul key.scalar S.curve.base)

omit [DecidableEq F] [DecidableEq P] in
/-- The key the chain shows is the key of the secret the sender adds up. -/
theorem inputKey_eq (input : SpInput F) : S.inputKey input = S.publicKey (S.inputSecret input) := by
  rw [inputKey, inputSecret]
  split
  · exact (publicKey_negate input.secret).symm
  · rfl

/-- The sum of the input keys. -/
def inputSum (S : Scheme F P) (inputs : List (SpInput F)) : F :=
  (inputs.map fun input => (S.inputSecret input).scalar).sum

omit [DecidableEq P] in
/-- The running total is the sum so far, and none where it is zero. -/
theorem sumSecrets_eq (inputs : List (SpInput F)) :
    S.sumSecrets inputs = SecretKey.ofScalar (S.inputSum inputs) := by
  have general : ∀ (rest : List (SpInput F)) (s : F),
      rest.foldl S.addSecret (SecretKey.ofScalar s) =
        SecretKey.ofScalar (s + (rest.map fun input => (S.inputSecret input).scalar).sum) := by
    intro rest
    induction rest with
    | nil =>
      intro s
      rw [map_nil, sum_nil, add_zero]
      rfl
    | cons input rest ih =>
      intro s
      rw [foldl_cons, map_cons, sum_cons, ← add_assoc, ← ih]
      congr 1
      by_cases zero : s = 0
      · rw [zero, zero_add, SecretKey.ofScalar_of_ne (S.inputSecret input).ne_zero]
        simp [SecretKey.ofScalar, addSecret]
      · rw [SecretKey.ofScalar_of_ne zero]
        rfl
  have start := general inputs 0
  rw [zero_add] at start
  rw [sumSecrets, inputSum, ← start]
  congr 1
  simp [SecretKey.ofScalar]

omit [DecidableEq F] in
theorem combineKeys_eq (inputs : List (SpInput F)) :
    PublicKey.combineKeys (inputs.map S.inputKey) =
      PublicKey.ofPoint (S.inputSum inputs • S.curve.base) := by
  rw [PublicKey.combineKeys, inputSum, sum_smul, map_map, map_map]
  congr 2
  refine map_congr_left fun input _ => ?_
  rw [Function.comp_apply, inputKey_eq]
  rfl

/-- The hash of the inputs is a scalar other than zero. -/
structure HashedTo (S : Scheme F P) (inputs : List (SpInput F)) (hash : F) : Prop where
  ne_zero : hash ≠ 0
  value : ∃ outpoint, outpointL (inputs.map SpInput.outpoint) = some outpoint ∧
    S.inputHash outpoint (S.inputSum inputs • S.curve.base) = some hash

variable {inputs : List (SpInput F)} {hash : F}

omit [DecidableEq P] in
theorem inputScalar_ok (sum : S.inputSum inputs ≠ 0) (hashed : S.HashedTo inputs hash) :
    S.inputScalar inputs = .ok ⟨S.inputSum inputs * hash, mul_ne_zero sum hashed.ne_zero⟩ := by
  obtain ⟨outpoint, least, value⟩ := hashed.value
  have total := (sumSecrets_eq inputs).trans (SecretKey.ofScalar_of_ne sum)
  exact bind_eq_ok.mpr ⟨_, context_eq_ok.mpr total, bind_eq_ok.mpr ⟨_, context_eq_ok.mpr least,
    bind_eq_ok.mpr ⟨_, context_eq_ok.mpr value, context_eq_ok.mpr (SecretKey.ofScalar_of_ne _)⟩⟩⟩

omit [DecidableEq F] [DecidableEq P] in
theorem isEmpty_of_inputSum (sum : S.inputSum inputs ≠ 0) : inputs.isEmpty = false := by
  cases inputs with
  | nil => exact absurd rfl sum
  | cons _ _ => rfl

omit [DecidableEq F] in
theorem tweakFromInputs_some (sum : S.inputSum inputs ≠ 0) (hashed : S.HashedTo inputs hash) :
    S.tweakFromInputs (inputs.map S.inputKey) (inputs.map SpInput.outpoint) =
      some ⟨hash • S.inputSum inputs • S.curve.base,
        smul_ne_zero hashed.ne_zero (smul_ne_zero sum S.curve.base_ne_zero)⟩ := by
  obtain ⟨outpoint, least, value⟩ := hashed.value
  rw [tweakFromInputs, isEmpty_map, isEmpty_map, isEmpty_of_inputSum sum, combineKeys_eq,
    PublicKey.ofPoint_of_ne (smul_ne_zero sum S.curve.base_ne_zero), least]
  exact Option.bind_eq_some_iff.mpr ⟨hash, value, PublicKey.ofPoint_of_ne _⟩

/-- The point a scalar shares with a scan key. -/
def sharedPoint (k : SecretKey F) (scan : PublicKey P) : PublicKey P :=
  ⟨k.scalar • scan.point, smul_ne_zero k.ne_zero scan.ne_zero⟩

omit [DecidableEq F] in
/-- The receiver has the sender's point from the tweak. -/
theorem ecdh_tweak (keys : SpKeys F) (sum : S.inputSum inputs ≠ 0) (nonzero : hash ≠ 0) :
    keys.ecdh (P := P) ⟨hash • S.inputSum inputs • S.curve.base,
        smul_ne_zero nonzero (smul_ne_zero sum S.curve.base_ne_zero)⟩ =
      .ok (sharedPoint ⟨S.inputSum inputs * hash, mul_ne_zero sum nonzero⟩ (keys.scanPub S)) := by
  have same : keys.scan.scalar • hash • S.inputSum inputs • S.curve.base =
      (S.inputSum inputs * hash) • keys.scan.scalar • S.curve.base := by
    simp only [smul_smul]
    congr 1
    ring
  exact context_eq_ok.mpr ((congrArg PublicKey.ofPoint same).trans (PublicKey.ofPoint_of_ne _))

/-! ## The outputs of one scan key -/

/-- How many of the recipients have the scan key. -/
def countScan (addresses : List (SpAddress P)) (scan : PublicKey P) : Nat :=
  (addresses.filter fun address => address.scan = scan).length

theorem countScan_append_same (done : List (SpAddress P)) (address : SpAddress P) :
    countScan (done ++ [address]) address.scan = countScan done address.scan + 1 := by
  simp [countScan]

theorem countScan_append_other (done : List (SpAddress P)) {address : SpAddress P}
    {scan : PublicKey P} (other : address.scan ≠ scan) :
    countScan (done ++ [address]) scan = countScan done scan := by
  simp [countScan, other]

/-- The groups after the recipients so far: each with its count. -/
def Represents (k : SecretKey F) (groups : List (Group P)) (done : List (SpAddress P)) : Prop :=
  ∀ scan, groups.find? (fun group => group.scan = scan) =
    if countScan done scan = 0 then none else some ⟨scan, sharedPoint k scan, countScan done scan⟩

variable {k : SecretKey F} {groups : List (Group P)} {done : List (SpAddress P)}

omit [DecidableEq F] in
theorem groupOf_ok (represents : Represents k groups done) (scan : PublicKey P) :
    groupOf groups k scan = .ok ⟨scan, sharedPoint k scan, countScan done scan⟩ := by
  rw [groupOf, represents scan]
  by_cases first : countScan done scan = 0
  · rw [if_pos first, first]
    exact bind_eq_ok.mpr ⟨_, context_eq_ok.mpr (PublicKey.ofPoint_of_ne _), rfl⟩
  · rw [if_neg first]

omit [DecidableEq F] in
theorem Represents.advance (represents : Represents k groups done) (address : SpAddress P) :
    Represents k
      (advance groups ⟨address.scan, sharedPoint k address.scan, countScan done address.scan⟩)
      (done ++ [address]) := by
  intro scan
  rw [Scheme.advance, find?_cons]
  by_cases same : address.scan = scan
  · rw [← same, countScan_append_same]
    simp
  · have skip : (groups.filter fun other => other.scan ≠ address.scan).find?
        (fun group => group.scan = scan) = groups.find? fun group => group.scan = scan := by
      rw [find?_filter]
      congr 1
      funext group
      by_cases here : group.scan = scan
      · simp [here, Ne.symm same]
      · simp [here]
    rw [countScan_append_other done same, ← represents scan, ← skip]
    simp [same]

/-- The sender's scripts for the recipients behind those so far, each with its number. -/
inductive Made (S : Scheme F P) (k : SecretKey F) :
    List (SpAddress P) → List (SpAddress P) → List Script → Prop
  | nil (done : List (SpAddress P)) : Made S k done [] []
  | cons {done rest : List (SpAddress P)} {address : SpAddress P} {scripts : List Script} {t : F}
      (secret : S.sharedSecret (sharedPoint k address.scan).point (countScan done address.scan) =
        some t)
      (finite : address.spend.point + t • S.curve.base ≠ 0)
      (others : Made S k (done ++ [address]) rest scripts) :
      Made S k done (address :: rest)
        (S.script ⟨address.spend.point + t • S.curve.base, finite⟩ :: scripts)

omit [DecidableEq F] in
theorem outputScript_ok {ecdh spend : PublicKey P} {number : Nat} {t : F}
    (secret : S.sharedSecret ecdh.point number = some t)
    (finite : spend.point + t • S.curve.base ≠ 0) :
    S.outputScript ecdh spend number = .ok (S.script ⟨spend.point + t • S.curve.base, finite⟩) :=
  bind_eq_ok.mpr ⟨t, context_eq_ok.mpr secret,
    bind_eq_ok.mpr ⟨_, context_eq_ok.mpr (PublicKey.ofPoint_of_ne finite), rfl⟩⟩

/-- Each recipient's scalar is in range and its key is a key. -/
def Derivable (S : Scheme F P) (k : SecretKey F) :
    List (SpAddress P) → List (SpAddress P) → Prop
  | _, [] => True
  | done, address :: rest =>
    (∃ t, S.sharedSecret (sharedPoint k address.scan).point (countScan done address.scan) =
        some t ∧ address.spend.point + t • S.curve.base ≠ 0) ∧
      Derivable S k (done ++ [address]) rest

omit [DecidableEq F] in
theorem deriveEach_ok {rest : List (SpAddress P)} (represents : Represents k groups done)
    (derivable : Derivable S k done rest) :
    ∃ scripts, S.deriveEach k groups rest = .ok scripts ∧ Made S k done rest scripts := by
  induction rest generalizing groups done with
  | nil => exact ⟨[], rfl, .nil done⟩
  | cons address rest ih =>
    obtain ⟨⟨t, secret, finite⟩, later⟩ := derivable
    obtain ⟨scripts, derived, made⟩ := ih (represents.advance address) later
    exact ⟨_, bind_eq_ok.mpr ⟨_, groupOf_ok represents _, bind_eq_ok.mpr
      ⟨_, outputScript_ok secret finite, bind_eq_ok.mpr ⟨_, derived, rfl⟩⟩⟩,
      .cons secret finite made⟩

/-- The scripts of the recipients with a scan key. -/
def madeFor (scan : PublicKey P) (addresses : List (SpAddress P)) (scripts : List Script) :
    List Script :=
  ((addresses.zip scripts).filter fun entry => entry.1.scan = scan).map Prod.snd

/-- Scripts of one shared point with consecutive numbers. -/
inductive Paid (S : Scheme F P) (ecdh : PublicKey P) :
    Nat → List (SpAddress P) → List Script → Prop
  | nil (number : Nat) : Paid S ecdh number [] []
  | cons {number : Nat} {rest : List (SpAddress P)} {address : SpAddress P}
      {scripts : List Script} {t : F} (secret : S.sharedSecret ecdh.point number = some t)
      (finite : address.spend.point + t • S.curve.base ≠ 0)
      (others : Paid S ecdh (number + 1) rest scripts) :
      Paid S ecdh number (address :: rest)
        (S.script ⟨address.spend.point + t • S.curve.base, finite⟩ :: scripts)

omit [DecidableEq F] [DecidableEq P] in
theorem Paid.taproot {ecdh : PublicKey P} {number : Nat} {addresses : List (SpAddress P)}
    {scripts : List Script} (paid : Paid S ecdh number addresses scripts) :
    ∀ script ∈ scripts, ∃ key : Bytes, key.length = 32 ∧ script = 0x51 :: 0x20 :: key := by
  induction paid with
  | nil number =>
    intro script member
    cases member
  | cons secret finite others ih =>
    intro script member
    obtain rfl | later := mem_cons.mp member
    · exact ⟨_, Bytes.length_of256 _, rfl⟩
    · exact ih script later

omit [DecidableEq F] in
/-- What went to one scan key has consecutive numbers. -/
theorem Made.paid {rest : List (SpAddress P)} {scripts : List Script}
    (made : Made S k done rest scripts) (scan : PublicKey P) :
    Paid S (sharedPoint k scan) (countScan done scan)
      (rest.filter fun address => address.scan = scan) (madeFor scan rest scripts) := by
  induction made with
  | nil done => exact .nil _
  | @cons done rest address scripts t secret finite others ih =>
    by_cases same : address.scan = scan
    · rw [same] at secret
      rw [← same, countScan_append_same, same] at ih
      have paid := Paid.cons secret finite ih
      simpa [madeFor, same] using paid
    · rw [countScan_append_other done same] at ih
      simpa [madeFor, same] using ih

end Scheme

open Scheme

/-! ## Taproot outputs -/

theorem tapKey_eq_some {script : Script} {key : Bytes} :
    tapKey script = some key ↔ script = 0x51 :: 0x20 :: key ∧ key.length = 32 := by
  rw [tapKey]
  constructor
  · intro read
    split at read
    · rename_i taproot
      rw [Script.isP2tr, Bool.and_eq_true, beq_iff_eq, beq_iff_eq] at taproot
      obtain ⟨long, front⟩ := taproot
      obtain rfl := Option.some.inj read
      refine ⟨?_, by rw [length_drop, long]⟩
      have whole := take_append_drop 2 script
      rw [front] at whole
      exact whole.symm
    · cases read
  · rintro ⟨rfl, long⟩
    have taproot : Script.isP2tr (0x51 :: 0x20 :: key) = true := by
      simp [Script.isP2tr, long]
    rw [if_pos taproot]
    rfl

/-- The script of a taproot output. -/
def TapOut.script (out : TapOut) : Script := 0x51 :: 0x20 :: out.key

theorem TapOut.script_eq_p2tr {out : TapOut} {x : BitVec 256} :
    out.script = p2tr x ↔ out.key = Bytes.of256 x := by
  simp [TapOut.script, p2tr]

/-- A block pays an amount to a script at a place. -/
def Pays (computeTxid : Transaction → Txid) (txs : List Transaction) (txid : Txid)
    (vout value : Nat) (script : Script) : Prop :=
  ∃ tx ∈ txs, computeTxid tx = txid ∧ tx.output[vout]? = some ⟨value, script⟩

theorem mem_tapOuts {computeTxid : Transaction → Txid} {txs : List Transaction} {out : TapOut} :
    out ∈ tapOuts computeTxid txs ↔
      out.key.length = 32 ∧ Pays computeTxid txs out.txid out.vout out.value out.script := by
  simp only [tapOuts, mem_flatMap, mem_filterMap, Option.map_eq_some_iff, tapKey_eq_some]
  constructor
  · rintro ⟨tx, member, entry, inside, key, ⟨script, long⟩, rfl⟩
    refine ⟨long, tx, member, rfl, ?_⟩
    rw [mem_zipIdx_iff_getElem?.mp inside, TapOut.script, ← script]
  · rintro ⟨long, tx, member, txid, inside⟩
    refine ⟨tx, member, (⟨out.value, out.script⟩, out.vout), ?_, out.key, ⟨rfl, long⟩, ?_⟩
    · exact mem_zipIdx_iff_getElem?.mpr inside
    · rw [txid]

namespace SpKeys

variable {keys : SpKeys F} {labels : List (Nat × F)} {outs : List TapOut} {ecdh : PublicKey P}

/-! ## The search -/

/-- The address is the receiver's: its plain one or one of a label it looks for. -/
def Owns (S : Scheme F P) (keys : SpKeys F) (labels : List (Nat × F)) (address : SpAddress P) :
    Prop :=
  address.spend = keys.spendPub S ∨
    ∃ label ∈ labels, address.spend.point = (keys.spendPub S).point + label.2 • S.curve.base

/-- The scalar falls on none of the values at which a key, plain or labelled, degenerates. -/
structure Regular (keys : SpKeys F) (labels : List (Nat × F)) (t : F) : Prop where
  ne_zero : t ≠ 0
  spend : keys.spend.scalar + t ≠ 0
  label : ∀ label ∈ labels, t + label.2 ≠ 0

omit [DecidableEq F] [DecidableEq P] in
theorem spendPub_add (S : Scheme F P) (keys : SpKeys F) (t : F) :
    (keys.spendPub S).point + t • S.curve.base = (keys.spend.scalar + t) • S.curve.base :=
  (add_smul _ _ _).symm

variable {number : Nat}

omit [DecidableEq F] in
theorem outputKPoint_ok {t : F} (secret : S.sharedSecret ecdh.point number = some t)
    (finite : (keys.spendPub S).point + t • S.curve.base ≠ 0) : keys.outputKPoint S ecdh number =
      .ok (t, ⟨(keys.spendPub S).point + t • S.curve.base, finite⟩) :=
  bind_eq_ok.mpr ⟨t, context_eq_ok.mpr secret,
    bind_eq_ok.mpr ⟨_, context_eq_ok.mpr (PublicKey.ofPoint_of_ne finite), rfl⟩⟩

omit [DecidableEq F] in
theorem outputKPoint_eq_ok {t : F} {p : PublicKey P}
    (point : keys.outputKPoint S ecdh number = .ok (t, p)) :
    S.sharedSecret ecdh.point number = some t ∧
      p.point = (keys.spendPub S).point + t • S.curve.base := by
  simp only [outputKPoint, bind_eq_ok, context_eq_ok, pure_eq_ok, Prod.mk.injEq] at point
  obtain ⟨_, secret, _, sum, rfl, rfl⟩ := point
  exact ⟨secret, PublicKey.ofPoint_eq_some sum⟩

/-- A coin stands for an output. -/
def Finds (coin : SpFound F) (out : TapOut) : Prop :=
  coin.txid = out.txid ∧ coin.vout = out.vout ∧ coin.valueSats = out.value ∧
    coin.script = out.script

variable {coin : SpFound F}

omit [DecidableEq F] [DecidableEq P] in
theorem mem_coinsAt {p : PublicKey P} {t : F} {label : Option Nat} :
    coin ∈ coinsAt S outs p t number label ↔
      ∃ out ∈ outs, out.script = S.script p ∧
        coin = ⟨out.txid, out.vout, out.value, t, number, S.script p, label = some 0, label⟩ := by
  simp only [coinsAt, mem_map, mem_filter, decide_eq_true_eq, Scheme.script,
    TapOut.script_eq_p2tr]
  constructor
  · rintro ⟨out, ⟨inside, same⟩, rfl⟩
    exact ⟨out, inside, same, rfl⟩
  · rintro ⟨out, inside, same, rfl⟩
    exact ⟨out, ⟨inside, same⟩, rfl⟩

/-- What is added to a number's scalar: nothing, or a label. -/
def Shift (labels : List (Nat × F)) (c : F) : Prop := c = 0 ∨ ∃ label ∈ labels, c = label.2

/-- The coin is the receiver's output of a number under a shift of its scalar. -/
structure Belongs (S : Scheme F P) (keys : SpKeys F) (labels : List (Nat × F)) (outs : List TapOut)
    (ecdh : PublicKey P) (number : Nat) (coin : SpFound F) : Prop where
  scalar : ∃ t c, S.sharedSecret ecdh.point number = some t ∧ Shift labels c ∧ coin.tK = t + c
  key : ∃ finite : (keys.spendPub S).point + coin.tK • S.curve.base ≠ 0,
    coin.script = S.script ⟨(keys.spendPub S).point + coin.tK • S.curve.base, finite⟩
  output : ∃ out ∈ outs, Finds coin out

omit [DecidableEq F] [DecidableEq P] in
theorem belongs_of_mem_coinsAt {t c : F} {p : PublicKey P} {label : Option Nat}
    (secret : S.sharedSecret ecdh.point number = some t) (shift : Shift labels c)
    (point : p.point = (keys.spendPub S).point + (t + c) • S.curve.base)
    (member : coin ∈ coinsAt S outs p (t + c) number label) :
    Belongs S keys labels outs ecdh number coin := by
  obtain ⟨out, inside, same, rfl⟩ := mem_coinsAt.mp member
  refine ⟨⟨t, c, secret, shift, rfl⟩, ⟨point ▸ p.ne_zero, ?_⟩, out, inside, rfl, rfl, rfl,
    same.symm⟩
  exact congrArg S.script (PublicKey.ext point)

theorem belongs_of_mem_coinsOf {t : F} {p : PublicKey P}
    (secret : S.sharedSecret ecdh.point number = some t)
    (point : p.point = (keys.spendPub S).point + t • S.curve.base)
    (member : coin ∈ coinsOf S outs labels p t number) :
    Belongs S keys labels outs ecdh number coin := by
  obtain plain | labelled := mem_append.mp member
  · refine belongs_of_mem_coinsAt (c := 0) secret (.inl rfl) ?_ (by rwa [add_zero])
    rw [add_zero]
    exact point
  · obtain ⟨label, used, inside⟩ := mem_flatMap.mp labelled
    rw [labelCoins] at inside
    split at inside
    · rename_i q sum shifted total
      have sumValue : sum.scalar = t + label.2 := by
        obtain ⟨first, read, total⟩ := Option.bind_eq_some_iff.mp total
        rw [SecretKey.ofScalar_eq_some total, SecretKey.ofScalar_eq_some read]
      have shiftedValue : q.point = p.point + label.2 • S.curve.base :=
        PublicKey.ofPoint_eq_some shifted
      rw [sumValue] at inside
      refine belongs_of_mem_coinsAt secret (.inr ⟨label, used, rfl⟩) ?_ inside
      rw [shiftedValue, point, add_smul, add_assoc]
    · cases inside

omit [DecidableEq F] [DecidableEq P] in
theorem Regular.finite {t : F} (regular : Regular keys labels t) :
    (keys.spendPub S).point + t • S.curve.base ≠ 0 := by
  rw [spendPub_add]
  exact smul_ne_zero regular.spend S.curve.base_ne_zero

omit [DecidableEq F] in
/-- An owned address's key of a number is the receiver's own or a label's tweak of it. -/
theorem Owns.key {t : F} {address : SpAddress P} (owns : Owns S keys labels address)
    (finite : address.spend.point + t • S.curve.base ≠ 0)
    (whole : (keys.spendPub S).point + t • S.curve.base ≠ 0) :
    (⟨address.spend.point + t • S.curve.base, finite⟩ : PublicKey P) =
        ⟨(keys.spendPub S).point + t • S.curve.base, whole⟩ ∨
      ∃ label ∈ labels, PublicKey.addExpTweak S.curve
        ⟨(keys.spendPub S).point + t • S.curve.base, whole⟩ label.2 =
          some ⟨address.spend.point + t • S.curve.base, finite⟩ := by
  obtain plain | ⟨label, used, point⟩ := owns
  · refine .inl (PublicKey.ext ?_)
    exact congrArg (fun spend => PublicKey.point spend + t • S.curve.base) plain
  · refine .inr ⟨label, used, ?_⟩
    rw [PublicKey.addExpTweak]
    simp only [point, add_right_comm (keys.spendPub S).point (label.2 • _)] at finite ⊢
    exact PublicKey.ofPoint_of_ne finite

/-- An output to one of the receiver's addresses is among the coins of its number. -/
theorem exists_coin {t : F} {address : SpAddress P} (owns : Owns S keys labels address)
    (regular : Regular keys labels t) (finite : address.spend.point + t • S.curve.base ≠ 0)
    {out : TapOut} (inside : out ∈ outs)
    (same : out.script = S.script ⟨address.spend.point + t • S.curve.base, finite⟩) :
    ∃ coin ∈ coinsOf S outs labels ⟨(keys.spendPub S).point + t • S.curve.base, regular.finite⟩ t
      number, Finds coin out := by
  obtain plain | ⟨label, used, shifted⟩ := owns.key finite regular.finite
  · rw [plain] at same
    exact ⟨_, mem_append_left _ (mem_coinsAt.mpr ⟨out, inside, same, rfl⟩), rfl, rfl, rfl,
      same.symm⟩
  · have total : ((SecretKey.ofScalar t).bind fun key => key.addTweak label.2) =
        some ⟨t + label.2, regular.label label used⟩ := by
      rw [SecretKey.ofScalar_of_ne regular.ne_zero]
      exact SecretKey.ofScalar_of_ne (regular.label label used)
    refine ⟨⟨out.txid, out.vout, out.value, t + label.2, number, _, some label.1 = some 0,
      some label.1⟩, mem_append_right _ (mem_flatMap.mpr ⟨label, used, ?_⟩), rfl, rfl,
        rfl, same.symm⟩
    rw [labelCoins, shifted, total]
    exact mem_coinsAt.mpr ⟨out, inside, same, rfl⟩

/-- Whatever the search reports belongs to the receiver. -/
theorem belongs_of_mem_searchFrom {left first : Nat}
    (member : coin ∈ keys.searchFrom S outs labels ecdh left first) :
    ∃ number, number < first + left ∧ Belongs S keys labels outs ecdh number coin := by
  induction left generalizing first with
  | zero => cases member
  | succ left ih =>
    rw [searchFrom] at member
    split at member
    · cases member
    · rename_i t p point
      obtain ⟨secret, value⟩ := outputKPoint_eq_ok point
      dsimp only at member
      split at member
      · cases member
      · obtain here | later := mem_append.mp member
        · exact ⟨first, by omega, belongs_of_mem_coinsOf secret value here⟩
        · obtain ⟨number, inside, belongs⟩ := ih later
          exact ⟨number, by omega, belongs⟩

/-- The search goes on as long as numbers are paid, so it reaches all of them. -/
theorem searchFrom_complete {left first : Nat} {addresses : List (SpAddress P)}
    {scripts : List Script} (paid : Paid S ecdh first addresses scripts)
    (owns : ∀ address ∈ addresses, Owns S keys labels address)
    (regular : ∀ number t, number < first + addresses.length →
      S.sharedSecret ecdh.point number = some t → Regular keys labels t)
    (few : addresses.length ≤ left)
    (there : ∀ script ∈ scripts, ∃ out ∈ outs, out.script = script) :
    ∀ out ∈ outs, out.script ∈ scripts →
      ∃ coin ∈ keys.searchFrom S outs labels ecdh left first, Finds coin out := by
  induction paid generalizing left with
  | nil number =>
    intro out _ member
    cases member
  | @cons number rest address scripts t secret finite others ih =>
    obtain ⟨own, owns⟩ := forall_mem_cons.mp owns
    obtain ⟨⟨witness, inside, paidHere⟩, there⟩ := forall_mem_cons.mp there
    cases left with
    | zero => cases few
    | succ left =>
      have safe := regular number t (by rw [length_cons]; omega) secret
      have goesOn : (coinsOf S outs labels
          ⟨(keys.spendPub S).point + t • S.curve.base, safe.finite⟩ t number).isEmpty = false := by
        obtain ⟨coin, member, _⟩ := exists_coin own safe finite inside paidHere
        exact isEmpty_eq_false_iff_exists_mem.mpr ⟨coin, member⟩
      intro out place member
      rw [searchFrom, outputKPoint_ok secret safe.finite]
      dsimp only
      rw [goesOn]
      obtain same | later := mem_cons.mp member
      · obtain ⟨coin, member, finds⟩ := exists_coin own safe finite place same
        exact ⟨coin, mem_append_left _ member, finds⟩
      · obtain ⟨coin, member, finds⟩ := ih owns
          (fun later t before => regular later t (by rw [length_cons]; omega))
          (Nat.le_of_succ_le_succ few) there out place later
        exact ⟨coin, mem_append_right _ member, finds⟩

/-! ## What a found scalar gives -/

omit [DecidableEq F] in
theorem scriptFor_of_belongs (belongs : Belongs S keys labels outs ecdh number coin) :
    keys.scriptFor S coin.tK = .ok coin.script := by
  obtain ⟨finite, script⟩ := belongs.key
  rw [scriptFor, PublicKey.addExpTweak, PublicKey.ofPoint_of_ne finite, script]
  rfl

omit [DecidableEq F] [DecidableEq P] in
theorem xOnly_publicKey_negate (key : SecretKey F) :
    S.script (S.publicKey key.negate) = S.script (S.publicKey key) := by
  rw [publicKey_negate]
  exact congrArg p2tr (S.curve.xOnly_neg _)

omit [DecidableEq P] in
theorem spendSecret_of_belongs (belongs : Belongs S keys labels outs ecdh number coin) :
    ∃ key, keys.spendSecret S coin.tK = .ok key ∧ S.script (S.publicKey key) = coin.script := by
  obtain ⟨finite, script⟩ := belongs.key
  have nonzero : keys.spend.scalar + coin.tK ≠ 0 := by
    intro zero
    rw [spendPub_add, zero, zero_smul] at finite
    exact finite rfl
  have point : S.script (S.publicKey ⟨keys.spend.scalar + coin.tK, nonzero⟩) = coin.script := by
    rw [script]
    exact congrArg S.script (PublicKey.ext (spendPub_add S keys coin.tK).symm)
  rw [spendSecret, SecretKey.addTweak, SecretKey.ofScalar_of_ne nonzero]
  refine ⟨_, rfl, ?_⟩
  split
  · rw [xOnly_publicKey_negate]
    exact point
  · exact point

omit [DecidableEq F] in
/-- The first number's script is among the candidates. -/
theorem candidate_of_paid {address : SpAddress P} {rest : List (SpAddress P)}
    {scripts : List Script} {tweak : PublicKey P} (shared : keys.ecdh tweak = .ok ecdh)
    (paid : Paid S ecdh 0 (address :: rest) scripts) (owns : Owns S keys labels address)
    (regular : ∀ t, S.sharedSecret ecdh.point 0 = some t → Regular keys labels t) :
    ∃ script ∈ keys.candidateScripts S [tweak] labels, script ∈ scripts := by
  cases paid with
  | @cons number rest address scripts t secret finite others =>
    have whole := (regular t secret).finite (S := S)
    refine ⟨_, ?_, mem_cons_self⟩
    rw [candidateScripts, flatMap_singleton, shared]
    dsimp only
    rw [outputKPoint_ok secret whole]
    obtain plain | ⟨label, used, shifted⟩ := owns.key finite whole
    · rw [plain]
      exact mem_cons_self
    · exact mem_cons_of_mem _ (mem_filterMap.mpr ⟨label, used, by rw [shifted]; rfl⟩)

omit [DecidableEq F] in
/-- A label's address is one the receiver owns when it looks for the label. -/
theorem owns_of_labelKey {ms : List Nat} {m : Nat} (used : m ∈ ms) {address : SpAddress P}
    (labelled : keys.labelKey S m = .ok address.spend) :
    Owns S keys (keys.labelSet S ms) address := by
  rw [labelKey] at labelled
  obtain ⟨t, tweak, sum⟩ := bind_eq_ok.mp labelled
  refine .inr ⟨(m, t), ?_, PublicKey.ofPoint_eq_some (context_eq_ok.mp sum)⟩
  refine mem_filterMap.mpr ⟨m, mem_eraseDups.mpr used, ?_⟩
  rw [tweak]
  rfl

end SpKeys

/-! ## The agreement -/

/-- The scalar of a sender whose hashes are regular. -/
def sendScalar {inputs : List (SpInput F)} {hash : F} (sum : S.inputSum inputs ≠ 0)
    (hashed : S.HashedTo inputs hash) : SecretKey F :=
  ⟨S.inputSum inputs * hash, mul_ne_zero sum hashed.ne_zero⟩

/-- The block's other outputs have none of the keys the receiver tries. -/
def NoCoincidence (S : Scheme F P) (keys : SpKeys F) (labels : List (Nat × F)) (ecdh : PublicKey P)
    (made : List Script) (computeTxid : Transaction → Txid) (txs : List Transaction) : Prop :=
  ∀ txid vout value script, Pays computeTxid txs txid vout value script → script ∉ made →
    ∀ number < kMax, ∀ t c, S.sharedSecret ecdh.point number = some t → SpKeys.Shift labels c →
      script ≠ p2tr (S.curve.xOnly ((keys.spendPub S).point + (t + c) • S.curve.base))

/-- The receiver finds the outputs made for it and no other, each with the scalar of its script and
of the key that spends it. -/
structure Received (S : Scheme F P) (keys : SpKeys F) (labels : List (Nat × F))
    (tweak : PublicKey P) (made : List Script) (computeTxid : Transaction → Txid)
    (txs : List Transaction) : Prop where
  exact : ∀ txid vout value script,
    (∃ coin ∈ keys.findInBlock S computeTxid [tweak] txs labels, coin.txid = txid ∧
        coin.vout = vout ∧ coin.valueSats = value ∧ coin.script = script) ↔
      Pays computeTxid txs txid vout value script ∧ script ∈ made
  scalars : ∀ coin ∈ keys.findInBlock S computeTxid [tweak] txs labels,
    keys.scriptFor S coin.tK = .ok coin.script ∧
      ∃ key, keys.spendSecret S coin.tK = .ok key ∧ S.script (S.publicKey key) = coin.script

open SpKeys

theorem received_of_paid {keys : SpKeys F} {labels : List (Nat × F)} {tweak ecdh : PublicKey P}
    {addresses : List (SpAddress P)} {made : List Script} {computeTxid : Transaction → Txid}
    {txs : List Transaction} (shared : keys.ecdh tweak = .ok ecdh)
    (paid : Paid S ecdh 0 addresses made)
    (owns : ∀ address ∈ addresses, Owns S keys labels address)
    (regular : ∀ number t, number < addresses.length →
      S.sharedSecret ecdh.point number = some t → Regular keys labels t)
    (few : addresses.length < kMax)
    (mined : ∀ script ∈ made, ∃ txid vout value, Pays computeTxid txs txid vout value script)
    (apart : NoCoincidence S keys labels ecdh made computeTxid txs) :
    Received S keys labels tweak made computeTxid txs := by
  have search : keys.findInBlock S computeTxid [tweak] txs labels =
      keys.searchFrom S (tapOuts computeTxid txs) labels ecdh kMax 0 := by
    rw [findInBlock, findByKeysCapped, flatMap_singleton, shared]
    rfl
  refine ⟨fun txid vout value script => ?_, fun coin member => ?_⟩
  · rw [search]
    constructor
    · rintro ⟨coin, member, rfl, rfl, rfl, rfl⟩
      obtain ⟨number, inside, belongs⟩ := belongs_of_mem_searchFrom member
      obtain ⟨out, place, txid, vout, value, script⟩ := belongs.output
      have pays : Pays computeTxid txs coin.txid coin.vout coin.valueSats coin.script := by
        rw [txid, vout, value, script]
        exact (mem_tapOuts.mp place).2
      refine ⟨pays, ?_⟩
      by_contra other
      obtain ⟨t, c, secret, shift, scalar⟩ := belongs.scalar
      obtain ⟨finite, key⟩ := belongs.key
      refine apart _ _ _ _ pays other number (by omega) t c secret shift ?_
      rw [key, ← scalar]
      rfl
    · rintro ⟨pays, member⟩
      obtain ⟨key, long, rfl⟩ := paid.taproot script member
      have place : (⟨key, txid, vout, value⟩ : TapOut) ∈ tapOuts computeTxid txs :=
        mem_tapOuts.mpr ⟨long, pays⟩
      have there : ∀ script ∈ made, ∃ out ∈ tapOuts computeTxid txs, out.script = script := by
        intro script inside
        obtain ⟨key, long, rfl⟩ := paid.taproot script inside
        obtain ⟨txid, vout, value, pays⟩ := mined _ inside
        exact ⟨⟨key, txid, vout, value⟩, mem_tapOuts.mpr ⟨long, pays⟩, rfl⟩
      obtain ⟨coin, found, finds⟩ := searchFrom_complete paid owns
        (fun number t inside => regular number t (by omega)) few.le there _ place member
      exact ⟨coin, found, finds⟩
  · rw [search] at member
    obtain ⟨number, _, belongs⟩ := belongs_of_mem_searchFrom member
    exact ⟨scriptFor_of_belongs belongs, spendSecret_of_belongs belongs⟩

theorem deriveOutputScripts_ok {inputs : List (SpInput F)} {hash : F}
    {addresses : List (SpAddress P)} (sum : S.inputSum inputs ≠ 0)
    (hashed : S.HashedTo inputs hash)
    (derivable : S.Derivable (sendScalar sum hashed) [] addresses) :
    ∃ scripts, S.deriveOutputScripts inputs addresses = .ok scripts ∧
      Made S (sendScalar sum hashed) [] addresses scripts := by
  cases addresses with
  | nil => exact ⟨[], rfl, .nil []⟩
  | cons address rest =>
    have fresh : Represents (P := P) (sendScalar sum hashed) [] [] := fun scan => rfl
    obtain ⟨scripts, derived, made⟩ := deriveEach_ok fresh derivable
    refine ⟨scripts, ?_, made⟩
    rw [deriveOutputScripts, isEmpty_cons, isEmpty_of_inputSum sum, inputScalar_ok sum hashed]
    exact derived

/-- The sender pays and the receiver, from the tweak of the inputs, finds what was made for it in
every block that holds it; one of the scripts is among its candidates. `shared` is their common
point, which the receiver has from the tweak. -/
def Agrees (S : Scheme F P) (inputs : List (SpInput F)) (addresses : List (SpAddress P))
    (keys : SpKeys F) (ms : List Nat) (shared : PublicKey P) : Prop :=
  ∃ scripts tweak, S.deriveOutputScripts inputs addresses = .ok scripts ∧
    S.tweakFromInputs (inputs.map S.inputKey) (inputs.map SpInput.outpoint) = some tweak ∧
    keys.ecdh tweak = .ok shared ∧
    (∀ computeTxid txs,
      (∀ script ∈ madeFor (keys.scanPub S) addresses scripts,
        ∃ txid vout value, Pays computeTxid txs txid vout value script) →
      NoCoincidence S keys (keys.labelSet S ms) shared
        (madeFor (keys.scanPub S) addresses scripts) computeTxid txs →
      Received S keys (keys.labelSet S ms) tweak (madeFor (keys.scanPub S) addresses scripts)
        computeTxid txs) ∧
    (madeFor (keys.scanPub S) addresses scripts ≠ [] →
      ∃ script ∈ keys.candidateScripts S [tweak] (keys.labelSet S ms),
        script ∈ madeFor (keys.scanPub S) addresses scripts)

/-- A receiver all of whose paid addresses are its plain one or carry a label it looks for has the
tweak of the sender's inputs, finds exactly the outputs made for it, with scalars that give their
scripts and their keys, and has one of them among its candidates. The hashes fall on no value at
which a key degenerates, and the block's other outputs have none of the keys it tries. -/
theorem send_receive_agree (S : Scheme F P) (inputs : List (SpInput F)) (hash : F)
    (addresses : List (SpAddress P)) (keys : SpKeys F) (ms : List Nat)
    (sum : S.inputSum inputs ≠ 0) (hashed : S.HashedTo inputs hash)
    (derivable : S.Derivable (sendScalar sum hashed) [] addresses)
    (own : ∀ address ∈ addresses, address.scan = keys.scanPub S →
      address.spend = keys.spendPub S ∨ ∃ m ∈ ms, keys.labelKey S m = .ok address.spend)
    (few : countScan addresses (keys.scanPub S) < kMax)
    (regular : ∀ number t, number < countScan addresses (keys.scanPub S) →
      S.sharedSecret (sharedPoint (sendScalar sum hashed) (keys.scanPub S)).point number = some t →
        Regular keys (keys.labelSet S ms) t) :
    Agrees S inputs addresses keys ms
      (sharedPoint (sendScalar sum hashed) (keys.scanPub S)) := by
  obtain ⟨scripts, derived, made⟩ := deriveOutputScripts_ok sum hashed derivable
  have paid := made.paid (keys.scanPub S)
  have shared := ecdh_tweak keys sum hashed.ne_zero
  have owns : ∀ address ∈ addresses.filter fun address => address.scan = keys.scanPub S,
      Owns S keys (keys.labelSet S ms) address := by
    intro address member
    obtain ⟨inside, scan⟩ := mem_filter.mp member
    obtain plain | ⟨m, used, labelled⟩ := own address inside (of_decide_eq_true scan)
    · exact .inl plain
    · exact owns_of_labelKey used labelled
  refine ⟨scripts, _, derived, tweakFromInputs_some sum hashed, shared, ?_, ?_⟩
  · intro computeTxid txs mined apart
    exact received_of_paid shared paid owns regular few mined apart
  · intro someone
    cases mine : addresses.filter fun address => address.scan = keys.scanPub S with
    | nil =>
      rw [mine] at paid
      generalize madeFor (keys.scanPub S) addresses scripts = made at paid someone
      cases paid
      exact absurd rfl someone
    | cons address rest =>
      have first : 0 < countScan addresses (keys.scanPub S) := by
        rw [countScan, mine]
        exact Nat.succ_pos _
      rw [mine] at paid owns
      exact candidate_of_paid shared paid (owns address mem_cons_self)
        fun t => regular 0 t first

/-! ## A small group -/

instance smallPrime : Fact (Nat.Prime 23) := ⟨by decide⟩

/-- The integers modulo 23, with themselves as points. -/
def smallScheme : Scheme (ZMod 23) (ZMod 23) where
  curve :=
    { base := 1
      base_ne_zero := by decide
      xOnly := fun p => BitVec.ofNat 256 (min p.val (-p).val)
      isOdd := fun p => p.val % 2 = 1
      xOnly_neg := fun p => by rw [neg_neg, min_comm] }
  inputHash _ _ := some 1
  sharedSecret e number := some (e + 5 * number)
  labelHash _ m := some (9 + m)

def smallKeys : SpKeys (ZMod 23) := ⟨⟨3, by decide⟩, ⟨4, by decide⟩⟩

/-- A taproot input whose key is odd: the sender and the receiver take its negation, 2. -/
def smallInput : SpInput (ZMod 23) := ⟨⟨21, by decide⟩, ⟨0, 0⟩, true⟩

/-- The receiver's plain address, someone else's, and the receiver's change label. -/
def smallAddresses : List (SpAddress (ZMod 23)) :=
  [⟨smallKeys.scanPub smallScheme, smallKeys.spendPub smallScheme⟩,
    ⟨⟨5, by decide⟩, ⟨1, by decide⟩⟩,
    ⟨smallKeys.scanPub smallScheme, ⟨13, by decide⟩⟩]

theorem smallSum : smallScheme.inputSum [smallInput] ≠ 0 := by decide +kernel

theorem smallHashed : smallScheme.HashedTo [smallInput] 1 := ⟨by decide, _, rfl, rfl⟩

/-- The receiver's numbers are 0 and 1, with the scalars 6 and 11. -/
theorem smallRegular {number : Nat} {t : ZMod 23}
    (inside : number < countScan smallAddresses (smallKeys.scanPub smallScheme))
    (secret : smallScheme.sharedSecret (sharedPoint (sendScalar smallSum smallHashed)
      (smallKeys.scanPub smallScheme)).point number = some t) :
    Regular smallKeys (smallKeys.labelSet smallScheme [0]) t := by
  have two : countScan smallAddresses (smallKeys.scanPub smallScheme) = 2 := by decide +kernel
  have values : ∀ number < 2, smallScheme.sharedSecret
      (sharedPoint (sendScalar smallSum smallHashed) (smallKeys.scanPub smallScheme)).point number =
        some (if number = 0 then 6 else 11) := by
    decide +kernel
  have value : t = if number = 0 then 6 else 11 :=
    Option.some.inj (secret.symm.trans (values number (two ▸ inside)))
  have labels : ∀ label ∈ smallKeys.labelSet smallScheme [0],
      (6 : ZMod 23) + label.2 ≠ 0 ∧ (11 : ZMod 23) + label.2 ≠ 0 := by decide +kernel
  split at value
  · rw [value]
    exact ⟨by decide, by decide, fun label used => (labels label used).1⟩
  · rw [value]
    exact ⟨by decide, by decide, fun label used => (labels label used).2⟩

theorem send_receive_small :
    Agrees smallScheme [smallInput] smallAddresses smallKeys [0] ⟨6, by decide⟩ := by
  refine send_receive_agree smallScheme [smallInput] 1 smallAddresses smallKeys [0] smallSum
    smallHashed ⟨⟨6, by decide +kernel, by decide +kernel⟩,
      ⟨10, by decide +kernel, by decide +kernel⟩, ⟨11, by decide +kernel, by decide +kernel⟩,
      trivial⟩ ?_ (by decide +kernel) fun _ _ => smallRegular
  have own : ∀ address ∈ smallAddresses, address.scan = smallKeys.scanPub smallScheme →
      address.spend = smallKeys.spendPub smallScheme ∨
        smallKeys.labelKey smallScheme 0 = .ok address.spend := by decide +kernel
  intro address member scan
  obtain plain | labelled := own address member scan
  · exact .inl plain
  · exact .inr ⟨0, mem_cons_self, labelled⟩

/-- A transaction paying these scripts. -/
def payingTx (scripts : List Script) : Transaction :=
  ⟨2, 0, [], scripts.map fun script => ⟨1000, script⟩⟩

/-- A recipient with the receiver's scan key and a spend key of its own takes the number 0. The
receiver's plain address, paid next, has the number 1, which the search never tries. -/
theorem search_stops_before_own :
    let other : SpAddress (ZMod 23) := ⟨smallKeys.scanPub smallScheme, ⟨1, by decide⟩⟩
    let own : SpAddress (ZMod 23) :=
      ⟨smallKeys.scanPub smallScheme, smallKeys.spendPub smallScheme⟩
    smallScheme.deriveOutputScripts [smallInput] [other, own] = .ok [p2tr 7, p2tr 8] ∧
      smallScheme.tweakFromInputs [smallScheme.inputKey smallInput] [⟨0, 0⟩] =
        some ⟨2, by decide⟩ ∧
      smallKeys.scriptFor smallScheme 11 = .ok (p2tr 8) ∧
      smallKeys.findInBlock smallScheme (fun _ => 0) [⟨2, by decide⟩]
        [payingTx [p2tr 7, p2tr 8]] (smallKeys.labelSet smallScheme [0]) = [] := by
  decide +kernel

end Lij.SilentPayment
