import Lij.Bitcoin.Weight
import Lij.OnchainSend.Conserve

/-!
# The size of a signed send

The encoding of a transaction that pays given destinations from given coins,
against what the fee estimate counts: 68 vbytes for a P2WPKH input, 58 for a
taproot input, 31 for every output and 12 more for a silent payment.
-/

namespace Lij.OnchainSend

open Bitcoin Tier2 Word Checked List

/-- The sizes of what the keys supply, with the largest signatures: a low-s DER signature is at
most 71 bytes, a key-path signature is 64. -/
structure Standard (W : Wallet) : Prop where
  changeScript : ∀ i spk, W.changeScript i = .ok spk → Script.isP2wpkh spk = true
  derive : ∀ selected addresses scripts, W.deriveOutputScripts selected addresses = .ok scripts →
    ∀ spk ∈ scripts, Script.isP2tr spk = true
  schnorr : ∀ tx selected i sig, W.signSchnorr tx selected i = .ok sig → sig.length = 64
  ecdsa : ∀ tx selected i der, W.signEcdsa tx selected i = .ok der → der.length = 71
  publicKey : ∀ u pk, W.publicKey u = .ok pk → pk.length = 33

/-- The keys derive this change script and sign for these coins. -/
structure Keyed (W : Wallet) (selected : List SpendableUtxo) (changeIndex : Nat) : Prop where
  changeScript : ∃ spk, W.changeScript changeIndex = .ok spk
  signs : ∀ tx : Transaction, tx.input = selected.map inputOf →
    ∃ witnesses, signInputs W tx selected = .ok witnesses

/-- Every silent-payment address gets its script from these coins. -/
def Derives (W : Wallet) (selected : List SpendableUtxo) (addresses : List Bytes) : Prop :=
  addresses ≠ [] → ∃ scripts, W.deriveOutputScripts selected addresses = .ok scripts ∧
    scripts.length = addresses.length

/-! ## The size of a signed transaction -/

section Size

variable {W : Wallet} {tx : Transaction} {selected : List SpendableUtxo}
variable {witnesses : List (List Bytes)}

def witnessSize (u : SpendableUtxo) : Nat := if isTaproot u then 66 else 108

/-- Each input is signed, by a witness of the size its kind has. -/
def Signed (selected : List SpendableUtxo) (witnesses : List (List Bytes)) : Prop :=
  List.Forall₂ (fun u witness => witness ≠ [] ∧
    (serializeWitness witness).length = witnessSize u) selected witnesses

theorem signInput_size (standard : Standard W) {i : Nat} {u : SpendableUtxo}
    {witness : List Bytes} (ok : signInput W tx selected i u = .ok witness) :
    witness ≠ [] ∧ (serializeWitness witness).length = witnessSize u := by
  rw [signInput] at ok
  split_ifs at ok with taproot
  · obtain ⟨sig, isSig, rest⟩ := bind_eq_ok.mp ok
    cases pure_eq_ok.mp rest
    have length := standard.schnorr tx selected i sig isSig
    refine ⟨cons_ne_nil _ _, ?_⟩
    rw [length_serializeWitness (by simp) (by simp [length]), witnessSize, if_pos taproot]
    simp [length]
  · obtain ⟨der, isDer, rest⟩ := bind_eq_ok.mp ok
    obtain ⟨pk, isPk, rest⟩ := bind_eq_ok.mp rest
    cases pure_eq_ok.mp rest
    have length := standard.ecdsa tx selected i der isDer
    have pkLength := standard.publicKey u pk isPk
    refine ⟨cons_ne_nil _ _, ?_⟩
    rw [length_serializeWitness (by simp) (by simp [length, pkLength]), witnessSize,
      if_neg taproot]
    simp [length, pkLength]

theorem signed_of_signInputs (standard : Standard W)
    (ok : signInputs W tx selected = .ok witnesses) : Signed selected witnesses := by
  have each := mapM_eq_ok.mp ok
  rw [Signed, ← zipIdx_map_fst 0 selected, forall₂_map_left_iff]
  exact each.imp fun _ _ signed => signInput_size standard signed

/-- The signed inputs: 41 bytes each and their witnesses. -/
theorem inputs_signed (signed : Signed selected witnesses) :
    let inputs := zipWith (fun (i : TxIn) w => { i with witness := w })
      (selected.map inputOf) witnesses
    inputs.length = selected.length ∧ (∀ i ∈ inputs, i.witness ≠ []) ∧
      (inputs.map fun i => i.serialize.length).sum = 41 * selected.length ∧
      (inputs.map fun i => (serializeWitness i.witness).length).sum =
        (selected.map witnessSize).sum := by
  induction signed with
  | nil => exact ⟨rfl, nofun, rfl, rfl⟩
  | @cons u witness selected witnesses one _ ih =>
    obtain ⟨length, some, bytes, sizes⟩ := ih
    simp only [map_cons, zipWith_cons_cons, length_cons, sum_cons,
      forall_mem_cons]
    refine ⟨congrArg (· + 1) length, ⟨one.1, some⟩, ?_, ?_⟩
    · have head : ({ inputOf u with witness := witness } : TxIn).serialize.length = 41 :=
        length_serialize_txIn rfl
      rw [head, bytes]
      omega
    · rw [one.2, sizes]

theorem weight_signed (inputs : tx.input = selected.map inputOf)
    (signed : Signed selected witnesses) (few : tx.output.length < 253) :
    (withWitnesses tx witnesses).weight = 38 + 4 * (compactSize selected.length).length +
      164 * selected.length + (selected.map witnessSize).sum +
      4 * (tx.output.map fun o => o.serialize.length).sum := by
  obtain ⟨length, some, bytes, sizes⟩ := inputs_signed signed
  have segwit : (withWitnesses tx witnesses).usesSegwit = true := by
    rw [Transaction.usesSegwit, withWitnesses, inputs, Bool.or_eq_true, any_eq_true]
    cases isInputs : zipWith (fun (i : TxIn) w => { i with witness := w })
        (selected.map inputOf) witnesses with
    | nil => exact .inr rfl
    | cons i inputs =>
      refine .inl ⟨i, mem_cons_self, ?_⟩
      have witness := some i (isInputs ▸ mem_cons_self)
      simpa using witness
  rw [weight_eq segwit]
  simp only [withWitnesses, inputs, length, bytes, sizes, length_compactSize few]
  omega

end Size

/-! ## The inputs against their estimate -/

section Inputs

variable {view : Tier2View} {pending : List PendingTx} {frozen : List OutPoint}

/-- An offered coin is signed by the key path exactly when it is estimated so. -/
theorem inputVbytes_offered {u : SpendableUtxo}
    (offered : u ∈ gatherSpendable view pending frozen) :
    164 + witnessSize u + (if isTaproot u then 2 else 0) = 4 * inputVbytes u.chain := by
  have agree : u.chain = chainSp → u.spTweak.isSome := by
    obtain known | change := mem_append.mp offered
    · obtain ⟨c, member, rfl⟩ := mem_map.mp known
      intro isSp
      have signable : isSignable c = true := by
        have kept := (mem_filter.mp member).2
        simp only [Bool.and_eq_true] at kept
        exact kept.1.1.2
      have isSp : c.chain = chainSp := isSp
      have notBranch : (bip86Branch chainSp).isSome = false := rfl
      rw [isSignable, isSp, notBranch] at signable
      change c.spTweak.isSome = true
      simpa [chainSp, chainReceive, chainChange] using signable
    · obtain ⟨c, member, rfl⟩ := mem_map.mp change
      obtain ⟨p, _, isChange⟩ := mem_unconfirmedChangeUtxos.mp (mem_of_mem_filter member)
      obtain ⟨op, _, rfl, _⟩ := unconfirmedChangeOf_eq_some isChange
      intro isSp
      cases isSp
  rw [witnessSize, inputVbytes]
  by_cases taproot : isTaproot u
  · have branch : u.chain = chainSp ∨ (bip86Branch u.chain).isSome = true := by
      simp only [isTaproot, Bool.or_eq_true, Bool.and_eq_true, decide_eq_true_eq] at taproot
      exact taproot.imp_left And.right
    rw [if_pos taproot, if_pos branch, if_pos taproot]
  · have plain : ¬(u.chain = chainSp ∨ (bip86Branch u.chain).isSome = true) := by
      rintro (isSp | branch)
      · exact taproot (by simp [isTaproot, isSp, agree isSp])
      · exact taproot (by simp [isTaproot, branch])
    rw [if_neg taproot, if_neg plain, if_neg taproot]

theorem sum_witnessSize {selected : List SpendableUtxo}
    (offered : ∀ u ∈ selected, u ∈ gatherSpendable view pending frozen) :
    164 * selected.length + (selected.map witnessSize).sum + 2 * selected.countP isTaproot =
      4 * ((selected.map SpendableUtxo.chain).map inputVbytes).sum := by
  induction selected with
  | nil => rfl
  | cons u selected ih =>
    obtain ⟨one, rest⟩ := forall_mem_cons.mp offered
    have head := inputVbytes_offered one
    have tail := ih rest
    simp only [map_cons, sum_cons, length_cons, countP_cons]
    split_ifs at head ⊢ <;> omega

end Inputs

/-! ## The outputs against their estimate -/

section Outputs

/-- The five types of address, and silent payments. -/
def Dest.Valid : Dest → Prop
  | .script spk => spk.isP2pkh ∨ spk.isP2sh ∨ spk.isP2wpkh ∨ spk.isP2wsh ∨ spk.isP2tr
  | .silentPayment _ => True

/-- The bytes of a destination's output beyond those of a P2WPKH output that are not counted. -/
def Dest.uncounted : Dest → Nat
  | .script spk => spk.length - 22
  | .silentPayment _ => 0

/-- The bytes of the output that pays a destination. -/
def destSize : Dest → Nat
  | .script spk => 9 + spk.length
  | .silentPayment _ => 43

theorem length_serialize_short {out : TxOut} (short : out.scriptPubkey.length < 253) :
    out.serialize.length = 9 + out.scriptPubkey.length := by
  rw [length_serialize_txOut, length_compactSize short]

theorem length_of_isP2wpkh {spk : Script} (isKind : spk.isP2wpkh = true) : spk.length = 22 := by
  simp only [Script.isP2wpkh, Bool.and_eq_true, beq_iff_eq] at isKind
  exact isKind.1

theorem length_of_isP2tr {spk : Script} (isKind : spk.isP2tr = true) : spk.length = 34 := by
  simp only [Script.isP2tr, Bool.and_eq_true, beq_iff_eq] at isKind
  exact isKind.1

theorem destSize_valid {dest : Dest} (valid : dest.Valid) :
    destSize dest = 31 + destExtraVbytes dest + dest.uncounted ∧ destSize dest ≤ 43 := by
  cases dest with
  | silentPayment address => exact ⟨rfl, le_rfl⟩
  | script spk =>
    simp only [Dest.Valid, Script.isP2pkh, Script.isP2sh, Script.isP2wpkh, Script.isP2wsh,
      Script.isP2tr, Bool.and_eq_true, beq_iff_eq] at valid
    simp only [destSize, destExtraVbytes, Dest.uncounted]
    omega

theorem sum_destSize_valid {dests : List Dest} (valid : ∀ dest ∈ dests, dest.Valid) :
    (dests.map destSize).sum = 31 * dests.length + (dests.map destExtraVbytes).sum +
      (dests.map Dest.uncounted).sum := by
  induction dests with
  | nil => rfl
  | cons dest dests ih =>
    obtain ⟨one, others⟩ := forall_mem_cons.mp valid
    have head := (destSize_valid one).1
    have tail := ih others
    simp only [map_cons, sum_cons, length_cons]
    omega

variable {W : Wallet} {dests : List Dest} {derived scripts : List Script}

theorem destScripts_ok (enough : (dests.filterMap Dest.spAddress).length ≤ derived.length) :
    ∃ scripts, destScripts dests derived = .ok scripts := by
  induction dests generalizing derived with
  | nil => exact ⟨[], rfl⟩
  | cons dest dests ih =>
    cases dest with
    | script own =>
      obtain ⟨scripts, ok⟩ := ih enough
      exact ⟨own :: scripts, by rw [destScripts, ok]; rfl⟩
    | silentPayment address =>
      cases derived with
      | nil => cases enough
      | cons own derived =>
        obtain ⟨scripts, ok⟩ := ih (Nat.le_of_succ_le_succ enough)
        exact ⟨own :: scripts, by rw [destScripts, ok]; rfl⟩

theorem resolveDestScripts_ok {selected : List SpendableUtxo}
    (derives : Derives W selected (dests.filterMap Dest.spAddress)) :
    ∃ scripts, resolveDestScripts W dests selected = .ok scripts := by
  rw [resolveDestScripts]
  split_ifs with noSp
  · exact destScripts_ok (length_eq_zero_iff.mpr (List.isEmpty_iff.mp noSp)).le
  · obtain ⟨derived, isDerived, length⟩ := derives fun none => noSp (List.isEmpty_iff.mpr none)
    rw [isDerived]
    exact destScripts_ok length.ge

theorem resolveDestScripts_size (standard : Standard W) {selected : List SpendableUtxo}
    (ok : resolveDestScripts W dests selected = .ok scripts) :
    List.Forall₂ (fun dest spk => 9 + spk.length = destSize dest) dests scripts := by
  obtain ⟨derived, origin, each⟩ := resolveDestScripts_eq_ok ok
  have taproot : ∀ spk ∈ derived, Script.isP2tr spk = true := by
    obtain rfl | isDerived := origin
    · exact forall_mem_nil _
    · exact standard.derive selected _ derived isDerived
  refine each.imp fun dest spk kind => ?_
  obtain rfl | ⟨⟨_, rfl⟩, inside⟩ := kind
  · rfl
  · rw [length_of_isP2tr (taproot spk inside), destSize]

theorem sum_outputs {amounts : List Nat} (valid : ∀ dest ∈ dests, dest.Valid)
    (sizes : List.Forall₂ (fun dest spk => 9 + spk.length = destSize dest) dests scripts)
    (lengths : scripts.length = amounts.length) :
    ((zipWith (fun spk amount => (⟨amount, spk⟩ : TxOut)) scripts amounts).map
      fun o => o.serialize.length).sum = (dests.map destSize).sum := by
  induction sizes generalizing amounts with
  | nil => rfl
  | @cons dest spk dests scripts one _ ih =>
    cases amounts with
    | nil => cases lengths
    | cons amount amounts =>
      obtain ⟨validOne, validOthers⟩ := forall_mem_cons.mp valid
      have bounded := (destSize_valid validOne).2
      have short : (⟨amount, spk⟩ : TxOut).scriptPubkey.length < 253 := by
        change spk.length < 253
        omega
      rw [zipWith_cons_cons, map_cons, sum_cons, map_cons, sum_cons,
        ih validOthers (Nat.succ.inj lengths), length_serialize_short short, ← one]

theorem changeOutput_size (standard : Standard W) {changeSats changeIndex : Nat}
    {change : List TxOut} (ok : changeOutput W changeSats changeIndex = .ok change) :
    (change.map fun o => o.serialize.length).sum = if changeSats > 0 then 31 else 0 := by
  rw [changeOutput] at ok
  split_ifs at ok ⊢ with some
  · obtain ⟨spk, isSpk, rest⟩ := bind_eq_ok.mp ok
    cases pure_eq_ok.mp rest
    have length := length_of_isP2wpkh (standard.changeScript changeIndex spk isSpk)
    have short : (⟨changeSats, spk⟩ : TxOut).scriptPubkey.length < 253 := by
      change spk.length < 253
      omega
    rw [map_singleton, sum_singleton, length_serialize_short short, length]
  · cases pure_eq_ok.mp ok
    rfl

/-- Where the keys sign and the addresses derive, a plan is built. -/
theorem buildTx_ok {plan : Plan} {changeIndex : Nat}
    (keyed : Keyed W plan.selected changeIndex)
    (derives : Derives W plan.selected (plan.dests.filterMap Dest.spAddress)) :
    ∃ tx, buildTx W plan changeIndex = .ok tx := by
  obtain ⟨scripts, resolved⟩ := resolveDestScripts_ok derives
  obtain ⟨spk, isSpk⟩ := keyed.changeScript
  obtain ⟨change, isChange⟩ : ∃ change, changeOutput W plan.changeSats changeIndex =
      .ok change := by
    rw [changeOutput, isSpk]
    split_ifs <;> exact ⟨_, rfl⟩
  obtain ⟨witnesses, signed⟩ := keyed.signs (unsigned plan scripts change) rfl
  refine ⟨withWitnesses (unsigned plan scripts change) witnesses, ?_⟩
  simp only [buildTx, bind_eq_ok]
  exact ⟨scripts, resolved, change, isChange, witnesses, signed, rfl⟩

end Outputs

/-! ## One wallet -/

/-- "alice" is a P2WPKH address and every other text a taproot address; keys and signatures
are zero bytes. -/
def zeroWallet : Wallet where
  parseDest text :=
    if text = "alice" then .ok (.script ([0x00, 0x14] ++ replicate 20 0))
    else .ok (.script ([0x51, 0x20] ++ replicate 32 0))
  deriveOutputScripts _ addresses :=
    .ok (addresses.map fun _ => [0x51, 0x20] ++ replicate 32 0)
  changeScript _ := .ok ([0x00, 0x14] ++ replicate 20 0)
  signSchnorr _ _ _ := .ok (replicate 64 0)
  signEcdsa _ _ _ := .ok (replicate 71 0)
  publicKey _ := .ok (replicate 33 0)

theorem keyed_zeroWallet (selected : List SpendableUtxo) (changeIndex : Nat) :
    Keyed zeroWallet selected changeIndex where
  changeScript := ⟨_, rfl⟩
  signs tx _ := by
    refine exists_mapM_eq_ok fun (u, i) _ => ?_
    change ∃ witness, signInput zeroWallet tx selected i u = .ok witness
    rw [signInput]
    split_ifs <;> exact ⟨_, rfl⟩

theorem derives_zeroWallet (selected : List SpendableUtxo) (addresses : List Bytes) :
    Derives zeroWallet selected addresses :=
  fun _ => ⟨_, rfl, length_map _⟩

end Lij.OnchainSend
