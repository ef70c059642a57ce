import Lij.Tatara.Moves

/-!
# What a view commits to

The view hash is taken over the pool's id, the funding's id, the exits' messages
and the members' keys, written one after the other without lengths. Two members
of one pool who know equally many members can still not write one concatenation
for two different pools: every part but the messages has a known width.
-/

namespace Lij.Tatara.Attempt

open Bitcoin Joinstr Checked Reactive List

variable {P : Primitives} {a b : Attempt P}

/-- The text is a view message that carries this hash. -/
def ReadsView (P : Primitives) (json : P.Text) (hash : Digest) : Prop :=
  ∃ v, P.viewFields json = some v ∧ viewHashOf v = .ok hash

/-- The view message for a hash. -/
def viewText (P : Primitives) (hash : Digest) : P.Text :=
  P.viewJson (Hex.encode (Bytes.of256 hash))

theorem viewHashOf_encode (hash : Digest) :
    viewHashOf ⟨3, some "2", some (Hex.encode (Bytes.of256 hash))⟩ = .ok hash := by
  have decoded := strictHex_encode (Bytes.of256 hash)
  rw [Bytes.length_of256] at decoded
  refine ensure_bind_eq_ok.mpr ⟨⟨rfl, rfl⟩, bind_eq_ok.mpr ⟨_, decoded, ?_⟩⟩
  rw [Bytes.to256_of256]
  rfl

/-- A posted view is read as the hash it was written for. -/
theorem readsView_viewText {hash hash' : Digest} :
    ReadsView P (viewText P hash) hash' ↔ hash' = hash := by
  constructor
  · rintro ⟨v, fields, read⟩
    rw [viewText, P.viewFields_viewJson, Option.some.injEq] at fields
    rw [← fields, viewHashOf_encode] at read
    exact (Except.ok.inj read).symm
  · rintro rfl
    exact ⟨_, P.viewFields_viewJson _, viewHashOf_encode hash'⟩

/-- No message of joinstr's is read as a view. -/
theorem not_readsView_envelopeJson (msg : Msg) (hash : Digest) :
    ¬ReadsView P (P.envelopeJson msg) hash := by
  rintro ⟨v, fields, _⟩
  have kind := P.viewFields_kind (P.envelopeJson msg) (by rw [fields]; rfl)
  rw [P.kindOf_envelopeJson, Option.some.injEq] at kind
  cases msg <;> cases kind

/-! ## The transactions of a build -/

/-- Nothing in the transaction is signed yet. -/
def Unsigned (tx : Transaction) : Prop := ∀ i ∈ tx.input, i.scriptSig = [] ∧ i.witness = []

theorem unsigned_fundingTx (id : String) (lockTime : Nat) (members : List Member) (pool : TxOut) :
    Unsigned (fundingTx P id lockTime members pool) := by
  intro i member
  obtain ⟨op, _, rfl⟩ := mem_map.mp member
  exact ⟨rfl, rfl⟩

/-- The re-derived funding spends the members' coins and nothing in it is signed. -/
theorem rederive_funding {id : String} {d rate tip : Nat} {members : List Member}
    {payouts : List (Script × Nat)} : Yields (rederive P id d rate members payouts tip) fun r =>
      ∃ lockTime pool, r.funding = fundingTx P id lockTime members pool := by
  unfold rederive
  repeat' refine .bind fun _ => ?_
  exact .pure ⟨_, _, rfl⟩

theorem BuildSpec.unsigned {checked : CheckedBuild P} (spec : a.BuildSpec checked) :
    Unsigned checked.built.funding := by
  obtain ⟨r, rederived, same⟩ := spec.rederived
  obtain ⟨sameFunding, _⟩ := ensure_bind_eq_ok.mp same
  obtain ⟨lockTime, pool, isFunding⟩ := rederive_funding _ rederived
  rw [sameFunding, isFunding]
  exact unsigned_fundingTx _ _ _ _

/-- The exit messages are numbered by their places. -/
theorem index_of_exitMessages {keys : PoolKeys} {txs : PoolTxs} {msgs : List ExitMessage}
    (messages : exitMessages P keys txs = .ok msgs) :
    msgs.map ExitMessage.index = range msgs.length := by
  have each := mapM_eq_ok.mp messages
  have places : List.Forall₂ (fun entry m => entry.2 = ExitMessage.index m)
      ((txs.exits.zip txs.spent).zip txs.links).zipIdx msgs := by
    refine each.imp fun entry m made => ?_
    obtain ⟨_, _, made⟩ := bind_eq_ok.mp made
    cases pure_eq_ok.mp made
    rfl
  have same : ((txs.exits.zip txs.spent).zip txs.links).zipIdx.map Prod.snd =
      msgs.map ExitMessage.index := by
    rw [← forall₂_eq_eq_eq, forall₂_map_left_iff, forall₂_map_right_iff]
    exact places
  rw [← same, ← each.length_eq, zipIdx_map_snd, length_zipIdx, range_eq_range']

/-! ## Reading a view back -/

/-- The members' keys, which end every view. -/
def memberBytes (a : Attempt P) : Bytes :=
  ((a.regs.keys.insertionSort (· ≤ ·)).map Bytes.of256).flatten ++
    ((((Maps.values a.regs).map fun r => r.1.ring).insertionSort (· ≤ ·)).map Bytes.of264).flatten

theorem length_memberBytes (a : Attempt P) : a.memberBytes.length = a.regs.size * 65 := by
  have sessions : (((a.regs.keys.insertionSort (· ≤ ·)).map Bytes.of256).flatten).length =
      a.regs.size * 32 := by
    have widths (keys : List SessionKey) : ∀ x ∈ keys.map Bytes.of256, x.length = 32 := by simp
    rw [Bytes.length_flatten_of_width (widths _), length_map,
      length_insertionSort, Std.TreeMap.length_keys]
  have rings : ((((Maps.values a.regs).map fun r => r.1.ring).insertionSort (· ≤ ·)).map
      Bytes.of264).flatten.length = a.regs.size * 33 := by
    have widths (rings : List Point) : ∀ x ∈ rings.map Bytes.of264, x.length = 33 := by simp
    rw [Bytes.length_flatten_of_width (widths _), length_map,
      length_insertionSort, length_map, Maps.length_values]
  rw [memberBytes, length_append, sessions, rings]
  ring

/-- The exits' messages as the view writes them. -/
def messageBytes (msgs : List ExitMessage) : Bytes :=
  (msgs.map fun m => Bytes.of256 m.msg).flatten

theorem length_messageBytes (msgs : List ExitMessage) :
    (messageBytes msgs).length = msgs.length * 32 := by
  have widths : ∀ x ∈ msgs.map fun m => Bytes.of256 m.msg, x.length = 32 := by simp
  rw [messageBytes, Bytes.length_flatten_of_width widths, length_map]

theorem messageBytes_eq {msgs msgs' : List ExitMessage} (lengths : msgs.length = msgs'.length)
    (same : messageBytes msgs = messageBytes msgs') :
    msgs.map ExitMessage.msg = msgs'.map ExitMessage.msg := by
  have widths (ms : List ExitMessage) : ∀ x ∈ ms.map fun m => Bytes.of256 m.msg, x.length = 32 := by
    simp
  have fields := Bytes.flatten_injective_of_width (widths msgs) (widths msgs')
    (by simpa using lengths) same
  refine map_injective_iff.mpr Bytes.of256_injective ?_
  simpa [Function.comp_def] using fields

theorem viewBytes_eq (a : Attempt P) (built : PoolTxs) (msgs : List ExitMessage) :
    a.viewBytes built msgs = Bytes.ofText a.id ++
      (Bytes.ofText (P.computeTxid built.funding).text ++
        (messageBytes msgs ++ a.memberBytes)) := by
  simp only [viewBytes, messageBytes, memberBytes, append_assoc]

/-- Members of one pool who know equally many members and hash the same bytes
have the same funding id and the same messages. -/
theorem viewBytes_parts {built built' : PoolTxs} {msgs msgs' : List ExitMessage}
    (sameId : a.id = b.id) (sameSize : a.regs.size = b.regs.size)
    (same : a.viewBytes built msgs = b.viewBytes built' msgs') :
    P.computeTxid built.funding = P.computeTxid built'.funding ∧
      msgs.map ExitMessage.msg = msgs'.map ExitMessage.msg := by
  rw [viewBytes_eq, viewBytes_eq, sameId] at same
  have afterId := append_cancel_left same
  obtain ⟨txids, rest⟩ := append_inj afterId (by simp only [Txid.length_ofText_text])
  have lengths : msgs.length = msgs'.length := by
    have total := congrArg length rest
    rw [length_append, length_append, length_messageBytes, length_messageBytes,
      length_memberBytes, length_memberBytes, sameSize] at total
    omega
  have messages := (append_inj rest (by
    rw [length_messageBytes, length_messageBytes, lengths])).1
  exact ⟨Txid.text_injective (Bytes.ofText_injective txids), messageBytes_eq lengths messages⟩

end Lij.Tatara.Attempt
