/-
The footprints of transfers and token operations. A transfer uses up its
coins and leaves the definitions alone. Minting and burning rewrite the
definition they name, so they need room for its next version.
-/
import ZephyrChain.Execution.Proofs.Footprint.Lending

namespace ZephyrChain.Execution

open Lib

variable {C : Crypto} {e : Engine} {t : Transaction} {payload : Bytes}
  {r : Result}

-- ==== transfer

theorem executeTransfer_leaves (hck : Checked C t)
    (h : executeTransfer C e t = .ok r) : Leaves C t r True := by
  have hr := executeTransfer_eq_ok h
  simp only [executeTransfer, ok_iff] at h
  obtain ⟨inputs, hin, outputs, hloop, _, _, _, rfl⟩ := h
  have hplaced : ∃ items, Placed C t 0 maxOutputs outputs.change.created
      outputs.change.outbound items := by
    refine placed_outputs hck TransferOutputs.change rfl ?_ hloop
    intro s spec i s' hspec hstep
    simp only [transferOutputStep, ok_iff] at hstep
    obtain ⟨_, coin, _, _, totals, _, destination, _, _, stamped, hstamped,
      rfl⟩ := hstep
    exact ⟨stamped, destination, s.change.total,
      validate_stamped hspec hstamped, rfl⟩
  have hm : Moves C t (t.objects.filter fun o => o.kind = .coin)
      outputs.change.created outputs.change.outbound inputs.consumed :=
    ⟨hr.consumed, List.filter_sublist,
      fun o ho => by simpa using (List.mem_filter.1 ho).2, hplaced⟩
  refine leaves_of_adds hck hm takes_nil adds_nil (by decide) [] (by simp) ?_
  simp

-- ==== create token

/-- The bytes of a definition with a short name and symbol. -/
theorem Definition.short {d : Definition} {raw : Bytes}
    (hname : (trimSpace d.name).length ≤ 64)
    (hsymbol : (trimSpace d.symbol).length ≤ 16)
    (h : d.marshalBinary = .ok raw) : raw.length ≤ 1048576 := by
  simp only [Definition.marshalBinary, ok_iff] at h
  rw [← h.2]
  simp only [Definition.encode, List.length_append, Writer.length_fixed,
    Writer.length_bytes, Writer.length_u8, Writer.length_u64,
    Writer.length_bool]
  omega

theorem executeCreateToken_leaves (hck : Checked C t)
    (h : executeCreateToken C e t payload = .ok r) : Leaves C t r True := by
  obtain ⟨_, _, _, _, _, _, hr⟩ := executeCreateToken_eq_ok h
  have hcoins : ∀ o ∈ t.objects, o.kind = .coin :=
    fun o ho => (hr.balanced.spent_native o ho).1
  simp only [executeCreateToken, ok_iff, not_not] at h
  obtain ⟨create, hcreate, _, spent, _, s, hloop, _, raw, hraw, coin, hcoin,
    rfl⟩ := h
  have hplaced : ∃ items, Placed C t 0 maxOutputs s.created s.outbound
      items := by
    refine placed_outputs hck id rfl ?_ hloop
    intro s spec i s' hspec hstep
    simp only [createOutputStep, ok_iff] at hstep
    obtain ⟨coin, _, _, _, destination, _, stamped, hstamped, rfl⟩ := hstep
    exact ⟨stamped, destination, s.total + coin.amount,
      validate_stamped hspec hstamped, rfl⟩
  have hm : Moves C t t.objects s.created s.outbound
      (t.inputs.map InputRef.objectID) :=
    ⟨hck.enveloped.ids, List.Sublist.refl _, hcoins, hplaced⟩
  have hvalid := parseCreateToken_eq_ok hcreate
  simp only [CreateToken.validate, ok_iff, not_or, not_lt] at hvalid
  obtain ⟨⟨_, hname, _, hsymbol, _⟩, _⟩ := hvalid
  have hspec : (OutputSpec.mk t.sender .tokenDefinition raw).validate =
      .ok () :=
    validate_spec (by decide) hck.sender (Definition.short hname hsymbol hraw)
  have hadds : Adds [.fresh definitionObjectIndex _,
      .fresh initialCoinIndex coin]
      [definitionObjectIndex, initialCoinIndex] :=
    (Adds.single (newCoinOutputAtHeight_valid hcoin) initialCoinIndex).cons
      hspec definitionObjectIndex
  refine leaves_of_adds hck hm takes_nil hadds (by decide) [] (by simp) ?_
  simp [Item.object]

-- ==== mint and burn

/-- The witness with the id of another one is that one. -/
theorem Checked.eq_of_id (hck : Checked C t) {o o' : Object}
    (ho : o ∈ t.objects) (ho' : o' ∈ t.objects) (h : o'.id = o.id) :
    o' = o :=
  List.inj_on_of_nodup_map hck.enveloped.nodup ho' ho h

theorem mem_nonCoin {id contractObject : ObjectID}
    (h : id ∈ nonCoin contractObject []) : id = contractObject := by
  unfold nonCoin at h
  split at h
  · simp at h
  · simpa using h

/-- The bytes of a definition that differs from one that was read in its
supply. -/
theorem short_of_parse {data raw : Bytes} {d : Definition}
    {supply : UInt64} (hd : parseDefinition data = .ok d)
    (h : { d with currentSupply := supply }.marshalBinary = .ok raw) :
    raw.length ≤ 1048576 := by
  have hshort := (parseDefinition_iff.1 hd).2.1
  exact Definition.short (d := { d with currentSupply := supply })
    ((length_trimSpace_le d.name).trans hshort.name)
    ((length_trimSpace_le d.symbol).trans hshort.symbol) h

theorem executeMintToken_leaves (hck : Checked C t)
    (h : executeMintToken C e t payload = .ok r) :
    Leaves C t r
      (∀ o ∈ t.objects, o.kind = .tokenDefinition → Renewable o) := by
  simp only [executeMintToken, ok_iff, not_or, not_not] at h
  obtain ⟨request, _, ⟨o, d⟩, ho, _, next, hnext, ⟨created, consumed⟩, hfee,
    raw, hraw, coin, hcoin, destination, _, _, rfl⟩ := h
  obtain ⟨hmem, hid, hk, hd⟩ := tokenDefinitionWitness_eq_ok ho
  obtain ⟨rfl, _⟩ := Definition.mint_eq_ok hnext
  refine leaves_of_renewal hck (moves_of_fee hck hfee)
    (.single hmem hk (by decide)) hk ?_ (short_of_parse hd hraw)
    (.single (newCoinOutputAtHeight_valid hcoin) tokenMintOutputIndex)
    (by decide) rfl
  intro o' ho' hex _
  exact hck.eq_of_id hmem ho' ((mem_nonCoin hex).trans hid.symm)

theorem executeBurnToken_leaves (hck : Checked C t)
    (h : executeBurnToken C e t payload = .ok r) :
    Leaves C t r
      (∀ o ∈ t.objects, o.kind = .tokenDefinition → Renewable o) := by
  simp only [executeBurnToken, ok_iff, not_or, not_not] at h
  obtain ⟨request, _, ⟨o, d⟩, ho, ⟨hcustom, _⟩, next, hnext, inputs, hin,
    outputs, hloop, _, _, raw, hraw, rfl⟩ := h
  obtain ⟨hmem, hid, hk, hd⟩ := tokenDefinitionWitness_eq_ok ho
  obtain ⟨rfl, _⟩ := Definition.burn_eq_ok hnext
  have hspent := burnSpends_of_loop hcustom hin
  have hplaced : ∃ items, Placed C t 0 maxOutputs outputs.created []
      items := by
    refine placed_outputs hck (fun s => ⟨0, s.created, []⟩) rfl ?_ hloop
    intro s spec i s' hspec hstep
    simp only [burnOutputStep, ok_iff] at hstep
    obtain ⟨_, destination, _, _, coin, _, totals, _, stamped, hstamped,
      rfl⟩ := hstep
    refine ⟨stamped, t.shardID, 0, validate_stamped hspec hstamped, ?_⟩
    simp [Change.place]
  have hm : Moves C t (spentObjects t [request.definitionObject])
      outputs.created [] inputs.consumed :=
    ⟨hspent.consumed, List.filter_sublist,
      fun o ho => (hspent.coin o ho).elim (·.1) (·.1), hplaced⟩
  refine leaves_of_renewal hck hm (.single hmem hk (by decide)) hk ?_
    (short_of_parse hd hraw) adds_nil (by decide) rfl
  intro o' ho' hex _
  exact hck.eq_of_id hmem ho' ((List.mem_singleton.1 hex).trans hid.symm)

end ZephyrChain.Execution
