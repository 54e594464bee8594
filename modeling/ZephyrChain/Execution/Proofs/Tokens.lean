/-
The loops of creating and burning a token, read backwards.
-/
import ZephyrChain.Execution.Proofs.Transfer

namespace ZephyrChain.Execution

open Lib

variable {C : Crypto} {e : Engine} {t : Transaction} {payload : Bytes}
  {r : Result}

-- ==== definitions

theorem tokenDefinitionWitness_eq_ok {id : ObjectID} {o : Object}
    {d : Definition} (h : tokenDefinitionWitness t id = .ok (o, d)) :
    o ∈ t.objects ∧ o.id = id ∧ o.kind = .tokenDefinition ∧
      parseDefinition o.data = .ok d := by
  simp only [tokenDefinitionWitness, ok_iff, not_not] at h
  obtain ⟨o', hfind, hk, d', hd, h⟩ := h
  cases h
  obtain ⟨hmem, hid⟩ := mem_of_witnessByID hfind
  exact ⟨hmem, hid, hk, hd⟩

-- ==== create token

theorem makes_createOutputs {start : UInt64} {s : Change}
    (h : t.outputs.zipIdx.foldlM (createOutputStep C e t)
      ⟨start, [], []⟩ = .ok s) : Makes C e t start s := by
  refine foldlM_invariant (Makes C e t start) ?_ _ _ _ (makes_start start) h
  rintro s ⟨spec, i⟩ s' hs hstep
  simp only [createOutputStep, ok_iff, not_or, not_not] at hstep
  obtain ⟨c, hc, ⟨hk, htoken⟩, hfits, destination, _, stamped, hst, rfl⟩ :=
    hstep
  obtain ⟨_, hk', hc'⟩ := stampCoinOutput_eq_ok hk hc hst
  exact Makes.place (c := { c with createdHeight := e.height }) hs hk' hc'
    htoken hfits

/-- What a creation does: it moves native coins, and makes the definition
`o` and one coin with the whole supply. -/
structure Creates (C : Crypto) (e : Engine) (t : Transaction)
    (create : CreateToken) (r : Result) (change : List Object)
    (sent : List OutboundOutput) (o coin : Object) : Prop where
  balanced : Balanced C e t t.objects change sent 0 0
  result : r = ⟨t.inputs.map InputRef.objectID, change ++ [o, coin], sent,
    t.id C⟩
  id : o.id =
    objectIDForShard C (t.id C) definitionObjectIndex t.shardID
  version : o.version = 1
  kind : o.kind = .tokenDefinition
  definition : parseDefinition o.data =
    .ok (createdDefinition C t create).trimmed
  coin_fresh : Fresh C t coin
  coin_kind : coin.kind = .coin
  coin_amount : parseCoin coin.data = .ok
    ⟨tokenIDFromTransaction C (t.id C) 0, create.initialSupply, e.height⟩

theorem createdDefinition_parse {create : CreateToken} {raw : Bytes}
    (hcreate : create.validate = .ok ())
    (h : (createdDefinition C t create).marshalBinary = .ok raw) :
    parseDefinition raw = .ok (createdDefinition C t create).trimmed := by
  simp only [CreateToken.validate, ok_iff, not_or, not_lt] at hcreate
  obtain ⟨⟨_, hname, _, hsymbol, _⟩, _⟩ := hcreate
  simp only [Definition.marshalBinary, ok_iff] at h
  obtain ⟨hv, rfl⟩ := h
  exact parseDefinition_encode hv hname hsymbol

theorem executeCreateToken_eq_ok
    (h : executeCreateToken C e t payload = .ok r) :
    ∃ create, parseCreateToken payload = .ok create ∧
      ∃ change sent o coin, Creates C e t create r change sent o coin := by
  simp only [executeCreateToken, ok_iff, not_or, not_not] at h
  obtain ⟨create, hcreate, _, spent, hspent, s, hmade, ⟨hfits, heq⟩, raw,
    hraw, coin, hcoin, rfl⟩ := h
  have hs := spendCoins_eq_ok hspent
  have hbal := balanced_of_loops hs (makes_createOutputs hmade) hfits heq
  have hall : spentObjects t [] = t.objects := by
    simp [spentObjects]
  rw [hall] at hbal
  obtain ⟨_, hk, hc⟩ := newCoinOutputAtHeight_eq_ok hcoin
  refine ⟨create, hcreate, _, _, _, _, hbal, rfl, rfl, rfl, rfl, ?_,
    fresh_newObject _ _, hk, hc⟩
  exact createdDefinition_parse (parseCreateToken_eq_ok hcreate) hraw

-- ==== burn

/-- A coin of the native token or of another one. -/
def IsCoinOf (native token : TokenID) (p : Payload) : Prop :=
  IsCoin native p ∨ IsCoin token p

/-- What the loop over the witnesses of a burn has spent. -/
structure BurnSpends (e : Engine) (t : Transaction) (token : TokenID)
    (objs : List Object) (s : BurnInputs) : Prop where
  consumed : s.consumed = objs.map Object.id
  owner : ∀ o ∈ objs, o.owner = t.sender
  coin : ∀ o ∈ objs, IsCoinOf e.nativeToken token o.payload
  native : s.nativeIn.toNat =
    sumOf (coinAmount e.nativeToken) (objs.map Object.payload)
  custom : s.tokenIn.toNat =
    sumOf (coinAmount token) (objs.map Object.payload)

theorem burnInputStep_eq_ok {definitionObject : ObjectID} {token : TokenID}
    {s s' : BurnInputs} {o : Object} (hne : o.id ≠ definitionObject)
    (hcustom : token ≠ e.nativeToken)
    (h : burnInputStep e t definitionObject token s o = .ok s') :
    s'.consumed = s.consumed ++ [o.id] ∧ o.owner = t.sender ∧
      IsCoinOf e.nativeToken token o.payload ∧
      s'.nativeIn.toNat =
        s.nativeIn.toNat + coinAmount e.nativeToken o.payload ∧
      s'.tokenIn.toNat = s.tokenIn.toNat + coinAmount token o.payload := by
  unfold burnInputStep at h
  rw [if_neg hne] at h
  simp only [ok_iff, not_or, not_not] at h
  obtain ⟨⟨hk, howner⟩, c, hc, h⟩ := h
  have hamount := coinAmount_of_parse (p := o.payload) hk hc
  split at h
  case isTrue hnative =>
    simp only [ok_iff] at h
    obtain ⟨hfits, rfl⟩ := h
    rw [hamount, hamount, if_pos hnative,
      if_neg (fun heq => hcustom (heq.symm.trans hnative))]
    exact ⟨rfl, howner, .inl ⟨hk, c, hc, hnative⟩,
      toNat_add_of_fits hfits, rfl⟩
  case isFalse hnative =>
    split at h
    case isTrue htoken =>
      simp only [ok_iff] at h
      obtain ⟨hfits, rfl⟩ := h
      rw [hamount, hamount, if_neg hnative, if_pos htoken]
      exact ⟨rfl, howner, .inr ⟨hk, c, hc, htoken⟩, rfl,
        toNat_add_of_fits hfits⟩
    case isFalse => cases h

theorem burnSpends_of_loop {definitionObject : ObjectID} {token : TokenID}
    {s : BurnInputs} (hcustom : token ≠ e.nativeToken)
    (h : t.objects.foldlM (burnInputStep e t definitionObject token)
      ⟨0, 0, []⟩ = .ok s) :
    BurnSpends e t token (spentObjects t [definitionObject]) s := by
  refine foldlM_prefix
    (P := fun pre s => BurnSpends e t token
      (pre.filter fun o => o.id ∉ [definitionObject]) s) ?_ ?_ h
  · exact ⟨rfl, by simp, by simp, rfl, rfl⟩
  intro pre o s s' _ hs hstep
  rw [List.filter_append, List.filter_singleton]
  by_cases hid : o.id = definitionObject
  · simp only [burnInputStep, hid, if_true, pure_eq_ok] at hstep
    subst hstep
    simpa [hid] using hs
  · obtain ⟨hconsumed, howner, hcoin, hnative, htoken⟩ :=
      burnInputStep_eq_ok hid hcustom hstep
    simp only [List.mem_singleton, hid, not_false_eq_true, decide_true,
      cond_true]
    simp only [List.mem_singleton] at hs
    refine ⟨?_, ?_, ?_, ?_, ?_⟩
    · rw [hconsumed, hs.consumed, List.map_append, List.map_singleton]
    · exact List.forall_mem_append.2
        ⟨hs.owner, List.forall_mem_singleton.2 howner⟩
    · exact List.forall_mem_append.2
        ⟨hs.coin, List.forall_mem_singleton.2 hcoin⟩
    · rw [hnative, hs.native, List.map_append, sumOf_append,
        List.map_singleton, sumOf_cons, sumOf_nil, Nat.add_zero]
    · rw [htoken, hs.custom, List.map_append, sumOf_append,
        List.map_singleton, sumOf_cons, sumOf_nil, Nat.add_zero]

end ZephyrChain.Execution
