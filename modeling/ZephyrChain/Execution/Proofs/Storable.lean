/-
Whether a shard can store what a transaction leaves. The executor makes
objects within limits of its own, and the object store checks the limits
of an object only when a block is applied.

# What holds

With a hash free of collisions, what an accepted transaction leaves can
be stored exactly when each of its operations fits (`Storable`): the
objects pass the checks of the store and have different ids, the receipts
of what it sends can be turned into objects on their destination, and on
the state its witnesses were proven against the store accepts the delta.
-/
import ZephyrChain.Execution.Proofs.Footprint.Execute

namespace ZephyrChain.Execution

open Lib
open WorldState (Memory Mirrors ValidDelta)

variable {C : Crypto} {e : Engine} {t : Transaction} {r : Result}

-- ==== new ids

/-- The id of the object at an index of a transaction. -/
abbrev newID (C : Crypto) (t : Transaction) (index : UInt32) : ObjectID :=
  objectIDForShard C (t.id C) index t.shardID

/-- The ids derived from a transaction are different, none is zero, and
none is the id of one of its own inputs: the transaction's hash was taken
over those. -/
structure NewIDs (C : Crypto) (t : Transaction) : Prop where
  txID : t.id C ≠ Bytes32.zero
  distinct : ∀ i j, newID C t i = newID C t j → i = j
  nonzero : ∀ i, newID C t i ≠ Bytes32.zero
  input : ∀ i, ∀ o ∈ t.objects, newID C t i ≠ o.id

/-- No id derived from the transaction is live in a state whose root the
transaction's hash was taken over. -/
def NewIn (C : Crypto) (m : Memory) (t : Transaction) : Prop :=
  ∀ i, newID C t i ∉ m.objects

variable {items : List Item}

theorem mem_bases {w : Object} {data : Bytes} (h : .next w data ∈ items) :
    w ∈ items.filterMap Item.base :=
  List.mem_filterMap.2 ⟨_, h, rfl⟩

/-- The ids of what an operation leaves. -/
theorem nodup_ids (hdistinct : ∀ i j, newID C t i = newID C t j → i = j)
    (hinput : ∀ i, ∀ o ∈ t.objects, newID C t i ≠ o.id)
    (hnodup : (t.objects.map Object.id).Nodup)
    (hindices : (items.filterMap Item.index).Nodup)
    (hbases : (items.filterMap Item.base).Nodup)
    (hmem : ∀ w ∈ items.filterMap Item.base, w ∈ t.objects) :
    ((items.map (Item.object C t)).map Object.id).Nodup := by
  induction items with
  | nil => exact List.nodup_nil
  | cons item items ih =>
    cases item with
    | fresh index spec =>
      obtain ⟨hindex, hindices⟩ := List.nodup_cons.1 hindices
      refine List.nodup_cons.2 ⟨?_, ih hindices hbases hmem⟩
      rw [List.map_map]
      intro hid
      obtain ⟨other, hother, heq⟩ := List.mem_map.1 hid
      cases other with
      | fresh index' spec' =>
        refine hindex (List.mem_filterMap.2 ⟨_, hother, ?_⟩)
        exact congrArg some (hdistinct _ _ heq)
      | next w data =>
        have hw := hmem w (mem_bases (List.mem_cons_of_mem _ hother))
        exact hinput index w hw heq.symm
    | next w data =>
      obtain ⟨hbase, hbases⟩ := List.nodup_cons.1 hbases
      obtain ⟨hw, hmem⟩ := List.forall_mem_cons.1 hmem
      refine List.nodup_cons.2 ⟨?_, ih hindices hbases hmem⟩
      rw [List.map_map]
      intro hid
      obtain ⟨other, hother, heq⟩ := List.mem_map.1 hid
      cases other with
      | fresh index' spec' => exact hinput index' w hw heq
      | next w' data' =>
        have hbase' := mem_bases hother
        have hw' := hmem w' hbase'
        rw [List.inj_on_of_nodup_map hnodup hw' hw heq] at hbase'
        exact hbase hbase'

-- ==== valid items

theorem valid_newObject (hnew : NewIDs C t) (index : UInt32)
    (spec : OutputSpec) :
    (newObject C t index spec).Valid ↔ spec.validate = .ok () := by
  rw [Object.valid_iff, OutputSpec.validate_eq_ok]
  have hversion : (1 : UInt64) ≠ 0 := by decide
  exact ⟨fun h => h.2.2, fun h => ⟨hnew.nonzero index, hversion, h⟩⟩

theorem valid_rewrite {w : Object} (hid : w.id ≠ Bytes32.zero)
    (hkind : w.kind ≠ .unknown) (data : Bytes) :
    (rewrite w data).Valid ↔ (Item.next w data).Fits := by
  rw [Object.valid_iff]
  show (w.id ≠ _ ∧ w.version + 1 ≠ 0 ∧ w.kind ≠ _ ∧ _ ∧ _) ↔ (_ ∧ _ ∧ _)
  constructor
  · rintro ⟨_, hversion, _, hdata, howner⟩
    exact ⟨hversion, howner, hdata⟩
  · rintro ⟨hversion, howner, hdata⟩
    exact ⟨hid, hversion, hkind, hdata, howner⟩

/-- The objects of a footprint are valid when its items fit. -/
theorem Footprint.valid_iff (hck : Checked C t) (hnew : NewIDs C t)
    {used : List Object} (h : Footprint C t r used items) :
    (∀ o ∈ r.created, o.Valid) ↔ ∀ i ∈ items, i.Fits := by
  rw [h.created, List.forall_mem_map]
  refine forall₂_congr fun item hitem => ?_
  cases item with
  | fresh index spec => exact valid_newObject hnew index spec
  | next w data =>
    have hw := h.bases w (mem_bases hitem)
    exact valid_rewrite (hck.witness w (h.used_mem w hw)).1
      (h.used_kind w hw).2 data

-- ==== stored

/-- What a transaction leaves can be stored: its objects are valid and
have different ids, its receipts turn into objects, and every state its
witnesses were proven against accepts its delta. -/
structure Stored (C : Crypto) (t : Transaction) (r : Result) : Prop where
  valid : ∀ o ∈ r.created, o.Valid
  distinct : (r.created.map Object.id).Nodup
  receipts : ∀ m ∈ r.outbound, ∀ height root, height ≠ 0 →
    root ≠ Bytes32.zero →
      ∃ o, (m.receipt t.shardID height r.txID root).destinationObject C =
        .ok o
  applies : ∀ m, Mirrors C m → t.stateRoot = m.root C →
    CollisionFree C m t → NewIn C m t →
      (m.apply C r.consumed r.created).2.2 = none

/-- An output for another shard becomes an object there. -/
theorem destinationObject_receipt {m : OutboundOutput} {shard : UInt32}
    {height : UInt64} {txID root : Hash} (hout : m.output.validate = .ok ())
    (hshard : m.destinationShard ≠ shard) (hheight : height ≠ 0)
    (htx : txID ≠ Bytes32.zero) (hroot : root ≠ Bytes32.zero) :
    ∃ o, (m.receipt shard height txID root).destinationObject C = .ok o := by
  have hvalid : (m.receipt shard height txID root).validate = .ok () := by
    simp only [CrossShardReceipt.validate, ok_iff, not_or]
    exact ⟨⟨hshard.symm, hheight, htx, hroot⟩, hout⟩
  rw [CrossShardReceipt.destinationObject, hvalid, ok_bind]
  exact ⟨_, rfl⟩

/-- The witnesses of a transaction are live in the state they were proven
against. -/
theorem live_of_witness {m : Memory} (hm : Mirrors C m)
    (henv : Enveloped C t) (hroot : t.stateRoot = m.root C)
    (hcf : CollisionFree C m t) {o : Object} (ho : o ∈ t.objects) :
    o.id ∈ m.objects := by
  have hlookup := lookup_of_witness hm henv hroot hcf ho
  exact Finmap.lookup_isSome.1 (by rw [hlookup]; rfl)

/-- The delta of a footprint whose objects are valid, on the state its
witnesses were proven against. -/
theorem Footprint.validDelta (hck : Checked C t)
    (hdistinct : ∀ i j, newID C t i = newID C t j → i = j)
    {used : List Object} (h : Footprint C t r used items)
    (hvalid : ∀ o ∈ r.created, o.Valid) {m : Memory} (hm : Mirrors C m)
    (hroot : t.stateRoot = m.root C) (hcf : CollisionFree C m t)
    (hin : NewIn C m t) : ValidDelta m.objects r.consumed r.created := by
  have hlive : ∀ o ∈ t.objects, o.id ∈ m.objects := fun o =>
    live_of_witness hm hck.enveloped hroot hcf
  refine ⟨?_, ?_, hvalid, ?_, ?_⟩
  · rw [h.consumed]
    exact h.used_nodup.map_on fun o ho o' ho' =>
      List.inj_on_of_nodup_map hck.enveloped.nodup (h.used_mem o ho)
        (h.used_mem o' ho')
  · rw [h.consumed, List.forall_mem_map]
    exact fun o ho => hlive o (h.used_mem o ho)
  · have hinput : ∀ i, ∀ o ∈ t.objects, newID C t i ≠ o.id :=
      fun i o ho heq => hin i (heq ▸ hlive o ho)
    rw [h.created]
    exact nodup_ids hdistinct hinput hck.enveloped.nodup h.indices
      h.bases_nodup fun w hw => h.used_mem w (h.bases w hw)
  · rw [h.created, h.consumed, List.forall_mem_map]
    intro item hitem hlive
    cases item with
    | fresh index spec => exact absurd hlive (hin index)
    | next w data =>
      have hw := h.bases w (mem_bases hitem)
      exact List.mem_map.2 ⟨w, hw, rfl⟩

theorem stored_iff_storable (C : Crypto) (e : Engine) (t : Transaction)
    (r : Result) (hnew : NewIDs C t) (h : execute C e t = .ok r) :
    Stored C t r ↔ Storable e t := by
  obtain ⟨hck, used, items, hfoot, hfits⟩ := execute_leaves h
  rw [← hfits, ← hfoot.valid_iff hck hnew]
  refine ⟨Stored.valid, fun hvalid => ⟨hvalid, ?_, ?_, ?_⟩⟩
  · rw [hfoot.created]
    exact nodup_ids hnew.distinct hnew.input hck.enveloped.nodup
      hfoot.indices hfoot.bases_nodup
      fun w hw => hfoot.used_mem w (hfoot.bases w hw)
  · intro m hmem height root hheight hroot
    obtain ⟨hout, hshard⟩ := hfoot.outbound m hmem
    refine destinationObject_receipt hout hshard hheight ?_ hroot
    rw [hfoot.txID]
    exact hnew.txID
  · intro m hm hroot hcf hin
    have hdelta :=
      hfoot.validDelta hck hnew.distinct hvalid hm hroot hcf hin
    rw [(hm.apply_valid hdelta).1]

-- ==== samples

/-- What `tailCrypto` makes of a sample transaction: its fee, its expiry
and its salt. -/
def sampleTail : Bytes32 :=
  Bytes32.copy32 (List.replicate 16 0 ++ List.replicate 16 1)

theorem id_sampleTransaction (op : Operation) :
    (sampleTransaction tailCrypto op).id tailCrypto = sampleTail := by
  have htail : Writer.u64 0 ++ Writer.u64 0 ++
      (Vector.replicate 16 (1 : UInt8)).toList = sampleTail.toList := by
    decide
  unfold Transaction.id Transaction.intentBytes
  show domainHash tailCrypto _ (_ ++ Writer.u64 0 ++ Writer.u64 0 ++
    (Vector.replicate 16 (1 : UInt8)).toList) = _
  rw [List.append_assoc _ (Writer.u64 0) (Writer.u64 0),
    List.append_assoc _ (_ ++ _) (Vector.toList _), htail]
  exact domainHash_tailCrypto _ _ _

/-- The id at an index: the shard, the end of the transaction's hash, the
index and the shard again. -/
theorem toList_objectIDForShard (x : Bytes32) (index shard : UInt32) :
    (objectIDForShard tailCrypto x index shard).toList =
      Writer.u32 shard ++
        (x.toList.drop 12 ++ (Writer.u32 index ++ Writer.u32 shard)) := by
  have hlen : (x.toList.drop 8 ++
      (Writer.u32 index ++ Writer.u32 shard)).length = 32 := by
    simp
  have hsplit : Writer.fixed x ++ Writer.u32 index ++ Writer.u32 shard =
      x.toList.take 8 ++ (x.toList.drop 8 ++
        (Writer.u32 index ++ Writer.u32 shard)) := by
    rw [← List.append_assoc, List.take_append_drop, Writer.fixed,
      List.append_assoc]
  have hhash : domainHash tailCrypto "zephyr/object-id/v2"
      (Writer.fixed x ++ Writer.u32 index ++ Writer.u32 shard) =
        Bytes32.copy32 (x.toList.drop 8 ++
          (Writer.u32 index ++ Writer.u32 shard)) := by
    rw [hsplit, ← Bytes32.toList_copy32 hlen, domainHash_tailCrypto,
      Bytes32.toList_copy32 hlen]
  unfold objectIDForShard withShard
  rw [hhash, Bytes32.toList_copy32 hlen, List.drop_append_of_le_length
    (by simp), List.drop_drop, Bytes32.toList_copy32 (by simp)]

theorem newIDs_sampleTransaction (op : Operation) :
    NewIDs tailCrypto (sampleTransaction tailCrypto op) := by
  refine ⟨?_, ?_, ?_, ?_⟩
  · rw [id_sampleTransaction]
    decide
  · intro i j h
    have hlist := congrArg Vector.toList h
    rw [toList_objectIDForShard, toList_objectIDForShard] at hlist
    have htail := List.append_cancel_left (List.append_cancel_left hlist)
    exact Writer.u32_inj (List.append_cancel_right htail)
  · intro i h
    have hmiddle := congrArg (fun x : Bytes32 =>
      (x.toList.drop 4).take 20) h
    simp only [toList_objectIDForShard, id_sampleTransaction] at hmiddle
    rw [List.drop_left' (by simp), List.take_left' (by simp)] at hmiddle
    exact absurd hmiddle (by decide)
  · intro i o ho
    simp [Transaction.objects, sampleTransaction] at ho

/-- The checks of a sample transaction do not depend on its operation. -/
theorem validateStatic_sample {op : Operation} (hkind : op.kind ≠ 0)
    (hlen : op.payload.length ≤ maxOpPayload) :
    (sampleTransaction tailCrypto op).validateStatic tailCrypto =
      .ok () := by
  have hops : ¬ ∃ x ∈ [op], x.kind = 0 ∨
      maxOpPayload < x.payload.length := by
    simp [hkind, hlen]
  have hsignature (digest : Bytes32) : verifySignature tailCrypto sampleKey
      digest sampleSignature = .ok () := by
    show verifySignature tailCrypto sampleKey Bytes32.zero sampleSignature =
      .ok ()
    decide +kernel
  have hkey : sampleKey.length = 65 := by decide
  simp only [Transaction.validateStatic, ok_iff, forM_eq_ok]
  exact ⟨not_not.2 rfl, by simp [sampleTransaction]; decide, not_not.2 hkey,
    Bool.noConfusion, not_not.2 rfl, by simp [sampleTransaction]; decide,
    rfl, by simp [sampleTransaction], hops, hsignature _⟩

theorem checkEnvelope_sample {op : Operation} {native : TokenID}
    (runtimes : Bytes → Option Runtime) (hkind : op.kind ≠ 0)
    (hlen : op.payload.length ≤ maxOpPayload) :
    checkEnvelope tailCrypto
      { sampleEngine native with contractRuntimes := runtimes }
      (sampleTransaction tailCrypto op) = .ok () := by
  have hshard : (Router.mk 1).shardForAccount
      (accountIDFromPublicKey tailCrypto sampleKey) = .ok 0 := by
    decide +kernel
  simp only [checkEnvelope, Transaction.verifyForNetwork, ok_iff, forM_eq_ok]
  exact ⟨⟨not_not.2 rfl, validateStatic_sample hkind hlen⟩, rfl, 0, hshard,
    not_not.2 rfl, by simp [sampleTransaction]⟩

/-- An engine that takes any module and answers no call. -/
def idleRuntime : Runtime := ⟨fun _ => .ok (), fun _ => .error .invalidRequest⟩

def wasmEngine : Engine :=
  { sampleEngine (Vector.replicate 32 7) with
    contractRuntimes := fun name =>
      if name = runtimeWASMv1 then some idleRuntime else none }

/-- The deployment of a contract, without inputs and fee. -/
def deployTransaction (d : Deployment) : Transaction :=
  sampleTransaction tailCrypto ⟨Op.deployContract, d.encode⟩

/-- Any deployment for the engine succeeds, and leaves its contract
object. -/
theorem execute_deployTransaction {d : Deployment}
    (hvalid : d.validate = .ok ()) (hwasm : d.runtime = runtimeWASMv1)
    (howner : d.upgradeAuthority =
      accountIDFromPublicKey tailCrypto sampleKey)
    (hlen : d.encode.length ≤ maxOpPayload) :
    ∃ r, execute tailCrypto wasmEngine (deployTransaction d) = .ok r ∧
      ∃ o ∈ r.created, o.data.length = 36 + d.encode.length := by
  have hkind : (Operation.mk Op.deployContract d.encode).kind ≠ 0 := by
    show Op.deployContract ≠ 0
    decide
  have henv : checkEnvelope tailCrypto wasmEngine (deployTransaction d) =
      .ok () := checkEnvelope_sample _ hkind hlen
  have hid : contractIDFromTransaction tailCrypto
      ((deployTransaction d).id tailCrypto) 0 ≠ Bytes32.zero := by
    rw [deployTransaction, id_sampleTransaction]
    decide +kernel
  obtain ⟨raw, hraw⟩ : ∃ raw, (StoredContract.mk
      (contractIDFromTransaction tailCrypto
        ((deployTransaction d).id tailCrypto) 0) d).marshalBinary =
          .ok raw := by
    simp only [StoredContract.marshalBinary, Deployment.marshalBinary,
      refuse_of_not _ hid, hvalid, ok_bind]
    exact ⟨_, rfl⟩
  have hruntime : contractRuntime wasmEngine.normalized d.runtime =
      some idleRuntime := by
    rw [hwasm]
    rfl
  have hfee : feeOnlyOutputs tailCrypto wasmEngine.normalized
      (deployTransaction d) = .ok ([], []) := rfl
  obtain ⟨r, hr⟩ : ∃ r, executeDeployContract tailCrypto
      wasmEngine.normalized (deployTransaction d) d.encode = .ok r := by
    simp only [executeDeployContract, parseDeployment_encode hvalid, ok_iff]
    exact ⟨_, d, rfl, not_not.2 howner, idleRuntime, hruntime, rfl, _, hfee,
      raw, hraw, rfl⟩
  refine ⟨r, ?_, ?_⟩
  · rw [execute, henv, ok_bind]
    exact hr
  · simp only [executeDeployContract, feeOnlyOutputs, ok_iff] at hr
    obtain ⟨d', hd', _, _, _, _, _, _, raw, hraw, rfl⟩ := hr
    obtain rfl := Except.ok.inj
      ((parseDeployment_encode hvalid).symm.trans hd')
    refine ⟨_, List.mem_append_right _ List.mem_cons_self, ?_⟩
    exact StoredContract.length_marshalBinary hraw

/-- A module of more than a megabyte. -/
def largeDeployment : Deployment where
  runtime := runtimeWASMv1
  code := [0x00, 0x61, 0x73, 0x6d, 0x01, 0x00, 0x00, 0x00] ++
    List.replicate 1048576 0
  abi := 1
  upgradeAuthority := accountIDFromPublicKey tailCrypto sampleKey
  initialState := []
  maxMemoryPages := 1

theorem length_largeDeployment : largeDeployment.encode.length = 1048641 := by
  have hruntime : runtimeWASMv1.length = 7 := by decide
  have hcode : largeDeployment.code.length = 1048584 := by
    rw [largeDeployment, List.length_append, List.length_replicate]
    rfl
  simp only [Deployment.encode, List.length_append, Writer.length_bytes,
    Writer.length_u16, Writer.length_fixed, Writer.length_u32, hcode]
  show 4 + runtimeWASMv1.length + _ + _ + _ + (4 + 0) + _ = _
  rw [hruntime]

theorem validate_largeDeployment : largeDeployment.validate = .ok () := by
  have hcode : largeDeployment.code.length = 1048584 := by
    rw [largeDeployment, List.length_append, List.length_replicate]
    rfl
  have howner : accountIDFromPublicKey tailCrypto sampleKey ≠
      Bytes32.zero := by decide +kernel
  have hwasm : validateWASMModule largeDeployment.code = true := by
    unfold validateWASMModule
    rw [hcode, decide_eq_true_eq]
    exact ⟨by decide, by decide, rfl, rfl⟩
  simp only [Deployment.validate, ok_iff, not_or, hcode]
  refine ⟨⟨?_, by decide, by decide, ?_, ?_, howner⟩, ?_⟩
  · show ¬ (1 : UInt16) = 0
    decide
  · show ¬ maxInitialStateBytes < 0
    decide
  · show ¬ (1 : UInt32) = 0
    decide
  · rw [if_pos (show largeDeployment.runtime = runtimeWASMv1 from rfl)]
    exact refuse_of_not _ (by rw [hwasm]; decide)

/-- The engine accepts the deployment, and its contract object is larger
than an object can be. -/
theorem largeDeployment_not_valid :
    ∃ r, NewIDs tailCrypto (deployTransaction largeDeployment) ∧
      execute tailCrypto wasmEngine (deployTransaction largeDeployment) =
        .ok r ∧ ∃ o ∈ r.created, ¬ o.Valid := by
  have hlen : largeDeployment.encode.length ≤ maxOpPayload := by
    rw [length_largeDeployment]
    decide
  obtain ⟨r, hr, o, ho, hdata⟩ :=
    execute_deployTransaction validate_largeDeployment rfl rfl hlen
  refine ⟨r, newIDs_sampleTransaction _, hr, o, ho, fun hvalid => ?_⟩
  have hmax := ((Object.valid_iff o).1 hvalid).2.2.2.1
  rw [hdata, length_largeDeployment] at hmax
  exact absurd hmax (by decide)

/-- The creation of a token, whose result fits. -/
def fittingTransaction : Transaction :=
  sampleTransaction tailCrypto
    ⟨Op.createToken, (sampleCreate tailCrypto).encode⟩

theorem fittingTransaction_stored :
    ∃ r, execute tailCrypto (sampleEngine (Vector.replicate 32 7))
        fittingTransaction = .ok r ∧
      Stored tailCrypto fittingTransaction r := by
  have hrun : (execute tailCrypto (sampleEngine (Vector.replicate 32 7))
      fittingTransaction).isOk = true := by
    decide +kernel
  obtain ⟨r, hr⟩ := exists_of_isOk hrun
  refine ⟨r, hr, (stored_iff_storable _ _ _ r (newIDs_sampleTransaction _)
    hr).2 ?_⟩
  refine List.forall_mem_singleton.2 (fits_of_not_mem ?_)
  show Op.createToken ∉ conditional
  decide

end ZephyrChain.Execution
