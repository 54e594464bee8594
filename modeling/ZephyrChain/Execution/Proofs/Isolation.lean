/-
Which contract state a call may change.

A call names the contract it runs and the state objects it may read and
write. The executor checks that the objects are contract state and that
the engine wrote only to those declared for writing. It never asks which
deployment they come from, so the accesses of the call alone decide
whether a contract stays within its own state.

# The past

`Past` keeps every transaction applied since genesis with its result.
Who made an object is read off that record: `StateOf` says that an object
was made by the deployment of a contract, or by a call to it.

# For every engine

What is written is up to the engine, and the engine is a parameter. A
call is isolated when no engine at all can make it touch foreign state;
`writer` is the engine that writes wherever it may.
-/
import ZephyrChain.Execution.Proofs.Access

namespace ZephyrChain.Execution

open Lib
open WorldState (Memory shallowCrypto)

variable {C : Crypto} {e : Engine} {t : Transaction} {payload : Bytes}
  {r : Result}

-- ==== the past

/-- A transaction and what became of it. -/
abbrev Entry := Transaction × Result

/-- The transactions applied since `genesis`, batch by batch, and the
state they lead to. -/
inductive Past (C : Crypto) (genesis : Memory) :
    List Entry → Memory → Prop
  | genesis : Past C genesis [] genesis
  | batch {past : List Entry} {m m' : Memory} {txs : List Transaction}
      {results : List Result} (e : Engine) :
      Past C genesis past m → applyBatch C e m txs = .ok (m', results) →
      Past C genesis (past ++ txs.zip results) m'

theorem applyBatch_executed {m m' : Memory} {txs : List Transaction}
    {results : List Result} (h : applyBatch C e m txs = .ok (m', results)) :
    List.Forall₂ (fun t r => execute C e t = .ok r) txs results := by
  cases txs with
  | nil =>
    cases h
    exact .nil
  | cons first rest =>
    simp only [applyBatch, executeBatch, ok_iff, not_not] at h
    obtain ⟨_, results', ⟨_, hexec⟩, h⟩ := h
    split at h
    case h_1 =>
      cases h
      exact mapM_eq_ok hexec
    case h_2 => cases h

variable {past : List Entry}

/-- Every entry of the past was executed. -/
theorem Past.executed {genesis m : Memory} (h : Past C genesis past m) :
    ∀ entry ∈ past, ∃ e, execute C e entry.1 = .ok entry.2 := by
  induction h with
  | genesis =>
    intro entry hentry
    cases hentry
  | batch e _ hbatch ih =>
    intro entry hentry
    rcases List.mem_append.1 hentry with hold | hnew
    · exact ih entry hold
    · exact ⟨e, List.forall₂_zip (applyBatch_executed hbatch) hnew⟩

/-- A transaction that deploys a contract. -/
def Deploys (t : Transaction) : Prop :=
  ∃ op, t.operations = [op] ∧ op.kind = Op.deployContract

/-- A transaction that calls a contract. -/
def CallsContract (t : Transaction) (call : Call) : Prop :=
  ∃ op, t.operations = [op] ∧ op.kind = Op.contractCall ∧
    parseCall op.payload = .ok call

/-- A result made an object of a kind that was not there before. -/
def Result.Makes (r : Result) (kind : Kind) (id : ObjectID) : Prop :=
  id ∉ r.consumed ∧ ∃ o ∈ r.created, o.id = id ∧ o.kind = kind

/-- The state of a contract: made by the deployment that made the
contract, or by a call to it. -/
def StateOf (past : List Entry) (contract id : ObjectID) : Prop :=
  ∃ entry ∈ past, entry.2.Makes .contractState id ∧
    ((Deploys entry.1 ∧ entry.2.Makes .contract contract) ∨
      ∃ call, CallsContract entry.1 call ∧ call.contractObject = contract)

/-- The contract state a transaction has replaced. -/
def Rewrites (t : Transaction) (r : Result) (id : ObjectID) : Prop :=
  id ∈ r.consumed ∧ ∃ o ∈ t.objects, o.id = id ∧ o.kind = .contractState

/-- Every access declared for writing is to the contract's own state. -/
def Confined (past : List Entry) (call : Call) : Prop :=
  ∀ a ∈ call.accesses, a.write = true →
    StateOf past call.contractObject a.objectID

-- ==== one call

variable {call : Call}

/-- A transaction that calls a contract runs that operation alone. -/
theorem CallsContract.execute_iff (hcall : CallsContract t call) :
    ∃ payload, parseCall payload = .ok call ∧ ∀ (e : Engine) (r : Result),
      execute C e t = .ok r ↔ checkEnvelope C e t = .ok () ∧
        executeContractCall C e.normalized t payload = .ok r := by
  obtain ⟨op, hop, hk, hparse⟩ := hcall
  refine ⟨op.payload, hparse, fun e r => ?_⟩
  simp only [execute, ok_iff, hop, executeOperation_call hk]

variable {id : ObjectID}

/-- The state a call replaces is what its engine wrote to. -/
theorem Calls.rewrites_iff {result : ContractResult} (hck : Checked C t)
    (h : Calls C e t payload r call result) :
    Rewrites t r id ↔ id ∈ result.writes.keys := by
  obtain ⟨created, consumed, receipt, hfee, _, hr⟩ := h.shape
  have hmoves := moves_of_fee hck hfee
  constructor
  · rintro ⟨hid, o, ho, rfl, hk⟩
    rw [hr] at hid
    rcases List.mem_append.1 hid with hspent | hwritten
    · rw [hmoves.consumed] at hspent
      obtain ⟨w, hw, hwid⟩ := List.mem_map.1 hspent
      obtain rfl := List.inj_on_of_nodup_map hck.enveloped.nodup
        (hmoves.sublist.subset hw) ho hwid
      exact absurd ((hmoves.coins w hw).symm.trans hk) (by decide)
    · exact hwritten
  · intro hid
    obtain ⟨o, ho, hk⟩ := h.replaced id hid
    obtain ⟨hmem, hoid⟩ := mem_of_witnessByID ho
    refine ⟨?_, o, hmem, hoid, hk⟩
    rw [hr]
    exact List.mem_append_right _ hid

-- ==== every engine

/-- The same engine with other contract runtimes. -/
def Engine.withRuntimes (e : Engine) (runtimes : Bytes → Option Runtime)
    (script : Runtime) : Engine :=
  { e with contractRuntimes := runtimes, scriptRuntime := script }

/-- A map that clears the objects of a list. -/
def clearAll (ids : List ObjectID) : AList fun _ : ObjectID => Bytes :=
  ids.foldr (fun id m => m.insert id []) ∅

theorem mem_clearAll {ids : List ObjectID} :
    id ∈ (clearAll ids).keys ↔ id ∈ ids := by
  induction ids with
  | nil => simp [clearAll]
  | cons head rest ih =>
    show id ∈ ((clearAll rest).insert head []) ↔ _
    rw [AList.mem_insert, List.mem_cons]
    exact or_congr_right ih

/-- The answer that clears every object the request may write to. -/
def clearing (request : Request) : ContractResult where
  returnData := []
  fuelUsed := 0
  writes := clearAll ((request.accesses.filter Access.write).map
    Access.objectID)
  events := []

theorem mem_clearing {request : Request} :
    id ∈ (clearing request).writes.keys ↔
      ⟨id, true⟩ ∈ request.accesses := by
  show id ∈ (clearAll _).keys ↔ _
  rw [mem_clearAll, List.mem_map]
  constructor
  · rintro ⟨⟨id', write⟩, ha, rfl⟩
    obtain ⟨hmem, hwrite⟩ := List.mem_filter.1 ha
    obtain rfl : write = true := hwrite
    exact hmem
  · intro hmem
    exact ⟨_, List.mem_filter.2 ⟨hmem, rfl⟩, rfl⟩

/-- The engine that gives this answer. -/
def writer : Runtime :=
  ⟨fun _ => .ok (), fun request => .ok (clearing request)⟩

/-- The guard lets the answer pass. -/
theorem writer_meteredExecute {request : Request}
    (h : validateRequest request = .ok ()) :
    writer.meteredExecute request = .ok (clearing request) := by
  have hchecks : (do
      refuse (request.fuelLimit < (clearing request).fuelUsed)
        .fuelExhausted
      refuse (maxReturnBytes < (clearing request).returnData.length ∨
        maxEvents < (clearing request).events.length) .invalidContractResult
      refuse (∃ event ∈ (clearing request).events,
        maxEventBytes < event.length) .invalidContractResult
      refuse (∃ id ∈ (clearing request).writes.keys,
        Access.mk id true ∉ request.accesses) .undeclaredAccess
      return clearing request : Except Error ContractResult) =
        .ok (clearing request) := by
    simp only [ok_iff, and_true]
    refine ⟨UInt64.not_lt.2 UInt64.zero_le, ?_, ?_, ?_⟩
    · show ¬ (maxReturnBytes < 0 ∨ maxEvents < 0)
      simp
    · rintro ⟨event, hevent, _⟩
      cases hevent
    · rintro ⟨id, hid, hnot⟩
      exact hnot (mem_clearing.1 hid)
  unfold Runtime.meteredExecute
  rw [h, ok_bind]
  split <;> exact hchecks

/-- A call that goes through on one engine goes through on the writer,
which replaces all it may. -/
theorem executeContractCall_writer
    (h : executeContractCall C e t payload = .ok r) (script : Runtime) :
    ∃ r' call result,
      executeContractCall C (e.withRuntimes (fun _ => some writer) script)
        t payload = .ok r' ∧
      Calls C (e.withRuntimes (fun _ => some writer) script) t payload r'
        call result ∧
      ∀ a ∈ call.accesses, a.write = true →
        a.objectID ∈ result.writes.keys := by
  simp only [executeContractCall, ok_iff, not_not] at h
  obtain ⟨call, hcall, contract, hcontract, hkind, stored, hstored, runtime,
    hruntime, values, hvalues, result, hresult, ⟨created, consumed⟩, hfee,
    rfl⟩ := h
  simp only [Runtime.meteredExecute, ok_iff] at hresult
  have hanswer := writer_meteredExecute hresult.1
  have hrun : ∃ r', executeContractCall C
      (e.withRuntimes (fun _ => some writer) script) t payload =
        .ok r' := by
    simp only [executeContractCall, ok_iff, not_not]
    exact ⟨_, call, hcall, contract, hcontract, hkind, stored, hstored,
      writer, rfl, values, hvalues, _, hanswer, (created, consumed), hfee,
      rfl⟩
  obtain ⟨r', hr'⟩ := hrun
  obtain ⟨call', result', hcalls⟩ := executeContractCall_eq_ok hr'
  refine ⟨r', call', result', hr', hcalls, fun a ha hwrite => ?_⟩
  obtain ⟨runtime', request', hrequest', hresult'⟩ := hcalls.answered
  simp only [callRequest, ok_iff, not_not] at hrequest'
  obtain ⟨call'', hcall'', _, _, _, _, _, _, hwriter, _, _, hpair⟩ :=
    hrequest'
  obtain ⟨rfl, rfl⟩ := Prod.mk.inj hpair
  obtain rfl := Option.some.inj hwriter
  obtain rfl := Except.ok.inj (hcalls.parsed.symm.trans hcall'')
  have hvalid := hresult'
  simp only [Runtime.meteredExecute, ok_iff] at hvalid
  rw [writer_meteredExecute hvalid.1] at hresult'
  rw [← Except.ok.inj hresult', mem_clearing]
  obtain ⟨id, write⟩ := a
  obtain rfl : write = true := hwrite
  exact ha

/-- No engine makes a call replace state of another contract. -/
def Isolated (C : Crypto) (e : Engine) (past : List Entry)
    (t : Transaction) (call : Call) : Prop :=
  ∀ runtimes script r,
    execute C (e.withRuntimes runtimes script) t = .ok r →
    ∀ id, Rewrites t r id → StateOf past call.contractObject id

/-- A call is isolated exactly when its accesses are confined. -/
theorem isolated_iff_confined (hcall : CallsContract t call)
    (h : execute C e t = .ok r) :
    Isolated C e past t call ↔ Confined past call := by
  obtain ⟨payload, hparse, hexec⟩ := hcall.execute_iff (C := C)
  obtain ⟨hck, _⟩ := execute_leaves h
  obtain ⟨henv, hrun⟩ := (hexec e r).1 h
  constructor
  · -- the writer replaces everything the call may write to
    intro hisolated a ha hwrite
    obtain ⟨r', call', result, hr', hcalls, hwritten⟩ :=
      executeContractCall_writer hrun e.scriptRuntime
    obtain rfl := Except.ok.inj (hparse.symm.trans hcalls.parsed)
    refine hisolated (fun _ => some writer) e.scriptRuntime r'
      ((hexec _ r').2 ⟨henv, hr'⟩) a.objectID ?_
    exact (hcalls.rewrites_iff hck).2 (hwritten a ha hwrite)
  · -- the guard holds every engine to the declared accesses
    intro hconfined runtimes script r' hr' id hid
    obtain ⟨_, hrun'⟩ := (hexec _ r').1 hr'
    obtain ⟨call', result, hcalls⟩ := executeContractCall_eq_ok hrun'
    obtain rfl := Except.ok.inj (hparse.symm.trans hcalls.parsed)
    have hwritten := (hcalls.rewrites_iff hck).1 hid
    exact hconfined ⟨id, true⟩ (hcalls.written id hwritten) rfl

-- ==== deployments

/-- What a deployment makes beside the change of the fee. -/
theorem deployment_created (hdeploys : Deploys t)
    (h : execute C e t = .ok r) :
    ∀ o ∈ r.created, o.kind = .coin ∨
      (o.kind = .contract ∧
        o.id = objectIDForShard C (t.id C) contractObjectIndex t.shardID) ∨
      (o.kind = .contractState ∧
        o.id = objectIDForShard C (t.id C) contractStateIndex t.shardID) := by
  obtain ⟨op, hop, hk⟩ := hdeploys
  obtain ⟨op', hop', hexec⟩ := execute_single h
  obtain rfl : op = op' := List.singleton_inj.1 (hop.symm.trans hop')
  have hrun : executeOperation C e.normalized t op =
      executeDeployContract C e.normalized t op.payload := by
    unfold executeOperation executeExtended
    rw [hk]
    rfl
  rw [hrun] at hexec
  simp only [executeDeployContract, feeOnlyOutputs, ok_iff, not_not] at hexec
  obtain ⟨d, _, _, _, _, _, ⟨created, consumed⟩, hfee, raw, _, rfl⟩ := hexec
  obtain ⟨hbal, _⟩ := feeOnlyOutputsExcluding_eq_ok hfee
  intro o ho
  rcases List.mem_append.1 ho with hchange | hmade
  · exact .inl (hbal.change_native o hchange).1
  rcases List.mem_cons.1 hmade with rfl | hstate
  · exact .inr (.inl ⟨rfl, rfl⟩)
  · split at hstate
    case isTrue =>
      rw [List.mem_singleton.1 hstate]
      exact .inr (.inr ⟨rfl, rfl⟩)
    case isFalse => cases hstate

/-- The id of what a deployment makes comes from its transaction. -/
theorem deployment_makes {kind : Kind} (hdeploys : Deploys t)
    (h : execute C e t = .ok r) (hmakes : r.Makes kind id) :
    (kind = .contract → id =
      objectIDForShard C (t.id C) contractObjectIndex t.shardID) ∧
    (kind = .contractState → id =
      objectIDForShard C (t.id C) contractStateIndex t.shardID) := by
  obtain ⟨_, o, ho, rfl, rfl⟩ := hmakes
  rcases deployment_created hdeploys h o ho with hk | ⟨hk, hid⟩ | ⟨hk, hid⟩
  · rw [hk]
    exact ⟨Kind.noConfusion, Kind.noConfusion⟩
  · rw [hk]
    exact ⟨fun _ => hid, Kind.noConfusion⟩
  · rw [hk]
    exact ⟨Kind.noConfusion, fun _ => hid⟩

/-- A call makes no state of its own. -/
theorem not_makes_of_call (hcall : CallsContract t call)
    (h : execute C e t = .ok r) : ¬ r.Makes .contractState id := by
  rintro ⟨hnew, o, ho, rfl, hk⟩
  obtain ⟨payload, _, hexec⟩ := hcall.execute_iff (C := C)
  obtain ⟨_, hrun⟩ := (hexec e r).1 h
  obtain ⟨_, result, hcalls⟩ := executeContractCall_eq_ok hrun
  obtain ⟨created, consumed, receipt, hfee, _, rfl⟩ := hcalls.shape
  obtain ⟨hbal, _⟩ := feeOnlyOutputsExcluding_eq_ok hfee
  rcases List.mem_append.1 ho with hmade | hreceipt
  · rcases List.mem_append.1 hmade with hchange | hwritten
    · have hcoin := (hbal.change_native o hchange).1
      exact absurd (hcoin.symm.trans hk) (by decide)
    · obtain ⟨entry, hentry, rfl⟩ := List.mem_map.1 hwritten
      have hkey : entry.1 ∈ result.writes.keys :=
        List.mem_map_of_mem hentry
      obtain ⟨w, hw, _⟩ := hcalls.replaced _ hkey
      refine hnew (List.mem_append_right _ ?_)
      rw [hw, Option.getD_some]
      show w.id ∈ _
      rw [(mem_of_witnessByID hw).2]
      exact hkey
  · rw [List.mem_singleton.1 hreceipt] at hk
    cases hk

/-- Deployments of the past that share the id of an object they make are
one transaction. -/
def DistinctIDs (C : Crypto) (past : List Entry) : Prop :=
  ∀ d ∈ past, ∀ d' ∈ past, ∀ index,
    objectIDForShard C (d.1.id C) index d.1.shardID =
      objectIDForShard C (d'.1.id C) index d'.1.shardID →
    d.1.intentBytes = d'.1.intentBytes

/-- The state of a contract was deployed by who deployed the contract. -/
theorem Past.deployer_eq {genesis m : Memory}
    (hpast : Past C genesis past m) (hids : DistinctIDs C past)
    {contract : ObjectID} (hstate : StateOf past contract id)
    {d d' : Entry} (hd : d ∈ past) (hdeploys : Deploys d.1)
    (hcontract : d.2.Makes .contract contract) (hd' : d' ∈ past)
    (hdeploys' : Deploys d'.1) (hmakes : d'.2.Makes .contractState id) :
    d.1.sender = d'.1.sender := by
  obtain ⟨entry, hentry, hmade, hby⟩ := hstate
  obtain ⟨_, hexec⟩ := hpast.executed entry hentry
  obtain ⟨_, hd_exec⟩ := hpast.executed d hd
  obtain ⟨_, hd_exec'⟩ := hpast.executed d' hd'
  rcases hby with ⟨hdeployed, hwith⟩ | ⟨call, hcall, _⟩
  · have hsame := (deployment_makes hdeploys hd_exec hcontract).1 rfl
    have hown := (deployment_makes hdeployed hexec hwith).1 rfl
    have hsame' := (deployment_makes hdeploys' hd_exec' hmakes).2 rfl
    have hown' := (deployment_makes hdeployed hexec hmade).2 rfl
    calc d.1.sender
        = entry.1.sender := Transaction.sender_of_intentBytes
          (hids d hd entry hentry _ (hsame.symm.trans hown))
      _ = d'.1.sender := Transaction.sender_of_intentBytes
          (hids entry hentry d' hd' _ (hown'.symm.trans hsame'))
  · exact absurd hmade (not_makes_of_call hcall hexec)

/-- A call stays within the state of its contract exactly when it declares
no other state for writing. Then it never replaces state that somebody
other than the deployer of the contract has deployed. -/
theorem contract_state_isolation {genesis m : Memory} {past : List Entry}
    (hpast : Past C genesis past m) {call : Call}
    (hcall : CallsContract t call) (h : execute C e t = .ok r) :
    (Isolated C e past t call ↔ Confined past call) ∧
      (Confined past call → DistinctIDs C past →
        ∀ d ∈ past, Deploys d.1 → d.2.Makes .contract call.contractObject →
        ∀ d' ∈ past, Deploys d'.1 → ∀ id, d'.2.Makes .contractState id →
        Rewrites t r id → d.1.sender = d'.1.sender) := by
  have hiff : Isolated C e past t call ↔ Confined past call :=
    isolated_iff_confined hcall h
  refine ⟨hiff, fun hconfined hids d hd hdeploys hcontract d' hd' hdeploys'
    id hmakes hrewrites => ?_⟩
  have hstate := hiff.2 hconfined e.contractRuntimes e.scriptRuntime r h id
    hrewrites
  exact hpast.deployer_eq hids hstate hd hdeploys hcontract hd' hdeploys'
    hmakes

-- ==== two contracts

/-- The transaction of a sample key. -/
def signed (key : UInt8) (op : Operation) : Transaction :=
  { sampleTransaction shallowCrypto op with
    sender := accountIDFromPublicKey shallowCrypto (List.replicate 65 key)
    senderPublicKey := List.replicate 65 key }

/-- A module that is only a header, with one byte of state. -/
def sampleDeployment (key : UInt8) : Deployment where
  runtime := runtimeWASMv1
  code := [0x00, 0x61, 0x73, 0x6d, 0x01, 0x00, 0x00, 0x00]
  abi := 1
  upgradeAuthority :=
    accountIDFromPublicKey shallowCrypto (List.replicate 65 key)
  initialState := [key]
  maxMemoryPages := 1

def deployOf (key : UInt8) : Transaction :=
  signed key ⟨Op.deployContract, (sampleDeployment key).encode⟩

def contractOf (key : UInt8) : Object :=
  newObject shallowCrypto (deployOf key) contractObjectIndex
    ⟨(deployOf key).sender, .contract,
      Writer.fixed (contractIDFromTransaction shallowCrypto
        ((deployOf key).id shallowCrypto) 0) ++
      Writer.bytes (sampleDeployment key).encode⟩

def stateOf (key : UInt8) : Object :=
  newObject shallowCrypto (deployOf key) contractStateIndex
    ⟨(deployOf key).sender, .contractState, [key]⟩

/-- All contracts run on the writer. -/
def writerEngine : Engine :=
  (sampleEngine (Vector.replicate 32 7)).withRuntimes
    (fun _ => some writer) writer

/-- A call by `key` to its contract that writes to the state of
`other`. -/
def callOf (key other : UInt8) : Call where
  contractObject := (contractOf key).id
  entrypoint := [97]
  arguments := []
  fuelLimit := 1
  accesses := [⟨(stateOf other).id, true⟩]

def encodeCall (c : Call) : Bytes :=
  Writer.fixed c.contractObject ++ Writer.bytes c.entrypoint ++
    Writer.bytes c.arguments ++ Writer.u64 c.fuelLimit ++
    Writer.u32 (UInt32.ofNat c.accesses.length) ++
    c.accesses.flatMap fun a =>
      Writer.fixed a.objectID ++ Writer.u8 (if a.write then 1 else 0)

def callTransaction (key other : UInt8) : Transaction :=
  { signed key ⟨Op.contractCall, encodeCall (callOf key other)⟩ with
    inputs := [contractOf key, stateOf other].map fun o =>
      ⟨o.id, o.version, o.hash shallowCrypto⟩
    witnesses := [contractOf key, stateOf other].map fun o =>
      ⟨o, true, Bytes32.zero, []⟩ }

theorem parseCall_callOf :
    parseCall (encodeCall (callOf 2 1)) = .ok (callOf 2 1) := by
  decide +kernel

theorem callsContract_callOf :
    CallsContract (callTransaction 2 1) (callOf 2 1) :=
  ⟨_, rfl, rfl, parseCall_callOf⟩

/-- What the two deployments use up and make. -/
def deployed : Except Error (List (List ObjectID × List Object)) := do
  let out ← applyBatch shallowCrypto writerEngine WorldState.newMemory
    [deployOf 1, deployOf 2]
  return out.2.map fun r : Result => (r.consumed, r.created)

/-- The two deployments are one batch on the empty state. -/
theorem deployments_past :
    ∃ m ra rb, Past shallowCrypto WorldState.newMemory
        [(deployOf 1, ra), (deployOf 2, rb)] m ∧
      ra.created = [contractOf 1, stateOf 1] ∧
      rb.created = [contractOf 2, stateOf 2] ∧
      ra.consumed = [] ∧ rb.consumed = [] := by
  have hrun : deployed = .ok [([], [contractOf 1, stateOf 1]),
      ([], [contractOf 2, stateOf 2])] := by
    decide +kernel
  simp only [deployed, ok_iff] at hrun
  obtain ⟨⟨m, results⟩, hbatch, hresults⟩ := hrun
  have hlength := congrArg List.length hresults
  rw [List.length_map] at hlength
  obtain ⟨ra, rb, rfl⟩ := List.length_eq_two.1 hlength
  obtain ⟨ha, hb⟩ := List.cons_eq_cons.1 hresults
  obtain ⟨hb, _⟩ := List.cons_eq_cons.1 hb
  obtain ⟨haconsumed, hacreated⟩ := Prod.mk.inj ha
  obtain ⟨hbconsumed, hbcreated⟩ := Prod.mk.inj hb
  exact ⟨m, ra, rb, .batch writerEngine .genesis hbatch, hacreated,
    hbcreated, haconsumed, hbconsumed⟩

/-- The call of the second deployer replaces the first one's state. -/
theorem foreignCall_executed :
    ∃ r, execute shallowCrypto writerEngine (callTransaction 2 1) = .ok r ∧
      r.consumed = [(stateOf 1).id] := by
  have hrun : (do
      let r ← execute shallowCrypto writerEngine (callTransaction 2 1)
      return r.consumed : Except Error (List ObjectID)) =
        .ok [(stateOf 1).id] := by
    decide +kernel
  simp only [ok_iff] at hrun
  exact hrun

theorem contract_state_isolation_deployed :
    ∃ m past r, Past shallowCrypto WorldState.newMemory past m ∧
      CallsContract (callTransaction 2 1) (callOf 2 1) ∧
      execute shallowCrypto writerEngine (callTransaction 2 1) = .ok r ∧
      (Isolated shallowCrypto writerEngine past (callTransaction 2 1)
        (callOf 2 1) ↔ Confined past (callOf 2 1)) := by
  obtain ⟨m, ra, rb, hpast, _⟩ := deployments_past
  obtain ⟨r, hr, _⟩ := foreignCall_executed
  exact ⟨m, _, r, hpast, callsContract_callOf, hr,
    (contract_state_isolation hpast callsContract_callOf hr).1⟩

/-- Two accounts deploy a contract each; a call to the second one's
contract replaces the state of the first. -/
theorem foreignCall_rewrites_foreign_state :
    ∃ m ra rb r, Past shallowCrypto WorldState.newMemory
        [(deployOf 1, ra), (deployOf 2, rb)] m ∧
      (deployOf 1).sender ≠ (deployOf 2).sender ∧
      CallsContract (callTransaction 2 1) (callOf 2 1) ∧
      rb.Makes .contract (callOf 2 1).contractObject ∧
      execute shallowCrypto writerEngine (callTransaction 2 1) = .ok r ∧
      Rewrites (callTransaction 2 1) r (stateOf 1).id ∧
      ¬ StateOf [(deployOf 1, ra), (deployOf 2, rb)]
        (callOf 2 1).contractObject (stateOf 1).id := by
  obtain ⟨m, ra, rb, hpast, ha, hb, hac, hbc⟩ := deployments_past
  obtain ⟨r, hr, hconsumed⟩ := foreignCall_executed
  have hids : (deployOf 1).sender ≠ (deployOf 2).sender ∧
      (contractOf 1).id ≠ (contractOf 2).id ∧
      (stateOf 2).id ≠ (stateOf 1).id := by
    decide +kernel
  refine ⟨m, ra, rb, r, hpast, hids.1, callsContract_callOf,
    ⟨by simp [hbc], contractOf 2, by simp [hb], rfl, rfl⟩, hr,
    ⟨by simp [hconsumed], stateOf 1, ?_, rfl, rfl⟩, ?_⟩
  · exact List.mem_cons_of_mem _ List.mem_cons_self
  rintro ⟨entry, hentry, ⟨_, o, ho, hoid, hok⟩, hby⟩
  rcases List.mem_pair.1 hentry with rfl | rfl
  · -- the first deployment made the state, but not the contract
    rcases hby with ⟨_, _, c, hc, hcid, hck⟩ | ⟨call, ⟨op, hop, hk, _⟩, _⟩
    · rw [ha] at hc
      rcases List.mem_pair.1 hc with rfl | rfl
      · exact hids.2.1 hcid
      · cases hck
    · cases hop
      cases hk
  · -- the second one made other state
    rw [hb] at ho
    rcases List.mem_pair.1 ho with rfl | rfl
    · cases hok
    · exact hids.2.2 hoid

end ZephyrChain.Execution
