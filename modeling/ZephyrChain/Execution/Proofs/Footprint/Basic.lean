/-
The footprint of an operation: which witnesses it uses up, and how each
object it creates comes about.

# Items

A created object is new, at an index of its transaction, or the next
version of a witness the operation used up. `Footprint` says that the
indices do not repeat, that no witness is used or rewritten twice, and
that nothing it uses is a system object. What the operation sends to
other shards is always well formed.

# Fitting

An item fits when the object it becomes passes the checks of the object
store. New objects fit up to the size of a deployment; a next version
fits unless its version number wraps around, the witness had no owner,
or an engine wrote more than an object can hold. `Leaves` pairs the
footprint of an operation with the exact condition under which all its
items fit.
-/
import ZephyrChain.Execution.Proofs.Execute

namespace ZephyrChain.Execution

open Lib

variable {C : Crypto} {e : Engine} {t : Transaction} {r : Result}

-- ==== envelope

/-- What the checks before the operation establish. -/
structure Checked (C : Crypto) (t : Transaction) : Prop where
  enveloped : Enveloped C t
  outputs : ∀ out ∈ t.outputs, out.validate = .ok ()
  count : t.outputs.length ≤ maxOutputs
  witness : ∀ o ∈ t.objects, o.id ≠ Bytes32.zero ∧ o.version ≠ 0
  sender : t.sender ≠ Bytes32.zero

theorem shardForAccount_eq_ok {router : Router} {account : AccountID}
    {shard : UInt32} (h : router.shardForAccount account = .ok shard) :
    account ≠ Bytes32.zero := by
  simp only [Router.shardForAccount, ok_iff, not_or] at h
  exact h.1.2

theorem checked_of_checkEnvelope (h : checkEnvelope C e t = .ok ()) :
    Checked C t := by
  have henv := checkEnvelope_eq_ok h
  simp only [checkEnvelope, Transaction.verifyForNetwork,
    Transaction.validateStatic, Transaction.validateInputs, ok_iff, not_not,
    forM_eq_ok, not_or] at h
  obtain ⟨⟨-, -, -, -, -, -, ⟨-, -, hcount, -⟩, ⟨hinputs, -⟩, houtputs, -⟩,
    hwitnesses, shard, hshard, -⟩ := h
  simp only [Transaction.verifyWitnesses, ok_iff, not_not,
    forM_eq_ok] at hwitnesses
  obtain ⟨hlen, hall⟩ := hwitnesses
  refine ⟨henv, houtputs, Nat.le_of_not_lt hcount, ?_,
    shardForAccount_eq_ok hshard⟩
  intro o ho
  obtain ⟨w, hw, rfl⟩ := List.mem_map.1 ho
  have hright : (t.inputs.zip t.witnesses).map Prod.snd = t.witnesses :=
    List.map_snd_zip hlen.le
  rw [← hright] at hw
  obtain ⟨pair, hpair, rfl⟩ := List.mem_map.1 hw
  have hcheck := hall pair hpair
  simp only [Transaction.verifyWitness, ok_iff, not_or, not_not] at hcheck
  obtain ⟨⟨hid, hversion, -⟩, -⟩ := hcheck
  have hinput : pair.1 ∈ t.inputs := (List.of_mem_zip hpair).1
  have hclean : ¬ (IsZero32 pair.1.objectID ∨ pair.1.version = 0 ∨
      IsZero32 pair.1.objectHash) := fun hbad => hinputs ⟨_, hinput, hbad⟩
  rw [hid, hversion]
  exact ⟨fun hz => hclean (.inl hz), fun hz => hclean (.inr (.inl hz))⟩

-- ==== items

/-- How a created object comes about. -/
inductive Item where
  | fresh (index : UInt32) (spec : OutputSpec)
  | next (w : Object) (data : Bytes)

namespace Item

def object (C : Crypto) (t : Transaction) : Item → Object
  | fresh index spec => newObject C t index spec
  | next w data => rewrite w data

def index : Item → Option UInt32
  | fresh index _ => some index
  | next _ _ => none

def base : Item → Option Object
  | fresh _ _ => none
  | next w _ => some w

/-- The object the item becomes can be stored. -/
def Fits : Item → Prop
  | fresh _ spec => spec.validate = .ok ()
  | next w data => w.version + 1 ≠ 0 ∧
      (w.kind = .system ∨ w.owner ≠ Bytes32.zero) ∧
      data.length ≤ maxObjectDataBytes.toNat

end Item

variable {spec : OutputSpec}

theorem OutputSpec.validate_eq_ok :
    spec.validate = .ok () ↔ spec.kind ≠ .unknown ∧
      spec.data.length ≤ maxObjectDataBytes.toNat ∧
      (spec.kind = .system ∨ spec.owner ≠ Bytes32.zero) := by
  simp only [OutputSpec.validate, ok_iff, not_or, not_lt,
    validateOwnerForKind_eq_ok, and_assoc, ne_eq]

/-- What an operation uses up and leaves behind. -/
structure Footprint (C : Crypto) (t : Transaction) (r : Result)
    (used : List Object) (items : List Item) : Prop where
  txID : r.txID = t.id C
  consumed : r.consumed = used.map Object.id
  created : r.created = items.map (Item.object C t)
  used_mem : ∀ o ∈ used, o ∈ t.objects
  used_nodup : used.Nodup
  used_kind : ∀ o ∈ used, o.kind ≠ .system ∧ o.kind ≠ .unknown
  indices : (items.filterMap Item.index).Nodup
  bases : ∀ w ∈ items.filterMap Item.base, w ∈ used
  bases_nodup : (items.filterMap Item.base).Nodup
  outbound : ∀ m ∈ r.outbound, m.output.validate = .ok () ∧
    m.destinationShard ≠ t.shardID

/-- The footprint of a result, and when all of it can be stored. -/
def Leaves (C : Crypto) (t : Transaction) (r : Result) (fits : Prop) :
    Prop :=
  ∃ used items, Footprint C t r used items ∧
    ((∀ i ∈ items, i.Fits) ↔ fits)

-- ==== new outputs

/-- New objects at distinct indices from `lo` up to `hi`, and outputs
for other shards, all of them well formed. -/
structure Placed (C : Crypto) (t : Transaction) (lo hi : Nat)
    (created : List Object) (outbound : List OutboundOutput)
    (items : List Item) : Prop where
  created : created = items.map (Item.object C t)
  fresh : ∀ i ∈ items, i.Fits ∧ ∃ k spec, i = .fresh (UInt32.ofNat k) spec ∧
    lo ≤ k ∧ k < hi
  indices : (items.filterMap Item.index).Nodup
  outbound : ∀ m ∈ outbound, m.output.validate = .ok () ∧
    m.destinationShard ≠ t.shardID

theorem placed_nil (lo : Nat) : Placed C t lo lo [] [] [] :=
  ⟨rfl, by simp, List.nodup_nil, by simp⟩

theorem ofNat_ne {k n : Nat} (hk : k < n) (hn : n < 2 ^ 32) :
    UInt32.ofNat k ≠ UInt32.ofNat n := by
  intro h
  have hnat := congrArg UInt32.toNat h
  rw [UInt32.toNat_ofNat', UInt32.toNat_ofNat', Nat.mod_eq_of_lt (by omega),
    Nat.mod_eq_of_lt hn] at hnat
  omega

variable {items : List Item}

/-- One more output, kept or sent. -/
theorem Placed.place {lo hi : Nat} {s : Change}
    (h : Placed C t lo hi s.created s.outbound items) (hlo : lo ≤ hi)
    (hhi : hi < 2 ^ 32) (hspec : spec.validate = .ok ())
    (destination : UInt32) (total : UInt64) :
    ∃ items', Placed C t lo (hi + 1)
      ({ s with total }.place C t destination hi spec).created
      ({ s with total }.place C t destination hi spec).outbound items' := by
  unfold Change.place
  split
  case isTrue =>
    refine ⟨items ++ [.fresh (UInt32.ofNat hi) spec], ?_, ?_, ?_,
      h.outbound⟩
    · rw [List.map_append, ← h.created]
      rfl
    · refine forall_mem_concat (fun i hi' => ?_)
        ⟨hspec, hi, spec, rfl, hlo, Nat.lt_succ_self hi⟩
      obtain ⟨hfits, k, spec', rfl, hk, hk'⟩ := h.fresh i hi'
      exact ⟨hfits, k, spec', rfl, hk, Nat.lt_succ_of_lt hk'⟩
    · rw [List.filterMap_append]
      refine List.nodup_append.2 ⟨h.indices, List.nodup_singleton _, ?_⟩
      intro a ha b hb
      obtain ⟨i, hi', hia⟩ := List.mem_filterMap.1 ha
      obtain ⟨-, k, spec', rfl, -, hk⟩ := h.fresh i hi'
      obtain rfl := Option.some.inj hia
      obtain rfl := List.mem_singleton.1 hb
      exact ofNat_ne hk hhi
  case isFalse hdest =>
    refine ⟨items, h.created, ?_, h.indices, ?_⟩
    · intro i hi'
      obtain ⟨hfits, k, spec', hk, hlow, hhigh⟩ := h.fresh i hi'
      exact ⟨hfits, k, spec', hk, hlow, Nat.lt_succ_of_lt hhigh⟩
    · exact forall_mem_concat h.outbound ⟨hspec, hdest⟩

/-- The element behind a front of an indexed list has its index. -/
theorem index_of_zipIdx {α : Type} {xs : List α} {pre : List (α × Nat)}
    {a : α} {i : Nat} (h : pre ++ [(a, i)] <+: xs.zipIdx) :
    i = pre.length ∧ a ∈ xs ∧ pre.length < xs.length := by
  have hget : xs.zipIdx[pre.length]? = some (a, i) := by
    obtain ⟨rest, hrest⟩ := h
    rw [← hrest]
    simp
  rw [List.getElem?_zipIdx] at hget
  obtain ⟨b, hb, hpair⟩ := Option.map_eq_some_iff.1 hget
  obtain ⟨rfl, rfl⟩ := Prod.mk.inj hpair
  refine ⟨Nat.zero_add _, List.mem_of_getElem? hb, ?_⟩
  exact (List.getElem?_eq_some_iff.1 hb).1

/-- A loop that places one well-formed output for each element. -/
theorem placed_foldlM {σ α : Type} {step : σ → α × Nat → Except Error σ}
    {view : σ → Change} {xs : List α} {s₀ s : σ} (lo : Nat)
    (hstart : view s₀ = ⟨(view s₀).total, [], []⟩)
    (hbound : lo + xs.length ≤ 2 ^ 32)
    (hstep : ∀ s a i s', a ∈ xs → step s (a, i) = .ok s' →
      ∃ spec destination total, spec.validate = .ok () ∧
        view s' = { view s with total }.place C t destination (lo + i) spec)
    (h : xs.zipIdx.foldlM step s₀ = .ok s) :
    ∃ items, Placed C t lo (lo + xs.length) (view s).created
      (view s).outbound items := by
  have hall : ∃ items, Placed C t lo (lo + xs.zipIdx.length)
      (view s).created (view s).outbound items := by
    refine foldlM_prefix (P := fun pre s => ∃ items,
      Placed C t lo (lo + pre.length) (view s).created (view s).outbound
        items) ?_ ?_ h
    · rw [hstart]
      exact ⟨[], placed_nil lo⟩
    · rintro pre ⟨a, i⟩ s s' hpre ⟨items, hitems⟩ hs
      obtain ⟨rfl, ha, hlt⟩ := index_of_zipIdx hpre
      obtain ⟨spec, destination, total, hspec, hview⟩ := hstep s a _ s' ha hs
      rw [hview, List.length_append, List.length_singleton]
      exact hitems.place (by omega) (by omega) hspec destination total
  rwa [List.length_zipIdx] at hall

-- ==== coins beside

/-- What the coins of a transaction do: some witnesses are spent, the
outputs are placed. -/
structure Moves (C : Crypto) (t : Transaction) (spent : List Object)
    (created : List Object) (outbound : List OutboundOutput)
    (consumed : List ObjectID) : Prop where
  consumed : consumed = spent.map Object.id
  sublist : spent.Sublist t.objects
  coins : ∀ o ∈ spent, o.kind = .coin
  placed : ∃ items, Placed C t 0 maxOutputs created outbound items

/-- Witnesses an operation takes beside its coins. -/
structure Takes (t : Transaction) (taken : List Object) : Prop where
  mem : ∀ o ∈ taken, o ∈ t.objects
  nodup : taken.Nodup
  kind : ∀ o ∈ taken, o.kind ≠ .system ∧ o.kind ≠ .unknown ∧
    o.kind ≠ .coin

/-- What an operation leaves beside its coins: new objects at indices
no output has, next versions of what it took, and messages. -/
structure Beside (t : Transaction) (taken : List Object)
    (extra : List Item) (messages : List OutboundOutput) : Prop where
  indices : (extra.filterMap Item.index).Nodup
  high : ∀ i ∈ extra.filterMap Item.index, maxOutputs ≤ i.toNat
  bases : ∀ w ∈ extra.filterMap Item.base, w ∈ taken
  bases_nodup : (extra.filterMap Item.base).Nodup
  messages : ∀ m ∈ messages, m.output.validate = .ok () ∧
    m.destinationShard ≠ t.shardID

variable {created : List Object} {outbound : List OutboundOutput}

theorem Placed.mono {lo hi hi' : Nat} (h : hi ≤ hi')
    (hp : Placed C t lo hi created outbound items) :
    Placed C t lo hi' created outbound items := by
  refine ⟨hp.created, fun i hi => ?_, hp.indices, hp.outbound⟩
  obtain ⟨hfits, k, spec, hk, hlow, hhigh⟩ := hp.fresh i hi
  exact ⟨hfits, k, spec, hk, hlow, by omega⟩

/-- The loops over the outputs of a transaction. -/
theorem placed_outputs (hck : Checked C t) {σ : Type}
    {step : σ → OutputSpec × Nat → Except Error σ} (view : σ → Change)
    {s₀ s : σ} (hstart : view s₀ = ⟨(view s₀).total, [], []⟩)
    (hstep : ∀ s spec i s', spec.validate = .ok () →
      step s (spec, i) = .ok s' →
      ∃ spec' destination total, spec'.validate = .ok () ∧
        view s' = { view s with total }.place C t destination i spec')
    (h : t.outputs.zipIdx.foldlM step s₀ = .ok s) :
    ∃ items, Placed C t 0 maxOutputs (view s).created (view s).outbound
      items := by
  have hcount := hck.count
  have hmax : maxOutputs ≤ 2 ^ 32 := by decide
  have hplaced : ∃ items, Placed C t 0 (0 + t.outputs.length)
      (view s).created (view s).outbound items := by
    refine placed_foldlM 0 hstart (by omega) ?_ h
    intro s spec i s' hmem hs
    rw [Nat.zero_add]
    exact hstep s spec i s' (hck.outputs spec hmem) hs
  obtain ⟨items, hitems⟩ := hplaced
  exact ⟨items, hitems.mono (by omega)⟩

/-- A stamped coin output is as well formed as the output. -/
theorem validate_stamped {stamped : OutputSpec} {height : UInt64}
    (hspec : spec.validate = .ok ())
    (h : stampCoinOutput spec height = .ok stamped) :
    stamped.validate = .ok () := by
  unfold stampCoinOutput at h
  split at h
  case isTrue =>
    rw [← (pure_eq_ok _ _).1 h]
    exact hspec
  case isFalse =>
    simp only [ok_iff] at h
    obtain ⟨coin, -, rfl⟩ := h
    rw [OutputSpec.validate_eq_ok] at hspec ⊢
    exact ⟨hspec.1, by simp [Coin.marshalBinary, maxObjectDataBytes],
      hspec.2.2⟩

variable {excluded consumed : List ObjectID}

theorem moves_of_account (hck : Checked C t) {inn out : UInt64}
    (h : accountNativeValue C e t excluded inn out =
      .ok (created, outbound, consumed)) :
    Moves C t (spentObjects t excluded) created outbound consumed := by
  obtain ⟨hbal, hconsumed⟩ := accountNativeValue_eq_ok h
  refine ⟨hconsumed, hbal.sublist, fun o ho => (hbal.spent_native o ho).1, ?_⟩
  simp only [accountNativeValue, ok_iff] at h
  obtain ⟨_, _, c, hloop, _, _, hr⟩ := h
  cases hr
  refine placed_outputs hck id rfl ?_ hloop
  intro s spec i s' hspec hstep
  simp only [nativeOutputStep, ok_iff] at hstep
  obtain ⟨_, coin, _, _, destination, _, rfl⟩ := hstep
  exact ⟨spec, destination, s.total + coin.amount, hspec, rfl⟩

theorem moves_of_fee (hck : Checked C t) {contractObject : ObjectID}
    {accesses : List Access}
    (h : feeOnlyOutputsExcluding C e t contractObject accesses =
      .ok (created, consumed)) :
    Moves C t (spentObjects t (nonCoin contractObject accesses)) created []
      consumed := by
  obtain ⟨hbal, hconsumed⟩ := feeOnlyOutputsExcluding_eq_ok h
  refine ⟨hconsumed, hbal.sublist, fun o ho => (hbal.spent_native o ho).1, ?_⟩
  simp only [feeOnlyOutputsExcluding, ok_iff] at h
  obtain ⟨_, _, c, hloop, _, hr⟩ := h
  cases hr
  have hout : c.outbound = [] := (makes_feeOutputs hloop).2
  rw [← hout]
  refine placed_outputs hck id rfl ?_ hloop
  intro s spec i s' hspec hstep
  simp only [feeOutputStep, ok_iff] at hstep
  obtain ⟨_, _, _, _, coin, _, _, _, stamped, hstamped, rfl⟩ := hstep
  exact ⟨stamped, t.shardID, s.total + coin.amount,
    validate_stamped hspec hstamped, rfl⟩

variable {taken : List Object} {extra : List Item}

/-- The coins of an operation and what it does beside them. -/
theorem leaves_of_moves (hck : Checked C t) {spent : List Object}
    (hm : Moves C t spent created outbound consumed)
    {messages : List OutboundOutput} (ht : Takes t taken)
    (hb : Beside t taken extra messages) {fits : Prop}
    (hfits : (∀ i ∈ extra, i.Fits) ↔ fits)
    (hr : r = ⟨consumed ++ taken.map Object.id,
      created ++ extra.map (Item.object C t), outbound ++ messages,
      t.id C⟩) : Leaves C t r fits := by
  obtain ⟨items, hitems⟩ := hm.placed
  have hnone : items.filterMap Item.base = [] := by
    refine List.filterMap_eq_nil_iff.2 fun i hi => ?_
    obtain ⟨-, k, spec, rfl, -⟩ := hitems.fresh i hi
    rfl
  refine ⟨spent ++ taken, items ++ extra, ?_, ?_⟩
  · subst hr
    refine ⟨rfl, ?_, ?_, ?_, ?_, ?_, ?_, ?_, ?_, ?_⟩
    · rw [List.map_append, ← hm.consumed]
    · rw [List.map_append, ← hitems.created]
    · exact List.forall_mem_append.2
        ⟨fun o ho => hm.sublist.subset ho, ht.mem⟩
    · refine List.nodup_append.2 ⟨?_, ht.nodup, ?_⟩
      · exact (List.Nodup.of_map _ hck.enveloped.nodup).sublist hm.sublist
      · rintro o ho o' ho' rfl
        exact (ht.kind o ho').2.2 (hm.coins o ho)
    · refine List.forall_mem_append.2 ⟨fun o ho => ?_, fun o ho => ?_⟩
      · rw [hm.coins o ho]
        decide
      · exact ⟨(ht.kind o ho).1, (ht.kind o ho).2.1⟩
    · rw [List.filterMap_append]
      refine List.nodup_append.2 ⟨hitems.indices, hb.indices, ?_⟩
      rintro a ha b hb' rfl
      obtain ⟨i, hi, hia⟩ := List.mem_filterMap.1 ha
      obtain ⟨-, k, spec, rfl, -, hk⟩ := hitems.fresh i hi
      obtain rfl := Option.some.inj hia
      have hhigh := hb.high _ hb'
      rw [UInt32.toNat_ofNat'] at hhigh
      have := Nat.mod_le k (2 ^ 32)
      omega
    · rw [List.filterMap_append, hnone, List.nil_append]
      exact fun w hw => List.mem_append_right _ (hb.bases w hw)
    · rw [List.filterMap_append, hnone, List.nil_append]
      exact hb.bases_nodup
    · exact List.forall_mem_append.2 ⟨hitems.outbound, hb.messages⟩
  · rw [← hfits, List.forall_mem_append]
    exact and_iff_right fun i hi => (hitems.fresh i hi).1

-- ==== shapes

variable {kind : Kind} {data : Bytes}

/-- The checks an output specification of the executor passes: its data
is always short. -/
theorem validate_spec {owner : AccountID} (hkind : kind ≠ .unknown)
    (howner : owner ≠ Bytes32.zero) (hlen : data.length ≤ 1048576) :
    (OutputSpec.mk owner kind data).validate = .ok () :=
  OutputSpec.validate_eq_ok.2 ⟨hkind, hlen, .inr howner⟩

/-- Different indices that no output has. -/
structure Above (indices : List UInt32) : Prop where
  nodup : indices.Nodup
  high : ∀ i ∈ indices, maxOutputs ≤ i.toNat

-- the instance of the second part is named: the one found by search runs
-- through all numbers of 32 bits
instance (indices : List UInt32) : Decidable (Above indices) :=
  have := List.decidableBAll (fun i : UInt32 => maxOutputs ≤ i.toNat) indices
  decidable_of_iff (indices.Nodup ∧ ∀ i ∈ indices, maxOutputs ≤ i.toNat)
    ⟨fun h => ⟨h.1, h.2⟩, fun h => ⟨h.nodup, h.high⟩⟩

/-- Items that are all new and all fit, at indices out of a list. -/
structure Adds (items : List Item) (indices : List UInt32) : Prop where
  fits : ∀ i ∈ items, i.Fits
  indices : (items.filterMap Item.index).Sublist indices
  bases : items.filterMap Item.base = []

theorem adds_nil : Adds [] [] := ⟨by simp, .slnil, rfl⟩

variable {indices : List UInt32}

theorem Adds.cons (h : Adds items indices)
    (hspec : spec.validate = .ok ()) (index : UInt32) :
    Adds (.fresh index spec :: items) (index :: indices) :=
  ⟨List.forall_mem_cons.2 ⟨hspec, h.fits⟩, h.indices.cons_cons index, h.bases⟩

theorem Adds.single (hspec : spec.validate = .ok ()) (index : UInt32) :
    Adds [.fresh index spec] [index] :=
  adds_nil.cons hspec index

/-- Nothing besides, where something might have been. -/
theorem Adds.weaken (h : Adds items []) : Adds items indices :=
  ⟨h.fits, h.indices.trans (List.nil_sublist _), h.bases⟩

/-- An operation that only adds new objects can always be stored. -/
theorem leaves_of_adds (hck : Checked C t) {spent : List Object}
    (hm : Moves C t spent created outbound consumed) (ht : Takes t taken)
    (ha : Adds extra indices) (hindices : Above indices)
    (messages : List OutboundOutput)
    (hmessages : ∀ m ∈ messages, m.output.validate = .ok () ∧
      m.destinationShard ≠ t.shardID)
    (hr : r = ⟨consumed ++ taken.map Object.id,
      created ++ extra.map (Item.object C t), outbound ++ messages,
      t.id C⟩) : Leaves C t r True := by
  refine leaves_of_moves hck hm ht ?_ (iff_true_intro ha.fits) hr
  exact {
    indices := hindices.nodup.sublist ha.indices
    high := fun i hi => hindices.high i (ha.indices.subset hi)
    bases := by simp [ha.bases]
    bases_nodup := by simp [ha.bases]
    messages := hmessages }

/-- One well-formed message to another shard. -/
theorem sends_single {shard : UInt32} (index : UInt32)
    (hspec : spec.validate = .ok ()) (hshard : shard ≠ t.shardID) :
    ∀ m ∈ [OutboundOutput.mk shard index spec],
      m.output.validate = .ok () ∧ m.destinationShard ≠ t.shardID :=
  List.forall_mem_singleton.2 ⟨hspec, hshard⟩

theorem takes_nil : Takes t [] := ⟨by simp, List.nodup_nil, by simp⟩

variable {o : Object}

theorem Takes.cons (h : Takes t taken) (hmem : o ∈ t.objects)
    (hnew : o ∉ taken) (hk : o.kind = kind)
    (hkind : kind ≠ .system ∧ kind ≠ .unknown ∧ kind ≠ .coin) :
    Takes t (o :: taken) :=
  ⟨List.forall_mem_cons.2 ⟨hmem, h.mem⟩, List.nodup_cons.2 ⟨hnew, h.nodup⟩,
    List.forall_mem_cons.2 ⟨hk ▸ hkind, h.kind⟩⟩

theorem Takes.single (hmem : o ∈ t.objects) (hk : o.kind = kind)
    (hkind : kind ≠ .system ∧ kind ≠ .unknown ∧ kind ≠ .coin) :
    Takes t [o] :=
  takes_nil.cons hmem (by simp) hk hkind

-- ==== next versions

/-- An object that can have a next version: its version number does not
wrap around, and it has an owner. -/
def Renewable (o : Object) : Prop :=
  o.version + 1 ≠ 0 ∧ o.owner ≠ Bytes32.zero

theorem fits_next_iff {w : Object} (hk : w.kind = kind)
    (hkind : kind ≠ .system) (hdata : data.length ≤ 1048576) :
    (Item.next w data).Fits ↔ Renewable w := by
  show (_ ∧ _ ∧ data.length ≤ 1048576) ↔ _
  rw [hk, or_iff_right hkind, Renewable]
  exact and_congr_right fun _ => and_iff_left hdata

/-- What is no coin is not spent. -/
theorem Moves.mem_excluded
    (hm : Moves C t (spentObjects t excluded) created outbound consumed)
    (ho : o ∈ t.objects) (hk : o.kind ≠ .coin) : o.id ∈ excluded := by
  by_contra hnot
  exact hk (hm.coins o (List.mem_filter.2 ⟨ho, by simpa using hnot⟩))

/-- An operation that rewrites the one witness of a kind. -/
theorem leaves_of_renewal (hck : Checked C t)
    (hm : Moves C t (spentObjects t excluded) created outbound consumed)
    {others : List Object} (ht : Takes t (o :: others))
    (hk : o.kind = kind)
    (honly : ∀ o' ∈ t.objects, o'.id ∈ excluded → o'.kind = kind → o' = o)
    (hdata : data.length ≤ 1048576) (ha : Adds extra indices)
    (hindices : Above indices)
    (hr : r = ⟨consumed ++ (o :: others).map Object.id,
      created ++ rewrite o data :: extra.map (Item.object C t), outbound,
      t.id C⟩) :
    Leaves C t r (∀ o ∈ t.objects, o.kind = kind → Renewable o) := by
  obtain ⟨hsystem, -, hcoin⟩ := hk ▸ ht.kind o List.mem_cons_self
  have hfits : (∀ i ∈ Item.next o data :: extra, i.Fits) ↔
      ∀ o ∈ t.objects, o.kind = kind → Renewable o := by
    rw [List.forall_mem_cons, and_iff_left ha.fits,
      fits_next_iff hk hsystem hdata]
    refine ⟨fun hnew o' ho' hk' => ?_,
      fun hall => hall o (ht.mem o List.mem_cons_self) hk⟩
    have hid := hm.mem_excluded ho' (hk' ▸ hcoin)
    rwa [honly o' ho' hid hk']
  have hb : Beside t (o :: others) (.next o data :: extra) [] := by
    refine ⟨hindices.nodup.sublist ha.indices,
      fun i hi => hindices.high i (ha.indices.subset hi), ?_, ?_, by simp⟩
    · show ∀ w ∈ o :: extra.filterMap Item.base, _
      rw [ha.bases]
      exact List.forall_mem_singleton.2 List.mem_cons_self
    · show (o :: extra.filterMap Item.base).Nodup
      rw [ha.bases]
      exact List.nodup_singleton o
  refine leaves_of_moves hck hm ht hb hfits ?_
  rw [hr, List.append_nil]
  rfl

end ZephyrChain.Execution
