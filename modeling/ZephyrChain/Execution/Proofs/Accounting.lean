/-
The accounting helpers, read backwards. Each loop of the executor keeps a
total in 64 bits; a completed loop says that the total is the exact sum
of the coins it went over, that all of them are native, and what the
objects it made look like.
-/
import ZephyrChain.Execution.Value

namespace ZephyrChain.Execution

open Lib

variable {C : Crypto} {e : Engine} {t : Transaction}

-- ==== sums

@[simp] theorem sumOf_nil (f : Payload → Nat) : sumOf f [] = 0 := rfl

@[simp] theorem sumOf_cons (f : Payload → Nat) (p : Payload)
    (ps : List Payload) : sumOf f (p :: ps) = f p + sumOf f ps := by
  simp [sumOf]

@[simp] theorem sumOf_append (f : Payload → Nat) (ps qs : List Payload) :
    sumOf f (ps ++ qs) = sumOf f ps + sumOf f qs := by
  simp [sumOf]

theorem sumOf_congr {f g : Payload → Nat} {ps : List Payload}
    (h : ∀ p ∈ ps, f p = g p) : sumOf f ps = sumOf g ps := by
  unfold sumOf
  rw [List.map_congr_left h]

theorem sumOf_eq_zero {f : Payload → Nat} {ps : List Payload}
    (h : ∀ p ∈ ps, f p = 0) : sumOf f ps = 0 := by
  rw [sumOf_congr h]
  simp [sumOf]

-- ==== native coins

/-- A coin of a token. -/
def IsCoin (token : TokenID) (p : Payload) : Prop :=
  p.1 = .coin ∧ ∃ c, parseCoin p.2 = .ok c ∧ c.token = token

variable {p : Payload} {c : Coin}

theorem coinAmount_eq (hk : p.1 = .coin) (hc : parseCoin p.2 = .ok c) :
    coinAmount c.token p = c.amount.toNat := by
  obtain ⟨k, d⟩ := p
  cases hk
  simp only at hc
  simp [coinAmount, amountOf, hc]

theorem coinAmount_of_ne {token : TokenID} (h : p.1 ≠ .coin) :
    coinAmount token p = 0 := by
  obtain ⟨k, d⟩ := p
  cases k <;> first | rfl | exact absurd rfl h

-- ==== spending coins

/-- The witnesses a loop does not skip. -/
def spentObjects (t : Transaction) (excluded : List ObjectID) :
    List Object :=
  t.objects.filter fun o => o.id ∉ excluded

/-- What spending a list of objects on top of `start` gives. -/
structure Spends (e : Engine) (t : Transaction) (start : UInt64)
    (objs : List Object) (s : Spent) : Prop where
  consumed : s.consumed = objs.map Object.id
  owner : ∀ o ∈ objs, o.owner = t.sender
  native : ∀ o ∈ objs, IsCoin e.nativeToken o.payload
  total : s.total.toNat = start.toNat +
    sumOf (coinAmount e.nativeToken) (objs.map Object.payload)

variable {excluded : List ObjectID} {start : UInt64}

theorem spendCoins_eq_ok {ce oe : Error} {s : Spent}
    (h : spendCoins e t excluded ce oe start = .ok s) :
    Spends e t start (spentObjects t excluded) s := by
  refine foldlM_prefix
    (P := fun pre s => Spends e t start
      (pre.filter fun o => o.id ∉ excluded) s) ?_ ?_ h
  · exact ⟨rfl, by simp, by simp, by simp⟩
  · intro pre o s s' _ hs hstep
    unfold spendStep at hstep
    split at hstep
    case isTrue hex =>
      simp only [pure_eq_ok] at hstep
      subst hstep
      rw [List.filter_append, List.filter_singleton]
      simpa [hex] using hs
    case isFalse hex =>
      simp only [ok_iff, not_or, not_not] at hstep
      obtain ⟨⟨hkind, howner⟩, c, hc, htoken, hfits, rfl⟩ := hstep
      have hcoin : IsCoin e.nativeToken o.payload :=
        ⟨hkind, c, hc, htoken⟩
      have hamount := coinAmount_eq (p := o.payload) hkind hc
      rw [List.filter_append, List.filter_singleton]
      simp only [hex, not_false_eq_true, decide_true, cond_true]
      refine ⟨?_, ?_, ?_, ?_⟩
      · simp [hs.consumed]
      · exact forall_mem_concat hs.owner (by assumption)
      · exact forall_mem_concat hs.native (by assumption)
      · rw [toNat_add_of_fits hfits, hs.total, List.map_append, sumOf_append,
          List.map_singleton, sumOf_cons, sumOf_nil, ← htoken, hamount]
        omega

-- ==== making outputs

/-- A new object of the transaction. -/
def Fresh (C : Crypto) (t : Transaction) (o : Object) : Prop :=
  o.version = 1 ∧ ∃ index, o.id = objectIDForShard C (t.id C) index t.shardID

theorem fresh_newObject (index : UInt32) (spec : OutputSpec) :
    Fresh C t (newObject C t index spec) :=
  ⟨rfl, index, rfl⟩

/-- Everything a loop over the outputs has made. -/
def Change.payloads (s : Change) : List Payload :=
  s.created.map Object.payload ++ s.outbound.map OutboundOutput.payload

/-- What a loop over the outputs on top of `start` has made: coins of the
native token, worth its total. -/
structure Makes (C : Crypto) (e : Engine) (t : Transaction) (start : UInt64)
    (s : Change) : Prop where
  fresh : ∀ o ∈ s.created, Fresh C t o
  native : ∀ p ∈ s.payloads, IsCoin e.nativeToken p
  total : s.total.toNat = start.toNat +
    sumOf (coinAmount e.nativeToken) s.payloads

theorem makes_start (start : UInt64) :
    Makes C e t start ⟨start, [], []⟩ :=
  ⟨by simp, by simp [Change.payloads], by simp [Change.payloads]⟩

/-- Placing an output adds its payload. -/
theorem Change.payloads_place (s : Change) (destination : UInt32) (i : Nat)
    (spec : OutputSpec) (f : Payload → Nat) :
    sumOf f (s.place C t destination i spec).payloads =
      sumOf f s.payloads + f (spec.kind, spec.data) := by
  unfold place
  split
  · simp only [payloads, List.map_append, sumOf_append, List.map_singleton,
      sumOf_cons, sumOf_nil]
    show _ + (f (spec.kind, spec.data) + 0) + _ = _
    omega
  · simp only [payloads, List.map_append, sumOf_append, List.map_singleton,
      sumOf_cons, sumOf_nil]
    show _ + (_ + (f (spec.kind, spec.data) + 0)) = _
    omega

variable {s : Change} {destination : UInt32} {i : Nat} {spec : OutputSpec}

theorem Change.mem_payloads_place
    (h : p ∈ (s.place C t destination i spec).payloads) :
    p ∈ s.payloads ∨ p = (spec.kind, spec.data) := by
  unfold place at h
  simp only [payloads, List.mem_append] at h ⊢
  split at h
  · simp only [List.map_append, List.map_singleton, List.mem_append,
      List.mem_singleton] at h
    rcases h with (h | rfl) | h
    · exact .inl (.inl h)
    · exact .inr rfl
    · exact .inl (.inr h)
  · simp only [List.map_append, List.map_singleton, List.mem_append,
      List.mem_singleton] at h
    rcases h with h | h | rfl
    · exact .inl (.inl h)
    · exact .inl (.inr h)
    · exact .inr rfl

theorem Change.fresh_place (hs : ∀ o ∈ s.created, Fresh C t o) :
    ∀ o ∈ (s.place C t destination i spec).created, Fresh C t o := by
  intro o ho
  unfold place at ho
  split at ho
  · rcases List.mem_append.1 ho with ho | ho
    · exact hs o ho
    · rw [List.mem_singleton.1 ho]
      exact fresh_newObject _ _
  · exact hs o ho

@[simp] theorem Change.total_place (s : Change) (destination : UInt32)
    (i : Nat) (spec : OutputSpec) :
    (s.place C t destination i spec).total = s.total := by
  unfold place
  split <;> rfl

/-- One native coin more, in one of the loops over the outputs. -/
theorem Makes.place (hs : Makes C e t start s) (hk : spec.kind = .coin)
    (hc : parseCoin spec.data = .ok c) (htoken : c.token = e.nativeToken)
    (hfits : ¬ Overflows s.total c.amount) :
    Makes C e t start
      ({ s with total := s.total + c.amount }.place C t destination i
        spec) := by
  have hamount := coinAmount_eq (p := (spec.kind, spec.data)) hk hc
  refine ⟨Change.fresh_place hs.fresh, ?_, ?_⟩
  · intro p hp
    rcases Change.mem_payloads_place hp with hp | rfl
    · exact hs.native p hp
    · exact ⟨hk, c, hc, htoken⟩
  · rw [Change.total_place, Change.payloads_place]
    show (s.total + c.amount).toNat = _ + (sumOf _ s.payloads + _)
    rw [toNat_add_of_fits hfits, hs.total, ← htoken, hamount]
    omega

/-- The stamp changes the height of a coin and nothing else. -/
theorem stampCoinOutput_eq_ok {stamped : OutputSpec} {height : UInt64}
    (hk : spec.kind = .coin) (hc : parseCoin spec.data = .ok c)
    (h : stampCoinOutput spec height = .ok stamped) :
    stamped.owner = spec.owner ∧ stamped.kind = .coin ∧
      parseCoin stamped.data = .ok { c with createdHeight := height } := by
  unfold stampCoinOutput at h
  rw [if_neg (not_not.2 hk), hc] at h
  simp only [ok_bind, pure_eq_ok] at h
  subst h
  exact ⟨rfl, hk, parseCoin_iff.2 ⟨rfl, (parseCoin_iff.1 hc).2⟩⟩

theorem makes_nativeOutputs
    (h : t.outputs.zipIdx.foldlM (nativeOutputStep C e t)
      ⟨start, [], []⟩ = .ok s) : Makes C e t start s := by
  refine foldlM_invariant (Makes C e t start) ?_ _ _ _ (makes_start start) h
  rintro s ⟨spec, i⟩ s' hs hstep
  simp only [nativeOutputStep, ok_iff, not_or, not_not] at hstep
  obtain ⟨hk, c, hc, ⟨htoken, hfits⟩, destination, _, rfl⟩ := hstep
  exact hs.place hk hc htoken hfits

theorem makes_feeOutputs (h : t.outputs.zipIdx.foldlM (feeOutputStep C e t)
      ⟨start, [], []⟩ = .ok s) : Makes C e t start s ∧ s.outbound = [] := by
  refine foldlM_invariant
    (fun s => Makes C e t start s ∧ s.outbound = []) ?_ _ _ _
    ⟨makes_start start, rfl⟩ h
  rintro s ⟨spec, i⟩ s' ⟨hs, hout⟩ hstep
  simp only [feeOutputStep, ok_iff, not_not] at hstep
  obtain ⟨hk, destination, _, _, c, hc, htoken, hfits, stamped, hst, rfl⟩ :=
    hstep
  obtain ⟨_, hk', hc'⟩ := stampCoinOutput_eq_ok hk hc hst
  refine ⟨?_, ?_⟩
  · exact Makes.place (c := { c with createdHeight := e.height }) hs hk' hc'
      htoken hfits
  · simpa [Change.place] using hout

-- ==== balance

/-- Coins in, coins out and the fee. -/
structure Balanced (C : Crypto) (e : Engine) (t : Transaction)
    (spent change : List Object) (sent : List OutboundOutput)
    (inn out : Nat) : Prop where
  sublist : spent.Sublist t.objects
  owner : ∀ o ∈ spent, o.owner = t.sender
  spent_native : ∀ o ∈ spent, IsCoin e.nativeToken o.payload
  fresh : ∀ o ∈ change, Fresh C t o
  change_native : ∀ o ∈ change, IsCoin e.nativeToken o.payload
  sent_native : ∀ m ∈ sent, IsCoin e.nativeToken m.payload
  balance :
    sumOf (coinAmount e.nativeToken) (spent.map Object.payload) + inn =
      sumOf (coinAmount e.nativeToken) (change.map Object.payload) +
        sumOf (coinAmount e.nativeToken)
          (sent.map OutboundOutput.payload) + out + t.fee.toNat

/-- A loop over the witnesses and one over the outputs whose totals
differ by the fee. -/
theorem balanced_of_loops {inn out : UInt64} {s : Spent} {c : Change}
    (hs : Spends e t inn (spentObjects t excluded) s)
    (hc : Makes C e t out c) (hfits : ¬ Overflows c.total t.fee)
    (heq : s.total = c.total + t.fee) :
    Balanced C e t (spentObjects t excluded) c.created c.outbound inn.toNat
      out.toNat where
  sublist := List.filter_sublist
  owner := hs.owner
  spent_native := hs.native
  fresh := hc.fresh
  change_native o ho :=
    hc.native _ (List.mem_append_left _ (List.mem_map_of_mem ho))
  sent_native m hm :=
    hc.native _ (List.mem_append_right _ (List.mem_map_of_mem hm))
  balance := by
    have htotal := hc.total
    have hspent := hs.total
    have hsum := congrArg UInt64.toNat heq
    rw [toNat_add_of_fits hfits] at hsum
    rw [Change.payloads, sumOf_append] at htotal
    omega

theorem accountNativeValue_eq_ok {inn out : UInt64}
    {created : List Object} {outbound : List OutboundOutput}
    {consumed : List ObjectID}
    (h : accountNativeValue C e t excluded inn out =
      .ok (created, outbound, consumed)) :
    Balanced C e t (spentObjects t excluded) created outbound inn.toNat
        out.toNat ∧
      consumed = (spentObjects t excluded).map Object.id := by
  simp only [accountNativeValue, ok_iff, not_not] at h
  obtain ⟨s, hspent, c, hmade, hfits, heq, hr⟩ := h
  cases hr
  have hs := spendCoins_eq_ok hspent
  exact ⟨balanced_of_loops hs (makes_nativeOutputs hmade) hfits heq,
    hs.consumed⟩

theorem feeOnlyOutputsExcluding_eq_ok {contractObject : ObjectID}
    {accesses : List Access} {created : List Object}
    {consumed : List ObjectID}
    (h : feeOnlyOutputsExcluding C e t contractObject accesses =
      .ok (created, consumed)) :
    Balanced C e t (spentObjects t (nonCoin contractObject accesses))
        created [] 0 0 ∧
      consumed =
        (spentObjects t (nonCoin contractObject accesses)).map
          Object.id := by
  simp only [feeOnlyOutputsExcluding, ok_iff, not_or, not_not] at h
  obtain ⟨s, hspent, c, hmade, ⟨hfits, heq⟩, hr⟩ := h
  cases hr
  have hs := spendCoins_eq_ok hspent
  obtain ⟨hc, hout⟩ := makes_feeOutputs hmade
  have hbal := balanced_of_loops hs hc hfits heq
  rw [hout] at hbal
  exact ⟨hbal, hs.consumed⟩

-- ==== settlement

theorem mem_of_witnessByID {id : ObjectID} {o : Object}
    (h : witnessByID t id = some o) : o ∈ t.objects ∧ o.id = id := by
  refine ⟨List.mem_of_find?_eq_some h, ?_⟩
  simpa using List.find?_some h

theorem mem_of_witnessByKind {kind : Kind} {o : Object}
    (h : witnessByKind t kind = some o) : o ∈ t.objects ∧ o.kind = kind := by
  unfold witnessByKind at h
  split at h
  case h_1 o' hfilter =>
      cases h
      have hmem : o ∈ t.objects.filter fun o => o.kind = kind := by
        simp [hfilter]
      simpa using List.mem_filter.1 hmem
  case h_2 => cases h

end ZephyrChain.Execution
