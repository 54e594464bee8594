/-
The roots of validator sets, shard commitments and receipt batches as
commitments to sets.

Each root is the Merkle root over leaves in one canonical order. The
sorting keys are distinct (validator ids, shard ids, receipt hashes), so
the order the list came in does not matter, and equal roots mean equal
payloads in that order, hence equal sets. The proofs of members inherit
the 32-bit leaf count of `Merkle.buildProof`.
-/
import ZephyrChain.Consensus.Proofs.Rotation
import ZephyrChain.Merkle.Proofs

namespace ZephyrChain

open Lib

variable {C : Crypto}

/-- A list without repeated keys is searched by key, with indices. -/
theorem find_zipIdx {α β : Type} [DecidableEq β] {key : α → β} {xs : List α}
    (hnodup : (xs.map key).Nodup) {x : α} (hx : x ∈ xs) :
    ∃ i, xs.zipIdx.find? (fun entry => key entry.1 = key x) = some (x, i) ∧
      xs[i]? = some x := by
  obtain ⟨j, hj⟩ := List.mem_iff_getElem?.1 hx
  have hsome : (xs.zipIdx.find? fun entry => key entry.1 = key x).isSome :=
    List.find?_isSome.2 ⟨(x, j), List.mem_zipIdx_iff_getElem?.2 hj,
      decide_eq_true rfl⟩
  obtain ⟨⟨y, i⟩, hfind⟩ := Option.isSome_iff_exists.1 hsome
  have hkey := List.find?_some hfind
  have hget : xs[i]? = some y :=
    List.mem_zipIdx_iff_getElem?.1 (List.mem_of_find?_eq_some hfind)
  obtain rfl := List.inj_on_of_nodup_map hnodup (List.mem_of_getElem? hget)
    hx (of_decide_eq_true hkey)
  exact ⟨i, hfind, hget⟩

-- ==== validators

namespace Consensus.ValidatorSet

variable {s s' : ValidatorSet} {root : Hash}

/-- What the leaf of a validator commits to. -/
def payload (v : Validator) : Bytes :=
  Writer.fixed v.id ++ Writer.bytes v.publicKey ++ Writer.u64 v.power

/-- The payloads in the order of the leaves. -/
def payloads (s : ValidatorSet) : List Bytes := s.sorted.map payload

theorem payload_inj {v w : Validator} (hv : v.publicKey.length < 2 ^ 32)
    (hw : w.publicKey.length < 2 ^ 32) (h : payload v = payload w) :
    v = w := by
  simp only [payload, List.append_assoc] at h
  obtain ⟨hid, h⟩ := List.append_inj h (by simp)
  obtain ⟨hkey, hpower⟩ := Writer.bytes_append_inj hv hw h
  cases v
  cases w
  cases Vector.toList_inj.1 hid
  cases hkey
  cases Writer.u64_inj hpower
  rfl

theorem root_eq_ok : s.root C = .ok root ↔ s.Valid C ∧
    Merkle.root C (s.payloads.map (Merkle.leaf C "validator")) = root := by
  simp only [ValidatorSet.root, ok_iff, validate_iff, payloads, List.map_map]
  rfl

theorem root_perm (hnetwork : s'.network = s.network)
    (hperm : s'.validators.Perm s.validators) (h : s.root C = .ok root) :
    s'.root C = .ok root := by
  obtain ⟨hvalid, hroot⟩ := root_eq_ok.1 h
  obtain ⟨hvalid', hsorted, _⟩ := hvalid.perm hnetwork hperm
  rw [payloads, ← hsorted] at hroot
  exact root_eq_ok.2 ⟨hvalid', hroot⟩

theorem perm_of_root_eq (h : s.root C = .ok root)
    (h' : s'.root C = .ok root)
    (hinj : Set.InjOn C.sha256 (Merkle.frames C "validator" s.payloads ∪
      Merkle.frames C "validator" s'.payloads)) :
    s.validators.Perm s'.validators := by
  obtain ⟨hvalid, hroot⟩ := root_eq_ok.1 h
  obtain ⟨hvalid', hroot'⟩ := root_eq_ok.1 h'
  have hpayloads := Merkle.payloads_eq_of_root_eq
    ⟨by decide, by decide, by decide⟩ hinj (hroot.trans hroot'.symm)
  have hshort : ∀ {s : ValidatorSet}, s.Valid C → ∀ v ∈ s.sorted,
      v.publicKey.length < 2 ^ 32 := by
    intro s hs v hv
    rw [(hs.sound v (s.sorted_perm.mem_iff.1 hv)).key]
    decide
  have hsorted : s.sorted = s'.sorted :=
    eq_of_map_eq hpayloads fun v hv w hw =>
      payload_inj (hshort hvalid v hv) (hshort hvalid' w hw)
  exact s.sorted_perm.symm.trans (hsorted ▸ s'.sorted_perm)

end Consensus.ValidatorSet

-- ==== commitments

namespace Commitment

theorem canonicalBytes_inj {c c' : Commitment}
    (h : c.canonicalBytes = c'.canonicalBytes) : c = c' := by
  cases c
  cases c'
  simp only [canonicalBytes, List.append_assoc] at h
  obtain ⟨hshard, h⟩ := List.append_inj h (by simp)
  obtain ⟨hstate, h⟩ := List.append_inj h (by simp)
  obtain ⟨hreceipts, hdata⟩ := List.append_inj h (by simp)
  rw [Writer.u32_inj hshard, Vector.toList_inj.1 hstate,
    Vector.toList_inj.1 hreceipts, Vector.toList_inj.1 hdata]

end Commitment

section Commitments

variable {cs cs' out : List Commitment} {root : Hash}

/-- `sortedCommitments` without the path for input that is in order. -/
def sortingPath (commitments : List Commitment) :
    Except Error (List Commitment) := do
  refuse (commitments = []) .shardCount
  let out := commitments.insertionSort fun a b => a.shardID ≤ b.shardID
  refuse (¬ (out.map Commitment.shardID).Nodup) .shardCount
  refuse (∃ c ∈ out, IsZero32 c.stateRoot) .shardCount
  return out

theorem sortedCommitments_eq (cs : List Commitment) :
    sortedCommitments cs = sortingPath cs := by
  rw [sortedCommitments, sortingPath]
  split
  case isTrue hordered =>
    have hsorted : (cs.insertionSort fun a b => a.shardID ≤ b.shardID) =
        cs :=
      List.Pairwise.insertionSort_eq (hordered.imp UInt32.le_of_lt)
    rw [hsorted]
  case isFalse => rfl

/-- The commitments in the order of the leaves. -/
def ordered (cs : List Commitment) : List Commitment :=
  cs.insertionSort fun a b => a.shardID ≤ b.shardID

theorem ordered_perm (cs : List Commitment) : (ordered cs).Perm cs :=
  List.perm_insertionSort _ _

theorem sortedCommitments_eq_ok : sortedCommitments cs = .ok out ↔
    cs ≠ [] ∧ (cs.map Commitment.shardID).Nodup ∧
      (∀ c ∈ cs, ¬ IsZero32 c.stateRoot) ∧ ordered cs = out := by
  have hperm := ordered_perm cs
  rw [sortedCommitments_eq]
  simp only [sortingPath, ok_iff, not_not, not_exists, not_and]
  show cs ≠ [] ∧ ((ordered cs).map Commitment.shardID).Nodup ∧
    (∀ c ∈ ordered cs, ¬ IsZero32 c.stateRoot) ∧ ordered cs = out ↔ _
  rw [(hperm.map _).nodup_iff]
  simp only [hperm.mem_iff]

/-- The payloads in the order of the leaves. -/
def commitmentPayloads (cs : List Commitment) : List Bytes :=
  (ordered cs).map Commitment.canonicalBytes

theorem commitmentRoot_eq_ok : commitmentRoot C cs = .ok root ↔
    sortedCommitments cs = .ok (ordered cs) ∧ Merkle.root C
      ((commitmentPayloads cs).map (Merkle.leaf C "shard-commitment")) =
        root := by
  simp only [commitmentRoot, ok_iff, commitmentPayloads, List.map_map]
  constructor
  · rintro ⟨out, hsorted, hroot⟩
    obtain ⟨_, _, _, rfl⟩ := sortedCommitments_eq_ok.1 hsorted
    exact ⟨hsorted, hroot⟩
  · rintro ⟨hsorted, hroot⟩
    exact ⟨_, hsorted, hroot⟩

theorem commitmentRoot_perm (hperm : cs'.Perm cs)
    (h : commitmentRoot C cs = .ok root) :
    commitmentRoot C cs' = .ok root := by
  obtain ⟨hsorted, hroot⟩ := commitmentRoot_eq_ok.1 h
  obtain ⟨hne, hnodup, hzero, _⟩ := sortedCommitments_eq_ok.1 hsorted
  have hnodup' : (cs'.map Commitment.shardID).Nodup :=
    (hperm.map _).nodup_iff.2 hnodup
  have hordered : ordered cs' = ordered cs :=
    @insertionSort_eq_of_perm _ UInt32 (· ≤ ·) _ _ _ _ _ _ _ hperm hnodup'
  rw [commitmentPayloads, ← hordered] at hroot
  refine commitmentRoot_eq_ok.2 ⟨sortedCommitments_eq_ok.2 ⟨?_, hnodup',
    fun c hc => hzero c (hperm.mem_iff.1 hc), rfl⟩, hroot⟩
  exact fun hnil => hne (List.perm_nil.1 (hnil ▸ hperm).symm)

theorem perm_of_commitmentRoot_eq (h : commitmentRoot C cs = .ok root)
    (h' : commitmentRoot C cs' = .ok root)
    (hinj : Set.InjOn C.sha256
      (Merkle.frames C "shard-commitment" (commitmentPayloads cs) ∪
        Merkle.frames C "shard-commitment" (commitmentPayloads cs'))) :
    cs.Perm cs' := by
  have hpayloads := Merkle.payloads_eq_of_root_eq
    ⟨by decide, by decide, by decide⟩ hinj
    ((commitmentRoot_eq_ok.1 h).2.trans (commitmentRoot_eq_ok.1 h').2.symm)
  have hordered : ordered cs = ordered cs' :=
    eq_of_map_eq hpayloads fun c _ c' _ => Commitment.canonicalBytes_inj
  exact (ordered_perm cs).symm.trans (hordered ▸ ordered_perm cs')

theorem commitmentProof_verifies_iff (h : commitmentRoot C cs = .ok root)
    {c : Commitment} (hc : c ∈ cs) :
    (∃ p, commitmentProof C cs c.shardID = .ok (c, p) ∧
      Merkle.verify C root (c.hash C) p = true) ↔ cs.length < 2 ^ 32 := by
  obtain ⟨hsorted, hroot⟩ := commitmentRoot_eq_ok.1 h
  obtain ⟨_, hnodup, _⟩ := sortedCommitments_eq_ok.1 hsorted
  have hperm := ordered_perm cs
  obtain ⟨i, hfind, hget⟩ := find_zipIdx
    ((hperm.map Commitment.shardID).nodup_iff.2 hnodup) (hperm.mem_iff.2 hc)
  have hleaves : (commitmentPayloads cs).map
      (Merkle.leaf C "shard-commitment") =
        (ordered cs).map (Commitment.hash C) := by
    rw [commitmentPayloads, List.map_map]
    rfl
  obtain ⟨hi, rfl⟩ := List.getElem?_eq_some_iff.1 hget
  have hi' : i < ((ordered cs).map (Commitment.hash C)).length := by
    rwa [List.length_map]
  have hleaf : Merkle.leafAt C ((ordered cs).map (Commitment.hash C)) i =
      ((ordered cs)[i]).hash C := by
    rw [Merkle.leafAt_of_lt hi', List.get_eq_getElem, List.getElem_map]
  have hproof := Merkle.verify_buildProof (C := C) hi'
  rw [hleaf, List.length_map, hperm.length_eq, ← hleaves, hroot] at hproof
  rw [← hproof]
  simp only [commitmentProof, hsorted, ok_bind, ok_iff, hfind,
    Option.some.injEq, exists_eq_left', Merkle.buildProof_eq hi',
    Prod.mk.injEq, true_and, exists_eq_left']
  rw [List.length_map, hperm.length_eq, hleaves]

end Commitments

-- ==== receipts

section Receipts

variable {rs rs' : List CrossShardReceipt} {root : Hash}

/-- The leaf of a receipt. -/
def receiptLeaf (C : Crypto) (r : CrossShardReceipt) : Hash :=
  Merkle.leaf C "cross-shard-receipt" r.encode

theorem CrossShardReceipt.hash_eq_ok {r : CrossShardReceipt} {hash : Hash} :
    r.hash C = .ok hash ↔ r.validate = .ok () ∧ receiptLeaf C r = hash := by
  simp only [CrossShardReceipt.hash, canonicalBytes, ok_iff]
  constructor
  · rintro ⟨_, ⟨hvalid, rfl⟩, hhash⟩
    exact ⟨hvalid, hhash⟩
  · rintro ⟨hvalid, hhash⟩
    exact ⟨_, ⟨hvalid, rfl⟩, hhash⟩

theorem CrossShardReceipt.encode_inj {r r' : CrossShardReceipt}
    (hr : r.validate = .ok ()) (hr' : r'.validate = .ok ())
    (h : r.encode = r'.encode) : r = r' := by
  have hshort : ∀ {r : CrossShardReceipt}, r.validate = .ok () →
      r.output.canonicalBytes.length < 2 ^ 32 := by
    intro r hr
    simp only [CrossShardReceipt.validate, OutputSpec.validate, ok_iff,
      not_or] at hr
    have hdata : r.output.data.length ≤ maxObjectDataBytes.toNat :=
      Nat.le_of_not_lt hr.2.1.2
    have hmax : maxObjectDataBytes.toNat < 2 ^ 31 := by decide
    simp only [OutputSpec.canonicalBytes, List.length_append,
      Writer.length_fixed, Writer.length_u16, Writer.length_bytes]
    omega
  have hlen := hshort hr
  have hlen' := hshort hr'
  simp only [encode, List.append_assoc] at h
  obtain ⟨hsource, h⟩ := List.append_inj h (by simp)
  obtain ⟨hdest, h⟩ := List.append_inj h (by simp)
  obtain ⟨hheight, h⟩ := List.append_inj h (by simp)
  obtain ⟨htx, h⟩ := List.append_inj h (by simp)
  obtain ⟨hindex, h⟩ := List.append_inj h (by simp)
  obtain ⟨houtput, hstate⟩ := Writer.bytes_append_inj hlen hlen' h
  cases r
  cases r'
  cases Writer.u32_inj hsource
  cases Writer.u32_inj hdest
  cases Writer.u64_inj hheight
  cases Vector.toList_inj.1 htx
  cases Writer.u32_inj hindex
  cases OutputSpec.canonicalBytes_inj houtput
  cases Vector.toList_inj.1 hstate
  rfl

theorem receiptHashes_eq_ok {hashes : List Hash} :
    receiptHashes C rs = .ok hashes ↔ (∀ r ∈ rs, r.validate = .ok ()) ∧
      (rs.map (receiptLeaf C)).Nodup ∧
      (rs.map (receiptLeaf C)).insertionSort Bytes32.Before = hashes := by
  have hloop : ∀ hs, rs.mapM (CrossShardReceipt.hash C) = .ok hs ↔
      (∀ r ∈ rs, r.validate = .ok ()) ∧ rs.map (receiptLeaf C) = hs := by
    induction rs with
    | nil => simp
    | cons r rs ih =>
      intro hs
      simp only [List.mapM_cons, ok_iff, ih, CrossShardReceipt.hash_eq_ok,
        List.forall_mem_cons, List.map_cons]
      constructor
      · rintro ⟨_, ⟨hr, rfl⟩, _, ⟨hall, rfl⟩, heq⟩
        exact ⟨⟨hr, hall⟩, heq⟩
      · rintro ⟨⟨hr, hall⟩, heq⟩
        exact ⟨_, ⟨hr, rfl⟩, _, ⟨hall, rfl⟩, heq⟩
  simp only [receiptHashes, ok_iff, not_not, hloop]
  constructor
  · rintro ⟨_, ⟨hall, rfl⟩, hnodup, hsorted⟩
    exact ⟨hall, hnodup, hsorted⟩
  · rintro ⟨hall, hnodup, hsorted⟩
    exact ⟨_, ⟨hall, rfl⟩, hnodup, hsorted⟩

/-- The receipts in the order of their leaves. -/
def orderedReceipts (C : Crypto) (rs : List CrossShardReceipt) :
    List CrossShardReceipt :=
  rs.insertionSort fun a b => (receiptLeaf C a).Before (receiptLeaf C b)

theorem orderedReceipts_perm (rs : List CrossShardReceipt) :
    (orderedReceipts C rs).Perm rs :=
  List.perm_insertionSort _ _

/-- The payloads in the order of the leaves. -/
def receiptPayloads (C : Crypto) (rs : List CrossShardReceipt) :
    List Bytes :=
  (orderedReceipts C rs).map CrossShardReceipt.encode

/-- The leaves of the batch, sorted before or after they are hashed. -/
theorem receiptPayloads_leaves (rs : List CrossShardReceipt) :
    (receiptPayloads C rs).map (Merkle.leaf C "cross-shard-receipt") =
      (rs.map (receiptLeaf C)).insertionSort Bytes32.Before := by
  rw [receiptPayloads, List.map_map]
  exact List.map_insertionSort _ _ _ _ fun _ _ _ _ => Iff.rfl

theorem receiptRoot_eq_ok : receiptRoot C rs = .ok root ↔
    (∀ r ∈ rs, r.validate = .ok ()) ∧ (rs.map (receiptLeaf C)).Nodup ∧
      Merkle.root C ((receiptPayloads C rs).map
        (Merkle.leaf C "cross-shard-receipt")) = root := by
  simp only [receiptRoot, ok_iff, receiptHashes_eq_ok, receiptPayloads_leaves]
  constructor
  · rintro ⟨_, ⟨hall, hnodup, rfl⟩, hroot⟩
    exact ⟨hall, hnodup, hroot⟩
  · rintro ⟨hall, hnodup, hroot⟩
    exact ⟨_, ⟨hall, hnodup, rfl⟩, hroot⟩

theorem receiptRoot_perm (hperm : rs'.Perm rs)
    (h : receiptRoot C rs = .ok root) : receiptRoot C rs' = .ok root := by
  obtain ⟨hall, hnodup, hroot⟩ := receiptRoot_eq_ok.1 h
  have hnodup' : (rs'.map (receiptLeaf C)).Nodup :=
    (hperm.map _).nodup_iff.2 hnodup
  have hordered : orderedReceipts C rs' = orderedReceipts C rs :=
    insertionSort_eq_of_perm hperm hnodup'
  rw [receiptPayloads, ← hordered] at hroot
  exact receiptRoot_eq_ok.2 ⟨fun r hr => hall r (hperm.mem_iff.1 hr),
    hnodup', hroot⟩

theorem perm_of_receiptRoot_eq (h : receiptRoot C rs = .ok root)
    (h' : receiptRoot C rs' = .ok root)
    (hinj : Set.InjOn C.sha256
      (Merkle.frames C "cross-shard-receipt" (receiptPayloads C rs) ∪
        Merkle.frames C "cross-shard-receipt" (receiptPayloads C rs'))) :
    rs.Perm rs' := by
  obtain ⟨hall, _, hroot⟩ := receiptRoot_eq_ok.1 h
  obtain ⟨hall', _, hroot'⟩ := receiptRoot_eq_ok.1 h'
  have hpayloads := Merkle.payloads_eq_of_root_eq
    ⟨by decide, by decide, by decide⟩ hinj (hroot.trans hroot'.symm)
  have hordered : orderedReceipts C rs = orderedReceipts C rs' :=
    eq_of_map_eq hpayloads fun r hr r' hr' => CrossShardReceipt.encode_inj
      (hall r ((orderedReceipts_perm rs).mem_iff.1 hr))
      (hall' r' ((orderedReceipts_perm rs').mem_iff.1 hr'))
  exact (orderedReceipts_perm rs).symm.trans
    (hordered ▸ orderedReceipts_perm rs')

/-- The search for a hash in the sorted list. -/
theorem findIdx_sorted {hashes : List Hash}
    (hsorted : hashes.Pairwise Bytes32.Before) (hnodup : hashes.Nodup)
    {i : Nat} (hi : i < hashes.length) :
    hashes.findIdx (fun hash => (hashes[i]).Before hash) = i := by
  refine (List.findIdx_eq hi).2 ⟨decide_eq_true (Nat.le_refl _),
    fun j hj => decide_eq_false fun hle => ?_⟩
  have hbefore := List.pairwise_iff_getElem.1 hsorted j i
    (hj.trans hi) hi hj
  have hsame : hashes[i] = hashes[j] := antisymm hle hbefore
  exact hj.ne' ((List.Nodup.getElem_inj_iff hnodup).1 hsame)

theorem receiptProof_verifies_iff (h : receiptRoot C rs = .ok root)
    {r : CrossShardReceipt} (hr : r ∈ rs) :
    (∃ p, receiptProof C rs r = .ok p ∧
      Merkle.verify C root (receiptLeaf C r) p = true) ↔
        rs.length < 2 ^ 32 := by
  obtain ⟨hall, hnodup, hroot⟩ := receiptRoot_eq_ok.1 h
  rw [receiptPayloads_leaves] at hroot
  have hperm := List.perm_insertionSort Bytes32.Before
    (rs.map (receiptLeaf C))
  have hpairwise := List.pairwise_insertionSort Bytes32.Before
    (rs.map (receiptLeaf C))
  have hhashes : receiptHashes C rs = .ok
      ((rs.map (receiptLeaf C)).insertionSort Bytes32.Before) :=
    receiptHashes_eq_ok.2 ⟨hall, hnodup, rfl⟩
  have hhash := CrossShardReceipt.hash_eq_ok (C := C).2 ⟨hall r hr, rfl⟩
  have hnodup' := hperm.nodup_iff.2 hnodup
  have hlength : ((rs.map (receiptLeaf C)).insertionSort
      Bytes32.Before).length = rs.length := by
    rw [List.length_insertionSort, List.length_map]
  obtain ⟨i, hi, hget⟩ := List.mem_iff_getElem.1
    (hperm.mem_iff.2 (List.mem_map_of_mem hr))
  generalize (rs.map (receiptLeaf C)).insertionSort Bytes32.Before = hashes
    at *
  have hproof := Merkle.verify_buildProof (C := C) hi
  rw [Merkle.leafAt_of_lt hi, List.get_eq_getElem, hget, hroot] at hproof
  rw [← hlength, ← hproof]
  have hfind := findIdx_sorted hpairwise hnodup' hi
  rw [hget] at hfind
  have hfound : hashes[i]? = some (receiptLeaf C r) :=
    List.getElem?_eq_some_iff.2 ⟨hi, hget⟩
  simp only [receiptProof, hhash, hhashes, ok_bind, hfind, ok_iff, not_not,
    hfound, true_and, Merkle.buildProof_eq hi, Option.some.injEq,
    exists_eq_left']

end Receipts

-- ==== all together

/-- The three roots as commitments to sets. What two trees hash is
`Merkle.frames`; the hash is asked to tell these bytes apart. -/
structure CommitsToSets (C : Crypto) : Prop where
  validators_order : ∀ s s' : Consensus.ValidatorSet,
    s'.network = s.network → s'.validators.Perm s.validators →
      ∀ root, s'.root C = .ok root ↔ s.root C = .ok root
  commitments_order : ∀ cs cs' : List Commitment, cs'.Perm cs →
    ∀ root, commitmentRoot C cs' = .ok root ↔ commitmentRoot C cs = .ok root
  receipts_order : ∀ rs rs' : List CrossShardReceipt, rs'.Perm rs →
    ∀ root, receiptRoot C rs' = .ok root ↔ receiptRoot C rs = .ok root
  validators_binding : ∀ (s s' : Consensus.ValidatorSet) (root : Hash),
    s.root C = .ok root → s'.root C = .ok root →
      Set.InjOn C.sha256 (Merkle.frames C "validator" s.payloads ∪
        Merkle.frames C "validator" s'.payloads) →
      s.validators.Perm s'.validators
  commitments_binding : ∀ (cs cs' : List Commitment) (root : Hash),
    commitmentRoot C cs = .ok root → commitmentRoot C cs' = .ok root →
      Set.InjOn C.sha256
        (Merkle.frames C "shard-commitment" (commitmentPayloads cs) ∪
          Merkle.frames C "shard-commitment" (commitmentPayloads cs')) →
      cs.Perm cs'
  receipts_binding : ∀ (rs rs' : List CrossShardReceipt) (root : Hash),
    receiptRoot C rs = .ok root → receiptRoot C rs' = .ok root →
      Set.InjOn C.sha256
        (Merkle.frames C "cross-shard-receipt" (receiptPayloads C rs) ∪
          Merkle.frames C "cross-shard-receipt" (receiptPayloads C rs')) →
      rs.Perm rs'
  fast_path : ∀ cs, sortedCommitments cs = sortingPath cs
  commitment_proofs : ∀ (cs : List Commitment) (root : Hash),
    commitmentRoot C cs = .ok root →
      ((∀ c ∈ cs, ∃ p, commitmentProof C cs c.shardID = .ok (c, p) ∧
        Merkle.verify C root (c.hash C) p = true) ↔ cs.length < 2 ^ 32)
  receipt_proofs : ∀ (rs : List CrossShardReceipt) (root : Hash),
    receiptRoot C rs = .ok root →
      ((∀ r ∈ rs, ∃ p, receiptProof C rs r = .ok p ∧
        Merkle.verify C root (receiptLeaf C r) p = true) ↔
          rs.length < 2 ^ 32)

theorem roots_commit_to_sets (C : Crypto) : CommitsToSets C where
  validators_order s s' hnetwork hperm root :=
    ⟨Consensus.ValidatorSet.root_perm hnetwork.symm hperm.symm,
      Consensus.ValidatorSet.root_perm hnetwork hperm⟩
  commitments_order cs cs' hperm root :=
    ⟨commitmentRoot_perm hperm.symm, commitmentRoot_perm hperm⟩
  receipts_order rs rs' hperm root :=
    ⟨receiptRoot_perm hperm.symm, receiptRoot_perm hperm⟩
  validators_binding s s' root := Consensus.ValidatorSet.perm_of_root_eq
  commitments_binding cs cs' root := perm_of_commitmentRoot_eq
  receipts_binding rs rs' root := perm_of_receiptRoot_eq
  fast_path := sortedCommitments_eq
  commitment_proofs cs root h := by
    obtain ⟨hne, _⟩ := sortedCommitments_eq_ok.1
      (commitmentRoot_eq_ok.1 h).1
    obtain ⟨c, hc⟩ := List.exists_mem_of_ne_nil cs hne
    exact ⟨fun hall => (commitmentProof_verifies_iff h hc).1 (hall c hc),
      fun hsmall c hc => (commitmentProof_verifies_iff h hc).2 hsmall⟩
  receipt_proofs rs root h := by
    refine ⟨fun hall => ?_,
      fun hsmall r hr => (receiptProof_verifies_iff h hr).2 hsmall⟩
    cases rs with
    | nil => decide
    | cons r rest =>
      exact (receiptProof_verifies_iff h List.mem_cons_self).1
        (hall r List.mem_cons_self)

/-- One commitment for every shard id there is. -/
def crowdedCommitments : List Commitment :=
  (List.range (2 ^ 32)).map fun shard =>
    ⟨UInt32.ofNat shard, Vector.replicate 32 1, Bytes32.zero, Bytes32.zero⟩

/-- They have a root, and a member whose proof does not verify. -/
theorem crowdedCommitments_unproved :
    ∃ root, commitmentRoot Merkle.blankCrypto crowdedCommitments =
        .ok root ∧
      ∃ c ∈ crowdedCommitments, ¬ ∃ p,
        commitmentProof Merkle.blankCrypto crowdedCommitments c.shardID =
            .ok (c, p) ∧
          Merkle.verify Merkle.blankCrypto root
            (c.hash Merkle.blankCrypto) p = true := by
  have hlength : crowdedCommitments.length = 2 ^ 32 := by
    rw [crowdedCommitments, List.length_map, List.length_range]
  have hnodup : (crowdedCommitments.map Commitment.shardID).Nodup := by
    rw [crowdedCommitments, List.map_map]
    refine List.nodup_range.map_on fun a ha b hb hab => ?_
    have hnat := congrArg UInt32.toNat hab
    simp only [Function.comp_apply, UInt32.toNat_ofNat'] at hnat
    rwa [Nat.mod_eq_of_lt (List.mem_range.1 ha),
      Nat.mod_eq_of_lt (List.mem_range.1 hb)] at hnat
  have hroots : ∀ c ∈ crowdedCommitments, ¬ IsZero32 c.stateRoot := by
    intro c hc
    obtain ⟨shard, _, rfl⟩ := List.mem_map.1 hc
    show ¬ IsZero32 (Vector.replicate 32 1)
    decide
  have hne : crowdedCommitments ≠ [] := by
    intro hnil
    rw [hnil] at hlength
    cases hlength
  generalize crowdedCommitments = cs at *
  obtain ⟨c, hc⟩ := List.exists_mem_of_ne_nil cs hne
  have hroot := (commitmentRoot_eq_ok (C := Merkle.blankCrypto)).2
    ⟨sortedCommitments_eq_ok.2 ⟨hne, hnodup, hroots, rfl⟩, rfl⟩
  refine ⟨_, hroot, c, hc, fun hproof => ?_⟩
  have hsmall := (commitmentProof_verifies_iff hroot hc).1 hproof
  omega

end ZephyrChain
