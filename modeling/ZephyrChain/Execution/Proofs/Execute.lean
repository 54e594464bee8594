/-
What every executed transaction has in common: its witnesses are its
inputs, each proven against the state root it names (`Enveloped`). With a
hash free of collisions the witnesses are then the objects of the state
with that root.
-/
import ZephyrChain.Execution.Proofs.Compute
import ZephyrChain.Execution.Proofs.Contracts
import ZephyrChain.Execution.Proofs.Tokens
import ZephyrChain.State.Proofs.Paths
import ZephyrChain.WorldState.Proofs.Memory

namespace ZephyrChain.Execution

open Lib
open State (smtHash visited)
open WorldState (Memory Mirrors)

variable {C : Crypto} {e : Engine} {t : Transaction} {r : Result}

-- ==== envelope

/-- The witnesses are the inputs, each of them proven against the state
root, and no two are the same. -/
structure Enveloped (C : Crypto) (t : Transaction) : Prop where
  ids : t.inputs.map InputRef.objectID = t.objects.map Object.id
  nodup : (t.objects.map Object.id).Nodup
  proven : ∀ w ∈ t.witnesses, State.verify (State.smtHash C) t.stateRoot
    w.object.id (some (w.object.hash C).toList) w.proof = true

theorem verifyWitness_eq_ok {pair : InputRef × Witness}
    (h : t.verifyWitness C pair = .ok ()) :
    pair.1.objectID = pair.2.object.id ∧
      State.verify (State.smtHash C) t.stateRoot pair.2.object.id
        (some (pair.2.object.hash C).toList) pair.2.proof = true := by
  simp only [Transaction.verifyWitness, ok_iff, not_or, not_not,
    Bool.not_eq_false] at h
  obtain ⟨⟨hid, _⟩, hproof⟩ := h
  rw [hid]
  exact ⟨rfl, hproof⟩

theorem enveloped_of_verifyWitnesses
    (hnodup : (t.inputs.map InputRef.objectID).Nodup)
    (h : t.verifyWitnesses C = .ok ()) : Enveloped C t := by
  simp only [Transaction.verifyWitnesses, ok_iff, not_not, forM_eq_ok] at h
  obtain ⟨hlen, hall⟩ := h
  have hleft : (t.inputs.zip t.witnesses).map Prod.fst = t.inputs :=
    List.map_fst_zip hlen.ge
  have hright : (t.inputs.zip t.witnesses).map Prod.snd = t.witnesses :=
    List.map_snd_zip hlen.le
  have hids : t.inputs.map InputRef.objectID =
      t.objects.map Object.id := by
    rw [Transaction.objects, List.map_map]
    nth_rewrite 1 [← hleft]
    nth_rewrite 2 [← hright]
    rw [List.map_map, List.map_map]
    exact List.map_congr_left fun pair hpair =>
      (verifyWitness_eq_ok (hall pair hpair)).1
  refine ⟨hids, hids ▸ hnodup, fun w hw => ?_⟩
  rw [← hright] at hw
  obtain ⟨pair, hpair, rfl⟩ := List.mem_map.1 hw
  exact (verifyWitness_eq_ok (hall pair hpair)).2

theorem checkEnvelope_eq_ok (h : checkEnvelope C e t = .ok ()) :
    Enveloped C t := by
  simp only [checkEnvelope, Transaction.verifyForNetwork,
    Transaction.validateStatic, Transaction.validateInputs, ok_iff,
    not_not] at h
  obtain ⟨⟨_, _, _, _, _, _, _, ⟨_, hnodup⟩, _⟩, hwitnesses, _⟩ := h
  exact enveloped_of_verifyWitnesses hnodup hwitnesses

-- ==== witnesses

/-- No collision among the hashes a shard compares when it checks the
witnesses of a transaction against its state. -/
structure CollisionFree (C : Crypto) (m : Memory) (t : Transaction) :
    Prop where
  tree : ∀ w ∈ t.witnesses, Set.InjOn (smtHash C)
    (visited (smtHash C) m.tree.values w.object.id
      (some (w.object.hash C).toList) w.proof)
  object : ∀ w ∈ t.witnesses, ∀ id o, m.objects.lookup id = some o →
    w.object.hash C = o.hash C → w.object = o

/-- A witness proven against the root of a state is an object of it. -/
theorem lookup_of_witness {m : Memory} (hm : Mirrors C m)
    (henv : Enveloped C t) (hroot : t.stateRoot = m.root C)
    (hcf : CollisionFree C m t) {o : Object} (ho : o ∈ t.objects) :
    m.objects.lookup o.id = some o := by
  obtain ⟨w, hw, rfl⟩ := List.mem_map.1 ho
  have hproof := henv.proven w hw
  rw [hroot, Memory.root, hm.coherent.root_eq] at hproof
  have hvalue := State.verify_sound_on (hcf.tree w hw) hproof
  rw [hm.values, WorldState.leavesOf] at hvalue
  obtain ⟨o, hlookup, hleaf⟩ := Option.map_eq_some_iff.1 hvalue.symm
  have hhash : w.object.hash C = o.hash C :=
    (Vector.toList_inj.1 hleaf).symm
  rw [hcf.object w hw _ o hlookup hhash] at hlookup ⊢
  exact hlookup

-- ==== samples

/-- A public key of the right length. -/
def sampleKey : Bytes := List.replicate 65 4

/-- A signature with `r = s = 1`. -/
def sampleSignature : Bytes :=
  List.replicate 31 0 ++ [1] ++ List.replicate 31 0 ++ [1]

/-- A transaction without inputs and outputs. -/
def sampleTransaction (C : Crypto) (op : Operation) : Transaction where
  version := txVersion
  network := Vector.replicate 32 1
  shardID := 0
  sender := accountIDFromPublicKey C sampleKey
  senderPublicKey := sampleKey
  stateRoot := Vector.replicate 32 1
  inputs := []
  outputs := []
  operations := [op]
  fee := 0
  validUntilHeight := 0
  salt := Vector.replicate 16 1
  signature := sampleSignature
  witnesses := []

/-- A token of five units, owned by the sender. -/
def sampleCreate (C : Crypto) : CreateToken where
  name := [65]
  symbol := [65]
  decimals := 0
  supplyPolicy := .fixed
  maxSupply := 5
  initialSupply := 5
  mintAuthority := accountIDFromPublicKey C sampleKey
  burnable := false
  transferable := true

/-- One shard, no contract engine. -/
def sampleEngine (native : TokenID) : Engine where
  network := Vector.replicate 32 1
  nativeToken := native
  shardCount := 1
  height := 1
  contractRuntimes := fun _ => none
  scriptRuntime := ⟨fun _ => .ok (), fun _ => .error .scriptRuntime⟩

/-- A hash that keeps the last 32 bytes. -/
def tailCrypto : Crypto where
  sha256 := fun bs => Bytes32.copy32 (bs.drop (bs.length - 32))
  onCurve := fun _ => true
  ecdsaVerify := fun _ _ _ _ => true

theorem tailCrypto_append (bs : Bytes) (x : Bytes32) :
    tailCrypto.sha256 (bs ++ x.toList) = x := by
  have hlen : (bs ++ x.toList).length - 32 = bs.length := by
    simp
  show Bytes32.copy32 (List.drop _ _) = x
  rw [hlen, List.drop_left, Bytes32.copy32_toList]

theorem domainHash_tailCrypto (domain : String) (bs : Bytes) (x : Bytes32) :
    domainHash tailCrypto domain (bs ++ x.toList) = x := by
  rw [domainHash, domainFrame, Writer.bytes, Writer.bytes,
    ← List.append_assoc, ← List.append_assoc]
  exact tailCrypto_append _ _

end ZephyrChain.Execution
