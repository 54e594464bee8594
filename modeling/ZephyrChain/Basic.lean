/-
The data every package of the protocol shares: byte strings, 32-byte
arrays, the error values the modelled functions return, and the
cryptographic primitives the code calls but does not define.

# Bytes

A Go `[]byte` is `Bytes`, a `[32]byte` is `Bytes32`. Where the source
tells a nil slice from an empty one, the model uses `Option Bytes`.

# Cryptography

SHA-256 and ECDSA over P-256 come from the Go standard library. They are
the fields of `Crypto`, and everything that hashes or verifies takes a
`Crypto`. No property of them is built in: a result that needs the hash
to be collision free or signatures to be unforgeable says so in its
hypotheses, for the payloads the run at hand really hashes.
-/
import ZephyrChain.Lib.Except
import ZephyrChain.Lib.Wire

namespace ZephyrChain

open Lib

abbrev Bytes := List UInt8

instance Bytes.lawfulBEq : LawfulBEq Bytes := inferInstance

/-- A fixed 32-byte array: every hash and identifier of the protocol. -/
abbrev Bytes32 := Vector UInt8 32

namespace Bytes32

instance lawfulBEq : LawfulBEq Bytes32 := inferInstance

/-- The all-zero array, Go's zero value. -/
def zero : Bytes32 := Vector.replicate 32 0

/-- Fill a 32-byte array from a slice: the source's `copy(out[:], raw)`
into a zero value. -/
def copy32 (bs : Bytes) : Bytes32 := Vector.ofFn fun i => bs.getD i 0

@[simp] theorem copy32_toList (x : Bytes32) : copy32 x.toList = x := by
  apply Vector.ext
  intro i hi
  simp [copy32]

theorem toList_copy32 {bs : Bytes} (h : bs.length = 32) :
    (copy32 bs).toList = bs := by
  apply List.ext_getElem
  · simp [h]
  · intro i h1 h2
    simp [copy32, List.getElem?_eq_getElem h2]

/-- The array as a number. -/
def toNat (x : Bytes32) : Nat := ofBe x.toList

theorem toNat_inj {x y : Bytes32} (h : x.toNat = y.toNat) : x = y :=
  Vector.toList_inj.1 (ofBe_inj (by simp) h)

/-- The order `bytes.Compare` puts on 32-byte arrays, which is also the
order of their hexadecimal strings. -/
def Before (x y : Bytes32) : Prop := x.toNat ≤ y.toNat

instance (x y : Bytes32) : Decidable (Before x y) :=
  inferInstanceAs (Decidable (x.toNat ≤ y.toNat))

instance : IsTrans Bytes32 Before := ⟨fun _ _ _ => Nat.le_trans⟩

instance : Std.Antisymm Before :=
  ⟨fun _ _ h h' => toNat_inj (Nat.le_antisymm h h')⟩

instance : Std.Total Before := ⟨fun x y => Nat.le_total x.toNat y.toNat⟩

end Bytes32

/-- `math.MaxUint64 - a < b`: the sum of `a` and `b` does not fit into 64
bits. -/
def Overflows (a b : UInt64) : Prop := UInt64.ofNat (2 ^ 64 - 1) - a < b

instance (a b : UInt64) : Decidable (Overflows a b) :=
  inferInstanceAs (Decidable (_ < b))

theorem not_overflows_iff {a b : UInt64} :
    ¬ Overflows a b ↔ a.toNat + b.toNat < 2 ^ 64 := by
  have ha := a.toNat_lt
  have hmax : (UInt64.ofNat (2 ^ 64 - 1)).toNat = 2 ^ 64 - 1 := by decide
  have hle : a ≤ UInt64.ofNat (2 ^ 64 - 1) := by
    rw [UInt64.le_iff_toNat_le, hmax]
    omega
  rw [Overflows, UInt64.lt_iff_toNat_lt, UInt64.toNat_sub_of_le _ _ hle, hmax]
  omega

/-- A checked sum is the exact sum. -/
theorem toNat_add_of_fits {a b : UInt64} (h : ¬ Overflows a b) :
    (a + b).toNat = a.toNat + b.toNat := by
  rw [UInt64.toNat_add, Nat.mod_eq_of_lt (not_overflows_iff.1 h)]

/-- The error values of the modelled packages, one constructor for each
variable of the source. -/
inductive Error where
  -- codec
  | unexpectedEOF
  | trailingData
  | lengthLimit
  | invalidBool (value : UInt8)
  -- state
  | invalidProof
  -- object
  | invalidObject
  | invalidCoin
  -- worldstate
  | objectNotFound
  | objectExists
  | persistenceNetwork
  | persistenceCorrupt
  | persistenceClosed
  -- tx
  | version
  | network
  | sender
  | signature
  | canonicalSig
  | txStructure
  | witness
  | expired
  | wire
  -- merkle
  | merkleIndex
  -- sharding
  | shardCount
  | receipt
  | receiptProof
  | receiptReplay
  -- assets
  | invalidTokenDefinition
  -- contracts
  | invalidModule
  | invalidDeployment
  | fuelExhausted
  | undeclaredAccess
  | invalidRequest
  | invalidContractResult
  | contractWire
  | scriptRuntime
  -- compute
  | invalidOffer
  | invalidJob
  | invalidComputeResult
  | marketNotFound
  | marketState
  | marketMatch
  | marketEscrow
  | marketVerification
  | marketDuplicate
  | computeMessage
  -- lending
  | lending
  | lendingState
  -- devicecredential
  | credential
  -- execution
  | unsupportedOperation
  | ownership
  | conservation
  | overflow
  | shard
  | tokenPolicy
  | batchConflict
  | batchStateRoot
  -- consensus
  | validatorSet
  | proposal
  | vote
  | certificate
  | insufficientPower
  | signingGuard
  | signingConflict
  | signingJournal
  | signingGuardBusy
  | validatorWire
  -- checkpoint
  | checkpointConfig
  | checkpointSequence
  | checkpointValidators
  | checkpointCert
  -- citizen
  | trustedBundle
  -- node
  | candidateHeight
  | candidateState
  | candidateCert
  | receiptImport
  | runtimeRecoveryRequired
  | globalCommitJournal
  | certifiedHistory
  | runtimeConfig
  -- economics
  | feePolicy
  | resourceFee
  | zcuReference
  | finalizedEconomics
  | velocity
  | epochMetrics
  | computeIndex
  | computeScarcity
  | computeFeedback
  | monetaryPolicy
  | idleCapital
  | monetaryState
  | shadowEpochEngine
  | economicCheckpoint
  | finalityAnchor
  | finalityCheckpoint
  | notValidator
  | notProposer
  | noQuorum
  | serviceConfig
  | proposalState
  | doubleVote
  | mempoolConflict
  | networkWire
  -- compute work
  | invalidWorkSpec
  | invalidWorkRegistry
  | invalidWorkSettlement
  -- committee
  | committee
  -- da
  | invalidSample
  | invalidErasureConfig
  | reconstruction
  -- genesis
  | protocolVersion
  | chainName
  | shardConfig
  | genesisValidator
  | allocation
  | votingPower
  | allocationSupply
  | genesisState
  -- an error of the operating system
  | io
  deriving DecidableEq, Repr

/-- The primitives of the Go standard library the protocol rests on. -/
structure Crypto where
  /-- `crypto/sha256`. -/
  sha256 : Bytes → Bytes32
  /-- `elliptic.Unmarshal(P256, key)` returns a point. -/
  onCurve : Bytes → Bool
  /-- `ecdsa.Verify` for the P-256 point `key` encodes. -/
  ecdsaVerify : (key : Bytes) → (digest : Bytes32) → (r s : Nat) → Bool

end ZephyrChain
