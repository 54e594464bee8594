/-
Identifiers (`internal/v2/types`). Every identifier is a 32-byte array;
the ones below are derived from a transaction id or a public key by a
domain-separated hash. An object id also records, in its first four
bytes, the shard the object lives on.
-/
import ZephyrChain.Codec

namespace ZephyrChain

open Lib

abbrev Hash := Bytes32
abbrev NetworkID := Bytes32
abbrev AccountID := Bytes32
abbrev ValidatorID := Bytes32
abbrev ObjectID := Bytes32
abbrev TokenID := Bytes32
abbrev ContractID := Bytes32
abbrev JobID := Bytes32

/-- `IsZero32`. -/
abbrev IsZero32 (v : Bytes32) : Prop := v = Bytes32.zero

variable (C : Crypto)

def accountIDFromPublicKey (publicKey : Bytes) : AccountID :=
  domainHash C "zephyr/account-id/v2" publicKey

def validatorIDFromPublicKey (publicKey : Bytes) : ValidatorID :=
  domainHash C "zephyr/validator-id/v2" publicKey

/-- The shard new objects of an account are created on. -/
def accountShard (account : AccountID) (shardCount : UInt32) : UInt32 :=
  if shardCount ≤ 1 then 0
  else UInt32.ofNat (ofBe (account.toList.take 8) % shardCount.toNat)

/-- The shard an object id records. -/
def objectShard (id : ObjectID) : UInt32 :=
  UInt32.ofNat (ofBe (id.toList.take 4))

/-- Overwrite the first four bytes with a shard number. -/
def withShard (hash : Bytes32) (shardID : UInt32) : ObjectID :=
  Bytes32.copy32 (Writer.u32 shardID ++ hash.toList.drop 4)

def objectIDForShard (txID : Hash) (index shardID : UInt32) : ObjectID :=
  withShard
    (domainHash C "zephyr/object-id/v2"
      (Writer.fixed txID ++ Writer.u32 index ++ Writer.u32 shardID))
    shardID

/-- An identifier derived from a transaction and an operation index. -/
def idFromTransaction (domain : String) (txID : Hash)
    (operationIndex : UInt32) : Bytes32 :=
  domainHash C domain (Writer.fixed txID ++ Writer.u32 operationIndex)

def tokenIDFromTransaction (txID : Hash) (operationIndex : UInt32) :
    TokenID :=
  idFromTransaction C "zephyr/token-id/v2" txID operationIndex

def contractIDFromTransaction (txID : Hash) (operationIndex : UInt32) :
    ContractID :=
  idFromTransaction C "zephyr/contract-id/v2" txID operationIndex

def jobIDFromTransaction (txID : Hash) (operationIndex : UInt32) : JobID :=
  idFromTransaction C "zephyr/compute-job-id/v2" txID operationIndex

end ZephyrChain
