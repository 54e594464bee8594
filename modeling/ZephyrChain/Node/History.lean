/-
The two append-only files a runtime may keep beside its journal: the
certified history (`internal/v2/node/certified_history.go`), one record
for each finalized block from genesis on, and the finality anchor
(`finality_anchor_store.go`, `finality_checkpoint.go`), the highest
finalized header, kept in another failure domain.

Both writers are poisoned by a failed write and refuse everything after
it. Only `Append` and `advance`, the calls a commit makes, are modelled;
opening a file and replaying it belong to recovery at startup.
-/
import ZephyrChain.Node.Journal

namespace ZephyrChain.Node

open Lib
open Consensus (ValidatorSet headerConsensusHash)

variable (C : Crypto)

/-- What happens to one append to a file. -/
inductive WriteFault where
  | none
  /-- The size of the file cannot be read. -/
  | statFails
  /-- The write stops with an error after this many bytes. -/
  | cutAt (n : Nat)
  /-- The write is complete, the sync returns an error. -/
  | syncFails
  deriving DecidableEq

-- ==== history

def maxCertifiedHistoryBytes : Nat := 536870912
def maxCertifiedHistoryRecords : UInt32 := 4096

structure CertifiedHistory where
  file : Bytes
  network : NetworkID
  native : TokenID
  validatorRoot : Hash
  shards : UInt32
  roots : UInt32 → Option Hash
  height : UInt64
  parent : Hash
  lastDigest : Hash
  count : UInt32
  closed : Bool
  poisoned : Bool

namespace CertifiedHistory

variable (h : CertifiedHistory)

/-- One shard of an intent against the root the history has for it. -/
def checkShard (intent : GlobalCommitIntent) (shard : UInt32) :
    Except Error Unit := do
  let old ← require (h.roots shard) .certifiedHistory
  let post := ((commitmentOf intent.commitments shard).map
    Commitment.stateRoot).getD Bytes32.zero
  match intent.deltas.find? fun d => d.shardID = shard with
  | some d =>
    refuse (d.preRoot ≠ old ∨ d.postRoot ≠ post) .certifiedHistory
  | none => refuse (post ≠ old) .certifiedHistory

def checkIntent (intent : GlobalCommitIntent) (validators : ValidatorSet) :
    Except Error Unit := do
  failWith .certifiedHistory (intent.validate C)
  refuse (intent.network ≠ h.network ∨ intent.nativeToken ≠ h.native ∨
    intent.validatorRoot ≠ h.validatorRoot ∨ intent.shardCount ≠ h.shards ∨
    intent.header.height ≠ h.height + 1 ∨ intent.preHeight ≠ h.height ∨
    intent.preParentHash ≠ h.parent ∨ intent.header.parentHash ≠ h.parent ∨
    intent.header.effectiveNextValidatorRoot ≠ h.validatorRoot ∨
    intent.header.certificateHash ≠ Bytes32.zero) .certifiedHistory
  let root ← failWith .certifiedHistory (validators.root C)
  refuse (root ≠ h.validatorRoot ∨ validators.network ≠ h.network)
    .certifiedHistory
  failWith .certifiedHistory
    (validators.verifyCertificate C intent.certificate)
  forM (List.range h.shards.toNat)
    fun shard => h.checkShard intent (UInt32.ofNat shard)

/-- The digest that chains a record to the one before it. -/
def recordDigest (payload : Bytes) : Hash :=
  domainHash C "zephyr/finality-history-record/v2"
    (Writer.fixed h.lastDigest ++ payload)

def record (payload : Bytes) : Bytes :=
  Writer.u32 (UInt32.ofNat payload.length) ++ payload ++
    Writer.fixed (h.recordDigest C payload)

/-- The history that has taken an intent. -/
def taken (intent : GlobalCommitIntent) (payload : Bytes) :
    CertifiedHistory :=
  { h with
    file := h.file ++ h.record C payload
    roots := fun shard =>
      match commitmentOf intent.commitments shard with
      | some c => some c.stateRoot
      | none => h.roots shard
    height := intent.header.height
    parent := headerConsensusHash C intent.header
    lastDigest := h.recordDigest C payload
    count := h.count + 1 }

/-- The payload of an append, or the error it is refused with. -/
def appendPayload (intent : GlobalCommitIntent) (validators : ValidatorSet) :
    Except Error Bytes := do
  refuse (h.closed ∨ h.poisoned ∨ maxCertifiedHistoryRecords ≤ h.count)
    .certifiedHistory
  h.checkIntent C intent validators
  let payload ← failWith .certifiedHistory
    ({ intent with status := globalCommitPreparing }.marshalBinary C)
  refuse (payload.length = 0 ∨ maxGlobalCommitJournalBytes < payload.length)
    .certifiedHistory
  return payload

/-- `Append`: the history after the call and its error. -/
def append (fault : WriteFault) (intent : GlobalCommitIntent)
    (validators : ValidatorSet) : CertifiedHistory × Option Error :=
  match h.appendPayload C intent validators with
  | .error e => (h, some e)
  | .ok payload =>
    let raw := h.record C payload
    if fault = .statFails ∨
        maxCertifiedHistoryBytes < h.file.length + raw.length then
      ({ h with poisoned := true }, some .certifiedHistory)
    else match fault with
      | .cutAt n =>
        ({ h with file := h.file ++ raw.take n, poisoned := true },
          some .certifiedHistory)
      | .syncFails =>
        ({ h with file := h.file ++ raw, poisoned := true },
          some .certifiedHistory)
      | _ => (h.taken C intent payload, none)

end CertifiedHistory

-- ==== anchor

def maxFinalityAnchorRecords : UInt32 := 4096

structure FinalityCheckpoint where
  network : NetworkID
  validatorRoot : Hash
  height : UInt64
  headerHash : Hash
  deriving DecidableEq

def FinalityCheckpoint.validate (c : FinalityCheckpoint)
    (network : NetworkID) (validatorRoot : Hash) : Except Error Unit :=
  refuse (c.height = 0 ∨ IsZero32 c.headerHash ∨ IsZero32 c.network ∨
    IsZero32 c.validatorRoot ∨ c.network ≠ network ∨
    c.validatorRoot ≠ validatorRoot) .finalityCheckpoint

structure FinalityAnchorStore where
  file : Bytes
  network : NetworkID
  validatorRoot : Hash
  height : UInt64
  hash : Hash
  lastDigest : Hash
  count : UInt32
  closed : Bool
  poisoned : Bool

namespace FinalityAnchorStore

variable (s : FinalityAnchorStore)

def recordDigest (height : UInt64) (hash : Hash) : Hash :=
  domainHash C "zephyr/monotonic-finalized-anchor/v2"
    (Writer.fixed s.network ++ Writer.fixed s.validatorRoot ++
      Writer.u64 height ++ Writer.fixed hash ++ Writer.fixed s.lastDigest)

def record (c : FinalityCheckpoint) : Bytes :=
  Writer.u64 c.height ++ Writer.fixed c.headerHash ++
    Writer.fixed s.lastDigest ++
    Writer.fixed (s.recordDigest C c.height c.headerHash)

/-- The checks in front of the write: a checkpoint of this chain that
does not go back and does not contradict the mark. -/
def checkAdvance (c : FinalityCheckpoint) : Except Error Unit := do
  refuse (s.closed ∨ s.poisoned) .finalityAnchor
  failWith .finalityAnchor (c.validate s.network s.validatorRoot)
  refuse (c.height < s.height ∨ (c.height = s.height ∧
    c.headerHash ≠ s.hash)) .finalityAnchor
  refuse (c.height ≠ s.height ∧ maxFinalityAnchorRecords ≤ s.count)
    .finalityAnchor

/-- `advance`: the store after the call and its error. -/
def advance (fault : WriteFault) (c : FinalityCheckpoint) :
    FinalityAnchorStore × Option Error :=
  match s.checkAdvance c with
  | .error e => (s, some e)
  | .ok _ =>
    if c.height = s.height then (s, none)
    else
      let raw := s.record C c
      match fault with
      | .cutAt n =>
        ({ s with file := s.file ++ raw.take n, poisoned := true },
          some .finalityAnchor)
      | .syncFails =>
        ({ s with file := s.file ++ raw, poisoned := true },
          some .finalityAnchor)
      | _ =>
        ({ s with
          file := s.file ++ raw
          height := c.height
          hash := c.headerHash
          lastDigest := s.recordDigest C c.height c.headerHash
          count := s.count + 1 }, none)

end FinalityAnchorStore

end ZephyrChain.Node
