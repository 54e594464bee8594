/-
The durable signing guard (`internal/v2/consensus/signing_guard.go`): an
append-only journal of what a validator has agreed to sign, and the last
slot in it. A service carries an open guard; nothing that signs is
modelled, so only the two states are here.

`JournalFile` holds the bytes of `consensus-signing.journal` and how
many of them a successful sync covers.
-/
import ZephyrChain.Types

namespace ZephyrChain.Consensus

structure DurableSigningGuard where
  network : NetworkID
  validator : ValidatorID
  height : UInt64
  round : UInt64
  target : Hash
  lastRecordHash : Hash
  hasRecord : Bool
  closed : Bool
  poisoned : Bool
  deriving DecidableEq

structure JournalFile where
  bytes : Bytes
  /-- How many bytes a successful sync covers. -/
  synced : Nat
  deriving DecidableEq

end ZephyrChain.Consensus
