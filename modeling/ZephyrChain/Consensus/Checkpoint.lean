/-
The validator trust chain (`internal/v2/checkpoint`: chain.go). A
checkpoint chain is pinned to a genesis committee and takes certified
headers one after the other. Each header names the committee that
certified it and may hand over to another one; the chain keeps every
committee it has met under its root.

`append` returns the chain it leaves together with the error, if any:
the source changes the chain in place. Copying a validator set
(`cloneSet`) is passing a value.
-/
import ZephyrChain.Consensus.Validators

namespace ZephyrChain.Consensus.Checkpoint

open Lib

structure Entry where
  header : GlobalHeader
  certificate : Certificate
  validators : ValidatorSet
  deriving DecidableEq

structure Chain where
  network : NetworkID
  currentRoot : Hash
  lastHeight : UInt64
  lastHash : Hash
  entries : UInt64 → Option Entry
  sets : Hash → Option ValidatorSet

variable (C : Crypto)

/-- `New`. -/
def newChain (network : NetworkID) (genesis : ValidatorSet) :
    Except Error Chain := do
  refuse (IsZero32 network ∨ genesis.network ≠ network) .checkpointConfig
  let root ← failWith .checkpointConfig (genesis.root C)
  refuse (IsZero32 root) .checkpointConfig
  return ⟨network, root, 0, Bytes32.zero, fun _ => none,
    Function.update (fun _ => none) root (some genesis)⟩

/-- The arguments of one call of `Append`. -/
structure Call where
  header : GlobalHeader
  certificate : Certificate
  current : ValidatorSet
  next : Option ValidatorSet
  deriving DecidableEq

namespace Chain

variable (c : Chain) (a : Call)

/-- The checks of `Append` on the header, its committee and its
certificate; the root of the committee. -/
def checkHeader : Except Error Hash := do
  refuse (a.header.network ≠ c.network ∨ a.certificate.network ≠ c.network ∨
    a.current.network ≠ c.network) .checkpointSequence
  refuse (a.header.height ≠ c.lastHeight + 1 ∨
    (0 < c.lastHeight ∧ a.header.parentHash ≠ c.lastHash))
    .checkpointSequence
  let currentRoot ← failWith .checkpointValidators (a.current.root C)
  refuse (currentRoot ≠ c.currentRoot ∨
    a.header.validatorRoot ≠ currentRoot) .checkpointValidators
  refuse (a.certificate.height ≠ a.header.height ∨
    a.certificate.headerHash ≠ headerConsensusHash C a.header ∨
    a.header.certificateHash ≠ a.certificate.hash C) .checkpointCert
  failWith .checkpointCert (a.current.verifyCertificate C a.certificate)
  return currentRoot

/-- The committee of the next height, when the call brings one: it must
be there if the header hands over, and it must have the root the header
names. -/
def checkNext (currentRoot : Hash) : Except Error Unit := do
  let nextRoot := a.header.effectiveNextValidatorRoot
  match a.next with
  | none => refuse (nextRoot ≠ currentRoot) .checkpointValidators
  | some next =>
    refuse (nextRoot ≠ currentRoot ∧ next.network ≠ c.network)
      .checkpointValidators
    let computed ← failWith .checkpointValidators (next.root C)
    refuse (computed ≠ nextRoot) .checkpointValidators

/-- `c.sets[root] = set`. -/
def setStored (root : Hash) (set : ValidatorSet) : Chain :=
  { c with sets := Function.update c.sets root (some set) }

/-- What `Append` writes once every check has passed. The set of the next
height is stored before the current one, which wins where both have one
root. -/
def extended (currentRoot : Hash) : Chain :=
  let nextRoot := a.header.effectiveNextValidatorRoot
  let withNext := match a.next with
    | none => c
    | some next => c.setStored nextRoot next
  let stored := withNext.setStored currentRoot a.current
  { stored with
    entries := Function.update c.entries a.header.height
      (some ⟨a.header, a.certificate, a.current⟩)
    currentRoot := nextRoot
    lastHeight := a.header.height
    lastHash := headerConsensusHash C a.header }

/-- `Append`: the chain it leaves, and its error. -/
def append : Chain × Option Error :=
  match c.checkHeader C a with
  | .error e => (c, some e)
  | .ok currentRoot =>
    match c.checkNext C a currentRoot with
    | .error e => (c, some e)
    | .ok _ => (c.extended C a currentRoot, none)

/-- A sequence of calls. -/
def appendAll : Chain → List Call → Chain
  | c, [] => c
  | c, a :: rest => (c.append C a).1.appendAll rest

def verifyEntry (height : UInt64) : Except Error Unit := do
  let entry ← require (c.entries height) .checkpointSequence
  let root ← failWith .checkpointValidators (entry.validators.root C)
  refuse (root ≠ entry.header.validatorRoot) .checkpointValidators
  refuse (entry.certificate.headerHash ≠
      headerConsensusHash C entry.header ∨
    entry.header.certificateHash ≠ entry.certificate.hash C)
    .checkpointCert
  failWith .checkpointCert
    (entry.validators.verifyCertificate C entry.certificate)

end Chain

end ZephyrChain.Consensus.Checkpoint
