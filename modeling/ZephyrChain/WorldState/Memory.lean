/-
The in-memory world state (`internal/v2/worldstate`: store.go,
simulate.go): the live objects by id, and beside them the sparse Merkle
tree whose leaves are the hashes of those objects.

`Apply`, `Simulate` and the durable store's `prevalidate` make the same
checks in the same order; they are written once, as `validateDelta`. A
call that fails a check returns the current root next to its error, and
the model keeps both.
-/
import ZephyrChain.State.Smt
import Mathlib.Data.Finmap

namespace ZephyrChain.WorldState

open Lib
open State (smtHash newTree)

/-- The live objects by id. -/
abbrev Objects := Finmap fun _ : ObjectID => Object

structure Memory where
  tree : State.Tree Hash
  objects : Objects

def newMemory : Memory := ⟨newTree Hash, ∅⟩

-- ==== validation

/-- Consumed ids are distinct and live. -/
def checkConsumed (objects : Objects) (consumed : List ObjectID) :
    Except Error (Finset ObjectID) :=
  consumed.foldlM (fun seenConsumed id => do
    refuse (id ∈ seenConsumed) Error.objectNotFound
    refuse (id ∉ objects) Error.objectNotFound
    return insert id seenConsumed) ∅

/-- Created objects are valid, distinct, and replace a live object only
when the same delta consumes it. -/
def checkCreated (objects : Objects) (seenConsumed : Finset ObjectID)
    (created : List Object) : Except Error (Finset ObjectID) :=
  created.foldlM (fun seenCreated o => do
    o.validate
    refuse (o.id ∈ seenCreated) Error.objectExists
    refuse (o.id ∈ objects ∧ o.id ∉ seenConsumed) Error.objectExists
    return insert o.id seenCreated) ∅

def validateDelta (objects : Objects) (consumed : List ObjectID)
    (created : List Object) : Except Error Unit := do
  let seenConsumed ← checkConsumed objects consumed
  let _ ← checkCreated objects seenConsumed created
  return ()

-- ==== the delta

/-- Delete the consumed objects, then store the created ones. -/
def applyObjects (objects : Objects) (consumed : List ObjectID)
    (created : List Object) : Objects :=
  created.foldl (fun objects o => objects.insert o.id o)
    (consumed.foldl (fun objects id => objects.erase id) objects)

/-- The tree updates of a delta: consumed ids map to nil, then created
ids to the object hash. -/
def deltaUpdates (C : Crypto) (consumed : List ObjectID)
    (created : List Object) : State.Tree.Updates :=
  created.foldl (fun updates o => updates.insert o.id (some (o.hash C).toList))
    (consumed.foldl (fun updates id => updates.insert id none) ∅)

namespace Memory

variable (C : Crypto) (m : Memory)

def root : Hash := m.tree.root (smtHash C)

def getObject (id : ObjectID) : Option Object := m.objects.lookup id

/-- The store after the call, the root it returns and its error. -/
def apply (consumed : List ObjectID) (created : List Object) :
    Memory × Hash × Option Error :=
  match validateDelta m.objects consumed created with
  | .error e => (m, m.root C, some e)
  | .ok _ =>
    let (tree, root) :=
      m.tree.apply (smtHash C) (deltaUpdates C consumed created)
    (⟨tree, applyObjects m.objects consumed created⟩, root, none)

/-- The root a delta would lead to and its error, with the store the
call leaves. -/
def simulate (consumed : List ObjectID) (created : List Object) :
    Memory × Hash × Option Error :=
  match validateDelta m.objects consumed created with
  | .error e => (m, m.root C, some e)
  | .ok _ =>
    (m, m.tree.preview (smtHash C) (deltaUpdates C consumed created), none)

end Memory

end ZephyrChain.WorldState
