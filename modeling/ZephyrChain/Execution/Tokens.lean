/-
Transfers and tokens (`internal/v2/execution`, engine.go and
token_mutation.go).

A transfer balances every token it touches; the definitions of custom
tokens are read-only inputs. Creating a token makes its definition object
and a coin with the whole initial supply. Minting and burning rewrite the
definition object, one version up.

The totals of a transfer are Go maps. `add` and the final pass over the
input totals follow the source; the pass removes the tokens it has
balanced from the output totals, and nothing may be left.
-/
import ZephyrChain.Execution.Engine
import ZephyrChain.Assets

namespace ZephyrChain.Execution

open Lib

/-- A Go `map[types.TokenID]uint64`. -/
abbrev Totals := AList fun _ : TokenID => UInt64

/-- `totals[token]`, zero when there is no entry. -/
def Totals.get (totals : Totals) (token : TokenID) : UInt64 :=
  (totals.lookup token).getD 0

/-- `add`: the source's checked `totals[token] += amount`. -/
def Totals.add (totals : Totals) (token : TokenID) (amount : UInt64) :
    Except Error Totals := do
  refuse (Overflows (totals.get token) amount) .overflow
  return totals.insert token (totals.get token + amount)

/-- A Go `map[types.TokenID]assets.Definition`. -/
abbrev Definitions := AList fun _ : TokenID => Definition

variable (C : Crypto) (e : Engine) (t : Transaction)

-- ==== transfer

structure TransferInputs where
  inputTotals : Totals
  definitions : Definitions
  consumed : List ObjectID

/-- One witness of a transfer: a coin to spend or a definition to read. -/
def transferInputStep (s : TransferInputs) (o : Object) :
    Except Error TransferInputs :=
  match o.kind with
  | .coin => do
      refuse (o.owner ≠ t.sender) .ownership
      let coin ← parseCoin o.data
      let inputTotals ← s.inputTotals.add coin.token coin.amount
      return { s with inputTotals, consumed := s.consumed ++ [o.id] }
  | .tokenDefinition => do
      let definition ← failWith .tokenPolicy (parseDefinition o.data)
      refuse (definition.tokenID = e.nativeToken) .tokenPolicy
      refuse (definition.tokenID ∈ s.definitions) .tokenPolicy
      return { s with
        definitions := s.definitions.insert definition.tokenID definition }
  | _ => throw .ownership

/-- The definition of a token the transaction may transfer. -/
def transferable (definitions : Definitions) (token : TokenID) : Bool :=
  match definitions.lookup token with
  | some definition => definition.transferable
  | none => false

structure TransferOutputs where
  outputTotals : Totals
  change : Change

/-- One output of a transfer. -/
def transferOutputStep (definitions : Definitions) (s : TransferOutputs)
    (out : OutputSpec × Nat) : Except Error TransferOutputs := do
  let (spec, i) := out
  refuse (spec.kind ≠ .coin) .conservation
  let coin ← parseCoin spec.data
  refuse (coin.token ≠ e.nativeToken ∧
    transferable definitions coin.token = false) .tokenPolicy
  let outputTotals ← s.outputTotals.add coin.token coin.amount
  let destination ← failWith .shard (e.router.shardForAccount spec.owner)
  refuse (coin.token ≠ e.nativeToken ∧ destination ≠ t.shardID) .tokenPolicy
  let stamped ← stampCoinOutput spec e.height
  return ⟨outputTotals, s.change.place C t destination i stamped⟩

/-- Balance one input token against the outputs, and strike it off. -/
def balanceStep (definitions : Definitions) (outputTotals : Totals)
    (entry : Σ _ : TokenID, UInt64) : Except Error Totals := do
  let ⟨token, inAmount⟩ := entry
  let required := outputTotals.get token
  if token = e.nativeToken then
    refuse (Overflows required t.fee) .overflow
    refuse (inAmount ≠ required + t.fee) .conservation
  else
    refuse (transferable definitions token = false) .tokenPolicy
    refuse (inAmount ≠ required) .conservation
  return outputTotals.erase token

def executeTransfer : Except Error Result := do
  let inputs ← t.objects.foldlM (transferInputStep e t) ⟨∅, ∅, []⟩
  let outputs ← t.outputs.zipIdx.foldlM
    (transferOutputStep C e t inputs.definitions) ⟨∅, ⟨0, [], []⟩⟩
  let left ← inputs.inputTotals.entries.foldlM
    (balanceStep e t inputs.definitions) outputs.outputTotals
  refuse (left.entries.length ≠ 0) .conservation
  return ⟨inputs.consumed, outputs.change.created, outputs.change.outbound,
    t.id C⟩

-- ==== create token

/-- One output of `executeCreateToken`. -/
def createOutputStep (s : Change) (out : OutputSpec × Nat) :
    Except Error Change := do
  let (spec, i) := out
  let coin ← failWith .conservation (parseCoin spec.data)
  refuse (spec.kind ≠ .coin ∨ coin.token ≠ e.nativeToken) .conservation
  refuse (Overflows s.total coin.amount) .overflow
  let destination ← failWith .shard (e.router.shardForAccount spec.owner)
  let stamped ← stampCoinOutput spec e.height
  return { s with total := s.total + coin.amount }.place C t destination i
    stamped

def definitionObjectIndex : UInt32 := 0x80000000

def initialCoinIndex : UInt32 := 0x80000001

/-- The definition a creation writes. -/
def createdDefinition (create : CreateToken) : Definition where
  tokenID := tokenIDFromTransaction C (t.id C) 0
  name := create.name
  symbol := create.symbol
  decimals := create.decimals
  supplyPolicy := create.supplyPolicy
  maxSupply := create.maxSupply
  currentSupply := create.initialSupply
  mintAuthority := create.mintAuthority
  burnable := create.burnable
  transferable := create.transferable

def executeCreateToken (payload : Bytes) : Except Error Result := do
  let create ← parseCreateToken payload
  refuse (create.mintAuthority ≠ t.sender) .ownership
  let spent ← spendCoins e t [] .invalidCoin .overflow 0
  let change ← t.outputs.zipIdx.foldlM (createOutputStep C e t) ⟨0, [], []⟩
  refuse (Overflows change.total t.fee ∨
    spent.total ≠ change.total + t.fee) .conservation
  let definition := createdDefinition C t create
  let defData ← definition.marshalBinary
  let initialCoin ← newCoinOutputAtHeight t.sender definition.tokenID
    create.initialSupply e.height
  return {
    consumed := t.inputs.map InputRef.objectID
    created := change.created ++
      [newObject C t definitionObjectIndex
          ⟨t.sender, .tokenDefinition, defData⟩,
        newObject C t initialCoinIndex initialCoin]
    outbound := change.outbound
    txID := t.id C }

-- ==== mint and burn

def tokenMintOutputIndex : UInt32 := 0x81000000

/-- The definition object a mint or burn names, and what it holds. -/
def tokenDefinitionWitness (id : ObjectID) :
    Except Error (Object × Definition) := do
  let o ← require (witnessByID t id) .tokenPolicy
  refuse (o.kind ≠ .tokenDefinition) .tokenPolicy
  let definition ← parseDefinition o.data
  return (o, definition)

/-- The next version of an object, with new contents. -/
def rewrite (o : Object) (data : Bytes) : Object :=
  { o with version := o.version + 1, data }

def executeMintToken (payload : Bytes) : Except Error Result := do
  let request ← parseMintToken payload
  let (definitionObject, definition) ←
    failWith .tokenPolicy (tokenDefinitionWitness t request.definitionObject)
  refuse (definition.tokenID = e.nativeToken ∨
    definition.mintAuthority ≠ t.sender) .tokenPolicy
  let next ← failWith .tokenPolicy (definition.mint request.amount)
  let (created, consumed) ←
    feeOnlyOutputsExcluding C e t request.definitionObject []
  let nextRaw ← next.marshalBinary
  let minted ← newCoinOutputAtHeight request.recipient definition.tokenID
    request.amount e.height
  let destination ←
    failWith .tokenPolicy (e.router.shardForAccount request.recipient)
  refuse (destination ≠ t.shardID) .tokenPolicy
  return {
    consumed := consumed ++ [definitionObject.id]
    created := created ++ [rewrite definitionObject nextRaw,
      newObject C t tokenMintOutputIndex minted]
    outbound := []
    txID := t.id C }

structure BurnInputs where
  nativeIn : UInt64
  tokenIn : UInt64
  consumed : List ObjectID

/-- One witness of a burn: the definition, a native coin or a coin of the
token. -/
def burnInputStep (definitionObject : ObjectID) (token : TokenID)
    (s : BurnInputs) (o : Object) : Except Error BurnInputs := do
  if o.id = definitionObject then return s
  else
    refuse (o.kind ≠ .coin ∨ o.owner ≠ t.sender) .ownership
    let coin ← parseCoin o.data
    let consumed := s.consumed ++ [o.id]
    if coin.token = e.nativeToken then
      refuse (Overflows s.nativeIn coin.amount) .overflow
      return { s with nativeIn := s.nativeIn + coin.amount, consumed }
    else if coin.token = token then
      refuse (Overflows s.tokenIn coin.amount) .overflow
      return { s with tokenIn := s.tokenIn + coin.amount, consumed }
    else throw .conservation

structure BurnOutputs where
  nativeOut : UInt64
  tokenOut : UInt64
  created : List Object

/-- The totals with one more coin. -/
def burnTotals (token : TokenID) (s : BurnOutputs) (spec : OutputSpec)
    (coin : Coin) : Except Error (UInt64 × UInt64) := do
  if coin.token = e.nativeToken then
    refuse (Overflows s.nativeOut coin.amount) .overflow
    return (s.nativeOut + coin.amount, s.tokenOut)
  else if coin.token = token then
    refuse (spec.owner ≠ t.sender ∨ Overflows s.tokenOut coin.amount)
      .tokenPolicy
    return (s.nativeOut, s.tokenOut + coin.amount)
  else throw .conservation

/-- One output of a burn: native change or the rest of the token. -/
def burnOutputStep (token : TokenID) (s : BurnOutputs)
    (out : OutputSpec × Nat) : Except Error BurnOutputs := do
  let (spec, i) := out
  refuse (spec.kind ≠ .coin) .conservation
  let destination ← failWith .shard (e.router.shardForAccount spec.owner)
  refuse (destination ≠ t.shardID) .shard
  let coin ← parseCoin spec.data
  let totals ← burnTotals e t token s spec coin
  let stamped ← stampCoinOutput spec e.height
  return ⟨totals.1, totals.2,
    s.created ++ [newObject C t (UInt32.ofNat i) stamped]⟩

def executeBurnToken (payload : Bytes) : Except Error Result := do
  let request ← parseBurnToken payload
  let (definitionObject, definition) ←
    failWith .tokenPolicy (tokenDefinitionWitness t request.definitionObject)
  refuse (definition.tokenID = e.nativeToken ∨ definition.burnable = false)
    .tokenPolicy
  let next ← failWith .tokenPolicy (definition.burn request.amount)
  let inputs ← t.objects.foldlM
    (burnInputStep e t request.definitionObject definition.tokenID)
    ⟨0, 0, []⟩
  let outputs ← t.outputs.zipIdx.foldlM
    (burnOutputStep C e t definition.tokenID) ⟨0, 0, []⟩
  refuse (Overflows outputs.nativeOut t.fee ∨
    inputs.nativeIn ≠ outputs.nativeOut + t.fee) .conservation
  refuse (Overflows outputs.tokenOut request.amount ∨
    inputs.tokenIn ≠ outputs.tokenOut + request.amount) .conservation
  let nextRaw ← next.marshalBinary
  return {
    consumed := inputs.consumed ++ [definitionObject.id]
    created := outputs.created ++ [rewrite definitionObject nextRaw]
    outbound := []
    txID := t.id C }

end ZephyrChain.Execution
