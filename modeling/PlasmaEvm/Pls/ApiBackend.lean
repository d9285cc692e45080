import PlasmaEvm.Trie.Iterator

/-!
# Resolving the block an RPC call names

`PlsAPIBackend` answers the lookups of the RPC layer. A block is named by an `rpc.BlockNumber`,
whose negative values are tags (`pending` for the miner's block, `latest` for the head of the
chain), or by an `rpc.BlockNumberOrHash`. `HeaderByNumberOrHash`, `BlockByNumberOrHash` and
`StateAndHeaderByNumberOrHash` resolve the latter alike (`byNumberOrHash`): a number is looked up
by number; a hash is looked up as a header, which must be the canonical one at its height when
`RequireCanonical` is set, and the header, the block's body or the state at the header's root is
read from it.

A Go result `(x, err)` with `err` not nil is `.error err` here: no caller reads `x` then.

A lookup by hash answers exactly when a header is stored under the hash, canonical at its height
when `RequireCanonical` is set, and what is read from it is there (`byNumberOrHash_eq_ok_iff`).
-/

namespace PlasmaEvm

/-- `types.Header` as the APIs read it: `Number.Uint64()`, `Root` and `ParentHash`. -/
structure Header where
  number : UInt64
  root : Hash
  parentHash : Hash
deriving DecidableEq

/-- `*Plasma` as its APIs read it, over blocks `β` and states `σ` (packages `core`, `miner` and
`trie` are not among the sources): the headers of blocks, the miner's pending block and state,
the lookups of `blockchain`, and the trie database behind `trie.NewSecure` with its difference
iterator, as the leaves it yields. -/
structure Plasma (β σ : Type) where
  header : β → Header
  pendingBlock : β
  pending : β × σ
  currentBlock : β
  getHeaderByNumber : UInt64 → Option Header
  getHeaderByHash : Hash → Option Header
  getBlockByNumber : UInt64 → Option β
  getBlockByHash : Hash → Option β
  getBlock : Hash → UInt64 → Option β
  getCanonicalHash : UInt64 → Hash
  stateAt : Hash → Except String σ
  newSecure : Hash → Except String Trie
  newDifferenceIterator : Trie → Trie → List (Bytes × Bytes)

/-- `PlsAPIBackend`. -/
structure PlsAPIBackend (β σ : Type) where
  pls : Plasma β σ

/-- `rpc.PendingBlockNumber` (package `rpc` is not among the sources). -/
def pendingBlockNumber : Int := -2

/-- `rpc.LatestBlockNumber`. -/
def latestBlockNumber : Int := -1

/-- `uint64(number)` on an `int64`. -/
def toUint64 (number : Int) : UInt64 := UInt64.ofNat (number % UInt64.size).toNat

/-- `rpc.BlockNumberOrHash`: `Number()` and `Hash()` report the field that is set. -/
structure BlockNumberOrHash where
  blockNumber : Option Int
  blockHash : Option Hash
  requireCanonical : Bool
deriving DecidableEq

namespace PlsAPIBackend

variable {β σ : Type} (b : PlsAPIBackend β σ)

/-- `HeaderByNumber`. -/
def headerByNumber (number : Int) : Except String (Option Header) :=
  -- pending block is only known by the miner
  if number = pendingBlockNumber then .ok (some (b.pls.header b.pls.pendingBlock))
  else if number = latestBlockNumber then .ok (some (b.pls.header b.pls.currentBlock))
  else .ok (b.pls.getHeaderByNumber (toUint64 number))

/-- `HeaderByHash`. -/
def headerByHash (hash : Hash) : Except String (Option Header) :=
  .ok (b.pls.getHeaderByHash hash)

/-- `BlockByNumber`. -/
def blockByNumber (number : Int) : Except String (Option β) :=
  if number = pendingBlockNumber then .ok (some b.pls.pendingBlock)
  else if number = latestBlockNumber then .ok (some b.pls.currentBlock)
  else .ok (b.pls.getBlockByNumber (toUint64 number))

/-- `StateAndHeaderByNumber`. -/
def stateAndHeaderByNumber (number : Int) : Except String (σ × Header) :=
  if number = pendingBlockNumber then .ok (b.pls.pending.2, b.pls.header b.pls.pending.1)
  else
    match b.headerByNumber number with
    | .error err => .error err
    | .ok none => .error "header not found"
    | .ok (some header) =>
      match b.pls.stateAt header.root with
      | .error err => .error err
      | .ok stateDb => .ok (stateDb, header)

/-- The lookup that `HeaderByNumberOrHash`, `BlockByNumberOrHash` and
`StateAndHeaderByNumberOrHash` share: a number goes to `byNumber`; a hash is looked up as a
header, which must be canonical when `RequireCanonical` is set, and `ofHeader` reads the result
from it. -/
def byNumberOrHash {α : Type} (byNumber : Int → Except String α)
    (ofHeader : Hash → Header → Except String α) (blockNrOrHash : BlockNumberOrHash) :
    Except String α :=
  match blockNrOrHash.blockNumber with
  | some blockNr => byNumber blockNr
  | none =>
    match blockNrOrHash.blockHash with
    | some hash =>
      match b.pls.getHeaderByHash hash with
      | none => .error "header for hash not found"
      | some header =>
        if blockNrOrHash.requireCanonical && b.pls.getCanonicalHash header.number != hash then
          .error "hash is not currently canonical"
        else ofHeader hash header
    | none => .error "invalid arguments; neither block nor hash specified"

/-- `HeaderByNumberOrHash`. -/
def headerByNumberOrHash : BlockNumberOrHash → Except String (Option Header) :=
  b.byNumberOrHash b.headerByNumber fun _ header => .ok (some header)

/-- `BlockByNumberOrHash`. -/
def blockByNumberOrHash : BlockNumberOrHash → Except String (Option β) :=
  b.byNumberOrHash b.blockByNumber fun hash header =>
    match b.pls.getBlock hash header.number with
    | none => .error "header found, but block body is missing"
    | some block => .ok (some block)

/-- `StateAndHeaderByNumberOrHash`; unlike the other two it reaches the header through
`HeaderByHash` and checks that call's error. -/
def stateAndHeaderByNumberOrHash (blockNrOrHash : BlockNumberOrHash) :
    Except String (σ × Header) :=
  match blockNrOrHash.blockNumber with
  | some blockNr => b.stateAndHeaderByNumber blockNr
  | none =>
    match blockNrOrHash.blockHash with
    | some hash =>
      match b.headerByHash hash with
      | .error err => .error err
      | .ok none => .error "header for hash not found"
      | .ok (some header) =>
        if blockNrOrHash.requireCanonical && b.pls.getCanonicalHash header.number != hash then
          .error "hash is not currently canonical"
        else
          match b.pls.stateAt header.root with
          | .error err => .error err
          | .ok stateDb => .ok (stateDb, header)
    | none => .error "invalid arguments; neither block nor hash specified"

/-- `HeaderByHash` never fails, so `StateAndHeaderByNumberOrHash` is the shared lookup. -/
theorem stateAndHeaderByNumberOrHash_eq :
    b.stateAndHeaderByNumberOrHash =
      b.byNumberOrHash b.stateAndHeaderByNumber fun _ header =>
        (b.pls.stateAt header.root).map (·, header) := by
  funext blockNrOrHash
  unfold stateAndHeaderByNumberOrHash byNumberOrHash headerByHash
  rcases blockNrOrHash.blockNumber with _ | _ <;> rcases blockNrOrHash.blockHash with _ | hash
    <;> simp only
  cases b.pls.getHeaderByHash hash with
  | none => rfl
  | some header =>
    simp only
    split
    · rfl
    · cases b.pls.stateAt header.root <;> rfl

/-- A lookup by hash alone answers exactly when a header is stored under the hash, canonical at
its height if `RequireCanonical` is set, and the result read from it is there. -/
theorem byNumberOrHash_eq_ok_iff {α : Type} {byNumber : Int → Except String α}
    {ofHeader : Hash → Header → Except String α} {blockNrOrHash : BlockNumberOrHash}
    {hash : Hash} (hn : blockNrOrHash.blockNumber = none)
    (hh : blockNrOrHash.blockHash = some hash) (r : α) :
    b.byNumberOrHash byNumber ofHeader blockNrOrHash = .ok r ↔
      ∃ header, b.pls.getHeaderByHash hash = some header ∧
        (blockNrOrHash.requireCanonical = true → b.pls.getCanonicalHash header.number = hash) ∧
        ofHeader hash header = .ok r := by
  simp only [byNumberOrHash, hn, hh]
  cases b.pls.getHeaderByHash hash with
  | none => simp
  | some header =>
    cases blockNrOrHash.requireCanonical <;>
      by_cases hc : b.pls.getCanonicalHash header.number = hash <;> simp [hc]

end PlsAPIBackend

/-- A node that stores one header, at height 0 under the zero hash, and every block. -/
def sampleBackend : PlsAPIBackend Unit Unit :=
  ⟨{ header := fun _ => ⟨0, Hash.zero, Hash.zero⟩
     pendingBlock := ()
     pending := ((), ())
     currentBlock := ()
     getHeaderByNumber := fun _ => some ⟨0, Hash.zero, Hash.zero⟩
     getHeaderByHash := fun _ => some ⟨0, Hash.zero, Hash.zero⟩
     getBlockByNumber := fun _ => some ()
     getBlockByHash := fun _ => some ()
     getBlock := fun _ _ => some ()
     getCanonicalHash := fun _ => Hash.zero
     stateAt := fun _ => .ok ()
     newSecure := fun _ => .error "missing trie node"
     newDifferenceIterator := fun _ _ => [] }⟩

/-- The zero hash, required to be canonical. -/
def sampleSelector : BlockNumberOrHash := ⟨none, some Hash.zero, true⟩

/-- `PublicDebugAPI`. -/
structure PublicDebugAPI (β σ : Type) where
  pls : Plasma β σ

/-- `DumpBlock`, as the state whose `RawDump` it returns. -/
def PublicDebugAPI.dumpBlock {β σ : Type} (api : PublicDebugAPI β σ) (blockNr : Int) :
    Except String σ :=
  if blockNr = pendingBlockNumber then
    -- the pending state is requested from the miner
    .ok api.pls.pending.2
  else
    let block :=
      if blockNr = latestBlockNumber then some api.pls.currentBlock
      else api.pls.getBlockByNumber (toUint64 blockNr)
    match block with
    | none => .error ("block #" ++ toString blockNr ++ " not found")
    | some block => api.pls.stateAt (api.pls.header block).root

end PlasmaEvm
