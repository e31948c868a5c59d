import Quilibrium.Token.CoinTree
import Quilibrium.Token.SummaryRuns

/-! Coin root publication (`token_intrinsic/roots.rs`, with `place_committed` of `delivery.rs`). The accumulator
    is append-only: each block keeps a frontier and a root, and a REFRESH folds the coins placed since the last
    one and those of the pending changeset into their blocks, updates the summary tree over the blocks and
    publishes its root. `fullRebuildRoot` is the cross-check over every live coin. Records are kept as values;
    their encodings are those of `CoinTree` and `SummaryTree`. -/

namespace Quil.ShardedTree

/-- The root with its context and number of coins; the tree has ONE depth. -/
def ShardedCoinTree.rootAtDepth {Node : Type} (ctx : Bytes32) (tree : ShardedCoinTree Node) (depth : ℕ) :
    Except TreeError (RootRecord Node) :=
  if depth ≠ tree.shape.depth then .error .depth else .ok ⟨ctx, depth, tree.index.length, tree.root⟩

end Quil.ShardedTree

namespace Quil.Roots
open Schemes ShardedTree
open CoinBlocks hiding invalid
open SummaryTree (Summary BlockSummary MAX_NONEMPTY_BLOCKS)

variable {Node Commitment : Type}

def invalid : QuilError := .invalidArgument "coin root: invalid history record"

/-- A tree's error, as the publication reports it. -/
def orInvalid {α : Type} : Except TreeError α → Except QuilError α
  | .ok a => .ok a
  | .error _ => .error invalid

/-- Split a position into `(block, local)`. -/
def locate (position : ℕ) : ℕ × ℕ := splitPosition position SUBTREE_BITS

/-- The accumulator has one shape, at every width it may have. -/
def shape (blockBits : ℕ) : Except QuilError Shape :=
  if blockBits < INITIAL_BLOCK_BITS ∨ blockBits > MAX_BLOCK_BITS then
    .error (CoinBlocks.invalid "block width outside the accumulator's range")
  else .ok ⟨BLOCK_INDEX_BITS, SUBTREE_BITS⟩

structure SnapshotLimits where
  maxCoins : ℕ
  maxDepth : ℕ
deriving DecidableEq, Repr

def checkDepth (limits : SnapshotLimits) : Except QuilError Unit :=
  if 1 ≤ limits.maxDepth ∧ limits.maxDepth ≤ 32 then .ok () else .error invalid

/-- The coin cap bounds the application, not one block. -/
def checkCoinCap (held incoming : ℕ) (limits : SnapshotLimits) : Except QuilError Unit :=
  if held + incoming ≥ USIZE_LIMIT ∨ held + incoming > limits.maxCoins then .error invalid else .ok ()

/-! ### State -/

/-- The application's part of the state, changeset included. -/
structure State (Node Commitment : Type) where
  /-- Live coins, one an address. -/
  coins : List (CoinRecord Commitment)
  /-- Coin writes of the changeset, in their order. -/
  pending : List (CoinRecord Commitment)
  frontiers : Store ℕ (Frontier Node)
  roots : Store ℕ Node
  summary : Summary Node
  /-- The flat summary was converted: its record says so. -/
  moved : Bool
  /-- `(block, address)` of each coin placed since the last fold, in placement order. -/
  placed : List (ℕ × Bytes32)
  /-- The recorded width; absent until one is written. -/
  width : Option ℕ
  /-- The latest root of the history. -/
  history : Option (RootRecord Node)

namespace State

/-- An application with no coins. -/
def empty (width : Option ℕ) : State Node Commitment where
  coins := []
  pending := []
  frontiers := Store.empty
  roots := Store.empty
  summary := ⟨Store.empty, none⟩
  moved := false
  placed := []
  width := width
  history := none

def blockWidth (s : State Node Commitment) : ℕ := s.width.getD INITIAL_BLOCK_BITS

end State

/-- Insert a coin by its address, replacing the one there. -/
def insertRecord (records : List (CoinRecord Commitment)) (coin : CoinRecord Commitment) :
    List (CoinRecord Commitment) :=
  (records.filter fun other => other.address ≠ coin.address) ++ [coin]

def coinAt (coins : List (CoinRecord Commitment)) (address : Bytes32) : Option (CoinRecord Commitment) :=
  coins.find? fun coin => coin.address = address

/-- Write a coin's vertex to the changeset. -/
def setCoin (s : State Node Commitment) (coin : CoinRecord Commitment) : State Node Commitment :=
  { s with coins := insertRecord s.coins coin, pending := s.pending ++ [coin] }

/-- A block's frontier spans the block's own levels, in the application's context. -/
def loadBlockFrontier (ctx : Bytes32) (s : State Node Commitment) (block : ℕ) :
    Except QuilError (Option (Frontier Node)) :=
  match s.frontiers block with
  | none => .ok none
  | some frontier =>
    if frontier.context ≠ ctx ∨ frontier.maxDepth ≠ SUBTREE_BITS then .error invalid else .ok (some frontier)

/-- Coins already appended to `block`: those its frontier holds and those placed since the last fold. -/
def blockCount (ctx : Bytes32) (s : State Node Commitment) (block : ℕ) : Except QuilError ℕ := do
  let frontier ← loadBlockFrontier ctx s block
  return (frontier.map (·.count)).getD 0 + s.placed.countP (·.1 == block)

/-- Coins the summary holds. -/
def heldCoins (s : State Node Commitment) : Except QuilError ℕ := do
  let top ← SummaryTree.top s.summary.nodes
  return (top.map (·.coins)).getD 0

/-! ### The summary of the block records -/

theorem ascending_replaced {blocks : List (ℕ × ℕ × Node)} (h : Ascending blocks) (entry : ℕ × ℕ × Node) :
    Ascending (blocks.map fun e => if e.1 = entry.1 then entry else e) := by
  have hkey : ∀ e : ℕ × ℕ × Node, (if e.1 = entry.1 then entry else e).1 = e.1 := by
    intro e
    split
    · next heq => exact heq.symm
    · rfl
  rw [Ascending, List.pairwise_map]
  exact h.imp fun {a b} hab => by rwa [hkey, hkey]

def emptySummary : BlockSummary Node := ⟨[], List.Pairwise.nil, Nat.zero_le _⟩

/-- Set a block's coins and root. -/
def putBlock (summary : BlockSummary Node) (entry : ℕ × ℕ × Node) : Except QuilError (BlockSummary Node) :=
  if hold : (summary.blocks.lookup entry.1).isSome then
    .ok ⟨summary.blocks.map fun e => if e.1 = entry.1 then entry else e, ascending_replaced summary.ascending _,
      by rw [List.length_map]; exact summary.capped⟩
  else if hcap : summary.blocks.length ≥ MAX_NONEMPTY_BLOCKS then .error invalid
  else .ok ⟨summary.blocks.orderedInsert (fun a b => a.1 ≤ b.1) entry,
    summary.ascending.orderedInsert (lookup_eq_none.1 (Option.not_isSome_iff_eq_none.1 hold)),
    by rw [List.orderedInsert_length]; omega⟩

section
variable [DecidableEq Node] (m : Membership Node) (ctx : Bytes32)

/-- Add what a block's records say to the summary. -/
def addBlockRecords (s : State Node Commitment) (summary : BlockSummary Node) (block : ℕ) :
    Except QuilError (BlockSummary Node) := do
  let frontier ← loadBlockFrontier ctx s block
  match frontier, s.roots block with
  | none, none => .ok summary
  | some frontier, some root => do
    let reconstructed ← orInvalid (frontier.rootAtDepth m SUBTREE_BITS)
    if reconstructed.root ≠ root then
      .error (.executionUnavailable "coin block frontier/root mismatch during summary recovery")
    else if frontier.count > 0 then putBlock summary (block, frontier.count, root)
    else .ok summary
  | _, _ => .error (.executionUnavailable "incomplete coin block during summary recovery")

/-- Reconstruct the bounded block summary from the records of the blocks a shard owns. -/
def blockSummaryFromRecords (s : State Node Commitment) (shard : List Bool) :
    Except QuilError (BlockSummary Node) :=
  (ownedBlocks shard MAX_BLOCK_BITS).foldlM (addBlockRecords m ctx s) emptySummary

/-- A missing summary tree is rebuilt from the records of the scope's blocks. -/
def rebuildMissing (s : State Node Commitment) : Option (List Bool) → Except QuilError (State Node Commitment)
  | none => .ok s
  | some scope => do
    let top ← SummaryTree.top s.summary.nodes
    if top.isSome then .ok s
    else do
      let summary ← blockSummaryFromRecords m ctx s scope
      let nodes ← SummaryTree.replace m ctx s.summary.nodes summary.blocks
      return { s with summary := { s.summary with nodes := nodes } }

/-- What a fold reads first: valid limits, the width's shape, and the summary tree, ready to update. -/
def prepare (s : State Node Commitment) (rebuild : Option (List Bool)) (limits : SnapshotLimits) :
    Except QuilError (State Node Commitment) := do
  checkDepth limits
  let _ ← shape s.blockWidth
  let (converted, summary) ← SummaryTree.upgrade m ctx s.summary
  rebuildMissing m ctx { s with summary := summary, moved := s.moved || converted } rebuild

/-- Publish `root`, the top of the summary tree, into the root history. -/
def publishRoot (s : State Node Commitment) (root : Node) (coins : ℕ) :
    Except QuilError (RootRecord Node × State Node Commitment) := do
  let shape ← shape s.blockWidth
  if s.history.any fun existing => existing.context ≠ ctx then .error invalid
  else
    let current : RootRecord Node := ⟨ctx, shape.depth, coins, root⟩
    return (current, { s with history := some current })

/-- Publish the top of the summary tree as it is stored. -/
def publishTop (s : State Node Commitment) : Except QuilError (RootRecord Node × State Node Commitment) := do
  let coins ← heldCoins s
  let root ← SummaryTree.root m ctx s.summary.nodes
  publishRoot ctx s root coins

/-- Rebuild a sub-shard's private summary from the block records inside its range, and publish its root. An
    application without token records acquires none. -/
def rebuildBlockSummary (s : State Node Commitment) (shard : List Bool) :
    Except QuilError (State Node Commitment) := do
  let summary ← blockSummaryFromRecords m ctx s shard
  let top ← SummaryTree.top s.summary.nodes
  if summary.blocks.isEmpty && s.summary.flat.isNone && !s.moved && top.isNone && s.history.isNone then .ok s
  else if s.summary.flat.isSome then do
    -- A flat summary is rebuilt flat: only a refresh converts.
    let shape ← shape s.blockWidth
    let root ← orInvalid (foldSubtreeRoots m ctx shape (summary.blocks.map fun e => (e.1, e.2.2)))
    let s := { s with summary := { s.summary with flat := some summary } }
    return (← publishRoot ctx s root summary.coins).2
  else do
    let nodes ← SummaryTree.replace m ctx s.summary.nodes summary.blocks
    return (← publishTop m ctx { s with summary := { s.summary with nodes := nodes } }).2

/-! ### Placement -/

/-- The frame's first placement makes the summary ready. -/
def prepareFirst (s : State Node Commitment) (scope : List Bool) (limits : SnapshotLimits) :
    Except QuilError (State Node Commitment) :=
  if s.placed.isEmpty then prepare m ctx s (some scope) limits else .ok s

/-- Count a coin written at the next index of `block`, to be folded with the frame's others. -/
def addPlaced (s : State Node Commitment) (block : ℕ) (address : Bytes32) (scope : List Bool)
    (limits : SnapshotLimits) : Except QuilError (State Node Commitment) := do
  let s ← prepareFirst m ctx s scope limits
  let held ← heldCoins s
  checkCoinCap held (s.placed.length + 1) limits
  return { s with placed := s.placed ++ [(block, address)] }

/-- Write a committed output at its committed position `(block, seq)` and count it in the block. -/
def placeCommitted (s : State Node Commitment) (address : Bytes32) (owner : List UInt8) (commitment : Commitment)
    (block seq : ℕ) (scope : List Bool) (limits : SnapshotLimits) : Except QuilError (State Node Commitment) := do
  let count ← blockCount ctx s block
  if count ≠ seq then
    .error (.invalidArgument s!"coin delivery: out of sequence: block {block} seq {seq}, local count {count}")
  else if (coinAt s.coins address).isSome then .error (.invalidArgument "coin delivery: coin already present")
  else do
    let selected ← blockForAddress (creationWidth block) address
    if selected ≠ block then
      .error (.invalidArgument "coin delivery: coin does not sit in its delivered block")
    else do
      let position ← position MAX_BLOCK_BITS block seq
      addPlaced m ctx (setCoin s ⟨address, owner, commitment, position⟩) block address scope limits

end

/-! ### Refresh -/

/-- The coins staged in the changeset, the last write of an address standing. -/
def pendingRecords (s : State Node Commitment) : List (CoinRecord Commitment) := s.pending.foldl insertRecord []

/-- Take a placed coin that is not taken yet. -/
def takePlaced (s : State Node Commitment) (records : List (CoinRecord Commitment)) (entry : ℕ × Bytes32) :
    Except QuilError (List (CoinRecord Commitment)) :=
  if (coinAt records entry.2).isSome then .ok records
  else
    match coinAt s.coins entry.2 with
    | some coin => .ok (insertRecord records coin)
    | none => .error (.executionUnavailable "coin root: a placed coin is not stored")

/-- The coins a fold may take, once each. -/
def newRecords (s : State Node Commitment) : Except QuilError (List (CoinRecord Commitment)) :=
  s.placed.foldlM (takePlaced s) (pendingRecords s)

/-- The blocks the coins' positions name, in ascending order. -/
def touchedBlocks (records : List (CoinRecord Commitment)) : List ℕ :=
  (records.map fun coin => (locate coin.position).1).dedup.insertionSort (· ≤ ·)

/-- A block's coins in position order. -/
def blockCoins (records : List (CoinRecord Commitment)) (block : ℕ) : List (CoinRecord Commitment) :=
  (records.filter fun coin => (locate coin.position).1 = block).insertionSort fun a b => a.position ≤ b.position

def startFrontier (ctx : Bytes32) : Option (Frontier Node) → Except QuilError (Frontier Node)
  | some frontier => .ok frontier
  | none => orInvalid (Frontier.new ctx SUBTREE_BITS)

/-- A touched block's frontier and the genuinely new coins: those already folded appear again in the changeset
    and are not recounted. -/
def freshCoins (ctx : Bytes32) (s : State Node Commitment) (records : List (CoinRecord Commitment))
    (block : ℕ) : Except QuilError (ℕ × Frontier Node × List (CoinRecord Commitment)) := do
  let loaded ← loadBlockFrontier ctx s block
  let frontier ← startFrontier ctx loaded
  return (block, frontier, (blockCoins records block).filter fun coin => (locate coin.position).2 ≥ frontier.count)

/-- Each new coin must continue its block's sequence exactly. -/
def appendFresh (key : MembershipKey Node Commitment) :
    Frontier Node → List (CoinRecord Commitment) → Except QuilError (Frontier Node)
  | frontier, [] => .ok frontier
  | frontier, coin :: coins =>
    if (locate coin.position).2 ≠ frontier.count then .error invalid
    else do
      let (_, frontier) ← orInvalid (frontier.append key coin.owner coin.commitment)
      appendFresh key frontier coins

/-- A touched block's new frontier and root. -/
def foldBlock (key : MembershipKey Node Commitment)
    (touched : ℕ × Frontier Node × List (CoinRecord Commitment)) : Except QuilError (ℕ × Frontier Node × Node) := do
  let frontier ← appendFresh key touched.2.1 touched.2.2
  let record ← orInvalid (frontier.rootAtDepth key.toMembership SUBTREE_BITS)
  return (touched.1, frontier, record.root)

section
variable [DecidableEq Node] (key : MembershipKey Node Commitment) (ctx : Bytes32)

/-- Write the folded blocks, update the summary tree with them and publish its root. -/
def writeFolded (s : State Node Commitment) (folded : List (ℕ × Frontier Node × Node)) :
    Except QuilError (RootRecord Node × State Node Commitment) := do
  let nodes ← SummaryTree.update key.toMembership ctx s.summary.nodes
    (folded.map fun b => (b.1, b.2.1.count, b.2.2))
  publishTop key.toMembership ctx { s with
    frontiers := s.frontiers.writeAll (folded.map fun b => (b.1, b.2.1))
    roots := s.roots.writeAll (folded.map fun b => (b.1, b.2.2))
    summary := { s.summary with nodes := nodes }
    placed := [] }

/-- Fold new coins into their blocks, stage each touched block's frontier and root, and publish. -/
def refresh (s : State Node Commitment) (rebuild : Option (List Bool)) (limits : SnapshotLimits) :
    Except QuilError (RootRecord Node × State Node Commitment) := do
  let s ← prepare key.toMembership ctx s rebuild limits
  let records ← newRecords s
  if records.any fun coin => !isAllocatedWidth MAX_BLOCK_BITS (locate coin.position).1 then .error invalid
  else do
    let held ← heldCoins s
    let touched ← (touchedBlocks records).mapM (freshCoins ctx s records)
    checkCoinCap held (touched.map fun t => t.2.2.length).sum limits
    let folded ← touched.mapM (foldBlock key)
    writeFolded key ctx s folded

/-- A missing summary is rebuilt from every block, unless coins were placed: their first placement rebuilt it. -/
def refreshRoot (s : State Node Commitment) (limits : SnapshotLimits) :
    Except QuilError (RootRecord Node × State Node Commitment) :=
  refresh key ctx s (if s.placed.isEmpty then some [] else none) limits

/-- Fold the coins placed since the last fold; nothing is written when none were. -/
def foldPlaced (s : State Node Commitment) (limits : SnapshotLimits) :
    Except QuilError (Option (RootRecord Node) × State Node Commitment) :=
  if s.placed.isEmpty then .ok (none, s)
  else do
    let (root, s) ← refresh key ctx s none limits
    return (some root, s)

end

/-- Every live coin, in address order. -/
def collectLiveRecords (s : State Node Commitment) (limits : SnapshotLimits) :
    Except QuilError (List (CoinRecord Commitment)) :=
  if s.coins.length > limits.maxCoins then .error invalid
  else .ok (s.coins.insertionSort fun a b => a.address.toNat ≤ b.address.toNat)

/-- Full reconstruction of the current root from every live coin. -/
def fullRebuildRoot (key : MembershipKey Node Commitment) (ctx : Bytes32) (s : State Node Commitment)
    (limits : SnapshotLimits) : Except QuilError (RootRecord Node) := do
  checkDepth limits
  let records ← collectLiveRecords s limits
  let shape ← shape s.blockWidth
  let tree ← orInvalid (ShardedCoinTree.build key ctx shape records)
  orInvalid (tree.rootAtDepth ctx shape.depth)

/-! ### Frames -/

/-- The state a frame works on and the one its changeset started from. -/
structure Frames (Node Commitment : Type) where
  working : State Node Commitment
  committed : State Node Commitment

def Frames.start (width : Option ℕ) : Frames Node Commitment := ⟨.empty width, .empty width⟩

inductive Operation (Commitment : Type) where
  /-- Write a coin at the position its record names. -/
  | stage (coin : CoinRecord Commitment)
  | place (address : Bytes32) (owner : List UInt8) (commitment : Commitment) (block seq : ℕ) (scope : List Bool)
      (limits : SnapshotLimits)
  | refresh (limits : SnapshotLimits)
  | fold (limits : SnapshotLimits)
  | rebuild (shard : List Bool)
  /-- End the frame: its changeset is applied. -/
  | commit
  /-- End the frame: its changeset is discarded. -/
  | abort

/-- The root an operation publishes and the state it leaves. -/
def perform [DecidableEq Node] (key : MembershipKey Node Commitment) (ctx : Bytes32)
    (f : Frames Node Commitment) :
    Operation Commitment → Except QuilError (Option (RootRecord Node) × Frames Node Commitment)
  | .stage coin => .ok (none, { f with working := setCoin f.working coin })
  | .place address owner commitment block seq scope limits => do
    let s ← placeCommitted key.toMembership ctx f.working address owner commitment block seq scope limits
    return (none, { f with working := s })
  | .refresh limits => do
    let (root, s) ← refreshRoot key ctx f.working limits
    return (some root, { f with working := s })
  | .fold limits => do
    let (root, s) ← foldPlaced key ctx f.working limits
    return (root, { f with working := s })
  | .rebuild shard => do
    let s ← rebuildBlockSummary key.toMembership ctx f.working shard
    return (none, { f with working := s })
  | .commit => .ok (none, ⟨{ f.working with pending := [] }, { f.working with pending := [] }⟩)
  | .abort => .ok (none, { f with working := f.committed })

/-- One operation. A placement rolls its own writes back when it fails, the other operations' callers do. -/
def step [DecidableEq Node] (key : MembershipKey Node Commitment) (ctx : Bytes32)
    (f : Frames Node Commitment) (operation : Operation Commitment) :
    Frames Node Commitment × Except QuilError (Option (RootRecord Node)) :=
  match perform key ctx f operation with
  | .ok (root, next) => (next, .ok root)
  | .error error => (f, .error error)

end Quil.Roots
