import Quilibrium.Schemes.Run
import Quilibrium.Shards.Grids
import Quilibrium.Types

/-! Splits and merges of shards, from the proposal to the grid (`verify.rs`, `materialize.rs` and `intrinsic.rs` of
    the global intrinsic). A proposal is checked for its FORM alone and kept as a pending change for two epochs; then
    every frame applies what is due, in the order of the keys, against the grid as it is by then. A split whose parent
    is gone is STALE and only consumed. What the committed state decides — the proposer's signature and standing, the
    topology gate, the reassignment of allocations — comes in as the environment of each call. -/

namespace Quil.GridChanges
open Schemes ShardPaths ShardFilters Grids

inductive ShardChangeKind where
  | split | merge
deriving DecidableEq, Repr

/-- A staged topology change. -/
structure PendingShardChange where
  kind : ShardChangeKind
  /-- The split's source, the merge's target. -/
  parent : Bytes
  children : List Bytes
  effectiveEpoch : ℕ
  proposedFrame : ℕ
deriving DecidableEq, Repr

structure AddressedSignature where
  address : Bytes
  signature : Bytes
deriving DecidableEq, Repr

/-- A `ShardSplit` (`shard_address`, `proposed_shards`) or a `ShardMerge` (`parent_address`, `shard_addresses`). -/
structure ShardOp where
  parent : Bytes
  children : List Bytes
  frameNumber : ℕ
  publicKeySignature : Option AddressedSignature
deriving DecidableEq, Repr

inductive TopologyGate where
  | apply | wait | drop
deriving DecidableEq, Repr

/-- The network's constants. -/
structure Net where
  unifiedTreeCutoverFrame : ℕ
  epochLength : ℕ+

def Net.epochForFrame (net : Net) (frame : ℕ) : ℕ := frame / net.epochLength

/-- What the committed state answers during one call. -/
structure Env where
  /-- The prover's record; an error when there is none or it is empty. -/
  prover : Bytes → Except QuilError Unit
  verifyAddressedBls : AddressedSignature → Bytes → String → Except QuilError Bool
  proposerIsActiveGlobal : Bytes → Bool
  /-- The committee handoff's gate; `none` when no handoff policy is set. -/
  gateTopologyChange : Option (PendingShardChange → Except QuilError TopologyGate)
  reassignShardAllocations : PendingShardChange → Except QuilError Unit
  raisePlacementWidth : Bytes → ℕ → Except QuilError Unit

/-! ### Materializing -/

def commonPrefix : List Bool → List Bool → List Bool
  | a :: p, b :: q => if a = b then a :: commonPrefix p q else []
  | _, _ => []

/-- The branch point of a set of paths. -/
def longestCommonBitPrefix : List (List Bool) → List Bool
  | [] => []
  | first :: rest => rest.foldl commonPrefix first

/-- A child in bit-path form: its application and path. -/
def bitPathChild (op : String) (parent child : Bytes) : Except QuilError (Bytes × List Bool) :=
  if shardFilterExtends child parent 32 = false then
    .error (.invalidArgument s!"{op}: bit-path child must extend parent bit-path")
  else
    match decodeShardBitPath child 32 with
    | none => .error (.invalidArgument s!"{op}: malformed bit-path child filter")
    | some child => .ok child

/-- A child in byte-suffix form: its application, and the remaining bytes as levels. -/
def byteSuffix (child : Bytes) : Bytes × Levels := (child.take 32, (child.drop 32).map UInt8.toNat)

structure ShardSplitOutput where
  newShards : List (Bytes × Levels)
  removedParent : Option (Bytes × Levels)

def materializeShardSplit (shardAddress : Bytes) (proposedShards : List Bytes) (bitPathMode : Bool) :
    Except QuilError ShardSplitOutput :=
  if shardAddress.length < 32 then
    .error (.invalidArgument "materialize shard split: shard_address must be >= 32 bytes")
  else if proposedShards.length < 2 then
    .error (.invalidArgument "materialize shard split: need at least 2 proposed shards")
  else if bitPathMode then do
    let children ← proposedShards.mapM (bitPathChild "materialize shard split" shardAddress)
    match decodeShardFilterOrRoot shardAddress 32 with
    | none => throw (.invalidArgument "materialize shard split: bad parent filter")
    | some (app, parentBits) =>
      let branch := longestCommonBitPrefix (children.map Prod.snd)
      let spine := splitSpineSiblings parentBits branch
      return {
        newShards := children.map (fun child => (child.1, bitPathToPrefix child.2)) ++
          spine.map fun sibling => (app, bitPathToPrefix sibling)
        removedParent := some (app, bitPathToPrefix parentBits) }
  else do
    let newShards ← proposedShards.mapM fun proposed => do
      if proposed.length < 32 then
        throw (.invalidArgument "materialize shard split: proposed shard must be >= 32 bytes")
      if ¬ shardAddress <+: proposed then
        throw (.invalidArgument "materialize shard split: proposed shard must share parent prefix")
      return byteSuffix proposed
    return { newShards := newShards, removedParent := none }

structure ShardMergeOutput where
  removedShards : List (Bytes × Levels)
  addedParent : Option (Bytes × Levels)

def materializeShardMerge (shardAddresses : List Bytes) (parentAddress : Bytes) (bitPathMode : Bool) :
    Except QuilError ShardMergeOutput :=
  if parentAddress.length < 32 ∨ 63 < parentAddress.length then
    .error (.invalidArgument "materialize shard merge: parent_address must be 32-63 bytes")
  else if shardAddresses.length < 2 then
    .error (.invalidArgument "materialize shard merge: need at least 2 shard addresses")
  else if bitPathMode then do
    let children ← shardAddresses.mapM (bitPathChild "materialize shard merge" parentAddress)
    match decodeShardFilterOrRoot parentAddress 32 with
    | none => throw (.invalidArgument "materialize shard merge: bad parent filter")
    | some (app, parentBits) =>
      return {
        removedShards := children.map fun child => (child.1, bitPathToPrefix child.2)
        addedParent := some (app, bitPathToPrefix parentBits) }
  else do
    let removedShards ← shardAddresses.mapM fun addr => do
      if addr.length ≠ parentAddress.length + 1 ∧ addr.length ≠ parentAddress.length + 2 then
        throw (.invalidArgument
          "materialize shard merge: child shard must be parent length + 1 or + 2 bytes")
      if ¬ parentAddress <+: addr then
        throw (.invalidArgument "materialize shard merge: shard must share parent address prefix")
      return byteSuffix addr
    return { removedShards := removedShards, addedParent := none }

/-! ### Proposing -/

/-- The words in which the two verifications differ. -/
structure Wording where
  op : String
  parentField : String
  childrenField : String
  child : String
  domain : String

variable (net : Net) (env : Env)

/-- The checks of a proposal's form, then the signature over its frame and parent. -/
def verifyShardOp (w : Wording) (op : ShardOp) : Except QuilError Bool := do
  if op.parent.length < 32 ∨ 63 < op.parent.length then
    throw (.invalidArgument s!"{w.op}: {w.parentField} must be 32-63 bytes, got {op.parent.length}")
  if op.children.length < 2 ∨ 8 < op.children.length then
    throw (.invalidArgument s!"{w.op}: {w.childrenField} must have 2-8 entries, got {op.children.length}")
  let bitPathMode := net.unifiedTreeCutoverFrame ≤ op.frameNumber
  for shard in op.children do
    if bitPathMode then
      let _ ← bitPathChild w.op op.parent shard
    else
      if shard.length ≠ op.parent.length + 1 ∧ shard.length ≠ op.parent.length + 2 then
        throw (.invalidArgument
          s!"{w.op}: {w.child} length {shard.length} invalid for parent length {op.parent.length}")
      if ¬ op.parent <+: shard then
        throw (.invalidArgument s!"{w.op}: {w.child} must share parent prefix")
  match op.publicKeySignature with
  | none => throw (.invalidArgument s!"{w.op}: missing signature")
  | some sig =>
    let frame := (List.range 8).map fun i => UInt8.ofNat (op.frameNumber / 256 ^ (7 - i))
    env.verifyAddressedBls sig (frame ++ op.parent) w.domain

def verifyShardSplit (op : ShardOp) : Except QuilError Bool :=
  verifyShardOp net env ⟨"shard split", "shard_address", "proposed_shards", "proposed shard",
    "SHARD_SPLIT"⟩ op

def verifyShardMerge (op : ShardOp) : Except QuilError Bool :=
  verifyShardOp net env ⟨"shard merge", "parent_address", "shard_addresses", "child shard",
    "SHARD_MERGE"⟩ op

/-! ### The store -/

/-- Each application's rows, and the pending changes in the order of their keys. -/
structure Shards where
  rows : Bytes → List Levels
  pending : List PendingShardChange

/-- Pending changes are stored under their epoch, then their parent. -/
def PendingShardChange.before (a b : PendingShardChange) : Bool :=
  a.effectiveEpoch < b.effectiveEpoch ∨ a.effectiveEpoch = b.effectiveEpoch ∧ a.parent < b.parent

def putPendingShardChange (pending : List PendingShardChange) (change : PendingShardChange) :
    List PendingShardChange :=
  pending.filter (·.before change) ++ change :: pending.filter change.before

def deletePendingShardChange (pending : List PendingShardChange) (change : PendingShardChange) :
    List PendingShardChange :=
  pending.filter fun c => ¬ (c.effectiveEpoch = change.effectiveEpoch ∧ c.parent = change.parent)

/-- Check a proposal and its proposer, and stage the change for the epoch after the next. -/
def invokeShardOp (kind : ShardChangeKind) (name : String) (verify : ShardOp → Except QuilError Bool)
    (materialize : ShardOp → Bool → Except QuilError Unit) (frame : ℕ) (op : ShardOp) (s : Shards) :
    Except QuilError Shards :=
  match op.publicKeySignature with
  | none => .error (.invalidArgument s!"{name}: missing signature")
  | some sig => do
    env.prover sig.address
    let verified ← verify op
    if verified = false then .error (.invalidArgument s!"{name}: signature verification failed")
    else if env.proposerIsActiveGlobal sig.address = false then
      .error (.invalidArgument s!"{name}: proposer is not an active global prover")
    else do
      materialize op (net.unifiedTreeCutoverFrame ≤ frame)
      return { s with pending := putPendingShardChange s.pending {
        kind := kind, parent := op.parent, children := op.children,
        effectiveEpoch := net.epochForFrame frame + 2, proposedFrame := frame } }

def invokeShardSplit (frame : ℕ) (op : ShardOp) (s : Shards) : Except QuilError Shards :=
  invokeShardOp net env .split "invoke_shard_split" (verifyShardSplit net env)
    (fun op mode => (materializeShardSplit op.parent op.children mode).map fun _ => ()) frame op s

def invokeShardMerge (frame : ℕ) (op : ShardOp) (s : Shards) : Except QuilError Shards :=
  invokeShardOp net env .merge "invoke_shard_merge" (verifyShardMerge net env)
    (fun op mode => (materializeShardMerge op.children op.parent mode).map fun _ => ()) frame op s

/-! ### Applying what is due -/

/-- The bits a row is compared by: its bit path, or six bits a level. -/
def canonBits (levels : Levels) : List Bool :=
  (shardBitPathFromPrefix levels).getD (prefixToBits levels 6)

def PendingShardChange.bitPathMode (change : PendingShardChange) : Bool :=
  net.unifiedTreeCutoverFrame ≤ change.proposedFrame

/-- A split of a parent that is not among the live shards. -/
def staleSplit (live : Bytes → List (List Bool)) (change : PendingShardChange) : Except QuilError Bool :=
  match change.kind with
  | .merge => .ok false
  | .split => do
    let output ← materializeShardSplit change.parent change.children (change.bitPathMode net)
    match output.removedParent with
    | none => return false
    | some (l2, path) => return canonBits path ∉ live l2

/-- Ask the gate about each due change: those to apply, and those to drop. The rest stay pending; so does
    one the gate refuses as invalid, while any other failure fails the frame. -/
def gateDue (live : Bytes → List (List Bool)) (gate : PendingShardChange → Except QuilError TopologyGate) :
    List PendingShardChange → Except QuilError (List PendingShardChange × List PendingShardChange)
  | [] => .ok ([], [])
  | change :: due => do
    if ← staleSplit net live change then
      let rest ← gateDue live gate due
      return (change :: rest.1, rest.2)
    else
      match gate change with
      | .ok .apply => do
        let rest ← gateDue live gate due
        return (change :: rest.1, rest.2)
      | .ok .wait => gateDue live gate due
      | .ok .drop => do
        let rest ← gateDue live gate due
        return (rest.1, change :: rest.2)
      | .error (.invalidArgument _) => gateDue live gate due
      | .error e => .error e

/-- What the loop over the changes carries: the store, the live shards, and the shards that gave way. -/
structure Flip where
  shards : Shards
  live : Bytes → List (List Bool)
  flipped : List (Bytes × List Bool)

def Flip.putShard (st : Flip) (l2 : Bytes) (path : Levels) : Flip :=
  { st with shards := { st.shards with
      rows := Function.update st.shards.rows l2 (putAppShard (st.shards.rows l2) path) } }

def Flip.deleteShard (st : Flip) (l2 : Bytes) (path : Levels) : Flip :=
  { st with
    shards := { st.shards with
      rows := Function.update st.shards.rows l2 (deleteAppShard (st.shards.rows l2) path) }
    flipped := st.flipped ++ [(l2, canonBits path)] }

def Flip.liveInsert (st : Flip) (l2 : Bytes) (path : Levels) : Flip :=
  { st with live := Function.update st.live l2 (canonBits path :: st.live l2) }

def Flip.liveRemove (st : Flip) (l2 : Bytes) (path : Levels) : Flip :=
  { st with live := Function.update st.live l2 ((st.live l2).filter (· ≠ canonBits path)) }

def Flip.migrate (st : Flip) (l2 : Bytes) : Flip :=
  { st with shards := { st.shards with
      rows := Function.update st.shards.rows l2 (migrateAppShardsToSentinel (st.shards.rows l2)) } }

def applySplit (change : PendingShardChange) (st : Flip) : Except QuilError Flip := do
  let mode := change.bitPathMode net
  let output ← materializeShardSplit change.parent change.children mode
  let parentInGrid := match output.removedParent with
    | none => true
    | some (l2, path) => canonBits path ∈ st.live l2
  if parentInGrid = false then return st
  let st := if mode ∧ 32 ≤ change.parent.length then st.migrate (change.parent.take 32) else st
  let st := output.newShards.foldl (fun st shard => (st.putShard shard.1 shard.2).liveInsert shard.1 shard.2) st
  if 32 ≤ change.parent.length then
    let deepest := (output.newShards.map fun shard => (canonBits shard.2).length).foldr max 0
    env.raisePlacementWidth (change.parent.take 32) deepest
  match output.removedParent with
  | none => return st
  | some (l2, path) => return (st.deleteShard l2 path).liveRemove l2 path

-- a merge neither looks at the live shards nor changes them
def applyMerge (change : PendingShardChange) (st : Flip) : Except QuilError Flip := do
  let output ← materializeShardMerge change.children change.parent (change.bitPathMode net)
  let st := output.removedShards.foldl (fun st shard => st.deleteShard shard.1 shard.2) st
  match output.addedParent with
  | none => return st
  | some (l2, path) => return st.putShard l2 path

def applyKind (change : PendingShardChange) (st : Flip) : Except QuilError Flip :=
  match change.kind with
  | .split => applySplit net env change st
  | .merge => applyMerge net change st

/-- Apply one change and consume its pending record. -/
def applyChange (change : PendingShardChange) (st : Flip) : Except QuilError Flip := do
  let st ← applyKind net env change st
  return { st with shards := { st.shards with
    pending := deletePendingShardChange st.shards.pending change } }

/-- The live shards of a grid. -/
def liveShards (s : Shards) : Bytes → List (List Bool) := fun l2 => (s.rows l2).map canonBits

/-- The changes a frame applies, and those it drops. -/
def gated (frame : ℕ) (s : Shards) :
    Except QuilError (List PendingShardChange × List PendingShardChange) :=
  let due := s.pending.filter (·.effectiveEpoch ≤ net.epochForFrame frame)
  match env.gateTopologyChange with
  | some gate => gateDue net (liveShards s) gate due
  | none => .ok (due, [])

/-- Allocations are reassigned before any row changes. -/
def reassignDue (live : Bytes → List (List Bool)) : List PendingShardChange → Except QuilError Unit
  | [] => .ok ()
  | change :: due => do
    if (← staleSplit net live change) = false then
      env.reassignShardAllocations change
    reassignDue live due

def applyDueShardChanges (frame : ℕ) (s : Shards) :
    Except QuilError (Shards × List (Bytes × List Bool)) := do
  let (due, dropped) ← gated net env frame s
  let s := { s with pending := dropped.foldl deletePendingShardChange s.pending }
  reassignDue net env (liveShards s) due
  let st ← due.foldlM (fun st change => applyChange net env change st) ⟨s, liveShards s, []⟩
  return (st.shards, st.flipped)

end Quil.GridChanges
