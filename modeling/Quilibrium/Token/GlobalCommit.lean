import Quilibrium.Token.GlobalRecords

/-! The global commit of one relayed spend (`token_intrinsic/global_commit.rs`, `commit_entry`). The
    function runs in phases over one set of records: structural bounds, the decision of an earlier
    relay, the application's context (RECORDED here when absent), the checks that reject, the placement
    width (RAISED here to the executing shard's depth), the placement of outputs, and only then the
    commit's own writes. A rejection writes the decision into whatever the earlier phases left. -/

namespace Quil.GlobalCommit
open Schemes CoinBlocks GlobalRecords

/-! ### Entries -/

def TYPE_LATTICE_SHIELD : ℕ := 0x0516
/-- Consume-once markers one operation may spend. -/
def MAX_CONSUMPTIONS : ℕ := 16
/-- Markers a batch shield may spend. -/
def MAX_SHIELD_SOURCES : ℕ := 96
/-- Outputs one operation may create. -/
def MAX_OUTPUTS : ℕ := 16
/-- Deliveries a block can ever receive. -/
def BLOCK_CAPACITY : ℕ := 2 ^ SUBTREE_BITS
/-- Roots an application's history retains. -/
def HISTORY_LIMIT : ℕ := 128
/-- Deepest tree a root record may describe. -/
def MAX_DEPTH : ℕ := 32

def invalid (message : String) : QuilError := .invalidArgument ("spend entry: " ++ message)

/-- What a deployment fixes: the activation frames, and the digest of a published root. -/
structure Env (Node : Type) where
  batchShieldFrame : ℕ
  orphanReplacementFrame : ℕ
  rootDigest : Bytes32 → ℕ → Node → Bytes32

/-- An escrow the operation creates. -/
structure EscrowCreate where
  address : Bytes32
  binding : Bytes32
  refundAfterGlobalFrame : ℕ
deriving DecidableEq, Repr

/-- An escrow the operation claims. -/
structure EscrowClaim where
  address : Bytes32
  binding : Bytes32
  refund : Bool
deriving DecidableEq, Repr

/-- What an executing shard relays for one verified confidential operation. -/
structure SpendEntry where
  kind : ℕ
  txId : Bytes32
  sourceFrame : ℕ
  context : Bytes32
  rootDigest : Option Bytes32
  consumptions : List Bytes32
  outputs : List Bytes32
  escrowCreate : Option EscrowCreate
  escrowClaim : Option EscrowClaim
  fee : ℕ
  settlement : Option SettlementEntry
deriving DecidableEq, Repr

/-- Where a committed output was placed. -/
structure Placement where
  address : Bytes32
  block : ℕ
  seq : ℕ
deriving DecidableEq, Repr

inductive Outcome where
  | alreadyDecided
  | rejected (reason : String)
  | committed (fee : ℕ) (placements : List Placement) (escrow : Option Placement)
deriving DecidableEq, Repr

variable {Node : Type}

/-- Consumptions one entry may carry at a frame. -/
def maxConsumptions (env : Env Node) (kind frame : ℕ) : ℕ :=
  if kind = TYPE_LATTICE_SHIELD ∧ frame ≥ env.batchShieldFrame then MAX_SHIELD_SOURCES
  else MAX_CONSUMPTIONS

/-- Structural bounds at a frame. -/
def SpendEntry.validateAt (env : Env Node) (frame : ℕ) (entry : SpendEntry) :
    Except QuilError Unit :=
  if entry.consumptions.length > maxConsumptions env entry.kind frame ∨
      entry.outputs.length > MAX_OUTPUTS then
    .error (invalid "too many consumptions or outputs")
  else if ¬ entry.consumptions.Nodup ∨ ¬ entry.outputs.Nodup then
    .error (invalid "repeated consumption or output")
  else if entry.consumptions.isEmpty ∧ entry.escrowClaim.isNone then
    .error (invalid "an operation consumes something")
  else if entry.escrowCreate.isSome ∧ entry.escrowClaim.isSome then
    .error (invalid "one operation cannot create and claim an escrow")
  else .ok ()

/-! ### The root history an entry's membership proof was against -/

/-- The bounds of a root record (`RootRecord::validate`). -/
def validRootRecord (r : RootRecord Node) : Bool :=
  decide (r.depth ≠ 0) && decide (r.depth ≤ MAX_DEPTH) && decide (r.coins ≤ 2 ^ r.depth)

/-- The checks of `History::decode`. -/
def decodeHistory (env : Env Node) (history : History Node) (context : Bytes32) :
    Except QuilError (History Node) :=
  if history.digests.length = 0 ∨ history.digests.length > HISTORY_LIMIT ∨
      history.current.context ≠ context ∨ ¬ validRootRecord history.current ∨
      ¬ history.digests.Nodup ∨
      history.digests.getLast? ≠
        some (env.rootDigest context history.current.depth history.current.root) then
    .error (.invalidArgument "coin root: invalid history record")
  else .ok history

/-- Whether a root history retains the root with this digest. -/
def historyRetainsDigest (env : Env Node) (history : History Node) (context digest : Bytes32) :
    Except QuilError Bool :=
  return (← decodeHistory env history context).digests.contains digest

/-! ### Placement -/

/-- Ensure placement is at least `shard_depth` wide. -/
def raisePlacementWidth (s : Records Node) (app : Bytes32) (shardDepth : ℕ) :
    Except QuilError (ℕ × Records Node) := do
  let current ← placementWidth s app
  let wanted := min shardDepth MAX_BLOCK_BITS
  if wanted ≤ current then return (current, s)
  return (wanted, s.write (placementWidthAddress app) (.placementWidth wanted))

/-- The sequence numbers an operation has taken so far, over the recorded ones. -/
abbrev Sequences := ℕ → Option ℕ

/-- The next sequence number of a block: the operation's own count, else the recorded one. -/
def nextSequence (lane : Lane) (s : Records Node) (app : Bytes32) (sequences : Sequences)
    (block : ℕ) : Except QuilError ℕ :=
  match sequences block with
  | some next => .ok next
  | none => laneSequence lane s app block

/-- Place outputs one after another; `none` when a block is full. -/
def placeOutputs (s : Records Node) (app : Bytes32) (width : ℕ) :
    Sequences → List Bytes32 → Except QuilError (Option (List Placement × Sequences))
  | sequences, [] => .ok (some ([], sequences))
  | sequences, address :: rest => do
    let block ← blockForAddress width address
    let next ← nextSequence .coin s app sequences block
    if next ≥ BLOCK_CAPACITY then return none
    match ← placeOutputs s app width
        (Function.update sequences block (some (next + 1))) rest with
    | none => return none
    | some (placements, final) => return some (⟨address, block, next⟩ :: placements, final)

/-- Write every sequence number an operation has taken. -/
def writeSequences (lane : Lane) (s : Records Node) (app : Bytes32)
    (sequences : Sequences) : Records Node :=
  s.overlay fun
    | .sequence l a block => if l = lane ∧ a = app then
        (sequences block).map (Record.sequence lane) else none
    | _ => none

/-! ### The phases of a commit -/

/-- Record a rejection over the given records. -/
def reject (s : Records Node) (frame : ℕ) (app txId : Bytes32) (reason : String) :
    Outcome × Records Node :=
  (.rejected reason, s.write (decisionAddress app txId) (.decision (.rejected frame reason)))

/-- The rejection of a root that is not retained. -/
def rootRejection (env : Env Node) (s : Records Node) (app : Bytes32) (entry : SpendEntry) :
    Except QuilError (Option String) :=
  match entry.rootDigest with
  | none => .ok none
  | some digest => do
    let retained ← match ← readRootHistory s app with
      | some history => historyRetainsDigest env history entry.context digest
      | none => .ok false
    return if retained then none else some "root is not in the application's canonical history"

/-- The rejection of a marker consumed before. -/
def consumptionRejection (s : Records Node) (app : Bytes32) :
    List Bytes32 → Except QuilError (Option String)
  | [] => .ok none
  | marker :: rest => do
    if ← isConsumed s app marker then return some "already consumed"
    consumptionRejection s app rest

/-- The rejection of an escrow claim. -/
def claimRejection (s : Records Node) (frame : ℕ) (app : Bytes32) :
    Option EscrowClaim → Except QuilError (Option String)
  | none => .ok none
  | some claim => do
    match ← escrow s app claim.address with
    | none => return some "escrow does not exist"
    | some e =>
      if e.consumed then return some "escrow already consumed"
      else if e.binding ≠ claim.binding then return some "claim does not match the escrow"
      else if claim.refund ∧ frame < e.refundAfter then
        return some "refund before the escrow's refund frame"
      else return none

/-- The rejection of an escrow that exists. -/
def createRejection (s : Records Node) (app : Bytes32) :
    Option EscrowCreate → Except QuilError (Option String)
  | none => .ok none
  | some create => do
    if (← escrow s app create.address).isSome then return some "escrow already exists"
    return none

/-- The first rejection among the checks, in the source's order. -/
def rejection (env : Env Node) (s : Records Node) (frame : ℕ) (app : Bytes32)
    (entry : SpendEntry) : Except QuilError (Option String) := do
  match ← rootRejection env s app entry with
  | some reason => return some reason
  | none =>
    match ← consumptionRejection s app entry.consumptions with
    | some reason => return some reason
    | none =>
      match ← claimRejection s frame app entry.escrowClaim with
      | some reason => return some reason
      | none => createRejection s app entry.escrowCreate

/-- Mark every marker consumed. -/
def writeConsumptions (s : Records Node) (app txId : Bytes32) (markers : List Bytes32) :
    Records Node :=
  s.writeAll (markers.map fun marker => (consumedAddress app marker, .consumed txId))

/-- Mark a claimed escrow consumed. -/
def writeClaim (s : Records Node) (app : Bytes32) :
    Option EscrowClaim → Except QuilError (Records Node)
  | none => .ok s
  | some claim => do
    match ← escrow s app claim.address with
    | none => .error (.internal "checked above")
    | some e => return s.write (escrowAddress app claim.address) (.escrow { e with consumed := true })

/-- The delivery a placement of an entry queues. -/
def SpendEntry.delivery (entry : SpendEntry) (sourceShard : ShardPath) (address : Bytes32) :
    Delivery :=
  ⟨address, entry.sourceFrame, entry.txId, sourceShard⟩

/-- Record a created escrow and queue it for delivery to its block's owner. -/
def writeCreate (s : Records Node) (app : Bytes32) (entry : SpendEntry)
    (sourceShard : ShardPath) (width : ℕ) : Except QuilError (Option Placement × Records Node) :=
  match entry.escrowCreate with
  | none => .ok (none, s)
  | some create => do
    let s := s.write (escrowAddress app create.address)
      (.escrow ⟨create.binding, create.refundAfterGlobalFrame, false⟩)
    let block ← blockForAddress width create.address
    let seq ← escrowSequence s app block
    let s := s.write (escrowDeliveryAddress app block seq)
      (.delivery .escrow (entry.delivery sourceShard create.address))
    let s := s.write (escrowSequenceAddress app block) (.sequence .escrow (seq + 1))
    return (some ⟨create.address, block, seq⟩, s)

/-- Queue every placed output for delivery. -/
def writeDeliveries (s : Records Node) (app : Bytes32) (entry : SpendEntry)
    (sourceShard : ShardPath) (placements : List Placement) : Records Node :=
  s.writeAll (placements.map fun p =>
    (deliveryAddress app p.block p.seq, .delivery .coin (entry.delivery sourceShard p.address)))

/-- Record a settlement, unless its receipt is recorded already. -/
def writeSettlement (s : Records Node) : Option SettlementEntry → Records Node
  | none => s
  | some entry =>
    if (s (.receipt entry.receipt)).isNone then s.write (.receipt entry.receipt) (.settlement entry)
    else s

/-- The commit's own writes, once the entry has been checked and placed. -/
def writeCommit (s : Records Node) (frame : ℕ) (app : Bytes32) (entry : SpendEntry)
    (sourceShard : ShardPath) (width : ℕ) (placements : List Placement) (sequences : Sequences) :
    Except QuilError (Outcome × Records Node) := do
  let s := writeConsumptions s app entry.txId entry.consumptions
  let s ← writeClaim s app entry.escrowClaim
  let (escrowPlacement, s) ← writeCreate s app entry sourceShard width
  let s := writeDeliveries s app entry sourceShard placements
  let s := writeSequences .coin s app sequences
  let s := writeSettlement s entry.settlement
  let s := s.write (decisionAddress app entry.txId) (.decision (.committed frame))
  return (.committed entry.fee placements escrowPlacement, s)

/-- The entry's checks, placement and commit, once the context is settled. -/
def commitChecked (env : Env Node) (s : Records Node) (frame : ℕ) (app : Bytes32)
    (entry : SpendEntry) (sourceShard : ShardPath) : Except QuilError (Outcome × Records Node) := do
  match ← rejection env s frame app entry with
  | some reason => return reject s frame app entry.txId reason
  | none =>
    let (width, s) ← raisePlacementWidth s app
      ((sourceShard.toBits.map List.length).getD 0)
    match ← placeOutputs s app width (fun _ => none) entry.outputs with
    | none => return reject s frame app entry.txId "block is full"
    | some (placements, sequences) => writeCommit s frame app entry sourceShard width placements sequences

/-- Decide one relayed entry for `application` at global frame `frame`. -/
def commitEntry (env : Env Node) (s : Records Node) (frame : ℕ) (app : Bytes32)
    (entry : SpendEntry) (sourceShard : ShardPath) : Except QuilError (Outcome × Records Node) := do
  entry.validateAt env frame
  if ← isDecided s app entry.txId then return (.alreadyDecided, s)
  match ← read s (contextAddress app) Record.context? with
  | some context =>
    if context ≠ entry.context then
      return reject s frame app entry.txId "context differs from the application's"
    commitChecked env s frame app entry sourceShard
  | none =>
    commitChecked env (s.write (contextAddress app) (.context entry.context)) frame
      app entry sourceShard

end Quil.GlobalCommit
