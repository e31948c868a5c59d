import Quilibrium.Provers.AllocationEpochs
import Quilibrium.Provers.RetroLedger
import Quilibrium.Schemes.LittleEndian

/-! Seniority merges and successions (`seniority_succession.rs`). A `ProverSeniorityMerge` names legacy node keys, its
    targets. Each target has up to two spent markers, and each marker names the prover it credits; the markers select
    what the operation does. Targets that nobody consumed make a MERGE, which credits their retro seniority; targets
    that count for one other prover make a SUCCESSION, which moves what they brought that prover to the submitter,
    once that prover is idle. The whole decision is `planSeniorityMerge`; what it decides is written by `apply`. -/

namespace Quil.SenioritySuccession
open Schemes RetroLedger AllocationEpochs

abbrev PublicKey := List UInt8

/-- A 32-byte address. -/
abbrev Address := { bytes : List UInt8 // bytes.length = 32 }

/-! ### The GLOBAL records an operation reads -/

/-- A `prover:Prover` vertex: its type, key, kick and last accrual, and its seniority with the retro
    ledger. A missing number reads as 0. -/
structure ProverVertex where
  vertexType : Option String
  publicKey : Option PublicKey
  kickFrameNumber : ℕ
  lastSeniorityFrameNumber : ℕ
  retro : ProverRetro

/-- An allocation vertex: its prover, the fields an epoch decides on, and the rest of its frames. -/
structure AllocationVertex extends Allocation where
  prover : List UInt8
  pauseFrameNumber : Option ℕ
  resumeFrameNumber : Option ℕ
  kickFrameNumber : Option ℕ
  lastSignedFrameNumber : Option ℕ
  leavePenaltyFrameNumber : Option ℕ

/-- Whom a spent marker credits: nobody, when it was written before markers recorded a prover. -/
inductive MarkerOwner where
  | unattributed
  | prover (address : Address)
deriving DecidableEq

/-- The GLOBAL state. A hyperedge links a prover to (application, address) atoms. -/
structure GlobalState where
  provers : Address → Option ProverVertex
  hyperedges : Address → List (Address × Address)
  allocations : Address → Option AllocationVertex
  joinMarkers : PublicKey → Option MarkerOwner
  seniorityMarkers : PublicKey → Option MarkerOwner

/-- The address of a spent marker of a target. -/
inductive SpentAddress where
  | joinMerge (key : PublicKey)
  | seniorityMerge (key : PublicKey)
deriving DecidableEq

/-- One target of an operation, with its consent. -/
structure SeniorityMerge (σ : Type) where
  signature : σ
  keyType : ℕ
  proverPublicKey : PublicKey

structure AddressedSignature (σ : Type) where
  signature : σ
  address : List UInt8

structure ProverSeniorityMerge (σ : Type) where
  frameNumber : ℕ
  publicKeySignature : Option (AddressedSignature σ)
  mergeTargets : List (SeniorityMerge σ)

inductive KeyType where
  | ed448 | falcon512

/-- What the network fixes: epochs, amnesties, the hashes that make addresses, the signature check over
    key, message and domain, and the value of keys. -/
structure Network (σ : Type) where
  epochLength : ℕ+
  successionEpoch : ℕ
  penaltyEpoch : ℕ
  amnestyFrames : List ℕ
  proverAddressFromPubkey : PublicKey → Address
  allocationAddress : PublicKey → List UInt8 → Address
  validateSignature : KeyType → PublicKey → List UInt8 → σ → List UInt8 → Except QuilError Bool
  intrinsicDomain : List UInt8 → List UInt8
  valuation : Valuation

variable {σ : Type} (net : Network σ)

def refused (reason : String) : QuilError := .invalidArgument s!"prover seniority merge: {reason}"

/-- A kick bars a prover unless an amnesty lies between the kick and now. -/
def kickBarsRejoin (kickFrameNumber currentFrame : ℕ) : Bool :=
  kickFrameNumber ≠ 0 ∧ ∀ a ∈ net.amnestyFrames, ¬ (kickFrameNumber < a ∧ a ≤ currentFrame)

def senioritySuccessionActive (frame : ℕ) : Bool :=
  net.successionEpoch ≤ epochForFrame net.epochLength frame

def seniorityPenaltiesAt (epoch : ℕ) : Bool := max net.penaltyEpoch net.successionEpoch ≤ epoch

def senioritySuccessionQuietFrames : ℕ := 2 * net.epochLength

/-! ### Markers and modes -/

/-- The spent markers of one target. -/
structure TargetMarkers where
  join : Option MarkerOwner
  seniority : Option MarkerOwner
deriving DecidableEq

/-- Why a target fits no merge or succession. -/
inductive Unusable where
  | legacy | conflicting
deriving DecidableEq

/-- Where a target stands for a merge by one prover. -/
inductive TargetStanding where
  | fresh
  | own
  | other (prover : Address)
  | unusable (why : Unusable)
deriving DecidableEq

namespace TargetMarkers

def read (s : GlobalState) (key : PublicKey) : TargetMarkers := ⟨s.joinMarkers key, s.seniorityMarkers key⟩

def owners (m : TargetMarkers) : List MarkerOwner := m.join.toList ++ m.seniority.toList

def standingLoop (submitter : Address) : List MarkerOwner → Option Address → Bool → TargetStanding
  | [], none, false => .fresh
  | [], none, true => .own
  | [], some prover, false => .other prover
  | [], some _, true => .unusable .conflicting
  | .unattributed :: _, _, _ => .unusable .legacy
  | .prover address :: rest, other, own =>
    if address = submitter then standingLoop submitter rest other true
    else
      match other with
      | none => standingLoop submitter rest (some address) own
      | some seen => if seen = address then standingLoop submitter rest other own else .unusable .conflicting

/-- Where the target stands for a merge by `submitter`. -/
def standing (m : TargetMarkers) (submitter : Address) : TargetStanding :=
  standingLoop submitter m.owners none false

end TargetMarkers

/-- What an operation does. -/
inductive SeniorityMergeMode where
  | legacy
  | merge
  | succession (predecessor : Address)
deriving DecidableEq

def SeniorityMergeMode.debug : SeniorityMergeMode → String
  | .legacy => "Legacy"
  | .merge => "Merge"
  | .succession X => s!"Succession \x7b predecessor: {X.1} \x7d"

def modeLoop (submitter : Address) :
    List TargetMarkers → Option Address → Bool → Except QuilError (Option Address × Bool)
  | [], predecessor, fresh => .ok (predecessor, fresh)
  | target :: rest, predecessor, fresh =>
    match target.standing submitter with
    | .unusable _ | .own => modeLoop submitter rest predecessor fresh
    | .fresh => modeLoop submitter rest predecessor true
    | .other prover =>
      match predecessor with
      | none => modeLoop submitter rest (some prover) fresh
      | some seen =>
        if seen = prover then modeLoop submitter rest predecessor fresh
        else .error (refused "the targets count for different provers")

/-- The mode of a merge by `submitter` whose targets have `markers`. -/
def modeFromMarkers (submitter : Address) (markers : List TargetMarkers) :
    Except QuilError SeniorityMergeMode := do
  match ← modeLoop submitter markers none false with
  | (none, _) => return .merge
  | (some _, true) => .error (refused "a succession names an unconsumed target; merge it separately")
  | (some predecessor, false) => return .succession predecessor

/-! ### The predecessor -/

/-- The predecessor of a succession as the state shows it. -/
structure PredecessorState where
  publicKey : PublicKey
  seniority : ℕ
  kickFrameNumber : ℕ
  lastSeniorityFrameNumber : ℕ
  retro : ProverRetro
  allocations : List AllocationVertex

def GLOBAL_INTRINSIC_ADDRESS : Address := ⟨List.replicate 32 255, by simp⟩

def hyperedgeAllocationAddresses (atoms : List (Address × Address)) : Except QuilError (List Address) :=
  atoms.mapM fun atom =>
    if atom.1 ≠ GLOBAL_INTRINSIC_ADDRESS then
      .error (.invalidArgument "prover hyperedge links a non-global allocation atom")
    else .ok atom.2

/-- A record decodes when it names a prover and has a status. -/
def AllocationVertex.decodes (a : AllocationVertex) : Bool := a.prover ≠ [] ∧ a.status.isSome

/-- Every frame field of an allocation. -/
def allocationFrames (a : AllocationVertex) : List ℕ :=
  [a.joinFrameNumber.getD 0, a.leaveFrameNumber.getD 0, a.pauseFrameNumber.getD 0,
    a.resumeFrameNumber.getD 0, a.kickFrameNumber.getD 0, a.joinConfirmFrameNumber.getD 0,
    a.joinRejectFrameNumber.getD 0, a.leaveConfirmFrameNumber.getD 0, a.leaveRejectFrameNumber.getD 0,
    a.lastActiveFrameNumber.getD 0, a.lastSignedFrameNumber.getD 0]

namespace PredecessorState

/-- The prover at `address` and its allocations; `none` without a vertex that carries a key. -/
def read (s : GlobalState) (address : Address) : Except QuilError (Option PredecessorState) :=
  match s.provers address with
  | none => .ok none
  | some tree =>
    let publicKey := tree.publicKey.getD []
    if publicKey = [] then .ok none
    else do
      let linked ← hyperedgeAllocationAddresses (s.hyperedges address)
      let globalAllocation := net.allocationAddress publicKey []
      let linked := if globalAllocation ∈ linked then linked else linked ++ [globalAllocation]
      return some {
        publicKey
        seniority := tree.retro.seniority
        kickFrameNumber := tree.kickFrameNumber
        lastSeniorityFrameNumber := tree.lastSeniorityFrameNumber
        retro := tree.retro
        allocations := (linked.filterMap s.allocations).filter fun a => a.decodes && a.prover == address.1 }

/-- The last frame with recorded activity. -/
def endFrame (p : PredecessorState) : ℕ :=
  (p.allocations.flatMap allocationFrames).foldl max p.lastSeniorityFrameNumber

def allocationEndFrame (p : PredecessorState) (a : AllocationVertex) : ℕ :=
  (allocationFrames a).foldl max p.lastSeniorityFrameNumber

/-- The effective status of an allocation that keeps the prover from being succeeded. -/
def allocationBlocks (p : PredecessorState) (a : AllocationVertex) (frame : ℕ) :
    Option EffectiveStatus :=
  let status := effectiveStatus net.epochLength a.toAllocation frame
  let live := status = .joining ∨ status = .active ∨ status = .paused ∨ status = .leaving
  let recent := frame - p.allocationEndFrame a < senioritySuccessionQuietFrames net
  let globalActive := a.confirmationFilter = [] ∧ status = .active
  if live ∧ (recent ∨ globalActive) then some status else none

/-- The epoch a leave departs at. -/
def departureEpoch (a : AllocationVertex) : Option ℕ :=
  if a.status.map mapAllocationStatus ≠ some .leaving then none
  else if 0 < a.leaveConfirmFrameNumber.getD 0 then
    some (epochForFrame net.epochLength (a.leaveConfirmFrameNumber.getD 0) + 1)
  else if 0 < a.leaveFrameNumber.getD 0 then
    some (epochForFrame net.epochLength (a.leaveFrameNumber.getD 0) + 2)
  else none

/-- The allocation would have read active when its leave was proposed. -/
def countedWhenLeaving (a : AllocationVertex) : Bool :=
  if a.leaveFrameNumber.getD 0 = 0 ∨ a.resumeFrameNumber.getD 0 < a.pauseFrameNumber.getD 0 then false
  else
    effectiveStatus net.epochLength { a.toAllocation with status := some STATUS_ACTIVE }
      (a.leaveFrameNumber.getD 0) = .active

/-- Shard allocations that depart in this epoch and await their penalty decision. -/
def undecidedDepartures (p : PredecessorState) (frame : ℕ) : List AllocationVertex :=
  let epoch := epochForFrame net.epochLength frame
  p.allocations.filter fun a =>
    seniorityPenaltiesAt net epoch && a.confirmationFilter ≠ [] &&
      departureEpoch net a = some epoch && countedWhenLeaving net a &&
      a.leavePenaltyFrameNumber.getD 0 ≠ a.leaveFrameNumber.getD 0

/-- The frame its first recorded allocation joined. -/
def startFrame (p : PredecessorState) : Option ℕ :=
  ((p.allocations.map fun a => a.joinFrameNumber.getD 0).filter (0 < ·)).min?

end PredecessorState

/-! ### A succession and what blocks it -/

inductive SuccessionBlocker where
  | inactive (epoch : ℕ)
  | sameProver
  | predecessorMissing
  | predecessorKicked (frame : ℕ)
  | successorKicked (frame : ℕ)
  | noSeniority
  | live (filter : List UInt8) (status : EffectiveStatus)
  | quiet (remaining : ℕ) (untilFrame : ℕ)
  | penaltyUndecided (filter : List UInt8) (epoch : ℕ)
  | noGain

def hexEncode (bytes : List UInt8) : String :=
  String.join (bytes.map fun b => String.ofList [Nat.digitChar (b.toNat / 16), Nat.digitChar (b.toNat % 16)])

def statusDebug : EffectiveStatus → String
  | .joining => "Joining"
  | .active => "Active"
  | .paused => "Paused"
  | .leaving => "Leaving"
  | .expiredJoining => "ExpiredJoining"
  | .expiredLeaving => "ExpiredLeaving"
  | .expiredEpoch => "ExpiredEpoch"
  | .rejected => "Rejected"
  | .kicked => "Kicked"
  | .historic => "Historic"
  | .unknown => "Unknown"

def SuccessionBlocker.display : SuccessionBlocker → String
  | .inactive epoch =>
    if epoch = u64Max then
      "seniority succession is not active on this network (no activation epoch is set)"
    else s!"seniority succession activates at epoch {epoch}"
  | .sameProver => "the markers already name this prover"
  | .predecessorMissing => "the prover the markers name has no prover record"
  | .predecessorKicked frame => s!"the predecessor was kicked at frame {frame}"
  | .successorKicked frame => s!"this prover was kicked at frame {frame}"
  | .noSeniority => "the predecessor holds no seniority"
  | .live filter status =>
    if filter = [] then s!"the predecessor's global allocation is {statusDebug status}"
    else s!"the predecessor's allocation on shard {hexEncode filter} is {statusDebug status}"
  | .quiet remaining untilFrame =>
    s!"the predecessor was active too recently: {remaining} more frames without activity " ++
      s!"(until frame {untilFrame})"
  | .penaltyUndecided filter epoch =>
    s!"the predecessor's leave of shard {hexEncode filter} departs at epoch {epoch} and its " ++
      "seniority penalty is not decided yet (the epoch's penalty pass runs after this frame's operations)"
  | .noGain => "the keys would not raise this prover's seniority"

structure SuccessionPreview where
  amounts : SuccessionAmounts
  blockers : List SuccessionBlocker

/-- What blocks a succession from the predecessor `p`, whatever it would move. -/
def predecessorBlockers (p : PredecessorState) (frame : ℕ) : List SuccessionBlocker :=
  let elapsed := frame - p.endFrame
  let quietFrames := senioritySuccessionQuietFrames net
  (if kickBarsRejoin net p.kickFrameNumber frame then [.predecessorKicked p.kickFrameNumber] else []) ++
    (if p.seniority = 0 then [.noSeniority] else []) ++
    (p.allocations.filterMap fun a => (p.allocationBlocks net a frame).map (.live a.confirmationFilter)) ++
    (if elapsed < quietFrames then
      [.quiet (quietFrames - elapsed) (saturatingAdd p.endFrame quietFrames)] else []) ++
    (p.undecidedDepartures net frame).map fun a =>
      .penaltyUndecided a.confirmationFilter (epochForFrame net.epochLength frame)

/-- The amounts of a succession without a predecessor. -/
def SuccessionAmounts.empty : SuccessionAmounts where
  debit := 0
  accrual := 0
  credit := 0
  predecessor := ⟨0, none, none, 0⟩
  successor := ⟨0, none, none, 0⟩

/-- Evaluate a succession of the keys `moved` at `frame`, with everything that blocks it. -/
def successionPreview (s : GlobalState) (frame : ℕ) (successor : Address) (successorTree : ProverVertex)
    (predecessor : Address) (moved own : List PublicKey) : Except QuilError SuccessionPreview := do
  let early : List SuccessionBlocker :=
    (if senioritySuccessionActive net frame then [] else [.inactive net.successionEpoch]) ++
      (if predecessor = successor then [.sameProver] else []) ++
      (if kickBarsRejoin net successorTree.kickFrameNumber frame then
        [.successorKicked successorTree.kickFrameNumber] else [])
  match ← PredecessorState.read net s predecessor with
  | none => return ⟨SuccessionAmounts.empty, early ++ [.predecessorMissing]⟩
  | some p => do
    let successorStart := (← PredecessorState.read net s successor).bind PredecessorState.startFrame
    let amounts := successionAmounts net.valuation p.retro successorTree.retro successorStart moved own
      frame p.endFrame
    let gain : List SuccessionBlocker :=
      if amounts.credit = 0 ∧ 0 < p.seniority then [.noGain] else []
    return ⟨amounts, early ++ predecessorBlockers net p frame ++ gain⟩

/-! ### Deciding an operation -/

/-- What a target signs: the prover's key for a merge; the key, the predecessor and the operation's
    frame for a succession. -/
def consentMessage (pubkey : PublicKey) (frameNumber : ℕ) : SeniorityMergeMode → List UInt8
  | .succession predecessor => pubkey ++ (predecessor.1 ++ toBeBytes 8 frameNumber)
  | _ => pubkey

/-- The domain a target signs in. -/
def consentDomain : SeniorityMergeMode → List UInt8
  | .succession _ => "PROVER_SENIORITY_SUCCESSION".toUTF8.toList
  | _ => "PROVER_SENIORITY_MERGE".toUTF8.toList

/-- Every target consents to the mode. -/
def verifySeniorityMergeConsents (pubkey : PublicKey) (frameNumber : ℕ) (mode : SeniorityMergeMode) :
    List (SeniorityMerge σ) → Except QuilError Bool
  | [] => .ok true
  | mt :: rest =>
    if mt.keyType ≠ 0 then
      .error (refused s!"merge target key_type {mt.keyType} unsupported (Ed448-only)")
    else do
      let ok ← net.validateSignature .ed448 mt.proverPublicKey (consentMessage pubkey frameNumber mode)
        mt.signature (consentDomain mode)
      if ok then verifySeniorityMergeConsents pubkey frameNumber mode rest else return false

/-- The key the submitting prover's signature is checked with: the operation is at most ten frames old,
    and the prover's vertex carries a key that makes its address. -/
def seniorityMergeSigner (op : ProverSeniorityMerge σ) (tree : ProverVertex) (currentFrame : ℕ) :
    Except QuilError (Option PublicKey) :=
  if op.mergeTargets.isEmpty then .error (refused "no merge targets")
  else
    match op.publicKeySignature with
    | none => .error (refused "missing signature")
    | some sig =>
      if sig.address.length ≠ 32 then .error (refused "invalid address length")
      else if saturatingAdd op.frameNumber 10 < currentFrame then .error (refused "outdated request")
      else
        match tree.vertexType with
        | none => .error (refused "no type hash")
        | some vertexType =>
          if vertexType ≠ "prover:Prover" then
            .error (refused s!"expected prover:Prover, got {vertexType}")
          else
            match tree.publicKey with
            | none => .error (refused "no PublicKey")
            | some pubkey =>
              if (net.proverAddressFromPubkey pubkey).1 ≠ sig.address then .ok none
              else .ok (some pubkey)

def verifySeniorityMergeProverSignature (op : ProverSeniorityMerge σ) (pubkey : PublicKey) :
    Except QuilError Bool :=
  match op.publicKeySignature with
  | none => .ok false
  | some sig =>
    net.validateSignature .falcon512 pubkey
      (toBeBytes 8 op.frameNumber ++ op.mergeTargets.flatMap (·.proverPublicKey)) sig.signature
      (net.intrinsicDomain "PROVER_SENIORITY_MERGE".toUTF8.toList)

/-- The submitting prover: its address, its vertex and its key. -/
structure Submitter where
  address : Address
  tree : ProverVertex
  pubkey : PublicKey

/-- What every mode requires of the submitting prover. -/
def admitSubmitter (op : ProverSeniorityMerge σ) (frame : ℕ) (s : GlobalState) :
    Except QuilError Submitter :=
  if op.mergeTargets.isEmpty then .error (refused "no merge targets")
  else
    match op.publicKeySignature with
    | none => .error (refused "missing signature")
    | some signature =>
      if h : signature.address.length = 32 then
        match s.provers ⟨signature.address, h⟩ with
        | none => .error (refused "prover not found")
        | some tree =>
          if kickBarsRejoin net tree.kickFrameNumber frame then
            .error (refused (SuccessionBlocker.successorKicked tree.kickFrameNumber).display)
          else do
            match ← seniorityMergeSigner net op tree frame with
            | none => .error (refused "the address does not match the prover's key")
            | some pubkey =>
              if ← verifySeniorityMergeProverSignature net op pubkey then
                return ⟨⟨signature.address, h⟩, tree, pubkey⟩
              else .error (refused "signature verification failed (prover signature)")
      else .error (refused "invalid address length")

/-- The targets of an operation, sorted: the keys that count for the submitter, the others, and the
    markers to write for those. Keys that fit nothing are skipped. -/
structure SortedTargets where
  own : List PublicKey
  others : List PublicKey
  writes : List SpentAddress

def sortTargets (s : GlobalState) (submitter : Address) : List PublicKey → SortedTargets
  | [] => ⟨[], [], []⟩
  | key :: rest =>
    let sorted := sortTargets s submitter rest
    let marker := TargetMarkers.read s key
    match marker.standing submitter with
    | .own => { sorted with own := key :: sorted.own }
    | .unusable _ => sorted
    | .fresh | .other _ =>
      { sorted with
        others := key :: sorted.others
        writes := (if marker.join.isSome then [.joinMerge key] else []) ++
          .seniorityMerge key :: sorted.writes }

/-- The state a decided operation writes. -/
structure SeniorityMergePlan where
  mode : SeniorityMergeMode
  successor : Address
  successorTree : ProverVertex
  predecessor : Option (Address × ProverVertex)
  markers : List SpentAddress

/-- Write the ledger on a prover's vertex; the penalty stays as recorded. -/
def writeRetro (r : ProverRetro) (tree : ProverVertex) : ProverVertex :=
  { tree with retro := {
      seniority := r.seniority
      held := r.held <|> tree.retro.held
      moved := r.moved <|> tree.retro.moved
      penalty := tree.retro.penalty } }

def planMerge (sub : Submitter) (targets : SortedTargets) :
    Except QuilError (Option SeniorityMergePlan) :=
  if targets.others.isEmpty then
    .error (refused
      "no target is unconsumed: every one already counts for this prover or fits nothing")
  else
    let existing := sub.tree.retro.seniority
    let (credit, parts) := creditRetro net.valuation sub.tree.retro.held sub.tree.retro.moved
      targets.others targets.own
    let new := saturatingAdd existing credit
    if new ≤ existing then
      .error (refused s!"the targets add no seniority beyond the {existing} this prover holds")
    else .ok (some {
      mode := .merge
      successor := sub.address
      successorTree :=
        { sub.tree with retro := { sub.tree.retro with seniority := new, held := some parts } }
      predecessor := none
      markers := targets.writes })

def planSuccession (s : GlobalState) (frame : ℕ) (sub : Submitter) (predecessor : Address)
    (targets : SortedTargets) : Except QuilError (Option SeniorityMergePlan) := do
  let preview ← successionPreview net s frame sub.address sub.tree predecessor targets.others targets.own
  if preview.blockers.isEmpty then
    match s.provers predecessor with
    | none => .error (refused SuccessionBlocker.predecessorMissing.display)
    | some predecessorTree =>
      return some {
        mode := .succession predecessor
        successor := sub.address
        successorTree := writeRetro preview.amounts.successor sub.tree
        predecessor := some (predecessor, writeRetro preview.amounts.predecessor predecessorTree)
        markers := targets.writes }
  else
    .error (refused
      (s!"succession from prover {hexEncode predecessor.1} refused: " ++
        String.intercalate "; " (preview.blockers.map SuccessionBlocker.display)))

/-- Decide an operation at a frame: `none` before the activation epoch, otherwise what it writes, or
    why it is refused. -/
def planSeniorityMerge (op : ProverSeniorityMerge σ) (frame : ℕ) (s : GlobalState) :
    Except QuilError (Option SeniorityMergePlan) :=
  if senioritySuccessionActive net frame = false then .ok none
  else do
    let sub ← admitSubmitter net op frame s
    let keys := op.mergeTargets.map (·.proverPublicKey)
    let mode ← modeFromMarkers sub.address (keys.map (TargetMarkers.read s))
    if ← verifySeniorityMergeConsents net sub.pubkey op.frameNumber mode op.mergeTargets then
      match mode with
      | .legacy => return none
      | .merge => planMerge net sub (sortTargets s sub.address keys)
      | .succession predecessor => planSuccession net s frame sub predecessor (sortTargets s sub.address keys)
    else .error (refused s!"signature verification failed ({mode.debug} consent)")

/-- A marker of the state names a prover. -/
def setMarker (owner : Address) (s : GlobalState) : SpentAddress → GlobalState
  | .joinMerge key => { s with joinMarkers := Function.update s.joinMarkers key (some (.prover owner)) }
  | .seniorityMerge key =>
    { s with seniorityMarkers := Function.update s.seniorityMarkers key (some (.prover owner)) }

def setProver (s : GlobalState) (address : Address) (tree : ProverVertex) : GlobalState :=
  { s with provers := Function.update s.provers address (some tree) }

/-- Write a plan: the successor, the predecessor, then the markers. -/
def SeniorityMergePlan.apply (plan : SeniorityMergePlan) (s : GlobalState) : GlobalState :=
  let s := setProver s plan.successor plan.successorTree
  let s := match plan.predecessor with
    | some (address, tree) => setProver s address tree
    | none => s
  plan.markers.foldl (setMarker plan.successor) s

/-- An operation at a frame; a refused one changes nothing. -/
abbrev Call (σ : Type) := ProverSeniorityMerge σ × ℕ

def step (s : GlobalState) (call : Call σ) : GlobalState × Option SeniorityMergePlan :=
  match planSeniorityMerge net call.1 call.2 s with
  | .ok (some plan) => (plan.apply s, some plan)
  | _ => (s, none)

end Quil.SenioritySuccession
