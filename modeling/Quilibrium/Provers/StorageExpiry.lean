import Quilibrium.Provers.StorageSeatRun
import Quilibrium.Schemes.RingQueue

/-! The expiry sweep of storage seats (`storage_seat.rs`, `prover_shard_update.rs`, `intrinsic.rs`). A seat that
    chains its FIRST root of an epoch is queued in a bucket of that epoch's expiry queue; two epochs on, the first
    frames of the epoch sweep the buckets, one after another, and expire the seats they hold. The queues are kept in a
    ring of four epochs whose records are reused. A header's root is chained within the lockstep window, and only
    after the seat's ended epochs are closed; a root DRAINED with a seal has neither bound. -/

namespace Quil.StorageExpiry
open Schemes StorageSeat AllocationEpochs

/-- Buckets an epoch's expiry queue is split into. -/
def EXPIRY_BUCKETS : ℕ := 16
/-- Epochs whose queues are kept. -/
def EXPIRY_RING : ℕ := 4

/-- The network's settings, the address of a seat, and the storage beacon of a GLOBAL frame. -/
structure Network where
  rules : Rules
  seatAddress : Bytes32 → List UInt8 → Bytes32
  storageBeacon : ℕ → List UInt8
  hashStorageProofsAt : ℕ → Bool

/-- The seats by address, and the expiry queues. -/
structure State where
  seats : Bytes32 → Option Seat
  queues : RingQueues Bytes32

def State.empty : State := ⟨fun _ => none, fun _ => none⟩

/-- By the seat's first byte. -/
def expiryBucket (seat : Bytes32) : ℕ := seat.toNat / 2 ^ 248 % EXPIRY_BUCKETS

section
variable (net : Network)

/-- Write a seat at its address. -/
def write (s : State) (seat : Seat) : State :=
  { s with seats := Function.update s.seats (net.seatAddress seat.member seat.filter) (some seat) }

/-- Write `after` when it differs from what was read. -/
def writeChanged (s : State) (before after : Seat) : State :=
  if after.slots = before.slots then s else write net s after

/-! ### The sweep -/

/-- The epoch whose window closed when the epoch of `frame` began, and the buckets of it to sweep now. -/
def expiryBucketsDue (frame : ℕ) : Option (ℕ × List ℕ) :=
  let length : ℕ := net.rules.epochLengthFrames
  let current := epochForFrame net.rules.epochLengthFrames frame
  let frames := min EXPIRY_BUCKETS length
  let offset := frame - current * length
  if current < 2 then none
  else if offset < frames then
    some (current - 2, (List.range EXPIRY_BUCKETS).filter fun bucket => offset ≤ bucket ∧ (bucket - offset) % frames = 0)
  else none

/-- Close the ended epochs of a queued seat, and whether its member is kicked. -/
def sweepSeat (frame : ℕ) (s : State) (address : Bytes32) : State × Bool :=
  match s.seats address with
  | none => (s, false)
  | some seat =>
    let expired := seat.expire net.rules frame
    (writeChanged net s seat expired.2, expired.1)

/-- Empty a bucket, and close each seat it held. -/
def sweepBucket (frame epoch : ℕ) (s : State) (bucket : ℕ) : State × List (Bytes32 × Bool) :=
  let taken := s.queues.take EXPIRY_RING epoch bucket
  run (sweepSeat net frame) { s with queues := taken.1 } taken.2

/-- The sweep of a frame: the seats it visited, by epoch, and whether each one's member is kicked. -/
def sweepExpiries (frame : ℕ) (s : State) : State × List ((ℕ × Bytes32) × Bool) :=
  match expiryBucketsDue net frame with
  | none => (s, [])
  | some (epoch, buckets) =>
    if net.hashStorageProofsAt epoch then
      let swept := run (sweepBucket net frame epoch) s buckets
      (swept.1, swept.2.flatMap fun bucket => bucket.2.map fun visit => ((epoch, visit.1), visit.2))
    else (s, [])

/-! ### Operations -/

/-- A shard frame's header, as far as storage reads it: its proposer and shard, its number and the GLOBAL frame it
    is anchored to, and the root it commits with the GLOBAL frame of its beacon. -/
structure Header where
  prover : Bytes32
  address : List UInt8
  frameNumber : ℕ
  globalFrameNumber : ℕ
  commitment : Option (Bytes32 × ℕ)

/-- The anchors a GLOBAL frame accepts: the frames before it, back to the lockstep window. -/
def anchorInWindow (anchor frame : ℕ) : Bool :=
  decide (anchor ≠ 0 ∧ frame - 1 - STORAGE_ANCHOR_LOCKSTEP_WINDOW ≤ anchor ∧ anchor ≤ frame - 1)

/-- The commitment as a GLOBAL frame chains it: its beacon frame is not before the anchor, and before the frame. -/
def storageCommitment (frame : ℕ) (header : Header) : Option (Bytes32 × ℕ) :=
  header.commitment.filter fun commitment => header.globalFrameNumber ≤ commitment.2 ∧ commitment.2 < frame

/-- The epoch a header is anchored in, when its storage is proved by hash. -/
def storageEpoch (header : Header) : Option ℕ :=
  let epoch := epochForFrame net.rules.epochLengthFrames header.globalFrameNumber
  if header.globalFrameNumber ≠ 0 ∧ net.hashStorageProofsAt epoch then some epoch else none

/-- Chain a header's root into the seat, and whether it is the epoch's first. -/
def commitRoot (frame epoch : ℕ) (header : Header) (commitment : Bytes32 × ℕ) (seat : Seat) : Seat × Bool :=
  let committed := seat.commit net.rules epoch header.frameNumber commitment.2 frame
    (net.storageBeacon commitment.2) commitment.1
  (committed.2, committed.1 && committed.2.firstCommitment epoch)

/-- Close the ended epochs of a seat, then change it. -/
def touch (frame : ℕ) (s : State) (member : Bytes32) (filter : List UInt8) (change : Seat → Seat × Bool) :
    State × Bool :=
  match s.seats (net.seatAddress member filter) with
  | none => (s, false)
  | some seat =>
    let changed := change (seat.expire net.rules frame).2
    (writeChanged net s seat changed.1, changed.2)

/-- Queue a seat that chained its first root. -/
def enqueueExpiry (s : State) (epoch : ℕ) (address : Bytes32) : State :=
  { s with queues := s.queues.push EXPIRY_RING expiryBucket epoch address }

/-- Queue the seat when `first`, and what was queued. -/
def enqueueFirst (s : State) (epoch : ℕ) (address : Bytes32) (first : Bool) : State × Option (ℕ × Bytes32) :=
  if first then (enqueueExpiry s epoch address, some (epoch, address)) else (s, none)

/-- Hold a participant's share. -/
def holdShare (frame epoch committee : ℕ) (header : Header) (s : State) (participant : Bytes32 × ℤ) : State × Bool :=
  touch net frame s participant.1 header.address fun seat =>
    let held := seat.hold epoch frame header.frameNumber participant.2 committee
    (held.2, held.1)

/-- Chain the proposer's root and hold the participants' shares, by address and amount. -/
def holdStorageShares (frame epoch committee : ℕ) (header : Header) (participants : List (Bytes32 × ℤ)) (s : State) :
    State × Option (ℕ × Bytes32) :=
  let chained := match storageCommitment frame header with
    | none => (s, none)
    | some commitment =>
      let touched := touch net frame s header.prover header.address (commitRoot net frame epoch header commitment)
      enqueueFirst touched.1 epoch (net.seatAddress header.prover header.address) touched.2
  ((run (holdShare net frame epoch committee header) chained.1 participants).1, chained.2)

/-- Chain the root of a header that a seal drains. -/
def commitDrainedStorage (frame : ℕ) (header : Header) (s : State) : State × Option (ℕ × Bytes32) :=
  match storageEpoch net header, storageCommitment frame header,
      s.seats (net.seatAddress header.prover header.address) with
  | some epoch, some commitment, some seat =>
    let committed := commitRoot net frame epoch header commitment seat
    enqueueFirst (writeChanged net s seat committed.1) epoch (net.seatAddress header.prover header.address) committed.2
  | _, _, _ => (s, none)

/-- The operations of a GLOBAL frame that reach a seat. -/
inductive Op where
  /-- A confirm registers leaves for the next epoch. -/
  | register (member : Bytes32) (filter : List UInt8) (leaves : List (List ℕ))
  /-- An epoch proof seals one epoch's registration and settles another. -/
  | prove (member : Bytes32) (filter : List UInt8) (seals : Option ℕ) (settles : Option (ℕ × ℕ))
  /-- A shard frame's header, with its participants' shares and the size of its committee. -/
  | header (header : Header) (participants : List (Bytes32 × ℤ)) (committee : ℕ)
  /-- A header drained with a seal. -/
  | drained (header : Header)

/-- What an accepted epoch proof makes of a seat. -/
def applyProof (frame : ℕ) (seals : Option ℕ) (settles : Option (ℕ × ℕ)) (seat : Seat) : Seat :=
  let seat := match seals with
    | some epoch => (seat.markSealed epoch frame).2
    | none => seat
  match settles with
  | some (epoch, timely) => (seat.settle epoch frame timely).2
  | none => seat

/-- One operation at a GLOBAL frame: the epoch and seat it queued, if it chained a first root. -/
def perform (frame : ℕ) (s : State) : Op → State × Option (ℕ × Bytes32)
  | .register member filter leaves =>
    let epoch := epochForFrame net.rules.epochLengthFrames frame + 1
    if net.hashStorageProofsAt epoch ∧ leaves ≠ [] then
      let seat := (s.seats (net.seatAddress member filter)).getD (.new member filter)
      (write net s (seat.register net.rules epoch leaves frame), none)
    else (s, none)
  | .prove member filter seals settles =>
    match s.seats (net.seatAddress member filter) with
    | none => (s, none)
    | some seat => (writeChanged net s seat (applyProof frame seals settles seat), none)
  | .header header participants committee =>
    match anchorInWindow header.globalFrameNumber frame, storageEpoch net header with
    | true, some epoch => holdStorageShares net frame epoch committee header participants s
    | _, _ => (s, none)
  | .drained header => commitDrainedStorage net frame header s

/-! ### Frames -/

/-- A GLOBAL frame's operations, before and after its sweep. -/
structure Frame where
  before : List Op
  after : List Op

/-- What a frame did: the seats it queued on their first root of an epoch, and the seats its sweep visited. -/
structure Report where
  first : List (ℕ × Bytes32)
  visited : List (ℕ × Bytes32)

/-- A GLOBAL frame, from its number and the state before it. -/
def step (clock : ℕ × State) (frame : Frame) : (ℕ × State) × Report :=
  let before := run (perform net clock.1) clock.2 frame.before
  let swept := sweepExpiries net clock.1 before.1
  let after := run (perform net clock.1) swept.1 frame.after
  ((clock.1 + 1, after.1),
    ⟨before.2.filterMap Prod.snd ++ after.2.filterMap Prod.snd, swept.2.map Prod.fst⟩)

end

/-- The first roots of a run, by epoch and seat. -/
def firstRoots (trace : List (Frame × Report)) : List (ℕ × Bytes32) := trace.flatMap (·.2.first)

/-- The visits of a run's sweeps, by epoch and seat. -/
def visits (trace : List (Frame × Report)) : List (ℕ × Bytes32) := trace.flatMap (·.2.visited)

/-- The GLOBAL frame whose sweep takes a bucket of an epoch's queue. -/
def sweepFrame (length : ℕ) (epoch bucket : ℕ) : ℕ := (epoch + 2) * length + bucket % min EXPIRY_BUCKETS length

end Quil.StorageExpiry
