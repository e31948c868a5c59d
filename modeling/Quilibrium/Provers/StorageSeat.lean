import Quilibrium.Provers.AllocationEpochs
import Quilibrium.Schemes.Assoc
import Mathlib.Data.List.Destutter

/-! A member's storage seat on one shard (`storage_seat.rs`). The seat keeps one SLOT an epoch: the leaves registered
    for it, whether they are sealed, the chain of the roots the member committed, the rewards held for it, and how the
    epoch ended. Rewards are held while the epoch is open, and paid when an epoch proof SETTLES it; a slot whose
    settlement window closes first EXPIRES, and its member is reported if it had committed a root. Seven operations
    act on a seat. What each does to one epoch's slot is said once (`SlotStep`), and the rest follows from that. A
    committed epoch is not tied to its slot: a NEW registration of the same epoch replaces the slot, and pruning drops
    it. -/

namespace Quil.StorageSeat
open Schemes AllocationEpochs List

/-- One expected proposal, in the fixed point `expected` counts in. -/
def PROPOSAL : ℕ := 2 ^ 16
def MAX_SLOTS : ℕ := 8
def MAX_CHAINED : ℕ := 2 ^ 16
def STORAGE_ANCHOR_LOCKSTEP_WINDOW : ℕ := 12

/-- The network's settings, and the hash that folds one committed frame into a seat's chain: of the
    accumulator, the frame's number, its beacon and its root. -/
structure Rules where
  epochLengthFrames : ℕ+
  storageKickSuspensionEpoch : ℕ
  accumulate : Bytes32 → ℕ → List UInt8 → Bytes32 → Bytes32

/-- A committed frame: its number, its beacon and its root. -/
abbrev Commitment := ℕ × List UInt8 × Bytes32

variable (rules : Rules)

/-- The chain over `frames` from the start. -/
def chain (frames : List Commitment) : Bytes32 :=
  frames.foldl (fun acc c => rules.accumulate acc c.1 c.2.1 c.2.2) 0

def storageKicksSuspended (frame : ℕ) : Bool :=
  decide (rules.storageKickSuspensionEpoch ≤ epochForFrame rules.epochLengthFrames frame)

/-- The frames, from one and before the other, in which an epoch proof may settle `epoch`. -/
def settlementWindow (epoch : ℕ) : ℕ × ℕ :=
  let next := saturatingMul (saturatingAdd epoch 1) rules.epochLengthFrames
  (saturatingAdd (saturatingAdd next STORAGE_ANCHOR_LOCKSTEP_WINDOW) 1, saturatingAdd next rules.epochLengthFrames)

/-! ### Slots -/

/-- How a seat's epoch ended. -/
inductive Outcome where
  | «open»
  | settled (frame : ℕ)
  | expired (frame : ℕ)
deriving DecidableEq

/-- A root chained into a seat: the app frame that committed it, the GLOBAL frame whose beacon chose its
    openings, and the one that executed it. -/
structure Chained where
  frame : ℕ
  beacon : ℕ
  executed : ℕ
deriving DecidableEq

/-- A seat's record of one epoch. -/
structure SeatSlot where
  epoch : ℕ
  leaves : List (List ℕ)
  registeredAt : ℕ
  sealedAt : Option ℕ := none
  frames : ℕ := 0
  accumulator : Bytes32 := 0
  chained : List Chained := []
  expected : ℕ := 0
  countedThrough : ℕ := 0
  heldThrough : ℕ := 0
  pending : ℕ := 0
  outcome : Outcome := Outcome.open
deriving DecidableEq

namespace SeatSlot

def isSealed (slot : SeatSlot) : Bool := slot.sealedAt.isSome && !slot.leaves.isEmpty

/-- What settling pays of the held rewards when `timely` of the roots count as published. -/
def release (slot : SeatSlot) (timely : ℕ) : ℕ :=
  let published := min timely slot.frames * PROPOSAL
  if slot.expected = 0 ∨ slot.expected ≤ published then slot.pending
  else slot.pending * published / slot.expected

theorem release_le (slot : SeatSlot) (timely : ℕ) : slot.release timely ≤ slot.pending := by
  unfold release
  dsimp only
  split_ifs with h
  · exact le_rfl
  rw [not_or, not_le] at h
  refine Nat.div_le_of_le_mul ?_
  rw [mul_comm slot.expected]
  exact Nat.mul_le_mul_left _ h.2.le

/-- The slot of a registration. -/
def fresh (epoch : ℕ) (leaves : List (List ℕ)) (frame : ℕ) : SeatSlot :=
  { epoch := epoch, leaves := (leaves.insertionSort (· ≤ ·)).destutter (· ≠ ·), registeredAt := frame }

/-- The frame counted toward the proposals expected of a member of `committee`, once. -/
def count (slot : SeatSlot) (appFrame committee : ℕ) : SeatSlot :=
  if slot.countedThrough < appFrame then
    { slot with
      expected := saturatingAdd slot.expected (PROPOSAL / max committee 1)
      countedThrough := appFrame }
  else slot

/-- Whether the settlement window of an open slot ended before `frame`. -/
def isDue (slot : SeatSlot) (frame : ℕ) : Bool :=
  decide (slot.outcome = Outcome.open ∧ (settlementWindow rules slot.epoch).2 ≤ frame)

def close (frame : ℕ) (slot : SeatSlot) : SeatSlot :=
  if slot.isDue rules frame then { slot with outcome := .expired frame, chained := [] } else slot

theorem epoch_close (frame : ℕ) (slot : SeatSlot) : (slot.close rules frame).epoch = slot.epoch := by
  unfold close
  split <;> rfl

end SeatSlot

/-! ### Seats -/

/-- A member's seat on one shard, its slots ascending by epoch. -/
structure Seat where
  member : Bytes32
  filter : List UInt8
  slots : List SeatSlot
  ascending : slots.Pairwise fun a b => a.epoch < b.epoch

namespace Seat

/-- A seat without slots. -/
def new (member : Bytes32) (filter : List UInt8) : Seat := ⟨member, filter, [], .nil⟩

def slot (seat : Seat) (epoch : ℕ) : Option SeatSlot := seat.slots.find? (·.epoch == epoch)

theorem slot_eq_some {seat : Seat} {epoch : ℕ} {slot : SeatSlot} :
    seat.slot epoch = some slot ↔ slot ∈ seat.slots ∧ slot.epoch = epoch := by
  constructor
  · intro h
    exact ⟨mem_of_find?_eq_some h, by simpa using find?_some h⟩
  · rintro ⟨hmem, rfl⟩
    have hfound : (seat.slots.find? (·.epoch == slot.epoch)).isSome := find?_isSome.2 ⟨slot, hmem, by simp⟩
    obtain ⟨other, hother⟩ := Option.isSome_iff_exists.1 hfound
    have hepoch : other.epoch = slot.epoch := by simpa using find?_some hother
    have hkeys : (seat.slots.map (·.epoch)).Nodup := by
      rw [List.Nodup, pairwise_map]
      exact seat.ascending.imp ne_of_lt
    rw [Seat.slot, hother, inj_on_of_nodup_map hkeys (mem_of_find?_eq_some hother) hmem hepoch]

/-- The seat with `slot` in place of its epoch's. -/
def setSlot (seat : Seat) (slot : SeatSlot) : Seat :=
  { seat with
    slots := seat.slots.map fun old => if old.epoch = slot.epoch then slot else old
    ascending := by
      refine pairwise_map.2 (seat.ascending.imp fun {a b} hab => ?_)
      split_ifs <;> omega }

/-- Drop the slots two epochs past their own, and the oldest of more than `MAX_SLOTS`. -/
def prune (currentEpoch : ℕ) (seat : Seat) : Seat :=
  let kept := seat.slots.filter fun slot => decide (currentEpoch ≤ saturatingAdd slot.epoch 2)
  { seat with
    slots := kept.drop (kept.length - MAX_SLOTS)
    ascending := (seat.ascending.filter _).sublist (drop_sublist _ _) }

/-- The slots with a new one for `slot.epoch`, in order. -/
def replaceSlot (seat : Seat) (slot : SeatSlot) : Seat :=
  { seat with
    slots := (seat.slots.filter (fun old => decide (old.epoch ≠ slot.epoch)) ++ [slot]).insertionSort
      fun a b => a.epoch ≤ b.epoch
    ascending := by
      refine pairwise_lt_sortBy ?_
      rw [map_append, map_singleton, nodup_append]
      refine ⟨?_, nodup_singleton _, ?_⟩
      · rw [List.Nodup, pairwise_map]
        exact (seat.ascending.filter _).imp Nat.ne_of_lt
      · simp only [mem_map, mem_filter, mem_singleton, decide_eq_true_eq]
        rintro _ ⟨old, ⟨-, hne⟩, rfl⟩ _ rfl
        exact hne }

/-- Record a registration of `leaves` for `epoch` at GLOBAL frame `frame`, replacing an earlier one. -/
def register (epoch : ℕ) (leaves : List (List ℕ)) (frame : ℕ) (seat : Seat) : Seat :=
  (seat.replaceSlot (.fresh epoch leaves frame)).prune (epochForFrame rules.epochLengthFrames frame)

/-- Close every open slot whose settlement window ended: whether one of them had committed a root, and
    kicks are not suspended. -/
def expire (frame : ℕ) (seat : Seat) : Bool × Seat :=
  (seat.slots.any fun slot => slot.isDue rules frame && slot.frames != 0 && !storageKicksSuspended rules frame,
    { seat with
      slots := seat.slots.map (SeatSlot.close rules frame)
      ascending := pairwise_map.2 (by simpa only [SeatSlot.epoch_close] using seat.ascending) })

/-- Count a participant's app frame and hold `amount`, once per GLOBAL frame. -/
def hold (epoch frame appFrame : ℕ) (amount : ℤ) (committee : ℕ) (seat : Seat) : Bool × Seat :=
  match seat.slot epoch with
  | none => (false, seat)
  | some slot =>
    if !slot.isSealed ∨ slot.outcome ≠ Outcome.open then (false, seat)
    else
      let slot := slot.count appFrame committee
      if frame ≤ slot.heldThrough ∨ amount ≤ 0 then (false, seat.setSlot slot)
      else (true, seat.setSlot { slot with pending := slot.pending + amount.toNat, heldThrough := frame })

/-- Chain the root committed in app frame `frameNumber`. -/
def commit (epoch frameNumber beacon executed : ℕ) (rhoN : List UInt8) (root : Bytes32) (seat : Seat) :
    Bool × Seat :=
  match seat.slot epoch with
  | none => (false, seat)
  | some slot =>
    let last := (slot.chained.getLast?.map (·.frame)).getD 0
    if !slot.isSealed ∨ slot.outcome ≠ Outcome.open ∨ frameNumber ≤ last ∨ MAX_CHAINED ≤ slot.chained.length then
      (false, seat)
    else
      (true, seat.setSlot
        { slot with
          accumulator := rules.accumulate slot.accumulator frameNumber rhoN root
          frames := slot.frames + 1
          chained := slot.chained ++ [⟨frameNumber, beacon, executed⟩] })

/-- Whether `epoch` has chained exactly one root. -/
def firstCommitment (epoch : ℕ) (seat : Seat) : Bool := (seat.slot epoch).any (·.frames == 1)

/-- Mark `epoch`'s registration sealed at `frame`. -/
def markSealed (epoch frame : ℕ) (seat : Seat) : Bool × Seat :=
  match seat.slot epoch with
  | some slot =>
    if slot.sealedAt.isNone ∧ !slot.leaves.isEmpty then (true, seat.setSlot { slot with sealedAt := some frame })
    else (false, seat)
  | none => (false, seat)

/-- Settle `epoch` with `timely` roots published: the rewards it releases, none when it is not open. -/
def settle (epoch frame timely : ℕ) (seat : Seat) : Option ℕ × Seat :=
  match seat.slot epoch with
  | none => (none, seat)
  | some slot =>
    if slot.outcome ≠ Outcome.open then (none, seat)
    else
      let slot := { slot with outcome := .settled frame, chained := [] }
      (some (slot.release timely), seat.setSlot slot)

end Seat

/-! ### Runs -/

/-- The operations on a seat. -/
inductive Operation where
  | register (epoch : ℕ) (leaves : List (List ℕ)) (frame : ℕ)
  | markSealed (epoch frame : ℕ)
  | commit (epoch frameNumber beacon executed : ℕ) (rhoN : List UInt8) (root : Bytes32)
  | hold (epoch frame appFrame : ℕ) (amount : ℤ) (committee : ℕ)
  | settle (epoch frame timely : ℕ)
  | expire (frame : ℕ)
  | prune (currentEpoch : ℕ)
deriving DecidableEq

/-- What an operation answers. -/
inductive Answer where
  | done
  | flag (accepted : Bool)
  | released (amount : Option ℕ)
deriving DecidableEq

def perform (seat : Seat) : Operation → Seat × Answer
  | .register epoch leaves frame => (seat.register rules epoch leaves frame, .done)
  | .markSealed epoch frame => ((seat.markSealed epoch frame).2, .flag (seat.markSealed epoch frame).1)
  | .commit epoch frameNumber beacon executed rhoN root =>
    let r := seat.commit rules epoch frameNumber beacon executed rhoN root
    (r.2, .flag r.1)
  | .hold epoch frame appFrame amount committee =>
    let r := seat.hold epoch frame appFrame amount committee
    (r.2, .flag r.1)
  | .settle epoch frame timely => ((seat.settle epoch frame timely).2, .released (seat.settle epoch frame timely).1)
  | .expire frame => ((seat.expire rules frame).2, .flag (seat.expire rules frame).1)
  | .prune currentEpoch => (seat.prune currentEpoch, .done)

/-- What a call and its answer mean for one epoch. -/
inductive Event where
  | registered
  | committed (commitment : Commitment)
  | held (amount : ℕ)
  | paid (amount : ℕ)

/-- The event of `epoch` in a call with its answer: a registration, an accepted commitment, an amount
    accepted, or an amount paid. -/
def eventOf (epoch : ℕ) : Operation × Answer → Option Event
  | (.register e _ _, _) => if e = epoch then some .registered else none
  | (.commit e frameNumber _ _ rhoN root, .flag true) =>
    if e = epoch then some (.committed (frameNumber, rhoN, root)) else none
  | (.hold e _ _ amount _, .flag true) => if e = epoch then some (.held amount.toNat) else none
  | (.settle e _ _, .released (some amount)) => if e = epoch then some (.paid amount) else none
  | _ => none

def events (epoch : ℕ) (trace : List (Operation × Answer)) : List Event := trace.filterMap (eventOf epoch)

def Event.heldAmount : Event → ℕ
  | .held amount => amount
  | _ => 0

def Event.paidAmount : Event → ℕ
  | .paid amount => amount
  | _ => 0

/-- The total `hold` accepted for the epoch. -/
def heldTotal (epoch : ℕ) (trace : List (Operation × Answer)) : ℕ :=
  ((events epoch trace).map Event.heldAmount).sum

/-- The total `settle` paid for the epoch. -/
def paidTotal (epoch : ℕ) (trace : List (Operation × Answer)) : ℕ :=
  ((events epoch trace).map Event.paidAmount).sum

def accept (accepted : List Commitment) : Event → List Commitment
  | .registered => []
  | .committed commitment => accepted ++ [commitment]
  | _ => accepted

/-- The commitments accepted for the epoch since it was last registered. -/
def acceptedSince (epoch : ℕ) (trace : List (Operation × Answer)) : List Commitment :=
  (events epoch trace).foldl accept []

end Quil.StorageSeat
