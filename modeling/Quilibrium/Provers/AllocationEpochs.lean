import Quilibrium.Schemes.Run
import Quilibrium.Types

/-! A prover's allocation on one shard, over the epochs (`materialize.rs`, `verify.rs` and
    `quil-types/src/consensus.rs`). The stored record is a status byte and some frame numbers that the
    operations write; what the allocation counts as at a frame, its EFFECTIVE status, is derived from
    them. A join is confirmed in the epoch after it and takes effect in the one after that; a leave
    likewise. So the committee of a shard is meant to be FROZEN within an epoch. Proved here: it is,
    as long as no step gives up a seat or renews a lapsed one. -/

namespace Quil.AllocationEpochs
open Schemes List Option

/-- The status byte's values (`STATUS_*`). -/
def STATUS_JOINING : UInt8 := 0
def STATUS_ACTIVE : UInt8 := 1
def STATUS_PAUSED : UInt8 := 2
def STATUS_LEAVING : UInt8 := 3
def STATUS_KICKED : UInt8 := 4
def STATUS_HISTORIC : UInt8 := 6

/-- How long a recorded allocation keeps refusing a re-join of its filter. -/
def REJOIN_WINDOW_FRAMES : ℕ := 720

/-- The stored allocation record; a missing field is `none`. -/
structure Allocation where
  status : Option UInt8
  confirmationFilter : List UInt8
  joinFrameNumber : Option ℕ
  joinConfirmFrameNumber : Option ℕ
  joinRejectFrameNumber : Option ℕ
  leaveFrameNumber : Option ℕ
  leaveConfirmFrameNumber : Option ℕ
  leaveRejectFrameNumber : Option ℕ
  lastActiveFrameNumber : Option ℕ
  epoch : Option ℕ
deriving DecidableEq

inductive ProverStatus where
  | joining | active | paused | leaving | rejected | kicked | historic | unknown
deriving DecidableEq

inductive EffectiveStatus where
  | joining | active | paused | leaving | expiredJoining | expiredLeaving | expiredEpoch
  | rejected | kicked | historic | unknown
deriving DecidableEq

/-- The status a byte stands for. -/
def mapAllocationStatus (byte : UInt8) : ProverStatus :=
  if byte = 0 then .joining
  else if byte = 1 then .active
  else if byte = 2 then .paused
  else if byte = 3 then .leaving
  else if byte = 4 then .rejected
  else if byte = 5 then .kicked
  else if byte = 6 then .historic
  else .unknown

/-! ### Epochs and the effective status -/

variable (L : ℕ+)

/-- The storage epoch a frame belongs to. -/
def epochForFrame (frame : ℕ) : ℕ := frame / L

/-- What the allocation counts as at a frame. Rows without a status byte are not decoded. -/
def effectiveStatus (a : Allocation) (currentFrame : ℕ) : EffectiveStatus :=
  let currentEpoch := epochForFrame L currentFrame
  match (a.status.map mapAllocationStatus).getD .unknown with
  | .joining =>
    if 0 < a.joinFrameNumber.getD 0 ∧
        epochForFrame L (a.joinFrameNumber.getD 0) + 1 < currentEpoch then .expiredJoining
    else .joining
  | .active =>
    -- The global filter stores no shard data and has no epoch obligations.
    if a.confirmationFilter = [] then .active
    -- Deferred activation: the committee stays frozen until the next epoch.
    else if 0 < a.joinConfirmFrameNumber.getD 0 ∧
        currentEpoch < epochForFrame L (a.joinConfirmFrameNumber.getD 0) + 1 then .joining
    else if currentEpoch ≤ a.epoch.getD 0 then .active
    else .expiredEpoch
  | .paused => .paused
  | .leaving =>
    if 0 < a.leaveConfirmFrameNumber.getD 0 then
      if currentEpoch < epochForFrame L (a.leaveConfirmFrameNumber.getD 0) + 1 then .leaving
      else .expiredLeaving
    else if 0 < a.leaveFrameNumber.getD 0 ∧
        epochForFrame L (a.leaveFrameNumber.getD 0) + 1 < currentEpoch then .expiredLeaving
    else .leaving
  | .rejected => .rejected
  | .kicked => .kicked
  | .historic => .historic
  | .unknown => .unknown

/-! ### The operations -/

def invalid (message : String) : QuilError := .invalidArgument message

/-- A fresh allocation for a filter. -/
def createAllocationVertexTree (filter : List UInt8) (frame : ℕ) : Allocation where
  status := some STATUS_JOINING
  confirmationFilter := filter
  joinFrameNumber := some frame
  joinConfirmFrameNumber := none
  joinRejectFrameNumber := none
  leaveFrameNumber := none
  leaveConfirmFrameNumber := none
  leaveRejectFrameNumber := none
  lastActiveFrameNumber := none
  epoch := none

/-- A join's gate on the existing allocation: left, superseded, or joined long enough ago. -/
def verifyProverJoinAllocationsExpired (frame : ℕ) : Option Allocation → Except QuilError Unit
  | none => .ok ()
  | some a =>
    let status := a.status.getD 4
    if status = STATUS_KICKED ∨ status = STATUS_HISTORIC then .ok ()
    else
      match a.joinFrameNumber with
      | none => .error (invalid
          (s!"ProverJoin verify: existing allocation for filter is active (status={status}) " ++
            "with no JoinFrameNumber — refusing to rejoin"))
      | some joinFrame =>
        if frame < joinFrame + REJOIN_WINDOW_FRAMES then
          .error (invalid
            (s!"ProverJoin verify: existing allocation still active (status={status}, " ++
              s!"frames_since_join={frame - joinFrame})"))
        else .ok ()

/-- When a confirm (or a reject) of the allocation is timely. -/
def validateConfirmTiming (frame : ℕ) (a : Allocation) : Except QuilError Unit :=
  let status := a.status.getD 255
  let confirmEpoch := epochForFrame L frame
  if status = STATUS_JOINING then
    match a.joinFrameNumber with
    | none => .error (invalid "confirm: missing JoinFrameNumber")
    | some joinFrame =>
      let expect := epochForFrame L joinFrame + 1
      if confirmEpoch ≠ expect then
        .error (invalid
          (s!"confirm: join must be confirmed in epoch {expect} (join epoch " ++
            s!"{epochForFrame L joinFrame}), not epoch {confirmEpoch}"))
      else .ok ()
  else if status = STATUS_LEAVING then
    if a.leaveConfirmFrameNumber.getD 0 ≠ 0 then
      .error (invalid "confirm: leave already confirmed")
    else
      match a.leaveFrameNumber with
      | none => .error (invalid "confirm: missing LeaveFrameNumber")
      | some leaveFrame =>
        let expect := epochForFrame L leaveFrame + 1
        if confirmEpoch ≠ expect then
          .error (invalid
            (s!"confirm: leave must be confirmed in epoch {expect} (leave epoch " ++
              s!"{epochForFrame L leaveFrame}), not epoch {confirmEpoch}"))
        else .ok ()
  else if status = STATUS_ACTIVE then
    let epoch := a.epoch.getD 0
    if a.confirmationFilter = [] ∨ confirmEpoch < epoch then
      .error (invalid
        (s!"confirm: active re-confirm only for a data shard not already registered ahead (epoch " ++
          s!"{epoch} > confirm epoch {confirmEpoch}, empty_filter={a.confirmationFilter.isEmpty})"))
    else .ok ()
  else
    .error (invalid
      (s!"confirm: invalid allocation status {status} " ++
        "(expected 0=joining, 1=active re-confirm, or 3=leaving)"))

def materializeProverLeave (frame : ℕ) (a : Allocation) : Except QuilError Allocation :=
  let status := a.status.getD 0
  -- Can leave from active or paused.
  if status ≠ STATUS_ACTIVE ∧ status ≠ STATUS_PAUSED then
    .error (invalid
      s!"materialize leave: allocation status is {status} (expected 1=active or 2=paused)")
  else .ok { a with status := some STATUS_LEAVING, leaveFrameNumber := some frame }

/-- Confirm a join, renew an active registration one epoch ahead, or confirm a leave. -/
def materializeProverConfirm (frame : ℕ) (a : Allocation) : Except QuilError Allocation :=
  let status := a.status.getD 255
  let nextEpoch := epochForFrame L frame + 1
  if status = STATUS_JOINING then
    .ok { a with
      status := some STATUS_ACTIVE
      joinConfirmFrameNumber := some frame
      lastActiveFrameNumber := some frame
      epoch := some nextEpoch }
  else if status = STATUS_ACTIVE then
    .ok { a with lastActiveFrameNumber := some frame, epoch := some nextEpoch }
  else if status = STATUS_LEAVING then
    .ok { a with leaveConfirmFrameNumber := some frame }
  else
    .error (invalid
      (s!"materialize confirm: allocation status is {status} " ++
        "(expected 0=joining, 1=active re-confirm, or 3=leaving)"))

/-- Reject a join, or take back a leave: the registered epoch stays what it was. -/
def materializeProverReject (frame : ℕ) (a : Allocation) : Except QuilError Allocation :=
  let status := a.status.getD 255
  if status = STATUS_JOINING then
    .ok { a with status := some STATUS_KICKED, joinRejectFrameNumber := some frame }
  else if status = STATUS_LEAVING then
    .ok { a with
      status := some STATUS_ACTIVE
      leaveRejectFrameNumber := some frame
      lastActiveFrameNumber := some frame }
  else
    .error (invalid
      s!"materialize reject: allocation status is {status} (expected 0=joining or 3=leaving)")

/-- What can be done to an allocation: a confirm is a join's, a renewal or a leave's, a reject a
    join's or a leave's, by the status it meets. -/
inductive Op where
  | join | confirm | leave | reject
deriving DecidableEq

/-- One operation of the shard `filter` at a frame, as admitted and then materialized. -/
def apply (filter : List UInt8) (s : Option Allocation) (frame : ℕ) :
    Op → Except QuilError Allocation
  | .join => do
    verifyProverJoinAllocationsExpired frame s
    return createAllocationVertexTree filter frame
  | op => do
    match s with
    | none => .error (invalid "invoke_step: allocation not found")
    | some a =>
      match op with
      | .leave => materializeProverLeave frame a
      | .confirm => do
        validateConfirmTiming L frame a
        materializeProverConfirm L frame a
      | _ => do
        validateConfirmTiming L frame a
        materializeProverReject frame a

/-- A refused operation leaves the allocation as it was. -/
def step (filter : List UInt8) (s : Option Allocation) (call : ℕ × Op) :
    Option Allocation × Option QuilError :=
  match apply L filter s call.1 call.2 with
  | .ok a => (some a, none)
  | .error e => (s, some e)

/-! ### Who counts in an epoch -/

/-- The allocation is a member of its shard's committee at a frame. -/
def Member (s : Option Allocation) (frame : ℕ) : Prop :=
  ∃ a, s = some a ∧ (effectiveStatus L a frame = .active ∨ effectiveStatus L a frame = .leaving)

/-- An active allocation serves an epoch: activated by then, and registered for it. -/
def Serves (a : Allocation) (e : ℕ) : Prop :=
  (0 < a.joinConfirmFrameNumber.getD 0 → epochForFrame L (a.joinConfirmFrameNumber.getD 0) < e) ∧
    e ≤ a.epoch.getD 0

/-- A leaving allocation still serves notice in an epoch. -/
def Notice (a : Allocation) (e : ℕ) : Prop :=
  if 0 < a.leaveConfirmFrameNumber.getD 0 then e ≤ epochForFrame L (a.leaveConfirmFrameNumber.getD 0)
  else 0 < a.leaveFrameNumber.getD 0 → e ≤ epochForFrame L (a.leaveFrameNumber.getD 0) + 1

variable {L}

theorem counts_active {a : Allocation} (hstatus : a.status = some STATUS_ACTIVE)
    (hfilter : a.confirmationFilter ≠ []) (frame : ℕ) :
    (effectiveStatus L a frame = .active ∨ effectiveStatus L a frame = .leaving) ↔
      Serves L a (epochForFrame L frame) := by
  have hmap : mapAllocationStatus STATUS_ACTIVE = .active := rfl
  rw [effectiveStatus, hstatus, map_some, getD_some, hmap]
  dsimp only
  rw [if_neg hfilter, Serves]
  split_ifs with hdeferred hregistered
  all_goals
    simp
    omega

theorem counts_leaving {a : Allocation} (hstatus : a.status = some STATUS_LEAVING) (frame : ℕ) :
    (effectiveStatus L a frame = .active ∨ effectiveStatus L a frame = .leaving) ↔
      Notice L a (epochForFrame L frame) := by
  have hmap : mapAllocationStatus STATUS_LEAVING = .leaving := rfl
  rw [effectiveStatus, hstatus, map_some, getD_some, hmap, Notice]
  dsimp only
  split_ifs with hconfirmed hin hlate
  all_goals
    simp
    omega

variable {frame : ℕ}

theorem counts_status {a : Allocation}
    (h : effectiveStatus L a frame = .active ∨ effectiveStatus L a frame = .leaving) :
    a.status = some STATUS_ACTIVE ∨ a.status = some STATUS_LEAVING := by
  rw [effectiveStatus] at h
  rcases hs : a.status with _ | byte
  · simp [hs] at h
  rw [hs, map_some, getD_some, mapAllocationStatus] at h
  by_cases hactive : byte = 1
  · exact .inl (congrArg some hactive)
  by_cases hleaving : byte = 3
  · exact .inr (congrArg some hleaving)
  · rw [if_neg hactive, if_neg hleaving] at h
    split_ifs at h <;> simp at h

/-! ### What an accepted operation does -/

/-- The accepted operations, by the status they meet. -/
inductive Applies (L : ℕ+) (filter : List UInt8) (s : Option Allocation) (frame : ℕ) :
    Op → Allocation → Prop where
  | join (gate : verifyProverJoinAllocationsExpired frame s = .ok ()) :
      Applies L filter s frame .join (createAllocationVertexTree filter frame)
  | confirmJoin {a joinFrame} (found : s = some a) (status : a.status = some STATUS_JOINING)
      (joined : a.joinFrameNumber = some joinFrame)
      (timely : epochForFrame L frame = epochForFrame L joinFrame + 1) :
      Applies L filter s frame .confirm { a with
        status := some STATUS_ACTIVE
        joinConfirmFrameNumber := some frame
        lastActiveFrameNumber := some frame
        epoch := some (epochForFrame L frame + 1) }
  | renew {a} (found : s = some a) (status : a.status = some STATUS_ACTIVE)
      (data : a.confirmationFilter ≠ []) (behind : a.epoch.getD 0 ≤ epochForFrame L frame) :
      Applies L filter s frame .confirm { a with
        lastActiveFrameNumber := some frame
        epoch := some (epochForFrame L frame + 1) }
  | confirmLeave {a leaveFrame} (found : s = some a) (status : a.status = some STATUS_LEAVING)
      (unconfirmed : a.leaveConfirmFrameNumber.getD 0 = 0)
      (left : a.leaveFrameNumber = some leaveFrame)
      (timely : epochForFrame L frame = epochForFrame L leaveFrame + 1) :
      Applies L filter s frame .confirm { a with leaveConfirmFrameNumber := some frame }
  | leave {a} (found : s = some a)
      (status : a.status = some STATUS_ACTIVE ∨ a.status = some STATUS_PAUSED) :
      Applies L filter s frame .leave { a with
        status := some STATUS_LEAVING
        leaveFrameNumber := some frame }
  | rejectJoin {a} (found : s = some a) (status : a.status = some STATUS_JOINING) :
      Applies L filter s frame .reject { a with
        status := some STATUS_KICKED
        joinRejectFrameNumber := some frame }
  | rejectLeave {a leaveFrame} (found : s = some a) (status : a.status = some STATUS_LEAVING)
      (unconfirmed : a.leaveConfirmFrameNumber.getD 0 = 0)
      (left : a.leaveFrameNumber = some leaveFrame)
      (timely : epochForFrame L frame = epochForFrame L leaveFrame + 1) :
      Applies L filter s frame .reject { a with
        status := some STATUS_ACTIVE
        leaveRejectFrameNumber := some frame
        lastActiveFrameNumber := some frame }

theorem getD_status {a : Allocation} {status : UInt8} (h : a.status = some status) : a.status.getD 255 = status := by
  rw [h, getD_some]

theorem status_eq_some {a : Allocation} {d b : UInt8} (hd : d ≠ b) (h : a.status.getD d = b) : a.status = some b := by
  rcases hs : a.status with _ | c
  · rw [hs] at h
    exact absurd h hd
  rw [hs, getD_some] at h
  rw [h]

/-- What a timely confirm or reject can meet. -/
theorem validateConfirmTiming_ok {a : Allocation} (h : validateConfirmTiming L frame a = .ok ()) :
    (a.status = some STATUS_JOINING ∧ ∃ joinFrame, a.joinFrameNumber = some joinFrame ∧
      epochForFrame L frame = epochForFrame L joinFrame + 1) ∨
    (a.status = some STATUS_LEAVING ∧ a.leaveConfirmFrameNumber.getD 0 = 0 ∧
      ∃ leaveFrame, a.leaveFrameNumber = some leaveFrame ∧ epochForFrame L frame = epochForFrame L leaveFrame + 1) ∨
    (a.status = some STATUS_ACTIVE ∧ a.confirmationFilter ≠ [] ∧ a.epoch.getD 0 ≤ epochForFrame L frame) := by
  rw [validateConfirmTiming] at h
  dsimp only at h
  split_ifs at h with hjoining hleaving hconfirmed hactive hahead
  · left
    rcases hjoined : a.joinFrameNumber with _ | joinFrame
    · simp [hjoined] at h
    rw [hjoined] at h
    dsimp only at h
    split_ifs at h with hepoch
    exact ⟨status_eq_some (by decide) hjoining, joinFrame, rfl, not_not.1 hepoch⟩
  · right; left
    rcases hleft : a.leaveFrameNumber with _ | leaveFrame
    · simp [hleft] at h
    rw [hleft] at h
    dsimp only at h
    split_ifs at h with hepoch
    exact ⟨status_eq_some (by decide) hleaving, not_not.1 hconfirmed, leaveFrame, rfl, not_not.1 hepoch⟩
  · right; right
    rw [not_or] at hahead
    exact ⟨status_eq_some (by decide) hactive, hahead.1, Nat.le_of_not_lt hahead.2⟩

variable {s : Option Allocation} {filter : List UInt8} {a' : Allocation}

theorem applies_of_ok {op : Op} (h : apply L filter s frame op = .ok a') : Applies L filter s frame op a' := by
  cases op with
  | join =>
    obtain ⟨⟨⟩, hgate, h⟩ := bind_ok h
    cases h
    exact .join hgate
  | leave =>
    rcases s with _ | a
    · cases h
    change materializeProverLeave frame a = .ok a' at h
    rw [materializeProverLeave] at h
    split_ifs at h with hstatus
    cases h
    refine .leave rfl ?_
    rw [not_and_or, not_not, not_not] at hstatus
    exact hstatus.imp (status_eq_some (by decide)) (status_eq_some (by decide))
  | confirm =>
    rcases s with _ | a
    · cases h
    obtain ⟨⟨⟩, htiming, h⟩ := bind_ok h
    rw [materializeProverConfirm] at h
    rcases validateConfirmTiming_ok htiming with ⟨hstatus, f, hf, htimely⟩ |
      ⟨hstatus, hunconfirmed, f, hf, htimely⟩ | ⟨hstatus, hdata, hbehind⟩
    all_goals
      rw [getD_status hstatus] at h
      cases h
    · exact .confirmJoin rfl hstatus hf htimely
    · exact .confirmLeave rfl hstatus hunconfirmed hf htimely
    · exact .renew rfl hstatus hdata hbehind
  | reject =>
    rcases s with _ | a
    · cases h
    obtain ⟨⟨⟩, htiming, h⟩ := bind_ok h
    rw [materializeProverReject] at h
    rcases validateConfirmTiming_ok htiming with ⟨hstatus, f, hf, htimely⟩ |
      ⟨hstatus, hunconfirmed, f, hf, htimely⟩ | ⟨hstatus, hdata, hbehind⟩
    all_goals
      rw [getD_status hstatus] at h
      cases h
    · exact .rejectJoin rfl hstatus
    · exact .rejectLeave rfl hstatus hunconfirmed hf htimely

/-! ### Within an epoch -/

/-- An operation that neither gives up a seat nor takes one within the epoch: no member re-joins; who
    leaves is a member without the confirm of an earlier leave; a leave is taken back only by an
    allocation registered for the epoch; and no lapsed registration is renewed. -/
def Steady (L : ℕ+) (s : Option Allocation) (frame : ℕ) : Op → Prop
  | .join => ¬ Member L s frame
  | .leave => Member L s frame ∧ ∀ a, s = some a → a.leaveConfirmFrameNumber.getD 0 = 0
  | .confirm => ∀ a, s = some a → effectiveStatus L a frame ≠ .expiredEpoch
  | .reject => ∀ a, s = some a → a.status = some STATUS_LEAVING → Serves L a (epochForFrame L frame)

/-- Every record is of a data shard. -/
def DataShard (s : Option Allocation) : Prop := ∀ a, s = some a → a.confirmationFilter ≠ []

theorem effectiveStatus_congr {frame' : ℕ} (h : epochForFrame L frame = epochForFrame L frame')
    (a : Allocation) : effectiveStatus L a frame = effectiveStatus L a frame' := by
  rw [effectiveStatus, effectiveStatus, h]

theorem member_congr {frame' : ℕ} (h : epochForFrame L frame = epochForFrame L frame')
    (s : Option Allocation) : Member L s frame ↔ Member L s frame' := by
  simp only [Member, effectiveStatus_congr h]

theorem frame_pos {e : ℕ} (h : epochForFrame L frame = e + 1) : 0 < frame := by
  rcases Nat.eq_zero_or_pos frame with rfl | hpos
  · rw [epochForFrame, Nat.zero_div] at h
    cases h
  · exact hpos

theorem member_some {a : Allocation} : Member L (some a) frame ↔
      (effectiveStatus L a frame = .active ∨ effectiveStatus L a frame = .leaving) := by
  constructor
  · rintro ⟨a', ⟨⟩, h⟩
    exact h
  · exact fun h => ⟨a, rfl, h⟩

theorem not_member_of_status {a : Allocation} {b : UInt8} (hstatus : a.status = some b)
    (hb : b ≠ STATUS_ACTIVE ∧ b ≠ STATUS_LEAVING) : ¬ Member L (some a) frame := by
  rintro ⟨a', ⟨⟩, h⟩
  rcases counts_status h with hs | hs
  · exact hb.1 (Option.some.inj (hstatus.symm.trans hs))
  · exact hb.2 (Option.some.inj (hstatus.symm.trans hs))

theorem dataShard_applies (hfilter : filter ≠ []) {op : Op}
    (hdata : DataShard s) (h : Applies L filter s frame op a') : DataShard (some a') := by
  rintro _ ⟨⟩
  cases h with
  | join => exact hfilter
  | confirmJoin found | renew found | confirmLeave found | leave found | rejectJoin found | rejectLeave found =>
    exact (hdata _ found :)

/-- An active allocation whose registration is behind has lapsed. -/
theorem lapsed_of_behind {a : Allocation} (hstatus : a.status = some STATUS_ACTIVE)
    (hfilter : a.confirmationFilter ≠ []) (hactivated : 0 < a.joinConfirmFrameNumber.getD 0 →
      epochForFrame L (a.joinConfirmFrameNumber.getD 0) < epochForFrame L frame)
    (hbehind : a.epoch.getD 0 < epochForFrame L frame) : effectiveStatus L a frame = .expiredEpoch := by
  have hmap : mapAllocationStatus STATUS_ACTIVE = .active := rfl
  rw [effectiveStatus, hstatus, map_some, getD_some, hmap]
  dsimp only
  rw [if_neg hfilter, if_neg (by omega), if_neg (by omega)]

/-- An unconfirmed leave keeps serving notice through the epoch after it. -/
theorem notice_of_unconfirmed {a : Allocation} {leaveFrame e : ℕ}
    (hunconfirmed : a.leaveConfirmFrameNumber.getD 0 = 0) (hleft : a.leaveFrameNumber = some leaveFrame)
    (he : e ≤ epochForFrame L leaveFrame + 1) : Notice L a e := by
  rw [Notice, if_neg (by omega), hleft]
  exact fun _ => he

/-- A steady operation changes nobody's membership in its epoch. -/
theorem member_applies {op : Op} (hdata : DataShard s) (h : Applies L filter s frame op a')
    (hsteady : Steady L s frame op) : Member L (some a') frame ↔ Member L s frame := by
  cases h with
  | join => exact iff_of_false (not_member_of_status rfl (by decide)) hsteady
  | @confirmJoin a joinFrame found status joined timely =>
    subst found
    refine iff_of_false (fun hmember => ?_) (not_member_of_status status (by decide))
    rw [member_some, counts_active rfl (by exact hdata a rfl)] at hmember
    exact absurd (hmember.1 (frame_pos timely)) (lt_irrefl _)
  | @renew a found status data behind =>
    subst found
    rw [member_some, member_some, counts_active (by exact status) (by exact data), counts_active status data]
    -- the renewal registers ahead; only a lapsed allocation was not registered before
    refine and_congr_right fun hactivated => iff_of_true (Nat.le_succ _) ?_
    by_contra hbehind
    exact hsteady a rfl (lapsed_of_behind status data hactivated (Nat.lt_of_not_le hbehind))
  | @confirmLeave a leaveFrame found status unconfirmed left timely =>
    subst found
    rw [member_some, member_some, counts_leaving (by exact status), counts_leaving status]
    refine iff_of_true ?_ (notice_of_unconfirmed unconfirmed left timely.le)
    rw [Notice, if_pos (by exact frame_pos timely)]
    exact le_rfl
  | @leave a found status =>
    subst found
    refine iff_of_true ?_ hsteady.1
    rw [member_some, counts_leaving rfl]
    exact notice_of_unconfirmed (hsteady.2 a rfl) rfl (Nat.le_succ _)
  | rejectJoin found status =>
    subst found
    exact iff_of_false (not_member_of_status rfl (by decide)) (not_member_of_status status (by decide))
  | @rejectLeave a leaveFrame found status unconfirmed left timely =>
    subst found
    rw [member_some, member_some, counts_active rfl (by exact hdata a rfl), counts_leaving status]
    exact iff_of_true (hsteady a rfl status) (notice_of_unconfirmed unconfirmed left timely.le)

/-! ### Whole runs -/

section

/-- Accepted calls are steady. -/
def Steadily (L : ℕ+) (filter : List UInt8) (s : Option Allocation) (call : ℕ × Op) : Prop :=
  ∀ a, apply L filter s call.1 call.2 = .ok a → Steady L s call.1 call.2

theorem dataShard_step (hfilter : filter ≠ []) (hdata : DataShard s)
    (call : ℕ × Op) : DataShard (step L filter s call).1 := by
  rw [step]
  cases happly : apply L filter s call.1 call.2 with
  | error e => exact hdata
  | ok a => exact dataShard_applies hfilter hdata (applies_of_ok happly)

theorem member_step (hdata : DataShard s) {call : ℕ × Op} (hsteady : Steadily L filter s call) :
    Member L (step L filter s call).1 call.1 ↔ Member L s call.1 := by
  rw [step]
  cases happly : apply L filter s call.1 call.2 with
  | error e => exact Iff.rfl
  | ok a => exact member_applies hdata (applies_of_ok happly) (hsteady a happly)

/-- Steady calls of one epoch change nobody's membership in it. -/
theorem member_run (hfilter : filter ≠ []) {e : ℕ} (hframe : epochForFrame L frame = e) (hdata : DataShard s)
    {calls : List (ℕ × Op)} (hepoch : ∀ call ∈ calls, epochForFrame L call.1 = e)
    (hsteady : RunMeets (step L filter) (Steadily L filter) s calls) :
    Member L (run (step L filter) s calls).1 frame ↔ Member L s frame := by
  induction calls generalizing s with
  | nil => exact Iff.rfl
  | cons call calls ih =>
    obtain ⟨hcall, hepoch⟩ := forall_mem_cons.1 hepoch
    have hsame := hframe.trans hcall.symm
    rw [run_cons, ih (dataShard_step hfilter hdata call) hepoch hsteady.2, member_congr hsame,
      member_step hdata hsteady.1, member_congr hsame]

/-- A leave proposed in epoch `e` and not confirmed. -/
def OnNotice (L : ℕ+) (s : Option Allocation) (e : ℕ) : Prop :=
  ∃ a leaveFrame, s = some a ∧ a.status = some STATUS_LEAVING ∧
    a.leaveConfirmFrameNumber.getD 0 = 0 ∧ a.leaveFrameNumber = some leaveFrame ∧
    epochForFrame L leaveFrame = e

theorem OnNotice.member {e : ℕ} (h : OnNotice L s e) (hframe : epochForFrame L frame ≤ e + 1) : Member L s frame := by
  obtain ⟨a, leaveFrame, rfl, hstatus, hunconfirmed, hleft, rfl⟩ := h
  rw [member_some, counts_leaving hstatus]
  exact notice_of_unconfirmed hunconfirmed hleft hframe

/-- In the epoch it was proposed in, nothing steady changes a leave. -/
theorem OnNotice.step_eq {e : ℕ} (h : OnNotice L s e) {call : ℕ × Op} (hcall : epochForFrame L call.1 = e)
    (hsteady : Steadily L filter s call) : (step L filter s call).1 = s := by
  have hmember : Member L s call.1 := h.member (by omega)
  obtain ⟨a, leaveFrame, rfl, hstatus, -, hleft, he⟩ := h
  rw [step]
  rcases happly : apply L filter (some a) call.1 call.2 with e | a'
  · rfl
  have hok := hsteady a' happly
  have hcase := applies_of_ok happly
  generalize call.2 = op at hok hcase
  cases hcase with
  | join => exact absurd hmember hok
  | confirmJoin found status | renew found status | rejectJoin found status =>
    cases found; cases hstatus.symm.trans status
  | confirmLeave found _ _ left timely | rejectLeave found _ _ left timely =>
    cases found
    cases hleft.symm.trans left
    omega
  | leave found status =>
    cases found
    rcases status with status | status
    · cases hstatus.symm.trans status
    · cases hstatus.symm.trans status

/-- So a leave keeps its allocation a member through the epoch after it. -/
theorem OnNotice.member_run (hfilter : filter ≠ []) {e : ℕ} (h : OnNotice L s e) (hdata : DataShard s)
    (hframe : epochForFrame L frame ≤ e + 1) {calls : List (ℕ × Op)} (hsorted : calls.Pairwise fun c c' => c.1 ≤ c'.1)
    (hcalls : ∀ call ∈ calls, e ≤ epochForFrame L call.1 ∧ call.1 ≤ frame)
    (hsteady : RunMeets (step L filter) (Steadily L filter) s calls) :
    Member L (run (step L filter) s calls).1 frame := by
  induction calls generalizing s with
  | nil => exact h.member hframe
  | cons call calls ih =>
    obtain ⟨hcall, hrest⟩ := forall_mem_cons.1 hcalls
    obtain ⟨hfirst, hsorted⟩ := pairwise_cons.1 hsorted
    have hlate : epochForFrame L call.1 ≤ epochForFrame L frame := Nat.div_le_div_right hcall.2
    rcases lt_or_ge e (epochForFrame L call.1) with hnext | hsame
    · -- the run has reached the next epoch, where the leave is a member and stays one
      refine (AllocationEpochs.member_run hfilter rfl hdata (fun c hc => ?_) hsteady).2 (h.member hframe)
      have hbetween : epochForFrame L call.1 ≤ epochForFrame L c.1 ∧
          epochForFrame L c.1 ≤ epochForFrame L frame := by
        rcases mem_cons.1 hc with rfl | hc
        · exact ⟨le_rfl, hlate⟩
        · exact ⟨Nat.div_le_div_right (hfirst c hc), Nat.div_le_div_right (hrest c hc).2⟩
      omega
    have hstep := h.step_eq (le_antisymm hsame hcall.1) hsteady.1
    rw [run_cons]
    have hmeets := hsteady.2
    rw [hstep] at hmeets ⊢
    exact ih h hdata hsorted hrest hmeets

theorem dataShard_run (hfilter : filter ≠ []) (hdata : DataShard s)
    (calls : List (ℕ × Op)) : DataShard (run (step L filter) s calls).1 := by
  induction calls generalizing s with
  | nil => exact hdata
  | cons call calls ih => exact ih (dataShard_step hfilter hdata call)

end

/-- For every data-shard allocation and every sequence of operations at non-decreasing frames whose
    accepted ones are steady: between any two points of one epoch — in particular from its first frame
    on — the allocation is a member at both or at neither; and from a leave on it stays a member
    through the whole epoch after the one the leave was proposed in. -/
theorem membership_frozen_within_epoch (L : ℕ+) {filter : List UInt8} (hfilter : filter ≠ [])
    {s : Option Allocation} (hdata : DataShard s) {calls : List (ℕ × Op)}
    (hsorted : calls.Pairwise fun c c' => c.1 ≤ c'.1)
    (hsteady : RunMeets (step L filter) (Steadily L filter) s calls) :
    (∀ before inside after, calls = before ++ inside ++ after →
      ∀ frame frame', epochForFrame L frame = epochForFrame L frame' →
        (∀ call ∈ inside, frame ≤ call.1 ∧ call.1 ≤ frame') →
        (Member L (run (step L filter) s before).1 frame ↔
          Member L (run (step L filter) s (before ++ inside)).1 frame')) ∧
    ∀ before leaveFrame inside after a,
      calls = before ++ (leaveFrame, .leave) :: inside ++ after →
      apply L filter (run (step L filter) s before).1 leaveFrame .leave = .ok a →
      ∀ frame, (∀ call ∈ inside, call.1 ≤ frame) →
        epochForFrame L frame ≤ epochForFrame L leaveFrame + 1 →
        Member L (run (step L filter) s (before ++ (leaveFrame, .leave) :: inside)).1 frame := by
  constructor
  · rintro before inside after rfl frame frame' hepoch hinside
    have hmeets := ((runMeets_append _ _ _ _).1 ((runMeets_append _ _ _ _).1 hsteady).1).2
    have hsame : ∀ call ∈ inside, epochForFrame L call.1 = epochForFrame L frame' := by
      intro call hcall
      have hlow : epochForFrame L frame ≤ epochForFrame L call.1 :=
        Nat.div_le_div_right (hinside call hcall).1
      have hhigh : epochForFrame L call.1 ≤ epochForFrame L frame' :=
        Nat.div_le_div_right (hinside call hcall).2
      omega
    rw [run_append, member_run hfilter rfl (dataShard_run hfilter hdata before) hsame hmeets, member_congr hepoch]
  · rintro before leaveFrame inside after a rfl hleave frame hinside hepoch
    have hmeets := ((runMeets_append _ _ _ _).1 ((runMeets_append _ _ _ _).1 hsteady).1).2
    have hstep : step L filter (run (step L filter) s before).1 (leaveFrame, .leave) = (some a, none) := by
      rw [step, hleave]
    obtain ⟨hcall, hrest⟩ := hmeets
    rw [hstep] at hrest
    have hdata' : DataShard (some a) :=
      dataShard_applies hfilter (dataShard_run hfilter hdata before) (applies_of_ok hleave)
    have hnotice : OnNotice L (some a) (epochForFrame L leaveFrame) := by
      have hok := (hcall a hleave).2
      cases applies_of_ok hleave with
      | leave found status => exact ⟨_, leaveFrame, rfl, rfl, (hok _ found :), rfl, rfl⟩
    rw [append_assoc, pairwise_append] at hsorted
    obtain ⟨hge, hsorted⟩ := pairwise_cons.1 hsorted.2.1
    rw [run_append, run_cons, hstep]
    refine hnotice.member_run hfilter hdata' hepoch (pairwise_append.1 hsorted).1
      (fun call hc => ⟨?_, hinside call hc⟩) hrest
    exact Nat.div_le_div_right (hge call (mem_append_left _ hc))

/-! ### One allocation's life -/

/-- Mainnet's epochs. -/
def EPOCH_LENGTH_FRAMES : ℕ+ := 720

/-- A join, its confirm, a renewal, a leave and its confirm. -/
def joinAndLeave : List (ℕ × Op) :=
  [(1, .join), (720, .confirm), (1450, .confirm), (2170, .leave), (2900, .confirm)]

instance (s : Option Allocation) (frame : ℕ) : Decidable (Member L s frame) :=
  match s with
  | none => .isFalse (by rintro ⟨a, ⟨⟩, -⟩)
  | some a => decidable_of_iff _ member_some.symm

/-- Every step of it is steady. -/
theorem joinAndLeave_steady :
    RunMeets (step EPOCH_LENGTH_FRAMES [1]) (Steadily EPOCH_LENGTH_FRAMES [1]) none joinAndLeave := by
  refine ⟨fun _ _ => ?_, fun _ _ => ?_, fun _ _ => ?_, fun _ _ => ⟨?_, ?_⟩, fun _ _ => ?_, trivial⟩
  · rintro ⟨a, ⟨⟩, -⟩
  · rintro a ⟨⟩
    decide
  · rintro a ⟨⟩
    decide
  · decide
  · rintro a ⟨⟩
    decide
  · rintro a ⟨⟩
    decide

/-- A member to the last frame of epoch 4, and not after; and on notice at the end of the epoch it leaves in. -/
theorem joinAndLeave_serves :
    Member EPOCH_LENGTH_FRAMES (run (step EPOCH_LENGTH_FRAMES [1]) none joinAndLeave).1 3599 ∧
      ¬ Member EPOCH_LENGTH_FRAMES (run (step EPOCH_LENGTH_FRAMES [1]) none joinAndLeave).1 3600 ∧
      Member EPOCH_LENGTH_FRAMES (run (step EPOCH_LENGTH_FRAMES [1]) none (joinAndLeave.take 4)).1 2879 := by
  obtain ⟨hfrozen, hnotice⟩ := @membership_frozen_within_epoch EPOCH_LENGTH_FRAMES [1] (by decide) none
    (by rintro a ⟨⟩) joinAndLeave (by decide) joinAndLeave_steady
  exact ⟨(hfrozen joinAndLeave.dropLast [(2900, .confirm)] [] rfl 2880 3599 (by decide) (by decide)).1 (by decide),
    by decide, hnotice (joinAndLeave.take 3) 2170 [] [(2900, .confirm)] _ rfl rfl 2879 (by decide) (by decide)⟩

/-- A leave taken back by an allocation that did not renew, and then the renewal. -/
def takenBack : List (ℕ × Op) := [(1, .join), (720, .confirm), (1450, .leave), (2170, .reject),
  (2180, .confirm)]

/-- It is a member at the first frame of epoch 3, no member after the leave is rejected, and a member
    again once it renews, all in one epoch. -/
theorem takenBack_thaws :
    (∀ reply ∈ (run (step EPOCH_LENGTH_FRAMES [1]) none takenBack).2, reply.2 = none) ∧
    Member EPOCH_LENGTH_FRAMES (run (step EPOCH_LENGTH_FRAMES [1]) none (takenBack.take 3)).1 2160 ∧
    ¬ Member EPOCH_LENGTH_FRAMES (run (step EPOCH_LENGTH_FRAMES [1]) none (takenBack.take 4)).1 2170 ∧
    Member EPOCH_LENGTH_FRAMES (run (step EPOCH_LENGTH_FRAMES [1]) none takenBack).1 2180 := by
  refine ⟨?_, ?_, ?_, ?_⟩ <;> decide

end Quil.AllocationEpochs
