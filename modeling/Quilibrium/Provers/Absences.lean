import Quilibrium.Provers.Rings

/-! Counting the frames a committee member missed (`record_committee_absence`). Each header GLOBAL executes
    resets the count of the members that signed or produced its frame and adds one to the others', unless
    the frame's NUMBER is not above the one counted last. The count is compared with the history it stands
    for: the frames of the allocation's shard, each at its first execution, missed since the member last
    signed one or arrived. It is exact in every state of a history IF AND ONLY IF every event finds the
    allocations it touches as the guard by number expects them — and a move does not: it carries the count
    and the number of the shard it leaves, whose frames are numbered on their own. -/

namespace Quil.Absences
open Schemes Rings List
open AllocationEpochs (epochForFrame)

def ABSENCE_PENALTY_GRACE_FRAMES : ℕ := 720
def ABSENCE_PENALTY_PER_FRAME : ℕ := 10

/-- What the network fixes: the epochs, the addresses of allocations and the shards' filters, no two of
    which share an address. -/
structure Rules where
  epochLength : ℕ+
  penaltyEpoch : ℕ
  successionEpoch : ℕ
  allocationAddress : Bytes → Bytes → Bytes
  shards : List Bytes
  apart : ∀ publicKey, ∀ a ∈ shards, ∀ b ∈ shards,
    allocationAddress publicKey a = allocationAddress publicKey b → a = b

abbrev Rules.Shard (rules : Rules) : Type := { filter : Bytes // filter ∈ rules.shards }

/-- Where a key's allocation on a shard is kept. -/
def Rules.slot (rules : Rules) (publicKey : Bytes) (shard : rules.Shard) : Bytes × Bytes :=
  (publicKey, rules.allocationAddress publicKey shard.1)

theorem Rules.slot_inj {rules : Rules} {key key' : Bytes} {shard shard' : rules.Shard} :
    rules.slot key shard = rules.slot key' shard' ↔ key = key' ∧ shard = shard' := by
  constructor
  · intro h
    obtain ⟨rfl, haddr⟩ := Prod.mk.inj h
    exact ⟨rfl, Subtype.ext (rules.apart key _ shard.2 _ shard'.2 haddr)⟩
  · rintro ⟨rfl, rfl⟩
    rfl

def Rules.seniorityPenaltiesAt (rules : Rules) (epoch : ℕ) : Bool :=
  max rules.penaltyEpoch rules.successionEpoch ≤ epoch

structure Prover where
  seniority : ℕ
  seniorityPenalty : ℕ
deriving DecidableEq, Repr

structure State where
  allocations : Allocations
  provers : Store Bytes Prover

structure Member where
  publicKey : Bytes
  address : Bytes
deriving DecidableEq, Repr

/-- A shard's header in a GLOBAL frame, with the shard's committee and the certificate's signers, by their
    places in it. -/
structure Inclusion (rules : Rules) where
  currentFrameNumber : ℕ
  /-- The shard. -/
  address : rules.Shard
  frameNumber : ℕ
  /-- The frame's producer. -/
  prover : Bytes
  committee : List Member
  present : List ℕ
  distinct : (committee.map (·.publicKey)).Nodup

/-- Subtract from a prover's seniority, saturating at zero, and record what was subtracted. -/
def chargeAbsence (publicKey : Bytes) (amount : ℕ) (s : State) : State :=
  match s.provers publicKey with
  | none => s
  | some prover =>
    let charged := min prover.seniority amount
    let prover := { prover with
      seniority := prover.seniority - charged
      seniorityPenalty := saturatingAdd prover.seniorityPenalty charged }
    { s with provers := s.provers.write publicKey prover }

variable {rules : Rules}

/-- The member signed the frame or produced it. -/
def Inclusion.attends (inc : Inclusion rules) (member : Member × ℕ) : Bool :=
  member.2 ∈ inc.present ∨ member.1.address = inc.prover

/-- One member of the loop over the committee. -/
def recordMember (inc : Inclusion rules) (s : State) (member : Member × ℕ) : State :=
  let slot := rules.slot member.1.publicKey inc.address
  match s.allocations slot with
  | none => s
  | some alloc =>
    if inc.attends member then
      if 0 < alloc.absentFrameCount then
        { s with allocations := s.allocations.write slot { alloc with absentFrameCount := 0 } }
      else s
    else if inc.frameNumber ≤ alloc.lastAbsentFrameNumber then s
    else
      let count := alloc.absentFrameCount + 1
      let alloc := { alloc with absentFrameCount := count, lastAbsentFrameNumber := inc.frameNumber }
      let s := { s with allocations := s.allocations.write slot alloc }
      if count ≤ ABSENCE_PENALTY_GRACE_FRAMES then s
      else chargeAbsence member.1.publicKey ABSENCE_PENALTY_PER_FRAME s

/-- Penalties apply in the GLOBAL frame. -/
def Inclusion.penalized (inc : Inclusion rules) : Bool :=
  rules.seniorityPenaltiesAt (epochForFrame rules.epochLength inc.currentFrameNumber)

def recordCommitteeAbsence (inc : Inclusion rules) (s : State) : State :=
  if inc.penalized then inc.committee.zipIdx.foldl (recordMember inc) s else s

/-! ### Histories -/

/-- An executed header, or an allocation's move by a split or a merge. -/
inductive Event (rules : Rules) where
  | executed (inc : Inclusion rules)
  | moved (publicKey : Bytes) (oldFilter newFilter : rules.Shard) (ringKey : Option RingKey)

def perform (s : State) : Event rules → State
  | .executed inc => recordCommitteeAbsence inc s
  | .moved publicKey oldFilter newFilter ringKey =>
    { s with allocations :=
        rekeyAllocationWithKey rules.allocationAddress publicKey oldFilter.1 newFilter.1 ringKey s.allocations }

/-- The state a history, newest event first, leads to. -/
def after (s : State) (history : List (Event rules)) : State :=
  history.foldr (fun event s => perform s event) s

/-- Whether a member of the committee attends; nothing for others. -/
def Inclusion.attendance (inc : Inclusion rules) (publicKey : Bytes) : Option Bool :=
  (inc.committee.zipIdx.find? fun member => member.1.publicKey = publicKey).map inc.attends

/-- The frames of a shard that were executed. -/
def executedFrames (shard : rules.Shard) (history : List (Event rules)) : List ℕ :=
  history.filterMap fun event =>
    match event with
    | .executed inc => if inc.penalized ∧ inc.address = shard then some inc.frameNumber else none
    | .moved .. => none

/-- The frames of a shard a member missed since it last signed or produced one, or arrived there. A header
    applied again is no new frame. -/
def missed (s : State) (publicKey : Bytes) (shard : rules.Shard) : List (Event rules) → List ℕ
  | [] => []
  | .executed inc :: before =>
    if inc.penalized ∧ inc.address = shard ∧ inc.frameNumber ∉ executedFrames shard before then
      match inc.attendance publicKey with
      | none => missed s publicKey shard before
      | some true => []
      | some false => inc.frameNumber :: missed s publicKey shard before
    else missed s publicKey shard before
  | .moved key oldFilter newFilter _ :: before =>
    if key = publicKey ∧ newFilter = shard ∧ newFilter ≠ oldFilter ∧
      ((after s before).allocations (rules.slot key oldFilter)).isSome then []
    else missed s publicKey shard before

/-- Every allocation counts the frames of its shard that its member missed. -/
def Exact (s : State) (history : List (Event rules)) : Prop :=
  ∀ publicKey shard alloc, (after s history).allocations (rules.slot publicKey shard) = some alloc →
    alloc.absentFrameCount = (missed s publicKey shard history).length

/-- What the guard by frame number expects of an allocation: a frame missed for the first time is above the
    number counted last, one missed in a header applied again is not, and a frame attended in a header
    applied again is the newest the member was counted for. -/
@[mk_iff]
structure Expects (alloc : Allocation) (frame : ℕ) (again there : Prop) : Prop where
  missed : ¬ again → ¬ there → alloc.lastAbsentFrameNumber < frame
  missedAgain : again → ¬ there → frame ≤ alloc.lastAbsentFrameNumber
  attendedAgain : again → there → alloc.absentFrameCount = 0

instance (alloc : Allocation) (frame : ℕ) (again there : Prop) [Decidable again] [Decidable there] :
    Decidable (Expects alloc frame again there) := decidable_of_iff _ (expects_iff alloc frame again there).symm

/-- An event finds the allocations it touches as expected; an allocation moves with nothing counted. -/
def Meets (s : State) (before : List (Event rules)) : Event rules → Prop
  | .executed inc => inc.penalized → ∀ publicKey alloc there,
    (after s before).allocations (rules.slot publicKey inc.address) = some alloc →
    inc.attendance publicKey = some there →
    Expects alloc inc.frameNumber (inc.frameNumber ∈ executedFrames inc.address before) there
  | .moved publicKey oldFilter newFilter _ => newFilter ≠ oldFilter → ∀ alloc,
    (after s before).allocations (rules.slot publicKey oldFilter) = some alloc → alloc.absentFrameCount = 0

/-! ### One event -/

/-- What a header does to the allocation of a member that attends or does not. -/
def counted (frame : ℕ) (there : Bool) (alloc : Allocation) : Allocation :=
  if there then { alloc with absentFrameCount := 0 }
  else if frame ≤ alloc.lastAbsentFrameNumber then alloc
  else { alloc with absentFrameCount := alloc.absentFrameCount + 1, lastAbsentFrameNumber := frame }

@[simp] theorem chargeAbsence_allocations (publicKey : Bytes) (amount : ℕ) (s : State) :
    (chargeAbsence publicKey amount s).allocations = s.allocations := by
  unfold chargeAbsence
  split <;> rfl

theorem recordMember_allocations (inc : Inclusion rules) (s : State) (member : Member × ℕ) (slot : Bytes × Bytes) :
    (recordMember inc s member).allocations slot =
      if slot = (rules.slot member.1.publicKey inc.address) then
        (s.allocations slot).map (counted inc.frameNumber (inc.attends member))
      else s.allocations slot := by
  have hwritten : ∀ alloc, s.allocations (rules.slot member.1.publicKey inc.address) = some alloc →
      (recordMember inc s member).allocations =
        s.allocations.write (rules.slot member.1.publicKey inc.address)
          (counted inc.frameNumber (inc.attends member) alloc) := by
    intro alloc halloc
    have hsame : s.allocations.write (rules.slot member.1.publicKey inc.address) alloc = s.allocations := by
      funext slot
      by_cases hslot : slot = (rules.slot member.1.publicKey inc.address)
      · rw [hslot, Store.write_same, halloc]
      · rw [Store.write_other hslot]
    simp only [recordMember, halloc, counted]
    by_cases hthere : inc.attends member = true
    · simp only [hthere, if_true]
      split_ifs with hcount
      · rfl
      · rw [← Nat.eq_zero_of_not_pos hcount]
        exact hsame.symm
    · simp only [hthere, Bool.false_eq_true, if_false]
      split_ifs with hframe hgrace
      · exact hsame.symm
      · rfl
      · exact chargeAbsence_allocations ..
  cases halloc : s.allocations (rules.slot member.1.publicKey inc.address) with
  | none =>
    have hkept : recordMember inc s member = s := by simp only [recordMember, halloc]
    rw [hkept]
    split_ifs with hslot
    · rw [hslot, halloc]
      rfl
    · rfl
  | some alloc =>
    rw [hwritten alloc halloc]
    split_ifs with hslot
    · rw [hslot, Store.write_same, halloc]
      rfl
    · exact Store.write_other hslot

/-- The loop meets every member once. -/
theorem foldl_recordMember (inc : Inclusion rules) {members : List (Member × ℕ)}
    (hdistinct : (members.map (·.1.publicKey)).Nodup) (s : State) (publicKey : Bytes) :
    (members.foldl (recordMember inc) s).allocations (rules.slot publicKey inc.address) =
      match (members.find? fun member => member.1.publicKey = publicKey).map inc.attends with
      | none => s.allocations (rules.slot publicKey inc.address)
      | some there => (s.allocations (rules.slot publicKey inc.address)).map (counted inc.frameNumber there) := by
  induction members generalizing s with
  | nil => rfl
  | cons member members ih =>
    obtain ⟨hnot, hdistinct⟩ := nodup_cons.1 hdistinct
    rw [foldl_cons, ih hdistinct, recordMember_allocations]
    by_cases hkey : member.1.publicKey = publicKey
    · have hnone : (members.find? fun member => member.1.publicKey = publicKey) = none := by
        rw [find?_eq_none]
        intro other hother heq
        exact hnot (mem_map.2 ⟨other, hother, (of_decide_eq_true heq).trans hkey.symm⟩)
      simp [hkey, hnone]
    · simp [hkey, Ne.symm hkey, Rules.slot_inj]

theorem recordCommitteeAbsence_allocations (inc : Inclusion rules) (s : State) (publicKey : Bytes) (shard : rules.Shard) :
    (recordCommitteeAbsence inc s).allocations (rules.slot publicKey shard) =
      if inc.penalized ∧ inc.address = shard then
        match inc.attendance publicKey with
        | none => s.allocations (rules.slot publicKey shard)
        | some there => (s.allocations (rules.slot publicKey shard)).map (counted inc.frameNumber there)
      else s.allocations (rules.slot publicKey shard) := by
  unfold recordCommitteeAbsence
  by_cases hpenalized : inc.penalized = true
  · simp only [hpenalized, if_true, true_and]
    by_cases hshard : inc.address = shard
    · subst hshard
      rw [if_pos rfl]
      refine foldl_recordMember inc ?_ s publicKey
      have hkeys : inc.committee.zipIdx.map (·.1.publicKey) = inc.committee.map (·.publicKey) := by
        conv_rhs => rw [← zipIdx_map_fst 0 inc.committee, map_map]
        rfl
      exact hkeys ▸ inc.distinct
    · rw [if_neg hshard]
      generalize inc.committee.zipIdx = members
      induction members generalizing s with
      | nil => rfl
      | cons member members ih =>
        rw [foldl_cons, ih, recordMember_allocations, if_neg]
        exact fun heq => hshard (Rules.slot_inj.1 heq).2.symm
  · simp [hpenalized]

/-- One allocation's count is exact after a header if and only if the guard's expectation holds. -/
theorem counted_exact_iff {alloc : Allocation} {frames : List ℕ} (frame : ℕ) (again : Prop) [Decidable again]
    (there : Bool) (hexact : alloc.absentFrameCount = frames.length) :
    (counted frame there alloc).absentFrameCount =
        (if again then frames else if there then [] else frame :: frames).length ↔
      Expects alloc frame again there := by
  rw [expects_iff, counted]
  cases there with
  | true =>
    by_cases hagain : again
    · simp [hagain, hexact, eq_comm]
    · simp [hagain]
  | false =>
    by_cases hagain : again <;> by_cases hframe : frame ≤ alloc.lastAbsentFrameNumber
    · simp [hagain, hframe, hexact]
    · simp [hagain, hframe, hexact]
    · simp [hagain, hframe, hexact]
    · simp [hagain, hframe, hexact, not_le.1 hframe]

/-- What a history is after one more header. -/
theorem missed_executed (s : State) (inc : Inclusion rules) (before : List (Event rules)) (publicKey : Bytes) (shard : rules.Shard) :
    missed s publicKey shard (.executed inc :: before) =
      if inc.penalized ∧ inc.address = shard then
        match inc.attendance publicKey with
        | none => missed s publicKey shard before
        | some there =>
          if inc.frameNumber ∈ executedFrames shard before then missed s publicKey shard before
          else if there then [] else inc.frameNumber :: missed s publicKey shard before
      else missed s publicKey shard before := by
  rw [missed]
  rcases hthere : inc.attendance publicKey with _ | there
  · simp
  · cases there <;> split_ifs <;> simp_all

theorem Exact.executed_iff {s : State} {before : List (Event rules)} (h : Exact s before) (inc : Inclusion rules) :
    Exact s (.executed inc :: before) ↔ Meets s before (.executed inc) := by
  have hslot : ∀ publicKey shard, (after s (.executed inc :: before)).allocations (rules.slot publicKey shard) = _ :=
    recordCommitteeAbsence_allocations inc (after s before)
  constructor
  · intro hnext hpenalized publicKey alloc there halloc hthere
    rw [← counted_exact_iff _ _ _ (h _ _ _ halloc)]
    have hcount := hnext publicKey inc.address (counted inc.frameNumber there alloc) (by
      rw [hslot, if_pos ⟨hpenalized, rfl⟩, hthere, halloc]
      rfl)
    rw [hcount, missed_executed, if_pos ⟨hpenalized, rfl⟩, hthere]
  · intro hmeets publicKey shard alloc halloc
    rw [hslot] at halloc
    rw [missed_executed]
    by_cases hcase : inc.penalized = true ∧ inc.address = shard
    · rw [if_pos hcase] at halloc ⊢
      obtain ⟨hpenalized, rfl⟩ := hcase
      cases hthere : inc.attendance publicKey with
      | none =>
        rw [hthere] at halloc
        exact h _ _ _ halloc
      | some there =>
        rw [hthere] at halloc
        obtain ⟨old, hold, rfl⟩ := Option.map_eq_some_iff.1 halloc
        exact (counted_exact_iff _ _ _ (h _ _ _ hold)).2 (hmeets hpenalized publicKey old there hold hthere)
    · rw [if_neg hcase] at halloc ⊢
      exact h _ _ _ halloc

/-- A move, by the shards' slots. -/
theorem rekeyAllocationWithKey_slot (key : Bytes) (oldFilter newFilter : rules.Shard) (ringKey : Option RingKey)
    (s : Allocations) :
    rekeyAllocationWithKey rules.allocationAddress key oldFilter.1 newFilter.1 ringKey s =
      match s (rules.slot key oldFilter) with
      | none => s
      | some old =>
        let s := s.write (rules.slot key newFilter)
          { old with confirmationFilter := newFilter.1, ringKey := ringKey.or old.ringKey }
        if newFilter = oldFilter then s else s.write (rules.slot key oldFilter) { old with status := .historic } := by
  have hsame : rules.allocationAddress key newFilter.1 = rules.allocationAddress key oldFilter.1 ↔
      newFilter = oldFilter :=
    ⟨fun h => Subtype.ext (rules.apart key _ newFilter.2 _ oldFilter.2 h), fun h => by rw [h]⟩
  simp only [rekeyAllocationWithKey, hsame]
  rfl

theorem Exact.moved_iff {s : State} {before : List (Event rules)} (h : Exact s before)
    (key : Bytes) (oldFilter newFilter : rules.Shard) (ringKey : Option RingKey) :
    Exact s (.moved key oldFilter newFilter ringKey :: before) ↔
      Meets s before (.moved key oldFilter newFilter ringKey) := by
  have hslots : (after s (.moved key oldFilter newFilter ringKey :: before)).allocations =
      rekeyAllocationWithKey rules.allocationAddress key oldFilter.1 newFilter.1 ringKey (after s before).allocations := rfl
  simp only [Exact, hslots, Meets, missed, rekeyAllocationWithKey_slot]
  cases hold : (after s before).allocations (rules.slot key oldFilter) with
  | none => simpa [Exact] using h
  | some old =>
    rcases eq_or_ne newFilter oldFilter with rfl | hne
    · -- the slot is written where it was
      simp only [ne_eq, not_true_eq_false, false_and, and_false, if_false, if_true, false_implies, iff_true]
      intro publicKey shard alloc halloc
      rcases (Store.write_eq_some _).1 halloc with ⟨heq, rfl⟩ | ⟨-, halloc⟩
      · obtain ⟨rfl, rfl⟩ := Rules.slot_inj.1 heq
        exact h _ _ old hold
      · exact h _ _ _ halloc
    · have hpair : (rules.slot key newFilter) ≠ (rules.slot key oldFilter) := fun heq => hne (Rules.slot_inj.1 heq).2
      simp only [hne, if_false, Option.isSome_some, ne_eq, not_false_eq_true, and_true, forall_const,
        Option.some.injEq]
      constructor
      · rintro hnext alloc rfl
        simpa using hnext key newFilter _ ((Store.write_other hpair).trans (Store.write_same ..))
      · intro hzero publicKey shard alloc halloc
        rcases (Store.write_eq_some _).1 halloc with ⟨heq, rfl⟩ | ⟨-, halloc⟩
        · obtain ⟨rfl, rfl⟩ := Rules.slot_inj.1 heq
          rw [if_neg fun hcase => hne hcase.2]
          exact h _ _ old hold
        · rcases (Store.write_eq_some _).1 halloc with ⟨heq, rfl⟩ | ⟨hother, halloc⟩
          · obtain ⟨rfl, rfl⟩ := Rules.slot_inj.1 heq
            rw [if_pos ⟨rfl, rfl⟩]
            exact hzero old rfl
          · rw [if_neg fun hcase => hother (by rw [hcase.1, hcase.2])]
            exact h _ _ _ halloc

/-! ### Histories -/

/-- Every event of the history finds its allocations as expected. -/
def Orderly (s : State) (history : List (Event rules)) : Prop :=
  ∀ event before, event :: before <:+ history → Meets s before event

theorem executedFrames_executed (inc : Inclusion rules) (before : List (Event rules)) (shard : rules.Shard) :
    executedFrames shard (.executed inc :: before) =
      if inc.penalized ∧ inc.address = shard then inc.frameNumber :: executedFrames shard before
      else executedFrames shard before := by
  rw [executedFrames, filterMap_cons]
  by_cases hcase : inc.penalized = true ∧ inc.address = shard
  · simp only [if_pos hcase]
    rfl
  · simp only [if_neg hcase]
    rfl

/-- The frames missed are executed frames of the shard, each once. -/
theorem missed_distinct (s : State) (publicKey : Bytes) (shard : rules.Shard) (history : List (Event rules)) :
    missed s publicKey shard history ⊆ executedFrames shard history ∧
      (missed s publicKey shard history).Nodup := by
  induction history with
  | nil => exact ⟨nil_subset _, nodup_nil⟩
  | cons event before ih =>
    obtain ⟨hsubset, hnodup⟩ := ih
    cases event with
    | moved key oldFilter newFilter ringKey =>
      rw [missed]
      split_ifs
      · exact ⟨nil_subset _, nodup_nil⟩
      · exact ⟨hsubset, hnodup⟩
    | executed inc =>
      rw [missed_executed, executedFrames_executed]
      by_cases hcase : inc.penalized = true ∧ inc.address = shard
      · have hlater := subset_cons_of_subset inc.frameNumber hsubset
        rw [if_pos hcase, if_pos hcase]
        rcases inc.attendance publicKey with _ | there
        · exact ⟨hlater, hnodup⟩
        · dsimp only
          split_ifs with hagain hthere
          · exact ⟨hlater, hnodup⟩
          · exact ⟨nil_subset _, nodup_nil⟩
          · exact ⟨cons_subset_cons _ hsubset, nodup_cons.2 ⟨fun hmem => hagain (hsubset hmem), hnodup⟩⟩
      · rw [if_neg hcase, if_neg hcase]
        exact ⟨hsubset, hnodup⟩

theorem orderly_cons {s : State} {event : Event rules} {before : List (Event rules)} :
    Orderly s (event :: before) ↔ Meets s before event ∧ Orderly s before := by
  constructor
  · intro h
    exact ⟨h event before suffix_rfl, fun later past hpast =>
      h later past (hpast.trans (suffix_cons event before))⟩
  · rintro ⟨hmeets, h⟩ later past hpast
    rcases suffix_cons_iff.1 hpast with heq | hpast
    · cases heq
      exact hmeets
    · exact h later past hpast

/-- Penalties from the first epoch on, and two shards. -/
def fromStart : Rules := ⟨Nat.succPNat 0, 0, 0, fun _ filter => filter, [[1], [2]], fun _ _ _ _ _ => id⟩

def shard1 : fromStart.Shard := ⟨[1], by decide⟩

def shard2 : fromStart.Shard := ⟨[2], by decide⟩

/-- One member, allocated on shard 1. -/
def oneMember : State where
  allocations := Store.empty.write (fromStart.slot [7] shard1) ⟨[1], .live, none, 0, 0⟩
  provers := Store.empty

/-- A frame of a shard that the member missed, or signed. -/
def frameOf (shard : fromStart.Shard) (frame : ℕ) (present : List ℕ) : Event fromStart :=
  .executed { currentFrameNumber := 0, address := shard, frameNumber := frame, prover := [9],
              committee := [⟨[9], [9]⟩, ⟨[7], [7]⟩], present := present, distinct := by decide }

/-- One frame missed and its header applied again, the next signed, the one after missed. -/
def stayed : List (Event fromStart) :=
  [frameOf shard1 3 [0], frameOf shard1 2 [0, 1], frameOf shard1 1 [0], frameOf shard1 1 [0]]

/-- Two frames missed on shard 1, then a move to shard 2 and its first frame missed. -/
def movedAway : List (Event fromStart) :=
  [frameOf shard2 1 [0], .moved [7] shard1 shard2 none, frameOf shard1 2 [0], frameOf shard1 1 [0]]

/-- The members of the committee are all a header has to meet. -/
theorem meets_executed {s : State} {before : List (Event rules)} {inc : Inclusion rules}
    (h : ∀ member ∈ inc.committee.zipIdx,
      ∀ alloc ∈ (after s before).allocations (rules.slot member.1.publicKey inc.address),
      Expects alloc inc.frameNumber (inc.frameNumber ∈ executedFrames inc.address before) (inc.attends member)) :
    Meets s before (.executed inc) := by
  intro _ publicKey alloc there halloc hthere
  obtain ⟨member, hmember, rfl⟩ := Option.map_eq_some_iff.1 hthere
  obtain rfl : member.1.publicKey = publicKey := by simpa using find?_some hmember
  exact h member (mem_of_find?_eq_some hmember) alloc halloc

end Quil.Absences
