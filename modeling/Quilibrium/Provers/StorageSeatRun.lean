import Quilibrium.Provers.StorageSeat

/-! Runs of a storage seat. Each operation does one of seven things to an epoch's slot, and an amount, a
    commitment or an ending is traced back to the one of them that made it. -/

namespace Quil.StorageSeat
open Schemes AllocationEpochs List Option SeatSlot Seat

variable {rules : Rules} {seat : Seat}

/-! ### What the parts of an operation do to a slot -/

variable {e : ℕ} {new : SeatSlot}

namespace Seat

theorem slot_ext {seat' : Seat} {e' : ℕ}
    (h : ∀ slot, slot ∈ seat'.slots ∧ slot.epoch = e' ↔ slot ∈ seat.slots ∧ slot.epoch = e) :
    seat'.slot e' = seat.slot e :=
  ext fun slot => by rw [slot_eq_some, slot_eq_some, h]

variable {old : SeatSlot}

theorem slot_setSlot_self (h : seat.slot e = some old) (hnew : new.epoch = e) :
    (seat.setSlot new).slot e = some new := by
  obtain ⟨hmem, hepoch⟩ := slot_eq_some.1 h
  exact slot_eq_some.2 ⟨mem_map.2 ⟨old, hmem, if_pos (hepoch.trans hnew.symm)⟩, hnew⟩

theorem slot_setSlot_other (he : e ≠ new.epoch) : (seat.setSlot new).slot e = seat.slot e := by
  refine slot_ext fun slot => ⟨?_, ?_⟩
  · rintro ⟨hslot, rfl⟩
    obtain ⟨other, hother, rfl⟩ := mem_map.1 hslot
    split_ifs at he ⊢ with hnew
    · exact absurd rfl he
    · exact ⟨hother, rfl⟩
  · rintro ⟨hslot, rfl⟩
    exact ⟨mem_map.2 ⟨slot, hslot, if_neg he⟩, rfl⟩

theorem slot_replaceSlot (seat : Seat) (new : SeatSlot) (e : ℕ) :
    (seat.replaceSlot new).slot e = if e = new.epoch then some new else seat.slot e := by
  have hmem : ∀ slot, slot ∈ (seat.replaceSlot new).slots ↔
      (slot ∈ seat.slots ∧ slot.epoch ≠ new.epoch) ∨ slot = new := fun slot => by
    simp [replaceSlot, mem_insertionSort]
  split_ifs with he
  · exact slot_eq_some.2 ⟨(hmem new).2 (.inr rfl), he.symm⟩
  refine slot_ext fun slot => ?_
  rw [hmem]
  constructor
  · rintro ⟨⟨hslot, -⟩ | rfl, hepoch⟩
    · exact ⟨hslot, hepoch⟩
    · exact absurd hepoch.symm he
  · rintro ⟨hslot, rfl⟩
    exact ⟨.inl ⟨hslot, he⟩, rfl⟩

theorem slot_expire (seat : Seat) (frame e : ℕ) :
    (seat.expire rules frame).2.slot e = (seat.slot e).map (close rules frame) := by
  refine ext fun slot => ?_
  rw [slot_eq_some, map_eq_some_iff]
  constructor
  · rintro ⟨hslot, rfl⟩
    obtain ⟨old, hold, rfl⟩ := mem_map.1 hslot
    exact ⟨old, slot_eq_some.2 ⟨hold, (epoch_close rules frame old).symm⟩, rfl⟩
  · rintro ⟨old, hold, rfl⟩
    obtain ⟨hmem, rfl⟩ := slot_eq_some.1 hold
    exact ⟨mem_map_of_mem hmem, epoch_close rules frame old⟩

/-- Pruning at `currentEpoch` would drop `epoch`'s slot, or at least may. -/
def Overdue (seat : Seat) (currentEpoch epoch : ℕ) : Prop :=
  saturatingAdd epoch 2 < currentEpoch ∨
    MAX_SLOTS < (seat.slots.filter fun slot => decide (currentEpoch ≤ saturatingAdd slot.epoch 2)).length

theorem slot_prune (seat : Seat) (currentEpoch e : ℕ) : (seat.prune currentEpoch).slot e = seat.slot e ∨
    (seat.prune currentEpoch).slot e = none ∧ seat.Overdue currentEpoch e := by
  by_cases hover : seat.Overdue currentEpoch e
  · by_cases hnone : (seat.prune currentEpoch).slot e = none
    · exact .inr ⟨hnone, hover⟩
    obtain ⟨slot, hslot⟩ := ne_none_iff_exists'.1 hnone
    obtain ⟨hmem, hepoch⟩ := slot_eq_some.1 hslot
    have hold := mem_of_mem_filter (mem_of_mem_drop hmem)
    exact .inl (hslot.trans (slot_eq_some.2 ⟨hold, hepoch⟩).symm)
  rw [Overdue, not_or, not_lt, not_lt] at hover
  refine .inl (slot_ext fun slot => ?_)
  change slot ∈ (seat.slots.filter fun slot => decide (currentEpoch ≤ saturatingAdd slot.epoch 2)).drop _ ∧ _ ↔ _
  rw [Nat.sub_eq_zero_of_le hover.2, drop_zero, mem_filter, decide_eq_true_eq]
  exact ⟨fun h => ⟨h.1.1, h.2⟩, fun h => ⟨⟨h.1, h.2 ▸ hover.1⟩, h.2⟩⟩

end Seat

/-! ### What an operation does to a slot -/

/-- The part of a slot that payments, endings and the chain depend on. -/
def SeatSlot.core (slot : SeatSlot) : Outcome × ℕ × ℕ × Bytes32 × List Chained :=
  (slot.outcome, slot.pending, slot.frames, slot.accumulator, slot.chained)

/-- The epoch an operation prunes at. -/
def prunesAt (rules : Rules) : Operation → Option ℕ
  | .register _ _ frame => some (epochForFrame rules.epochLengthFrames frame)
  | .prune currentEpoch => some currentEpoch
  | _ => none

/-- The operation prunes, and `e` is two epochs past or the seat is full. -/
def Pruned (rules : Rules) (seat : Seat) (e : ℕ) (op : Operation) : Prop :=
  ∃ currentEpoch, prunesAt rules op = some currentEpoch ∧
    (saturatingAdd e 2 < currentEpoch ∨
      MAX_SLOTS ≤ (seat.slots.filter fun slot => decide (currentEpoch ≤ saturatingAdd slot.epoch 2)).length)

/-- What an operation does to the slot of `e`: the event, and the slot after it. -/
inductive SlotStep (rules : Rules) (seat : Seat) (e : ℕ) : Operation → Option Event → Option SeatSlot → Prop
  | registered (leaves : List (List ℕ)) (frame : ℕ) (after : Option SeatSlot)
      (h : after = some (.fresh e leaves frame) ∨ after = none) :
      SlotStep rules seat e (.register e leaves frame) (some .registered) after
  | kept (op : Operation) (after : Option SeatSlot)
      (h : after.map SeatSlot.core = (seat.slot e).map SeatSlot.core) : SlotStep rules seat e op none after
  | pruned (op : Operation) (h : Pruned rules seat e op) : SlotStep rules seat e op none none
  | committed (slot after : SeatSlot) (frameNumber beacon executed : ℕ) (rhoN : List UInt8) (root : Bytes32)
      (hslot : seat.slot e = some slot) (hopen : slot.outcome = Outcome.open)
      (hlast : ((slot.chained.getLast?).map (·.frame)).getD 0 < frameNumber)
      (hafter : after.core = (Outcome.open, slot.pending, slot.frames + 1,
        rules.accumulate slot.accumulator frameNumber rhoN root,
        slot.chained ++ [⟨frameNumber, beacon, executed⟩])) :
      SlotStep rules seat e (.commit e frameNumber beacon executed rhoN root)
        (some (.committed (frameNumber, rhoN, root))) (some after)
  | held (slot after : SeatSlot) (frame appFrame : ℕ) (amount : ℤ) (committee : ℕ)
      (hslot : seat.slot e = some slot) (hopen : slot.outcome = Outcome.open)
      (hafter : after.core =
        (Outcome.open, slot.pending + amount.toNat, slot.frames, slot.accumulator, slot.chained)) :
      SlotStep rules seat e (.hold e frame appFrame amount committee) (some (.held amount.toNat)) (some after)
  | settled (slot after : SeatSlot) (frame timely amount : ℕ)
      (hslot : seat.slot e = some slot) (hopen : slot.outcome = Outcome.open) (hamount : amount ≤ slot.pending)
      (hafter : after.core = (.settled frame, slot.pending, slot.frames, slot.accumulator, [])) :
      SlotStep rules seat e (.settle e frame timely) (some (.paid amount)) (some after)
  | expired (slot after : SeatSlot) (frame : ℕ)
      (hslot : seat.slot e = some slot) (hopen : slot.outcome = Outcome.open)
      (hdue : (settlementWindow rules e).2 ≤ frame)
      (hafter : after.core = (.expired frame, slot.pending, slot.frames, slot.accumulator, [])) :
      SlotStep rules seat e (.expire frame) none (some after)

theorem SeatSlot.core_count (slot : SeatSlot) (appFrame committee : ℕ) :
    (slot.count appFrame committee).core = slot.core := by
  unfold count
  split <;> rfl

theorem SeatSlot.epoch_count (slot : SeatSlot) (appFrame committee : ℕ) :
    (slot.count appFrame committee).epoch = slot.epoch := by
  unfold count
  split <;> rfl

/-- Another epoch's slot is left alone. -/
theorem slotStep_other (he : e ≠ new.epoch) (op : Operation) :
    SlotStep rules seat e op none ((seat.setSlot new).slot e) :=
  .kept op _ (by rw [slot_setSlot_other he])

/-- A slot replaced by one of the same core leaves every epoch's core. -/
theorem slotStep_setSlot {epoch : ℕ} (h : seat.slot epoch = some old) (hnew : new.epoch = epoch)
    (hcore : new.core = old.core) (op : Operation) (e : ℕ) :
    SlotStep rules seat e op none ((seat.setSlot new).slot e) := by
  by_cases he : e = epoch
  · subst he
    exact .kept op _ (by rw [slot_setSlot_self h hnew, h, map_some, map_some, hcore])
  · exact slotStep_other (hnew ▸ he) op

/-- A slot replaced by what an operation on its epoch makes of it. -/
theorem slotStep_own {epoch : ℕ} (h : seat.slot epoch = some old) (hnew : new.epoch = epoch)
    {op : Operation} {event : Option Event} (hown : SlotStep rules seat epoch op event (some new)) (e : ℕ) :
    SlotStep rules seat e op (if epoch = e then event else none) ((seat.setSlot new).slot e) := by
  split_ifs with he
  · rwa [← he, slot_setSlot_self h hnew]
  · exact slotStep_other (fun heq => he (hnew ▸ heq.symm)) op

theorem slotStep_register (rules : Rules) (seat : Seat) (epoch : ℕ) (leaves : List (List ℕ)) (frame e : ℕ) :
    SlotStep rules seat e (.register epoch leaves frame) (if epoch = e then some .registered else none)
      ((seat.register rules epoch leaves frame).slot e) := by
  have hfresh := slot_replaceSlot seat (.fresh epoch leaves frame) e
  have hprune := slot_prune (seat.replaceSlot (.fresh epoch leaves frame))
    (epochForFrame rules.epochLengthFrames frame) e
  rw [register]
  split_ifs with he
  · subst he
    rw [if_pos (show epoch = (fresh epoch leaves frame).epoch from rfl)] at hfresh
    refine .registered leaves frame _ ?_
    rcases hprune with hsame | ⟨hnone, -⟩
    · exact .inl (hsame.trans hfresh)
    · exact .inr hnone
  rw [if_neg (fun h => he h.symm)] at hfresh
  rcases hprune with hsame | ⟨hnone, hover⟩
  · exact .kept _ _ (by rw [hsame, hfresh])
  rw [hnone]
  refine .pruned _ ⟨_, rfl, hover.imp_right fun hfull => ?_⟩
  -- the new slot is one of the slots kept at most
  rw [replaceSlot, ((perm_insertionSort _ _).filter _).length_eq, filter_append, length_append] at hfull
  have hnew := length_filter_le
    (fun slot : SeatSlot => decide (epochForFrame rules.epochLengthFrames frame ≤ saturatingAdd slot.epoch 2))
    [fresh epoch leaves frame]
  have hold := ((filter_sublist (p := fun old : SeatSlot => decide (old.epoch ≠ epoch))
    (l := seat.slots)).filter fun slot =>
      decide (epochForFrame rules.epochLengthFrames frame ≤ saturatingAdd slot.epoch 2)).length_le
  simp only [length_singleton] at hnew
  exact Nat.le_of_lt_succ (hfull.trans_le (add_le_add hold hnew))

theorem slotStep_commit (epoch frameNumber beacon executed : ℕ) (rhoN : List UInt8) (root : Bytes32) (e : ℕ) :
    SlotStep rules seat e (.commit epoch frameNumber beacon executed rhoN root)
      (eventOf e (.commit epoch frameNumber beacon executed rhoN root,
        .flag (seat.commit rules epoch frameNumber beacon executed rhoN root).1))
      ((seat.commit rules epoch frameNumber beacon executed rhoN root).2.slot e) := by
  unfold commit
  rcases hslot : seat.slot epoch with _ | slot
  · exact .kept _ _ rfl
  dsimp only
  split_ifs with hguard
  · exact .kept _ _ rfl
  simp only [not_or, not_not, not_le] at hguard
  obtain ⟨-, hopen, hlast, -⟩ := hguard
  refine slotStep_own hslot ?_ ?_ e
  · exact (slot_eq_some.1 hslot).2
  · exact .committed slot _ frameNumber beacon executed rhoN root hslot hopen hlast (by simp [core, hopen])

theorem slotStep_hold (epoch frame appFrame : ℕ) (amount : ℤ) (committee e : ℕ) :
    SlotStep rules seat e (.hold epoch frame appFrame amount committee)
      (eventOf e (.hold epoch frame appFrame amount committee,
        .flag (seat.hold epoch frame appFrame amount committee).1))
      ((seat.hold epoch frame appFrame amount committee).2.slot e) := by
  unfold hold
  rcases hslot : seat.slot epoch with _ | slot
  · exact .kept _ _ rfl
  dsimp only
  split_ifs with hguard hnothing
  · exact .kept _ _ rfl
  · refine slotStep_setSlot hslot ?_ (slot.core_count appFrame committee) _ e
    rw [slot.epoch_count, (slot_eq_some.1 hslot).2]
  simp only [not_or, not_not] at hguard
  have hepoch : (slot.count appFrame committee).epoch = epoch := by rw [slot.epoch_count, (slot_eq_some.1 hslot).2]
  have hcore := slot.core_count appFrame committee
  simp only [core, Prod.mk.injEq] at hcore
  refine slotStep_own hslot ?_ ?_ e
  · exact hepoch
  · exact .held slot _ frame appFrame amount committee hslot hguard.2 (by simp [core, hcore, hguard.2])

theorem slotStep_markSealed (epoch frame e : ℕ) :
    SlotStep rules seat e (.markSealed epoch frame) none ((seat.markSealed epoch frame).2.slot e) := by
  unfold markSealed
  rcases hslot : seat.slot epoch with _ | slot
  · exact .kept _ _ rfl
  dsimp only
  split_ifs
  · refine slotStep_setSlot hslot ?_ ?_ _ e
    · exact (slot_eq_some.1 hslot).2
    · rfl
  · exact .kept _ _ rfl

theorem slotStep_settle (epoch frame timely e : ℕ) : SlotStep rules seat e (.settle epoch frame timely)
      (eventOf e (.settle epoch frame timely, .released (seat.settle epoch frame timely).1))
      ((seat.settle epoch frame timely).2.slot e) := by
  unfold settle
  rcases hslot : seat.slot epoch with _ | slot
  · exact .kept _ _ rfl
  dsimp only
  split_ifs with hopen
  · exact .kept _ _ rfl
  rw [not_not] at hopen
  refine slotStep_own hslot ?_ ?_ e
  · exact (slot_eq_some.1 hslot).2
  · exact .settled slot _ frame timely _ hslot hopen (release_le _ _) rfl

theorem slotStep_expire (frame e : ℕ) :
    SlotStep rules seat e (.expire frame) none ((seat.expire rules frame).2.slot e) := by
  rw [slot_expire]
  rcases hslot : seat.slot e with _ | slot
  · exact .kept _ _ (by rw [hslot]; rfl)
  rw [map_some, close]
  split_ifs with hdue
  · rw [isDue, decide_eq_true_eq, (slot_eq_some.1 hslot).2] at hdue
    exact .expired slot _ frame hslot hdue.1 hdue.2 rfl
  · exact .kept _ _ (by rw [hslot])

/-- Every operation does one of the seven things to every epoch's slot. -/
theorem slotStep (rules : Rules) (seat : Seat) (op : Operation) (e : ℕ) :
    SlotStep rules seat e op (eventOf e (op, (perform rules seat op).2)) ((perform rules seat op).1.slot e) := by
  cases op with
  | register epoch leaves frame => exact slotStep_register rules seat epoch leaves frame e
  | markSealed epoch frame => exact slotStep_markSealed epoch frame e
  | commit epoch frameNumber beacon executed rhoN root =>
    exact slotStep_commit epoch frameNumber beacon executed rhoN root e
  | hold epoch frame appFrame amount committee => exact slotStep_hold epoch frame appFrame amount committee e
  | settle epoch frame timely => exact slotStep_settle epoch frame timely e
  | expire frame => exact slotStep_expire frame e
  | prune currentEpoch =>
    rcases slot_prune seat currentEpoch e with hsame | ⟨hnone, hover⟩
    · exact .kept _ _ (congrArg _ hsame)
    · rw [perform, hnone]
      exact .pruned _ ⟨_, rfl, hover.imp_right le_of_lt⟩

/-! ### Payments -/

/-- What an open slot still holds. -/
def openPending : Option SeatSlot → ℕ
  | some slot => if slot.outcome = Outcome.open then slot.pending else 0
  | none => 0

theorem openPending_core {a b : Option SeatSlot} (h : a.map core = b.map core) : openPending a = openPending b := by
  cases a <;> cases b <;> simp_all [openPending, core]

theorem openPending_of_core {slot : SeatSlot} {outcome : Outcome} {pending frames : ℕ} {accumulator : Bytes32}
    {chained : List Chained} (h : slot.core = (outcome, pending, frames, accumulator, chained)) :
    openPending (some slot) = if outcome = .open then pending else 0 := by
  simp only [core, Prod.mk.injEq] at h
  rw [openPending, h.1, h.2.1]

theorem openPending_open {slot : SeatSlot} (hslot : seat.slot e = some slot)
    (hopen : slot.outcome = .open) : openPending (seat.slot e) = slot.pending := by
  rw [hslot]
  exact if_pos hopen

variable {op : Operation} {event : Option Event} {after : Option SeatSlot}

/-- A payment and what is still held are covered by what was held and what is newly held. -/
theorem SlotStep.covered (h : SlotStep rules seat e op event after) :
    (event.map Event.paidAmount).getD 0 + openPending after ≤
      openPending (seat.slot e) + (event.map Event.heldAmount).getD 0 := by
  cases h with
  | registered leaves frame after h =>
    have hzero : openPending after = 0 := by
      rcases h with rfl | rfl
      · rfl
      · rfl
    simp [hzero, Event.paidAmount]
  | kept op after h => simp [openPending_core h]
  | pruned op h => simp [openPending]
  | committed slot after frameNumber beacon executed rhoN root hslot hopen hlast hafter =>
    rw [openPending_of_core hafter, openPending_open hslot hopen]
    simp [Event.paidAmount]
  | held slot after frame appFrame amount committee hslot hopen hafter =>
    rw [openPending_of_core hafter, openPending_open hslot hopen]
    simp [Event.paidAmount, Event.heldAmount]
  | settled slot after frame timely amount hslot hopen hamount hafter =>
    rw [openPending_of_core hafter, openPending_open hslot hopen]
    exact Nat.le_add_right_of_le hamount
  | expired slot after frame hslot hopen hdue hafter => simp [openPending_of_core hafter]

theorem heldTotal_cons (e : ℕ) (x : Operation × Answer) (trace : List (Operation × Answer)) :
    heldTotal e (x :: trace) = ((eventOf e x).map Event.heldAmount).getD 0 + heldTotal e trace := by
  cases h : eventOf e x <;> simp [heldTotal, events, h]

theorem paidTotal_cons (e : ℕ) (x : Operation × Answer) (trace : List (Operation × Answer)) :
    paidTotal e (x :: trace) = ((eventOf e x).map Event.paidAmount).getD 0 + paidTotal e trace := by
  cases h : eventOf e x <;> simp [paidTotal, events, h]

/-- A run pays for an epoch no more than the open slot held before it and the run newly held. -/
theorem paidTotal_le (rules : Rules) (e : ℕ) (ops : List Operation) (seat : Seat) :
    paidTotal e (run (perform rules) seat ops).2 ≤
      openPending (seat.slot e) + heldTotal e (run (perform rules) seat ops).2 := by
  induction ops generalizing seat with
  | nil => exact zero_le
  | cons op ops ih =>
    have hstep := (slotStep rules seat op e).covered
    have hrest := ih (perform rules seat op).1
    rw [run_cons, heldTotal_cons, paidTotal_cons]
    omega

/-! ### Endings -/

/-- No slot of the epoch is open. -/
def NotOpen (slot : Option SeatSlot) : Prop := ∀ s ∈ slot, s.outcome ≠ Outcome.open

theorem NotOpen.openPending {slot : Option SeatSlot} (h : NotOpen slot) : openPending slot = 0 := by
  cases slot with
  | none => rfl
  | some s => exact if_neg (h s rfl)

/-- Only a registration of the epoch opens it. -/
theorem SlotStep.notOpen (h : SlotStep rules seat e op event after) (hnot : NotOpen (seat.slot e))
    (hop : ∀ leaves frame, op ≠ .register e leaves frame) : NotOpen after := by
  cases h with
  | registered leaves frame after h => exact absurd rfl (hop leaves frame)
  | kept op after h =>
    rintro slot rfl
    rw [map_some, eq_comm, map_eq_some_iff] at h
    obtain ⟨old, hold, hcore⟩ := h
    have houtcome : old.outcome = slot.outcome := congrArg Prod.fst hcore
    exact houtcome ▸ hnot old hold
  | pruned op h => exact fun slot hslot => absurd hslot (by simp)
  | committed slot after frameNumber beacon executed rhoN root hslot hopen hlast hafter
  | held slot after frame appFrame amount committee hslot hopen hafter
  | settled slot after frame timely amount hslot hopen hamount hafter
  | expired slot after frame hslot hopen hdue hafter =>
    exact absurd hopen (hnot slot hslot)

theorem notOpen_run (ops : List Operation) (hops : ∀ leaves frame, .register e leaves frame ∉ ops)
    (seat : Seat) (h : NotOpen (seat.slot e)) : NotOpen ((run (perform rules) seat ops).1.slot e) := by
  induction ops generalizing seat with
  | nil => exact h
  | cons op ops ih =>
    refine ih (fun leaves frame hmem => hops leaves frame (mem_cons_of_mem _ hmem)) _
      ((slotStep _ _ op e).notOpen h fun leaves frame heq => hops leaves frame ?_)
    rw [heq]
    exact mem_cons_self

/-- The operation settles or expires `e`: its slot is open before and ended after. -/
def Closes (rules : Rules) (seat : Seat) (e : ℕ) (op : Operation) : Prop :=
  (∃ slot, seat.slot e = some slot ∧ slot.outcome = Outcome.open) ∧
    ∃ slot, (perform rules seat op).1.slot e = some slot ∧ slot.outcome ≠ Outcome.open

theorem Closes.notOpen (h : Closes rules seat e op) : NotOpen ((perform rules seat op).1.slot e) := by
  obtain ⟨-, slot, hslot, hne⟩ := h
  intro s hs
  rw [hslot, mem_some_iff] at hs
  exact hs ▸ hne

/-! ### The chain -/

/-- The slot's chain is over the commitments, as long as it is open. -/
def Chains (rules : Rules) (accepted : List Commitment) (slot : Option SeatSlot) : Prop :=
  ∀ s ∈ slot, s.frames = accepted.length ∧ (s.outcome = Outcome.open →
    s.accumulator = chain rules accepted ∧ s.chained.map (·.frame) = accepted.map Prod.fst ∧
      accepted.Pairwise fun a b => a.1 < b.1)

theorem chain_concat (accepted : List Commitment) (c : Commitment) :
    chain rules (accepted ++ [c]) = rules.accumulate (chain rules accepted) c.1 c.2.1 c.2.2 := by
  rw [chain, foldl_append]
  rfl

/-- A frame past the last one is past them all. -/
theorem lt_of_last_lt {accepted : List Commitment} (h : accepted.Pairwise fun a b => a.1 < b.1) {n : ℕ}
    (hlast : ((accepted.getLast?).map Prod.fst).getD 0 < n) : ∀ c ∈ accepted, c.1 < n := by
  intro c hc
  obtain ⟨init, last, rfl⟩ := (eq_nil_or_concat accepted).resolve_left (ne_nil_of_mem hc)
  rw [concat_eq_append] at h hlast hc
  rw [getLast?_concat, map_some, getD_some] at hlast
  rcases mem_append.1 hc with hc | hc
  · exact ((pairwise_append.1 h).2.2 c hc last (by simp)).trans hlast
  · rwa [mem_singleton.1 hc]

theorem SlotStep.chains
    (h : SlotStep rules seat e op event after) {accepted : List Commitment} (hchains : Chains rules accepted (seat.slot e)) :
    Chains rules ((event.map (accept accepted)).getD accepted) after := by
  cases h with
  | registered leaves frame after h =>
    rintro slot rfl
    rcases h with h | h
    · cases h
      exact ⟨rfl, fun _ => ⟨rfl, rfl, .nil⟩⟩
    · cases h
  | kept op after h =>
    rintro slot rfl
    rw [map_some, eq_comm, map_eq_some_iff] at h
    obtain ⟨old, hold, hcore⟩ := h
    simp only [core, Prod.mk.injEq] at hcore
    obtain ⟨houtcome, -, hframes, haccumulator, hchained⟩ := hcore
    rw [← houtcome, ← hframes, ← haccumulator, ← hchained]
    exact hchains old hold
  | pruned op h => exact fun slot hslot => absurd hslot (by simp)
  | committed slot after frameNumber beacon executed rhoN root hslot hopen hlast hafter =>
    rintro _ ⟨⟩
    simp only [core, Prod.mk.injEq] at hafter
    obtain ⟨-, -, hframes, haccumulator, hchained⟩ := hafter
    obtain ⟨hcount, hold⟩ := hchains slot hslot
    obtain ⟨hchain, hlisted, hascending⟩ := hold hopen
    have hpast : ∀ c ∈ accepted, c.1 < frameNumber := by
      refine lt_of_last_lt hascending ?_
      rwa [← getLast?_map, ← hlisted, getLast?_map]
    refine ⟨by simp [accept, hframes, hcount], fun _ => ⟨?_, ?_, ?_⟩⟩
    · rw [haccumulator, hchain, map_some, getD_some, accept, chain_concat]
    · simp [accept, hchained, hlisted]
    exact pairwise_append.2 ⟨hascending, by simp, fun c hc c' hc' => by
      rw [mem_singleton.1 hc']
      exact hpast c hc⟩
  | held slot after frame appFrame amount committee hslot hopen hafter =>
    rintro _ ⟨⟩
    simp only [core, Prod.mk.injEq] at hafter
    obtain ⟨-, -, hframes, haccumulator, hchained⟩ := hafter
    obtain ⟨hcount, hold⟩ := hchains slot hslot
    exact ⟨hframes.trans hcount, fun _ => haccumulator ▸ hchained ▸ hold hopen⟩
  | settled slot after frame timely amount hslot hopen hamount hafter
  | expired slot after frame hslot hopen hdue hafter =>
    rintro _ ⟨⟩
    simp only [core, Prod.mk.injEq] at hafter
    exact ⟨hafter.2.2.1.trans (hchains slot hslot).1, fun hstill => by rw [hafter.1] at hstill; cases hstill⟩

theorem acceptedSince_concat (e : ℕ) (trace : List (Operation × Answer)) (x : Operation × Answer) :
    acceptedSince e (trace ++ [x]) = ((eventOf e x).map (accept (acceptedSince e trace))).getD (acceptedSince e trace) := by
  cases h : eventOf e x <;> simp [acceptedSince, events, h]

theorem chains_run (rules : Rules) (e : ℕ) (member : Bytes32) (filter : List UInt8) (ops : List Operation) :
    Chains rules (acceptedSince e (run (perform rules) (.new member filter) ops).2)
      ((run (perform rules) (.new member filter) ops).1.slot e) := by
  refine run_invariant (perform rules) (fun trace seat => Chains rules (acceptedSince e trace) (seat.slot e)) ?_ ?_ ops
  · exact fun slot hslot => absurd hslot (by simp [new, Seat.slot])
  intro trace seat op h
  rw [acceptedSince_concat]
  exact (slotStep _ _ op e).chains h

/-! ### Committed epochs -/

/-- `e` is open with a root committed. -/
def Committed (seat : Seat) (e : ℕ) : Prop :=
  ∃ slot, seat.slot e = some slot ∧ slot.outcome = Outcome.open ∧ 0 < slot.frames

/-- The ways a committed epoch stops being one. An expiry reports the member unless kicks are suspended. -/
inductive Ends (rules : Rules) (seat : Seat) (e : ℕ) : Operation → Prop
  | settled (frame timely : ℕ) : Ends rules seat e (.settle e frame timely)
  | expired (frame : ℕ) (hdue : (settlementWindow rules e).2 ≤ frame)
      (hkick : (perform rules seat (.expire frame)).2 = .flag (!storageKicksSuspended rules frame)) :
      Ends rules seat e (.expire frame)
  | replaced (leaves : List (List ℕ)) (frame : ℕ) : Ends rules seat e (.register e leaves frame)
  | pruned (op : Operation) (h : Pruned rules seat e op) : Ends rules seat e op

/-- From the end of its window on, an expiry of a committed epoch reports the member. -/
theorem Committed.expire {frame : ℕ} (h : Committed seat e) (hdue : (settlementWindow rules e).2 ≤ frame) :
    (perform rules seat (.expire frame)).2 = .flag (!storageKicksSuspended rules frame) ∧
      Closes rules seat e (.expire frame) := by
  obtain ⟨slot, hslot, hopen, hframes⟩ := h
  obtain ⟨hmem, rfl⟩ := slot_eq_some.1 hslot
  have hisDue : slot.isDue rules frame = true := by rw [isDue, decide_eq_true_eq]; exact ⟨hopen, hdue⟩
  refine ⟨?_, ⟨slot, hslot, hopen⟩, slot.close rules frame, ?_, ?_⟩
  · rw [perform, expire, Answer.flag.injEq]
    cases hsuspended : storageKicksSuspended rules frame
    · refine any_eq_true.2 ⟨slot, hmem, ?_⟩
      simp [hisDue, ne_of_gt hframes]
    · simp
  · rw [perform, slot_expire, hslot, map_some]
  · rw [close, if_pos hisDue]
    exact fun h => Outcome.noConfusion h

theorem Committed.ends (h : Committed seat e)
    (hnot : ¬ Committed (perform rules seat op).1 e) : Ends rules seat e op := by
  have hcommitted := h
  obtain ⟨slot, hslot, hopen, hframes⟩ := h
  have hstep := slotStep rules seat op e
  generalize hafter : (perform rules seat op).1.slot e = after at hstep
  generalize eventOf e (op, (perform rules seat op).2) = event at hstep
  -- whatever keeps the outcome and does not lose a frame keeps the epoch committed
  have hkeeps : ∀ {new : SeatSlot} {pending frames : ℕ} {accumulator : Bytes32} {chained : List Chained},
      after = some new → new.core = (.open, pending, frames, accumulator, chained) → 0 < frames → False := by
    intro new pending frames accumulator chained hnew hcore hpos
    simp only [core, Prod.mk.injEq] at hcore
    exact hnot ⟨new, hafter.trans hnew, hcore.1, hcore.2.2.1 ▸ hpos⟩
  cases hstep with
  | registered leaves frame after h => exact .replaced leaves frame
  | kept op after hcore =>
    rw [hslot, map_some, map_eq_some_iff] at hcore
    obtain ⟨new, rfl, hcore⟩ := hcore
    exact (hkeeps rfl (hcore.trans (by rw [core, hopen])) hframes).elim
  | pruned op h => exact .pruned op h
  | committed old new frameNumber beacon executed rhoN root hold hopen hlast hcore =>
    exact (hkeeps rfl hcore (Nat.succ_pos _)).elim
  | held old new frame appFrame amount committee hold hopen hcore =>
    cases hslot.symm.trans hold
    exact (hkeeps rfl hcore hframes).elim
  | settled old new frame timely amount hold hopen hamount hcore => exact .settled frame timely
  | expired old new frame hold hopen hdue hcore => exact .expired frame hdue (hcommitted.expire hdue).1

/-! ### Runs in step with GLOBAL's epochs -/

/-- The epoch of the GLOBAL frame an operation is made in. -/
def Operation.epochAt (rules : Rules) : Operation → ℕ
  | .register _ _ frame | .markSealed _ frame | .hold _ frame _ _ _ | .settle _ frame _ | .expire frame =>
    epochForFrame rules.epochLengthFrames frame
  | .commit _ _ _ executed _ _ => epochForFrame rules.epochLengthFrames executed
  | .prune currentEpoch => currentEpoch

/-- A registration is for the next epoch, and a commitment for one that has begun. -/
def Timely (rules : Rules) : Operation → Prop
  | .register epoch _ frame => epoch = epochForFrame rules.epochLengthFrames frame + 1
  | .commit epoch _ _ executed _ _ => epoch ≤ epochForFrame rules.epochLengthFrames executed
  | _ => True

/-- The operations of a run come in GLOBAL's order, each in its time. -/
structure InStep (rules : Rules) (ops : List Operation) : Prop where
  ordered : ops.Pairwise fun a b => a.epochAt rules ≤ b.epochAt rules
  timely : ∀ op ∈ ops, Timely rules op

/-- No slot is for later than the next epoch, and none committed to for later than this one. -/
def Begun (current : ℕ) (seat : Seat) : Prop :=
  ∀ e slot, seat.slot e = some slot → e ≤ current + 1 ∧ (0 < slot.frames → e ≤ current)

variable {current : ℕ}

theorem begun_step (hop : op.epochAt rules ≤ current) (htimely : Timely rules op)
    (h : Begun current seat) : Begun current (perform rules seat op).1 := by
  intro e new hnew
  have hstep := slotStep rules seat op e
  rw [hnew] at hstep
  generalize eventOf e (op, (perform rules seat op).2) = event at hstep
  generalize hafter : some new = after at hstep
  have hsame : ∀ {old : SeatSlot} {outcome : Outcome} {pending : ℕ} {accumulator : Bytes32} {chained : List Chained},
      seat.slot e = some old → new.core = (outcome, pending, old.frames, accumulator, chained) →
      e ≤ current + 1 ∧ (0 < new.frames → e ≤ current) := by
    intro old outcome pending accumulator chained hold hcore
    simp only [core, Prod.mk.injEq] at hcore
    exact hcore.2.2.1 ▸ h e old hold
  cases hstep with
  | registered leaves frame after h =>
    have he : e = epochForFrame rules.epochLengthFrames frame + 1 := htimely
    rcases h with h | h
    · cases hafter.trans h
      exact ⟨he.trans_le (Nat.succ_le_succ hop), fun hpos => absurd hpos (lt_irrefl 0)⟩
    · cases hafter.trans h
  | kept op after hcore =>
    rw [← hafter, map_some, eq_comm, map_eq_some_iff] at hcore
    obtain ⟨old, hold, hcore⟩ := hcore
    exact hsame hold hcore.symm
  | pruned op h => cases hafter
  | committed old new' frameNumber beacon executed rhoN root hold hopen hlast hcore =>
    have he : e ≤ current := (htimely : e ≤ epochForFrame rules.epochLengthFrames executed).trans hop
    exact ⟨Nat.le_succ_of_le he, fun _ => he⟩
  | held old new' frame appFrame amount committee hold hopen hcore
  | settled old new' frame timely amount hold hopen hamount hcore
  | expired old new' frame hold hopen hdue hcore =>
    cases hafter
    exact hsame hold hcore

theorem begun_run (ops : List Operation) (hops : ∀ op ∈ ops, op.epochAt rules ≤ current)
    (htimely : ∀ op ∈ ops, Timely rules op) (seat : Seat) (h : Begun current seat) :
    Begun current (run (perform rules) seat ops).1 := by
  induction ops generalizing seat with
  | nil => exact h
  | cons op ops ih =>
    rw [forall_mem_cons] at hops htimely
    exact ih hops.2 htimely.2 _ (begun_step hops.1 htimely.1 h)

/-- At most the slots of four epochs are not two epochs past. -/
theorem Begun.length_le (h : Begun current seat) :
    (seat.slots.filter fun slot => decide (current ≤ saturatingAdd slot.epoch 2)).length ≤ 4 := by
  have hnodup : ((seat.slots.filter fun slot => decide (current ≤ saturatingAdd slot.epoch 2)).map (·.epoch)).Nodup := by
    rw [List.Nodup, pairwise_map]
    exact (seat.ascending.filter _).imp ne_of_lt
  have hsub : ((seat.slots.filter fun slot => decide (current ≤ saturatingAdd slot.epoch 2)).map (·.epoch)) ⊆
      .range' (current - 2) 4 := by
    intro e he
    obtain ⟨slot, hslot, rfl⟩ := mem_map.1 he
    rw [mem_filter, decide_eq_true_eq] at hslot
    have hle := (h slot.epoch slot (slot_eq_some.2 ⟨hslot.1, rfl⟩)).1
    have hge := hslot.2.trans (saturatingAdd_le slot.epoch 2)
    rw [mem_range'_1]
    omega
  simpa using (subperm_of_subset hnodup hsub).length_le

theorem prunesAt_eq (h : prunesAt rules op = some current) : current = op.epochAt rules := by
  cases op with
  | register epoch leaves frame | prune currentEpoch => exact (some.inj h).symm
  | markSealed | commit | hold | settle | expire => cases h

/-- In step with GLOBAL, an operation that ends a committed epoch neither registers it again nor drops it for
    want of room. -/
theorem ends_in_step {a b : List Operation} {member : Bytes32} {filter : List UInt8}
    (h : InStep rules (a ++ op :: b)) (hcommitted : Committed (run (perform rules) (.new member filter) a).1 e) :
    (∀ leaves frame, op ≠ .register e leaves frame) ∧
      (Pruned rules (run (perform rules) (.new member filter) a).1 e op →
        ∃ current, prunesAt rules op = some current ∧ saturatingAdd e 2 < current) := by
  have hbefore : ∀ x ∈ a, x.epochAt rules ≤ op.epochAt rules := fun x hx =>
    (pairwise_append.1 h.ordered).2.2 x hx op mem_cons_self
  have hbegun := begun_run a hbefore (fun x hx => h.timely x (mem_append_left _ hx)) (.new member filter)
    fun e slot hslot => absurd hslot (by simp [new, Seat.slot])
  have htimely := h.timely op (mem_append_right _ mem_cons_self)
  obtain ⟨slot, hslot, hopen, hframes⟩ := hcommitted
  have he := (hbegun e slot hslot).2 hframes
  refine ⟨?_, ?_⟩
  · rintro leaves frame rfl
    have hnext : e = epochForFrame rules.epochLengthFrames frame + 1 := htimely
    have hthis : e ≤ epochForFrame rules.epochLengthFrames frame := he
    omega
  rintro ⟨current, hcurrent, hpast | hfull⟩
  · exact ⟨current, hcurrent, hpast⟩
  · rw [prunesAt_eq hcurrent] at hfull
    exact absurd (hfull.trans hbegun.length_le) (by decide)

/-! ### The whole run -/

/-- What holds of an epoch in a run from a seat's first state. -/
structure Audited (rules : Rules) (start : Seat) (ops : List Operation) (e : ℕ) : Prop where
  /-- No more is paid than was held. -/
  covered : paidTotal e (run (perform rules) start ops).2 ≤ heldTotal e (run (perform rules) start ops).2
  /-- Between two endings the epoch is registered again. -/
  endedOnce : ∀ a op b op' c, ops = a ++ op :: (b ++ op' :: c) →
    Closes rules (run (perform rules) start a).1 e op →
    Closes rules (run (perform rules) start (a ++ op :: b)).1 e op' → ∃ leaves frame, .register e leaves frame ∈ b
  /-- After an ending or a new registration only what is held from then on is paid. -/
  forfeited : ∀ a op b, ops = a ++ op :: b →
    (Closes rules (run (perform rules) start a).1 e op ∨ ∃ leaves frame, op = .register e leaves frame) →
    paidTotal e (run (perform rules) (run (perform rules) start (a ++ [op])).1 b).2 ≤
      heldTotal e (run (perform rules) (run (perform rules) start (a ++ [op])).1 b).2
  /-- While it is open, the accumulator is the chain over the commitments accepted since it was registered, in
      increasing frame order. -/
  chained : ∀ slot, (run (perform rules) start ops).1.slot e = some slot → slot.outcome = Outcome.open →
    slot.accumulator = chain rules (acceptedSince e (run (perform rules) start ops).2) ∧
      slot.frames = (acceptedSince e (run (perform rules) start ops).2).length ∧
      (acceptedSince e (run (perform rules) start ops).2).Pairwise fun a b => a.1 < b.1
  /-- Once its window has ended, an expiry ends a committed epoch and reports its member. -/
  expires : ∀ frame, Committed (run (perform rules) start ops).1 e → (settlementWindow rules e).2 ≤ frame →
    Closes rules (run (perform rules) start ops).1 e (.expire frame) ∧
      (perform rules (run (perform rules) start ops).1 (.expire frame)).2 =
        .flag (!storageKicksSuspended rules frame)
  /-- Until then a committed epoch is ended by a settlement, replaced by a registration of it, or pruned. -/
  ends : ∀ a op b, ops = a ++ op :: b → Committed (run (perform rules) start a).1 e →
    ¬ Committed (run (perform rules) start (a ++ [op])).1 e → Ends rules (run (perform rules) start a).1 e op
  /-- In step with GLOBAL it is not replaced, and pruned only two epochs past. -/
  inStep : InStep rules ops → ∀ a op b, ops = a ++ op :: b → Committed (run (perform rules) start a).1 e →
    (∀ leaves frame, op ≠ .register e leaves frame) ∧
      (Pruned rules (run (perform rules) start a).1 e op →
        ∃ current, prunesAt rules op = some current ∧ saturatingAdd e 2 < current)

theorem run_concat (start : Seat) (a : List Operation) (op : Operation) :
    (run (perform rules) start (a ++ [op])).1 = (perform rules (run (perform rules) start a).1 op).1 := by
  rw [run_append]
  rfl

/-- A registration leaves nothing held. -/
theorem openPending_register (leaves : List (List ℕ)) (frame e : ℕ) :
    openPending ((perform rules seat (.register e leaves frame)).1.slot e) = 0 := by
  have hstep := slotStep_register rules seat e leaves frame e
  rw [if_pos rfl] at hstep
  change openPending ((seat.register rules e leaves frame).slot e) = 0
  generalize (seat.register rules e leaves frame).slot e = after at hstep
  cases hstep with
  | registered _ _ _ h =>
    rcases h with rfl | rfl
    · rfl
    · rfl

/-- However the operations come, a seat pays for an epoch at most what it held, once, and never what it held
    before the epoch ended or was registered again; and a committed epoch ends with a settlement or a reported
    expiry unless it is registered again or pruned. -/
theorem held_rewards_released_once (rules : Rules) (member : Bytes32) (filter : List UInt8)
    (ops : List Operation) (e : ℕ) : Audited rules (.new member filter) ops e := by
  have hspent : ∀ (start : Seat) (b : List Operation), openPending (start.slot e) = 0 →
      paidTotal e (run (perform rules) start b).2 ≤ heldTotal e (run (perform rules) start b).2 := by
    intro start b hzero
    have h := paidTotal_le rules e b start
    rwa [hzero, zero_add] at h
  refine ⟨hspent _ _ rfl, ?_, ?_, ?_, ?_, ?_, ?_⟩
  · rintro a op b op' c - hcloses hcloses'
    by_contra hnone
    push Not at hnone
    have hnot : NotOpen ((run (perform rules) _ b).1.slot e) := notOpen_run b hnone _ hcloses.notOpen
    obtain ⟨⟨slot, hslot, hopen⟩, -⟩ := hcloses'
    rw [show a ++ op :: b = (a ++ [op]) ++ b by simp, run_append, run_concat] at hslot
    exact hnot slot hslot hopen
  · rintro a op b - hend
    refine hspent _ _ ?_
    rw [run_concat]
    rcases hend with hcloses | ⟨leaves, frame, rfl⟩
    · exact hcloses.notOpen.openPending
    · exact openPending_register leaves frame e
  · intro slot hslot hopen
    obtain ⟨hframes, hchain⟩ := chains_run rules e member filter ops slot hslot
    obtain ⟨haccumulator, -, hascending⟩ := hchain hopen
    exact ⟨haccumulator, hframes, hascending⟩
  · intro frame hcommitted hdue
    exact (hcommitted.expire hdue).symm
  · rintro a op b - hcommitted hnot
    rw [run_concat] at hnot
    exact hcommitted.ends hnot
  · rintro hstep a op b rfl hcommitted
    exact ends_in_step hstep hcommitted

/-- Epochs of ten frames, kicks never suspended, and a chain that only counts. -/
def tenFrames : Rules := ⟨10, u64Max, fun acc _ _ _ => acc + 1⟩

/-- A root committed in epoch 5 reports the member when the epoch expires; registered again in between, as
    `register` allows, the epoch has no root left to prove, and expires unreported. -/
theorem registered_again_unreported :
    ((run (perform tenFrames) (.new 7 [1]) [.register 5 [[]] 41, .markSealed 5 42,
      .commit 5 3 50 51 [] 9, .expire 70]).2.map Prod.snd = [.done, .flag true, .flag true, .flag true]) ∧
    (run (perform tenFrames) (.new 7 [1]) [.register 5 [[]] 41, .markSealed 5 42,
      .commit 5 3 50 51 [] 9, .register 5 [[]] 52, .expire 70]).2.map Prod.snd =
        [.done, .flag true, .flag true, .done, .flag false] := by
  decide +kernel

end Quil.StorageSeat
