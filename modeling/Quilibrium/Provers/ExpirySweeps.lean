import Quilibrium.Provers.StorageExpiry

/-! Every queued seat is swept once. Between its first root and the sweep of its bucket a seat stays queued, as no
    epoch of the same place in the ring is queued in that time; the sweep visits it and closes the epoch, and from
    then on the epoch is neither queued nor opened again. All of it rests on roots being chained BEFORE their epoch's
    settlement window ends, which a drained header need not meet. -/

namespace Quil.StorageExpiry
open Schemes StorageSeat AllocationEpochs List RingQueues Nat Function

variable {net : Network} {frame : ℕ}

/-! ### Seats across an operation -/

/-- Every seat is kept at its own address. -/
def Placed (net : Network) (s : State) : Prop :=
  ∀ a seat, s.seats a = some seat → net.seatAddress seat.member seat.filter = a

/-- The epoch is not open in the seat at the address. -/
def ClosedAt (s : State) (a : Bytes32) (e : ℕ) : Prop := ∀ seat, s.seats a = some seat → NotOpen (seat.slot e)

/-- The settlement window of the epoch ended by the frame. -/
def Ended (net : Network) (frame e : ℕ) : Prop := (e + 2) * (net.rules.epochLengthFrames : ℕ) ≤ frame

/-- The queues are as they were, seats stay placed, and ended epochs stay closed. -/
structure Quiet (net : Network) (frame : ℕ) (s s' : State) : Prop where
  placed : Placed net s'
  closed : ∀ e a, Ended net frame e → ClosedAt s a e → ClosedAt s' a e
  queues : s'.queues = s.queues

variable {s : State}

theorem Quiet.refl (h : Placed net s) : Quiet net frame s s := ⟨h, fun _ _ _ h => h, rfl⟩

theorem Quiet.trans {s₁ s₂ s₃ : State} (h : Quiet net frame s₁ s₂) (h' : Quiet net frame s₂ s₃) :
    Quiet net frame s₁ s₃ :=
  ⟨h'.placed, fun e a he hclosed => h'.closed e a he (h.closed e a he hclosed), h'.queues.trans h.queues⟩

theorem quiet_run {α β : Type} {f : State → α → State × β} (hf : ∀ s a, Placed net s → Quiet net frame s (f s a).1)
    (as : List α) (h : Placed net s) : Quiet net frame s (run f s as).1 := by
  induction as generalizing s with
  | nil => exact Quiet.refl h
  | cons a as ih => exact (hf s a h).trans (ih (hf s a h).placed)

/-- A change of a seat that opens no ended epoch. -/
structure Kept (net : Network) (frame : ℕ) (seat after : Seat) : Prop where
  member : after.member = seat.member
  filter : after.filter = seat.filter
  closed : ∀ e, Ended net frame e → NotOpen (seat.slot e) → NotOpen (after.slot e)

theorem Kept.trans {seat₁ seat₂ seat₃ : Seat} (h : Kept net frame seat₁ seat₂) (h' : Kept net frame seat₂ seat₃) :
    Kept net frame seat₁ seat₃ :=
  ⟨h'.member.trans h.member, h'.filter.trans h.filter, fun e he hclosed => h'.closed e he (h.closed e he hclosed)⟩

theorem Kept.refl (seat : Seat) : Kept net frame seat seat := ⟨rfl, rfl, fun _ _ h => h⟩

theorem member_perform (rules : Rules) (seat : Seat) (op : Operation) :
    (StorageSeat.perform rules seat op).1.member = seat.member ∧
      (StorageSeat.perform rules seat op).1.filter = seat.filter := by
  cases op with
  | register epoch leaves f | prune currentEpoch | expire f => exact ⟨rfl, rfl⟩
  | markSealed epoch f | commit epoch frameNumber beacon executed rhoN root | hold epoch f appFrame amount committee
  | settle epoch f timely =>
    simp only [StorageSeat.perform, Seat.markSealed, Seat.commit, Seat.hold, Seat.settle]
    repeat' split
    all_goals exact ⟨rfl, rfl⟩

section
variable (seat : Seat)

/-- A seat's operation other than a registration of an ended epoch. -/
theorem kept_perform (op : Operation) (hop : ∀ e, Ended net frame e → ∀ leaves f, op ≠ .register e leaves f) :
    Kept net frame seat (StorageSeat.perform net.rules seat op).1 where
  member := (member_perform net.rules seat op).1
  filter := (member_perform net.rules seat op).2
  closed e he hclosed := (slotStep net.rules seat op e).notOpen hclosed (hop e he)

theorem kept_expire (f : ℕ) : Kept net frame seat (seat.expire net.rules f).2 :=
  kept_perform seat (.expire f) (by simp)

theorem kept_commit (epoch frameNumber beacon executed : ℕ) (rhoN : List UInt8) (root : Bytes32) :
    Kept net frame seat (seat.commit net.rules epoch frameNumber beacon executed rhoN root).2 :=
  kept_perform seat (.commit epoch frameNumber beacon executed rhoN root) (by simp)

theorem kept_hold (epoch f appFrame : ℕ) (amount : ℤ) (committee : ℕ) :
    Kept net frame seat (seat.hold epoch f appFrame amount committee).2 :=
  kept_perform seat (.hold epoch f appFrame amount committee) (by simp)

theorem kept_applyProof (f : ℕ) (seals : Option ℕ) (settles : Option (ℕ × ℕ)) :
    Kept net frame seat (applyProof f seals settles seat) := by
  have hseal : ∀ epoch, Kept net frame seat (seat.markSealed epoch f).2 := fun epoch =>
    kept_perform seat (.markSealed epoch f) (by simp)
  have hsettle : ∀ (seat : Seat) epoch timely, Kept net frame seat (seat.settle epoch f timely).2 :=
    fun seat epoch timely => kept_perform seat (.settle epoch f timely) (by simp)
  rcases seals with _ | epoch
  · cases settles with
    | none => exact Kept.refl seat
    | some settles => exact hsettle seat _ _
  cases settles with
  | none => exact hseal epoch
  | some settles => exact (hseal epoch).trans (hsettle _ _ _)

/-- The epoch after a frame's own has not ended. -/
theorem kept_register (leaves : List (List ℕ)) : Kept net frame seat
    (seat.register net.rules (epochForFrame net.rules.epochLengthFrames frame + 1) leaves frame) := by
  refine kept_perform seat (.register _ leaves frame) fun e he leaves' f heq => ?_
  rw [Operation.register.injEq] at heq
  obtain ⟨rfl, -⟩ := heq
  have hlt := lt_mul_div_succ frame net.rules.epochLengthFrames.pos
  rw [Ended, epochForFrame] at he
  rw [mul_comm] at hlt
  have : (frame / (net.rules.epochLengthFrames : ℕ) + 1) * (net.rules.epochLengthFrames : ℕ) ≤
      (frame / (net.rules.epochLengthFrames : ℕ) + 1 + 2) * (net.rules.epochLengthFrames : ℕ) :=
    mul_le_mul_right _ (by omega)
  omega

end

variable {seat : Seat}

theorem quiet_write (h : Placed net s) {a : Bytes32} {after : Seat}
    (hseat : s.seats a = some seat ∨ s.seats a = none ∧ seat.slots = [] ∧ net.seatAddress seat.member seat.filter = a)
    (hkept : Kept net frame seat after) : Quiet net frame s (write net s after) := by
  have ha : net.seatAddress after.member after.filter = a := by
    rw [hkept.member, hkept.filter]
    rcases hseat with hseat | ⟨-, -, ha⟩
    · exact h a seat hseat
    · exact ha
  have hclosed : ∀ e, ClosedAt s a e → NotOpen (seat.slot e) := fun e hclosed => by
    rcases hseat with hseat | ⟨-, hslots, -⟩
    · exact hclosed seat hseat
    intro slot hslot
    rw [Option.mem_def, Seat.slot_eq_some, hslots] at hslot
    exact absurd hslot.1 not_mem_nil
  unfold write
  rw [ha]
  refine ⟨fun b other hother => ?_, fun e b he hb other hother => ?_, rfl⟩
  · dsimp only at hother
    by_cases hba : b = a
    · subst hba
      rw [update_self, Option.some.injEq] at hother
      exact hother ▸ ha
    · rw [update_of_ne hba] at hother
      exact h b other hother
  dsimp only at hother
  by_cases hba : b = a
  · subst hba
    rw [update_self, Option.some.injEq] at hother
    exact hother ▸ hkept.closed e he (hclosed e hb)
  · rw [update_of_ne hba] at hother
    exact hb other hother

theorem quiet_writeChanged (h : Placed net s) {a : Bytes32} {after : Seat} (hseat : s.seats a = some seat)
    (hkept : Kept net frame seat after) : Quiet net frame s (writeChanged net s seat after) := by
  unfold writeChanged
  split
  · exact Quiet.refl h
  · exact quiet_write h (.inl hseat) hkept

theorem quiet_touch (h : Placed net s) (member : Bytes32) (filter : List UInt8) {change : Seat → Seat × Bool}
    (hchange : ∀ seat, Kept net frame seat (change seat).1) :
    Quiet net frame s (touch net frame s member filter change).1 := by
  unfold touch
  split
  · exact Quiet.refl h
  · next seat hseat => exact quiet_writeChanged h hseat ((kept_expire seat frame).trans (hchange _))

theorem kept_commitRoot (seat : Seat) (epoch : ℕ) (header : Header) (commitment : Bytes32 × ℕ) :
    Kept net frame seat (commitRoot net frame epoch header commitment seat).1 :=
  kept_commit seat _ _ _ _ _ _

/-! ### Roots in time -/

theorem settlementWindow_le (rules : Rules) (e : ℕ) :
    (settlementWindow rules e).2 ≤ (e + 2) * (rules.epochLengthFrames : ℕ) := by
  have hnext : saturatingMul (saturatingAdd e 1) rules.epochLengthFrames ≤ (e + 1) * (rules.epochLengthFrames : ℕ) :=
    (min_le_left _ _).trans (mul_le_mul_right _ (saturatingAdd_le e 1))
  calc (settlementWindow rules e).2
      ≤ saturatingMul (saturatingAdd e 1) rules.epochLengthFrames + rules.epochLengthFrames := saturatingAdd_le _ _
    _ ≤ (e + 1) * rules.epochLengthFrames + rules.epochLengthFrames := Nat.add_le_add_right hnext _
    _ = (e + 2) * rules.epochLengthFrames := by ring

variable {e : ℕ}

/-- An ended epoch is not open once its seat was expired. -/
theorem notOpen_expire (h : Ended net frame e) (seat : Seat) : NotOpen ((seat.expire net.rules frame).2.slot e) := by
  intro slot hslot
  rw [Option.mem_def, Seat.slot_expire, Option.map_eq_some_iff] at hslot
  obtain ⟨old, hold, rfl⟩ := hslot
  obtain ⟨-, rfl⟩ := Seat.slot_eq_some.1 hold
  rw [SeatSlot.close]
  split
  · exact fun h => Outcome.noConfusion h
  next hdue =>
  intro hopen
  exact hdue (decide_eq_true ⟨hopen, (settlementWindow_le _ _).trans h⟩)

variable {epoch : ℕ}

theorem not_notOpen_of_commit {frameNumber beacon executed : ℕ} {rhoN : List UInt8} {root : Bytes32}
    (h : (seat.commit net.rules epoch frameNumber beacon executed rhoN root).1 = true) : ¬ NotOpen (seat.slot epoch) := by
  rw [Seat.commit] at h
  split at h
  · cases h
  next slot hslot =>
  dsimp only at h
  split at h
  · cases h
  next hall =>
  push Not at hall
  exact fun hnot => hnot slot hslot hall.2.1

variable {header : Header}

/-- A root is chained while its epoch is open, so after the seat's ended epochs were closed its own has not ended. -/
theorem not_ended_of_commitRoot {commitment : Bytes32 × ℕ}
    (h : (commitRoot net frame epoch header commitment (seat.expire net.rules frame).2).2 = true) :
    ¬ Ended net frame epoch := by
  intro hended
  rw [commitRoot, Bool.and_eq_true] at h
  exact not_notOpen_of_commit h.1 (notOpen_expire hended seat)

theorem not_ended_of_touch {member : Bytes32} {filter : List UInt8} {commitment : Bytes32 × ℕ}
    (h : (touch net frame s member filter (commitRoot net frame epoch header commitment)).2 = true) :
    ¬ Ended net frame epoch := by
  unfold touch at h
  split at h
  · cases h
  · exact not_ended_of_commitRoot h

/-- The epoch of a chained root began, and its proofs are by hash. -/
theorem storageEpoch_begun (hepoch : storageEpoch net header = some epoch)
    (hanchor : header.globalFrameNumber < frame) :
    net.hashStorageProofsAt epoch = true ∧ epoch ≤ epochForFrame net.rules.epochLengthFrames frame := by
  unfold storageEpoch at hepoch
  dsimp only at hepoch
  split at hepoch
  · next h =>
    rw [Option.some.injEq] at hepoch
    rw [← hepoch]
    exact ⟨h.2, Nat.div_le_div_right hanchor.le⟩
  · cases hepoch

/-! ### What an operation does -/

/-- What an operation does: it queues at most one seat, for an epoch that has begun and not ended. -/
structure Performed (net : Network) (frame : ℕ) (s s' : State) (queued : Option (ℕ × Bytes32)) : Prop where
  placed : Placed net s'
  closed : ∀ e a, Ended net frame e → ClosedAt s a e → ClosedAt s' a e
  kept : queued = none → s'.queues = s.queues
  pushed : ∀ q ∈ queued, s'.queues = s.queues.push EXPIRY_RING expiryBucket q.1 q.2
  begun : ∀ q ∈ queued, net.hashStorageProofsAt q.1 = true ∧
    q.1 ≤ epochForFrame net.rules.epochLengthFrames frame ∧ ¬ Ended net frame q.1

variable {s' : State}

theorem Quiet.performed (h : Quiet net frame s s') : Performed net frame s s' none :=
  ⟨h.placed, h.closed, fun _ => h.queues, by simp, by simp⟩

theorem Performed.quiet {s'' : State} {queued : Option (ℕ × Bytes32)} (h : Performed net frame s s' queued)
    (h' : Quiet net frame s' s'') : Performed net frame s s'' queued where
  placed := h'.placed
  closed e a he hclosed := h'.closed e a he (h.closed e a he hclosed)
  kept hnone := h'.queues.trans (h.kept hnone)
  pushed q hq := h'.queues.trans (h.pushed q hq)
  begun := h.begun

theorem performed_enqueueFirst (h : Quiet net frame s s') {address : Bytes32} {first : Bool}
    (hfirst : first = true → net.hashStorageProofsAt epoch = true ∧
      epoch ≤ epochForFrame net.rules.epochLengthFrames frame ∧ ¬ Ended net frame epoch) :
    Performed net frame s (enqueueFirst s' epoch address first).1 (enqueueFirst s' epoch address first).2 := by
  rcases first with _ | _
  · exact h.performed
  refine ⟨h.placed, h.closed, fun hnone => (by cases hnone), fun q hq => ?_, fun q hq => ?_⟩
  · cases hq
    exact congrArg (fun queues : RingQueues Bytes32 => queues.push EXPIRY_RING expiryBucket epoch address) h.queues
  · cases hq
    exact hfirst rfl

/-- A drained header is executed before its epoch's settlement window ends. -/
def InTime (net : Network) (frame : ℕ) : Op → Prop
  | .drained header => ¬ Ended net frame (epochForFrame net.rules.epochLengthFrames header.globalFrameNumber)
  | _ => True

instance decidableInTime (net : Network) (frame : ℕ) : DecidablePred (InTime net frame)
  | .drained _ => inferInstanceAs (Decidable (¬ _ ≤ _))
  | .register _ _ _ => instDecidableTrue
  | .prove _ _ _ _ => instDecidableTrue
  | .header _ _ _ => instDecidableTrue

theorem performed_header (h : Placed net s) (hepoch : storageEpoch net header = some epoch)
    (hanchor : header.globalFrameNumber < frame) (participants : List (Bytes32 × ℤ)) (committee : ℕ) :
    Performed net frame s (holdStorageShares net frame epoch committee header participants s).1
      (holdStorageShares net frame epoch committee header participants s).2 := by
  have hchained : ∀ chained : State × Option (ℕ × Bytes32), Performed net frame s chained.1 chained.2 →
      Performed net frame s (run (holdShare net frame epoch committee header) chained.1 participants).1 chained.2 :=
    fun chained hdone => hdone.quiet
      (quiet_run (fun s' participant hs' => quiet_touch hs' _ _ fun seat => kept_hold seat _ _ _ _ _) _ hdone.placed)
  unfold holdStorageShares
  refine hchained _ ?_
  split
  · exact (Quiet.refl h).performed
  next commitment _ =>
  refine performed_enqueueFirst (quiet_touch h _ _ fun seat => kept_commitRoot seat epoch header commitment) fun hfirst => ?_
  obtain ⟨hhash, hbegun⟩ := storageEpoch_begun hepoch hanchor
  exact ⟨hhash, hbegun, not_ended_of_touch hfirst⟩

theorem performed_drained (h : Placed net s) (hop : InTime net frame (.drained header)) :
    Performed net frame s (commitDrainedStorage net frame header s).1 (commitDrainedStorage net frame header s).2 := by
  unfold commitDrainedStorage
  split
  · next epoch commitment seat hepoch hcommitment hseat =>
    refine performed_enqueueFirst (quiet_writeChanged h hseat (kept_commitRoot seat epoch header commitment)) fun _ => ?_
    rw [storageCommitment, Option.filter_eq_some_iff, decide_eq_true_eq] at hcommitment
    obtain ⟨hhash, hbegun⟩ := storageEpoch_begun hepoch (hcommitment.2.1.trans_lt hcommitment.2.2)
    have heq : epoch = epochForFrame net.rules.epochLengthFrames header.globalFrameNumber := by
      unfold storageEpoch at hepoch
      dsimp only at hepoch
      split at hepoch
      · exact (Option.some.inj hepoch).symm
      · cases hepoch
    exact ⟨hhash, hbegun, heq ▸ hop⟩
  · exact (Quiet.refl h).performed

theorem performed_perform (h : Placed net s) {op : Op} (hop : InTime net frame op) :
    Performed net frame s (perform net frame s op).1 (perform net frame s op).2 := by
  cases op with
  | register member filter leaves =>
    unfold perform
    dsimp only
    split
    · refine (quiet_write h (a := net.seatAddress member filter) ?_ (kept_register _ leaves)).performed
      cases hseat : s.seats (net.seatAddress member filter) with
      | none => exact .inr ⟨rfl, rfl, rfl⟩
      | some seat => exact .inl rfl
    · exact (Quiet.refl h).performed
  | prove member filter seals settles =>
    unfold perform
    dsimp only
    split
    · exact (Quiet.refl h).performed
    · next seat hseat => exact (quiet_writeChanged h hseat (kept_applyProof seat frame seals settles)).performed
  | header header participants committee =>
    unfold perform
    dsimp only
    split
    · next hwindow hepoch =>
      rw [anchorInWindow, decide_eq_true_eq] at hwindow
      exact performed_header h hepoch (by omega) participants committee
    · exact (Quiet.refl h).performed
  | drained header => exact performed_drained h hop

/-! ### Queues until they are swept -/

theorem expiryBucket_lt (a : Bytes32) : expiryBucket a < EXPIRY_BUCKETS := mod_lt _ (by decide)

/-- The sweeps done, by epoch and bucket, are of ended epochs, and of all those that ended an epoch ago. -/
structure SweptThrough (net : Network) (frame : ℕ) (done : ℕ → ℕ → Prop) : Prop where
  ended : ∀ e b, done e b → Ended net frame e
  all : ∀ e b, b < EXPIRY_BUCKETS → Ended net frame (e + 1) → done e b

/-- What holds of the first roots, the visits and the state once the sweeps in `done` are done. -/
structure Inv (net : Network) (frame : ℕ) (done : ℕ → ℕ → Prop) (first visited : List (ℕ × Bytes32)) (s : State) :
    Prop where
  placed : Placed net s
  hash : ∀ q ∈ first, net.hashStorageProofsAt q.1 = true
  begun : ∀ q ∈ first, q.1 ≤ epochForFrame net.rules.epochLengthFrames frame
  queued : ∀ e a, (e, a) ∈ first → ¬ done e (expiryBucket a) → a ∈ s.queues.read EXPIRY_RING e (expiryBucket a)
  waiting : ∀ e b a, a ∈ s.queues.read EXPIRY_RING e b → (e, a) ∈ first ∧ b = expiryBucket a ∧ ¬ done e b
  nodup : ∀ e b, (s.queues.read EXPIRY_RING e b).Nodup
  once : ∀ e a, (e, a) ∈ first → done e (expiryBucket a) → visited.count (e, a) = 1
  notYet : ∀ e a, ¬ ((e, a) ∈ first ∧ done e (expiryBucket a)) → (e, a) ∉ visited
  closed : ∀ e a, (e, a) ∈ first → done e (expiryBucket a) → ClosedAt s a e

variable {b : ℕ} {buckets : List ℕ}

section
variable {done : ℕ → ℕ → Prop} {first visited : List (ℕ × Bytes32)}

/-- Epochs of one place in the ring that are both begun and one of them not ended: the other was swept. -/
theorem done_of_place (hdone : SweptThrough net frame done) {e' : ℕ} (hb : b < EXPIRY_BUCKETS)
    (he : e ≤ epochForFrame net.rules.epochLengthFrames frame) (hne : e ≠ e')
    (hplace : e % EXPIRY_RING = e' % EXPIRY_RING) (hbegun : e' ≤ epochForFrame net.rules.epochLengthFrames frame)
    (hended : ¬ Ended net frame e') : done e b := by
  have hpos := net.rules.epochLengthFrames.pos
  have hfloor : epochForFrame net.rules.epochLengthFrames frame * (net.rules.epochLengthFrames : ℕ) ≤ frame :=
    div_mul_le_self _ _
  rw [EXPIRY_RING] at hplace
  rcases lt_or_gt_of_ne hne with hlt | hgt
  · refine hdone.all e b hb (le_trans (mul_le_mul_right _ ?_) hfloor)
    omega
  · refine absurd (le_trans (mul_le_mul_right _ ?_) hfloor) hended
    omega

theorem Inv.quiet (h : Inv net frame done first visited s) (hdone : SweptThrough net frame done)
    (hplaced : Placed net s') (hclosed : ∀ e a, Ended net frame e → ClosedAt s a e → ClosedAt s' a e)
    (hqueues : s'.queues = s.queues) : Inv net frame done first visited s' := by
  obtain ⟨-, hhash, hbegun, hqueued, hwaiting, hnodup, honce, hnotYet, hclosed'⟩ := h
  refine ⟨hplaced, hhash, hbegun, ?_, ?_, ?_, honce, hnotYet, fun e a hfirst hd =>
    hclosed e a (hdone.ended e _ hd) (hclosed' e a hfirst hd)⟩
  all_goals rw [hqueues]; assumption

/-- One more operation. -/
theorem Inv.afterOp (h : Inv net frame done first visited s) (hdone : SweptThrough net frame done)
    {queued : Option (ℕ × Bytes32)} (hop : Performed net frame s s' queued) :
    Inv net frame done (first ++ queued.toList) visited s' := by
  rcases queued with _ | q
  · rw [Option.toList_none, append_nil]
    exact h.quiet hdone hop.placed hop.closed (hop.kept rfl)
  obtain ⟨e', a'⟩ := q
  have hqueues := hop.pushed (e', a') rfl
  obtain ⟨hhash, hbegun, hended⟩ := hop.begun (e', a') rfl
  dsimp only at hqueues hhash hbegun hended
  have hnotDone : ∀ b, ¬ done e' b := fun b hd => hended (hdone.ended e' b hd)
  have hmem : ∀ q, q ∈ first ++ [(e', a')] ↔ q ∈ first ∨ q = (e', a') := fun q => by simp
  rw [Option.toList_some]
  refine ⟨hop.placed, forall_mem_append.2 ⟨h.hash, forall_mem_singleton.2 hhash⟩,
    forall_mem_append.2 ⟨h.begun, forall_mem_singleton.2 hbegun⟩, fun e a hfirst hd => ?_, fun e b a hread => ?_,
    fun e b => ?_, fun e a hfirst hd => ?_, fun e a hnot => ?_, fun e a hfirst hd => ?_⟩
  · rw [hqueues, mem_read_push]
    rcases (hmem _).1 hfirst with hfirst | heq
    · refine .inr ⟨h.queued e a hfirst hd, fun hne hplace _ => hd ?_⟩
      exact done_of_place hdone (expiryBucket_lt a) (h.begun _ hfirst) hne hplace hbegun hended
    · cases heq
      exact .inl ⟨rfl, rfl, rfl⟩
  · rw [hqueues, mem_read_push] at hread
    rcases hread with ⟨rfl, rfl, rfl⟩ | ⟨hread, -⟩
    · exact ⟨(hmem _).2 (.inr rfl), rfl, hnotDone _⟩
    · obtain ⟨hfirst, hb, hd⟩ := h.waiting e b a hread
      exact ⟨(hmem _).2 (.inl hfirst), hb, hd⟩
  · rw [hqueues]
    exact nodup_read_push h.nodup
  · rcases (hmem _).1 hfirst with hfirst | heq
    · exact h.once e a hfirst hd
    · cases heq
      exact absurd hd (hnotDone _)
  · refine h.notYet e a fun hboth => hnot ⟨(hmem _).2 (.inl hboth.1), hboth.2⟩
  · rcases (hmem _).1 hfirst with hfirst | heq
    · exact hop.closed e a (hdone.ended e _ hd) (h.closed e a hfirst hd)
    · cases heq
      exact absurd hd (hnotDone _)

/-! ### Sweeps -/

theorem quiet_sweepSeat (h : Placed net s) (a : Bytes32) : Quiet net frame s (sweepSeat net frame s a).1 := by
  unfold sweepSeat
  split
  · exact Quiet.refl h
  · next seat hseat => exact quiet_writeChanged h hseat (kept_expire seat frame)

theorem closedAt_sweepSeat (h : Placed net s) (he : Ended net frame e) (a : Bytes32) :
    ClosedAt (sweepSeat net frame s a).1 a e := by
  intro seat' hseat'
  unfold sweepSeat at hseat'
  split at hseat'
  · next hnone =>
    rw [hnone] at hseat'
    cases hseat'
  next seat hseat =>
  have hexpired := notOpen_expire he seat
  dsimp only at hseat'
  unfold writeChanged at hseat'
  split at hseat'
  · next hsame =>
    rw [hseat, Option.some.injEq] at hseat'
    subst hseat'
    rwa [Seat.slot, hsame] at hexpired
  have ha : net.seatAddress seat.member seat.filter = a := h a seat hseat
  have hwritten : update s.seats (net.seatAddress seat.member seat.filter)
      (some (seat.expire net.rules frame).2) a = some seat' := hseat'
  rw [ha, update_self, Option.some.injEq] at hwritten
  exact hwritten ▸ hexpired

theorem closedAt_sweepSeats (he : Ended net frame e) (addresses : List Bytes32) (h : Placed net s) :
    ∀ a ∈ addresses, ClosedAt (run (sweepSeat net frame) s addresses).1 a e := by
  induction addresses generalizing s with
  | nil => exact fun a ha => absurd ha not_mem_nil
  | cons b addresses ih =>
    intro a ha
    have hplaced : Placed net (sweepSeat net frame s b).1 := (@quiet_sweepSeat net frame s h b).placed
    rcases mem_cons.1 ha with rfl | ha
    · exact (quiet_run (fun s a hs => quiet_sweepSeat hs a) addresses hplaced).closed e a he (closedAt_sweepSeat h he a)
    · exact ih hplaced a ha

/-- A sweep of one more bucket. -/
def alsoSwept (done : ℕ → ℕ → Prop) (e b : ℕ) : ℕ → ℕ → Prop := fun e' b' => done e' b' ∨ e' = e ∧ b' = b

theorem SweptThrough.also (h : SweptThrough net frame done) (he : Ended net frame e) (b : ℕ) :
    SweptThrough net frame (alsoSwept done e b) where
  ended e' b' hd := by
    rcases hd with hd | ⟨rfl, rfl⟩
    · exact h.ended e' b' hd
    · exact he
  all e' b' hb hended := .inl (h.all e' b' hb hended)

theorem Inv.afterBucket (h : Inv net frame done first visited s) (hdone : SweptThrough net frame done)
    (he : Ended net frame e) (hnot : ¬ done e b) : Inv net frame (alsoSwept done e b) first
      (visited ++ (sweepBucket net frame e s b).2.map fun visit => (e, visit.1)) (sweepBucket net frame e s b).1 := by
  have hcalls : (sweepBucket net frame e s b).2.map (fun visit => (e, visit.1)) =
      (s.queues.read EXPIRY_RING e b).map fun a => (e, a) := by
    have hrun := run_calls (sweepSeat net frame) { s with queues := (s.queues.take EXPIRY_RING e b).1 }
      (s.queues.take EXPIRY_RING e b).2
    rw [← take_snd, ← hrun, map_map]
    rfl
  have hplaced : Placed net { s with queues := (s.queues.take EXPIRY_RING e b).1 } := h.placed
  have hquiet : Quiet net frame { s with queues := (s.queues.take EXPIRY_RING e b).1 } (sweepBucket net frame e s b).1 :=
    quiet_run (fun s a hs => quiet_sweepSeat hs a) _ hplaced
  have hvisit : ∀ e' a, (e', a) ∈ (s.queues.read EXPIRY_RING e b).map (fun a => (e, a)) ↔
      e' = e ∧ a ∈ s.queues.read EXPIRY_RING e b := fun e' a => by
    simp [and_comm, eq_comm]
  rw [hcalls]
  refine ⟨hquiet.placed, h.hash, h.begun, fun e' a hfirst hd => ?_, fun e' b' a hread => ?_, fun e' b' => ?_,
    fun e' a hfirst hd => ?_, fun e' a hboth => ?_, fun e' a hfirst hd => ?_⟩
  · rw [alsoSwept, not_or] at hd
    rw [hquiet.queues, read_take_other hd.2]
    exact h.queued e' a hfirst hd.1
  · rw [hquiet.queues] at hread
    by_cases hself : e' = e ∧ b' = b
    · obtain ⟨rfl, rfl⟩ := hself
      rw [read_take_self] at hread
      exact absurd hread not_mem_nil
    rw [read_take_other hself] at hread
    obtain ⟨hfirst, hb, hd⟩ := h.waiting e' b' a hread
    exact ⟨hfirst, hb, not_or.2 ⟨hd, hself⟩⟩
  · rw [hquiet.queues]
    by_cases hself : e' = e ∧ b' = b
    · obtain ⟨rfl, rfl⟩ := hself
      rw [read_take_self]
      exact nodup_nil
    · rw [read_take_other hself]
      exact h.nodup e' b'
  · rw [count_append]
    rcases hd with hd | ⟨rfl, rfl⟩
    · have hnew : (e', a) ∉ (s.queues.read EXPIRY_RING e b).map fun a => (e, a) := fun hin => by
        obtain ⟨rfl, ha⟩ := (hvisit e' a).1 hin
        obtain ⟨-, rfl, hd'⟩ := h.waiting _ _ a ha
        exact hd' hd
      rw [h.once e' a hfirst hd, count_eq_zero_of_not_mem hnew]
    have hold := h.notYet e' a fun hboth => hnot hboth.2
    have hin := h.queued e' a hfirst hnot
    have hnodup : ((s.queues.read EXPIRY_RING e' (expiryBucket a)).map fun a => (e', a)).Nodup :=
      (h.nodup e' (expiryBucket a)).map fun _ _ heq => (Prod.mk.inj heq).2
    rw [count_eq_zero_of_not_mem hold, count_eq_one_of_mem hnodup ((hvisit e' a).2 ⟨rfl, hin⟩)]
  · rw [mem_append, not_or]
    refine ⟨h.notYet e' a fun hold => hboth ⟨hold.1, .inl hold.2⟩, fun hin => ?_⟩
    obtain ⟨rfl, ha⟩ := (hvisit e' a).1 hin
    obtain ⟨hfirst, hb, -⟩ := h.waiting _ _ a ha
    exact hboth ⟨hfirst, .inr ⟨rfl, hb.symm⟩⟩
  · rcases hd with hd | ⟨rfl, rfl⟩
    · exact hquiet.closed e' a (hdone.ended e' _ hd) (h.closed e' a hfirst hd)
    refine closedAt_sweepSeats he _ hplaced a ?_
    rw [take_snd]
    exact h.queued e' a hfirst hnot

theorem Inv.congr (h : Inv net frame done first visited s) {done' : ℕ → ℕ → Prop}
    (hiff : ∀ e b, b < EXPIRY_BUCKETS → (done' e b ↔ done e b)) : Inv net frame done' first visited s where
  placed := h.placed
  hash := h.hash
  begun := h.begun
  queued e a hfirst hd := h.queued e a hfirst (mt (hiff e _ (expiryBucket_lt a)).2 hd)
  waiting e b a hread := by
    obtain ⟨hfirst, rfl, hd⟩ := h.waiting e b a hread
    exact ⟨hfirst, rfl, mt (hiff e _ (expiryBucket_lt a)).1 hd⟩
  nodup := h.nodup
  once e a hfirst hd := h.once e a hfirst ((hiff e _ (expiryBucket_lt a)).1 hd)
  notYet e a hboth := h.notYet e a fun hold => hboth ⟨hold.1, (hiff e _ (expiryBucket_lt a)).2 hold.2⟩
  closed e a hfirst hd := h.closed e a hfirst ((hiff e _ (expiryBucket_lt a)).1 hd)

theorem Inv.afterBuckets (he : Ended net frame e) (buckets : List ℕ) (hnodup : buckets.Nodup)
    {done : ℕ → ℕ → Prop} {visited : List (ℕ × Bytes32)} (h : Inv net frame done first visited s)
    (hdone : SweptThrough net frame done) (hnot : ∀ b ∈ buckets, ¬ done e b) :
    Inv net frame (fun e' b' => done e' b' ∨ e' = e ∧ b' ∈ buckets) first
      (visited ++ (run (sweepBucket net frame e) s buckets).2.flatMap fun bucket =>
        bucket.2.map fun visit => (e, visit.1)) (run (sweepBucket net frame e) s buckets).1 := by
  induction buckets generalizing done visited s with
  | nil =>
    rw [run_nil, flatMap_nil, append_nil]
    exact h.congr fun e' b' _ => by simp
  | cons b buckets ih =>
    obtain ⟨hb, hnodup⟩ := nodup_cons.1 hnodup
    have hnext := ih hnodup (h.afterBucket hdone he (hnot b mem_cons_self)) (hdone.also he b)
      fun b' hb' => not_or.2 ⟨hnot b' (mem_cons_of_mem _ hb'), fun heq => hb (heq.2 ▸ hb')⟩
    rw [run_cons, flatMap_cons, ← append_assoc]
    refine hnext.congr fun e' b' _ => ?_
    rw [alsoSwept, mem_cons]
    tauto

/-! ### The sweep of a frame -/

theorem expiryBucketsDue_eq_some (h : expiryBucketsDue net frame = some (e, buckets)) :
    e + 2 = frame / (net.rules.epochLengthFrames : ℕ) ∧
    frame % (net.rules.epochLengthFrames : ℕ) < min EXPIRY_BUCKETS net.rules.epochLengthFrames ∧
    buckets = (List.range EXPIRY_BUCKETS).filter fun b => frame % (net.rules.epochLengthFrames : ℕ) ≤ b ∧
      (b - frame % (net.rules.epochLengthFrames : ℕ)) % min EXPIRY_BUCKETS net.rules.epochLengthFrames = 0 := by
  have hoffset : frame - frame / (net.rules.epochLengthFrames : ℕ) * (net.rules.epochLengthFrames : ℕ) =
      frame % (net.rules.epochLengthFrames : ℕ) := by rw [mul_comm, mod_def]
  simp only [expiryBucketsDue, epochForFrame, hoffset] at h
  split_ifs at h with hcurrent hlt
  cases h
  exact ⟨Nat.sub_add_cancel (not_lt.1 hcurrent), hlt, rfl⟩

/-- Which buckets are due at which frame. -/
theorem mem_due_iff (h : expiryBucketsDue net frame = some (e, buckets)) : b ∈ buckets ↔ b < EXPIRY_BUCKETS ∧
      b % min EXPIRY_BUCKETS (net.rules.epochLengthFrames : ℕ) = frame % (net.rules.epochLengthFrames : ℕ) := by
  obtain ⟨-, hlt, rfl⟩ := expiryBucketsDue_eq_some h
  rw [mem_filter, mem_range, decide_eq_true_eq]
  refine and_congr_right fun _ => ⟨fun hb => ?_, fun hb => ?_⟩
  · obtain ⟨k, hk⟩ := dvd_of_mod_eq_zero hb.2
    rw [← Nat.sub_add_cancel hb.1, hk, mul_add_mod, mod_eq_of_lt hlt]
  · rw [← hb]
    exact ⟨mod_le _ _, sub_mod_eq_zero_of_mod_eq (mod_mod _ _).symm⟩

/-- A bucket of an epoch is due at the frame of its sweep, and at no other. -/
theorem sweepFrame_eq_iff (hb : b < EXPIRY_BUCKETS) : sweepFrame net.rules.epochLengthFrames e b = frame ↔
      ∃ buckets, expiryBucketsDue net frame = some (e, buckets) ∧ b ∈ buckets := by
  have hpos := net.rules.epochLengthFrames.pos
  have hmod : b % min EXPIRY_BUCKETS (net.rules.epochLengthFrames : ℕ) < min EXPIRY_BUCKETS net.rules.epochLengthFrames :=
    mod_lt _ (lt_min (by decide) hpos)
  have hlt := hmod.trans_le (min_le_right _ _)
  constructor
  · rintro rfl
    have hdiv : sweepFrame net.rules.epochLengthFrames e b / (net.rules.epochLengthFrames : ℕ) = e + 2 := by
      rw [sweepFrame, mul_comm, mul_add_div hpos, div_eq_of_lt hlt, add_zero]
    have hrest : sweepFrame net.rules.epochLengthFrames e b - (e + 2) * (net.rules.epochLengthFrames : ℕ) =
        b % min EXPIRY_BUCKETS (net.rules.epochLengthFrames : ℕ) := Nat.add_sub_cancel_left _ _
    have hdue : ∃ buckets, expiryBucketsDue net (sweepFrame net.rules.epochLengthFrames e b) = some (e, buckets) := by
      unfold expiryBucketsDue
      dsimp only
      rw [epochForFrame, hdiv, hrest, if_neg (by omega), if_pos hmod]
      exact ⟨_, rfl⟩
    obtain ⟨buckets, hdue⟩ := hdue
    refine ⟨buckets, hdue, (mem_due_iff hdue).2 ⟨hb, ?_⟩⟩
    rw [sweepFrame, mul_comm, mul_add_mod, mod_eq_of_lt hlt]
  · rintro ⟨buckets, hdue, hmem⟩
    rw [sweepFrame, (expiryBucketsDue_eq_some hdue).1, ((mem_due_iff hdue).1 hmem).2, mul_comm, div_add_mod]

theorem nodup_due (h : expiryBucketsDue net frame = some (e, buckets)) : buckets.Nodup := by
  obtain ⟨-, -, rfl⟩ := expiryBucketsDue_eq_some h
  exact nodup_range.filter _

theorem ended_due (h : expiryBucketsDue net frame = some (e, buckets)) : Ended net frame e := by
  rw [Ended, (expiryBucketsDue_eq_some h).1]
  exact div_mul_le_self _ _

/-- The sweeps done before time `t`. -/
def sweptBefore (net : Network) (t : ℕ) : ℕ → ℕ → Prop := fun e b => sweepFrame net.rules.epochLengthFrames e b < t

theorem sweepFrame_lt (length : ℕ+) (e b : ℕ) : sweepFrame length e b < (e + 3) * (length : ℕ) := by
  have hpos := length.pos
  have hmod : b % min EXPIRY_BUCKETS (length : ℕ) < length :=
    (mod_lt _ (lt_min (by decide) hpos)).trans_le (min_le_right _ _)
  calc sweepFrame length e b < (e + 2) * (length : ℕ) + length := Nat.add_lt_add_left hmod _
    _ = (e + 3) * (length : ℕ) := by ring

theorem sweptThrough_sweptBefore {t : ℕ} (hlow : frame ≤ t) (hhigh : t ≤ frame + 1) :
    SweptThrough net frame (sweptBefore net t) where
  ended e b hd := by
    have hle : (e + 2) * (net.rules.epochLengthFrames : ℕ) ≤ sweepFrame net.rules.epochLengthFrames e b :=
      le_add_right _ _
    rw [sweptBefore] at hd
    rw [Ended]
    omega
  all e b hb hended := ((sweepFrame_lt _ e b).trans_le hended).trans_le hlow

/-- Epochs whose proofs are not by hash have no first root, and so nothing to sweep. -/
theorem Inv.skip (h : Inv net frame done first visited s) (he : net.hashStorageProofsAt e = false)
    (buckets : List ℕ) : Inv net frame (fun e' b' => done e' b' ∨ e' = e ∧ b' ∈ buckets) first visited s := by
  have hnot : ∀ a, (e, a) ∉ first := fun a hfirst => by
    have := h.hash _ hfirst
    rw [he] at this
    cases this
  refine ⟨h.placed, h.hash, h.begun, fun e' a hfirst hd => h.queued e' a hfirst (not_or.1 hd).1,
    fun e' b' a hread => ?_, h.nodup, fun e' a hfirst hd => ?_, fun e' a hboth => ?_, fun e' a hfirst hd => ?_⟩
  · obtain ⟨hfirst, hb, hd⟩ := h.waiting e' b' a hread
    refine ⟨hfirst, hb, not_or.2 ⟨hd, ?_⟩⟩
    rintro ⟨rfl, -⟩
    exact hnot a hfirst
  · rcases hd with hd | ⟨rfl, -⟩
    · exact h.once e' a hfirst hd
    · exact absurd hfirst (hnot a)
  · exact h.notYet e' a fun hold => hboth ⟨hold.1, .inl hold.2⟩
  rcases hd with hd | ⟨rfl, -⟩
  · exact h.closed e' a hfirst hd
  · exact absurd hfirst (hnot a)

theorem Inv.afterSweep (h : Inv net frame (sweptBefore net frame) first visited s) :
    Inv net frame (sweptBefore net (frame + 1)) first (visited ++ (sweepExpiries net frame s).2.map Prod.fst)
      (sweepExpiries net frame s).1 := by
  have hdone := @sweptThrough_sweptBefore net frame frame le_rfl (le_succ _)
  have hnext : ∀ e b, sweptBefore net (frame + 1) e b ↔
      sweptBefore net frame e b ∨ sweepFrame net.rules.epochLengthFrames e b = frame := fun e b => by
    unfold sweptBefore
    omega
  unfold sweepExpiries
  rcases hdue : expiryBucketsDue net frame with _ | due
  · rw [map_nil, append_nil]
    refine h.congr fun e b hb => ?_
    rw [hnext, sweepFrame_eq_iff hb, hdue]
    simp
  obtain ⟨e, buckets⟩ := due
  have hiff : ∀ e' b', b' < EXPIRY_BUCKETS → (sweptBefore net (frame + 1) e' b' ↔
      sweptBefore net frame e' b' ∨ e' = e ∧ b' ∈ buckets) := fun e' b' hb' => by
    rw [hnext, sweepFrame_eq_iff hb', hdue]
    simp only [Option.some.injEq, Prod.mk.injEq]
    constructor
    · rintro (hd | ⟨_, ⟨rfl, rfl⟩, hmem⟩)
      · exact Or.inl hd
      · exact Or.inr ⟨rfl, hmem⟩
    · rintro (hd | ⟨rfl, hmem⟩)
      · exact Or.inl hd
      · exact Or.inr ⟨buckets, ⟨rfl, rfl⟩, hmem⟩
  have hnot : ∀ b ∈ buckets, ¬ sweptBefore net frame e b := fun b hb hd =>
    hd.ne ((sweepFrame_eq_iff ((mem_due_iff hdue).1 hb).1).2 ⟨buckets, hdue, hb⟩)
  dsimp only
  rcases hhash : net.hashStorageProofsAt e with _ | _
  · rw [if_neg (by simp), map_nil, append_nil]
    exact (h.skip hhash buckets).congr hiff
  rw [if_pos rfl, map_flatMap]
  simp only [map_map, comp_def]
  exact (h.afterBuckets (ended_due hdue) buckets (nodup_due hdue) hdone hnot).congr hiff

theorem Inv.afterOps {t : ℕ} (hlow : frame ≤ t) (hhigh : t ≤ frame + 1) (ops : List Op)
    (hops : ∀ op ∈ ops, InTime net frame op) {first : List (ℕ × Bytes32)}
    (h : Inv net frame (sweptBefore net t) first visited s) :
    Inv net frame (sweptBefore net t) (first ++ (run (perform net frame) s ops).2.filterMap Prod.snd) visited
      (run (perform net frame) s ops).1 := by
  induction ops generalizing first s with
  | nil => rwa [run_nil, filterMap_nil, append_nil]
  | cons op ops ih =>
    have hone := h.afterOp (sweptThrough_sweptBefore hlow hhigh) (performed_perform h.placed (hops op mem_cons_self))
    have hrest := ih (fun op' hop' => hops op' (mem_cons_of_mem _ hop')) hone
    rw [run_cons]
    rw [append_assoc] at hrest
    convert hrest using 2
    rw [filterMap_cons]
    cases (perform net frame s op).2 <;> rfl

/-- The frame that follows counts on from the same sweeps. -/
theorem Inv.next (h : Inv net frame (sweptBefore net (frame + 1)) first visited s) :
    Inv net (frame + 1) (sweptBefore net (frame + 1)) first visited s :=
  { h with begun := fun q hq => (h.begun q hq).trans (Nat.div_le_div_right (le_succ _)) }

/-! ### Runs -/

theorem Inv.afterFrame (h : Inv net frame (sweptBefore net frame) first visited s) {fr : Frame}
    (hops : ∀ op ∈ fr.before ++ fr.after, InTime net frame op) :
    let after := step net (frame, s) fr
    Inv net (frame + 1) (sweptBefore net (frame + 1)) (first ++ after.2.first) (visited ++ after.2.visited) after.1.2 := by
  intro after
  have hbefore := h.afterOps le_rfl (le_succ _) fr.before fun op hop => hops op (mem_append_left _ hop)
  have hafter := hbefore.afterSweep.afterOps (le_succ _) le_rfl fr.after
    fun op hop => hops op (mem_append_right _ hop)
  rw [append_assoc] at hafter
  exact hafter.next

/-- Every drained header of the run is executed before its epoch's settlement window ends. -/
def Punctual (net : Network) (start : ℕ) (frames : List Frame) : Prop :=
  ∀ p ∈ frames.zipIdx start, ∀ op ∈ p.1.before ++ p.1.after, InTime net p.2 op

theorem Inv.afterFrames (frames : List Frame) {first visited : List (ℕ × Bytes32)} {start : ℕ}
    (h : Inv net start (sweptBefore net start) first visited s) (hframes : Punctual net start frames) :
    let outcome := run (step net) (start, s) frames
    Inv net (start + frames.length) (sweptBefore net (start + frames.length)) (first ++ firstRoots outcome.2)
      (visited ++ visits outcome.2) outcome.1.2 := by
  induction frames generalizing first visited s start with
  | nil => simpa [firstRoots, visits] using h
  | cons fr frames ih =>
    rw [Punctual, zipIdx_cons, forall_mem_cons] at hframes
    have hrest := ih (h.afterFrame hframes.1) hframes.2
    intro outcome
    have hfirst : firstRoots outcome.2 = (step net (start, s) fr).2.first ++
        firstRoots (run (step net) (step net (start, s) fr).1 frames).2 := flatMap_cons
    have hvisits : visits outcome.2 = (step net (start, s) fr).2.visited ++
        visits (run (step net) (step net (start, s) fr).1 frames).2 := flatMap_cons
    rwa [length_cons, add_comm frames.length 1, ← add_assoc, hfirst, hvisits, ← append_assoc, ← append_assoc]

end

/-- Every seat is swept once for each epoch it chained a first root of: after `n` frames it is still queued when the
    sweep of its bucket is to come, and once that is past it was visited by one sweep and the epoch's slot, if the
    seat still has it, is settled or expired. -/
structure SweptOnce (net : Network) (n : ℕ) (first visited : List (ℕ × Bytes32)) (s : State) : Prop where
  queued : ∀ e a, (e, a) ∈ first → n ≤ sweepFrame net.rules.epochLengthFrames e (expiryBucket a) →
    a ∈ s.queues.read EXPIRY_RING e (expiryBucket a) ∧ (e, a) ∉ visited
  visitedOnce : ∀ e a, (e, a) ∈ first → sweepFrame net.rules.epochLengthFrames e (expiryBucket a) < n →
    visited.count (e, a) = 1
  only : ∀ e a, (e, a) ∈ visited → (e, a) ∈ first
  closed : ∀ e a, (e, a) ∈ first → sweepFrame net.rules.epochLengthFrames e (expiryBucket a) < n →
    ∀ seat slot, s.seats a = some seat → seat.slot e = some slot → slot.outcome ≠ .open

/-- In every run whose drained headers are executed before their epochs' settlement windows end, every seat is swept
    once for each epoch it chained a first root of. -/
theorem seats_swept_once (net : Network) (frames : List Frame) (h : Punctual net 0 frames) :
    let outcome := run (step net) (0, .empty) frames
    SweptOnce net frames.length (firstRoots outcome.2) (visits outcome.2) outcome.1.2 := by
  intro outcome
  have hempty : Inv net 0 (sweptBefore net 0) [] [] .empty :=
    ⟨by simp [Placed, State.empty], by simp, by simp, by simp, by simp [State.empty, RingQueues.read],
      by simp [State.empty, RingQueues.read], by simp, by simp, by simp⟩
  have hinv := hempty.afterFrames frames h
  simp only [zero_add, nil_append] at hinv
  refine ⟨fun e a hfirst hle => ⟨hinv.queued e a hfirst (not_lt.2 hle), hinv.notYet e a fun hboth => ?_⟩,
    hinv.once, fun e a hvisited => ?_, fun e a hfirst hlt seat slot hseat hslot => hinv.closed e a hfirst hlt seat hseat slot hslot⟩
  · exact absurd hboth.2 (not_lt.2 hle)
  · by_contra hnot
    exact hinv.notYet e a (fun hboth => hnot hboth.1) hvisited

/-- Epochs of two frames, every one of them proved by hash, and a seat kept at its member's address. -/
def twoFrames : Network :=
  ⟨⟨1 + 1, u64Max, fun acc _ _ _ => acc + 1⟩, fun member _ => member, fun _ => [], fun _ => true⟩

/-- A member registers for epoch 1, seals it, and no root of its is executed in it. In epoch 5 another member's first
    root is executed, and after it `drained`. -/
def twoMembers (drained : List Op) : List Frame :=
  [⟨[], []⟩, ⟨[], [.register 1 [] [[]]]⟩, ⟨[], [.prove 1 [] (some 1) none]⟩, ⟨[], []⟩, ⟨[], []⟩, ⟨[], []⟩, ⟨[], []⟩,
    ⟨[], []⟩, ⟨[], []⟩, ⟨[], [.register 2 [] [[]]]⟩, ⟨[], [.prove 2 [] (some 5) none]⟩,
    ⟨[], .header ⟨2, [], 9, 10, some (7, 10)⟩ [] 1 :: drained⟩, ⟨[], []⟩, ⟨[], []⟩, ⟨[], []⟩, ⟨[], []⟩]

/-- With nothing drained but a header of epoch 5, the second member is swept once. -/
theorem seats_swept_once_two_members :
    let frames := twoMembers [.drained ⟨2, [], 12, 10, some (8, 10)⟩]
    let outcome := run (step twoFrames) (0, .empty) frames
    visits outcome.2 = [(5, 2)] ∧
      SweptOnce twoFrames frames.length (firstRoots outcome.2) (visits outcome.2) outcome.1.2 :=
  ⟨by decide +kernel, seats_swept_once twoFrames _ (by unfold Punctual; decide +kernel)⟩

/-- The first member's header of epoch 1 drained in epoch 5: its seat is queued for a sweep that is past, in the
    record of epoch 5, and neither seat is ever visited. -/
theorem drained_late_never_swept :
    let outcome := run (step twoFrames) (0, .empty) (twoMembers [.drained ⟨1, [], 3, 2, some (8, 2)⟩])
    firstRoots outcome.2 = [(5, 2), (1, 1)] ∧ visits outcome.2 = [] ∧
    sweepFrame twoFrames.rules.epochLengthFrames 5 (expiryBucket 2) < 16 ∧
    (outcome.1.2.seats 1).any (fun seat => (seat.slot 1).any fun slot => slot.outcome = .open) = true := by
  decide +kernel

end Quil.StorageExpiry
