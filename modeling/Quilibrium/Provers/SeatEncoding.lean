import Quilibrium.Provers.StorageSeatRun
import Quilibrium.Schemes.Deltas

/-! The bytes of a seat's slots (`storage_seat.rs`, `encode_slots` and `decode_slots`). The chained roots are
    stored as DIFFERENCES: app frames as gaps, beacon frames as zigzag steps that may wrap, executing frames past
    their beacons. The decoder accepts one string for each list of slots it returns. The caps are its own: the
    operations keep a seat within them, but for the HELD REWARDS, which no operation bounds and which are read
    back from at most 32 bytes. -/

namespace Quil.SeatEncoding
open Schemes StorageSeat List ReadsIn Reads

def SLOTS_VERSION : ℕ := 1
def MAX_LEAVES : ℕ := 4096
def MAX_PREFIX : ℕ := 256
/-- The bytes of an amount the decoder reads back. -/
def MAX_PENDING : ℕ := 32

/-- A slot as it is stored, the held rewards in bytes. -/
structure StoredSlot where
  epoch : ℕ
  leaves : List (List ℕ)
  registeredAt : ℕ
  sealedAt : Option ℕ
  frames : ℕ
  accumulator : Bytes32
  chained : List Chained
  expected : ℕ
  countedThrough : ℕ
  heldThrough : ℕ
  pending : List UInt8
  outcome : Outcome
deriving DecidableEq

/-- An amount, big-endian, without leading zeros. -/
def amountBytes (amount : ℕ) : List UInt8 := ((Nat.digits 256 amount).map UInt8.ofNat).reverse

/-- A slot's stored form. -/
def stored (slot : SeatSlot) : StoredSlot :=
  { epoch := slot.epoch
    leaves := slot.leaves
    registeredAt := slot.registeredAt
    sealedAt := slot.sealedAt
    frames := slot.frames
    accumulator := slot.accumulator
    chained := slot.chained
    expected := slot.expected
    countedThrough := slot.countedThrough
    heldThrough := slot.heldThrough
    pending := amountBytes slot.pending
    outcome := slot.outcome }

/-! ### Encoding -/

/-- A prefix after its length. -/
def leafBytes (leaf : List ℕ) : List UInt8 := toBeBytes 4 leaf.length ++ leaf.flatMap (toBeBytes 4)

def leavesBytes (leaves : List (List ℕ)) : List UInt8 := toBeBytes 4 leaves.length ++ leaves.flatMap leafBytes

/-- The app frame and the beacon frame of a root, to which the next one's are relative. -/
def place (chained : Chained) : ℕ × ℕ := (chained.frame, chained.beacon)

/-- A 64-bit number less another, wrapping. -/
def wrappingSub (a b : ℕ) : BitVec 64 := BitVec.ofNat 64 a - BitVec.ofNat 64 b

/-- A chained root after the frames `from`. -/
def chainedBytes (before : ℕ × ℕ) (chained : Chained) : List UInt8 :=
  varintBytes (chained.frame - before.1) ++ (varintBytes (zigzag (wrappingSub chained.beacon before.2)).toNat ++
    varintBytes (wrappingSub chained.executed chained.beacon).toNat)

def chainBytes (chain : List Chained) : List UInt8 :=
  toBeBytes 4 chain.length ++ linkedBytes chainedBytes place (0, 0) chain

def outcomeBytes : Outcome → List UInt8
  | .open => toBeBytes 1 0
  | .settled frame => toBeBytes 1 1 ++ toBeBytes 8 frame
  | .expired frame => toBeBytes 1 2 ++ toBeBytes 8 frame

def slotBytes (slot : StoredSlot) : List UInt8 :=
  toBeBytes 8 slot.epoch ++ (leavesBytes slot.leaves ++ (toBeBytes 8 slot.registeredAt ++
    (optionBytes (toBeBytes 8) slot.sealedAt ++ (toBeBytes 8 slot.frames ++ (bytes32 slot.accumulator ++
    (chainBytes slot.chained ++ (toBeBytes 8 slot.expected ++ (toBeBytes 8 slot.countedThrough ++
    (toBeBytes 8 slot.heldThrough ++ ((toBeBytes 4 slot.pending.length ++ slot.pending) ++
    outcomeBytes slot.outcome))))))))))

def encodeSlots (slots : List StoredSlot) : List UInt8 :=
  toBeBytes 1 SLOTS_VERSION ++ (toBeBytes 1 slots.length ++ slots.flatMap slotBytes)

/-! ### Decoding -/

def invalid (what : String) : QuilError := .invalidArgument ("storage seat slots: " ++ what)
def eof (what : String) : QuilError := .invalidArgument ("canonical: EOF reading " ++ what)

def readByte : Reader QuilError ℕ := Reader.be (invalid "truncated") 1
def readU32 : Reader QuilError ℕ := Reader.be (eof "u32") 4
def readU64 : Reader QuilError ℕ := Reader.be (eof "u64") 8

def readLeaf : Reader QuilError (List ℕ) := do
  let len ← readU32
  if len > MAX_PREFIX then throw (invalid "prefix too long") else readU32.times len

def readLeaves : Reader QuilError (List (List ℕ)) := do
  let leafCount ← readU32
  if leafCount > MAX_LEAVES then throw (invalid "too many leaves") else readLeaf.times leafCount

def readSealedAt : Reader QuilError (Option ℕ) :=
  Reader.optional (invalid "truncated") (invalid "bad seal flag") readU64

/-- A chained root after the frames `before`. -/
def readChained (before : ℕ × ℕ) : Reader QuilError Chained := do
  let gap ← Reader.varint (invalid "bad frame gap")
  let step ← Reader.varint (invalid "bad beacon step")
  let lag ← Reader.varint (invalid "bad execution lag")
  if gap = 0 ∨ u64Max < before.1 + gap then throw (invalid "frames not ascending")
  else
    let beacon := BitVec.ofNat 64 before.2 + unzigzag (BitVec.ofNat 64 step)
    return ⟨before.1 + gap, beacon.toNat, (beacon + BitVec.ofNat 64 lag).toNat⟩

def readChain : Reader QuilError (List Chained) := do
  let chainedCount ← readU32
  if chainedCount > MAX_CHAINED then throw (invalid "too many chained frames")
  else Reader.linked readChained place chainedCount (0, 0)

def readPending : Reader QuilError (List UInt8) := do
  let pendingLen ← readU32
  if pendingLen > MAX_PENDING then throw (invalid "pending amount too wide") else Reader.take (eof "bytes") pendingLen

def readOutcome : Reader QuilError Outcome := do
  match ← readByte with
  | 0 => return .open
  | 1 => Outcome.settled <$> readU64
  | 2 => Outcome.expired <$> readU64
  | _ => throw (invalid "bad outcome")

def readSlot : Reader QuilError StoredSlot := do
  let epoch ← readU64
  let leaves ← readLeaves
  let registeredAt ← readU64
  let sealedAt ← readSealedAt
  let frames ← readU64
  let accumulator ← readArray32 (eof "bytes")
  let chained ← readChain
  let expected ← readU64
  let countedThrough ← readU64
  let heldThrough ← readU64
  let pending ← readPending
  let outcome ← readOutcome
  return ⟨epoch, leaves, registeredAt, sealedAt, frames, accumulator, chained, expected, countedThrough, heldThrough,
    pending, outcome⟩

def readSlots : Reader QuilError (List StoredSlot) := do
  let version ← readByte
  if version ≠ SLOTS_VERSION then throw (invalid "unknown version")
  else do
    let count ← readByte
    if count > MAX_SLOTS then throw (invalid "too many slots") else readSlot.times count

def decodeSlots (data : List UInt8) : Except QuilError (List StoredSlot) :=
  readSlots.whole (invalid "trailing bytes") data

/-! ### What is read -/

/-- A prefix the decoder reads. -/
def LeafFits (leaf : List ℕ) : Prop := leaf.length ≤ MAX_PREFIX ∧ ∀ nibble ∈ leaf, nibble < 2 ^ 32

/-- Leaves the decoder reads. -/
def LeavesFit (leaves : List (List ℕ)) : Prop := leaves.length ≤ MAX_LEAVES ∧ ∀ leaf ∈ leaves, LeafFits leaf

instance (leaf : List ℕ) : Decidable (LeafFits leaf) := inferInstanceAs (Decidable (_ ∧ _))

instance (leaves : List (List ℕ)) : Decidable (LeavesFit leaves) := inferInstanceAs (Decidable (_ ∧ _))

/-- A root the decoder reads after the frames `before`. -/
structure Follows (before : ℕ × ℕ) (chained : Chained) : Prop where
  after : before.1 < chained.frame
  frame : chained.frame < 2 ^ 64
  beacon : chained.beacon < 2 ^ 64
  executed : chained.executed < 2 ^ 64

/-- A chain the decoder reads. -/
def ChainFits (chain : List Chained) : Prop := chain.length ≤ MAX_CHAINED ∧ Linked Follows place (0, 0) chain

def OutcomeFits : Outcome → Prop
  | .open => True
  | .settled frame => frame < 2 ^ 64
  | .expired frame => frame < 2 ^ 64

/-- A slot the decoder reads. -/
structure Fits (slot : StoredSlot) : Prop where
  epoch : slot.epoch < 2 ^ 64
  leaves : LeavesFit slot.leaves
  registeredAt : slot.registeredAt < 2 ^ 64
  sealedAt : ∀ frame ∈ slot.sealedAt, frame < 2 ^ 64
  frames : slot.frames < 2 ^ 64
  chained : ChainFits slot.chained
  expected : slot.expected < 2 ^ 64
  countedThrough : slot.countedThrough < 2 ^ 64
  heldThrough : slot.heldThrough < 2 ^ 64
  pending : slot.pending.length ≤ MAX_PENDING
  outcome : OutcomeFits slot.outcome

theorem reads_u64 : Reads readU64 (toBeBytes 8) (· < 2 ^ 64) := (be _ 8).iff fun _ => by norm_num

theorem reads_u32 : Reads readU32 (toBeBytes 4) (· < 2 ^ 32) := (be _ 4).iff fun _ => by norm_num

/-- A list of at most `max` items after its length. -/
theorem reads_counted {α : Type} {r : ℕ → Reader QuilError (List α)} {write : List α → List UInt8} {P : List α → Prop}
    (h : ∀ n, Reads (r n) write fun l => l.length = n ∧ P l) {max : ℕ} (hmax : max < 2 ^ 32) (e : QuilError) :
    Reads (do
      let n ← readU32
      if n > max then throw e else r n) (fun l => toBeBytes 4 l.length ++ write l) fun l => l.length ≤ max ∧ P l := by
  have hfields : ReadsIn (do
      let n ← readU32
      if n > max then throw e else r n) (fun l => toBeBytes 4 l.length ++ write l) (fun _ => True)
      fun l => l.length < 2 ^ 32 ∧ ¬ l.length > max ∧ P l :=
    field reads_u32 length fun n _ =>
      check (d := fun l : List α => l.length > max) (fun l h => by rw [h.2]) fun _ =>
        (h n).iff fun l => and_congr_left' (and_iff_right trivial)
  refine hfields.reads.iff fun l => ?_
  rw [not_lt]
  exact ⟨fun h => ⟨h.1.trans_lt hmax, h⟩, And.right⟩

theorem reads_leaves : Reads readLeaves leavesBytes LeavesFit :=
  reads_counted (reads_counted reads_u32.times (by decide) _).times (by decide) _

theorem ofNat_toNat64 (a : BitVec 64) : .ofNat 64 a.toNat = a := by
  rw [BitVec.ofNat_toNat, BitVec.setWidth_eq]

/-- The frames of a root by their differences. -/
theorem chained_eq_iff {before : ℕ × ℕ} {gap step lag : ℕ} (hgap : gap ≠ 0) (hstep : step < 2 ^ 64) (hlag : lag < 2 ^ 64)
    (chained : Chained) : (((chained.beacon < 2 ^ 64 ∧ chained.executed < 2 ^ 64) ∧ chained.frame - before.1 = gap) ∧
      (zigzag (wrappingSub chained.beacon before.2)).toNat = step) ∧
      (wrappingSub chained.executed chained.beacon).toNat = lag ↔
    chained = ⟨before.1 + gap, (.ofNat 64 before.2 + unzigzag (.ofNat 64 step)).toNat,
      (.ofNat 64 before.2 + unzigzag (.ofNat 64 step) + .ofNat 64 lag).toNat⟩ := by
  constructor
  · obtain ⟨frame, beacon, executed⟩ := chained
    rintro ⟨⟨⟨⟨hbeacon, hexecuted⟩, hframe⟩, rfl⟩, rfl⟩
    dsimp only at hbeacon hexecuted hframe ⊢
    have hback : .ofNat 64 before.2 + wrappingSub beacon before.2 = .ofNat 64 beacon := by
      rw [wrappingSub, BitVec.add_comm, BitVec.sub_add_cancel]
    have hahead : .ofNat 64 beacon + wrappingSub executed beacon = .ofNat 64 executed := by
      rw [wrappingSub, BitVec.add_comm, BitVec.sub_add_cancel]
    rw [ofNat_toNat64, ofNat_toNat64, unzigzag_zigzag, hback, hahead, BitVec.toNat_ofNat, BitVec.toNat_ofNat,
      Nat.mod_eq_of_lt hbeacon, Nat.mod_eq_of_lt hexecuted]
    congr 1
    omega
  · rintro rfl
    dsimp only
    refine ⟨⟨⟨⟨BitVec.isLt _, BitVec.isLt _⟩, by omega⟩, ?_⟩, ?_⟩
    · rw [wrappingSub, ofNat_toNat64, BitVec.add_comm, BitVec.add_sub_cancel, zigzag_unzigzag, BitVec.toNat_ofNat, Nat.mod_eq_of_lt hstep]
    · rw [wrappingSub, ofNat_toNat64, ofNat_toNat64, BitVec.add_comm _ (.ofNat 64 lag), BitVec.add_sub_cancel, BitVec.toNat_ofNat, Nat.mod_eq_of_lt hlag]

theorem reads_chained (before : ℕ × ℕ) : Reads (readChained before) (chainedBytes before) (Follows before) := by
  have hfields : ReadsIn (readChained before) _ (fun c => c.beacon < 2 ^ 64 ∧ c.executed < 2 ^ 64) _ :=
    field (reads_varint _) (fun c : Chained => c.frame - before.1) fun gap _ =>
    field (reads_varint _) (fun c : Chained => (zigzag (wrappingSub c.beacon before.2)).toNat) fun step hstep =>
    field (reads_varint _) (fun c : Chained => (wrappingSub c.executed c.beacon).toNat) fun lag hlag =>
    check (d := fun c => c.frame - before.1 = 0 ∨ u64Max < before.1 + (c.frame - before.1))
      (fun c hc => by rw [hc.1.1.2]) fun hgap =>
    done (chained_eq_iff (not_or.1 hgap).1 hstep hlag)
  refine congr hfields (fun c => ?_) fun c _ => ?_
  · have hpow : u64Max + 1 = 2 ^ 64 := by norm_num [u64Max]
    constructor
    · rintro ⟨hafter, hframe, hbeacon, hexecuted⟩
      exact ⟨⟨hbeacon, hexecuted⟩, by omega, BitVec.isLt _, BitVec.isLt _, by omega, trivial⟩
    · rintro ⟨⟨hbeacon, hexecuted⟩, -, -, -, hgap, -⟩
      exact ⟨by omega, by omega, hbeacon, hexecuted⟩
  · rw [chainedBytes, append_nil]

theorem reads_chain : Reads readChain chainBytes ChainFits :=
  reads_counted (fun n => linked reads_chained n (0, 0)) (by decide) _

theorem reads_pending : Reads readPending (fun bytes => toBeBytes 4 bytes.length ++ bytes)
    fun bytes => bytes.length ≤ MAX_PENDING :=
  (reads_counted (fun n => (take _ n).iff fun _ => and_iff_left trivial) (by decide) _).iff fun _ =>
    (and_iff_left trivial).symm

/-- What tells the outcomes apart. -/
def outcomeTag : Outcome → ℕ
  | .open => 0
  | .settled _ => 1
  | .expired _ => 2

def outcomeFrame : Outcome → List UInt8
  | .open => []
  | .settled frame => toBeBytes 8 frame
  | .expired frame => toBeBytes 8 frame

theorem reads_outcome : Reads readOutcome outcomeBytes OutcomeFits := by
  have hfields : ReadsIn readOutcome (fun outcome => toBeBytes 1 (outcomeTag outcome) ++ outcomeFrame outcome)
      (fun _ => True) fun outcome => True ∧ OutcomeFits outcome := by
    refine fieldOf (be _ 1) outcomeTag (fun outcome _ => ?_) fun tag _ => ?_
    · refine ⟨fun _ => ?_, fun _ => trivial⟩
      cases outcome <;> simp [outcomeTag]
    unfold ReadsIn
    rcases tag with _ | _ | _ | tag
    · refine (pure (a := Outcome.open) fun outcome => ?_).congr (fun _ => Iff.rfl) fun outcome h => ?_
      · cases outcome <;> simp [outcomeTag, OutcomeFits]
      · cases outcome <;> simp_all [outcomeTag, outcomeFrame]
    · refine (reads_u64.image Outcome.settled (w := outcomeFrame) fun _ _ => rfl).iff fun outcome => ?_
      cases outcome <;> simp [outcomeTag, OutcomeFits]
    · refine (reads_u64.image Outcome.expired (w := outcomeFrame) fun _ _ => rfl).iff fun outcome => ?_
      cases outcome <;> simp [outcomeTag, OutcomeFits]
    · refine throw fun outcome h => ?_
      cases outcome <;> simp [outcomeTag] at h
  refine hfields.reads.congr (fun _ => (and_iff_right trivial).symm) fun outcome _ => ?_
  cases outcome with
  | «open» => exact (append_nil _).symm
  | settled frame => rfl
  | expired frame => rfl

theorem reads_slot : Reads readSlot slotBytes Fits := by
  have hfields : ReadsIn readSlot _ (fun _ => True) _ :=
    field reads_u64 StoredSlot.epoch fun _ _ =>
    field reads_leaves StoredSlot.leaves fun _ _ =>
    field reads_u64 StoredSlot.registeredAt fun _ _ =>
    field (reads_u64.optional _ _) StoredSlot.sealedAt fun _ _ =>
    field reads_u64 StoredSlot.frames fun _ _ =>
    field (reads_array32 _) StoredSlot.accumulator fun _ _ =>
    field reads_chain StoredSlot.chained fun _ _ =>
    field reads_u64 StoredSlot.expected fun _ _ =>
    field reads_u64 StoredSlot.countedThrough fun _ _ =>
    field reads_u64 StoredSlot.heldThrough fun _ _ =>
    field reads_pending StoredSlot.pending fun _ _ =>
    field reads_outcome StoredSlot.outcome fun _ _ =>
    done fun slot => by cases slot; simp [and_assoc]
  refine hfields.reads.congr (fun slot => ?_) fun slot _ => ?_
  · constructor
    · rintro ⟨h1, h2, h3, h4, h5, h6, h7, h8, h9, h10, h11⟩
      exact ⟨h1, h2, h3, h4, h5, trivial, h6, h7, h8, h9, h10, h11, trivial⟩
    · rintro ⟨h1, h2, h3, h4, h5, -, h6, h7, h8, h9, h10, h11, -⟩
      exact ⟨h1, h2, h3, h4, h5, h6, h7, h8, h9, h10, h11⟩
  · simp only [slotBytes, append_nil]

theorem reads_slots : Reads readSlots encodeSlots fun slots => slots.length ≤ MAX_SLOTS ∧ ∀ slot ∈ slots, Fits slot := by
  have hfields : ReadsIn readSlots (fun slots => toBeBytes 1 SLOTS_VERSION ++ (toBeBytes 1 slots.length ++
      slots.flatMap slotBytes)) (fun _ => True) fun slots => SLOTS_VERSION < 256 ^ 1 ∧ ¬ SLOTS_VERSION ≠ SLOTS_VERSION ∧
        slots.length < 256 ^ 1 ∧ ¬ slots.length > MAX_SLOTS ∧ ∀ slot ∈ slots, Fits slot :=
    field (be _ 1) (fun _ => SLOTS_VERSION) fun version _ =>
      check (d := fun _ => SLOTS_VERSION ≠ SLOTS_VERSION) (fun slots h => by rw [h.2]) fun hversion =>
      field (be _ 1) length fun count _ =>
      check (d := fun slots : List StoredSlot => slots.length > MAX_SLOTS) (fun slots h => by rw [h.2]) fun _ =>
        (reads_slot.times count).iff fun slots => by simp [not_not.1 hversion]
  refine hfields.reads.iff fun slots => ?_
  rw [not_lt]
  exact ⟨fun h => ⟨by decide, not_not.2 rfl, h.1.trans_lt (by decide), h⟩, fun h => h.2.2.2⟩

/-- The decoder accepts exactly the strings of lists of at most `MAX_SLOTS` slots within its limits. -/
theorem decodeSlots_eq_ok {data : List UInt8} {slots : List StoredSlot} : decodeSlots data = .ok slots ↔
    (slots.length ≤ MAX_SLOTS ∧ ∀ slot ∈ slots, Fits slot) ∧ data = encodeSlots slots :=
  reads_slots.whole_iff

/-! ### The slots of a seat -/

theorem length_amountBytes_le_iff (amount : ℕ) : (amountBytes amount).length ≤ MAX_PENDING ↔ amount < 2 ^ 256 := by
  rw [amountBytes, length_reverse, length_map, Nat.digits_length_le_iff (by decide)]
  norm_num [MAX_PENDING]

theorem digits_of_amountBytes (amount : ℕ) : (amountBytes amount).reverse.map UInt8.toNat = Nat.digits 256 amount := by
  rw [amountBytes, reverse_reverse, map_map]
  refine (map_congr_left fun digit hdigit => ?_).trans (map_id _)
  exact UInt8.toNat_ofNat_of_lt' (Nat.digits_lt_base (by decide) hdigit)

theorem amountBytes_injective : Function.Injective amountBytes := by
  intro a b h
  refine Nat.digits.injective 256 ?_
  rw [← digits_of_amountBytes, ← digits_of_amountBytes, h]

theorem stored_injective : Function.Injective stored := by
  intro a b h
  have hpending := amountBytes_injective (congrArg StoredSlot.pending h)
  cases a
  cases b
  simp only [stored, StoredSlot.mk.injEq, SeatSlot.mk.injEq] at h ⊢
  dsimp only at hpending
  tauto

/-- What the operations keep of a slot: all the decoder asks but for the held rewards. -/
structure Sound (slot : SeatSlot) : Prop where
  epoch : slot.epoch < 2 ^ 64
  leaves : LeavesFit slot.leaves
  registeredAt : slot.registeredAt < 2 ^ 64
  sealedAt : ∀ frame ∈ slot.sealedAt, frame < 2 ^ 64
  frames : slot.frames ≤ MAX_CHAINED
  counted : slot.outcome = .open → slot.frames = slot.chained.length
  chained : ChainFits slot.chained
  expected : slot.expected < 2 ^ 64
  countedThrough : slot.countedThrough < 2 ^ 64
  heldThrough : slot.heldThrough < 2 ^ 64
  outcome : OutcomeFits slot.outcome

theorem Sound.fits_iff {slot : SeatSlot} (h : Sound slot) : Fits (stored slot) ↔ slot.pending < 2 ^ 256 := by
  rw [← length_amountBytes_le_iff]
  refine ⟨Fits.pending, fun hpending => ?_⟩
  exact ⟨h.epoch, h.leaves, h.registeredAt, h.sealedAt, h.frames.trans_lt (by decide), h.chained, h.expected,
    h.countedThrough, h.heldThrough, hpending, h.outcome⟩

/-- The arguments are those the machine holds, and a registration's leaves are within the limits. -/
def InRange : Operation → Prop
  | .register epoch leaves frame => epoch < 2 ^ 64 ∧ frame < 2 ^ 64 ∧ LeavesFit (SeatSlot.fresh epoch leaves frame).leaves
  | .markSealed epoch frame => epoch < 2 ^ 64 ∧ frame < 2 ^ 64
  | .commit epoch frameNumber beacon executed _ _ =>
    epoch < 2 ^ 64 ∧ frameNumber < 2 ^ 64 ∧ beacon < 2 ^ 64 ∧ executed < 2 ^ 64
  | .hold epoch frame appFrame _ _ => epoch < 2 ^ 64 ∧ frame < 2 ^ 64 ∧ appFrame < 2 ^ 64
  | .settle epoch frame timely => epoch < 2 ^ 64 ∧ frame < 2 ^ 64 ∧ timely < 2 ^ 64
  | .expire frame => frame < 2 ^ 64
  | .prune currentEpoch => currentEpoch < 2 ^ 64

instance decidableInRange : DecidablePred InRange
  | .register _ _ _ => inferInstanceAs (Decidable (_ ∧ _))
  | .markSealed _ _ => inferInstanceAs (Decidable (_ ∧ _))
  | .commit _ _ _ _ _ _ => inferInstanceAs (Decidable (_ ∧ _))
  | .hold _ _ _ _ _ => inferInstanceAs (Decidable (_ ∧ _))
  | .settle _ _ _ => inferInstanceAs (Decidable (_ ∧ _))
  | .expire _ => inferInstanceAs (Decidable (_ < _))
  | .prune _ => inferInstanceAs (Decidable (_ < _))

section
variable {seat : Seat} {slot new : SeatSlot}

theorem mem_setSlot (h : slot ∈ (seat.setSlot new).slots) : slot = new ∨ slot ∈ seat.slots := by
  obtain ⟨old, hold, rfl⟩ := mem_map.1 h
  split
  · exact .inl rfl
  · exact .inr hold

theorem mem_prune {currentEpoch : ℕ} (h : slot ∈ (seat.prune currentEpoch).slots) : slot ∈ seat.slots :=
  mem_of_mem_filter (mem_of_mem_drop h)

theorem mem_replaceSlot (h : slot ∈ (seat.replaceSlot new).slots) : slot = new ∨ slot ∈ seat.slots := by
  rw [Seat.replaceSlot, mem_insertionSort, mem_append, mem_singleton] at h
  exact h.symm.imp_right mem_of_mem_filter

theorem length_prune_le (seat : Seat) (currentEpoch : ℕ) : (seat.prune currentEpoch).slots.length ≤ MAX_SLOTS := by
  rw [Seat.prune, length_drop]
  omega

theorem sound_fresh {epoch : ℕ} {leaves : List (List ℕ)} {frame : ℕ} (h : InRange (.register epoch leaves frame)) :
    Sound (.fresh epoch leaves frame) where
  epoch := h.1
  leaves := h.2.2
  registeredAt := h.2.1
  sealedAt := by simp [SeatSlot.fresh]
  frames := zero_le
  counted := fun _ => rfl
  chained := ⟨zero_le, trivial⟩
  expected := by simp [SeatSlot.fresh]
  countedThrough := by simp [SeatSlot.fresh]
  heldThrough := by simp [SeatSlot.fresh]
  outcome := trivial

theorem Sound.count (h : Sound slot) {appFrame : ℕ} (happ : appFrame < 2 ^ 64) (committee : ℕ) :
    Sound (slot.count appFrame committee) := by
  unfold SeatSlot.count
  split
  · have hlt : saturatingAdd slot.expected (PROPOSAL / max committee 1) < 2 ^ 64 :=
      (min_le_right _ _).trans_lt (by decide)
    exact { h with expected := hlt, countedThrough := happ }
  · exact h

theorem Sound.close (h : Sound slot) (rules : Rules) {frame : ℕ} (hframe : frame < 2 ^ 64) :
    Sound (slot.close rules frame) := by
  unfold SeatSlot.close
  split
  · exact { h with counted := fun h => (by cases h), chained := ⟨zero_le, trivial⟩, outcome := hframe }
  · exact h

/-- One more root keeps the chain. -/
theorem ChainFits.concat {chain : List Chained} (h : ChainFits chain) (hroom : chain.length < MAX_CHAINED)
    {chained : Chained} (hlast : (chain.getLast?.map (·.frame)).getD 0 < chained.frame) (hframe : chained.frame < 2 ^ 64)
    (hbeacon : chained.beacon < 2 ^ 64) (hexecuted : chained.executed < 2 ^ 64) : ChainFits (chain ++ [chained]) := by
  refine ⟨by rw [length_append, length_singleton]; omega, linked_concat.2 ⟨h.2, ?_, hframe, hbeacon, hexecuted⟩⟩
  cases hend : chain.getLast? with
  | none => simpa [hend] using hlast
  | some last => simpa [hend, place] using hlast

end

/-- What holds of a seat along every run. -/
structure Encodable (seat : Seat) : Prop where
  slots : ∀ slot ∈ seat.slots, Sound slot
  length : seat.slots.length ≤ MAX_SLOTS

section
variable {rules : Rules} {seat : Seat}

theorem Encodable.setSlot (h : Encodable seat) {new : SeatSlot} (hnew : Sound new) : Encodable (seat.setSlot new) where
  slots slot hslot := by
    rcases mem_setSlot hslot with rfl | hold
    · exact hnew
    · exact h.slots slot hold
  length := (length_map _).trans_le h.length

theorem Encodable.slot (h : Encodable seat) {epoch : ℕ} {slot : SeatSlot} (hslot : seat.slot epoch = some slot) :
    Sound slot :=
  h.slots slot (Seat.slot_eq_some.1 hslot).1

theorem Encodable.prune (h : ∀ slot ∈ seat.slots, Sound slot) (currentEpoch : ℕ) : Encodable (seat.prune currentEpoch) :=
  ⟨fun slot hslot => h slot (mem_prune hslot), length_prune_le seat currentEpoch⟩

theorem Encodable.perform (h : Encodable seat) {op : Operation} (hop : InRange op) :
    Encodable (perform rules seat op).1 := by
  cases op with
  | register epoch leaves frame =>
    refine Encodable.prune (fun slot hslot => ?_) _
    rcases mem_replaceSlot hslot with rfl | hold
    · exact sound_fresh hop
    · exact h.slots slot hold
  | prune currentEpoch => exact Encodable.prune h.slots currentEpoch
  | expire frame =>
    refine ⟨fun slot hslot => ?_, (length_map _).trans_le h.length⟩
    obtain ⟨old, hold, rfl⟩ := mem_map.1 hslot
    exact (h.slots old hold).close rules hop
  | markSealed epoch frame =>
    change Encodable (seat.markSealed epoch frame).2
    unfold Seat.markSealed
    split
    · next slot hslot =>
      split
      · refine h.setSlot { h.slot hslot with sealedAt := fun f hf => ?_ }
        rw [Option.mem_some_iff] at hf
        exact hf ▸ hop.2
      · exact h
    · exact h
  | commit epoch frameNumber beacon executed rhoN root =>
    change Encodable (seat.commit rules epoch frameNumber beacon executed rhoN root).2
    unfold Seat.commit
    split
    · exact h
    next slot hslot =>
    dsimp only
    split
    · exact h
    next hall =>
    push Not at hall
    obtain ⟨-, hopen, hlast, hroom⟩ := hall
    have hsound := h.slot hslot
    have hframes := hsound.counted hopen
    refine h.setSlot { hsound with frames := ?_, counted := fun _ => ?_, chained := ?_ }
    · dsimp only
      omega
    · rw [length_append, length_singleton, hframes]
    · exact hsound.chained.concat hroom hlast hop.2.1 hop.2.2.1 hop.2.2.2
  | hold epoch frame appFrame amount committee =>
    change Encodable (seat.hold epoch frame appFrame amount committee).2
    unfold Seat.hold
    split
    · exact h
    next slot hslot =>
    have hcount := (h.slot hslot).count hop.2.2 committee
    split
    · exact h
    dsimp only
    split
    · exact h.setSlot hcount
    · exact h.setSlot { hcount with heldThrough := hop.2.1 }
  | settle epoch frame timely =>
    change Encodable (seat.settle epoch frame timely).2
    unfold Seat.settle
    split
    · exact h
    next slot hslot =>
    split
    · exact h
    · exact h.setSlot
        { h.slot hslot with counted := fun h => (by cases h), chained := ⟨zero_le, trivial⟩, outcome := hop.2.1 }

theorem encodable_run (rules : Rules) (member : Bytes32) (filter : List UInt8) (ops : List Operation)
    (h : ∀ op ∈ ops, InRange op) : Encodable (run (perform rules) (Seat.new member filter) ops).1 := by
  have hnew : Encodable (Seat.new member filter) := ⟨by simp [Seat.new], zero_le⟩
  exact run_invariant_of (perform rules) (C := fun _ op => InRange op) (I := fun _ seat => Encodable seat)
    (fun _ _ _ hseat hop => hseat.perform hop) ops _ [] hnew (runMeets_of_forall _ ops h _)

end

/-- The slots of a reachable seat, its registrations within the limits on leaves, are read back from their bytes
    exactly when no slot holds more than 32 bytes of rewards, and the bytes tell the slots apart. A string that is
    accepted is the one written for the slots read from it. -/
theorem slots_survive_encoding (rules : Rules) (member : Bytes32) (filter : List UInt8) (ops : List Operation)
    (h : ∀ op ∈ ops, InRange op) :
    let slots := (run (perform rules) (Seat.new member filter) ops).1.slots
    (decodeSlots (encodeSlots (slots.map stored)) = .ok (slots.map stored) ↔ ∀ slot ∈ slots, slot.pending < 2 ^ 256) ∧
      (∀ other : List SeatSlot, other.map stored = slots.map stored → other = slots) ∧
      ∀ data accepted, decodeSlots data = .ok accepted → encodeSlots accepted = data := by
  intro slots
  obtain ⟨hsound, hlength⟩ := encodable_run rules member filter ops h
  refine ⟨?_, fun other hother => map_injective_iff.2 stored_injective hother, fun data accepted hread =>
    (decodeSlots_eq_ok.1 hread).2.symm⟩
  rw [decodeSlots_eq_ok, and_iff_left rfl, length_map, and_iff_right hlength, forall_mem_map]
  exact forall₂_congr fun slot hslot => (hsound slot hslot).fits_iff

/-- A root chained at the last beacon and executed at the first frame, its differences wrapping. -/
theorem slots_survive_encoding_wrapped :
    let slots := (run (perform tenFrames) (Seat.new 0 []) [.register 3 [[1], [0]] 30, .markSealed 3 31,
      .commit 3 5 u64Max 0 [] 7, .commit 3 9 0 u64Max [] 8, .hold 3 33 5 700 4]).1.slots
    decodeSlots (encodeSlots (slots.map stored)) = .ok (slots.map stored) ∧ slots.map (·.pending) = [700] := by
  exact ⟨(slots_survive_encoding tenFrames 0 [] _ (by decide +kernel)).1.2 (by decide +kernel), by decide +kernel⟩

/-- A reward of 33 bytes held for a sealed registration: the slot is encoded, and its bytes are not read back. -/
theorem wide_rewards_not_read_back :
    (∀ op ∈ [Operation.register 3 [[]] 30, .markSealed 3 31, .hold 3 33 5 (2 ^ 256) 4], InRange op) ∧
    (decodeSlots (encodeSlots ((run (perform tenFrames) (Seat.new 0 []) [.register 3 [[]] 30, .markSealed 3 31,
      .hold 3 33 5 (2 ^ 256) 4]).1.slots.map stored))).toOption = none := by
  decide +kernel

end Quil.SeatEncoding
