import Quilibrium.Token.DeliveryQueues
import Quilibrium.Token.RootsRun

/-! Delivery into an owning shard (`token_intrinsic/delivery.rs` over the coin roots of `roots.rs`). The shard takes a
    block's committed items one by one, each at exactly its next index, and REFUSES an item whose address it already
    stores. A refusal is final for the block: every later item is then out of sequence. So a block drains exactly when
    the addresses queued for the application are all different — the condition `Deliverable` carries. -/

namespace Quil.Delivery
open Schemes GlobalRecords AccumulatorRecords DeliveryQueues List Store
open CoinBlocks hiding invalid
open ShardedTree (MembershipKey CoinRecord)
open Roots (SnapshotLimits Kept frontierCount foldedCoins blockCoins IsFolded coinAt setCoin locate)

variable {Node Commitment : Type}

/-- The shard's part of an application: its coins and their records, and the escrows delivered into its blocks. A
    malformed escrow count is `none`. -/
structure ShardState (Node Commitment : Type) extends Roots.State Node Commitment where
  escrows : List Bytes32
  escrowCounts : Store ℕ (Option ℕ)

def ShardState.empty : ShardState Node Commitment :=
  { Roots.State.empty none with escrows := [], escrowCounts := Store.empty }

def invalid (message : String) : QuilError := .invalidArgument ("coin delivery: " ++ message)

/-- Escrows delivered into `block`. -/
def escrowCount (t : ShardState Node Commitment) (block : ℕ) : Except QuilError ℕ :=
  match t.escrowCounts block with
  | none => .ok 0
  | some (some count) => .ok count
  | some none => .error (.store "coin delivery: malformed escrow count")

/-- Whether the application has a vertex at an address: a coin, an escrow, or a record of a block. The summary, the
    placed coins and the root history are kept outside its vertices. -/
def occupied (t : ShardState Node Commitment) (address : Bytes32) : Bool :=
  let block := (slice address 24 8).toNat
  (coinAt t.coins address).isSome || address ∈ t.escrows ||
    (address == blockRecordAddress BLOCK_FRONTIER_TAG block && (t.frontiers block).isSome) ||
    (address == blockRecordAddress BLOCK_ROOT_TAG block && (t.roots block).isSome) ||
    (address == blockRecordAddress BLOCK_ESCROW_COUNT_TAG block && (t.escrowCounts block).isSome)

/-- What the shard places with: the hashes of the application's context, the path of the blocks its store covers, the
    limits of the deployed policy, and the owner and commitment of each output, canonical or not. -/
structure Venue (Node Commitment : Type) where
  key : MembershipKey Node Commitment
  context : Bytes32
  scope : List Bool
  limits : SnapshotLimits
  content : Bytes32 → List UInt8 × Commitment
  depth_allowed : Roots.checkDepth limits = .ok ()
  coins_allowed : 2 ^ 32 ≤ limits.maxCoins

section
variable [DecidableEq Node] (venue : Venue Node Commitment)

/-- Write a committed output at its committed position `(block, seq)` and count it in the block. -/
def placeCommitted (t : ShardState Node Commitment) (address : Bytes32) (block seq : ℕ) :
    Except QuilError (ShardState Node Commitment) := do
  let count ← Roots.blockCount venue.context t.toState block
  if count = seq ∧ occupied t address then .error (invalid "coin already present")
  else
    let content := venue.content address
    let s ← Roots.placeCommitted venue.key.toMembership venue.context t.toState address content.1 content.2 block seq
      venue.scope venue.limits
    return { t with toState := s }

/-- Write a committed escrow's record at its committed `(block, seq)` and count it. -/
def placeCommittedEscrow (t : ShardState Node Commitment) (address : Bytes32) (block seq : ℕ) :
    Except QuilError (ShardState Node Commitment) := do
  let count ← escrowCount t block
  if count ≠ seq then
    .error (invalid s!"escrow out of sequence: block {block} seq {seq}, local count {count}")
  else if occupied t address then .error (invalid "escrow already present")
  else return { t with
    escrows := t.escrows ++ [address], escrowCounts := t.escrowCounts.write block (some (seq + 1)) }

/-! ### Draining -/

/-- One thing the shard does: take the next item of a lane of a block, fold the coins placed, or end the frame. -/
inductive Take where
  | item (lane : Lane) (block : ℕ)
  | fold
  | endFrame
deriving DecidableEq

/-- The shard, and how far it has taken each block's lanes. -/
structure Drain (Node Commitment : Type) where
  shard : ShardState Node Commitment
  next : Lane → ℕ → ℕ

def Drain.start : Drain Node Commitment := ⟨.empty, fun _ _ => 0⟩

/-- Place an item of a lane. -/
def place (lane : Lane) (t : ShardState Node Commitment) (address : Bytes32) (block seq : ℕ) :
    Except QuilError (ShardState Node Commitment) :=
  match lane with
  | .coin => placeCommitted venue t address block seq
  | .escrow => placeCommittedEscrow t address block seq

/-- Counting one more item of a lane. -/
def advance (next : Lane → ℕ → ℕ) (lane : Lane) (block : ℕ) : Lane → ℕ → ℕ :=
  Function.update next lane (Function.update (next lane) block (next lane block + 1))

/-- Take the delivery record at the next sequence, if there is one. A fold that is refused is rolled back by its
    caller. -/
def takeNext (s : Records Node) (app : Bytes32) (dr : Drain Node Commitment) :
    Take → Except QuilError (Drain Node Commitment)
  | .item lane block => do
    match ← laneDelivery lane s app block (dr.next lane block) with
    | none => return dr
    | some d =>
      let shard ← place venue lane dr.shard d.address block (dr.next lane block)
      return ⟨shard, advance dr.next lane block⟩
  | .fold =>
    match Roots.foldPlaced venue.key venue.context dr.shard.toState venue.limits with
    | .ok (_, folded) => .ok { dr with shard := { dr.shard with toState := folded } }
    | .error _ => .ok dr
  | .endFrame => .ok { dr with shard := { dr.shard with pending := [] } }

/-- Take a list of items in order. -/
def drain (s : Records Node) (app : Bytes32) :
    Drain Node Commitment → List Take → Except QuilError (Drain Node Commitment)
  | dr, [] => .ok dr
  | dr, take :: rest => do
    let dr ← takeNext venue s app dr take
    drain s app dr rest

end

/-! ### What drains -/

/-- Queues a shard can take to the end: every coin sits in its block and the block has room, and all
    the addresses queued for the application are different, none of them one of the accumulator's. -/
structure Deliverable (q : Lane → ℕ → List Delivery) : Prop where
  allocated : ∀ lane b, q lane b ≠ [] → isAllocatedWidth MAX_BLOCK_BITS b = true
  inBlock : ∀ b, ∀ d ∈ q .coin b, blockForAddress (creationWidth b) d.address = .ok b
  capacity : ∀ b, (q .coin b).length ≤ 2 ^ SUBTREE_BITS
  distinct : ∀ lane lane' (b b' i i' : ℕ) (d d' : Delivery), (q lane b)[i]? = some d →
    (q lane' b')[i']? = some d' → d.address = d'.address → lane = lane' ∧ b = b' ∧ i = i'
  plain : ∀ lane b, ∀ d ∈ q lane b, isAccumulatorRecord d.address = false

/-- The address is that of a coin or an escrow the shard stores. -/
def Stored (t : ShardState Node Commitment) (address : Bytes32) : Prop :=
  (∃ coin ∈ t.coins, coin.address = address) ∨ address ∈ t.escrows

/-- An item of a lane of a block is stored, a coin at its position in the block. -/
def Placed (t : ShardState Node Commitment) : Lane → ℕ → ℕ → Bytes32 → Prop
  | .coin, block, seq, address =>
    ∃ coin ∈ t.coins, coin.address = address ∧ position MAX_BLOCK_BITS block seq = .ok coin.position
  | .escrow, _, _, address => address ∈ t.escrows

/-- The shard holds exactly the items taken so far, and counts them. -/
structure Drained (venue : Venue Node Commitment) (q : Lane → ℕ → List Delivery) (t : ShardState Node Commitment)
    (next : Lane → ℕ → ℕ) : Prop where
  le : ∀ lane b, next lane b ≤ (q lane b).length
  kept : Kept venue.key venue.context t.toState
  width : t.width = none
  coins : ∀ b, frontierCount t.toState b + t.placed.countP (·.1 == b) = next .coin b
  inBlocks : ∀ b, (blockCoins t.coins b).length = next .coin b
  unfolded : ∀ coin ∈ t.coins, ¬ IsFolded t.toState coin → ∃ block, (block, coin.address) ∈ t.placed
  escrows : ∀ b, escrowCount t b = .ok (next .escrow b)
  counted : ∀ b, (t.escrowCounts b).isSome = true → isAllocatedWidth MAX_BLOCK_BITS b = true
  stored : ∀ a, Stored t a → ∃ lane b i d, i < next lane b ∧ (q lane b)[i]? = some d ∧ d.address = a
  taken : ∀ lane b i d, i < next lane b → (q lane b)[i]? = some d → Placed t lane b i d.address
  total : (foldedCoins t.toState).length + t.placed.length = ∑ b ∈ Finset.range (2 ^ 16), next .coin b
  all : t.coins.length = ∑ b ∈ Finset.range (2 ^ 16), next .coin b

theorem drained_start (venue : Venue Node Commitment) (q : Lane → ℕ → List Delivery) :
    Drained venue q .empty fun _ _ => 0 where
  le _ _ := zero_le
  kept := Roots.kept_empty venue.key venue.context none
  width := rfl
  coins _ := rfl
  inBlocks _ := rfl
  unfolded coin h := absurd h not_mem_nil
  escrows _ := rfl
  counted b h := by cases h
  stored a h := by
    rcases h with ⟨coin, h, -⟩ | h
    · exact absurd h not_mem_nil
    · exact absurd h not_mem_nil
  taken _ _ _ _ h := absurd h (Nat.not_lt_zero _)
  total := by simp [ShardState.empty, Roots.State.empty, foldedCoins]
  all := by simp [ShardState.empty, Roots.State.empty]

/-! ### Record addresses stay out of the way -/

theorem isAccumulatorRecord_block {tag : BitVec 8} {b : ℕ} (htag : tag ∈ blockTags)
    (hb : isAllocatedWidth MAX_BLOCK_BITS b = true) : isAccumulatorRecord (blockRecordAddress tag b) = true :=
  (isAccumulatorRecord_iff _).2 (.inr (.inr ⟨tag, htag, b, hb, rfl⟩))

variable {venue : Venue Node Commitment} {t : ShardState Node Commitment} {next : Lane → ℕ → ℕ}
  {q : Lane → ℕ → List Delivery} {lane : Lane} {b : ℕ} {d : Delivery}

section
variable (h : Drained venue q t next)
include h

/-- Records are of allocated blocks, so a plain address is occupied by a coin or an escrow only. -/
theorem Drained.stored_of_occupied {a : Bytes32} (ha : isAccumulatorRecord a = false) (hocc : occupied t a = true) :
    Stored t a := by
  have hrecord : ∀ {tag}, tag ∈ blockTags → (a == blockRecordAddress tag (slice a 24 8).toNat) = true →
      isAllocatedWidth MAX_BLOCK_BITS (slice a 24 8).toNat = true → False := by
    intro tag htag heq hb
    rw [beq_iff_eq.1 heq, isAccumulatorRecord_block htag (beq_iff_eq.1 heq ▸ hb)] at ha
    cases ha
  have hblock : (t.frontiers (slice a 24 8).toNat).isSome = true ∨ (t.roots (slice a 24 8).toNat).isSome = true →
      isAllocatedWidth MAX_BLOCK_BITS (slice a 24 8).toNat = true := by
    intro hsome
    by_contra hb
    have hnone : t.frontiers (slice a 24 8).toNat = none ∧ t.roots (slice a 24 8).toNat = none :=
      h.kept.unrecorded fun x hx => hb (h.kept.allocated_of_recorded hx)
    simp [hnone] at hsome
  simp only [occupied, Bool.or_eq_true, Bool.and_eq_true, decide_eq_true_eq] at hocc
  rcases hocc with (((hcoin | hescrow) | hfrontier) | hroot) | hcount
  · obtain ⟨coin, hcoin⟩ := Option.isSome_iff_exists.1 hcoin
    exact .inl ⟨coin, Roots.coinAt_eq_some hcoin⟩
  · exact .inr hescrow
  · exact (hrecord (by simp [blockTags]) hfrontier.1 (hblock (.inl hfrontier.2))).elim
  · exact (hrecord (by simp [blockTags]) hroot.1 (hblock (.inr hroot.2))).elim
  · exact (hrecord (by simp [blockTags]) hcount.1 (h.counted _ hcount.2)).elim

/-- The address of an item not taken yet is free. -/
theorem Drained.free (hq : Deliverable q) (hd : (q lane b)[next lane b]? = some d) :
    ¬ Stored t d.address ∧ occupied t d.address = false := by
  have hfree : ¬ Stored t d.address := by
    intro hstored
    obtain ⟨lane', b', i, d', hi, hd', ha⟩ := h.stored _ hstored
    obtain ⟨rfl, rfl, rfl⟩ := hq.distinct _ _ _ _ _ _ _ _ hd' hd ha
    exact lt_irrefl _ hi
  refine ⟨hfree, Bool.eq_false_iff.2 fun hocc => hfree ?_⟩
  exact h.stored_of_occupied (hq.plain lane b d (mem_iff_getElem?.2 ⟨_, hd⟩)) hocc

end

/-! ### Taking one item -/

theorem advance_apply (next : Lane → ℕ → ℕ) (lane lane' : Lane) (block b : ℕ) : advance next lane block lane' b =
      if lane' = lane ∧ b = block then next lane block + 1 else next lane' b := by
  rw [advance]
  by_cases hl : lane' = lane
  · subst hl
    by_cases hb : b = block
    · subst hb; simp
    · simp [hb]
  · simp [hl]

theorem advance_self (next : Lane → ℕ → ℕ) (lane : Lane) (block b : ℕ) :
    advance next lane block lane b = next lane b + if block = b then 1 else 0 := by
  rw [advance_apply]
  split_ifs <;> grind

theorem sum_advance (next : Lane → ℕ → ℕ) (hb : b < 2 ^ 16) :
    ∑ x ∈ Finset.range (2 ^ 16), advance next .coin b .coin x = (∑ x ∈ Finset.range (2 ^ 16), next .coin x) + 1 := by
  have hmem : b ∈ Finset.range (2 ^ 16) := Finset.mem_range.2 hb
  rw [← Finset.add_sum_erase _ _ hmem, ← Finset.add_sum_erase _ (next .coin) hmem, advance_apply, if_pos ⟨rfl, rfl⟩]
  have hrest : ∀ x ∈ (Finset.range (2 ^ 16)).erase b, advance next .coin b .coin x = next .coin x := fun x hx => by
    rw [advance_apply, if_neg fun h => Finset.ne_of_mem_erase hx h.2]
  rw [Finset.sum_congr rfl hrest]
  exact add_right_comm _ _ _

section
variable (h : Drained venue q t next)
include h

/-- The coin cap is out of reach: below it there is room for every block filled. -/
theorem Drained.below_cap (hq : Deliverable q) (hb : isAllocatedWidth MAX_BLOCK_BITS b = true)
    (hlt : next .coin b < (q .coin b).length) :
    Roots.checkCoinCap (foldedCoins t.toState).length (t.placed.length + 1) venue.limits = .ok () := by
  have hmem : b ∈ Finset.range (2 ^ 16) := Finset.mem_range.2 (lt_of_allocated hb)
  have hle : ∀ x ∈ Finset.range (2 ^ 16), next .coin x ≤ 2 ^ 16 := fun x _ => (h.le .coin x).trans (hq.capacity x)
  have hsum : ∑ x ∈ Finset.range (2 ^ 16), next .coin x < ∑ _x ∈ Finset.range (2 ^ 16), 2 ^ 16 :=
    Finset.sum_lt_sum hle ⟨b, hmem, hlt.trans_le (hq.capacity b)⟩
  rw [Finset.sum_const, Finset.card_range, smul_eq_mul, ← pow_add] at hsum
  have htotal := h.total
  have hcap := venue.coins_allowed
  rw [Roots.checkCoinCap, ShardedTree.USIZE_LIMIT, if_neg (by omega)]

/-- What one more item at the end of the taken ones makes present. -/
theorem Drained.stored_advance (hd : (q lane b)[next lane b]? = some d) {a : Bytes32}
    (ha : a = d.address ∨ Stored t a) :
    ∃ lane' b' i d', i < advance next lane b lane' b' ∧ (q lane' b')[i]? = some d' ∧ d'.address = a := by
  rcases ha with rfl | hstored
  · exact ⟨lane, b, next lane b, d, by rw [advance_apply, if_pos ⟨rfl, rfl⟩]; omega, hd, rfl⟩
  obtain ⟨lane', b', i, d', hi, hd', rfl⟩ := h.stored a hstored
  refine ⟨lane', b', i, d', ?_, hd', rfl⟩
  rw [advance_apply]
  split_ifs with hat
  · obtain ⟨rfl, rfl⟩ := hat; omega
  · exact hi

theorem Drained.taken_advance {t' : ShardState Node Commitment} (hd : (q lane b)[next lane b]? = some d)
    (hnew : Placed t' lane b (next lane b) d.address)
    (hold : ∀ lane b i a, Placed t lane b i a → Placed t' lane b i a) (lane' : Lane) (b' i : ℕ) (d' : Delivery)
    (hi : i < advance next lane b lane' b') (hd' : (q lane' b')[i]? = some d') : Placed t' lane' b' i d'.address := by
  rw [advance_apply] at hi
  split_ifs at hi with hat
  · obtain ⟨rfl, rfl⟩ := hat
    rcases Nat.lt_succ_iff_lt_or_eq.1 hi with hi | rfl
    · exact hold _ _ _ _ (h.taken _ _ _ _ hi hd')
    · rw [hd, Option.some.injEq] at hd'
      exact hd' ▸ hnew
  · exact hold _ _ _ _ (h.taken _ _ _ _ hi hd')

theorem Drained.le_advance (hlt : next lane b < (q lane b).length) (lane' : Lane) (b' : ℕ) :
    advance next lane b lane' b' ≤ (q lane' b').length := by
  rw [advance_apply]
  split_ifs with hat
  · obtain ⟨rfl, rfl⟩ := hat; exact hlt
  · exact h.le lane' b'

variable [DecidableEq Node]

/-- The next coin of a block is placed. -/
theorem Drained.placeCommitted (hq : Deliverable q) (hd : (q .coin b)[next .coin b]? = some d) :
    ∃ t', placeCommitted venue t d.address b (next .coin b) = .ok t' ∧ Drained venue q t' (advance next .coin b) := by
  have hmem : d ∈ q .coin b := List.mem_iff_getElem?.2 ⟨_, hd⟩
  have hlt : next .coin b < (q .coin b).length := (List.getElem?_eq_some_iff.1 hd).1
  have hb : isAllocatedWidth MAX_BLOCK_BITS b = true := hq.allocated .coin b (ne_nil_of_mem hmem)
  obtain ⟨hfree, hocc⟩ := h.free hq hd
  have hfree : ∀ other ∈ t.coins, other.address ≠ d.address := fun other hother heq =>
    hfree (.inl ⟨other, hother, heq⟩)
  let coin : CoinRecord Commitment :=
    ⟨d.address, (venue.content d.address).1, (venue.content d.address).2, b * 2 ^ SUBTREE_BITS + next .coin b⟩
  have hposition : position MAX_BLOCK_BITS b (next .coin b) = .ok coin.position := by
    rw [position, if_neg (by simp [hb]), if_neg (not_le.2 (hlt.trans_le (hq.capacity b)))]
  have hshape : Roots.shape t.blockWidth = .ok ⟨BLOCK_INDEX_BITS, SUBTREE_BITS⟩ := by
    rw [Roots.State.blockWidth, h.width]
    rfl
  obtain ⟨nodes, hplace⟩ := @Roots.Kept.placeCommitted_ok _ _ _ _ _ _ _ h.kept _ venue.depth_allowed _ hshape coin _
    (h.coins b) hfree (hq.inBlock b d hmem) hposition (h.below_cap hq hb hlt) venue.scope
  have hnew : ¬ IsFolded t.toState coin := by
    have := h.coins b
    rw [IsFolded, Roots.locate_position hposition]
    dsimp only
    omega
  have hcoins : (setCoin t.toState coin).coins = t.coins ++ [coin] := Roots.coins_setCoin hfree
  refine ⟨{ t with toState := _ }, ?_, h.le_advance hlt, h.kept.placeCommitted hplace, h.width, fun x => ?_,
    fun x => ?_, fun other hother hnot => ?_, fun x => ?_, h.counted, fun a ha => h.stored_advance hd ?_,
    h.taken_advance hd ⟨coin, hcoins ▸ mem_append_right _ (mem_singleton_self coin), rfl, hposition⟩ ?_, ?_, ?_⟩
  · rw [Delivery.placeCommitted, h.kept.blockCount, ok_bind, hocc, if_neg (by simp)]
    dsimp only [coin] at hplace ⊢
    rw [hplace, ok_bind, pure_eq_ok]
  · show frontierCount t.toState x + (t.placed ++ [(b, d.address)]).countP (·.1 == x) = _
    rw [countP_append, ← add_assoc, h.coins x, advance_self, countP_singleton]
    simp only [beq_iff_eq]
  · show (blockCoins (setCoin t.toState coin).coins x).length = _
    have hold := h.inBlocks x
    rw [blockCoins, length_insertionSort, ← countP_eq_length_filter] at hold ⊢
    rw [hcoins, countP_append, hold, advance_self, countP_singleton, Roots.locate_position hposition]
    simp only [decide_eq_true_eq]
  · rw [hcoins, mem_append, mem_singleton] at hother
    rcases hother with hother | rfl
    · obtain ⟨block, hblock⟩ := h.unfolded other hother hnot
      exact ⟨block, mem_append_left _ hblock⟩
    · exact ⟨b, mem_append_right _ (mem_singleton_self _)⟩
  · rw [advance_apply, if_neg (by simp)]
    exact h.escrows x
  · rcases ha with ⟨other, hother, rfl⟩ | ha
    · rw [hcoins, mem_append, mem_singleton] at hother
      rcases hother with hother | rfl
      · exact .inr (.inl ⟨other, hother, rfl⟩)
      · exact .inl rfl
    · exact .inr (.inr ha)
  · rintro (_ | _) x i a ha
    · obtain ⟨other, hother, hat⟩ := ha
      exact ⟨other, hcoins ▸ mem_append_left _ hother, hat⟩
    · exact ha
  · rw [sum_advance next (lt_of_allocated hb), ← h.total]
    show (foldedCoins (setCoin t.toState coin)).length + (t.placed ++ [(b, d.address)]).length = _
    rw [Roots.foldedCoins_setCoin hfree hnew, length_append]
    rfl
  · rw [sum_advance next (lt_of_allocated hb), ← h.all]
    show (setCoin t.toState coin).coins.length = _
    rw [hcoins, length_append]
    rfl

omit [DecidableEq Node] in
/-- The next escrow of a block is placed. -/
theorem Drained.placeCommittedEscrow (hq : Deliverable q) (hd : (q .escrow b)[next .escrow b]? = some d) :
    ∃ t', placeCommittedEscrow t d.address b (next .escrow b) = .ok t' ∧
      Drained venue q t' (advance next .escrow b) := by
  have hmem : d ∈ q .escrow b := List.mem_iff_getElem?.2 ⟨_, hd⟩
  have hlt : next .escrow b < (q .escrow b).length := (List.getElem?_eq_some_iff.1 hd).1
  have hcoin : ∀ x, advance next .escrow b .coin x = next .coin x := fun x => by
    rw [advance_apply, if_neg (by simp)]
  refine ⟨{ t with
    escrows := t.escrows ++ [d.address], escrowCounts := t.escrowCounts.write b (some (next .escrow b + 1)) }, ?_,
    h.le_advance hlt, h.kept, h.width, ?_, ?_, h.unfolded, fun x => ?_, fun x hx => ?_,
    fun a ha => h.stored_advance hd ?_, h.taken_advance hd (mem_append_right _ (mem_singleton_self _)) ?_, ?_, ?_⟩
  · rw [Delivery.placeCommittedEscrow, h.escrows b, ok_bind, if_neg (by simp), (h.free hq hd).2, if_neg (by simp)]
    rfl
  · simpa only [hcoin] using h.coins
  · simpa only [hcoin] using h.inBlocks
  · have hold := h.escrows x
    rw [escrowCount] at hold ⊢
    dsimp only
    by_cases hxb : x = b
    · rw [hxb, write_same, advance_apply, if_pos ⟨rfl, rfl⟩]
    · rw [write_other hxb, advance_apply, if_neg fun hat => hxb hat.2]
      exact hold
  · by_cases hxb : x = b
    · rw [hxb]
      exact hq.allocated .escrow b (ne_nil_of_mem hmem)
    · dsimp only at hx
      rw [write_other hxb] at hx
      exact h.counted x hx
  · rcases ha with ha | ha
    · exact .inr (.inl ha)
    · rcases mem_append.1 ha with ha | ha
      · exact .inr (.inr ha)
      · exact .inl (mem_singleton.1 ha)
  · rintro (_ | _) x i a ha
    · exact ha
    · exact mem_append_left _ ha
  · simpa only [hcoin] using h.total
  · simpa only [hcoin] using h.all

/-- A fold that succeeds leaves every coin folded, and changes no count. -/
theorem Drained.foldPlaced {root : Option (ShardedTree.RootRecord Node)} {s : Roots.State Node Commitment}
    (hfold : Roots.foldPlaced venue.key venue.context t.toState venue.limits = .ok (root, s)) :
    Drained venue q { t with toState := s } next := by
  rw [Roots.foldPlaced] at hfold
  split at hfold
  · cases hfold
    exact h
  obtain ⟨⟨found, s'⟩, hrefresh, hfold⟩ := bind_ok hfold
  cases hfold
  obtain ⟨hkept, hcoins, hrebuilt, -⟩ := h.kept.refresh hrefresh
  obtain ⟨hplaced, hwidth⟩ := h.kept.refresh_placed hrefresh
  have hall : ∀ coin ∈ s.coins, IsFolded s coin := fun coin hcoin => Roots.isFolded_of_rebuilt hrebuilt hcoin
  refine ⟨h.le, hkept, hwidth.trans h.width, fun x => ?_, fun x => ?_, fun coin hcoin hnot => absurd (hall coin hcoin) hnot,
    h.escrows, h.counted, fun a ha => h.stored a ?_, fun lane b i d hi hd => ?_, ?_, ?_⟩
  · show frontierCount s x + s.placed.countP (·.1 == x) = _
    rw [hplaced, frontierCount, (hrebuilt x).count_eq, hcoins, h.inBlocks]
    rfl
  · show (blockCoins s.coins x).length = _
    rw [hcoins, h.inBlocks]
  · rcases ha with ⟨coin, hcoin, heq⟩ | ha
    · exact .inl ⟨coin, hcoins ▸ hcoin, heq⟩
    · exact .inr ha
  · have htaken := h.taken lane b i d hi hd
    cases lane with
    | coin =>
      obtain ⟨coin, hcoin, hat⟩ := htaken
      exact ⟨coin, hcoins ▸ hcoin, hat⟩
    | escrow => exact htaken
  · show (foldedCoins s).length + s.placed.length = _
    rw [Roots.foldedCoins_eq hall, hplaced, hcoins, ← h.all]
    rfl
  · show s.coins.length = _
    rw [hcoins, h.all]

omit [DecidableEq Node] in
theorem Drained.endFrame : Drained venue q { t with pending := [] } next :=
  ⟨h.le, h.kept.commit fun coin hcoin => or_iff_not_imp_left.2 (h.unfolded coin (h.kept.staged coin hcoin)), h.width,
    h.coins, h.inBlocks, h.unfolded, h.escrows, h.counted, h.stored, h.taken, h.total, h.all⟩

end

/-! ### Every drain succeeds -/

section
variable [DecidableEq Node] {s : Records Node} {app : Bytes32}

/-- Taking from a deliverable queue succeeds and advances the lane to its end at most. -/
theorem takeNext_ok (htracks : ∀ lane, Tracks lane app s (q lane)) (hq : Deliverable q)
    {dr : Drain Node Commitment} (h : Drained venue q dr.shard dr.next) (take : Take) :
    ∃ dr', takeNext venue s app dr take = .ok dr' ∧ Drained venue q dr'.shard dr'.next ∧
      ∀ lane b, dr'.next lane b = min (q lane b).length (dr.next lane b + if take = .item lane b then 1 else 0) := by
  have hkeep : ∀ lane b, dr.next lane b = min (q lane b).length (dr.next lane b) := fun lane b =>
    (min_eq_right (h.le lane b)).symm
  cases take with
  | fold =>
    rw [takeNext]
    rcases hfold : Roots.foldPlaced venue.key venue.context dr.shard.toState venue.limits with _ | ⟨root, folded⟩
    · exact ⟨dr, rfl, h, by simpa using hkeep⟩
    · exact ⟨_, rfl, h.foldPlaced hfold, by simpa using hkeep⟩
  | endFrame => exact ⟨_, rfl, h.endFrame, by simpa using hkeep⟩
  | item lane b =>
    rcases lt_or_ge (dr.next lane b) (q lane b).length with hlt | hge
    · have hd : (q lane b)[dr.next lane b]? = some (q lane b)[dr.next lane b] :=
        getElem?_eq_getElem hlt
      obtain ⟨t, ht, hdrained⟩ : ∃ t, place venue lane dr.shard (q lane b)[dr.next lane b].address b
          (dr.next lane b) = .ok t ∧ Drained venue q t (advance dr.next lane b) := by
        cases lane with
        | coin => exact h.placeCommitted hq hd
        | escrow => exact h.placeCommittedEscrow hq hd
      refine ⟨⟨t, advance dr.next lane b⟩, ?_, hdrained, fun lane' b' => ?_⟩
      · simp only [takeNext, (htracks lane).delivery, hd, ok_bind, ht, pure_eq_ok]
      dsimp only
      rw [advance_apply]
      by_cases hat : lane' = lane ∧ b' = b
      · obtain ⟨rfl, rfl⟩ := hat
        simp; omega
      · rw [if_neg hat, if_neg (by rintro ⟨⟩; exact hat ⟨rfl, rfl⟩)]
        exact hkeep lane' b'
    · refine ⟨dr, ?_, h, fun lane' b' => ?_⟩
      · simp only [takeNext, (htracks lane).delivery, getElem?_eq_none hge, ok_bind, pure_eq_ok]
      by_cases hat : Take.item lane b = .item lane' b'
      · cases hat
        rw [if_pos rfl, min_eq_left (by omega)]
        exact le_antisymm (h.le lane b) hge
      · rw [if_neg hat]; exact hkeep lane' b'

/-- Every schedule of takes, folds and frames runs through, and takes and stores as many items as it asks for. -/
theorem drain_ok (htracks : ∀ lane, Tracks lane app s (q lane)) (hq : Deliverable q) :
    ∀ (schedule : List Take) (dr : Drain Node Commitment), Drained venue q dr.shard dr.next →
      ∃ dr', drain venue s app dr schedule = .ok dr' ∧ Drained venue q dr'.shard dr'.next ∧
        ∀ lane b, dr'.next lane b = min (q lane b).length (dr.next lane b + schedule.count (.item lane b))
  | [], dr, h => ⟨dr, rfl, h, fun lane b => by simpa using (min_eq_right (h.le lane b)).symm⟩
  | take :: rest, dr, h => by
    obtain ⟨dr₁, h₁, hd₁, hnext₁⟩ := takeNext_ok htracks hq h take
    obtain ⟨dr', h', hd', hnext'⟩ := drain_ok htracks hq rest dr₁ hd₁
    refine ⟨dr', by rw [drain, h₁, ok_bind, h'], hd', fun lane b => ?_⟩
    rw [hnext', hnext₁, count_cons]
    simp only [beq_iff_eq]
    split_ifs <;> omega

end

end Quil.Delivery
