import Quilibrium.Schemes.Turns
import Quilibrium.Token.Delivery

/-! The census of what GLOBAL committed to a shard and the shard has not taken yet (`pending_census` of
    `token_intrinsic/delivery.rs`). A block takes only its next item, so the blocks are listed IN TURNS, one item
    each: one block's backlog never keeps another block's items from being listed. -/

namespace Quil.Census
open Schemes GlobalRecords List Turns
open CoinBlocks (ownedBlocks ownedBlocks_nodup)
open Delivery (ShardState escrowCount)

variable {Node Commitment : Type}

/-- A committed output or escrow this shard has yet to take. -/
structure PendingDelivery where
  lane : Lane
  block : ℕ
  seq : ℕ
  address : Bytes32
  sourceFrame : ℕ
  txId : Bytes32
  /-- Where the operation ran, and so where its bytes are. -/
  sourceShard : ShardPath
deriving DecidableEq, Repr

structure PendingCensus where
  /-- The listed items: each block's in delivery order, the blocks in turn. -/
  items : List PendingDelivery
  /-- Owned blocks read. -/
  blocks : ℕ
  /-- Committed outputs and escrows not taken yet, over every owned block. -/
  pending : ℕ
  /-- Blocks with something pending, coins and escrows counted apart. -/
  blocksPending : ℕ
  /-- Whether the cap left pending items unlisted. -/
  capped : Bool
  /-- Committed items whose delivery record this GLOBAL view lacks: the block lists nothing from there on. -/
  missingRecords : List (Lane × ℕ × ℕ)
deriving DecidableEq, Repr

/-- The shard's state, and the context its block records carry. -/
structure LocalState (Node Commitment : Type) extends ShardState Node Commitment where
  context : Bytes32

/-- Items of a lane the shard has taken into `block`. -/
def takenCount (lane : Lane) (t : LocalState Node Commitment) (block : ℕ) : Except QuilError ℕ :=
  match lane with
  | .coin => Roots.blockCount t.context t.toState block
  | .escrow => escrowCount t.toShardState block

section
variable (s : Records Node) (t : LocalState Node Commitment) (app : Bytes32)

/-- What is pending of one lane of a block. -/
def readLane (block : ℕ) (lane : Lane) : Except QuilError (List (Queue (Lane × ℕ))) := do
  let committed ← laneSequence lane s app block
  let taken ← takenCount lane t block
  return if taken < committed then [⟨(lane, block), taken, committed⟩] else []

/-- What is pending of a block. A re-placed orphan's records name deliveries of other blocks now. -/
def readBlock (block : ℕ) : Except QuilError (List (Queue (Lane × ℕ))) := do
  let orphan ← orphan s app block
  if orphan.any (·.moved) then .ok []
  else do
    let coins ← readLane s t app block .coin
    let escrows ← readLane s t app block .escrow
    return coins ++ escrows

def readBlocks : List ℕ → Except QuilError (List (Queue (Lane × ℕ)))
  | [] => .ok []
  | block :: blocks => do
    let queues ← readBlock s t app block
    let rest ← readBlocks blocks
    return queues ++ rest

/-- The record of one committed item. -/
def readDelivery (key : Lane × ℕ) (seq : ℕ) : Except QuilError (Option GlobalRecords.Delivery) :=
  laneDelivery key.1 s app key.2 seq

def pendingDelivery (item : (Lane × ℕ) × ℕ × GlobalRecords.Delivery) : PendingDelivery :=
  let (key, seq, record) := item
  ⟨key.1, key.2, seq, record.address, record.sourceFrame, record.txId, record.sourceShard⟩

/-- The outputs and escrows committed to the blocks `shard` owns that local state has not taken yet. -/
def pendingCensus (shard : List Bool) (cap : ℕ) : Except QuilError PendingCensus := do
  let placedAt ← placementWidth s app
  let blocks := ownedBlocks shard placedAt
  let queues ← readBlocks s t app blocks
  let (final, listing) ← Turns.listInTurns (readDelivery s app) cap queues
  return {
    items := listing.items.map pendingDelivery
    blocks := blocks.length
    pending := Turns.remaining queues
    blocksPending := queues.length
    capped := final.any fun q => q.next < q.committed
    missingRecords := listing.missing.map fun e => (e.1.1, e.1.2, e.2) }

/-! ### What is pending -/

/-- An owned block has items of a lane, the first not yet taken at `taken`. -/
structure Pending (shard : List Bool) (lane : Lane) (block taken committed : ℕ) : Prop where
  owned : ∃ width, placementWidth s app = .ok width ∧ block ∈ ownedBlocks shard width
  kept : ∃ found, orphan s app block = .ok found ∧ found.any (·.moved) = false
  committed_eq : laneSequence lane s app block = .ok committed
  taken_eq : takenCount lane t block = .ok taken
  lt : taken < committed

/-- A fair, bounded, contiguous listing. -/
structure Fair (shard : List Bool) (cap : ℕ) (census : PendingCensus) : Prop where
  /-- Each block lists a run of its items from its taken count on, at least the first. -/
  run : ∀ lane block taken committed, Pending s t app shard lane block taken committed →
    ∃ n, taken + n ≤ committed ∧
      ((census.items.filter fun item => item.lane = lane ∧ item.block = block).map (·.seq)) = List.range' taken n ∧
      (1 ≤ n ∨ (lane, block, taken) ∈ census.missingRecords)
  /-- Nothing else is listed. -/
  only : ∀ item ∈ census.items,
    (∃ taken committed, Pending s t app shard item.lane item.block taken committed) ∧
    laneDelivery item.lane s app item.block item.seq =
      .ok (some ⟨item.address, item.sourceFrame, item.txId, item.sourceShard⟩)
  length_le : census.items.length ≤ max cap census.blocksPending
  blocks_eq : ∃ blocks : List (Lane × ℕ), blocks.Nodup ∧ blocks.length = census.blocksPending ∧
    ∀ lane block, (lane, block) ∈ blocks ↔
      ∃ taken committed, Pending s t app shard lane block taken committed
  /-- A missing record is that of the first item not listed. -/
  missing : ∀ lane block seq, (lane, block, seq) ∈ census.missingRecords →
    laneDelivery lane s app block seq = .ok none ∧
    ∃ taken committed, Pending s t app shard lane block taken committed ∧ taken ≤ seq ∧ seq < committed
  /-- Capped is that some pending item is left out, not for a missing record. -/
  capped_iff : census.capped = true ↔
    ∃ lane block taken committed seq, Pending s t app shard lane block taken committed ∧
      taken ≤ seq ∧ seq < committed ∧
      (∀ item ∈ census.items, ¬ (item.lane = lane ∧ item.block = block ∧ item.seq = seq)) ∧
      ∀ k ≤ seq, (lane, block, k) ∉ census.missingRecords
  capped_full : census.capped = true → cap ≤ census.items.length

/-- Every record the census reads is well formed. -/
structure Readable (shard : List Bool) : Prop where
  blocks : ∃ width, placementWidth s app = .ok width ∧ ∀ block ∈ ownedBlocks shard width,
    (∃ found, orphan s app block = .ok found) ∧
    ∀ lane, (∃ committed, laneSequence lane s app block = .ok committed) ∧
      ∃ taken, takenCount lane t block = .ok taken
  records : ∀ lane block taken committed, Pending s t app shard lane block taken committed →
    ∀ seq, taken ≤ seq → seq < committed → ∃ found, laneDelivery lane s app block seq = .ok found

end

variable {block : ℕ} {lane : Lane} {queues : List (Queue (Lane × ℕ))}

section
variable {s : Records Node} {t : LocalState Node Commitment} {app : Bytes32}

/-! ### The queues read -/

theorem mem_readLane (h : readLane s t app block lane = .ok queues) (q : Queue (Lane × ℕ)) :
    q ∈ queues ↔ q.key = (lane, block) ∧ laneSequence lane s app block = .ok q.committed ∧
      takenCount lane t block = .ok q.next ∧ q.next < q.committed := by
  obtain ⟨committed, hcommitted, h⟩ := bind_ok h
  obtain ⟨taken, htaken, h⟩ := bind_ok h
  rw [hcommitted, htaken]
  obtain ⟨key, next, last⟩ := q
  simp only [pure_eq_ok, Except.ok.injEq] at h
  subst h
  simp only [Except.ok.injEq]
  split
  · next hlt =>
    rw [mem_singleton, Queue.mk.injEq]
    constructor
    · rintro ⟨rfl, rfl, rfl⟩
      exact ⟨rfl, rfl, rfl, hlt⟩
    · rintro ⟨rfl, rfl, rfl, -⟩
      exact ⟨rfl, rfl, rfl⟩
  next hge =>
  constructor
  · intro h
    exact absurd h not_mem_nil
  · rintro ⟨-, rfl, rfl, hlt⟩
    exact absurd hlt hge

theorem readLane_keys (h : readLane s t app block lane = .ok queues) : (queues.map (·.key)).Nodup := by
  obtain ⟨committed, -, h⟩ := bind_ok h
  obtain ⟨taken, -, h⟩ := bind_ok h
  simp only [pure_eq_ok, Except.ok.injEq] at h
  subst h
  split <;> simp

/-- The queue of a lane of a block that has something pending. -/
def IsQueue (s : Records Node) (t : LocalState Node Commitment) (app : Bytes32) (block : ℕ) (q : Queue (Lane × ℕ)) : Prop :=
  q.key.2 = block ∧ (∃ found, orphan s app block = .ok found ∧ found.any (·.moved) = false) ∧
    laneSequence q.key.1 s app block = .ok q.committed ∧ takenCount q.key.1 t block = .ok q.next ∧
    q.next < q.committed

theorem mem_readBlock (h : readBlock s t app block = .ok queues) :
    (∀ q, q ∈ queues ↔ IsQueue s t app block q) ∧ (queues.map (·.key)).Nodup := by
  obtain ⟨found, hfound, h⟩ := bind_ok h
  split at h
  · next hmoved =>
    cases h
    refine ⟨fun q => ⟨fun hq => absurd hq not_mem_nil, ?_⟩, nodup_nil⟩
    rintro ⟨-, ⟨other, hother, hkept⟩, -⟩
    cases hfound.symm.trans hother
    rw [hmoved] at hkept
    cases hkept
  next hkept =>
  obtain ⟨coins, hcoins, h⟩ := bind_ok h
  obtain ⟨escrows, hescrows, h⟩ := bind_ok h
  cases h
  refine ⟨fun q => ?_, ?_⟩
  · obtain ⟨⟨lane, at'⟩, next, committed⟩ := q
    rw [mem_append, mem_readLane hcoins, mem_readLane hescrows, IsQueue]
    constructor
    · rintro (⟨hkey, hrest⟩ | ⟨hkey, hrest⟩)
      all_goals
        cases hkey
        exact ⟨rfl, ⟨found, hfound, Bool.eq_false_iff.2 hkept⟩, hrest⟩
    · rintro ⟨hblock, -, hrest⟩
      dsimp only at hblock hrest ⊢
      subst hblock
      cases lane with
      | coin => exact .inl ⟨rfl, hrest⟩
      | escrow => exact .inr ⟨rfl, hrest⟩
  · rw [map_append, nodup_append]
    refine ⟨readLane_keys hcoins, readLane_keys hescrows, fun a ha b hb hab => ?_⟩
    obtain ⟨q, hq, rfl⟩ := mem_map.1 ha
    obtain ⟨q', hq', rfl⟩ := mem_map.1 hb
    rw [((mem_readLane hcoins q).1 hq).1, ((mem_readLane hescrows q').1 hq').1] at hab
    cases hab

theorem mem_readBlocks {blocks : List ℕ} (hblocks : blocks.Nodup) (h : readBlocks s t app blocks = .ok queues) :
    (∀ q, q ∈ queues ↔ q.key.2 ∈ blocks ∧ IsQueue s t app q.key.2 q) ∧ (queues.map (·.key)).Nodup := by
  induction blocks generalizing queues with
  | nil =>
    cases h
    simp
  | cons block blocks ih =>
    obtain ⟨first, hfirst, h⟩ := bind_ok h
    obtain ⟨rest, hrest, h⟩ := bind_ok h
    cases h
    obtain ⟨hnew, hblocks⟩ := nodup_cons.1 hblocks
    obtain ⟨hmem, hkeys⟩ := mem_readBlock hfirst
    obtain ⟨hmem', hkeys'⟩ := ih hblocks hrest
    refine ⟨fun q => ?_, ?_⟩
    · rw [mem_append, hmem, hmem', mem_cons]
      constructor
      · rintro (hq | ⟨hin, hq⟩)
        · have hblock := hq.1
          exact ⟨.inl hblock, hblock ▸ hq⟩
        · exact ⟨.inr hin, hq⟩
      · rintro ⟨hblock | hin, hq⟩
        · exact .inl (hblock ▸ hq)
        · exact .inr ⟨hin, hq⟩
    rw [map_append, nodup_append]
    refine ⟨hkeys, hkeys', fun a ha b hb hab => hnew ?_⟩
    obtain ⟨q, hq, rfl⟩ := mem_map.1 ha
    obtain ⟨q', hq', rfl⟩ := mem_map.1 hb
    rw [← ((hmem q).1 hq).1, hab]
    exact ((hmem' q').1 hq').1

/-! ### What is listed -/

theorem filter_pendingDelivery (lane : Lane) (block : ℕ) (l : Listing (Lane × ℕ) GlobalRecords.Delivery) :
    (((l.items.map pendingDelivery).filter fun item => item.lane = lane ∧ item.block = block).map (·.seq)) =
      (itemsOf (lane, block) l).map Prod.fst := by
  rw [itemsOf]
  induction l.items with
  | nil => rfl
  | cons item items ih =>
    obtain ⟨⟨lane', block'⟩, seq, record⟩ := item
    by_cases hkey : lane' = lane ∧ block' = block
    · obtain ⟨rfl, rfl⟩ := hkey
      rw [map_cons, filter_cons_of_pos, map_cons, ih, filterMap_cons, if_pos rfl]
      · rfl
      · exact decide_eq_true ⟨rfl, rfl⟩
    have hne : ¬ (lane', block') = (lane, block) := fun heq => hkey (Prod.mk.injEq _ _ _ _ ▸ heq)
    rw [map_cons, filter_cons_of_neg, ih, filterMap_cons, if_neg hne]
    exact fun hin => hkey (of_decide_eq_true hin)

section
variable {shard : List Bool} {cap blocks : ℕ} {final : List (Queue (Lane × ℕ))}
  {l : Listing (Lane × ℕ) GlobalRecords.Delivery}

theorem mem_missingRecords {seq : ℕ} : (lane, block, seq) ∈ (l.missing.map fun e => (e.1.1, e.1.2, e.2)) ↔
    seq ∈ missingOf (lane, block) l := by
  rw [mem_missingOf, mem_map]
  exact ⟨fun ⟨e, he, heq⟩ => by cases heq; exact he, fun h => ⟨_, h, rfl⟩⟩

theorem not_listed_iff {seq : ℕ} : (∀ item ∈ l.items.map pendingDelivery,
    ¬ (item.lane = lane ∧ item.block = block ∧ item.seq = seq)) ↔ seq ∉ (itemsOf (lane, block) l).map Prod.fst := by
  rw [← filter_pendingDelivery, mem_map, not_exists]
  refine forall_congr' fun item => ?_
  rw [mem_filter, decide_eq_true_eq]
  tauto

theorem any_unfinished : (final.any fun q => q.next < q.committed) = true ↔ ∃ q ∈ final, q.next < q.committed := by
  rw [any_eq_true]
  simp

variable (hlisted : Turns.Listed (readDelivery s app) cap queues final l)
include hlisted

/-- Only a queue that was read lists something. -/
theorem listed_queue {k : Lane × ℕ} (hk : itemsOf k l ≠ [] ∨ missingOf k l ≠ []) : ∃ q ∈ queues, q.key = k := by
  by_contra hnone
  obtain ⟨hitems, hmissing⟩ := hlisted.others k fun hin => hnone (mem_map.1 hin)
  exact hk.elim (· hitems) (· hmissing)

/-- A queue served lists a run of its items, the first of them or the mark that its record is missing included. -/
theorem listed_run {q : Queue (Lane × ℕ)} (hq : q ∈ queues) (hserved : Turns.Served q.key l) :
    ∃ n, q.next + n ≤ q.committed ∧ (itemsOf q.key l).map Prod.fst = range' q.next n ∧
      (1 ≤ n ∨ q.next ∈ missingOf q.key l) := by
  obtain ⟨q', -, hprogress⟩ := hlisted.of_start hq
  obtain ⟨n, hrun, hle, hend⟩ := hprogress.run
  refine ⟨n, hle, hrun, ?_⟩
  rcases Nat.eq_zero_or_pos n with rfl | hpos
  · right
    rcases hserved with hitems | hmissing
    · rw [range'_zero, map_eq_nil_iff] at hrun
      exact absurd hrun hitems
    rcases hend with ⟨hnone, -⟩ | ⟨hone, -⟩
    · exact absurd hnone hmissing
    · rw [hone, add_zero]
      exact mem_singleton_self _
  · exact .inl hpos

theorem listed_missing {q : Queue (Lane × ℕ)} (hq : q ∈ queues) {seq : ℕ} (h : seq ∈ missingOf q.key l) :
    readDelivery s app q.key seq = .ok none ∧ q.next ≤ seq ∧ seq < q.committed := by
  obtain ⟨q', -, hprogress⟩ := hlisted.of_start hq
  obtain ⟨n, -, hle, hend⟩ := hprogress.run
  rcases hend with ⟨hnone, -⟩ | ⟨hone, -, hlt, hread⟩
  · rw [hnone] at h
    exact absurd h not_mem_nil
  rw [hone, mem_singleton] at h
  subst h
  exact ⟨hread, Nat.le_add_right _ _, hlt⟩

variable (hpending : ∀ {lane block taken committed}, Pending s t app shard lane block taken committed ↔
  (⟨(lane, block), taken, committed⟩ : Queue (Lane × ℕ)) ∈ queues)
include hpending

/-- A queue is left unfinished exactly when one of its items is left out before any missing record. -/
theorem unfinished_iff : (∃ q ∈ final, q.next < q.committed) ↔
    ∃ lane block taken committed seq, Pending s t app shard lane block taken committed ∧ taken ≤ seq ∧
      seq < committed ∧ seq ∉ (itemsOf (lane, block) l).map Prod.fst ∧ ∀ k ≤ seq, k ∉ missingOf (lane, block) l := by
  constructor
  · rintro ⟨q, hq, hopen⟩
    obtain ⟨⟨⟨lane, block⟩, taken, committed⟩, hq', hprogress⟩ := hlisted.of_end hq
    obtain ⟨seq, hrest⟩ := hprogress.unfinished_iff.1 hopen
    exact ⟨lane, block, taken, committed, seq, hpending.2 hq', hrest⟩
  · rintro ⟨lane, block, taken, committed, seq, h, hrest⟩
    obtain ⟨q, hq, hprogress⟩ := hlisted.of_start (hpending.1 h)
    exact ⟨q, hq, hprogress.unfinished_iff.2 ⟨seq, hrest⟩⟩

/-- What the turns list is fair. -/
theorem fair_of_listed (hkeys : (queues.map (·.key)).Nodup) (hserved : ∀ q ∈ queues, Turns.Served q.key l)
    (hidle : l.items.length < cap → ∀ q ∈ final, q.committed ≤ q.next) : Fair s t app shard cap {
      items := l.items.map pendingDelivery
      blocks := blocks
      pending := remaining queues
      blocksPending := queues.length
      capped := final.any fun q => q.next < q.committed
      missingRecords := l.missing.map fun e => (e.1.1, e.1.2, e.2) } where
  run lane block taken committed h := by
    obtain ⟨n, hle, hrun, hfirst⟩ := listed_run hlisted (hpending.1 h) (hserved _ (hpending.1 h))
    exact ⟨n, hle, (filter_pendingDelivery lane block l).trans hrun, hfirst.imp_right mem_missingRecords.2⟩
  only item hitem := by
    obtain ⟨⟨key, seq, record⟩, hin, rfl⟩ := mem_map.1 hitem
    have hin := mem_itemsOf.2 hin
    obtain ⟨q, hq, rfl⟩ := listed_queue hlisted (.inl (ne_nil_of_mem hin))
    obtain ⟨q', -, hprogress⟩ := hlisted.of_start hq
    exact ⟨⟨q.next, q.committed, hpending.2 hq⟩, hprogress.items _ hin⟩
  length_le := by
    rw [length_map]
    exact hlisted.length_le
  blocks_eq := by
    refine ⟨queues.map (·.key), hkeys, length_map _, fun lane block => ?_⟩
    rw [mem_map]
    constructor
    · rintro ⟨⟨key, taken, committed⟩, hq, rfl⟩
      exact ⟨taken, committed, hpending.2 hq⟩
    · rintro ⟨taken, committed, h⟩
      exact ⟨_, hpending.1 h, rfl⟩
  missing lane block seq h := by
    have h := mem_missingRecords.1 h
    obtain ⟨⟨key, taken, committed⟩, hq, rfl⟩ := listed_queue hlisted (.inr (ne_nil_of_mem h))
    obtain ⟨hread, hwithin⟩ := listed_missing hlisted hq h
    exact ⟨hread, taken, committed, hpending.2 hq, hwithin⟩
  capped_iff := by
    simp only [any_unfinished, unfinished_iff hlisted hpending, not_listed_iff, mem_missingRecords]
  capped_full h := by
    obtain ⟨q, hq, hopen⟩ := any_unfinished.1 h
    rw [length_map]
    exact Nat.le_of_not_lt fun hlt => absurd hopen (not_lt.2 (hidle hlt q hq))

end

theorem readBlocks_ok {blocks : List ℕ} (h : ∀ block ∈ blocks, (∃ found, orphan s app block = .ok found) ∧
    ∀ lane, (∃ committed, laneSequence lane s app block = .ok committed) ∧
      ∃ taken, takenCount lane t block = .ok taken) : ∃ queues, readBlocks s t app blocks = .ok queues := by
  induction blocks with
  | nil => exact ⟨[], rfl⟩
  | cons block blocks ih =>
    obtain ⟨⟨⟨found, hfound⟩, hlanes⟩, hrest⟩ := forall_mem_cons.1 h
    obtain ⟨rest, hrest⟩ := ih hrest
    have hlane : ∀ lane, ∃ queues, readLane s t app block lane = .ok queues := by
      intro lane
      obtain ⟨⟨committed, hcommitted⟩, taken, htaken⟩ := hlanes lane
      rw [readLane, hcommitted, ok_bind, htaken]
      exact ⟨_, rfl⟩
    obtain ⟨coins, hcoins⟩ := hlane .coin
    obtain ⟨escrows, hescrows⟩ := hlane .escrow
    have hblock : ∃ queues, readBlock s t app block = .ok queues := by
      rw [readBlock, hfound, ok_bind, hcoins, hescrows]
      split
      · exact ⟨[], rfl⟩
      · exact ⟨coins ++ escrows, rfl⟩
    obtain ⟨queues, hqueues⟩ := hblock
    rw [readBlocks, hqueues, hrest]
    exact ⟨queues ++ rest, rfl⟩

theorem pending_iff {shard : List Bool} {width : ℕ} (hwidth : placementWidth s app = .ok width)
    (hmem : ∀ q, q ∈ queues ↔ q.key.2 ∈ ownedBlocks shard width ∧ IsQueue s t app q.key.2 q)
    {taken committed : ℕ} : Pending s t app shard lane block taken committed ↔
      (⟨(lane, block), taken, committed⟩ : Queue (Lane × ℕ)) ∈ queues := by
  rw [hmem]
  constructor
  · rintro ⟨⟨width', hwidth', hin⟩, hkept, hcommitted, htaken, hlt⟩
    cases hwidth.symm.trans hwidth'
    exact ⟨hin, rfl, hkept, hcommitted, htaken, hlt⟩
  · rintro ⟨hin, -, hkept, hcommitted, htaken, hlt⟩
    exact ⟨⟨width, hwidth, hin⟩, hkept, hcommitted, htaken, hlt⟩

end

/-- FAIR: whatever the application, the blocks, the counts and the cap, a census is a fair, bounded, contiguous
    listing; and there is one whenever its records can be read. -/
theorem pending_census_fair (s : Records Node) (t : LocalState Node Commitment) (app : Bytes32) (shard : List Bool)
    (cap : ℕ) :
    (∀ census, pendingCensus s t app shard cap = .ok census → Fair s t app shard cap census) ∧
    (Readable s t app shard → ∃ census, pendingCensus s t app shard cap = .ok census) := by
  refine ⟨fun census h => ?_, fun h => ?_⟩
  · obtain ⟨width, hwidth, h⟩ := bind_ok h
    obtain ⟨queues, hqueues, h⟩ := bind_ok h
    obtain ⟨⟨final, l⟩, hturns, h⟩ := bind_ok h
    cases h
    obtain ⟨hmem, hkeys⟩ := mem_readBlocks (ownedBlocks_nodup shard width) hqueues
    obtain ⟨hlisted, hserved, hidle⟩ := Turns.listInTurns_spec hkeys (fun q hq => ((hmem q).1 hq).2.2.2.2.2) hturns
    exact fair_of_listed hlisted (pending_iff hwidth hmem) hkeys hserved hidle
  obtain ⟨width, hwidth, hblocks⟩ := h.blocks
  obtain ⟨queues, hqueues⟩ := readBlocks_ok hblocks
  obtain ⟨hmem, -⟩ := mem_readBlocks (ownedBlocks_nodup shard width) hqueues
  have hreads : ∀ q ∈ queues, ∀ n, q.next ≤ n → n < q.committed → ∃ found, readDelivery s app q.key n =
      .ok found := fun q hq => h.records _ _ _ _ ((pending_iff hwidth hmem).2 hq)
  obtain ⟨final, l, hturns⟩ := Turns.listInTurns_ok cap hreads
  rw [pendingCensus, hwidth, ok_bind]
  dsimp only
  rw [hqueues, ok_bind, hturns]
  exact ⟨_, rfl⟩

/-- Three coins committed to one block and an escrow to the next. -/
def backlog : Records Unit :=
  [(Lane.coin, 64, 0), (.coin, 64, 1), (.coin, 64, 2), (.escrow, 65, 0)].foldl
    (fun s (lane, block, seq) => (s.write (.delivery lane 0 block seq)
      (.delivery lane ⟨BitVec.ofNat 256 seq, 5, 0, .fromBits []⟩)).write (.sequence lane 0 block) (.sequence lane (seq + 1)))
    Store.empty

def emptyShard : LocalState Unit Unit := { ShardState.empty with context := 0 }

/-- The records can be read, and a cap of three leaves the third coin out. -/
theorem backlog_fair : Readable backlog emptyShard 0 (replicate 5 false) ∧
    ∃ census, pendingCensus backlog emptyShard 0 (replicate 5 false) 3 = .ok census ∧
      Fair backlog emptyShard 0 (replicate 5 false) 3 census ∧ census.capped = true ∧
      census.items.map (fun item => (item.lane, item.block, item.seq)) =
        [(.coin, 64, 0), (.escrow, 65, 0), (.coin, 64, 1)] := by
  have hreadable : Readable backlog emptyShard 0 (replicate 5 false) := by
    have howned : ownedBlocks (replicate 5 false) 6 = [64, 65] := by decide +kernel
    refine ⟨⟨6, rfl, fun block hblock => ⟨⟨none, rfl⟩, fun lane => ⟨?_, 0, by cases lane <;> rfl⟩⟩⟩, ?_⟩
    · rw [howned] at hblock
      fin_cases hblock <;> cases lane <;> exact ⟨_, rfl⟩
    · rintro lane block taken committed ⟨⟨width, hwidth, hblock⟩, -, hcommitted, -⟩ seq - hlt
      cases hwidth
      have hblock : block ∈ [64, 65] := howned ▸ hblock
      have hthree : committed ≤ 3 := by
        fin_cases hblock <;> cases lane <;> cases hcommitted <;> decide
      have hseq : seq < 3 := by omega
      fin_cases hblock <;> cases lane <;> interval_cases seq <;> exact ⟨_, rfl⟩
  obtain ⟨census, hcensus⟩ := (pending_census_fair backlog emptyShard 0 (replicate 5 false) 3).2 hreadable
  refine ⟨hreadable, census, hcensus, (pending_census_fair _ _ _ _ _).1 census hcensus, ?_⟩
  have heval : (pendingCensus backlog emptyShard 0 (replicate 5 false) 3).map (fun census =>
      (census.capped, census.items.map fun item => (item.lane, item.block, item.seq))) =
      .ok (true, [(.coin, 64, 0), (.escrow, 65, 0), (.coin, 64, 1)]) := by
    decide +kernel
  rw [hcensus] at heval
  exact Prod.mk.inj (Except.ok.inj heval)

/-- A block whose one committed item has no record in this GLOBAL view: the item is left out, and the census does
    not call itself capped. -/
theorem missing_record_not_capped :
    let s : Records Unit := Store.empty.write (.sequence .coin 0 64) (.sequence .coin 1)
    pendingCensus s emptyShard 0 (replicate 6 false) 10 = .ok {
      items := [], blocks := 1, pending := 1, blocksPending := 1, capped := false,
      missingRecords := [(.coin, 64, 0)] } := by
  decide +kernel

end Quil.Census
