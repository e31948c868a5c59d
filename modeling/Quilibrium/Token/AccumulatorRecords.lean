import Quilibrium.Token.CoinBlocks

/-! Where the coin accumulator keeps its own records inside an application (`token_intrinsic/state.rs` and the node
    addresses of `summary_tree.rs`). Three families share the address space with coins: per-block records, laid out
    INSIDE the block's own prefix so that the block's owner is the only shard that stores them; stored tree nodes,
    below an all-ones prefix; and a handful of fixed application-wide addresses. -/

namespace Quil.AccumulatorRecords
open Schemes CoinBlocks

/-! ### Byte slices of an address -/

/-- `address[from .. from + len]`, big-endian. -/
def slice (address : Bytes32) (start len : ℕ) : BitVec (8 * len) :=
  address.extractLsb' (8 * (32 - start - len)) (8 * len)

theorem append_inj {m n : ℕ} {x x' : BitVec m} {y y' : BitVec n} (h : x ++ y = x' ++ y') : x = x' ∧ y = y' := by
  have hx := congrArg (BitVec.extractLsb' n m) h
  have hy := congrArg (BitVec.extractLsb' 0 n) h
  rw [BitVec.extractLsb'_append_eq_left, BitVec.extractLsb'_append_eq_left] at hx
  rw [BitVec.extractLsb'_append_eq_right, BitVec.extractLsb'_append_eq_right] at hy
  exact ⟨hx, hy⟩

/-! ### The three families -/

def BLOCK_FRONTIER_TAG : BitVec 8 := 0xf0
def BLOCK_ROOT_TAG : BitVec 8 := 0xf1
def BLOCK_OWNER_TAG : BitVec 8 := 0xf2
def BLOCK_ESCROW_COUNT_TAG : BitVec 8 := 0xf3
def NODE_TAG : BitVec 8 := 0xf4

/-- Levels above the leaves of the stored tree: the block index field. -/
def LEVELS : ℕ := BLOCK_INDEX_BITS

/-- `[0xff; 32]` with its last byte replaced. -/
def reservedAddress (last : BitVec 8) : Bytes32 := BitVec.allOnes 248 ++ last

def ROOT_ADDRESS : Bytes32 := reservedAddress 0xfc
def FRONTIER_ADDRESS : Bytes32 := reservedAddress 0xfb
def SHAPE_ADDRESS : Bytes32 := reservedAddress 0xfa
def BLOCK_SUMMARY_ADDRESS : Bytes32 := reservedAddress 0xf9
def LEGACY_ACCUMULATOR_ROOT_ADDRESS : Bytes32 := reservedAddress 0xfe
def MIGRATION_RECEIPT_ADDRESS : Bytes32 := reservedAddress 0xfd

/-- The block's bit path left-aligned in two bytes. -/
def blockPathPrefix (block : ℕ) : BitVec 16 := packBits 16 ((blockPath block).take 16)

/-- Address of one per-block record: path, 0xff fill, tag, block id. -/
def blockRecordAddress (tag : BitVec 8) (block : ℕ) : Bytes32 :=
  blockPathPrefix block ++ BitVec.allOnes 168 ++ tag ++ BitVec.ofNat 64 block

/-- Address of one stored tree node: 0xff fill, tag, level, 0xff fill, index. -/
def nodeAddress (level index : ℕ) : Bytes32 :=
  BitVec.allOnes 184 ++ NODE_TAG ++ BitVec.ofNat 8 level ++ BitVec.allOnes 40 ++
    BitVec.ofNat 16 index

/-- Whether `address` is one of the tree's records, exactly where `nodeAddress` puts them. -/
def isNodeAddress (address : Bytes32) : Bool :=
  let level := (slice address 24 1).toNat
  let index := (slice address 30 2).toNat
  slice address 0 23 == BitVec.allOnes (8 * 23) && slice address 23 1 == NODE_TAG &&
    level ≤ LEVELS && slice address 25 5 == BitVec.allOnes (8 * 5) && index < 2 ^ (LEVELS - level)

/-- Whether an address is one of the accumulator's own records rather than a coin. -/
def isAccumulatorRecord (address : Bytes32) : Bool :=
  if address == ROOT_ADDRESS || address == FRONTIER_ADDRESS || address == SHAPE_ADDRESS ||
      address == BLOCK_SUMMARY_ADDRESS || address == LEGACY_ACCUMULATOR_ROOT_ADDRESS ||
      address == MIGRATION_RECEIPT_ADDRESS || isNodeAddress address then true
  else if slice address 2 21 != BitVec.allOnes (8 * 21) ||
      !(slice address 23 1 == BLOCK_FRONTIER_TAG || slice address 23 1 == BLOCK_ROOT_TAG ||
        slice address 23 1 == BLOCK_OWNER_TAG || slice address 23 1 == BLOCK_ESCROW_COUNT_TAG) then
    false
  else
    -- the id must be a real block and the leading bits must be its path
    let block := (slice address 24 8).toNat
    let width := creationWidth block
    INITIAL_BLOCK_BITS ≤ width && width ≤ MAX_BLOCK_BITS && slice address 0 2 == blockPathPrefix block

/-! ### Each family is recognised exactly where it is put -/

theorem eq_of_blockSlices (a : Bytes32) : a = slice a 0 2 ++ slice a 2 21 ++ slice a 23 1 ++ slice a 24 8 := by
  simp only [slice]
  iterate 3 rw [BitVec.extractLsb'_append_extractLsb'_eq_extractLsb' (by norm_num)]
  exact BitVec.extractLsb'_eq_self.symm

theorem eq_of_nodeSlices (a : Bytes32) :
    a = slice a 0 23 ++ slice a 23 1 ++ slice a 24 1 ++ slice a 25 5 ++ slice a 30 2 := by
  simp only [slice]
  iterate 4 rw [BitVec.extractLsb'_append_extractLsb'_eq_extractLsb' (by norm_num)]
  exact BitVec.extractLsb'_eq_self.symm

/-- An address is a block record exactly when its slices are the record's parts. -/
theorem eq_blockRecordAddress_iff (a : Bytes32) (tag : BitVec 8) (block : ℕ) : a = blockRecordAddress tag block ↔
      slice a 0 2 = blockPathPrefix block ∧ slice a 2 21 = .allOnes 168 ∧
        slice a 23 1 = tag ∧ slice a 24 8 = .ofNat 64 block := by
  constructor
  · intro h
    rw [eq_of_blockSlices a, blockRecordAddress] at h
    obtain ⟨h, hid⟩ := append_inj h
    obtain ⟨h, htag⟩ := append_inj h
    obtain ⟨hpath, hfill⟩ := append_inj h
    exact ⟨hpath, hfill, htag, hid⟩
  · rintro ⟨hpath, hfill, htag, hid⟩
    rw [eq_of_blockSlices a, hpath, hfill, htag, hid]; rfl

theorem eq_nodeAddress_iff (a : Bytes32) (level index : ℕ) : a = nodeAddress level index ↔
      slice a 0 23 = .allOnes 184 ∧ slice a 23 1 = NODE_TAG ∧
        slice a 24 1 = .ofNat 8 level ∧ slice a 25 5 = .allOnes 40 ∧
          slice a 30 2 = .ofNat 16 index := by
  constructor
  · intro h
    rw [eq_of_nodeSlices a, nodeAddress] at h
    obtain ⟨h, hindex⟩ := append_inj h
    obtain ⟨h, hfill⟩ := append_inj h
    obtain ⟨h, hlevel⟩ := append_inj h
    obtain ⟨hlead, htag⟩ := append_inj h
    exact ⟨hlead, htag, hlevel, hfill, hindex⟩
  · rintro ⟨hlead, htag, hlevel, hfill, hindex⟩
    rw [eq_of_nodeSlices a, hlead, htag, hlevel, hfill, hindex]; rfl

/-- The tags of the four per-block records. -/
def blockTags : List (BitVec 8) :=
  [BLOCK_FRONTIER_TAG, BLOCK_ROOT_TAG, BLOCK_OWNER_TAG, BLOCK_ESCROW_COUNT_TAG]

/-- The fixed application-wide addresses. -/
def fixedAddresses : List Bytes32 :=
  [ROOT_ADDRESS, FRONTIER_ADDRESS, SHAPE_ADDRESS, BLOCK_SUMMARY_ADDRESS,
    LEGACY_ACCUMULATOR_ROOT_ADDRESS, MIGRATION_RECEIPT_ADDRESS]

theorem isNodeAddress_iff (a : Bytes32) : isNodeAddress a = true ↔
      ∃ level ≤ LEVELS, ∃ index < 2 ^ (LEVELS - level), a = nodeAddress level index := by
  simp only [isNodeAddress, Bool.and_eq_true, beq_iff_eq, decide_eq_true_eq, eq_nodeAddress_iff]
  constructor
  · rintro ⟨⟨⟨⟨hlead, htag⟩, hlevel⟩, hfill⟩, hindex⟩
    exact ⟨_, hlevel, _, hindex, hlead, htag, by simp, hfill, by simp⟩
  · rintro ⟨level, hlevel, index, hindex, hlead, htag, hl, hfill, hi⟩
    have hl' : (slice a 24 1).toNat = level := by
      rw [hl, BitVec.toNat_ofNat]
      exact Nat.mod_eq_of_lt (lt_of_le_of_lt hlevel (by decide))
    have hpow : 2 ^ (LEVELS - level) ≤ 2 ^ 16 :=
      Nat.pow_le_pow_right (by norm_num) (Nat.sub_le_of_le_add (by simp [LEVELS, BLOCK_INDEX_BITS, MAX_BLOCK_BITS]))
    have hi' : (slice a 30 2).toNat = index := by
      rw [hi, BitVec.toNat_ofNat]
      exact Nat.mod_eq_of_lt (by simpa using lt_of_lt_of_le hindex hpow)
    rw [hl', hi']
    exact ⟨⟨⟨⟨hlead, htag⟩, hlevel⟩, hfill⟩, hindex⟩

/-- The blocks that exist have ids below `2 ^ 16`. -/
theorem lt_of_allocated {b : ℕ} (h : isAllocatedWidth MAX_BLOCK_BITS b = true) : b < 2 ^ 16 := by
  simp only [isAllocatedWidth, Bool.and_eq_true, decide_eq_true_eq] at h
  have hlt : b < 2 ^ (creationWidth b + 1) := Nat.lt_log2_self
  have hpow : 2 ^ (creationWidth b + 1) ≤ 2 ^ 16 :=
    Nat.pow_le_pow_right (by norm_num) (by have := h.2; rw [MAX_BLOCK_BITS] at this; omega)
  omega

/-- An allocatable id fits the eight bytes of its record address. -/
theorem lt_of_isAllocatedWidth {block : ℕ} (h : isAllocatedWidth MAX_BLOCK_BITS block = true) : block < 2 ^ 64 :=
  (lt_of_allocated h).trans (by norm_num)

theorem isAccumulatorRecord_iff (a : Bytes32) :
    isAccumulatorRecord a = true ↔
      a ∈ fixedAddresses ∨
      (∃ level ≤ LEVELS, ∃ index < 2 ^ (LEVELS - level), a = nodeAddress level index) ∨
      ∃ tag ∈ blockTags, ∃ block, isAllocatedWidth MAX_BLOCK_BITS block = true ∧
        a = blockRecordAddress tag block := by
  have hblock : (∃ tag ∈ blockTags, ∃ block, isAllocatedWidth MAX_BLOCK_BITS block = true ∧
      a = blockRecordAddress tag block) ↔
      slice a 2 21 = .allOnes 168 ∧ slice a 23 1 ∈ blockTags ∧
        isAllocatedWidth MAX_BLOCK_BITS (slice a 24 8).toNat = true ∧
        slice a 0 2 = blockPathPrefix (slice a 24 8).toNat := by
    simp only [eq_blockRecordAddress_iff]
    constructor
    · rintro ⟨tag, htag, block, halloc, hpath, hfill, rfl, hid⟩
      have hid' : (slice a 24 8).toNat = block := by
        rw [hid, BitVec.toNat_ofNat, Nat.mod_eq_of_lt (lt_of_isAllocatedWidth halloc)]
      rw [hid']
      exact ⟨hfill, htag, halloc, hpath⟩
    · rintro ⟨hfill, htag, halloc, hpath⟩
      exact ⟨_, htag, _, halloc, hpath, hfill, rfl, by simp⟩
  rw [hblock, ← isNodeAddress_iff, ← or_assoc, isAccumulatorRecord]
  -- a positive width already makes the id nonzero
  have hpos : ∀ n : ℕ, INITIAL_BLOCK_BITS ≤ creationWidth n → 0 < n := by
    rintro (_ | n) h
    · simp [creationWidth, INITIAL_BLOCK_BITS, Nat.log2_zero] at h
    · omega
  split_ifs with hfixed htag
  · simp only [true_iff]
    left
    simpa [fixedAddresses, or_assoc] using hfixed
  all_goals
    have hn : ¬ (a ∈ fixedAddresses ∨ isNodeAddress a = true) := by
      simpa [fixedAddresses, or_assoc, and_assoc] using hfixed
  · simp only [false_iff, not_or]
    refine ⟨not_or.mp hn, ?_⟩
    rintro ⟨hfill, hmem, -⟩
    simp only [blockTags, List.mem_cons, List.not_mem_nil, or_false] at hmem
    rcases hmem with h | h | h | h <;> simp [hfill, h] at htag
  have htag' : slice a 2 21 = .allOnes 168 ∧ slice a 23 1 ∈ blockTags := by
    simpa [blockTags, or_iff_not_imp_left] using htag
  simp only [hn, false_or, htag', true_and, Bool.and_eq_true, decide_eq_true_eq, beq_iff_eq, isAllocatedWidth]
  constructor
  · rintro ⟨⟨hlo, hhi⟩, hpath⟩; exact ⟨⟨⟨hpos _ hlo, hlo⟩, hhi⟩, hpath⟩
  · rintro ⟨⟨⟨-, hlo⟩, hhi⟩, hpath⟩; exact ⟨⟨hlo, hhi⟩, hpath⟩

/-! ### A block's records lie inside the block -/

/-- The leading bits of a block's record address are the block's path. -/
theorem leadingBits_blockRecordAddress (tag : BitVec 8) {block : ℕ} (h : creationWidth block ≤ MAX_BLOCK_BITS) :
    leadingBits (blockRecordAddress tag block) (creationWidth block) = blockPath block := by
  have hlen : (blockPath block).length ≤ 16 := by rw [length_blockPath]; exact h.trans (by decide)
  have hbits : blockPath block <+: leadingBits (blockRecordAddress tag block) (creationWidth block) := by
    refine (prefix_leadingBits _ _ _ (length_blockPath block).le).2 fun i hi => ?_
    have hi16 : i < 16 := lt_of_lt_of_le hi hlen
    rw [blockRecordAddress, BitVec.getMsbD_append, if_neg (by omega), BitVec.getMsbD_append,
      if_neg (by omega), BitVec.getMsbD_append, if_neg (by omega), blockPathPrefix,
      List.take_of_length_le hlen, getMsbD_packBits _ hlen i hi16]
  exact (hbits.eq_of_length (by rw [length_blockPath, length_leadingBits])).symm

/-! ### Ownership agrees with routing -/

/-- The shard that covers an address owns the address's block, alone, and holds its records. -/
theorem owner_of_address {shards : List (List Bool)} (hpart : Partition shards) {width : ℕ}
    (hlo : INITIAL_BLOCK_BITS ≤ width) (hhi : width ≤ MAX_BLOCK_BITS)
    (hdeep : ∀ s ∈ shards, s.length ≤ width) (a : Bytes32) :
    ∃ s ∈ shards, ∃ block, blockForAddress width a = .ok block ∧
      (∀ t ∈ shards, (ShardPath.fromBits t).covers a = true ↔ t = s) ∧
      (∀ t ∈ shards, shardOwnsBlock t block = true ↔ t = s) ∧ ∀ tag, ∀ t ∈ shards,
        (ShardPath.fromBits t).covers (blockRecordAddress tag block) = true ↔ t = s := by
  obtain ⟨s, hs, huniq⟩ := hpart.existsUnique (leadingBits a width)
    fun p hp => by rw [length_leadingBits]; exact hdeep p hp
  have hok := blockForAddress_ok a hlo hhi
  obtain ⟨-, -, hcw, hpath⟩ := blockForAddress_spec hok
  have hcovers : ∀ b : Bytes32, ∀ t ∈ shards,
      ((ShardPath.fromBits t).covers b = true ↔ t <+: leadingBits b width) := fun b t ht => by
    have ht' : t.length ≤ 15 := (hdeep t ht).trans hhi
    exact ShardPath.covers_fromBits t (by omega) b width (hdeep t ht) (by omega)
  refine ⟨s, hs, _, hok, fun t ht => ?_, fun t ht => ?_, fun tag t ht => ?_⟩
  · rw [hcovers a t ht, huniq t ht]
  · rw [shardOwnsBlock_iff, hpath, huniq t ht]
  have hrec := leadingBits_blockRecordAddress tag (hcw.le.trans hhi)
  rw [hcw, hpath] at hrec
  rw [hcovers _ t ht, hrec, huniq t ht]

/-- CORRECT. In a partition no deeper than the block width, exactly one shard covers an address, it
    alone owns the address's block and holds that block's records; `ownedBlocks` lists a shard's
    allocated blocks once each; and `isAccumulatorRecord` accepts the addresses produced for blocks
    and tree nodes, the fixed application-wide addresses, and nothing else. -/
theorem block_ownership_agrees_with_routing {shards : List (List Bool)}
    (hpart : Partition shards) :
    (∀ width, INITIAL_BLOCK_BITS ≤ width → width ≤ MAX_BLOCK_BITS →
      (∀ s ∈ shards, s.length ≤ width) → ∀ a : Bytes32,
      ∃ s ∈ shards, ∃ block, blockForAddress width a = .ok block ∧
        (∀ t ∈ shards, (ShardPath.fromBits t).covers a = true ↔ t = s) ∧
        (∀ t ∈ shards, shardOwnsBlock t block = true ↔ t = s) ∧
        ∀ tag, ∀ t ∈ shards,
          (ShardPath.fromBits t).covers (blockRecordAddress tag block) = true ↔ t = s) ∧
    (∀ (shard : List Bool) (maxWidth : ℕ), (ownedBlocks shard maxWidth).Nodup ∧
      ∀ block, block ∈ ownedBlocks shard maxWidth ↔
        isAllocatedWidth (min maxWidth MAX_BLOCK_BITS) block = true ∧
          shardOwnsBlock shard block = true) ∧
    ∀ a : Bytes32, isAccumulatorRecord a = true ↔
      a ∈ fixedAddresses ∨
      (∃ level ≤ LEVELS, ∃ index < 2 ^ (LEVELS - level), a = nodeAddress level index) ∨
      ∃ tag ∈ blockTags, ∃ block, isAllocatedWidth MAX_BLOCK_BITS block = true ∧
        a = blockRecordAddress tag block :=
  ⟨fun _ hlo hhi hdeep a => owner_of_address hpart hlo hhi hdeep a,
    fun shard maxWidth => ⟨ownedBlocks_nodup shard maxWidth, mem_ownedBlocks shard maxWidth⟩,
    isAccumulatorRecord_iff⟩

theorem partition_halves : Partition [[false], [true]] where
  prefixFree := by simp [Apart]
  complete := by
    rintro (_ | ⟨_ | _, q⟩) h
    · simp at h
    · exact ⟨[false], by simp, by simp⟩
    · exact ⟨[true], by simp, by simp⟩

/-- Two half-space shards at the starting width. -/
theorem block_ownership_of_halves :
    ∃ s ∈ [[false], [true]], ∃ block, blockForAddress INITIAL_BLOCK_BITS 0 = .ok block ∧
      ∀ t ∈ [[false], [true]], shardOwnsBlock t block = true ↔ t = s := by
  obtain ⟨s, hs, block, hok, -, hown, -⟩ := (block_ownership_agrees_with_routing
    partition_halves).1 INITIAL_BLOCK_BITS (by decide) (by decide) (by decide) 0
  exact ⟨s, hs, block, hok, hown⟩

/-- The application-wide root record is recognised although no block and no node is put there. -/
theorem root_address_is_neither_block_nor_node :
    isAccumulatorRecord ROOT_ADDRESS = true ∧
      (∀ level index, ROOT_ADDRESS ≠ nodeAddress level index) ∧
      ∀ tag ∈ blockTags, ∀ block, ROOT_ADDRESS ≠ blockRecordAddress tag block := by
  refine ⟨by decide, fun level index h => ?_, fun tag htag block h => ?_⟩
  · have htag := ((eq_nodeAddress_iff _ _ _).1 h).2.1
    exact absurd htag (by decide)
  have htag' := ((eq_blockRecordAddress_iff _ _ _).1 h).2.2.1
  rw [← htag'] at htag
  exact absurd htag (by decide)

end Quil.AccumulatorRecords
