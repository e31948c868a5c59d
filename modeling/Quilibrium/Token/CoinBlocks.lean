import Quilibrium.Types

/-! Which block of the coin accumulator a coin belongs to (`token_intrinsic/coin_blocks.rs`). A block id is `(1 <<
    width) | path`: the leading one is a SENTINEL that makes the width readable from the id, so a block keeps its path
    — and its owner — however wide the tree becomes. The owner of a block is the shard whose bit path begins the
    block's path. -/

namespace Quil.CoinBlocks
open Schemes List Nat

/-- Widest the block field may grow. -/
def MAX_BLOCK_BITS : ℕ := 15
/-- Levels below a block: a block holds `2 ^ 16` coins. -/
def SUBTREE_BITS : ℕ := 16
/-- Block levels an application starts with. -/
def INITIAL_BLOCK_BITS : ℕ := 6
/-- Index bits reserved for a sentinel-encoded block id. -/
def BLOCK_INDEX_BITS : ℕ := MAX_BLOCK_BITS + 1
/-- Total accumulator depth: block index above, coin levels below. -/
def DEPTH : ℕ := BLOCK_INDEX_BITS + SUBTREE_BITS

def invalid (message : String) : QuilError := .invalidArgument ("coin block: " ++ message)

/-- The id of the block at `path_value`: a sentinel bit above the path. -/
def blockId (width pathValue : ℕ) : Except QuilError ℕ :=
  if width < INITIAL_BLOCK_BITS ∨ width > MAX_BLOCK_BITS ∨ pathValue ≥ 2 ^ width then
    .error (invalid "block path does not fit its width")
  else .ok (2 ^ width ||| pathValue)

/-- The width a block was created at, read from its sentinel bit; the id 0 reads as width 0. -/
def creationWidth (block : ℕ) : ℕ := block.log2

/-- The block's bit path: its id below the sentinel, most significant bit first. -/
def blockPath (block : ℕ) : List Bool :=
  let width := creationWidth block
  let path := block % 2 ^ width
  (List.range width).map fun bit => path.testBit (width - 1 - bit)

/-- The block a coin belongs to at `width`: the top `width` bits of its address. -/
def blockForAddress (width : ℕ) (address : Bytes32) : Except QuilError ℕ :=
  blockId width
    ((List.range width).foldl (fun path bit => 2 * path + (address.getMsbD bit).toNat) 0)

/-- Whether the shard at `shard` owns `block`: the block's path begins with the shard's bits. -/
def shardOwnsBlock (shard : List Bool) (block : ℕ) : Bool :=
  let path := blockPath block
  shard.length ≤ path.length && (shard.zip path).all fun ab => ab.1 == ab.2

/-- Every block id a shard owns at widths `INITIAL_BLOCK_BITS ..= max_width`, narrowest first. -/
def ownedBlocks (shard : List Bool) (maxWidth : ℕ) : List ℕ :=
  let prefixValue := shard.foldl (fun acc bit => 2 * acc + bit.toNat) 0
  ((List.range (min maxWidth MAX_BLOCK_BITS + 1)).filter fun width =>
      INITIAL_BLOCK_BITS ≤ width ∧ shard.length ≤ width).flatMap fun width =>
    let free := width - shard.length
    (List.range (2 ^ free)).map fun rest => 2 ^ width ||| prefixValue * 2 ^ free ||| rest

/-- Whether `block` is a well-formed id no wider than `block_bits`. -/
def isAllocatedWidth (blockBits block : ℕ) : Bool :=
  let width := creationWidth block
  block > 0 && width ≥ INITIAL_BLOCK_BITS && width ≤ blockBits

/-- The position of the `local`-th coin of `block`. -/
def position (blockBits block index : ℕ) : Except QuilError ℕ :=
  if ¬ isAllocatedWidth blockBits block then
    .error (invalid "block beyond the accumulator's current width")
  else if index ≥ 2 ^ SUBTREE_BITS then
    .error (invalid "block is full: grant the shard another block")
  else .ok (block * 2 ^ SUBTREE_BITS + index)

/-! ### Ids are (width, path) pairs -/

variable {w v : ℕ}

theorem two_pow_or (hv : v < 2 ^ w) : 2 ^ w ||| v = 2 ^ w + v := by
  have h := two_pow_add_eq_or_of_lt hv 1
  simpa using h.symm

theorem creationWidth_add (hv : v < 2 ^ w) : creationWidth (2 ^ w + v) = w := by
  have hne : 2 ^ w + v ≠ 0 := by have := Nat.two_pow_pos w; omega
  rw [creationWidth, Nat.log2_eq_iff hne, pow_succ]
  omega

theorem length_blockPath (block : ℕ) : (blockPath block).length = creationWidth block := by
  simp [blockPath]

theorem blockPath_eq (block : ℕ) :
    blockPath block = pathOf (creationWidth block) (block % 2 ^ creationWidth block) := rfl

theorem blockPath_add (hv : v < 2 ^ w) : blockPath (2 ^ w + v) = pathOf w v := by
  rw [blockPath_eq, creationWidth_add hv, add_mod_left, mod_eq_of_lt hv]

variable {block : ℕ}

/-- A nonzero id is its sentinel plus the number of its path. -/
theorem block_eq_value (h : block ≠ 0) : block = 2 ^ creationWidth block + value (blockPath block) := by
  have hlow : 2 ^ creationWidth block ≤ block := Nat.log2_self_le h
  have hhigh : block < 2 ^ (creationWidth block + 1) := Nat.lt_log2_self
  rw [pow_succ] at hhigh
  have hsub : block - 2 ^ creationWidth block < 2 ^ creationWidth block := by omega
  rw [blockPath_eq, value_pathOf _ _ (Nat.mod_lt _ (Nat.two_pow_pos _)), Nat.mod_eq_sub_mod hlow,
    Nat.mod_eq_of_lt hsub]
  omega

variable {width : ℕ}

theorem blockId_eq_ok {pathValue : ℕ} : blockId width pathValue = .ok block ↔
      INITIAL_BLOCK_BITS ≤ width ∧ width ≤ MAX_BLOCK_BITS ∧ pathValue < 2 ^ width ∧
        block = 2 ^ width + pathValue := by
  rw [blockId]
  split_ifs with h
  · simp only [false_iff]; omega
  simp only [not_or, not_lt, not_le] at h
  rw [two_pow_or (by omega)]
  constructor
  · rintro ⟨⟩; omega
  · rintro ⟨-, -, -, rfl⟩; rfl

/-! ### Ownership is being a prefix -/

theorem shardOwnsBlock_iff (shard : List Bool) (block : ℕ) :
    shardOwnsBlock shard block = true ↔ shard <+: blockPath block := by
  suffices h : ∀ p q : List Bool,
      (decide (p.length ≤ q.length) && (p.zip q).all fun ab => ab.1 == ab.2) = true ↔ p <+: q by
    exact h _ _
  intro p
  induction p with
  | nil => simp
  | cons a p ih =>
    rintro (_ | ⟨b, q⟩)
    · simp
    have := ih q
    simp only [Bool.and_eq_true, decide_eq_true_eq] at this
    simp only [length_cons, zip_cons_cons, all_cons, Bool.and_eq_true,
      decide_eq_true_eq, beq_iff_eq, cons_prefix_cons, ← this]
    constructor
    · rintro ⟨hl, hab, hall⟩; exact ⟨hab, by omega, hall⟩
    · rintro ⟨hab, hl, hall⟩; exact ⟨by omega, hab, hall⟩

theorem foldl_getMsbD (a : Bytes32) (width : ℕ) :
    (range width).foldl (fun path bit => 2 * path + (a.getMsbD bit).toNat) 0 = value (leadingBits a width) := by
  rw [value, leadingBits, foldl_map]

/-- At an allocatable width an address has a block, and its path is the address's leading bits. -/
theorem blockForAddress_ok (a : Bytes32) (hlo : INITIAL_BLOCK_BITS ≤ width) (hhi : width ≤ MAX_BLOCK_BITS) :
    blockForAddress width a = .ok (2 ^ width + value (leadingBits a width)) := by
  have hlt := value_lt (leadingBits a width)
  rw [length_leadingBits] at hlt
  rw [blockForAddress, foldl_getMsbD, blockId_eq_ok]
  exact ⟨hlo, hhi, hlt, rfl⟩

theorem blockForAddress_spec {a : Bytes32} (h : blockForAddress width a = .ok block) :
    INITIAL_BLOCK_BITS ≤ width ∧ width ≤ MAX_BLOCK_BITS ∧ creationWidth block = width ∧
      blockPath block = leadingBits a width := by
  have hlt := value_lt (leadingBits a width)
  rw [length_leadingBits] at hlt
  rw [blockForAddress, foldl_getMsbD, blockId_eq_ok] at h
  obtain ⟨hlo, hhi, -, rfl⟩ := h
  refine ⟨hlo, hhi, creationWidth_add hlt, ?_⟩
  rw [blockPath_add hlt, pathOf_value _ (length_leadingBits a width)]

/-! ### A shard's blocks, listed -/

/-- The `rest`-th id of width `width` below a shard's path. -/
def ownedBlock (shard : List Bool) (width rest : ℕ) : ℕ :=
  2 ^ width + (value shard * 2 ^ (width - shard.length) + rest)

variable {rest : ℕ}

section
variable (shard : List Bool)

section
variable (hw : shard.length ≤ width)
include hw

section
variable (hr : rest < 2 ^ (width - shard.length))
include hr

theorem owned_lt : value shard * 2 ^ (width - shard.length) + rest < 2 ^ width := by
  have hv := value_lt shard
  calc value shard * 2 ^ (width - shard.length) + rest
      < (value shard + 1) * 2 ^ (width - shard.length) := by rw [add_mul]; omega
    _ ≤ 2 ^ shard.length * 2 ^ (width - shard.length) := mul_le_mul_right _ hv
    _ = 2 ^ width := by rw [← pow_add]; congr 1; omega

theorem ownedBlock_eq_or :
    2 ^ width ||| value shard * 2 ^ (width - shard.length) ||| rest = ownedBlock shard width rest := by
  have hlt := owned_lt shard hw hr
  have hor : value shard * 2 ^ (width - shard.length) ||| rest = value shard * 2 ^ (width - shard.length) + rest := by
    rw [mul_comm]; exact (two_pow_add_eq_or_of_lt hr (value shard)).symm
  rw [lor_assoc, hor, two_pow_or hlt, ownedBlock]

theorem creationWidth_ownedBlock : creationWidth (ownedBlock shard width rest) = width :=
  creationWidth_add (owned_lt shard hw hr)

theorem blockPath_ownedBlock :
    blockPath (ownedBlock shard width rest) = shard ++ pathOf (width - shard.length) rest := by
  rw [ownedBlock, blockPath_add (owned_lt shard hw hr), ← pathOf_mul_add shard _ _ hr]
  congr 1; omega

end

/-- The ids of one width a shard owns are its path followed by any remaining bits. -/
theorem exists_ownedBlock_iff : (∃ rest < 2 ^ (width - shard.length), ownedBlock shard width rest = block) ↔
      block ≠ 0 ∧ creationWidth block = width ∧ shard <+: blockPath block := by
  constructor
  · rintro ⟨rest, hr, rfl⟩
    refine ⟨?_, creationWidth_ownedBlock shard hw hr, ?_⟩
    · have := Nat.two_pow_pos width; rw [ownedBlock]; omega
    · rw [blockPath_ownedBlock shard hw hr]; exact prefix_append _ _
  · rintro ⟨hne, rfl, t, ht⟩
    have hlen : t.length = creationWidth block - shard.length := by
      have := congrArg length ht
      rw [length_append, length_blockPath] at this; omega
    refine ⟨value t, hlen ▸ value_lt t, ?_⟩
    rw [ownedBlock, ← hlen, ← value_append, ht]
    exact (block_eq_value hne).symm

end

end

/-- The widths at which a shard owns whole blocks. -/
def ownedWidths (shard : List Bool) (maxWidth : ℕ) : List ℕ :=
  (List.range (min maxWidth MAX_BLOCK_BITS + 1)).filter fun width => INITIAL_BLOCK_BITS ≤ width ∧ shard.length ≤ width

theorem mem_ownedWidths {shard : List Bool} {maxWidth : ℕ} : width ∈ ownedWidths shard maxWidth ↔
      width ≤ min maxWidth MAX_BLOCK_BITS ∧ INITIAL_BLOCK_BITS ≤ width ∧ shard.length ≤ width := by
  simp [ownedWidths]

theorem ownedBlocks_eq (shard : List Bool) (maxWidth : ℕ) :
    ownedBlocks shard maxWidth = (ownedWidths shard maxWidth).flatMap fun width =>
      (range (2 ^ (width - shard.length))).map (ownedBlock shard width) := by
  refine flatMap_congr fun width hwidth => map_congr_left fun rest hr => ?_
  exact ownedBlock_eq_or shard (mem_ownedWidths.1 hwidth).2.2 (mem_range.mp hr)

theorem mem_ownedBlocks (shard : List Bool) (maxWidth block : ℕ) : block ∈ ownedBlocks shard maxWidth ↔
      isAllocatedWidth (min maxWidth MAX_BLOCK_BITS) block = true ∧ shardOwnsBlock shard block = true := by
  rw [shardOwnsBlock_iff, ownedBlocks_eq]
  simp only [isAllocatedWidth, mem_flatMap, mem_ownedWidths, mem_range, mem_map, decide_eq_true_eq, Bool.and_eq_true]
  constructor
  · rintro ⟨width, ⟨hmax, hmin, hw⟩, hrest⟩
    obtain ⟨hne, rfl, hown⟩ := (exists_ownedBlock_iff shard hw).1 hrest
    exact ⟨⟨⟨pos_of_ne_zero hne, hmin⟩, hmax⟩, hown⟩
  · rintro ⟨⟨⟨hpos, hmin⟩, hmax⟩, hown⟩
    have hw : shard.length ≤ creationWidth block := length_blockPath block ▸ hown.length_le
    exact ⟨creationWidth block, ⟨hmax, hmin, hw⟩,
      (exists_ownedBlock_iff shard hw).2 ⟨pos_iff_ne_zero.mp hpos, rfl, hown⟩⟩

theorem ownedBlocks_nodup (shard : List Bool) (maxWidth : ℕ) : (ownedBlocks shard maxWidth).Nodup := by
  rw [ownedBlocks_eq, nodup_flatMap]
  refine ⟨fun width hwidth => ?_, ?_⟩
  · -- within one width the ids differ in their low bits
    refine nodup_range.map_on fun r hr r' hr' he => ?_
    rw [ownedBlock, ownedBlock] at he; omega
  -- across widths the sentinel tells them apart
  refine (nodup_range.filter _).imp_of_mem fun {w w'} hw hw' hne block hb hb' => hne ?_
  obtain ⟨r, hr, rfl⟩ := mem_map.mp hb
  obtain ⟨r', hr', he⟩ := mem_map.mp hb'
  rw [← creationWidth_ownedBlock shard (mem_ownedWidths.1 hw).2.2 (mem_range.mp hr), ← he,
    creationWidth_ownedBlock shard (mem_ownedWidths.1 hw').2.2 (mem_range.mp hr')]

end Quil.CoinBlocks
