import Quilibrium.Schemes.Regions
import Quilibrium.Token.AccumulatorRecords
import Quilibrium.Token.SummaryTree

/-! A shard's report of its part of the coin accumulator, and the application root folded from every shard's report
    (`token_intrinsic/shard_accumulator.rs`). In one width layer the blocks a shard owns are exactly ONE subtree of
    the accumulator, so the shard reports one node a layer. The report read from the stored tree is the one folded
    from the flat summary. -/

namespace Quil.ShardAccumulator
open Schemes ShardedTree SummaryTree AccumulatorRecords List
open CoinBlocks hiding invalid

/-- What the shard stores at an address of the application. -/
inductive Vertex where
  | coin (position : ℕ)
  | escrow
  | escrowCount (count : ℕ)
  | frontier (count : ℕ)
deriving DecidableEq, Repr

def invalid (message : String) : QuilError := .invalidArgument ("accumulator report: " ++ message)

/-- One width layer of a shard's part of the accumulator. -/
structure SubtreeReport (Node : Type) where
  width : ℕ
  coins : ℕ
  root : Node
deriving DecidableEq

/-- What a shard holds of a block on its own path that it is too deep to own. -/
structure BlockAttestation where
  block : ℕ
  coins : ℕ
  escrows : ℕ
deriving DecidableEq

structure ShardReport (Node : Type) where
  context : Bytes32
  subtrees : List (SubtreeReport Node)
  attestations : List BlockAttestation
deriving DecidableEq

/-- Width layers a report can hold: one per block width the accumulator allows. -/
def MAX_LAYERS : ℕ := MAX_BLOCK_BITS - INITIAL_BLOCK_BITS + 1

/-- The checks every report passes when it is encoded and when it is decoded. -/
def ShardReport.validate {Node : Type} (r : ShardReport Node) : Except QuilError Unit :=
  if r.subtrees.isEmpty ∧ r.attestations.isEmpty ∨ r.subtrees.length > MAX_LAYERS then
    .error (invalid "a report carries 1..=MAX_LAYERS layers, or only attestations")
  else if r.attestations.length > MAX_LAYERS ∨ ¬ (r.attestations.map (·.block)).Pairwise (· < ·) ∨
      ∃ a ∈ r.attestations, ¬ isAllocatedWidth MAX_BLOCK_BITS a.block then
    .error (invalid "attestations name distinct valid blocks in ascending order")
  else if ¬ (r.subtrees.map (·.width)).Pairwise (· < ·) then
    .error (invalid "layers must be in strictly ascending width")
  else if ∃ t ∈ r.subtrees, t.coins = 0 ∨
      ¬ (INITIAL_BLOCK_BITS ≤ t.width ∧ t.width ≤ MAX_BLOCK_BITS) then
    .error (invalid "every layer holds coins at a valid width")
  else .ok ()

/-- What the flat summary's record holds: the summary, or the mark that the tree replaced it. -/
inductive SummaryRecord (Node : Type) where
  | moved
  | flat (summary : BlockSummary Node)

/-- The application's state at a shard: its vertices, the flat summary's record and the tree's. -/
structure State (Node : Type) where
  vertices : Store Bytes32 Vertex
  summary : Option (SummaryRecord Node)
  nodes : Nodes Node

variable {Node : Type}

/-- The flat summary, while one is still stored in its place. -/
def legacySummary (s : State Node) : Option (BlockSummary Node) :=
  match s.summary with
  | some (.flat summary) => some summary
  | some .moved => none
  | none => none

/-- Replace a flat summary with its tree, once; also whether it did (`summary_tree.rs`). -/
def upgrade (m : Membership Node) (ctx : Bytes32) (s : State Node) :
    Except QuilError (State Node × Bool) := do
  match legacySummary s with
  | none => return (s, false)
  | some flat =>
    let nodes ← replace m ctx s.nodes flat.blocks
    return ({ s with nodes := nodes, summary := some .moved }, true)

/-- Where a shard's subtree of one width sits in the accumulator: level and index from the leaves. -/
def subtreePosition (width : ℕ) (shard : List Bool) : Except QuilError (ℕ × ℕ) :=
  if ¬ (INITIAL_BLOCK_BITS ≤ width ∧ width ≤ MAX_BLOCK_BITS) then
    .error (invalid "width outside the accumulator's range")
  else if shard.length > width then
    .error (invalid "a shard deeper than a layer's width owns part of a block")
  else .ok (SUBTREE_BITS + width - shard.length, 2 ^ shard.length ||| value shard)

/-- Whether `shard` holds `block`'s own records: the one shard that can attest what the block
    received (`global_commit.rs`). -/
def holdsBlockRecords (shard : List Bool) (block : ℕ) : Bool :=
  let address := blockRecordAddress BLOCK_FRONTIER_TAG block
  shard.length ≤ 256 && shard.zipIdx.all fun want => address.getMsbD want.2 == want.1

/-- What the shard attests of the block of one width on its path, if it holds its records. -/
def attestation (vertices : Store Bytes32 Vertex) (shard : List Bool) (width : ℕ) :
    Except QuilError (Option BlockAttestation) := do
  let block ← blockId width (value (shard.take width))
  if ¬ holdsBlockRecords shard block then return none
  else
    let coins ← match vertices (blockRecordAddress BLOCK_FRONTIER_TAG block) with
      | some (.frontier count) => pure count
      | some _ => .error (invalid "malformed block frontier")
      | none => pure 0
    let escrows ← match vertices (blockRecordAddress BLOCK_ESCROW_COUNT_TAG block) with
      | some (.escrowCount count) => pure count
      | some _ => .error (invalid "malformed escrow count")
      | none => pure 0
    return some ⟨block, coins, escrows⟩

/-- The attestations of `shard`: every block on its own path narrower than it whose records it holds. -/
def attestations (vertices : Store Bytes32 Vertex) (shard : List Bool) :
    Except QuilError (List BlockAttestation) := do
  let top := min shard.length (MAX_BLOCK_BITS + 1)
  let held ← (List.range' INITIAL_BLOCK_BITS (top - INITIAL_BLOCK_BITS)).mapM
    (attestation vertices shard)
  return held.reduceOption

/-- The block widths the accumulator allows. -/
def widths : List ℕ := List.range' INITIAL_BLOCK_BITS (MAX_BLOCK_BITS + 1 - INITIAL_BLOCK_BITS)

/-- A shard's non-empty blocks by width, widths ascending. -/
def layers (shard : List Bool) (blocks : List (ℕ × ℕ × Node)) : List (ℕ × List (ℕ × ℕ × Node)) :=
  let owned := blocks.filter fun e => e.2.1 > 0 && shardOwnsBlock shard e.1
  ((owned.map fun e => creationWidth e.1).dedup.insertionSort (· ≤ ·)).map fun width =>
    (width, owned.filter fun e => creationWidth e.1 == width)

/-- The report of one layer, folded from its blocks. -/
def layerReport (m : Membership Node) (ctx : Bytes32) (shard : List Bool) (width : ℕ)
    (blocks : List (ℕ × ℕ × Node)) : Except QuilError (SubtreeReport Node) := do
  let (level, index) ← subtreePosition width shard
  let firstBlock := index * 2 ^ (level - SUBTREE_BITS)
  let nodes := blocks.map fun e => (SUBTREE_BITS, e.1 - firstBlock, e.2.2)
  -- A shard exactly as deep as the width owns one block, and its subtree is that block.
  let root ← if level = SUBTREE_BITS then
      match nodes with
      | [(_, 0, root)] => .ok root
      | _ => .error (invalid "a one-block subtree holds exactly its block")
    else (foldSparse m ctx level nodes).mapError fun e => invalid ("fold: " ++ e.debug)
  let coins ← blocks.foldlM (fun total e =>
    if total + e.2.1 < 2 ^ 64 then .ok (total + e.2.1) else .error (invalid "coin count overflow")) 0
  return ⟨width, coins, root⟩

/-- The report of these layers and attestations, `None` when there are neither. -/
def reportOf (ctx : Bytes32) (subtrees : List (SubtreeReport Node))
    (attestations : List BlockAttestation) : Option (ShardReport Node) :=
  if subtrees.isEmpty && attestations.isEmpty then none else some ⟨ctx, subtrees, attestations⟩

def reportFromSummary (m : Membership Node) (ctx : Bytes32) (shard : List Bool)
    (summary : BlockSummary Node) (attestations : List BlockAttestation) :
    Except QuilError (Option (ShardReport Node)) := do
  let subtrees ← (layers shard summary.blocks).mapM fun layer => layerReport m ctx shard layer.1 layer.2
  return reportOf ctx subtrees attestations

/-- The stored node over the shard's owned range in one layer. -/
def storedLayer (nodes : Nodes Node) (shard : List Bool) (width : ℕ) :
    Except QuilError (Option (SubtreeReport Node)) := do
  if shard.length > width then return none
  else
    let (level, index) ← subtreePosition width shard
    let node ← subtree nodes level index
    return node.map fun n => ⟨width, n.coins, n.node⟩

/-- What the report attests: nothing before the orphan re-placement frame. -/
def attested (s : State Node) (shard : List Bool) (attest : Bool) :
    Except QuilError (List BlockAttestation) :=
  if attest then attestations s.vertices shard else .ok []

/-- The shard's report from committed state, or `None` when it holds no coins and attests nothing. -/
def shardReport (m : Membership Node) (ctx : Bytes32) (s : State Node) (shard : List Bool)
    (attest : Bool) : Except QuilError (Option (ShardReport Node)) := do
  let held ← attested s shard attest
  match legacySummary s with
  | some flat => reportFromSummary m ctx shard flat held
  | none =>
    let subtrees ← widths.mapM (storedLayer s.nodes shard)
    return reportOf ctx subtrees.reduceOption held

/-- The application root from its shards' subtrees `(width, shard path, root)`. -/
def foldApplicationRoot (m : Membership Node) (ctx : Bytes32)
    (subtrees : List (ℕ × List Bool × Node)) : Except QuilError Node := do
  let nodes ← subtrees.mapM fun subtree => do
    let (level, index) ← subtreePosition subtree.1 subtree.2.1
    return (level, index, subtree.2.2)
  (foldSparse m ctx DEPTH nodes).mapError fun e => invalid ("fold: " ++ e.debug)

/-! ### A shard's blocks of one width are one subtree -/

/-- The index of a shard's subtrees: a sentinel bit above its path. -/
def shardIndex (shard : List Bool) : ℕ := 2 ^ shard.length + value shard

variable {width : ℕ}

theorem mem_widths : width ∈ widths ↔ INITIAL_BLOCK_BITS ≤ width ∧ width ≤ MAX_BLOCK_BITS := by
  rw [widths, mem_range'_1]
  simp only [INITIAL_BLOCK_BITS, MAX_BLOCK_BITS]
  omega

theorem widths_ascending : widths.Pairwise (· < ·) := by decide

theorem subtreePosition_ok {shard : List Bool} (hw : width ∈ widths) (hd : shard.length ≤ width) :
    subtreePosition width shard = .ok (SUBTREE_BITS + (width - shard.length), shardIndex shard) := by
  rw [subtreePosition, if_neg (not_not.2 (mem_widths.1 hw)), if_neg (by omega), two_pow_or (value_lt shard),
    shardIndex, Nat.add_sub_assoc hd]

theorem shardIndex_lt {shard : List Bool} (hw : width ∈ widths)
    (hd : shard.length ≤ width) : shardIndex shard < 2 ^ (LEVELS - (width - shard.length)) := by
  have hmax : width ≤ 15 := (mem_widths.1 hw).2
  have hpow : 2 ^ (shard.length + 1) ≤ 2 ^ (LEVELS - (width - shard.length)) :=
    Nat.pow_le_pow_right two_pos (by simp only [LEVELS, BLOCK_INDEX_BITS, MAX_BLOCK_BITS]; omega)
  have := value_lt shard
  rw [pow_succ] at hpow
  rw [shardIndex]
  omega

/-- The blocks under a shard's subtree of one width are those of the width the shard owns. -/
theorem div_eq_shardIndex {block : ℕ} {shard : List Bool} (hd : shard.length ≤ width) :
    block / 2 ^ (width - shard.length) = shardIndex shard ↔
      block ≠ 0 ∧ creationWidth block = width ∧ shard <+: blockPath block := by
  have hpow : 2 ^ width = 2 ^ shard.length * 2 ^ (width - shard.length) := by
    rw [← pow_add]
    congr 1; omega
  have hpos := Nat.two_pow_pos (width - shard.length)
  rw [← exists_ownedBlock_iff shard hd]
  constructor
  · intro h
    refine ⟨block % 2 ^ (width - shard.length), Nat.mod_lt _ hpos, ?_⟩
    rw [ownedBlock, hpow, ← add_assoc, ← add_mul, ← shardIndex, ← h, mul_comm]
    exact Nat.div_add_mod _ _
  · rintro ⟨rest, hr, rfl⟩
    rw [ownedBlock, hpow, ← add_assoc, ← add_mul, ← shardIndex, mul_comm,
      Nat.mul_add_div hpos, Nat.div_eq_of_lt hr, add_zero]

/-- Subtrees of two shards lie one in the other exactly if their widths are equal and their paths are. -/
theorem under_shardIndex {width' : ℕ} {shard shard' : List Bool} (hd : shard.length ≤ width)
    (hd' : shard'.length ≤ width') :
    Under (width - shard.length) (shardIndex shard) (width' - shard'.length) (shardIndex shard') ↔
      width = width' ∧ shard' <+: shard := by
  have hwidth : creationWidth (shardIndex shard) = shard.length := creationWidth_add (value_lt shard)
  have hpath : blockPath (shardIndex shard) = shard := by
    rw [shardIndex, blockPath_add (value_lt shard), pathOf_value shard rfl]
  constructor
  · rintro ⟨hle, hdiv⟩
    have hk : shard'.length + (width' - shard'.length - (width - shard.length)) - shard'.length =
        width' - shard'.length - (width - shard.length) := by omega
    rw [← hk, div_eq_shardIndex (Nat.le_add_right _ _), hwidth, hpath] at hdiv
    exact ⟨by omega, hdiv.2.2⟩
  · rintro ⟨rfl, hpre⟩
    have hlen := hpre.length_le
    refine ⟨by omega, ?_⟩
    rw [show width - shard'.length - (width - shard.length) = shard.length - shard'.length by omega,
      div_eq_shardIndex hlen, hpath]
    exact ⟨by have := Nat.two_pow_pos shard.length; rw [shardIndex]; omega, hwidth, hpre⟩

/-- Where a reported subtree is placed in the accumulator. -/
def placeOf (t : ℕ × List Bool × Node) : ℕ × ℕ × Node :=
  (SUBTREE_BITS + (t.1 - t.2.1.length), shardIndex t.2.1, t.2.2)

/-- Subtrees that shards own whole, no two of which overlap. -/
structure Foldable (subtrees : List (ℕ × List Bool × Node)) : Prop where
  owned : ∀ t ∈ subtrees, t.1 ∈ widths ∧ t.2.1.length ≤ t.1
  disjoint : subtrees.Pairwise fun t t' => ¬ Overlaps (t.1, t.2.1) (t'.1, t'.2.1)

theorem Foldable.clear {subtrees : List (ℕ × List Bool × Node)} (h : Foldable subtrees) :
    (subtrees.map placeOf).Pairwise Clear := by
  rw [pairwise_map]
  refine h.disjoint.imp_of_mem fun {t t'} ht ht' hdisj => ?_
  constructor
  · intro hu
    obtain ⟨hw, hpre⟩ := (under_shardIndex (h.owned t ht).2 (h.owned t' ht').2).1 (under_add.1 hu)
    exact hdisj ⟨hw, .inr hpre⟩
  · intro hu
    obtain ⟨hw, hpre⟩ := (under_shardIndex (h.owned t' ht').2 (h.owned t ht).2).1 (under_add.1 hu)
    exact hdisj ⟨hw.symm, .inl hpre⟩

/-- Folding subtrees that do not overlap gives the top of the tree they are placed in. -/
theorem foldApplicationRoot_ok (m : Membership Node) (ctx : Bytes32)
    {subtrees : List (ℕ × List Bool × Node)} (h : Foldable subtrees) :
    foldApplicationRoot m ctx subtrees = .ok ((node (m.parent ctx) m.zero (placement (subtrees.map placeOf))
        (SUBTREE_BITS + LEVELS) 0).getD (m.zeros ctx (SUBTREE_BITS + LEVELS))) := by
  have hplaces : subtrees.mapM (fun t => do
      let (level, index) ← subtreePosition t.1 t.2.1
      return (level, index, t.2.2)) = .ok (subtrees.map placeOf) := by
    refine mapM_ok fun t ht => ?_
    rw [subtreePosition_ok (h.owned t ht).1 (h.owned t ht).2]
    rfl
  rw [foldApplicationRoot, hplaces, ok_bind, show DEPTH = SUBTREE_BITS + LEVELS from rfl,
    foldSparse_ok m ctx (by decide) (by decide) ?_ h.clear]
  · rfl
  intro place hplace
  obtain ⟨t, ht, rfl⟩ := mem_map.1 hplace
  obtain ⟨hw, hd⟩ := h.owned t ht
  have hmax := (mem_widths.1 hw).2
  refine ⟨?_, ?_⟩
  · simp only [placeOf, LEVELS, BLOCK_INDEX_BITS, MAX_BLOCK_BITS] at *
    omega
  · simpa only [placeOf, Nat.add_sub_add_left] using shardIndex_lt hw hd

/-- A shard's non-empty blocks of one width. -/
def layerBlocks (shard : List Bool) (blocks : List (ℕ × ℕ × Node)) (width : ℕ) :
    List (ℕ × ℕ × Node) :=
  blocks.filter fun e => (e.2.1 > 0 && shardOwnsBlock shard e.1) && creationWidth e.1 == width

variable {blocks : List (ℕ × ℕ × Node)} {e : ℕ × ℕ × Node}

theorem mem_layerBlocks {shard : List Bool} : e ∈ layerBlocks shard blocks width ↔
      e ∈ blocks ∧ 0 < e.2.1 ∧ shard <+: blockPath e.1 ∧ creationWidth e.1 = width := by
  rw [layerBlocks, mem_filter, Bool.and_eq_true, Bool.and_eq_true, shardOwnsBlock_iff,
    beq_iff_eq, decide_eq_true_eq, and_assoc]

/-- Every block of the list is an id the accumulator can hold. -/
def Allocated (blocks : List (ℕ × ℕ × Node)) : Prop :=
  ∀ e ∈ blocks, isAllocatedWidth MAX_BLOCK_BITS e.1 = true

theorem Allocated.ne_zero (h : Allocated blocks) (he : e ∈ blocks) : e.1 ≠ 0 := by
  have := h e he
  simp only [isAllocatedWidth, Bool.and_eq_true, decide_eq_true_eq] at this
  omega

theorem Allocated.mem_widths (h : Allocated blocks) (he : e ∈ blocks) : creationWidth e.1 ∈ widths := by
  have := h e he
  simp only [isAllocatedWidth, Bool.and_eq_true, decide_eq_true_eq] at this
  exact ShardAccumulator.mem_widths.2 ⟨this.1.2, this.2⟩

theorem Allocated.lt (h : Allocated blocks) (he : e ∈ blocks) : e.1 < 2 ^ LEVELS := by
  have hle := h e he
  simp only [isAllocatedWidth, Bool.and_eq_true, decide_eq_true_eq] at hle
  exact Nat.lt_log2_self.trans_le (Nat.pow_le_pow_right two_pos (Nat.succ_le_succ hle.2))

section
variable {m : Membership Node} {ctx : Bytes32}
  {shard : List Bool}

theorem filter_leafNodes (h : Allocated blocks) (hd : shard.length ≤ width) :
    ((leafNodes blocks).filter fun x => x.1 / 2 ^ (width - shard.length) = shardIndex shard) =
      (layerBlocks shard blocks width).map fun e => (e.1, ⟨e.2.1, 1, e.2.2⟩) := by
  rw [leafNodes_eq, filter_map, filter_filter, layerBlocks]
  congr 1
  refine filter_congr fun e he => Bool.eq_iff_iff.2 ?_
  simp only [Function.comp, Bool.and_eq_true, decide_eq_true_eq, beq_iff_eq, shardOwnsBlock_iff, div_eq_shardIndex hd]
  have := h.ne_zero he
  tauto

theorem treeOf_eq_none (h : Allocated blocks) (hd : shard.length ≤ width) :
    treeOf m ctx blocks (width - shard.length) (shardIndex shard) = none ↔ layerBlocks shard blocks width = [] := by
  rw [treeOf, node_leaves_eq_none, ← map_eq_nil_iff, ← filter_leafNodes h hd, filter_eq_nil_iff]
  simp only [decide_eq_true_eq]

/-! ### Both reports are nodes of the tree -/

theorem ascending_layerBlocks (hasc : Ascending blocks) (shard : List Bool) (width : ℕ) :
    Ascending (layerBlocks shard blocks width) := List.Pairwise.filter _ hasc

/-- A block of the layer, by its place in the layer's subtree. -/
theorem layer_index (halloc : Allocated blocks) (hd : shard.length ≤ width)
    (he : e ∈ layerBlocks shard blocks width) : shardIndex shard * 2 ^ (width - shard.length) ≤ e.1 ∧
      e.1 - shardIndex shard * 2 ^ (width - shard.length) < 2 ^ (width - shard.length) := by
  obtain ⟨hmem, -, hown, hwidth⟩ := mem_layerBlocks.1 he
  have hdiv := (div_eq_shardIndex hd).2 ⟨halloc.ne_zero hmem, hwidth, hown⟩
  have hmod := Nat.mod_lt e.1 (Nat.two_pow_pos (width - shard.length))
  have hsum := Nat.div_add_mod e.1 (2 ^ (width - shard.length))
  rw [hdiv, mul_comm] at hsum
  omega

theorem foldlM_coins (e : QuilError) {layer : List (ℕ × ℕ × Node)} {start : ℕ}
    (h : start + (layer.map fun e => e.2.1).sum < 2 ^ 64) :
    layer.foldlM (fun total e' => if total + e'.2.1 < 2 ^ 64 then Except.ok (total + e'.2.1)
      else .error e) start = .ok (start + (layer.map fun e => e.2.1).sum) := by
  induction layer generalizing start with
  | nil => rfl
  | cons x layer ih =>
    rw [map_cons, sum_cons] at h ⊢
    rw [foldlM_cons, if_pos (by omega), ok_bind, ih (by omega), add_assoc]

variable {n : TreeNode Node}

/-- The coins of a layer are those of its node. -/
theorem layer_coins (hasc : Ascending blocks) (halloc : Allocated blocks) (hd : shard.length ≤ width)
    (hn : treeOf m ctx blocks (width - shard.length) (shardIndex shard) = some n) :
    ((layerBlocks shard blocks width).map fun e => e.2.1).sum = n.coins := by
  have hsum := @treeOf_sum _ m ctx _ hasc TreeNode.coins (fun _ _ => rfl) rfl
    (width - shard.length) (shardIndex shard)
  rw [hn, filter_leafNodes halloc hd, map_map] at hsum
  exact hsum.symm

/-- A layer as deep as its shard is one block. -/
theorem layer_single (hasc : Ascending blocks) (halloc : Allocated blocks) (hd : shard.length = width)
    (hn : treeOf m ctx blocks 0 (shardIndex shard) = some n) :
    layerBlocks shard blocks width = [(shardIndex shard, n.coins, n.node)] := by
  have hasc' := ascending_layerBlocks hasc shard width
  have hdiv : ∀ block : ℕ, block = shardIndex shard ↔
      block ≠ 0 ∧ creationWidth block = width ∧ shard <+: blockPath block := by
    intro block
    rw [← div_eq_shardIndex hd.le, hd, Nat.sub_self, pow_zero, Nat.div_one]
  obtain ⟨-, hpos, hmem⟩ := mem_leafNodes.1 (mem_of_lookup hn)
  obtain ⟨-, hwidth, hown⟩ := (hdiv _).1 rfl
  refine hasc'.ext (pairwise_singleton _ _) fun k => ?_
  by_cases hk : k = shardIndex shard
  · rw [lookup_cons_of_eq hk, hk, lookup_eq_some hasc'.keyed, mem_layerBlocks]
    exact ⟨hmem, hpos, hown, hwidth⟩
  rw [lookup_cons_of_ne hk, lookup_nil, lookup_eq_none]
  intro e he hek
  obtain ⟨hmem, -, hown, hwidth⟩ := mem_layerBlocks.1 he
  exact hk (hek ▸ (hdiv _).2 ⟨halloc.ne_zero hmem, hwidth, hown⟩)

/-- The positions of a layer's blocks, counted from the layer's first block. -/
def layerNodes (shard : List Bool) (blocks : List (ℕ × ℕ × Node)) (width : ℕ) : List (ℕ × ℕ × Node) :=
  (layerBlocks shard blocks width).map fun e =>
    (SUBTREE_BITS, e.1 - shardIndex shard * 2 ^ (width - shard.length), e.2.2)

theorem clear_layerNodes (hasc : Ascending blocks) (halloc : Allocated blocks)
    (hd : shard.length ≤ width) : (layerNodes shard blocks width).Pairwise Clear := by
  refine pairwise_map.2 ((ascending_layerBlocks hasc shard width).imp_of_mem ?_)
  intro a b ha hb hab
  have hfirst := (layer_index halloc hd ha).1
  constructor <;> rintro ⟨-, h⟩ <;> simp only [Nat.sub_self, pow_zero, Nat.div_one] at h <;> omega

theorem mem_layerNodes {l j : ℕ} {root : Node} :
    (l, j, root) ∈ layerNodes shard blocks width ↔ l = SUBTREE_BITS ∧ ∃ e ∈ layerBlocks shard blocks width,
        e.1 - shardIndex shard * 2 ^ (width - shard.length) = j ∧ e.2.2 = root := by
  rw [layerNodes, mem_map]
  constructor
  · rintro ⟨e, he, heq⟩
    cases heq
    exact ⟨rfl, e, he, rfl, rfl⟩
  · rintro ⟨rfl, e, he, rfl, rfl⟩
    exact ⟨e, he, rfl⟩

/-- The layer's blocks are the tree's leaves under the shard's position, counted from there. -/
theorem placement_layerNodes (hasc : Ascending blocks) (halloc : Allocated blocks)
    (hd : shard.length ≤ width) (l j : ℕ) (hj : j < 2 ^ (width - shard.length - l)) :
    placement (layerNodes shard blocks width) (SUBTREE_BITS + l) j =
      leaves ((leafNodes blocks).map fun x => (x.1, x.2.node)) l
        (shardIndex shard * 2 ^ (width - shard.length - l) + j) := by
  have hclear : (layerNodes shard blocks width).Pairwise Clear := clear_layerNodes hasc halloc hd
  cases l with
  | succ l =>
    refine placement_eq_none fun root hroot => ?_
    have := (mem_layerNodes.1 hroot).1
    omega
  | zero =>
    have hkeyed : Keyed ((leafNodes blocks).map fun x => (x.1, x.2.node)) := by
      simpa [Keyed, Function.comp_def] using (ascending_leafNodes hasc).keyed
    refine Option.ext fun root => ?_
    rw [placement, lookup_eq_some (keyed_placedAt hclear _), mem_placedAt, mem_layerNodes, leaves,
      lookup_eq_some hkeyed, mem_map]
    rw [Nat.sub_zero] at hj ⊢
    constructor
    · rintro ⟨-, e, he, rfl, rfl⟩
      obtain ⟨hmem, hpos, -⟩ := mem_layerBlocks.1 he
      refine ⟨(e.1, ⟨e.2.1, 1, e.2.2⟩), mem_leafNodes.2 ⟨rfl, hpos, hmem⟩, ?_⟩
      rw [Nat.add_sub_cancel' (layer_index halloc hd he).1]
    · rintro ⟨⟨b, n⟩, hn, heq⟩
      cases heq
      obtain ⟨-, hpos, hmem⟩ := mem_leafNodes.1 hn
      refine ⟨rfl, _, mem_layerBlocks.2 ⟨hmem, hpos, ?_⟩, by simp, rfl⟩
      have hdiv := (@div_eq_shardIndex width (shardIndex shard * 2 ^ (width - shard.length) + j) _ hd).1
        (by rw [mul_comm, Nat.mul_add_div (Nat.two_pow_pos _), Nat.div_eq_of_lt hj, add_zero])
      exact ⟨hdiv.2.2, hdiv.2.1⟩

/-- The fold of a layer is the value of its node. -/
theorem foldSparse_layer (hasc : Ascending blocks) (halloc : Allocated blocks) (hw : width ∈ widths)
    (hd : shard.length < width) (hn : treeOf m ctx blocks (width - shard.length) (shardIndex shard) = some n) :
    foldSparse m ctx (SUBTREE_BITS + (width - shard.length)) (layerNodes shard blocks width) = .ok n.node := by
  have hmax : width ≤ 15 := (mem_widths.1 hw).2
  rw [foldSparse_ok m ctx (by omega) (by simp only [SUBTREE_BITS, MAX_DEPTH]; omega) ?_
    (clear_layerNodes hasc halloc hd.le)]
  · have hlow : ∀ l < SUBTREE_BITS, ∀ j, placement (layerNodes shard blocks width) l j = none := by
      refine fun l hl j => placement_eq_none fun root hroot => ?_
      have := (mem_layerNodes.1 hroot).1
      omega
    rw [← node_lift hlow, node_shift fun l hl j hj => placement_layerNodes hasc halloc hd.le l j hj]
    have hvalue := @treeOf_node _ m ctx blocks (width - shard.length) (shardIndex shard)
    rw [hn] at hvalue
    rw [← Membership.zeros, ← hvalue]
    rfl
  rintro ⟨l, j, root⟩ hmem
  obtain ⟨rfl, e, he, rfl, rfl⟩ := mem_layerNodes.1 hmem
  have := (layer_index halloc hd.le he).2
  rw [Nat.add_sub_cancel_left]
  exact ⟨by dsimp only; omega, this⟩

/-- The report of a non-empty layer is its node of the tree. -/
theorem layerReport_ok (hasc : Ascending blocks) (halloc : Allocated blocks) (htotal : total blocks < 2 ^ 64)
    (hw : width ∈ widths) (hd : shard.length ≤ width)
    (hn : treeOf m ctx blocks (width - shard.length) (shardIndex shard) = some n) :
    layerReport m ctx shard width (layerBlocks shard blocks width) = .ok ⟨width, n.coins, n.node⟩ := by
  have hcoins := layer_coins hasc halloc hd hn
  have hle := coins_le_total hasc hn
  rw [layerReport, subtreePosition_ok hw hd, ok_bind]
  dsimp only
  rw [foldlM_coins _ (by omega), zero_add, hcoins, Nat.add_sub_cancel_left]
  rcases hd.eq_or_lt with heq | hlt
  · rw [heq, Nat.sub_self] at hn
    rw [if_pos (by omega), layer_single hasc halloc heq hn, heq]
    simp
  · rw [if_neg (by omega), ← layerNodes, foldSparse_layer hasc halloc hw hlt hn]
    rfl

/-- What a shard reports of a width: its node of the tree. -/
def layerOf (m : Membership Node) (ctx : Bytes32) (blocks : List (ℕ × ℕ × Node))
    (shard : List Bool) (width : ℕ) : Option (SubtreeReport Node) :=
  if shard.length ≤ width then
    (treeOf m ctx blocks (width - shard.length) (shardIndex shard)).map fun n => ⟨width, n.coins, n.node⟩
  else none

theorem layerOf_eq_none (halloc : Allocated blocks) :
    layerOf m ctx blocks shard width = none ↔ layerBlocks shard blocks width = [] := by
  rw [layerOf]
  split_ifs with hd
  · rw [Option.map_eq_none_iff, treeOf_eq_none halloc hd]
  refine iff_of_true rfl (eq_nil_iff_forall_not_mem.2 fun e he => hd ?_)
  obtain ⟨-, -, hown, hwidth⟩ := mem_layerBlocks.1 he
  rw [← hwidth, ← length_blockPath]
  exact hown.length_le

/-- A shard's non-empty layers, at the widths that have one. -/
theorem layers_eq (halloc : Allocated blocks) : layers shard blocks =
    (widths.filter fun width => !(layerBlocks shard blocks width).isEmpty).map fun width =>
      (width, layerBlocks shard blocks width) := by
  have hfilter : ∀ width, ((blocks.filter fun e => e.2.1 > 0 && shardOwnsBlock shard e.1).filter
      fun e => creationWidth e.1 == width) = layerBlocks shard blocks width := fun width => by
    rw [filter_filter, layerBlocks]
    exact filter_congr fun e _ => Bool.and_comm _ _
  have hwidths : (((blocks.filter fun e => e.2.1 > 0 && shardOwnsBlock shard e.1).map
      fun e => creationWidth e.1).dedup.insertionSort (· ≤ ·)) =
      widths.filter fun width => !(layerBlocks shard blocks width).isEmpty := by
    refine eq_of_ascending (f := id) ?_ ?_ fun width => ?_
    · have hnodup := (perm_insertionSort (· ≤ ·) _).nodup_iff.2 (nodup_dedup
        ((blocks.filter fun e => e.2.1 > 0 && shardOwnsBlock shard e.1).map fun e => creationWidth e.1))
      exact ((pairwise_insertionSort (· ≤ ·) _).and hnodup).imp fun hab => lt_of_le_of_ne hab.1 hab.2
    · exact widths_ascending.filter _
    rw [mem_insertionSort, mem_dedup, mem_map, mem_filter, Bool.not_eq_true', isEmpty_eq_false_iff_exists_mem]
    constructor
    · rintro ⟨e, he, rfl⟩
      have he' : e ∈ layerBlocks shard blocks (creationWidth e.1) := by
        rw [← hfilter, mem_filter]
        exact ⟨he, by simp⟩
      exact ⟨halloc.mem_widths (mem_layerBlocks.1 he').1, e, he'⟩
    · rintro ⟨-, e, he⟩
      rw [← hfilter, mem_filter] at he
      exact ⟨e, he.1, by simpa using he.2⟩
  rw [layers, hwidths]
  exact map_congr_left fun width _ => by rw [hfilter]

theorem reportFromSummary_ok {summary : BlockSummary Node} (halloc : Allocated summary.blocks)
    (htotal : total summary.blocks < 2 ^ 64) (held : List BlockAttestation) :
    reportFromSummary m ctx shard summary held =
      .ok (reportOf ctx (widths.filterMap (layerOf m ctx summary.blocks shard)) held) := by
  have hlayers : (layers shard summary.blocks).mapM (fun layer =>
      layerReport m ctx shard layer.1 layer.2) = .ok (widths.filterMap (layerOf m ctx summary.blocks shard)) := by
    rw [layers_eq halloc, mapM_map]
    refine mapM_filter_ok (fun width hw hne => ?_) fun width _ hempty => ?_
    · have hsome : layerOf m ctx summary.blocks shard width ≠ none := fun hnone => by
        rw [(layerOf_eq_none halloc).1 hnone] at hne
        cases hne
      obtain ⟨report, hreport⟩ := Option.ne_none_iff_exists'.1 hsome
      refine ⟨report, hreport, ?_⟩
      rw [layerOf] at hreport
      split_ifs at hreport with hd
      obtain ⟨n, hn, rfl⟩ := Option.map_eq_some_iff.1 hreport
      exact layerReport_ok summary.ascending halloc htotal hw hd hn
    · exact (layerOf_eq_none halloc).2 (by simpa using hempty)
  rw [reportFromSummary, hlayers]
  rfl

theorem storedLayer_ok {stored : Nodes Node} (hwell : WellStored stored)
    (hstored : ∀ l ≤ LEVELS, ∀ i, stored (l, i) = treeOf m ctx blocks l i) (hw : width ∈ widths) :
    storedLayer stored shard width = .ok (layerOf m ctx blocks shard width) := by
  rw [storedLayer, layerOf]
  by_cases hd : shard.length ≤ width
  · have hlevel : width - shard.length ≤ LEVELS := by
      have := (mem_widths.1 hw).2
      simp only [LEVELS, BLOCK_INDEX_BITS, MAX_BLOCK_BITS] at *
      omega
    rw [if_neg (by omega), if_pos hd, subtreePosition_ok hw hd, ok_bind]
    dsimp only
    rw [subtree, if_neg (by omega), Nat.add_sub_cancel_left, hwell.readNode hlevel (shardIndex_lt hw hd),
      hstored _ hlevel]
    rfl
  · rw [if_pos (by omega), if_neg hd]
    rfl

end

end Quil.ShardAccumulator
