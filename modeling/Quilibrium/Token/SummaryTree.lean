import Quilibrium.Schemes.Store
import Quilibrium.Token.AccumulatorRecords
import Quilibrium.Token.ShardedTree

/-! The application's block summary as a stored binary tree over block ids (`token_intrinsic/summary_tree.rs`). A node
    at level `h` with index `i` covers the block ids `[i << h, (i + 1) << h)`; leaves are the non-empty blocks, and
    each node records the coins and non-empty blocks under it besides its value. `replace` leaves EXACTLY the sparse
    tree of the blocks it was given, whatever was stored before. -/

namespace Quil.SummaryTree
open Schemes ShardedTree List
open CoinBlocks hiding invalid
open AccumulatorRecords (LEVELS)

/-- Non-empty blocks one application may carry (`roots.rs`). -/
def MAX_NONEMPTY_BLOCKS : ℕ := 1024

def invalid : QuilError := .invalidArgument "coin block summary: invalid tree record"

/-- One stored node: the coins and non-empty blocks under it, and its value. -/
structure TreeNode (Node : Type) where
  coins : ℕ
  blocks : ℕ
  node : Node
deriving DecidableEq

variable {Node : Type}

/-- The stored nodes, by level and index. A cleared node reads as absent. -/
abbrev Nodes (Node : Type) := Store (ℕ × ℕ) (TreeNode Node)

/-- Every block under a stored node holds at least one coin. -/
def TreeNode.decode (record : TreeNode Node) (level : ℕ) : Except QuilError (Option (TreeNode Node)) :=
  if level > LEVELS then .error invalid
  else if record.blocks = 0 ∨ record.blocks > 2 ^ level ∨ record.coins < record.blocks then
    .error invalid
  else .ok (some record)

def readNode (stored : Nodes Node) (level index : ℕ) : Except QuilError (Option (TreeNode Node)) :=
  if level > LEVELS ∨ index ≥ 2 ^ (LEVELS - level) then .error invalid
  else
    match stored (level, index) with
    | some record => record.decode level
    | none => .ok none

/-- The top node: coins, non-empty blocks and the application root. -/
def top (stored : Nodes Node) : Except QuilError (Option (TreeNode Node)) := readNode stored LEVELS 0

/-- The node over one shard's owned range in one width layer, `level` counted from the coins. -/
def subtree (stored : Nodes Node) (level index : ℕ) : Except QuilError (Option (TreeNode Node)) :=
  if level < SUBTREE_BITS then .error invalid else readNode stored (level - SUBTREE_BITS) index

/-- Every stored node's position at or under `(level, index)`, walked down: a node exists only under a
    stored parent. -/
def storedPositions (stored : Nodes Node) :
    (level index : ℕ) → Except QuilError (List (ℕ × ℕ × TreeNode Node))
  | 0, index => do
    match ← readNode stored 0 index with
    | none => return []
    | some node => return [(0, index, node)]
  | level + 1, index => do
    match ← readNode stored (level + 1) index with
    | none => return []
    | some node =>
      let left ← storedPositions stored level (2 * index)
      let right ← storedPositions stored level (2 * index + 1)
      return (level + 1, index, node) :: (left ++ right)

/-- The application root: the top node, or the zero tree with no blocks. -/
def root (m : Membership Node) (ctx : Bytes32) (stored : Nodes Node) : Except QuilError Node := do
  match ← top stored with
  | some top => return top.node
  | none => return m.zeros ctx (SUBTREE_BITS + LEVELS)

/-- The sum of two 64-bit counts, refused past 64 bits. -/
def checkedAdd (a b : ℕ) : Except QuilError ℕ :=
  if a + b < 2 ^ 64 then .ok (a + b) else .error invalid

/-- The parent of two children at `level`; absent when both are. -/
def parent (m : Membership Node) (ctx : Bytes32) (level : ℕ)
    (left right : Option (TreeNode Node)) : Except QuilError (Option (TreeNode Node)) := do
  if left.isNone && right.isNone then return none
  else
    let zero := m.zeros ctx (SUBTREE_BITS + level)
    let coins ← checkedAdd (left.elim 0 TreeNode.coins) (right.elim 0 TreeNode.coins)
    let blocks ← checkedAdd (left.elim 0 TreeNode.blocks) (right.elim 0 TreeNode.blocks)
    return some ⟨coins, blocks,
      m.parent ctx (left.elim zero TreeNode.node) (right.elim zero TreeNode.node)⟩

/-- The leaf of a block, absent without coins. -/
def leafOf (entry : ℕ × ℕ × Node) : Option (TreeNode Node) :=
  if entry.2.1 > 0 then some ⟨entry.2.1, 1, entry.2.2⟩ else none

/-- Put a block's leaf into the ordered map of leaves. -/
def insertLeaf (level : List (ℕ × Option (TreeNode Node))) (entry : ℕ × ℕ × Node) :
    Except QuilError (List (ℕ × Option (TreeNode Node))) :=
  if entry.1 ≥ 2 ^ LEVELS then .error invalid
  else if (level.lookup entry.1).isSome then .error invalid
  else .ok (level.orderedInsert (fun a b => a.1 ≤ b.1) (entry.1, leafOf entry))

def leafLevel (leaves : List (ℕ × ℕ × Node)) : Except QuilError (List (ℕ × Option (TreeNode Node))) :=
  leaves.foldlM insertLeaf []

def checkCap (stored : Nodes Node) : Except QuilError Unit := do
  match ← top stored with
  | some top => if top.blocks > MAX_NONEMPTY_BLOCKS then .error invalid else return ()
  | none => return ()

/-- The parents of one level's nodes, ascending as the nodes are. -/
def parents (m : Membership Node) (ctx : Bytes32) (level : ℕ) (nodes : List (ℕ × TreeNode Node)) :
    Except QuilError (List (ℕ × TreeNode Node)) := do
  let found ← (nodes.map fun n => n.1 / 2).dedup.mapM fun index => do
    let node ← parent m ctx level (nodes.lookup (2 * index)) (nodes.lookup (2 * index + 1))
    return node.map (index, ·)
  return found.reduceOption

/-- Write the nodes of one level. -/
def writeLevel (stored : Nodes Node) (level : ℕ) (nodes : List (ℕ × TreeNode Node)) : Nodes Node :=
  stored.writeAll (nodes.map fun n => ((level, n.1), n.2))

/-- Write a level's nodes and those of the `steps` levels above it; also the positions written. -/
def writeLevels (m : Membership Node) (ctx : Bytes32) :
    (level steps : ℕ) → List (ℕ × TreeNode Node) → Nodes Node →
      Except QuilError (Nodes Node × List (ℕ × ℕ))
  | level, 0, nodes, stored => .ok (writeLevel stored level nodes, nodes.map fun n => (level, n.1))
  | level, steps + 1, nodes, stored => do
    let above ← parents m ctx level nodes
    let (stored, kept) ←
      writeLevels m ctx (level + 1) steps above (writeLevel stored level nodes)
    return (stored, nodes.map (fun n => (level, n.1)) ++ kept)

/-- Make the tree exactly these blocks `(block, coins, root)`: every other stored node is cleared. -/
def replace (m : Membership Node) (ctx : Bytes32) (stored : Nodes Node)
    (leaves : List (ℕ × ℕ × Node)) : Except QuilError (Nodes Node) := do
  let stale ← storedPositions stored LEVELS 0
  let level ← leafLevel leaves
  let nodes := level.filterMap fun entry => entry.2.map (entry.1, ·)
  let (written, kept) ← writeLevels m ctx 0 LEVELS nodes stored
  let dropped := (stale.map fun p => (p.1, p.2.1)).filter fun position => position ∉ kept
  let cleared := dropped.foldl Store.clear written
  checkCap cleared
  return cleared

/-- Sorted `(block, coins, root)` of the non-empty blocks: the flat summary (`roots.rs`), which is
    read only if it is ascending and within the cap. -/
structure BlockSummary (Node : Type) where
  blocks : List (ℕ × ℕ × Node)
  ascending : Ascending blocks
  capped : blocks.length ≤ MAX_NONEMPTY_BLOCKS

def BlockSummary.coins (summary : BlockSummary Node) : ℕ := (summary.blocks.map fun e => e.2.1).sum

/-! ### The tree of a list of blocks -/

/-- Two nodes combined, as `parent` does where no count overflows. -/
def combine (m : Membership Node) (ctx : Bytes32) (a b : TreeNode Node) : TreeNode Node :=
  ⟨a.coins + b.coins, a.blocks + b.blocks, m.parent ctx a.node b.node⟩

/-- The subtree of an empty block. -/
def blank (m : Membership Node) (ctx : Bytes32) : TreeNode Node :=
  ⟨0, 0, m.zeros ctx SUBTREE_BITS⟩

/-- The leaves of the blocks that hold coins. -/
def leafNodes (blocks : List (ℕ × ℕ × Node)) : List (ℕ × TreeNode Node) :=
  blocks.filterMap fun e => (leafOf e).map (e.1, ·)

/-- The tree the blocks describe. -/
def treeOf (m : Membership Node) (ctx : Bytes32) (blocks : List (ℕ × ℕ × Node)) :
    ℕ → ℕ → Option (TreeNode Node) :=
  node (combine m ctx) (blank m ctx) (leaves (leafNodes blocks))

theorem leafNodes_eq (blocks : List (ℕ × ℕ × Node)) : leafNodes blocks =
    (blocks.filter fun e => e.2.1 > 0).map fun e => (e.1, ⟨e.2.1, 1, e.2.2⟩) := by
  induction blocks with
  | nil => rfl
  | cons e blocks ih =>
    rw [leafNodes, filterMap_cons, ← leafNodes, ih, leafOf, filter_cons]
    split_ifs with hc hc' hc'
    · rfl
    · exact absurd (by simpa using hc) hc'
    · exact absurd (by simpa using hc') hc
    · rfl

theorem mem_leafNodes {blocks : List (ℕ × ℕ × Node)} {block : ℕ} {leaf : TreeNode Node} :
    (block, leaf) ∈ leafNodes blocks ↔
      leaf.blocks = 1 ∧ 0 < leaf.coins ∧ (block, leaf.coins, leaf.node) ∈ blocks := by
  rw [leafNodes_eq, mem_map]
  constructor
  · rintro ⟨⟨b, c, r⟩, hmem, heq⟩
    cases heq
    exact ⟨rfl, by simpa using (mem_filter.1 hmem).2, (mem_filter.1 hmem).1⟩
  · rintro ⟨hone, hpos, hmem⟩
    refine ⟨_, mem_filter.2 ⟨hmem, by simpa using hpos⟩, ?_⟩
    rw [← hone]

theorem ascending_leafNodes {blocks : List (ℕ × ℕ × Node)} (h : Ascending blocks) : Ascending (leafNodes blocks) := by
  rw [Ascending, leafNodes, pairwise_filterMap]
  refine h.imp fun {a b} hab x hx y hy => ?_
  obtain ⟨_, -, rfl⟩ := Option.map_eq_some_iff.1 hx
  obtain ⟨_, -, rfl⟩ := Option.map_eq_some_iff.1 hy
  exact hab

theorem zeros_combine (m : Membership Node) (ctx : Bytes32) (l : ℕ) :
    zeros (combine m ctx) (blank m ctx) l = ⟨0, 0, m.zeros ctx (SUBTREE_BITS + l)⟩ := by
  induction l with
  | zero => rfl
  | succ l ih => rw [zeros, ih]; rfl

section
variable {m : Membership Node} {ctx : Bytes32} {blocks : List (ℕ × ℕ × Node)}

/-- The value of a node is the node of the values. -/
theorem treeOf_node (l i : ℕ) : (treeOf m ctx blocks l i).map TreeNode.node =
    node (m.parent ctx) (m.zeros ctx SUBTREE_BITS) (leaves ((leafNodes blocks).map fun x => (x.1, x.2.node))) l i :=
  map_node_leaves TreeNode.node (fun _ _ => rfl) rfl _ l i

/-- A count that adds up along `combine` is the sum over the leaves under a node. -/
theorem treeOf_sum (h : Ascending blocks) (f : TreeNode Node → ℕ)
    (hcombine : ∀ a b, f (combine m ctx a b) = f a + f b) (hblank : f (blank m ctx) = 0)
    (l i : ℕ) : ((treeOf m ctx blocks l i).map f).getD 0 =
      (((leafNodes blocks).filter fun x => x.1 / 2 ^ l = i).map fun x => f x.2).sum := by
  have hkeyed : Keyed ((leafNodes blocks).map fun x => (x.1, f x.2)) := by
    simpa [Keyed, Function.comp_def] using (ascending_leafNodes h).keyed
  rw [treeOf, map_node_leaves f hcombine hblank, node_sum hkeyed, filter_map, map_map]
  rfl

theorem treeOf_succ (l i : ℕ) : treeOf m ctx blocks (l + 1) i =
    join (combine m ctx) ⟨0, 0, m.zeros ctx (SUBTREE_BITS + l)⟩
      (treeOf m ctx blocks l (2 * i)) (treeOf m ctx blocks l (2 * i + 1)) := by
  rw [← zeros_combine]
  rfl

/-- What `decode` checks of a node at a level. -/
def Valid (level : ℕ) (n : TreeNode Node) : Prop :=
  0 < n.blocks ∧ n.blocks ≤ 2 ^ level ∧ n.blocks ≤ n.coins

variable {level : ℕ} {n : TreeNode Node}

theorem decode_of_valid (hl : level ≤ LEVELS) (h : Valid level n) : n.decode level = .ok (some n) := by
  obtain ⟨hpos, hmax, hcoins⟩ := h
  rw [TreeNode.decode, if_neg (by omega), if_neg (by omega)]

/-- A joined node adds the counts of its children, and hashes their values. -/
theorem join_eq_some {z : Node} {left right : Option (TreeNode Node)}
    (h : join (combine m ctx) ⟨0, 0, z⟩ left right = some n) : (left.isNone && right.isNone) = false ∧
    n.coins = left.elim 0 TreeNode.coins + right.elim 0 TreeNode.coins ∧
    n.blocks = left.elim 0 TreeNode.blocks + right.elim 0 TreeNode.blocks ∧
    n.node = m.parent ctx (left.elim z TreeNode.node) (right.elim z TreeNode.node) := by
  rcases left with _ | a <;> rcases right with _ | b <;> cases h <;> exact ⟨rfl, rfl, rfl, rfl⟩

theorem treeOf_valid {l i : ℕ} (h : treeOf m ctx blocks l i = some n) : Valid l n := by
  refine node_induction (Q := Valid) (fun l i n hn => ?_) (fun l a b n ha hb hn => ?_) h
  · cases l with
    | succ l => exact absurd hn (by simp [leaves])
    | zero =>
      obtain ⟨hone, hpos, -⟩ := mem_leafNodes.1 (mem_of_lookup hn)
      exact ⟨by omega, by omega, by omega⟩
  rw [zeros_combine] at hn
  obtain ⟨hsome, hcoins, hblocks, -⟩ := join_eq_some hn
  rw [Valid, pow_succ, hcoins, hblocks]
  have hchild : ∀ c : Option (TreeNode Node), (∀ x ∈ c, Valid l x) →
      c.elim 0 TreeNode.blocks ≤ 2 ^ l ∧ c.elim 0 TreeNode.blocks ≤ c.elim 0 TreeNode.coins ∧
        (c.isNone = false → 0 < c.elim 0 TreeNode.blocks) := by
    rintro (_ | x) hx
    · simp
    · exact ⟨(hx x rfl).2.1, (hx x rfl).2.2, fun _ => (hx x rfl).1⟩
  obtain ⟨ha1, ha2, ha3⟩ := hchild a ha
  obtain ⟨hb1, hb2, hb3⟩ := hchild b hb
  refine ⟨?_, by omega, by omega⟩
  rcases Bool.and_eq_false_iff.1 hsome with h | h
  · have := ha3 h; omega
  · have := hb3 h; omega

/-- Total coins of the blocks. -/
def total (blocks : List (ℕ × ℕ × Node)) : ℕ := (blocks.map fun e => e.2.1).sum

theorem sum_leafNodes (blocks : List (ℕ × ℕ × Node)) :
    ((leafNodes blocks).map fun x => x.2.coins).sum = total blocks := by
  induction blocks with
  | nil => rfl
  | cons e blocks ih =>
    rw [total, map_cons, sum_cons, ← total, ← ih, leafNodes, filterMap_cons, leafOf]
    split_ifs with hc
    · rfl
    obtain hzero : e.2.1 = 0 := by omega
    rw [hzero, zero_add]
    rfl

theorem coins_le_total (h : Ascending blocks) {l i : ℕ}
    (hn : treeOf m ctx blocks l i = some n) : n.coins ≤ total blocks := by
  have hsum := @treeOf_sum _ m ctx _ h TreeNode.coins (fun _ _ => rfl) rfl l i
  rw [hn, Option.map_some, Option.getD_some] at hsum
  rw [hsum, ← sum_leafNodes]
  exact List.Sublist.sum_le_sum (filter_sublist.map _) fun _ _ => zero_le

/-- Where the counts fit, `parent` is `join`. -/
theorem parent_eq_join {left right : Option (TreeNode Node)}
    (hfit : ∀ n, join (combine m ctx) ⟨0, 0, m.zeros ctx (SUBTREE_BITS + level)⟩ left right =
      some n → n.coins < 2 ^ 64 ∧ n.blocks < 2 ^ 64) : parent m ctx level left right =
      .ok (join (combine m ctx) ⟨0, 0, m.zeros ctx (SUBTREE_BITS + level)⟩ left right) := by
  rcases hjoin : join (combine m ctx) ⟨0, 0, m.zeros ctx (SUBTREE_BITS + level)⟩ left right with _ | n
  · obtain ⟨rfl, rfl⟩ := join_eq_none.1 hjoin
    rfl
  obtain ⟨hsome, hcoins, hblocks, hnode⟩ := join_eq_some hjoin
  obtain ⟨hfitCoins, hfitBlocks⟩ := hfit n hjoin
  rw [parent, if_neg (by simp [hsome]), checkedAdd, if_pos (hcoins ▸ hfitCoins), ok_bind, checkedAdd,
    if_pos (hblocks ▸ hfitBlocks), ok_bind, ← hcoins, ← hblocks, ← hnode]
  rfl

/-- What `parent` returns is the joined node, and its counts fit. -/
theorem parent_of_ok {left right result : Option (TreeNode Node)} (h : parent m ctx level left right = .ok result) :
    result = join (combine m ctx) ⟨0, 0, m.zeros ctx (SUBTREE_BITS + level)⟩ left right ∧
      ∀ n ∈ result, n.coins < 2 ^ 64 ∧ n.blocks < 2 ^ 64 := by
  have hadd : ∀ {a b c : ℕ}, checkedAdd a b = .ok c → c = a + b ∧ a + b < 2 ^ 64 := by
    intro a b c hc
    rw [checkedAdd] at hc
    split at hc
    · next hlt =>
      cases hc
      exact ⟨rfl, hlt⟩
    · cases hc
  rw [parent] at h
  split at h
  · next hnone =>
    cases h
    rw [Bool.and_eq_true, Option.isNone_iff_eq_none, Option.isNone_iff_eq_none] at hnone
    rw [hnone.1, hnone.2]
    exact ⟨rfl, fun n hn => absurd hn (by simp)⟩
  next hsome =>
  obtain ⟨coins, hcoins, h⟩ := bind_ok h
  obtain ⟨blocks, hblocks, h⟩ := bind_ok h
  cases h
  obtain ⟨rfl, hc⟩ := hadd hcoins
  obtain ⟨rfl, hb⟩ := hadd hblocks
  refine ⟨?_, fun n hn => ?_⟩
  · rcases left with _ | a <;> rcases right with _ | b
    · exact absurd rfl hsome
    · rfl
    · rfl
    · rfl
  · cases Option.some.inj hn
    exact ⟨hc, hb⟩

variable {nodes : List (ℕ × TreeNode Node)}

/-- A parent exists only over a node of the level. -/
theorem mem_parentIndices (hnodes : ∀ i, nodes.lookup i = treeOf m ctx blocks level i) {i : ℕ}
    (hne : treeOf m ctx blocks (level + 1) i ≠ none) : i ∈ (nodes.map fun n => n.1 / 2).dedup := by
  rw [mem_dedup, mem_map]
  by_contra hall
  have hnone : ∀ i', i' / 2 = i → treeOf m ctx blocks level i' = none := by
    intro i' hi'
    rw [← hnodes, lookup_eq_none]
    exact fun x hx hxi => hall ⟨x, hx, by rw [hxi, hi']⟩
  rw [treeOf_succ, hnone _ (by omega), hnone _ (by omega)] at hne
  exact hne rfl

/-- The counts of a level's nodes fit their words. -/
def Fits (m : Membership Node) (ctx : Bytes32) (blocks : List (ℕ × ℕ × Node)) (level : ℕ) : Prop :=
  ∀ i n, treeOf m ctx blocks level i = some n → n.coins < 2 ^ 64 ∧ n.blocks < 2 ^ 64

theorem fits_of_total (h : Ascending blocks) (htotal : total blocks < 2 ^ 64)
    (hlevel : level ≤ LEVELS) : Fits m ctx blocks level := by
  intro i n hn
  have hpow : 2 ^ level ≤ 2 ^ 16 := Nat.pow_le_pow_right (by norm_num) hlevel
  have := coins_le_total h hn
  have := (treeOf_valid hn).2.1
  omega

/-- Parents that were all found have counts that fit. -/
theorem fits_of_parents {above : List (ℕ × TreeNode Node)}
    (hnodes : ∀ i, nodes.lookup i = treeOf m ctx blocks level i)
    (h : parents m ctx level nodes = .ok above) : Fits m ctx blocks (level + 1) := by
  intro i n hn
  obtain ⟨found, hfound, -⟩ := bind_ok h
  obtain ⟨node, hnode⟩ := exists_ok_of_mapM hfound i (mem_parentIndices hnodes (by simp [hn]))
  obtain ⟨result, hresult, -⟩ := bind_ok hnode
  obtain ⟨heq, hfit⟩ := parent_of_ok hresult
  rw [hnodes, hnodes, ← treeOf_succ, hn] at heq
  exact hfit n heq

theorem parents_ok (hfit : Fits m ctx blocks (level + 1)) (hasc : Ascending nodes)
    (hnodes : ∀ i, nodes.lookup i = treeOf m ctx blocks level i) :
    ∃ above, parents m ctx level nodes = .ok above ∧ Ascending above ∧
      ∀ i, above.lookup i = treeOf m ctx blocks (level + 1) i := by
  have hparent : ∀ i ∈ (nodes.map fun n => n.1 / 2).dedup,
      (do
        let node ← parent m ctx level (nodes.lookup (2 * i)) (nodes.lookup (2 * i + 1))
        return node.map (i, ·)) =
        .ok ((treeOf m ctx blocks (level + 1) i).map (i, ·)) := by
    intro i _
    rw [hnodes, hnodes, parent_eq_join, ← treeOf_succ]
    · rfl
    · exact fun n hn => hfit i n (by rw [treeOf_succ]; exact hn)
  have hindices : (nodes.map fun n => n.1 / 2).dedup.Pairwise (· < ·) := by
    have hle : (nodes.map fun n => n.1 / 2).Pairwise (· ≤ ·) :=
      pairwise_map.2 (hasc.imp fun hab => Nat.div_le_div_right hab.le)
    exact ((hle.sublist (dedup_sublist _)).and (nodup_dedup _)).imp fun hab => lt_of_le_of_ne hab.1 hab.2
  refine ⟨_, ?_, ascending_filterMap hindices fun i => mem_parentIndices hnodes⟩
  rw [parents, mapM_ok hparent, ok_bind, reduceOption_map_eq]
  rfl

/-! ### The walk and the writes -/

/-- A stored tree: every record passes its check, and has a stored parent. -/
structure WellStored (stored : Nodes Node) : Prop where
  valid : ∀ l i n, stored (l, i) = some n → l ≤ LEVELS ∧ i < 2 ^ (LEVELS - l) ∧ Valid l n
  rooted : ∀ l i, l < LEVELS → stored (l, i) ≠ none → stored (l + 1, i / 2) ≠ none

theorem wellStored_empty : WellStored (.empty : Nodes Node) :=
  ⟨fun _ _ _ h => (Option.some_ne_none _ h.symm).elim, fun _ _ _ h => (h rfl).elim⟩

variable {stored : Nodes Node}

/-- A position whose record passes its check is read back. -/
theorem readNode_of_valid {l i : ℕ} (hl : l ≤ LEVELS) (hi : i < 2 ^ (LEVELS - l))
    (h : ∀ n, stored (l, i) = some n → Valid l n) : readNode stored l i = .ok (stored (l, i)) := by
  rw [readNode, if_neg (by omega)]
  cases hs : stored (l, i) with
  | none => rfl
  | some n => exact decode_of_valid hl (h n hs)

theorem WellStored.readNode (h : WellStored stored) {l i : ℕ} (hl : l ≤ LEVELS)
    (hi : i < 2 ^ (LEVELS - l)) : readNode stored l i = .ok (stored (l, i)) :=
  readNode_of_valid hl hi fun n hs => (h.valid l i n hs).2.2

/-- Above a stored node every position is stored. -/
theorem WellStored.under (h : WellStored stored) {m j l i : ℕ}
    (hu : Under m j l i) (hl : l ≤ LEVELS) (hne : stored (m, j) ≠ none) : stored (l, i) ≠ none := by
  induction l generalizing i with
  | zero =>
    obtain ⟨hm, rfl⟩ := hu
    obtain rfl : m = 0 := by omega
    simpa using hne
  | succ l ih =>
    rcases under_succ.1 hu with ⟨rfl, rfl⟩ | hu | hu
    · exact hne
    · have := h.rooted l _ hl (ih hu (by omega))
      rwa [Nat.mul_div_cancel_left _ two_pos] at this
    · have := h.rooted l _ hl (ih hu (by omega))
      rwa [show (2 * i + 1) / 2 = i by omega] at this

theorem position_eq_iff {index l i : ℕ} {node n : TreeNode Node} (hs : stored (level, index) = some node) :
    (l, i, n) = (level, index, node) ↔ (l = level ∧ i = index) ∧ stored (l, i) = some n := by
  constructor
  · rintro ⟨⟩
    exact ⟨⟨rfl, rfl⟩, hs⟩
  · rintro ⟨⟨rfl, rfl⟩, hn⟩
    rw [Option.some.inj (hs.symm.trans hn)]

/-- The walk finds every stored node at or under its start. -/
theorem storedPositions_ok (h : WellStored stored) {index : ℕ}
    (hl : level ≤ LEVELS) (hi : index < 2 ^ (LEVELS - level)) :
    ∃ found, storedPositions stored level index = .ok found ∧
      ∀ l i n, (l, i, n) ∈ found ↔ Under l i level index ∧ stored (l, i) = some n := by
  induction level generalizing index with
  | zero =>
    rw [storedPositions, h.readNode hl hi, ok_bind]
    rcases hs : stored (0, index) with _ | node
    · refine ⟨[], rfl, fun l i n => ⟨fun hmem => (not_mem_nil hmem).elim, ?_⟩⟩
      rw [under_zero]
      rintro ⟨⟨rfl, rfl⟩, hn⟩
      cases hn.symm.trans hs
    refine ⟨[(0, index, node)], rfl, fun l i n => ?_⟩
    rw [under_zero, mem_singleton, position_eq_iff hs]
  | succ level ih =>
    rw [storedPositions, h.readNode hl hi, ok_bind]
    rcases hs : stored (level + 1, index) with _ | node
    · refine ⟨[], rfl, fun l i n => ⟨fun hmem => (not_mem_nil hmem).elim, ?_⟩⟩
      rintro ⟨hu, hn⟩
      exact absurd hs (h.under hu hl (by simp [hn]))
    have hpow : 2 ^ (LEVELS - level) = 2 * 2 ^ (LEVELS - (level + 1)) := by
      rw [← pow_succ']
      congr 1; omega
    obtain ⟨left, hleft, hmemLeft⟩ := @ih (2 * index) (by omega) (by omega)
    obtain ⟨right, hright, hmemRight⟩ := @ih (2 * index + 1) (by omega) (by omega)
    refine ⟨(level + 1, index, node) :: (left ++ right), ?_, fun l i n => ?_⟩
    · dsimp only
      rw [hleft, ok_bind, hright, ok_bind]
      rfl
    rw [mem_cons, mem_append, hmemLeft, hmemRight, under_succ, position_eq_iff hs, or_and_right, or_and_right]

theorem writeLevel_eq (stored : Nodes Node) (level : ℕ)
    (h : Ascending nodes) (l i : ℕ) : writeLevel stored level nodes (l, i) =
      if l = level then (nodes.lookup i).or (stored (l, i)) else stored (l, i) := by
  have hkeyed : Keyed (nodes.map fun n => ((level, n.1), n.2)) := by
    have := (nodup_map_iff (Prod.mk_right_injective level)).2 h.keyed
    simpa [Keyed, Function.comp_def] using this
  rw [writeLevel]
  cases hlook : nodes.lookup i with
  | some n =>
    split_ifs with hl
    · refine Store.writeAll_of_mem _ hkeyed (mem_map.2 ⟨(i, n), mem_of_lookup hlook, ?_⟩)
      rw [hl]
    refine Store.writeAll_other _ _ fun kv hkv heq => hl ?_
    obtain ⟨n', -, rfl⟩ := mem_map.1 hkv
    exact (congrArg Prod.fst heq).symm
  | none =>
    rw [Option.none_or, ite_self]
    refine Store.writeAll_other _ _ fun kv hkv heq => ?_
    obtain ⟨n', hn', rfl⟩ := mem_map.1 hkv
    exact lookup_eq_none.1 hlook n' hn' (congrArg Prod.snd heq)

theorem mem_positions (hasc : Ascending nodes) (hnodes : ∀ i, nodes.lookup i = treeOf m ctx blocks level i)
    {l i : ℕ} : (l, i) ∈ nodes.map (fun n => (level, n.1)) ↔ l = level ∧ treeOf m ctx blocks l i ≠ none := by
  rw [mem_map]
  constructor
  · rintro ⟨⟨i', n⟩, hmem, heq⟩
    cases heq
    rw [← hnodes, (lookup_eq_some hasc.keyed).2 hmem]
    exact ⟨rfl, Option.some_ne_none _⟩
  · rintro ⟨rfl, hne⟩
    obtain ⟨n, hn⟩ := Option.ne_none_iff_exists'.1 hne
    exact ⟨(i, n), mem_of_lookup ((hnodes i).trans hn), rfl⟩

/-- Writing from a level up stores the tree's nodes from there on, and leaves the rest. -/
theorem writeLevels_ok (steps : ℕ) (hfit : ∀ l, level < l → l ≤ level + steps → Fits m ctx blocks l)
    (hasc : Ascending nodes) (hnodes : ∀ i, nodes.lookup i = treeOf m ctx blocks level i) (stored : Nodes Node) :
    ∃ written kept, writeLevels m ctx level steps nodes stored = .ok (written, kept) ∧ (∀ l i, written (l, i) =
        if level ≤ l ∧ l ≤ level + steps then (treeOf m ctx blocks l i).or (stored (l, i))
        else stored (l, i)) ∧ ∀ l i, (l, i) ∈ kept ↔
        (level ≤ l ∧ l ≤ level + steps) ∧ treeOf m ctx blocks l i ≠ none := by
  induction steps generalizing level nodes stored with
  | zero =>
    refine ⟨_, _, rfl, fun l i => ?_, fun l i => ?_⟩
    · rw [writeLevel_eq _ _ hasc, hnodes]
      by_cases hl : l = level
      · simp [hl]
      · rw [if_neg hl, if_neg (by omega)]
    · rw [mem_positions hasc hnodes, add_zero, and_comm (a := level ≤ l), ← le_antisymm_iff]
  | succ steps ih =>
    obtain ⟨above, habove, hascAbove, hnodesAbove⟩ := parents_ok (hfit _ (by omega) (by omega)) hasc
      hnodes
    obtain ⟨written, kept, hwrite, hwritten, hkept⟩ :=
      ih (fun l hl hl' => hfit l (by omega) (by omega)) hascAbove hnodesAbove (writeLevel stored level nodes)
    refine ⟨written, nodes.map (fun n => (level, n.1)) ++ kept, ?_, fun l i => ?_, fun l i => ?_⟩
    · rw [writeLevels, habove, ok_bind, hwrite]
      rfl
    · rw [hwritten, writeLevel_eq _ _ hasc, hnodes]
      by_cases hl : l = level
      · rw [if_neg (by omega), if_pos hl, if_pos (by omega), hl]
      · rw [if_neg hl]
        exact if_congr (by omega) rfl rfl
    · rw [mem_append, mem_positions hasc hnodes, hkept, ← or_and_right]
      exact and_congr_left fun _ => by omega

/-- Writes that all succeed are of levels whose counts fit. -/
theorem fits_of_writeLevels {steps : ℕ} {written : Nodes Node} {kept : List (ℕ × ℕ)} (hasc : Ascending nodes)
    (hnodes : ∀ i, nodes.lookup i = treeOf m ctx blocks level i)
    (h : writeLevels m ctx level steps nodes stored = .ok (written, kept)) :
    ∀ l, level < l → l ≤ level + steps → Fits m ctx blocks l := by
  induction steps generalizing level nodes stored written kept with
  | zero => exact fun l hl hl' => absurd hl (by omega)
  | succ steps ih =>
    obtain ⟨above, habove, h⟩ := bind_ok h
    obtain ⟨⟨written', kept'⟩, hrest, -⟩ := bind_ok h
    have hfit := fits_of_parents hnodes habove
    obtain ⟨above', habove', hascAbove, hnodesAbove⟩ := parents_ok hfit hasc hnodes
    cases habove.symm.trans habove'
    intro l hl hl'
    rcases Nat.eq_or_lt_of_le hl with rfl | hlt
    · exact hfit
    · exact ih hascAbove hnodesAbove hrest l hlt (by omega)

theorem orderedInsert_last {V : Type} {level : List (ℕ × V)} {entry : ℕ × V} (h : ∀ x ∈ level, x.1 < entry.1) :
    level.orderedInsert (fun a b => a.1 ≤ b.1) entry = level ++ [entry] := by
  induction level with
  | nil => rfl
  | cons a level ih =>
    have ha := h a mem_cons_self
    rw [orderedInsert_cons, if_neg (by omega), ih fun x hx => h x (mem_cons_of_mem _ hx)]
    rfl

theorem foldlM_insertLeaf (h : Ascending blocks) (hrange : ∀ e ∈ blocks, e.1 < 2 ^ LEVELS)
    {level : List (ℕ × Option (TreeNode Node))} (hlt : ∀ x ∈ level, ∀ e ∈ blocks, x.1 < e.1) :
    blocks.foldlM insertLeaf level = .ok (level ++ blocks.map fun e => (e.1, leafOf e)) := by
  induction blocks generalizing level with
  | nil => simp
  | cons e blocks ih =>
    obtain ⟨hfirst, hasc⟩ := ascending_cons.1 h
    have hnew : ∀ x ∈ level, x.1 < e.1 := fun x hx => hlt x hx e mem_cons_self
    have hnone : level.lookup e.1 = none := lookup_eq_none.2 fun x hx => (hnew x hx).ne
    have hinsert : insertLeaf level e = .ok (level ++ [(e.1, leafOf e)]) := by
      rw [insertLeaf, if_neg (not_le.2 (hrange e mem_cons_self)), hnone, if_neg (by simp), orderedInsert_last hnew]
    rw [foldlM_cons, hinsert, ok_bind, ih hasc fun x hx => hrange x (mem_cons_of_mem _ hx)]
    · simp
    intro x hx y hy
    rcases mem_append.1 hx with hx | hx
    · exact hlt x hx y (mem_cons_of_mem _ hy)
    · obtain rfl := mem_singleton.1 hx
      exact hfirst y hy

theorem treeOf_range (hrange : ∀ e ∈ blocks, e.1 < 2 ^ LEVELS) {l i : ℕ} (hl : l ≤ LEVELS)
    (hne : treeOf m ctx blocks l i ≠ none) : i < 2 ^ (LEVELS - l) := by
  by_contra hge
  refine hne (node_eq_none.2 fun k j hu => ?_)
  cases k with
  | succ k => rfl
  | zero =>
    refine lookup_eq_none.2 fun x hx hxj => hge ?_
    have hlt : j < 2 ^ LEVELS := hxj ▸ hrange _ (mem_leafNodes.1 hx).2.2
    obtain ⟨-, rfl⟩ := hu
    rwa [Nat.sub_zero, Nat.div_lt_iff_lt_mul (Nat.two_pow_pos l), ← pow_add, Nat.sub_add_cancel hl]

theorem treeOf_rooted {l i : ℕ} (hne : treeOf m ctx blocks l i ≠ none) :
    treeOf m ctx blocks (l + 1) (i / 2) ≠ none := by
  intro hnone
  rw [treeOf_succ, join_eq_none] at hnone
  rcases Nat.mod_two_eq_zero_or_one i with hi | hi
  · exact hne (by rw [show i = 2 * (i / 2) by omega]; exact hnone.1)
  · exact hne (by rw [show i = 2 * (i / 2) + 1 by omega]; exact hnone.2)

theorem blocks_le_length (h : Ascending blocks) {l i : ℕ}
    (hn : treeOf m ctx blocks l i = some n) : n.blocks ≤ blocks.length := by
  have hsum := @treeOf_sum _ m ctx _ h TreeNode.blocks (fun _ _ => rfl) rfl l i
  have hone : ∀ x ∈ (leafNodes blocks).filter fun x => x.1 / 2 ^ l = i, x.2.blocks = 1 := fun x hx =>
    (mem_leafNodes.1 (mem_of_mem_filter hx)).1
  rw [hn, Option.map_some, Option.getD_some, map_congr_left hone, map_const',
    sum_replicate, smul_eq_mul, mul_one] at hsum
  rw [hsum]
  exact (length_filter_le _ _).trans (length_filterMap_le _ _)

/-- A store that is the tree of some blocks is well formed, and within the cap. -/
theorem wellStored_of_treeOf (hrange : ∀ e ∈ blocks, e.1 < 2 ^ LEVELS)
    (hstored : ∀ l i, stored (l, i) = if l ≤ LEVELS then treeOf m ctx blocks l i else none) : WellStored stored := by
  refine ⟨fun l i n hn => ?_, fun l i hl hne => ?_⟩
  · rw [hstored] at hn
    split_ifs at hn with hl
    have hne : treeOf m ctx blocks l i ≠ none := by simp [hn]
    exact ⟨hl, treeOf_range hrange hl hne, treeOf_valid hn⟩
  rw [hstored, if_pos hl.le] at hne
  rw [hstored, if_pos (by omega)]
  exact treeOf_rooted hne

theorem checkCap_ok (h : Ascending blocks) (hcap : blocks.length ≤ MAX_NONEMPTY_BLOCKS) (hwell : WellStored stored)
    (htop : stored (LEVELS, 0) = treeOf m ctx blocks LEVELS 0) : checkCap stored = .ok () := by
  rw [checkCap, top, hwell.readNode le_rfl (by simp), ok_bind, htop]
  rcases hn : treeOf m ctx blocks LEVELS 0 with _ | n
  · rfl
  have := blocks_le_length h hn
  dsimp only
  rw [if_neg (by omega)]
  rfl

/-- What `replace` makes of the blocks' leaves before it checks the cap: exactly their tree, whatever
    well-formed tree was stored. -/
theorem replaced_eq (hstored : WellStored stored) (h : Ascending blocks) (hrange : ∀ e ∈ blocks, e.1 < 2 ^ LEVELS)
    (hfit : ∀ l, 0 < l → l ≤ LEVELS → Fits m ctx blocks l) {entries : List (ℕ × ℕ × Node)}
    {level : List (ℕ × Option (TreeNode Node))} (hlevel : leafLevel entries = .ok level)
    (hnodes : (level.filterMap fun entry => entry.2.map (entry.1, ·)) = leafNodes blocks) :
    ∃ tree, replace m ctx stored entries = (do checkCap tree; return tree) ∧ WellStored tree ∧
      ∀ l i, tree (l, i) = if l ≤ LEVELS then treeOf m ctx blocks l i else none := by
  obtain ⟨stale, hstale, hmem⟩ := storedPositions_ok hstored le_rfl (by simp : 0 < 2 ^ (LEVELS - LEVELS))
  obtain ⟨written, kept, hwrite, hwritten, hkept⟩ := @writeLevels_ok _ m ctx blocks 0 _ LEVELS
    (fun l hl hl' => hfit l hl (by omega)) (ascending_leafNodes h) (fun _ => rfl) stored
  simp only [zero_le, true_and, zero_add] at hwritten hkept
  let dropped := (stale.map fun p => (p.1, p.2.1)).filter fun position => position ∉ kept
  have hdropped : ∀ l i, (l, i) ∈ dropped ↔
      stored (l, i) ≠ none ∧ ¬ (l ≤ LEVELS ∧ treeOf m ctx blocks l i ≠ none) := by
    intro l i
    rw [mem_filter, decide_eq_true_eq, hkept, mem_map]
    refine and_congr_left fun _ => ⟨?_, fun hne => ?_⟩
    · rintro ⟨⟨l', i', n⟩, hn, heq⟩
      cases heq
      rw [((hmem _ _ _).1 hn).2]
      exact Option.some_ne_none _
    obtain ⟨n, hn⟩ := Option.ne_none_iff_exists'.1 hne
    obtain ⟨hl, hi, -⟩ := hstored.valid l i n hn
    exact ⟨(l, i, n), (hmem _ _ _).2 ⟨⟨hl, Nat.div_eq_of_lt hi⟩, hn⟩, rfl⟩
  have htree : ∀ l i, dropped.foldl .clear written (l, i) =
      if l ≤ LEVELS then treeOf m ctx blocks l i else none := by
    intro l i
    rw [Store.foldl_clear, hwritten]
    rcases hs : stored (l, i) with _ | n
    · rw [if_neg (by simp [hdropped, hs]), Option.or_none]
    have hl := (hstored.valid l i n hs).1
    rw [if_pos hl, if_pos hl]
    cases ht : treeOf m ctx blocks l i with
    | none => rw [if_pos ((hdropped l i).2 (by simp [hs, ht]))]
    | some n' => rw [if_neg (by simp [hdropped, ht, hl]), Option.some_or]
  refine ⟨dropped.foldl .clear written, ?_, wellStored_of_treeOf hrange htree, htree⟩
  rw [replace, hstale, ok_bind, hlevel, ok_bind]
  dsimp only
  rw [hnodes, hwrite]
  rfl

/-- `replace` stores exactly the tree of the blocks, whatever well-formed tree was stored. -/
theorem replace_ok (hstored : WellStored stored) (h : Ascending blocks)
    (hrange : ∀ e ∈ blocks, e.1 < 2 ^ LEVELS) (hcap : blocks.length ≤ MAX_NONEMPTY_BLOCKS)
    (htotal : total blocks < 2 ^ 64) : ∃ tree, replace m ctx stored blocks = .ok tree ∧ WellStored tree ∧
      ∀ l ≤ LEVELS, ∀ i, tree (l, i) = treeOf m ctx blocks l i := by
  have hleaf : leafLevel blocks = .ok (blocks.map fun e => (e.1, leafOf e)) :=
    foldlM_insertLeaf h hrange fun x hx => (not_mem_nil hx).elim
  obtain ⟨tree, hreplace, hwell, htree⟩ := @replaced_eq _ m ctx _ _ hstored h hrange
    (fun l _ hl => fits_of_total h htotal hl) _ _ hleaf filterMap_map
  refine ⟨tree, ?_, hwell, fun l hl i => by rw [htree, if_pos hl]⟩
  rw [hreplace, checkCap_ok h hcap hwell (by rw [htree, if_pos le_rfl])]
  rfl

end

end Quil.SummaryTree
