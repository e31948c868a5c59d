import Quilibrium.Token.ShardAccumulator

/-! The application root does not depend on how the application is sharded. For a complete prefix-free sharding no
    shard of which is deeper than a non-empty block on its path, the positions the shards report are a CUT of the tree
    of all blocks: every block lies under exactly one of them. -/

namespace Quil.Sharding
open Schemes ShardedTree SummaryTree ShardAccumulator List
open CoinBlocks hiding invalid
open AccumulatorRecords (LEVELS)

variable {Node : Type}

/-- The subtrees `(width, shard path, root)` some shards' reports name. -/
def reportedSubtrees (reports : List (List Bool × Option (ShardReport Node))) :
    List (ℕ × List Bool × Node) :=
  reports.flatMap fun r => (r.2.elim [] ShardReport.subtrees).map fun t => (t.width, r.1, t.root)

/-- The coins some shards' reports count. -/
def reportedCoins (reports : List (List Bool × Option (ShardReport Node))) : ℕ :=
  (reports.map fun r => ((r.2.elim [] ShardReport.subtrees).map SubtreeReport.coins).sum).sum

/-- No shard is deeper than a non-empty block on its path. -/
def Shallow (shards : List (List Bool)) (blocks : List (ℕ × ℕ × Node)) : Prop :=
  ∀ shard ∈ shards, ∀ e ∈ blocks, 0 < e.2.1 → blockPath e.1 <+: shard → blockPath e.1 = shard

section
variable {m : Membership Node} {ctx : Bytes32} {blocks : List (ℕ × ℕ × Node)}
  {shards : List (List Bool)}

/-- A non-empty block has exactly one owner. -/
theorem exists_owner (hpart : Partition shards) (hshallow : Shallow shards blocks)
    {e : ℕ × ℕ × Node} (he : e ∈ blocks) (hcoins : 0 < e.2.1) :
    ∃ shard ∈ shards, ∀ shard' ∈ shards, shard' <+: blockPath e.1 ↔ shard' = shard := by
  -- a path under the block longer than every shard
  let q := blockPath e.1 ++ .replicate (shards.map length).sum false
  have hlong : ∀ p ∈ shards, p.length ≤ q.length := by
    intro p hp
    have := single_le_sum (fun _ _ => zero_le) _ (mem_map_of_mem (f := length) hp)
    rw [length_append, length_replicate]
    omega
  have hblock : blockPath e.1 <+: q := prefix_append _ _
  obtain ⟨shard, hs, honly⟩ := hpart.existsUnique q hlong
  have hown : shard <+: blockPath e.1 := by
    rcases prefix_or_prefix_of_prefix ((honly shard hs).2 rfl) hblock with h | h
    · exact h
    · rw [hshallow shard hs e he hcoins h]
  refine ⟨shard, hs, fun shard' hs' => ⟨fun h => (honly shard' hs').1 (h.trans hblock), ?_⟩⟩
  rintro rfl
  exact hown

/-- The position of a shard's subtree, by level above the block ids. -/
def Reported (m : Membership Node) (ctx : Bytes32) (blocks : List (ℕ × ℕ × Node))
    (shards : List (List Bool)) (level index : ℕ) : Prop :=
  ∃ shard ∈ shards, ∃ width ∈ widths, shard.length ≤ width ∧ level = width - shard.length ∧
    index = shardIndex shard ∧ treeOf m ctx blocks level index ≠ none

/-- The reported positions are an antichain. -/
theorem reported_antichain (hpart : Partition shards) {l i l' i' : ℕ} (h : Reported m ctx blocks shards l i)
    (h' : Reported m ctx blocks shards l' i') (hu : Under l i l' i') : l = l' := by
  obtain ⟨shard, hs, width, -, hd, rfl, rfl, -⟩ := h
  obtain ⟨shard', hs', width', -, hd', rfl, rfl, -⟩ := h'
  obtain ⟨rfl, hpre⟩ := (under_shardIndex hd hd').1 hu
  rw [eq_of_prefixFree hpart.prefixFree hs hs' (prefix_refl _) hpre]

/-- Every block lies under a reported position. -/
theorem reported_cover (halloc : Allocated blocks) (hpart : Partition shards) (hshallow : Shallow shards blocks)
    {l i : ℕ} {x : TreeNode Node} (hx : leaves (leafNodes blocks) l i = some x) :
    ∃ l' i', Reported m ctx blocks shards l' i' ∧ Under l i l' i' := by
  cases l with
  | succ l => cases hx
  | zero =>
    have hmem := mem_of_lookup hx
    obtain ⟨-, hpos, hblock⟩ := mem_leafNodes.1 hmem
    obtain ⟨shard, hs, howner⟩ := exists_owner hpart hshallow hblock hpos
    have hown := (howner shard hs).2 rfl
    have hd : shard.length ≤ creationWidth i := length_blockPath i ▸ hown.length_le
    have hdiv := (div_eq_shardIndex hd).2 ⟨halloc.ne_zero hblock, rfl, hown⟩
    refine ⟨_, _, ⟨shard, hs, _, halloc.mem_widths hblock, hd, rfl, rfl, fun hnone => ?_⟩, zero_le, hdiv⟩
    exact node_leaves_eq_none.1 hnone _ hmem hdiv

/-- The subtrees all shards report. -/
def allSubtrees (m : Membership Node) (ctx : Bytes32) (blocks : List (ℕ × ℕ × Node))
    (shards : List (List Bool)) : List (ℕ × List Bool × Node) :=
  shards.flatMap fun shard => (widths.filterMap (layerOf m ctx blocks shard)).map fun t => (t.width, shard, t.root)

theorem layerOf_eq_some {shard : List Bool} {width : ℕ} {t : SubtreeReport Node} :
    layerOf m ctx blocks shard width = some t ↔ t.width = width ∧ shard.length ≤ width ∧
      ∃ n, treeOf m ctx blocks (width - shard.length) (shardIndex shard) = some n ∧
        t.coins = n.coins ∧ t.root = n.node := by
  rw [layerOf]
  split_ifs with hd
  · rw [Option.map_eq_some_iff]
    constructor
    · rintro ⟨n, hn, rfl⟩
      exact ⟨rfl, hd, n, hn, rfl, rfl⟩
    · rintro ⟨rfl, -, n, hn, hcoins, hroot⟩
      exact ⟨n, hn, by rw [← hcoins, ← hroot]⟩
  · exact iff_of_false (by simp) fun h => hd h.2.1

theorem mem_allSubtrees {width : ℕ} {shard : List Bool} {root : Node} :
    (width, shard, root) ∈ allSubtrees m ctx blocks shards ↔ shard ∈ shards ∧ width ∈ widths ∧ shard.length ≤ width ∧
        (treeOf m ctx blocks (width - shard.length) (shardIndex shard)).map TreeNode.node = some root := by
  simp only [allSubtrees, mem_flatMap, mem_map, mem_filterMap, layerOf_eq_some, Option.map_eq_some_iff]
  constructor
  · rintro ⟨s, hs, t, ⟨w, hw, rfl, hd, n, hn, -, hroot⟩, heq⟩
    cases heq
    exact ⟨hs, hw, hd, n, hn, hroot.symm⟩
  · rintro ⟨hs, hw, hd, n, hn, rfl⟩
    exact ⟨shard, hs, ⟨width, n.coins, n.node⟩, ⟨width, hw, rfl, hd, n, hn, rfl, rfl⟩, rfl⟩

/-- The reported subtrees overlap nowhere. -/
theorem foldable_allSubtrees (hpart : Partition shards) : Foldable (allSubtrees m ctx blocks shards) where
  owned t ht := by
    obtain ⟨-, hw, hd, -⟩ := mem_allSubtrees.1 ht
    exact ⟨hw, hd⟩
  disjoint := by
    rw [allSubtrees, pairwise_flatMap]
    refine ⟨fun shard _ => ?_, hpart.prefixFree.imp fun {shard shard'} hapart => ?_⟩
    · rw [pairwise_map, pairwise_filterMap]
      refine widths_ascending.imp fun {width width'} hlt t ht t' ht' hover => hlt.ne ?_
      rw [← (layerOf_eq_some.1 ht).1, ← (layerOf_eq_some.1 ht').1]
      exact hover.1
    simp only [mem_map]
    rintro _ ⟨t, -, rfl⟩ _ ⟨t', -, rfl⟩ ⟨-, hpre | hpre⟩
    · exact hapart.1 hpre
    · exact hapart.2 hpre

/-- The reported subtrees are the tree's nodes at the cut. -/
theorem placement_allSubtrees (hpart : Partition shards) (l i : ℕ) : (Reported m ctx blocks shards l i →
      placement ((allSubtrees m ctx blocks shards).map placeOf) (SUBTREE_BITS + l) i =
        (treeOf m ctx blocks l i).map TreeNode.node) ∧ (¬ Reported m ctx blocks shards l i →
      placement ((allSubtrees m ctx blocks shards).map placeOf) (SUBTREE_BITS + l) i = none) := by
  constructor
  · rintro ⟨shard, hs, width, hw, hd, rfl, rfl, hne⟩
    obtain ⟨n, hn⟩ := Option.ne_none_iff_exists'.1 hne
    have hmem : (width, shard, n.node) ∈ allSubtrees m ctx blocks shards :=
      mem_allSubtrees.2 ⟨hs, hw, hd, by rw [hn]; rfl⟩
    rw [hn, placement, Option.map_some, lookup_eq_some (keyed_placedAt (foldable_allSubtrees hpart).clear _),
      mem_placedAt]
    exact mem_map_of_mem (f := placeOf) hmem
  · refine fun hnot => placement_eq_none fun root hroot => ?_
    obtain ⟨⟨width, shard, root⟩, hmem, heq⟩ := mem_map.1 hroot
    obtain ⟨hs, hw, hd, hn⟩ := mem_allSubtrees.1 hmem
    obtain ⟨hl, hi, -⟩ : SUBTREE_BITS + (width - shard.length) = SUBTREE_BITS + l ∧
        shardIndex shard = i ∧ _ := by simpa [placeOf] using heq
    obtain rfl : width - shard.length = l := by omega
    subst hi
    exact hnot ⟨shard, hs, width, hw, hd, rfl, rfl, fun hnone => by simp [hnone] at hn⟩

/-- The cut: the tree above the reported subtrees is the tree above the blocks. -/
theorem node_allSubtrees (halloc : Allocated blocks) (hpart : Partition shards) (hshallow : Shallow shards blocks) :
    node (m.parent ctx) m.zero (placement ((allSubtrees m ctx blocks shards).map placeOf))
      (SUBTREE_BITS + LEVELS) 0 = (treeOf m ctx blocks LEVELS 0).map TreeNode.node := by
  have hlow : ∀ l < SUBTREE_BITS, ∀ i,
      placement ((allSubtrees m ctx blocks shards).map placeOf) l i = none := by
    refine fun l hl i => placement_eq_none fun root hroot => ?_
    obtain ⟨t, -, heq⟩ := mem_map.1 hroot
    have := congrArg Prod.fst heq
    simp only [placeOf] at this
    omega
  rw [← node_lift hlow, treeOf_node]
  refine node_cut (C := Reported m ctx blocks shards)
    (fun l i h => ?_) (fun l i h => (placement_allSubtrees hpart l i).2 h)
    (fun l i l' i' h h' hu => reported_antichain hpart h h' hu) (fun l i hne => ?_) fun l i h hu => ?_
  · rw [(placement_allSubtrees hpart l i).1 h, treeOf_node]
    rfl
  · rw [← map_leaves] at hne
    obtain ⟨root, hroot⟩ := Option.ne_none_iff_exists'.1 hne
    obtain ⟨x, hx, -⟩ := Option.map_eq_some_iff.1 hroot
    exact reported_cover halloc hpart hshallow hx
  -- reports sit below the top
  obtain ⟨shard, -, width, hw, -, rfl, -⟩ := h
  have hmax := (mem_widths.1 hw).2
  have := hu.1
  simp only [LEVELS, BLOCK_INDEX_BITS, MAX_BLOCK_BITS] at *
  omega

/-- Folding the reported subtrees gives the root of the tree. -/
theorem fold_allSubtrees (halloc : Allocated blocks) (hpart : Partition shards) (hshallow : Shallow shards blocks) :
    foldApplicationRoot m ctx (allSubtrees m ctx blocks shards) =
      .ok (((treeOf m ctx blocks LEVELS 0).map TreeNode.node).getD (m.zeros ctx (SUBTREE_BITS + LEVELS))) := by
  rw [foldApplicationRoot_ok m ctx (foldable_allSubtrees hpart), node_allSubtrees halloc hpart hshallow]

/-- One shard's report counts the blocks it owns, one layer a width. -/
theorem sum_layers (hasc : Ascending blocks) (halloc : Allocated blocks) (shard : List Bool) :
    ((widths.filterMap (layerOf m ctx blocks shard)).map SubtreeReport.coins).sum =
      (((blocks.filter fun e => e.2.1 > 0).filter fun e => shardOwnsBlock shard e.1).map fun e => e.2.1).sum := by
  have hlayer : ∀ width ∈ widths, ((layerOf m ctx blocks shard width).map
      SubtreeReport.coins).getD 0 = ((((blocks.filter fun e => e.2.1 > 0).filter
        fun e => shardOwnsBlock shard e.1).filter fun e => creationWidth e.1 == width).map fun e => e.2.1).sum := by
    intro width _
    have heq : (((blocks.filter fun e => e.2.1 > 0).filter fun e => shardOwnsBlock shard e.1).filter
        fun e => creationWidth e.1 == width) = layerBlocks shard blocks width := by
      rw [filter_filter, filter_filter, layerBlocks]
      exact filter_congr fun e _ => by rw [Bool.and_comm, Bool.and_comm (creationWidth e.1 == width), Bool.and_assoc]
    rw [heq]
    rcases ht : layerOf m ctx blocks shard width with _ | t
    · rw [(layerOf_eq_none halloc).1 ht]; rfl
    obtain ⟨-, hd, n, hn, hcoins, -⟩ := layerOf_eq_some.1 ht
    rwa [layer_coins hasc halloc hd hn]
  have hone : ∀ e ∈ (blocks.filter fun e => e.2.1 > 0).filter fun e => shardOwnsBlock shard e.1,
      (widths.countP fun width => creationWidth e.1 == width) = 1 := by
    intro e he
    have he := (mem_filter.1 (mem_filter.1 he).1).1
    exact countP_eq_one (widths_ascending.imp fun hab => hab.ne) (halloc.mem_widths he)
      fun width _ => by rw [beq_iff_eq, eq_comm]
  rw [← sum_by_class widths _ (fun e => e.2.1) hone, ← map_congr_left hlayer]
  generalize widths = ws
  induction ws with
  | nil => rfl
  | cons w ws ih => cases ht : layerOf m ctx blocks shard w <;> simp [ht, ih]

/-- The reported coins are those of the blocks. -/
theorem sum_coins (hasc : Ascending blocks) (halloc : Allocated blocks) (hpart : Partition shards)
    (hshallow : Shallow shards blocks) : (shards.map fun shard => ((widths.filterMap (layerOf m ctx blocks shard)).map
      SubtreeReport.coins).sum).sum = total blocks := by
  simp only [sum_layers hasc halloc]
  have hone : ∀ e ∈ blocks.filter fun e => e.2.1 > 0,
      (shards.countP fun shard => shardOwnsBlock shard e.1) = 1 := by
    intro e he
    obtain ⟨he, hpos⟩ := mem_filter.1 he
    obtain ⟨shard, hs, honly⟩ := exists_owner hpart hshallow he (by simpa using hpos)
    refine countP_eq_one (hpart.prefixFree.imp fun {a b} hab => ?_) hs fun shard' hs' => by
      rw [shardOwnsBlock_iff, honly shard' hs']
    rintro rfl
    exact hab.1 (prefix_refl _)
  rw [sum_by_class shards _ (fun e => e.2.1) hone, ← sum_leafNodes, leafNodes_eq, map_map]
  rfl

/-- What a shard reports from its flat summary or from the tree of it. -/
theorem shardReport_flat {s : State Node} {summary : BlockSummary Node} (hs : legacySummary s = some summary)
    (halloc : Allocated summary.blocks) (htotal : summary.coins < 2 ^ 64) (shard : List Bool) (attest : Bool) :
    shardReport m ctx s shard attest = (do
      let held ← attested s shard attest
      return reportOf ctx (widths.filterMap (layerOf m ctx summary.blocks shard)) held) := by
  rw [shardReport, hs]
  simp only [reportFromSummary_ok halloc htotal]
  rfl

theorem shardReport_tree {s : State Node} (hs : legacySummary s = none) (hwell : WellStored s.nodes)
    (hstored : ∀ l ≤ LEVELS, ∀ i, s.nodes (l, i) = treeOf m ctx blocks l i) (shard : List Bool) (attest : Bool) :
    shardReport m ctx s shard attest = (do
      let held ← attested s shard attest
      return reportOf ctx (widths.filterMap (layerOf m ctx blocks shard)) held) := by
  have hlayers : widths.mapM (storedLayer s.nodes shard) =
      .ok (widths.map (layerOf m ctx blocks shard)) :=
    mapM_ok fun width hw => storedLayer_ok hwell hstored hw
  rw [shardReport, hs, hlayers]
  simp only [ok_bind, reduceOption_map_eq]

theorem subtrees_reportOf (ctx : Bytes32) (subtrees : List (SubtreeReport Node)) (held : List BlockAttestation) :
    (reportOf ctx subtrees held).elim [] ShardReport.subtrees = subtrees := by
  rw [reportOf]
  split_ifs with h
  · exact (isEmpty_iff.1 (Bool.and_eq_true _ _ ▸ h).1).symm
  · rfl

theorem reported_zip (held : List Bool → List BlockAttestation) (subtrees : List Bool → List (SubtreeReport Node)) :
    reportedSubtrees (shards.zip (shards.map fun shard => reportOf ctx (subtrees shard) (held shard))) =
        shards.flatMap (fun shard => (subtrees shard).map fun t => (t.width, shard, t.root)) ∧
      reportedCoins (shards.zip (shards.map fun shard => reportOf ctx (subtrees shard) (held shard))) =
        (shards.map fun shard => ((subtrees shard).map SubtreeReport.coins).sum).sum := by
  rw [← map_prod_left_eq_zip, reportedSubtrees, reportedCoins, flatMap_map, map_map]
  simp only [Function.comp_def, subtrees_reportOf, and_self]

theorem root_ok {stored : Nodes Node} (hwell : WellStored stored)
    (hstored : ∀ l ≤ LEVELS, ∀ i, stored (l, i) = treeOf m ctx blocks l i) : root m ctx stored =
      .ok (((treeOf m ctx blocks LEVELS 0).map TreeNode.node).getD (m.zeros ctx (SUBTREE_BITS + LEVELS))) := by
  rw [root, top, hwell.readNode le_rfl (by simp), hstored _ le_rfl, ok_bind]
  cases treeOf m ctx blocks LEVELS 0 <;> rfl

end

/-- The application root is the same however the application is sharded: the flat summary's tree can
    be built, every shard reports the same from either, the reports of a complete prefix-free sharding
    fold to the tree's root, and they count all its coins. -/
theorem root_independent_of_sharding (m : Membership Node) (ctx : Bytes32) (s : State Node)
    (summary : BlockSummary Node) (hs : legacySummary s = some summary) (hwell : WellStored s.nodes)
    (halloc : Allocated summary.blocks) (htotal : summary.coins < 2 ^ 64)
    (shards : List (List Bool)) (hpart : Partition shards) (hshallow : Shallow shards summary.blocks)
    (attest : Bool) (hread : ∀ shard ∈ shards, ∃ held, attested s shard attest = .ok held) :
    ∃ t, upgrade m ctx s = .ok (t, true) ∧
      (∀ shard attest, shardReport m ctx t shard attest = shardReport m ctx s shard attest) ∧
      ∃ reports root, shards.mapM (fun shard => shardReport m ctx t shard attest) = .ok reports ∧
        foldApplicationRoot m ctx (reportedSubtrees (shards.zip reports)) = .ok root ∧
        SummaryTree.root m ctx t.nodes = .ok root ∧
        reportedCoins (shards.zip reports) = summary.coins := by
  obtain ⟨nodes, hreplace, hwell', hnodes⟩ := @replace_ok _ m ctx _ _ hwell summary.ascending
    (fun e he => halloc.lt he) summary.capped htotal
  let t : State Node := { s with nodes := nodes, summary := some .moved }
  have hflat := @shardReport_flat _ m ctx _ _ hs halloc htotal
  have htree := @shardReport_tree _ m ctx _ t rfl hwell' hnodes
  choose! held hheld using hread
  obtain ⟨hsubtrees, hcoins⟩ := @reported_zip _ ctx shards held fun shard =>
    widths.filterMap (layerOf m ctx summary.blocks shard)
  refine ⟨t, ?_, fun shard attest => ?_, shards.map fun shard => reportOf ctx
    (widths.filterMap (layerOf m ctx summary.blocks shard)) (held shard),
    ((treeOf m ctx summary.blocks LEVELS 0).map TreeNode.node).getD
      (m.zeros ctx (SUBTREE_BITS + LEVELS)), ?_, ?_, root_ok hwell' hnodes, ?_⟩
  · rw [upgrade, hs]
    dsimp only
    rw [hreplace]
    rfl
  · rw [hflat, htree]
    rfl
  · refine mapM_ok fun shard hshard => ?_
    rw [htree, show attested t shard attest = .ok (held shard) from hheld shard hshard]
    rfl
  · rw [hsubtrees]
    exact fold_allSubtrees halloc hpart hshallow
  · rw [hcoins]
    exact sum_coins summary.ascending halloc hpart hshallow

/-! ### An application of three blocks -/

/-- Shards of different depths. -/
def unevenShards : List (List Bool) := [[false], [true, false], [true, true]]

theorem partition_uneven : Partition unevenShards where
  prefixFree := by simp [unevenShards, Apart]
  complete := by
    rintro (_ | ⟨_ | _, _ | ⟨_ | _, q⟩⟩) h
    · simp [unevenShards] at h
    · simp [unevenShards] at h
    · exact ⟨[false], by simp [unevenShards], by simp⟩
    · exact ⟨[false], by simp [unevenShards], by simp⟩
    · simp [unevenShards] at h
    · exact ⟨[true, false], by simp [unevenShards], by simp⟩
    · exact ⟨[true, true], by simp [unevenShards], by simp⟩

/-- Two blocks of width 6, in the first and the second shard, and one of width 7 in the third. -/
def threeBlocks : BlockSummary ℕ where
  blocks := [(64, 3, 7), (97, 2, 9), (255, 1, 4)]
  ascending := by simp [Ascending]
  capped := by decide

/-- A state that still holds the flat summary. -/
def flatState : State ℕ := ⟨Store.empty, some (.flat threeBlocks), Store.empty⟩

/-- A compression of numbers. -/
def plainMembership : Membership ℕ := ⟨0, fun _ left right => 3 * left + 5 * right + 1⟩

/-- The three reports fold to the root of the tree, and count six coins. -/
theorem uneven_shards_fold_to_root :
    ∃ t reports root, upgrade plainMembership 0 flatState = .ok (t, true) ∧
      unevenShards.mapM (fun shard => shardReport plainMembership 0 t shard true) = .ok reports ∧
      foldApplicationRoot plainMembership 0 (reportedSubtrees (unevenShards.zip reports)) = .ok root ∧
      SummaryTree.root plainMembership 0 t.nodes = .ok root ∧
      reportedCoins (unevenShards.zip reports) = 6 := by
  obtain ⟨t, hupgrade, -, reports, root, hreports, hfold, hroot, hcoins⟩ :=
    root_independent_of_sharding plainMembership 0 flatState threeBlocks rfl wellStored_empty
      (by unfold Allocated; decide) (by decide) unevenShards partition_uneven
      (by unfold Shallow; decide) true (by
        intro shard hshard
        fin_cases hshard <;> exact ⟨[], rfl⟩)
  exact ⟨t, reports, root, hupgrade, hreports, hfold, hroot, hcoins⟩

end Quil.Sharding
