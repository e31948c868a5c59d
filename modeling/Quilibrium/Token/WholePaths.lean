import Quilibrium.Token.CoinPaths

/-! In-shard paths and the paths of the folds, put together. The tree over all coins is the one model: its own
    `authPath` reads it, a shard's tree and a subtree's leaves are its part under one position, the shards'
    roots are its nodes at one level, and mixed reports are its nodes along a cut. -/

namespace Quil.ShardedTree
open Schemes List ShardedCoinTree Nat

variable {Node Commitment : Type}

/-- The leaves the coins take. -/
def coinLeaves (key : MembershipKey Node Commitment) (ctx : Bytes32)
    (coins : List (CoinRecord Commitment)) : List (ℕ × Node) :=
  coins.map fun coin => (coin.position, committedLeaf key ctx coin.owner coin.commitment)

/-- The tree over all coins. -/
def coinNode (key : MembershipKey Node Commitment) (ctx : Bytes32)
    (coins : List (CoinRecord Commitment)) : ℕ → ℕ → Node :=
  full (key.parent ctx) key.zero (leaves (coinLeaves key ctx coins))

/-- The coins a tree can be built from. -/
structure Buildable (shape : Shape) (coins : List (CoinRecord Commitment)) : Prop where
  shape_ok : shape.validate = .ok ()
  range : ∀ coin ∈ coins, coin.position < 2 ^ shape.depth
  positions : (coins.map (·.position)).Nodup
  addresses : (coins.map (·.address)).Nodup

variable {shape : Shape}

theorem validate_ok (h : shape.validate = .ok ()) : 0 < shape.subtreeBits ∧ shape.depth ≤ MAX_DEPTH := by
  rw [Shape.validate] at h
  split at h
  · cases h
  · omega

theorem splitPosition_eq {position bits : ℕ} (h : bits < 64) :
    splitPosition position bits = (position / 2 ^ bits, position % 2 ^ bits) := if_neg (by omega)

theorem subtreeBits_lt (h : shape.validate = .ok ()) : shape.subtreeBits < 64 := by
  obtain ⟨-, hdepth⟩ := validate_ok h
  rw [Shape.depth, MAX_DEPTH] at hdepth
  omega

/-- A position is of one of the shards exactly when it is within the tree. -/
theorem shard_lt_iff (h : shape.validate = .ok ()) (position : ℕ) :
    (splitPosition position shape.subtreeBits).1 < shape.shards ↔ position < 2 ^ shape.depth := by
  rw [splitPosition_eq (subtreeBits_lt h), Shape.shards, Shape.depth, pow_add]
  exact Nat.div_lt_iff_lt_mul (Nat.two_pow_pos _)

variable {coins : List (CoinRecord Commitment)}

theorem keyed_coinLeaves (key : MembershipKey Node Commitment) (ctx : Bytes32) :
    Keyed (coinLeaves key ctx coins) ↔ (coins.map (·.position)).Nodup := by
  rw [Keyed, coinLeaves, map_map]
  rfl

theorem addresses_distinct_iff (coins : List (CoinRecord Commitment)) :
    ((coins.map fun coin => (coin.address, coin.position)).map fun a => a.1.toNat).Nodup ↔
      (coins.map (·.address)).Nodup := by
  rw [map_map]
  change (coins.map (BitVec.toNat ∘ (·.address))).Nodup ↔ _
  rw [← map_map]
  exact nodup_map_iff fun _ _ => BitVec.eq_of_toNat_eq

/-- The index exists exactly when no address repeats, and finds every coin. -/
theorem addressIndex_ok (h : (coins.map (·.address)).Nodup) : ∃ index, addressIndex coins = .ok index ∧
      ∀ coin ∈ coins, index.lookup coin.address = some coin.position := by
  have hadjacent := (sortBy_distinct_iff _).2 ((addresses_distinct_iff coins).2 h)
  refine ⟨_, by rw [addressIndex, hadjacent]; rfl, fun coin hcoin => ?_⟩
  have hperm := perm_insertionSort (fun a b : Bytes32 × ℕ => a.1.toNat ≤ b.1.toNat)
    (coins.map fun coin => (coin.address, coin.position))
  have hkeyed : Keyed (coins.map fun coin => (coin.address, coin.position)) := by rwa [Keyed, map_map]
  rw [lookup_perm hkeyed hperm.symm, lookup_eq_some hkeyed]
  exact mem_map.2 ⟨coin, hcoin, rfl⟩

theorem addresses_of_index {index : List (Bytes32 × ℕ)}
    (h : addressIndex coins = .ok index) : (coins.map (·.address)).Nodup := by
  rw [addressIndex] at h
  split at h
  · cases h
  next hadjacent =>
  exact (addresses_distinct_iff coins).1 ((sortBy_distinct_iff _).1 (Bool.eq_false_iff.2 hadjacent))

theorem buildable_of_build {key : MembershipKey Node Commitment} {ctx : Bytes32} {tree : ShardedCoinTree Node}
    (h : build key ctx shape coins = .ok tree) : Buildable shape coins := by
  obtain ⟨⟨⟩, hshape, h⟩ := bind_ok h
  split at h
  · cases h
  next hrange =>
  obtain ⟨sorted, hsorted, h⟩ := bind_ok h
  obtain ⟨index, hindex, -⟩ := bind_ok h
  refine ⟨hshape, fun coin hcoin => ?_, (keyed_coinLeaves key ctx).1 (keyed_of_sortedLevel hsorted).1,
    addresses_of_index hindex⟩
  have := any_eq_false.1 (Bool.eq_false_iff.2 hrange) coin hcoin
  rw [← shard_lt_iff hshape]
  simpa using this

variable {level : ℕ}

section
variable (key : MembershipKey Node Commitment) (ctx : Bytes32)

/-- The whole tree's reads are the tree over all coins. -/
theorem pathFrom_eq {tree : ShardedCoinTree Node} {T : ℕ → ℕ → Node} (steps : ℕ) (index : ℕ)
    (h : ∀ l, l < level + steps → ∀ i, tree.node l i = T l i) :
    tree.pathFrom level index steps = .ofSteps (pathUp T level index steps) := by
  induction steps generalizing level index with
  | zero => rfl
  | succ steps ih =>
    rw [pathFrom, ih (index / 2) fun l hl => h l (by omega), h level (by omega)]
    rfl

theorem build_ok (h : Buildable shape coins) : ∃ tree, build key ctx shape coins = .ok tree ∧
      tree.root = coinNode key ctx coins shape.depth 0 ∧ ∀ coin ∈ coins, tree.authPath coin.address =
        .ok (.ofSteps (pathUp (coinNode key ctx coins) 0 coin.position shape.depth)) := by
  have hkeyed : Keyed (coinLeaves key ctx coins) := (keyed_coinLeaves key ctx).2 h.positions
  obtain ⟨sorted, hsorted, hasc, hperm⟩ := sortedLevel_ok hkeyed
  obtain ⟨index, hindex, hlookup⟩ := addressIndex_ok h.addresses
  have hrange : ¬ (coins.any fun coin =>
      decide ((splitPosition coin.position shape.subtreeBits).1 ≥ shape.shards)) = true := by
    rw [any_eq_true]
    rintro ⟨coin, hcoin, hge⟩
    exact absurd ((shard_lt_iff h.shape_ok _).2 (h.range coin hcoin)) (by simpa using hge)
  have hlevel : ∀ l, Ascending (foldTimes (key.parent ctx) (key.zeros ctx) sorted l) ∧ ∀ i,
      (foldTimes (key.parent ctx) (key.zeros ctx) sorted l).lookup i =
        Schemes.node (key.parent ctx) key.zero (leaves (coinLeaves key ctx coins)) l i := by
    intro l
    rw [← leaves_perm hkeyed hperm]
    exact foldTimes_spec (key.parent ctx) key.zero hasc l
  refine ⟨⟨key.zeros ctx, shape, (range (shape.depth + 1)).map
    (foldTimes (key.parent ctx) (key.zeros ctx) sorted), index⟩, ?_, ?_, fun coin hcoin => ?_⟩
  · rw [build, h.shape_ok, ok_bind, if_neg hrange]
    rw [coinLeaves] at hsorted
    rw [hsorted, ok_bind, hindex]
    rfl
  · have htop : ∀ i ≠ 0, (foldTimes (key.parent ctx) (key.zeros ctx) sorted shape.depth).lookup i = none := by
      intro i hi
      rw [(hlevel _).2, node_leaves_eq_none]
      intro x hx hdiv
      obtain ⟨coin, hcoin, rfl⟩ := mem_map.1 hx
      exact hi (hdiv ▸ div_eq_of_lt (h.range coin hcoin))
    rw [coinNode, full_eq_node, ← (hlevel _).2, root]
    simp only [getD_eq_getElem?_getD, getElem?_map, getElem?_range (lt_succ_self _),
      Option.map_some, Option.getD_some]
    rcases level_zero (hlevel _).1 htop with ⟨heq, -⟩ | ⟨n, heq, -⟩ <;> rw [heq] <;> rfl
  · rw [authPath, position, hlookup coin hcoin]
    refine congrArg _ (pathFrom_eq _ _ fun l hl i => ?_)
    have hl : l < shape.depth + 1 := by
      dsimp only at hl
      omega
    rw [coinNode, full_eq_node, ← (hlevel l).2, ShardedCoinTree.node]
    simp only [getD_eq_getElem?_getD, getElem?_map,
      getElem?_range hl, Option.map_some, Option.getD_some]
    rfl

end

/-! ### The part of one subtree -/

/-- The coins under a position. -/
def coinsUnder (level index : ℕ) (coins : List (CoinRecord Commitment)) : List (CoinRecord Commitment) :=
  coins.filter fun coin => (splitPosition coin.position level).1 = index

/-- The same with their positions counted within the subtree. -/
def localCoins (level index : ℕ) (coins : List (CoinRecord Commitment)) : List (CoinRecord Commitment) :=
  (coinsUnder level index coins).map fun coin => { coin with position := (splitPosition coin.position level).2 }

/-- The subtree's leaves in order. -/
def localLeaves (key : MembershipKey Node Commitment) (ctx : Bytes32) (level index : ℕ)
    (coins : List (CoinRecord Commitment)) : List (ℕ × Node) :=
  (coinLeaves key ctx (localCoins level index coins)).insertionSort fun a b => a.1 ≤ b.1

variable {index : ℕ} {coin : CoinRecord Commitment}

theorem mem_coinsUnder (hlevel : level < 64) :
    coin ∈ coinsUnder level index coins ↔ coin ∈ coins ∧ coin.position / 2 ^ level = index := by
  rw [coinsUnder, mem_filter, splitPosition_eq hlevel]
  simp

/-- Positions within a subtree stay distinct. -/
theorem nodup_localCoins (hlevel : level < 64) (index : ℕ) (h : (coins.map (·.position)).Nodup) :
    ((localCoins level index coins).map (·.position)).Nodup := by
  rw [localCoins, map_map, List.Nodup, pairwise_map]
  rw [List.Nodup, pairwise_map] at h
  refine (h.filter _).imp_of_mem fun {a b} ha hb hne heq => hne ?_
  have ha := ((mem_coinsUnder hlevel).1 ha).2
  have hb := ((mem_coinsUnder hlevel).1 hb).2
  simp only [Function.comp_apply, splitPosition_eq hlevel] at heq
  rw [← div_add_mod a.position (2 ^ level), ← div_add_mod b.position (2 ^ level), ha, hb, heq]

theorem range_localCoins (hlevel : level < 64) (index : ℕ) (coins : List (CoinRecord Commitment)) :
    ∀ coin ∈ localCoins level index coins, coin.position < 2 ^ level := by
  intro coin hcoin
  obtain ⟨coin, -, rfl⟩ := mem_map.1 hcoin
  simp only [splitPosition_eq hlevel]
  exact mod_lt _ (Nat.two_pow_pos level)

section
variable (key : MembershipKey Node Commitment) (ctx : Bytes32)

/-- A subtree's leaves are the tree's under its position. -/
theorem lookup_localCoins (hlevel : level < 64) (index : ℕ) (h : (coins.map (·.position)).Nodup) {j : ℕ}
    (hj : j < 2 ^ level) : (coinLeaves key ctx (localCoins level index coins)).lookup j =
      (coinLeaves key ctx coins).lookup (index * 2 ^ level + j) := by
  have hkeyed := (keyed_coinLeaves key ctx).2 h
  have hlocal := (keyed_coinLeaves key ctx).2 (nodup_localCoins hlevel index h)
  refine Option.ext fun n => ?_
  rw [lookup_eq_some hkeyed, lookup_eq_some hlocal]
  simp only [coinLeaves, localCoins, mem_map, Prod.mk.injEq]
  constructor
  · rintro ⟨_, ⟨coin, hcoin, rfl⟩, hpos, rfl⟩
    obtain ⟨hmem, hdiv⟩ := (mem_coinsUnder hlevel).1 hcoin
    refine ⟨coin, hmem, ?_, rfl⟩
    simp only [splitPosition_eq hlevel] at hpos
    rw [← hdiv, ← hpos, mul_comm, div_add_mod]
  · rintro ⟨coin, hmem, hpos, rfl⟩
    refine ⟨_, ⟨coin, (mem_coinsUnder hlevel).2 ⟨hmem, ?_⟩, rfl⟩, ?_, rfl⟩
    · rw [hpos, mul_comm, mul_add_div (Nat.two_pow_pos level), div_eq_of_lt hj, add_zero]
    · simp only [splitPosition_eq hlevel]
      rw [hpos, mul_comm, mul_add_mod, mod_eq_of_lt hj]

/-- The subtree's own root is the tree's node. -/
theorem coinNode_localCoins (hlevel : level < 64) (index : ℕ) (h : (coins.map (·.position)).Nodup) :
    coinNode key ctx (localCoins level index coins) level 0 = coinNode key ctx coins level index := by
  have hshift : full (key.parent ctx) key.zero
      (leaves (coinLeaves key ctx (localCoins level index coins))) level 0 = _ :=
    full_shift (fun j hj => lookup_localCoins key ctx hlevel index h hj) le_rfl (Nat.two_pow_pos _)
  simpa [coinNode] using hshift

/-- A path within the subtree is the lower part of the tree's. -/
theorem pathUp_localCoins (hlevel : level < 64) (h : (coins.map (·.position)).Nodup) (position : ℕ) :
    pathUp (coinNode key ctx (localCoins level (splitPosition position level).1 coins)) 0
        (splitPosition position level).2 level = pathUp (coinNode key ctx coins) 0 position level := by
  rw [splitPosition_eq hlevel]
  have hshift : pathUp (full (key.parent ctx) key.zero (leaves (coinLeaves key ctx
      (localCoins level (position / 2 ^ level) coins)))) 0 (position % 2 ^ level) level = _ :=
    pathUp_shift_index (fun j hj => lookup_localCoins key ctx hlevel (position / 2 ^ level) h hj)
      (mod_lt _ (Nat.two_pow_pos level))
  rwa [mul_comm, div_add_mod] at hshift

/-- A subtree without coins is the zero subtree. -/
theorem coinNode_of_none (h : ∀ coin ∈ coins, coin.position / 2 ^ level ≠ index) :
    coinNode key ctx coins level index = key.zeros ctx level := by
  have hnone : node (key.parent ctx) key.zero (leaves (coinLeaves key ctx coins)) level index = none := by
    refine node_leaves_eq_none.2 fun x hx => ?_
    obtain ⟨coin, hcoin, rfl⟩ := mem_map.1 hx
    exact h coin hcoin
  rw [coinNode, full_eq_node, hnone]
  rfl

theorem localLeaves_perm (level index : ℕ) (coins : List (CoinRecord Commitment)) :
    (coinLeaves key ctx (localCoins level index coins)).Perm (localLeaves key ctx level index coins) :=
  (perm_insertionSort _ _).symm

/-- What `subtreePaths` finds in a subtree: the tree's node, and the lower parts of the tree's paths. -/
theorem subtreePaths_localLeaves (hlevel : level ≤ MAX_DEPTH) (index : ℕ) (h : (coins.map (·.position)).Nodup)
    {targets : List ℕ} (htargets : ∀ t ∈ targets, ∃ coin ∈ localCoins level index coins, coin.position = t) :
    subtreePaths key.toMembership ctx level (localLeaves key ctx level index coins) targets =
      .ok (coinNode key ctx coins level index, targets.map fun t =>
        .ofSteps (pathUp (coinNode key ctx (localCoins level index coins)) 0 t level)) := by
  have hlevel' : level < 64 := lt_of_le_of_lt hlevel (by decide)
  have hkeyed := (keyed_coinLeaves key ctx).2 (nodup_localCoins hlevel' index h)
  have hperm := localLeaves_perm key ctx level index coins
  have hasc : Ascending (localLeaves key ctx level index coins) :=
    (adjacent_distinct_iff (pairwise_sortBy Prod.fst _)).1 ((sortBy_distinct_iff _).2 hkeyed)
  rw [subtreePaths_ok key.toMembership ctx hlevel hasc ?_ ?_, leaves_perm hkeyed hperm,
    ← coinNode_localCoins key ctx hlevel' index h]
  · rfl
  · intro x hx
    obtain ⟨coin, hcoin, rfl⟩ := mem_map.1 (hperm.mem_iff.2 hx)
    exact range_localCoins hlevel' index coins coin hcoin
  intro t ht hnone
  obtain ⟨coin, hcoin, rfl⟩ := htargets t ht
  refine lookup_eq_none.1 hnone _ (hperm.mem_iff.1 (mem_map.2 ⟨coin, hcoin, rfl⟩)) rfl

end

/-! ### Paths put together -/

/-- A fold's path continues the in-shard path of a coin, from whichever place that comes, to the whole one. -/
structure Continues (key : MembershipKey Node Commitment) (ctx : Bytes32)
    (coins : List (CoinRecord Commitment)) (coin : CoinRecord Commitment) (level : ℕ)
    (upper path : AuthPath Node) : Prop where
  /-- From the subtree's leaves alone, asked for any targets. -/
  subtree : ∀ targets, (∀ t ∈ targets, ∃ c ∈ localCoins level (splitPosition coin.position level).1 coins,
      c.position = t) → ∃ root paths,
    subtreePaths key.toMembership ctx level
      (localLeaves key ctx level (splitPosition coin.position level).1 coins) targets = .ok (root, paths) ∧
    ∀ j : ℕ, targets[j]? = some (splitPosition coin.position level).2 →
      ∃ inner : AuthPath Node, paths[j]? = some inner ∧ inner.append upper = path
  /-- From the shard's own tree. -/
  tree : level ≠ 0 → ∃ shardTree, ∃ inner : AuthPath Node,
    ShardedCoinTree.build key ctx ⟨0, level⟩
      (localCoins level (splitPosition coin.position level).1 coins) = .ok shardTree ∧
    shardTree.authPath coin.address = .ok inner ∧ inner.append upper = path

/-- The roots every shard with coins reports, and any others, in any order. -/
structure ShardRoots (key : MembershipKey Node Commitment) (ctx : Bytes32) (shape : Shape)
    (coins : List (CoinRecord Commitment)) (roots : List (ℕ × Node)) : Prop where
  keyed : Keyed roots
  range : ∀ x ∈ roots, x.1 < shape.shards
  root : ∀ x ∈ roots, subtreeRoot key ctx shape (coinsUnder shape.subtreeBits x.1 coins) = .ok x.2
  cover : ∀ coin ∈ coins, ∃ x ∈ roots, x.1 = (splitPosition coin.position shape.subtreeBits).1

/-- The roots of subtrees of any depths, none inside another, with every coin under one. -/
structure Reports (key : MembershipKey Node Commitment) (ctx : Bytes32) (depth : ℕ)
    (coins : List (CoinRecord Commitment)) (nodes : List (ℕ × ℕ × Node)) : Prop where
  range : InRange depth nodes
  clear : nodes.Pairwise Clear
  root : ∀ x ∈ nodes, ∃ paths, subtreePaths key.toMembership ctx x.1
    (localLeaves key ctx x.1 x.2.1 coins) [] = .ok (x.2.2, paths)
  cover : ∀ coin ∈ coins, ∃ x ∈ nodes, (splitPosition coin.position x.1).1 = x.2.1

variable {nodes : List (ℕ × ℕ × Node)}

section
variable (key : MembershipKey Node Commitment) (ctx : Bytes32)

section
variable (h : Buildable shape coins)
include h

/-- Any path from a coin's subtree up to the top, as the tree has it, continues the in-shard paths. -/
theorem continues_of_pathUp (hcoin : coin ∈ coins) (hlevel : level ≤ shape.depth) : Continues key ctx coins coin level
      (.ofSteps (pathUp (coinNode key ctx coins) level (coin.position / 2 ^ level) (shape.depth - level)))
      (.ofSteps (pathUp (coinNode key ctx coins) 0 coin.position shape.depth)) := by
  have hmax := (validate_ok h.shape_ok).2
  have hlevel' : level < 64 := lt_of_le_of_lt (hlevel.trans hmax) (by decide)
  have hwhole : (AuthPath.ofSteps (pathUp (coinNode key ctx coins) 0 coin.position level)).append
      (.ofSteps (pathUp (coinNode key ctx coins) level (coin.position / 2 ^ level) (shape.depth - level))) =
      .ofSteps (pathUp (coinNode key ctx coins) 0 coin.position shape.depth) := by
    rw [AuthPath.append_ofSteps]
    conv_rhs => rw [show shape.depth = level + (shape.depth - level) by omega, pathUp_add, zero_add]
  refine ⟨fun targets htargets => ?_, fun hne => ?_⟩
  · refine ⟨_, _, subtreePaths_localLeaves key ctx (hlevel.trans hmax) _ h.positions htargets,
      fun j hj => ⟨_, by rw [getElem?_map, hj]; rfl, ?_⟩⟩
    dsimp only
    rwa [pathUp_localCoins key ctx hlevel' h.positions]
  have hlocal : Buildable ⟨0, level⟩ (localCoins level (splitPosition coin.position level).1 coins) := by
    refine ⟨?_, ?_, nodup_localCoins hlevel' _ h.positions, ?_⟩
    · rw [Shape.validate, if_neg]
      simp only [Shape.depth] at hlevel hmax ⊢
      omega
    · simpa [Shape.depth] using range_localCoins hlevel' _ coins
    · rw [localCoins, map_map]
      exact h.addresses.sublist (filter_sublist.map _)
  obtain ⟨shardTree, hbuild, -, hpath⟩ := build_ok key ctx hlocal
  have hinner := hpath { coin with position := (splitPosition coin.position level).2 }
    (mem_map.2 ⟨coin, mem_filter.2 ⟨hcoin, by simp⟩, rfl⟩)
  refine ⟨shardTree, _, hbuild, hinner, ?_⟩
  have hdepth : (⟨0, level⟩ : Shape).depth = level := by simp [Shape.depth]
  dsimp only
  rwa [hdepth, pathUp_localCoins key ctx hlevel' h.positions]

/-- A shard's root from its own coins is the tree's node. -/
theorem subtreeRoot_ok (shard : ℕ) : subtreeRoot key ctx shape (coinsUnder shape.subtreeBits shard coins) =
      .ok (coinNode key ctx coins shape.subtreeBits shard) := by
  have hbits := subtreeBits_lt h.shape_ok
  have hrange : ∀ x ∈ coinLeaves key ctx (localCoins shape.subtreeBits shard coins), x.1 < 2 ^ shape.subtreeBits := by
    intro x hx
    obtain ⟨coin, hcoin, rfl⟩ := mem_map.1 hx
    exact range_localCoins hbits shard coins coin hcoin
  have hleaves : ((coinsUnder shape.subtreeBits shard coins).map fun coin =>
      ((splitPosition coin.position shape.subtreeBits).2, committedLeaf key ctx coin.owner coin.commitment)) =
      coinLeaves key ctx (localCoins shape.subtreeBits shard coins) := by
    rw [coinLeaves, localCoins, map_map]
    rfl
  have hfold : foldLevel (key.parent ctx) (key.zeros ctx) _ shape.subtreeBits = _ :=
    foldLevel_ok ((keyed_coinLeaves key ctx).2 (nodup_localCoins hbits shard h.positions)) hrange
  rw [subtreeRoot, h.shape_ok, ok_bind]
  dsimp only
  rw [hleaves, if_neg (by simpa using hrange), hfold, ← coinNode_localCoins key ctx hbits shard h.positions]
  rfl

/-- The shard roots are the tree's nodes at the shards' level, absent ones included. -/
theorem ShardRoots.lookup {roots : List (ℕ × Node)} (hroots : ShardRoots key ctx shape coins roots) (shard : ℕ) :
    (roots.lookup shard).getD (key.zeros ctx shape.subtreeBits) = coinNode key ctx coins shape.subtreeBits shard := by
  have hbits := subtreeBits_lt h.shape_ok
  rcases hlook : roots.lookup shard with _ | n
  · refine (coinNode_of_none key ctx fun coin hcoin heq => ?_).symm
    obtain ⟨x, hx, hxs⟩ := hroots.cover coin hcoin
    rw [splitPosition_eq hbits, heq] at hxs
    exact lookup_eq_none.1 hlook x hx hxs
  have hroot := hroots.root _ ((lookup_eq_some hroots.keyed).1 hlook)
  rw [subtreeRoot_ok key ctx h shard] at hroot
  exact (Except.ok.inj hroot).symm

theorem full_shardRoots {roots : List (ℕ × Node)} (hroots : ShardRoots key ctx shape coins roots) (level index : ℕ) :
    full (key.parent ctx) (key.zeros ctx shape.subtreeBits) (leaves roots) level index =
      coinNode key ctx coins (shape.subtreeBits + level) index :=
  full_lift (hroots.lookup key ctx h) (fun _ _ => rfl) level index

theorem Reports.placed (hnodes : Reports key ctx shape.depth coins nodes) {n : Node}
    (hn : placement nodes level index = some n) : n = coinNode key ctx coins level index := by
  have hmem := mem_of_placement hn
  have hmax := (validate_ok h.shape_ok).2
  obtain ⟨paths, hpaths⟩ := hnodes.root _ hmem
  rw [subtreePaths_localLeaves key ctx ((hnodes.range _ hmem).1.le.trans hmax) index h.positions (by simp)]
    at hpaths
  exact (congrArg Prod.fst (Except.ok.inj hpaths)).symm

/-- The reported subtrees are a cut of the tree: no value that is not strictly under one changes. -/
theorem full_reports (hnodes : Reports key ctx shape.depth coins nodes)
    (habove : ∀ k j, placement nodes k j ≠ none → Under level index k j → k = level) :
    full (key.parent ctx) key.zero (placement nodes) level index = coinNode key ctx coins level index := by
  refine full_cut (fun l i n hn => hnodes.placed key ctx h hn) (fun x hx => ?_) habove
  obtain ⟨coin, hcoin, rfl⟩ := mem_map.1 hx
  obtain ⟨⟨l, i, n⟩, hmem, hi⟩ := hnodes.cover coin hcoin
  have hl := (hnodes.range _ hmem).1.le.trans (validate_ok h.shape_ok).2
  rw [splitPosition_eq (lt_of_le_of_lt hl (by decide))] at hi
  refine ⟨l, i, ?_, zero_le, by simpa using hi⟩
  rw [placement, (lookup_eq_some (keyed_placedAt hnodes.clear l)).2 (mem_placedAt.2 hmem)]
  exact Option.some_ne_none n

end

/-- Nothing is placed above a sibling of a way that starts at a placed node. -/
theorem Reports.clear_siblings {depth : ℕ} (hnodes : Reports key ctx depth coins nodes) {x : ℕ × ℕ × Node}
    (hx : x ∈ nodes) (s : ℕ) {k j : ℕ} (hplaced : placement nodes k j ≠ none)
    (hunder : Under (x.1 + s) (x.2.1 / 2 ^ s ^^^ 1) k j) : k = x.1 + s := by
  by_contra hne
  obtain ⟨n, hn⟩ := Option.ne_none_iff_exists'.1 hplaced
  obtain ⟨hle, hdiv⟩ := hunder
  obtain ⟨t, rfl⟩ : ∃ t, k = x.1 + s + (t + 1) := ⟨k - (x.1 + s) - 1, by omega⟩
  have hself : Under x.1 x.2.1 (x.1 + s + (t + 1)) j := by
    refine ⟨by omega, ?_⟩
    rw [← hdiv, show x.1 + s + (t + 1) - (x.1 + s) = t + 1 by omega,
      show x.1 + s + (t + 1) - x.1 = s + (1 + t) by omega, pow_add, ← Nat.div_div_eq_div_mul,
      show t + 1 = 1 + t by omega, pow_add, pow_one, ← Nat.div_div_eq_div_mul, ← Nat.div_div_eq_div_mul,
      xor_one_div]
  have hdistinct : x ≠ (x.1 + s + (t + 1), j, n) := fun heq => by
    have := congrArg Prod.fst heq
    dsimp only at this
    omega
  exact (hnodes.clear.forall hx (mem_of_placement hn) hdistinct).1 hself

/-- Climbing a coin's whole path from its leaf gives the root. -/
theorem climb_coin (h : Buildable shape coins) (hcoin : coin ∈ coins) :
    climb (key.parent ctx) (committedLeaf key ctx coin.owner coin.commitment)
        (pathUp (coinNode key ctx coins) 0 coin.position shape.depth) = coinNode key ctx coins shape.depth 0 := by
  have hleaf : coinNode key ctx coins 0 coin.position = committedLeaf key ctx coin.owner coin.commitment := by
    have hkeyed := (keyed_coinLeaves key ctx).2 h.positions
    rw [coinNode, full, leaves, (lookup_eq_some hkeyed).2 (mem_map.2 ⟨coin, hcoin, rfl⟩)]
    rfl
  have htop : climb (key.parent ctx) (coinNode key ctx coins 0 coin.position)
      (pathUp (coinNode key ctx coins) 0 coin.position shape.depth) = _ :=
    climb_pathUp fun s _ => full_leaves_succ ..
  rw [← hleaf]
  rwa [zero_add, div_eq_of_lt (h.range coin hcoin)] at htop

/-- COMPOSITION: a coin's path in the whole tree leads from its leaf to the root the folds compute, and it is
    the in-shard path continued by the fold's path — over the roots of the shards and over mixed reports,
    whichever empty subtrees are reported. -/
theorem paths_compose {tree : ShardedCoinTree Node}
    (hbuild : ShardedCoinTree.build key ctx shape coins = .ok tree)
    {coin : CoinRecord Commitment} (hcoin : coin ∈ coins) :
    ∃ path, tree.authPath coin.address = .ok path ∧
      climb (key.parent ctx) (committedLeaf key ctx coin.owner coin.commitment)
        (path.siblings.zip path.right) = tree.root ∧
      (∀ owner, key.fromIdentityBytes coin.owner = some owner →
        rootFromPath key ctx owner coin.commitment path = .ok tree.root) ∧
      (∀ roots, ShardRoots key ctx shape coins roots →
        foldSubtreeRoots key.toMembership ctx shape roots = .ok tree.root ∧
        ∃ upper, foldAuthPath key.toMembership ctx shape roots
            (splitPosition coin.position shape.subtreeBits).1 = .ok upper ∧
          Continues key ctx coins coin shape.subtreeBits upper path) ∧
      (∀ nodes, Reports key ctx shape.depth coins nodes →
        foldSparse key.toMembership ctx shape.depth nodes = .ok tree.root ∧
        ∀ x ∈ nodes, (splitPosition coin.position x.1).1 = x.2.1 →
          ∃ upper, foldSparseAuthPath key.toMembership ctx shape.depth nodes (x.1, x.2.1) = .ok upper ∧
            Continues key ctx coins coin x.1 upper path) := by
  have h := buildable_of_build hbuild
  obtain ⟨hbits, hmax⟩ := validate_ok h.shape_ok
  obtain ⟨_, htree, hroot, hpath⟩ := build_ok key ctx h
  cases htree.symm.trans hbuild
  have hclimb := climb_coin key ctx h hcoin
  refine ⟨_, hpath coin hcoin, ?_, fun owner howner => ?_, fun roots hroots => ⟨?_, ?_⟩,
    fun nodes hnodes => ⟨?_, fun x hx hindex => ?_⟩⟩
  · rw [AuthPath.zip_ofSteps, hclimb, hroot]
  · rw [committedLeaf, howner] at hclimb
    have hlength : (pathUp (coinNode key ctx coins) 0 coin.position shape.depth).length = shape.depth :=
      length_pathUp ..
    rw [rootFromPath, if_neg (by simp [AuthPath.ofSteps, hlength, hmax]), AuthPath.zip_ofSteps, hclimb, hroot]
  · rw [foldSubtreeRoots_ok _ _ h.shape_ok hroots.keyed hroots.range, full_shardRoots key ctx h hroots,
      add_comm, hroot]
    rfl
  · have hshard := (shard_lt_iff h.shape_ok coin.position).2 (h.range coin hcoin)
    have hupper : pathUp (full (key.parent ctx) (key.zeros ctx shape.subtreeBits) (leaves roots)) 0
        (coin.position / 2 ^ shape.subtreeBits) shape.shardBits =
        pathUp (coinNode key ctx coins) shape.subtreeBits (coin.position / 2 ^ shape.subtreeBits)
          (shape.depth - shape.subtreeBits) := by
      rw [Shape.depth, Nat.add_sub_cancel, ← add_zero shape.subtreeBits,
        ← pathUp_shift (coinNode key ctx coins), add_zero]
      exact pathUp_congr fun s _ => full_shardRoots key ctx h hroots _ _
    refine ⟨_, foldAuthPath_ok _ _ h.shape_ok hroots.keyed hroots.range hshard, ?_⟩
    rw [splitPosition_eq (subtreeBits_lt h.shape_ok)]
    dsimp only
    rw [hupper]
    exact continues_of_pathUp key ctx h hcoin (le_add_left _ _)
  · have htop : full (key.parent ctx) key.zero (placement nodes) shape.depth 0 =
        coinNode key ctx coins shape.depth 0 := by
      refine full_reports key ctx h hnodes fun k j hplaced hunder => ?_
      obtain ⟨n, hn⟩ := Option.ne_none_iff_exists'.1 hplaced
      have hlt := (hnodes.range _ (mem_of_placement hn)).1
      have hle := hunder.1
      dsimp only at hlt
      omega
    rw [foldSparse_ok _ _ (by rw [Shape.depth]; omega) hmax hnodes.range hnodes.clear, hroot, ← htop,
      full_eq_node]
    rfl
  · have hlevel := (hnodes.range x hx).1
    refine ⟨_, foldSparseAuthPath_ok _ _ hmax hnodes.range hnodes.clear ⟨x, hx, rfl⟩, ?_⟩
    dsimp only
    rw [pathUp_congr fun s _ => full_reports key ctx h hnodes fun k j =>
      hnodes.clear_siblings key ctx hx s, ← hindex,
      splitPosition_eq (lt_of_le_of_lt (hlevel.le.trans hmax) (by decide))]
    exact continues_of_pathUp key ctx h hcoin hlevel.le

end

/-- A key over numbers, for concrete runs: an owner is canonical when it is one byte. -/
def pairingKey : MembershipKey ℕ ℕ where
  toMembership := pairing
  leaf _ owner commitment := 10 * owner + commitment
  fromIdentityBytes
    | [owner] => some owner.toNat
    | _ => none

/-- Two coins, one in each of two shards. -/
def coinPair : List (CoinRecord ℕ) := [⟨1, [5], 7, 2⟩, ⟨2, [6], 4, 1⟩]

/-- Their shards' roots, as the fold of the shards and as reports of one layer. -/
theorem coinPair_roots : ShardRoots pairingKey 0 ⟨1, 1⟩ coinPair [(0, 193), (1, 115)] ∧
    Reports pairingKey 0 2 coinPair [(1, 0, 193), (1, 1, 115)] := by
  have hcover : ∀ coin ∈ coinPair, ∃ x ∈ [(0, 193), (1, 115)], x.1 = (splitPosition coin.position 1).1 := by decide
  refine ⟨⟨by simp [Keyed], by decide, fun x hx => ?_, hcover⟩, ⟨by simp [InRange], by simp [Clear, Under],
    fun x hx => ?_, ?_⟩⟩
  · fin_cases hx <;> rfl
  · fin_cases hx <;> exact ⟨_, rfl⟩
  · decide

/-- The path of the coin in the second shard, over the shards' roots and over the reports. -/
theorem paths_compose_two : ∃ tree path,
    ShardedCoinTree.build pairingKey 0 ⟨1, 1⟩ coinPair = .ok tree ∧
    tree.authPath 1 = .ok path ∧
    rootFromPath pairingKey 0 5 7 path = .ok tree.root ∧
    (∃ upper, foldAuthPath pairing 0 ⟨1, 1⟩ [(0, 193), (1, 115)] 1 = .ok upper ∧
      Continues pairingKey 0 coinPair ⟨1, [5], 7, 2⟩ 1 upper path) ∧
    foldSparse pairing 0 2 [(1, 0, 193), (1, 1, 115)] = .ok tree.root := by
  have hcoin : (⟨1, [5], 7, 2⟩ : CoinRecord ℕ) ∈ coinPair := by decide
  have hbuild : build pairingKey 0 ⟨1, 1⟩ coinPair = .ok _ := rfl
  obtain ⟨path, hpath, -, hroot, hshards, hreports⟩ := paths_compose pairingKey 0 hbuild hcoin
  exact ⟨_, path, hbuild, hpath, hroot 5 rfl, (hshards _ coinPair_roots.1).2, (hreports _ coinPair_roots.2).1⟩

end Quil.ShardedTree
