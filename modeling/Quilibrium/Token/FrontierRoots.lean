import Quilibrium.Token.CoinTree

/-! The frontier REFINES the coin tree. The tree over the coins is the one of `WholePaths`; the layers of
    `CoinTree` hold its nodes, the frontier's slots after any number of appends are its pending subtrees, the
    nodes emitted on the way are its complete subtrees, and so the roots of the two agree at every depth and
    a path rebuilt from emitted nodes is the path cut from the layers. -/

namespace Quil.ShardedTree
open Schemes List CoinTree Nat

variable {Node Commitment : Type}

/-! ### Depths -/

/-- The least depth, at least one, that holds `count` leaves. -/
def LeastDepth (count depth : ℕ) : Prop :=
  1 ≤ depth ∧ count ≤ 2 ^ depth ∧ (depth = 1 ∨ 2 ^ (depth - 1) < count)

variable {count depth d : ℕ}

theorem LeastDepth.le (h : LeastDepth count depth) (hd : 1 ≤ d) (hroom : count ≤ 2 ^ d) : depth ≤ d := by
  obtain ⟨hone, -, rfl | hlt⟩ := h
  · exact hd
  · have := (Nat.pow_lt_pow_iff_right (by decide : 1 < 2)).1 (hlt.trans_le hroom)
    omega

theorem LeastDepth.unique {d' : ℕ} (h : LeastDepth count d) (h' : LeastDepth count d') : d = d' :=
  le_antisymm (h.le h'.1 h'.2.1) (h'.le h.1 h.2.1)

theorem leastDepth_from {steps : ℕ} (hone : 1 ≤ depth) (hlow : depth = 1 ∨ 2 ^ (depth - 1) < count)
    (hroom : count ≤ 2 ^ (depth + steps)) : LeastDepth count (depthFrom count steps depth) := by
  induction steps generalizing depth with
  | zero => exact ⟨hone, hroom, hlow⟩
  | succ steps ih =>
    rw [depthFrom]
    split
    · next hlt => exact ih (by omega) (.inr hlt) (by rwa [add_right_comm, add_assoc])
    · next hge => exact ⟨hone, Nat.le_of_not_lt hge, hlow⟩

theorem leastDepth_depthFor (h : count ≤ 2 ^ MAX_DEPTH) : LeastDepth count (depthFor count) :=
  leastDepth_from le_rfl (.inl rfl) h

/-- The layers above `width` nodes, from a layer above the leaves. -/
theorem countNodes_above {width nodes n : ℕ} (hdepth : 1 ≤ depth) (h : countNodes width nodes depth = .ok (n, d)) :
    ∃ k, d = depth + k ∧ width ≤ 2 ^ k ∧ (k = 0 ∨ 2 ^ (k - 1) < width) := by
  induction width, nodes, depth using countNodes.induct with
  | case1 width nodes depth hlimit =>
    rw [countNodes, if_pos hlimit] at h
    cases h
  | case2 width nodes depth hlimit hend =>
    rw [countNodes, if_neg hlimit, if_pos hend] at h
    cases h
    exact ⟨0, rfl, by simpa using hend.1, .inl rfl⟩
  | case3 width nodes depth hlimit hend ih =>
    rw [countNodes, if_neg hlimit, if_neg hend] at h
    obtain ⟨k, rfl, hwidth, hlow⟩ := ih (by omega) h
    refine ⟨k + 1, by omega, by rw [pow_succ]; omega, .inr ?_⟩
    rcases hlow with rfl | hlow
    · rw [zero_add]
      omega
    obtain ⟨k, rfl⟩ : ∃ j, k = j + 1 := by
      refine ⟨k - 1, ?_⟩
      by_contra hk
      obtain rfl : k = 0 := by omega
      omega
    rw [Nat.add_sub_cancel] at hlow ⊢
    rw [pow_succ]
    omega

theorem leastDepth_countNodes {nodes n : ℕ}
    (h : countNodes (max count 1) nodes 0 = .ok (n, d)) : LeastDepth count d := by
  rw [countNodes] at h
  split at h
  · cases h
  rw [if_neg (by omega)] at h
  obtain ⟨k, rfl, hwidth, hlow⟩ := countNodes_above le_rfl h
  refine ⟨by omega, ?_, ?_⟩
  · rw [pow_add]
    omega
  rcases hlow with rfl | hlow
  · exact .inl rfl
  rcases Nat.eq_zero_or_pos k with rfl | hk
  · exact .inl rfl
  obtain ⟨k, rfl⟩ : ∃ j, k = j + 1 := ⟨k - 1, by omega⟩
  right
  rw [Nat.add_sub_cancel] at hlow
  rw [show 0 + 1 + (k + 1) - 1 = k + 1 by omega, pow_succ]
  have := Nat.two_pow_pos k
  omega

/-! ### The tree over the coins -/

/-- Coins in leaf order. -/
def InOrder (order : List (CoinRecord Commitment)) : Prop := order.map (·.position) = List.range order.length

variable {coin : CoinRecord Commitment}

section
variable (key : MembershipKey Node Commitment) (ctx : Bytes32) {order : List (CoinRecord Commitment)}

theorem InOrder.position_of_getElem? (h : InOrder order) {i : ℕ}
    (hcoin : order[i]? = some coin) : coin.position = i := by
  have hmap : (order.map (·.position))[i]? = some coin.position := by rw [getElem?_map, hcoin]; rfl
  rw [h] at hmap
  obtain ⟨hi, heq⟩ := List.getElem?_eq_some_iff.1 hmap
  simpa using heq.symm

theorem InOrder.getElem?_position (h : InOrder order) : coin ∈ order ↔ order[coin.position]? = some coin := by
  constructor
  · intro hcoin
    obtain ⟨i, hi⟩ := mem_iff_getElem?.1 hcoin
    rwa [h.position_of_getElem? hi]
  · exact mem_of_getElem?

theorem grown_coinNode (coins : List (CoinRecord Commitment)) :
    Grown (key.parent ctx) (coinNode key ctx coins) := fun _ _ => rfl

theorem InOrder.position_lt (h : InOrder order) (hcoin : coin ∈ order) : coin.position < order.length := by
  have := mem_map_of_mem (f := (·.position)) hcoin
  rw [h] at this
  exact mem_range.1 this

theorem InOrder.padded (h : InOrder order) : PaddedFrom (key.zeros ctx) (coinNode key ctx order) order.length := by
  intro l i hle
  refine coinNode_of_none key ctx fun coin hcoin hdiv => ?_
  have hlt := h.position_lt hcoin
  have := div_mul_le_self coin.position (2 ^ l)
  rw [hdiv] at this
  omega

theorem InOrder.leaf (h : InOrder order) (i : ℕ) : coinNode key ctx order 0 i = ((order.map fun coin =>
      committedLeaf key ctx coin.owner coin.commitment)[i]?).getD key.zero := by
  have hkeyed : Keyed (coinLeaves key ctx order) :=
    (keyed_coinLeaves key ctx).2 (h ▸ nodup_range)
  rw [coinNode, full, leaves, getElem?_map]
  refine congrArg (Option.getD · _) (Option.ext fun n => ?_)
  rw [lookup_eq_some hkeyed, coinLeaves, mem_map, Option.map_eq_some_iff]
  constructor
  · rintro ⟨coin, hcoin, heq⟩
    cases heq
    exact ⟨coin, h.getElem?_position.1 hcoin, rfl⟩
  · rintro ⟨coin, hcoin, rfl⟩
    exact ⟨coin, mem_of_getElem? hcoin, by rw [h.position_of_getElem? hcoin]⟩

end

/-! ### The layers -/

theorem pairUp_getD (parent : Node → Node → Node) (z : Node) (nodes : List Node) (i : ℕ) :
    (pairUp parent z nodes)[i]?.getD (parent z z) = parent (nodes[2 * i]?.getD z) (nodes[2 * i + 1]?.getD z) := by
  induction nodes using pairUp.induct generalizing i with
  | case1 => simp [pairUp]
  | case2 node => cases i <;> simp [pairUp]
  | case3 left right rest ih =>
    cases i with
    | zero => simp [pairUp]
    | succ i =>
      rw [pairUp, getElem?_cons_succ, ih, show 2 * (i + 1) = 2 * i + 1 + 1 by omega]
      simp

variable {coins : List (CoinRecord Commitment)}

section
variable (key : MembershipKey Node Commitment) (ctx : Bytes32) {order : List (CoinRecord Commitment)}

/-- The layers hold the tree's nodes, and zero nodes are the only ones left out. -/
theorem InOrder.layer_getD (h : InOrder order) (l i : ℕ) :
    (layer (key.parent ctx) (key.zeros ctx) (leafLayer key ctx order) l)[i]?.getD
      (key.zeros ctx l) = coinNode key ctx order l i := by
  induction l generalizing i with
  | zero =>
    rw [h.leaf key ctx, layer, leafLayer]
    split
    · next hempty =>
      rw [isEmpty_iff.1 hempty]
      cases i <;> rfl
    · rfl
  | succ l ih =>
    rw [layer, grown_coinNode, ← ih, ← ih]
    exact pairUp_getD ..

/-- What is built holds the tree over the coins. -/
structure TreeOf (order : List (CoinRecord Commitment)) (maxDepth : ℕ) (tree : CoinTree Node) : Prop where
  allowed : depthAllowed maxDepth = true
  room : order.length ≤ 2 ^ maxDepth
  inOrder : InOrder order
  depth : LeastDepth order.length tree.depth
  maxDepth_eq : tree.maxDepth = maxDepth
  context_eq : tree.context = ctx
  parent_eq : tree.parent = key.parent ctx
  zeros_eq : tree.zeros = key.zeros ctx
  coins : tree.addresses.length = order.length
  index : ∀ coin ∈ order, tree.index.lookup coin.address = some coin.position
  node : ∀ l i, l ≤ tree.depth → tree.node l i = coinNode key ctx order l i
  layers : tree.layers.length = tree.depth + 1

theorem treeOf_build {maxDepth maxNodes : ℕ} {tree : CoinTree Node}
    (h : build key ctx coins maxDepth maxNodes = .ok tree) : TreeOf key ctx (byPosition coins) maxDepth tree := by
  have hlength : (byPosition coins).length = coins.length := length_insertionSort ..
  rw [build, guard_eq_ok, guard_eq_ok] at h
  obtain ⟨hallowed, hroom, h⟩ := h
  obtain ⟨⟨nodes, depth⟩, hcount, h⟩ := bind_ok h
  dsimp only at h
  rw [guard_eq_ok, guard_eq_ok] at h
  obtain ⟨-, hpositions, h⟩ := h
  obtain ⟨index, hindex, h⟩ := bind_ok h
  have horder : InOrder (byPosition coins) := by
    rw [InOrder, hlength]
    exact not_not.1 hpositions
  cases h
  refine ⟨by simpa using hallowed, by omega, horder, hlength ▸ leastDepth_countNodes hcount, rfl, rfl, rfl, rfl,
    by simp, ?_, fun l i hl => ?_, by simp⟩
  · obtain ⟨index', hindex', hlookup⟩ := addressIndex_ok (addresses_of_index hindex)
    cases hindex.symm.trans hindex'
    exact hlookup
  dsimp only at hl
  rw [CoinTree.node]
  dsimp only
  rw [getElem?_map, getElem?_range (by omega), Option.map_some, Option.bind_some]
  exact horder.layer_getD key ctx l i

variable {key ctx} {maxDepth : ℕ} {tree : CoinTree Node}

section
variable (h : TreeOf key ctx order maxDepth tree)
include h

theorem TreeOf.top_eq : tree.top = coinNode key ctx order tree.depth 0 := by
  rw [← h.node _ _ le_rfl, top, CoinTree.node, getD_eq_getElem?_getD]
  have hlt : tree.depth < tree.layers.length := by rw [h.layers]; omega
  rw [getElem?_eq_getElem hlt, Option.getD_some, Option.bind_some, head?_eq_getElem?]

/-- Above a level that holds all leaves the tree grows on its left spine. -/
theorem TreeOf.padded_eq (steps : ℕ) : tree.padded steps = coinNode key ctx order (tree.depth + steps) 0 := by
  induction steps with
  | zero => exact h.top_eq
  | succ steps ih =>
    have hroom : order.length ≤ 1 * 2 ^ (tree.depth + steps) := by
      rw [one_mul]
      exact h.depth.2.1.trans (Nat.pow_le_pow_right (by decide) (le_add_right _ _))
    rw [padded, ih, h.parent_eq, h.zeros_eq, ← h.inOrder.padded key ctx _ _ hroom]
    rfl

theorem TreeOf.rootAtDepth (depth : ℕ) :
    tree.rootAtDepth depth = if depth < tree.depth ∨ depth > maxDepth then .error .depth
      else .ok ⟨ctx, depth, order.length, coinNode key ctx order depth 0⟩ := by
  rw [CoinTree.rootAtDepth, h.maxDepth_eq, h.context_eq, h.coins]
  split
  · rfl
  · rw [h.padded_eq, show tree.depth + (depth - tree.depth) = depth by omega]

end

theorem pathFrom_node (tree : CoinTree Node) (level index steps : ℕ) :
    tree.pathFrom level index steps = .ofSteps (pathUp tree.node level index steps) := by
  induction steps generalizing level index with
  | zero => rfl
  | succ steps ih =>
    rw [pathFrom, ih]
    rfl

theorem TreeOf.authPath (h : TreeOf key ctx order maxDepth tree)
    (hcoin : coin ∈ order) (hdepth : tree.depth ≤ depth) (hmax : depth ≤ maxDepth) :
    tree.authPath coin.address depth =
      .ok (.ofSteps (pathUp (coinNode key ctx order) 0 coin.position depth)) := by
  rw [CoinTree.authPath, h.maxDepth_eq, if_neg (by omega), h.index coin hcoin]
  dsimp only
  rw [pathFrom_node]
  refine congrArg (fun steps => Except.ok (AuthPath.ofSteps steps)) (pathUp_congr fun s hs => ?_)
  rcases lt_or_ge tree.depth (0 + s) with hlt | hle
  · -- Above the layers the sibling is a zero subtree.
    have hroom : order.length ≤ 2 ^ s := h.depth.2.1.trans (Nat.pow_le_pow_right (by decide) (by omega))
    have hindex : coin.position / 2 ^ s ^^^ 1 = 1 := by
      rw [div_eq_of_lt ((h.inOrder.position_lt hcoin).trans_le hroom)]
      rfl
    rw [hindex, h.inOrder.padded key ctx (0 + s) 1 (by rwa [one_mul, zero_add]), CoinTree.node,
      getElem?_eq_none (by rw [h.layers]; omega), h.zeros_eq]
    rfl
  · exact h.node _ _ hle

end

/-! ### The frontier follows the tree -/

/-- The coins appended one by one, with the positions given to them. -/
def appendCoins (key : MembershipKey Node Commitment) :
    Frontier Node → List (CoinRecord Commitment) → Except TreeError (List ℕ × Frontier Node)
  | frontier, [] => .ok ([], frontier)
  | frontier, coin :: coins => do
    let (position, frontier) ← frontier.append key coin.owner coin.commitment
    let (positions, frontier) ← appendCoins key frontier coins
    return (position :: positions, frontier)

/-- The same with the nodes emitted over the whole history. -/
def appendCoinsWithNodes (key : MembershipKey Node Commitment) : Frontier Node →
    List (CoinRecord Commitment) → Except TreeError (List ℕ × List (CompletedNode Node) × Frontier Node)
  | frontier, [] => .ok ([], [], frontier)
  | frontier, coin :: coins => do
    let (position, nodes, frontier) ← frontier.appendWithNodes key coin.owner coin.commitment
    let (positions, later, frontier) ← appendCoinsWithNodes key frontier coins
    return (position :: positions, nodes ++ later, frontier)

variable {frontier : Frontier Node}

theorem appendCoins_of_withNodes {key : MembershipKey Node Commitment} {final : Frontier Node}
    {positions : List ℕ} {nodes : List (CompletedNode Node)}
    (h : appendCoinsWithNodes key frontier coins = .ok (positions, nodes, final)) :
    appendCoins key frontier coins = .ok (positions, final) := by
  induction coins generalizing frontier positions nodes with
  | nil =>
    cases h
    rfl
  | cons coin coins ih =>
    obtain ⟨⟨position, emitted, next⟩, hnext, h⟩ := bind_ok h
    obtain ⟨⟨rest, later, last⟩, hlast, h⟩ := bind_ok h
    cases h
    have happend : frontier.append key coin.owner coin.commitment = .ok (position, next) := by
      rw [Frontier.appendWithNodes] at hnext
      rw [Frontier.append]
      split at hnext
      · cases hnext
      next hroom =>
      cases hnext
      rw [dif_neg hroom]
    rw [appendCoins, happend, ok_bind]
    dsimp only
    rw [ih hlast]
    rfl

/-- A completed subtree as it is emitted. -/
def completed (x : ℕ × ℕ × Node) : CompletedNode Node := ⟨x.1, x.2.1, x.2.2⟩

variable {level : ℕ} {T : ℕ → ℕ → Node}

/-- The loop over pending subtrees: the leaf joins them, and every subtree it completes is emitted. -/
theorem appendFrom_pending {parent : Node → Node → Node} (hT : Grown parent T)
    (count len : ℕ) {c : ℕ} (hc : count / 2 ^ level = c) :
    appendFrom parent count level (pending T level c len) (T level c) =
      (pending T level (c + 1) len, (completions T level c len).map completed) := by
  induction len generalizing level c with
  | zero => rfl
  | succ len ih =>
    rcases mod_two_eq_zero_or_one c with heven | hodd
    · rw [pending, if_neg (by omega), appendFrom, hc, pending, if_pos (by omega), completions, if_neg (by omega),
        Nat.add_sub_cancel, show (c + 1) / 2 = c / 2 by omega]
      rfl
    have hparent : parent (T level (c - 1)) (T level c) = T (level + 1) (c / 2) := by
      rw [hT, show 2 * (c / 2) = c - 1 by omega, show c - 1 + 1 = c by omega]
    rw [pending, if_pos hodd, appendFrom, hparent, ih (by rw [div_two_pow_succ, hc]), pending,
      if_neg (by omega), completions, if_pos hodd, show (c + 1) / 2 = c / 2 + 1 by omega, hc]
    rfl

/-- A frontier over the first `count` leaves of a tree. -/
structure Follows (T : ℕ → ℕ → Node) (ctx : Bytes32) (maxDepth count : ℕ) (frontier : Frontier Node) :
    Prop where
  context_eq : frontier.context = ctx
  maxDepth_eq : frontier.maxDepth = maxDepth
  count_eq : frontier.count = count
  filled_eq : frontier.filled = pending T 0 count (maxDepth + 1)

theorem follows_new (T : ℕ → ℕ → Node) (ctx : Bytes32) {maxDepth : ℕ} (h : depthAllowed maxDepth = true) :
    ∃ frontier, Frontier.new ctx maxDepth = .ok frontier ∧ Follows T ctx maxDepth 0 frontier :=
  ⟨_, dif_pos h, rfl, rfl, rfl, (pending_zero ..).symm⟩

section
variable {key : MembershipKey Node Commitment} {ctx : Bytes32} {order : List (CoinRecord Commitment)}
  {maxDepth : ℕ}

/-- One append: the frontier over one more leaf, and the subtrees that leaf completes. -/
theorem Follows.appendWithNodes (horder : InOrder order) {k : ℕ} (hcoin : order[k]? = some coin)
    (h : Follows (coinNode key ctx order) ctx maxDepth k frontier) (hroom : order.length ≤ 2 ^ maxDepth) :
    ∃ next, frontier.appendWithNodes key coin.owner coin.commitment =
        .ok (k, (completions (coinNode key ctx order) 0 k (maxDepth + 1)).map completed, next) ∧
      Follows (coinNode key ctx order) ctx maxDepth (k + 1) next := by
  obtain ⟨hk, -⟩ := List.getElem?_eq_some_iff.1 hcoin
  have hleaf : committedLeaf key ctx coin.owner coin.commitment = coinNode key ctx order 0 k := by
    rw [horder.leaf key ctx, getElem?_map, hcoin]
    rfl
  have hloop := appendFrom_pending (grown_coinNode key ctx order) k (maxDepth + 1) (show k / 2 ^ 0 = k by simp)
  have hfull : ¬ frontier.count ≥ 2 ^ frontier.maxDepth := by
    rw [h.count_eq, h.maxDepth_eq]
    omega
  rw [Frontier.appendWithNodes, dif_neg hfull, Frontier.appendLeafWith]
  dsimp only
  simp only [h.context_eq, h.count_eq, h.filled_eq, hleaf, hloop]
  exact ⟨_, rfl, rfl, h.maxDepth_eq, rfl, rfl⟩

/-- All appends from one point of the history on. -/
theorem Follows.appendCoins (horder : InOrder order) (hroom : order.length ≤ 2 ^ maxDepth) {k : ℕ}
    (hcoins : order.drop k = coins) (h : Follows (coinNode key ctx order) ctx maxDepth k frontier) :
    ∃ final, appendCoinsWithNodes key frontier coins = .ok (range' k coins.length,
        (range' k coins.length).flatMap (fun j =>
          (completions (coinNode key ctx order) 0 j (maxDepth + 1)).map completed), final) ∧
      Follows (coinNode key ctx order) ctx maxDepth (k + coins.length) final := by
  induction coins generalizing k frontier with
  | nil => exact ⟨frontier, rfl, h⟩
  | cons coin coins ih =>
    have hcoin : order[k]? = some coin := by
      rw [← add_zero k, ← getElem?_drop, hcoins]
      rfl
    have hrest : order.drop (k + 1) = coins := by rw [← tail_drop, hcoins]; rfl
    obtain ⟨next, hnext, hfollows⟩ := h.appendWithNodes horder hcoin hroom
    obtain ⟨final, hfinal, hlast⟩ := ih hrest hfollows
    refine ⟨final, ?_, by rwa [length_cons, add_comm coins.length, ← add_assoc]⟩
    rw [appendCoinsWithNodes, hnext, ok_bind]
    dsimp only
    rw [hfinal, ok_bind, length_cons, range'_succ, flatMap_cons]
    rfl

/-! ### Roots -/

/-- The fold over the pending subtrees carries the subtree of the last leaf. -/
theorem foldPending_pending {parent : Node → Node → Node} {z : ℕ → Node}
    (hT : Grown parent T) (hpad : PaddedFrom z T count) (len level : ℕ) :
    Frontier.foldPending parent z level (pending T level (count / 2 ^ level) len) (carried T count level) =
      carried T count (level + len) := by
  induction len generalizing level with
  | zero => rfl
  | succ len ih =>
    rw [pending, Frontier.foldPending, ← carried_succ hT hpad, ← div_two_pow_succ, ih, add_right_comm, add_assoc]

theorem Follows.currentDepth
    (h : Follows T ctx maxDepth count frontier) : LeastDepth count frontier.currentDepth := by
  have hallowed := frontier.depth_allowed
  have hcapacity := frontier.capacity
  rw [h.maxDepth_eq] at hallowed hcapacity
  rw [h.count_eq] at hcapacity
  simp only [depthAllowed, Bool.and_eq_true, decide_eq_true_eq] at hallowed
  have hleast := leastDepth_depthFor (hcapacity.trans (Nat.pow_le_pow_right (by decide) hallowed.2))
  rwa [Frontier.currentDepth, h.count_eq, h.maxDepth_eq, min_eq_left (hleast.le hallowed.1 hcapacity)]

/-- The frontier's root at a depth is the tree's. -/
theorem Follows.rootAtDepth (horder : InOrder order)
    (h : Follows (coinNode key ctx order) ctx maxDepth order.length frontier) (depth : ℕ) :
    frontier.rootAtDepth key.toMembership depth =
      if depth < frontier.currentDepth ∨ depth > maxDepth then .error .depth
      else .ok ⟨ctx, depth, order.length, coinNode key ctx order depth 0⟩ := by
  rw [Frontier.rootAtDepth, h.maxDepth_eq, h.context_eq, h.count_eq, h.filled_eq]
  split
  · rfl
  next hdepth =>
  have hpad := horder.padded key ctx
  have hroom : order.length ≤ 2 ^ depth :=
    h.currentDepth.2.1.trans (Nat.pow_le_pow_right (by decide) (by omega))
  have hfold := foldPending_pending (grown_coinNode key ctx order) hpad depth 0
  have hslot : (pending (coinNode key ctx order) 0 order.length (maxDepth + 1))[depth]? = _ :=
    getElem?_pending (by omega)
  have hstart : carried (coinNode key ctx order) order.length 0 = none := by simp [carried, mod_one]
  rw [pow_zero, Nat.div_one, hstart, zero_add] at hfold
  rw [zero_add] at hslot
  dsimp only
  rw [take_pending _ _ _ (by omega), hfold, hslot, Option.join_some, top_eq hpad hroom]

/-! ### Paths from emitted nodes -/

/-- The node an index of the emitted nodes has. -/
def nodeAt (nodes : List (CompletedNode Node)) (level index : ℕ) : Option Node :=
  (nodes.find? fun node => node.level = level ∧ node.index = index).map (·.node)

/-- Over a whole history every complete subtree is found. -/
theorem nodeAt_history (T : ℕ → ℕ → Node) {len index : ℕ} (hlevel : level < len)
    (hcomplete : (index + 1) * 2 ^ level ≤ count) :
    nodeAt ((range count).flatMap fun j => (completions T 0 j len).map completed) level index =
      some (T level index) := by
  have hmem : ∀ node, node ∈ ((range count).flatMap fun j => (completions T 0 j len).map completed) ↔
      ∃ x ∈ (range count).flatMap (fun j => completions T 0 j len), completed x = node := by
    simp only [mem_flatMap, mem_map]
    intro node
    constructor
    · rintro ⟨j, hj, x, hx, he⟩
      exact ⟨x, ⟨j, hj, hx⟩, he⟩
    · rintro ⟨x, ⟨j, hj, hx⟩, he⟩
      exact ⟨j, hj, x, hx, he⟩
  rw [nodeAt, Option.map_eq_some_iff]
  cases hfind : find? (fun node : CompletedNode Node => decide (node.level = level ∧ node.index = index))
      ((range count).flatMap fun j => (completions T 0 j len).map completed) with
  | none =>
    have hnone := find?_eq_none.1 hfind (completed (level, index, T level index))
      ((hmem _).2 ⟨_, mem_history.2 ⟨hlevel, hcomplete, rfl⟩, rfl⟩)
    simp [completed] at hnone
  | some node =>
    obtain ⟨x, hx, rfl⟩ := (hmem node).1 (mem_of_find?_eq_some hfind)
    have hpos := find?_some hfind
    simp only [decide_eq_true_eq] at hpos
    obtain ⟨rfl, rfl⟩ := hpos
    exact ⟨_, rfl, (mem_history.1 hx).2.2⟩

variable {E : Type} {lookup : ℕ → ℕ → Except E (Option Node)}

/-- A subtree rebuilt from the complete ones is the tree's. -/
theorem subtree_ok (m : Membership Node) (hT : Grown (m.parent ctx) T) (hpad : PaddedFrom (m.zeros ctx) T count)
    (index : ℕ) (hlookup : ∀ l i, l ≤ level → (i + 1) * 2 ^ l ≤ count → lookup l i = .ok (some (T l i))) :
    IndexedTree.subtree m ctx lookup count level index = .ok (T level index) := by
  induction level generalizing index with
  | zero =>
    rw [IndexedTree.subtree]
    split
    · next hpast => rw [hpad 0 index hpast]
    · rw [if_pos (by omega), hlookup 0 index le_rfl (by omega)]
  | succ level ih =>
    rw [IndexedTree.subtree]
    split
    · next hpast => rw [hpad _ index hpast]
    split
    · next hcomplete => rw [hlookup (level + 1) index le_rfl (by rw [add_mul, one_mul]; exact hcomplete)]
    have hbelow := fun i => ih i fun l i hl hi => hlookup l i (by omega) hi
    rw [hbelow, hbelow, mul_comm index 2, hT]
    rfl

/-- The climb with rebuilt siblings is the tree's path and ends where it leads. -/
theorem climbFrom_ok (m : Membership Node) (hT : Grown (m.parent ctx) T) (hpad : PaddedFrom (m.zeros ctx) T count)
    (steps : ℕ) (index : ℕ)
    (hlookup : ∀ l i, l < level + steps → (i + 1) * 2 ^ l ≤ count → lookup l i = .ok (some (T l i))) (node : Node) :
    IndexedTree.climbFrom m ctx lookup count level index steps node =
      .ok (.ofSteps (pathUp T level index steps), climb (m.parent ctx) node (pathUp T level index steps)) := by
  induction steps generalizing level index node with
  | zero => rfl
  | succ steps ih =>
    rw [IndexedTree.climbFrom, subtree_ok m hT hpad _ fun l i hl hi => hlookup l i (by omega) hi, ok_bind]
    dsimp only
    rw [ih (index / 2) fun l i hl hi => hlookup l i (by omega) hi]
    rfl

end

end Quil.ShardedTree
