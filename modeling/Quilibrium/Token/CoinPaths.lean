import Quilibrium.Schemes.TreePaths
import Quilibrium.Token.ShardedTree

/-! Authentication paths of `sharded_tree.rs`. A coin's path is found in four ways — in the whole tree, in its shard's
    own tree, from its subtree's leaves alone, and above the subtree from the roots every shard reports — each a
    traversal of its own. Proved here: they are parts of ONE path of one tree. -/

namespace Quil.ShardedTree
open Schemes List

/-- `MembershipKey::derive` of a context, with a coin's leaf and the owner identities that are canonical. -/
structure MembershipKey (Node Commitment : Type) extends Membership Node where
  leaf : Bytes32 → Node → Commitment → Node
  fromIdentityBytes : List UInt8 → Option Node

structure CoinRecord (Commitment : Type) where
  address : Bytes32
  owner : List UInt8
  commitment : Commitment
  position : ℕ
deriving DecidableEq, Repr

structure AuthPath (Node : Type) where
  siblings : List Node
  right : List Bool
deriving DecidableEq, Repr

namespace AuthPath
variable {Node : Type}

def empty : AuthPath Node := ⟨[], []⟩

/-- The path with one step before it. -/
def cons (sibling : Node) (right : Bool) (path : AuthPath Node) : AuthPath Node :=
  ⟨sibling :: path.siblings, right :: path.right⟩

/-- One path continued by another. -/
def append (path next : AuthPath Node) : AuthPath Node :=
  ⟨path.siblings ++ next.siblings, path.right ++ next.right⟩

/-- The path with these steps. -/
def ofSteps (steps : List (Node × Bool)) : AuthPath Node := ⟨steps.map Prod.fst, steps.map Prod.snd⟩

theorem append_ofSteps (s t : List (Node × Bool)) : (ofSteps s).append (ofSteps t) = ofSteps (s ++ t) := by
  simp [append, ofSteps]

theorem zip_ofSteps (s : List (Node × Bool)) : (ofSteps s).siblings.zip (ofSteps s).right = s :=
  (zip_of_prod rfl rfl).symm

end AuthPath

variable {Node Commitment : Type}

/-- The leaf a committed coin takes at its position; a burned coin's is the empty one. -/
def committedLeaf (key : MembershipKey Node Commitment) (ctx : Bytes32) (owner : List UInt8)
    (commitment : Commitment) : Node :=
  match key.fromIdentityBytes owner with
  | some owner => key.leaf ctx owner commitment
  | none => key.zero

/-- Split a position into `(shard, local)`. -/
def splitPosition (position subtreeBits : ℕ) : ℕ × ℕ :=
  if 64 ≤ subtreeBits then (0, position) else (position / 2 ^ subtreeBits, position % 2 ^ subtreeBits)

/-- How many levels partition shards, and how many address coins inside one. -/
structure Shape where
  shardBits : ℕ
  subtreeBits : ℕ
deriving DecidableEq, Repr

namespace Shape

def depth (shape : Shape) : ℕ := shape.shardBits + shape.subtreeBits

def shards (shape : Shape) : ℕ := 2 ^ shape.shardBits

def validate (shape : Shape) : Except TreeError Unit :=
  if shape.subtreeBits = 0 ∨ shape.depth = 0 ∨ shape.depth > MAX_DEPTH then .error .depth else .ok ()

end Shape

/-! ### Folds of one level -/

/-- A sparse level folded up a number of times. -/
def foldTimes (parent : Node → Node → Node) (zeros : ℕ → Node) (nodes : List (ℕ × Node)) :
    ℕ → List (ℕ × Node)
  | 0 => nodes
  | level + 1 => foldOnce parent (zeros level) (foldTimes parent zeros nodes level)

/-- Fold a sparse level up `levels` times, filling absent nodes with zeros. -/
def foldLevel (parent : Node → Node → Node) (zeros : ℕ → Node) (nodes : List (ℕ × Node)) (levels : ℕ) :
    Except TreeError Node := do
  let nodes ← sortedLevel nodes
  match foldTimes parent zeros nodes levels with
  | [] => .ok (zeros levels)
  | (0, node) :: _ => .ok node
  | _ :: _ => .error .position

/-- The subtree root one shard computes from its own coins. -/
def subtreeRoot (key : MembershipKey Node Commitment) (ctx : Bytes32) (shape : Shape)
    (coins : List (CoinRecord Commitment)) : Except TreeError Node := do
  shape.validate
  let leaves := coins.map fun coin =>
    ((splitPosition coin.position shape.subtreeBits).2,
      committedLeaf key ctx coin.owner coin.commitment)
  if leaves.any fun leaf => leaf.1 ≥ 2 ^ shape.subtreeBits then .error .position
  else foldLevel (key.parent ctx) (key.zeros ctx) leaves shape.subtreeBits

/-- The application root from the per-shard subtree roots. -/
def foldSubtreeRoots (m : Membership Node) (ctx : Bytes32) (shape : Shape) (roots : List (ℕ × Node)) :
    Except TreeError Node := do
  shape.validate
  if roots.any fun root => root.1 ≥ shape.shards then .error .position
  else
    foldLevel (m.parent ctx) (fun level => m.zeros ctx (shape.subtreeBits + level)) roots
      shape.shardBits

/-! ### Paths of folds -/

/-- The loop of `foldAuthPath` from `level`, over the nodes folded so far. -/
def foldPath (parent : Node → Node → Node) (upper : ℕ → Node) :
    (level steps index : ℕ) → List (ℕ × Node) → AuthPath Node
  | _, 0, _, _ => AuthPath.empty
  | level, steps + 1, index, nodes =>
    (foldPath parent upper (level + 1) steps (index / 2) (foldOnce parent (upper level) nodes)).cons
      ((nodes.lookup (index ^^^ 1)).getD (upper level)) (index % 2 ≠ 0)

/-- The siblings from one shard's subtree root up to the application root. -/
def foldAuthPath (m : Membership Node) (ctx : Bytes32) (shape : Shape) (roots : List (ℕ × Node))
    (shard : ℕ) : Except TreeError (AuthPath Node) := do
  shape.validate
  if shard ≥ shape.shards then .error .position
  else do
    let nodes ← sortedLevel roots
    if nodes.any fun node => node.1 ≥ shape.shards then .error .position
    else .ok (foldPath (m.parent ctx) (fun level => m.zeros ctx (shape.subtreeBits + level)) 0
      shape.shardBits shard nodes)

/-- The loop of `foldSparseAuthPath` over the levels `level ..< level + steps`; the path starts at level `start`. -/
def sparsePath (parent : Node → Node → Node) (zeros : ℕ → Node) (nodes : List (ℕ × ℕ × Node)) (start : ℕ) :
    (level steps index : ℕ) → List (ℕ × Node) → Except TreeError (AuthPath Node)
  | _, 0, _, _ => .ok AuthPath.empty
  | level, steps + 1, index, carried => do
    let here ← sortedLevel (placedAt nodes level ++ carried)
    let folded := foldOnce parent (zeros level) here
    if start ≤ level then do
      let path ← sparsePath parent zeros nodes start (level + 1) steps (index / 2) folded
      return path.cons ((here.lookup (index ^^^ 1)).getD (zeros level)) (index % 2 ≠ 0)
    else sparsePath parent zeros nodes start (level + 1) steps index folded

/-- The path from one reported subtree up to the application root, over the sparse set every shard reports. -/
def foldSparseAuthPath (m : Membership Node) (ctx : Bytes32) (topLevel : ℕ)
    (nodes : List (ℕ × ℕ × Node)) (mine : ℕ × ℕ) : Except TreeError (AuthPath Node) :=
  if topLevel = 0 ∨ topLevel > MAX_DEPTH ∨ mine.1 ≥ topLevel then .error .depth
  else if (nodes.all fun n => decide ((n.1, n.2.1) ≠ mine)) then .error .missingCoin
  else if nodes.any fun n => n.1 ≥ topLevel || n.2.1 ≥ 2 ^ (topLevel - n.1) then .error .position
  else
    let start := (nodes.map Prod.fst).min?.getD 0
    sparsePath (m.parent ctx) (m.zeros ctx) nodes mine.1 start (topLevel - start) mine.2 []

/-! ### Paths in one subtree -/

/-- A target's path with its sibling at `level` recorded, if the target lies in the range. -/
def recordSibling (level base : ℕ) (left right : Node) (target : ℕ) (path : AuthPath Node) :
    AuthPath Node :=
  if base ≤ target ∧ target - base < 2 ^ (level + 1) then
    let isRight := decide (base + 2 ^ level ≤ target)
    ⟨path.siblings.set level (if isRight then left else right), path.right.set level isRight⟩
  else path

/-- The node `level` levels up whose leaves start at `base`, recording each target's sibling at the level
    below on the way back up. -/
def foldRange (parent : Node → Node → Node) (zeros : ℕ → Node) (targets : List ℕ) :
    (level : ℕ) → List (ℕ × Node) → (base : ℕ) → List (AuthPath Node) → Node × List (AuthPath Node)
  | level, [], _, paths => (zeros level, paths)
  | 0, leaf :: _, _, paths => (leaf.2, paths)
  | level + 1, leaf :: rest, base, paths =>
    let leaves := leaf :: rest
    let middle := base + 2 ^ level
    let (left, paths) := foldRange parent zeros targets level (leaves.takeWhile fun l => l.1 < middle) base
      paths
    let (right, paths) := foldRange parent zeros targets level (leaves.dropWhile fun l => l.1 < middle)
      middle paths
    (parent left right, (targets.zip paths).map fun tp => recordSibling level base left right tp.1 tp.2)

/-- One subtree's root and the in-subtree paths of some of its leaves, from that subtree's leaves alone. -/
def subtreePaths (m : Membership Node) (ctx : Bytes32) (level : ℕ) (leaves : List (ℕ × Node))
    (targets : List ℕ) : Except TreeError (Node × List (AuthPath Node)) :=
  if level > MAX_DEPTH then .error .depth
  else if (leaves.zip leaves.tail).any (fun pair => pair.1.1 ≥ pair.2.1) ∨
      leaves.getLast?.any (fun leaf => leaf.1 / 2 ^ level ≠ 0) then .error .position
  else if targets.any fun target => (leaves.lookup target).isNone then .error .missingCoin
  else .ok (foldRange (m.parent ctx) (m.zeros ctx) targets level leaves 0
    (targets.map fun _ => ⟨List.replicate level m.zero, List.replicate level false⟩))

/-! ### The whole tree -/

/-- The coins' `(address, position)` sorted by address; no address may repeat. -/
def addressIndex (coins : List (CoinRecord Commitment)) : Except TreeError (List (Bytes32 × ℕ)) :=
  let index := (coins.map fun coin => (coin.address, coin.position)).insertionSort
    fun a b => a.1.toNat ≤ b.1.toNat
  if (index.zip index.tail).any fun pair => pair.1.1.toNat == pair.2.1.toNat then .error .duplicateAddress
  else .ok index

/-- The whole application's tree, built from every shard's coins. -/
structure ShardedCoinTree (Node : Type) where
  zeros : ℕ → Node
  shape : Shape
  /-- Sparse nodes per level, sorted by index. -/
  levels : List (List (ℕ × Node))
  /-- `(address, position)` sorted by address. -/
  index : List (Bytes32 × ℕ)

namespace ShardedCoinTree

def build (key : MembershipKey Node Commitment) (ctx : Bytes32) (shape : Shape)
    (coins : List (CoinRecord Commitment)) : Except TreeError (ShardedCoinTree Node) := do
  shape.validate
  if coins.any fun coin => (splitPosition coin.position shape.subtreeBits).1 ≥ shape.shards then
    .error .position
  else do
    let leaves ← sortedLevel (coins.map fun coin => (coin.position, committedLeaf key ctx coin.owner coin.commitment))
    let index ← addressIndex coins
    return {
      zeros := key.zeros ctx
      shape := shape
      levels := (List.range (shape.depth + 1)).map
        (foldTimes (key.parent ctx) (key.zeros ctx) leaves)
      index := index }

variable (tree : ShardedCoinTree Node)

/-- The node at `(level, index)`, the zero node of the level when no coin sits beneath it. -/
def node (level index : ℕ) : Node := ((tree.levels.getD level []).lookup index).getD (tree.zeros level)

def root : Node :=
  match tree.levels.getD tree.shape.depth [] with
  | [] => tree.zeros tree.shape.depth
  | (_, node) :: _ => node

def position (address : Bytes32) : Option ℕ := tree.index.lookup address

/-- The siblings from a position up. -/
def pathFrom : (level index steps : ℕ) → AuthPath Node
  | _, _, 0 => AuthPath.empty
  | level, index, steps + 1 =>
    (pathFrom (level + 1) (index / 2) steps).cons (tree.node level (index ^^^ 1)) (index % 2 ≠ 0)

/-- One leaf-to-root path. -/
def authPath (address : Bytes32) : Except TreeError (AuthPath Node) :=
  match tree.position address with
  | none => .error .missingCoin
  | some position => .ok (tree.pathFrom 0 position tree.shape.depth)

end ShardedCoinTree

/-- Recompute the root from a leaf and its path. -/
def rootFromPath (key : MembershipKey Node Commitment) (ctx : Bytes32) (owner : Node)
    (commitment : Commitment) (path : AuthPath Node) : Except TreeError Node :=
  if path.siblings.length ≠ path.right.length ∨ path.siblings.length > MAX_DEPTH then .error .depth
  else .ok (climb (key.parent ctx) (key.leaf ctx owner commitment)
    (path.siblings.zip path.right))

/-! ### The folds are trees -/

variable {nodes L : List (ℕ × Node)} {level : ℕ}

section
variable {parent : Node → Node → Node} {zero : Node}

theorem foldTimes_spec (parent : Node → Node → Node) (zero : Node) (h : Ascending nodes) (level : ℕ) :
    Ascending (foldTimes parent (zeros parent zero) nodes level) ∧ ∀ i,
      (foldTimes parent (zeros parent zero) nodes level).lookup i = node parent zero (leaves nodes) level i := by
  induction level with
  | zero => exact ⟨h, fun i => rfl⟩
  | succ level ih =>
    obtain ⟨hasc, hlook⟩ := foldOnce_spec parent (zeros parent zero level) ih.1
    refine ⟨hasc, fun i => ?_⟩
    rw [foldTimes, hlook, ih.2, ih.2]
    rfl

theorem leaves_perm {L' : List (ℕ × Node)} (hL : Keyed L) (h : L.Perm L') : leaves L' = leaves L := by
  funext l i
  cases l with
  | zero => exact lookup_perm hL h i
  | succ l => rfl

/-- A fold of one level, its indices within the tree, is the tree's root. -/
theorem foldLevel_ok {levels : ℕ} (hkeyed : Keyed nodes) (hrange : ∀ x ∈ nodes, x.1 < 2 ^ levels) :
    foldLevel parent (zeros parent zero) nodes levels = .ok (full parent zero (leaves nodes) levels 0) := by
  obtain ⟨sorted, hsorted, hasc, hperm⟩ := sortedLevel_ok hkeyed
  obtain ⟨hascOut, hlook⟩ := foldTimes_spec parent zero hasc levels
  rw [foldLevel, hsorted, ok_bind, full_eq_node, ← leaves_perm hkeyed hperm, ← hlook]
  have hzero : ∀ i ≠ 0, (foldTimes parent (zeros parent zero) sorted levels).lookup i = none := by
    intro i hi
    rw [hlook, node_leaves_eq_none]
    intro x hx hxi
    exact hi (hxi ▸ Nat.div_eq_of_lt (hrange x (hperm.mem_iff.2 hx)))
  rcases level_zero hascOut hzero with ⟨heq, hnone⟩ | ⟨n, heq, hsome⟩
  · rw [heq]
    rfl
  · rw [heq]
    rfl

theorem foldPath_spec {R : List (ℕ × Node)} (steps index : ℕ) (hasc : Ascending nodes)
    (hnodes : ∀ i, nodes.lookup i = node parent zero (leaves R) level i) :
    foldPath parent (zeros parent zero) level steps index nodes =
      .ofSteps (pathUp (full parent zero (leaves R)) level index steps) := by
  induction steps generalizing level index nodes with
  | zero => rfl
  | succ steps ih =>
    obtain ⟨hascOnce, hOnce⟩ := foldOnce_spec parent (zeros parent zero level) hasc
    rw [foldPath, ih (index / 2) hascOnce fun i => by rw [hOnce, hnodes, hnodes]; rfl, hnodes, ← full_eq_node]
    rfl

/-- The path above the subtrees, once it has started. -/
theorem sparsePath_from {nodes : List (ℕ × ℕ × Node)} (h : nodes.Pairwise Clear) {start : ℕ} (steps : ℕ)
    (index : ℕ) {carried : List (ℕ × Node)} (hstart : start ≤ level) (hasc : Ascending carried)
    (hcarried : ∀ i, carried.lookup i = below parent zero (placement nodes) level i) :
    sparsePath parent (zeros parent zero) nodes start level steps index carried =
      .ok (.ofSteps (pathUp (full parent zero (placement nodes)) level index steps)) := by
  induction steps generalizing level index carried with
  | zero => rfl
  | succ steps ih =>
    obtain ⟨here, hsorted, hnode, hascOnce, hOnce⟩ := level_spec h hasc hcarried
    rw [sparsePath, hsorted, ok_bind]
    dsimp only
    rw [if_pos hstart, ih (index / 2) (Nat.le_succ_of_le hstart) hascOnce hOnce, hnode, ← full_eq_node]
    rfl

/-- The path above the subtrees, from the levels below its start. -/
theorem sparsePath_below {nodes : List (ℕ × ℕ × Node)} (h : nodes.Pairwise Clear)
    (index rest below' : ℕ) {carried : List (ℕ × Node)} (hasc : Ascending carried)
    (hcarried : ∀ i, carried.lookup i = below parent zero (placement nodes) level i) :
    sparsePath parent (zeros parent zero) nodes (level + below') level (below' + rest) index carried =
      .ok (.ofSteps (pathUp (full parent zero (placement nodes)) (level + below') index rest)) := by
  induction below' generalizing level carried with
  | zero =>
    rw [zero_add]
    exact sparsePath_from h rest index le_rfl hasc hcarried
  | succ below' ih =>
    obtain ⟨here, hsorted, -, hascOnce, hOnce⟩ := level_spec h hasc hcarried
    rw [add_right_comm below' 1 rest, sparsePath, hsorted, ok_bind]
    dsimp only
    rw [if_neg (by omega), show level + (below' + 1) = level + 1 + below' by omega]
    exact ih hascOnce hOnce

end

section
variable (m : Membership Node) (ctx : Bytes32)

/-- The zero subtrees from a level up. -/
theorem zeros_from (k : ℕ) : (fun level => m.zeros ctx (k + level)) = zeros (m.parent ctx) (m.zeros ctx k) := by
  funext level
  exact (zeros_add k level).symm

theorem foldSubtreeRoots_ok {shape : Shape} {roots : List (ℕ × Node)} (hshape : shape.validate = .ok ())
    (hkeyed : Keyed roots) (hrange : ∀ x ∈ roots, x.1 < shape.shards) :
    foldSubtreeRoots m ctx shape roots = .ok (full (m.parent ctx)
      (m.zeros ctx shape.subtreeBits) (leaves roots) shape.shardBits 0) := by
  rw [foldSubtreeRoots, hshape, ok_bind, if_neg (by simpa using hrange), zeros_from]
  exact foldLevel_ok hkeyed hrange

theorem foldAuthPath_ok {shape : Shape} {roots : List (ℕ × Node)} {shard : ℕ} (hshape : shape.validate = .ok ())
    (hkeyed : Keyed roots) (hrange : ∀ x ∈ roots, x.1 < shape.shards) (hshard : shard < shape.shards) :
    foldAuthPath m ctx shape roots shard = .ok (.ofSteps (pathUp (full (m.parent ctx)
      (m.zeros ctx shape.subtreeBits) (leaves roots)) 0 shard shape.shardBits)) := by
  obtain ⟨sorted, hsorted, hasc, hperm⟩ := sortedLevel_ok hkeyed
  rw [foldAuthPath, hshape, ok_bind, if_neg (by omega), hsorted, ok_bind,
    if_neg (by simpa using fun a b hab => hrange (a, b) (hperm.mem_iff.2 hab)), zeros_from,
    ← leaves_perm hkeyed hperm]
  exact congrArg _ (foldPath_spec _ _ hasc fun i => rfl)

theorem foldSparseAuthPath_ok {topLevel : ℕ} {nodes : List (ℕ × ℕ × Node)} {mine : ℕ × ℕ}
    (hmax : topLevel ≤ MAX_DEPTH) (hrange : InRange topLevel nodes) (hclear : nodes.Pairwise Clear)
    (hmine : ∃ n ∈ nodes, (n.1, n.2.1) = mine) :
    foldSparseAuthPath m ctx topLevel nodes mine = .ok (.ofSteps (pathUp (full (m.parent ctx) m.zero
      (placement nodes)) mine.1 mine.2 (topLevel - mine.1))) := by
  obtain ⟨⟨level, index, n⟩, hmem, rfl⟩ := hmine
  have hbound := hrange _ hmem
  dsimp only at hbound ⊢
  have hany : (nodes.any fun n => n.1 ≥ topLevel || n.2.1 ≥ 2 ^ (topLevel - n.1)) = false := by
    rw [any_eq_false]
    intro x hx
    have := hrange x hx
    simp only [ge_iff_le, Bool.or_eq_true, decide_eq_true_eq]
    omega
  have hall : ¬ (nodes.all fun n => decide ((n.1, n.2.1) ≠ (level, index))) = true := by
    intro hall
    simpa using all_eq_true.1 hall _ hmem
  rw [foldSparseAuthPath, if_neg (by dsimp only; omega), if_neg hall, if_neg (by simp [hany])]
  dsimp only
  obtain ⟨start, hmin⟩ : ∃ start, (nodes.map Prod.fst).min? = some start :=
    Option.ne_none_iff_exists'.1 fun hnone => by
      rw [min?_eq_none_iff, map_eq_nil_iff] at hnone
      subst hnone
      exact absurd hmem not_mem_nil
  have hleast : ∀ x ∈ nodes, start ≤ x.1 := fun x hx => (min?_eq_some_iff.1 hmin).2 _ (mem_map_of_mem hx)
  obtain ⟨gap, hgap⟩ := Nat.exists_eq_add_of_le (hleast _ hmem)
  rw [hmin, Option.getD_some, show topLevel - start = gap + (topLevel - level) by omega]
  dsimp only at hgap
  rw [hgap]
  exact sparsePath_below hclear index _ gap List.Pairwise.nil (below_of_least hleast)

end

/-! ### The fold of a range -/

/-- Splitting an ascending level at an index. -/
theorem takeWhile_lt (h : Ascending nodes) (k : ℕ) :
    nodes.takeWhile (fun x => x.1 < k) = nodes.filter (fun x => x.1 < k) ∧
      nodes.dropWhile (fun x => x.1 < k) = nodes.filter (fun x => k ≤ x.1) := by
  induction nodes with
  | nil => exact ⟨rfl, rfl⟩
  | cons a rest ih =>
    obtain ⟨hfirst, hrest⟩ := ascending_cons.1 h
    obtain ⟨htake, hdrop⟩ := ih hrest
    by_cases hk : a.1 < k
    · have hnot : ¬ k ≤ a.1 := by omega
      simp [hk, hnot, htake, hdrop]
    have hall : ∀ x ∈ a :: rest, k ≤ x.1 := by
      refine forall_mem_cons.2 ⟨by omega, fun x hx => ?_⟩
      have := hfirst x hx
      omega
    rw [takeWhile_cons_of_neg (by simpa using hk), dropWhile_cons_of_neg (by simpa using hk), eq_comm, filter_eq_nil_iff,
      eq_comm, filter_eq_self]
    exact ⟨fun x hx => by simpa using hall x hx, fun x hx => by simpa using hall x hx⟩

theorem lookup_filter_key {p : ℕ → Bool} {i : ℕ} (h : p i = true) :
    (nodes.filter fun x => p x.1).lookup i = nodes.lookup i := by
  induction nodes with
  | nil => rfl
  | cons a rest ih =>
    obtain ⟨k, n⟩ := a
    by_cases hk : i = k
    · subst hk
      rw [filter_cons_of_pos (by simpa using h), lookup_cons_of_eq rfl, lookup_cons_of_eq rfl]
    rw [lookup_cons_of_ne hk, filter_cons]
    split
    · rw [lookup_cons_of_ne hk, ih]
    · exact ih

/-- The path with a target's first siblings in it. -/
def recorded (T : ℕ → ℕ → Node) (level target : ℕ) (path : AuthPath Node) : AuthPath Node :=
  ⟨(pathUp T 0 target level).map Prod.fst ++ path.siblings.drop level,
    (pathUp T 0 target level).map Prod.snd ++ path.right.drop level⟩

/-- The same for a target in the range, none for another. -/
def recordedIn (T : ℕ → ℕ → Node) (level base target : ℕ) (path : AuthPath Node) : AuthPath Node :=
  if base ≤ target ∧ target - base < 2 ^ level then recorded T level target path else path

variable {α : Type}

/-- Setting the first entry behind a list extends the list. -/
theorem set_append_drop (steps s : List α) (a : α) (h : steps.length < s.length) :
    (steps ++ s.drop steps.length).set steps.length a = steps ++ [a] ++ s.drop (steps.length + 1) := by
  rw [set_append_right _ _ le_rfl, Nat.sub_self, append_assoc]
  congr 1
  rw [drop_eq_getElem_cons h]
  rfl

variable {target : ℕ} {path : AuthPath Node}

theorem recorded_succ {T : ℕ → ℕ → Node} (hs : level < path.siblings.length) (hr : level < path.right.length) :
    (⟨(recorded T level target path).siblings.set level (T level (target / 2 ^ level ^^^ 1)),
      (recorded T level target path).right.set level (decide (target / 2 ^ level % 2 ≠ 0))⟩ :
        AuthPath Node) = recorded T (level + 1) target path := by
  have hone : pathUp T 0 target (level + 1) = pathUp T 0 target level ++
      [(T level (target / 2 ^ level ^^^ 1), decide (target / 2 ^ level % 2 ≠ 0))] := by
    rw [pathUp_add, zero_add]
    rfl
  have hlength := length_pathUp T 0 target level
  have hleft := set_append_drop ((pathUp T 0 target level).map Prod.fst) path.siblings
    (T level (target / 2 ^ level ^^^ 1)) (by simpa [hlength] using hs)
  have hright := set_append_drop ((pathUp T 0 target level).map Prod.snd) path.right
    (decide (target / 2 ^ level % 2 ≠ 0)) (by simpa [hlength] using hr)
  simp only [length_map, hlength] at hleft hright
  rw [recorded, recorded, hone, map_append, map_append]
  exact congrArg₂ AuthPath.mk hleft hright

/-- The sibling recorded at a level, for a target below it: the halves of an aligned range. -/
theorem recordSibling_in {T : ℕ → ℕ → Node} {k : ℕ}
    (hin : k * 2 ^ (level + 1) ≤ target ∧ target - k * 2 ^ (level + 1) < 2 ^ (level + 1)) :
    recordSibling level (k * 2 ^ (level + 1)) (T level (2 * k)) (T level (2 * k + 1)) target path =
      ⟨path.siblings.set level (T level (target / 2 ^ level ^^^ 1)),
        path.right.set level (decide (target / 2 ^ level % 2 ≠ 0))⟩ := by
  have hpow : 2 ^ (level + 1) = 2 * 2 ^ level := pow_succ' 2 level
  have hpos : 0 < 2 ^ level := Nat.two_pow_pos level
  have hbase : k * 2 ^ (level + 1) = 2 * k * 2 ^ level := by rw [hpow]; ring
  rw [recordSibling, if_pos hin]
  dsimp only
  rw [hbase] at hin ⊢
  rw [hpow] at hin
  by_cases hhalf : 2 * k * 2 ^ level + 2 ^ level ≤ target
  · have hdiv : target / 2 ^ level = 2 * k + 1 := by
      refine Nat.div_eq_of_lt_le ?_ ?_
      · rwa [add_mul, one_mul]
      · rw [add_mul, add_mul, one_mul]
        omega
    rw [hdiv, xor_one_of_odd (by omega), if_pos (by simpa using hhalf)]
    simp [hhalf]
  have hdiv : target / 2 ^ level = 2 * k := by
    refine Nat.div_eq_of_lt_le hin.1 ?_
    rw [add_mul, one_mul]
    omega
  rw [hdiv, xor_one_of_even (by omega), if_neg (by simpa using hhalf)]
  simp [hhalf]

theorem recordSibling_out {base : ℕ} {left right : Node}
    (hout : ¬ (base ≤ target ∧ target - base < 2 ^ (level + 1))) :
    recordSibling level base left right target path = path := if_neg hout

variable {β : Type}

theorem zip_map_zip (ts : List α) (ps : List β) (f g : α × β → β) :
    (ts.zip ((ts.zip ps).map f)).map g = (ts.zip ps).map fun tp => g (tp.1, f tp) := by
  induction ts generalizing ps with
  | nil => rfl
  | cons t ts ih =>
    cases ps with
    | nil => rfl
    | cons p ps => simp [ih]

theorem map_zip_of_snd {ts : List α} {ps : List β} {f : α × β → β}
    (hlength : ps.length = ts.length) (hf : ∀ tp ∈ ts.zip ps, f tp = tp.2) : (ts.zip ps).map f = ps := by
  rw [map_congr_left hf]
  exact map_snd_zip hlength.le

/-- The two halves and the sibling between them: one level more of a target's path. -/
theorem recordedIn_succ (T : ℕ → ℕ → Node) (level k target : ℕ)
    (hs : level < path.siblings.length) (hr : level < path.right.length) :
    recordSibling level (k * 2 ^ (level + 1)) (T level (2 * k)) (T level (2 * k + 1)) target
        (recordedIn T level (k * 2 ^ (level + 1) + 2 ^ level) target
          (recordedIn T level (k * 2 ^ (level + 1)) target path)) =
      recordedIn T (level + 1) (k * 2 ^ (level + 1)) target path := by
  have hpow : 2 ^ (level + 1) = 2 * 2 ^ level := pow_succ' 2 level
  have hpos : 0 < 2 ^ level := Nat.two_pow_pos level
  by_cases hin : k * 2 ^ (level + 1) ≤ target ∧ target - k * 2 ^ (level + 1) < 2 ^ (level + 1)
  · rw [recordSibling_in hin]
    have hrecorded : recordedIn T level (k * 2 ^ (level + 1) + 2 ^ level) target
        (recordedIn T level (k * 2 ^ (level + 1)) target path) = recorded T level target path := by
      by_cases hhalf : k * 2 ^ (level + 1) + 2 ^ level ≤ target
      · rw [recordedIn, if_pos ⟨hhalf, by omega⟩, recordedIn, if_neg (by omega)]
      · rw [recordedIn, if_neg (by omega), recordedIn, if_pos ⟨hin.1, by omega⟩]
    rw [hrecorded, recorded_succ hs hr, recordedIn, if_pos hin]
  · rw [recordSibling_out hin, recordedIn, if_neg (by omega), recordedIn, if_neg (by omega), recordedIn,
      if_neg hin]

theorem length_recordedIn (T : ℕ → ℕ → Node) (level base target : ℕ) (path : AuthPath Node)
    (hs : level ≤ path.siblings.length) (hr : level ≤ path.right.length) :
    (recordedIn T level base target path).siblings.length = path.siblings.length ∧
      (recordedIn T level base target path).right.length = path.right.length := by
  rw [recordedIn]
  split
  · simp only [recorded, length_append, length_map, length_pathUp, length_drop]
    omega
  · exact ⟨rfl, rfl⟩

/-- A slice of the leaves: those below the node at a level and an index. -/
structure SliceOf (L slice : List (ℕ × Node)) (level k : ℕ) : Prop where
  ascending : Ascending slice
  within : ∀ x ∈ slice, k * 2 ^ level ≤ x.1 ∧ x.1 < (k + 1) * 2 ^ level
  lookup : ∀ i, k * 2 ^ level ≤ i → i < (k + 1) * 2 ^ level → slice.lookup i = L.lookup i

section
variable {slice : List (ℕ × Node)} {k : ℕ}

/-- Where the two halves of a range meet. -/
theorem halves (level k : ℕ) : k * 2 ^ (level + 1) = 2 * k * 2 ^ level ∧
    k * 2 ^ (level + 1) + 2 ^ level = (2 * k + 1) * 2 ^ level ∧
    (k + 1) * 2 ^ (level + 1) = (2 * k + 1 + 1) * 2 ^ level := by
  rw [pow_succ' 2 level]
  refine ⟨?_, ?_, ?_⟩ <;> ring

/-- The part of a slice in a part of its range. -/
theorem SliceOf.filter (h : SliceOf L slice level k) {level' k' : ℕ} (p : ℕ → Bool)
    (hp : ∀ i, k' * 2 ^ level' ≤ i ∧ i < (k' + 1) * 2 ^ level' ↔
      (k * 2 ^ level ≤ i ∧ i < (k + 1) * 2 ^ level) ∧ p i = true) :
    SliceOf L (slice.filter fun x => p x.1) level' k' := by
  refine ⟨h.ascending.filter _, fun x hx => ?_, fun i hi hi' => ?_⟩
  · obtain ⟨hx, hpx⟩ := mem_filter.1 hx
    exact (hp x.1).2 ⟨h.within x hx, hpx⟩
  · obtain ⟨hin, hpi⟩ := (hp i).1 ⟨hi, hi'⟩
    rw [lookup_filter_key hpi]
    exact h.lookup i hin.1 hin.2

theorem SliceOf.left (h : SliceOf L slice (level + 1) k) :
    SliceOf L (slice.filter fun x => decide (x.1 < (2 * k + 1) * 2 ^ level)) level (2 * k) := by
  obtain ⟨hbase, hmiddle, hend⟩ := halves level k
  have hlast := add_one_mul (2 * k + 1) (2 ^ level)
  refine h.filter (fun i => decide (i < (2 * k + 1) * 2 ^ level)) fun i => ?_
  rw [decide_eq_true_eq]
  omega

theorem SliceOf.right (h : SliceOf L slice (level + 1) k) :
    SliceOf L (slice.filter fun x => decide ((2 * k + 1) * 2 ^ level ≤ x.1)) level (2 * k + 1) := by
  obtain ⟨hbase, hmiddle, hend⟩ := halves level k
  have hpos := Nat.two_pow_pos level
  refine h.filter (fun i => decide ((2 * k + 1) * 2 ^ level ≤ i)) fun i => ?_
  rw [decide_eq_true_eq]
  omega

/-- A range with no leaves has the zero node of its level, and no targets. -/
theorem SliceOf.full_of_nil (h : SliceOf L [] level k) (parent : Node → Node → Node) (zero : Node) :
    full parent zero (leaves L) level k = zeros parent zero level := by
  have hnode : node parent zero (leaves L) level k = none := by
    refine node_leaves_eq_none.2 fun x hx hdiv => ?_
    have hle : k * 2 ^ level ≤ x.1 := hdiv ▸ Nat.div_mul_le_self x.1 _
    have hlt : x.1 < (k + 1) * 2 ^ level :=
      (Nat.div_lt_iff_lt_mul (Nat.two_pow_pos _)).1 (hdiv ▸ Nat.lt_succ_self _)
    exact lookup_eq_none.1 (h.lookup x.1 hle hlt).symm x hx rfl
  rw [full_eq_node, hnode]
  rfl

theorem SliceOf.recordedIn_of_nil (h : SliceOf L [] level k) {target : ℕ} (htarget : L.lookup target ≠ none)
    (T : ℕ → ℕ → Node) (path : AuthPath Node) : recordedIn T level (k * 2 ^ level) target path = path := by
  refine if_neg fun hin => htarget ?_
  have hlast := add_one_mul k (2 ^ level)
  rw [← h.lookup target hin.1 (by omega)]
  rfl

theorem SliceOf.leaf (h : SliceOf L slice 0 k) : leaves L 0 k = slice.head?.map Prod.snd := by
  simp only [leaves, ← h.lookup k (by simp) (by simp)]
  rcases slice with _ | ⟨⟨i, n⟩, rest⟩
  · rfl
  have hi := h.within (i, n) mem_cons_self
  simp only [pow_zero, mul_one] at hi
  rw [lookup_cons_of_eq (by omega)]
  rfl

/-- The fold of an aligned range is the tree's node there, and every target's path below it is recorded. -/
theorem foldRange_spec (parent : Node → Node → Node) (zero : Node) {targets : List ℕ}
    (htargets : ∀ t ∈ targets, L.lookup t ≠ none) {paths : List (AuthPath Node)} (h : SliceOf L slice level k)
    (hlength : paths.length = targets.length)
    (hpaths : ∀ p ∈ paths, level ≤ p.siblings.length ∧ level ≤ p.right.length) :
    foldRange parent (zeros parent zero) targets level slice (k * 2 ^ level) paths =
      (full parent zero (leaves L) level k, (targets.zip paths).map fun tp =>
        recordedIn (full parent zero (leaves L)) level (k * 2 ^ level) tp.1 tp.2) := by
  induction level generalizing k slice paths with
  | zero =>
    have hrecorded : ((targets.zip paths).map fun tp =>
        recordedIn (full parent zero (leaves L)) 0 (k * 2 ^ 0) tp.1 tp.2) = paths := by
      refine map_zip_of_snd hlength fun tp _ => ?_
      rw [recordedIn, recorded]
      simp [pathUp]
    rw [hrecorded, full, h.leaf]
    cases slice <;> rfl
  | succ level ih =>
    cases slice with
    | nil =>
      rw [foldRange, h.full_of_nil, map_zip_of_snd hlength fun tp htp => ?_]
      exact h.recordedIn_of_nil (htargets tp.1 (of_mem_zip htp).1) _ _
    | cons leaf rest =>
      obtain ⟨hbase, hmiddle, -⟩ := halves level k
      obtain ⟨htake, hdrop⟩ := takeWhile_lt h.ascending ((2 * k + 1) * 2 ^ level)
      have hleft := ih h.left hlength fun p hp => by have := hpaths p hp; omega
      -- the left half's paths are as long as those it was given
      have hright := @ih _ _ ((targets.zip paths).map fun tp =>
          recordedIn (full parent zero (leaves L)) level (2 * k * 2 ^ level) tp.1 tp.2) h.right (by simp [hlength])
        fun p hp => by
          obtain ⟨tp, htp, rfl⟩ := mem_map.1 hp
          have hmem := hpaths tp.2 (of_mem_zip htp).2
          obtain ⟨hs, hr⟩ := length_recordedIn (full parent zero (leaves L)) level (2 * k * 2 ^ level) tp.1
            tp.2 (by omega) (by omega)
          omega
      rw [foldRange]
      dsimp only
      rw [hmiddle, htake, hdrop, hbase, hleft]
      dsimp only
      rw [hright]
      dsimp only
      rw [zip_map_zip, zip_map_zip]
      refine congrArg _ (map_congr_left fun tp htp => ?_)
      have hmem := hpaths tp.2 (of_mem_zip htp).2
      have hrecorded : _ = recordedIn _ _ _ tp.1 tp.2 :=
        recordedIn_succ (full parent zero (leaves L)) level k tp.1 (by omega) (by omega)
      rwa [hmiddle, hbase] at hrecorded

end

theorem ascending_windows (h : Ascending nodes) :
    ((nodes.zip nodes.tail).any fun pair => pair.1.1 ≥ pair.2.1) = false := by
  induction nodes with
  | nil => rfl
  | cons a rest ih =>
    obtain ⟨hfirst, hrest⟩ := ascending_cons.1 h
    rcases rest with _ | ⟨b, rest⟩
    · rfl
    rw [tail_cons, zip_cons_cons, any_cons, Bool.or_eq_false_iff]
    exact ⟨by simpa using hfirst b mem_cons_self, ih hrest⟩

/-- A subtree's leaves alone give its root and the paths of its leaves. -/
theorem subtreePaths_ok (m : Membership Node) (ctx : Bytes32) {targets : List ℕ} (hmax : level ≤ MAX_DEPTH)
    (hasc : Ascending L) (hrange : ∀ x ∈ L, x.1 < 2 ^ level) (htargets : ∀ t ∈ targets, L.lookup t ≠ none) :
    subtreePaths m ctx level L targets = .ok (full (m.parent ctx) m.zero (leaves L) level 0,
      targets.map fun t => .ofSteps (pathUp (full (m.parent ctx) m.zero (leaves L)) 0 t level)) := by
  have hlast : ¬ (L.getLast?.any fun leaf => decide (leaf.1 / 2 ^ level ≠ 0)) = true := by
    rw [Option.any_eq_true]
    rintro ⟨x, hx, hdiv⟩
    simp [Nat.div_eq_of_lt (hrange x (mem_of_getLast? hx))] at hdiv
  have hmissing : ¬ (targets.any fun target => (L.lookup target).isNone) = true := by
    rw [any_eq_true]
    rintro ⟨t, ht, hnone⟩
    exact htargets t ht (Option.isNone_iff_eq_none.1 hnone)
  have hrange' : ∀ t ∈ targets, t < 2 ^ level := by
    intro t ht
    obtain ⟨n, hn⟩ := Option.ne_none_iff_exists'.1 (htargets t ht)
    exact hrange (t, n) (mem_of_lookup hn)
  rw [subtreePaths, if_neg (by omega), if_neg (by simp only [ascending_windows hasc]; simpa using hlast),
    if_neg hmissing]
  have hwhole : SliceOf L L level 0 := ⟨hasc, fun x hx => ⟨by omega, by simpa using hrange x hx⟩, fun i _ _ => rfl⟩
  have hfold := foldRange_spec (m.parent ctx) m.zero htargets hwhole
    (length_map fun _ => (⟨replicate level m.zero, replicate level false⟩ : AuthPath Node))
    (by simp)
  rw [zero_mul] at hfold
  rw [Membership.zeros, hfold, ← map_prod_left_eq_zip, map_map]
  refine congrArg _ (congrArg _ (map_congr_left fun t ht => ?_))
  rw [Function.comp_apply, recordedIn, if_pos ⟨zero_le, by simpa using hrange' t ht⟩, recorded]
  simp [AuthPath.ofSteps]

end Quil.ShardedTree
