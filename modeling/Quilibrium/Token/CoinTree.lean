import Quilibrium.Schemes.GrownTree
import Quilibrium.Token.WholePaths

/-! The coin tree of `quil-lattice-ct`'s `coin_tree.rs`. `CoinTree` rebuilds the whole tree from the coins and cuts
    membership paths from its layers; `Frontier` keeps one node for each set bit of the number of coins and extends
    the root coin by coin, emitting every subtree it completes; `IndexedTree` rebuilds a path from those emitted
    nodes. -/

namespace Quil.ShardedTree
open Schemes List

variable {Node Commitment : Type}

/-- A root with the context, depth and number of coins it is for. -/
structure RootRecord (Node : Type) where
  context : Bytes32
  depth : ℕ
  coins : ℕ
  root : Node
deriving DecidableEq, Repr

def RootRecord.validate (record : RootRecord Node) : Except TreeError Unit :=
  if record.depth = 0 ∨ record.depth > MAX_DEPTH ∨ record.coins > 2 ^ record.depth then .error .depth
  else .ok ()

/-- A fully populated subtree emitted once as the frontier advances. -/
structure CompletedNode (Node : Type) where
  level : ℕ
  index : ℕ
  node : Node
deriving DecidableEq, Repr

/-- The depths a tree may be configured with. -/
def depthAllowed (maxDepth : ℕ) : Bool := 1 ≤ maxDepth && maxDepth ≤ MAX_DEPTH

/-- The loop of `depthFor`, for at most `steps` more levels. -/
def depthFrom (count : ℕ) : (steps depth : ℕ) → ℕ
  | 0, depth => depth
  | steps + 1, depth => if 2 ^ depth < count then depthFrom count steps (depth + 1) else depth

/-- Minimal depth (at least one) whose capacity holds `count` leaves. -/
def depthFor (count : ℕ) : ℕ := depthFrom count (MAX_DEPTH - 1) 1

/-! ### The whole tree -/

/-- `usize` values end here. -/
def USIZE_LIMIT : ℕ := 2 ^ 64

/-- Count all nodes of the layers over `width` leaves, and the layers above them. The width is at least one. -/
def countNodes (width nodes depth : ℕ) : Except TreeError (ℕ × ℕ) :=
  if USIZE_LIMIT ≤ nodes + width then .error .capacity
  else if width ≤ 1 ∧ 1 ≤ depth then .ok (nodes + width, depth)
  else countNodes ((width + 1) / 2) (nodes + width) (depth + 1)
termination_by width + (1 - depth)

/-- One layer from the one below: `chunks(2)`, the last node alone paired with the zero node. -/
def pairUp (parent : Node → Node → Node) (zero : Node) : List Node → List Node
  | [] => []
  | [node] => [parent node zero]
  | left :: right :: rest => parent left right :: pairUp parent zero rest

/-- The layer `level` levels above the leaves. -/
def layer (parent : Node → Node → Node) (zeros : ℕ → Node) (leaves : List Node) : ℕ → List Node
  | 0 => leaves
  | level + 1 => pairUp parent (zeros level) (layer parent zeros leaves level)

/-- The coins in leaf order. -/
def byPosition (coins : List (CoinRecord Commitment)) : List (CoinRecord Commitment) :=
  coins.insertionSort fun a b => a.position ≤ b.position

/-- The leaves of the coins; an empty tree has one empty leaf. -/
def leafLayer (key : MembershipKey Node Commitment) (ctx : Bytes32)
    (order : List (CoinRecord Commitment)) : List Node :=
  if order.isEmpty then [key.zero]
  else order.map fun coin => committedLeaf key ctx coin.owner coin.commitment

structure CoinTree (Node : Type) where
  context : Bytes32
  parent : Node → Node → Node
  /-- Coin addresses in leaf (position) order. -/
  addresses : List Bytes32
  /-- `(address, position)` sorted by address for membership lookups. -/
  index : List (Bytes32 × ℕ)
  layers : List (List Node)
  zeros : ℕ → Node
  depth : ℕ
  maxDepth : ℕ

namespace CoinTree

/-- Order leaves by committed position (which must be exactly `0..n`), reject duplicate addresses, and bound
    all cached tree nodes, zero nodes included. -/
def build (key : MembershipKey Node Commitment) (ctx : Bytes32) (coins : List (CoinRecord Commitment))
    (maxDepth maxNodes : ℕ) : Except TreeError (CoinTree Node) :=
  if !depthAllowed maxDepth then .error .depth
  else if coins.length > 2 ^ maxDepth then .error .capacity
  else do
    let (nodes, depth) ← countNodes (max coins.length 1) (maxDepth + 1) 0
    if nodes > maxNodes then .error .capacity
    else
      let order := byPosition coins
      if order.map (·.position) ≠ List.range coins.length then .error .position
      else do
        let index ← addressIndex order
        return {
          context := ctx
          parent := key.parent ctx
          addresses := order.map (·.address)
          index := index
          layers := (List.range (depth + 1)).map
            (layer (key.parent ctx) (key.zeros ctx) (leafLayer key ctx order))
          zeros := key.zeros ctx
          depth := depth
          maxDepth := maxDepth }

variable (tree : CoinTree Node)

/-- The top of the layers; a layer is never empty. -/
def top : Node := ((tree.layers.getD tree.depth []).head?).getD (tree.zeros tree.depth)

/-- The root padded with zero subtrees, `steps` levels up. -/
def padded : ℕ → Node
  | 0 => tree.top
  | steps + 1 => tree.parent (padded steps) (tree.zeros (tree.depth + steps))

def rootAtDepth (depth : ℕ) : Except TreeError (RootRecord Node) :=
  if depth < tree.depth ∨ depth > tree.maxDepth then .error .depth
  else .ok ⟨tree.context, depth, tree.addresses.length, tree.padded (depth - tree.depth)⟩

/-- The cached node, the zero node of the level when there is none. -/
def node (level index : ℕ) : Node :=
  (tree.layers[level]?.bind fun layer => layer[index]?).getD (tree.zeros level)

def pathFrom : (level index steps : ℕ) → AuthPath Node
  | _, _, 0 => AuthPath.empty
  | level, index, steps + 1 =>
    (pathFrom (level + 1) (index / 2) steps).cons (tree.node level (index ^^^ 1)) (index % 2 ≠ 0)

def authPath (address : Bytes32) (depth : ℕ) : Except TreeError (AuthPath Node) :=
  if depth < tree.depth ∨ depth > tree.maxDepth then .error .depth
  else
    match tree.index.lookup address with
    | none => .error .missingCoin
    | some index => .ok (tree.pathFrom 0 index depth)

end CoinTree

/-! ### The frontier -/

/-- The loop of `appendLeafWith` from `level` up: the slots after it and the nodes emitted. -/
def appendFrom (parent : Node → Node → Node) (count : ℕ) :
    (level : ℕ) → List (Option Node) → Node → List (Option Node) × List (CompletedNode Node)
  | _, [], _ => ([], [])
  | level, none :: slots, node => (some node :: slots, [⟨level, count / 2 ^ level, node⟩])
  | level, some left :: slots, node =>
    let (slots, emitted) := appendFrom parent count (level + 1) slots (parent left node)
    (none :: slots, ⟨level, count / 2 ^ level, node⟩ :: emitted)

/-- A leaf fills the lowest empty slot and empties those below it. -/
theorem isSome_appendFrom (parent : Node → Node → Node) (count : ℕ) {level c : ℕ} {slots : List (Option Node)}
    {node : Node} (h : slots.map Option.isSome = occupancy c slots.length) :
    (appendFrom parent count level slots node).1.map Option.isSome = occupancy (c + 1) slots.length := by
  induction slots generalizing level c node with
  | nil => rfl
  | cons slot slots ih =>
    rw [map_cons, length_cons, occupancy, cons.injEq] at h
    rcases slot with _ | left
    · have heven : c % 2 = 0 := by simpa using h.1
      rw [appendFrom, map_cons, length_cons, occupancy, h.2, show (c + 1) / 2 = c / 2 by omega]
      simp [show (c + 1) % 2 = 1 by omega]
    have hodd : c % 2 = 1 := by simpa using h.1
    rw [appendFrom]
    dsimp only
    rw [map_cons, ih h.2, length_cons, occupancy, show (c + 1) / 2 = c / 2 + 1 by omega]
    simp [show (c + 1) % 2 = 0 by omega]

/-- Append-only frontier: for each level the left node awaiting its right sibling, one for each set bit of the
    count. -/
structure Frontier (Node : Type) where
  context : Bytes32
  maxDepth : ℕ
  count : ℕ
  filled : List (Option Node)
  depth_allowed : depthAllowed maxDepth = true
  capacity : count ≤ 2 ^ maxDepth
  occupied : filled.map Option.isSome = occupancy count (maxDepth + 1)

namespace Frontier

theorem length_filled (frontier : Frontier Node) : frontier.filled.length = frontier.maxDepth + 1 := by
  simpa using congrArg length frontier.occupied

def new (ctx : Bytes32) (maxDepth : ℕ) : Except TreeError (Frontier Node) :=
  if h : depthAllowed maxDepth = true then
    .ok {
      context := ctx
      maxDepth := maxDepth
      count := 0
      filled := List.replicate (maxDepth + 1) none
      depth_allowed := h
      capacity := Nat.zero_le _
      occupied := by rw [occupancy_zero, List.map_replicate]; rfl }
  else .error .depth

def currentDepth (frontier : Frontier Node) : ℕ := min (depthFor frontier.count) frontier.maxDepth

/-- Put a leaf into the next position, with the subtrees it completes. -/
def appendLeafWith (m : Membership Node) (frontier : Frontier Node)
    (h : frontier.count < 2 ^ frontier.maxDepth) (node : Node) : Frontier Node × List (CompletedNode Node) :=
  let appended := appendFrom (m.parent frontier.context) frontier.count 0 frontier.filled node
  ({ frontier with
      count := frontier.count + 1
      filled := appended.1
      capacity := h
      occupied := by
        have hslots := frontier.length_filled
        rw [← hslots]
        exact isSome_appendFrom _ _ (hslots ▸ frontier.occupied) },
    appended.2)

/-- Append the coin at the next position. Capacity is `2 ^ maxDepth` leaves. -/
def append (key : MembershipKey Node Commitment) (frontier : Frontier Node) (owner : List UInt8)
    (commitment : Commitment) : Except TreeError (ℕ × Frontier Node) :=
  if h : frontier.count ≥ 2 ^ frontier.maxDepth then .error .capacity
  else .ok (frontier.count, (frontier.appendLeafWith key.toMembership (Nat.lt_of_not_ge h)
    (committedLeaf key frontier.context owner commitment)).1)

/-- Append while exposing the newly completed leaf and parent subtrees. -/
def appendWithNodes (key : MembershipKey Node Commitment) (frontier : Frontier Node) (owner : List UInt8)
    (commitment : Commitment) : Except TreeError (ℕ × List (CompletedNode Node) × Frontier Node) :=
  if h : frontier.count ≥ 2 ^ frontier.maxDepth then .error .capacity
  else
    let appended := frontier.appendLeafWith key.toMembership (Nat.lt_of_not_ge h)
      (committedLeaf key frontier.context owner commitment)
    .ok (frontier.count, appended.2, appended.1)

/-- Fold the pending left nodes upward, padding with zero subtrees. -/
def foldPending (parent : Node → Node → Node) (zeros : ℕ → Node) :
    (level : ℕ) → List (Option Node) → Option Node → Option Node
  | _, [], node => node
  | level, slot :: slots, node =>
    foldPending parent zeros (level + 1) slots (carryOver parent (zeros level) slot node)

def rootAtDepth (m : Membership Node) (frontier : Frontier Node) (depth : ℕ) :
    Except TreeError (RootRecord Node) :=
  if depth < frontier.currentDepth ∨ depth > frontier.maxDepth then .error .depth
  else
    let node := foldPending (m.parent frontier.context) (m.zeros frontier.context) 0
      (frontier.filled.take depth) none
    let root := (node.or (frontier.filled[depth]?.join)).getD (m.zeros frontier.context depth)
    .ok ⟨frontier.context, depth, frontier.count, root⟩

end Frontier

/-! ### Paths from emitted nodes -/

inductive IndexedWitnessError (E : Type) where
  | tree (error : TreeError)
  | lookup (error : E)
  | missingNode
  | rootMismatch
deriving DecidableEq, Repr

/-- Reconstruct paths from completed subtrees without retaining all leaves. -/
structure IndexedTree where
  context : Bytes32
  /-- Zero nodes are kept for the levels up to this one. -/
  maxDepth : ℕ
deriving DecidableEq, Repr

namespace IndexedTree
variable {E : Type}

def new (ctx : Bytes32) (maxDepth : ℕ) : Except TreeError IndexedTree :=
  if depthAllowed maxDepth then .ok ⟨ctx, maxDepth⟩ else .error .depth

/-- The node of a subtree: zero past the coins, looked up when complete, else from its halves. -/
def subtree (m : Membership Node) (ctx : Bytes32) (lookup : ℕ → ℕ → Except E (Option Node)) (count : ℕ) :
    (level index : ℕ) → Except (IndexedWitnessError E) Node
  | level, index =>
    if index * 2 ^ level ≥ count then .ok (m.zeros ctx level)
    else if index * 2 ^ level + 2 ^ level ≤ count then
      match lookup level index with
      | .error error => .error (.lookup error)
      | .ok none => .error .missingNode
      | .ok (some node) => .ok node
    else
      match level with
      -- A leaf is past the coins or complete.
      | 0 => .error .missingNode
      | level + 1 => do
        let left ← subtree m ctx lookup count level (index * 2)
        let right ← subtree m ctx lookup count level (index * 2 + 1)
        return m.parent ctx left right

/-- The loop of `authPath` from `level`: the siblings, and the node climbed to. -/
def climbFrom (m : Membership Node) (ctx : Bytes32) (lookup : ℕ → ℕ → Except E (Option Node))
    (count : ℕ) :
    (level index steps : ℕ) → Node → Except (IndexedWitnessError E) (AuthPath Node × Node)
  | _, _, 0, node => .ok (AuthPath.empty, node)
  | level, index, steps + 1, node => do
    let sibling ← subtree m ctx lookup count level (index ^^^ 1)
    let right := decide (index % 2 ≠ 0)
    let (path, top) ← climbFrom m ctx lookup count (level + 1) (index / 2) steps
      (if right then m.parent ctx sibling node else m.parent ctx node sibling)
    return (path.cons sibling right, top)

/-- The reconstructed leaf-to-root path is checked before returning it. -/
def authPath [DecidableEq Node] (key : MembershipKey Node Commitment) (tree : IndexedTree)
    (root : RootRecord Node) (coin : CoinRecord Commitment) (lookup : ℕ → ℕ → Except E (Option Node)) :
    Except (IndexedWitnessError E) (AuthPath Node) :=
  match root.validate with
  | .error error => .error (.tree error)
  | .ok () =>
    if root.context ≠ tree.context then .error (.tree .context)
    else if root.depth ≥ tree.maxDepth + 1 then .error (.tree .depth)
    else if coin.position ≥ root.coins then .error (.tree .missingCoin)
    else
      match key.fromIdentityBytes coin.owner with
      | none => .error (.tree .encoding)
      | some owner => do
        let (path, node) ← climbFrom key.toMembership tree.context lookup root.coins 0 coin.position
          root.depth (key.leaf tree.context owner coin.commitment)
        if node ≠ root.root then .error .rootMismatch else .ok path

end IndexedTree

/-! ### The frontier's encoding -/

/-- `Node::to_bytes` and `Node::from_bytes`: a fixed-length encoding with one string a node. -/
structure NodeCodec (Node : Type) where
  nodeBytes : ℕ
  toBytes : Node → List UInt8
  fromBytes : List UInt8 → Option Node
  length_toBytes : ∀ node, (toBytes node).length = nodeBytes
  fromBytes_toBytes : ∀ node, fromBytes (toBytes node) = some node
  toBytes_fromBytes : ∀ bytes node, fromBytes bytes = some node → toBytes node = bytes

def FRONTIER_VERSION : List UInt8 := [0x51, 0x43, 0x54, 0x33, 0x46, 0x52, 0x00, 0x02]

def FRONTIER_HEADER_BYTES : ℕ := 8 + 32 + 1 + 8

/-- A context as it is written. -/
def contextBytes (ctx : Bytes32) : List UInt8 :=
  (List.range 32).map fun i => UInt8.ofBitVec (ctx.extractLsb' (8 * (31 - i)) 8)

namespace Frontier
variable (codec : NodeCodec Node)

/-- Version, context, depth, count, and the filled node of every set bit of the count, in ascending level order. -/
def encode (frontier : Frontier Node) : List UInt8 :=
  FRONTIER_VERSION ++ (contextBytes frontier.context ++ (UInt8.ofNat frontier.maxDepth ::
    (leBytes 8 frontier.count ++ (frontier.filled.filterMap id).flatMap codec.toBytes)))

/-- The slots of a count read from the bytes, a node for each set bit. -/
def readFilled : (count len : ℕ) → List UInt8 → Option (List (Option Node))
  | _, 0, _ => some []
  | count, len + 1, bytes =>
    if count % 2 = 1 then do
      let node ← codec.fromBytes (bytes.take codec.nodeBytes)
      let slots ← readFilled (count / 2) len (bytes.drop codec.nodeBytes)
      return some node :: slots
    else do
      let slots ← readFilled (count / 2) len bytes
      return none :: slots

variable {codec}

theorem occupied_of_readFilled {count len : ℕ} {bytes : List UInt8} {slots : List (Option Node)}
    (h : readFilled codec count len bytes = some slots) : slots.map Option.isSome = occupancy count len := by
  induction len generalizing count bytes slots with
  | zero =>
    cases h
    rfl
  | succ len ih =>
    rw [readFilled] at h
    split at h
    · next hodd =>
      obtain ⟨node, -, h⟩ := Option.bind_eq_some_iff.1 h
      obtain ⟨rest, hrest, h⟩ := Option.bind_eq_some_iff.1 h
      cases h
      rw [map_cons, ih hrest, occupancy]
      simp [hodd]
    next heven =>
    obtain ⟨rest, hrest, h⟩ := Option.bind_eq_some_iff.1 h
    cases h
    rw [map_cons, ih hrest, occupancy]
    simp [heven]

variable (codec)

/-- The count in the header. -/
def readCount (bytes : List UInt8) : ℕ := ofLeBytes ((bytes.drop 41).take 8)

def decode (bytes : List UInt8) (ctx : Bytes32) (maxDepth : ℕ) : Except TreeError (Frontier Node) :=
  if bytes.length < FRONTIER_HEADER_BYTES ∨ bytes.take 8 ≠ FRONTIER_VERSION then .error .encoding
  else if (bytes.drop 8).take 32 ≠ contextBytes ctx then .error .context
  else if hdepth : (bytes.getD 40 0).toNat ≠ maxDepth ∨ depthAllowed maxDepth = false then .error .depth
  else if hcapacity : readCount bytes > 2 ^ maxDepth then .error .capacity
  else
    let expected := (occupancy (readCount bytes) (maxDepth + 1)).count true
    if bytes.length ≠ FRONTIER_HEADER_BYTES + expected * codec.nodeBytes then .error .encoding
    else
      match hread : readFilled codec (readCount bytes) (maxDepth + 1) (bytes.drop FRONTIER_HEADER_BYTES) with
      | none => .error .encoding
      | some filled => .ok {
          context := ctx
          maxDepth := maxDepth
          count := readCount bytes
          filled := filled
          depth_allowed := by simpa using (not_or.1 hdepth).2
          capacity := Nat.le_of_not_gt hcapacity
          occupied := occupied_of_readFilled hread }

end Frontier

end Quil.ShardedTree
