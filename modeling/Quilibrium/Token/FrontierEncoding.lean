import Quilibrium.Token.FrontierRoots

/-! The frontier's encoding is CANONICAL: a frontier reads back as itself, and bytes that are accepted are the
    encoding of the frontier they are read as. With the roots and paths of `FrontierRoots` this is what makes
    the persisted frontier stand for the whole tree. -/

namespace Quil.ShardedTree
open Schemes List Option Frontier

variable {Node Commitment : Type}

/-! ### The nodes -/

variable {count : ℕ} {bytes : List UInt8}

section
variable (codec : NodeCodec Node)

theorem flatMap_some (node : Node) (slots : List (Option Node)) :
    ((some node :: slots).filterMap id).flatMap codec.toBytes =
      codec.toBytes node ++ (slots.filterMap id).flatMap codec.toBytes := rfl

theorem length_flatMap_toBytes (slots : List (Option Node)) : ((slots.filterMap id).flatMap codec.toBytes).length =
      (slots.map isSome).count true * codec.nodeBytes := by
  induction slots with
  | nil => simp
  | cons slot slots ih =>
    rcases slot with _ | node
    · simpa using ih
    rw [flatMap_some, length_append, codec.length_toBytes, ih,
      map_cons, isSome_some, count_cons_self, Nat.succ_mul, add_comm]

/-- Written nodes read back. -/
theorem readFilled_encoded {slots : List (Option Node)} {len : ℕ}
    (h : slots.map isSome = occupancy count len) :
    readFilled codec count len ((slots.filterMap id).flatMap codec.toBytes) = some slots := by
  induction slots generalizing count len with
  | nil =>
    cases len with
    | zero => rfl
    | succ len => cases h
  | cons slot slots ih =>
    cases len with
    | zero => cases h
    | succ len =>
      rw [occupancy, map_cons, cons.injEq] at h
      obtain ⟨hbit, hrest⟩ := h
      have hread := ih hrest
      rcases slot with _ | node
      · have heven : ¬ count % 2 = 1 := by simpa using hbit
        rw [filterMap_cons_none rfl, readFilled, if_neg heven, hread]
        rfl
      have hodd : count % 2 = 1 := by simpa using hbit
      rw [flatMap_some, readFilled, if_pos hodd,
        take_left' (codec.length_toBytes node), drop_left' (codec.length_toBytes node),
        codec.fromBytes_toBytes, hread]
      rfl

/-- Nodes that are read are the written form of the slots. -/
theorem encoded_of_readFilled {len : ℕ} {slots : List (Option Node)}
    (h : readFilled codec count len bytes = some slots)
    (hlength : bytes.length = (occupancy count len).count true * codec.nodeBytes) :
    (slots.filterMap id).flatMap codec.toBytes = bytes := by
  induction len generalizing count bytes slots with
  | zero =>
    cases h
    exact (eq_nil_of_length_eq_zero (by simpa [occupancy] using hlength)).symm
  | succ len ih =>
    rw [readFilled] at h
    split at h
    · next hodd =>
      obtain ⟨node, hnode, h⟩ := bind_eq_some_iff.1 h
      obtain ⟨rest, hrest, h⟩ := bind_eq_some_iff.1 h
      cases h
      rw [occupancy, decide_eq_true hodd, count_cons_self, Nat.succ_mul] at hlength
      rw [flatMap_some, codec.toBytes_fromBytes _ _ hnode, ih hrest (by rw [length_drop]; omega), take_append_drop]
    next heven =>
    obtain ⟨rest, hrest, h⟩ := bind_eq_some_iff.1 h
    cases h
    rw [occupancy, decide_eq_false heven, count_cons_of_ne (by decide)] at hlength
    rw [filterMap_cons_none rfl]
    exact ih hrest hlength

end

/-! ### The whole record -/

/-- A record of a header and nodes: its parts by their offsets. -/
theorem header_slices (version context count nodes : List UInt8) (depth : UInt8) (hversion : version.length = 8)
    (hcontext : context.length = 32) (hcount : count.length = 8) :
    let bytes := version ++ (context ++ (depth :: (count ++ nodes)))
    bytes.take 8 = version ∧ (bytes.drop 8).take 32 = context ∧ bytes.getD 40 0 = depth ∧
      (bytes.drop 41).take 8 = count ∧ bytes.drop 49 = nodes ∧ bytes.length = 49 + nodes.length := by
  intro bytes
  have hdrop8 : bytes.drop 8 = context ++ (depth :: (count ++ nodes)) := drop_left' hversion
  have hdrop40 : bytes.drop 40 = depth :: (count ++ nodes) := by
    rw [show 40 = 8 + 32 by rfl, ← drop_drop, hdrop8, drop_left' hcontext]
  have hdrop41 : bytes.drop 41 = count ++ nodes := by
    rw [show 41 = 40 + 1 by rfl, ← drop_drop, hdrop40]
    rfl
  refine ⟨take_left' hversion, by rw [hdrop8, take_left' hcontext], ?_, by rw [hdrop41, take_left' hcount], ?_, ?_⟩
  · rw [getD_eq_getElem?_getD, ← add_zero 40, ← getElem?_drop, hdrop40]
    rfl
  · rw [show 49 = 41 + 8 by rfl, ← drop_drop, hdrop41, drop_left' hcount]
  · simp [bytes, hversion, hcontext, hcount]
    omega

/-- Bytes of at least a header are put together from the parts. -/
theorem header_parts (h : 49 ≤ bytes.length) : bytes.take 8 ++ ((bytes.drop 8).take 32 ++
      (bytes.getD 40 0 :: ((bytes.drop 41).take 8 ++ bytes.drop 49))) = bytes := by
  have hbyte : bytes.drop 40 = bytes.getD 40 0 :: bytes.drop 41 := by
    rw [drop_eq_getElem_cons (by omega), getD_eq_getElem _ _ (by omega)]
  have htail : (bytes.drop 41).take 8 ++ bytes.drop 49 = bytes.drop 41 := by
    rw [show 49 = 41 + 8 by rfl, ← drop_drop, take_append_drop]
  rw [htail, ← hbyte, show 40 = 8 + 32 by rfl, ← drop_drop, take_append_drop, take_append_drop]

theorem length_contextBytes (context : Bytes32) : (contextBytes context).length = 32 := by
  simp [contextBytes]

theorem maxDepth_range (frontier : Frontier Node) : 1 ≤ frontier.maxDepth ∧ frontier.maxDepth ≤ 32 := by
  have h := frontier.depth_allowed
  rw [depthAllowed, Bool.and_eq_true, decide_eq_true_eq, decide_eq_true_eq] at h
  exact h

theorem decode_encode (codec : NodeCodec Node) (frontier : Frontier Node) :
    decode codec (frontier.encode codec) frontier.context frontier.maxDepth = .ok frontier := by
  obtain ⟨hversion, hcontext, hdepth, hcount, hnodes, hlength⟩ := header_slices FRONTIER_VERSION
    (contextBytes frontier.context) (leBytes 8 frontier.count)
    ((frontier.filled.filterMap id).flatMap codec.toBytes) (UInt8.ofNat frontier.maxDepth) rfl
    (length_contextBytes frontier.context) (length_leBytes 8 frontier.count)
  change (frontier.encode codec).take 8 = _ at hversion
  change ((frontier.encode codec).drop 8).take 32 = _ at hcontext
  change (frontier.encode codec).getD 40 0 = _ at hdepth
  change ((frontier.encode codec).drop 41).take 8 = _ at hcount
  change (frontier.encode codec).drop 49 = _ at hnodes
  change (frontier.encode codec).length = _ at hlength
  have hrange := maxDepth_range frontier
  have hbytes : (UInt8.ofNat frontier.maxDepth).toNat = frontier.maxDepth := by
    rw [UInt8.toNat_ofNat']
    omega
  have hread : readCount (frontier.encode codec) = frontier.count := by
    have hlt : frontier.count < 256 ^ 8 :=
      frontier.capacity.trans_lt ((Nat.pow_le_pow_right (by decide) hrange.2).trans_lt (by decide))
    rw [readCount, hcount, ofLeBytes_leBytes hlt]
  have hfilled : readFilled codec (readCount (frontier.encode codec)) (frontier.maxDepth + 1)
      ((frontier.encode codec).drop FRONTIER_HEADER_BYTES) = some frontier.filled := by
    rw [hread, FRONTIER_HEADER_BYTES, hnodes]
    exact readFilled_encoded codec frontier.occupied
  have hexpected : (frontier.encode codec).length = FRONTIER_HEADER_BYTES +
      (occupancy (readCount (frontier.encode codec)) (frontier.maxDepth + 1)).count true * codec.nodeBytes := by
    rw [hlength, length_flatMap_toBytes, frontier.occupied, hread]
    rfl
  rw [decode, if_neg (not_or.2 ⟨?_, not_not.2 hversion⟩), if_neg (not_not.2 hcontext),
    dif_neg (not_or.2 ⟨not_not.2 (by rw [hdepth, hbytes]), by simp [frontier.depth_allowed]⟩),
    dif_neg (by rw [hread]; exact not_lt.2 frontier.capacity)]
  · dsimp only
    rw [if_neg (not_not.2 hexpected)]
    split
    · next hnone =>
      rw [hfilled] at hnone
      cases hnone
    next filled hsome =>
    rw [hfilled] at hsome
    cases hsome
    congr
  · rw [hlength, FRONTIER_HEADER_BYTES]
    omega

variable {context : Bytes32}

theorem encode_of_decode {codec : NodeCodec Node} {maxDepth : ℕ}
    {frontier : Frontier Node} (h : decode codec bytes context maxDepth = .ok frontier) :
    frontier.context = context ∧ frontier.maxDepth = maxDepth ∧ frontier.encode codec = bytes := by
  rw [decode, guard_eq_ok, guard_eq_ok] at h
  obtain ⟨hheader, hcontext, h⟩ := h
  split at h
  · cases h
  next hdepth =>
  split at h
  · cases h
  obtain ⟨hlength, h⟩ := guard_eq_ok.1 h
  split at h
  · cases h
  next filled hread =>
  cases h
  obtain ⟨hshort, hversion⟩ := not_or.1 hheader
  rw [FRONTIER_HEADER_BYTES] at hshort hlength hread
  refine ⟨rfl, rfl, ?_⟩
  have hnodes := encoded_of_readFilled codec hread (by rw [length_drop]; omega)
  have hcount : leBytes 8 (readCount bytes) = (bytes.drop 41).take 8 := by
    have h8 : ((bytes.drop 41).take 8).length = 8 := by simp; omega
    conv_lhs => rw [← h8]
    exact leBytes_ofLeBytes _
  have hbyte : .ofNat maxDepth = bytes.getD 40 0 := by rw [← not_not.1 (not_or.1 hdepth).1, UInt8.ofNat_toNat]
  rw [encode]
  dsimp only
  rw [hnodes, hcount, hbyte, ← not_not.1 hcontext, ← not_not.1 hversion]
  exact header_parts (by omega)

/-! ### The frontier stands for the tree -/

/-- A path rebuilt from complete subtrees is the tree's, and passes the check against the root. -/
theorem indexedPath_ok [DecidableEq Node] {key : MembershipKey Node Commitment}
    {order : List (CoinRecord Commitment)} (horder : InOrder order) {coin : CoinRecord Commitment}
    (hcoin : coin ∈ order) {owner : Node} (howner : key.fromIdentityBytes coin.owner = some owner)
    {depth indexDepth : ℕ} (hone : 1 ≤ depth) (hmax : depth ≤ MAX_DEPTH) (hroom : order.length ≤ 2 ^ depth)
    (hindex : depth ≤ indexDepth) {E : Type} {lookup : ℕ → ℕ → Except E (Option Node)}
    (hlookup : ∀ l i, l < depth → (i + 1) * 2 ^ l ≤ order.length →
      lookup l i = .ok (some (coinNode key context order l i))) : IndexedTree.authPath key ⟨context, indexDepth⟩
        ⟨context, depth, order.length, coinNode key context order depth 0⟩ coin lookup =
      .ok (.ofSteps (pathUp (coinNode key context order) 0 coin.position depth)) := by
  have hlt := horder.position_lt hcoin
  have hvalid : RootRecord.validate (⟨context, depth, order.length, coinNode key context order depth 0⟩ :
      RootRecord Node) = .ok () := by
    rw [RootRecord.validate, if_neg]
    dsimp only
    omega
  have hleaf : key.leaf context owner coin.commitment = coinNode key context order 0 coin.position := by
    rw [horder.leaf key context, getElem?_map, horder.getElem?_position.1 hcoin]
    simp only [map_some, getD_some, committedLeaf, howner]
  have htop : climb (key.parent context) (coinNode key context order 0 coin.position)
      (pathUp (coinNode key context order) 0 coin.position depth) = coinNode key context order depth 0 := by
    rw [climb_pathUp fun s _ => grown_coinNode key context order _ _, zero_add, Nat.div_eq_of_lt (hlt.trans_le hroom)]
  have hclimb : IndexedTree.climbFrom key.toMembership context lookup order.length 0 coin.position depth _ = _ :=
    climbFrom_ok key.toMembership (grown_coinNode key context order) (horder.padded key context)
      depth coin.position (fun l i hl hi => hlookup l i (by omega) hi)
      (coinNode key context order 0 coin.position)
  rw [IndexedTree.authPath, hvalid]
  dsimp only
  rw [if_neg (by simp), if_neg (by omega), if_neg (by omega), howner]
  dsimp only
  rw [hleaf, hclimb, htop]
  simp

/-- REFINEMENT: over the coins of any tree that is built, in leaf order, the frontier takes every coin at its
    position and has the tree's root at every depth, or none where the tree has none; it reads back from its
    encoding, and bytes are accepted only as the encoding of what they are read as; and the path of every
    coin with a canonical owner, rebuilt from the nodes emitted over the history, is the tree's. -/
theorem frontier_refines_tree [DecidableEq Node] (key : MembershipKey Node Commitment) (context : Bytes32)
    (codec : NodeCodec Node) {coins : List (CoinRecord Commitment)} {maxDepth maxNodes : ℕ}
    {tree : CoinTree Node} (hbuild : CoinTree.build key context coins maxDepth maxNodes = .ok tree) :
    (∃ empty nodes frontier, Frontier.new context maxDepth = .ok empty ∧
      appendCoins key empty (byPosition coins) = .ok (List.range coins.length, frontier) ∧
      appendCoinsWithNodes key empty (byPosition coins) = .ok (List.range coins.length, nodes, frontier) ∧
      (∀ depth, frontier.rootAtDepth key.toMembership depth = tree.rootAtDepth depth) ∧
      Frontier.decode codec (frontier.encode codec) context maxDepth = .ok frontier ∧
      ∀ coin ∈ coins, ∀ owner, key.fromIdentityBytes coin.owner = some owner →
        ∀ depth root, tree.rootAtDepth depth = .ok root →
        ∀ indexDepth indexed, IndexedTree.new context indexDepth = .ok indexed → depth ≤ indexDepth →
        ∀ (E : Type) (lookup : ℕ → ℕ → Except E (Option Node)),
          (∀ level index, lookup level index = .ok (nodeAt nodes level index)) →
          ∃ path, tree.authPath coin.address depth = .ok path ∧
            indexed.authPath key root coin lookup = .ok path) ∧
    ∀ bytes decoded, Frontier.decode codec bytes context maxDepth = .ok decoded →
      decoded.context = context ∧ decoded.maxDepth = maxDepth ∧ decoded.encode codec = bytes := by
  refine ⟨?_, fun bytes decoded => encode_of_decode⟩
  have h := treeOf_build key context hbuild
  have hallowed : 1 ≤ maxDepth ∧ maxDepth ≤ MAX_DEPTH := by
    have := h.allowed
    rwa [depthAllowed, Bool.and_eq_true, decide_eq_true_eq, decide_eq_true_eq] at this
  have hlength : (byPosition coins).length = coins.length := length_insertionSort ..
  obtain ⟨empty, hempty, hstart⟩ := follows_new (coinNode key context (byPosition coins)) context h.allowed
  obtain ⟨frontier, hnodes, hfollows⟩ := hstart.appendCoins h.inOrder h.room (drop_zero ..)
  rw [zero_add] at hfollows
  rw [← range_eq_range', hlength] at hnodes
  have hdepth : frontier.currentDepth = tree.depth := hfollows.currentDepth.unique h.depth
  refine ⟨empty, _, frontier, hempty, appendCoins_of_withNodes hnodes, hnodes, fun depth => ?_, ?_, ?_⟩
  · rw [hfollows.rootAtDepth h.inOrder, h.rootAtDepth, hdepth]
  · have hcodec := decode_encode codec frontier
    rwa [hfollows.context_eq, hfollows.maxDepth_eq] at hcodec
  intro coin hcoin owner howner depth root hroot indexDepth indexed hindexed hle E lookup hlookup
  have hcoin : coin ∈ byPosition coins := (mem_insertionSort _).2 hcoin
  rw [h.rootAtDepth] at hroot
  split at hroot
  · cases hroot
  next hheld =>
  cases hroot
  obtain ⟨htree, hmax⟩ : tree.depth ≤ depth ∧ depth ≤ maxDepth := by omega
  refine ⟨_, h.authPath hcoin htree hmax, ?_⟩
  rw [IndexedTree.new] at hindexed
  split at hindexed
  · cases hindexed
    refine indexedPath_ok h.inOrder hcoin howner (by have := h.depth.1; omega)
      (hmax.trans hallowed.2)
      (h.depth.2.1.trans (Nat.pow_le_pow_right (by decide) htree)) hle fun l i hl hi => ?_
    rw [hlookup, nodeAt_history _ (by omega) (hlength ▸ hi)]
  · cases hindexed

/-- A key over bytes, for concrete runs: an owner is canonical when it is one byte, and a hash is never the
    zero byte. -/
def byteKey : MembershipKey UInt8 UInt8 where
  zero := 0
  parent _ left right := UInt8.ofBitVec ((2 * left + 3 * right).toBitVec ||| 1)
  leaf _ owner commitment := owner + commitment
  fromIdentityBytes
    | [owner] => some owner
    | _ => none

def byteCodec : NodeCodec UInt8 where
  nodeBytes := 1
  toBytes node := [node]
  fromBytes
    | [node] => some node
    | _ => none
  length_toBytes _ := rfl
  fromBytes_toBytes _ := rfl
  toBytes_fromBytes bytes node h := by
    split at h
    · cases h
      rfl
    · cases h

/-- Two coins, given out of order. -/
def twoCoins : List (CoinRecord UInt8) := [⟨2, [6], 8, 1⟩, ⟨1, [5], 7, 0⟩]

/-- Two coins in a frontier of three levels. -/
theorem frontier_refines_tree_two : ∃ tree empty nodes frontier,
    CoinTree.build byteKey 0 twoCoins 3 100 = .ok tree ∧ Frontier.new 0 3 = .ok empty ∧
    appendCoinsWithNodes byteKey empty (byPosition twoCoins) = .ok ([0, 1], nodes, frontier) ∧
    ∀ depth, frontier.rootAtDepth byteKey.toMembership depth = tree.rootAtDepth depth := by
  have hcount : countNodes 2 4 0 = .ok (7, 1) := by
    rw [countNodes, if_neg (by decide), if_neg (by decide), countNodes, if_neg (by decide), if_pos (by decide)]
  obtain ⟨tree, hbuild⟩ : ∃ tree, CoinTree.build byteKey 0 twoCoins 3 100 = .ok tree := ⟨_, by
    rw [CoinTree.build, if_neg (by decide), if_neg (by decide), show max twoCoins.length 1 = 2 from rfl, hcount]
    rfl⟩
  obtain ⟨⟨empty, nodes, frontier, hempty, -, hnodes, hroots, -⟩, -⟩ :=
    frontier_refines_tree byteKey 0 byteCodec hbuild
  exact ⟨tree, empty, nodes, frontier, hbuild, hempty, hnodes, hroots⟩

/-- The slots above the first hold no zero byte. -/
def Hashed (frontier : Frontier UInt8) : Prop := some 0 ∉ frontier.filled.tail

theorem byteKey_parent_ne_zero (context : Bytes32) (left right : UInt8) : byteKey.parent context left right ≠ 0 := by
  intro h
  have hbit := congrArg (fun byte => byte.toBitVec.getLsbD 0) h
  simp [byteKey] at hbit

theorem appendFrom_ne_zero {level : ℕ} {slots : List (Option UInt8)} {node : UInt8} (hslots : some 0 ∉ slots)
    (hnode : node ≠ 0) : some 0 ∉ (appendFrom (byteKey.parent context) count level slots node).1 := by
  induction slots generalizing level node with
  | nil => exact not_mem_nil
  | cons slot slots ih =>
    rw [mem_cons, not_or] at hslots
    rcases slot with _ | left
    · rw [appendFrom, mem_cons, not_or]
      exact ⟨fun h => hnode (some.inj h).symm, hslots.2⟩
    rw [appendFrom]
    exact not_mem_cons_of_ne_of_not_mem (by simp) (ih hslots.2 (byteKey_parent_ne_zero _ _ _))

theorem Hashed.append {frontier next : Frontier UInt8} {owner : List UInt8} {commitment : UInt8} {position : ℕ}
    (hashed : Hashed frontier) (h : frontier.append byteKey owner commitment = .ok (position, next)) :
    Hashed next ∧ next.context = frontier.context ∧ next.maxDepth = frontier.maxDepth := by
  rw [Frontier.append] at h
  split at h
  · cases h
  cases h
  refine ⟨?_, rfl, rfl⟩
  rw [Hashed] at hashed ⊢
  change some 0 ∉ (appendFrom _ _ 0 frontier.filled _).1.tail
  rcases hslots : frontier.filled with _ | ⟨slot, slots⟩
  · exact not_mem_nil
  rw [hslots, tail_cons] at hashed
  cases slot with
  | none => exact hashed
  | some left => exact appendFrom_ne_zero hashed (byteKey_parent_ne_zero _ _ _)

theorem Hashed.appendCoins {frontier final : Frontier UInt8} {coins : List (CoinRecord UInt8)} {positions : List ℕ}
    (hashed : Hashed frontier) (h : appendCoins byteKey frontier coins = .ok (positions, final)) :
    Hashed final ∧ final.context = frontier.context ∧ final.maxDepth = frontier.maxDepth := by
  induction coins generalizing frontier positions with
  | nil =>
    cases h
    exact ⟨hashed, rfl, rfl⟩
  | cons coin coins ih =>
    obtain ⟨⟨position, next⟩, hnext, h⟩ := bind_ok h
    obtain ⟨⟨rest, last⟩, hlast, h⟩ := bind_ok h
    cases h
    obtain ⟨hhashed, hcontext, hdepth⟩ := hashed.append hnext
    obtain ⟨hfinal, hcontext', hdepth'⟩ := ih hhashed hlast
    exact ⟨hfinal, hcontext'.trans hcontext, hdepth'.trans hdepth⟩

/-- A frontier of one level after two coins whose hash is written as the zero byte. -/
def unhashedBytes : List UInt8 :=
  FRONTIER_VERSION ++ (contextBytes 0 ++ (1 :: (leBytes 8 2 ++ [0])))

/-- The tree has a path for a burned coin and the index has none; and bytes are accepted as a frontier that no
    appends reach, since no node is checked to be a hash. -/
theorem burned_path_and_unhashed_bytes :
    (∃ tree root path, CoinTree.build byteKey 0 [⟨1, [], 7, 0⟩] 1 100 = .ok tree ∧
      tree.rootAtDepth 1 = .ok root ∧ tree.authPath 1 1 = .ok path ∧
      ∀ lookup : ℕ → ℕ → Except Unit (Option UInt8),
        IndexedTree.authPath byteKey ⟨0, 1⟩ root ⟨1, [], 7, 0⟩ lookup = .error (.tree .encoding)) ∧
    (∃ decoded, Frontier.decode byteCodec unhashedBytes 0 1 = .ok decoded) ∧
    ∀ empty coins positions final, Frontier.new 0 1 = .ok empty →
      appendCoins byteKey empty coins = .ok (positions, final) → final.encode byteCodec ≠ unhashedBytes := by
  have hdecode : decode byteCodec unhashedBytes 0 1 =
      .ok ⟨0, 1, 2, [none, some 0], rfl, by decide, by decide⟩ := by rfl
  refine ⟨?_, ⟨_, hdecode⟩, fun empty coins positions final hnew happend hencode => ?_⟩
  · have hcount : countNodes 1 2 0 = .ok (4, 1) := by
      rw [countNodes, if_neg (by decide), if_neg (by decide), countNodes, if_neg (by decide), if_pos (by decide)]
    obtain ⟨tree, hbuild⟩ : ∃ tree, CoinTree.build byteKey 0 [⟨1, [], 7, 0⟩] 1 100 = .ok tree := ⟨_, by
      rw [CoinTree.build, if_neg (by decide), if_neg (by decide), length_singleton, max_self, hcount]
      rfl⟩
    have h := treeOf_build byteKey 0 hbuild
    have hdepth : tree.depth ≤ 1 := h.depth.le le_rfl (by decide)
    have hroot := h.rootAtDepth 1
    rw [if_neg (by omega)] at hroot
    exact ⟨tree, _, _, hbuild, hroot, h.authPath (mem_singleton.2 rfl) hdepth le_rfl, fun lookup => rfl⟩
  have hempty : empty.context = 0 ∧ empty.maxDepth = 1 ∧ Hashed empty := by
    cases hnew
    exact ⟨rfl, rfl, by simp [Hashed]⟩
  obtain ⟨hashed, hcontext, hdepth⟩ := hempty.2.2.appendCoins happend
  have hread := decode_encode byteCodec final
  rw [hencode, hcontext, hdepth, hempty.1, hempty.2.1, hdecode] at hread
  cases hread
  exact hashed (by decide)

end Quil.ShardedTree
