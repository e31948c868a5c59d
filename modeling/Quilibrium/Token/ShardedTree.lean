import Quilibrium.Types
import Quilibrium.Schemes.SparseTree

/-! The sparse fold of `quil-lattice-ct`'s `sharded_tree.rs`: nodes placed at arbitrary levels are folded level by
    level into the node at the top, everything absent folding as the zero subtree of its level. The compression of two
    nodes is a parameter, one function a context. -/

namespace Quil.ShardedTree
open Schemes List

/-- The errors the trees raise (`coin_tree.rs`). -/
inductive TreeError where
  | capacity
  | depth
  | duplicateAddress
  | position
  | missingCoin
  | encoding
  | context
deriving DecidableEq, Repr

/-- An error as its `Debug` form prints it. -/
def TreeError.debug : TreeError → String
  | capacity => "Capacity"
  | depth => "Depth"
  | duplicateAddress => "DuplicateAddress"
  | position => "Position"
  | missingCoin => "MissingCoin"
  | encoding => "Encoding"
  | context => "Context"

/-- Deepest tree the membership relation allows. -/
def MAX_DEPTH : ℕ := 32

/-- `Node::zero()`, and `parent` of the key `MembershipKey::derive` makes of a context. -/
structure Membership (Node : Type) where
  zero : Node
  parent : Bytes32 → Node → Node → Node

variable {Node : Type}

/-- The zero subtree of every level, under one context. -/
def Membership.zeros (m : Membership Node) (ctx : Bytes32) : ℕ → Node :=
  Schemes.zeros (m.parent ctx) m.zero

/-- One level of the sparse fold of nodes sorted by index without repeats; `zero` is the zero node at
    the nodes' own level. -/
def foldOnce (parent : Node → Node → Node) (zero : Node) : List (ℕ × Node) → List (ℕ × Node)
  | [] => []
  | [(index, node)] => [(index / 2, if index % 2 = 0 then parent node zero else parent zero node)]
  | (index, node) :: (nextIndex, nextNode) :: rest =>
    if index % 2 = 0 then
      if nextIndex = index + 1 then
        (index / 2, parent node nextNode) :: foldOnce parent zero rest
      else
        (index / 2, parent node zero) :: foldOnce parent zero ((nextIndex, nextNode) :: rest)
    else (index / 2, parent zero node) :: foldOnce parent zero ((nextIndex, nextNode) :: rest)

/-- Sorted, duplicate-free sparse level, as every fold requires. -/
def sortedLevel (nodes : List (ℕ × Node)) : Except TreeError (List (ℕ × Node)) :=
  let sorted := nodes.insertionSort fun a b => a.1 ≤ b.1
  if (sorted.zip sorted.tail).any fun pair => pair.1.1 == pair.2.1 then .error .position
  else .ok sorted

/-- The nodes placed at one level. -/
def placedAt (nodes : List (ℕ × ℕ × Node)) (level : ℕ) : List (ℕ × Node) :=
  nodes.filterMap fun n => if n.1 = level then some n.2 else none

/-- The fold's loop over the levels `level ..< level + steps`. -/
def foldLevels (parent : Node → Node → Node) (zeros : ℕ → Node) (nodes : List (ℕ × ℕ × Node)) :
    (level steps : ℕ) → List (ℕ × Node) → Except TreeError (List (ℕ × Node))
  | _, 0, carried => .ok carried
  | level, steps + 1, carried => do
    let here ← sortedLevel (placedAt nodes level ++ carried)
    foldLevels parent zeros nodes (level + 1) steps (foldOnce parent (zeros level) here)

/-- Fold nodes `(level, index, node)` into the node at `(top_level, 0)`. -/
def foldSparse (m : Membership Node) (ctx : Bytes32) (topLevel : ℕ)
    (nodes : List (ℕ × ℕ × Node)) : Except TreeError Node := do
  if topLevel = 0 ∨ topLevel > MAX_DEPTH then .error .depth
  else if nodes.any fun n => n.1 ≥ topLevel || n.2.1 ≥ 2 ^ (topLevel - n.1) then .error .position
  else
    match (nodes.map Prod.fst).min? with
    | none => .ok (m.zeros ctx topLevel)
    | some start =>
      match ← foldLevels (m.parent ctx) (m.zeros ctx) nodes start (topLevel - start) [] with
      | [] => .ok (m.zeros ctx topLevel)
      | [(0, node)] => .ok node
      | _ => .error .position

/-! ### One level -/

section
variable {parent : Node → Node → Node} {zero : Node} {nodes : List (ℕ × Node)}

/-- Keys of the folded level are at least half the least key. -/
theorem le_of_mem_foldOnce {k : ℕ} (h : ∀ x ∈ nodes, k ≤ x.1) : ∀ y ∈ foldOnce parent zero nodes, k / 2 ≤ y.1 := by
  fun_induction foldOnce parent zero nodes with
  | case1 => simp
  | case2 index node =>
    have := h _ mem_cons_self
    simp only [mem_singleton, forall_eq]
    omega
  | case3 index node nextNode rest heven ih =>
    have := h _ mem_cons_self
    rw [forall_mem_cons]
    exact ⟨by dsimp only at *; omega, ih fun x hx => h x (by simp [hx])⟩
  | case4 index node nextIndex nextNode rest heven hne ih | case5 index node nextIndex nextNode rest hodd ih =>
    have := h _ mem_cons_self
    rw [forall_mem_cons]
    exact ⟨by dsimp only at *; omega, ih fun x hx => h x (mem_cons_of_mem _ hx)⟩

/-- Folding a level gives each parent of a present node, and keeps the order. -/
theorem foldOnce_spec (parent : Node → Node → Node) (zero : Node) (h : Ascending nodes) :
    Ascending (foldOnce parent zero nodes) ∧ ∀ i, (foldOnce parent zero nodes).lookup i =
      join parent zero (nodes.lookup (2 * i)) (nodes.lookup (2 * i + 1)) := by
  fun_induction foldOnce parent zero nodes with
  | case1 => exact ⟨List.Pairwise.nil, fun i => rfl⟩
  | case2 index node =>
    refine ⟨pairwise_singleton _ _, fun i => ?_⟩
    by_cases hi : i = index / 2
    · rw [lookup_cons_of_eq hi]
      split_ifs with heven
      · rw [lookup_cons_of_eq, lookup_cons_of_ne]
        rfl
      · rw [lookup_cons_of_ne, lookup_cons_of_eq]
        rfl
    · rw [lookup_cons_of_ne, lookup_cons_of_ne, lookup_cons_of_ne]
      rfl
  | case3 index node nextNode rest heven ih =>
    obtain ⟨hfirst, h⟩ := ascending_cons.1 h
    obtain ⟨hnext, h⟩ := ascending_cons.1 h
    obtain ⟨hasc, hlook⟩ := ih h
    have hle : ∀ y ∈ foldOnce parent zero rest, (index + 2) / 2 ≤ y.1 :=
      le_of_mem_foldOnce fun x hx => hnext x hx
    refine ⟨ascending_cons.2 ⟨fun y hy => ?_, hasc⟩, fun i => ?_⟩
    · have := hle y hy
      dsimp only; omega
    by_cases hi : i = index / 2
    · rw [lookup_cons_of_eq hi, lookup_cons_of_eq, lookup_cons_of_ne, lookup_cons_of_eq]
      rfl
    · rw [lookup_cons_of_ne hi, hlook, lookup_cons_of_ne, lookup_cons_of_ne, lookup_cons_of_ne, lookup_cons_of_ne]
  | case4 index node nextIndex nextNode rest heven hne ih =>
    obtain ⟨hfirst, h⟩ := ascending_cons.1 h
    obtain ⟨hasc, hlook⟩ := ih h
    have hge : ∀ x ∈ (nextIndex, nextNode) :: rest, index + 2 ≤ x.1 := by
      have hlt := hfirst _ mem_cons_self
      dsimp only at hlt
      refine forall_mem_cons.2 ⟨by dsimp only; omega, fun x hx => ?_⟩
      have := (ascending_cons.1 h).1 x hx
      dsimp only at this
      omega
    refine ⟨ascending_cons.2 ⟨fun y hy => ?_, hasc⟩, fun i => ?_⟩
    · have := le_of_mem_foldOnce hge y hy
      dsimp only; omega
    by_cases hi : i = index / 2
    · rw [lookup_cons_of_eq hi, lookup_cons_of_eq, lookup_cons_of_ne,
        lookup_of_lt fun x hx => by have := hge x hx; omega]
      rfl
    · rw [lookup_cons_of_ne hi, hlook, lookup_cons_of_ne (show 2 * i ≠ index by omega),
        lookup_cons_of_ne (show 2 * i + 1 ≠ index by omega)]
  | case5 index node nextIndex nextNode rest hodd ih =>
    obtain ⟨hfirst, h⟩ := ascending_cons.1 h
    obtain ⟨hasc, hlook⟩ := ih h
    have hge : ∀ x ∈ (nextIndex, nextNode) :: rest, index + 1 ≤ x.1 := hfirst
    refine ⟨ascending_cons.2 ⟨fun y hy => ?_, hasc⟩, fun i => ?_⟩
    · have := le_of_mem_foldOnce hge y hy
      dsimp only; omega
    by_cases hi : i = index / 2
    · rw [lookup_cons_of_eq hi, lookup_cons_of_ne (show 2 * i ≠ index by omega),
        lookup_cons_of_eq (show 2 * i + 1 = index by omega),
        lookup_of_lt fun x hx => by have := hge x hx; omega]
      rfl
    · rw [lookup_cons_of_ne hi, hlook, lookup_cons_of_ne (show 2 * i ≠ index by omega),
        lookup_cons_of_ne (show 2 * i + 1 ≠ index by omega)]

/-- A level that sorts has one node an index. -/
theorem keyed_of_sortedLevel {sorted : List (ℕ × Node)} (h : sortedLevel nodes = .ok sorted) :
    Keyed nodes ∧ Ascending sorted ∧ nodes.Perm sorted := by
  rw [sortedLevel] at h
  split at h
  · cases h
  next hadjacent =>
  cases h
  have hadjacent := Bool.eq_false_iff.2 hadjacent
  exact ⟨(sortBy_distinct_iff nodes).1 hadjacent,
    (adjacent_distinct_iff (pairwise_sortBy Prod.fst nodes)).1 hadjacent,
    (perm_insertionSort _ _).symm⟩

/-- A level with one node an index is sorted. -/
theorem sortedLevel_ok (h : Keyed nodes) :
    ∃ sorted, sortedLevel nodes = .ok sorted ∧ Ascending sorted ∧ nodes.Perm sorted := by
  have hadjacent := (sortBy_distinct_iff nodes).2 h
  refine ⟨_, ?_, (adjacent_distinct_iff (pairwise_sortBy Prod.fst nodes)).1 hadjacent, (perm_insertionSort _ _).symm⟩
  rw [sortedLevel, hadjacent]
  rfl

end

/-! ### The whole fold -/

/-- The placement a list of positioned nodes describes. -/
def placement (nodes : List (ℕ × ℕ × Node)) : Placement Node := fun level index =>
  (placedAt nodes level).lookup index

/-- Neither node lies in the other's subtree. -/
def Clear (a b : ℕ × ℕ × Node) : Prop := ¬ Under a.1 a.2.1 b.1 b.2.1 ∧ ¬ Under b.1 b.2.1 a.1 a.2.1

instance : Std.Symm (@Clear Node) := ⟨fun _ _ h => ⟨h.2, h.1⟩⟩

variable {nodes : List (ℕ × ℕ × Node)} {level index : ℕ}

theorem mem_placedAt {node : Node} : (index, node) ∈ placedAt nodes level ↔ (level, index, node) ∈ nodes := by
  rw [placedAt, mem_filterMap]
  constructor
  · rintro ⟨⟨l, i, n⟩, hmem, heq⟩
    split_ifs at heq with hl
    obtain rfl : l = level := hl
    cases heq
    exact hmem
  · exact fun h => ⟨_, h, by simp⟩

theorem mem_of_placement {node : Node} (h : placement nodes level index = some node) : (level, index, node) ∈ nodes :=
  mem_placedAt.1 (mem_of_lookup h)

theorem placement_eq_none (h : ∀ node, (level, index, node) ∉ nodes) : placement nodes level index = none :=
  Option.eq_none_iff_forall_ne_some.2 fun node hnode => h node (mem_of_placement hnode)

theorem keyed_placedAt (h : nodes.Pairwise Clear) (level : ℕ) : Keyed (placedAt nodes level) := by
  rw [Keyed, List.Nodup, pairwise_map, placedAt, pairwise_filterMap]
  refine h.imp fun {a b} hab x hx y hy hxy => ?_
  split_ifs at hx hy with ha hb
  cases hx
  cases hy
  exact hab.1 (by rw [ha, hb, hxy]; exact under_self _ _)

variable {parent : Node → Node → Node} {zero : Node}

/-- Where one node is placed, nothing is placed strictly under it. -/
theorem below_of_placement (h : nodes.Pairwise Clear) (hplaced : placement nodes level index ≠ none) :
    below parent zero (placement nodes) level index = none := by
  obtain ⟨node, hnode⟩ := Option.ne_none_iff_exists'.1 hplaced
  refine below_eq_none.2 fun m j hm hu => placement_eq_none fun node' hnode' => ?_
  have hne : (m, j, node') ≠ (level, index, node) := fun heq => by cases heq; omega
  exact (h.forall hnode' (mem_of_placement hnode) hne).1 hu

/-- Nothing is carried into the lowest level with a node. -/
theorem below_of_least (hleast : ∀ n ∈ nodes, level ≤ n.1) (i : ℕ) :
    ([] : List (ℕ × Node)).lookup i = below parent zero (placement nodes) level i :=
  (below_eq_none.2 fun _ _ hl _ => placement_eq_none fun _ hnode => absurd (hleast _ hnode) (by simpa using hl)).symm

variable {carried : List (ℕ × Node)}

/-- One level of the loop: with what was carried into it, the level's nodes are those of the sparse tree, and
    so is what is carried out of it. -/
theorem level_spec (h : nodes.Pairwise Clear) (hasc : Ascending carried)
    (hcarried : ∀ i, carried.lookup i = below parent zero (placement nodes) level i) :
    ∃ here, sortedLevel (placedAt nodes level ++ carried) = .ok here ∧
      (∀ i, here.lookup i = node parent zero (placement nodes) level i) ∧
      Ascending (foldOnce parent (zeros parent zero level) here) ∧
      ∀ i, (foldOnce parent (zeros parent zero level) here).lookup i =
        below parent zero (placement nodes) (level + 1) i := by
  have hkeyed : Keyed (placedAt nodes level ++ carried) := by
    rw [Keyed, map_append]
    refine nodup_append.2 ⟨keyed_placedAt h level, hasc.keyed, ?_⟩
    rintro i hi j hj rfl
    obtain ⟨⟨i, node⟩, hmem, rfl⟩ := mem_map.1 hi
    obtain ⟨⟨i', node'⟩, hmem', heq⟩ := mem_map.1 hj
    obtain rfl : i' = i := heq
    have hplaced : placement nodes level i' ≠ none := by
      rw [placement, (lookup_eq_some (keyed_placedAt h level)).2 hmem]
      exact Option.some_ne_none _
    have hnone := hcarried i'
    rw [below_of_placement h hplaced, (lookup_eq_some hasc.keyed).2 hmem'] at hnone
    exact Option.some_ne_none _ hnone
  obtain ⟨here, hsorted, hhere, hperm⟩ := sortedLevel_ok hkeyed
  obtain ⟨hascOnce, hOnce⟩ := foldOnce_spec parent (zeros parent zero level) hhere
  have hnode : ∀ i, here.lookup i = node parent zero (placement nodes) level i := by
    intro i
    rw [lookup_perm hkeyed hperm, lookup_append, hcarried, node_eq_or]
    rfl
  exact ⟨here, hsorted, hnode, hascOnce, fun i => by rw [hOnce, hnode, hnode, below]⟩

/-- What the loop carries into a level is the sparse tree without that level's own placements. -/
theorem foldLevels_spec (h : nodes.Pairwise Clear) (steps : ℕ) (hasc : Ascending carried)
    (hcarried : ∀ i, carried.lookup i = below parent zero (placement nodes) level i) :
    ∃ out, foldLevels parent (zeros parent zero) nodes level steps carried = .ok out ∧
      Ascending out ∧ ∀ i, out.lookup i = below parent zero (placement nodes) (level + steps) i := by
  induction steps generalizing level carried with
  | zero => exact ⟨carried, rfl, hasc, hcarried⟩
  | succ steps ih =>
    obtain ⟨here, hsorted, -, hascOnce, hOnce⟩ := level_spec h hasc hcarried
    obtain ⟨out, hout, hascOut, hlook⟩ := ih hascOnce hOnce
    refine ⟨out, ?_, hascOut, fun i => ?_⟩
    · rwa [foldLevels, hsorted]
    · rw [hlook, add_right_comm, add_assoc]

/-- An ascending level with nothing but index 0 is empty or one node. -/
theorem level_zero {out : List (ℕ × Node)} (hasc : Ascending out) (h : ∀ i ≠ 0, out.lookup i = none) :
    out = [] ∧ out.lookup 0 = none ∨ ∃ node, out = [(0, node)] ∧ out.lookup 0 = some node := by
  rcases hzero : out.lookup 0 with _ | node
  · refine .inl ⟨hasc.ext List.Pairwise.nil fun i => ?_, rfl⟩
    rcases Nat.eq_zero_or_pos i with rfl | hi
    · exact hzero
    · exact h i hi.ne'
  refine .inr ⟨node, hasc.ext (pairwise_singleton _ _) fun i => ?_, rfl⟩
  rcases Nat.eq_zero_or_pos i with rfl | hi
  · exact hzero
  · rw [h i hi.ne', lookup_cons_of_ne hi.ne']
    rfl

/-- Fold of in-range, prefix-free positions: the top of the sparse tree. -/
theorem foldSparse_ok (m : Membership Node) (ctx : Bytes32) {topLevel : ℕ} (htop : 0 < topLevel)
    (hmax : topLevel ≤ MAX_DEPTH)
    (hrange : ∀ n ∈ nodes, n.1 < topLevel ∧ n.2.1 < 2 ^ (topLevel - n.1)) (hclear : nodes.Pairwise Clear) :
    foldSparse m ctx topLevel nodes = .ok ((node (m.parent ctx) m.zero (placement nodes) topLevel 0).getD
        (m.zeros ctx topLevel)) := by
  have hany : (nodes.any fun n => n.1 ≥ topLevel || n.2.1 ≥ 2 ^ (topLevel - n.1)) = false := by
    rw [any_eq_false]
    intro n hn
    have := hrange n hn
    simp only [ge_iff_le, Bool.or_eq_true, decide_eq_true_eq]
    omega
  have hplaced : ∀ l i, placement nodes l i ≠ none → l < topLevel ∧ i < 2 ^ (topLevel - l) := by
    intro l i hne
    obtain ⟨node, hnode⟩ := Option.ne_none_iff_exists'.1 hne
    exact hrange _ (mem_of_placement hnode)
  have hnode : node (m.parent ctx) m.zero (placement nodes) topLevel 0 =
      below (m.parent ctx) m.zero (placement nodes) topLevel 0 := by
    have hnone : placement nodes topLevel 0 = none := by
      by_contra hne
      exact lt_irrefl _ (hplaced _ _ hne).1
    rw [node_eq_or, hnone, Option.none_or]
  have hzero : ∀ i ≠ 0, below (m.parent ctx) m.zero (placement nodes) topLevel i = none := by
    refine fun i hi => below_eq_none.2 fun l j hl hu => ?_
    by_contra hne
    exact hi (hu.2 ▸ Nat.div_eq_of_lt (hplaced l j hne).2)
  rw [foldSparse, if_neg (by omega), if_neg (by simp [hany]), hnode]
  rcases hmin : (nodes.map Prod.fst).min? with _ | start
  · obtain rfl : nodes = [] := by simpa using hmin
    have hnone : below (m.parent ctx) m.zero (placement []) topLevel 0 = none :=
      below_eq_none.2 fun _ _ _ _ => rfl
    rw [hnone]
    rfl
  have hleast : ∀ n ∈ nodes, start ≤ n.1 := fun n hn => (min?_eq_some_iff.1 hmin).2 _ (mem_map_of_mem hn)
  obtain ⟨⟨s, i, n⟩, hmem, rfl⟩ := mem_map.1 (min?_eq_some_iff.1 hmin).1
  obtain ⟨out, hout, hasc, hlook⟩ :=
    foldLevels_spec hclear (topLevel - s) List.Pairwise.nil (below_of_least hleast)
  rw [Nat.add_sub_cancel' (hrange _ hmem).1.le] at hlook
  dsimp only
  rw [Membership.zeros, hout, ok_bind, ← hlook 0]
  rcases level_zero hasc fun i hi => (hlook i).trans (hzero i hi) with ⟨rfl, h⟩ | ⟨node, rfl, h⟩
  · rfl
  · rfl

/-! ### When the fold succeeds -/

/-- A level that holds something at or under a position of the next one. -/
theorem exists_under_succ {i : ℕ} : (∃ x ∈ nodes, x.1 < level + 1 ∧ Under x.1 x.2.1 (level + 1) i) ↔
      (∃ x ∈ nodes, x.1 ≤ level ∧ Under x.1 x.2.1 level (2 * i)) ∨
        ∃ x ∈ nodes, x.1 ≤ level ∧ Under x.1 x.2.1 level (2 * i + 1) := by
  constructor
  · rintro ⟨x, hx, hlt, hu⟩
    rcases under_succ.1 hu with ⟨heq, -⟩ | hu | hu
    · omega
    · exact .inl ⟨x, hx, by omega, hu⟩
    · exact .inr ⟨x, hx, by omega, hu⟩
  · rintro (⟨x, hx, hle, hu⟩ | ⟨x, hx, hle, hu⟩)
    · exact ⟨x, hx, by omega, under_succ.2 (.inr (.inl hu))⟩
    · exact ⟨x, hx, by omega, under_succ.2 (.inr (.inr hu))⟩

/-- A fold that goes through has met no two nodes in one place: what is carried into a level are the
    positions with a node strictly under them. -/
theorem clear_of_foldLevels {zeros : ℕ → Node} (steps : ℕ) {out : List (ℕ × Node)} (hasc : Ascending carried)
    (hcarried : ∀ i, carried.lookup i ≠ none ↔ ∃ x ∈ nodes, x.1 < level ∧ Under x.1 x.2.1 level i)
    (h : foldLevels parent zeros nodes level steps carried = .ok out) :
    ∀ l, level ≤ l → l < level + steps → Keyed (placedAt nodes l) ∧
      ∀ x ∈ nodes, ∀ y ∈ nodes, x.1 < l → y.1 = l → ¬ Under x.1 x.2.1 y.1 y.2.1 := by
  induction steps generalizing level carried with
  | zero => exact fun l hle hlt => absurd hle (by omega)
  | succ steps ih =>
    obtain ⟨here, hhere, h⟩ := bind_ok h
    obtain ⟨hkeyed, hascHere, hperm⟩ := keyed_of_sortedLevel hhere
    obtain ⟨hascOnce, hOnce⟩ := foldOnce_spec parent (zeros level) hascHere
    have hlook : ∀ i, here.lookup i ≠ none ↔ ∃ x ∈ nodes, x.1 ≤ level ∧ Under x.1 x.2.1 level i := by
      intro i
      rw [lookup_perm hkeyed hperm, lookup_append, ne_eq, Option.or_eq_none_iff, not_and_or, ← ne_eq,
        ← ne_eq, hcarried]
      constructor
      · rintro (hplaced | ⟨x, hx, hlt, hu⟩)
        · obtain ⟨n, hn⟩ := Option.ne_none_iff_exists'.1 hplaced
          exact ⟨_, mem_placedAt.1 (mem_of_lookup hn), le_rfl, under_self _ _⟩
        · exact ⟨x, hx, hlt.le, hu⟩
      · rintro ⟨⟨l, j, n⟩, hx, hle, hu⟩
        rcases lt_or_eq_of_le hle with hlt | heq
        · exact .inr ⟨_, hx, hlt, hu⟩
        refine .inl fun hnone => ?_
        obtain rfl : l = level := heq
        obtain rfl : j = i := by simpa using hu.2
        exact lookup_eq_none.1 hnone _ (mem_placedAt.2 hx) rfl
    intro l hle hlt
    rcases lt_or_eq_of_le hle with hnext | rfl
    · refine ih hascOnce (fun i => ?_) h l hnext (by omega)
      rw [hOnce, ne_eq, join_eq_none, not_and_or, exists_under_succ, ← hlook, ← hlook]
    rw [Keyed, map_append] at hkeyed
    obtain ⟨hplaced, -, hdisjoint⟩ := nodup_append.1 hkeyed
    refine ⟨hplaced, ?_⟩
    rintro x hx ⟨_, i, n⟩ hy hxl rfl hu
    obtain ⟨n', hn'⟩ := Option.ne_none_iff_exists'.1 ((hcarried i).2 ⟨x, hx, hxl, hu⟩)
    exact hdisjoint i (mem_map.2 ⟨_, mem_placedAt.2 hy, rfl⟩) i (mem_map.2 ⟨_, mem_of_lookup hn', rfl⟩) rfl

/-- One node an index on every level and none strictly under another: the nodes are prefix-free. -/
theorem pairwise_clear (hkeyed : ∀ x ∈ nodes, Keyed (placedAt nodes x.1))
    (hunder : ∀ x ∈ nodes, ∀ y ∈ nodes, x.1 < y.1 → ¬ Under x.1 x.2.1 y.1 y.2.1) : nodes.Pairwise Clear := by
  have hsame : ∀ l, (∃ x ∈ nodes, x.1 = l) → nodes.Pairwise fun a b => a.1 = l → b.1 = l → a.2.1 ≠ b.2.1 := by
    rintro l ⟨x, hx, rfl⟩
    have := hkeyed x hx
    rw [Keyed, List.Nodup, pairwise_map, placedAt, pairwise_filterMap] at this
    exact this.imp fun {a b} hab ha hb => hab a.2 (by rw [if_pos ha]) b.2 (by rw [if_pos hb])
  refine pairwise_iff_forall_sublist.2 fun {a b} hab => ?_
  have ha : a ∈ nodes := hab.subset (by simp)
  have hb : b ∈ nodes := hab.subset (by simp)
  rcases Nat.lt_trichotomy a.1 b.1 with hlt | heq | hlt
  · exact ⟨hunder a ha b hb hlt, fun hu => absurd hu.1 (by omega)⟩
  · have hne := pairwise_iff_forall_sublist.1 (hsame b.1 ⟨b, hb, rfl⟩) hab heq rfl
    refine ⟨fun hu => hne ?_, fun hu => hne ?_⟩
    · simpa [heq] using hu.2
    · simpa [heq] using hu.2.symm
  · exact ⟨fun hu => absurd hu.1 (by omega), hunder b hb a ha hlt⟩

/-- Positions below the top, each index within its level. -/
def InRange (topLevel : ℕ) (nodes : List (ℕ × ℕ × Node)) : Prop :=
  ∀ n ∈ nodes, n.1 < topLevel ∧ n.2.1 < 2 ^ (topLevel - n.1)

theorem clear_of_foldSparse {m : Membership Node} {ctx : Bytes32} {topLevel : ℕ} {root : Node}
    (h : foldSparse m ctx topLevel nodes = .ok root) :
    (0 < topLevel ∧ topLevel ≤ MAX_DEPTH) ∧ InRange topLevel nodes ∧ nodes.Pairwise Clear := by
  rw [foldSparse] at h
  split at h
  · cases h
  next hdepth =>
  split at h
  · cases h
  next hrange =>
  have hrange : InRange topLevel nodes := by
    intro n hn
    have := any_eq_false.1 (Bool.eq_false_iff.2 hrange) n hn
    simp only [ge_iff_le, Bool.or_eq_true, decide_eq_true_eq] at this
    omega
  refine ⟨by omega, hrange, ?_⟩
  split at h
  · next hmin =>
    obtain rfl : nodes = [] := by simpa using hmin
    exact List.Pairwise.nil
  next start hmin =>
  obtain ⟨out, hout, -⟩ := bind_ok h
  have hleast : ∀ n ∈ nodes, start ≤ n.1 := fun n hn => (min?_eq_some_iff.1 hmin).2 _ (mem_map_of_mem hn)
  have hclear := clear_of_foldLevels (topLevel - start) List.Pairwise.nil (fun i => ?_) hout
  · refine pairwise_clear (fun x hx => ?_) fun x hx y hy hlt => ?_
    · exact (hclear x.1 (hleast x hx) (by have := hrange x hx; omega)).1
    · exact (hclear y.1 (hleast y hy) (by have := hrange y hy; omega)).2 x hx y hy hlt rfl
  refine ⟨fun hne => absurd rfl hne, ?_⟩
  rintro ⟨x, hx, hlt, -⟩
  exact absurd (hleast x hx) (by omega)

/-- CORRECT: for a depth the relation allows, the fold returns a root exactly when every position is in
    range and no subtree contains another, and the root is that of the full tree with the given nodes at
    their places and zeros everywhere else. -/
theorem foldSparse_is_full_root (m : Membership Node) (ctx : Bytes32) (topLevel : ℕ)
    (nodes : List (ℕ × ℕ × Node)) :
    ((∃ root, foldSparse m ctx topLevel nodes = .ok root) ↔
      (0 < topLevel ∧ topLevel ≤ MAX_DEPTH) ∧ InRange topLevel nodes ∧ nodes.Pairwise Clear) ∧
    ∀ root, foldSparse m ctx topLevel nodes = .ok root →
      root = full (m.parent ctx) m.zero (placement nodes) topLevel 0 := by
  refine ⟨⟨fun ⟨root, h⟩ => clear_of_foldSparse h, ?_⟩, fun root h => ?_⟩
  · rintro ⟨⟨htop, hmax⟩, hrange, hclear⟩
    exact ⟨_, foldSparse_ok m ctx htop hmax hrange hclear⟩
  obtain ⟨⟨htop, hmax⟩, hrange, hclear⟩ := clear_of_foldSparse h
  rw [foldSparse_ok m ctx htop hmax hrange hclear] at h
  cases h
  exact (full_eq_node ..).symm

/-- A compression that tells left from right, for concrete runs. -/
def pairing : Membership ℕ := ⟨0, fun _ a b => 2 * a + 3 * b + 1⟩

/-- Without any subtree every position is in range and none contains another, and still a fold of depth 0 or
    of 33 levels is refused. -/
theorem unsupported_depths_refused :
    (InRange 0 ([] : List (ℕ × ℕ × ℕ)) ∧ ([] : List (ℕ × ℕ × ℕ)).Pairwise Clear ∧
      foldSparse pairing 0 0 [] = .error .depth) ∧
    InRange 33 ([] : List (ℕ × ℕ × ℕ)) ∧ ([] : List (ℕ × ℕ × ℕ)).Pairwise Clear ∧
      foldSparse pairing 0 33 [] = .error .depth :=
  ⟨⟨fun _ h => absurd h not_mem_nil, List.Pairwise.nil, rfl⟩, fun _ h => absurd h not_mem_nil, List.Pairwise.nil, rfl⟩

end Quil.ShardedTree
