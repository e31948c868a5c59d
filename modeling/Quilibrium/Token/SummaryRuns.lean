import Quilibrium.Schemes.Run
import Quilibrium.Token.CoinPaths
import Quilibrium.Token.SummaryTree

/-! The summary tree over its whole life: `update` rewrites the changed leaves and those ancestors that change,
    `replace` makes the tree exactly its blocks, `upgrade` converts a flat summary once. Callers own the rollback of
    an operation that fails. -/

namespace Quil.SummaryTree
open Schemes ShardedTree List SummaryTree
open CoinBlocks hiding invalid
open AccumulatorRecords (LEVELS)

variable {Node : Type}

/-! ### Updates -/

/-- Store a node, or clear it. -/
def put (stored : Nodes Node) (level : ℕ) (entry : ℕ × Option (TreeNode Node)) : Nodes Node :=
  match entry.2 with
  | some node => stored.write (level, entry.1) node
  | none => stored.clear (level, entry.1)

/-- The entries that differ from what is stored at their level. -/
def keepChanged [DecidableEq Node] (stored : Nodes Node) (level : ℕ) :
    List (ℕ × Option (TreeNode Node)) → Except QuilError (List (ℕ × Option (TreeNode Node)))
  | [] => .ok []
  | entry :: entries => do
    let node ← readNode stored level entry.1
    let kept ← keepChanged stored level entries
    return if node ≠ entry.2 then entry :: kept else kept

/-- A child of a changed node's parent: the changed one, else the stored one. -/
def child (stored : Nodes Node) (level : ℕ) (changed : List (ℕ × Option (TreeNode Node))) (index : ℕ) :
    Except QuilError (Option (TreeNode Node)) :=
  match changed.lookup index with
  | some node => .ok node
  | none => readNode stored level index

/-- The parents of the changed nodes. -/
def parentEntries (m : Membership Node) (ctx : Bytes32) (stored : Nodes Node) (level : ℕ)
    (changed : List (ℕ × Option (TreeNode Node))) : Except QuilError (List (ℕ × Option (TreeNode Node))) :=
  (changed.map fun entry => entry.1 / 2).dedup.mapM fun index => do
    let left ← child stored level changed (2 * index)
    let right ← child stored level changed (2 * index + 1)
    let node ← parent m ctx level left right
    return (index, node)

/-- Write the changed nodes of a level, and those of the `steps` levels above it that change with them. -/
def updateLevels [DecidableEq Node] (m : Membership Node) (ctx : Bytes32) :
    (level steps : ℕ) → List (ℕ × Option (TreeNode Node)) → Nodes Node → Except QuilError (Nodes Node)
  | level, 0, changed, stored => .ok (changed.foldl (put · level) stored)
  | level, steps + 1, changed, stored => do
    let stored := changed.foldl (put · level) stored
    let entries ← parentEntries m ctx stored level changed
    let above ← keepChanged stored (level + 1) entries
    updateLevels m ctx (level + 1) steps above stored

/-- Set these blocks' `(coins, root)` and rewrite their ancestors. Blocks not named keep their stored leaves. -/
def update [DecidableEq Node] (m : Membership Node) (ctx : Bytes32) (stored : Nodes Node)
    (leaves : List (ℕ × ℕ × Node)) : Except QuilError (Nodes Node) := do
  let level ← leafLevel leaves
  let changed ← keepChanged stored 0 level
  let stored ← updateLevels m ctx 0 LEVELS changed stored
  checkCap stored
  return stored

/-- The tree's records and the flat summary, while one is still stored. -/
structure Summary (Node : Type) where
  nodes : Nodes Node
  flat : Option (BlockSummary Node)

/-- Replace a flat summary with its tree, once. Returns whether it did. -/
def upgrade (m : Membership Node) (ctx : Bytes32) (summary : Summary Node) :
    Except QuilError (Bool × Summary Node) :=
  match summary.flat with
  | none => .ok (false, summary)
  | some flat => do
    let nodes ← replace m ctx summary.nodes flat.blocks
    return (true, ⟨nodes, none⟩)

/-! ### The blocks of a leaf list -/

section
variable {entries : List (ℕ × ℕ × Node)} {level : List (ℕ × Option (TreeNode Node))}

theorem insertLeaf_ok {acc : List (ℕ × Option (TreeNode Node))} {entry : ℕ × ℕ × Node}
    (h : insertLeaf acc entry = .ok level) (hacc : Ascending acc) :
    entry.1 < 2 ^ LEVELS ∧ Ascending level ∧ level.Perm ((entry.1, leafOf entry) :: acc) := by
  rw [insertLeaf] at h
  split at h
  · cases h
  next hrange =>
  split at h
  · cases h
  next hnew =>
  cases h
  have hfresh : ∀ x ∈ acc, x.1 ≠ entry.1 := lookup_eq_none.1 (Option.not_isSome_iff_eq_none.1 hnew)
  exact ⟨by omega, hacc.orderedInsert hfresh, perm_orderedInsert _ _ _⟩

theorem foldlM_insertLeaf_of_ok {acc : List (ℕ × Option (TreeNode Node))}
    (h : entries.foldlM insertLeaf acc = .ok level) (hacc : Ascending acc) :
    (∀ e ∈ entries, e.1 < 2 ^ LEVELS) ∧ Ascending level ∧
      level.Perm ((entries.map fun e => (e.1, leafOf e)) ++ acc) := by
  induction entries generalizing acc with
  | nil =>
    cases h
    exact ⟨fun e he => absurd he not_mem_nil, hacc, .refl _⟩
  | cons entry entries ih =>
    rw [foldlM_cons] at h
    obtain ⟨next, hnext, h⟩ := bind_ok h
    obtain ⟨hlt, hasc, hperm⟩ := insertLeaf_ok hnext hacc
    obtain ⟨hrange, hlevel, hall⟩ := ih h hasc
    refine ⟨forall_mem_cons.2 ⟨hlt, hrange⟩, hlevel, hall.trans ?_⟩
    exact (hperm.append_left _).trans perm_middle

theorem foldlM_insertLeaf_ok {acc : List (ℕ × Option (TreeNode Node))} (hrange : ∀ e ∈ entries, e.1 < 2 ^ LEVELS)
    (hkeyed : Keyed entries) (hnew : ∀ e ∈ entries, ∀ x ∈ acc, x.1 ≠ e.1) :
    ∃ level, entries.foldlM insertLeaf acc = .ok level := by
  induction entries generalizing acc with
  | nil => exact ⟨acc, rfl⟩
  | cons entry entries ih =>
    obtain ⟨hfresh, hrest⟩ := keyed_cons.1 hkeyed
    have hnone : acc.lookup entry.1 = none := lookup_eq_none.2 (hnew entry mem_cons_self)
    rw [foldlM_cons, insertLeaf, if_neg (not_le.2 (hrange entry mem_cons_self)), hnone, if_neg (by simp), ok_bind]
    refine ih (fun e he => hrange e (mem_cons_of_mem _ he)) hrest fun e he x hx => ?_
    rcases (mem_orderedInsert _).1 hx with rfl | hx
    · exact (hfresh e he).symm
    · exact hnew e (mem_cons_of_mem _ he) x hx

/-- Leaves of distinct blocks of the tree make a leaf level. -/
theorem leafLevel_ok (hrange : ∀ e ∈ entries, e.1 < 2 ^ LEVELS) (hkeyed : Keyed entries) :
    ∃ level, leafLevel entries = .ok level :=
  foldlM_insertLeaf_ok hrange hkeyed fun _ _ _ hx => absurd hx not_mem_nil

section
variable (h : leafLevel entries = .ok level)
include h

/-- A leaf level lists the leaves of distinct blocks of the tree, in ascending order. -/
theorem leafLevel_of_ok : (∀ e ∈ entries, e.1 < 2 ^ LEVELS) ∧ Ascending level ∧
      level.Perm (entries.map fun e => (e.1, leafOf e)) := by
  simpa using foldlM_insertLeaf_of_ok h List.Pairwise.nil

theorem keyed_of_leafLevel : Keyed entries := by
  obtain ⟨-, hasc, hperm⟩ := leafLevel_of_ok h
  have hkeyed := hasc.keyed
  rw [Keyed, (hperm.map Prod.fst).nodup_iff, map_map] at hkeyed
  exact hkeyed

theorem lookup_leafLevel (block : ℕ) :
    level.lookup block = (entries.lookup block).map fun e => leafOf (block, e) := by
  obtain ⟨-, hasc, hperm⟩ := leafLevel_of_ok h
  have hkeyed := keyed_of_leafLevel h
  have hmap : Keyed (entries.map fun e => (e.1, leafOf e)) := by rwa [Keyed, map_map]
  rw [lookup_perm hmap hperm.symm]
  refine Option.ext fun leaf => ?_
  rw [lookup_eq_some hmap, mem_map, Option.map_eq_some_iff]
  constructor
  · rintro ⟨e, he, heq⟩
    cases heq
    exact ⟨e.2, (lookup_eq_some hkeyed).2 he, rfl⟩
  · rintro ⟨e, he, rfl⟩
    exact ⟨_, (lookup_eq_some hkeyed).1 he, rfl⟩

end

end

/-- The blocks after these blocks' `(coins, root)` are set: a block without coins is none. -/
def setBlocks (blocks entries : List (ℕ × ℕ × Node)) : List (ℕ × ℕ × Node) :=
  ((blocks.filter fun e => (entries.lookup e.1).isNone) ++ entries.filter fun e => e.2.1 > 0).insertionSort
    fun a b => a.1 ≤ b.1

/-- The blocks an application can carry. -/
structure Carried (blocks : List (ℕ × ℕ × Node)) : Prop where
  ascending : Ascending blocks
  range : ∀ e ∈ blocks, e.1 < 2 ^ LEVELS
  held : ∀ e ∈ blocks, 0 < e.2.1

theorem carried_nil : Carried ([] : List (ℕ × ℕ × Node)) :=
  ⟨List.Pairwise.nil, fun _ h => absurd h not_mem_nil, fun _ h => absurd h not_mem_nil⟩

section
variable {blocks entries : List (ℕ × ℕ × Node)} {level : List (ℕ × Option (TreeNode Node))}

theorem mem_setBlocks {e : ℕ × ℕ × Node} : e ∈ setBlocks blocks entries ↔
    e ∈ blocks ∧ entries.lookup e.1 = none ∨ e ∈ entries ∧ 0 < e.2.1 := by
  rw [setBlocks, mem_insertionSort, mem_append, mem_filter, mem_filter]
  simp

theorem Carried.setBlocks (h : Carried blocks) (hlevel : leafLevel entries = .ok level) :
    Carried (setBlocks blocks entries) := by
  have hkeyed := keyed_of_leafLevel hlevel
  refine ⟨?_, fun e he => ?_, fun e he => ?_⟩
  · refine (adjacent_distinct_iff (pairwise_sortBy Prod.fst _)).1 ((sortBy_distinct_iff _).2 ?_)
    rw [map_append, nodup_append]
    refine ⟨h.ascending.keyed.sublist (filter_sublist.map _),
      hkeyed.sublist (filter_sublist.map _), fun x hx y hy hxy => ?_⟩
    obtain ⟨a, ha, rfl⟩ := mem_map.1 hx
    obtain ⟨b, hb, rfl⟩ := mem_map.1 hy
    have hnone := (mem_filter.1 ha).2
    rw [Option.isNone_iff_eq_none, lookup_eq_none] at hnone
    exact hnone b (mem_filter.1 hb).1 hxy.symm
  · rcases mem_setBlocks.1 he with ⟨he, -⟩ | ⟨he, -⟩
    · exact h.range e he
    · exact (leafLevel_of_ok hlevel).1 e he
  · rcases mem_setBlocks.1 he with ⟨he, -⟩ | ⟨-, he⟩
    · exact h.held e he
    · exact he

/-- A named block's leaf is the given one, another's stays. -/
theorem leaf_setBlocks {m : Membership Node} {ctx : Bytes32} (h : Carried blocks)
    (hlevel : leafLevel entries = .ok level) (block : ℕ) : treeOf m ctx (setBlocks blocks entries) 0 block =
      (level.lookup block).getD (treeOf m ctx blocks 0 block) := by
  have hkeyed := keyed_of_leafLevel hlevel
  have hleaf : ∀ {L : List (ℕ × ℕ × Node)}, Ascending L → ∀ n, treeOf m ctx L 0 block = some n ↔
      n.blocks = 1 ∧ 0 < n.coins ∧ (block, n.coins, n.node) ∈ L := by
    intro L hL n
    rw [← mem_leafNodes]
    exact lookup_eq_some (ascending_leafNodes hL).keyed
  rw [lookup_leafLevel hlevel]
  refine Option.ext fun n => ?_
  rw [hleaf (h.setBlocks hlevel).ascending, mem_setBlocks]
  rcases hnamed : entries.lookup block with _ | e
  · have hnot : (block, n.coins, n.node) ∉ entries := fun hmem => lookup_eq_none.1 hnamed _ hmem rfl
    rw [Option.map_none, Option.getD_none, hleaf h.ascending]
    simp [hnot]
  have hmem := (lookup_eq_some hkeyed).1 hnamed
  rw [Option.map_some, Option.getD_some, leafOf]
  constructor
  · rintro ⟨hone, hpos, ⟨-, hfalse⟩ | ⟨hn, -⟩⟩
    · cases hfalse
    have heq := hnamed.symm.trans ((lookup_eq_some hkeyed).2 hn)
    cases heq
    rw [if_pos hpos, ← hone]
  · intro heq
    split at heq
    · next hpos =>
      cases heq
      exact ⟨rfl, hpos, .inr ⟨hmem, hpos⟩⟩
    · cases heq

end

/-! ### One level of an update -/

variable {stored : Nodes Node} {level : ℕ}

variable {changed : List (ℕ × Option (TreeNode Node))}

/-- Puts at one level: the entry named is stored, all else stays. -/
theorem foldl_put (hkeyed : Keyed changed) (level : ℕ)
    (stored : Nodes Node) (l i : ℕ) : changed.foldl (put · level) stored (l, i) =
      if l = level then (changed.lookup i).getD (stored (l, i)) else stored (l, i) := by
  induction changed generalizing stored with
  | nil => simp
  | cons entry changed ih =>
    obtain ⟨index, node⟩ := entry
    obtain ⟨hne, hrest⟩ := keyed_cons.1 hkeyed
    have hput : put stored level (index, node) (l, i) = if l = level ∧ i = index then node else stored (l, i) := by
      cases node with
      | none => simp [put, Store.clear]
      | some n => simp [put, Store.write]
    rw [foldl_cons, ih hrest, hput]
    by_cases hl : l = level
    · by_cases hi : i = index
      · have hnone : changed.lookup index = none := lookup_eq_none.2 hne
        rw [if_pos hl, if_pos ⟨hl, hi⟩, if_pos hl, lookup_cons_of_eq hi, hi, hnone]
        rfl
      · rw [if_pos hl, if_neg (fun h => hi h.2), if_pos hl, lookup_cons_of_ne hi]
    · rw [if_neg hl, if_neg (fun h => hl h.1), if_neg hl]

variable {entries : List (ℕ × Option (TreeNode Node))}

/-- Entries that can be compared with what is stored: those that differ are kept. -/
theorem keepChanged_eq [DecidableEq Node]
    (hread : ∀ e ∈ entries, readNode stored level e.1 = .ok (stored (level, e.1))) :
    keepChanged stored level entries = .ok (entries.filter fun e => stored (level, e.1) ≠ e.2) := by
  induction entries with
  | nil => rfl
  | cons e entries ih =>
    rw [keepChanged, hread e mem_cons_self, ok_bind, ih fun x hx => hread x (mem_cons_of_mem _ hx), ok_bind, filter_cons]
    simp only [decide_eq_true_eq]
    rfl

section
variable {m : Membership Node} {ctx : Bytes32} {blocks blocks' : List (ℕ × ℕ × Node)} {final : Nodes Node}

/-- Changes of a level that lead from the tree of some blocks to that of others: the entries are the new tree's
    nodes, and nodes not named are the same in both. -/
structure Leads (m : Membership Node) (ctx : Bytes32) (blocks blocks' : List (ℕ × ℕ × Node)) (level : ℕ)
    (changed : List (ℕ × Option (TreeNode Node))) : Prop where
  keyed : Keyed changed
  range : ∀ e ∈ changed, e.1 < 2 ^ (LEVELS - level)
  named : ∀ e ∈ changed, e.2 = treeOf m ctx blocks' level e.1
  others : ∀ i, changed.lookup i = none → treeOf m ctx blocks' level i = treeOf m ctx blocks level i

theorem Leads.getD (h : Leads m ctx blocks blocks' level changed) (i : ℕ) :
    (changed.lookup i).getD (treeOf m ctx blocks level i) = treeOf m ctx blocks' level i := by
  cases hlook : changed.lookup i with
  | none => exact (h.others i hlook).symm
  | some node => exact h.named _ (mem_of_lookup hlook)

/-- A node of the tree is read back. -/
theorem readNode_treeOf {index : ℕ} (hs : stored (level, index) = treeOf m ctx blocks level index)
    (hl : level ≤ LEVELS) (hi : index < 2 ^ (LEVELS - level)) :
    readNode stored level index = .ok (stored (level, index)) :=
  readNode_of_valid hl hi fun _ hn => treeOf_valid (hs.symm.trans hn)

/-- Dropping the entries that are stored already leads to the same tree. -/
theorem Leads.keepChanged_ok [DecidableEq Node] (h : Leads m ctx blocks blocks' level entries) (hl : level ≤ LEVELS)
    (hstored : ∀ i, stored (level, i) = treeOf m ctx blocks level i) :
    ∃ kept, keepChanged stored level entries = .ok kept ∧ Leads m ctx blocks blocks' level kept := by
  refine ⟨_, keepChanged_eq fun e he => readNode_treeOf (hstored e.1) hl (h.range e he),
    h.keyed.sublist (filter_sublist.map _), fun e he => h.range e (mem_of_mem_filter he),
    fun e he => h.named e (mem_of_mem_filter he), fun i hi => ?_⟩
  rcases hlook : entries.lookup i with _ | node
  · exact h.others i hlook
  have hmem := mem_of_lookup hlook
  rw [← hstored, ← h.named _ hmem]
  by_contra hne
  exact lookup_eq_none.1 hi _ (mem_filter.2 ⟨hmem, by simpa using Ne.symm hne⟩) rfl

/-- A child of a changed node's parent is the new tree's. -/
theorem Leads.child_ok (h : Leads m ctx blocks blocks' level changed) (hl : level ≤ LEVELS)
    (hstored : ∀ i, stored (level, i) = treeOf m ctx blocks' level i) {i : ℕ} (hi : i < 2 ^ (LEVELS - level)) :
    child stored level changed i = .ok (treeOf m ctx blocks' level i) := by
  rw [child]
  cases hlook : changed.lookup i with
  | some node => exact congrArg _ (h.named _ (mem_of_lookup hlook))
  | none => exact (readNode_treeOf (hstored i) hl hi).trans (congrArg _ (hstored i))

section
variable (h : Leads m ctx blocks blocks' level changed) (hl : level < LEVELS)
    (hstored : ∀ i, stored (level, i) = treeOf m ctx blocks' level i)
include h hl hstored

theorem Leads.parentEntry {i : ℕ} (hi : i ∈ (changed.map fun entry => entry.1 / 2).dedup) :
    (do
      let left ← child stored level changed (2 * i)
      let right ← child stored level changed (2 * i + 1)
      let node ← parent m ctx level left right
      return (i, node)) = (do
      let node ← parent m ctx level (treeOf m ctx blocks' level (2 * i)) (treeOf m ctx blocks' level (2 * i + 1))
      return (i, node)) := by
  obtain ⟨e, he, rfl⟩ := mem_map.1 (mem_dedup.1 hi)
  have hrange := h.range e he
  have hpow : 2 ^ (LEVELS - level) = 2 ^ (LEVELS - (level + 1)) * 2 := by
    rw [← pow_succ, show LEVELS - level = LEVELS - (level + 1) + 1 by omega]
  rw [h.child_ok hl.le hstored (by omega), ok_bind, h.child_ok hl.le hstored (by omega), ok_bind]

/-- Where the new tree's counts fit, the parents of changes that lead to it lead to it one level up. -/
theorem Leads.parentEntries_ok (hfit : Fits m ctx blocks' (level + 1)) :
    ∃ entries, parentEntries m ctx stored level changed = .ok entries ∧
      Leads m ctx blocks blocks' (level + 1) entries := by
  let indices := (changed.map fun entry => entry.1 / 2).dedup
  refine ⟨indices.map fun i => (i, treeOf m ctx blocks' (level + 1) i), ?_, ?_, fun e he => ?_, fun e he => ?_,
    fun i hi => ?_⟩
  · refine mapM_ok fun i hi => ?_
    rw [h.parentEntry hl hstored hi, parent_eq_join fun n hn => hfit i n (by rw [treeOf_succ]; exact hn), ← treeOf_succ]
    rfl
  · rw [Keyed, map_map]
    exact (map_id indices).symm ▸ nodup_dedup _
  · obtain ⟨i, hi, rfl⟩ := mem_map.1 he
    obtain ⟨x, hx, rfl⟩ := mem_map.1 (mem_dedup.1 hi)
    have hrange := h.range x hx
    rw [show LEVELS - level = LEVELS - (level + 1) + 1 by omega, pow_succ] at hrange
    dsimp only
    omega
  · obtain ⟨i, -, rfl⟩ := mem_map.1 he
    rfl
  have hsame : ∀ j, j / 2 = i → treeOf m ctx blocks' level j = treeOf m ctx blocks level j := by
    rintro j rfl
    refine h.others j (lookup_eq_none.2 fun x hx hxj => ?_)
    have hin : x.1 / 2 ∈ indices := mem_dedup.2 (mem_map_of_mem hx)
    exact lookup_eq_none.1 hi _ (mem_map_of_mem hin) (by rw [hxj])
  rw [treeOf_succ, treeOf_succ, hsame (2 * i) (by omega), hsame (2 * i + 1) (by omega)]

/-- Parents that were all found have counts that fit. -/
theorem Leads.fits_of_parentEntries (hentries : parentEntries m ctx stored level changed = .ok entries)
    (hfit : Fits m ctx blocks (level + 1)) : Fits m ctx blocks' (level + 1) := by
  intro i n hn
  by_cases hi : i ∈ (changed.map fun entry => entry.1 / 2).dedup
  · obtain ⟨e, he⟩ := exists_ok_of_mapM hentries i hi
    rw [h.parentEntry hl hstored hi] at he
    obtain ⟨node, hnode, -⟩ := bind_ok he
    obtain ⟨heq, hbound⟩ := parent_of_ok hnode
    rw [← treeOf_succ, hn] at heq
    exact hbound n heq
  have hsame : ∀ j, j / 2 = i → treeOf m ctx blocks' level j = treeOf m ctx blocks level j := by
    rintro j rfl
    exact h.others j (lookup_eq_none.2 fun x hx hxj => hi (mem_dedup.2 (mem_map.2 ⟨x, hx, by rw [hxj]⟩)))
  rw [treeOf_succ, hsame (2 * i) (by omega), hsame (2 * i + 1) (by omega), ← treeOf_succ] at hn
  exact hfit i n hn

end

/-- The store after a level's changes are written: the new tree at the level, the old one above. -/
theorem Leads.written {steps : ℕ} (h : Leads m ctx blocks blocks' level changed)
    (hstored : ∀ l, level ≤ l → l ≤ level + steps → ∀ i, stored (l, i) = treeOf m ctx blocks l i) :
    (∀ i, changed.foldl (put · level) stored (level, i) = treeOf m ctx blocks' level i) ∧
      (∀ l, level < l → l ≤ level + steps → ∀ i, changed.foldl (put · level) stored (l, i) = treeOf m ctx blocks l i) ∧
      ∀ l i, l ≠ level → changed.foldl (put · level) stored (l, i) = stored (l, i) := by
  have hwrite := foldl_put h.keyed level stored
  refine ⟨fun i => ?_, fun l hl hl' i => ?_, fun l i hl => by rw [hwrite, if_neg hl]⟩
  · rw [hwrite, if_pos rfl, hstored level le_rfl (by omega)]
    exact h.getD i
  · rw [hwrite, if_neg (by omega), hstored l (by omega) hl']

/-- Changes that lead to a tree whose counts fit, written with those above them, leave that tree from there up. -/
theorem updateLevels_ok [DecidableEq Node] {steps : ℕ} (hl : level + steps ≤ LEVELS)
    (hchanged : Leads m ctx blocks blocks' level changed)
    (hstored : ∀ l, level ≤ l → l ≤ level + steps → ∀ i, stored (l, i) = treeOf m ctx blocks l i)
    (hfit : ∀ l, level < l → l ≤ level + steps → Fits m ctx blocks' l) :
    ∃ final, updateLevels m ctx level steps changed stored = .ok final ∧ ∀ l i, final (l, i) =
      if level ≤ l ∧ l ≤ level + steps then treeOf m ctx blocks' l i else stored (l, i) := by
  obtain ⟨hhere, habove, hother⟩ := hchanged.written hstored
  induction steps generalizing level changed stored with
  | zero =>
    refine ⟨_, rfl, fun l i => ?_⟩
    by_cases heq : l = level
    · rw [if_pos (by omega), heq, hhere]
    · rw [if_neg (by omega), hother l i heq]
  | succ steps ih =>
    obtain ⟨entries, hentries, hleads⟩ := hchanged.parentEntries_ok (by omega) hhere (hfit _ (by omega) (by omega))
    obtain ⟨kept, hkept, hleads⟩ := hleads.keepChanged_ok (by omega) (habove _ (by omega) (by omega))
    have hnext := fun l (hl : level + 1 ≤ l) (hl' : l ≤ level + 1 + steps) => habove l hl (by omega)
    obtain ⟨hhere', habove', hother'⟩ := hleads.written hnext
    obtain ⟨final, hfinal, heq⟩ := ih (by omega) hleads hnext (fun l hl hl' => hfit l (by omega) (by omega))
      hhere' habove' hother'
    refine ⟨final, ?_, fun l i => ?_⟩
    · rw [updateLevels, hentries, ok_bind, hkept, ok_bind, hfinal]
    rw [heq]
    by_cases hlevel : l = level
    · rw [if_neg (by omega), if_pos (by omega), hlevel, hhere]
    · rw [hother l i hlevel]
      exact if_congr (by omega) rfl rfl

/-- Levels that were all written are of a tree whose counts fit. -/
theorem fits_of_updateLevels [DecidableEq Node] {steps : ℕ} (hl : level + steps ≤ LEVELS)
    (hchanged : Leads m ctx blocks blocks' level changed)
    (hstored : ∀ l, level ≤ l → l ≤ level + steps → ∀ i, stored (l, i) = treeOf m ctx blocks l i)
    (hfit : ∀ l, level < l → l ≤ level + steps → Fits m ctx blocks l)
    (h : updateLevels m ctx level steps changed stored = .ok final) :
    ∀ l, level < l → l ≤ level + steps → Fits m ctx blocks' l := by
  induction steps generalizing level changed stored with
  | zero => exact fun l hlt hle => absurd hlt (by omega)
  | succ steps ih =>
    obtain ⟨hhere, habove, -⟩ := hchanged.written hstored
    obtain ⟨entries, hentries, h⟩ := bind_ok h
    have hfit' := hchanged.fits_of_parentEntries (by omega) hhere hentries (hfit _ (by omega) (by omega))
    obtain ⟨entries', hentries', hleads⟩ := hchanged.parentEntries_ok (by omega) hhere hfit'
    cases hentries.symm.trans hentries'
    obtain ⟨kept, hkept, hleads⟩ := hleads.keepChanged_ok (by omega) (habove _ (by omega) (by omega))
    rw [hkept, ok_bind] at h
    have hrest := ih (by omega) hleads (fun l hl hl' => habove l hl (by omega))
      (fun l hl hl' => hfit l (by omega) (by omega)) h
    intro l hlt hle
    rcases Nat.eq_or_lt_of_le hlt with rfl | hlt
    · exact hfit'
    · exact hrest l hlt (by omega)

/-! ### The operations keep the tree -/

/-- The stored nodes are the tree of these blocks. -/
structure Holds (m : Membership Node) (ctx : Bytes32) (blocks : List (ℕ × ℕ × Node))
    (stored : Nodes Node) : Prop where
  carried : Carried blocks
  capped : blocks.length ≤ MAX_NONEMPTY_BLOCKS
  fits : total blocks < 2 ^ 64
  stored_eq : ∀ l i, stored (l, i) = if l ≤ LEVELS then treeOf m ctx blocks l i else none

theorem holds_empty (m : Membership Node) (ctx : Bytes32) : Holds m ctx [] .empty := by
  refine ⟨carried_nil, zero_le, by simp [total], fun l i => ?_⟩
  have hnone : treeOf m ctx ([] : List (ℕ × ℕ × Node)) l i = none := by
    refine node_eq_none.2 fun k j _ => ?_
    cases k <;> rfl
  rw [hnone, ite_self]
  rfl

theorem Holds.wellStored (h : Holds m ctx blocks stored) : WellStored stored :=
  wellStored_of_treeOf h.carried.range h.stored_eq

theorem Carried.leafNodes_eq (h : Carried blocks) :
    leafNodes blocks = blocks.map fun e => (e.1, ⟨e.2.1, 1, e.2.2⟩) := by
  rw [SummaryTree.leafNodes_eq, filter_eq_self.2 fun e he => by simpa using h.held e he]

/-- A count of the top node is the sum over all blocks. -/
theorem top_sum (h : Carried blocks) (f : TreeNode Node → ℕ)
    (hcombine : ∀ a b, f (combine m ctx a b) = f a + f b) (hblank : f (blank m ctx) = 0) :
    ((treeOf m ctx blocks LEVELS 0).map f).getD 0 = ((leafNodes blocks).map fun x => f x.2).sum := by
  rw [treeOf_sum h.ascending f hcombine hblank, filter_eq_self.2]
  intro x hx
  have := h.range _ (mem_leafNodes.1 hx).2.2
  simpa using Nat.div_eq_of_lt this

/-- Blocks whose tree fits and passes the cap check are within the limits. -/
theorem holds_of_checkCap (h : Carried blocks)
    (hstored : ∀ l i, stored (l, i) = if l ≤ LEVELS then treeOf m ctx blocks l i else none)
    (hfit : Fits m ctx blocks LEVELS) (hcheck : checkCap stored = .ok ()) : Holds m ctx blocks stored := by
  have hwell := wellStored_of_treeOf h.range hstored
  have hcoins := @top_sum _ m ctx _ h TreeNode.coins (fun _ _ => rfl) rfl
  have hblocks := @top_sum _ m ctx _ h TreeNode.blocks (fun _ _ => rfl) rfl
  have hlength : ((leafNodes blocks).map fun x => x.2.blocks).sum = blocks.length := by
    have hone : ∀ x ∈ leafNodes blocks, x.2.blocks = 1 := fun x hx => (mem_leafNodes.1 hx).1
    rw [map_congr_left hone, map_const', sum_replicate, smul_eq_mul, mul_one, h.leafNodes_eq, length_map]
  rw [sum_leafNodes] at hcoins
  rw [hlength] at hblocks
  rw [checkCap, top, hwell.readNode le_rfl (by simp), ok_bind, hstored, if_pos le_rfl] at hcheck
  rcases htop : treeOf m ctx blocks LEVELS 0 with _ | n
  · rw [htop] at hcoins hblocks
    exact ⟨h, by rw [← hblocks]; exact zero_le, by rw [← hcoins]; simp, hstored⟩
  rw [htop] at hcoins hblocks hcheck
  dsimp only at hcheck
  split at hcheck
  · cases hcheck
  next hcap =>
  refine ⟨h, ?_, ?_, hstored⟩
  · rw [← hblocks]
    exact Nat.le_of_not_gt hcap
  · rw [← hcoins]
    exact (hfit 0 n htop).1

variable {entries : List (ℕ × ℕ × Node)}

/-- Leaves an operation accepts: those of distinct blocks of the tree, such that the blocks they result in are within
    the cap and hold a 64-bit number of coins. -/
def Admitted (blocks leaves : List (ℕ × ℕ × Node)) : Prop :=
  (∀ e ∈ leaves, e.1 < 2 ^ LEVELS) ∧ (leaves.map Prod.fst).Nodup ∧
    (setBlocks blocks leaves).length ≤ MAX_NONEMPTY_BLOCKS ∧ total (setBlocks blocks leaves) < 2 ^ 64

instance (blocks leaves : List (ℕ × ℕ × Node)) : Decidable (Admitted blocks leaves) :=
  inferInstanceAs (Decidable (_ ∧ _ ∧ _ ∧ _))

/-- What an operation makes of the leaves it is given: the tree of the blocks they result in, or an error if it does not
    admit them. -/
def Settles (m : Membership Node) (ctx : Bytes32) (blocks leaves : List (ℕ × ℕ × Node))
    (outcome : Except QuilError (Nodes Node)) : Prop :=
  (∃ tree, outcome = .ok tree ∧ Admitted blocks leaves ∧ Holds m ctx (setBlocks blocks leaves) tree) ∨
    ∃ error, outcome = .error error ∧ ¬ Admitted blocks leaves

theorem Settles.holds {outcome : Except QuilError (Nodes Node)} (h : Settles m ctx blocks entries outcome)
    (hfinal : outcome = .ok final) : Holds m ctx (setBlocks blocks entries) final := by
  rcases h with ⟨tree, heq, -, hholds⟩ | ⟨error, heq, -⟩
  · cases hfinal.symm.trans heq
    exact hholds
  · cases hfinal.symm.trans heq

/-- An operation that fails on counts that do not fit, and otherwise writes the tree of the blocks it sets and checks
    the cap, succeeds on the leaves it admits and on no others. -/
theorem settles_of_checkCap (hcarried : Carried blocks) {outcome : Except QuilError (Nodes Node)}
    (hfits : ∀ final, outcome = .ok final → ∃ level, leafLevel entries = .ok level ∧
      ∀ l, 0 < l → l ≤ LEVELS → Fits m ctx (setBlocks blocks entries) l)
    (htree : ∀ level, leafLevel entries = .ok level →
      (∀ l, 0 < l → l ≤ LEVELS → Fits m ctx (setBlocks blocks entries) l) →
      ∃ tree, outcome = (do checkCap tree; return tree) ∧
        ∀ l i, tree (l, i) = if l ≤ LEVELS then treeOf m ctx (setBlocks blocks entries) l i else none) :
    Settles m ctx blocks entries outcome := by
  rcases houtcome : outcome with error | final
  · refine .inr ⟨error, rfl, fun ⟨hrange, hkeyed, hcap, hcoins⟩ => ?_⟩
    obtain ⟨level, hlevel⟩ := leafLevel_ok hrange hkeyed
    have hset := hcarried.setBlocks hlevel
    obtain ⟨tree, heq, htree⟩ := htree level hlevel fun l _ hl => fits_of_total hset.ascending hcoins hl
    have hcheck := checkCap_ok hset.ascending hcap (wellStored_of_treeOf hset.range htree) (by rw [htree, if_pos le_rfl])
    rw [hcheck, houtcome] at heq
    cases heq
  · obtain ⟨level, hlevel, hfit⟩ := hfits final houtcome
    obtain ⟨tree, heq, htree⟩ := htree level hlevel hfit
    rw [houtcome] at heq
    obtain ⟨⟨⟩, hcheck, heq⟩ := bind_ok heq.symm
    cases heq
    have h := holds_of_checkCap (hcarried.setBlocks hlevel) htree (hfit LEVELS (by decide) le_rfl) hcheck
    exact .inl ⟨final, rfl, ⟨(leafLevel_of_ok hlevel).1, keyed_of_leafLevel hlevel, h.capped, h.fits⟩, h⟩

section
variable [DecidableEq Node] (h : Holds m ctx blocks stored)
include h

/-- The leaves of an update lead to the tree of the blocks it sets. -/
theorem Holds.leads {level : List (ℕ × Option (TreeNode Node))} (hlevel : leafLevel entries = .ok level) :
    ∃ changed, keepChanged stored 0 level = .ok changed ∧ Leads m ctx blocks (setBlocks blocks entries) 0 changed := by
  obtain ⟨hrange, hasc, hperm⟩ := leafLevel_of_ok hlevel
  refine Leads.keepChanged_ok ⟨hasc.keyed, fun e he => ?_, fun e he => ?_, fun i hi => ?_⟩ zero_le fun i => ?_
  · obtain ⟨x, hx, rfl⟩ := mem_map.1 (hperm.subset he)
    exact hrange x hx
  · rw [leaf_setBlocks h.carried hlevel, (lookup_eq_some hasc.keyed).2 (show (e.1, e.2) ∈ level from he)]
    rfl
  · rw [leaf_setBlocks h.carried hlevel, hi]
    rfl
  · rw [h.stored_eq, if_pos zero_le]

/-- An update succeeds on the leaves it admits, and leads to the tree of the blocks it sets. -/
theorem Holds.update (entries : List (ℕ × ℕ × Node)) :
    Settles m ctx blocks entries (update m ctx stored entries) := by
  have hstored : ∀ l, 0 ≤ l → l ≤ 0 + LEVELS → ∀ i, stored (l, i) = treeOf m ctx blocks l i := fun l _ hl i => by
    rw [h.stored_eq, if_pos (by omega)]
  refine settles_of_checkCap h.carried (fun final hfinal => ?_) fun level hlevel hfit => ?_
  · obtain ⟨level, hlevel, hfinal⟩ := bind_ok hfinal
    obtain ⟨changed, hchanged, hleads⟩ := h.leads hlevel
    rw [hchanged, ok_bind] at hfinal
    obtain ⟨written, hwritten, -⟩ := bind_ok hfinal
    have hfits := fits_of_updateLevels (by omega) hleads hstored
      (fun l _ hl => fits_of_total h.carried.ascending h.fits (by omega)) hwritten
    exact ⟨level, hlevel, fun l hl hl' => hfits l hl (by omega)⟩
  · obtain ⟨changed, hchanged, hleads⟩ := h.leads hlevel
    obtain ⟨tree, hwritten, htree⟩ := updateLevels_ok (by omega) hleads hstored fun l hl hl' => hfit l hl (by omega)
    refine ⟨tree, ?_, fun l i => ?_⟩
    · rw [SummaryTree.update, hlevel, ok_bind, hchanged, ok_bind, hwritten, ok_bind]
    rw [htree]
    by_cases hl : l ≤ LEVELS
    · rw [if_pos (by omega), if_pos hl]
    · rw [if_neg (by omega), if_neg hl, h.stored_eq, if_neg hl]

end

/-- The leaves a replacement writes are those of the blocks it makes. -/
theorem nodes_leafLevel {level : List (ℕ × Option (TreeNode Node))} (hlevel : leafLevel entries = .ok level) :
    (level.filterMap fun entry => entry.2.map (entry.1, ·)) = leafNodes (setBlocks [] entries) := by
  obtain ⟨-, hasc, hperm⟩ := leafLevel_of_ok hlevel
  have hsorted : Ascending (level.filterMap fun entry => entry.2.map (entry.1, ·)) := by
    rw [Ascending, pairwise_filterMap]
    refine List.Pairwise.imp (fun {a b} hab x hx y hy => ?_) hasc
    obtain ⟨_, -, rfl⟩ := Option.map_eq_some_iff.1 hx
    obtain ⟨_, -, rfl⟩ := Option.map_eq_some_iff.1 hy
    exact hab
  refine eq_of_ascending hsorted (ascending_leafNodes (carried_nil.setBlocks hlevel).ascending) fun x => ?_
  rw [(hperm.filterMap _).mem_iff, filterMap_map, mem_leafNodes, mem_setBlocks, mem_filterMap]
  constructor
  · rintro ⟨e, he, hx⟩
    obtain ⟨leaf, hleaf, rfl⟩ := Option.map_eq_some_iff.1 hx
    change leafOf e = some leaf at hleaf
    rw [leafOf] at hleaf
    split at hleaf
    · next hpos =>
      cases hleaf
      exact ⟨rfl, hpos, .inr ⟨he, hpos⟩⟩
    · cases hleaf
  · rintro ⟨hone, hpos, ⟨hmem, -⟩ | ⟨hmem, -⟩⟩
    · exact absurd hmem not_mem_nil
    · refine ⟨_, hmem, ?_⟩
      simp only [Function.comp_apply, leafOf, if_pos hpos, Option.map_some, ← hone]

/-- A replacement succeeds on the leaves it admits, and makes the tree exactly its blocks. -/
theorem Holds.replace (h : Holds m ctx blocks stored) (entries : List (ℕ × ℕ × Node)) :
    Settles m ctx [] entries (replace m ctx stored entries) := by
  refine settles_of_checkCap carried_nil (fun final hfinal => ?_) fun level hlevel hfit => ?_
  · obtain ⟨stale, hstale, hrest⟩ := bind_ok hfinal
    obtain ⟨level, hlevel, hrest⟩ := bind_ok hrest
    obtain ⟨⟨written, kept⟩, hwritten, -⟩ := bind_ok hrest
    rw [nodes_leafLevel hlevel] at hwritten
    have hfits := fits_of_writeLevels (ascending_leafNodes (carried_nil.setBlocks hlevel).ascending) (fun _ => rfl)
      hwritten
    exact ⟨level, hlevel, fun l hl hl' => hfits l hl (by omega)⟩
  · have hcarried := carried_nil.setBlocks hlevel
    obtain ⟨tree, heq, -, htree⟩ := replaced_eq h.wellStored hcarried.ascending hcarried.range hfit hlevel
      (nodes_leafLevel hlevel)
    exact ⟨tree, heq, htree⟩

end

/-! ### What a stored tree says -/

section
variable {m : Membership Node} {ctx : Bytes32} {blocks : List (ℕ × ℕ × Node)}

section
variable (h : Holds m ctx blocks stored)
include h

/-- A rebuild from the blocks stores the same nodes. -/
theorem Holds.rebuilt : SummaryTree.replace m ctx .empty blocks = .ok stored := by
  obtain ⟨tree, hreplace, hwell, htree⟩ := @replace_ok _ m ctx _ _ wellStored_empty h.carried.ascending
    h.carried.range h.capped h.fits
  rw [hreplace]
  refine congrArg _ (funext fun ⟨l, i⟩ => ?_)
  rw [h.stored_eq]
  by_cases hl : l ≤ LEVELS
  · rw [if_pos hl, htree l hl]
  rw [if_neg hl]
  by_contra hne
  obtain ⟨n, hn⟩ := Option.ne_none_iff_exists'.1 hne
  exact hl (hwell.valid l i n hn).1

/-- The root is the fold of the blocks' roots. -/
theorem Holds.root : ∃ root, SummaryTree.root m ctx stored = .ok root ∧
      foldSubtreeRoots m ctx ⟨LEVELS, SUBTREE_BITS⟩ (blocks.map fun e => (e.1, e.2.2)) = .ok root := by
  have hkeyed : Keyed (blocks.map fun e => (e.1, e.2.2)) := by
    rw [Keyed, map_map]
    exact h.carried.ascending.keyed
  have hrange : ∀ x ∈ blocks.map fun e => (e.1, e.2.2), x.1 < (⟨LEVELS, SUBTREE_BITS⟩ : Shape).shards := by
    intro x hx
    obtain ⟨e, he, rfl⟩ := mem_map.1 hx
    exact h.carried.range e he
  have hvalues := @treeOf_node _ m ctx blocks LEVELS 0
  rw [h.carried.leafNodes_eq, map_map] at hvalues
  refine ⟨_, ?_, foldSubtreeRoots_ok m ctx rfl hkeyed hrange⟩
  rw [full_eq_node, show (⟨LEVELS, SUBTREE_BITS⟩ : Shape).shardBits = LEVELS from rfl]
  rw [SummaryTree.root, top, h.wellStored.readNode le_rfl (by simp), ok_bind, h.stored_eq, if_pos le_rfl]
  change _ = Except.ok ((node _ _ (leaves (blocks.map ((fun x : ℕ × TreeNode Node => (x.1, x.2.node)) ∘
    fun e => (e.1, ⟨e.2.1, 1, e.2.2⟩)))) LEVELS 0).getD _)
  rw [← hvalues]
  cases treeOf m ctx blocks LEVELS 0 with
  | some n => rfl
  | none =>
    change Except.ok (m.zeros ctx (SUBTREE_BITS + LEVELS)) = _
    exact congrArg _ (zeros_add SUBTREE_BITS LEVELS).symm

/-- Every node counts what lies under it. -/
theorem Holds.counts {index : ℕ} {node : TreeNode Node} (hnode : stored (level, index) = some node) :
    node.coins = ((blocks.filter fun e => e.1 / 2 ^ level = index).map fun e => e.2.1).sum ∧
      node.blocks = (blocks.filter fun e => e.1 / 2 ^ level = index).length := by
  rw [h.stored_eq] at hnode
  split at hnode
  · have hcoins := @treeOf_sum _ m ctx _ h.carried.ascending TreeNode.coins (fun _ _ => rfl) rfl level index
    have hblocks := @treeOf_sum _ m ctx _ h.carried.ascending TreeNode.blocks (fun _ _ => rfl) rfl level index
    rw [hnode, h.carried.leafNodes_eq, filter_map, map_map] at hcoins hblocks
    refine ⟨hcoins, hblocks.trans ?_⟩
    change ((blocks.filter _).map fun _ => 1).sum = _
    rw [map_const', sum_replicate, smul_eq_mul, mul_one]
    rfl
  · cases hnode

end

end

/-! ### Whole histories -/

inductive Operation (Node : Type) where
  | update (leaves : List (ℕ × ℕ × Node))
  | replace (leaves : List (ℕ × ℕ × Node))
  | upgrade

/-- What an operation answers and leaves; a flat summary may be converted by it. -/
def perform [DecidableEq Node] (m : Membership Node) (ctx : Bytes32) (summary : Summary Node) :
    Operation Node → Except QuilError (Bool × Summary Node)
  | .update leaves => do
    let nodes ← update m ctx summary.nodes leaves
    return (false, { summary with nodes := nodes })
  | .replace leaves => do
    let nodes ← replace m ctx summary.nodes leaves
    return (false, { summary with nodes := nodes })
  | .upgrade => upgrade m ctx summary

/-- One operation; the changes of one that fails are rolled back by its caller. -/
def step [DecidableEq Node] (m : Membership Node) (ctx : Bytes32) (summary : Summary Node)
    (operation : Operation Node) : Summary Node × Except QuilError Bool :=
  match perform m ctx summary operation with
  | .ok (converted, next) => (next, .ok converted)
  | .error error => (summary, .error error)

/-- The leaf map the operations so far result in, and the flat summary still to be converted. -/
structure Leaves (Node : Type) where
  blocks : List (ℕ × ℕ × Node)
  flat : Option (BlockSummary Node)

/-- What an operation does to the leaf map, and what it answers: none where its leaves are not admitted. -/
def specified (leaves : Leaves Node) : Operation Node → Leaves Node × Option Bool
  | .update entries =>
    if Admitted leaves.blocks entries then (⟨setBlocks leaves.blocks entries, leaves.flat⟩, some false)
    else (leaves, none)
  | .replace entries =>
    if Admitted [] entries then (⟨setBlocks [] entries, leaves.flat⟩, some false) else (leaves, none)
  | .upgrade =>
    match leaves.flat with
    | none => (leaves, some false)
    | some flat => if Admitted [] flat.blocks then (⟨setBlocks [] flat.blocks, none⟩, some true) else (leaves, none)

section
variable [DecidableEq Node] {m : Membership Node} {ctx : Bytes32}

/-- The stored nodes are the tree of the leaf map, and the same flat summary is still to be converted. -/
def Stores (m : Membership Node) (ctx : Bytes32) (summary : Summary Node) (leaves : Leaves Node) : Prop :=
  Holds m ctx leaves.blocks summary.nodes ∧ summary.flat = leaves.flat

/-- One operation does to the stored tree what it does to the leaf map, and answers the same. -/
theorem stores_step {summary : Summary Node} {leaves : Leaves Node} (operation : Operation Node)
    (h : Stores m ctx summary leaves) :
    Stores m ctx (step m ctx summary operation).1 (specified leaves operation).1 ∧
      (step m ctx summary operation).2.toOption = (specified leaves operation).2 := by
  obtain ⟨hholds, hflat⟩ := h
  cases operation with
  | update entries =>
    rw [step, perform, specified]
    rcases hholds.update entries with ⟨nodes, heq, hadmitted, hnext⟩ | ⟨error, heq, hrefused⟩
    · rw [heq, if_pos hadmitted]
      exact ⟨⟨hnext, hflat⟩, rfl⟩
    · rw [heq, if_neg hrefused]
      exact ⟨⟨hholds, hflat⟩, rfl⟩
  | replace entries =>
    rw [step, perform, specified]
    rcases hholds.replace entries with ⟨nodes, heq, hadmitted, hnext⟩ | ⟨error, heq, hrefused⟩
    · rw [heq, if_pos hadmitted]
      exact ⟨⟨hnext, hflat⟩, rfl⟩
    · rw [heq, if_neg hrefused]
      exact ⟨⟨hholds, hflat⟩, rfl⟩
  | upgrade =>
    rw [step, perform, upgrade, specified, ← hflat]
    rcases hsome : summary.flat with _ | flat
    · exact ⟨⟨hholds, hflat⟩, rfl⟩
    dsimp only
    rcases hholds.replace flat.blocks with ⟨nodes, heq, hadmitted, hnext⟩ | ⟨error, heq, hrefused⟩
    · rw [heq, if_pos hadmitted]
      exact ⟨⟨hnext, rfl⟩, rfl⟩
    · rw [heq, if_neg hrefused]
      exact ⟨⟨hholds, hflat⟩, rfl⟩

/-- REBUILT: any history of updates, replacements and upgrades from no tree answers as the leaf map says, converts the
    flat summary when it does, and leaves exactly the nodes of a rebuild from the blocks of the leaf map; the root is
    the fold of the blocks' roots; and every node counts the coins and blocks under it. -/
theorem stored_eq_rebuilt (m : Membership Node) (ctx : Bytes32) (flat : Option (BlockSummary Node))
    (operations : List (Operation Node)) :
    let done := run (step m ctx) ⟨Store.empty, flat⟩ operations
    let leaves := run specified ⟨[], flat⟩ operations
    (done.2.map fun e => (e.1, e.2.toOption)) = leaves.2 ∧ done.1.flat = leaves.1.flat ∧
    replace m ctx Store.empty leaves.1.blocks = .ok done.1.nodes ∧
    (∃ root, SummaryTree.root m ctx done.1.nodes = .ok root ∧
      foldSubtreeRoots m ctx ⟨LEVELS, SUBTREE_BITS⟩ (leaves.1.blocks.map fun e => (e.1, e.2.2)) = .ok root) ∧
    ∀ level index node, done.1.nodes (level, index) = some node →
      node.coins = ((leaves.1.blocks.filter fun e => e.1 / 2 ^ level = index).map fun e => e.2.1).sum ∧
      node.blocks = (leaves.1.blocks.filter fun e => e.1 / 2 ^ level = index).length := by
  obtain ⟨⟨h, hflat⟩, hanswers⟩ := run_simulates (step m ctx) (Stores m ctx) (fun _ _ => stores_step)
    (s := ⟨Store.empty, flat⟩) (t := ⟨[], flat⟩) ⟨holds_empty m ctx, rfl⟩ operations
  exact ⟨hanswers, hflat, h.rebuilt, h.root, fun _ _ _ => h.counts⟩

end

/-- Two blocks stored flat. -/
def flatPair : BlockSummary ℕ := ⟨[(3, 5, 7), (9, 1, 8)], by simp [Ascending], by decide⟩

def pairOperations : List (Operation ℕ) :=
  [.upgrade, .upgrade, .update [(3, 0, 0), (4, 2, 6)], .update [(65536, 1, 1)]]

/-- An upgrade converts them and a second one finds none; an update empties block 3, and one past the last block is
    refused. -/
theorem flatPair_rebuilt :
    ((run (step pairing 0) ⟨Store.empty, some flatPair⟩ pairOperations).2.map fun e => e.2.toOption) =
      [some true, some false, some false, none] ∧
    replace pairing 0 Store.empty [(4, 2, 6), (9, 1, 8)] =
      .ok (run (step pairing 0) ⟨Store.empty, some flatPair⟩ pairOperations).1.nodes := by
  obtain ⟨hanswers, -, hrebuilt, -⟩ := stored_eq_rebuilt pairing 0 (some flatPair) pairOperations
  have hblocks : (run specified ⟨[], some flatPair⟩ pairOperations).1.blocks = [(4, 2, 6), (9, 1, 8)] := by decide
  have hspec : (run specified ⟨[], some flatPair⟩ pairOperations).2.map Prod.snd =
      [some true, some false, some false, none] := by decide
  rw [← hanswers, map_map] at hspec
  rw [hblocks] at hrebuilt
  exact ⟨hspec, hrebuilt⟩

end Quil.SummaryTree
