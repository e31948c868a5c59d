import Quilibrium.Schemes.Partitions

/-! The bit path of every shard of an application (`quil-forest/src/lib.rs`). A shard is stored as a row of
    LEVELS. Three encodings share that form: the genesis grid's dense indices `[i]`, the marker bytes that
    splits appended (`0x80`, `0x40 …`, `0x20 … ‖ 0x00`), and the current one, a SENTINEL followed by the
    bits of the path. Only the whole set of rows tells them apart: `canonicalShardBitPaths` reads each
    level by its complete set of siblings. Here are the definitions, and that the recursion of the source
    computes, row by row and level by level, a path that depends on the set of rows alone. -/

namespace Quil.ShardPaths
open Schemes List

/-- A row's levels (`Vec<u32>`). -/
abbrev Levels := List ℕ

/-! ### Encodings -/

/-- Each level as a fixed number of bits. -/
def prefixToBits (levels : Levels) (bitsPerLevel : ℕ) : List Bool := levels.flatMap (pathOf bitsPerLevel)

/-- The first level of a row that stores a bit path. -/
def BIT_PATH_PREFIX_SENTINEL : ℕ := 0xFFFFFFFF

def bitPathToPrefix (bitPath : List Bool) : Levels := BIT_PATH_PREFIX_SENTINEL :: bitPath.map Bool.toNat

def levelBit : ℕ → Option Bool
  | 0 => some false
  | 1 => some true
  | _ => none

/-- The bit path of a sentinel row; `none` for a legacy or malformed one. -/
def shardBitPathFromPrefix : Levels → Option (List Bool)
  | [] => none
  | head :: rest => if head ≠ BIT_PATH_PREFIX_SENTINEL then none else rest.mapM levelBit

/-- The genesis grid: 64 ways on mainnet, one root shard elsewhere. -/
def genesisGridPrefixes (network : ℕ) : List Levels :=
  if network = 0 then (List.range 64).map fun i => bitPathToPrefix (prefixToBits [i] 6) else [[]]

/-- The siblings passed on the way from a parent down to a branch. -/
def splitSpineSiblings (parent branch : List Bool) : List (List Bool) :=
  (List.range' parent.length (branch.length - parent.length)).map fun i => branch.take i ++ [!branch.getD i false]

/-! ### Canonical bit paths -/

/-- The distinct values, ascending. -/
def distinct (values : List ℕ) : List ℕ := values.dedup.insertionSort (· ≤ ·)

/-- The width of a level and the child index of each of its values, from the distinct values. -/
def levelPartition (values : List ℕ) : ℕ × (ℕ → ℕ) :=
  let vs := distinct values
  let n := vs.length
  if n ≤ 1 then (0, fun _ => 0)
  else
    let width := (n - 1).log2 + 1
    let isDense := vs = List.range n
    -- marker values are multiples of `256 / n`
    let scale := max (256 / n) 1
    (width, fun v => if isDense then v else v / scale)

/-- Extend the paths of the active rows from a level on. The rows that go on are grouped by their value
    at this level; `out` holds the paths so far. -/
def canonicalBitPathsRec (prefixes : List Levels) :
    ℕ → List ℕ → ℕ → (ℕ → List Bool) → ℕ → List Bool
  | 0, _, _, out => out
  | fuel + 1, active, depth, out =>
    let continuing := active.filter fun i => depth < (prefixes.getD i []).length
    if continuing = [] then out
    else
      let values := continuing.map fun i => (prefixes.getD i []).getD depth 0
      let level := levelPartition values
      (distinct values).foldl (fun out value =>
        let group := continuing.filter fun i => (prefixes.getD i []).getD depth 0 = value
        canonicalBitPathsRec prefixes fuel group (depth + 1) fun i =>
          if i ∈ group then out i ++ pathOf level.1 (level.2 value) else out i) out

/-- The address bit path of every shard, from the complete set of rows, in order. -/
def canonicalShardBitPaths (prefixes : List Levels) : List (List Bool) :=
  let fuel := (prefixes.map List.length).foldr max 0 + 1
  let out := canonicalBitPathsRec prefixes fuel (List.range prefixes.length) 0 fun _ => []
  (List.range prefixes.length).map out

/-! ### Routing -/

/-- Bit `i` of an address, most significant first; 0 past its end. -/
def addressBit (data : List UInt8) (i : ℕ) : Bool :=
  match data[i / 8]? with
  | some byte => byte.toNat.testBit (7 - i % 8)
  | none => false

/-- The address begins with the path. -/
def addrHasBitPrefix (data : List UInt8) (path : List Bool) : Bool :=
  path.zipIdx.all fun wanted => addressBit data wanted.2 == wanted.1

/-- The shard an address belongs to: the first whose path it begins with. -/
def addressShardIndex (dataAddr : List UInt8) (bitPaths : List (List Bool)) : ℕ :=
  (bitPaths.findIdx? (addrHasBitPrefix dataAddr)).getD 0

/-! ### The path of a row, level by level -/

/-- The values at a level of the rows that agree with `p` up to it. -/
def siblings (rows : List Levels) (p : Levels) (d : ℕ) : List ℕ :=
  (rows.filter fun q => d < q.length ∧ q.take d = p.take d).map (·.getD d 0)

/-- The bits a row's value at a level stands for. -/
def levelBits (rows : List Levels) (p : Levels) (d : ℕ) : List Bool :=
  pathOf (levelPartition (siblings rows p d)).1 ((levelPartition (siblings rows p d)).2 (p.getD d 0))

/-- A row's path: its levels' bits. -/
def canonicalPath (rows : List Levels) (p : Levels) : List Bool :=
  (List.range p.length).flatMap (levelBits rows p)

variable {rows : List Levels} {p : Levels} {d : ℕ}

theorem mem_siblings {v : ℕ} :
    v ∈ siblings rows p d ↔ ∃ q ∈ rows, d < q.length ∧ q.take d = p.take d ∧ q.getD d 0 = v := by
  simp [siblings, and_assoc]

variable {vs : List ℕ}

theorem distinct_congr {ws : List ℕ} (h : ∀ v, v ∈ vs ↔ v ∈ ws) : distinct vs = distinct ws := by
  have hperm : vs.dedup.Perm ws.dedup :=
    (perm_ext_iff_of_nodup (nodup_dedup vs) (nodup_dedup ws)).2 (by simpa using h)
  refine List.Perm.eq_of_sortedLE sortedLE_insertionSort sortedLE_insertionSort ?_
  exact (perm_insertionSort ..).trans (hperm.trans (perm_insertionSort ..).symm)

theorem mem_distinct {v : ℕ} : v ∈ distinct vs ↔ v ∈ vs := by
  rw [distinct, (perm_insertionSort ..).mem_iff, mem_dedup]

theorem nodup_distinct (vs : List ℕ) : (distinct vs).Nodup :=
  (perm_insertionSort ..).nodup_iff.2 (nodup_dedup vs)

theorem levelPartition_congr {ws : List ℕ} (h : ∀ v, v ∈ vs ↔ v ∈ ws) : levelPartition vs = levelPartition ws := by
  rw [levelPartition, distinct_congr h, levelPartition]

/-- Rows with the same siblings and value at a level have the same bits there. -/
theorem levelBits_congr {rows' : List Levels} {p' : Levels} {d' : ℕ} (hvalue : p.getD d 0 = p'.getD d' 0)
    (h : ∀ v, v ∈ siblings rows p d ↔ v ∈ siblings rows' p' d') : levelBits rows p d = levelBits rows' p' d' := by
  rw [levelBits, levelBits, levelPartition_congr h, hvalue]

theorem canonicalPath_congr {rows' : List Levels} (h : ∀ q, q ∈ rows ↔ q ∈ rows') (p : Levels) :
    canonicalPath rows p = canonicalPath rows' p := by
  refine flatMap_congr fun d _ => levelBits_congr rfl fun v => ?_
  simp only [mem_siblings, h]

/-! ### The recursion computes it -/

variable {active : List ℕ} {depth : ℕ} {q : Levels}

section Recursion

variable (P : List Levels)

/-- The active rows of a call: those that agree with `q` on the levels before this one. -/
def Active (active : List ℕ) (depth : ℕ) (q : Levels) : Prop :=
  ∀ i, i ∈ active ↔ i < P.length ∧ depth ≤ (P.getD i []).length ∧ (P.getD i []).take depth = q

theorem take_succ_getD (h : d < p.length) : p.take (d + 1) = p.take d ++ [p.getD d 0] := by
  rw [take_add_one, getElem?_eq_getElem h, getD_eq_getElem _ _ h]
  rfl

/-- The rows of a group are those that agree one level further. -/
theorem Active.group (h : Active P active depth q) (v : ℕ) :
    Active P ((active.filter fun i => depth < (P.getD i []).length).filter fun i =>
      (P.getD i []).getD depth 0 = v) (depth + 1) (q ++ [v]) := by
  intro i
  simp only [mem_filter, h i, decide_eq_true_eq]
  constructor
  · rintro ⟨⟨⟨hi, -, htake⟩, hlen⟩, hv⟩
    exact ⟨hi, hlen, by rw [take_succ_getD hlen, htake, hv]⟩
  · rintro ⟨hi, hlen, htake⟩
    rw [take_succ_getD hlen] at htake
    obtain ⟨hq, hv⟩ := append_inj' htake rfl
    exact ⟨⟨⟨hi, le_of_lt hlen, hq⟩, hlen⟩, singleton_inj.1 hv⟩

/-- The values of the rows that go on are the siblings of each of them. -/
theorem Active.siblings (h : Active P active depth q) {i : ℕ} (hi : i ∈ active) (v : ℕ) :
    v ∈ ((active.filter fun i => depth < (P.getD i []).length).map fun i =>
      (P.getD i []).getD depth 0) ↔ v ∈ siblings P (P.getD i []) depth := by
  have htake := ((h i).1 hi).2.2
  simp only [mem_map, mem_filter, decide_eq_true_eq, mem_siblings, htake]
  constructor
  · rintro ⟨j, ⟨hj, hlen⟩, hv⟩
    obtain ⟨hjlt, -, hjtake⟩ := (h j).1 hj
    refine ⟨P.getD j [], ?_, hlen, hjtake, hv⟩
    rw [getD_eq_getElem _ _ hjlt]
    exact getElem_mem hjlt
  · rintro ⟨r, hr, hlen, hrtake, hv⟩
    obtain ⟨j, hj, rfl⟩ := mem_iff_getElem.1 hr
    have hget : P.getD j [] = P[j] := getD_eq_getElem _ _ hj
    exact ⟨j, ⟨(h j).2 ⟨hj, by rw [hget]; exact hlen.le, by rw [hget]; exact hrtake⟩,
      by rw [hget]; exact hlen⟩, by rw [hget]; exact hv⟩

/-- The levels of a row from a depth on. -/
def restBits (depth : ℕ) (p : Levels) : List Bool :=
  (List.range' depth (p.length - depth)).flatMap (levelBits P p)

theorem restBits_succ (h : depth < p.length) :
    restBits P depth p = levelBits P p depth ++ restBits P (depth + 1) p := by
  obtain ⟨n, hn⟩ : ∃ n, p.length - depth = n + 1 := ⟨p.length - depth - 1, by omega⟩
  rw [restBits, hn, range'_succ, flatMap_cons, restBits,
    show p.length - (depth + 1) = n by omega]

/-- Extending one group after the other extends every member of the groups once. -/
theorem foldl_extend {ι κ α : Type} [DecidableEq κ] {step : (ι → List α) → κ → ι → List α}
    {member : ι → Prop} [DecidablePred member] {key : ι → κ} {ext : ι → List α}
    (hstep : ∀ out v, step out v = fun i => if member i ∧ key i = v then out i ++ ext i else out i)
    {vs : List κ} (hnodup : vs.Nodup) (out : ι → List α) :
    vs.foldl step out = fun i => if member i ∧ key i ∈ vs then out i ++ ext i else out i := by
  induction vs generalizing out with
  | nil => simp
  | cons v vs ih =>
    obtain ⟨hv, hnodup⟩ := nodup_cons.1 hnodup
    rw [foldl_cons, ih hnodup, hstep]
    funext i
    by_cases hi : member i
    · rcases eq_or_ne (key i) v with rfl | hne
      · simp [hi, hv]
      · simp [hi, hne]
    · simp [hi]

/-- One group's turn: the bits of this level, then the rest by recursion. -/
theorem group_extend {fuel : ℕ}
    (ih : ∀ (active : List ℕ) (depth : ℕ) (q : Levels) (out : ℕ → List Bool), Active P active depth q →
      (∀ i ∈ active, (P.getD i []).length < depth + fuel) → canonicalBitPathsRec P fuel active depth out =
      fun i => if i ∈ active then out i ++ restBits P depth (P.getD i []) else out i) (hactive : Active P active depth q)
    (hfuel : ∀ i ∈ active, (P.getD i []).length < depth + (fuel + 1)) (out : ℕ → List Bool) (v : ℕ) :
    let continuing := active.filter fun i => depth < (P.getD i []).length
    let level := levelPartition (continuing.map fun i => (P.getD i []).getD depth 0)
    let group := continuing.filter fun i => (P.getD i []).getD depth 0 = v
    canonicalBitPathsRec P fuel group (depth + 1)
        (fun i => if i ∈ group then out i ++ pathOf level.1 (level.2 v) else out i) =
      fun i => if i ∈ continuing ∧ (P.getD i []).getD depth 0 = v then
        out i ++ restBits P depth (P.getD i []) else out i := by
  intro continuing level group
  rw [ih group (depth + 1) (q ++ [v]) _ (hactive.group P v) fun i hi => by
    have := hfuel i (mem_filter.1 (mem_filter.1 hi).1).1
    omega]
  funext i
  have hmem : i ∈ group ↔ i ∈ continuing ∧ (P.getD i []).getD depth 0 = v := by simp [group, mem_filter]
  simp only [← hmem]
  split_ifs with hi
  · obtain ⟨hcont, hv⟩ := hmem.1 hi
    obtain ⟨hiactive, hlen⟩ := mem_filter.1 hcont
    have hbits : levelBits P (P.getD i []) depth = pathOf level.1 (level.2 v) := by
      rw [levelBits, ← levelPartition_congr (hactive.siblings P hiactive), hv]
    rw [restBits_succ P (of_decide_eq_true hlen), hbits, append_assoc]
  · rfl

/-- A call appends to each active row the bits of its remaining levels, and touches no other row. -/
theorem canonicalBitPathsRec_eq (fuel : ℕ) : ∀ (active : List ℕ) (depth : ℕ) (q : Levels)
    (out : ℕ → List Bool), Active P active depth q →
    (∀ i ∈ active, (P.getD i []).length < depth + fuel) →
    canonicalBitPathsRec P fuel active depth out =
      fun i => if i ∈ active then out i ++ restBits P depth (P.getD i []) else out i := by
  induction fuel with
  | zero =>
    intro active depth q out hactive hfuel
    funext i
    rw [canonicalBitPathsRec, if_neg]
    intro hi
    have := hfuel i hi
    have := ((hactive i).1 hi).2.1
    omega
  | succ fuel ih =>
    intro active depth q out hactive hfuel
    -- a row that ends here gets nothing more
    have hdone : ∀ i ∈ active, i ∉ (active.filter fun i => depth < (P.getD i []).length) →
        restBits P depth (P.getD i []) = [] := by
      intro i hi hnot
      have hlen : ¬ depth < (P.getD i []).length := fun hlen => hnot (mem_filter.2 ⟨hi, by simpa using hlen⟩)
      rw [restBits, show (P.getD i []).length - depth = 0 by omega]
      rfl
    rw [canonicalBitPathsRec]
    split_ifs with hempty
    · funext i
      split_ifs with hi
      · rw [hdone i hi (by rw [hempty]; exact not_mem_nil), append_nil]
      · rfl
    rw [foldl_extend (fun out v => group_extend P ih hactive hfuel out v) (nodup_distinct _)]
    funext i
    by_cases hi : i ∈ active.filter fun i => depth < (P.getD i []).length
    · have hvalue := mem_distinct.2 (mem_map_of_mem (f := fun i => (P.getD i []).getD depth 0) hi)
      rw [if_pos ⟨hi, hvalue⟩, if_pos (mem_filter.1 hi).1]
    rw [if_neg fun h => hi h.1]
    split_ifs with hactive'
    · rw [hdone i hactive' hi, append_nil]
    · rfl

/-- The canonical paths, row by row. -/
theorem canonicalShardBitPaths_eq : canonicalShardBitPaths P = P.map (canonicalPath P) := by
  have hactive : Active P (range P.length) 0 [] := fun i => by simp
  have hfuel : ∀ i ∈ range P.length, (P.getD i []).length < 0 + ((P.map length).foldr max 0 + 1) := by
    intro i hi
    have hlt := mem_range.1 hi
    rw [getD_eq_getElem _ _ hlt, zero_add]
    exact Nat.lt_succ_of_le (le_max_of_le (mem_map_of_mem (getElem_mem hlt)) le_rfl)
  rw [canonicalShardBitPaths, canonicalBitPathsRec_eq P _ _ _ _ _ hactive hfuel]
  refine ext_getElem (by simp) fun i hi _ => ?_
  have hlt : i < P.length := by simpa using hi
  have hget : P.getD i [] = P[i] := getD_eq_getElem _ _ hlt
  simp only [getElem_map, getElem_range, mem_range, hlt, if_true, hget, nil_append]
  rw [restBits, canonicalPath, range_eq_range', Nat.sub_zero]

end Recursion

end Quil.ShardPaths
