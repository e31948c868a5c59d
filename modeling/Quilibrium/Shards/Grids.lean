import Quilibrium.Shards.ShardFilters

/-! The grids an application's rows go through, and how they are read. A grid starts as one root shard or as the
    64-way root grid; splits used to replace a row by rows with marker bytes appended, and now replace a bit path by
    the two children of a branch below it and the SPINE of siblings passed on the way, after MIGRATING the whole set
    to bit paths. Migrating changes how the rows are stored and nothing else. -/

namespace Quil.Grids
open Schemes ShardPaths ShardFilters List

/-! ### Rows -/

def putAppShard (rows : List Levels) (levels : Levels) : List Levels :=
  if levels ∈ rows then rows else rows ++ [levels]

def deleteAppShard (rows : List Levels) (levels : Levels) : List Levels := rows.erase levels

/-- Store an application's rows as bit paths: each row is deleted and its canonical path put. -/
def migrateAppShardsToSentinel (rows : List Levels) : List Levels :=
  if rows = [] then rows
  else if rows.all fun r => (shardBitPathFromPrefix r).isSome then rows
  else
    (rows.zip (canonicalShardBitPaths rows)).foldl (fun acc row =>
      putAppShard (deleteAppShard acc row.1) (bitPathToPrefix row.2)) rows

/-- The rows a byte-suffix split of a row registers: the bytes after the application, as levels. -/
def byteChildren (app : Bytes) (row : Levels) (factor : ℕ) : List Levels :=
  (computeProposedShards (shardPrefixToFilter app row) factor).map fun child => (child.drop 32).map UInt8.toNat

/-- The paths a bit-path split registers: the two children of the branch, and the spine. -/
def deepChildren (parent branch : List Bool) : List (List Bool) :=
  [branch ++ [false], branch ++ [true]] ++ splitSpineSiblings parent branch

/-- Grids of byte-suffix splits, in any order of their rows. -/
inductive LegacyGrid (app : Bytes) : List Levels → Prop
  | root : LegacyGrid app [[]]
  | ways64 : LegacyGrid app ((List.range 64).map fun i => [i])
  | split {rows : List Levels} {row : Levels} {factor : ℕ} (grid : LegacyGrid app rows)
      (stored : row ∈ rows) (ways : factor = 2 ∨ factor = 4 ∨ factor = 8) :
      LegacyGrid app (rows.erase row ++ byteChildren app row factor)
  | order {rows rows' : List Levels} (grid : LegacyGrid app rows) (perm : rows.Perm rows') :
      LegacyGrid app rows'

/-- All grids: byte-suffix splits first, then bit-path splits, each of which migrates what it finds. -/
inductive Reachable (app : Bytes) : List Levels → Prop
  | legacy {rows : List Levels} (grid : LegacyGrid app rows) : Reachable app rows
  | genesis : Reachable app (genesisGridPrefixes 0)
  | deepSplit {rows : List Levels} {parent branch : List Bool} (grid : Reachable app rows)
      (stored : bitPathToPrefix parent ∈ migrateAppShardsToSentinel rows) (below : parent <+: branch) :
      Reachable app ((migrateAppShardsToSentinel rows).erase (bitPathToPrefix parent) ++
        (deepChildren parent branch).map bitPathToPrefix)
  | order {rows rows' : List Levels} (grid : Reachable app rows) (perm : rows.Perm rows') :
      Reachable app rows'

/-! ### Rows of bit paths -/

theorem levelPartition_single {vs : List ℕ} {a : ℕ} (h : ∀ v, v ∈ vs ↔ v = a) :
    levelPartition vs = (0, fun _ => 0) := by
  rw [@levelPartition_congr _ [a] (by simpa using h)]
  rfl

theorem levelPartition_bits {vs : List ℕ} (h : ∀ v, v ∈ vs ↔ v = 0 ∨ v = 1) (b : Bool) :
    pathOf (levelPartition vs).1 ((levelPartition vs).2 b.toNat) = [b] := by
  rw [@levelPartition_congr _ [0, 1] (by simpa using h)]
  cases b <;> decide

variable {p : List Bool}

theorem getD_map_toNat {d : ℕ} (h : d < p.length) : (p.map Bool.toNat).getD d 0 = (p.getD d false).toNat := by
  simp [getD_eq_getElem?_getD, getElem?_map, getElem?_eq_getElem h]

theorem map_toNat_inj {q : List Bool} : p.map Bool.toNat = q.map Bool.toNat ↔ p = q :=
  map_inj_right fun a b h => by cases a <;> cases b <;> simp_all

/-- At every level of a stored path both bits occur, because the paths are complete. -/
theorem mem_siblings_bitPath {paths : List (List Bool)} (h : Partition paths)
    (hp : p ∈ paths) {d : ℕ} (hd : d < p.length) (v : ℕ) :
    v ∈ siblings (paths.map bitPathToPrefix) (bitPathToPrefix p) (d + 1) ↔ v = 0 ∨ v = 1 := by
  rw [mem_siblings]
  constructor
  · rintro ⟨r, hr, hlen, -, rfl⟩
    obtain ⟨q, -, rfl⟩ := mem_map.1 hr
    have hlen : d < q.length := by simpa [bitPathToPrefix] using hlen
    rw [bitPathToPrefix, getD_cons_succ, getD_map_toNat hlen]
    cases q.getD d false <;> simp
  · intro hv
    obtain ⟨b, rfl⟩ : ∃ b : Bool, b.toNat = v := by
      rcases hv with rfl | rfl
      · exact ⟨false, rfl⟩
      · exact ⟨true, rfl⟩
    have hne : p.take d ≠ p := fun he => by
      have := congrArg length he
      simp at this
      omega
    obtain ⟨q, hq, t, rfl⟩ := h.exists_below hp ( take_prefix d p) hne b
    have htake : (p.take d).length = d := by simp [hd.le]
    refine ⟨_, mem_map_of_mem hq, ?_, ?_, ?_⟩
    · simp [bitPathToPrefix]
      omega
    · simp only [bitPathToPrefix, take_succ_cons, cons.injEq, true_and, ← map_take, map_toNat_inj, append_assoc]
      rw [take_left' htake]
    · rw [bitPathToPrefix, getD_cons_succ, getD_map_toNat (by simp; omega)]
      simp [getD_eq_getElem?_getD, htake]

/-- Stored bit paths are their own canonical paths. -/
theorem canonicalPath_bitPath {paths : List (List Bool)} (h : Partition paths)
    (hp : p ∈ paths) : canonicalPath (paths.map bitPathToPrefix) (bitPathToPrefix p) = p := by
  have hfirst : levelBits (paths.map bitPathToPrefix) (bitPathToPrefix p) 0 = [] := by
    rw [levelBits, levelPartition_single (a := BIT_PATH_PREFIX_SENTINEL)]
    · rfl
    intro v
    rw [mem_siblings]
    constructor
    · rintro ⟨r, hr, -, -, rfl⟩
      obtain ⟨q, -, rfl⟩ := mem_map.1 hr
      rfl
    · rintro rfl
      exact ⟨_, mem_map_of_mem hp, by simp [bitPathToPrefix], rfl, rfl⟩
  have hrest : ∀ d ∈ range p.length,
      levelBits (paths.map bitPathToPrefix) (bitPathToPrefix p) (d + 1) = [p.getD d false] := by
    intro d hd
    have hd := mem_range.1 hd
    have hvalue : (bitPathToPrefix p).getD (d + 1) 0 = (p.getD d false).toNat := by
      rw [bitPathToPrefix, getD_cons_succ, getD_map_toNat hd]
    rw [levelBits, hvalue, levelPartition_bits (mem_siblings_bitPath h hp hd)]
  have hlen : (bitPathToPrefix p).length = p.length + 1 := by simp [bitPathToPrefix]
  rw [canonicalPath, hlen, range_succ_eq_map, flatMap_cons, hfirst, nil_append,
    flatMap_map, flatMap_congr hrest, ← map_eq_flatMap]
  refine ext_getElem (by simp) fun i hi hi' => ?_
  rw [getElem_map, getElem_range, getD_eq_getElem _ _ hi']

theorem canonical_bitPaths {paths : List (List Bool)} (h : Partition paths) :
    canonicalShardBitPaths (paths.map bitPathToPrefix) = paths := by
  rw [canonicalShardBitPaths_eq, map_map]
  exact (map_congr_left fun p hp => canonicalPath_bitPath h hp).trans (map_id _)

/-! ### Rows of marker bytes -/

section Split

variable {rows : List Levels} {p : Levels} {suffixes : List Levels}

/-- The rows after a row is replaced by extensions of it. -/
def replaceRow (rows : List Levels) (p : Levels) (suffixes : List Levels) : List Levels :=
  rows.erase p ++ suffixes.map (p ++ ·)

section
variable (hnodup : rows.Nodup)
include hnodup

theorem mem_replaceRow {r : Levels} :
    r ∈ replaceRow rows p suffixes ↔ (r ≠ p ∧ r ∈ rows) ∨ ∃ s ∈ suffixes, p ++ s = r := by
  rw [replaceRow, mem_append, hnodup.mem_erase_iff, mem_map]

/-- Above the replaced row, and away from it, the siblings stay as they were. -/
theorem mem_siblings_replaceRow (hp : p ∈ rows) (hne : suffixes ≠ [])
    {q : Levels} {d : ℕ} (haway : p.length ≤ d → ¬ p <+: q) (v : ℕ) :
    v ∈ siblings (replaceRow rows p suffixes) q d ↔ v ∈ siblings rows q d := by
  simp only [mem_siblings]
  constructor
  · rintro ⟨r, hr, hlen, htake, hv⟩
    rcases (mem_replaceRow hnodup).1 hr with ⟨-, hr⟩ | ⟨s, -, rfl⟩
    · exact ⟨r, hr, hlen, htake, hv⟩
    rcases lt_or_ge d p.length with hd | hd
    · rw [take_append_of_le_length hd.le] at htake
      rw [getD_append _ _ _ _ hd] at hv
      exact ⟨p, hp, hd, htake, hv⟩
    refine absurd ?_ (haway hd)
    have hpre : p <+: (p ++ s).take d := prefix_take_iff.2 ⟨prefix_append p s, hd⟩
    exact (htake ▸ hpre).trans ( take_prefix d q)
  · rintro ⟨r, hr, hlen, htake, hv⟩
    rcases eq_or_ne r p with rfl | hrp
    · obtain ⟨s, hs⟩ := exists_mem_of_ne_nil _ hne
      refine ⟨r ++ s, (mem_replaceRow hnodup).2 (.inr ⟨s, hs, rfl⟩), ?_, ?_, ?_⟩
      · rw [length_append]
        omega
      · rw [take_append_of_le_length hlen.le, htake]
      · rw [getD_append _ _ _ _ hlen, hv]
    · exact ⟨r, (mem_replaceRow hnodup).2 (.inl ⟨hrp, hr⟩), hlen, htake, hv⟩

/-- The other rows keep their paths. -/
theorem canonicalPath_replaceRow_other (hfree : PrefixFree rows) (hp : p ∈ rows) (hne : suffixes ≠ []) {q : Levels}
    (hq : q ∈ rows) (hqp : q ≠ p) : canonicalPath (replaceRow rows p suffixes) q = canonicalPath rows q := by
  refine flatMap_congr fun d _ => levelBits_congr rfl fun v => ?_
  exact mem_siblings_replaceRow hnodup hp hne (fun _ hpre => hqp (hfree p hp q hq hpre).symm) v

/-- Below the replaced row the siblings are those of the suffixes alone. -/
theorem mem_siblings_below (hfree : PrefixFree rows) (hp : p ∈ rows) (s : Levels) (e v : ℕ) :
    v ∈ siblings (replaceRow rows p suffixes) (p ++ s) (p.length + e) ↔ v ∈ siblings suffixes s e := by
  simp only [mem_siblings, take_length_add_append]
  constructor
  · rintro ⟨r, hr, hlen, htake, hv⟩
    rcases (mem_replaceRow hnodup).1 hr with ⟨hrp, hr⟩ | ⟨s', hs', rfl⟩
    · have hpr : p <+: r := by
        have hpre : p <+: r.take (p.length + e) := htake ▸ prefix_append p _
        exact hpre.trans ( take_prefix _ r)
      exact absurd (hfree p hp r hr hpr).symm hrp
    rw [take_length_add_append, append_cancel_left_eq] at htake
    rw [getD_append_right _ _ _ _ (by omega), Nat.add_sub_cancel_left] at hv
    exact ⟨s', hs', by simpa using hlen, htake, hv⟩
  · rintro ⟨s', hs', hlen, htake, hv⟩
    refine ⟨p ++ s', (mem_replaceRow hnodup).2 (.inr ⟨s', hs', rfl⟩), by simpa using hlen, ?_, ?_⟩
    · rw [take_length_add_append, htake]
    · rw [getD_append_right _ _ _ _ (by omega), Nat.add_sub_cancel_left, hv]

/-- A child's path is its parent's, and then its suffix's path among the suffixes. -/
theorem canonicalPath_replaceRow_child (hfree : PrefixFree rows) (hp : p ∈ rows)
    (hne : suffixes ≠ []) (s : Levels) : canonicalPath (replaceRow rows p suffixes) (p ++ s) =
      canonicalPath rows p ++ canonicalPath suffixes s := by
  have habove : ∀ d ∈ range p.length,
      levelBits (replaceRow rows p suffixes) (p ++ s) d = levelBits rows p d := by
    intro d hd
    have hd := mem_range.1 hd
    refine levelBits_congr (getD_append _ _ _ _ hd) fun v => ?_
    rw [mem_siblings_replaceRow hnodup hp hne (fun hle => absurd hd (not_lt.2 hle))]
    simp only [mem_siblings, take_append_of_le_length hd.le]
  have hbelow : ∀ e ∈ range s.length,
      levelBits (replaceRow rows p suffixes) (p ++ s) (p.length + e) = levelBits suffixes s e := by
    intro e _
    refine levelBits_congr ?_ (mem_siblings_below hnodup hfree hp s e)
    rw [getD_append_right _ _ _ _ (by omega), Nat.add_sub_cancel_left]
  rw [canonicalPath, length_append, range_add, flatMap_append, flatMap_map,
    flatMap_congr habove, flatMap_congr hbelow, canonicalPath, canonicalPath]

end

end Split

/-- Rows of marker bytes that are read as a partition. -/
structure Marked (rows : List Levels) : Prop where
  small : ∀ r ∈ rows, ∀ v ∈ r, v < 256
  nodup : rows.Nodup
  free : PrefixFree rows
  partition : Partition (rows.map (canonicalPath rows))

variable {rows : List Levels}

theorem Marked.perm {rows' : List Levels} (h : Marked rows) (hperm : rows.Perm rows') : Marked rows' where
  small r hr := h.small r (hperm.mem_iff.2 hr)
  nodup := hperm.nodup_iff.1 h.nodup
  free q hq r hr := h.free q (hperm.mem_iff.2 hq) r (hperm.mem_iff.2 hr)
  partition := by
    have hpaths : rows'.map (canonicalPath rows') = rows'.map (canonicalPath rows) :=
      map_congr_left fun p _ => canonicalPath_congr (fun q => hperm.symm.mem_iff) p
    rw [hpaths]
    exact h.partition.perm (hperm.map _)

/-- The suffixes of a split are themselves read as a partition. -/
theorem Marked.replaceRow (h : Marked rows) {p : Levels} (hp : p ∈ rows)
    {suffixes : List Levels} (hs : Marked suffixes) : Marked (replaceRow rows p suffixes) := by
  have hne : suffixes ≠ [] := fun he => hs.partition.ne_nil (by rw [he]; rfl)
  have hperm : rows.Perm (p :: rows.erase p) := perm_cons_erase hp
  have hfree : PrefixFree (p :: rows.erase p) := fun q hq r hr => h.free q (hperm.mem_iff.2 hq) r (hperm.mem_iff.2 hr)
  obtain ⟨hfree', hnodup'⟩ :=
    hfree.refine (hperm.nodup_iff.1 h.nodup) hs.free hs.nodup
  have hcomm : (suffixes.map (p ++ ·) ++ rows.erase p).Perm (Grids.replaceRow rows p suffixes) :=
    perm_append_comm
  refine ⟨?_, hcomm.nodup_iff.1 hnodup', fun q hq r hr => hfree' q (hcomm.mem_iff.2 hq) r (hcomm.mem_iff.2 hr), ?_⟩
  · intro r hr v hv
    rcases (mem_replaceRow h.nodup).1 hr with ⟨-, hr⟩ | ⟨s, hs', rfl⟩
    · exact h.small r hr v hv
    rcases mem_append.1 hv with hv | hv
    · exact h.small p hp v hv
    · exact hs.small s hs' v hv
  refine Partition.perm ?_ (hcomm.map _)
  have hchildren : (suffixes.map (p ++ ·)).map (canonicalPath (Grids.replaceRow rows p suffixes)) =
      (suffixes.map (canonicalPath suffixes)).map (canonicalPath rows p ++ ·) := by
    rw [map_map, map_map]
    exact map_congr_left fun s _ => canonicalPath_replaceRow_child h.nodup h.free hp hne s
  have hothers : (rows.erase p).map (canonicalPath (Grids.replaceRow rows p suffixes)) =
      (rows.erase p).map (canonicalPath rows) := by
    refine map_congr_left fun q hq => ?_
    obtain ⟨hqp, hq⟩ := h.nodup.mem_erase_iff.1 hq
    exact canonicalPath_replaceRow_other h.nodup h.free hp hne hq hqp
  rw [map_append, hchildren, hothers]
  exact (h.partition.perm (hperm.map _)).refine hs.partition

/-! ### Byte-suffix grids -/

theorem distinct_range (n : ℕ) : distinct (.range n) = .range n := by
  rw [distinct, nodup_range.dedup]
  exact List.Pairwise.insertionSort_eq ((pairwise_lt_range).imp le_of_lt)

theorem marked_root : Marked [[]] where
  small := by decide
  nodup := by decide
  free := by decide
  partition := partition_root

/-- In the 64-way root grid an index is its six bits. -/
theorem canonicalPath_ways64 (i : ℕ) : canonicalPath ((range 64).map fun i => [i]) [i] = pathOf 6 i := by
  have hsiblings : ∀ v, v ∈ siblings ((range 64).map fun i => [i]) [i] 0 ↔ v ∈ range 64 := by
    intro v
    simp [mem_siblings]
  have hlevel : levelPartition (range 64) = (6, fun v => v) := by
    simp [levelPartition, distinct_range, Nat.log2_def]
  rw [canonicalPath, length_singleton, range_one, flatMap_singleton, levelBits,
    levelPartition_congr hsiblings, hlevel]
  rfl

theorem marked_ways64 : Marked ((range 64).map fun i => [i]) where
  small := by
    intro r hr v hv
    obtain ⟨i, hi, rfl⟩ := mem_map.1 hr
    have := mem_range.1 hi
    rw [mem_singleton.1 hv]
    omega
  nodup := nodup_range.map fun i j h => singleton_inj.1 h
  free := by
    intro q hq r hr hqr
    obtain ⟨i, -, rfl⟩ := mem_map.1 hq
    obtain ⟨j, -, rfl⟩ := mem_map.1 hr
    exact hqr.eq_of_length rfl
  partition := by
    have hpath : ((range 64).map fun i => [i]).map (canonicalPath ((range 64).map fun i => [i])) =
        (range (2 ^ 6)).map (pathOf 6) := by
      rw [map_map]
      refine map_congr_left fun i _ => ?_
      rw [Function.comp_apply, canonicalPath_ways64]
    rw [hpath]
    exact partition_pathOf 6

/-- The markers as levels. -/
def suffixLevels (factor : ℕ) : List Levels := (splitSuffixes factor).map (·.map UInt8.toNat)

theorem marked_suffixLevels {factor : ℕ} (h : factor = 2 ∨ factor = 4 ∨ factor = 8) :
    Marked (suffixLevels factor) := by
  have hpaths : ∃ w, (suffixLevels factor).map (canonicalPath (suffixLevels factor)) =
      (range (2 ^ w)).map (pathOf w) := by
    rcases h with rfl | rfl | rfl
    · exact ⟨1, by decide⟩
    · exact ⟨2, by decide⟩
    · exact ⟨3, by decide⟩
  obtain ⟨w, hw⟩ := hpaths
  refine ⟨?_, ?_, ?_, hw ▸ partition_pathOf w⟩ <;> rcases h with rfl | rfl | rfl <;> decide

theorem shardBitPathFromPrefix_small {p : Levels} (h : ∀ v ∈ p, v < 256) : shardBitPathFromPrefix p = none := by
  rcases p with _ | ⟨head, rest⟩
  · rfl
  have hhead := h head mem_cons_self
  rw [shardBitPathFromPrefix, if_pos]
  rintro rfl
  exact absurd hhead (by decide)

/-- The rows proposed for a row of marker bytes are the row with each suffix appended. -/
theorem byteChildren_eq {app : Bytes} (happ : app.length = 32) {p : Levels} (h : ∀ v ∈ p, v < 256)
    (factor : ℕ) : byteChildren app p factor = (suffixLevels factor).map (p ++ ·) := by
  have hlevels : (p.map .ofNat).map UInt8.toNat = p := by
    rw [map_map]
    refine (map_congr_left fun v hv => ?_).trans (map_id p)
    simpa using h v hv
  rw [byteChildren, computeProposedShards, shardPrefixToFilter, shardBitPathFromPrefix_small h,
    suffixLevels, map_map, map_map]
  refine map_congr_left fun s _ => ?_
  simp only [Function.comp_apply]
  rw [append_assoc, ← happ, drop_left, map_append, hlevels]

/-- Every byte-suffix grid is read as a partition. -/
theorem LegacyGrid.marked {app : Bytes} (happ : app.length = 32) (h : LegacyGrid app rows) : Marked rows := by
  induction h with
  | root => exact marked_root
  | ways64 => exact marked_ways64
  | @split rows row factor _ stored ways ih =>
    rw [byteChildren_eq happ (ih.small row stored)]
    exact ih.replaceRow stored (marked_suffixLevels ways)
  | order _ perm ih => exact ih.perm perm

/-! ### Migrating -/

/-- Rows that store the bit paths of a partition. -/
def Migrated (rows : List Levels) : Prop := ∃ paths, Partition paths ∧ rows = paths.map bitPathToPrefix

theorem Migrated.all_sentinel (h : Migrated rows) : ∀ r ∈ rows, (shardBitPathFromPrefix r).isSome = true := by
  obtain ⟨paths, -, rfl⟩ := h
  intro r hr
  obtain ⟨p, -, rfl⟩ := mem_map.1 hr
  simp

theorem migrate_of_migrated (h : Migrated rows) : migrateAppShardsToSentinel rows = rows := by
  have hall : (rows.all fun r => (shardBitPathFromPrefix r).isSome) = true :=
    all_eq_true.2 h.all_sentinel
  rw [migrateAppShardsToSentinel, if_pos hall]
  split_ifs <;> rfl

/-- One row after the other gives way to its path: the rows still to come, then the paths so far. -/
theorem migrate_fold {paths : List (List Bool)} (hlen : rows.length = paths.length)
    (hsmall : ∀ r ∈ rows, shardBitPathFromPrefix r = none) {done : List (List Bool)}
    (hnodup : (done ++ paths).Nodup) :
    (rows.zip paths).foldl (fun acc row =>
        putAppShard (deleteAppShard acc row.1) (bitPathToPrefix row.2)) (rows ++ done.map bitPathToPrefix) =
      (done ++ paths).map bitPathToPrefix := by
  induction rows generalizing paths done with
  | nil =>
    cases paths with
    | nil => simp
    | cons => simp at hlen
  | cons r rows ih =>
    rcases paths with _ | ⟨p, paths⟩
    · simp at hlen
    -- the path put is neither a row of markers nor one put before
    have hnew : bitPathToPrefix p ∉ rows ++ done.map bitPathToPrefix := by
      intro hmem
      rcases mem_append.1 hmem with hmem | hmem
      · have := hsmall _ (mem_cons_of_mem _ hmem)
        simp at this
      obtain ⟨q, hq, he⟩ := mem_map.1 hmem
      rw [bitPathToPrefix_injective he] at hq
      exact (nodup_append.1 hnodup).2.2 p hq p mem_cons_self rfl
    have hstep : putAppShard (deleteAppShard (r :: rows ++ done.map bitPathToPrefix) r)
        (bitPathToPrefix p) = rows ++ (done ++ [p]).map bitPathToPrefix := by
      rw [deleteAppShard, cons_append, erase_cons_head, putAppShard, if_neg hnew]
      simp
    have hnext := @ih paths (by simpa using hlen) (fun r hr => hsmall r (mem_cons_of_mem _ hr))
      (done ++ [p]) (by simpa using hnodup)
    rw [zip_cons_cons, foldl_cons, hstep, hnext, append_assoc, singleton_append]

/-- Rows none of which is a bit path become the rows of their canonical paths, in order. -/
theorem migrate_of_none (hnone : ∀ r ∈ rows, shardBitPathFromPrefix r = none)
    (hne : rows ≠ []) (hpart : Partition (canonicalShardBitPaths rows)) :
    migrateAppShardsToSentinel rows = (canonicalShardBitPaths rows).map bitPathToPrefix := by
  rw [migrateAppShardsToSentinel, if_neg hne, if_neg]
  · have hfold := @migrate_fold rows (canonicalShardBitPaths rows)
      (by rw [canonicalShardBitPaths_eq, length_map]) hnone []
      (by rw [nil_append]; exact hpart.nodup)
    simpa using hfold
  obtain ⟨r, hr⟩ := exists_mem_of_ne_nil _ hne
  simp only [all_eq_true, not_forall]
  exact ⟨r, hr, by simp [hnone r hr]⟩

theorem migrate_of_marked (h : Marked rows) :
    migrateAppShardsToSentinel rows = (canonicalShardBitPaths rows).map bitPathToPrefix := by
  refine migrate_of_none (fun r hr => shardBitPathFromPrefix_small (h.small r hr)) ?_ ?_
  · rintro rfl
    exact h.partition.ne_nil rfl
  · rw [canonicalShardBitPaths_eq]
    exact h.partition

/-! ### Bit-path splits -/

theorem splitSpineSiblings_eq (parent suffix : List Bool) :
    splitSpineSiblings parent (parent ++ suffix) = (coPath suffix).map (parent ++ ·) := by
  rw [splitSpineSiblings, coPath_eq, map_map, length_append, Nat.add_sub_cancel_left, range'_eq_map_range, map_map]
  refine map_congr_left fun i _ => ?_
  simp only [Function.comp_apply]
  rw [take_length_add_append, getD_append_right _ _ _ _ (by omega), Nat.add_sub_cancel_left, append_assoc]

/-- Two children of a branch and the co-path of the branch partition the space. -/
theorem partition_branch (branch : List Bool) : Partition ([branch ++ [false], branch ++ [true]] ++ coPath branch) :=
  (partition_coPath branch).refine (partition_pathOf 1)

/-- A bit-path split takes a partition to a partition. -/
theorem partition_deepSplit {paths : List (List Bool)} (h : Partition paths) {parent branch : List Bool}
    (hp : parent ∈ paths) (hbelow : parent <+: branch) :
    Partition (paths.erase parent ++ deepChildren parent branch) := by
  obtain ⟨suffix, rfl⟩ := hbelow
  have hchildren : deepChildren parent (parent ++ suffix) =
      ([suffix ++ [false], suffix ++ [true]] ++ coPath suffix).map (parent ++ ·) := by
    rw [deepChildren, splitSpineSiblings_eq, map_append]
    simp
  rw [hchildren]
  exact ((h.perm (perm_cons_erase hp)).refine (partition_branch suffix)).perm perm_append_comm

theorem migrated_genesis : Migrated (genesisGridPrefixes 0) := by
  refine ⟨_, partition_pathOf 6, ?_⟩
  rw [genesisGridPrefixes, if_pos rfl, map_map]
  refine map_congr_left fun i _ => ?_
  simp [prefixToBits]

/-- What is stored after migrating, for a grid in either form. -/
theorem migrate_eq (h : Marked rows ∨ Migrated rows) :
    migrateAppShardsToSentinel rows = (canonicalShardBitPaths rows).map bitPathToPrefix := by
  rcases h with h | h
  · exact migrate_of_marked h
  rw [migrate_of_migrated h]
  obtain ⟨paths, hpaths, rfl⟩ := h
  rw [canonical_bitPaths hpaths]

theorem partition_canonical (h : Marked rows ∨ Migrated rows) : Partition (canonicalShardBitPaths rows) := by
  rcases h with h | ⟨paths, hpaths, rfl⟩
  · rw [canonicalShardBitPaths_eq]
    exact h.partition
  · rwa [canonical_bitPaths hpaths]

/-- Every grid is all marker bytes or all bit paths, and read as a partition. -/
theorem Reachable.form {app : Bytes} (happ : app.length = 32)
    (h : Reachable app rows) : Marked rows ∨ Migrated rows := by
  induction h with
  | legacy grid => exact .inl (grid.marked happ)
  | genesis => exact .inr migrated_genesis
  | @deepSplit rows parent branch _ stored below ih =>
    have hpart := partition_canonical ih
    rw [migrate_eq ih] at stored ⊢
    have hp : parent ∈ canonicalShardBitPaths rows :=
      (mem_map_of_injective bitPathToPrefix_injective).1 stored
    refine .inr ⟨_, partition_deepSplit hpart hp below, ?_⟩
    rw [map_append, map_erase bitPathToPrefix_injective]
  | order _ perm ih =>
    rcases ih with ih | ⟨paths, hpaths, rfl⟩
    · exact .inl (ih.perm perm)
    obtain ⟨paths', rfl, hperm⟩ :=
      (congrFun₂ (eq_map_comp_perm bitPathToPrefix) _ paths).mpr perm.symm
    exact .inr ⟨paths', hpaths.perm hperm.symm, rfl⟩

/-! ### Routing -/

/-- The address begins with the path exactly when the path begins its bits. -/
theorem addrHasBitPrefix_iff {addr : Bytes} {n : ℕ} (hn : p.length ≤ n) :
    addrHasBitPrefix addr p = true ↔ p <+: (range n).map (addressBit addr) := by
  rw [addrHasBitPrefix, all_eq_true, prefix_iff_eq_take, ← map_take, take_range, Nat.min_eq_left hn]
  constructor
  · intro h
    refine ext_getElem (by simp) fun i hi _ => ?_
    have hbit := h (p[i], i) (by simp [mem_zipIdx_iff_getElem?])
    rw [getElem_map, getElem_range]
    exact (beq_iff_eq.1 hbit).symm
  · rintro h ⟨b, i⟩ hb
    obtain ⟨hi, hget⟩ := List.getElem?_eq_some_iff.1 (List.mem_zipIdx_iff_getElem?.1 hb)
    have hp : p[i] = addressBit addr i := by
      have : p[i]? = ((range p.length).map (addressBit addr))[i]? := by rw [← h]
      simpa [hi] using this
    simp only at hget
    simp [← hget, hp]

/-- Exactly one path of a partition begins an address. -/
theorem exists_route {paths : List (List Bool)} (h : Partition paths) (addr : Bytes) :
    ∃ p ∈ paths, ∀ q ∈ paths, addrHasBitPrefix addr q = true ↔ q = p := by
  let n := (paths.map length).foldr max 0
  have hn : ∀ q ∈ paths, q.length ≤ n := fun q hq => le_max_of_le (mem_map_of_mem hq) le_rfl
  obtain ⟨p, hp, huniq⟩ := h.existsUnique ((range n).map (addressBit addr)) (by simpa using hn)
  exact ⟨p, hp, fun q hq => (addrHasBitPrefix_iff (hn q hq)).trans (huniq q hq)⟩

/-- Routing picks that path. -/
theorem route_addressShardIndex {paths : List (List Bool)} (h : Partition paths) (addr : Bytes) :
    addressShardIndex addr paths < paths.length ∧
      ∀ i < paths.length, addrHasBitPrefix addr (paths.getD i []) = true ↔ i = addressShardIndex addr paths := by
  obtain ⟨p, hp, huniq⟩ := exists_route h addr
  obtain ⟨j, hj, rfl⟩ := mem_iff_getElem.1 hp
  have hiff : ∀ i (hi : i < paths.length), addrHasBitPrefix addr paths[i] = true ↔ i = j := by
    intro i hi
    rw [huniq _ (getElem_mem hi), h.nodup.getElem_inj_iff]
  have hindex : addressShardIndex addr paths = j := by
    rw [addressShardIndex, findIdx?_eq_some_iff_getElem.2 ⟨hj, (hiff j hj).2 rfl, ?_⟩, Option.getD_some]
    intro i hij
    exact fun hi => hij.ne ((hiff i (hij.trans hj)).1 hi)
  rw [hindex]
  refine ⟨hj, fun i hi => ?_⟩
  rw [getD_eq_getElem _ _ hi]
  exact hiff i hi

/-- In another order of the same paths an address has the same path. -/
theorem route_perm {paths paths' : List (List Bool)} (h : Partition paths) (hperm : paths'.Perm paths)
    (addr : Bytes) : paths'.getD (addressShardIndex addr paths') [] =
      paths.getD (addressShardIndex addr paths) [] := by
  have hpath : ∀ {l : List (List Bool)}, Partition l → l.getD (addressShardIndex addr l) [] ∈ l ∧
        addrHasBitPrefix addr (l.getD (addressShardIndex addr l) []) = true := by
    intro l hl
    obtain ⟨hlt, hiff⟩ := route_addressShardIndex hl addr
    refine ⟨?_, (hiff _ hlt).2 rfl⟩
    rw [getD_eq_getElem _ _ hlt]
    exact getElem_mem hlt
  obtain ⟨p, -, huniq⟩ := exists_route h addr
  obtain ⟨hmem, hhas⟩ := hpath h
  obtain ⟨hmem', hhas'⟩ := hpath (h.perm hperm.symm)
  rw [(huniq _ hmem).1 hhas, (huniq _ (hperm.mem_iff.1 hmem')).1 hhas']

/-- On every grid the canonical paths are complete and prefix-free, one a row, and exactly one shard
    covers an address, the one routing picks. Migrating stores every row as its canonical path; read
    back in any order the rows have the same paths and every address the same one, and unless the grid
    was stored as bit paths before, no row keeps its form. -/
theorem canonical_paths_keep_routing {app : Bytes} (happ : app.length = 32) {rows : List Levels}
    (h : Reachable app rows) :
    ((canonicalShardBitPaths rows).length = rows.length ∧ Partition (canonicalShardBitPaths rows) ∧
      ∀ addr, addressShardIndex addr (canonicalShardBitPaths rows) < rows.length ∧
        ∀ i < rows.length, addrHasBitPrefix addr ((canonicalShardBitPaths rows).getD i []) = true ↔
          i = addressShardIndex addr (canonicalShardBitPaths rows)) ∧
    (migrateAppShardsToSentinel rows = (canonicalShardBitPaths rows).map bitPathToPrefix ∧
      ∀ rows', rows'.Perm (migrateAppShardsToSentinel rows) →
        (canonicalShardBitPaths rows').Perm (canonicalShardBitPaths rows) ∧
        ∀ addr, (canonicalShardBitPaths rows').getD
            (addressShardIndex addr (canonicalShardBitPaths rows')) [] =
          (canonicalShardBitPaths rows).getD
            (addressShardIndex addr (canonicalShardBitPaths rows)) []) ∧
    ((∀ r ∈ rows, (shardBitPathFromPrefix r).isSome = true) ∧ migrateAppShardsToSentinel rows = rows ∨
      ∀ r ∈ rows, r ∉ migrateAppShardsToSentinel rows) := by
  have hform := h.form happ
  have hpart := partition_canonical hform
  have hlen : (canonicalShardBitPaths rows).length = rows.length := by rw [canonicalShardBitPaths_eq, length_map]
  refine ⟨⟨hlen, hpart, fun addr => ?_⟩, ⟨migrate_eq hform, fun rows' hperm => ?_⟩, ?_⟩
  · rw [← hlen]
    exact route_addressShardIndex hpart addr
  · rw [migrate_eq hform] at hperm
    obtain ⟨paths', rfl, hpaths⟩ :=
      (congrFun₂ (eq_map_comp_perm bitPathToPrefix) _ _).mpr hperm
    rw [canonical_bitPaths (hpart.perm hpaths.symm)]
    exact ⟨hpaths, route_perm hpart hpaths⟩
  rcases hform with hmarked | hmigrated
  · refine Or.inr fun r hr hmem => ?_
    rw [migrate_of_marked hmarked] at hmem
    obtain ⟨p, -, rfl⟩ := mem_map.1 hmem
    have hnone := shardBitPathFromPrefix_small (hmarked.small _ hr)
    simp at hnone
  · exact Or.inl ⟨hmigrated.all_sentinel, migrate_of_migrated hmigrated⟩

/-- Eight byte-suffix children of one of the 64 root shards, then a bit-path split two bits down. -/
theorem canonical_paths_deep_after_octal :
    let app : Bytes := replicate 32 7
    let octal := ((range 64).map fun i => [i]).erase [5] ++ byteChildren app [5] 8
    let parent := [false, false, false, true, false, true, true, false, false]
    let rows := (migrateAppShardsToSentinel octal).erase (bitPathToPrefix parent) ++
      (deepChildren parent (parent ++ [true, false])).map bitPathToPrefix
    Reachable app rows ∧ Partition (canonicalShardBitPaths rows) := by
  intro app octal parent rows
  have hoctal : LegacyGrid app octal := LegacyGrid.ways64.split (by decide) (Or.inr (Or.inr rfl))
  have hstored : bitPathToPrefix parent ∈ migrateAppShardsToSentinel octal := by decide +kernel
  have hrows : Reachable app rows :=
    (Reachable.legacy hoctal).deepSplit hstored (prefix_append parent _)
  exact ⟨hrows, (canonical_paths_keep_routing (by decide) hrows).1.2.1⟩

/-- Grids of splits of both kinds in any order. -/
inductive AnyGrid (app : Bytes) : List Levels → Prop
  | root : AnyGrid app [[]]
  | ways64 : AnyGrid app ((List.range 64).map fun i => [i])
  | split {rows : List Levels} {row : Levels} {factor : ℕ} (grid : AnyGrid app rows)
      (stored : row ∈ rows) (ways : factor = 2 ∨ factor = 4 ∨ factor = 8) :
      AnyGrid app (rows.erase row ++ byteChildren app row factor)
  | deepSplit {rows : List Levels} {parent branch : List Bool} (grid : AnyGrid app rows)
      (stored : bitPathToPrefix parent ∈ migrateAppShardsToSentinel rows) (below : parent <+: branch) :
      AnyGrid app ((migrateAppShardsToSentinel rows).erase (bitPathToPrefix parent) ++
        (deepChildren parent branch).map bitPathToPrefix)

/-- Marker bytes appended to the filters of bit paths are read with the length bytes as levels: two
    shards get one path. -/
theorem markers_after_bit_paths :
    ∃ rows, AnyGrid (replicate 32 7) rows ∧ ¬ (canonicalShardBitPaths rows).Nodup := by
  let app : Bytes := replicate 32 7
  have h₁ := @AnyGrid.deepSplit app _ [] [] .root (by decide) (prefix_refl _)
  have h₂ := @AnyGrid.deepSplit app _ [false] [false] h₁ (by decide +kernel) (prefix_refl _)
  have h₃ := @AnyGrid.split app _ (bitPathToPrefix [true]) 2 h₂ (by decide +kernel) (Or.inl rfl)
  have h₄ := @AnyGrid.split app _ (bitPathToPrefix [false, false]) 2 h₃ (by decide +kernel) (Or.inl rfl)
  exact ⟨_, h₄, by decide +kernel⟩

end Quil.Grids
