import Quilibrium.Forest.Membership

/-! An application's shards lie at bit paths of unequal depths, and its root folds their roots. A member's
    CO-PATH is the fold of the shards that leave its path at each level. Proved: over every set of paths of
    which none begins another, complete or not, a member's root climbs along its co-path to the root of the
    whole set, and no other root does. -/

namespace Quil.ShardRoots
open Schemes VertexTrees Quil.Membership List
open ShardFilters (Bytes)

variable (H : Hashing)

/-- The shards that leave the path at bit `d`, by what is left of their paths. -/
def siblingShards (shards : List (List Bool × Digest 32)) (target : List Bool) (d : ℕ) :
    List (List Bool × Digest 32) :=
  (shards.filter fun shard =>
    d < shard.1.length ∧ shard.1.take d = target.take d ∧ shard.1[d]? ≠ target[d]?).map
      fun shard => (shard.1.drop (d + 1), shard.2)

/-- The co-path of the shard at `target`, one sibling per level from the top. -/
def appMembershipPathDynamic (shards : List (List Bool × Digest 32)) (target : List Bool) :
    List (Digest 32) :=
  (List.range target.length).map fun d => appRootFromShardPaths H (siblingShards shards target d)

/-! ### One level of a co-path -/

theorem siblingShards_cons (path : List Bool) (root : Digest 32) (shards : List (List Bool × Digest 32))
    (target : List Bool) (d : ℕ) : siblingShards ((path, root) :: shards) target d =
      if d < path.length ∧ path.take d = target.take d ∧ path[d]? ≠ target[d]? then
        (path.drop (d + 1), root) :: siblingShards shards target d
      else siblingShards shards target d := by
  rw [siblingShards, siblingShards, filter_cons]
  simp only [decide_eq_true_eq]
  split_ifs <;> rfl

section
variable (shards : List (List Bool × Digest 32))

theorem siblingShards_zero (b : Bool) (target : List Bool) :
    siblingShards shards (b :: target) 0 = under (!b) shards := by
  induction shards with
  | nil => rfl
  | cons shard shards ih =>
    obtain ⟨path, root⟩ := shard
    rw [siblingShards_cons, ih, under, under]
    cases path with
    | nil => simp
    | cons c path => cases b <;> cases c <;> simp

theorem siblingShards_succ (b : Bool) (target : List Bool) (d : ℕ) :
    siblingShards shards (b :: target) (d + 1) = siblingShards (under b shards) target d := by
  induction shards with
  | nil => rfl
  | cons shard shards ih =>
    obtain ⟨path, root⟩ := shard
    rw [siblingShards_cons, ih]
    rcases path with _ | ⟨c, path⟩
    · simp [under]
    -- a shard on the other side of the first bit is no sibling below it
    by_cases hc : c = b
    · have hunder : under b ((c :: path, root) :: shards) = (path, root) :: under b shards := by
        simp [under, hc]
      rw [hunder, siblingShards_cons]
      simp [hc]
    · simp [under, hc]

theorem appMembershipPathDynamic_cons (b : Bool) (target : List Bool) :
    appMembershipPathDynamic H shards (b :: target) =
      appRootFromShardPaths H (under (!b) shards) :: appMembershipPathDynamic H (under b shards) target := by
  rw [appMembershipPathDynamic, appMembershipPathDynamic, length_cons, range_succ_eq_map,
    map_cons, map_map, siblingShards_zero]
  congr 1
  exact map_congr_left fun d _ => congrArg (appRootFromShardPaths H) (siblingShards_succ shards b target d)

end

/-! ### The climb -/

variable {shards : List (List Bool × Digest 32)}

theorem length_le_depth :
    ∀ shard ∈ shards, shard.1.length ≤ (shards.map fun shard => shard.1.length).foldr max 0 := by
  intro shard hshard
  induction shards with
  | nil => cases hshard
  | cons first rest ih =>
    rw [map_cons, foldr_cons]
    rcases mem_cons.1 hshard with rfl | hrest
    · exact le_max_left _ _
    · exact (ih hrest).trans (le_max_right _ _)

section
variable (hfree : (shards.map Prod.fst).Pairwise Apart)
include hfree

theorem appRootFromShardPaths_eq {levels : ℕ} (hle : ∀ shard ∈ shards, shard.1.length ≤ levels) :
    appRootFromShardPaths H shards = foldPaths (hashPair H) (zeroDigest 32) levels shards :=
  foldPaths_levels _ _ hfree length_le_depth hle

/-- Below a first bit the root is the pair of the two sides' roots. -/
theorem appRootFromShardPaths_split {b : Bool} {path : List Bool}
    {root : Digest 32} (hmem : (b :: path, root) ∈ shards) : appRootFromShardPaths H shards =
      hashPair H (appRootFromShardPaths H (under false shards)) (appRootFromShardPaths H (under true shards)) := by
  obtain ⟨levels, hlevels⟩ := Nat.exists_eq_add_of_le' (Nat.one_le_of_lt (length_le_depth _ hmem))
  have hle : ∀ shard ∈ shards, shard.1.length ≤ levels + 1 := fun shard hshard =>
    (length_le_depth shard hshard).trans_eq hlevels
  rw [appRootFromShardPaths_eq H hfree hle, foldPaths_succ _ _ hmem,
    appRootFromShardPaths_eq H (apart_under hfree false) (length_le_of_mem_under hle),
    appRootFromShardPaths_eq H (apart_under hfree true) (length_le_of_mem_under hle)]

/-- A member's root climbs along its co-path to the root of the set. -/
theorem appRootFromShardPath_member {target : List Bool} {root : Digest 32} (hmem : (target, root) ∈ shards) :
    appRootFromShardPath H target root (appMembershipPathDynamic H shards target) =
      appRootFromShardPaths H shards := by
  induction target generalizing shards with
  | nil =>
    obtain rfl := eq_singleton_of_apart hfree hmem
    rfl
  | cons b target ih =>
    have hbelow := ih (apart_under hfree b) (mem_under_of_mem hmem)
    rw [appRootFromShardPath] at hbelow ⊢
    rw [appMembershipPathDynamic_cons, climbPath, hbelow, appRootFromShardPaths_split H hfree hmem]
    cases b <;> rfl

end

/-- Along its co-path a member's root gives the application's root, and where SHA-256 has no collision among
    the strings the recomputations hash, no other root for that member does. -/
theorem shard_paths_compose {shards : List (List Bool × Digest 32)}
    (hfree : (shards.map Prod.fst).Pairwise Apart) {target : List Bool} {root : Digest 32}
    (hmem : (target, root) ∈ shards) :
    appRootFromShardPath H target root (appMembershipPathDynamic H shards target) =
        appRootFromShardPaths H shards ∧
      ∀ (U : Set Bytes) (root' : Digest 32), Set.InjOn H.sha256 U →
        ClimbGood (hashPair H) (PairIn U) target (appMembershipPathDynamic H shards target) root →
        ClimbGood (hashPair H) (PairIn U) target (appMembershipPathDynamic H shards target) root' →
        appRootFromShardPath H target root' (appMembershipPathDynamic H shards target) =
          appRootFromShardPaths H shards → root' = root := by
  have hmember := appRootFromShardPath_member H hfree hmem
  refine ⟨hmember, ?_⟩
  intro U root' hinj hgood hgood' hroot'
  refine climbPath_inj (hashPair H) ?_ hgood' hgood (hroot'.trans hmember.symm)
  exact fun _ _ _ _ => hashPair_inj hinj

/-- Shards at unequal depths, with a gap. -/
def sampleShardSet : List (List Bool × Digest 32) :=
  [([false, false], sampleDigest 32 [1]), ([true, true], sampleDigest 32 [2]),
    ([true, false, true], sampleDigest 32 [3])]

/-- What the recomputations from two roots hash. -/
def sampleHashed : List Bytes :=
  let copath := appMembershipPathDynamic sampleHashing sampleShardSet [false, false]
  [[1], [4]].flatMap fun x =>
    [(sampleDigest 32 x).1 ++ (copath.getD 1 (zeroDigest 32)).1,
      (hashPair sampleHashing (sampleDigest 32 x) (copath.getD 1 (zeroDigest 32))).1 ++
        (copath.getD 0 (zeroDigest 32)).1]

theorem sampleHashed_injOn : Set.InjOn sampleHashing.sha256 {x | x ∈ sampleHashed} := fun x hx y hy =>
  (by decide +kernel : ∀ x ∈ sampleHashed, ∀ y ∈ sampleHashed,
    sampleHashing.sha256 x = sampleHashing.sha256 y → x = y) x hx y hy

/-- The shard's own root gives the application's root, another does not. -/
theorem shard_paths_compose_sample :
    appRootFromShardPath sampleHashing [false, false] (sampleDigest 32 [1])
        (appMembershipPathDynamic sampleHashing sampleShardSet [false, false]) =
        appRootFromShardPaths sampleHashing sampleShardSet ∧
      appRootFromShardPath sampleHashing [false, false] (sampleDigest 32 [4])
        (appMembershipPathDynamic sampleHashing sampleShardSet [false, false]) ≠
        appRootFromShardPaths sampleHashing sampleShardSet := by
  have hfree : (sampleShardSet.map Prod.fst).Pairwise Apart := by decide +kernel
  obtain ⟨hroot, hother⟩ := shard_paths_compose sampleHashing hfree
    (show ([false, false], sampleDigest 32 [1]) ∈ sampleShardSet from mem_cons_self)
  refine ⟨hroot, fun h => ?_⟩
  have hgood : ∀ x ∈ ([[1], [4]] : List Bytes),
      ClimbGood (hashPair sampleHashing) (PairIn {x | x ∈ sampleHashed}) [false, false]
        (appMembershipPathDynamic sampleHashing sampleShardSet [false, false]) (sampleDigest 32 x) := by
    intro x hx
    refine ⟨?_, ?_, trivial⟩
    · exact mem_flatMap.2 ⟨x, hx, mem_cons_of_mem _ mem_cons_self⟩
    · exact mem_flatMap.2 ⟨x, hx, mem_cons_self⟩
  exact absurd (hother _ _ sampleHashed_injOn (hgood [1] (by decide)) (hgood [4] (by decide)) h)
    (by decide +kernel)

end Quil.ShardRoots
