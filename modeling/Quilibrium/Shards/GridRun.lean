import Quilibrium.Shards.GridChanges

/-! The grid over whole runs of proposals and frames. Proposals are checked for their form when they are made and
    applied epochs later, so nothing at the proposal says what the grid will be. What is applied has to FIT: a split
    names all children of one branch below its parent, a merge finds registered exactly the children that make up its
    parent. That a split finds its parent at all is the stale check's doing: the live shards of a frame TRACK the rows
    of every application that no merge has changed in that frame. -/

namespace Quil.GridChanges
open Schemes ShardPaths ShardFilters Grids List Function Except

/-! ### Registered paths -/

/-- An application's paths as they are read back: the stored bit paths, or the canonical ones. -/
def shardBitPaths (rows : List Levels) : List (List Bool) :=
  if rows ≠ [] ∧ ∀ r ∈ rows, (shardBitPathFromPrefix r).isSome then
    rows.map fun r => (shardBitPathFromPrefix r).getD []
  else canonicalShardBitPaths rows

/-- All rows store bit paths. -/
def BitRows (rows : List Levels) : Prop := ∀ r ∈ rows, (shardBitPathFromPrefix r).isSome = true

/-- An application's rows are all bit paths or all legacy rows. -/
def OneEncoding (rows : List Levels) : Prop :=
  BitRows rows ∨ ∀ r ∈ rows, shardBitPathFromPrefix r = none

variable {bits : List Bool}

theorem eq_of_levelBit {levels : Levels} (h : levels.mapM levelBit = some bits) : levels = bits.map Bool.toNat := by
  induction levels generalizing bits with
  | nil => cases h; rfl
  | cons level levels ih =>
    rw [mapM_cons] at h
    obtain ⟨bit, hbit, h⟩ := Option.bind_eq_some_iff.1 h
    obtain ⟨rest, hrest, h⟩ := Option.bind_eq_some_iff.1 h
    cases h
    have hlevel : level = bit.toNat := by
      match level, hbit with
      | 0, hbit | 1, hbit => cases hbit; rfl
    rw [map_cons, ← hlevel, ← ih hrest]

/-- A row that reads as a bit path is the row stored for it. -/
theorem eq_bitPathToPrefix {levels : Levels}
    (h : shardBitPathFromPrefix levels = some bits) : levels = bitPathToPrefix bits := by
  rcases levels with _ | ⟨head, rest⟩
  · cases h
  rw [shardBitPathFromPrefix] at h
  split_ifs at h with hhead
  rw [bitPathToPrefix, eq_of_levelBit h, not_not.1 hhead]

variable {rows : List Levels}

theorem bitRows_iff : BitRows rows ↔ ∃ paths : List (List Bool), rows = paths.map bitPathToPrefix := by
  constructor
  · intro h
    refine ⟨rows.map fun r => (shardBitPathFromPrefix r).getD [], ?_⟩
    rw [map_map]
    refine ((map_congr_left fun r hr => ?_).trans (map_id rows)).symm
    obtain ⟨bits, hbits⟩ := Option.isSome_iff_exists.1 (h r hr)
    rw [comp_apply, hbits, Option.getD_some, ← eq_bitPathToPrefix hbits]
    rfl
  · rintro ⟨paths, rfl⟩ r hr
    obtain ⟨p, -, rfl⟩ := mem_map.1 hr
    simp

variable {paths : List (List Bool)}

@[simp] theorem shardBitPaths_bitPaths (hne : paths ≠ []) : shardBitPaths (paths.map bitPathToPrefix) = paths := by
  have hcond : paths.map bitPathToPrefix ≠ [] ∧
      ∀ r ∈ paths.map bitPathToPrefix, (shardBitPathFromPrefix r).isSome = true :=
    ⟨by simpa using hne, bitRows_iff.2 ⟨paths, rfl⟩⟩
  rw [shardBitPaths, if_pos hcond, map_map]
  refine (map_congr_left fun p _ => ?_).trans (map_id paths)
  simp

section
variable (h : BitRows rows) (hne : rows ≠ [])
include h hne

/-- Bit-path rows are the names of the paths read from them. -/
theorem BitRows.rows_eq : rows = (shardBitPaths rows).map bitPathToPrefix := by
  obtain ⟨paths, rfl⟩ := bitRows_iff.1 h
  rw [shardBitPaths_bitPaths (by simpa using hne)]

theorem BitRows.mem_iff {p : List Bool} : bitPathToPrefix p ∈ rows ↔ p ∈ shardBitPaths rows := by
  obtain ⟨paths, rfl⟩ := bitRows_iff.1 h
  rw [shardBitPaths_bitPaths (by simpa using hne), mem_map_of_injective bitPathToPrefix_injective]

end

/-- Rows of one encoding, read as a partition. -/
structure Kept (rows : List Levels) : Prop where
  encoding : OneEncoding rows
  partition : Partition (shardBitPaths rows)

theorem Kept.ne_nil (h : Kept rows) : rows ≠ [] := by
  rintro rfl
  exact h.partition.ne_nil rfl

theorem kept_bitPaths (h : Partition paths) : Kept (paths.map bitPathToPrefix) :=
  ⟨.inl (bitRows_iff.2 ⟨paths, rfl⟩), by rwa [shardBitPaths_bitPaths h.ne_nil]⟩

/-- Migrating stores the registered paths. -/
theorem migrate_of_kept (h : Kept rows) :
    migrateAppShardsToSentinel rows = (shardBitPaths rows).map bitPathToPrefix := by
  rcases h.encoding with hbits | hnone
  · obtain ⟨paths, rfl⟩ := bitRows_iff.1 hbits
    have hne : paths ≠ [] := by simpa using h.ne_nil
    have hpart : Partition paths := by simpa [hne] using h.partition
    rw [shardBitPaths_bitPaths hne]
    exact migrate_of_migrated ⟨paths, hpart, rfl⟩
  have hlegacy : shardBitPaths rows = canonicalShardBitPaths rows := by
    rw [shardBitPaths, if_neg]
    rintro ⟨hne, hall⟩
    obtain ⟨r, hr⟩ := exists_mem_of_ne_nil _ hne
    have hsome := hall r hr
    rw [hnone r hr] at hsome
    cases hsome
  have hpart := h.partition
  rw [hlegacy] at hpart ⊢
  exact migrate_of_none hnone h.ne_nil hpart

/-! ### What a change in bit-path form names -/

/-- The application, the parent's path and the children's paths of a change in bit-path form. -/
def readChange (change : PendingShardChange) : Option (Bytes × List Bool × List (List Bool)) := do
  let (app, parent) ← decodeShardFilterOrRoot change.parent 32
  let children ← change.children.mapM fun child => (decodeShardBitPath child 32).map Prod.snd
  some (app, parent, children)

variable {app : Bytes}

theorem decodeShardFilterOrRoot_app {filter : Bytes} (h : decodeShardFilterOrRoot filter 32 = some (app, bits)) :
    app = filter.take 32 ∧ 32 ≤ filter.length := by
  rw [decodeShardFilterOrRoot] at h
  split_ifs at h with hroot hone
  · cases h
    exact ⟨by rw [← hroot, take_length], hroot.ge⟩
  · cases h
    exact ⟨rfl, hone.1.le⟩
  rw [decodeShardBitPath] at h
  split_ifs at h with hshort
  dsimp only at h
  split_ifs at h
  cases h
  exact ⟨rfl, by omega⟩

/-- A child in bit-path form is of its parent's application and below it. -/
theorem bitPathChild_ok {op : String} {parent child : Bytes} {c : Bytes × List Bool}
    (hparent : decodeShardFilterOrRoot parent 32 = some (app, bits)) (h : bitPathChild op parent child = .ok c) :
    decodeShardBitPath child 32 = some c ∧ c.1 = app ∧ bits <+: c.2 := by
  rw [bitPathChild] at h
  split_ifs at h with hext
  split at h
  · cases h
  next c' hdecode =>
    obtain rfl := ok.inj h
    refine ⟨hdecode, ?_⟩
    -- a filter that decodes is too long for a root or a genesis shard
    have hlong : 34 ≤ child.length := by
      by_contra hshort
      rw [decodeShardBitPath, if_pos (by omega)] at hdecode
      cases hdecode
    have hroot : decodeShardFilterOrRoot child 32 = some c' := by
      rw [decodeShardFilterOrRoot, if_neg (by omega), if_neg (by omega), hdecode]
    rw [shardFilterExtends, hroot, hparent] at hext
    simp only [Bool.not_eq_false, decide_eq_true_eq, Bool.decide_and, Bool.and_eq_true] at hext
    exact ⟨hext.1, bitPathStartsWith_iff.1 (by simpa using hext.2)⟩

theorem named_children {α : Type} {cs : List (Bytes × List Bool)} (f : List Bool → α) (h : ∀ c ∈ cs, c.1 = app) :
    cs.map (fun c => (c.1, f c.2)) = (cs.map Prod.snd).map fun bits => (app, f bits) := by
  rw [map_map]
  refine map_congr_left fun c hc => ?_
  rw [comp_apply, h c hc]

theorem bitPathChildren_ok {op : String} {parent : Bytes}
    (hparent : decodeShardFilterOrRoot parent 32 = some (app, bits)) {children : List Bytes}
    {cs : List (Bytes × List Bool)} (h : children.mapM (bitPathChild op parent) = .ok cs) :
    (children.mapM fun child => (decodeShardBitPath child 32).map Prod.snd) = some (cs.map Prod.snd) ∧
      cs.length = children.length ∧ ∀ c ∈ cs, c.1 = app ∧ bits <+: c.2 := by
  induction children generalizing cs with
  | nil =>
    cases h
    exact ⟨rfl, rfl, by simp⟩
  | cons child children ih =>
    rw [mapM_cons] at h
    obtain ⟨c, hc, h⟩ := bind_ok h
    obtain ⟨rest, hrest, h⟩ := bind_ok h
    cases h
    obtain ⟨hmap, hlen, hall⟩ := ih hrest
    obtain ⟨hdecode, hc⟩ := bitPathChild_ok hparent hc
    refine ⟨?_, by simp [hlen], forall_mem_cons.2 ⟨hc, hall⟩⟩
    rw [mapM_cons, hdecode, hmap]
    rfl

variable {change : PendingShardChange}

/-- What materializing a split in bit-path form gives. -/
theorem materializeShardSplit_ok {output : ShardSplitOutput}
    (h : materializeShardSplit change.parent change.children true = .ok output) :
    ∃ app parent children, readChange change = some (app, parent, children) ∧
      app = change.parent.take 32 ∧ 32 ≤ change.parent.length ∧ 2 ≤ children.length ∧ (∀ c ∈ children, parent <+: c) ∧
      output.newShards = (children ++ splitSpineSiblings parent (longestCommonBitPrefix children)).map
        (fun bits => (app, bitPathToPrefix bits)) ∧ output.removedParent = some (app, bitPathToPrefix parent) := by
  rw [materializeShardSplit] at h
  split_ifs at h with hlen htwo hmode
  swap
  · exact absurd rfl hmode
  obtain ⟨cs, hcs, h⟩ := bind_ok h
  split at h
  · cases h
  next app parent hparent =>
    obtain rfl := ok.inj h
    obtain ⟨hread, hcslen, hall⟩ := bitPathChildren_ok hparent hcs
    obtain ⟨happ, hlong⟩ := decodeShardFilterOrRoot_app hparent
    refine ⟨app, parent, cs.map Prod.snd, ?_, happ, hlong, by simp; omega, ?_, ?_, rfl⟩
    · rw [readChange, hparent, Option.bind_eq_bind, Option.bind_some, hread]
      rfl
    · intro bits hbits
      obtain ⟨c, hc, rfl⟩ := mem_map.1 hbits
      exact (hall c hc).2
    · rw [map_append, ← named_children bitPathToPrefix fun c hc => (hall c hc).1]

/-- What materializing a merge in bit-path form gives. -/
theorem materializeShardMerge_ok {output : ShardMergeOutput}
    (h : materializeShardMerge change.children change.parent true = .ok output) :
    ∃ app parent children, readChange change = some (app, parent, children) ∧ 2 ≤ children.length ∧
      output.removedShards = children.map (fun bits => (app, bitPathToPrefix bits)) ∧
      output.addedParent = some (app, bitPathToPrefix parent) := by
  rw [materializeShardMerge] at h
  split_ifs at h with hlen htwo hmode
  swap
  · exact absurd rfl hmode
  obtain ⟨cs, hcs, h⟩ := bind_ok h
  split at h
  · cases h
  next app parent hparent =>
    obtain rfl := ok.inj h
    obtain ⟨hread, hcslen, hall⟩ := bitPathChildren_ok hparent hcs
    refine ⟨app, parent, cs.map Prod.snd, ?_, by simp; omega, ?_, rfl⟩
    · rw [readChange, hparent, Option.bind_eq_bind, Option.bind_some, hread]
      rfl
    · exact named_children bitPathToPrefix fun c hc => (hall c hc).1

/-! ### Branch points -/

theorem commonPrefix_prefix (p q : List Bool) : commonPrefix p q <+: p ∧ commonPrefix p q <+: q := by
  fun_induction commonPrefix p q with
  | case1 p a q ih => exact ⟨(prefix_cons_inj _).2 ih.1, (prefix_cons_inj _).2 ih.2⟩
  | case2 | case3 => exact ⟨ nil_prefix, nil_prefix⟩

theorem prefix_commonPrefix {p q r : List Bool} (hp : r <+: p) (hq : r <+: q) : r <+: commonPrefix p q := by
  induction r generalizing p q with
  | nil => exact nil_prefix
  | cons a r ih =>
    obtain ⟨s, rfl⟩ := hp
    obtain ⟨t, rfl⟩ := hq
    simp only [cons_append, commonPrefix, if_true]
    exact (prefix_cons_inj a).2 (ih (prefix_append r s) (prefix_append r t))

/-- The branch point begins every path, and everything that does begins it. -/
theorem longestCommonBitPrefix_spec (hne : paths ≠ []) : (∀ p ∈ paths, longestCommonBitPrefix paths <+: p) ∧
      ∀ r, (∀ p ∈ paths, r <+: p) → r <+: longestCommonBitPrefix paths := by
  obtain ⟨first, rest, rfl⟩ := exists_cons_of_ne_nil hne
  rw [longestCommonBitPrefix]
  clear hne
  induction rest generalizing first with
  | nil => exact ⟨by simp, fun r hr => hr first mem_cons_self⟩
  | cons next rest ih =>
    obtain ⟨hbelow, habove⟩ := ih (commonPrefix first next)
    have hfirst := hbelow _ mem_cons_self
    have hcommon := commonPrefix_prefix first next
    refine ⟨?_, fun r hr => habove r ?_⟩
    · refine forall_mem_cons.2 ⟨hfirst.trans hcommon.1, forall_mem_cons.2 ⟨hfirst.trans hcommon.2, ?_⟩⟩
      exact fun p hp => hbelow p (mem_cons_of_mem _ hp)
    have hr' := forall_mem_cons.1 hr
    have hr'' := forall_mem_cons.1 hr'.2
    exact forall_mem_cons.2 ⟨prefix_commonPrefix hr'.1 hr''.1, hr''.2⟩

/-- The children are exactly what lies below the parent. -/
def MakesUp (parent : List Bool) (children : List (List Bool)) : Prop :=
  ∃ code, Partition code ∧ children.Perm (code.map (parent ++ ·))

/-- The children are exactly what lies below some branch under the parent. -/
def Branches (parent : List Bool) (children : List (List Bool)) : Prop :=
  ∃ branch, parent <+: branch ∧ MakesUp branch children

variable {children : List (List Bool)}

/-- All children of a branch have it as their branch point. -/
theorem longestCommonBitPrefix_of_makesUp {branch : List Bool} (h : MakesUp branch children)
    (htwo : 2 ≤ children.length) : longestCommonBitPrefix children = branch := by
  obtain ⟨code, hcode, hperm⟩ := h
  have hmem : ∀ c ∈ code, branch ++ c ∈ children := fun c hc => hperm.mem_iff.2 (mem_map_of_mem hc)
  have hlen : 2 ≤ code.length := by rwa [hperm.length_eq, length_map] at htwo
  have hne : children ≠ [] := by
    rintro rfl
    simp at htwo
  obtain ⟨hbelow, habove⟩ := longestCommonBitPrefix_spec hne
  obtain ⟨t, ht⟩ : branch <+: longestCommonBitPrefix children := by
    refine habove branch fun p hp => ?_
    obtain ⟨c, -, rfl⟩ := mem_map.1 (hperm.mem_iff.1 hp)
    exact prefix_append branch c
  -- what is common past the branch is common to a member for each bit, so nothing is
  have ht' : ∀ c ∈ code, t <+: c := by
    intro c hc
    have := hbelow _ (hmem c hc)
    rw [← ht] at this
    exact (prefix_append_right_inj branch).1 this
  rcases t with _ | ⟨b, t⟩
  · rw [← ht, append_nil]
  obtain ⟨p, hp⟩ := exists_mem_of_ne_nil _ hcode.ne_nil
  have hpne : [] ≠ p := fun he => hcode.nil_notMem hlen (he ▸ hp)
  obtain ⟨r, hr, s, rfl⟩ := hcode.exists_below hp nil_prefix hpne (!b)
  obtain ⟨u, hu⟩ := ht' _ hr
  simp at hu

variable {parent : List Bool}

/-- With the spine, the children of a branch make up the parent. -/
theorem makesUp_with_spine (h : Branches parent children) (htwo : 2 ≤ children.length) :
    MakesUp parent (children ++ splitSpineSiblings parent (longestCommonBitPrefix children)) := by
  obtain ⟨branch, ⟨t, rfl⟩, hmakes⟩ := h
  rw [longestCommonBitPrefix_of_makesUp hmakes htwo, splitSpineSiblings_eq]
  obtain ⟨code, hcode, hperm⟩ := hmakes
  refine ⟨_, (partition_coPath t).refine hcode, ?_⟩
  rw [map_append, map_map]
  refine (hperm.append_right _).trans (List.Perm.of_eq ?_)
  congr 1
  exact map_congr_left fun c _ => append_assoc parent t c

/-! ### One split -/

@[simp] theorem canonBits_bitPath (bits : List Bool) : canonBits (bitPathToPrefix bits) = bits := by
  simp [canonBits]

theorem foldl_putAppShard {new : List Levels} (h : (rows ++ new).Nodup) :
    new.foldl putAppShard rows = rows ++ new := by
  induction new generalizing rows with
  | nil => simp
  | cons r new ih =>
    have hr : r ∉ rows := fun hmem => (nodup_append.1 h).2.2 r hmem r mem_cons_self rfl
    rw [foldl_cons, putAppShard, if_neg hr, ih (by simpa using h)]
    simp

/-- The rows after a split: all stored as bit paths, the new shards put, the parent deleted. -/
def splitRows (rows : List Levels) (parent : List Bool) (new : List (List Bool)) : List Levels :=
  deleteAppShard ((new.map bitPathToPrefix).foldl putAppShard (migrateAppShardsToSentinel rows))
    (bitPathToPrefix parent)

/-- A registered parent gives way to shards that make it up. -/
theorem splitRows_eq (h : Kept rows) (hp : parent ∈ shardBitPaths rows) {new : List (List Bool)}
    (hnew : MakesUp parent new) (htwo : 2 ≤ new.length) :
    splitRows rows parent new = ((shardBitPaths rows).erase parent ++ new).map bitPathToPrefix ∧
      Partition ((shardBitPaths rows).erase parent ++ new) ∧ parent ∉ new := by
  obtain ⟨code, hcode, hperm⟩ := hnew
  have hpaths := perm_cons_erase hp
  have hpart : Partition ((shardBitPaths rows).erase parent ++ new) := by
    refine ((h.partition.perm hpaths).refine hcode).perm ?_
    exact (hperm.symm.append_right _).trans perm_append_comm
  have hnot : parent ∉ new := by
    intro hmem
    obtain ⟨c, hc, he⟩ := mem_map.1 (hperm.mem_iff.1 hmem)
    rw [append_right_eq_self] at he
    rw [hperm.length_eq, length_map] at htwo
    exact hcode.nil_notMem htwo (he ▸ hc)
  have hnodup : (shardBitPaths rows ++ new).Nodup := by
    refine (hpaths.append_right new).nodup_iff.2 (nodup_cons.2 ⟨?_, hpart.nodup⟩)
    exact fun hmem => (mem_append.1 hmem).elim h.partition.nodup.not_mem_erase hnot
  refine ⟨?_, hpart, hnot⟩
  rw [splitRows, migrate_of_kept h, foldl_putAppShard (by
    rw [← map_append]; exact hnodup.map bitPathToPrefix_injective), deleteAppShard,
    erase_append_left _ (mem_map_of_mem hp), map_append,
    map_erase bitPathToPrefix_injective]

section Registering

variable (app : Bytes)

/-- Registering new shards of an application puts their rows and adds them to the live shards. -/
theorem foldl_register (new : List (List Bool)) (st : Flip) :
    let st' := (new.map fun bits => (app, bitPathToPrefix bits)).foldl (fun st shard =>
      (st.putShard shard.1 shard.2).liveInsert shard.1 shard.2) st
    st'.shards.rows = update st.shards.rows app
        ((new.map bitPathToPrefix).foldl putAppShard (st.shards.rows app)) ∧
      st'.live = update st.live app (new.reverse ++ st.live app) := by
  induction new generalizing st with
  | nil => simp
  | cons bits new ih =>
    obtain ⟨hrows, hlive⟩ := ih ((st.putShard app (bitPathToPrefix bits)).liveInsert app (bitPathToPrefix bits))
    simp only [map_cons, foldl_cons]
    refine ⟨hrows.trans ?_, hlive.trans ?_⟩
    · simp [Flip.putShard, Flip.liveInsert]
    · simp [Flip.putShard, Flip.liveInsert]

/-- Deleting shards of an application deletes their rows. -/
theorem foldl_unregister (old : List (List Bool)) (st : Flip) :
    let st' := (old.map fun bits => (app, bitPathToPrefix bits)).foldl (fun st shard =>
      st.deleteShard shard.1 shard.2) st
    st'.shards.rows = update st.shards.rows app
        ((old.map bitPathToPrefix).foldl deleteAppShard (st.shards.rows app)) ∧
      st'.live = st.live := by
  induction old generalizing st with
  | nil => simp
  | cons bits old ih =>
    obtain ⟨hrows, hlive⟩ := ih (st.deleteShard app (bitPathToPrefix bits))
    simp only [map_cons, foldl_cons]
    refine ⟨hrows.trans ?_, hlive⟩
    simp [Flip.deleteShard]

end Registering

variable {net : Net} {env : Env} {st st' : Flip}

/-- What applying a split in bit-path form does. -/
theorem applySplit_ok (hmode : change.bitPathMode net = true) (h : applySplit net env change st = .ok st') :
    ∃ app parent children, readChange change = some (app, parent, children) ∧ 2 ≤ children.length ∧
      (parent ∉ st.live app ∧ st' = st ∨
        let new := children ++ splitSpineSiblings parent (longestCommonBitPrefix children)
        parent ∈ st.live app ∧
          st'.shards.rows = update st.shards.rows app (splitRows (st.shards.rows app) parent new) ∧
          st'.live = update st.live app ((new.reverse ++ st.live app).filter (· ≠ parent))) := by
  rw [applySplit, hmode] at h
  obtain ⟨output, houtput, h⟩ := bind_ok h
  obtain ⟨app, parent, children, hread, rfl, hlong, htwo, -, hnew, hremoved⟩ :=
    materializeShardSplit_ok houtput
  refine ⟨_, parent, children, hread, htwo, ?_⟩
  simp only [hremoved, canonBits_bitPath, hnew, hlong, if_true, and_self] at h
  by_cases hlive : parent ∈ st.live (change.parent.take 32)
  · refine Or.inr ⟨hlive, ?_⟩
    simp only [hlive, decide_true, Bool.true_eq_false, if_false, bind_eq_ok] at h
    obtain ⟨-, -, h⟩ := h
    obtain ⟨hrows, hlives⟩ := foldl_register (change.parent.take 32)
      (children ++ splitSpineSiblings parent (longestCommonBitPrefix children))
      (st.migrate (change.parent.take 32))
    obtain rfl := ok.inj h
    simp only [Flip.deleteShard, Flip.liveRemove]
    rw [hrows, hlives]
    simp [Flip.migrate, splitRows]
  refine Or.inl ⟨hlive, ?_⟩
  simp only [hlive, decide_false, if_true] at h
  exact (ok.inj h).symm

/-- What applying a merge in bit-path form does. -/
theorem applyMerge_ok (hmode : change.bitPathMode net = true) (h : applyMerge net change st = .ok st') :
    ∃ app parent children, readChange change = some (app, parent, children) ∧ 2 ≤ children.length ∧
      st'.shards.rows = update st.shards.rows app
        (putAppShard ((children.map bitPathToPrefix).foldl deleteAppShard (st.shards.rows app))
          (bitPathToPrefix parent)) ∧ st'.live = st.live := by
  rw [applyMerge, hmode] at h
  obtain ⟨output, houtput, h⟩ := bind_ok h
  obtain ⟨app, parent, children, hread, htwo, hremoved, hadded⟩ := materializeShardMerge_ok houtput
  obtain ⟨hrows, hlive⟩ := foldl_unregister app children st
  refine ⟨app, parent, children, hread, htwo, ?_⟩
  simp only [hremoved, hadded] at h
  obtain rfl := ok.inj h
  refine ⟨?_, hlive⟩
  simp only [Flip.putShard]
  rw [hrows]
  simp

/-! ### One merge -/

/-- Registered children that make up the parent give way to it. -/
theorem mergeRows_eq (h : Partition paths) (hreg : ∀ c ∈ children, c ∈ paths) (hmakes : MakesUp parent children) :
    putAppShard ((children.map bitPathToPrefix).foldl deleteAppShard (paths.map bitPathToPrefix))
        (bitPathToPrefix parent) = (paths.diff children ++ [parent]).map bitPathToPrefix ∧
      Partition (paths.diff children ++ [parent]) := by
  obtain ⟨code, hcode, hperm⟩ := hmakes
  have hnodup : children.Nodup :=
    hperm.nodup_iff.2 (hcode.nodup.map (append_right_injective parent))
  have hsplit : (children ++ paths.diff children).Perm paths := by
    refine subperm_append_diff_self_of_count_le fun c hc => ?_
    rw [count_eq_one_of_mem hnodup hc, count_eq_one_of_mem h.nodup (hreg c hc)]
  have hpart : Partition (parent :: paths.diff children) := by
    refine Partition.coarsen (h.perm ?_) hcode
    exact hsplit.symm.trans (hperm.append_right _)
  have hdelete : (children.map bitPathToPrefix).foldl deleteAppShard (paths.map bitPathToPrefix) =
      (paths.diff children).map bitPathToPrefix := by
    rw [map_diff bitPathToPrefix_injective, diff_eq_foldl]
    rfl
  refine ⟨?_, hpart.perm (perm_append_singleton _ _).symm⟩
  rw [hdelete, putAppShard, if_neg, map_append, map_singleton]
  rw [mem_map_of_injective bitPathToPrefix_injective]
  exact (nodup_cons.1 hpart.nodup).1

/-- A stale merge changes nothing. -/
theorem mergeRows_stale {rows : List Levels} (hparent : bitPathToPrefix parent ∈ rows)
    (hgone : ∀ c ∈ children, bitPathToPrefix c ∉ rows) :
    putAppShard ((children.map bitPathToPrefix).foldl deleteAppShard rows) (bitPathToPrefix parent) = rows := by
  induction children with
  | nil => exact if_pos hparent
  | cons c children ih =>
    obtain ⟨hc, hgone⟩ := forall_mem_cons.1 hgone
    rw [map_cons, foldl_cons, deleteAppShard, erase_of_not_mem hc]
    exact ih hgone

/-! ### The loop over a frame's changes -/

/-- A merge of an application stands among the changes. -/
def MergesIn (changes : List PendingShardChange) (app : Bytes) : Prop :=
  ∃ d ∈ changes, d.kind = .merge ∧ ∃ parent children, readChange d = some (app, parent, children)

/-- When a merge fits these rows: its children are there and make up its parent, or it is stale, with its parent
    there and none of its children. -/
def MergeFits (rows : List Levels) (parent : List Bool) (children : List (List Bool)) : Prop :=
  (BitRows rows ∧ MakesUp parent children ∧ ∀ c ∈ children, c ∈ shardBitPaths rows) ∨
    bitPathToPrefix parent ∈ rows ∧ ∀ c ∈ children, bitPathToPrefix c ∉ rows

/-- When a change fits: it is in bit-path form, and what it names is there. `start` are the rows before
    the frame's first change, `done` the changes applied before this one. -/
def Fits (net : Net) (start : Bytes → List Levels) (done : List PendingShardChange) (st : Flip)
    (change : PendingShardChange) : Prop :=
  change.bitPathMode net = true ∧
    ∀ app parent children, readChange change = some (app, parent, children) →
      match change.kind with
      | .split => parent ∈ st.live app → Branches parent children ∧
          (¬ BitRows (start app) ∨ MergesIn done app → parent ∈ shardBitPaths (st.shards.rows app))
      | .merge => MergeFits (st.shards.rows app) parent children

/-- Every change of the loop fits when its turn comes. -/
def FitsAll (net : Net) (env : Env) (start : Bytes → List Levels) :
    List PendingShardChange → Flip → List PendingShardChange → Prop
  | _, _, [] => True
  | done, st, change :: due => Fits net start done st change ∧
      ∀ st', applyChange net env change st = .ok st' → FitsAll net env start (done ++ [change]) st' due

/-- The live shards are the registered ones. -/
def Tracks (st : Flip) (app : Bytes) : Prop :=
  BitRows (st.shards.rows app) ∧ ∀ p, p ∈ st.live app ↔ bitPathToPrefix p ∈ st.shards.rows app

/-- What the loop keeps: every application's rows, and the live shards of those no merge has changed. -/
structure LoopInv (start : Bytes → List Levels) (done : List PendingShardChange) (st : Flip) : Prop where
  kept : ∀ app, start app ≠ [] → Kept (st.shards.rows app)
  empty : ∀ app, start app = [] → st.shards.rows app = []
  tracks : ∀ app, BitRows (start app) → ¬ MergesIn done app → Tracks st app

variable {done : List PendingShardChange}

theorem mergesIn_concat (h : ¬ MergesIn (done ++ [change]) app) : ¬ MergesIn done app := fun ⟨d, hd, hmerge⟩ =>
  h ⟨d, mem_append_left _ hd, hmerge⟩

variable {start : Bytes → List Levels}

section
variable (h : LoopInv start done st)
include h

/-- Rows that are not of the changed application stay, and so does what is known of them. -/
theorem LoopInv.of_changed {done' : List PendingShardChange} (hdone : ∀ app, MergesIn done app → MergesIn done' app)
    (app : Bytes) (hrows : ∀ app', app' ≠ app → st'.shards.rows app' = st.shards.rows app')
    (hlive : ∀ app', app' ≠ app → st'.live app' = st.live app') (hkept : Kept (st'.shards.rows app))
    (hstart : start app ≠ []) (htracks : BitRows (start app) → ¬ MergesIn done' app → Tracks st' app) :
    LoopInv start done' st' := by
  refine ⟨fun app' hne => ?_, fun app' hempty => ?_, fun app' hbits hmerge => ?_⟩
  · rcases eq_or_ne app' app with rfl | happ
    · exact hkept
    · rw [hrows app' happ]
      exact h.kept app' hne
  · have happ : app' ≠ app := fun he => hstart (he ▸ hempty)
    rw [hrows app' happ]
    exact h.empty app' hempty
  rcases eq_or_ne app' app with rfl | happ
  · exact htracks hbits hmerge
  · rw [Tracks, hrows app' happ, hlive app' happ]
    exact h.tracks app' hbits fun hd => hmerge (hdone app' hd)

/-- A fitting split. -/
theorem LoopInv.applySplit (hkind : change.kind = .split) (hfit : Fits net start done st change)
    (happly : applySplit net env change st = .ok st') : LoopInv start (done ++ [change]) st' := by
  have hdone : ∀ app, MergesIn done app → MergesIn (done ++ [change]) app := fun app ⟨d, hd, hmerge⟩ =>
    ⟨d, mem_append_left _ hd, hmerge⟩
  obtain ⟨hmode, hfit⟩ := hfit
  obtain ⟨app, parent, children, hread, htwo, ⟨-, rfl⟩ | ⟨hlive, hrows, hlives⟩⟩ := applySplit_ok hmode happly
  · -- a stale split changes nothing
    exact ⟨h.kept, h.empty, fun app hbits hmerge => h.tracks app hbits (mergesIn_concat hmerge)⟩
  have hfit := hfit app parent children hread
  rw [hkind] at hfit
  obtain ⟨hbranch, hfind⟩ := hfit hlive
  have hnew := makesUp_with_spine hbranch htwo
  set new := children ++ splitSpineSiblings parent (longestCommonBitPrefix children) with hnewdef
  have htwo' : 2 ≤ new.length := by
    rw [hnewdef, length_append]
    omega
  -- the parent is registered: tracked, or by the condition
  have hreg : parent ∈ shardBitPaths (st.shards.rows app) := by
    by_cases hcond : ¬ BitRows (start app) ∨ MergesIn done app
    · exact hfind hcond
    rw [not_or, not_not] at hcond
    obtain ⟨hbits, htrack⟩ := h.tracks app hcond.1 hcond.2
    have hmem := (htrack parent).1 hlive
    exact (hbits.mem_iff (ne_nil_of_mem hmem)).1 hmem
  have hstart : start app ≠ [] := by
    intro he
    rw [h.empty app he] at hreg
    cases hreg
  obtain ⟨heq, hpart, hnot⟩ := splitRows_eq (h.kept app hstart) hreg hnew htwo'
  have hrows' : st'.shards.rows app =
      ((shardBitPaths (st.shards.rows app)).erase parent ++ new).map bitPathToPrefix := by
    rw [hrows, update_self, heq]
  refine h.of_changed hdone app (fun app' hne => ?_) (fun app' hne => ?_) ?_ hstart fun hbits hmerge => ?_
  · rw [hrows, update_of_ne hne]
  · rw [hlives, update_of_ne hne]
  · rw [hrows']
    exact kept_bitPaths hpart
  obtain ⟨hbits, htrack⟩ := h.tracks app hbits (mergesIn_concat hmerge)
  refine ⟨?_, fun p => ?_⟩
  · rw [hrows']
    exact bitRows_iff.2 ⟨_, rfl⟩
  have hkept := h.kept app hstart
  rw [hrows', hlives, update_self, mem_map_of_injective bitPathToPrefix_injective, mem_filter, mem_append,
    mem_append, mem_reverse, htrack p, hkept.partition.nodup.mem_erase_iff, hbits.mem_iff hkept.ne_nil]
  constructor
  · rintro ⟨hmem | hmem, hpne⟩
    · exact .inr hmem
    · exact .inl ⟨by simpa using hpne, hmem⟩
  · rintro (⟨hpne, hmem⟩ | hmem)
    · exact ⟨.inr hmem, by simpa using hpne⟩
    · have hpne : p ≠ parent := fun he => hnot (he ▸ hmem)
      exact ⟨.inl hmem, by simpa using hpne⟩

/-- A fitting merge. -/
theorem LoopInv.applyMerge (hkind : change.kind = .merge) (hfit : Fits net start done st change)
    (happly : applyMerge net change st = .ok st') : LoopInv start (done ++ [change]) st' := by
  obtain ⟨hmode, hfit⟩ := hfit
  obtain ⟨app, parent, children, hread, htwo, hrows, hlive⟩ := applyMerge_ok hmode happly
  have hfit := hfit app parent children hread
  rw [hkind] at hfit
  have hstart : start app ≠ [] := by
    intro he
    rcases hfit with ⟨-, -, hreg⟩ | ⟨hparent, -⟩
    · obtain ⟨c, hc⟩ := exists_mem_of_length_pos (by omega : 0 < children.length)
      have := hreg c hc
      rw [h.empty app he] at this
      cases this
    · rw [h.empty app he] at hparent
      cases hparent
  have hkept := h.kept app hstart
  refine h.of_changed (fun app ⟨d, hd, hmerge⟩ => ⟨d, mem_append_left _ hd, hmerge⟩) app
    (fun app' hne => ?_) (fun app' _ => by rw [hlive]) ?_ hstart fun _ hmerge => ?_
  · rw [hrows, update_of_ne hne]
  · rw [hrows, update_self]
    rcases hfit with ⟨hbits, hmakes, hreg⟩ | ⟨hparent, hgone⟩
    · obtain ⟨heq, hpart'⟩ := mergeRows_eq hkept.partition hreg hmakes
      rw [hbits.rows_eq hkept.ne_nil, heq]
      exact kept_bitPaths hpart'
    · rwa [mergeRows_stale hparent hgone]
  · exact absurd ⟨change, by simp, hkind, parent, children, hread⟩ hmerge

/-- One change, and its pending record gone. -/
theorem LoopInv.applyChange (hfit : Fits net start done st change)
    (happly : applyChange net env change st = .ok st') : LoopInv start (done ++ [change]) st' := by
  rw [GridChanges.applyChange] at happly
  obtain ⟨mid, hmid, happly⟩ := bind_ok happly
  obtain rfl := ok.inj happly
  rw [applyKind] at hmid
  have hinv : LoopInv start (done ++ [change]) mid := by
    cases hkind : change.kind with
    | split =>
      rw [hkind] at hmid
      exact h.applySplit hkind hfit hmid
    | merge =>
      rw [hkind] at hmid
      exact h.applyMerge hkind hfit hmid
  exact ⟨hinv.kept, hinv.empty, hinv.tracks⟩

/-- A whole loop of fitting changes. -/
theorem LoopInv.applyAll {due : List PendingShardChange} (hfit : FitsAll net env start done st due)
    (happly : due.foldlM (fun st change => GridChanges.applyChange net env change st) st = .ok st') :
    LoopInv start (done ++ due) st' := by
  induction due generalizing done st with
  | nil =>
    obtain rfl := ok.inj happly
    rwa [append_nil]
  | cons change due ih =>
    rw [foldlM_cons] at happly
    obtain ⟨mid, hmid, happly⟩ := bind_ok happly
    obtain ⟨hchange, hrest⟩ := hfit
    have hnext := ih (h.applyChange hchange hmid) (hrest mid hmid) happly
    rwa [append_assoc, singleton_append] at hnext

end

/-! ### Runs -/

/-- The calls that touch the grid. A frame may first restore pending changes that the local store lacks
    from the committed requests. -/
inductive Act where
  | split (env : Env) (frame : ℕ) (op : ShardOp)
  | merge (env : Env) (frame : ℕ) (op : ShardOp)
  | frame (env : Env) (number : ℕ) (restored : List PendingShardChange)

def call (net : Net) (s : Shards) : Act → Except QuilError Shards
  | .split env frame op => invokeShardSplit net env frame op s
  | .merge env frame op => invokeShardMerge net env frame op s
  | .frame env number restored => do
    let (s, _) ← applyDueShardChanges net env number
      { s with pending := restored.foldl putPendingShardChange s.pending }
    return s

/-- A failed call is rolled back. -/
def step (net : Net) (s : Shards) (act : Act) : Shards × Option QuilError :=
  match call net s act with
  | .ok s' => (s', none)
  | .error e => (s, some e)

/-- The changes a frame applies all fit. -/
def ActFits (net : Net) (s : Shards) : Act → Prop
  | .frame env number restored =>
    let s := { s with pending := restored.foldl putPendingShardChange s.pending }
    ∀ due dropped, gated net env number s = .ok (due, dropped) →
      FitsAll net env s.rows []
        ⟨{ s with pending := dropped.foldl deletePendingShardChange s.pending }, liveShards s, []⟩ due
  | _ => True

variable {s : Shards}

/-- A proposal changes no row. -/
theorem invokeShardOp_rows {kind : ShardChangeKind} {name : String} {verify : ShardOp → Except QuilError Bool}
    {materialize : ShardOp → Bool → Except QuilError Unit} {frame : ℕ} {op : ShardOp} {s' : Shards}
    (h : invokeShardOp net env kind name verify materialize frame op s = .ok s') : s'.rows = s.rows := by
  rw [invokeShardOp] at h
  split at h
  · cases h
  obtain ⟨-, -, h⟩ := bind_ok h
  obtain ⟨ok, -, h⟩ := bind_ok h
  split_ifs at h
  obtain ⟨-, -, h⟩ := bind_ok h
  rw [← Except.ok.inj h]

section
variable (hkept : ∀ app, s.rows app ≠ [] → Kept (s.rows app))
include hkept

/-- The live shards a frame starts with are the registered ones. -/
theorem loopInv_start (pending : List PendingShardChange) :
    LoopInv s.rows [] ⟨{ s with pending := pending }, liveShards s, []⟩ := by
  refine ⟨hkept, fun app h => h, fun app hbits _ => ⟨hbits, fun p => ?_⟩⟩
  obtain ⟨paths, hpaths⟩ := bitRows_iff.1 hbits
  have hmap : (paths.map bitPathToPrefix).map canonBits = paths := by
    rw [map_map]
    exact (map_congr_left fun p _ => canonBits_bitPath p).trans (map_id paths)
  simp only [liveShards, hpaths, hmap, mem_map_of_injective bitPathToPrefix_injective]

/-- A frame of fitting changes. -/
theorem applyDue_keeps {frame : ℕ} {s' : Shards} {flipped : List (Bytes × List Bool)}
    (hfit : ∀ due dropped, gated net env frame s = .ok (due, dropped) → FitsAll net env s.rows []
      ⟨{ s with pending := dropped.foldl deletePendingShardChange s.pending }, liveShards s, []⟩ due)
    (h : applyDueShardChanges net env frame s = .ok (s', flipped)) (app : Bytes) :
    (s'.rows app = [] ↔ s.rows app = []) ∧ (s'.rows app ≠ [] → Kept (s'.rows app)) := by
  rw [applyDueShardChanges] at h
  obtain ⟨⟨due, dropped⟩, hgated, h⟩ := bind_ok h
  obtain ⟨-, -, h⟩ := bind_ok h
  obtain ⟨st, hst, h⟩ := bind_ok h
  obtain ⟨rfl, -⟩ := Prod.mk.inj (ok.inj h)
  have hinv := (loopInv_start hkept _).applyAll (hfit due dropped hgated) hst
  have hiff : st.shards.rows app = [] ↔ s.rows app = [] :=
    ⟨fun he => by_contra fun hne => (hinv.kept app hne).ne_nil he, hinv.empty app⟩
  exact ⟨hiff, fun hne => hinv.kept app fun he => hne (hiff.2 he)⟩

/-- One call. -/
theorem step_keeps {act : Act}
    (hfit : ActFits net s act) (app : Bytes) : ((step net s act).1.rows app = [] ↔ s.rows app = []) ∧
      ((step net s act).1.rows app ≠ [] → Kept ((step net s act).1.rows app)) := by
  have hsame : ∀ {s' : Shards}, s'.rows = s.rows →
      (s'.rows app = [] ↔ s.rows app = []) ∧ (s'.rows app ≠ [] → Kept (s'.rows app)) := by
    intro s' h
    rw [h]
    exact ⟨Iff.rfl, hkept app⟩
  rw [step]
  split
  next s' hok =>
    cases act with
    | split env frame op =>
      rw [call, invokeShardSplit] at hok
      exact hsame (invokeShardOp_rows hok)
    | merge env frame op =>
      rw [call, invokeShardMerge] at hok
      exact hsame (invokeShardOp_rows hok)
    | frame env number restored =>
      obtain ⟨⟨s'', flipped⟩, happly, hok⟩ := bind_ok hok
      obtain rfl := ok.inj hok
      exact applyDue_keeps (s := { s with pending := restored.foldl putPendingShardChange s.pending })
        hkept hfit happly app
  · exact hsame rfl

end

theorem length_shardBitPaths (rows : List Levels) : (shardBitPaths rows).length = rows.length := by
  rw [shardBitPaths]
  split_ifs
  · rw [length_map]
  · rw [canonicalShardBitPaths_eq, length_map]

/-- From rows of one encoding that are complete and prefix-free for every application, after any run of
    proposals and frames whose applied changes all fit, every application has complete and prefix-free
    registered paths again, and every address exactly one shard. -/
theorem grid_stays_partitioned (net : Net) (s : Shards) (hencoding : ∀ app, OneEncoding (s.rows app))
    (hpart : ∀ app, s.rows app ≠ [] → Partition (shardBitPaths (s.rows app))) (acts : List Act)
    (hfit : RunMeets (step net) (ActFits net) s acts) (app : Bytes) :
    ((run (step net) s acts).1.rows app = [] ↔ s.rows app = []) ∧
      ((run (step net) s acts).1.rows app ≠ [] →
        Partition (shardBitPaths ((run (step net) s acts).1.rows app)) ∧
        ∀ addr, ∃! i, i < ((run (step net) s acts).1.rows app).length ∧
          addrHasBitPrefix addr ((shardBitPaths ((run (step net) s acts).1.rows app)).getD i []) = true) := by
  have hrun := run_invariant_of (step net) (C := ActFits net)
    (I := fun _ s' => ∀ app, (s'.rows app = [] ↔ s.rows app = []) ∧ (s'.rows app ≠ [] → Kept (s'.rows app)))
    (fun _ s' act hinv hact app => by
      obtain ⟨hiff, hkept⟩ := step_keeps (fun app => (hinv app).2) hact app
      exact ⟨hiff.trans (hinv app).1, hkept⟩)
    acts s [] (fun app => ⟨Iff.rfl, fun hne => ⟨hencoding app, hpart app hne⟩⟩) hfit
  obtain ⟨hiff, hkept⟩ := hrun app
  refine ⟨hiff, fun hne => ⟨(hkept hne).partition, fun addr => ?_⟩⟩
  obtain ⟨hlt, huniq⟩ := route_addressShardIndex (hkept hne).partition addr
  rw [length_shardBitPaths] at hlt huniq
  exact ⟨_, ⟨hlt, (huniq _ hlt).2 rfl⟩, fun i hi => (huniq i hi.1).1 hi.2⟩

/-! ### Sample runs -/

/-- Every check passes and there is no topology gate. -/
def allow : Env where
  prover _ := .ok ()
  verifyAddressedBls _ _ _ := .ok true
  proposerIsActiveGlobal _ := true
  gateTopologyChange := none
  reassignShardAllocations _ := .ok ()
  raisePlacementWidth _ _ := .ok ()

def sampleApp : Bytes := List.replicate 32 7

/-- One application, one root shard. -/
def rootGrid : Shards where
  rows app := if app = sampleApp then [[]] else []
  pending := []

def sampleOp (frame : ℕ) (parent : Bytes) (children : List Bytes) : ShardOp :=
  ⟨parent, children, frame, some ⟨[1], [2]⟩⟩

/-- The root is split twice over and merged back twice over: the second of each is stale when it is due. -/
def splitTwiceAndMerge : List Act :=
  let halves := [[false], [true]].map (encodeShardBitPath sampleApp)
  [.split allow 0 (sampleOp 0 sampleApp halves), .split allow 1 (sampleOp 1 sampleApp halves),
    .frame allow 2 [], .frame allow 3 [], .merge allow 3 (sampleOp 3 sampleApp halves),
    .merge allow 4 (sampleOp 4 sampleApp halves), .frame allow 5 [], .frame allow 6 []]

/-- A frame with one due change fits when the change does. -/
theorem actFits_single {number : ℕ} (change : PendingShardChange)
    (hdue : s.pending.filter (·.effectiveEpoch ≤ net.epochForFrame number) = [change])
    (hread : readChange change = some (app, parent, children)) (hmode : change.bitPathMode net = true)
    (hsplit : change.kind = .split → parent ∈ liveShards s app →
      Branches parent children ∧ parent ∈ shardBitPaths (s.rows app))
    (hmerge : change.kind = .merge → MergeFits (s.rows app) parent children) : ActFits net s (.frame allow number []) := by
  intro due dropped hgated
  obtain ⟨hdue', rfl⟩ := Prod.mk.inj (ok.inj hgated)
  obtain rfl : due = [change] := hdue'.symm.trans hdue
  refine ⟨⟨hmode, fun app' parent' children' hread' => ?_⟩, fun _ _ => trivial⟩
  obtain ⟨rfl, rfl, rfl⟩ : app = app' ∧ parent = parent' ∧ children = children' := by
    simpa using hread.symm.trans hread'
  cases hkind : change.kind with
  | split => exact fun hlive => ⟨(hsplit hkind hlive).1, fun _ => (hsplit hkind hlive).2⟩
  | merge => exact hmerge hkind

theorem makesUp_halves : MakesUp [] [[false], [true]] := ⟨_, partition_pathOf 1, List.Perm.refl _⟩

theorem grid_stays_partitioned_sample :
    RunMeets (step ⟨0, 1⟩) (ActFits ⟨0, 1⟩) rootGrid splitTwiceAndMerge ∧
      Partition (shardBitPaths ((run (step ⟨0, 1⟩) rootGrid splitTwiceAndMerge).1.rows sampleApp)) := by
  have hencoding : ∀ app, OneEncoding (rootGrid.rows app) := by
    intro app
    refine Or.inr ?_
    rw [rootGrid]
    dsimp only
    split_ifs <;> decide
  have hpart : ∀ app, rootGrid.rows app ≠ [] → Partition (shardBitPaths (rootGrid.rows app)) := by
    intro app hne
    have happ : rootGrid.rows app = [[]] := by
      rw [rootGrid] at hne ⊢
      dsimp only at hne ⊢
      split_ifs at hne ⊢
      · rfl
      · exact absurd rfl hne
    rw [happ]
    exact partition_root
  have hmeets : RunMeets (step ⟨0, 1⟩) (ActFits ⟨0, 1⟩) rootGrid splitTwiceAndMerge := by
    have hread : ∀ kind epoch frame, readChange ⟨kind, sampleApp,
        [[false], [true]].map (encodeShardBitPath sampleApp), epoch, frame⟩ =
          some (sampleApp, [], [[false], [true]]) := by
      intro kind epoch frame
      have h : readChange ⟨.split, sampleApp, [[false], [true]].map (encodeShardBitPath sampleApp),
          0, 0⟩ = some (sampleApp, [], [[false], [true]]) := by decide +kernel
      exact h
    refine ⟨trivial, trivial, ?_, ?_, trivial, trivial, ?_, ?_, trivial⟩
    · refine actFits_single ⟨.split, _, _, 2, 0⟩ (by rfl) (hread _ _ _) (by decide)
        (fun _ _ => ⟨⟨[], prefix_refl _, makesUp_halves⟩, by decide +kernel⟩) nofun
    · refine actFits_single ⟨.split, _, _, 3, 1⟩ (by rfl) (hread _ _ _) (by decide)
        (fun _ hlive => absurd hlive (by decide +kernel)) nofun
    · refine actFits_single ⟨.merge, _, _, 5, 3⟩ (by rfl) (hread _ _ _) (by decide) nofun
        fun _ => .inl ⟨by unfold BitRows; decide +kernel, makesUp_halves, by decide +kernel⟩
    · refine actFits_single ⟨.merge, _, _, 6, 4⟩ (by rfl) (hread _ _ _) (by decide) nofun
        fun _ => .inr ⟨by decide +kernel, by decide +kernel⟩
  have h := grid_stays_partitioned ⟨0, 1⟩ rootGrid hencoding hpart _ hmeets sampleApp
  exact ⟨hmeets, (h.2 (by decide +kernel)).1⟩

/-- A split proposed in byte-suffix form leaves its parent in place; a split's children may overlap; and a
    merge that takes a parent away in the frame a split of it is due leaves it live. -/
theorem grids_that_overlap :
    ¬ Partition (shardBitPaths ((run (step ⟨100, 1⟩) rootGrid
      [.split allow 0 (sampleOp 0 sampleApp [sampleApp ++ [0x00], sampleApp ++ [0x80]]),
        .frame allow 2 []]).1.rows sampleApp)) ∧
    ¬ Partition (shardBitPaths ((run (step ⟨0, 1⟩) rootGrid
      [.split allow 0 (sampleOp 0 sampleApp
          ([[false], [false, true]].map (encodeShardBitPath sampleApp))),
        .frame allow 2 []]).1.rows sampleApp)) ∧
    ¬ Partition (shardBitPaths ((run (step ⟨0, 1⟩) rootGrid
      [.split allow 0 (sampleOp 0 sampleApp ([[false], [true]].map (encodeShardBitPath sampleApp))),
        .frame allow 2 [],
        .merge allow 2 (sampleOp 2 sampleApp ([[false], [true]].map (encodeShardBitPath sampleApp))),
        .split allow 2 (sampleOp 2 (encodeShardBitPath sampleApp [false])
          ([[false, false], [false, true]].map (encodeShardBitPath sampleApp))),
        .frame allow 4 []]).1.rows sampleApp)) := by
  refine ⟨fun h => ?_, fun h => ?_, fun h => ?_⟩ <;>
    exact absurd (partition_iff.1 h).2.1 (by decide +kernel)

end Quil.GridChanges
