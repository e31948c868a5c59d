import Quilibrium.Schemes.Highest
import Quilibrium.Token.AttestationOrder
import Quilibrium.Token.ReportRun

/-! Reports of one fixed, prefix-free set of shards, in any order, from any accumulator that earlier reports left. Such
    reports never displace each other: every layer has its own record, which keeps the HIGHEST coin count it was
    offered, and what they displace or what freezes them is in the index at the start. So as long as the layers do not
    equivocate — one root for each shard, width and coin count — the outcome depends only on the set of reports. -/

namespace Quil.ReportOrder
open Schemes ShardedTree GlobalRecords GlobalAccumulator ReportRun AttestationOrder List
open CoinBlocks hiding invalid
open GlobalCommit hiding invalid MAX_DEPTH
open ShardAccumulator hiding invalid

variable {Node : Type}

/-- A certified header with a report: its frame, its shard and what it reports. -/
structure Header (Node : Type) where
  frame : ℕ
  shard : List Bool
  report : ShardReport Node

/-- The layers reported by some headers, in order. -/
def layersOf (headers : List (Header Node)) : List (Region ℕ × ℕ × Node) :=
  headers.flatMap fun h => h.report.subtrees.map (claimOf h.shard)

/-- The attestations reported by some headers, in order. -/
def attestationsOf (headers : List (Header Node)) : List BlockAttestation :=
  headers.flatMap fun h => h.report.attestations

/-- The layers neither stale nor frozen in these records. -/
def freshIn (s : Records Node) (app : Bytes32) (layers : List (Region ℕ × ℕ × Node)) :
    List (Region ℕ × ℕ × Node) :=
  layers.filter fun c => isFresh s app c.1.2 ⟨c.1.1, c.2.1, c.2.2⟩

/-- The layer a region's record holds. -/
def recorded (s : Records Node) (app : Bytes32) (r : Region ℕ) : List (Region ℕ × ℕ × Node) :=
  match s (.subtree app r.1 r.2) with
  | some (.subtree t) => [(r, t.coins, t.root)]
  | _ => []

/-- The highest layer of a region, with the one recorded at the start. -/
def standing (start : Records Node) (app : Bytes32) (layers : List (Region ℕ × ℕ × Node)) (r : Region ℕ) :
    Option (ℕ × Node) := highest (recorded start app r ++ layers) r

/-- The highest coin count of a region. -/
def coinsAt (start : Records Node) (app : Bytes32) (layers : List (Region ℕ × ℕ × Node)) (r : Region ℕ) : ℕ :=
  (standing start app layers r).elim 0 Prod.fst

/-- The widths and shards of some layers. -/
def regions (layers : List (Region ℕ × ℕ × Node)) : Finset (Region ℕ) := (layers.map Prod.fst).toFinset

/-- The index once some regions have come: they, and what they leave of the index at the start. -/
def indexAfter (start : Records Node) (app : Bytes32) (come : Finset (Region ℕ)) : Finset (Region ℕ) :=
  come ∪ (indexOf start app).toFinset.filter fun r => ∀ r' ∈ come, ¬ Overlaps r' r

/-- Whichever of the fresh layers have come, the application's index can list them, and its root record
    count their coins. -/
def Room (start : Records Node) (app : Bytes32) (layers : List (Region ℕ × ℕ × Node)) : Prop :=
  ∀ come ∈ (regions (freshIn start app layers)).powerset, (indexAfter start app come).card ≤ MAX_SUBTREES ∧
    ∑ r ∈ indexAfter start app come, coinsAt start app (freshIn start app layers) r ≤ 2 ^ DEPTH

/-- Layers that shards own whole, of shards none of which begins another, which equivocate neither with
    each other nor with the records at the start, and which one application can hold. -/
structure Fits (start : Records Node) (app : Bytes32) (layers : List (Region ℕ × ℕ × Node)) : Prop where
  owned : ∀ c ∈ layers, c.1.1 ∈ widths ∧ c.1.2.length ≤ c.1.1
  apart : ∀ c ∈ layers, ∀ c' ∈ layers, Overlaps c.1 c'.1 → c.1 = c'.1
  agree : ∀ r, Agree (recorded start app r ++ layers)
  room : Room start app layers

/-- The index is that of the layers so far, each record is the highest of its layers, and the layers
    are fresh at the start. -/
structure Holds (start : Records Node) (app ctx : Bytes32) (index : Index) (s : Records Node)
    (layers : List (Region ℕ × ℕ × Node)) : Prop where
  mem : ∀ r, r ∈ index ↔ r ∈ indexAfter start app (regions layers)
  record : ∀ r, s (.subtree app r.1 r.2) =
    (standing start app layers r).map fun v => .subtree ⟨ctx, v.1, v.2⟩
  fresh : ∀ c ∈ layers, isFresh start app c.1.2 ⟨c.1.1, c.2.1, c.2.2⟩ = true

/-! ### Recording layers -/

variable {width : ℕ} {t : SubtreeReport Node} {coins : ℕ}

section
variable {app ctx : Bytes32} {index index' : Index} {start s s' : Records Node}
  {layers all : List (Region ℕ × ℕ × Node)} {shard : List Bool} {placement : ℕ} {r : Region ℕ}

theorem mem_regions : r ∈ regions layers ↔ ∃ v, (r, v) ∈ layers := by
  rw [regions, mem_toFinset, mem_map]
  exact ⟨fun ⟨c, hc, hr⟩ => ⟨c.2, hr ▸ hc⟩, fun ⟨v, hv⟩ => ⟨_, hv, rfl⟩⟩

theorem mem_regions_concat {c : Region ℕ × ℕ × Node} : r ∈ regions (layers ++ [c]) ↔ r ∈ regions layers ∨ r = c.1 := by
  rw [regions, map_append, toFinset_append, Finset.mem_union, ← regions]
  simp

theorem regions_mono (h : layers ⊆ all) : regions layers ⊆ regions all := fun _ hr =>
  mem_regions.2 ((mem_regions.1 hr).imp fun _ hv => h hv)

theorem append_freshIn_subset (layers new : List (Region ℕ × ℕ × Node)) :
    layers ++ freshIn start app new ⊆ layers ++ new :=
  append_subset.2 ⟨subset_append_left _ _, fun _ hc => mem_append_right _ (mem_of_mem_filter hc)⟩

/-- A shard that owns a layer is short enough to pack. -/
theorem length_le_of_owned (h : r.1 ∈ widths ∧ r.2.length ≤ r.1) : r.2.length ≤ 64 := by
  have : r.1 ≤ 15 := (mem_widths.1 h.1).2
  omega

theorem mem_indexAfter {come : Finset (Region ℕ)} : r ∈ indexAfter start app come ↔
      r ∈ come ∨ r ∈ indexOf start app ∧ ∀ r' ∈ come, ¬ Overlaps r' r := by
  rw [indexAfter, Finset.mem_union, Finset.mem_filter, mem_toFinset]

theorem standing_concat_other (h : (t.width, shard) ≠ r) :
    standing start app (layers ++ [claimOf shard t]) r = standing start app layers r := by
  rw [standing, ← append_assoc]
  exact highest_concat_other h

theorem standing_concat_self : standing start app (layers ++ [claimOf shard t]) (t.width, shard) =
    match standing start app layers (t.width, shard) with
    | none => some (t.coins, t.root)
    | some v => if v.1 < t.coins then some (t.coins, t.root) else some v := by
  rw [standing, ← append_assoc]
  exact highest_concat_self (recorded start app (t.width, shard) ++ layers) (claimOf shard t)

theorem coinsAt_mono (h : layers ⊆ all) (r : Region ℕ) : coinsAt start app layers r ≤ coinsAt start app all r := by
  rw [coinsAt, coinsAt]
  cases hv : standing start app layers r with
  | none => exact Nat.zero_le _
  | some v =>
    have hmem : (r, v) ∈ recorded start app r ++ all := (mem_append.1 (mem_of_highest hv)).elim
      (mem_append_left _) fun hv => mem_append_right _ (h hv)
    obtain ⟨v', hv', hle⟩ := le_highest hmem
    rw [standing, hv']
    exact hle

theorem readSubtree_of_record (hshort : shard.length ≤ 64) {t : Option (Subtree Node)}
    (h : s (.subtree app width shard) = t.map .subtree) : readSubtree s app width shard = .ok t := by
  rw [readSubtree, subtreeAddress, packShard, if_neg (by omega)]
  change GlobalRecords.read s (.subtree app width shard) subtreeOf? = .ok t
  rw [GlobalRecords.read, h]
  cases t <;> rfl

theorem frozen_iff : frozenUnderAncestor placement shard width index = true ↔
    width < placement ∧ ∃ e ∈ index, e.1 = width ∧ e.2.length < shard.length ∧ e.2 <+: shard := by
  simp only [frozenUnderAncestor, Bool.and_eq_true, any_eq_true, beq_iff_eq, decide_eq_true_eq,
    isPrefixOf_iff_prefix, and_assoc]

/-- A layer is fresh when no ancestor froze its width and its record holds no more coins. -/
theorem isFresh_iff (hplacement : placementWidth start app = .ok placement) : isFresh start app shard t = true ↔
    ¬ frozenUnderAncestor placement shard t.width (indexOf start app) = true ∧
      ∀ c ∈ recorded start app (t.width, shard), c.2.1 ≤ t.coins := by
  rw [isFresh, hplacement]
  dsimp only
  rw [GlobalAccumulator.fresh, Bool.and_eq_true, Bool.not_eq_true', Bool.not_eq_true]
  refine and_congr_right fun _ => ?_
  rw [current, recorded]
  split <;> simp_all

theorem Holds.fresh_concat (h : Holds start app ctx index s layers) (hfresh : isFresh start app shard t = true) :
    ∀ c ∈ layers ++ [claimOf shard t], isFresh start app c.1.2 ⟨c.1.1, c.2.1, c.2.2⟩ = true :=
  forall_mem_append.2 ⟨h.fresh, forall_mem_singleton.2 hfresh⟩

section
variable (h : Holds start app ctx index s layers)
  (happart : ∀ r ∈ regions layers, Overlaps (t.width, shard) r → (t.width, shard) = r)
include h happart

/-- What is frozen does not change: the entry that froze a layer at the start is displaced by none that
    has come, and of those none begins the layer's shard. -/
theorem Holds.frozen_iff_start (hplacement : placementWidth start app = .ok placement) :
    frozenUnderAncestor placement shard t.width index = true ↔
      frozenUnderAncestor placement shard t.width (indexOf start app) = true := by
  rw [frozen_iff, frozen_iff]
  refine and_congr_right fun hlt => ⟨?_, ?_⟩
  · rintro ⟨e, he, hwidth, hlen, hpre⟩
    rcases mem_indexAfter.1 ((h.mem e).1 he) with he | ⟨he, -⟩
    · obtain rfl := happart e he ⟨hwidth.symm, .inr hpre⟩
      exact absurd hlen (lt_irrefl _)
    · exact ⟨e, he, hwidth, hlen, hpre⟩
  · rintro ⟨e, he, hwidth, hlen, hpre⟩
    refine ⟨e, (h.mem e).2 (mem_indexAfter.2 (.inr ⟨he, fun r hr hover => ?_⟩)), hwidth, hlen, hpre⟩
    by_cases hshorter : e.2.length < r.2.length
    · -- such a layer is frozen by the same entry
      have hpre' : e.2 <+: r.2 := hover.2.resolve_left fun hr' => absurd hr'.length_le (not_le.2 hshorter)
      obtain ⟨v, hv⟩ := mem_regions.1 hr
      refine ((isFresh_iff hplacement).1 (h.fresh _ hv)).1 (frozen_iff.2 ⟨?_, e, he, hover.1.symm, hshorter, hpre'⟩)
      exact (hover.1.trans hwidth).trans_lt hlt
    · have hpre' : r.2 <+: e.2 := hover.2.elim id fun he' => by
        rw [he'.eq_of_length (by have := he'.length_le; omega)]
      obtain rfl := happart r hr ⟨(hover.1.trans hwidth).symm, .inr (hpre'.trans hpre)⟩
      exact absurd hpre'.length_le (not_le.2 hlen)

/-- An admitted layer is the highest of its region. -/
theorem Holds.admitLayer (hfresh : isFresh start app shard t = true)
    (hhigh : ∀ v, standing start app layers (t.width, shard) = some v → v.1 < t.coins ∨ v = (t.coins, t.root)) :
    Holds start app ctx (admitLayer app ctx shard index s t).1
      (admitLayer app ctx shard index s t).2 (layers ++ [claimOf shard t]) := by
  have hself : standing start app (layers ++ [claimOf shard t]) (t.width, shard) = some (t.coins, t.root) := by
    rw [standing_concat_self]
    cases hold : standing start app layers (t.width, shard) with
    | none => rfl
    | some v =>
      rcases hhigh v hold with hlt | rfl
      · exact if_pos hlt
      · exact if_neg (lt_irrefl _)
  refine ⟨fun r => ?_, fun r => ?_, h.fresh_concat hfresh⟩
  · rw [mem_admitLayer, h.mem, mem_indexAfter, mem_indexAfter]
    simp only [mem_regions_concat]
    constructor
    · rintro (rfl | ⟨hover, hr | ⟨hr, hnone⟩⟩)
      · exact .inl (.inr rfl)
      · exact .inl (.inl hr)
      · refine .inr ⟨hr, ?_⟩
        rintro r' (hr' | rfl)
        · exact hnone r' hr'
        · exact hover
    · rintro ((hr | rfl) | ⟨hr, hnone⟩)
      · by_cases heq : r = (t.width, shard)
        · exact .inl heq
        · exact .inr ⟨fun hover => heq (happart r hr hover).symm, .inl hr⟩
      · exact .inl rfl
      · exact .inr ⟨hnone _ (.inr rfl), .inr ⟨hr, fun r' hr' => hnone r' (.inl hr')⟩⟩
  · by_cases hr : (t.width, shard) = r
    · subst hr
      rw [hself]
      exact Store.write_same _ _ _
    rw [standing_concat_other hr, ← h.record, admitLayer_other]
    intro heq
    injection heq with _ hwidth hpath
    exact hr (Prod.ext hwidth hpath).symm

end

/-- The entries of an index do not overlap. -/
def Disjoint (index : Index) : Prop := ∀ r ∈ index, ∀ r' ∈ index, Overlaps r r' → r = r'

/-- An indexed layer that is no higher than its record changes nothing. -/
theorem Holds.keep (h : Holds start app ctx index s layers) (hdisjoint : Disjoint (indexOf start app))
    (hfresh : isFresh start app shard t = true) (hmem : (t.width, shard) ∈ index) {v : ℕ × Node}
    (hold : standing start app layers (t.width, shard) = some v) (hle : t.coins ≤ v.1) :
    Holds start app ctx index s (layers ++ [claimOf shard t]) := by
  refine ⟨fun r => ?_, fun r => ?_, h.fresh_concat hfresh⟩
  · rw [mem_indexAfter]
    simp only [mem_regions_concat]
    constructor
    · intro hr
      rcases mem_indexAfter.1 ((h.mem r).1 hr) with hr | ⟨hr, hnone⟩
      · exact .inl (.inl hr)
      by_cases heq : r = (t.width, shard)
      · exact .inl (.inr heq)
      refine .inr ⟨hr, ?_⟩
      rintro r' (hr' | rfl)
      · exact hnone r' hr'
      · rcases mem_indexAfter.1 ((h.mem _).1 hmem) with hmem | ⟨hmem, -⟩
        · exact hnone _ hmem
        · exact fun hover => heq (hdisjoint _ hmem _ hr hover).symm
    · rintro ((hr | rfl) | ⟨hr, hnone⟩)
      · exact (h.mem r).2 (mem_indexAfter.2 (.inl hr))
      · exact hmem
      · exact (h.mem r).2 (mem_indexAfter.2 (.inr ⟨hr, fun r' hr' => hnone r' (.inl hr')⟩))
  · by_cases hr : (t.width, shard) = r
    · subst hr
      rw [standing_concat_self, hold, h.record, hold]
      dsimp only
      rw [if_neg (not_lt.2 hle)]
    · rw [standing_concat_other hr, h.record]

variable (layers) in
/-- A layer is fresh when nothing offered for its region is higher. -/
theorem isFresh_of_standing (hplacement : placementWidth start app = .ok placement)
    (hfrozen : ¬ frozenUnderAncestor placement shard t.width (indexOf start app) = true)
    (hle : ∀ v, standing start app layers (t.width, shard) = some v → v.1 ≤ t.coins) :
    isFresh start app shard t = true := by
  refine (isFresh_iff hplacement).2 ⟨hfrozen, fun c hc => ?_⟩
  have hkey : c.1 = (t.width, shard) := by
    rw [recorded] at hc
    split at hc
    · rw [mem_singleton.1 hc]
    · exact absurd hc not_mem_nil
  have hc' : ((t.width, shard), c.2) ∈ recorded start app (t.width, shard) ++ layers :=
    mem_append_left _ (hkey ▸ hc)
  obtain ⟨v, hv, hcv⟩ := le_highest hc'
  exact hcv.trans (hle v hv)

/-- Recording a layer that agrees with those before always succeeds. -/
theorem record_layer [DecidableEq Node] (h : Holds start app ctx index s layers)
    (hdisjoint : Disjoint (indexOf start app)) (hplacement : placementWidth start app = .ok placement)
    (hshort : shard.length ≤ 64) (happart : ∀ r ∈ regions layers, Overlaps (t.width, shard) r → (t.width, shard) = r)
    (hagree : ∀ root, standing start app layers (t.width, shard) = some (t.coins, root) → root = t.root) :
    ∃ r, recordSubtree app ctx shard placement index s t = .ok r ∧ Holds start app ctx (r.getD (index, s)).1
      (r.getD (index, s)).2 (layers ++ freshIn start app [claimOf shard t]) := by
  have hignored : ¬ isFresh start app shard t = true → freshIn start app [claimOf shard t] = [] := fun hnot =>
    filter_cons_of_neg hnot
  have htaken : isFresh start app shard t = true → freshIn start app [claimOf shard t] = [claimOf shard t] :=
    fun hfresh => filter_cons_of_pos hfresh
  by_cases hfrozen : frozenUnderAncestor placement shard t.width (indexOf start app) = true
  · rw [recordSubtree, if_pos ((h.frozen_iff_start happart hplacement).2 hfrozen),
      hignored fun hfresh => ((isFresh_iff hplacement).1 hfresh).1 hfrozen, append_nil]
    exact ⟨none, rfl, h⟩
  rw [recordSubtree, if_neg (mt (h.frozen_iff_start happart hplacement).1 hfrozen)]
  have hfresh := isFresh_of_standing layers hplacement hfrozen
  have hrecord := h.record (t.width, shard)
  rcases hold : standing start app layers (t.width, shard) with _ | v
  · rw [hold] at hrecord
    have hnow := hfresh (by simp [hold])
    rw [readSubtree_of_record (t := none) hshort hrecord, ok_bind, htaken hnow]
    exact ⟨_, rfl, h.admitLayer happart hnow (by simp [hold])⟩
  rw [hold] at hrecord
  rw [readSubtree_of_record (t := some ⟨ctx, v.1, v.2⟩) hshort hrecord, ok_bind]
  dsimp only
  have honly : ∀ w, standing start app layers (t.width, shard) = some w → w = v := fun w hw =>
    Option.some.inj (hw.symm.trans hold)
  rcases lt_trichotomy v.1 t.coins with hlt | heq | hgt
  · have hnow := hfresh fun w hw => honly w hw ▸ hlt.le
    rw [if_neg (by omega), if_neg (by omega), htaken hnow]
    exact ⟨_, rfl, h.admitLayer happart hnow fun w hw => .inl (honly w hw ▸ hlt)⟩
  · have hnow := hfresh fun w hw => honly w hw ▸ heq.le
    have hroot : v.2 = t.root := hagree v.2 (by rw [hold, ← heq])
    rw [if_neg (by omega), if_pos heq, if_neg (not_not.2 hroot), htaken hnow]
    by_cases hmem : (t.width, shard) ∈ index
    · rw [if_pos hmem]
      exact ⟨none, rfl, h.keep hdisjoint hnow hmem hold heq.ge⟩
    · rw [if_neg hmem]
      exact ⟨_, rfl, h.admitLayer happart hnow fun w hw => .inr (honly w hw ▸ Prod.ext heq hroot)⟩
  · rw [if_pos hgt]
    refine ⟨none, rfl, ?_⟩
    by_cases hnow : isFresh start app shard t = true
    · -- the higher layer came later, so the region is indexed
      have hcome : (t.width, shard) ∈ regions layers := by
        rcases mem_append.1 (mem_of_highest hold) with hv | hv
        · exact absurd (((isFresh_iff hplacement).1 hnow).2 _ hv) (not_le.2 hgt)
        · exact mem_regions.2 ⟨v, hv⟩
      rw [htaken hnow]
      exact h.keep hdisjoint hnow ((h.mem _).2 (mem_indexAfter.2 (.inl hcome))) hold hgt.le
    · rw [hignored hnow, append_nil]
      exact h

theorem record_layers [DecidableEq Node] (hfits : Fits start app all) (hdisjoint : Disjoint (indexOf start app))
    (hplacement : placementWidth start app = .ok placement) {subtrees : List (SubtreeReport Node)}
    (h : Holds start app ctx index s layers) (hsub : layers ++ subtrees.map (claimOf shard) ⊆ all) (changed : Bool) :
    ∃ index' s' changed', recordSubtrees app ctx shard placement index s changed subtrees =
        .ok (index', s', changed') ∧
      Holds start app ctx index' s' (layers ++ freshIn start app (subtrees.map (claimOf shard))) := by
  induction subtrees generalizing index s layers changed with
  | nil => exact ⟨index, s, changed, rfl, by simpa [freshIn] using h⟩
  | cons t rest ih =>
    have ht : claimOf shard t ∈ all := hsub (by simp)
    have hlayers : layers ⊆ all := fun c hc => hsub (mem_append_left _ hc)
    have hshort : shard.length ≤ 64 := length_le_of_owned (hfits.owned _ ht)
    have happart : ∀ r ∈ regions layers, Overlaps (t.width, shard) r → (t.width, shard) = r := by
      intro r hr hover
      obtain ⟨v, hv⟩ := mem_regions.1 hr
      exact hfits.apart _ ht _ (hlayers hv) hover
    obtain ⟨r, hr, hholds⟩ := record_layer h hdisjoint hplacement hshort happart fun root hroot =>
      hfits.agree _ _ _ _ _ ((mem_append.1 (mem_of_highest hroot)).elim (mem_append_left _)
        fun hv => mem_append_right _ (hlayers hv)) (mem_append_right _ ht)
    rw [map_cons, append_cons] at hsub
    have hsub' : layers ++ freshIn start app [claimOf shard t] ++ rest.map (claimOf shard) ⊆ all := fun c hc =>
      hsub (mem_append.2 ((mem_append.1 hc).imp_left fun hc => append_freshIn_subset _ _ hc))
    have hsplit : layers ++ freshIn start app ((t :: rest).map (claimOf shard)) =
        layers ++ freshIn start app [claimOf shard t] ++ freshIn start app (rest.map (claimOf shard)) := by
      rw [append_assoc, freshIn, freshIn, freshIn, ← filter_append, map_cons, singleton_append]
    rw [hsplit, recordSubtrees, hr, ok_bind]
    cases r with
    | none => exact ih hholds hsub' changed
    | some r => exact ih hholds hsub' true

/-- A report that changed anything leaves an index that is not empty. -/
theorem recordSubtrees_changed [DecidableEq Node] {subtrees : List (SubtreeReport Node)} {changed : Bool}
    (hstart : changed = true → index ≠ [])
    (h : recordSubtrees app ctx shard placement index s changed subtrees = .ok (index', s', true)) : index' ≠ [] :=
  recordSubtrees_induction (I := fun index _ changed => changed = true → index ≠ []) hstart
    (fun _ _ _ _ _ _ => by simp [admitLayer]) h rfl

/-! ### Storing the index -/

/-- Gathering succeeds when every entry has a record and the coins add up to a `u64`. -/
theorem gather_of_records {f : ℕ × List Bool → ℕ} (hshort : ∀ r ∈ index, r.2.length ≤ 64)
    (hrecord : ∀ r ∈ index, ∃ t, s (.subtree app r.1 r.2) = some (.subtree t) ∧ t.coins = f r)
    (hsum : coins + (index.map f).sum < 2 ^ 64) :
    ∃ found, gather s app coins index = .ok (coins + (index.map f).sum, found) := by
  induction index generalizing coins with
  | nil => exact ⟨[], rfl⟩
  | cons r rest ih =>
    obtain ⟨⟨t, hr, ht⟩, hrecord⟩ := forall_mem_cons.1 hrecord
    obtain ⟨hlen, hshort⟩ := forall_mem_cons.1 hshort
    rw [map_cons, sum_cons, ← add_assoc, ← ht] at hsum ⊢
    obtain ⟨found, hfound⟩ := ih hshort hrecord hsum
    rw [gather, readSubtree_of_record (t := some t) hlen hr, ok_bind]
    dsimp only
    rw [if_neg (by omega), hfound]
    exact ⟨_, rfl⟩

/-- The coins of an index that holds some of the layers are within those of all. -/
theorem coins_le (hfits : Fits start app all) (h : Holds start app ctx index s layers) (hnodup : index.Nodup)
    (hsub : layers ⊆ all) :
    index.length ≤ MAX_SUBTREES ∧ (index.map (coinsAt start app layers)).sum ≤ 2 ^ DEPTH := by
  have hfresh : layers ⊆ freshIn start app all := fun c hc => mem_filter.2 ⟨hsub hc, h.fresh c hc⟩
  have hindex : index.toFinset = indexAfter start app (regions layers) := by
    ext r
    rw [mem_toFinset, h.mem]
  obtain ⟨hroom, hcap⟩ := hfits.room _ (Finset.mem_powerset.2 (regions_mono hfresh))
  rw [← toFinset_card_of_nodup hnodup, ← sum_toFinset _ hnodup, hindex]
  exact ⟨hroom, (Finset.sum_le_sum fun r _ => coinsAt_mono hfresh r).trans hcap⟩

/-- Storing the index succeeds, with the coins of its records. -/
theorem store_index (hfits : Fits start app all) (h : Holds start app ctx index s layers)
    {ledger heard : List (Region ℕ × ℕ × Node)} (hfollows : Follows app ctx index s ledger heard) (hsub : layers ⊆ all) :
    ∃ s' coins found, storeIndex app ctx index s = .ok (s', coins, found) ∧ coins ≤ 2 ^ DEPTH := by
  obtain ⟨hlen, hsum⟩ := coins_le hfits h hfollows.nodup hsub
  have hperm := perm_insertionSort (fun a b : ℕ × List Bool => sortKey a ≤ sortKey b) index
  rw [storeIndex, if_neg (by omega)]
  dsimp only
  generalize index.insertionSort (fun a b => sortKey a ≤ sortKey b) = sorted at hperm ⊢
  have hshort : ∀ r ∈ sorted, r.2.length ≤ 64 := fun r hr =>
    length_le_of_owned (hfollows.owned r (hperm.mem_iff.1 hr))
  rw [mapM_ok (g := fun r => (r.2.length, packBits 64 r.2)) fun r hr => by
    rw [packShard, if_neg (by have := hshort r hr; omega)], ok_bind]
  have hrecord : ∀ r ∈ sorted, ∃ t, s.write (indexAddress app) (.index ctx sorted) (.subtree app r.1 r.2) =
        some (.subtree t) ∧ t.coins = coinsAt start app layers r := by
    intro r hr
    obtain ⟨v, hv⟩ := (hfollows.mem r).1 (hperm.mem_iff.1 hr)
    have hrecord := hfollows.record r v hv
    refine ⟨⟨ctx, v.1, v.2⟩, by rw [Store.write_other (by simp [indexAddress]), hrecord], ?_⟩
    rw [h.record] at hrecord
    obtain ⟨w, hw, heq⟩ := Option.map_eq_some_iff.1 hrecord
    injection heq with heq
    injection heq with _ hcoins
    rw [coinsAt, hw]
    exact hcoins.symm
  have hcoins : 0 + (sorted.map (coinsAt start app layers)).sum ≤ 2 ^ DEPTH := by
    rwa [zero_add, (hperm.map _).sum_eq]
  obtain ⟨found, hfound⟩ := gather_of_records hshort hrecord
    (hcoins.trans_lt (Nat.pow_lt_pow_right (by decide) (by decide)))
  rw [hfound]
  exact ⟨_, _, found, rfl, hcoins⟩

/-! ### Publishing the root -/

theorem retain_spec {digests : List Bytes32} (hnodup : digests.Nodup)
    (hlen : digests.length ≤ HISTORY_LIMIT) (digest : Bytes32) :
    (retain digests digest).length ≠ 0 ∧ (retain digests digest).length ≤ HISTORY_LIMIT ∧
      (retain digests digest).Nodup ∧ (retain digests digest).getLast? = some digest := by
  rw [retain]
  split_ifs with hlast
  · refine ⟨fun hnil => ?_, hlen, hnodup, hlast⟩
    rw [length_eq_zero_iff.1 hnil] at hlast
    cases hlast
  have hnew : (digests.filter (· ≠ digest) ++ [digest]).Nodup := by
    refine nodup_append.2 ⟨hnodup.filter _, nodup_singleton _, fun a ha b hb hab => ?_⟩
    rw [mem_singleton] at hb
    subst hb hab
    simp at ha
  have hfilter : (digests.filter (· ≠ digest) ++ [digest]).length ≤ HISTORY_LIMIT + 1 := by
    rw [length_append]
    exact Nat.add_le_add_right ((length_filter_le _ _).trans hlen) 1
  have hend : (digests.filter (· ≠ digest) ++ [digest]).getLast? = some digest :=
    getLast?_concat
  have hpos : (digests.filter (· ≠ digest) ++ [digest]).length ≠ 0 := by simp
  dsimp only
  generalize digests.filter (· ≠ digest) ++ [digest] = kept at hnew hfilter hend hpos ⊢
  split_ifs with hover
  · have hlimit : HISTORY_LIMIT = 128 := rfl
    refine ⟨by rw [length_tail]; omega, by rw [length_tail]; omega, hnew.tail, ?_⟩
    rw [getLast?_tail, if_neg (by omega), hend]
  · exact ⟨hpos, by omega, hnew, hend⟩

/-- Publishing into a history that decodes succeeds, and leaves one that decodes. -/
theorem publish_history {env : Env Node} {existing : Option (History Node)}
    (hexisting : ∀ history, existing = some history →
      decodeHistory env history ctx = .ok history) (hcoins : coins ≤ 2 ^ DEPTH) (root : Node) :
    ∃ history, publishHistory env existing ⟨ctx, DEPTH, coins, root⟩ = .ok history ∧
      decodeHistory env history ctx = .ok history := by
  obtain ⟨before, hopen, hcontext, hnodup, hlen⟩ : ∃ before,
      openHistory env existing ⟨ctx, DEPTH, coins, root⟩ = .ok before ∧
        before.current.context = ctx ∧ before.digests.Nodup ∧
        before.digests.length ≤ HISTORY_LIMIT := by
    rcases existing with _ | history
    · exact ⟨_, rfl, rfl, nodup_nil, zero_le⟩
    have hdecode := hexisting history rfl
    refine ⟨history, hdecode, ?_⟩
    rw [decodeHistory] at hdecode
    split_ifs at hdecode with hbad
    push Not at hbad
    exact ⟨hbad.2.2.1, hbad.2.2.2.2.1, hbad.2.1⟩
  have hretain := retain_spec hnodup hlen (env.rootDigest ctx DEPTH root)
  have hdecode : decodeHistory env ⟨⟨ctx, DEPTH, coins, root⟩, retain before.digests (env.rootDigest ctx DEPTH root)⟩
        ctx = .ok ⟨⟨ctx, DEPTH, coins, root⟩, retain before.digests (env.rootDigest ctx DEPTH root)⟩ := by
    rw [decodeHistory, if_neg]
    push Not
    refine ⟨hretain.1, hretain.2.1, rfl, ?_, hretain.2.2.1, hretain.2.2.2⟩
    simp only [validRootRecord, Bool.and_eq_true, decide_eq_true_eq]
    exact ⟨⟨by decide, by decide⟩, hcoins⟩
  refine ⟨_, ?_, hdecode⟩
  rwa [publishHistory, hopen, ok_bind, publish, if_neg (not_not.2 hcontext.symm), ok_bind]

/-- Publishing a foldable index succeeds, and leaves a history that decodes. -/
theorem publish_root (m : Membership Node) {env : Env Node} {existing : Option (History Node)}
    (hread : s (.rootHistory app) = existing.map .rootHistory) (hexisting : ∀ history, existing = some history →
      decodeHistory env history ctx = .ok history) (hcoins : coins ≤ 2 ^ DEPTH)
    {found : List (ℕ × List Bool × Node)} {root : Node} (hroot : foldApplicationRoot m ctx found = .ok root) :
    ∃ history, publishRoot m env app ctx coins found s = .ok (s.write (.rootHistory app) (.rootHistory history)) ∧
      decodeHistory env history ctx = .ok history := by
  obtain ⟨history, hpublish, hdecode⟩ := publish_history hexisting hcoins root
  have hexists : readRootHistory s app = .ok existing := by
    rw [readRootHistory, GlobalRecords.read, rootHistoryAddress, hread]
    cases existing <;> rfl
  refine ⟨history, ?_, hdecode⟩
  rw [publishRoot, hroot, ok_bind, hexists, ok_bind, hpublish]
  rfl

/-! ### One report -/

/-- The accumulator's records can be read: subtrees are subtrees, and the root history decodes. -/
structure Readable (env : Env Node) (app : Bytes32) (s : Records Node) : Prop where
  subtree : ∀ width shard record, s (.subtree app width shard) = some record → ∃ t, record = .subtree t
  history : ∀ history, s (.rootHistory app) = some (.rootHistory history) →
    decodeHistory env history history.current.context = .ok history

/-- Records from which an application's reports may go on: its accumulator is settled in this context. -/
structure Ready (m : Membership Node) (env : Env Node) (app ctx : Bytes32) (s : Records Node) : Prop
    extends Readable env app s where
  settled : ∃ ledger heard, Settled m s app ledger heard
  context : ∀ c index, s (.index app) = some (.index c index) → c = ctx

/-- Where an application's accumulator stands after some fresh layers of fixed shards. -/
inductive Reported (m : Membership Node) (env : Env Node) (start : Records Node) (app ctx : Bytes32)
    (s : Records Node) : List (Region ℕ × ℕ × Node) → Prop where
  | empty (nothing : ∀ a, IsAccumulator app a → start a = none) (h : ∀ a, IsAccumulator app a → s a = none) :
      Reported m env start app ctx s []
  | published {layers index list history ledger heard}
      (something : start (.index app) ≠ none ∨ index ≠ [])
      (h : Published m s app ctx index list history ledger heard)
      (holds : Holds start app ctx index s layers)
      (decodes : decodeHistory env history ctx = .ok history) :
      Reported m env start app ctx s layers

variable {m : Membership Node} {env : Env Node}

/-- Before the first report. -/
theorem Ready.reported (h : Ready m env app ctx start) : Reported m env start app ctx start [] := by
  obtain ⟨ledger, heard, hsettled⟩ := h.settled
  cases hsettled with
  | empty hnone => exact .empty hnone hnone
  | @published context index list history _ _ hpublished =>
    obtain rfl := h.context _ _ hpublished.indexed
    have hdecodes := h.history _ hpublished.recorded
    rw [show history.current.context = context by rw [hpublished.published]] at hdecodes
    refine .published (.inl (by rw [hpublished.indexed]; nofun)) hpublished ⟨fun r => ?_, fun r => ?_, by simp⟩ hdecodes
    · rw [mem_indexAfter, indexOf, hpublished.indexed]
      simp [regions]
    rw [standing, append_nil, recorded]
    rcases hr : start (.subtree app r.1 r.2) with _ | record
    · rfl
    obtain ⟨t, rfl⟩ := h.subtree _ _ _ hr
    have hsingle := highest_concat_self [] (r, t.coins, t.root)
    rw [highest_nil, nil_append] at hsingle
    dsimp only at hsingle ⊢
    rw [hsingle, ← hpublished.follows.context _ _ _ hr]
    rfl

theorem Ready.disjoint (h : Ready m env app ctx start) : Disjoint (indexOf start app) := by
  obtain ⟨ledger, heard, hsettled⟩ := h.settled
  cases hsettled with
  | empty hnone =>
    rw [indexOf, hnone (.index app) rfl]
    exact fun r hr => absurd hr not_mem_nil
  | published hpublished =>
    rw [indexOf, hpublished.indexed]
    intro r hr r' hr' hover
    obtain ⟨v, hv⟩ := (hpublished.follows.mem r).1 hr
    obtain ⟨v', hv'⟩ := (hpublished.follows.mem r').1 hr'
    exact hv.eq_of_overlaps hv' hover

section
variable (h : Reported m env start app ctx s layers)
include h

theorem Reported.congr (hs : ∀ a, IsAccumulator app a → s' a = s a) : Reported m env start app ctx s' layers := by
  cases h with
  | empty nothing h => exact .empty nothing fun a ha => by rw [hs a ha, h a ha]
  | published something h holds decodes =>
    refine .published something ⟨staged_congr h.toStaged fun a ha _ => hs a ha,
      by rw [hs (.rootHistory app) rfl, h.recorded], h.folded, h.published⟩
      ⟨holds.mem, fun r => ?_, holds.fresh⟩ decodes
    rw [hs (.subtree app r.1 r.2) rfl, holds.record]

theorem Reported.settled : ∃ ledger heard, Settled m s app ledger heard := by
  cases h with
  | empty _ h => exact ⟨[], [], .empty h⟩
  | published _ h => exact ⟨_, _, .published h⟩

/-- The root history there is decodes. -/
theorem Reported.history : ∃ existing, s (.rootHistory app) = existing.map .rootHistory ∧
      ∀ history, existing = some history → decodeHistory env history ctx = .ok history := by
  cases h with
  | empty _ h => exact ⟨none, h _ rfl, nofun⟩
  | @published _ _ _ history _ _ _ h _ decodes =>
    refine ⟨some history, h.recorded, ?_⟩
    rintro _ ⟨⟩
    exact decodes

/-- The index a report starts from holds the layers so far. -/
theorem Reported.holds : ∃ stored, readIndex s app = .ok stored ∧
      (stored.getD (ctx, [])).1 = ctx ∧ Holds start app ctx (stored.getD (ctx, [])).2 s layers := by
  cases h with
  | empty nothing h =>
    refine ⟨none, ?_, rfl, fun r => ?_, fun r => ?_, by simp⟩
    · rw [readIndex, GlobalRecords.read, indexAddress, h (.index app) rfl]
      rfl
    · rw [mem_indexAfter, indexOf, nothing (.index app) rfl]
      simp [regions]
    · rw [h (.subtree app r.1 r.2) rfl, standing, recorded, nothing (.subtree app r.1 r.2) rfl]
      rfl
  | @published _ index _ _ _ _ _ h holds _ =>
    obtain ⟨stored, hstored, -⟩ := bind_ok h.listed
    have hsome : stored = some (ctx, index) := by
      obtain ⟨read, hread, hrest⟩ := bind_ok hstored
      rw [GlobalRecords.read, indexAddress, h.indexed] at hread
      cases hread
      dsimp only at hrest
      split_ifs at hrest
      cases hrest
      rfl
    subst hsome
    exact ⟨_, hstored, rfl, holds⟩

/-- A report that leaves the index as it was told nothing new. -/
theorem Reported.unchanged {stored : Option (Bytes32 × Index)}
    (hread : readIndex s app = .ok stored) (hstored : (stored.getD (ctx, [])).1 = ctx)
    {new : List (Region ℕ × ℕ × Node)} (hnew : Holds start app ctx (stored.getD (ctx, [])).2 s (layers ++ new)) :
    Reported m env start app ctx s (layers ++ new) := by
  cases h with
  | empty nothing hnone =>
    have hnil : new = [] := eq_nil_iff_forall_not_mem.2 fun c hc => by
      obtain ⟨v, hv, -⟩ := le_highest (mem_append_right (recorded start app c.1) hc)
      have hrecord := hnew.record c.1
      rw [nil_append, standing, hv, hnone (.subtree app c.1.1 c.1.2) rfl] at hrecord
      cases hrecord
    rw [hnil]
    exact .empty nothing hnone
  | published something h _ decodes =>
    rw [(staged_context h.toStaged hread hstored).2] at hnew
    exact .published something h hnew decodes

end

variable [DecidableEq Node]

/-- A report whose phases succeed is staged. -/
theorem stageReport_of_phases {frame : ℕ} {report : ShardReport Node} {s₁ s₂ : Records Node}
    {recorded : Option (Bytes32 × Index)} {changed : Bool}
    (hframe : report.attestations = [] ∨ env.orphanReplacementFrame ≤ frame)
    (hattest : applyAttestations app s report.attestations = .ok s₁) (hread : readIndex s₁ app = .ok recorded)
    (hcontext : (recorded.getD (report.context, [])).1 = report.context)
    (hplacement : placementWidth s₁ app = .ok placement) (hrecord : recordSubtrees app report.context shard placement
      (recorded.getD (report.context, [])).2 s₁ false report.subtrees = .ok (index', s₂, changed)) :
    stageReport env s frame app shard report = if changed then
        (storeIndex app report.context index' s₂).map fun r => (r.1, some r.2)
      else .ok (s₂, none) := by
  have htimely : ¬ (report.attestations ≠ [] ∧ frame < env.orphanReplacementFrame) := by
    rintro ⟨hsome, hlt⟩
    exact hframe.elim hsome fun hle => absurd hlt (not_lt.2 hle)
  rw [stageReport, if_neg htimely, hattest, ok_bind, hread, ok_bind]
  dsimp only
  rw [hcontext, if_neg (not_not.2 rfl), hplacement, ok_bind, hrecord, ok_bind]
  rcases changed with _ | _
  · rfl
  dsimp only
  cases storeIndex app report.context index' s₂ <;> rfl

/-- Every report of layers that fit is accepted, leaves the highest layers, and writes only the accumulator
    after its attestations. -/
theorem reported_step (hfits : Fits start app all) (hdisjoint : Disjoint (indexOf start app))
    (hplacement : placementWidth start app = .ok width) (h : Reported m env start app ctx s layers)
    {header : Header Node} (hverify : verifyReport header.shard header.report = .ok ())
    (hcontext : header.report.context = ctx)
    (hframe : header.report.attestations = [] ∨ env.orphanReplacementFrame ≤ header.frame) {s₁ : Records Node}
    (hattest : applyAttestations app s header.report.attestations = .ok s₁)
    (hwidth : placementWidth s₁ app = .ok width)
    (hsub : layers ++ header.report.subtrees.map (claimOf header.shard) ⊆ all) :
    ∃ changed s', materializeReport m env s header.frame app header.shard
        (some header.report) = .ok (changed, s') ∧
      Reported m env start app ctx s'
        (layers ++ freshIn start app (header.report.subtrees.map (claimOf header.shard))) ∧
      ∀ a, ¬ IsAccumulator app a → s' a = s₁ a := by
  obtain ⟨frame, shard, report⟩ := header
  obtain rfl : report.context = ctx := hcontext
  have h₁ := h.congr (attestations_accumulator hattest).1
  obtain ⟨stored, hread, hstored, hholds⟩ := h₁.holds
  obtain ⟨index', s₂, changed, hrecord, hnew⟩ := record_layers hfits hdisjoint hplacement hholds hsub false
  -- what the report leaves also follows the ledgers: the index has no repetitions and folds
  obtain ⟨ledger, heard, hsettled⟩ := h₁.settled
  obtain ⟨hdistinct, howned⟩ := verifyReport_ok hverify
  obtain ⟨hfollows, hunchanged, -⟩ := recordSubtrees_ok hdistinct howned (fun _ _ => rfl)
    (fun _ _ => rfl) (hsettled.start hread hstored).1 hrecord
  have hother : ∀ a, ¬ IsAccumulator app a → s₂ a = s₁ a := fun a ha =>
    recordSubtrees_other (fun w heq => ha (by rw [heq]; rfl)) hrecord
  have hstage := stageReport_of_phases hframe hattest hread hstored hwidth hrecord
  rcases changed with _ | _
  · refine ⟨false, s₂, ?_, ?_, hother⟩
    · rw [materializeReport, hverify, ok_bind, hstage]
      rfl
    · obtain ⟨rfl, rfl⟩ := hunchanged rfl
      exact h₁.unchanged hread hstored hnew
  obtain ⟨s₃, coins, found, hstore, hcoins⟩ := store_index hfits hnew hfollows
    (List.Subset.trans (append_freshIn_subset _ _) hsub)
  obtain ⟨sorted, list, hstaged, rfl, rfl⟩ := storeIndex_ok hfollows hstore
  obtain ⟨root, hroot⟩ := hstaged.follows.folds m hstaged.entries
  obtain ⟨existing, hexisting, hdecodes⟩ := h₁.history
  rw [← recordSubtrees_other (a := .rootHistory app) (fun _ => by rintro ⟨⟩) hrecord,
    ← storeIndex_other (by simp) hstore] at hexisting
  obtain ⟨history, hpublish, hdecode⟩ := publish_root m hexisting hdecodes hcoins hroot
  refine ⟨true, _, ?_, .published ?_ (staged_publish hstaged hpublish) ⟨fun r => ?_, fun r => ?_, hnew.fresh⟩
    hdecode, fun a ha => ?_⟩
  · rw [materializeReport, hverify, ok_bind, hstage, if_pos rfl, hstore]
    dsimp only [Except.map]
    rw [ok_bind]
    dsimp only
    rw [hpublish]
    rfl
  · refine .inr fun hnil => recordSubtrees_changed (by simp) hrecord (eq_nil_iff_forall_not_mem.2 fun r hr => ?_)
    rw [hfollows.mem, ← hstaged.follows.mem, hnil] at hr
    exact not_mem_nil hr
  · rw [hstaged.follows.mem, ← hfollows.mem, hnew.mem]
  · rw [Store.write_other, storeIndex_other (by simp) hstore, hnew.record]
  · rw [Store.write_other (by rintro rfl; exact ha rfl), storeIndex_other (by rintro rfl; exact ha rfl) hstore,
      hother a ha]

end

/-! ### What any calls leave -/

section
variable [DecidableEq Node] {m : Membership Node} {env : Env Node} {app ctx : Bytes32} {s s' : Records Node}

omit [DecidableEq Node] in
theorem Readable.congr (h : Readable env app s) (hs : ∀ a, IsAccumulator app a → s' a = s a) : Readable env app s' where
  subtree width shard record hr := h.subtree width shard record (by rw [← hs (.subtree app width shard) rfl, hr])
  history history hr := h.history history (by rw [← hs (.rootHistory app) rfl, hr])

/-- Recorded layers are subtrees. -/
theorem recordSubtrees_subtree {shard : List Bool} {placement : ℕ} {index index' : Index} {changed changed' : Bool}
    {subtrees : List (SubtreeReport Node)} (h : ∀ w p record, s (.subtree app w p) = some record → ∃ t, record = .subtree t)
    (hok : recordSubtrees app ctx shard placement index s changed subtrees = .ok (index', s', changed')) :
    ∀ w p record, s' (.subtree app w p) = some record → ∃ t, record = .subtree t := by
  refine recordSubtrees_induction (I := fun _ s _ => ∀ w p record, s (.subtree app w p) = some record →
    ∃ t, record = .subtree t) h (fun _ _ _ t h w p record hrecord => ?_) hok
  by_cases heq : RecordAddress.subtree app w p = .subtree app t.width shard
  · rw [heq] at hrecord
    exact ⟨_, (Option.some.inj ((Store.write_same _ _ _).symm.trans hrecord)).symm⟩
  · exact h w p record ((Store.write_other heq).symm.trans hrecord)

/-- A report leaves the accumulator readable. -/
theorem Readable.report (h : Readable env app s) {frame : ℕ} {shard : List Bool} {report : ShardReport Node}
    {changed : Bool} (hok : materializeReport m env s frame app shard (some report) = .ok (changed, s')) :
    Readable env app s' := by
  obtain ⟨-, s₁, folded, hstage, hend⟩ := materializeReport_ok hok
  obtain ⟨s₂, stored, placement, index', s₃, changed', hattest, -, -, -, hrecord, hstored⟩ := stageReport_ok hstage
  have h₂ := h.congr (attestations_accumulator hattest).1
  have h₃ : Readable env app s₃ := ⟨recordSubtrees_subtree h₂.subtree hrecord, fun history hr =>
    h₂.history history (by rw [← hr, recordSubtrees_other (fun _ => by rintro ⟨⟩) hrecord])⟩
  have h₁ : Readable env app s₁ := by
    rcases hstored with ⟨-, -, rfl⟩ | ⟨-, coins, found, -, hstore⟩
    · exact h₃
    · exact ⟨fun w p record hr => h₃.subtree w p record (by rw [← hr, storeIndex_other (by simp) hstore]),
        fun history hr => h₃.history history (by rw [← hr, storeIndex_other (by simp) hstore])⟩
  rcases hend with ⟨-, rfl⟩ | ⟨coins, found, -, hpublish⟩
  · exact h₁
  obtain ⟨root, -, hpublish⟩ := bind_ok hpublish
  obtain ⟨existing, -, hpublish⟩ := bind_ok hpublish
  obtain ⟨history, hhistory, hpublish⟩ := bind_ok hpublish
  cases hpublish
  refine ⟨fun w p record hr => h₁.subtree w p record (by rw [← hr, Store.write_other]), fun history' hr => ?_⟩
  rw [rootHistoryAddress, Store.write_same] at hr
  cases hr
  obtain ⟨before, -, hhistory⟩ := bind_ok hhistory
  obtain ⟨after, -, hhistory⟩ := bind_ok hhistory
  -- what was published was checked as it is decoded
  obtain rfl : after = history := by
    rw [decodeHistory] at hhistory
    split_ifs at hhistory
    exact Except.ok.inj hhistory
  exact hhistory

/-- After any calls, an application's reports may go on in the context of its index. -/
theorem ready_run (calls : List (Call Node))
    (hcontext : ∀ c index, (run (step m env) Store.empty calls).1 (.index app) = some (.index c index) → c = ctx) :
    Ready m env app ctx (run (step m env) Store.empty calls).1 := by
  have hempty : Settled m (Store.empty : Records Node) app [] [] := .empty fun _ _ => rfl
  refine ⟨?_, ⟨_, _, settled_run calls hempty⟩, hcontext⟩
  refine run_invariant (step m env) (fun _ s => Readable env app s)
    ⟨fun _ _ _ h => (by cases h), fun _ h => (by cases h)⟩ (fun _ s call h => ?_) calls
  rcases call with ⟨frame, application', shard, _ | report⟩ | call
  · exact h
  · rcases hok : materializeReport m env s frame application' shard (some report) with e | ⟨changed, s'⟩
    · simpa [step, hok] using h
    by_cases happ : application' = app
    · subst happ
      simpa [step, hok] using h.report hok
    · simpa [step, hok] using h.congr fun a ha => report_other happ hok ha
  · exact h.congr fun a ha => other_accumulator call.2 ha

end

/-! ### Any order of the reports -/

variable {headers : List (Header Node)}

section
variable [DecidableEq Node] (m : Membership Node) (env : Env Node) (app : Bytes32)

/-- One header's report for the application; a failed one leaves the records as they were. -/
def receive (s : Records Node) (h : Header Node) : Records Node × Reply :=
  step m env s (.report h.frame app h.shard (some h.report))

/-- The application's current root and coin count. -/
def currentRoot (s : Records Node) : Option (RootRecord Node) :=
  match s (.rootHistory app) with
  | some (.rootHistory history) => some history.current
  | _ => none

/-- The headers `headers` apply the reports of `base`, in some order, with repetitions and with stale
    ones in between: verified reports of the given shards, in one context, whose attestations are timely
    and attest what the records at the start take, and whose layers equivocate neither with each other
    nor with the records at the start. -/
structure Order (ctx : Bytes32) (shards : List (List Bool)) (start : Records Node) (width : ℕ)
    (base headers : List (Header Node)) : Prop where
  complete : base ⊆ headers
  stale : ∀ c ∈ layersOf headers, ∃ c' ∈ layersOf base, c'.1 = c.1 ∧ c.2.1 ≤ c'.2.1
  verified : ∀ h ∈ headers,
    h.shard ∈ shards ∧ verifyReport h.shard h.report = .ok () ∧ h.report.context = ctx
  agree : ∀ r, Agree (recorded start app r ++ layersOf headers)
  timely : ∀ h ∈ headers, h.report.attestations = [] ∨ env.orphanReplacementFrame ≤ h.frame
  attests : Attestable start app width (attestationsOf headers)

variable {m env app} {ctx : Bytes32} {start s : Records Node} {width : ℕ}
  {layers all : List (Region ℕ × ℕ × Node)} {attestations : List BlockAttestation}

theorem reported_run (hfits : Fits start app all) (hdisjoint : Disjoint (indexOf start app))
    (hplacement : placementWidth start app = .ok width) (hattests : Attestable start app width attestations)
    {done : Finset BlockAttestation} (hattested : Attested start app width attestations s done)
    (h : Reported m env start app ctx s layers) (hverified : ∀ h ∈ headers, verifyReport h.shard h.report = .ok () ∧
      h.report.context = ctx ∧ (h.report.attestations = [] ∨ env.orphanReplacementFrame ≤ h.frame))
    (hsub : layers ++ layersOf headers ⊆ all) (hwithin : attestationsOf headers ⊆ attestations) :
    Reported m env start app ctx (run (receive m env app) s headers).1
        (layers ++ freshIn start app (layersOf headers)) ∧
      ∀ e ∈ (run (receive m env app) s headers).2, ∃ changed, e.2 = .reported changed := by
  induction headers generalizing s layers done with
  | nil => exact ⟨by simpa [layersOf, freshIn] using h, by simp⟩
  | cons header rest ih =>
    obtain ⟨⟨hverify, hcontext, hframe⟩, hverified⟩ := forall_mem_cons.1 hverified
    rw [layersOf, flatMap_cons, ← layersOf, ← append_assoc] at hsub
    rw [attestationsOf, flatMap_cons, append_subset] at hwithin
    obtain ⟨s₁, done₁, hattest, hattested₁⟩ := hattested.run hattests hwithin.1
    obtain ⟨changed, s', hok, hreported, hsame⟩ := reported_step hfits hdisjoint hplacement h hverify hcontext hframe
      hattest hattested₁.placement fun c hc => hsub (mem_append_left _ hc)
    have hreceive : receive m env app s header = (s', .reported changed) := by rw [receive, step, hok]
    have hrest : layers ++ freshIn start app (header.report.subtrees.map (claimOf header.shard)) ++ layersOf rest ⊆
        all := fun c hc =>
      hsub (mem_append.2 ((mem_append.1 hc).imp_left fun hc => append_freshIn_subset _ _ hc))
    obtain ⟨hend, hreplies⟩ := ih (hattested₁.congr (hsame _ id) (fun _ => hsame _ id) (fun _ _ => hsame _ id)
      fun _ _ _ => hsame _ id) hreported hverified hrest hwithin.2
    rw [run_cons, hreceive, layersOf, flatMap_cons, freshIn, filter_append, ← append_assoc]
    exact ⟨hend, forall_mem_cons.2 ⟨⟨changed, rfl⟩, hreplies⟩⟩

omit [DecidableEq Node] in
/-- What is left is determined by the highest layers. -/
theorem Reported.unique {layers' : List (Region ℕ × ℕ × Node)} {s' : Records Node}
    (h : Reported m env start app ctx s layers) (h' : Reported m env start app ctx s' layers')
    (hregions : regions layers = regions layers')
    (hsame : ∀ r, standing start app layers r = standing start app layers' r) : s (.index app) = s' (.index app) ∧
      (∀ width shard, s (.subtree app width shard) = s' (.subtree app width shard)) ∧
      currentRoot app s = currentRoot app s' := by
  -- nothing at the start and no regions: nothing is published
  have hnothing : (∀ a, IsAccumulator app a → start a = none) → ∀ {layers : List (Region ℕ × ℕ × Node)} {index s},
      regions layers = ∅ → Holds start app ctx index s layers → ¬ (start (.index app) ≠ none ∨ index ≠ []) := by
    rintro hnone layers index s hregions holds (hstart | hindex)
    · exact hstart (hnone _ rfl)
    · refine hindex (eq_nil_iff_forall_not_mem.2 fun r hr => ?_)
      rw [holds.mem, mem_indexAfter, hregions, indexOf, hnone (.index app) rfl] at hr
      simp at hr
  cases h with
  | empty nothing h =>
    cases h' with
    | empty _ h' =>
      have hnone : ∀ a, IsAccumulator app a → s a = s' a := fun a ha => (h a ha).trans (h' a ha).symm
      refine ⟨hnone _ rfl, fun _ _ => hnone _ rfl, ?_⟩
      rw [currentRoot, currentRoot, hnone (.rootHistory app) rfl]
    | published something _ holds => exact absurd something (hnothing nothing hregions.symm holds)
  | @published _ index list history _ _ something h holds =>
    cases h' with
    | empty nothing => exact absurd something (hnothing nothing hregions holds)
    | @published _ index' list' history' _ _ _ h' holds' =>
      have hrecord : ∀ r : Region ℕ, s (.subtree app r.1 r.2) = s' (.subtree app r.1 r.2) := fun r => by
        rw [holds.record, holds'.record, hsame]
      obtain rfl : index = index' := eq_of_ascending h.sorted h'.sorted fun r => by
        rw [holds.mem, holds'.mem, hregions]
      have hentries : entrySubtree s app = entrySubtree s' app :=
        funext fun entry => entrySubtree_congr (hrecord entry)
      have hlist := h.entries
      rw [hentries, h'.entries] at hlist
      cases hlist
      have hroot := h.folded.symm.trans h'.folded
      refine ⟨by rw [h.indexed, h'.indexed], fun width shard => hrecord (width, shard), ?_⟩
      rw [currentRoot, currentRoot, h.recorded, h'.recorded]
      dsimp only
      rw [h.published, h'.published, Except.ok.inj hroot]

section
omit [DecidableEq Node]
variable {shards : List (List Bool)} {base : List (Header Node)} (h : Order env app ctx shards start width base headers)
include h

theorem Order.fresh_subset : freshIn start app (layersOf base) ⊆ freshIn start app (layersOf headers) := by
  intro c hc
  obtain ⟨hc, hfresh⟩ := mem_filter.1 hc
  obtain ⟨header, hheader, hc⟩ := mem_flatMap.1 hc
  exact mem_filter.2 ⟨mem_flatMap.2 ⟨header, h.complete hheader, hc⟩, hfresh⟩

variable (hplacement : placementWidth start app = .ok width)
include hplacement

/-- A fresh layer of an order is topped by a fresh one of its base. -/
theorem Order.topped {c : Region ℕ × ℕ × Node} (hc : c ∈ freshIn start app (layersOf headers)) :
    ∃ c' ∈ freshIn start app (layersOf base), c'.1 = c.1 ∧ c.2.1 ≤ c'.2.1 := by
  obtain ⟨hc, hfresh⟩ := mem_filter.1 hc
  obtain ⟨⟨r, v⟩, hc', hr, hle⟩ := h.stale c hc
  obtain rfl : r = c.1 := hr
  obtain ⟨hfrozen, hcoins⟩ := (isFresh_iff hplacement).1 hfresh
  exact ⟨_, mem_filter.2 ⟨hc', (isFresh_iff hplacement).2 ⟨hfrozen, fun x hx => (hcoins x hx).trans hle⟩⟩, rfl, hle⟩

/-- So the layers of an order leave what those of its base leave. -/
theorem Order.standing_eq (r : Region ℕ) : standing start app (freshIn start app (layersOf headers)) r =
    standing start app (freshIn start app (layersOf base)) r := by
  refine highest_eq_of_topped (fun k n v v' hv hv' => h.agree r k n v v' ?_ ?_) (fun c hc => ?_) (fun c hc => ?_) r
  · exact append_freshIn_subset _ _ hv
  · exact append_freshIn_subset _ _ hv'
  · exact mem_append.2 ((mem_append.1 hc).imp_right fun hc => h.fresh_subset hc)
  · rcases mem_append.1 hc with hc | hc
    · exact ⟨c, mem_append_left _ hc, rfl, le_rfl⟩
    · obtain ⟨c', hc', hrest⟩ := h.topped hplacement hc
      exact ⟨c', mem_append_right _ hc', hrest⟩

theorem Order.regions_eq :
    regions (freshIn start app (layersOf headers)) = regions (freshIn start app (layersOf base)) := by
  refine Finset.Subset.antisymm (fun r hr => ?_) (regions_mono (h.fresh_subset))
  obtain ⟨v, hv⟩ := mem_regions.1 hr
  obtain ⟨⟨_, v'⟩, hc', rfl, -⟩ := h.topped hplacement hv
  exact mem_regions.2 ⟨v', hc'⟩

/-- And they fit when those of the base do. -/
theorem Order.fits (hshards : shards.Pairwise Apart) (hroom : Room start app (layersOf base)) :
    Fits start app (layersOf headers) := by
  have hlayer : ∀ c ∈ layersOf headers, c.1.2 ∈ shards ∧ c.1.1 ∈ widths ∧ c.1.2.length ≤ c.1.1 := by
    intro c hc
    obtain ⟨header, hheader, hc⟩ := mem_flatMap.1 hc
    obtain ⟨t, ht, rfl⟩ := mem_map.1 hc
    obtain ⟨hshard, hverify, -⟩ := h.verified header hheader
    exact ⟨hshard, (verifyReport_ok hverify).2 t ht⟩
  refine ⟨fun c hc => (hlayer c hc).2, fun c hc c' hc' hover => ?_, h.agree, ?_⟩
  · refine Prod.ext hover.1 ?_
    rcases hover.2 with hpre | hpre
    · exact eq_of_prefixFree hshards (hlayer c hc).1 (hlayer c' hc').1 hpre (prefix_refl _)
    · exact eq_of_prefixFree hshards (hlayer c hc).1 (hlayer c' hc').1 (prefix_refl _) hpre
  · have hcoins : coinsAt start app (freshIn start app (layersOf headers)) =
        coinsAt start app (freshIn start app (layersOf base)) := by
      funext r
      rw [coinsAt, coinsAt, h.standing_eq hplacement]
    rwa [Room, h.regions_eq hplacement, hcoins]

end

/-- From any accumulator that earlier reports left in the same context, any two orders of reports of
    prefix-free shards — with any repetitions and any stale reports in between — accept every report and
    end with the same index, the same subtree records and the same current root and coin count, when one
    application can hold the reports. -/
theorem reports_in_any_order {shards : List (List Bool)} (hshards : shards.Pairwise Apart)
    {base headers headers' : List (Header Node)} (hready : Ready m env app ctx start)
    (hplacement : placementWidth start app = .ok width) (hroom : Room start app (layersOf base))
    (h : Order env app ctx shards start width base headers)
    (h' : Order env app ctx shards start width base headers') :
    let e := run (receive m env app) start headers
    let e' := run (receive m env app) start headers'
    (∀ r ∈ e.2 ++ e'.2, ∃ changed, r.2 = .reported changed) ∧ e.1 (.index app) = e'.1 (.index app) ∧ (∀ width shard,
        e.1 (.subtree app width shard) = e'.1 (.subtree app width shard)) ∧
      currentRoot app e.1 = currentRoot app e'.1 := by
  intro e e'
  have hrun : ∀ {headers : List (Header Node)}, Order env app ctx shards start width base headers →
      Reported m env start app ctx (run (receive m env app) start headers).1
          (freshIn start app (layersOf headers)) ∧
        ∀ r ∈ (run (receive m env app) start headers).2, ∃ changed, r.2 = .reported changed := fun h =>
    reported_run (h.fits hplacement hshards hroom) hready.disjoint hplacement h.attests (attested_start hplacement _)
      hready.reported (fun x hx => ⟨(h.verified x hx).2.1, (h.verified x hx).2.2, h.timely x hx⟩)
      (List.Subset.refl _) (List.Subset.refl _)
  obtain ⟨hend, hreplies⟩ := hrun h
  obtain ⟨hend', hreplies'⟩ := hrun h'
  refine ⟨fun r hr => (mem_append.1 hr).elim (hreplies r) (hreplies' r), hend.unique hend' ?_ fun r => ?_⟩
  · rw [h.regions_eq hplacement, h'.regions_eq hplacement]
  · rw [h.standing_eq hplacement, h'.standing_eq hplacement]

end

/-! ### A shard of one application, split in two -/

/-- A header of application 1 that reports one layer. -/
def oneLayer (frame : ℕ) (shard : List Bool) (width coins root : ℕ) (attestations : List BlockAttestation) : Header ℕ :=
  ⟨frame, shard, ⟨0, [⟨width, coins, root⟩], attestations⟩⟩

/-- A compression of small numbers, and their digests. -/
def smallMembership : Membership ℕ := ⟨0, fun _ left right => (left + 2 * right + 1) % 97⟩

def smallEnv : Env ℕ := ⟨0, 0, fun _ _ root => BitVec.ofNat 256 root⟩

/-- The records after some headers of application 1. -/
def after (start : Records ℕ) (headers : List (Header ℕ)) : Records ℕ :=
  (run (receive smallMembership smallEnv 1) start headers).1

/-- A shard, and the two it is split into. -/
def parent : List Bool := List.replicate 6 false

def left : List Bool := parent ++ [false]

def right : List Bool := parent ++ [true]

def parentReport : Call ℕ := .report 1 1 parent (some ⟨0, [⟨7, 1, 4⟩], []⟩)

/-- The records when the shard is split: it has reported one coin, and its block of width 6 is marked
    with one coin committed. -/
def atSplit : Records ℕ :=
  ((((run (step smallMembership smallEnv) Store.empty [parentReport]).1.write
    (.placementWidth 1) (.placementWidth 7)).write (.sequence .coin 1 64) (.sequence .coin 1)).write
    (.delivery .coin 1 64 0) (.delivery .coin ⟨0, 1, 0, ⟨0, 0⟩⟩)).write (.orphan 1 64) (.orphan ⟨1, false, 0, 0⟩)

/-- A report of each child, the first of which attests the block, and an older one of the first, out of
    order and repeated. -/
def base : List (Header ℕ) := [oneLayer 3 left 7 2 5 [⟨64, 0, 0⟩], oneLayer 2 right 7 1 6 []]

def inOrder : List (Header ℕ) := oneLayer 2 left 7 1 3 [] :: base

def outOfOrder : List (Header ℕ) := base.reverse ++ inOrder

/-- Its accumulator is the one the parent's report left. -/
theorem atSplit_ready : Ready smallMembership smallEnv 1 0 atSplit := by
  have h : Ready smallMembership smallEnv 1 0 (run (step smallMembership smallEnv) Store.empty [parentReport]).1 :=
    ready_run _ (by rintro _ _ ⟨⟩; rfl)
  have hsame : ∀ a, IsAccumulator 1 a →
      atSplit a = (run (step smallMembership smallEnv) Store.empty [parentReport]).1 a := by
    intro a ha
    rw [atSplit, Store.write_other (ha.ne id), Store.write_other (ha.ne id), Store.write_other (ha.ne id),
      Store.write_other (ha.ne id)]
  obtain ⟨ledger, heard, hsettled⟩ := h.settled
  exact ⟨h.toReadable.congr hsame, ⟨ledger, heard, hsettled.congr hsame⟩, fun c index hi =>
    h.context c index (by rw [← hsame (.index 1) rfl, hi])⟩

theorem recorded_atSplit (r : Region ℕ) : recorded atSplit 1 r ⊆ [((7, parent), 1, 4)] := by
  by_cases hr : r = (7, parent)
  · subst hr
    exact List.Subset.refl _
  obtain ⟨index, history, hrun⟩ : ∃ index history,
      (run (step smallMembership smallEnv) Store.empty [parentReport]).1 =
        ((Store.empty.write (.subtree 1 7 parent) (.subtree ⟨0, 1, 4⟩)).write (.index 1) index).write
          (.rootHistory 1) history := ⟨_, _, rfl⟩
  have hne : RecordAddress.subtree 1 r.1 r.2 ≠ .subtree 1 7 parent := by
    intro heq
    injection heq with _ hwidth hshard
    exact hr (Prod.ext hwidth hshard)
  rw [recorded, atSplit, Store.write_other, Store.write_other, Store.write_other, Store.write_other, hrun,
    Store.write_other, Store.write_other, Store.write_other hne]
  exact nil_subset _

/-- What is committed at the split: one coin in the marked block. -/
def committedAtSplit (lane : Lane) (block : ℕ) : List Delivery :=
  if lane = .coin ∧ block = 64 then [⟨0, 1, 0, ⟨0, 0⟩⟩] else []

theorem length_committedAtSplit (lane : Lane) (block : ℕ) : (committedAtSplit lane block).length ≤ 1 := by
  rw [committedAtSplit]
  split_ifs <;> simp

theorem atSplit_tracks (lane : Lane) : DeliveryQueues.Tracks lane 1 atSplit (committedAtSplit lane) := by
  by_cases hlane : lane = .coin
  · subst hlane
    have hnone : ∀ b i, ¬ (b = 64 ∧ i = 0) → atSplit (.delivery .coin 1 b i) = none := fun b i hne => by
      rw [atSplit, Store.write_other, Store.write_other (by simpa using hne)]
      rfl
    refine ⟨fun b => ?_, fun b i d hi => ?_, fun b i hi => .inl (hnone b i ?_)⟩
    · by_cases hb : b = 64
      · subst hb
        rfl
      · have hb' : atSplit (.sequence .coin 1 b) = none := by
          rw [atSplit, Store.write_other, Store.write_other, Store.write_other (by simpa using hb)]
          rfl
        rw [laneSequence, read_eq_ok_none.2 hb', committedAtSplit, if_neg (by simp [hb])]
        rfl
    · rw [committedAtSplit] at hi
      split_ifs at hi with hb
      · obtain ⟨hi0, rfl⟩ := List.getElem?_eq_some_iff.1 hi
        obtain rfl : i = 0 := by simpa using hi0
        rw [hb.2]
        rfl
      · simp at hi
    · rintro ⟨rfl, rfl⟩
      exact absurd hi (by decide)
  · obtain rfl : lane = .escrow := by
      cases lane
      · exact absurd rfl hlane
      · rfl
    have hnil : ∀ b, committedAtSplit .escrow b = [] := fun b => if_neg (by simp)
    exact ⟨fun b => by rw [hnil]; rfl, fun b i d hi => by simp [hnil] at hi, fun b i _ => .inl rfl⟩

/-- The marked block is attested with what it received, and what moves has room. -/
theorem atSplit_attestable {attestations : List BlockAttestation} (h : ∀ a ∈ attestations, a = ⟨64, 0, 0⟩) :
    Attestable atSplit 1 7 attestations := by
  have hretiring : ∀ a ∈ retiring atSplit 1 attestations, a = ⟨64, 0, 0⟩ := fun a ha => h a (mem_retiring.1 ha).1
  refine ⟨fun a ha => ?_, fun a ha a' ha' _ => ?_, fun a ha => ?_, fun _ lane => ⟨_, atSplit_tracks lane,
    fun a ha => ?_, fun target _ => ?_⟩⟩
  · rw [h a ha]
    exact .inr ⟨_, rfl, nofun⟩
  · rw [hretiring a ha, hretiring a' ha']
  · rw [hretiring a ha]
    decide
  · rw [hretiring a ha]
    cases lane <;> exact Nat.zero_le _
  · have hmoved : ∑ a ∈ retiring atSplit 1 attestations, share lane 7 (committedAtSplit lane) target a ≤ 1 := by
      have hsub : retiring atSplit 1 attestations ⊆ {⟨64, 0, 0⟩} := fun a ha =>
        Finset.mem_singleton.2 (hretiring a ha)
      refine (Finset.sum_le_sum_of_subset hsub).trans ?_
      rw [Finset.sum_singleton, share]
      exact countP_le_length.trans ((drop_sublist _ _).length_le.trans (length_committedAtSplit lane 64))
    have hfits : 1 + 1 ≤ BLOCK_CAPACITY := by decide
    exact (Nat.add_le_add (length_committedAtSplit lane target) hmoved).trans hfits

theorem order_of_layers (headers : List (Header ℕ)) (hcomplete : base ⊆ headers) (hsub : headers ⊆ inOrder) :
    Order smallEnv 1 0 [left, right] atSplit 7 base headers := by
  have hlayers : layersOf headers ⊆ layersOf inOrder := fun c hc => by
    obtain ⟨h, hh, hc⟩ := mem_flatMap.1 hc
    exact mem_flatMap.2 ⟨h, hsub hh, hc⟩
  have hagree : ∀ c ∈ ((7, parent), 1, 4) :: layersOf inOrder, ∀ c' ∈ ((7, parent), 1, 4) :: layersOf inOrder,
      c.1 = c'.1 → c.2.1 = c'.2.1 → c.2.2 = c'.2.2 := by decide
  have htopped : ∀ c ∈ layersOf inOrder, ∃ c' ∈ layersOf base, c'.1 = c.1 ∧ c.2.1 ≤ c'.2.1 := by decide
  have hattest : ∀ h ∈ inOrder, ∀ a ∈ h.report.attestations, a = ⟨64, 0, 0⟩ := by decide
  refine ⟨hcomplete, fun c hc => htopped c (hlayers hc), fun h hh => ?_, fun r k n v v' hv hv' => ?_,
    fun h hh => .inr (Nat.zero_le _), atSplit_attestable fun a ha => ?_⟩
  · have hmem := hsub hh
    fin_cases hmem <;> exact ⟨by decide, rfl, rfl⟩
  · have hall : recorded atSplit 1 r ++ layersOf headers ⊆ ((7, parent), 1, 4) :: layersOf inOrder :=
      append_subset.2 ⟨fun c hc => by rw [mem_singleton.1 (recorded_atSplit r hc)]; exact mem_cons_self,
        fun c hc => mem_cons_of_mem _ (hlayers hc)⟩
    exact hagree _ (hall hv) _ (hall hv') rfl rfl
  · obtain ⟨h, hh, ha⟩ := mem_flatMap.1 ha
    exact hattest h (hsub hh) a ha

/-- Both orders displace the parent's layer by the children's three coins, and retire the block. -/
theorem two_shards_in_any_order :
    after atSplit inOrder (.index 1) = after atSplit outOfOrder (.index 1) ∧
      after atSplit inOrder (.index 1) = some (.index 0 [(7, left), (7, right)]) ∧
      currentRoot 1 (after atSplit inOrder) = currentRoot 1 (after atSplit outOfOrder) ∧
      (currentRoot 1 (after atSplit inOrder)).map RootRecord.coins = some 3 ∧
      after atSplit outOfOrder (.orphan 1 64) = some (.orphan ⟨1, true, 0, 0⟩) := by
  have horder := order_of_layers inOrder (by simp [inOrder]) (List.Subset.refl _)
  have horder' := order_of_layers outOfOrder (by simp [outOfOrder, inOrder])
    (by simp [outOfOrder, inOrder, base])
  have hroom : Room atSplit 1 (layersOf base) := by
    unfold Room
    decide +kernel
  obtain ⟨-, hindex, -, hroot⟩ := reports_in_any_order (m := smallMembership) (by decide) atSplit_ready
    (show placementWidth atSplit 1 = .ok 7 from rfl) hroom horder horder'
  exact ⟨hindex, by decide +kernel, hroot, by decide +kernel, by decide +kernel⟩

/-- Reports that differ in their root at equal coins, that together exceed what a root record can count,
    or that attest a marked block with different counts, are accepted or refused by who comes first. -/
theorem first_report_wins :
    (∀ h ∈ [oneLayer 1 [] 6 1 5 [], oneLayer 2 [] 6 1 7 [], oneLayer 1 [] 6 (2 ^ 32) 5 [],
      oneLayer 2 [] 7 1 7 [], oneLayer 1 left 7 2 5 [⟨64, 0, 0⟩], oneLayer 2 left 7 3 7 [⟨64, 1, 0⟩]],
      verifyReport h.shard h.report = .ok ()) ∧
    after .empty [oneLayer 1 [] 6 1 5 [], oneLayer 2 [] 6 1 7 []] (.subtree 1 6 []) ≠
      after .empty [oneLayer 2 [] 6 1 7 [], oneLayer 1 [] 6 1 5 []] (.subtree 1 6 []) ∧
    after .empty [oneLayer 1 [] 6 (2 ^ 32) 5 [], oneLayer 2 [] 7 1 7 []] (.index 1) ≠
      after .empty [oneLayer 2 [] 7 1 7 [], oneLayer 1 [] 6 (2 ^ 32) 5 []] (.index 1) ∧
    after atSplit [oneLayer 1 left 7 2 5 [⟨64, 0, 0⟩], oneLayer 2 left 7 3 7 [⟨64, 1, 0⟩]] (.subtree 1 7 left) ≠
      after atSplit [oneLayer 2 left 7 3 7 [⟨64, 1, 0⟩], oneLayer 1 left 7 2 5 [⟨64, 0, 0⟩]] (.subtree 1 7 left) := by
  refine ⟨?_, ?_, ?_, ?_⟩
  · intro h hh
    fin_cases hh <;> rfl
  · decide +kernel
  · decide +kernel
  · decide +kernel

end Quil.ReportOrder
