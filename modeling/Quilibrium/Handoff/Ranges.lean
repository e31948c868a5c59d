import Quilibrium.Handoff.Sessions
import Quilibrium.Schemes.Coverage

/-! What a request's ranges SERVE. `partition` accepts the lists of shard filters that belong to one application
    and of which none contains another, and merges their paths to a normal form; so it answers the same for two
    lists exactly when they serve the same addresses, and a valid request replaces what it closes by targets that
    serve the same addresses, each once. -/

namespace Quil.Handoff
open Schemes ShardFilters VertexTrees List

/-! ### Paths in order -/

variable {p : List Bool}

theorem cons_le_cons_path {x y : Bool} {r : List Bool} : x :: p ≤ y :: r ↔ x < y ∨ x = y ∧ p ≤ r := by
  rw [← not_lt, ← not_lt, cons_lt_cons_iff]
  rcases lt_trichotomy x y with h | rfl | h
  · simp [h, h.asymm, h.ne']
  · simp
  · simp [h, h.asymm, h.ne']

variable {q : List Bool}

/-- What stands between a path and one it begins, it begins too. -/
theorem prefix_of_between {r : List Bool} (hpq : p <+: q) (hpr : p ≤ r) (hrq : r ≤ q) : p <+: r := by
  induction p generalizing q r with
  | nil => exact nil_prefix
  | cons x p ih =>
    obtain ⟨rest, rfl⟩ := hpq
    rcases r with _ | ⟨y, r⟩
    · exact absurd hpr (not_le.2 (nil_lt_cons x p))
    rw [cons_append, cons_le_cons_path] at hrq
    rw [cons_le_cons_path] at hpr
    rcases hpr with hxy | ⟨rfl, hpr⟩
    · rcases hrq with hyx | ⟨rfl, -⟩
      · exact absurd (hxy.trans hyx) (lt_irrefl x)
      · exact absurd hxy (lt_irrefl y)
    rcases hrq with hlt | ⟨-, hrq⟩
    · exact absurd hlt (lt_irrefl x)
    · exact cons_prefix_cons.2 ⟨rfl, ih (prefix_append p rest) hpr hrq⟩

theorem le_of_isPrefix (h : p <+: q) : p ≤ q := by
  induction p generalizing q with
  | nil => exact not_lt.1 (not_lt_nil q)
  | cons x p ih =>
    obtain ⟨rest, rfl⟩ := h
    exact cons_le_cons_path.2 (.inr ⟨rfl, ih (prefix_append p rest)⟩)

theorem exists_address {w : ℕ} (h : q.length ≤ w) : ∃ a : List Bool, a.length = w ∧ q <+: a :=
  ⟨q ++ .replicate (w - q.length) false, by simp [h], prefix_append q _⟩

variable {path : List Bool} {paths : List (List Bool)}

theorem mem_insertPath : q ∈ insertPath path paths ↔ q = path ∨ q ∈ paths := by
  rw [insertPath]
  split_ifs with h
  · exact ⟨.inr, fun hq => hq.elim (fun he => he ▸ h) id⟩
  · exact mem_orderedInsert _

/-- Strictly in order. -/
def InOrder (paths : List (List Bool)) : Prop := paths.Pairwise (· ≤ ·) ∧ paths.Nodup

theorem inOrder_insertPath (h : InOrder paths) : InOrder (insertPath path paths) := by
  rw [insertPath]
  split_ifs with hmem
  · exact h
  · refine ⟨h.1.orderedInsert path paths, ?_⟩
    exact (perm_orderedInsert _ path paths).nodup_iff.2 (nodup_cons.2 ⟨hmem, h.2⟩)

/-- Paths in order with the same members are the same. -/
theorem InOrder.ext {paths' : List (List Bool)} (h : InOrder paths) (h' : InOrder paths')
    (hmem : ∀ q, q ∈ paths ↔ q ∈ paths') : paths = paths' := by
  have hperm := (perm_ext_iff_of_nodup h.2 h'.2).2 hmem
  exact hperm.eq_of_pairwise (fun a b _ _ hab hba => le_antisymm hab hba) h.1 h'.1

theorem pairwise_apart_iff {qs : List (List Bool)} : qs.Pairwise Apart ↔ qs.Nodup ∧ PrefixFree qs := by
  constructor
  · intro h
    refine ⟨h.imp ?_, fun p hp q hq hpq => ?_⟩
    · rintro p _ hap rfl
      exact apart_irrefl p hap
    · exact eq_of_prefixFree h hp hq hpq (prefix_refl q)
  · rintro ⟨hnodup, hfree⟩
    refine hnodup.imp_of_mem fun hp hq hne => ?_
    exact ⟨fun h => hne (hfree _ hp _ hq h), fun h => hne (hfree _ hq _ hp h).symm⟩

/-- In order, no path begins the next exactly when none begins another. -/
theorem hasNested_iff (h : InOrder paths) : hasNested paths = false ↔ PrefixFree paths := by
  induction paths with
  | nil => simp [hasNested, PrefixFree]
  | cons p paths ih =>
    have htail : InOrder paths := ⟨h.1.tail, (nodup_cons.1 h.2).2⟩
    have hle : ∀ q ∈ paths, p ≤ q := (pairwise_cons.1 h.1).1
    have hnot : p ∉ paths := (nodup_cons.1 h.2).1
    constructor
    · intro hnest
      have hrest : hasNested paths = false := by
        rcases paths with _ | ⟨q, paths⟩
        · rfl
        rw [hasNested, Bool.or_eq_false_iff] at hnest
        exact hnest.2
      have hfree := (ih htail).1 hrest
      have hbegins : ∀ q ∈ paths, ¬ p <+: q := by
        intro q hq hpq
        rcases paths with _ | ⟨r, paths⟩
        · cases hq
        rw [hasNested, Bool.or_eq_false_iff] at hnest
        have hrq : r ≤ q := by
          rcases mem_cons.1 hq with rfl | hq
          · exact le_refl q
          · exact (pairwise_cons.1 htail.1).1 q hq
        have := prefix_of_between hpq (hle r mem_cons_self) hrq
        rw [← isPrefixOf_iff_prefix, hnest.1] at this
        cases this
      refine (pairwise_apart_iff.1 (pairwise_cons.2 ⟨fun q hq => ⟨hbegins q hq, fun hqp => hnot ?_⟩,
        pairwise_apart_iff.2 ⟨htail.2, hfree⟩⟩)).2
      exact le_antisymm (le_of_isPrefix hqp) (hle q hq) ▸ hq
    · intro hfree
      have hrest := (ih htail).2 fun q hq q' hq' => hfree q (mem_cons_of_mem _ hq) q' (mem_cons_of_mem _ hq')
      rcases paths with _ | ⟨q, paths⟩
      · rfl
      rw [hasNested, hrest, Bool.or_false, Bool.eq_false_iff]
      intro hpq
      have heq := hfree p mem_cons_self q (mem_cons_of_mem _ mem_cons_self) ( isPrefixOf_iff_prefix.1 hpq)
      exact hnot (heq ▸ mem_cons_self)

/-! ### Merging -/

/-- A parent is found exactly where two siblings are. -/
theorem siblingParent_some (h : siblingParent paths = some p) : p ++ [false] ∈ paths ∧ p ++ [true] ∈ paths := by
  obtain ⟨path, hpath, heq⟩ := exists_of_findSome?_eq_some h
  split_ifs at heq with hcond
  cases heq
  refine ⟨?_, hcond.2⟩
  obtain ⟨rest, rfl⟩ := getLast?_eq_some_iff.1 hcond.1
  rwa [dropLast_concat]

theorem siblingParent_none (h : siblingParent paths = none) : SiblingFree paths := by
  rintro p ⟨hleft, hright⟩
  have hnone := findSome?_eq_none_iff.1 h _ hleft
  rw [getLast?_concat, dropLast_concat, if_pos ⟨rfl, hright⟩] at hnone
  cases hnone

/-- Paths that can be merged: in order, prefix-free, no longer than an address. -/
structure Mergeable (w : ℕ) (paths : List (List Bool)) : Prop where
  inOrder : InOrder paths
  prefixFree : PrefixFree paths
  bounded : ∀ p ∈ paths, p.length ≤ w

/-- One merge: one path fewer, the same addresses. -/
theorem Mergeable.merge {w : ℕ} (h : Mergeable w paths) (hp : siblingParent paths = some p) :
    let merged := insertPath p ((paths.erase (p ++ [false])).erase (p ++ [true]))
    Mergeable w merged ∧ merged.length < paths.length ∧
      ∀ a : List Bool, a.length = w → (CoversPath merged a ↔ CoversPath paths a) := by
  intro merged
  obtain ⟨hleft, hright⟩ := siblingParent_some hp
  have hnodup := h.inOrder.2
  have hsub : List.Sublist ((paths.erase (p ++ [false])).erase (p ++ [true])) paths :=
    erase_sublist.trans erase_sublist
  have hmem : Merges paths p merged := by
    intro q
    rw [mem_insertPath, (hnodup.erase _).mem_erase_iff, hnodup.mem_erase_iff]
    tauto
  have hlen : p.length < w := by
    have := h.bounded _ hleft
    rw [length_append, length_singleton] at this
    omega
  refine ⟨⟨inOrder_insertPath ⟨h.inOrder.1.sublist hsub, hnodup.sublist hsub⟩,
    hmem.prefixFree hleft hright h.prefixFree, fun q hq => ?_⟩, ?_, fun a ha => hmem.coversPath hleft hright (by omega)⟩
  · rcases (hmem q).1 hq with rfl | ⟨hq, -⟩
    · exact hlen.le
    · exact h.bounded q hq
  have hright' : p ++ [true] ∈ paths.erase (p ++ [false]) := hnodup.mem_erase_iff.2 ⟨by simp, hright⟩
  have h₁ := length_erase_of_mem hleft
  have h₂ := length_erase_of_mem hright'
  have hpos := length_pos_of_mem hright'
  have hins : merged.length ≤ ((paths.erase (p ++ [false])).erase (p ++ [true])).length + 1 := by
    change (insertPath p _).length ≤ _
    rw [insertPath]
    split_ifs
    · exact Nat.le_succ _
    · rw [orderedInsert_length]
  omega

/-- Merging ends in a normal form of the same addresses. -/
theorem mergeSiblings_spec {w : ℕ} (fuel : ℕ) : ∀ {paths : List (List Bool)}, paths.length ≤ fuel → Mergeable w paths →
    InOrder (mergeSiblings fuel paths) ∧ NormalForm w (mergeSiblings fuel paths) ∧
      ∀ a : List Bool, a.length = w → (CoversPath (mergeSiblings fuel paths) a ↔ CoversPath paths a) := by
  induction fuel with
  | zero =>
    intro paths hlen h
    have hnil := length_eq_zero_iff.1 (Nat.le_zero.1 hlen)
    refine ⟨h.inOrder, ⟨h.prefixFree, h.bounded, fun p hp => ?_⟩, fun a _ => Iff.rfl⟩
    rw [mergeSiblings, hnil] at hp
    cases hp.1
  | succ fuel ih =>
    intro paths hlen h
    rw [mergeSiblings]
    rcases hparent : siblingParent paths with _ | p
    · exact ⟨h.inOrder, ⟨h.prefixFree, h.bounded, siblingParent_none hparent⟩, fun a _ => Iff.rfl⟩
    obtain ⟨hmerged, hless, hcover⟩ := h.merge hparent
    obtain ⟨hord, hnormal, hcover'⟩ := ih (by omega) hmerged
    exact ⟨hord, hnormal, fun a ha => (hcover' a ha).trans (hcover a ha)⟩

/-! ### Filters -/

/-- The path of a shard filter: of an application and a path within an address, a legacy index within the 64-way
    grid. -/
def filterPath (filter : Bytes) : Option (List Bool) :=
  if filter.length < 32 ∨ filter.length = 33 ∧ 64 ≤ (filter.getD 32 0).toNat then none
  else ((decodeShardFilterOrRoot filter 32).map Prod.snd).filter fun path => path.length ≤ 256

theorem length_filterPath {filter : Bytes} (h : filterPath filter = some path) : path.length ≤ 256 := by
  rw [filterPath] at h
  split_ifs at h
  simpa using (Option.filter_eq_some_iff.1 h).2

variable {app : Bytes}

theorem addFilter_ok {filter : Bytes} {paths' : List (List Bool)} : addFilter app paths filter = .ok paths' ↔
      filter.take 32 = app ∧ ∃ path, filterPath filter = some path ∧ path ∉ paths ∧ paths' = insertPath path paths := by
  rw [addFilter, filterPath]
  by_cases hshort : filter.length < 32
  · simp [hshort]
  by_cases happ : filter.take 32 = app
  swap
  · simp [happ]
  by_cases hlegacy : filter.length = 33 ∧ 64 ≤ (filter.getD 32 0).toNat
  · simp only [happ, hlegacy]
    simp
  rw [if_neg (by tauto), if_neg hlegacy, if_neg (by tauto)]
  rcases decodeShardFilterOrRoot filter 32 with _ | ⟨app', path⟩
  · simp
  by_cases hlen : 256 < path.length
  · simp [hlen, Option.filter]
  by_cases hmem : path ∈ paths
  · simp [hlen, hmem, Option.filter, not_lt.1 hlen, happ]
  · simp [hlen, hmem, Option.filter, not_lt.1 hlen, happ, eq_comm]

/-- Filters of one application with different paths are added, and no others. -/
theorem foldlM_addFilter_ok (filters : List Bytes) : ∀ {paths paths' : List (List Bool)},
    filters.foldlM (addFilter app) paths = .ok paths' ↔ (∀ f ∈ filters, f.take 32 = app) ∧
      ∃ qs : List (List Bool), filters.map filterPath = qs.map some ∧ qs.Nodup ∧ (∀ q ∈ qs, q ∉ paths) ∧
        paths' = qs.foldl (fun paths q => insertPath q paths) paths := by
  induction filters with
  | nil =>
    intro paths paths'
    constructor
    · rintro ⟨⟩
      exact ⟨by simp, [], rfl, nodup_nil, by simp, rfl⟩
    · rintro ⟨-, qs, hqs, -, -, rfl⟩
      rw [map_nil, eq_comm, map_eq_nil_iff] at hqs
      rw [hqs]
      rfl
  | cons f filters ih =>
    intro paths paths'
    rw [foldlM_cons, bind_eq_ok]
    constructor
    · rintro ⟨paths₁, hadd, hrest⟩
      obtain ⟨hf, q, hq, hnot, rfl⟩ := addFilter_ok.1 hadd
      obtain ⟨happ, qs, hqs, hnodup, hfresh, rfl⟩ := ih.1 hrest
      refine ⟨forall_mem_cons.2 ⟨hf, happ⟩, q :: qs, by simp [hq, hqs], nodup_cons.2 ⟨?_, hnodup⟩, ?_, rfl⟩
      · exact fun hmem => hfresh q hmem (mem_insertPath.2 (Or.inl rfl))
      · exact forall_mem_cons.2 ⟨hnot, fun r hr hmem => hfresh r hr (mem_insertPath.2 (Or.inr hmem))⟩
    · rintro ⟨happ, qs, hqs, hnodup, hfresh, rfl⟩
      rcases qs with _ | ⟨q, qs⟩
      · simp at hqs
      rw [map_cons, map_cons, cons.injEq] at hqs
      obtain ⟨hq, hqs⟩ := hqs
      obtain ⟨hnot, hnodup⟩ := nodup_cons.1 hnodup
      refine ⟨insertPath q paths, addFilter_ok.2 ⟨happ f mem_cons_self, q, hq, hfresh q mem_cons_self, rfl⟩,
        ih.2 ⟨fun f hf => happ f (mem_cons_of_mem _ hf), qs, hqs, hnodup, fun r hr hmem => ?_, rfl⟩⟩
      rcases mem_insertPath.1 hmem with rfl | hmem
      · exact hnot hr
      · exact hfresh r (mem_cons_of_mem _ hr) hmem

theorem foldl_insertPath (qs : List (List Bool)) : ∀ {paths : List (List Bool)}, InOrder paths →
    InOrder (qs.foldl (fun paths q => insertPath q paths) paths) ∧
      ∀ r, r ∈ qs.foldl (fun paths q => insertPath q paths) paths ↔ r ∈ qs ∨ r ∈ paths := by
  induction qs with
  | nil => exact fun h => ⟨h, by simp⟩
  | cons q qs ih =>
    intro paths h
    obtain ⟨hord, hmem⟩ := ih (@inOrder_insertPath q paths h)
    refine ⟨hord, fun r => ?_⟩
    rw [foldl_cons, hmem, mem_insertPath, mem_cons]
    tauto

/-! ### What filters serve -/

/-- An address of an application is served by one of the filters. -/
def Serves (filters : List Bytes) (app : Bytes) (address : Bytes32) : Prop :=
  ∃ f ∈ filters, f.take 32 = app ∧ ∃ path, filterPath f = some path ∧ path <+: pathOf 256 address.toNat

/-- Shard filters of one application of which none contains another. -/
structure OnePartition (filters : List Bytes) : Prop where
  shards : ∀ f ∈ filters, filterPath f ≠ none
  oneApp : ∃! app, ∀ f ∈ filters, f.take 32 = app
  apart : filters.Pairwise fun f g => ∀ p q, filterPath f = some p → filterPath g = some q → Apart p q

variable {filters : List Bytes}

theorem exists_paths (h : ∀ f ∈ filters, filterPath f ≠ none) :
    ∃ qs : List (List Bool), filters.map filterPath = qs.map some := by
  refine ⟨filters.map fun f => (filterPath f).getD [], ?_⟩
  rw [map_map]
  refine map_congr_left fun f hf => ?_
  obtain ⟨q, hq⟩ := Option.ne_none_iff_exists'.1 (h f hf)
  rw [Function.comp_apply, hq, Option.getD_some]

/-- The filters are apart exactly when their paths are. -/
theorem apart_paths_iff {qs : List (List Bool)} (hqs : filters.map filterPath = qs.map some) :
    (filters.Pairwise fun f g => ∀ p q, filterPath f = some p → filterPath g = some q → Apart p q) ↔
      qs.Pairwise Apart := by
  have hpaths := pairwise_map (f := filterPath) (l := filters)
    (R := fun o o' => ∀ p q, o = some p → o' = some q → Apart p q)
  rw [← hpaths, hqs, pairwise_map]
  simp

/-- An accepted list: its application and the normal form of its paths. -/
theorem partition_ok_iff : partition filters = .ok (app, paths) ↔ filters ≠ [] ∧ (∀ f ∈ filters, f.take 32 = app) ∧
      ∃ qs : List (List Bool), filters.map filterPath = qs.map some ∧ qs.Pairwise Apart ∧
        ∃ sorted, InOrder sorted ∧ (∀ q, q ∈ sorted ↔ q ∈ qs) ∧ paths = mergeSiblings sorted.length sorted := by
  rcases filters with _ | ⟨f, filters⟩
  · simp [partition]
  have hnil : InOrder [] := ⟨List.Pairwise.nil, nodup_nil⟩
  rw [partition]
  constructor
  · intro h
    split_ifs at h with hshort
    obtain ⟨sorted, hfold, h⟩ := bind_ok h
    obtain ⟨happ, qs, hqs, hnodup, -, rfl⟩ := (foldlM_addFilter_ok _).1 hfold
    obtain ⟨hord, hmem⟩ := foldl_insertPath qs hnil
    have hmem' : ∀ q, q ∈ qs.foldl (fun paths q => insertPath q paths) [] ↔ q ∈ qs := fun q => by simp [hmem]
    split_ifs at h with hnest
    cases h
    have hfree := (hasNested_iff hord).1 (Bool.not_eq_true _ ▸ hnest)
    refine ⟨cons_ne_nil _ _, happ, qs, hqs, pairwise_apart_iff.2 ⟨hnodup, ?_⟩, _, hord, hmem', rfl⟩
    exact fun p hp q hq => hfree p ((hmem' p).2 hp) q ((hmem' q).2 hq)
  · rintro ⟨-, happ, qs, hqs, hapart, sorted, hord, hmem, rfl⟩
    obtain ⟨hnodup, hfree⟩ := pairwise_apart_iff.1 hapart
    have hf : filterPath f ≠ none := by
      have : filterPath f ∈ qs.map some := hqs ▸ mem_cons_self
      obtain ⟨q, -, hq⟩ := mem_map.1 this
      rw [← hq]
      exact Option.some_ne_none q
    have hlong : ¬ f.length < 32 := fun hshort => hf (by rw [filterPath, if_pos (.inl hshort)])
    have happf := happ f mem_cons_self
    have hfold := (@foldlM_addFilter_ok app (f :: filters) [] _).2
      ⟨happ, qs, hqs, hnodup, fun q _ => not_mem_nil, rfl⟩
    obtain ⟨hord', hmem'⟩ := foldl_insertPath qs hnil
    have heq : qs.foldl (fun paths q => insertPath q paths) [] = sorted :=
      hord'.ext hord fun q => by rw [hmem', hmem]; simp
    rw [heq] at hfold
    have hnest : hasNested sorted = false :=
      (hasNested_iff hord).2 fun p hp q hq => hfree p ((hmem p).1 hp) q ((hmem q).1 hq)
    rw [if_neg hlong, happf, hfold, ok_bind, hnest]
    rfl

/-- What an accepted list serves, by its normal form. -/
theorem partition_spec
    (h : partition filters = .ok (app, paths)) : InOrder paths ∧ NormalForm 256 paths ∧ paths ≠ [] ∧
      ∀ app' (address : Bytes32), Serves filters app' address ↔ app' = app ∧ CoversPath paths (pathOf 256 address.toNat) := by
  obtain ⟨hne, happ, qs, hqs, hapart, sorted, hord, hmem, rfl⟩ := partition_ok_iff.1 h
  have hpath : ∀ q, q ∈ qs ↔ ∃ f ∈ filters, filterPath f = some q := fun q => by
    rw [← mem_map, hqs]
    exact (mem_map_of_injective (Option.some_injective _)).symm
  have hmergeable : Mergeable 256 sorted := by
    refine ⟨hord, fun p hp q hq => (pairwise_apart_iff.1 hapart).2 p ((hmem p).1 hp) q ((hmem q).1 hq), fun p hp => ?_⟩
    obtain ⟨f, -, hf⟩ := (hpath p).1 ((hmem p).1 hp)
    exact length_filterPath hf
  obtain ⟨hord', hnormal, hcover⟩ := mergeSiblings_spec sorted.length le_rfl hmergeable
  have hserves : ∀ app' (address : Bytes32), Serves filters app' address ↔
      app' = app ∧ CoversPath (mergeSiblings sorted.length sorted) (pathOf 256 address.toNat) := by
    intro app' address
    rw [hcover _ (length_pathOf _ _)]
    constructor
    · rintro ⟨f, hf, rfl, path, hp, hpre⟩
      exact ⟨happ f hf, path, (hmem path).2 ((hpath path).2 ⟨f, hf, hp⟩), hpre⟩
    · rintro ⟨rfl, path, hp, hpre⟩
      obtain ⟨f, hf, hfp⟩ := (hpath path).1 ((hmem path).1 hp)
      exact ⟨f, hf, happ f hf, path, hfp, hpre⟩
  refine ⟨hord', hnormal, fun hnil => ?_, hserves⟩
  obtain ⟨f, filters, rfl⟩ := exists_cons_of_ne_nil hne
  rcases qs with _ | ⟨q, qs⟩
  · simp at hqs
  have hq : q ∈ sorted := (hmem q).2 mem_cons_self
  obtain ⟨a, ha, hqa⟩ := exists_address (hmergeable.bounded q hq)
  obtain ⟨p, hp, -⟩ := (hcover a ha).2 ⟨q, hq, hqa⟩
  rw [hnil] at hp
  cases hp

/-- `partition` accepts the prefix-free lists of shard filters of one application; it gives the same for two of them
    exactly when they serve the same addresses; and a valid request serves the same addresses before and after, with
    no two targets that serve one address. -/
theorem partition_decides_range :
    (∀ filters, (∃ range, partition filters = .ok range) ↔ OnePartition filters) ∧
    (∀ filters filters' range range', partition filters = .ok range → partition filters' = .ok range' →
      (range = range' ↔ ∀ app address, Serves filters app address ↔ Serves filters' app address)) ∧
    ∀ (c : Crypto) (request : Request), request.validate c = .ok () →
      (∀ app address, Serves request.old app address ↔ Serves request.new app address) ∧
      request.new.Pairwise fun f g => ∀ app address, ¬ (Serves [f] app address ∧ Serves [g] app address) := by
  have haccept : ∀ filters, (∃ range, partition filters = .ok range) ↔ OnePartition filters := by
    intro filters
    constructor
    · rintro ⟨⟨app, paths⟩, h⟩
      obtain ⟨hne, happ, qs, hqs, hapart, -⟩ := partition_ok_iff.1 h
      refine ⟨fun f hf hnone => ?_, ⟨app, happ, fun app' happ' => ?_⟩, (apart_paths_iff hqs).2 hapart⟩
      · have : filterPath f ∈ qs.map some := hqs ▸ mem_map_of_mem hf
        rw [hnone] at this
        simp at this
      · obtain ⟨f, filters, rfl⟩ := exists_cons_of_ne_nil hne
        exact (happ' f mem_cons_self).symm.trans (happ f mem_cons_self)
    · rintro ⟨hshards, ⟨app, happ, honly⟩, hapart⟩
      obtain ⟨qs, hqs⟩ := exists_paths hshards
      have hne : filters ≠ [] := by
        rintro rfl
        have h₁ := honly [] (by simp)
        have h₂ := honly [0] (by simp)
        exact absurd (h₁.trans h₂.symm) (by simp)
      obtain ⟨hord, hmem⟩ := foldl_insertPath qs ⟨List.Pairwise.nil, nodup_nil⟩
      exact ⟨_, partition_ok_iff.2 ⟨hne, happ, qs, hqs, (apart_paths_iff hqs).1 hapart, _, hord,
        fun q => by simp [hmem], rfl⟩⟩
  have hequal : ∀ filters filters' range range', partition filters = .ok range → partition filters' = .ok range' →
      (range = range' ↔ ∀ app address, Serves filters app address ↔ Serves filters' app address) := by
    rintro filters filters' ⟨app, paths⟩ ⟨app', paths'⟩ h h'
    obtain ⟨hord, hnormal, hne, hserves⟩ := partition_spec h
    obtain ⟨hord', hnormal', -, hserves'⟩ := partition_spec h'
    constructor
    · rintro ⟨⟩ app address
      rw [hserves, hserves']
    · intro hsame
      have hword : ∀ a : List Bool, a.length = 256 → ∃ address : Bytes32, pathOf 256 address.toNat = a := by
        intro a ha
        have hlt : value a < 2 ^ 256 := ha ▸ value_lt a
        exact ⟨BitVec.ofNat 256 (value a), by rw [BitVec.toNat_ofNat, Nat.mod_eq_of_lt hlt, pathOf_value a ha]⟩
      have happ : app = app' := by
        obtain ⟨q, paths, rfl⟩ := exists_cons_of_ne_nil hne
        obtain ⟨a, ha, hqa⟩ := exists_address (hnormal.bounded q mem_cons_self)
        obtain ⟨address, haddress⟩ := hword a ha
        have hin := (hserves app address).2 ⟨rfl, q, mem_cons_self, haddress ▸ hqa⟩
        exact ((hserves' app address).1 ((hsame app address).1 hin)).1
      subst happ
      have hcover : ∀ a : List Bool, a.length = 256 → (CoversPath paths a ↔ CoversPath paths' a) := by
        intro a ha
        obtain ⟨address, rfl⟩ := hword a ha
        have := hsame app address
        rwa [hserves, hserves', and_iff_right rfl, and_iff_right rfl] at this
      rw [hord.ext hord' (hnormal.mem_congr hnormal' hcover)]
  refine ⟨haccept, hequal, fun c request h => ?_⟩
  obtain ⟨-, -, range, hold, hnew⟩ := request.valid_of_validate c h
  refine ⟨(hequal _ _ _ _ hold hnew).1 rfl, ((haccept _).1 ⟨range, hnew⟩).apart.imp fun hapart app address => ?_⟩
  rintro ⟨⟨f, hf, -, p, hp, hpa⟩, g, hg, -, q, hq, hqa⟩
  rw [mem_singleton.1 hf] at hp
  rw [mem_singleton.1 hg] at hq
  have hap := hapart p q hp hq
  rcases prefix_or_prefix_of_prefix hpa hqa with hpq | hqp
  · exact hap.1 hpq
  · exact hap.2 hqp

/-- For samples: every string is a key. -/
def sampleCrypto : Crypto := ⟨fun _ => true⟩

def sampleApp : Bytes := List.replicate 32 0

/-- A root shard split in two. -/
def splitInHalves : Request where
  frame := 1
  sources := [⟨zeroDigest 32, sampleApp, 0, zeroDigest 32, 0, zeroDigest 32, [[7]]⟩]
  vacant := []
  targets := [⟨⟨encodeShardBitPath sampleApp [false], [[7]]⟩, 1, none⟩,
    ⟨⟨encodeShardBitPath sampleApp [true], [[7]]⟩, 1, none⟩]

theorem partition_decides_range_halves : splitInHalves.validate sampleCrypto = .ok () ∧
    ∀ app address, Serves [sampleApp] app address ↔ Serves splitInHalves.new app address := by
  have hvalid : splitInHalves.validate sampleCrypto = .ok () := by
    have heval : (splitInHalves.validate sampleCrypto).toOption = some () := by decide +kernel
    cases hresult : splitInHalves.validate sampleCrypto with
    | ok => rfl
    | error e =>
      rw [hresult] at heval
      cases heval
  exact ⟨hvalid, (partition_decides_range.2.2 sampleCrypto splitInHalves hvalid).1⟩

end Quil.Handoff
