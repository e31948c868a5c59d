import Quilibrium.Schemes.BitPath

/-! Working with complete prefix-free families of paths. A family stays a PARTITION when a member is refined by a
    partition of what lies below it, and when such a refinement is taken back. The two refinements that occur are the
    full code of one width, and a path together with its CO-PATH, the siblings it passes on its way down. -/

namespace Quil.Schemes
open List

/-- No member begins another. -/
def PrefixFree {α : Type*} (paths : List (List α)) : Prop :=
  ∀ p ∈ paths, ∀ q ∈ paths, p <+: q → p = q

instance {α : Type*} [DecidableEq α] (paths : List (List α)) : Decidable (PrefixFree paths) :=
  inferInstanceAs (Decidable (∀ p ∈ paths, ∀ q ∈ paths, p <+: q → p = q))

theorem apart_irrefl (p : List Bool) : ¬ Apart p p := fun h => h.1 (prefix_refl p)

variable {paths : List (List Bool)}

/-- A partition is a family without repetition in which no member begins another, and complete. -/
theorem partition_iff : Partition paths ↔ paths.Nodup ∧ PrefixFree paths ∧
      ∀ q : List Bool, (∀ p ∈ paths, p.length ≤ q.length) → ∃ p ∈ paths, p <+: q := by
  constructor
  · rintro ⟨hfree, hcomplete⟩
    refine ⟨List.Pairwise.imp ?_ hfree, fun p hp q hq hpq => ?_, hcomplete⟩
    · rintro p _ h rfl
      exact apart_irrefl p h
    · exact eq_of_prefixFree hfree hp hq hpq (prefix_refl q)
  · rintro ⟨hnodup, hfree, hcomplete⟩
    refine ⟨?_, hcomplete⟩
    refine hnodup.imp_of_mem fun hp hq hne => ?_
    exact ⟨fun h => hne (hfree _ hp _ hq h), fun h => hne (hfree _ hq _ hp h).symm⟩

theorem Partition.nodup (h : Partition paths) : paths.Nodup :=
  (partition_iff.1 h).1

variable {p : List Bool}

theorem Partition.eq_of_prefix (h : Partition paths) {q : List Bool}
    (hp : p ∈ paths) (hq : q ∈ paths) (hpq : p <+: q) : p = q :=
  (partition_iff.1 h).2.1 p hp q hq hpq

theorem Partition.perm {paths' : List (List Bool)} (h : Partition paths)
    (hperm : paths.Perm paths') : Partition paths' := by
  obtain ⟨hnodup, hfree, hcomplete⟩ := partition_iff.1 h
  refine partition_iff.2 ⟨hperm.nodup_iff.1 hnodup, fun p hp q hq => ?_, fun q hq => ?_⟩
  · exact hfree p (hperm.mem_iff.2 hp) q (hperm.mem_iff.2 hq)
  · obtain ⟨p, hp, hpq⟩ := hcomplete q fun p hp => hq p (hperm.mem_iff.1 hp)
    exact ⟨p, hperm.mem_iff.1 hp, hpq⟩

theorem partition_root : Partition [[]] :=
  ⟨pairwise_singleton _ _, fun _ _ => ⟨[], mem_singleton.2 rfl, nil_prefix⟩⟩

theorem Partition.ne_nil (h : Partition paths) : paths ≠ [] := by
  rintro rfl
  obtain ⟨p, hp, -⟩ := h.complete [] (by simp)
  cases hp

/-- The root is not a member of a partition that has another. -/
theorem Partition.nil_notMem (h : Partition paths) (htwo : 2 ≤ paths.length) : [] ∉ paths := by
  intro hnil
  have hall : ∀ p ∈ paths, p = [] := fun p hp => (h.eq_of_prefix hnil hp nil_prefix).symm
  have hrep : paths = .replicate paths.length [] := eq_replicate_of_mem hall
  have hnodup := h.nodup
  rw [hrep, nodup_replicate] at hnodup
  omega

/-- Every bit that a member passes over begins another member. -/
theorem Partition.exists_below (h : Partition paths) {q : List Bool}
    (hp : p ∈ paths) (hq : q <+: p) (hne : q ≠ p) (b : Bool) : ∃ r ∈ paths, q ++ [b] <+: r := by
  -- a path through `q ++ [b]` as long as all members begins with one of them
  let n := (paths.map length).foldr max 0
  have hn : ∀ r ∈ paths, r.length ≤ n := fun r hr => le_max_of_le (mem_map_of_mem hr) le_rfl
  let long := q ++ [b] ++ .replicate n false
  obtain ⟨r, hr, hrl⟩ := h.complete long fun r hr => by
    have := hn r hr
    simp [long]
    omega
  refine ⟨r, hr, ?_⟩
  rcases prefix_or_prefix_of_prefix hrl (prefix_append (q ++ [b]) _) with hrq | hqr
  · -- a member inside `q ++ [b]` begins `p`, or is all of `q ++ [b]`
    rcases prefix_concat_iff.1 hrq with heq | hrq
    · rw [heq]
    · exact absurd (h.eq_of_prefix hr hp (hrq.trans hq))
        fun he => hne (hq.eq_of_length_le (he ▸ hrq.length_le))
  · exact hqr

/-! ### Refining a member, and taking it back -/

/-- A member refined by a prefix-free family below it leaves the family prefix-free. -/
theorem PrefixFree.refine {α : Type*} {p : List α} {rest code : List (List α)} (hfree : PrefixFree (p :: rest))
    (hnodup : (p :: rest).Nodup) (hcfree : PrefixFree code) (hcnodup : code.Nodup) :
    PrefixFree (code.map (p ++ ·) ++ rest) ∧ (code.map (p ++ ·) ++ rest).Nodup := by
  have hp : p ∈ p :: rest := mem_cons_self
  have hrest : ∀ q ∈ rest, q ∈ p :: rest := fun q hq => mem_cons_of_mem p hq
  have hnot : p ∉ rest := (nodup_cons.1 hnodup).1
  -- a member of the rest is comparable with nothing below `p`
  have hapart : ∀ q ∈ rest, ∀ c, ¬ q <+: p ++ c ∧ ¬ p ++ c <+: q := by
    intro q hq c
    refine ⟨fun hc => ?_, fun hc => ?_⟩
    · rcases prefix_or_prefix_of_prefix hc (prefix_append p c) with hqp | hpq
      · exact hnot (hfree q (hrest q hq) p hp hqp ▸ hq)
      · exact hnot (hfree p hp q (hrest q hq) hpq ▸ hq)
    · exact hnot (hfree p hp q (hrest q hq) ((prefix_append p c).trans hc) ▸ hq)
  refine ⟨?_, ?_⟩
  · intro q hq r hr hqr
    rcases mem_append.1 hq with hq | hq <;> rcases mem_append.1 hr with hr | hr
    · obtain ⟨c, hc, rfl⟩ := mem_map.1 hq
      obtain ⟨d, hd, rfl⟩ := mem_map.1 hr
      rw [hcfree c hc d hd ((prefix_append_right_inj p).1 hqr)]
    · obtain ⟨c, hc, rfl⟩ := mem_map.1 hq
      exact absurd hqr (hapart r hr c).2
    · obtain ⟨d, hd, rfl⟩ := mem_map.1 hr
      exact absurd hqr (hapart q hq d).1
    · exact hfree q (hrest q hq) r (hrest r hr) hqr
  refine nodup_append.2 ⟨hcnodup.map (append_right_injective p), hnodup.of_cons, ?_⟩
  rintro _ hq q hqrest rfl
  obtain ⟨c, -, rfl⟩ := mem_map.1 hq
  exact (hapart _ hqrest c).1 (prefix_refl _)

/-- A member refined by a partition of what lies below it. -/
theorem Partition.refine {rest code : List (List Bool)} (h : Partition (p :: rest))
    (hcode : Partition code) : Partition (code.map (p ++ ·) ++ rest) := by
  obtain ⟨hnodup, hfree, hcomplete⟩ := partition_iff.1 h
  obtain ⟨hcnodup, hcfree, hccomplete⟩ := partition_iff.1 hcode
  obtain ⟨hfree', hnodup'⟩ := PrefixFree.refine hfree hnodup hcfree hcnodup
  refine partition_iff.2 ⟨hnodup', hfree', ?_⟩
  intro q hq
  have hbelow : ∀ c ∈ code, (p ++ c).length ≤ q.length := fun c hc => hq _ (mem_append_left _ (mem_map_of_mem hc))
  obtain ⟨c₀, hc₀⟩ := exists_mem_of_ne_nil _ hcode.ne_nil
  have hplen : p.length ≤ q.length := by
    have := hbelow c₀ hc₀
    simp at this
    omega
  obtain ⟨r, hr, hrq⟩ := hcomplete q (forall_mem_cons.2 ⟨hplen, fun r hr => hq r (mem_append_right _ hr)⟩)
  rcases mem_cons.1 hr with rfl | hr
  · obtain ⟨t, rfl⟩ := hrq
    obtain ⟨c, hc, hct⟩ := hccomplete t fun c hc => by
      have := hbelow c hc
      simp at this
      omega
    exact ⟨r ++ c, mem_append_left _ (mem_map_of_mem hc), (prefix_append_right_inj _).2 hct⟩
  · exact ⟨r, mem_append_right _ hr, hrq⟩

/-- The members that refine a path by a partition give way to the path. -/
theorem Partition.coarsen {rest code : List (List Bool)}
    (h : Partition (code.map (p ++ ·) ++ rest)) (hcode : Partition code) : Partition (p :: rest) := by
  obtain ⟨hnodup, hfree, hcomplete⟩ := partition_iff.1 h
  have hrest : ∀ q ∈ rest, q ∈ code.map (p ++ ·) ++ rest := fun q hq => mem_append_right _ hq
  have hbelow : ∀ c ∈ code, p ++ c ∈ code.map (p ++ ·) ++ rest := fun c hc => mem_append_left _ (mem_map_of_mem hc)
  -- a member of the rest is comparable with no refinement of `p`, so not with `p`
  have hapart : ∀ q ∈ rest, ¬ q <+: p ∧ ¬ p <+: q := by
    intro q hq
    have hne : ∀ c ∈ code, p ++ c ≠ q := by
      rintro c hc rfl
      exact (nodup_append.1 hnodup).2.2 _ (mem_map_of_mem hc) _ hq rfl
    refine ⟨fun hqp => ?_, fun hpq => ?_⟩
    · obtain ⟨c, hc⟩ := exists_mem_of_ne_nil _ hcode.ne_nil
      exact hne c hc (hfree q (hrest q hq) _ (hbelow c hc) (hqp.trans (prefix_append p c))).symm
    obtain ⟨t, rfl⟩ := hpq
    -- below `p` some member of the code meets `t`
    let n := (code.map length).foldr max 0
    have hn : ∀ c ∈ code, c.length ≤ n := fun c hc => le_max_of_le (mem_map_of_mem hc) le_rfl
    obtain ⟨c, hc, hct⟩ := hcode.complete (t ++ .replicate n false) fun c hc => by
      have := hn c hc
      simp
      omega
    rcases prefix_or_prefix_of_prefix hct (prefix_append t _) with hct | htc
    · exact hne c hc (hfree _ (hbelow c hc) _ (hrest _ hq) ((prefix_append_right_inj _).2 hct))
    · exact hne c hc (hfree _ (hrest _ hq) _ (hbelow c hc) ((prefix_append_right_inj _).2 htc)).symm
  refine partition_iff.2 ⟨nodup_cons.2 ⟨?_, (nodup_append.1 hnodup).2.1⟩, ?_, ?_⟩
  · exact fun hp => (hapart p hp).1 (prefix_refl p)
  · intro q hq r hr hqr
    rcases mem_cons.1 hq with hq | hq <;> rcases mem_cons.1 hr with hr | hr
    · rw [hq, hr]
    · exact absurd (hq ▸ hqr) (hapart r hr).2
    · exact absurd (hr ▸ hqr) (hapart q hq).1
    · exact hfree q (hrest q hq) r (hrest r hr) hqr
  intro q hq
  let n := ((code.map (p ++ ·)).map length).foldr max 0
  have hn : ∀ c ∈ code.map (p ++ ·), c.length ≤ n := fun c hc => le_max_of_le (mem_map_of_mem hc) le_rfl
  -- long enough for the refinements too
  obtain ⟨r, hr, hrq⟩ := hcomplete (q ++ .replicate n false) fun r hr => by
    rw [length_append, length_replicate]
    rcases mem_append.1 hr with hr | hr
    · exact (hn r hr).trans (Nat.le_add_left _ _)
    · exact (hq r (mem_cons_of_mem _ hr)).trans (Nat.le_add_right _ _)
  rcases mem_append.1 hr with hr | hr
  · obtain ⟨c, -, rfl⟩ := mem_map.1 hr
    exact ⟨p, mem_cons_self, prefix_of_prefix_length_le ((prefix_append p c).trans hrq)
      (prefix_append q _) (hq p mem_cons_self)⟩
  · exact ⟨r, mem_cons_of_mem _ hr, prefix_of_prefix_length_le hrq
      (prefix_append q _) (hq r (mem_cons_of_mem _ hr))⟩

/-! ### Full codes and co-paths -/

/-- All paths of one width. -/
theorem partition_pathOf (w : ℕ) : Partition ((range (2 ^ w)).map (pathOf w)) := by
  refine partition_iff.2 ⟨?_, ?_, fun q hq => ?_⟩
  · refine (nodup_range).map_on fun m hm n hn h => ?_
    rw [← value_pathOf w m (mem_range.1 hm), h, value_pathOf w n (mem_range.1 hn)]
  · intro p hp q hq hpq
    obtain ⟨m, -, rfl⟩ := mem_map.1 hp
    obtain ⟨n, -, rfl⟩ := mem_map.1 hq
    exact hpq.eq_of_length (by simp)
  have hw : w ≤ q.length := by
    simpa using hq _ (mem_map_of_mem (mem_range.2 (Nat.two_pow_pos w)))
  have hlen : (q.take w).length = w := by simp [hw]
  refine ⟨q.take w, mem_map.2 ⟨value (q.take w), ?_, pathOf_value _ hlen⟩, take_prefix w q⟩
  exact mem_range.2 ((value_lt _).trans_eq (by rw [hlen]))

/-- The siblings a path passes on its way down: for each of its bits, the path so far with that bit turned. -/
def coPath : List Bool → List (List Bool)
  | [] => []
  | b :: p => [!b] :: (coPath p).map (b :: ·)

theorem coPath_eq (p : List Bool) : coPath p = (range p.length).map fun i => p.take i ++ [!p.getD i false] := by
  induction p with
  | nil => rfl
  | cons b p ih =>
    rw [coPath, ih, length_cons, range_succ_eq_map, map_cons, map_map, map_map]
    rfl

/-- A path and its co-path partition the space. -/
theorem partition_coPath (p : List Bool) : Partition (p :: coPath p) := by
  induction p with
  | nil => exact partition_root
  | cons b p ih =>
    have hbit : Partition [[b], [!b]] := by
      refine (partition_pathOf 1).perm ?_
      cases b
      · exact List.Perm.refl _
      · exact List.Perm.swap _ _ _
    have h := hbit.refine ih
    refine h.perm ?_
    rw [map_cons, singleton_append, cons_append]
    exact List.Perm.cons _ (perm_append_singleton _ _)

end Quil.Schemes
