import Mathlib.Tactic

/-! Association lists with at most one entry a key, as ordered maps are modelled: `lookup` reads an
    entry exactly when the entry is in the list, so it does not depend on the order of the list.
    A list in strictly ascending order of natural-number keys has one entry a key. -/

namespace Quil.Schemes
open List

variable {K V : Type*}

/-- No key has two entries. -/
def Keyed (l : List (K × V)) : Prop := (l.map Prod.fst).Nodup

variable {l : List (K × V)}

theorem keyed_cons {kv : K × V} : Keyed (kv :: l) ↔ (∀ x ∈ l, x.1 ≠ kv.1) ∧ Keyed l := by
  simp only [Keyed, map_cons, nodup_cons, mem_map, not_exists, not_and]

variable {k : K} {v : V}

section
variable [BEq K] [LawfulBEq K]

theorem mem_of_lookup (h : l.lookup k = some v) : (k, v) ∈ l := by
  induction l with
  | nil => simp at h
  | cons kv l ih =>
    obtain ⟨k', v'⟩ := kv
    rw [lookup_cons] at h
    split at h
    · next hk =>
      cases h
      rw [eq_of_beq hk]
      exact mem_cons_self
    · exact mem_cons_of_mem _ (ih h)

theorem lookup_eq_some (hl : Keyed l) : l.lookup k = some v ↔ (k, v) ∈ l := by
  refine ⟨mem_of_lookup, fun h => ?_⟩
  induction l with
  | nil => simp at h
  | cons kv l ih =>
    obtain ⟨k', v'⟩ := kv
    obtain ⟨hne, hl⟩ := keyed_cons.1 hl
    rw [lookup_cons]
    rcases mem_cons.1 h with h | h
    · cases h
      simp
    have : (k == k') = false := beq_eq_false_iff_ne.2 (hne _ h)
    rw [this]
    exact ih hl h

theorem lookup_eq_none : l.lookup k = none ↔ ∀ x ∈ l, x.1 ≠ k := by
  induction l with
  | nil => simp
  | cons kv l ih =>
    obtain ⟨k', v'⟩ := kv
    rw [lookup_cons]
    rcases hk : k == k' with _ | _
    · simp [ih, (beq_eq_false_iff_ne.1 hk).symm]
    · simp [eq_of_beq hk]

/-- The order of the entries does not matter. -/
theorem lookup_perm {l' : List (K × V)} (hl : Keyed l) (h : l.Perm l') (k : K) : l'.lookup k = l.lookup k := by
  have hl' : Keyed l' := (h.map Prod.fst).nodup_iff.1 hl
  refine Option.ext fun v => ?_
  rw [lookup_eq_some hl, lookup_eq_some hl', h.mem_iff]

end

/-! ### Ascending keys -/

variable {α : Type*}

/-- Two lists with ascending keys and the same members are equal. -/
theorem eq_of_ascending {β : Type*} [Preorder β] {f : α → β} {l l' : List α} (hl : l.Pairwise fun a b => f a < f b)
    (hl' : l'.Pairwise fun a b => f a < f b) (h : ∀ a, a ∈ l ↔ a ∈ l') : l = l' := by
  have hne : ∀ {a b : α}, f a < f b → a ≠ b := fun hab heq => hab.ne (congrArg f heq)
  exact List.Perm.eq_of_pairwise (fun _ _ _ _ hab hba => absurd hab (lt_asymm hba)) hl hl'
    ((perm_ext_iff_of_nodup (hl.imp hne) (hl'.imp hne)).2 h)

/-- Keys in strictly ascending order. -/
def Ascending (l : List (ℕ × V)) : Prop := l.Pairwise fun a b => a.1 < b.1

variable {l : List (ℕ × V)}

theorem Ascending.keyed (h : Ascending l) : Keyed l := by
  rw [Keyed, List.Nodup, pairwise_map]
  exact h.imp fun hlt => hlt.ne

theorem ascending_cons {kv : ℕ × V} : Ascending (kv :: l) ↔ (∀ x ∈ l, kv.1 < x.1) ∧ Ascending l := pairwise_cons

theorem lookup_cons_of_eq {k k' : ℕ} (h : k = k' := by omega) : ((k', v) :: l).lookup k = some v := by
  rw [h, lookup_cons_self]

theorem lookup_cons_of_ne {k k' : ℕ} (h : k ≠ k' := by omega) : ((k', v) :: l).lookup k = l.lookup k := by
  rw [lookup_cons, beq_eq_false_iff_ne.2 h]

theorem lookup_of_lt {k : ℕ} (h : ∀ x ∈ l, k < x.1) : l.lookup k = none :=
  lookup_eq_none.2 fun x hx => (h x hx).ne'

/-- Two ascending lists that read alike are equal. -/
theorem Ascending.ext {l' : List (ℕ × V)} (hl : Ascending l) (hl' : Ascending l')
    (h : ∀ k, l.lookup k = l'.lookup k) : l = l' := by
  rw [Ascending] at hl hl'
  refine List.Perm.eq_of_pairwise (fun a b _ _ hab hba => absurd hab (lt_asymm hba)) hl hl' ?_
  have hk : Keyed l := Ascending.keyed hl
  have hk' : Keyed l' := Ascending.keyed hl'
  refine (perm_ext_iff_of_nodup (List.Nodup.of_map _ hk) (List.Nodup.of_map _ hk')).2 fun ⟨k, v⟩ => ?_
  rw [← lookup_eq_some hk, ← lookup_eq_some hk', h]

/-- A function listed at ascending keys that include all where it is defined. -/
theorem ascending_filterMap {ks : List ℕ} {f : ℕ → Option V} (hks : ks.Pairwise (· < ·))
    (hf : ∀ k, f k ≠ none → k ∈ ks) : Ascending (ks.filterMap fun k => (f k).map (k, ·)) ∧
      ∀ k, (ks.filterMap fun k => (f k).map (k, ·)).lookup k = f k := by
  have hmem : ∀ k v, (k, v) ∈ (ks.filterMap fun k => (f k).map (k, ·)) ↔ f k = some v := by
    intro k v
    rw [mem_filterMap]
    constructor
    · rintro ⟨k', -, hk'⟩
      obtain ⟨v', hv', heq⟩ := Option.map_eq_some_iff.1 hk'
      cases heq
      exact hv'
    · intro h
      exact ⟨k, hf k (by simp [h]), by simp [h]⟩
  have hasc : Ascending (ks.filterMap fun k => (f k).map (k, ·)) := by
    refine pairwise_filterMap.2 (hks.imp fun {a b} hab x hx y hy => ?_)
    obtain ⟨v, -, rfl⟩ := Option.map_eq_some_iff.1 hx
    obtain ⟨w, -, rfl⟩ := Option.map_eq_some_iff.1 hy
    exact hab
  exact ⟨hasc, fun k => Option.ext fun v => by rw [lookup_eq_some hasc.keyed, hmem]⟩

/-! ### Sorting by a key -/

section
variable [LinearOrder K] (f : α → K)

theorem pairwise_sortBy (l : List α) : (l.insertionSort fun a b => f a ≤ f b).Pairwise fun a b => f a ≤ f b := by
  have : Std.Total fun a b : α => f a ≤ f b := ⟨fun a b => le_total (f a) (f b)⟩
  have : IsTrans α fun a b => f a ≤ f b := ⟨fun a b c => le_trans⟩
  exact pairwise_insertionSort _ _

variable {f}

/-- In a sorted list, distinct neighbours are enough for distinct keys. -/
theorem adjacent_distinct_iff {l : List α} (hle : l.Pairwise fun a b => f a ≤ f b) :
    ((l.zip l.tail).any fun pair => f pair.1 == f pair.2) = false ↔ l.Pairwise fun a b => f a < f b := by
  induction l with
  | nil => simp
  | cons a rest ih =>
    obtain ⟨hfirst, hrest⟩ := pairwise_cons.1 hle
    rcases rest with _ | ⟨b, rest⟩
    · simp
    rw [tail_cons, zip_cons_cons, any_cons, Bool.or_eq_false_iff, beq_eq_false_iff_ne,
      pairwise_cons, show ((b :: rest).zip rest) = (b :: rest).zip (b :: rest).tail from rfl, ih hrest]
    refine and_congr_left fun hlt => ⟨fun hne x hx => ?_, fun h => (h b mem_cons_self).ne⟩
    have hab : f a < f b := lt_of_le_of_ne (hfirst b mem_cons_self) hne
    rcases mem_cons.1 hx with rfl | hx
    · exact hab
    · exact hab.trans ((pairwise_cons.1 hlt).1 x hx)

/-- Sorted by distinct keys a list ascends. -/
theorem pairwise_lt_sortBy {l : List α} (h : (l.map f).Nodup) :
    (l.insertionSort fun a b => f a ≤ f b).Pairwise fun a b => f a < f b := by
  rw [← ((perm_insertionSort (fun a b => f a ≤ f b) l).map f).nodup_iff, List.Nodup, pairwise_map] at h
  exact ((pairwise_sortBy f l).and h).imp fun hab => lt_of_le_of_ne hab.1 hab.2

theorem sortBy_distinct_iff (l : List α) :
    (((l.insertionSort fun a b => f a ≤ f b).zip (l.insertionSort fun a b => f a ≤ f b).tail).any
      fun pair => f pair.1 == f pair.2) = false ↔ (l.map f).Nodup := by
  rw [adjacent_distinct_iff (pairwise_sortBy f l)]
  refine ⟨fun h => ?_, pairwise_lt_sortBy⟩
  rw [← ((perm_insertionSort (fun a b => f a ≤ f b) l).map f).nodup_iff, List.Nodup, pairwise_map]
  exact h.imp ne_of_lt

/-- In an ascending list the place of a member is the number of smaller ones. -/
theorem idxOf_eq_countP [DecidableEq α] {l : List α} (h : l.Pairwise fun a b => f a < f b) {x : α} (hx : x ∈ l) :
    l.idxOf x = l.countP (f · < f x) := by
  induction l with
  | nil => cases hx
  | cons a rest ih =>
    obtain ⟨hfirst, hrest⟩ := pairwise_cons.1 h
    rcases eq_or_ne a x with rfl | hne
    · have hnone : rest.countP (f · < f a) = 0 :=
        countP_eq_zero.2 fun y hy => by simpa using (hfirst y hy).le
      simp [hnone]
    · have hrestx := (mem_cons.1 hx).resolve_left hne.symm
      rw [idxOf_cons_ne _ hne, ih hrest hrestx, countP_cons_of_pos (by simpa using hfirst x hrestx)]

end

/-- A new key inserted in its place keeps the order. -/
theorem Ascending.orderedInsert (h : Ascending l) {kv : ℕ × V} (hnew : ∀ x ∈ l, x.1 ≠ kv.1) :
    Ascending (l.orderedInsert (fun a b => a.1 ≤ b.1) kv) := by
  have : Std.Total fun a b : ℕ × V => a.1 ≤ b.1 := ⟨fun a b => le_total a.1 b.1⟩
  have : IsTrans (ℕ × V) fun a b => a.1 ≤ b.1 := ⟨fun a b c => le_trans⟩
  have hle := (List.Pairwise.imp le_of_lt h : l.Pairwise fun a b => a.1 ≤ b.1).orderedInsert kv l
  have hkeyed : Keyed (l.orderedInsert (fun a b => a.1 ≤ b.1) kv) := by
    rw [Keyed, ((perm_orderedInsert _ kv l).map Prod.fst).nodup_iff]
    exact keyed_cons.2 ⟨hnew, h.keyed⟩
  rw [Keyed, List.Nodup, pairwise_map] at hkeyed
  exact (hle.and hkeyed).imp fun hab => lt_of_le_of_ne hab.1 hab.2

/-! ### Sums by class -/

theorem countP_eq_one [DecidableEq α] {l : List α} (hl : l.Nodup) {p : α → Bool} {a : α}
    (ha : a ∈ l) (h : ∀ x ∈ l, p x = true ↔ x = a) : l.countP p = 1 := by
  rw [← count_eq_one_of_mem hl ha, List.count]
  exact countP_congr fun x hx => by rw [h x hx, beq_iff_eq]

variable {ι : Type*}

theorem sum_map_ite (cs : List ι) (p : ι → Bool) (n : ℕ) :
    (cs.map fun c => if p c then n else 0).sum = cs.countP p * n := by
  induction cs with
  | nil => simp
  | cons c cs ih =>
    rw [map_cons, sum_cons, ih, countP_cons]
    split_ifs <;> ring

/-- Elements that each belong to one class are summed once, class by class. -/
theorem sum_by_class (cs : List ι) (p : ι → α → Bool) (f : α → ℕ) {as : List α}
    (h : ∀ a ∈ as, (cs.countP fun c => p c a) = 1) :
    (cs.map fun c => ((as.filter (p c)).map f).sum).sum = (as.map f).sum := by
  induction as with
  | nil => simp
  | cons a as ih =>
    have hstep : ∀ c, (((a :: as).filter (p c)).map f).sum =
        (if p c a then f a else 0) + ((as.filter (p c)).map f).sum := fun c => by
      rw [filter_cons]
      split_ifs <;> simp
    simp only [hstep]
    rw [sum_map_add, sum_map_ite, h a mem_cons_self,
      ih fun x hx => h x (mem_cons_of_mem _ hx), one_mul, map_cons, sum_cons]

theorem length_by_class (cs : List ι) (p : ι → α → Bool) {l : List α}
    (h : ∀ a ∈ l, (cs.countP fun c => p c a) = 1) : (cs.map fun c => (l.filter (p c)).length).sum = l.length := by
  simpa using sum_by_class cs p (fun _ => 1) h

end Quil.Schemes
