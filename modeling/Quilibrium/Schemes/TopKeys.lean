import Quilibrium.Schemes.Assoc
import Quilibrium.Schemes.Recency

/-! Lists by ascending key that keep the highest keys only. An entry is put in its place and takes that of an
    older one of the same key; past the limit the lowest keys fall out. What falls out never matters again: the
    highest keys of such a list with one entry more are those of the whole list with the entry. -/

namespace Quil.Schemes
open List

variable {α : Type*} (f : α → ℕ)

/-- The entry in its place, in place of one of the same key. -/
def insertBy (a : α) (l : List α) : List α := l.filter (f · < f a) ++ a :: l.filter (f a < f ·)

variable {f} {l : List α}

theorem mem_insertBy {a x : α} : x ∈ insertBy f a l ↔ x = a ∨ x ∈ l ∧ f x ≠ f a := by
  rw [insertBy, mem_append, mem_cons, mem_filter, mem_filter, decide_eq_true_eq, decide_eq_true_eq]
  constructor
  · rintro (⟨hx, hlt⟩ | rfl | ⟨hx, hlt⟩)
    · exact .inr ⟨hx, hlt.ne⟩
    · exact .inl rfl
    · exact .inr ⟨hx, hlt.ne'⟩
  · rintro (rfl | ⟨hx, hne⟩)
    · exact .inr (.inl rfl)
    rcases lt_or_gt_of_ne hne with hlt | hlt
    · exact .inl ⟨hx, hlt⟩
    · exact .inr (.inr ⟨hx, hlt⟩)

theorem pairwise_insertBy (a : α) (h : l.Pairwise fun a b => f a < f b) :
    (insertBy f a l).Pairwise fun a b => f a < f b := by
  have hlow : ∀ x ∈ l.filter (f · < f a), f x < f a := fun x hx => by simpa using (mem_filter.1 hx).2
  have hhigh : ∀ x ∈ l.filter (f a < f ·), f a < f x := fun x hx => by simpa using (mem_filter.1 hx).2
  refine pairwise_append.2 ⟨h.filter _, pairwise_cons.2 ⟨hhigh, h.filter _⟩, fun x hx y hy => ?_⟩
  rcases mem_cons.1 hy with rfl | hy
  · exact hlow x hx
  · exact (hlow x hx).trans (hhigh y hy)

theorem map_insertBy (a : α) (l : List α) : (insertBy f a l).map f = insertBy id (f a) (l.map f) := by
  rw [insertBy, insertBy, map_append, map_cons, filter_map, filter_map]
  rfl

theorem length_le_insertBy (a : α) (h : l.Pairwise fun a b => f a < f b) : l.length ≤ (insertBy f a l).length := by
  induction l with
  | nil => exact zero_le
  | cons x l ih =>
    obtain ⟨hx, hl⟩ := pairwise_cons.1 h
    have hrec := ih hl
    rw [insertBy, length_append, length_cons] at hrec ⊢
    rcases lt_trichotomy (f x) (f a) with hlt | heq | hlt
    · rw [filter_cons_of_pos (by simpa using hlt), filter_cons_of_neg (by simpa using hlt.le)]
      simp only [length_cons]
      omega
    · -- an equal key stands before larger ones only
      have hhigh : l.filter (f a < f ·) = l := filter_eq_self.2 fun y hy => by simpa [← heq] using hx y hy
      rw [filter_cons_of_neg (by simp [heq]), filter_cons_of_neg (by simp [heq]), hhigh]
      simp only [length_cons]
      omega
    rw [filter_cons_of_neg (by simpa using hlt.le), filter_cons_of_pos (by simpa using hlt)]
    simp only [length_cons]
    omega

/-- What fell out below the limit does not matter for what is highest with one entry more. -/
theorem rtake_insertBy (a : α) (h : l.Pairwise fun a b => f a < f b) (n : ℕ) :
    (insertBy f a (l.rtake n)).rtake n = (insertBy f a l).rtake n := by
  rcases le_total l.length n with hlen | hlen
  · rw [rtake_of_length_le hlen]
  obtain ⟨low, hlow⟩ := rtake_suffix l n
  have hhigh : (l.rtake n).length = n := by rw [length_rtake]; omega
  rw [← hlow] at h
  obtain ⟨-, hpair, hbelow⟩ := pairwise_append.1 h
  by_cases hplace : ∃ b ∈ l.rtake n, f b ≤ f a
  · -- the entry belongs above everything that fell out
    obtain ⟨b, hb, hba⟩ := hplace
    have hlt : ∀ x ∈ low, f x < f a := fun x hx => (hbelow x hx b hb).trans_le hba
    have hall : low.filter (f · < f a) = low ∧ low.filter (f a < f ·) = [] :=
      ⟨filter_eq_self.2 fun x hx => by simpa using hlt x hx,
        filter_eq_nil_iff.2 fun x hx => by simpa using (hlt x hx).le⟩
    have heq : insertBy f a l = low ++ insertBy f a (l.rtake n) := by
      conv_lhs => rw [← hlow]
      rw [insertBy, filter_append, filter_append, hall.1, hall.2, append_assoc]
      rfl
    have hle := length_le_insertBy a hpair
    rw [hhigh] at hle
    rw [heq, rtake_append_of_le _ hle]
  · push Not at hplace
    have hall : (l.rtake n).filter (f · < f a) = [] ∧ (l.rtake n).filter (f a < f ·) = l.rtake n :=
      ⟨filter_eq_nil_iff.2 fun x hx => by simpa using (hplace x hx).le,
        filter_eq_self.2 fun x hx => by simpa using hplace x hx⟩
    have heq : insertBy f a l = low.filter (f · < f a) ++ a :: low.filter (f a < f ·) ++ l.rtake n := by
      conv_lhs => rw [← hlow]
      rw [insertBy, filter_append, filter_append, hall.1, hall.2, append_nil, append_assoc]
      rfl
    rw [heq, rtake_append_of_le _ hhigh.ge, insertBy, hall.1, hall.2, nil_append, ← singleton_append,
      rtake_append_of_le _ hhigh.ge]

/-- Replacing, appending and sorting puts the entry in its place. -/
theorem insertionSort_eq_insertBy (a : α) (h : l.Pairwise fun a b => f a < f b) :
    (l.filter (f · ≠ f a) ++ [a]).insertionSort (fun a b => f a ≤ f b) = insertBy f a l := by
  refine eq_of_ascending (pairwise_lt_sortBy ?_) (pairwise_insertBy a h) fun x => ?_
  · rw [map_append, nodup_append]
    refine ⟨?_, nodup_singleton _, fun x hx y hy => ?_⟩
    · rw [List.Nodup, pairwise_map]
      exact (h.filter _).imp ne_of_lt
    obtain ⟨b, hb, rfl⟩ := mem_map.1 hx
    rw [mem_singleton.1 hy]
    simpa using (mem_filter.1 hb).2
  · rw [mem_insertionSort, mem_insertBy, mem_append, mem_filter, mem_singleton, decide_eq_true_eq]
    exact or_comm

/-- A number added to a set of numbers, in order. -/
theorem sort_insert (s : Finset ℕ) (n : ℕ) : (insert n s).sort (· ≤ ·) = insertBy id n (s.sort (· ≤ ·)) := by
  refine eq_of_ascending (f := id) ?_ (pairwise_insertBy n ?_) fun x => ?_
  · exact (Finset.sortedLT_sort _).pairwise
  · exact (Finset.sortedLT_sort _).pairwise
  · rw [Finset.mem_sort, mem_insertBy, Finset.mem_sort, Finset.mem_insert]
    by_cases hx : x = n <;> simp [hx]

end Quil.Schemes
