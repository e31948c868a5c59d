import Mathlib.Tactic

/-! Families of queues. Items are routed to queues by a key; a queue may be RETIRED at some length, and its tail is
    then routed again. The family holds an item ONCE when no queue repeats it and no two queues share it. Routing new
    distinct items, and moving a retired tail, keep that; moving a tail neither loses nor invents an item. -/

namespace Quil.Schemes
open List

variable {K I : Type*} [DecidableEq K]

/-- Put one item at the end of a queue. -/
def push (q : K → List I) (k : K) (i : I) : K → List I :=
  fun k' => if k' = k then q k ++ [i] else q k'

/-- Route items to the ends of their queues, in order. -/
def enqueue (route : I → K) : (K → List I) → List I → K → List I
  | q, [] => q
  | q, i :: is => enqueue route (push q (route i) i) is

/-- Cut a queue at a length. -/
def truncate (q : K → List I) (k : K) (n : ℕ) : K → List I :=
  fun k' => if k' = k then (q k).take n else q k'

/-- Retire a queue at a length and route its tail again. -/
def moveTail (route : I → K) (q : K → List I) (k : K) (n : ℕ) : K → List I :=
  enqueue route (truncate q k n) ((q k).drop n)

/-- Some queue holds the item. -/
def Held (q : K → List I) (i : I) : Prop := ∃ k, i ∈ q k

/-- No queue repeats an item and no two queues share one. -/
structure Once (q : K → List I) : Prop where
  nodup : ∀ k, (q k).Nodup
  apart : ∀ k k', k ≠ k' → List.Disjoint (q k) (q k')

variable {q : K → List I} {k : K} {i j : I}

theorem mem_push {k' : K} : j ∈ push q k i k' ↔ j ∈ q k' ∨ k' = k ∧ j = i := by
  by_cases h : k' = k
  · subst h; simp [push]
  · simp [push, h]

theorem held_push : Held (push q k i) j ↔ Held q j ∨ j = i := by
  simp only [Held, mem_push, exists_or]
  exact or_congr Iff.rfl ⟨fun ⟨_, _, h⟩ => h, fun h => ⟨k, rfl, h⟩⟩

variable {route : I → K}

theorem held_enqueue (is : List I) : ∀ q : K → List I, Held (enqueue route q is) j ↔ Held q j ∨ j ∈ is := by
  induction is with
  | nil => intro q; simp [enqueue]
  | cons i is ih => intro q; rw [enqueue, ih, held_push, mem_cons, or_assoc]

/-- Routed items go to the queues of their keys. -/
theorem mem_enqueue (is : List I) : ∀ q : K → List I, j ∈ enqueue route q is k ↔ j ∈ q k ∨ j ∈ is ∧ route j = k := by
  induction is with
  | nil => intro q; simp [enqueue]
  | cons i is ih =>
    intro q
    rw [enqueue, ih, mem_push, mem_cons, or_assoc]
    refine or_congr Iff.rfl ⟨?_, ?_⟩
    · rintro (⟨rfl, rfl⟩ | ⟨h, hk⟩)
      · exact ⟨.inl rfl, rfl⟩
      · exact ⟨.inr h, hk⟩
    rintro ⟨rfl | h, hk⟩
    · exact .inl ⟨hk.symm, rfl⟩
    · exact .inr ⟨h, hk⟩

/-- A queue no item is routed to stays as it is. -/
theorem enqueue_other (is : List I) : ∀ q : K → List I, (∀ i ∈ is, route i ≠ k) → enqueue route q is k = q k := by
  induction is with
  | nil => intro q _; rfl
  | cons i is ih =>
    intro q h
    rw [enqueue, ih _ fun j hj => h j (mem_cons_of_mem _ hj), push, if_neg (h i mem_cons_self).symm]

/-- A queue grows by the items routed to it. -/
theorem length_enqueue (is : List I) : ∀ q : K → List I,
    (enqueue route q is k).length = (q k).length + is.countP (route · = k) := by
  induction is with
  | nil => intro q; simp [enqueue]
  | cons i is ih =>
    intro q
    rw [enqueue, ih, countP_cons, push]
    by_cases hk : route i = k
    · subst hk
      simp only [if_true, length_append, length_singleton, decide_true]
      omega
    · simp [hk, Ne.symm hk]

theorem Once.push (h : Once q) (hi : ¬ Held q i) (k : K) : Once (push q k i) where
  nodup k' := by
    by_cases hk : k' = k
    · subst hk
      simp only [Schemes.push, if_true]
      exact nodup_append.2 ⟨h.nodup k', by simp, fun a ha b hb hab => hi ⟨k', by simp_all⟩⟩
    · simp only [Schemes.push, hk, if_false]; exact h.nodup k'
  apart k₁ k₂ hne j h₁ h₂ := by
    rcases mem_push.1 h₁ with m₁ | ⟨e₁, rfl⟩ <;> rcases mem_push.1 h₂ with m₂ | ⟨e₂, hj⟩
    · exact h.apart k₁ k₂ hne m₁ m₂
    · exact hi ⟨k₁, hj ▸ m₁⟩
    · exact hi ⟨k₂, m₂⟩
    · exact hne (e₁.trans e₂.symm)

/-- Routing distinct new items keeps every item once. -/
theorem Once.enqueue (is : List I) : ∀ {q : K → List I}, Once q → is.Nodup → (∀ i ∈ is, ¬ Held q i) →
      Once (enqueue route q is) := by
  induction is with
  | nil => intro q h _ _; exact h
  | cons i is ih =>
    intro q h hnd hnew
    rw [nodup_cons] at hnd
    refine ih (h.push (hnew i mem_cons_self) _) hnd.2 fun j hj hheld => ?_
    rcases held_push.1 hheld with hheld | rfl
    · exact hnew j (mem_cons_of_mem _ hj) hheld
    · exact hnd.1 hj

theorem mem_truncate {k' : K} {n : ℕ} (h : j ∈ truncate q k n k') : j ∈ q k' := by
  by_cases hk : k' = k
  · subst hk; simp only [truncate, if_true] at h; exact mem_of_mem_take h
  · simpa [truncate, hk] using h

theorem Once.truncate (h : Once q) (k : K) (n : ℕ) : Once (truncate q k n) where
  nodup k' := by
    by_cases hk : k' = k
    · subst hk; simp only [Schemes.truncate, if_true]; exact (h.nodup k').sublist (take_sublist _ _)
    · simp only [Schemes.truncate, hk, if_false]; exact h.nodup k'
  apart k₁ k₂ hne j h₁ h₂ := h.apart k₁ k₂ hne (mem_truncate h₁) (mem_truncate h₂)

/-- An item of the tail is in no queue once its queue is cut. -/
theorem not_held_truncate (h : Once q) {n : ℕ} (hj : j ∈ (q k).drop n) : ¬ Held (truncate q k n) j := by
  rintro ⟨k', hk'⟩
  by_cases hk : k' = k
  · subst hk
    simp only [truncate, if_true] at hk'
    have hnd := h.nodup k'
    rw [← take_append_drop n (q k')] at hnd
    exact (nodup_append.1 hnd).2.2 j hk' j hj rfl
  · exact h.apart k' k hk (mem_truncate hk') (mem_of_mem_drop hj)

/-- Moving a tail keeps every item once. -/
theorem Once.moveTail (h : Once q) (k : K) (n : ℕ) : Once (moveTail route q k n) :=
  (h.truncate k n).enqueue _ ((h.nodup k).sublist (drop_sublist _ _)) fun _ hi => not_held_truncate h hi

/-- Moving a tail neither loses nor invents an item. -/
theorem held_moveTail (k : K) (n : ℕ) (j : I) : Held (moveTail route q k n) j ↔ Held q j := by
  rw [moveTail, held_enqueue]
  constructor
  · rintro (⟨k', h⟩ | h)
    · exact ⟨k', mem_truncate h⟩
    · exact ⟨k, mem_of_mem_drop h⟩
  · rintro ⟨k', h⟩
    by_cases hk : k' = k
    · subst hk
      rw [← take_append_drop n (q k'), mem_append] at h
      exact h.imp (fun h => ⟨k', by simpa [truncate] using h⟩) id
    · exact Or.inl ⟨k', by simpa [truncate, hk] using h⟩

/-- An item held once has exactly one position. -/
theorem Once.existsUnique (h : Once q) (hi : Held q i) : ∃! p : K × ℕ, (q p.1)[p.2]? = some i := by
  obtain ⟨k, hk⟩ := hi
  obtain ⟨n, hn⟩ := List.mem_iff_getElem?.1 hk
  refine ⟨(k, n), hn, ?_⟩
  rintro ⟨k', n'⟩ hn'
  have hmem' : i ∈ q k' := List.mem_iff_getElem?.2 ⟨n', hn'⟩
  have hkk : k' = k := by
    by_contra hne
    exact h.apart k' k hne hmem' hk
  subst hkk
  have hlt : n' < (q k').length := (List.getElem?_eq_some_iff.1 hn').1
  rw [(List.getElem?_inj hlt (h.nodup k')).1 (hn'.trans hn.symm)]

end Quil.Schemes
