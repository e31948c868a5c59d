import Mathlib.Data.List.DropRight
import Mathlib.Tactic

/-! Lists of what was used last, oldest first and at most `limit` long: a value that is used moves to the end,
    and past the limit the oldest falls out. Over a whole sequence of uses such a list holds exactly the `limit`
    values used last, in the order of their last use — `List.dedup` keeps last occurrences, so the sequence
    itself without repetitions is the list for no limit. -/

namespace Quil.Schemes
open List

variable {α : Type*}

/-! ### Ends of lists -/

theorem rtake_suffix (l : List α) (n : ℕ) : l.rtake n <:+ l := drop_suffix _ _

variable {l : List α}

theorem rtake_of_length_le {n : ℕ} (h : l.length ≤ n) : l.rtake n = l := by
  rw [rtake, Nat.sub_eq_zero_of_le h, drop_zero]

theorem length_rtake (l : List α) (n : ℕ) : (l.rtake n).length = min n l.length := by
  rw [rtake, length_drop]
  omega

/-- The end of a concatenation, when the second part has it all. -/
theorem rtake_append_of_le (l : List α) {l' : List α} {n : ℕ} (h : n ≤ l'.length) : (l ++ l').rtake n = l'.rtake n := by
  rw [rtake, rtake, length_append, Nat.add_sub_assoc h, drop_length_add_append]

variable {a : α}

/-- A value at the end of a list without repetitions. -/
theorem mem_rtake_append_cons {older newer : List α} (h : a ∉ newer) (n : ℕ) :
    a ∈ (older ++ a :: newer).rtake n ↔ newer.length < n := by
  rw [rtake, length_append, length_cons]
  constructor
  · intro hmem
    by_contra hn
    rw [show older.length + (newer.length + 1) - n = older.length + (newer.length - n + 1) by omega,
      drop_length_add_append, drop_succ_cons] at hmem
    exact h (mem_of_mem_drop hmem)
  · intro hn
    rw [drop_append_of_le_length (by omega)]
    exact mem_append_right _ mem_cons_self

/-- The last place of a value in a list. -/
theorem eq_append_last_of_mem (h : a ∈ l) : ∃ before after, l = before ++ a :: after ∧ a ∉ after := by
  obtain ⟨after, before, hl, hafter⟩ := eq_append_cons_of_mem (mem_reverse.2 h)
  refine ⟨before.reverse, after.reverse, ?_, by rwa [mem_reverse]⟩
  rw [← reverse_reverse l, hl, reverse_append, reverse_cons, append_assoc]
  rfl

/-! ### Uses -/

variable [DecidableEq α]

/-- A value used: it moves to the end. -/
@[irreducible] def moveToEnd (limit : ℕ) (l : List α) (a : α) : List α := (l.filter (· ≠ a) ++ [a]).rtake limit

/-- The values used last, in the order of their last use. -/
@[irreducible] def lastUsed (limit : ℕ) (uses : List α) : List α := uses.dedup.rtake limit

theorem dedup_concat (l : List α) (a : α) : (l ++ [a]).dedup = l.dedup.filter (· ≠ a) ++ [a] := by
  induction l with
  | nil => rfl
  | cons b l ih =>
    rw [cons_append]
    by_cases hb : b ∈ l
    · rw [dedup_cons_of_mem (mem_append_left _ hb), dedup_cons_of_mem hb, ih]
    rw [dedup_cons_of_notMem hb]
    by_cases hba : b = a
    · rw [dedup_cons_of_mem (by simp [hba]), ih, filter_cons_of_neg (by simpa using hba)]
    · rw [dedup_cons_of_notMem (by simp [hb, hba]), ih, filter_cons_of_pos (by simpa using hba),
        cons_append]

/-- Leaving one value out of a list without repetitions takes at most one place. -/
theorem length_le_filter_ne (h : l.Nodup) (a : α) : l.length ≤ (l.filter (· ≠ a)).length + 1 := by
  have herase : l.filter (· ≠ a) = l.erase a := by
    rw [h.erase_eq_filter a]
    exact filter_congr fun x _ => by simp [bne, Bool.beq_eq_decide_eq]
  rw [herase, length_erase]
  split <;> omega

variable {limit : ℕ}

/-- One use more. -/
theorem moveToEnd_lastUsed (hlimit : 0 < limit) (uses : List α) (a : α) :
    moveToEnd limit (lastUsed limit uses) a = lastUsed limit (uses ++ [a]) := by
  obtain ⟨n, rfl⟩ := Nat.exists_eq_add_of_lt hlimit
  rw [zero_add, moveToEnd, lastUsed, lastUsed, dedup_concat, rtake_concat_succ, rtake_concat_succ]
  congr 1
  -- either nothing has fallen out yet, or what is left after `a` still has `n` values
  rcases lt_or_ge uses.dedup.length (n + 1) with hshort | hlong
  · rw [rtake_of_length_le hshort.le]
  obtain ⟨fallen, hfallen⟩ := rtake_suffix uses.dedup (n + 1)
  have hlength := length_le_filter_ne ((nodup_dedup uses).sublist (rtake_suffix uses.dedup (n + 1)).sublist) a
  rw [length_rtake, min_eq_left hlong] at hlength
  conv_rhs => rw [← hfallen, filter_append]
  exact (rtake_append_of_le _ (by omega)).symm

theorem lastUsed_nil (limit : ℕ) : lastUsed limit ([] : List α) = [] := by
  rw [lastUsed, dedup_nil, rtake_nil]

theorem lastUsed_suffix (limit : ℕ) (uses : List α) : lastUsed limit uses <:+ uses.dedup := by
  rw [lastUsed]
  exact rtake_suffix _ _

theorem nodup_lastUsed (limit : ℕ) (uses : List α) : (lastUsed limit uses).Nodup :=
  (nodup_dedup uses).sublist (lastUsed_suffix limit uses).sublist

theorem length_lastUsed_le (limit : ℕ) (uses : List α) : (lastUsed limit uses).length ≤ limit := by
  rw [lastUsed, length_rtake]
  exact min_le_left _ _

theorem getLast?_lastUsed (hlimit : 0 < limit) (uses : List α) (a : α) :
    (lastUsed limit (uses ++ [a])).getLast? = some a := by
  obtain ⟨n, rfl⟩ := Nat.exists_eq_add_of_lt hlimit
  rw [zero_add, lastUsed, dedup_concat, rtake_concat_succ, getLast?_concat]

/-- A value used again moves to the end, and nothing falls out. -/
theorem moveToEnd_of_mem (hlength : l.length ≤ limit) (h : a ∈ l) :
    moveToEnd limit l a = l.filter (· ≠ a) ++ [a] := by
  have hless : (l.filter (· ≠ a)).length < l.length :=
    length_filter_lt_length_iff_exists.2 ⟨a, h, by simp⟩
  rw [moveToEnd, rtake_of_length_le]
  rw [length_append, length_singleton]
  omega

/-- Where a value stands that has been used once since: after all that were used after it. -/
theorem exists_dedup_eq (before : List α) {after : List α} (h : a ∉ after) :
    ∃ older, (before ++ a :: after).dedup = older ++ a :: after.dedup := by
  rw [dedup_append, dedup_cons_of_notMem h]
  obtain ⟨older, hold⟩ := suffix_union_right before (a :: after.dedup)
  exact ⟨older, hold.symm⟩

/-- A value is among those used last exactly when fewer than `limit` values have been used since. -/
theorem mem_lastUsed {uses : List α} : a ∈ lastUsed limit uses ↔
    ∃ before after, uses = before ++ a :: after ∧ a ∉ after ∧ after.toFinset.card < limit := by
  have hsplit : ∀ before after, uses = before ++ a :: after → a ∉ after →
      (a ∈ lastUsed limit uses ↔ after.toFinset.card < limit) := by
    rintro before after rfl hafter
    obtain ⟨older, hold⟩ := exists_dedup_eq before hafter
    rw [lastUsed, hold, mem_rtake_append_cons (by rwa [mem_dedup]), card_toFinset]
  constructor
  · intro h
    have hused : a ∈ uses := mem_dedup.1 ((lastUsed_suffix limit uses).subset h)
    obtain ⟨before, after, huses, hafter⟩ := eq_append_last_of_mem hused
    exact ⟨before, after, huses, hafter, (hsplit before after huses hafter).1 h⟩
  · rintro ⟨before, after, huses, hafter, hcard⟩
    exact (hsplit before after huses hafter).2 hcard

end Quil.Schemes
