import Quilibrium.Schemes.TreePaths

/-! A binary tree GROWN leaf by leaf. After `count` leaves the complete subtrees waiting for a right sibling are
    one for each set bit of `count` (`pending`), a further leaf completes one subtree a level as far up as it
    carries (`completions`), and the rest of the tree is the subtree the last leaf lies in, padded with zero
    subtrees (`carried`). All of them are read off the tree over the whole history, so nothing has to be said
    about the trees in between. -/

namespace Quil.Schemes
open List

variable {N : Type*}

/-- Every position above the leaves is the parent of its two children. -/
def Grown (parent : N → N → N) (T : ℕ → ℕ → N) : Prop :=
  ∀ l i, T (l + 1) i = parent (T l (2 * i)) (T l (2 * i + 1))

/-- Nothing but zero subtrees from leaf `count` on. -/
def PaddedFrom (z : ℕ → N) (T : ℕ → ℕ → N) (count : ℕ) : Prop := ∀ l i, count ≤ i * 2 ^ l → T l i = z l

/-! ### The pending subtrees -/

/-- Which of the levels have a set bit. -/
def occupancy : (count len : ℕ) → List Bool
  | _, 0 => []
  | count, len + 1 => decide (count % 2 = 1) :: occupancy (count / 2) len

/-- The complete subtrees that wait for their right siblings, from `level` up. -/
def pending (T : ℕ → ℕ → N) : (level count len : ℕ) → List (Option N)
  | _, _, 0 => []
  | level, count, len + 1 =>
    (if count % 2 = 1 then some (T level (count - 1)) else none) :: pending T (level + 1) (count / 2) len

@[simp] theorem length_occupancy (count len : ℕ) : (occupancy count len).length = len := by
  induction len generalizing count with
  | zero => rfl
  | succ len ih => rw [occupancy, length_cons, ih]

theorem occupancy_zero (len : ℕ) : occupancy 0 len = .replicate len false := by
  induction len with
  | zero => rfl
  | succ len ih => rw [occupancy, Nat.zero_div, ih, replicate_succ]; rfl

theorem pending_zero (T : ℕ → ℕ → N) (level len : ℕ) : pending T level 0 len = .replicate len none := by
  induction len generalizing level with
  | zero => rfl
  | succ len ih => rw [pending, Nat.zero_div, ih, replicate_succ]; rfl

variable {T : ℕ → ℕ → N} {level len : ℕ}

theorem getElem?_pending {count s : ℕ} (hs : s < len) : (pending T level count len)[s]? =
      some (if count / 2 ^ s % 2 = 1 then some (T (level + s) (count / 2 ^ s - 1)) else none) := by
  induction len generalizing level count s with
  | zero => omega
  | succ len ih =>
    cases s with
    | zero => simp [pending]
    | succ s =>
      rw [pending, List.getElem?_cons_succ, ih (Nat.lt_of_succ_lt_succ hs), Nat.div_div_eq_div_mul,
        ← pow_succ', add_assoc, add_comm 1 s]

theorem take_pending (T : ℕ → ℕ → N) (level count : ℕ) {k : ℕ} (h : k ≤ len) :
    (pending T level count len).take k = pending T level count k := by
  induction k generalizing level count len with
  | zero => rfl
  | succ k ih =>
    obtain ⟨len, rfl⟩ : ∃ j, len = j + 1 := ⟨len - 1, by omega⟩
    rw [pending, pending, take_succ_cons, ih _ _ (Nat.le_of_succ_le_succ h)]

/-! ### What a leaf completes -/

/-- The subtrees that the leaf at `index` of `level` completes, that leaf included. -/
def completions (T : ℕ → ℕ → N) : (level index len : ℕ) → List (ℕ × ℕ × N)
  | _, _, 0 => []
  | level, index, len + 1 =>
    (level, index, T level index) ::
      if index % 2 = 1 then completions T (level + 1) (index / 2) len else []

theorem mem_completions_from {index : ℕ} {x : ℕ × ℕ × N} : x ∈ completions T level index len ↔
      ∃ s < len, ∃ i, (i + 1) * 2 ^ s = index + 1 ∧ x = (level + s, i, T (level + s) i) := by
  induction len generalizing level index with
  | zero => simp [completions]
  | succ len ih =>
    rw [completions, mem_cons]
    constructor
    · rintro (rfl | hmem)
      · exact ⟨0, Nat.succ_pos _, index, by simp, by simp⟩
      split at hmem
      · next hodd =>
        obtain ⟨s, hs, i, hi, rfl⟩ := ih.1 hmem
        refine ⟨s + 1, by omega, i, ?_, by rw [add_assoc, add_comm 1 s]⟩
        rw [pow_succ, ← mul_assoc, hi]
        omega
      · exact absurd hmem not_mem_nil
    · rintro ⟨s, hs, i, hi, rfl⟩
      cases s with
      | zero =>
        obtain rfl : i = index := by simpa using hi
        exact .inl (by simp)
      | succ s =>
        have hodd : index % 2 = 1 := by
          rw [pow_succ, ← mul_assoc] at hi
          omega
        refine .inr ?_
        rw [if_pos hodd]
        refine ih.2 ⟨s, by omega, i, ?_, by rw [add_assoc, add_comm 1 s]⟩
        rw [pow_succ, ← mul_assoc] at hi
        omega

/-- What the leaves of a history complete, one after another: every complete subtree. -/
theorem mem_history {count : ℕ} {x : ℕ × ℕ × N} : x ∈ (List.range count).flatMap (fun k => completions T 0 k len) ↔
      x.1 < len ∧ (x.2.1 + 1) * 2 ^ x.1 ≤ count ∧ x.2.2 = T x.1 x.2.1 := by
  rw [mem_flatMap]
  constructor
  · rintro ⟨k, hk, hx⟩
    obtain ⟨s, hs, i, hi, rfl⟩ := mem_completions_from.1 hx
    rw [zero_add]
    exact ⟨hs, hi ▸ mem_range.1 hk, rfl⟩
  · rintro ⟨hlt, hle, hT⟩
    have hpos : 0 < (x.2.1 + 1) * 2 ^ x.1 := Nat.mul_pos (Nat.succ_pos _) (Nat.two_pow_pos _)
    refine ⟨(x.2.1 + 1) * 2 ^ x.1 - 1, mem_range.2 (by omega), mem_completions_from.2 ⟨x.1, hlt, x.2.1, by omega, ?_⟩⟩
    rw [zero_add, ← hT]

/-! ### The subtree of the last leaf -/

/-- The node above a pending left node and what is carried from the right; a node alone is padded on its right. -/
def carryOver (parent : N → N → N) (z : N) : Option N → Option N → Option N
  | some left, some right => some (parent left right)
  | some left, none => some (parent left z)
  | none, some right => some (parent right z)
  | none, none => none

/-- The node at `level` over the leaves that fill no subtree of that level, if there are such leaves. -/
def carried (T : ℕ → ℕ → N) (count level : ℕ) : Option N :=
  if count % 2 ^ level = 0 then none else some (T level (count / 2 ^ level))

section
variable {parent : N → N → N} {z : ℕ → N} {count : ℕ}

theorem div_two_pow_succ (count level : ℕ) : count / 2 ^ (level + 1) = count / 2 ^ level / 2 := by
  rw [pow_succ, Nat.div_div_eq_div_mul]

/-- Filling exactly at one level more: at that level, with its last bit clear. -/
theorem mod_two_pow_succ_eq_zero {count : ℕ} :
    count % 2 ^ (level + 1) = 0 ↔ count % 2 ^ level = 0 ∧ count / 2 ^ level % 2 = 0 := by
  rw [Nat.mod_pow_succ]
  have := Nat.two_pow_pos level
  constructor
  · intro h
    have hmul : 2 ^ level * (count / 2 ^ level % 2) = 0 := by omega
    refine ⟨by omega, ?_⟩
    rcases Nat.mul_eq_zero.1 hmul with h0 | h0
    · omega
    · exact h0
  · rintro ⟨h, h'⟩
    rw [h, h', Nat.mul_zero]

/-- One level up: the pending subtree joins from the left, a zero subtree from the right. -/
theorem carried_succ (hT : Grown parent T) (hpad : PaddedFrom z T count) (level : ℕ) :
    carried T count (level + 1) = carryOver parent (z level)
      (if count / 2 ^ level % 2 = 1 then some (T level (count / 2 ^ level - 1)) else none)
      (carried T count level) := by
  have hnext : T (level + 1) (count / 2 ^ level / 2) =
      parent (T level (2 * (count / 2 ^ level / 2))) (T level (2 * (count / 2 ^ level / 2) + 1)) := hT _ _
  have hmod : count % 2 ^ (level + 1) = 0 ↔ _ := mod_two_pow_succ_eq_zero
  have hdecomp := Nat.div_add_mod count (2 ^ level)
  rw [carried, carried, div_two_pow_succ, hnext]
  rcases Nat.mod_two_eq_zero_or_one (count / 2 ^ level) with heven | hodd
  · have hidx : 2 * (count / 2 ^ level / 2) = count / 2 ^ level := by omega
    rw [hidx, if_neg (by omega : ¬ count / 2 ^ level % 2 = 1)]
    by_cases hfill : count % 2 ^ level = 0
    · rw [if_pos (hmod.2 ⟨hfill, heven⟩), if_pos hfill]
      rfl
    rw [if_neg (fun h => hfill (hmod.1 h).1), if_neg hfill, hpad level (count / 2 ^ level + 1) ?_]
    · rfl
    have := Nat.mod_lt count (Nat.two_pow_pos level)
    rw [add_mul, mul_comm]
    omega
  have hidx : 2 * (count / 2 ^ level / 2) = count / 2 ^ level - 1 := by omega
  rw [hidx, show count / 2 ^ level - 1 + 1 = count / 2 ^ level by omega, if_pos hodd,
    if_neg (fun h => absurd (hmod.1 h).2 (by omega))]
  by_cases hfill : count % 2 ^ level = 0
  · rw [if_pos hfill, hpad level (count / 2 ^ level) ?_]
    · rfl
    rw [mul_comm]
    omega
  · rw [if_neg hfill]
    rfl

/-- At a level that holds all leaves: what is carried, else the subtree pending there, else nothing but zeros. -/
theorem top_eq (hpad : PaddedFrom z T count) {depth : ℕ} (h : count ≤ 2 ^ depth) : ((carried T count depth).or
      (if count / 2 ^ depth % 2 = 1 then some (T depth (count / 2 ^ depth - 1)) else none)).getD (z depth) =
      T depth 0 := by
  rcases lt_or_ge count (2 ^ depth) with hlt | hge
  · rw [carried, Nat.div_eq_of_lt hlt, Nat.mod_eq_of_lt hlt]
    by_cases hzero : count = 0
    · rw [if_pos hzero, if_neg (by decide), hpad depth 0 (by omega)]
      rfl
    · rw [if_neg hzero]
      rfl
  obtain rfl : count = 2 ^ depth := by omega
  rw [carried, Nat.mod_self, Nat.div_self (Nat.two_pow_pos _)]
  rfl

end

end Quil.Schemes
