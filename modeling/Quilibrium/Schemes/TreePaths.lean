import Mathlib.Data.Nat.Bitwise
import Quilibrium.Schemes.SparseTree

/-! PATHS in a binary tree given as a value for each position `(level, index)`: the siblings met on the way up
    from a position, and the climb that computes the value at the top from the one at the bottom. Climbing
    needs the tree's rule only at the positions it passes, so a path through a tree with placed subtrees is
    a path through the whole tree they were cut from. -/

namespace Quil.Schemes
open Nat

variable {N : Type*} {i : ℕ}

theorem xor_one_of_even (h : i % 2 = 0) : i ^^^ 1 = i + 1 := by
  rw [Nat.xor_one_of_even (Nat.even_iff.2 h)]

theorem xor_one_of_odd (h : i % 2 = 1) : i ^^^ 1 = i - 1 := by
  rw [Nat.xor_one_of_odd (Nat.odd_iff.2 h)]

theorem xor_one_div (i : ℕ) : (i ^^^ 1) / 2 = i / 2 := by
  rcases mod_two_eq_zero_or_one i with h | h
  · rw [xor_one_of_even h]
    omega
  · rw [xor_one_of_odd h]
    omega

/-- The siblings on the way `steps` levels up from a position, and whether the way is their right one. -/
def pathUp (T : ℕ → ℕ → N) : (level index steps : ℕ) → List (N × Bool)
  | _, _, 0 => []
  | l, i, steps + 1 => (T l (i ^^^ 1), decide (i % 2 ≠ 0)) :: pathUp T (l + 1) (i / 2) steps

/-- The value at the end of a path from the one at its start. -/
def climb (parent : N → N → N) (n : N) (path : List (N × Bool)) : N :=
  path.foldl (fun n step => if step.2 then parent step.1 n else parent n step.1) n

theorem length_pathUp (T : ℕ → ℕ → N) (l i steps : ℕ) : (pathUp T l i steps).length = steps := by
  induction steps generalizing l i with
  | zero => rfl
  | succ steps ih => rw [pathUp, List.length_cons, ih]

/-- A path is its lower part and the path from where that ends. -/
theorem pathUp_add (T : ℕ → ℕ → N) (l i s t : ℕ) :
    pathUp T l i (s + t) = pathUp T l i s ++ pathUp T (l + s) (i / 2 ^ s) t := by
  induction s generalizing l i with
  | zero => simp [pathUp]
  | succ s ih =>
    rw [add_right_comm, pathUp, ih, pathUp, List.cons_append, Nat.div_div_eq_div_mul,
      ← pow_succ', add_right_comm, add_assoc l s 1]

/-- Levels counted from another one. -/
theorem pathUp_shift (T : ℕ → ℕ → N) (k l i steps : ℕ) :
    pathUp (fun l => T (k + l)) l i steps = pathUp T (k + l) i steps := by
  induction steps generalizing l i with
  | zero => rfl
  | succ steps ih => rw [pathUp, pathUp, ih, add_assoc]

variable {T : ℕ → ℕ → N} {l steps : ℕ}

/-- Trees that agree at the siblings have the same path. -/
theorem pathUp_congr {T' : ℕ → ℕ → N} (h : ∀ s < steps, T (l + s) (i / 2 ^ s ^^^ 1) = T' (l + s) (i / 2 ^ s ^^^ 1)) :
    pathUp T l i steps = pathUp T' l i steps := by
  induction steps generalizing l i with
  | zero => rfl
  | succ steps ih =>
    have hfirst : T l (i ^^^ 1) = T' l (i ^^^ 1) := by simpa using h 0 (succ_pos _)
    have hrest := ih (l := l + 1) (i := i / 2) fun s hs => by
      have := h (s + 1) (succ_lt_succ hs)
      rwa [pow_succ', ← Nat.div_div_eq_div_mul, ← add_assoc, add_right_comm] at this
    rw [pathUp, pathUp, hfirst, hrest]

theorem getElem?_pathUp {s : ℕ} (hs : s < steps) :
    (pathUp T l i steps)[s]? = some (T (l + s) (i / 2 ^ s ^^^ 1), decide (i / 2 ^ s % 2 ≠ 0)) := by
  induction steps generalizing l i s with
  | zero => omega
  | succ steps ih =>
    cases s with
    | zero => simp [pathUp]
    | succ s =>
      rw [pathUp, List.getElem?_cons_succ, ih (lt_of_succ_lt_succ hs), Nat.div_div_eq_div_mul,
        ← pow_succ', add_assoc, add_comm 1 s]

/-- Climbing from a position's value along its siblings gives the value above, if the tree's rule holds on the way. -/
theorem climb_pathUp {parent : N → N → N} (h : ∀ s < steps, T (l + s + 1) (i / 2 ^ (s + 1)) =
      parent (T (l + s) (2 * (i / 2 ^ (s + 1)))) (T (l + s) (2 * (i / 2 ^ (s + 1)) + 1))) :
    climb parent (T l i) (pathUp T l i steps) = T (l + steps) (i / 2 ^ steps) := by
  induction steps generalizing l i with
  | zero => simp [pathUp, climb]
  | succ steps ih =>
    have hrest := ih (l := l + 1) (i := i / 2) fun s hs => by
      have := h (s + 1) (succ_lt_succ hs)
      rwa [pow_succ' 2 (s + 1), ← Nat.div_div_eq_div_mul, ← add_assoc, add_right_comm l] at this
    have hstep : (if decide (i % 2 ≠ 0) then parent (T l (i ^^^ 1)) (T l i)
        else parent (T l i) (T l (i ^^^ 1))) = T (l + 1) (i / 2) := by
      have hrule := h 0 (succ_pos _)
      simp only [add_zero, zero_add, pow_one] at hrule
      rw [hrule]
      rcases mod_two_eq_zero_or_one i with hi | hi
      · rw [xor_one_of_even hi, if_neg (by simp [hi])]
        congr 2 <;> omega
      · rw [xor_one_of_odd hi, if_pos (by simp [hi])]
        congr 2 <;> omega
    rw [pathUp, climb, List.foldl_cons]
    dsimp only
    rw [hstep]
    change climb parent _ _ = _
    rw [hrest, Nat.div_div_eq_div_mul, ← pow_succ', add_assoc, add_comm 1 steps]

/-! ### Paths in full trees -/

variable {k : ℕ} {R L : List (ℕ × N)}

section
variable (parent : N → N → N) (zero : N)

theorem full_leaves_succ (L : List (ℕ × N)) (l i : ℕ) : full parent zero (leaves L) (l + 1) i =
      parent (full parent zero (leaves L) l (2 * i)) (full parent zero (leaves L) l (2 * i + 1)) := rfl

variable {parent zero}

/-- The levels of a tree from `k` up are the tree over its level `k`. -/
theorem full_lift {z : N} (hbase : ∀ i, (R.lookup i).getD z = T k i)
    (hT : ∀ l i, T (k + l + 1) i = parent (T (k + l) (2 * i)) (T (k + l) (2 * i + 1))) (l i : ℕ) :
    full parent z (leaves R) l i = T (k + l) i := by
  induction l generalizing i with
  | zero => exact hbase i
  | succ l ih => rw [full_leaves_succ, ih, ih, ← add_assoc, hT]

/-- Placing the nodes of a CUT instead of the leaves under it changes no value that is not strictly under the cut. -/
theorem full_cut {Q : Placement N} (hplaced : ∀ l i n, Q l i = some n → n = full parent zero (leaves L) l i)
    (hcover : ∀ x ∈ L, ∃ l i, Q l i ≠ none ∧ Under 0 x.1 l i) (habove : ∀ k j, Q k j ≠ none → Under l i k j → k = l) :
    full parent zero Q l i = full parent zero (leaves L) l i := by
  induction l generalizing i with
  | zero =>
    rw [full, full]
    cases hQ : Q 0 i with
    | some n => exact hplaced 0 i n hQ
    | none =>
      have hnone : leaves L 0 i = none := by
        refine lookup_eq_none.2 fun x hx hi => ?_
        obtain ⟨k, j, hkj, hu⟩ := hcover x hx
        rw [hi] at hu
        obtain rfl := habove k j hkj hu
        obtain ⟨-, rfl⟩ := under_zero.1 hu
        exact hkj hQ
      rw [hnone]
  | succ l ih =>
    cases hQ : Q (l + 1) i with
    | some n =>
      rw [full, hQ]
      exact hplaced _ _ _ hQ
    | none =>
      have hchild : ∀ i', i' / 2 = i → full parent zero Q l i' = full parent zero (leaves L) l i' := by
        rintro i' rfl
        refine ih fun k j hkj hu => ?_
        by_contra hne
        have hpar : Under (l + 1) (i' / 2) k j := by
          obtain ⟨hle, rfl⟩ := hu
          refine ⟨by omega, ?_⟩
          rw [Nat.div_div_eq_div_mul, ← pow_succ']
          congr 2
          omega
        obtain rfl := habove k j hkj hpar
        obtain ⟨-, rfl⟩ := hpar
        exact hkj (by simpa using hQ)
      rw [full, hQ, Option.getD_none, hchild (2 * i) (by omega), hchild (2 * i + 1) (by omega)]
      rfl

/-- A subtree numbered from its own first index is the tree's part there. -/
theorem full_shift (h : ∀ j < 2 ^ k, R.lookup j = L.lookup (i * 2 ^ k + j))
    {j : ℕ} (hl : l ≤ k) (hj : j < 2 ^ (k - l)) :
    full parent zero (leaves R) l j = full parent zero (leaves L) l (i * 2 ^ (k - l) + j) := by
  induction l generalizing j with
  | zero => rw [full, full, leaves, leaves, h j hj, Nat.sub_zero]
  | succ l ih =>
    have hpow : 2 ^ (k - l) = 2 * 2 ^ (k - (l + 1)) := by rw [← pow_succ']; congr 1; omega
    rw [full_leaves_succ, full_leaves_succ, ih (by omega) (by omega), ih (by omega) (by omega), hpow]
    congr 2 <;> ring

/-- A path within the subtree is the tree's path there. -/
theorem pathUp_shift_index (h : ∀ j < 2 ^ k, R.lookup j = L.lookup (i * 2 ^ k + j)) {j : ℕ} (hj : j < 2 ^ k) :
    pathUp (full parent zero (leaves R)) 0 j k = pathUp (full parent zero (leaves L)) 0 (i * 2 ^ k + j) k := by
  refine List.ext_getElem? fun s => ?_
  by_cases hs : s < k
  · have hpow : 2 ^ k = 2 ^ s * 2 ^ (k - s) := by rw [← pow_add]; congr 1; omega
    have heven : 2 ^ (k - s) = 2 * 2 ^ (k - (s + 1)) := by rw [← pow_succ']; congr 1; omega
    have hdiv : (i * 2 ^ k + j) / 2 ^ s = i * 2 ^ (k - s) + j / 2 ^ s := by
      rw [hpow, mul_left_comm, mul_add_div (Nat.two_pow_pos s)]
    have hlt : j / 2 ^ s < 2 ^ (k - s) := by rwa [Nat.div_lt_iff_lt_mul (Nat.two_pow_pos s), mul_comm, ← hpow]
    have hxor : (i * 2 ^ (k - s) + j / 2 ^ s) ^^^ 1 = i * 2 ^ (k - s) + (j / 2 ^ s ^^^ 1) ∧
        (j / 2 ^ s ^^^ 1) < 2 ^ (k - s) ∧ (i * 2 ^ (k - s) + j / 2 ^ s) % 2 = j / 2 ^ s % 2 := by
      have hmul : i * 2 ^ (k - s) = 2 * (i * 2 ^ (k - (s + 1))) := by rw [heven]; ring
      generalize j / 2 ^ s = q at hlt ⊢
      rcases mod_two_eq_zero_or_one q with hj' | hj'
      · rw [xor_one_of_even hj', xor_one_of_even (by omega)]
        omega
      · rw [xor_one_of_odd hj', xor_one_of_odd (by omega)]
        omega
    rw [getElem?_pathUp hs, getElem?_pathUp hs, hdiv, hxor.1, hxor.2.2, zero_add, full_shift h hs.le hxor.2.1]
  · rw [List.getElem?_eq_none (by rw [length_pathUp]; omega), List.getElem?_eq_none
      (by rw [length_pathUp]; omega)]

end

end Quil.Schemes
