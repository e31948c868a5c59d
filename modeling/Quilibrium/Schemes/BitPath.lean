import Mathlib.Data.Nat.Bitwise
import Mathlib.Tactic

/-! Bit paths — lists of bits, most significant first — and the families of paths that PARTITION
    the space of all long paths: prefix-free and complete. A path of length `w` is the same thing
    as a number below `2 ^ w`; `value` and `pathOf` are the two directions. Everything that reads
    an address, a block id or a tree index as "the leading bits" goes through these lemmas. -/

namespace Quil.Schemes
open List

/-- Membership of a path in a list of paths is decided through this. -/
instance lawfulBEq_path : LawfulBEq (List Bool) := List.instLawfulBEq

/-! ### Paths as numbers -/

/-- The number a path reads as, most significant bit first. -/
def value (p : List Bool) : ℕ := p.foldl (fun acc b => 2 * acc + b.toNat) 0

/-- The `w`-bit path of `n`. -/
def pathOf (w n : ℕ) : List Bool := (List.range w).map fun i => n.testBit (w - 1 - i)

@[simp] theorem value_nil : value [] = 0 := rfl

theorem value_concat (p : List Bool) (b : Bool) : value (p ++ [b]) = 2 * value p + b.toNat := by
  simp [value, foldl_append]

theorem value_append (p q : List Bool) : value (p ++ q) = value p * 2 ^ q.length + value q := by
  induction q using reverseRecOn with
  | nil => simp
  | append_singleton q b ih =>
    rw [← append_assoc, value_concat, value_concat, ih, length_append, length_singleton]
    ring

theorem value_lt (p : List Bool) : value p < 2 ^ p.length := by
  induction p using reverseRecOn with
  | nil => simp
  | append_singleton p b ih =>
    rw [value_concat, length_append, length_singleton, pow_succ]
    have hb := Bool.toNat_lt b
    omega

@[simp] theorem length_pathOf (w n : ℕ) : (pathOf w n).length = w := by simp [pathOf]

theorem getElem_pathOf (w n i : ℕ) (h : i < (pathOf w n).length) : (pathOf w n)[i] = n.testBit (w - 1 - i) := by
  simp [pathOf]

/-- The last bit of a path is the parity of its number, the rest the path of its half. -/
theorem pathOf_succ (w n : ℕ) : pathOf (w + 1) n = pathOf w (n / 2) ++ [n.testBit 0] := by
  rw [pathOf, range_succ, map_append, pathOf]
  congr 1
  · refine map_congr_left fun i hi => ?_
    have hi' := mem_range.mp hi
    rw [← Nat.testBit_succ]
    congr 1; omega
  · simp

theorem value_pathOf (w : ℕ) : ∀ n, n < 2 ^ w → value (pathOf w n) = n := by
  induction w with
  | zero => intro n hn; simp [pathOf, value] at *; omega
  | succ w ih =>
    intro n hn
    rw [pathOf_succ, value_concat, ih (n / 2) (by rw [pow_succ] at hn; omega), Nat.testBit_zero]
    by_cases h : n % 2 = 1 <;> simp [h] <;> omega

theorem pathOf_value {w : ℕ} (p : List Bool) (hw : p.length = w) : pathOf w (value p) = p := by
  subst hw
  induction p using reverseRecOn with
  | nil => rfl
  | append_singleton p b ih =>
    have hb := Bool.toNat_lt b
    have hhalf : (2 * value p + b.toNat) / 2 = value p := by omega
    rw [length_append, length_singleton, value_concat, pathOf_succ, hhalf, ih, Nat.testBit_zero]
    cases b <;> simp

/-- Appending paths shifts the first number by the length of the second. -/
theorem pathOf_mul_add (p : List Bool) (k r : ℕ) (hr : r < 2 ^ k) :
    pathOf (p.length + k) (value p * 2 ^ k + r) = p ++ pathOf k r := by
  have hv : value (p ++ pathOf k r) = value p * 2 ^ k + r := by rw [value_append, length_pathOf, value_pathOf k r hr]
  rw [← hv]
  exact pathOf_value _ (by simp)

/-! ### Partitions of the space of paths -/

/-- Neither path begins with the other. -/
def Apart (p q : List Bool) : Prop := ¬ p <+: q ∧ ¬ q <+: p

instance (p q : List Bool) : Decidable (Apart p q) := inferInstanceAs (Decidable (¬ p <+: q ∧ ¬ q <+: p))

/-- A complete prefix-free family: no member begins with another, and every path at least as long
    as all members begins with one of them. -/
structure Partition (paths : List (List Bool)) : Prop where
  prefixFree : paths.Pairwise Apart
  complete : ∀ q : List Bool, (∀ p ∈ paths, p.length ≤ q.length) → ∃ p ∈ paths, p <+: q

instance : Std.Symm Apart := ⟨fun _ _ h => ⟨h.2, h.1⟩⟩

/-- In a prefix-free family at most one member begins a given path. -/
theorem eq_of_prefixFree {paths : List (List Bool)} (h : paths.Pairwise Apart) {p q r : List Bool}
    (hp : p ∈ paths) (hq : q ∈ paths) (hpr : p <+: r) (hqr : q <+: r) : p = q := by
  by_contra hne
  have hap : Apart p q := h.forall hp hq hne
  rcases prefix_or_prefix_of_prefix hpr hqr with hc | hc
  · exact hap.1 hc
  · exact hap.2 hc

/-- Exactly one member of a partition begins a long enough path. -/
theorem Partition.existsUnique {paths : List (List Bool)} (h : Partition paths) (q : List Bool)
    (hq : ∀ p ∈ paths, p.length ≤ q.length) : ∃ p ∈ paths, ∀ p' ∈ paths, p' <+: q ↔ p' = p := by
  obtain ⟨p, hp, hpq⟩ := h.complete q hq
  refine ⟨p, hp, fun p' hp' => ⟨fun hp'q => ?_, fun he => he ▸ hpq⟩⟩
  exact eq_of_prefixFree h.prefixFree hp' hp hp'q hpq

end Quil.Schemes
