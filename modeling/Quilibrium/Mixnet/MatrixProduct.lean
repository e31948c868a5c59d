import Mathlib.Data.Matrix.Basis
import Mathlib.Algebra.Field.Basic
import Mathlib.Algebra.BigOperators.Fin
import Mathlib.Tactic.Abel

/-! The mixnet's matrix product (`rpm::generate_dot_product`, `coppersmith_winograd`).

    Up to 100 rows the product is summed ROW BY ROW; above, seven half-size products of padded blocks are
    combined recursively. The combination is not Winograd's: its first block adds `a11·b11` to
    `a11·(b12 − b11)`, so whatever the recursive products are worth, the corner of the result reads the wrong
    columns of `b`. The main result says for which shapes the function IS the matrix product. -/

namespace Quil.Mixnet

variable {F : Type*} [Field F]

/-- `a_padded`: the `n × n` part of `a`, zero beyond. -/
def padded (n : ℕ) (a : ℕ → ℕ → F) : ℕ → ℕ → F := fun i j => if i < n ∧ j < n then a i j else 0

/-- The block of `a` whose first entry is `(i₀, j₀)`. -/
def block (a : ℕ → ℕ → F) (i₀ j₀ : ℕ) : ℕ → ℕ → F := fun i j => a (i₀ + i) (j₀ + j)

/-- `coppersmith_winograd` on two matrices with `n` rows: the result's entries below `n`. Sums and differences of
    blocks are entrywise (`add_matrices`, `subtract_matrices`). No caller reaches `n = 0`. -/
def coppersmithWinograd (n : ℕ) (a b : ℕ → ℕ → F) : ℕ → ℕ → F :=
  if n ≤ 1 then fun _ _ => a 0 0 * b 0 0
  else
    let mid := (if n % 2 = 0 then n else n + 1) / 2
    let a11 := block (padded n a) 0 0
    let a12 := block (padded n a) 0 mid
    let a21 := block (padded n a) mid 0
    let a22 := block (padded n a) mid mid
    let b11 := block (padded n b) 0 0
    let b12 := block (padded n b) 0 mid
    let b21 := block (padded n b) mid 0
    let b22 := block (padded n b) mid mid
    let s1 := a21 - a11
    let s2 := a21 + a22
    let s3 := a12 - a22
    let s4 := b12 - b11
    let s5 := b11 + b22
    let s6 := b22 - b21
    let p1 := coppersmithWinograd mid a11 b11
    let p2 := coppersmithWinograd mid s1 s5
    let p3 := coppersmithWinograd mid s2 b11
    let p4 := coppersmithWinograd mid a22 s6
    let p5 := coppersmithWinograd mid a11 s4
    let p6 := coppersmithWinograd mid s3 b22
    let p7 := coppersmithWinograd mid s2 s6
    let t1 := p1 + p2
    let t2 := t1 - p3
    let c11 := p1 + p5
    let c12 := t2 + p6
    let c21 := t1 + p4
    let c22 := t2 + p7
    fun i j =>
      if i < mid then if j < mid then c11 i j else c12 i (j - mid)
      else if j < mid then c21 (i - mid) j else c22 (i - mid) (j - mid)
termination_by n
decreasing_by all_goals (split <;> omega)

/-- The entries of an `r × m` matrix, read by number. -/
def entries {r m : ℕ} (a : Matrix (Fin r) (Fin m) F) : ℕ → ℕ → F :=
  fun i j => if h : i < r ∧ j < m then a ⟨i, h.1⟩ ⟨j, h.2⟩ else 0

/-- `generate_dot_product` on matrices of matching shapes; `none` where it indexes out of bounds. A matrix without
    rows has no `a[0]` (or `b[0]`), and the recursive algorithm reads the first `r` rows and columns of both and
    returns `r` of each, whatever the shapes are. -/
def generateDotProduct {r m p : ℕ} (a : Matrix (Fin r) (Fin m) F) (b : Matrix (Fin m) (Fin p) F) :
    Option (Σ n k, Matrix (Fin n) (Fin k) F) :=
  if r = 0 ∨ m = 0 then none
  else if r ≤ 100 then
    some ⟨r, p, fun x y => (List.finRange m).foldl (fun sum ay => sum + a x ay * b ay y) 0⟩
  else if m < r ∨ p < r then none
  else some ⟨r, r, fun i j => coppersmithWinograd r (entries a) (entries b) i j⟩

/-! ### Row by row -/

theorem generateDotProduct_of_le {r m p : ℕ} (hr : 0 < r) (hr' : r ≤ 100) (hm : 0 < m)
    (a : Matrix (Fin r) (Fin m) F) (b : Matrix (Fin m) (Fin p) F) :
    generateDotProduct a b = some ⟨r, p, a * b⟩ := by
  rw [generateDotProduct, if_neg (by omega), if_pos hr']
  congr 3
  ext x y
  rw [Matrix.mul_apply, Fin.sum_univ_def, List.sum_eq_foldl, List.foldl_map]

/-! ### The recursive algorithm -/

theorem block_padded_neg (n : ℕ) (b : ℕ → ℕ → F) (i₀ j₀ : ℕ) :
    block (padded n (-b)) i₀ j₀ = -block (padded n b) i₀ j₀ := by
  ext i j
  simp only [block, padded, Pi.neg_apply]
  split <;> simp

/-- Each of the seven products has a combination of `b`'s blocks on its right, so the sign of `b` comes out. -/
theorem coppersmithWinograd_neg (n : ℕ) (a b : ℕ → ℕ → F) :
    coppersmithWinograd n a (-b) = -coppersmithWinograd n a b := by
  induction n using Nat.strong_induction_on generalizing a b with
  | _ n ih =>
    rw [coppersmithWinograd, coppersmithWinograd]
    split
    · ext; simp
    have hmid : (if n % 2 = 0 then n else n + 1) / 2 < n := by split <;> omega
    have hsub : ∀ x y : ℕ → ℕ → F, -x - -y = -(x - y) := fun x y => by abel
    generalize (if n % 2 = 0 then n else n + 1) / 2 = mid at hmid ⊢
    simp only [block_padded_neg, hsub, ← neg_add, ih _ hmid]
    ext i j
    simp only [Pi.neg_apply]
    split <;> split <;> rfl

/-- The matrix with a one in its first entry and zeros elsewhere. -/
def corner : ℕ → ℕ → F := fun i j => if i = 0 ∧ j = 0 then 1 else 0

theorem block_padded_corner {n : ℕ} (hn : 0 < n) (j₀ : ℕ) :
    block (padded n corner) 0 j₀ = if j₀ = 0 then (corner : ℕ → ℕ → F) else 0 := by
  ext i j
  rcases Nat.eq_zero_or_pos i with rfl | hi
  · rcases Nat.eq_zero_or_pos j with rfl | hj
    · by_cases hj₀ : j₀ = 0 <;> simp [block, padded, corner, hn, hj₀]
    · split <;> simp [block, padded, corner, hj.ne']
  · split <;> simp [block, padded, corner, hi.ne']

/-- The first entry of the recursive square is that of `p1 + p5`, and here `p5 = −p1`. -/
theorem coppersmithWinograd_corner {n : ℕ} (hn : 2 ≤ n) :
    coppersmithWinograd n corner corner 0 0 = (0 : F) := by
  rw [coppersmithWinograd, if_neg (by omega)]
  have hmid : 0 < (if n % 2 = 0 then n else n + 1) / 2 := by split <;> omega
  simp only [if_pos hmid, block_padded_corner (show 0 < n by omega), if_neg hmid.ne', zero_sub]
  simp [coppersmithWinograd_neg]

/-- The `r × m` matrix of `corner`. -/
def cornerMatrix (F : Type*) [Field F] (r m : ℕ) : Matrix (Fin r) (Fin m) F := fun i j => corner i j

theorem entries_cornerMatrix {r m : ℕ} (hr : 0 < r) (hm : 0 < m) :
    entries (cornerMatrix F r m) = corner := by
  ext i j
  simp only [entries, cornerMatrix, corner]
  split_ifs <;> first | rfl | omega

theorem cornerMatrix_mul {r m p : ℕ} (hr : 0 < r) (hm : 0 < m) (hp : 0 < p) :
    (cornerMatrix F r m * cornerMatrix F m p) ⟨0, hr⟩ ⟨0, hp⟩ = 1 := by
  rw [Matrix.mul_apply, Finset.sum_eq_single ⟨0, hm⟩]
  · simp [cornerMatrix, corner]
  · rintro i - hi
    have : (i : ℕ) ≠ 0 := fun h => hi (Fin.ext h)
    simp [cornerMatrix, corner, this]
  · simp

/-- Above 100 rows the product of two corner matrices is not computed. -/
theorem generateDotProduct_cornerMatrix {r m p : ℕ} (hr : 100 < r) (hm : 0 < m) (hp : 0 < p) :
    generateDotProduct (cornerMatrix F r m) (cornerMatrix F m p) ≠
      some ⟨r, p, cornerMatrix F r m * cornerMatrix F m p⟩ := by
  rw [generateDotProduct, if_neg (by omega), if_neg (by omega)]
  split
  · simp
  rintro h
  rw [Option.some.injEq, Sigma.mk.injEq] at h
  obtain ⟨rfl, h⟩ := (Sigma.mk.injEq ..).mp (eq_of_heq h.2)
  have h0 := congrFun (congrFun (eq_of_heq h) ⟨0, hp⟩) ⟨0, hp⟩
  rw [cornerMatrix_mul hp hm hp, entries_cornerMatrix hp hm, entries_cornerMatrix hm hp,
    coppersmithWinograd_corner (by omega)] at h0
  exact zero_ne_one h0

/-! ### The shapes on which it is the matrix product -/

/-- `generate_dot_product` is the matrix product on the shapes with a row, an inner index and AT MOST 100 ROWS, and
    on no others: above, one pair of matrices of every shape is multiplied wrongly. -/
theorem generateDotProduct_eq_mul_iff (r m p : ℕ) :
    (∀ (a : Matrix (Fin r) (Fin m) F) (b : Matrix (Fin m) (Fin p) F),
      generateDotProduct a b = some ⟨r, p, a * b⟩) ↔ 0 < r ∧ r ≤ 100 ∧ 0 < m := by
  constructor
  · rintro h
    rcases Nat.eq_zero_or_pos r with rfl | hr
    · simpa [generateDotProduct] using h 0 0
    rcases Nat.eq_zero_or_pos m with rfl | hm
    · simpa [generateDotProduct] using h 0 0
    refine ⟨hr, ?_, hm⟩
    by_contra hr'
    rcases Nat.eq_zero_or_pos p with rfl | hp
    · simpa [generateDotProduct, hr.ne', hm.ne', hr', hr] using h 0 0
    · exact generateDotProduct_cornerMatrix (Nat.lt_of_not_le hr') hm hp (h _ _)
  · rintro ⟨hr, hr', hm⟩ a b
    exact generateDotProduct_of_le hr hr' hm a b

/-- Two 101 × 101 matrices with a one at (0, 0): the recursive algorithm computes 0 there, the product has 1. -/
theorem generateDotProduct_101 :
    coppersmithWinograd 101 (entries (cornerMatrix ℚ 101 101)) (entries (cornerMatrix ℚ 101 101)) 0 0 = 0 ∧
      (cornerMatrix ℚ 101 101 * cornerMatrix ℚ 101 101) 0 0 = 1 ∧
      generateDotProduct (cornerMatrix ℚ 101 101) (cornerMatrix ℚ 101 101) ≠
        some ⟨101, 101, cornerMatrix ℚ 101 101 * cornerMatrix ℚ 101 101⟩ := by
  refine ⟨?_, cornerMatrix_mul (by omega) (by omega) (by omega),
    generateDotProduct_cornerMatrix (by omega) (by omega) (by omega)⟩
  rw [entries_cornerMatrix (by omega) (by omega), coppersmithWinograd_corner (by omega)]

end Quil.Mixnet
