import Mathlib.Algebra.Field.ZMod
import Mathlib.Algebra.Module.BigOperators
import Mathlib.LinearAlgebra.Matrix.Notation
import Quilibrium.Mixnet.MatrixProduct

/-! The mixnet's sketch (`rpm_sketch_propose`, `rpm_sketch_verify`) and shuffle (`rpm_permute`, `rpm_finalize`).

    A player's sketch has ONE point an index, for the sum of its row AND its column. So the verifier learns that the
    two sum to two together, as they do in a permutation matrix, and in others; the shuffle REARRANGES messages only if
    the reconstructed matrices carry unit messages to unit messages and the masks leave nothing behind. Here a vector
    of `k · k` values is the matrix of its `k` blocks, which the butterfly transposes, and points are multiples of a
    base point. -/

namespace Quil.Mixnet
open List

variable {F G : Type*} [Field F] [AddCommGroup G] [Module F G] {depth k : ℕ}

/-- `interpolate_polynomial_shares`, and of points `interpolate_polynomial_point_shares`: party `i` has share
    `i - 1`. -/
def interpolate (F : Type*) [Field F] [Module F G] (shares : ℕ → G) (ids : List ℕ) : G :=
  ∑ j : Fin ids.length, ((∏ i with j ≠ i, (ids.get i : F)) * (∏ i with j ≠ i, (ids.get i - ids.get j : F))⁻¹) •
    shares (ids.get j - 1)

/-- A matrix for each block, and a mask, at every depth: what a dealer hands to a player, or a player holds. -/
structure Shares (F : Type*) (depth k : ℕ) where
  m : Fin depth → Fin k → Matrix (Fin k) (Fin k) F
  r : Fin depth → Matrix (Fin k) (Fin k) F

/-- `generate_dot_product` of two `k × k` matrices. -/
def dot (a b : Matrix (Fin k) (Fin k) F) : Matrix (Fin k) (Fin k) F :=
  if k ≤ 100 then a * b else fun i j => coppersmithWinograd k (entries a) (entries b) i j

/-- `rpm_collect_m` and `rpm_collect_r`, over the dealers. -/
def collect : List (Shares F depth k) → Shares F depth k
  | [] => ⟨0, 0⟩
  | s :: rest => ⟨fun d l => rest.foldl (fun m t => dot m (t.m d l)) (s.m d l),
      fun d => rest.foldl (fun r t => r + t.r d) (s.r d)⟩

structure SketchProposal (G : Type*) (depth k : ℕ) where
  mp : Fin depth → Fin k → Fin k → G
  rp : Fin depth → G

def sketchPropose (base : G) (s : Shares F depth k) : SketchProposal G depth k where
  mp d l x := (∑ y, (s.m d l x y + s.m d l y x)) • base
  rp d := (∑ x, ∑ y, s.r d x y) • base

/-- `size` parties, from the one after `p`. -/
def pset (p size : ℕ) : List ℕ := List.range' (p + 1) size

/-- `rpm_sketch_verify` of the players' sketches; there are `dealers²` players or more. -/
def SketchVerify (F : Type*) [Field F] [Module F G] (base : G) (cs : ℕ → SketchProposal G depth k)
    (players dealers : ℕ) : Prop :=
  (∀ d l x, ∀ p < players - dealers * dealers + 1,
    interpolate F (fun q => (cs q).mp d l x) (pset p (dealers * dealers)) = (1 + 1 : F) • base) ∧
  ∀ d, ∀ p < players - dealers, interpolate F (fun q => (cs q).rp d) (pset p dealers) =
    interpolate F (fun q => (cs q).rp d) (pset (p + 1) dealers)

/-- `rpm_permute` at depth `d`, of the player with the shares `s`. -/
def permute (s : Shares F depth k) (masked : ℕ → Matrix (Fin k) (Fin k) F) (parties : List ℕ) (d : Fin depth) :
    Matrix (Fin k) (Fin k) F :=
  let bigR : Matrix (Fin k) (Fin k) F := fun l x => interpolate F (fun q => masked q l x) parties
  let mask := if d.1 = 0 then s.r d else (s.r d).transpose
  Matrix.transpose fun l => Matrix.vecMul (bigR l) (s.m d l) - Matrix.vecMul (mask l) (s.m d l) +
    if h : d + 1 < depth then s.r ⟨d + 1, h⟩ l else 0

/-- Every depth, on all players' output of the last, and `rpm_finalize`. -/
def shuffle (shares : ℕ → Shares F depth k) (masked : ℕ → Matrix (Fin k) (Fin k) F) (parties : List ℕ) :
    Matrix (Fin k) (Fin k) F :=
  let out := (List.finRange depth).foldl (fun ys d q => permute (shares q) ys parties d) masked
  fun l x => interpolate F (fun q => out q l x) parties

/-- What the parties `ids` reconstruct. -/
def reconstruct (shares : ℕ → Shares F depth k) (ids : List ℕ) : Shares F depth k where
  m d l x y := interpolate F (fun q => (shares q).m d l x y) ids
  r d x y := interpolate F (fun q => (shares q).r d x y) ids

/-! ### What the verifier learns -/

variable (ids : List ℕ)

theorem interpolate_smul (base : G) (s : ℕ → F) :
    interpolate F (fun q => s q • base) ids = interpolate F s ids • base := by
  simp only [interpolate, Finset.sum_smul, smul_smul, smul_eq_mul]

theorem interpolate_sum {ι : Type*} [Fintype ι] (s : ℕ → ι → F) :
    interpolate F (fun q => ∑ i, s q i) ids = ∑ i, interpolate F (fun q => s q i) ids := by
  simp only [interpolate, Finset.smul_sum]
  exact Finset.sum_comm

theorem interpolate_add (s t : ℕ → F) :
    interpolate F (fun q => s q + t q) ids = interpolate F s ids + interpolate F t ids := by
  simp only [interpolate, smul_add, Finset.sum_add_distrib]

/-- Whatever the dealers hand out, the sketches are accepted EXACTLY WHEN in the matrices that any `dealers²` parties
    in a row reconstruct every row and its column sum to two together, and the masks that any `dealers` parties in a
    row reconstruct have one total. -/
theorem sketchVerify_iff {base : G} (hbase : ∀ a : F, a • base = 0 → a = 0)
    (dealt : ℕ → List (Shares F depth k)) (players dealers : ℕ) :
    SketchVerify F base (sketchPropose base ∘ collect ∘ dealt) players dealers ↔
      (∀ d l x, ∀ p < players - dealers * dealers + 1,
        let m := (reconstruct (collect ∘ dealt) (pset p (dealers * dealers))).m d l
        ∑ y, (m x y + m y x) = 2) ∧
      ∀ d, ∀ p < players - dealers, ∑ x, ∑ y, (reconstruct (collect ∘ dealt) (pset p dealers)).r d x y =
        ∑ x, ∑ y, (reconstruct (collect ∘ dealt) (pset (p + 1) dealers)).r d x y := by
  have hinj : ∀ a b : F, a • base = b • base ↔ a = b := by
    intro a b
    rw [← sub_eq_zero, ← sub_smul]
    exact ⟨fun h => sub_eq_zero.mp (hbase _ h), fun h => by simp [h]⟩
  simp only [SketchVerify, sketchPropose, Function.comp_apply, interpolate_smul, hinj, interpolate_sum,
    interpolate_add, reconstruct, one_add_one_eq_two]

/-! ### What the shuffle does to the messages -/

/-- `interpolate_matrix_shares`. -/
def interpolateMatrixShares (shares : ℕ → Matrix (Fin k) (Fin k) F) (ids : List ℕ) : Matrix (Fin k) (Fin k) F :=
  .of fun l x => interpolate F (fun q => shares q l x) ids

/-- The mask on the input of depth `d`: the butterfly has transposed all but the first. -/
def maskAt (s : Shares F depth k) (d : ℕ) : Matrix (Fin k) (Fin k) F :=
  if h : d < depth then if d = 0 then s.r ⟨d, h⟩ else (s.r ⟨d, h⟩).transpose else 0

/-- Messages through depth `d`: every block times its matrix, then the butterfly. -/
def layer (s : Shares F depth k) (x : Matrix (Fin k) (Fin k) F) (d : Fin depth) : Matrix (Fin k) (Fin k) F :=
  .of fun i l => Matrix.vecMul (x l) (s.m d l) i

/-- What the masks add at depth `d`: nothing if the players' products of masks and matrices are shares of the product
    of what they reconstruct. -/
def maskError (shares : ℕ → Shares F depth k) (parties : List ℕ) (d : Fin depth) : Matrix (Fin k) (Fin k) F :=
  layer (reconstruct shares parties) (maskAt (reconstruct shares parties) d) d -
    interpolateMatrixShares (fun q => layer (shares q) (maskAt (shares q) d) d) parties

/-- Messages through every depth, with an addition at each. -/
def through (s : Shares F depth k) (added : Fin depth → Matrix (Fin k) (Fin k) F) (x : Matrix (Fin k) (Fin k) F) :
    Matrix (Fin k) (Fin k) F :=
  (List.finRange depth).foldl (fun x d => layer s x d + added d) x

section
variable (s : Shares F depth k) (added : Fin depth → Matrix (Fin k) (Fin k) F) (x y : Matrix (Fin k) (Fin k) F)

theorem layer_apply (d : Fin depth) (i l : Fin k) : layer s x d i l = ∑ y, x l y * s.m d l y i := rfl

theorem layer_add (d : Fin depth) : layer s (x + y) d = layer s x d + layer s y d := by
  ext i l
  simp only [Matrix.add_apply, layer_apply, add_mul, Finset.sum_add_distrib]

theorem layer_smul (a : F) (d : Fin depth) : layer s (a • x) d = a • layer s x d := by
  ext i l
  simp only [Matrix.smul_apply, layer_apply, smul_eq_mul, Finset.mul_sum, mul_assoc]

/-- The additions pass apart from the messages. -/
theorem through_add : through s added (x + y) = through s 0 x + through s added y := by
  unfold through
  generalize finRange depth = ds
  induction ds generalizing x y with
  | nil => rfl
  | cons d ds ih =>
    simp only [foldl_cons, layer_add, Pi.zero_apply, add_zero, add_assoc] at ih ⊢
    exact ih _ _

theorem through_smul (a : F) : through s 0 (a • x) = a • through s 0 x := by
  unfold through
  generalize finRange depth = ds
  induction ds generalizing x with
  | nil => rfl
  | cons d ds ih =>
    simp only [foldl_cons, layer_smul, Pi.zero_apply, add_zero] at ih ⊢
    exact ih _

theorem through_zero : through s 0 (0 : Matrix (Fin k) (Fin k) F) = 0 := by simpa using through_smul s 0 0

theorem through_sum {ι : Type*} (t : Finset ι) (f : ι → Matrix (Fin k) (Fin k) F) :
    through s 0 (∑ i ∈ t, f i) = ∑ i ∈ t, through s 0 (f i) := by
  classical
  induction t using Finset.induction with
  | empty => exact through_zero s
  | insert i t hi ih => rw [Finset.sum_insert hi, Finset.sum_insert hi, through_add, ih]

/-- A player's part of a depth: the revealed vector through its matrices, less the old mask, under the next. -/
theorem permute_eq (masked : ℕ → Matrix (Fin k) (Fin k) F) (parties : List ℕ) (d : Fin depth) :
    permute s masked parties d = layer s (interpolateMatrixShares masked parties) d - layer s (maskAt s d) d +
      maskAt s (d + 1) := by
  ext i l
  have hlast : (if h : d + 1 < depth then s.r ⟨d + 1, h⟩ l else 0) i = maskAt s (d + 1) i l := by
    rw [maskAt]
    split_ifs with h h'
    · exact h'.elim
    · rfl
    · rfl
  have hmask : maskAt s d = if d.1 = 0 then s.r d else (s.r d).transpose := dif_pos d.2
  rw [Matrix.add_apply, Matrix.sub_apply, ← hlast, hmask]
  rfl

end

section
variable (shares : ℕ → Shares F depth k) (parties : List ℕ)

theorem interpolateMatrixShares_add (a b : ℕ → Matrix (Fin k) (Fin k) F) :
    interpolateMatrixShares (fun q => a q + b q) parties =
      interpolateMatrixShares a parties + interpolateMatrixShares b parties := by
  ext l x
  exact interpolate_add parties (fun q => a q l x) fun q => b q l x

theorem interpolateMatrixShares_sub (a b : ℕ → Matrix (Fin k) (Fin k) F) :
    interpolateMatrixShares (fun q => a q - b q) parties =
      interpolateMatrixShares a parties - interpolateMatrixShares b parties := by
  ext l x
  simp only [interpolateMatrixShares, interpolate, Matrix.of_apply, Matrix.sub_apply, smul_sub, Finset.sum_sub_distrib]

theorem interpolateMatrixShares_layer (x : Matrix (Fin k) (Fin k) F) (d : Fin depth) :
    interpolateMatrixShares (fun q => layer (shares q) x d) parties = layer (reconstruct shares parties) x d := by
  ext i l
  simp only [interpolateMatrixShares, Matrix.of_apply, layer_apply, interpolate_sum]
  refine Finset.sum_congr rfl fun y _ => ?_
  simp only [interpolate, reconstruct, smul_eq_mul, Finset.mul_sum]
  exact Finset.sum_congr rfl fun _ _ => mul_left_comm ..

theorem interpolateMatrixShares_maskAt (d : ℕ) :
    interpolateMatrixShares (fun q => maskAt (shares q) d) parties = maskAt (reconstruct shares parties) d := by
  ext i l
  unfold maskAt
  split_ifs
  · rfl
  · rfl
  · simp [interpolateMatrixShares, interpolate]

/-- A depth of the shuffle leaves the messages a depth further, under the next mask. -/
theorem interpolate_permute {masked : ℕ → Matrix (Fin k) (Fin k) F} {x : Matrix (Fin k) (Fin k) F} {d : Fin depth}
    (h : interpolateMatrixShares masked parties = x + maskAt (reconstruct shares parties) d) :
    interpolateMatrixShares (fun q => permute (shares q) masked parties d) parties =
      layer (reconstruct shares parties) x d + maskError shares parties d +
        maskAt (reconstruct shares parties) (d + 1) := by
  simp only [permute_eq, interpolateMatrixShares_add, interpolateMatrixShares_sub, interpolateMatrixShares_layer,
    interpolateMatrixShares_maskAt, h, layer_add, maskError]
  abel

/-- The shuffle takes masked messages through the reconstructed matrices, with what the masks add. -/
theorem shuffle_eq (xs : ℕ → Matrix (Fin k) (Fin k) F) :
    shuffle shares (fun q => xs q + maskAt (shares q) 0) parties =
      through (reconstruct shares parties) (maskError shares parties) (interpolateMatrixShares xs parties) := by
  -- after the first n depths the players hold shares of the messages so far under mask n
  have hdepth : ∀ n ≤ depth, interpolateMatrixShares (((finRange depth).take n).foldl
      (fun ys d q => permute (shares q) ys parties d) fun q => xs q + maskAt (shares q) 0) parties =
      ((finRange depth).take n).foldl (fun x d => layer (reconstruct shares parties) x d +
        maskError shares parties d) (interpolateMatrixShares xs parties) + maskAt (reconstruct shares parties) n := by
    intro n
    induction n with
    | zero =>
      intro _
      rw [take_zero, foldl_nil, foldl_nil, interpolateMatrixShares_add, interpolateMatrixShares_maskAt]
    | succ n ih =>
      intro hn
      rw [take_succ_eq_append_getElem (by simpa using hn), foldl_append, foldl_append,
        getElem_finRange]
      exact interpolate_permute shares parties (d := ⟨n, by omega⟩) (ih (by omega))
  have hall := hdepth depth le_rfl
  rw [take_of_length_le (by simp)] at hall
  refine Eq.trans hall ?_
  rw [maskAt, dif_neg (lt_irrefl _), add_zero]
  rfl

end

/-- Every vector of messages can be shared among distinct parties. -/
theorem exists_shares {parties : List ℕ} (hparties : parties ≠ [])
    (hdistinct : (parties.map (Nat.cast : ℕ → F)).Nodup) (hnonzero : ∀ p ∈ parties, (p : F) ≠ 0)
    (x : Matrix (Fin k) (Fin k) F) : ∃ xs, interpolateMatrixShares xs parties = x := by
  let first : Fin parties.length := ⟨0, length_pos_iff.2 hparties⟩
  have hinj : ∀ i j, (parties.get i : F) = parties.get j → i = j := by
    intro i j h
    rw [nodup_iff_injective_getElem] at hdistinct
    have := @hdistinct (i.cast (by simp)) (j.cast (by simp)) (by simpa using h)
    simpa [Fin.ext_iff] using this
  let weight : F := (∏ i with first ≠ i, (parties.get i : F)) *
    (∏ i with first ≠ i, (parties.get i - parties.get first : F))⁻¹
  have hweight : weight ≠ 0 := by
    refine mul_ne_zero (Finset.prod_ne_zero_iff.2 fun i _ => hnonzero _ (get_mem ..))
      (inv_ne_zero (Finset.prod_ne_zero_iff.2 fun i hi => sub_ne_zero.2 fun h => ?_))
    exact (Finset.mem_filter.1 hi).2 (hinj _ _ h.symm)
  -- the first party holds it all, divided by its own weight
  refine ⟨fun q => if q = parties.get first - 1 then weight⁻¹ • x else 0, ?_⟩
  ext l y
  have hothers : ∀ j, j ≠ first → parties.get j - 1 ≠ parties.get first - 1 := by
    intro j hj heq
    have hpos : ∀ j, parties.get j ≠ 0 := fun j h => hnonzero _ (get_mem ..) (by rw [h, Nat.cast_zero])
    have := hpos j
    have := hpos first
    exact hj (hinj _ _ (by rw [show parties.get j = parties.get first by omega]))
  rw [interpolateMatrixShares, Matrix.of_apply, interpolate, Finset.sum_eq_single first]
  · rw [if_pos rfl, Matrix.smul_apply, smul_eq_mul, smul_eq_mul, mul_inv_cancel_left₀ hweight]
  · intro j _ hj
    rw [if_neg (hothers j hj), Matrix.zero_apply, smul_zero]
  · simp

/-! ### When accepted shares rearrange -/

/-- The same values at other positions. -/
def Rearranged (x y : Matrix (Fin k) (Fin k) F) : Prop :=
  ∃ σ : Equiv.Perm (Fin k × Fin k), ∀ i, y (σ i).1 (σ i).2 = x i.1 i.2

/-- One message among zeros. -/
def unit (i : Fin k × Fin k) : Matrix (Fin k) (Fin k) F := .of fun l x => if (l, x) = i then 1 else 0

theorem unit_apply (i j : Fin k × Fin k) : (unit i : Matrix (Fin k) (Fin k) F) j.1 j.2 = if j = i then 1 else 0 := rfl

theorem sum_unit (x : Matrix (Fin k) (Fin k) F) : x = ∑ i : Fin k × Fin k, x i.1 i.2 • unit i := by
  ext l y
  simp [Matrix.sum_apply, unit]

/-- A rearranged unit message is a unit message. -/
theorem Rearranged.unit {i : Fin k × Fin k} {y : Matrix (Fin k) (Fin k) F} (h : Rearranged (unit i) y) :
    ∃ j, y = Mixnet.unit j := by
  obtain ⟨σ, hσ⟩ := h
  refine ⟨σ i, Matrix.ext fun l x => ?_⟩
  have hx := hσ (σ.symm (l, x))
  simp only [Equiv.apply_symm_apply, unit_apply, Equiv.symm_apply_eq] at hx
  exact hx

/-- Two unit messages do not end in one position. -/
theorem not_rearranged_smul {i j : Fin k × Fin k} (hij : i ≠ j) (a : F) (l : Fin k × Fin k) :
    ¬ Rearranged (unit i + unit j) (a • unit l : Matrix (Fin k) (Fin k) F) := by
  rintro ⟨σ, hσ⟩
  have hi := hσ i
  have hj := hσ j
  simp only [Matrix.add_apply, Matrix.smul_apply, unit_apply, if_neg hij, if_neg hij.symm, if_true, add_zero, zero_add,
    smul_eq_mul, mul_ite, mul_one, mul_zero] at hi hj
  split_ifs at hi hj with hil hjl
  · exact hij (σ.injective (hil.trans hjl.symm))
  all_goals simp_all

/-- Messages come out rearranged, whatever they are, exactly when unit messages do, to different positions, and nothing
    is added. -/
theorem rearranges_iff (s : Shares F depth k) (added : Fin depth → Matrix (Fin k) (Fin k) F) :
    (∀ x, Rearranged x (through s added x)) ↔
      (∃ σ : Equiv.Perm (Fin k × Fin k), ∀ i, through s 0 (unit i) = unit (σ i)) ∧ through s added 0 = 0 := by
  have happly : ∀ x, through s added x = through s 0 x + through s added 0 := fun x => by
    rw [← through_add, add_zero]
  constructor
  · intro h
    have hzero : through s added 0 = 0 := by
      obtain ⟨σ, hσ⟩ := h 0
      ext l x
      simpa using hσ (σ.symm (l, x))
    have hlinear : ∀ x, through s added x = through s 0 x := fun x => by rw [happly, hzero, add_zero]
    choose τ hτ using fun i => (hlinear (unit i) ▸ h (unit i)).unit
    have hinj : Function.Injective τ := by
      intro i j hij
      by_contra hne
      have hsum := h (unit i + unit j)
      rw [hlinear, through_add, hτ i, hτ j, ← hij, ← two_smul F] at hsum
      exact not_rearranged_smul hne 2 (τ i) hsum
    exact ⟨⟨Equiv.ofBijective τ (Finite.injective_iff_bijective.1 hinj), hτ⟩, hzero⟩
  · rintro ⟨⟨σ, hσ⟩, hzero⟩ x
    refine ⟨σ, fun i => ?_⟩
    have hx : through s 0 x = ∑ j, x j.1 j.2 • unit (σ j) := by
      conv_lhs => rw [sum_unit x]
      simp only [through_sum, through_smul, hσ]
    rw [happly, hzero, add_zero, hx]
    simp [Matrix.sum_apply, unit_apply]

/-- Two depths that swap the first block and keep the second, under masks; every player holds the same. -/
def swapping : Shares (ZMod 3) 2 2 :=
  ⟨fun _ l => if l = 0 then !![0, 1; 1, 0] else !![1, 0; 0, 1], fun _ => !![1, 1 + 1; 0, 1]⟩

/-- Where the messages go. -/
def swapped : Equiv.Perm (Fin 2 × Fin 2) where
  toFun i := if i = (0, 0) then (0, 1) else if i = (0, 1) then (1, 0) else if i = (1, 0) then (0, 0) else i
  invFun i := if i = (0, 1) then (0, 0) else if i = (1, 0) then (0, 1) else if i = (0, 0) then (1, 0) else i
  left_inv := by decide
  right_inv := by decide

/-- A dealer's matrices that are no permutations, with an empty mask. -/
def mixing : Shares (ZMod 3) 1 2 := ⟨fun _ _ => !![1 + 1, -1; -1, 1 + 1], 0⟩

end Quil.Mixnet
