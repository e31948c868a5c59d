import Mathlib.Algebra.Order.Floor.Semifield
import Mathlib.Analysis.Complex.ExponentialBounds
import Quilibrium.Types

/-! The difficulty of the next frame (`quil-engine/src/difficulty.rs`): the anchor's difficulty times two to a Q16
    exponent, in integers. The exponent's integer part SHIFTS, its fraction goes through a cubic for `2 ^ x`. The
    arithmetic of the exponent is 64-bit and wraps; `Fits` says where it does not. The cubic never falls, so the
    target is monotone across every boundary of the exponent; above `2 ^ 48` the left shift loses bits. -/

namespace Quil.Difficulty
open Nat

def RADIX : ℤ := 2 ^ 16
/-- Milliseconds. -/
def IDEAL_FRAME_TIME : ℤ := 10000
/-- Milliseconds. -/
def HALF_LIFE : ℤ := 7200000
def MIN_DIFFICULTY : ℕ := 50000
def BOOTSTRAP_DIFFICULTY : ℕ := 50000

structure AsertDifficultyAdjuster where
  anchorFrameNumber : ℕ
  anchorParentTime : ℤ
  anchorDifficulty : ℕ
deriving DecidableEq, Repr

/-- What an `i64` holds of an integer. -/
def wrap (x : ℤ) : ℤ := x.bmod (2 ^ 64)

def exponent (a : AsertDifficultyAdjuster) (frame : ℕ) (time : ℤ) : ℤ :=
  let frameNumberDelta := wrap (wrap frame - wrap a.anchorFrameNumber)
  let timeDelta := wrap (time - a.anchorParentTime)
  let idealXDelta := wrap (IDEAL_FRAME_TIME * wrap (frameNumberDelta + 1))
  let inner := wrap (timeDelta - idealXDelta)
  let numerator := wrap (-wrap (inner * RADIX))
  numerator.tdiv HALF_LIFE

/-- The sum stays below `2 ^ 64` for a fraction. -/
def poly (frac : ℕ) : ℕ :=
  195766423245049 * frac + 971821376 * frac * frac + 5127 * frac * frac * frac + 2 ^ 47

def factor (frac : ℕ) : ℕ := 65536 + poly frac / 2 ^ 48

/-- The exponent's integer part, an arithmetic shift. -/
def shifts (e : ℤ) : ℤ := e / 2 ^ 16

def frac (e : ℤ) : ℕ := (e % 2 ^ 16).toNat

/-- From Q16 to the difficulty, not below the floor. -/
def normalise (scaled : ℕ) : ℕ :=
  if scaled / 2 ^ 16 < MIN_DIFFICULTY then MIN_DIFFICULTY else scaled / 2 ^ 16

def applyExponent (difficulty : ℕ) (e : ℤ) : ℕ :=
  let scaled := difficulty * factor (frac e)
  if shifts e < 0 then
    let k := (-shifts e).toNat % 2 ^ 32
    normalise (if k ≥ 64 then 0 else scaled / 2 ^ k)
  else if shifts e > 48 ∧ difficulty > 0 then u64Max
  else
    let k := (shifts e).toNat % 2 ^ 32
    if k ≥ 64 then u64Max else normalise (scaled * 2 ^ k % 2 ^ 64)

def getNextDifficulty (a : AsertDifficultyAdjuster) (frame : ℕ) (time : ℤ) : ℕ :=
  if a.anchorDifficulty = 0 then BOOTSTRAP_DIFFICULTY
  else applyExponent a.anchorDifficulty (exponent a frame time)

/-! ### What the answer is for -/

/-- The target: the difficulty times the approximated power, with no bits lost. -/
def target (difficulty : ℕ) (e : ℤ) : ℚ := difficulty * factor (frac e) * 2 ^ shifts e / 2 ^ 16

/-- The anchor's difficulty times two to the exponent. -/
noncomputable def ideal (difficulty : ℕ) (e : ℤ) : ℝ := difficulty * 2 ^ ((e : ℝ) / 2 ^ 16)

def InI64 (x : ℤ) : Prop := -2 ^ 63 ≤ x ∧ x < 2 ^ 63

/-- How far the clock is ahead of the frames, in milliseconds. -/
def lag (a : AsertDifficultyAdjuster) (frame : ℕ) (time : ℤ) : ℤ :=
  time - a.anchorParentTime - IDEAL_FRAME_TIME * (frame - a.anchorFrameNumber + 1)

/-- The arithmetic of the exponent does not wrap. -/
structure Fits (a : AsertDifficultyAdjuster) (frame : ℕ) (time : ℤ) : Prop where
  timeDelta : InI64 (time - a.anchorParentTime)
  idealXDelta : InI64 (IDEAL_FRAME_TIME * (frame - a.anchorFrameNumber + 1))
  scaled : InI64 (lag a frame time * RADIX)
  negated : InI64 (-(lag a frame time * RADIX))

/-- The answer is the target, floored and not below the floor, and the target is within a five-thousandth of the
    ideal; at more time the answer is no greater, and at fewer frames no greater. -/
structure Sound (a : AsertDifficultyAdjuster) (frame : ℕ) (time : ℤ) : Prop where
  exact : getNextDifficulty a frame time =
    max MIN_DIFFICULTY ⌊target a.anchorDifficulty (exponent a frame time)⌋₊
  close : |(target a.anchorDifficulty (exponent a frame time) : ℝ) - ideal a.anchorDifficulty (exponent a frame time)| ≤
    1 / 5000 * ideal a.anchorDifficulty (exponent a frame time)
  falls : ∀ time', time ≤ time' → Fits a frame time' → getNextDifficulty a frame time' ≤ getNextDifficulty a frame time
  rises : ∀ frame', frame' ≤ frame → Fits a frame' time →
    getNextDifficulty a frame' time ≤ getNextDifficulty a frame time

/-! ### The exponent -/

variable {a : AsertDifficultyAdjuster} {frame frame' : ℕ} {time time' : ℤ} {d : ℕ} {e e' : ℤ} {f g : ℕ}

theorem wrap_of_inI64 {x : ℤ} (h : InI64 x) : wrap x = x := by
  refine Int.bmod_eq_of_le ?_ ?_
  · exact h.1
  · exact h.2.trans_le (by norm_num)

/-- Casts that wrap have the difference of what they cast. -/
theorem wrap_wrap_sub_wrap (x y : ℤ) : wrap (wrap x - wrap y) = wrap (x - y) := by
  rw [wrap, wrap, wrap, wrap, Int.bmod_sub_bmod, Int.sub_bmod_bmod]

theorem Fits.exponent_eq (h : Fits a frame time) :
    exponent a frame time = (-(lag a frame time * RADIX)).tdiv HALF_LIFE := by
  obtain ⟨htime, hideal, hscaled, hnegated⟩ := h
  have hlag : InI64 (lag a frame time) := by
    simp only [InI64, RADIX] at hscaled ⊢
    omega
  have hdelta : InI64 (frame - a.anchorFrameNumber) ∧ InI64 (frame - a.anchorFrameNumber + 1) := by
    simp only [InI64, IDEAL_FRAME_TIME] at hideal ⊢
    omega
  rw [exponent, wrap_wrap_sub_wrap frame, wrap_of_inI64 hdelta.1, wrap_of_inI64 hdelta.2, wrap_of_inI64 htime,
    wrap_of_inI64 hideal]
  change (wrap (-wrap (wrap (lag a frame time) * RADIX))).tdiv HALF_LIFE = _
  rw [wrap_of_inI64 hlag, wrap_of_inI64 hscaled, wrap_of_inI64 hnegated]

theorem Fits.exponent_lt (h : Fits a frame time) : (exponent a frame time).natAbs < 2 ^ 47 := by
  have hscaled := h.negated
  rw [h.exponent_eq, Int.neg_tdiv, Int.natAbs_neg, Int.natAbs_tdiv]
  have hlife : HALF_LIFE.natAbs = 7200000 := by simp [HALF_LIFE]
  simp only [InI64] at hscaled
  rw [hlife]
  change (lag a frame time * RADIX).natAbs / 7200000 < 2 ^ 47
  omega

/-- A clock further ahead has a smaller exponent. -/
theorem exponent_anti (h : Fits a frame time) (h' : Fits a frame' time') (hlag : lag a frame time ≤ lag a frame' time') :
    exponent a frame' time' ≤ exponent a frame time := by
  rw [h.exponent_eq, h'.exponent_eq]
  refine Int.tdiv_le_tdiv (by decide) ?_
  simp only [RADIX]
  omega

/-! ### The factor -/

theorem frac_lt (e : ℤ) : frac e < 2 ^ 16 := by
  rw [frac]
  omega

theorem poly_mono (h : f ≤ g) : poly f ≤ poly g := by
  rw [poly, poly]
  gcongr

theorem factor_mono (h : f ≤ g) : factor f ≤ factor g :=
  Nat.add_le_add_left (Nat.div_le_div_right (poly_mono h)) _

theorem factor_bounds (h : f < 2 ^ 16) : poly f < 2 ^ 64 ∧ 2 ^ 16 ≤ factor f ∧ factor f < 2 ^ 17 := by
  have hpoly : poly f ≤ poly 65535 := poly_mono (le_of_lt_succ h)
  have hlast : poly 65535 < 2 ^ 64 := by decide
  rw [factor]
  omega

/-- The cubic for `2 ^ x`. -/
noncomputable def cubic (x : ℝ) : ℝ :=
  1 + 195766423245049 / 2 ^ 48 * x + 971821376 / 2 ^ 32 * x ^ 2 + 5127 / 2 ^ 16 * x ^ 3

theorem two_rpow_bounds {x : ℝ} (h0 : 0 ≤ x) (h1 : x ≤ 1) :
    ∑ m ∈ .range 7, (0.6931471803 * x) ^ m / m.factorial ≤ 2 ^ x ∧
    (2 : ℝ) ^ x ≤ ∑ m ∈ .range 7, (0.6931471808 * x) ^ m / m.factorial +
      (0.6931471808 * x) ^ 7 * (7 + 1) / (factorial 7 * 7) := by
  have hlow := Real.log_two_gt_d9
  have hhigh := Real.log_two_lt_d9
  rw [Real.rpow_def_of_pos two_pos]
  constructor
  · calc _ ≤ Real.exp (0.6931471803 * x) := Real.sum_le_exp_of_nonneg (by positivity) 7
      _ ≤ _ := Real.exp_le_exp.2 (mul_le_mul_of_nonneg_right hlow.le h0)
  · calc _ ≤ Real.exp (0.6931471808 * x) := Real.exp_le_exp.2 (mul_le_mul_of_nonneg_right hhigh.le h0)
      _ ≤ _ := by
        have := Real.exp_bound' (x := 0.6931471808 * x) (by positivity) (by linarith) (n := 7) (by norm_num)
        exact_mod_cast this

theorem cubic_close {x : ℝ} (h0 : 0 ≤ x) (h1 : x ≤ 1) : |cubic x - 2 ^ x| ≤ (1 / 5000 - 1 / 2 ^ 17) * 2 ^ x := by
  obtain ⟨hlow, hhigh⟩ := two_rpow_bounds h0 h1
  -- both differences are non-negative combinations of the products of powers of `x` and `1 - x`
  have hbasis : ∀ i j : ℕ, 0 ≤ x ^ i * (1 - x) ^ j :=
    fun i j => mul_nonneg (pow_nonneg h0 i) (pow_nonneg (sub_nonneg.2 h1) j)
  simp only [Finset.sum_range_succ, Finset.sum_range_zero, factorial, cast_one] at hlow hhigh
  push_cast at hlow hhigh
  rw [abs_le, cubic]
  constructor
  · linarith [hbasis 0 10, hbasis 1 9, hbasis 2 8, hbasis 3 7, hbasis 4 6, hbasis 5 5, hbasis 6 4, hbasis 7 3,
      hbasis 8 2, hbasis 9 1, hbasis 10 0]
  · linarith [hbasis 0 12, hbasis 1 11, hbasis 2 10, hbasis 3 9, hbasis 4 8, hbasis 5 7, hbasis 6 6, hbasis 7 5,
      hbasis 8 4, hbasis 9 3, hbasis 10 2, hbasis 11 1, hbasis 12 0]

theorem factor_close (h : f < 2 ^ 16) :
    |(factor f : ℝ) / 2 ^ 16 - 2 ^ ((f : ℝ) / 2 ^ 16)| ≤ 1 / 5000 * 2 ^ ((f : ℝ) / 2 ^ 16) := by
  have hf : (f : ℝ) ≤ 2 ^ 16 := by exact_mod_cast h.le
  have hclose := cubic_close (x := (f : ℝ) / 2 ^ 16) (by positivity) (by rw [div_le_one (by positivity)]; exact hf)
  have hone : (1 : ℝ) ≤ 2 ^ ((f : ℝ) / 2 ^ 16) := Real.one_le_rpow one_le_two (by positivity)
  -- rounding moves the factor by at most half a unit
  have hround : |(factor f : ℝ) / 2 ^ 16 - cubic ((f : ℝ) / 2 ^ 16)| ≤ 1 / 2 ^ 17 := by
    have hdiv : poly f / 2 ^ 48 * 2 ^ 48 ≤ poly f ∧ poly f < (poly f / 2 ^ 48 + 1) * 2 ^ 48 := by omega
    have hlow : ((poly f / 2 ^ 48 : ℕ) : ℝ) * 2 ^ 48 ≤ poly f := by exact_mod_cast hdiv.1
    have hhigh : (poly f : ℝ) < ((poly f / 2 ^ 48 : ℕ) + 1) * 2 ^ 48 := by exact_mod_cast hdiv.2
    have hpoly : (poly f : ℝ) = 195766423245049 * f + 971821376 * f * f + 5127 * f * f * f + 2 ^ 47 := by
      rw [poly]
      push_cast
      ring
    rw [abs_le, cubic, factor, cast_add]
    constructor
    · linarith
    · linarith
  rw [abs_le] at *
  constructor
  · linarith
  · linarith

/-! ### The target -/

theorem target_mono (d : ℕ) (h : e ≤ e') : target d e ≤ target d e' := by
  have hlow := (factor_bounds (frac_lt e)).2.2
  have hhigh := (factor_bounds (frac_lt e')).2.1
  have hpow : (factor (frac e) : ℚ) * 2 ^ shifts e ≤ factor (frac e') * 2 ^ shifts e' := by
    rcases (Int.ediv_le_ediv (c := 2 ^ 16) (by norm_num) h).lt_or_eq with hlt | heq
    · -- a larger integer part outweighs any fraction
      calc (factor (frac e) : ℚ) * 2 ^ shifts e ≤ 2 ^ 17 * 2 ^ shifts e := by
            gcongr
            exact_mod_cast hlow.le
        _ = 2 ^ 16 * 2 ^ (shifts e + 1) := by rw [zpow_add_one₀ (by norm_num)]; ring
        _ ≤ factor (frac e') * 2 ^ shifts e' := by
            gcongr
            · exact_mod_cast hhigh
            · norm_num
            · exact hlt
    have hfrac : frac e ≤ frac e' := by
      simp only [frac]
      omega
    rw [shifts, shifts, heq]
    gcongr
    exact_mod_cast factor_mono hfrac
  rw [target, target, mul_assoc, mul_assoc]
  gcongr

theorem target_close (d : ℕ) (e : ℤ) : |(target d e : ℝ) - ideal d e| ≤ 1 / 5000 * ideal d e := by
  have hsplit : (e : ℝ) / 2 ^ 16 = frac e / 2 ^ 16 + shifts e := by
    have hint : e = frac e + 2 ^ 16 * shifts e := by
      simp only [frac, shifts]
      omega
    have hreal : (e : ℝ) = frac e + 2 ^ 16 * shifts e := by exact_mod_cast hint
    rw [hreal]
    ring
  have htarget : (target d e : ℝ) = d * 2 ^ shifts e * (factor (frac e) / 2 ^ 16) := by
    rw [target]
    push_cast
    ring
  have hideal : ideal d e = d * 2 ^ shifts e * 2 ^ ((frac e : ℝ) / 2 ^ 16) := by
    rw [ideal, hsplit, Real.rpow_add two_pos, Real.rpow_intCast]
    ring
  have hscale : (0 : ℝ) ≤ d * 2 ^ shifts e := by positivity
  rw [htarget, hideal, ← mul_sub, abs_mul, abs_of_nonneg hscale, mul_left_comm]
  exact mul_le_mul_of_nonneg_left (factor_close (frac_lt e)) hscale

theorem normalise_eq (scaled : ℕ) : normalise scaled = max MIN_DIFFICULTY (scaled / 2 ^ 16) := by
  rw [normalise]
  split <;> omega

/-- The target as the shifts compute it. -/
theorem floor_target (d : ℕ) (e : ℤ) : ⌊target d e⌋₊ =
    if 0 ≤ shifts e then d * factor (frac e) * 2 ^ (shifts e).toNat / 2 ^ 16
    else d * factor (frac e) / 2 ^ (-shifts e).toNat / 2 ^ 16 := by
  split
  · next h =>
    obtain ⟨n, hn⟩ := Int.eq_ofNat_of_zero_le h
    rw [target, hn, Int.toNat_natCast, zpow_natCast, ← floor_div_eq_div (K := ℚ)]
    push_cast
    rfl
  next h =>
  obtain ⟨n, hn⟩ := Int.eq_ofNat_of_zero_le (show 0 ≤ -shifts e by omega)
  rw [target, hn, Int.toNat_natCast, Nat.div_div_eq_div_mul, ← floor_div_eq_div (K := ℚ),
    show shifts e = -(n : ℤ) by omega, zpow_neg, zpow_natCast]
  push_cast
  congr 1
  field_simp
  norm_num

theorem target_lt_iff (h : 0 ≤ shifts e) :
    target d e < 2 ^ 48 ↔ d * factor (frac e) * 2 ^ (shifts e).toNat < 2 ^ 64 := by
  obtain ⟨n, hn⟩ := Int.eq_ofNat_of_zero_le h
  rw [target, div_lt_iff₀ (by positivity), hn, Int.toNat_natCast, zpow_natCast]
  norm_num
  exact_mod_cast Iff.rfl

theorem target_lt_of_neg (hd : d < 2 ^ 32) (h : shifts e < 0) : target d e < 2 ^ 48 := by
  have hfactor := (factor_bounds (frac_lt e)).2.2
  have hscaled : (d * factor (frac e) : ℚ) < 2 ^ 64 := by
    exact_mod_cast (Nat.mul_lt_mul'' hd hfactor).trans (by norm_num)
  have hpow : (2 : ℚ) ^ shifts e ≤ 1 := zpow_le_one_of_nonpos₀ one_le_two h.le
  have hle : (d * factor (frac e) : ℚ) * 2 ^ shifts e ≤ d * factor (frac e) :=
    mul_le_of_le_one_right (by positivity) hpow
  rw [target, div_lt_iff₀ (by positivity)]
  linarith

/-- The answer is the target exactly where no bits are lost. -/
theorem applyExponent_eq_iff (hpos : 0 < d) (hd : d < 2 ^ 32) (he : e.natAbs < 2 ^ 47) :
    applyExponent d e = max MIN_DIFFICULTY ⌊target d e⌋₊ ↔ target d e < 2 ^ 48 := by
  obtain ⟨-, hlow, hhigh⟩ := factor_bounds (frac_lt e)
  have hshifts : (shifts e).toNat < 2 ^ 32 ∧ (-shifts e).toNat < 2 ^ 32 := by
    simp only [shifts]
    omega
  rw [applyExponent, floor_target, mod_eq_of_lt hshifts.1, mod_eq_of_lt hshifts.2]
  dsimp only
  by_cases hneg : shifts e < 0
  · rw [if_pos hneg, if_neg (not_le.2 hneg), normalise_eq]
    refine iff_of_true ?_ (target_lt_of_neg hd hneg)
    split
    · next hk =>
      have hscaled : d * factor (frac e) < 2 ^ 64 := (Nat.mul_lt_mul'' hd hhigh).trans (by norm_num)
      rw [div_eq_of_lt (hscaled.trans_le (Nat.pow_le_pow_right two_pos hk))]
    · rfl
  rw [not_lt] at hneg
  rw [if_neg (not_lt.2 hneg), if_pos hneg, target_lt_iff hneg]
  have hlarge : d * factor (frac e) * 2 ^ (shifts e).toNat ≥ 2 ^ 16 * 2 ^ (shifts e).toNat :=
    Nat.mul_le_mul_right _ (hlow.trans (Nat.le_mul_of_pos_left _ hpos))
  split
  · next hfar =>
    -- the target is then even, and what is answered is odd
    obtain ⟨n, hn⟩ := Nat.exists_eq_add_of_le (show 17 ≤ (shifts e).toNat by omega)
    have hover : 2 ^ 49 ≤ 2 ^ (shifts e).toNat := Nat.pow_le_pow_right two_pos (by omega)
    have heven : d * factor (frac e) * 2 ^ (shifts e).toNat / 2 ^ 16 = 2 * (d * factor (frac e) * 2 ^ n) := by
      rw [hn, pow_add, show d * factor (frac e) * (2 ^ 17 * 2 ^ n) = 2 * (d * factor (frac e) * 2 ^ n) * 2 ^ 16 by ring,
        Nat.mul_div_cancel _ (by positivity)]
    refine iff_of_false (fun h => ?_) (not_lt.2 ?_)
    · rw [heven] at h
      generalize d * factor (frac e) * 2 ^ n = half at h
      have hmax : u64Max = 18446744073709551615 := by decide
      rw [hmax, MIN_DIFFICULTY] at h
      omega
    calc 2 ^ 64 ≤ 2 ^ 16 * 2 ^ 49 := by norm_num
      _ ≤ 2 ^ 16 * 2 ^ (shifts e).toNat := mul_le_mul_left _ hover
      _ ≤ _ := hlarge
  · next hnear =>
    rw [if_neg (by omega), normalise_eq]
    simp only [MIN_DIFFICULTY]
    omega

theorem le_applyExponent (d : ℕ) (e : ℤ) : MIN_DIFFICULTY ≤ applyExponent d e := by
  have hmax : MIN_DIFFICULTY ≤ u64Max := by decide
  simp only [applyExponent, normalise_eq]
  split_ifs <;> first | exact hmax | exact le_max_left _ _

theorem getNextDifficulty_eq_iff (hd : a.anchorDifficulty < 2 ^ 32) (h : Fits a frame time) :
    getNextDifficulty a frame time = max MIN_DIFFICULTY ⌊target a.anchorDifficulty (exponent a frame time)⌋₊ ↔
      target a.anchorDifficulty (exponent a frame time) < 2 ^ 48 := by
  rw [getNextDifficulty]
  split
  · next hzero => simp [hzero, target, MIN_DIFFICULTY, BOOTSTRAP_DIFFICULTY]
  · next hpos => exact applyExponent_eq_iff (pos_of_ne_zero hpos) hd h.exponent_lt

/-- Below `2 ^ 48`, a clock further ahead gets no more. -/
theorem getNextDifficulty_anti (hd : a.anchorDifficulty < 2 ^ 32) (h : Fits a frame time) (h' : Fits a frame' time')
    (hlag : lag a frame time ≤ lag a frame' time')
    (htarget : target a.anchorDifficulty (exponent a frame time) < 2 ^ 48) :
    getNextDifficulty a frame' time' ≤ getNextDifficulty a frame time := by
  have hle := target_mono a.anchorDifficulty (exponent_anti h h' hlag)
  rw [(getNextDifficulty_eq_iff hd h).2 htarget, (getNextDifficulty_eq_iff hd h').2 (hle.trans_lt htarget)]
  exact max_le_max_left _ (floor_le_floor hle)

/-- The answer never falls below the floor. It is the target, floored, within the approximation's error of the
    ideal and monotone in time and frames, exactly where the target is below `2 ^ 48`. -/
theorem difficulty_sound_iff (a : AsertDifficultyAdjuster) (frame : ℕ) (time : ℤ) (hd : a.anchorDifficulty < 2 ^ 32)
    (hfits : Fits a frame time) :
    MIN_DIFFICULTY ≤ getNextDifficulty a frame time ∧
      (Sound a frame time ↔ target a.anchorDifficulty (exponent a frame time) < 2 ^ 48) := by
  refine ⟨?_, fun h => (getNextDifficulty_eq_iff hd hfits).1 h.exact, fun h => ?_⟩
  · rw [getNextDifficulty]
    split
    · exact le_rfl
    · exact le_applyExponent _ _
  refine ⟨(getNextDifficulty_eq_iff hd hfits).2 h, target_close _ _, fun time' htime h' => ?_, fun frame' hframe h' => ?_⟩
  · refine getNextDifficulty_anti hd hfits h' ?_ h
    simp only [lag]
    omega
  refine getNextDifficulty_anti hd hfits h' ?_ h
  simp only [lag, IDEAL_FRAME_TIME]
  omega

theorem difficulty_sound_iff_on_schedule :
    MIN_DIFFICULTY ≤ getNextDifficulty ⟨0, 0, 100000⟩ 1 20000 ∧
      (Sound ⟨0, 0, 100000⟩ 1 20000 ↔ target 100000 (exponent ⟨0, 0, 100000⟩ 1 20000) < 2 ^ 48) :=
  difficulty_sound_iff ⟨0, 0, 100000⟩ 1 20000 (by norm_num) ⟨by unfold InI64; decide, by unfold InI64; decide,
    by unfold InI64; decide, by unfold InI64; decide⟩

/-- A shift by 31 is kept whole and one by 32 loses every bit, though more frames have passed. -/
theorem shift_loses_bits :
    getNextDifficulty ⟨0, 0, 65536⟩ 22319 0 = 2 ^ 47 ∧ getNextDifficulty ⟨0, 0, 65536⟩ 23039 0 = MIN_DIFFICULTY := by
  decide +kernel

end Quil.Difficulty
