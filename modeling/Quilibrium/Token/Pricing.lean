import Mathlib.Analysis.SpecialFunctions.Pow.NthRootLemmas
import Quilibrium.Schemes.Result

/-! Fee arithmetic (`quil-execution/src/pricing.rs`). The reward BASIS is a root of a constant over the size of the
    world; the BASELINE fee of growing the world is the square of the basis' decrease over the world's size, and at
    least the growth itself. A fee is a whole price per cost unit, rounded up, times the vote. Fixed-width sums,
    products and shifts and all divisions are checked here: a step the source could not make is a FAULT. Proved here:
    none occurs. -/

namespace Quil.Pricing
open Schemes Nat

/-- What a step of the arithmetic can end with, and the refusal of a cost outside the state-size range. -/
inductive PricingError where
  | overflow
  | divisionByZero
  | rootOutOfDomain
  | invalidArgument (message : String)
deriving DecidableEq, Repr

/-- An error that is no refusal. -/
def PricingError.IsFault : PricingError → Prop
  | .invalidArgument _ => False
  | _ => True

/-! ### Checked steps -/

def addU64 (a b : ℕ) : Except PricingError ℕ := if a + b < 2 ^ 64 then .ok (a + b) else .error .overflow

def mulU32 (a b : ℕ) : Except PricingError ℕ := if a * b < 2 ^ 32 then .ok (a * b) else .error .overflow

def shlU32 (a n : ℕ) : Except PricingError ℕ := if a * 2 ^ n < 2 ^ 32 then .ok (a * 2 ^ n) else .error .overflow

def shlU64 (a n : ℕ) : Except PricingError ℕ := if a * 2 ^ n < 2 ^ 64 then .ok (a * 2 ^ n) else .error .overflow

/-- Division of big integers, towards zero. -/
def divide (a b : ℤ) : Except PricingError ℤ := if b = 0 then .error .divisionByZero else .ok (a.tdiv b)

/-- The root of a big integer, rounded down. -/
def nthRoot (x : ℤ) (n : ℕ) : Except PricingError ℤ :=
  if n = 0 ∨ x < 0 then .error .rootOutOfDomain else .ok (Nat.nthRoot n x.toNat)

/-! ### The basis -/

def POMW_SCALE_BITS : ℕ := 53

def POMW_NUMERATOR : ℕ := 1125899906842624

def QUIL_TOKEN_UNITS : ℕ := 8000000000

def MAINNET_NETWORK : ℕ := 0

def NON_MAINNET_UNITS_PER_BYTE : ℕ := 1

/-- The factors of 10000 in a difficulty. -/
def pomwGeneration (difficulty : ℕ) : ℕ :=
  if difficulty < 10000 then 0 else pomwGeneration (difficulty / 10000) + 1
termination_by difficulty
decreasing_by omega

/-- The basis: the numerator over the world's size, its root of the generation's degree, in units. -/
def pomwBasis (difficulty worldStateBytes units : ℕ) : Except PricingError ℤ :=
  if worldStateBytes = 0 then .ok 0
  else if pomwGeneration difficulty = 0 then do
    let normalized ← divide POMW_NUMERATOR worldStateBytes
    return normalized * units
  else do
    let expDenom ← shlU32 1 (pomwGeneration difficulty)
    let preScaleBits ← mulU32 expDenom POMW_SCALE_BITS
    let scaled ← divide (POMW_NUMERATOR * 2 ^ preScaleBits) worldStateBytes
    let rooted ← nthRoot scaled expDenom
    -- a right shift rounds down
    return (rooted * units) / 2 ^ POMW_SCALE_BITS

/-- The reward of one ring of an allocation. -/
def allocationRingReward (basis stateSize worldBytes : ℤ) (ring dataShards : ℕ) : Except PricingError ℤ :=
  if basis ≤ 0 ∨ stateSize ≤ 0 ∨ worldBytes ≤ 0 ∨ dataShards = 0 then .ok 0
  else do
    let divisor ← shlU64 1 (min ring 62 + 1)
    let sqrt := Nat.sqrt (dataShards * 2 ^ (2 * POMW_SCALE_BITS))
    divide (stateSize * basis * 2 ^ POMW_SCALE_BITS) (worldBytes * divisor * sqrt)

/-- One prover slot's share of it. -/
def allocationProverReward (basis stateSize worldBytes : ℤ) (ring dataShards : ℕ) : Except PricingError ℤ := do
  let reward ← allocationRingReward basis stateSize worldBytes ring dataShards
  divide reward 8

/-! ### Fees -/

/-- The baseline fee of adding to the world. -/
def getBaselineFee (difficulty worldStateBytes totalAdded units : ℕ) : Except PricingError ℤ := do
  let current ← pomwBasis difficulty worldStateBytes units
  let grown ← addU64 worldStateBytes totalAdded
  let affected ← pomwBasis difficulty grown units
  let delta := current - affected
  if worldStateBytes = 0 then return totalAdded
  let lhs ← divide (delta * delta) worldStateBytes
  return if (totalAdded : ℤ) ≤ lhs then lhs else totalAdded

def costOutOfRange : PricingError := .invalidArgument "fee cost is outside the supported u64 state-size range"

def limitOutOfRange : PricingError := .invalidArgument "fee payload limit exceeds state-size range"

/-- The price of one cost unit. -/
def feeMultiplierForCost (network difficulty worldStateBytes : ℕ) (cost : ℤ) (vote : ℕ) : Except PricingError ℤ :=
  if cost = 0 then .ok 0
  else if cost < 0 ∨ 2 ^ 64 ≤ cost then .error costOutOfRange
  else if 2 ^ 64 ≤ worldStateBytes + cost.toNat then .error costOutOfRange
  else if network ≠ MAINNET_NETWORK then .ok (NON_MAINNET_UNITS_PER_BYTE * vote)
  else do
    let baseline ← getBaselineFee difficulty worldStateBytes cost.toNat QUIL_TOKEN_UNITS
    let perUnit ← divide (baseline + cost - 1) cost
    return perUnit * vote

/-- A fee budget for an operation of any cost within a limit. -/
def feeBudgetForPayloadLimit (network difficulty worldStateBytes payloadLimit vote : ℕ) : Except PricingError ℤ :=
  if payloadLimit = 0 then .ok 0
  else if 2 ^ 64 ≤ worldStateBytes + payloadLimit then .error limitOutOfRange
  else if network ≠ MAINNET_NETWORK then .ok (payloadLimit * NON_MAINNET_UNITS_PER_BYTE * vote)
  else do
    let baseline ← getBaselineFee difficulty worldStateBytes payloadLimit QUIL_TOKEN_UNITS
    return (baseline + (payloadLimit - 1 : ℕ)) * vote

/-! ### The basis is a falling function of the world -/

/-- A difficulty of 64 bits has at most four factors of 10000. -/
theorem pomwGeneration_le {difficulty : ℕ} (h : difficulty < 2 ^ 64) : pomwGeneration difficulty ≤ 4 := by
  have hstep : ∀ n d, d < 10000 ^ (n + 1) → pomwGeneration d ≤ n := by
    intro n
    induction n with
    | zero =>
      intro d hd
      rw [pomwGeneration, if_pos (by omega)]
    | succ n ih =>
      intro d hd
      rw [pomwGeneration]
      split_ifs
      · exact zero_le
      · exact succ_le_succ (ih _ (Nat.div_lt_of_lt_mul (by rw [← pow_succ']; exact hd)))
  exact hstep 4 difficulty (h.trans (by norm_num))

/-- The basis as a number. -/
def basisValue (generation worldStateBytes units : ℕ) : ℕ :=
  if worldStateBytes = 0 then 0
  else if generation = 0 then POMW_NUMERATOR / worldStateBytes * units
  else Nat.nthRoot (2 ^ generation)
    (POMW_NUMERATOR * 2 ^ (2 ^ generation * POMW_SCALE_BITS) / worldStateBytes) * units / 2 ^ POMW_SCALE_BITS

theorem divide_natCast (a : ℕ) {b : ℕ} (h : b ≠ 0) : divide a b = .ok ((a / b : ℕ) : ℤ) := by
  rw [divide, if_neg (by exact_mod_cast h), ← Int.ofNat_tdiv]

theorem pomwBasis_eq {difficulty : ℕ} (h : difficulty < 2 ^ 64) (worldStateBytes units : ℕ) :
    pomwBasis difficulty worldStateBytes units =
      .ok (basisValue (pomwGeneration difficulty) worldStateBytes units : ℕ) := by
  have hgen := pomwGeneration_le h
  rw [pomwBasis, basisValue]
  split_ifs with hw hg
  · rfl
  · rw [divide_natCast _ hw, ok_bind]
    push_cast
    rfl
  have hpow : 2 ^ pomwGeneration difficulty ≤ 2 ^ 4 := Nat.pow_le_pow_right (by norm_num) hgen
  have hshift : shlU32 1 (pomwGeneration difficulty) = .ok (2 ^ pomwGeneration difficulty) := by
    rw [shlU32, one_mul, if_pos (hpow.trans_lt (by norm_num))]
  have hmul : mulU32 (2 ^ pomwGeneration difficulty) POMW_SCALE_BITS =
      .ok (2 ^ pomwGeneration difficulty * POMW_SCALE_BITS) :=
    if_pos ((mul_le_mul_right _ hpow).trans_lt (by norm_num [POMW_SCALE_BITS]))
  have hdiv := divide_natCast (POMW_NUMERATOR * 2 ^ (2 ^ pomwGeneration difficulty * POMW_SCALE_BITS)) hw
  push_cast at hdiv
  rw [hshift, ok_bind, hmul, ok_bind, hdiv, ok_bind]
  have hroot : ∀ x : ℕ, nthRoot x (2 ^ pomwGeneration difficulty) =
      .ok (Nat.nthRoot (2 ^ pomwGeneration difficulty) x : ℕ) := fun x => by
    rw [nthRoot, if_neg (by simp), Int.toNat_natCast]
  have hcast : ((POMW_NUMERATOR : ℤ) * 2 ^ (2 ^ pomwGeneration difficulty * POMW_SCALE_BITS)) / worldStateBytes =
      (POMW_NUMERATOR * 2 ^ (2 ^ pomwGeneration difficulty * POMW_SCALE_BITS) / worldStateBytes : ℕ) := by
    push_cast
    rfl
  rw [hcast, hroot, ok_bind]
  push_cast
  rfl

theorem nthRoot_mono {n a b : ℕ} (hn : n ≠ 0) (h : a ≤ b) : Nat.nthRoot n a ≤ Nat.nthRoot n b :=
  (le_nthRoot_iff hn).2 ((pow_nthRoot_le_iff.2 (Or.inl hn)).trans h)

/-- A non-empty world that grows has no larger basis. -/
theorem basisValue_antitone (generation units : ℕ) {w w' : ℕ} (hw : 0 < w) (h : w ≤ w') :
    basisValue generation w' units ≤ basisValue generation w units := by
  rw [basisValue, basisValue, if_neg hw.ne', if_neg (hw.trans_le h).ne']
  split_ifs
  · exact mul_le_mul_right _ (div_le_div_left h hw)
  · refine Nat.div_le_div_right (mul_le_mul_right _ (nthRoot_mono (by positivity) ?_))
    exact div_le_div_left h hw

/-! ### Baselines -/

/-- The baseline fee as a number. -/
def baselineValue (generation worldStateBytes totalAdded units : ℕ) : ℕ :=
  if worldStateBytes = 0 then totalAdded
  else
    let delta := basisValue generation worldStateBytes units - basisValue generation (worldStateBytes + totalAdded) units
    max (delta * delta / worldStateBytes) totalAdded

theorem getBaselineFee_eq {difficulty worldStateBytes totalAdded : ℕ} (h : difficulty < 2 ^ 64)
    (hsum : worldStateBytes + totalAdded < 2 ^ 64) (units : ℕ) :
    getBaselineFee difficulty worldStateBytes totalAdded units =
      .ok (baselineValue (pomwGeneration difficulty) worldStateBytes totalAdded units : ℕ) := by
  rw [getBaselineFee, pomwBasis_eq h, ok_bind, addU64, if_pos hsum, ok_bind, pomwBasis_eq h, ok_bind, baselineValue]
  split_ifs with hw
  · rfl
  have hle := basisValue_antitone (pomwGeneration difficulty) units (pos_of_ne_zero hw)
    (le_add_right worldStateBytes totalAdded)
  let delta := basisValue (pomwGeneration difficulty) worldStateBytes units -
    basisValue (pomwGeneration difficulty) (worldStateBytes + totalAdded) units
  have hdelta : (basisValue (pomwGeneration difficulty) worldStateBytes units : ℤ) -
      basisValue (pomwGeneration difficulty) (worldStateBytes + totalAdded) units = delta := (Int.ofNat_sub hle).symm
  have hdiv := divide_natCast (delta * delta) hw
  rw [cast_mul] at hdiv
  simp only [hdelta, hdiv, ok_bind]
  refine congrArg Except.ok ?_
  rw [cast_max, max_comm, max_def]

/-- More growth has no smaller baseline. -/
theorem baselineValue_mono (generation worldStateBytes units : ℕ) {c c' : ℕ} (h : c ≤ c') :
    baselineValue generation worldStateBytes c units ≤ baselineValue generation worldStateBytes c' units := by
  rw [baselineValue, baselineValue]
  split_ifs with hw
  · exact h
  have hbasis := basisValue_antitone generation units (pos_of_ne_zero hw |>.trans_le (le_add_right _ c))
    (Nat.add_le_add_left h worldStateBytes)
  have hdelta := Nat.sub_le_sub_left hbasis (basisValue generation worldStateBytes units)
  exact max_le_max (Nat.div_le_div_right (Nat.mul_le_mul hdelta hdelta)) h

/-- The baseline fee of a network: off mainnet, one unit a byte. -/
def baselineFee (network difficulty worldStateBytes totalAdded : ℕ) : Except PricingError ℤ :=
  if network ≠ MAINNET_NETWORK then .ok (totalAdded * NON_MAINNET_UNITS_PER_BYTE)
  else getBaselineFee difficulty worldStateBytes totalAdded QUIL_TOKEN_UNITS

/-! ### Fees and budgets -/

/-- The price of a cost unit, before the vote, as a number: the baseline over the cost, rounded up. -/
def unitPrice (baseline cost : ℕ) : ℕ := (baseline + cost - 1) / cost

theorem le_unitPrice_mul (baseline : ℕ) {cost : ℕ} (h : 0 < cost) : baseline ≤ unitPrice baseline cost * cost := by
  have hdiv := lt_mul_div_succ (baseline + cost - 1) h
  rw [mul_add, mul_one, mul_comm cost] at hdiv
  rw [unitPrice]
  omega

theorem unitPrice_mul_lt (baseline : ℕ) {cost : ℕ} (h : 0 < cost) :
    unitPrice baseline cost * cost < baseline + cost := by
  have hdiv := div_mul_le_self (baseline + cost - 1) cost
  rw [unitPrice]
  omega

theorem unitPrice_mul_self (price : ℕ) {cost : ℕ} (h : 0 < cost) : unitPrice (cost * price) cost = price := by
  rw [unitPrice, Nat.add_sub_assoc h, mul_add_div h, div_eq_of_lt (sub_one_lt h.ne'), add_zero]

/-- The baseline and the multiplier of a cost that the state-size range has room for. -/
theorem fee_values {network difficulty worldStateBytes cost vote : ℕ} (h : difficulty < 2 ^ 64) (hcost : 0 < cost)
    (hsum : worldStateBytes + cost < 2 ^ 64) :
    ∃ baseline : ℕ, baselineFee network difficulty worldStateBytes cost = .ok baseline ∧
      feeMultiplierForCost network difficulty worldStateBytes cost vote =
        .ok (unitPrice baseline cost * vote : ℕ) := by
  have hne : (cost : ℤ) ≠ 0 := by exact_mod_cast hcost.ne'
  rw [feeMultiplierForCost, if_neg hne, if_neg (by omega), Int.toNat_natCast, if_neg (by omega), baselineFee]
  split_ifs with hnet
  · refine ⟨cost * NON_MAINNET_UNITS_PER_BYTE, by push_cast; rfl, ?_⟩
    rw [unitPrice_mul_self NON_MAINNET_UNITS_PER_BYTE hcost]
    push_cast
    rfl
  have hbase := getBaselineFee_eq h hsum QUIL_TOKEN_UNITS
  refine ⟨_, hbase, ?_⟩
  rw [hbase, ok_bind]
  generalize baselineValue (pomwGeneration difficulty) worldStateBytes cost QUIL_TOKEN_UNITS = baseline
  have hdiv := divide_natCast (baseline + cost - 1) hcost.ne'
  rw [show ((baseline + cost - 1 : ℕ) : ℤ) = baseline + cost - 1 by omega] at hdiv
  rw [hdiv, ok_bind, unitPrice]
  push_cast
  rfl

/-- The budget for a limit, and the fees within the limit. -/
theorem budget_values {network difficulty worldStateBytes limit vote : ℕ} (h : difficulty < 2 ^ 64) (hlimit : 0 < limit)
    (hsum : worldStateBytes + limit < 2 ^ 64) :
    ∃ budget : ℕ, feeBudgetForPayloadLimit network difficulty worldStateBytes limit vote = .ok budget ∧
      ∀ cost, 0 < cost → cost ≤ limit → ∃ baseline : ℕ,
        baselineFee network difficulty worldStateBytes cost = .ok baseline ∧
        unitPrice baseline cost * cost * vote ≤ budget := by
  rw [feeBudgetForPayloadLimit, if_neg hlimit.ne', if_neg (by omega)]
  simp only [baselineFee]
  split_ifs with hnet
  · refine ⟨limit * NON_MAINNET_UNITS_PER_BYTE * vote, by push_cast; rfl, fun cost hpos hle =>
      ⟨cost * NON_MAINNET_UNITS_PER_BYTE, by push_cast; rfl, ?_⟩⟩
    refine mul_le_mul_right vote ?_
    rw [unitPrice_mul_self _ hpos, mul_comm]
    exact mul_le_mul_right _ hle
  have hbase := getBaselineFee_eq h hsum QUIL_TOKEN_UNITS
  refine ⟨(baselineValue (pomwGeneration difficulty) worldStateBytes limit QUIL_TOKEN_UNITS + (limit - 1)) * vote,
    ?_, fun cost hpos hle => ⟨_, getBaselineFee_eq h (by omega) QUIL_TOKEN_UNITS, ?_⟩⟩
  · rw [hbase, ok_bind]
    push_cast
    rfl
  refine mul_le_mul_right vote ?_
  have hmono := baselineValue_mono (pomwGeneration difficulty) worldStateBytes QUIL_TOKEN_UNITS hle
  have hlt := unitPrice_mul_lt (baselineValue (pomwGeneration difficulty) worldStateBytes cost QUIL_TOKEN_UNITS) hpos
  omega

/-- The steps of a computation are all possible. -/
def NoFault {α : Type} (result : Except PricingError α) : Prop := ∀ e, result = .error e → ¬ e.IsFault

theorem noFault_of_ok {α : Type} {result : Except PricingError α} {a : α} (h : result = .ok a) : NoFault result := by
  intro e he
  rw [h] at he
  cases he

/-- A multiplier is refused for a cost that is negative or that the world has no room for. -/
theorem feeMultiplier_error_iff (network : ℕ) {difficulty : ℕ} (h : difficulty < 2 ^ 64) (worldStateBytes : ℕ) (cost : ℤ)
    (vote : ℕ) (e : PricingError) : feeMultiplierForCost network difficulty worldStateBytes cost vote = .error e ↔
      e = costOutOfRange ∧ cost ≠ 0 ∧ (cost < 0 ∨ 2 ^ 64 ≤ worldStateBytes + cost) := by
  by_cases hfit : 0 < cost ∧ worldStateBytes + cost.toNat < 2 ^ 64
  · obtain ⟨hpos, hsum⟩ := hfit
    obtain ⟨c, rfl⟩ := Int.eq_ofNat_of_zero_le hpos.le
    obtain ⟨baseline, -, heq⟩ := @fee_values network difficulty worldStateBytes c vote h (by exact_mod_cast hpos) hsum
    rw [heq]
    exact iff_of_false nofun (by omega)
  rw [feeMultiplierForCost]
  split_ifs with hzero hrange hsum hnet
  · exact iff_of_false nofun fun ⟨_, hne, _⟩ => hne hzero
  · rw [Except.error.injEq, eq_comm, iff_self_and]
    omega
  · rw [Except.error.injEq, eq_comm, iff_self_and]
    omega
  all_goals omega

/-- A budget is refused for a limit that the world has no room for. -/
theorem feeBudget_error_iff (network : ℕ) {difficulty : ℕ} (h : difficulty < 2 ^ 64) (worldStateBytes limit vote : ℕ)
    (e : PricingError) : feeBudgetForPayloadLimit network difficulty worldStateBytes limit vote = .error e ↔
      e = limitOutOfRange ∧ limit ≠ 0 ∧ 2 ^ 64 ≤ worldStateBytes + limit := by
  by_cases hfit : 0 < limit ∧ worldStateBytes + limit < 2 ^ 64
  · obtain ⟨budget, heq, -⟩ := @budget_values network difficulty worldStateBytes limit vote h hfit.1 hfit.2
    rw [heq]
    exact iff_of_false nofun (by omega)
  rw [feeBudgetForPayloadLimit]
  split_ifs with hzero hsum hnet
  · exact iff_of_false nofun fun ⟨_, hne, _⟩ => hne hzero
  · rw [Except.error.injEq, eq_comm, iff_self_and]
    exact fun _ => ⟨hzero, hsum⟩
  all_goals omega

/-- A ring's reward can always be computed. -/
theorem allocationProverReward_ok (basis stateSize worldBytes : ℤ) (ring dataShards : ℕ) :
    ∃ reward, allocationProverReward basis stateSize worldBytes ring dataShards = .ok reward := by
  have hring : ∃ reward, allocationRingReward basis stateSize worldBytes ring dataShards = .ok reward := by
    rw [allocationRingReward]
    split_ifs with hnone
    · exact ⟨0, rfl⟩
    push Not at hnone
    obtain ⟨-, -, hworld, hshards⟩ := hnone
    have hpow : (2 : ℕ) ^ (min ring 62 + 1) ≤ 2 ^ 63 := Nat.pow_le_pow_right (by norm_num) (by omega)
    have hshift : shlU64 1 (min ring 62 + 1) = .ok (2 ^ (min ring 62 + 1)) := by
      rw [shlU64, one_mul, if_pos (hpow.trans_lt (by norm_num))]
    have hsqrt : 0 < sqrt (dataShards * 2 ^ (2 * POMW_SCALE_BITS)) :=
      sqrt_pos.2 (mul_pos (pos_of_ne_zero hshards) (by positivity))
    rw [hshift, ok_bind, divide, if_neg]
    · exact ⟨_, rfl⟩
    have : 0 < worldBytes * ((2 ^ (min ring 62 + 1) : ℕ) : ℤ) *
        sqrt (dataShards * 2 ^ (2 * POMW_SCALE_BITS)) := by positivity
    exact this.ne'
  obtain ⟨reward, hreward⟩ := hring
  rw [allocationProverReward, hreward, ok_bind, divide, if_neg (by norm_num)]
  exact ⟨_, rfl⟩

/-- Over all inputs: the basis of a non-empty world falls as it grows; a fee covers the network's baseline times the
    vote and is less than one vote a cost unit above it; a budget covers every fee within its limit; only costs and
    limits outside the state-size range are refused; and no step overflows, divides by zero or takes an undefined
    root. -/
theorem pricing_safe :
    (∀ difficulty w w' units : ℕ, difficulty < 2 ^ 64 → 0 < w → w ≤ w' → ∃ b b' : ℤ,
      pomwBasis difficulty w units = .ok b ∧ pomwBasis difficulty w' units = .ok b' ∧ 0 ≤ b' ∧ b' ≤ b) ∧
    (∀ (network difficulty world vote : ℕ) (cost : ℤ), difficulty < 2 ^ 64 → 0 < cost → world + cost < 2 ^ 64 →
      ∃ multiplier baseline : ℤ, feeMultiplierForCost network difficulty world cost vote = .ok multiplier ∧
        baselineFee network difficulty world cost.toNat = .ok baseline ∧
        baseline * vote ≤ multiplier * cost ∧ multiplier * cost ≤ baseline * vote + (cost - 1) * vote ∧
        ∀ limit : ℕ, cost ≤ limit → world + limit < 2 ^ 64 → ∃ budget,
          feeBudgetForPayloadLimit network difficulty world limit vote = .ok budget ∧ multiplier * cost ≤ budget) ∧
    (∀ network difficulty world vote : ℕ, feeMultiplierForCost network difficulty world 0 vote = .ok 0) ∧
    (∀ (network difficulty world vote limit : ℕ) (cost : ℤ), difficulty < 2 ^ 64 →
      NoFault (feeMultiplierForCost network difficulty world cost vote) ∧
      NoFault (feeBudgetForPayloadLimit network difficulty world limit vote)) ∧
    (∀ (network difficulty world vote : ℕ) (cost : ℤ) (e : PricingError), difficulty < 2 ^ 64 →
      (feeMultiplierForCost network difficulty world cost vote = .error e ↔
        e = costOutOfRange ∧ cost ≠ 0 ∧ (cost < 0 ∨ 2 ^ 64 ≤ world + cost))) ∧
    (∀ (network difficulty world vote limit : ℕ) (e : PricingError), difficulty < 2 ^ 64 →
      (feeBudgetForPayloadLimit network difficulty world limit vote = .error e ↔
        e = limitOutOfRange ∧ limit ≠ 0 ∧ 2 ^ 64 ≤ world + limit)) ∧
    ∀ (basis stateSize worldBytes : ℤ) (ring dataShards : ℕ),
      NoFault (allocationProverReward basis stateSize worldBytes ring dataShards) := by
  refine ⟨fun difficulty w w' units hd hw hle => ?_, fun network difficulty world vote cost hd hpos hsum => ?_, ?_,
    fun network difficulty world vote limit cost hd => ⟨fun e he => ?_, fun e he => ?_⟩,
    fun network difficulty world vote cost e hd => feeMultiplier_error_iff network hd world cost vote e,
    fun network difficulty world vote limit e hd => feeBudget_error_iff network hd world limit vote e,
    fun basis stateSize worldBytes ring dataShards => ?_⟩
  · exact ⟨_, _, pomwBasis_eq hd w units, pomwBasis_eq hd w' units, Int.natCast_nonneg _,
      by exact_mod_cast basisValue_antitone (pomwGeneration difficulty) units hw hle⟩
  · obtain ⟨c, rfl⟩ := Int.eq_ofNat_of_zero_le hpos.le
    have hc : 0 < c := by exact_mod_cast hpos
    have hfit : world + c < 2 ^ 64 := by exact_mod_cast hsum
    obtain ⟨baseline, hbase, hmult⟩ := @fee_values network difficulty world c vote hd hc hfit
    have hcover : baseline * vote ≤ unitPrice baseline c * c * vote := mul_le_mul_right _ (le_unitPrice_mul _ hc)
    have hexcess : unitPrice baseline c * c * vote ≤ (baseline + (c - 1)) * vote :=
      mul_le_mul_right _ (by have := unitPrice_mul_lt baseline hc; omega)
    have hfee : ((unitPrice baseline c * vote : ℕ) : ℤ) * c = (unitPrice baseline c * c * vote : ℕ) := by
      push_cast
      ring
    refine ⟨_, baseline, hmult, hbase, ?_, ?_, fun limit hlimit hroom => ?_⟩
    · rw [hfee]
      exact_mod_cast hcover
    · rw [hfee]
      calc ((unitPrice baseline c * c * vote : ℕ) : ℤ) ≤ ((baseline + (c - 1)) * vote : ℕ) := by exact_mod_cast hexcess
        _ = baseline * vote + (c - 1) * vote := by push_cast [cast_sub hc]; ring
    have hle : c ≤ limit := by exact_mod_cast hlimit
    obtain ⟨budget, hbudget, hall⟩ :=
      @budget_values network difficulty world limit vote hd (hc.trans_le hle) hroom
    obtain ⟨b, hb, hfeeLe⟩ := hall c hc hle
    have heq : b = baseline := by
      have := Except.ok.inj (hb.symm.trans hbase)
      exact_mod_cast this
    subst heq
    refine ⟨budget, hbudget, ?_⟩
    rw [hfee]
    exact_mod_cast hfeeLe
  · exact fun network difficulty world vote => if_pos rfl
  · rw [((feeMultiplier_error_iff network hd world cost vote e).1 he).1]
    exact not_false
  · rw [((feeBudget_error_iff network hd world limit vote e).1 he).1]
    exact not_false
  · obtain ⟨reward, heq⟩ := allocationProverReward_ok basis stateSize worldBytes ring dataShards
    exact noFault_of_ok heq

/-- At difficulty 0, in a world of 2^50 bytes, for seven of at most nine bytes and a vote of 2. -/
theorem pricing_safe_seven_bytes : NoFault (feeMultiplierForCost MAINNET_NETWORK 0 (2 ^ 50) 7 2) ∧
    (∃ multiplier baseline budget : ℤ, feeMultiplierForCost MAINNET_NETWORK 0 (2 ^ 50) 7 2 = .ok multiplier ∧
      baselineFee MAINNET_NETWORK 0 (2 ^ 50) 7 = .ok baseline ∧ baseline * 2 ≤ multiplier * 7 ∧
      feeBudgetForPayloadLimit MAINNET_NETWORK 0 (2 ^ 50) 9 2 = .ok budget ∧ multiplier * 7 ≤ budget) ∧
    feeBudgetForPayloadLimit MAINNET_NETWORK 0 (2 ^ 64 - 8) 9 2 = .error limitOutOfRange := by
  obtain ⟨-, hfees, -, -, -, hrefused, -⟩ := pricing_safe
  obtain ⟨multiplier, baseline, hmult, hbase, hcover, -, hbudget⟩ :=
    hfees MAINNET_NETWORK 0 (2 ^ 50) 2 7 (by norm_num) (by norm_num) (by norm_num)
  obtain ⟨budget, hbudget, hwithin⟩ := hbudget 9 (by norm_num) (by norm_num)
  exact ⟨noFault_of_ok hmult, ⟨multiplier, baseline, budget, hmult, hbase, hcover, hbudget, hwithin⟩,
    (hrefused MAINNET_NETWORK 0 (2 ^ 64 - 8) 2 9 _ (by norm_num)).2 ⟨rfl, by norm_num, by norm_num⟩⟩

/-- With a vote of 2 the fee of seven bytes is 8 units above the baseline; off mainnet the fee of a byte is far below
    what the mainnet curve asks; and the basis of an empty world is 0, below that of any other. -/
theorem pricing_exceeds_a_unit :
    ((feeMultiplierForCost MAINNET_NETWORK 0 (2 ^ 50) 7 2).toOption = some 16242 ∧
        (baselineFee MAINNET_NETWORK 0 (2 ^ 50) 7).toOption = some 56843 ∧
        ¬ (16242 * 7 - 56843 * 2 < 7)) ∧
      ((feeMultiplierForCost 1 0 (2 ^ 50) 1 1).toOption = some 1 ∧
        (getBaselineFee 0 (2 ^ 50) 1 QUIL_TOKEN_UNITS).toOption = some 56843) ∧
      (pomwBasis 0 0 1).toOption = some 0 ∧ (pomwBasis 0 1 1).toOption = some (2 ^ 50) := by
  have hgen : pomwGeneration 0 = 0 := by rw [pomwGeneration, if_pos (by norm_num)]
  refine ⟨⟨?_, ?_, by norm_num⟩, ⟨rfl, ?_⟩, rfl, ?_⟩
  · simp [feeMultiplierForCost, getBaselineFee, pomwBasis, hgen, divide, addU64, MAINNET_NETWORK, POMW_NUMERATOR,
      QUIL_TOKEN_UNITS, Except.toOption]
  · simp [baselineFee, getBaselineFee, pomwBasis, hgen, divide, addU64, MAINNET_NETWORK, POMW_NUMERATOR,
      QUIL_TOKEN_UNITS, Except.toOption]
  · simp [getBaselineFee, pomwBasis, hgen, divide, addU64, POMW_NUMERATOR, QUIL_TOKEN_UNITS, Except.toOption]
  · simp [pomwBasis, hgen, divide, POMW_NUMERATOR, Except.toOption]

end Quil.Pricing
