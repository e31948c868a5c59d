import Mathlib.Data.List.Forall2
import Mathlib.Order.Interval.Set.Defs
import Mathlib.Tactic

/-! Fork choice (`quil-engine/src/fork_choice.rs`): a branch is scored by its frames' distances and seniorities, the
    older DECAYED, times a bonus for the provers at work in its last frames; the choice keeps the previous branch
    unless another beats it by MORE than the margin. The integers are unbounded and their division truncates, so
    bound and monotonicity go through every rounding. -/

namespace Quil.ForkChoice
open List

def SCALE : ℕ := 2 ^ 64 - 1

structure Frame where
  distance : ℤ
  seniority : ℕ
  proverAddress : List UInt8
deriving DecidableEq, Repr

/-- From oldest to newest. -/
abbrev Branch := List Frame

structure Params where
  rMax : ℤ
  wrNumer : ℕ
  wpNumer : ℕ
  wDenom : ℕ
  alNumer : ℕ
  alDenom : ℕ
  blendWindow : ℕ
  betaNumer : ℕ
  betaDenom : ℕ
  epsilon : ℕ

def rhoScaled (rank rMax : ℤ) : ℤ :=
  let result := ((rMax - rank) * SCALE).tdiv rMax
  if result < 0 then 0 else if result > SCALE then SCALE else result

def clamp (x lo hi : ℕ) : ℕ := if x < lo then lo else if x > hi then hi else x

variable (cfg : Params)

def frameScore (frame : Frame) : ℤ :=
  (cfg.wrNumer * rhoScaled frame.distance cfg.rMax + cfg.wpNumer * clamp frame.seniority 0 SCALE).tdiv cfg.wDenom

def decay (raw : ℤ) (frame : Frame) : ℤ := (raw * cfg.alNumer).tdiv cfg.alDenom + frameScore cfg frame

/-- The provers of the frames with seniority. -/
def seen (frames : List Frame) : Finset (List UInt8) :=
  ((frames.filter (0 < ·.seniority)).map (·.proverAddress)).toFinset

/-- The bonus for `unique` provers in the last `m` frames. -/
def divBonus (unique m : ℕ) : ℤ :=
  let blendScaled := ((unique : ℤ) * SCALE).tdiv m
  SCALE + (cfg.betaNumer * blendScaled).tdiv cfg.betaDenom

def branchScore (br : Branch) : ℤ :=
  if br = [] then 0
  else
    let raw := br.foldl (decay cfg) 0
    let m := min cfg.blendWindow br.length
    if m = 0 then 0
    else
      let unique := (seen (br.drop (br.length - m))).card
      (raw * divBonus cfg unique m).tdiv SCALE

/-- One turn of the loop. -/
def unseat (best : ℕ × ℤ) (candidate : Branch × ℕ) : ℕ × ℤ :=
  let score := branchScore cfg candidate.1
  if score > best.2 + cfg.epsilon then (candidate.2, score) else best

section
variable (branches : List Branch) (prevChoice : ℕ)

/-- The score to beat: zero when the previous choice is out of range. -/
def incumbent : ℤ := (branches[prevChoice]?.map (branchScore cfg)).getD 0

def forkChoice : ℕ := (branches.zipIdx.foldl (unseat cfg) (prevChoice, incumbent cfg branches prevChoice)).1

/-- No branch has more than the score and the margin. -/
def Unbeaten (score : ℤ) : Prop := ∀ br ∈ branches, branchScore cfg br ≤ score + cfg.epsilon

/-- The index of an unbeaten branch. -/
def Chosen (choice : ℕ) : Prop := ∃ br, branches[choice]? = some br ∧ Unbeaten cfg branches (branchScore cfg br)

end

/-- Positive denominators and maximum distance, decay below one, weights of at most one. -/
structure Params.Sound : Prop where
  rMax : 0 < cfg.rMax
  wDenom : 0 < cfg.wDenom
  betaDenom : 0 < cfg.betaDenom
  decay : cfg.alNumer < cfg.alDenom
  weights : cfg.wrNumer + cfg.wpNumer ≤ cfg.wDenom

/-! ### Scores are bounded -/

theorem tdiv_mem {a c k : ℤ} (hc : 0 < c) (ha : 0 ≤ a) (h : a ≤ k * c) : a.tdiv c ∈ Set.Icc 0 k :=
  ⟨Int.tdiv_nonneg ha hc.le, (Int.tdiv_le_tdiv hc h).trans_eq (Int.mul_tdiv_cancel k hc.ne')⟩

theorem rhoScaled_mem (rank rMax : ℤ) : rhoScaled rank rMax ∈ Set.Icc 0 (SCALE : ℤ) := by
  simp only [rhoScaled]
  split_ifs <;> constructor <;> omega

theorem clamp_seniority (x : ℕ) : clamp x 0 SCALE = min x SCALE := by
  simp only [clamp]
  split_ifs <;> omega

theorem card_seen_le (frames : List Frame) : (seen frames).card ≤ frames.length :=
  (toFinset_card_le _).trans (by rw [length_map]; exact length_filter_le _ _)

variable {cfg}

section
variable (h : cfg.Sound)
include h

theorem frameScore_mem (frame : Frame) : frameScore cfg frame ∈ Set.Icc 0 (SCALE : ℤ) := by
  obtain ⟨hrho, hrho'⟩ := rhoScaled_mem frame.distance cfg.rMax
  have hpi : (clamp frame.seniority 0 SCALE : ℤ) ≤ SCALE := by rw [clamp_seniority]; omega
  have hw : (cfg.wrNumer + cfg.wpNumer : ℤ) ≤ cfg.wDenom := mod_cast h.weights
  refine tdiv_mem (mod_cast h.wDenom) (by positivity) ?_
  calc (cfg.wrNumer * rhoScaled frame.distance cfg.rMax + cfg.wpNumer * clamp frame.seniority 0 SCALE : ℤ)
      ≤ cfg.wrNumer * SCALE + cfg.wpNumer * SCALE := by gcongr
    _ = SCALE * (cfg.wrNumer + cfg.wpNumer) := by ring
    _ ≤ SCALE * cfg.wDenom := by gcongr

/-- The frames behind leave at most `SCALE` times the decay's numerator, and the new frame adds one `SCALE`. -/
theorem decay_mem {raw : ℤ} (hraw : raw ∈ Set.Icc 0 (SCALE * cfg.alDenom : ℤ)) (frame : Frame) :
    decay cfg raw frame ∈ Set.Icc 0 (SCALE * cfg.alDenom : ℤ) := by
  obtain ⟨hf, hf'⟩ := frameScore_mem h frame
  have hdecay : (cfg.alNumer : ℤ) + 1 ≤ cfg.alDenom := mod_cast h.decay
  obtain ⟨hold, hold'⟩ : (raw * cfg.alNumer).tdiv cfg.alDenom ∈ Set.Icc 0 (SCALE * cfg.alNumer : ℤ) := by
    refine tdiv_mem (by omega) (mul_nonneg hraw.1 (by omega)) ?_
    rw [mul_right_comm]
    exact mul_le_mul_of_nonneg_right hraw.2 (by omega)
  refine ⟨add_nonneg hold hf, ?_⟩
  calc decay cfg raw frame ≤ SCALE * cfg.alNumer + SCALE := add_le_add hold' hf'
    _ = SCALE * (cfg.alNumer + 1) := by ring
    _ ≤ SCALE * cfg.alDenom := by gcongr

theorem foldl_decay_mem (br : Branch) {raw : ℤ} (hraw : raw ∈ Set.Icc 0 (SCALE * cfg.alDenom : ℤ)) :
    br.foldl (decay cfg) raw ∈ Set.Icc 0 (SCALE * cfg.alDenom : ℤ) := by
  induction br generalizing raw with
  | nil => exact hraw
  | cons frame br ih => exact ih (decay_mem h hraw frame)

theorem divBonus_mem {unique m : ℕ} (hm : m ≠ 0) (hu : unique ≤ m) :
    divBonus cfg unique m ∈ Set.Icc 0 (SCALE * (1 + cfg.betaNumer) : ℤ) := by
  have hbeta : (1 : ℤ) ≤ cfg.betaDenom := mod_cast h.betaDenom
  obtain ⟨hblend, hblend'⟩ : ((unique : ℤ) * SCALE).tdiv m ∈ Set.Icc 0 (SCALE : ℤ) :=
    tdiv_mem (by positivity) (by positivity) (by rw [mul_comm]; gcongr)
  obtain ⟨hbonus, hbonus'⟩ := tdiv_mem (c := cfg.betaDenom) (k := SCALE * cfg.betaNumer) (by omega)
    (mul_nonneg (Nat.cast_nonneg cfg.betaNumer) hblend) (by
      rw [mul_comm, mul_assoc]
      exact mul_le_mul hblend' (le_mul_of_one_le_right (by omega) hbeta) (by omega) (by omega))
  exact ⟨add_nonneg (by positivity) hbonus, by rw [mul_add, mul_one]; exact add_le_add_right hbonus' _⟩

theorem branchScore_mem (br : Branch) :
    branchScore cfg br ∈ Set.Icc 0 (SCALE * cfg.alDenom * (1 + cfg.betaNumer) : ℤ) := by
  simp only [branchScore]
  split_ifs with hbr hm
  · exact ⟨le_rfl, by positivity⟩
  · exact ⟨le_rfl, by positivity⟩
  · obtain ⟨hraw, hraw'⟩ := foldl_decay_mem h br ⟨le_rfl, by positivity⟩
    have hu := card_seen_le (br.drop (br.length - min cfg.blendWindow br.length))
    obtain ⟨hbonus, hbonus'⟩ := divBonus_mem h hm (hu.trans (by rw [length_drop]; omega))
    refine tdiv_mem (by decide) (mul_nonneg hraw hbonus) ?_
    exact (mul_le_mul hraw' hbonus' hbonus (by positivity)).trans_eq (by ring)

end

/-! ### Better frames, better score -/

/-- The same prover, not farther and not less senior. -/
structure Better (f f' : Frame) : Prop where
  prover : f'.proverAddress = f.proverAddress
  distance : f'.distance ≤ f.distance
  seniority : f.seniority ≤ f'.seniority

theorem rhoScaled_anti {rMax rank rank' : ℤ} (hr : 0 < rMax) (h : rank' ≤ rank) :
    rhoScaled rank rMax ≤ rhoScaled rank' rMax := by
  have hquot : ((rMax - rank) * SCALE).tdiv rMax ≤ ((rMax - rank') * SCALE).tdiv rMax :=
    Int.tdiv_le_tdiv hr (by gcongr)
  simp only [rhoScaled]
  split_ifs <;> omega

theorem seen_subset {br br' : Branch} (hbr : Forall₂ Better br br') : seen br ⊆ seen br' := by
  simp only [Finset.subset_iff, seen, mem_toFinset, mem_map, mem_filter, decide_eq_true_eq]
  rintro a ⟨f, ⟨hf, hpos⟩, rfl⟩
  obtain ⟨f', hf', hb⟩ : ∃ f' ∈ br', Better f f' := by
    induction hbr with
    | nil => cases hf
    | cons hb _ ih =>
      rcases mem_cons.mp hf with rfl | hf
      · exact ⟨_, mem_cons_self, hb⟩
      · exact (ih hf).imp fun f' hf' => ⟨mem_cons_of_mem _ hf'.1, hf'.2⟩
  exact ⟨f', ⟨hf', hpos.trans_le hb.seniority⟩, hb.prover⟩

section
variable (h : cfg.Sound)
include h

theorem decay_mono {raw raw' : ℤ} (hraw : raw ≤ raw') {f f' : Frame} (hf : Better f f') :
    decay cfg raw f ≤ decay cfg raw' f' := by
  have hdecay := h.decay
  have hrho := rhoScaled_anti h.rMax hf.distance
  have hpi : clamp f.seniority 0 SCALE ≤ clamp f'.seniority 0 SCALE := by
    simp only [clamp_seniority]
    exact min_le_min_right _ hf.seniority
  exact add_le_add (Int.tdiv_le_tdiv (by omega) (by gcongr)) (Int.tdiv_le_tdiv (mod_cast h.wDenom) (by gcongr))

theorem foldl_decay_mono {br br' : Branch} (hbr : Forall₂ Better br br') {raw raw' : ℤ} (hraw : raw ≤ raw') :
    br.foldl (decay cfg) raw ≤ br'.foldl (decay cfg) raw' := by
  induction hbr generalizing raw raw' with
  | nil => exact hraw
  | cons hf _ ih => exact ih (decay_mono h hraw hf)

theorem divBonus_mono {unique unique' m : ℕ} (hm : m ≠ 0) (hu : unique ≤ unique') :
    divBonus cfg unique m ≤ divBonus cfg unique' m := by
  have hblend : ((unique : ℤ) * SCALE).tdiv m ≤ ((unique' : ℤ) * SCALE).tdiv m :=
    Int.tdiv_le_tdiv (by positivity) (by gcongr)
  exact add_le_add_right (Int.tdiv_le_tdiv (mod_cast h.betaDenom) (by gcongr)) _

theorem branchScore_mono {br br' : Branch} (hbr : Forall₂ Better br br') :
    branchScore cfg br ≤ branchScore cfg br' := by
  simp only [branchScore, ← length_eq_zero_iff, hbr.length_eq]
  split_ifs with hnil hm
  · rfl
  · rfl
  · have hraw := (foldl_decay_mem h br' ⟨le_refl 0, by positivity⟩).1
    have hu := card_seen_le (br.drop (br'.length - min cfg.blendWindow br'.length))
    rw [length_drop, hbr.length_eq] at hu
    have hseen := Finset.card_le_card (seen_subset (forall₂_drop (br'.length - min cfg.blendWindow br'.length) hbr))
    exact Int.tdiv_le_tdiv (by decide) (mul_le_mul (foldl_decay_mono h hbr le_rfl) (divBonus_mono h hm hseen)
      (divBonus_mem h hm (hu.trans (by omega))).1 hraw)

end

/-! ### The choice -/

variable (cfg)

/-- The loop ends on the incumbent, or on a candidate that beats it by more than the margin; nothing beats where it
    ends by more. -/
theorem foldl_unseat (cs : List (Branch × ℕ)) (best : ℕ × ℤ) :
    (∀ c ∈ cs, branchScore cfg c.1 ≤ (cs.foldl (unseat cfg) best).2 + cfg.epsilon) ∧
      (cs.foldl (unseat cfg) best = best ∨ best.2 + cfg.epsilon < (cs.foldl (unseat cfg) best).2 ∧
        ∃ c ∈ cs, cs.foldl (unseat cfg) best = (c.2, branchScore cfg c.1)) := by
  induction cs generalizing best with
  | nil => simp
  | cons c cs ih =>
    obtain ⟨hall, hend⟩ := ih (unseat cfg best c)
    rw [foldl_cons, forall_mem_cons]
    generalize cs.foldl (unseat cfg) (unseat cfg best c) = r at hall hend ⊢
    rw [unseat] at hend
    split at hend
    · next hbeat =>
      rcases hend with rfl | ⟨hlt, d, hd, rfl⟩
      · exact ⟨⟨by simp, hall⟩, .inr ⟨hbeat, c, by simp, rfl⟩⟩
      · exact ⟨⟨by simp at hlt ⊢; omega, hall⟩, .inr ⟨by simp at hlt ⊢; omega, d, by simp [hd], rfl⟩⟩
    next hbeat =>
    rcases hend with rfl | ⟨hlt, d, hd, rfl⟩
    · exact ⟨⟨not_lt.mp hbeat, hall⟩, .inl rfl⟩
    · exact ⟨⟨by simp at hbeat hlt ⊢; omega, hall⟩, .inr ⟨hlt, d, by simp [hd], rfl⟩⟩

section
variable (branches : List Branch) (prev : ℕ)

theorem forkChoice_cases :
    (forkChoice cfg branches prev = prev ∧ Unbeaten cfg branches (incumbent cfg branches prev)) ∨
    ∃ br, branches[forkChoice cfg branches prev]? = some br ∧ Unbeaten cfg branches (branchScore cfg br) ∧
      incumbent cfg branches prev + cfg.epsilon < branchScore cfg br := by
  obtain ⟨hall, hend⟩ := foldl_unseat cfg branches.zipIdx (prev, incumbent cfg branches prev)
  rw [forkChoice]
  generalize branches.zipIdx.foldl (unseat cfg) (prev, incumbent cfg branches prev) = r at hall hend ⊢
  have hall : Unbeaten cfg branches r.2 := by
    rintro br hbr
    obtain ⟨i, hi⟩ := mem_iff_getElem?.mp hbr
    exact hall (br, i) (mem_zipIdx_iff_getElem?.mpr hi)
  rcases hend with rfl | ⟨hlt, c, hc, rfl⟩
  · exact .inl ⟨rfl, hall⟩
  · exact .inr ⟨c.1, mem_zipIdx_iff_getElem?.mp hc, hall, hlt⟩

theorem chosen_forkChoice_iff : Chosen cfg branches (forkChoice cfg branches prev) ↔
      prev < branches.length ∨ ∃ br ∈ branches, cfg.epsilon < branchScore cfg br := by
  have hcases := forkChoice_cases cfg branches prev
  by_cases hprev : prev < branches.length
  · refine iff_of_true ?_ (.inl hprev)
    rcases hcases with ⟨hkeep, hall⟩ | ⟨br, hbr, hall, -⟩
    · rw [hkeep]
      exact ⟨_, getElem?_eq_getElem hprev, by simpa [incumbent, hprev] using hall⟩
    · exact ⟨br, hbr, hall⟩
  · have hnone : branches[prev]? = none := getElem?_eq_none (not_lt.mp hprev)
    simp only [incumbent, hnone, Option.map_none, Option.getD_none, zero_add] at hcases
    rcases hcases with ⟨hkeep, hall⟩ | ⟨br, hbr, hall, hlt⟩
    · refine iff_of_false ?_ ?_
      · rintro ⟨br, hbr, -⟩
        simp [hkeep, hnone] at hbr
      · rintro (hlt | ⟨br, hbr, hlt⟩)
        · exact hprev hlt
        · have := hall br hbr
          omega
    · exact iff_of_true ⟨br, hbr, hall⟩ (.inr ⟨br, mem_of_getElem? hbr, hlt⟩)

end

variable {cfg}

/-- Under sound parameters scores lie below a bound of the parameters alone, a better frame never lowers its
    branch's score and an in-range previous choice stays unless it is beaten by more than the margin. The choice is
    an unbeaten branch EXACTLY WHEN the previous one was in range or some score exceeds the margin: else the
    out-of-range index itself comes back. -/
theorem fork_choice_sound_iff (h : cfg.Sound) :
    (∀ br, 0 ≤ branchScore cfg br ∧ branchScore cfg br ≤ SCALE * cfg.alDenom * (1 + cfg.betaNumer)) ∧
    (∀ older f f' newer, f'.proverAddress = f.proverAddress → f'.distance ≤ f.distance →
      f.seniority ≤ f'.seniority →
      branchScore cfg (older ++ f :: newer) ≤ branchScore cfg (older ++ f' :: newer)) ∧
    ∀ branches prev, branches ≠ [] →
      (∀ br, branches[prev]? = some br → Unbeaten cfg branches (branchScore cfg br) →
        forkChoice cfg branches prev = prev) ∧
      (Chosen cfg branches (forkChoice cfg branches prev) ↔
        prev < branches.length ∨ ∃ br ∈ branches, cfg.epsilon < branchScore cfg br) := by
  refine ⟨branchScore_mem h, ?_, ?_⟩
  · rintro older f f' newer hprover hdistance hseniority
    have hrefl : ∀ l : List Frame, Forall₂ Better l l :=
      fun l => forall₂_same.mpr fun f _ => ⟨rfl, le_rfl, le_rfl⟩
    exact branchScore_mono h (rel_append (hrefl older) (.cons ⟨hprover, hdistance, hseniority⟩ (hrefl newer)))
  · rintro branches prev -
    refine ⟨fun br hprev hbest => ?_, chosen_forkChoice_iff cfg branches prev⟩
    rcases forkChoice_cases cfg branches prev with ⟨h, -⟩ | ⟨br', hbr', -, hlt⟩
    · exact h
    · have := hbest br' (mem_of_getElem? hbr')
      rw [incumbent, hprev, Option.map_some, Option.getD_some] at hlt
      omega

def defaultParams : Params := ⟨SCALE, 7, 3, 10, 9, 10, 5, 1, 10, 0⟩

/-- A frame at the greatest distance, by an evicted prover. -/
def idle : Frame := ⟨SCALE, 0, []⟩

theorem fork_choice_sound_iff_default :
    0 ≤ branchScore defaultParams [idle] ∧ ¬Chosen defaultParams [[idle]] (forkChoice defaultParams [[idle]] 1) := by
  have h := @fork_choice_sound_iff defaultParams (by constructor <;> decide)
  exact ⟨(h.1 _).1, by rw [(h.2.2 _ 1 (by simp)).2]; decide +kernel⟩

/-- One branch of score zero and a previous choice out of range: the choice is no branch. -/
theorem forkChoice_out_of_range :
    branchScore defaultParams [idle] = 0 ∧ forkChoice defaultParams [[idle]] 1 = 1 ∧
      ([[idle]] : List Branch)[1]? = none := by
  decide +kernel

end Quil.ForkChoice
