import Mathlib.Tactic

/-! A register per key that keeps the HIGHEST value it was offered, the first of several equal ones. When
    the offers agree — equal keys and equal heights carry equal values — what the register holds in the
    end does not depend on their order, on repetitions, or on offers that others top. -/

namespace Quil.Schemes
open List

variable {K V : Type*} [DecidableEq K]

/-- The highest value offered to a key. -/
def highest (offers : List (K × ℕ × V)) (k : K) : Option (ℕ × V) :=
  ((offers.filter fun c => c.1 = k).argmax fun c => c.2.1).map Prod.snd

@[simp] theorem highest_nil (k : K) : highest ([] : List (K × ℕ × V)) k = none := rfl

variable {offers : List (K × ℕ × V)} {k : K}

theorem highest_concat_other {c : K × ℕ × V} (h : c.1 ≠ k) : highest (offers ++ [c]) k = highest offers k := by
  rw [highest, filter_append, filter_singleton, decide_eq_false h, cond_false, append_nil, highest]

theorem highest_concat_self (offers : List (K × ℕ × V)) (c : K × ℕ × V) :
    highest (offers ++ [c]) c.1 = match highest offers c.1 with
      | none => some c.2
      | some v => if v.1 < c.2.1 then some c.2 else some v := by
  rw [highest, filter_append, filter_singleton, decide_eq_true rfl, cond_true, argmax_concat, highest]
  cases (offers.filter fun x => x.1 = c.1).argmax fun x => x.2.1 with
  | none => rfl
  | some m =>
    dsimp only [Option.map_some]
    split_ifs <;> rfl

theorem mem_of_highest {v : ℕ × V} (h : highest offers k = some v) : (k, v) ∈ offers := by
  obtain ⟨c, hc, rfl⟩ := Option.map_eq_some_iff.1 h
  obtain ⟨hmem, hk⟩ := mem_filter.1 (argmax_mem hc)
  rwa [← of_decide_eq_true hk]

theorem le_highest {v : ℕ × V} (h : (k, v) ∈ offers) : ∃ v', highest offers k = some v' ∧ v.1 ≤ v'.1 := by
  have hmem : (k, v) ∈ offers.filter fun c => c.1 = k := mem_filter.2 ⟨h, by simp⟩
  rcases hmax : (offers.filter fun c => c.1 = k).argmax fun c => c.2.1 with _ | m
  · rw [argmax_eq_none] at hmax
    rw [hmax] at hmem
    exact absurd hmem not_mem_nil
  have hle : v.1 ≤ m.2.1 := le_of_mem_argmax (f := fun c : K × ℕ × V => c.2.1) hmem hmax
  exact ⟨m.2, by rw [highest, hmax, Option.map_some], hle⟩

/-- Equal keys and equal heights carry equal values. -/
def Agree (offers : List (K × ℕ × V)) : Prop :=
  ∀ k n v v', (k, n, v) ∈ offers → (k, n, v') ∈ offers → v = v'

/-- Offers that agree and contain a set of offers, and none of which tops that set, leave what the set leaves. -/
theorem highest_eq_of_topped {base : List (K × ℕ × V)} (hagree : Agree offers) (hsub : base ⊆ offers)
    (htopped : ∀ c ∈ offers, ∃ c' ∈ base, c'.1 = c.1 ∧ c.2.1 ≤ c'.2.1) (k : K) :
    highest offers k = highest base k := by
  rcases hbase : highest base k with _ | w
  · rcases hoffers : highest offers k with _ | v
    · rfl
    obtain ⟨c', hc', hk, -⟩ := htopped _ (mem_of_highest hoffers)
    obtain ⟨w, hw, -⟩ := le_highest hc'
    rw [hk, hbase] at hw
    cases hw
  have hw := hsub (mem_of_highest hbase)
  obtain ⟨v, hv, hle⟩ := le_highest hw
  obtain ⟨c', hc', hk, hle'⟩ := htopped _ (mem_of_highest hv)
  obtain ⟨w', hw', hle''⟩ := le_highest hc'
  rw [hk, hbase] at hw'
  cases hw'
  -- the two maxima top each other, so they are equally high, and agree
  have heq : v.1 = w.1 := le_antisymm (hle'.trans hle'') hle
  have hval : v.2 = w.2 := hagree k w.1 v.2 w.2 (by rw [← heq]; exact mem_of_highest hv) hw
  rw [hv, show v = w from Prod.ext heq hval]

end Quil.Schemes
