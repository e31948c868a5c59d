import Quilibrium.Schemes.Partitions

/-! What families of paths COVER: the addresses of a fixed width that begin with a member. A prefix-free family
    without two siblings is in NORMAL FORM: its members are exactly the largest ranges that are covered as a
    whole, so two families in normal form that cover the same addresses have the same members. Merging two
    siblings into their parent changes neither what is covered nor that the family is prefix-free. -/

namespace Quil.Schemes
open List

/-- A member begins the address. -/
def CoversPath (paths : List (List Bool)) (a : List Bool) : Prop := ∃ p ∈ paths, p <+: a

/-- No two members differ in their last bit only. -/
def SiblingFree (paths : List (List Bool)) : Prop := ∀ p, ¬ (p ++ [false] ∈ paths ∧ p ++ [true] ∈ paths)

/-- Every address of `w` bits below the path is covered. -/
def Full (w : ℕ) (paths : List (List Bool)) (q : List Bool) : Prop := ∀ a, a.length = w → q <+: a → CoversPath paths a

/-- A prefix-free family of paths of at most `w` bits without siblings. -/
structure NormalForm (w : ℕ) (paths : List (List Bool)) : Prop where
  prefixFree : PrefixFree paths
  bounded : ∀ p ∈ paths, p.length ≤ w
  siblingFree : SiblingFree paths

variable {w : ℕ} {paths : List (List Bool)}

theorem Full.extend {q r : List Bool} (h : Full w paths q) (hqr : q <+: r) :
    Full w paths r := fun a ha hra => h a ha (hqr.trans hra)

theorem full_of_mem {p : List Bool} (hp : p ∈ paths) : Full w paths p :=
  fun _ _ hpa => ⟨p, hp, hpa⟩

/-- A whole range that no member covers from above is a member: otherwise its halves are, by induction on what is left
    of the width, and they are siblings. -/
theorem NormalForm.mem_of_full (h : NormalForm w paths) {q : List Bool}
    (hlen : q.length ≤ w) (hfull : Full w paths q) (habove : ∀ p ∈ paths, p <+: q → p = q) : q ∈ paths := by
  induction hn : w - q.length generalizing q with
  | zero =>
    obtain ⟨p, hp, hpq⟩ := hfull q (by omega) (prefix_refl q)
    exact habove p hp hpq ▸ hp
  | succ n ih =>
    by_contra hq
    have hhalf : ∀ b, q ++ [b] ∈ paths := fun b => by
      refine ih (by simp; omega) (hfull.extend (prefix_append q [b])) (fun p hp hpq => ?_) (by simp; omega)
      rcases prefix_concat_iff.1 hpq with heq | hpq
      · exact heq
      · exact absurd (habove p hp hpq ▸ hp) hq
    exact h.siblingFree q ⟨hhalf false, hhalf true⟩

/-- The members are the largest whole ranges. -/
theorem NormalForm.mem_iff (h : NormalForm w paths) (q : List Bool) :
    q ∈ paths ↔ q.length ≤ w ∧ Full w paths q ∧ ∀ r b, q = r ++ [b] → ¬ Full w paths r := by
  constructor
  · refine fun hq => ⟨h.bounded q hq, full_of_mem hq, ?_⟩
    rintro r b rfl hfull
    have hlen := h.bounded _ hq
    have hother : r ++ [!b] ∈ paths := by
      refine h.mem_of_full (by simpa using hlen) (hfull.extend (prefix_append r _)) fun p hp hpr => ?_
      rcases prefix_concat_iff.1 hpr with heq | hpr
      · exact heq
      have heq := h.prefixFree p hp _ hq (hpr.trans (prefix_append r [b]))
      have := hpr.length_le
      simp [heq] at this
    cases b
    · exact h.siblingFree r ⟨hq, hother⟩
    · exact h.siblingFree r ⟨hother, hq⟩
  · rintro ⟨hlen, hfull, hlargest⟩
    refine h.mem_of_full hlen hfull fun p hp hpq => ?_
    by_contra hne
    -- a member strictly above makes the parent whole
    obtain ⟨rest, rfl⟩ := hpq
    rcases eq_nil_or_concat rest with rfl | ⟨rest, b, rfl⟩
    · exact hne (append_nil p).symm
    · refine hlargest (p ++ rest) b (by simp) ?_
      exact (full_of_mem hp).extend (prefix_append p rest)

/-- Normal forms that cover the same addresses have the same members. -/
theorem NormalForm.mem_congr {paths' : List (List Bool)} (h : NormalForm w paths)
    (h' : NormalForm w paths') (hcover : ∀ a : List Bool, a.length = w → (CoversPath paths a ↔ CoversPath paths' a))
    (q : List Bool) : q ∈ paths ↔ q ∈ paths' := by
  have hfull : ∀ r, Full w paths r ↔ Full w paths' r := fun r =>
    forall_congr' fun a => forall_congr' fun ha => imp_congr_right fun _ => hcover a ha
  rw [h.mem_iff, h'.mem_iff]
  simp only [hfull]

/-! ### Merging siblings -/

section
variable {merged : List (List Bool)} {p : List Bool}

/-- The members after two siblings are replaced by their parent. -/
def Merges (paths : List (List Bool)) (p : List Bool) (merged : List (List Bool)) : Prop :=
  ∀ q, q ∈ merged ↔ q = p ∨ q ∈ paths ∧ q ≠ p ++ [false] ∧ q ≠ p ++ [true]

theorem Merges.coversPath (h : Merges paths p merged) (hleft : p ++ [false] ∈ paths) (hright : p ++ [true] ∈ paths)
    {a : List Bool} (ha : p.length < a.length) : CoversPath merged a ↔ CoversPath paths a := by
  constructor
  · rintro ⟨q, hq, hqa⟩
    rcases (h q).1 hq with rfl | ⟨hq, -⟩
    · obtain ⟨_ | ⟨b, rest⟩, rfl⟩ := hqa
      · simp at ha
      refine ⟨q ++ [b], ?_, by simp⟩
      cases b
      · exact hleft
      · exact hright
    · exact ⟨q, hq, hqa⟩
  · rintro ⟨q, hq, hqa⟩
    by_cases hsib : q = p ++ [false] ∨ q = p ++ [true]
    · refine ⟨p, (h p).2 (Or.inl rfl), ?_⟩
      rcases hsib with rfl | rfl
      · exact (prefix_append p _).trans hqa
      · exact (prefix_append p _).trans hqa
    · push Not at hsib
      exact ⟨q, (h q).2 (Or.inr ⟨hq, hsib⟩), hqa⟩

theorem Merges.prefixFree (h : Merges paths p merged) (hleft : p ++ [false] ∈ paths) (hright : p ++ [true] ∈ paths)
    (hfree : PrefixFree paths) : PrefixFree merged := by
  -- nothing that stays is comparable with the parent
  have hapart : ∀ q ∈ paths, q ≠ p ++ [false] ∧ q ≠ p ++ [true] → ¬ q <+: p ∧ ¬ p <+: q := by
    intro q hq hne
    refine ⟨fun hqp => hne.1 (hfree q hq _ hleft (hqp.trans (prefix_append p _))), ?_⟩
    rintro ⟨rest, rfl⟩
    rcases rest with _ | ⟨b, rest⟩
    · exact hne.1 (hfree _ hq _ hleft (by simp))
    cases b
    · exact hne.1 (hfree _ hleft _ hq (by simp)).symm
    · exact hne.2 (hfree _ hright _ hq (by simp)).symm
  intro q hq q' hq' hqq
  rcases (h q).1 hq with rfl | ⟨hq, hne⟩
  · rcases (h q').1 hq' with rfl | ⟨hq', hne'⟩
    · rfl
    · exact absurd hqq (hapart q' hq' hne').2
  rcases (h q').1 hq' with rfl | ⟨hq', -⟩
  · exact absurd hqq (hapart q hq hne).1
  · exact hfree q hq q' hq' hqq

end

end Quil.Schemes
