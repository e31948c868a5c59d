import Mathlib.Tactic

/-! Runs of a machine `step : σ → α → σ × β` that answers every call and keeps a TRACE of calls and answers. The
    induction over a run is packaged once, in three rules: an invariant of trace and state, the same for runs whose
    calls all meet a condition, and a rule for statements about PAIRS of answers — an earlier call leaves a mark on
    the state that no later call erases, and a call made on a marked state answers compatibly. -/

namespace Quil.Schemes
open List

variable {σ α β : Type*} (step : σ → α → σ × β)

/-- The state after a list of calls, and the calls with their answers. -/
def run (s : σ) : List α → σ × List (α × β)
  | [] => (s, [])
  | a :: as => ((run (step s a).1 as).1, (a, (step s a).2) :: (run (step s a).1 as).2)

/-- Every call of the run meets the condition in the state it is made in. -/
def RunMeets (C : σ → α → Prop) (s : σ) : List α → Prop
  | [] => True
  | a :: as => C s a ∧ RunMeets C (step s a).1 as

@[simp] theorem run_nil (s : σ) : run step s [] = (s, []) := rfl

theorem run_cons (s : σ) (a : α) (as : List α) : run step s (a :: as) =
      ((run step (step s a).1 as).1, (a, (step s a).2) :: (run step (step s a).1 as).2) := rfl

theorem run_append (s : σ) (as bs : List α) : (run step s (as ++ bs)).1 = (run step (run step s as).1 bs).1 := by
  induction as generalizing s with
  | nil => rfl
  | cons a as ih => exact ih (step s a).1

theorem runMeets_append {C : σ → α → Prop} (s : σ) (as bs : List α) :
    RunMeets step C s (as ++ bs) ↔ RunMeets step C s as ∧ RunMeets step C (run step s as).1 bs := by
  induction as generalizing s with
  | nil => exact (and_iff_right trivial).symm
  | cons a as ih => exact (and_congr_right fun _ => ih (step s a).1).trans and_assoc.symm

/-- The trace lists the calls. -/
theorem run_calls (s : σ) (as : List α) : (run step s as).2.map Prod.fst = as := by
  induction as generalizing s with
  | nil => rfl
  | cons a as ih => rw [run_cons, map_cons, ih]

theorem mem_of_mem_run {s : σ} {as : List α} {x : α × β} (hx : x ∈ (run step s as).2) : x.1 ∈ as :=
  run_calls step s as ▸ mem_map_of_mem hx

/-- A condition on the calls alone. -/
theorem runMeets_of_forall {P : α → Prop} (as : List α) (h : ∀ a ∈ as, P a) (s : σ) :
    RunMeets step (fun _ a => P a) s as := by
  induction as generalizing s with
  | nil => trivial
  | cons a as ih => exact ⟨h a mem_cons_self, ih (fun b hb => h b (mem_cons_of_mem _ hb)) _⟩

/-- An invariant of trace and state holds along every run whose calls meet a condition. -/
theorem run_invariant_of {C : σ → α → Prop} {I : List (α × β) → σ → Prop}
    (hstep : ∀ tr s a, I tr s → C s a → I (tr ++ [(a, (step s a).2)]) (step s a).1) :
    ∀ (as : List α) (s : σ) (tr : List (α × β)), I tr s → RunMeets step C s as →
      I (tr ++ (run step s as).2) (run step s as).1
  | [], s, tr, h, _ => by simpa using h
  | a :: as, s, tr, h, hC => by
    have hrest := run_invariant_of hstep as (step s a).1 _ (hstep tr s a h hC.1) hC.2
    rwa [append_assoc] at hrest

/-- An invariant of trace and state holds along every run. -/
theorem run_invariant (Inv : List (α × β) → σ → Prop) {s : σ} (h0 : Inv [] s)
    (hstep : ∀ tr s a, Inv tr s → Inv (tr ++ [(a, (step s a).2)]) (step s a).1) (as : List α) :
    Inv (run step s as).2 (run step s as).1 := by
  have h := run_invariant_of step (C := fun _ _ => True) (fun tr s a h _ => hstep tr s a h) as s []
    h0 (runMeets_of_forall step (P := fun _ => True) as (fun _ _ => trivial) s)
  simpa using h

/-- Two machines whose steps keep a relation of their states and answer alike run alike. -/
theorem run_simulates {τ γ : Type*} {spec : τ → α → τ × γ} (R : σ → τ → Prop) {f : β → γ}
    (hstep : ∀ s t a, R s t → R (step s a).1 (spec t a).1 ∧ f (step s a).2 = (spec t a).2) {s : σ} {t : τ}
    (h : R s t) (as : List α) : R (run step s as).1 (run spec t as).1 ∧
      (run step s as).2.map (fun e => (e.1, f e.2)) = (run spec t as).2 := by
  induction as generalizing s t with
  | nil => exact ⟨h, rfl⟩
  | cons a as ih =>
    obtain ⟨hnext, hanswer⟩ := hstep s t a h
    obtain ⟨hlast, hanswers⟩ := ih hnext
    exact ⟨hlast, by rw [run_cons, run_cons, map_cons, hanswers, hanswer]⟩

/-- With an invariant of trace and state, every answer stands in `Q` to the trace before it. -/
theorem run_each (Inv : List (α × β) → σ → Prop) {Q : List (α × β) → α × β → Prop} {s : σ} (h0 : Inv [] s)
    (hstep : ∀ tr s a, Inv tr s → Inv (tr ++ [(a, (step s a).2)]) (step s a).1)
    (hQ : ∀ tr s a, Inv tr s → Q tr (a, (step s a).2)) (as : List α) :
    ∀ before ev after, (run step s as).2 = before ++ ev :: after → Q before ev := by
  have h := run_invariant step
    (fun tr s => Inv tr s ∧ ∀ before ev after, tr = before ++ ev :: after → Q before ev) (s := s)
    ⟨h0, by simp⟩ ?_ as
  · exact h.2
  rintro tr s a ⟨hinv, hall⟩
  refine ⟨hstep tr s a hinv, fun before ev after heq => ?_⟩
  -- the split point is the new event, or lies in the old trace
  rcases eq_nil_or_concat after with rfl | ⟨after', x, rfl⟩
  · obtain ⟨rfl, hev⟩ := append_inj' heq rfl
    cases hev
    exact hQ _ s a hinv
  · rw [concat_eq_append, ← cons_append, ← append_assoc] at heq
    exact hall before ev after' (append_inj' heq rfl).1

/-- Marks that calls leave and no call erases make the answers of a run pairwise compatible. -/
theorem run_pairwise {mark : α × β → σ → Prop} {R : α × β → α × β → Prop}
    (hset : ∀ s a, mark (a, (step s a).2) (step s a).1) (hkeep : ∀ e s a, mark e s → mark e (step s a).1)
    (hclash : ∀ e s a, mark e s → R e (a, (step s a).2)) (s : σ) (as : List α) :
    (run step s as).2.Pairwise R ∧ ∀ e ∈ (run step s as).2, mark e (run step s as).1 := by
  refine run_invariant step (fun tr s => tr.Pairwise R ∧ ∀ e ∈ tr, mark e s) ⟨.nil, by simp⟩ ?_ as
  rintro tr s a ⟨hpair, hmark⟩
  refine ⟨pairwise_append.2 ⟨hpair, by simp, fun e he x hx => ?_⟩, fun e he => ?_⟩
  · rw [mem_singleton] at hx
    exact hx ▸ hclash e s a (hmark e he)
  rcases mem_append.1 he with he | he
  · exact hkeep e s a (hmark e he)
  · rw [mem_singleton] at he
    exact he ▸ hset s a

end Quil.Schemes
