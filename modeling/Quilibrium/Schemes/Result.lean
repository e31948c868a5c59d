import Mathlib.Tactic

/-! Computations that may fail, in `Except`. A composite succeeds exactly when its parts do; these are
    the lemmas that take a successful `do` block apart. -/

namespace Quil.Schemes
open List

universe u v
variable {ε : Type u} {α β : Type v} {f : α → Except ε β}

theorem bind_eq_ok {x : Except ε α} {b : β} : (x >>= f) = .ok b ↔ ∃ a, x = .ok a ∧ f a = .ok b := by
  cases x <;> simp [bind, Except.bind]

theorem bind_ok {x : Except ε α} {b : β} (h : (x >>= f) = .ok b) : ∃ a, x = .ok a ∧ f a = .ok b := bind_eq_ok.1 h

/-- A check passes exactly when it is not hit and the rest passes. -/
theorem guard_eq_ok {c : Prop} [Decidable c] {e : ε} {x : Except ε α} {a : α} :
    (if c then .error e else x) = .ok a ↔ ¬ c ∧ x = .ok a := by
  split <;> simp [*]

@[simp] theorem ok_bind (a : α) (f : α → Except ε β) : (Except.ok a >>= f) = f a := rfl

@[simp] theorem error_bind (e : ε) (f : α → Except ε β) : ((.error e : Except ε α) >>= f) = .error e := rfl

@[simp] theorem pure_eq_ok (a : α) : (pure a : Except ε α) = .ok a := rfl

theorem reduceOption_map_eq (f : α → Option β) (l : List α) : (l.map f).reduceOption = l.filterMap f := by
  change (l.map f).filterMap id = _
  rw [filterMap_map, Function.id_comp]

variable {l : List α}

theorem mapM_ok {g : α → β} (h : ∀ a ∈ l, f a = .ok (g a)) : l.mapM f = .ok (l.map g) := by
  induction l with
  | nil => rfl
  | cons a l ih =>
    rw [mapM_cons, h a mem_cons_self, ok_bind, ih fun x hx => h x (mem_cons_of_mem _ hx)]
    rfl

variable {bs : List β}

section
variable (h : l.mapM f = .ok bs)
include h

theorem exists_ok_of_mapM : ∀ a ∈ l, ∃ b, f a = .ok b := by
  induction l generalizing bs with
  | nil => simp
  | cons a l ih =>
    rw [mapM_cons] at h
    obtain ⟨b, hb, h⟩ := bind_ok h
    obtain ⟨bs', hbs, -⟩ := bind_ok h
    exact forall_mem_cons.2 ⟨⟨b, hb⟩, ih hbs⟩

/-- Every result of a `mapM` is that of an element. -/
theorem mem_of_mapM {b : β} (hb : b ∈ bs) : ∃ a ∈ l, f a = .ok b := by
  induction l generalizing bs with
  | nil =>
    cases h
    exact absurd hb not_mem_nil
  | cons a l ih =>
    rw [mapM_cons] at h
    obtain ⟨b', hb', h⟩ := bind_ok h
    obtain ⟨bs', hbs, h⟩ := bind_ok h
    cases h
    rcases mem_cons.1 hb with rfl | hb
    · exact ⟨a, mem_cons_self, hb'⟩
    · obtain ⟨x, hx, hfx⟩ := ih hbs hb
      exact ⟨x, mem_cons_of_mem _ hx, hfx⟩

/-- What each result of a `mapM` says of its element, the results say of the list. -/
theorem map_eq_of_mapM {γ : Type*} {g : β → γ} {k : α → γ} (hg : ∀ a b, f a = .ok b → g b = k a) : bs.map g = l.map k := by
  induction l generalizing bs with
  | nil =>
    cases h
    rfl
  | cons a l ih =>
    rw [mapM_cons] at h
    obtain ⟨b, hb, h⟩ := bind_ok h
    obtain ⟨bs', hbs, h⟩ := bind_ok h
    cases h
    rw [map_cons, hg a b hb, ih hbs, map_cons]

/-- What each result of a `mapM` keeps, the list keeps. -/
theorem map_of_mapM {g : β → α} (hg : ∀ a b, f a = .ok b → g b = a) : bs.map g = l :=
  (map_eq_of_mapM (k := id) h hg).trans (map_id l)

end

/-- A `mapM` of a partial function, by where it is defined and what it gives there. -/
theorem mapM_eq_ok {g : α → β} {p : α → Prop}
    (h : ∀ a b, f a = .ok b ↔ p a ∧ b = g a) : l.mapM f = .ok bs ↔ (∀ a ∈ l, p a) ∧ bs = l.map g := by
  constructor
  · intro hmap
    refine ⟨fun a ha => ?_, ?_⟩
    · obtain ⟨b, hb⟩ := exists_ok_of_mapM hmap a ha
      exact ((h a b).1 hb).1
    · exact (map_id bs).symm.trans (map_eq_of_mapM (g := id) hmap fun a b hb => ((h a b).1 hb).2)
  · rintro ⟨hp, rfl⟩
    exact mapM_ok fun a ha => (h a (g a)).2 ⟨hp a ha, rfl⟩

/-- Mapping over the kept elements, when those are where a partial function has a value. -/
theorem mapM_filter_ok {p : α → Bool} {g : α → Option β}
    (hkept : ∀ a ∈ l, p a = true → ∃ b, g a = some b ∧ f a = .ok b) (hdropped : ∀ a ∈ l, p a = false → g a = none) :
    (l.filter p).mapM f = .ok (l.filterMap g) := by
  induction l with
  | nil => rfl
  | cons a l ih =>
    have ih := ih (fun x hx => hkept x (mem_cons_of_mem _ hx))
      fun x hx => hdropped x (mem_cons_of_mem _ hx)
    cases hp : p a with
    | true =>
      obtain ⟨b, hb, hf⟩ := hkept a mem_cons_self hp
      rw [filter_cons_of_pos hp, mapM_cons, hf, ok_bind, ih, filterMap_cons_some hb]
      rfl
    | false =>
      rw [filter_cons_of_neg (by simp [hp]), ih, filterMap_cons_none (hdropped a mem_cons_self hp)]

end Quil.Schemes
