import Quilibrium.Schemes.BitPath

/-! Regions of layered path space, and a register of CLAIMS on them. A region is a path in a layer; two regions
    overlap when they are in one layer and one path begins the other. A claim on a region takes the place of every
    claim it overlaps. So what stands is exactly the claims that no later claim overlaps: the register is determined
    by the ledger of all claims made, and it never holds two that overlap. -/

namespace Quil.Schemes

variable {L V : Type*} [DecidableEq L]

/-- A path in a layer. -/
abbrev Region (L : Type*) := L × List Bool

/-- Same layer, and one path begins the other. -/
def Overlaps (r r' : Region L) : Prop := r.1 = r'.1 ∧ (r.2 <+: r'.2 ∨ r'.2 <+: r.2)

instance (r r' : Region L) : Decidable (Overlaps r r') :=
  inferInstanceAs (Decidable (_ ∧ _))

omit [DecidableEq L] in
theorem overlaps_self (r : Region L) : Overlaps r r := ⟨rfl, .inl (List.prefix_refl _)⟩

omit [DecidableEq L] in
variable {r r' : Region L}

theorem overlaps_comm : Overlaps r r' ↔ Overlaps r' r := by
  rw [Overlaps, Overlaps, or_comm, eq_comm]

/-- The last claim in the ledger that overlaps a region. -/
def lastOver (ledger : List (Region L × V)) (r : Region L) : Option (Region L × V) :=
  (ledger.filter fun c => Overlaps c.1 r).getLast?

/-- The region's own claim is the last that overlaps it. -/
def Stands (ledger : List (Region L × V)) (r : Region L) (v : V) : Prop :=
  lastOver ledger r = some (r, v)

@[simp] theorem lastOver_nil (r : Region L) : lastOver ([] : List (Region L × V)) r = none := rfl

theorem lastOver_concat (ledger : List (Region L × V)) (c : Region L × V) (r : Region L) :
    lastOver (ledger ++ [c]) r = if Overlaps c.1 r then some c else lastOver ledger r := by
  rw [lastOver, List.filter_append]
  split_ifs with h
  · simp [h]
  · simp [h, lastOver]

variable {ledger : List (Region L × V)}

/-- After a claim stand the claim itself and what it does not overlap. -/
theorem stands_concat {c : Region L × V} {v : V} :
    Stands (ledger ++ [c]) r v ↔ c = (r, v) ∨ ¬ Overlaps c.1 r ∧ Stands ledger r v := by
  rw [Stands, lastOver_concat]
  split_ifs with h
  · constructor
    · exact fun he => .inl (Option.some.inj he)
    · rintro (rfl | ⟨hn, -⟩)
      · rfl
      · exact absurd h hn
  constructor
  · exact fun hs => .inr ⟨h, hs⟩
  · rintro (rfl | ⟨-, hs⟩)
    · exact absurd (overlaps_self _) h
    · exact hs

theorem not_stands_nil (r : Region L) (v : V) : ¬ Stands [] r v := by simp [Stands]

/-- A ledger with a claim in it has one that stands: the last. -/
theorem eq_nil_of_not_stands (h : ∀ r v, ¬ Stands ledger r v) : ledger = [] := by
  rcases List.eq_nil_or_concat ledger with rfl | ⟨ledger, c, rfl⟩
  · rfl
  · rw [List.concat_eq_append] at h
    exact absurd (stands_concat.2 (.inl rfl)) (h c.1 c.2)

/-- Standing claims that overlap are the same claim. -/
theorem Stands.eq_of_overlaps {v v' : V}
    (h : Stands ledger r v) (h' : Stands ledger r' v') (ho : Overlaps r r') : r = r' := by
  induction ledger using List.reverseRecOn with
  | nil => exact absurd h (not_stands_nil r v)
  | append_singleton ledger c ih =>
    rcases stands_concat.1 h with rfl | ⟨hn, h⟩ <;> rcases stands_concat.1 h' with heq | ⟨hn', h'⟩
    · exact congrArg Prod.fst heq
    · exact absurd ho hn'
    · subst heq
      exact absurd (overlaps_comm.1 ho) hn
    · exact ih h h'

/-! ### What covers a region -/

/-- Same layer, and the first path begins the second. -/
def Covers (r r' : Region L) : Prop := r.1 = r'.1 ∧ r.2 <+: r'.2

instance (r r' : Region L) : Decidable (Covers r r') :=
  inferInstanceAs (Decidable (_ ∧ _))

omit [DecidableEq L] in
theorem covers_self (r : Region L) : Covers r r := ⟨rfl, List.prefix_refl _⟩

omit [DecidableEq L] in
theorem Covers.overlaps (h : Covers r r') : Overlaps r r' := ⟨h.1, .inl h.2⟩

/-- The last claim in the ledger that covers a region. -/
def lastCovering (ledger : List (Region L × V)) (r : Region L) : Option (Region L × V) :=
  (ledger.filter fun c => Covers c.1 r).getLast?

theorem lastCovering_concat (ledger : List (Region L × V)) (c : Region L × V) (r : Region L) :
    lastCovering (ledger ++ [c]) r = if Covers c.1 r then some c else lastCovering ledger r := by
  rw [lastCovering, List.filter_append]
  split_ifs with h
  · simp [h]
  · simp [h, lastCovering]

/-- Claims that do not stand beside a ledger's may be heard too: as long as each standing claim is the
    last heard to cover its region, a claim added to both keeps it so. -/
theorem lastCovering_of_stands {heard : List (Region L × V)}
    (h : ∀ r v, Stands ledger r v → lastCovering heard r = some (r, v)) (c : Region L × V) :
    ∀ r v, Stands (ledger ++ [c]) r v → lastCovering (heard ++ [c]) r = some (r, v) := by
  intro r v hv
  rw [lastCovering_concat]
  rcases stands_concat.1 hv with rfl | ⟨hover, hv⟩
  · rw [if_pos (covers_self r)]
  · rw [if_neg fun hc => hover hc.overlaps, h r v hv]

end Quil.Schemes
