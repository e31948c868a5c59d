import Quilibrium.Schemes.Assoc

/-! Sparse binary trees. Nodes are PLACED at positions `(level, index)`; a position without a placed
    node is the parent of its two children, an absent child standing for the all-zero subtree of its
    level. `node` is that value, absent when nothing lies under the position. The tree knows nothing of
    how it was computed, so the same value is reached from placements at different levels: replacing
    what lies under a set of positions by the node there (a CUT) changes no node above. -/

namespace Quil.Schemes

variable {N M : Type*}

/-- The root of an all-zero subtree, `l` levels above the leaves. -/
def zeros (parent : N → N → N) (zero : N) : ℕ → N
  | 0 => zero
  | l + 1 => parent (zeros parent zero l) (zeros parent zero l)

/-- The parent of two children, an absent one standing for `z`; absent when both are. -/
def join (parent : N → N → N) (z : N) : Option N → Option N → Option N
  | none, none => none
  | some a, none => some (parent a z)
  | none, some b => some (parent z b)
  | some a, some b => some (parent a b)

/-- Nodes placed at levels and indices. -/
abbrev Placement (N : Type*) := ℕ → ℕ → Option N

/-- The node at a position: the placed one, else the parent of its children. -/
def node (parent : N → N → N) (zero : N) (P : Placement N) : ℕ → ℕ → Option N
  | 0, i => P 0 i
  | l + 1, i => (P (l + 1) i).or
    (join parent (zeros parent zero l) (node parent zero P l (2 * i)) (node parent zero P l (2 * i + 1)))

/-- The node a position would have if nothing were placed at it. -/
def below (parent : N → N → N) (zero : N) (P : Placement N) : ℕ → ℕ → Option N
  | 0, _ => none
  | l + 1, i => join parent (zeros parent zero l) (node parent zero P l (2 * i)) (node parent zero P l (2 * i + 1))

theorem node_eq_or (parent : N → N → N) (zero : N) (P : Placement N) (l i : ℕ) :
    node parent zero P l i = (P l i).or (below parent zero P l i) := by
  cases l with
  | zero => simp [node, below]
  | succ l => rw [node, below]

/-- The position `(m, j)` lies at or under `(l, i)`. -/
def Under (m j l i : ℕ) : Prop := m ≤ l ∧ j / 2 ^ (l - m) = i

theorem under_self (l i : ℕ) : Under l i l i := ⟨le_rfl, by simp⟩

variable {m j i : ℕ}

theorem under_zero : Under m j 0 i ↔ m = 0 ∧ j = i := by
  constructor
  · rintro ⟨hm, rfl⟩
    exact ⟨by omega, by simp⟩
  · rintro ⟨rfl, rfl⟩
    exact under_self 0 j

variable {l : ℕ}

/-- Under a position: at it, or under one of its children. -/
theorem under_succ : Under m j (l + 1) i ↔ m = l + 1 ∧ j = i ∨ Under m j l (2 * i) ∨ Under m j l (2 * i + 1) := by
  constructor
  · rintro ⟨hle, rfl⟩
    rcases lt_or_ge l m with hlt | hge
    · obtain rfl : m = l + 1 := by omega
      exact .inl ⟨rfl, by simp⟩
    right
    have hpow : 2 ^ (l + 1 - m) = 2 ^ (l - m) * 2 := by rw [← pow_succ]; congr 1; omega
    rw [hpow, ← Nat.div_div_eq_div_mul]
    rcases Nat.mod_two_eq_zero_or_one (j / 2 ^ (l - m)) with h | h
    · exact .inl ⟨hge, by omega⟩
    · exact .inr ⟨hge, by omega⟩
  · have hup : ∀ {i' : ℕ}, i' / 2 = i → Under m j l i' → Under m j (l + 1) i := by
      rintro i' rfl ⟨hle, rfl⟩
      refine ⟨hle.trans (Nat.le_succ l), ?_⟩
      rw [Nat.div_div_eq_div_mul, ← pow_succ]
      congr 2; omega
    rintro (⟨rfl, rfl⟩ | h | h)
    · exact under_self _ _
    · exact hup (by omega) h
    · exact hup (by omega) h

variable {k : ℕ}

theorem under_trans {n : ℕ} (h : Under m j l i) (h' : Under l i k n) : Under m j k n := by
  obtain ⟨hle, rfl⟩ := h
  obtain ⟨hle', rfl⟩ := h'
  refine ⟨hle.trans hle', ?_⟩
  rw [Nat.div_div_eq_div_mul, ← pow_add]
  congr 2; omega

theorem under_add : Under (k + m) j (k + l) i ↔ Under m j l i := by
  rw [Under, Under, Nat.add_sub_add_left, Nat.add_le_add_iff_left]

variable {P : Placement N}

section
variable {parent : N → N → N} {zero : N}

theorem join_eq_none {z : N} {a b : Option N} : join parent z a b = none ↔ a = none ∧ b = none := by
  cases a <;> cases b <;> simp [join]

/-- Something is at a position exactly when something is placed at or under it. -/
theorem node_eq_none : node parent zero P l i = none ↔ ∀ m j, Under m j l i → P m j = none := by
  induction l generalizing i with
  | zero =>
    rw [node]
    constructor
    · rintro h m j ⟨hm, rfl⟩
      obtain rfl : m = 0 := by omega
      simpa using h
    · exact fun h => h 0 i (under_self 0 i)
  | succ l ih =>
    rw [node, Option.or_eq_none_iff, join_eq_none, ih, ih]
    constructor
    · rintro ⟨hhere, hleft, hright⟩ m j hu
      rcases under_succ.1 hu with ⟨rfl, rfl⟩ | hu | hu
      · exact hhere
      · exact hleft m j hu
      · exact hright m j hu
    · intro h
      exact ⟨h _ _ (under_self _ _), fun m j hu => h m j (under_succ.2 (.inr (.inl hu))),
        fun m j hu => h m j (under_succ.2 (.inr (.inr hu)))⟩

theorem below_eq_none : below parent zero P l i = none ↔ ∀ m j, m < l → Under m j l i → P m j = none := by
  cases l with
  | zero => simp [below]
  | succ l =>
    rw [below, join_eq_none, node_eq_none, node_eq_none]
    constructor
    · rintro ⟨hleft, hright⟩ m j hm hu
      rcases under_succ.1 hu with ⟨rfl, -⟩ | hu | hu
      · omega
      · exact hleft m j hu
      · exact hright m j hu
    · intro h
      exact ⟨fun m j hu => h m j (Nat.lt_succ_of_le hu.1) (under_succ.2 (.inr (.inl hu))),
        fun m j hu => h m j (Nat.lt_succ_of_le hu.1) (under_succ.2 (.inr (.inr hu)))⟩

/-- The full tree: a position without a placed node is the parent of its two children, down to zero leaves. -/
def full (parent : N → N → N) (zero : N) (P : Placement N) : ℕ → ℕ → N
  | 0, i => (P 0 i).getD zero
  | l + 1, i => (P (l + 1) i).getD (parent (full parent zero P l (2 * i)) (full parent zero P l (2 * i + 1)))

theorem join_getD (parent : N → N → N) (z : N) (a b : Option N) :
    (join parent z a b).getD (parent z z) = parent (a.getD z) (b.getD z) := by
  cases a <;> cases b <;> rfl

/-- Absent nodes are the zero subtrees of the full tree. -/
theorem full_eq_node (parent : N → N → N) (zero : N) (P : Placement N) (l i : ℕ) :
    full parent zero P l i = (node parent zero P l i).getD (zeros parent zero l) := by
  induction l generalizing i with
  | zero => rfl
  | succ l ih =>
    rw [full, node, ih, ih, ← join_getD parent]
    cases P (l + 1) i <;> rfl

/-- A node depends on what is placed at or under it. -/
theorem node_congr {Q : Placement N} (h : ∀ m j, Under m j l i → P m j = Q m j) :
    node parent zero P l i = node parent zero Q l i := by
  induction l generalizing i with
  | zero => exact h 0 i (under_self 0 i)
  | succ l ih =>
    rw [node, node, h _ _ (under_self _ _), ih fun m j hu => h m j (under_succ.2 (.inr (.inl hu))),
      ih fun m j hu => h m j (under_succ.2 (.inr (.inr hu)))]

/-- Numbering positions from a subtree's own first index changes no node. -/
theorem node_shift {R : Placement N} (h : ∀ m ≤ k, ∀ j < 2 ^ (k - m), R m j = P m (i * 2 ^ (k - m) + j)) :
    node parent zero R k 0 = node parent zero P k i := by
  have hgen : ∀ m ≤ k, ∀ j < 2 ^ (k - m), node parent zero R m j = node parent zero P m (i * 2 ^ (k - m) + j) := by
    intro m
    induction m with
    | zero => exact fun hm j hj => h 0 hm j hj
    | succ m ih =>
      intro hm j hj
      have hpow : 2 ^ (k - m) = 2 * 2 ^ (k - (m + 1)) := by rw [← pow_succ']; congr 1; omega
      have hleft : i * 2 ^ (k - m) + 2 * j = 2 * (i * 2 ^ (k - (m + 1)) + j) := by rw [hpow]; ring
      have hright : i * 2 ^ (k - m) + (2 * j + 1) = 2 * (i * 2 ^ (k - (m + 1)) + j) + 1 := by rw [hpow]; ring
      rw [node, node, h _ hm j hj, ih (by omega) _ (by omega), ih (by omega) _ (by omega), hleft, hright]
  simpa using hgen k le_rfl 0 (by simp)

/-- A map that respects parents and zero respects nodes. -/
theorem node_map {parent' : M → M → M} {zero' : M} (f : N → M) (hparent : ∀ a b, f (parent a b) = parent' (f a) (f b))
    (hzero : f zero = zero') (P : Placement N) (l i : ℕ) :
    node parent' zero' (fun m j => (P m j).map f) l i = (node parent zero P l i).map f := by
  have hzeros : ∀ l, f (zeros parent zero l) = zeros parent' zero' l := by
    intro l
    induction l with
    | zero => exact hzero
    | succ l ih => rw [zeros, zeros, hparent, ih]
  induction l generalizing i with
  | zero => rfl
  | succ l ih =>
    rw [node, node, ih, ih, ← hzeros]
    cases P (l + 1) i with
    | some n => simp
    | none =>
      cases node parent zero P l (2 * i) <;> cases node parent zero P l (2 * i + 1) <;>
        simp [join, hparent]

theorem zeros_add (k l : ℕ) : zeros parent (zeros parent zero k) l = zeros parent zero (k + l) := by
  induction l with
  | zero => rfl
  | succ l ih => rw [zeros, ih]; rfl

/-- Levels may be counted from the lowest one with placed nodes. -/
theorem node_lift (h : ∀ m < k, ∀ j, P m j = none) (l i : ℕ) :
    node parent (zeros parent zero k) (fun m j => P (k + m) j) l i = node parent zero P (k + l) i := by
  induction l generalizing i with
  | zero =>
    have hnone : below parent zero P k i = none := below_eq_none.2 fun m j hm _ => h m hm j
    rw [add_zero, node_eq_or parent zero, hnone, Option.or_none]
    rfl
  | succ l ih => rw [node, ih, ih, zeros_add, ← add_assoc, node]

/-- What placed nodes satisfy, and parents keep, every node satisfies. -/
theorem node_induction {Q : ℕ → N → Prop} (hplaced : ∀ l i n, P l i = some n → Q l n)
    (hjoin : ∀ l a b n, (∀ x ∈ a, Q l x) → (∀ x ∈ b, Q l x) →
      join parent (zeros parent zero l) a b = some n → Q (l + 1) n) {n : N} (h : node parent zero P l i = some n) : Q l n := by
  induction l generalizing i n with
  | zero => exact hplaced 0 i n h
  | succ l ih =>
    rw [node, Option.or_eq_some_iff] at h
    rcases h with h | ⟨-, h⟩
    · exact hplaced _ _ _ h
    · exact hjoin l _ _ n (fun x hx => ih hx) (fun x hx => ih hx) h

/-- Replacing what lies under a CUT by the nodes at the cut changes no node above it. The cut is an
    antichain that everything placed lies under. -/
theorem node_cut {Q : Placement N} {C : ℕ → ℕ → Prop} (hin : ∀ l i, C l i → Q l i = node parent zero P l i)
    (hout : ∀ l i, ¬ C l i → Q l i = none) (hanti : ∀ m j l i, C m j → C l i → Under m j l i → m = l)
    (hcover : ∀ m j, P m j ≠ none → ∃ l i, C l i ∧ Under m j l i) (habove : ∀ k n, C k n → Under l i k n → k = l) :
    node parent zero Q l i = node parent zero P l i := by
  induction l generalizing i with
  | zero =>
    by_cases hc : C 0 i
    · exact hin 0 i hc
    rw [node, node, hout 0 i hc]
    by_contra hne
    obtain ⟨k, n, hkn, hu⟩ := hcover 0 i (Ne.symm hne)
    obtain rfl := habove k n hkn hu
    obtain ⟨-, rfl⟩ := hu
    exact hc (by simpa using hkn)
  | succ l ih =>
    by_cases hc : C (l + 1) i
    · -- at the cut: nothing of `Q` lies strictly under it
      have hnone : join parent (zeros parent zero l) (node parent zero Q l (2 * i))
          (node parent zero Q l (2 * i + 1)) = none := by
        have hchild : ∀ i', Under l i' (l + 1) i → node parent zero Q l i' = none := by
          refine fun i' hi' => node_eq_none.2 fun m j hu => hout m j fun hmj => ?_
          have := hanti m j (l + 1) i hmj hc (under_trans hu hi')
          have := hu.1
          omega
        rw [hchild _ (under_succ.2 (.inr (.inl (under_self _ _)))),
          hchild _ (under_succ.2 (.inr (.inr (under_self _ _))))]
        rfl
      rw [node, hin _ _ hc, hnone, Option.or_none]
    · have hchild : ∀ i', Under l i' (l + 1) i →
          node parent zero Q l i' = node parent zero P l i' := by
        refine fun i' hi' => ih fun k n hkn hu => ?_
        by_contra hkl
        -- a cut position strictly above the child is at or above the parent
        have hle : l + 1 ≤ k := by have := hu.1; omega
        have hpar : Under (l + 1) i k n := by
          obtain ⟨-, rfl⟩ := hu
          obtain ⟨-, rfl⟩ := hi'
          refine ⟨hle, ?_⟩
          rw [Nat.div_div_eq_div_mul, ← pow_add]
          congr 2; omega
        obtain rfl := habove k n hkn hpar
        obtain ⟨-, rfl⟩ := hpar
        exact hc (by simpa using hkn)
      have hP : P (l + 1) i = none := by
        by_contra hne
        obtain ⟨k, n, hkn, hu⟩ := hcover _ _ hne
        obtain rfl := habove k n hkn hu
        obtain ⟨-, rfl⟩ := hu
        exact hc (by simpa using hkn)
      rw [node, node, hout _ _ hc, hP, hchild _ (under_succ.2 (.inr (.inl (under_self _ _)))),
        hchild _ (under_succ.2 (.inr (.inr (under_self _ _))))]

end

/-! ### Trees of leaves -/

/-- Nodes placed at level 0 only. -/
def leaves (L : List (ℕ × N)) : Placement N
  | 0, i => L.lookup i
  | _ + 1, _ => none

/-- A tree of leaves has a node wherever a leaf lies under. -/
theorem node_leaves_eq_none {parent : N → N → N} {zero : N} {L : List (ℕ × N)} :
    node parent zero (leaves L) l i = none ↔ ∀ x ∈ L, x.1 / 2 ^ l ≠ i := by
  rw [node_eq_none]
  constructor
  · exact fun h x hx hi => lookup_eq_none.1 (h 0 x.1 ⟨zero_le, hi⟩) x hx rfl
  · rintro h (_ | m) j ⟨-, hi⟩
    · exact lookup_eq_none.2 fun x hx hxj => h x hx (hxj ▸ hi)
    · rfl

theorem map_leaves (f : N → M) (L : List (ℕ × N)) (l i : ℕ) :
    (leaves L l i).map f = leaves (L.map fun x => (x.1, f x.2)) l i := by
  cases l with
  | succ l => rfl
  | zero =>
    rw [leaves, leaves]
    induction L with
    | nil => rfl
    | cons x L ih =>
      obtain ⟨k, v⟩ := x
      by_cases hk : i = k
      · rw [List.map_cons, lookup_cons_of_eq hk, lookup_cons_of_eq hk]
        rfl
      · rw [List.map_cons, lookup_cons_of_ne hk, lookup_cons_of_ne hk, ih]

/-- A map that respects parents and zero may be applied to the leaves. -/
theorem map_node_leaves {parent : N → N → N} {zero : N} {parent' : M → M → M} {zero' : M} (f : N → M)
    (hparent : ∀ a b, f (parent a b) = parent' (f a) (f b)) (hzero : f zero = zero') (L : List (ℕ × N)) (l i : ℕ) :
    (node parent zero (leaves L) l i).map f = node parent' zero' (leaves (L.map fun x => (x.1, f x.2))) l i := by
  rw [← node_map f hparent hzero]
  exact node_congr fun m j _ => map_leaves f L m j

section
variable [AddCommMonoid M]

theorem zeros_sum (l : ℕ) : zeros (· + ·) (0 : M) l = 0 := by
  induction l with
  | zero => rfl
  | succ l ih => rw [zeros, ih, add_zero]

theorem join_sum (a b : Option M) : (join (· + ·) 0 a b).getD 0 = a.getD 0 + b.getD 0 := by
  cases a <;> cases b <;> simp [join]

theorem sum_filter_split (L : List (ℕ × M)) {p q r : ℕ × M → Bool}
    (hr : ∀ x, r x = (p x || q x)) (hpq : ∀ x, p x = true → q x = false) : ((L.filter r).map Prod.snd).sum =
      ((L.filter p).map Prod.snd).sum + ((L.filter q).map Prod.snd).sum := by
  induction L with
  | nil => simp
  | cons x L ih =>
    simp only [List.filter_cons, hr x]
    cases hp : p x with
    | true => simp [hpq x hp, ih, add_assoc]
    | false => cases q x <;> simp [ih, add_left_comm]

theorem getD_lookup {L : List (ℕ × M)} (hL : Keyed L) (i : ℕ) :
    (L.lookup i).getD 0 = ((L.filter fun x => x.1 = i).map Prod.snd).sum := by
  induction L with
  | nil => rfl
  | cons kv L ih =>
    obtain ⟨k, v⟩ := kv
    obtain ⟨hne, hL⟩ := keyed_cons.1 hL
    by_cases hk : i = k
    · have hnil : L.filter (fun x => x.1 = i) = [] :=
        List.filter_eq_nil_iff.2 fun x hx => by simpa [hk] using hne x hx
      rw [lookup_cons_of_eq hk, List.filter_cons_of_pos (by simp [hk]), hnil]
      simp
    · rw [lookup_cons_of_ne hk, List.filter_cons_of_neg (by simp [Ne.symm hk]), ih hL]

/-- In a tree of sums, a node is the sum of the leaves under it. -/
theorem node_sum {L : List (ℕ × M)} (hL : Keyed L) (l i : ℕ) : (node (· + ·) 0 (leaves L) l i).getD 0 =
      ((L.filter fun x => x.1 / 2 ^ l = i).map Prod.snd).sum := by
  induction l generalizing i with
  | zero => simpa only [node, leaves, pow_zero, Nat.div_one] using getD_lookup hL i
  | succ l ih =>
    rw [node, leaves, Option.none_or, zeros_sum, join_sum, ih, ih]
    refine (sum_filter_split L (fun x => ?_) fun x hx => ?_).symm
    · rw [pow_succ, ← Nat.div_div_eq_div_mul, ← Bool.decide_or]
      congr 1
      rw [eq_iff_iff]
      omega
    · simp only [decide_eq_true_eq] at hx
      simp [hx]

end

end Quil.Schemes
