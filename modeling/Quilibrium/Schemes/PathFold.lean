import Quilibrium.Schemes.BitPath

/-! Values at bit paths of any depths, folded pairwise into one root: a binary tree in which a path's value stands at
    the end of the path and nothing is `zero`. One value and its SIBLINGS on the way up give the root again. Over
    paths of which none begins another the fold does not depend on the levels it is given; and where pairing is
    injective on the pairs that occur, and neither the values nor what is claimed is a pair or `zero`, a claim that
    climbs to the root is one of the values at its own path. -/

namespace Quil.Schemes
open List

variable {N : Type*} (pair : N → N → N) (zero : N)

/-- The values below one bit, that bit dropped. -/
def under (b : Bool) (leaves : List (List Bool × N)) : List (List Bool × N) :=
  leaves.filterMap fun leaf =>
    match leaf.1 with
    | c :: path => if c = b then some (path, leaf.2) else none
    | [] => none

/-- The root over values at their paths, with so many levels to go. -/
def foldPaths : ℕ → List (List Bool × N) → N
  | _, [] => zero
  | _, [([], n)] => n
  | 0, _ => zero
  | levels + 1, leaves => pair (foldPaths levels (under false leaves)) (foldPaths levels (under true leaves))

/-- The root from one value, its path and the siblings passed on the way down. -/
def climbPath : List Bool → List N → N → N
  | b :: path, sibling :: siblings, n =>
    if b then pair sibling (climbPath path siblings n) else pair (climbPath path siblings n) sibling
  | _, _, n => n

/-- Every pair the fold makes is good. -/
def FoldGood (Good : N → N → Prop) : ℕ → List (List Bool × N) → Prop
  | _, [] => True
  | _, [([], _)] => True
  | 0, _ => True
  | levels + 1, leaves =>
    Good (foldPaths pair zero levels (under false leaves)) (foldPaths pair zero levels (under true leaves)) ∧
      FoldGood Good levels (under false leaves) ∧ FoldGood Good levels (under true leaves)

/-- Every pair the climb makes is good. -/
def ClimbGood (Good : N → N → Prop) : List Bool → List N → N → Prop
  | b :: path, sibling :: siblings, n =>
    (if b then Good sibling (climbPath pair path siblings n) else Good (climbPath pair path siblings n) sibling) ∧
      ClimbGood Good path siblings n
  | _, _, _ => True

variable {b : Bool} {leaves : List (List Bool × N)} {path : List Bool} {n : N}

theorem mem_of_mem_under (h : (path, n) ∈ under b leaves) : (b :: path, n) ∈ leaves := by
  obtain ⟨⟨leaf, m⟩, hleaf, heq⟩ := mem_filterMap.1 h
  rcases leaf with _ | ⟨c, rest⟩
  · cases heq
  dsimp only at heq
  split_ifs at heq with hc
  cases heq
  exact hc ▸ hleaf

theorem mem_under_of_mem (h : (b :: path, n) ∈ leaves) : (path, n) ∈ under b leaves :=
  mem_filterMap.2 ⟨(b :: path, n), h, if_pos rfl⟩

/-! ### Paths of which none begins another -/

section
variable (h : (leaves.map Prod.fst).Pairwise Apart)
include h

theorem apart_under (b : Bool) : ((under b leaves).map Prod.fst).Pairwise Apart := by
  rw [pairwise_map] at h ⊢
  refine pairwise_filterMap.2 (h.imp ?_)
  rintro ⟨p, m⟩ ⟨q, n⟩ hpq ⟨p', m'⟩ hp ⟨q', n'⟩ hq
  rcases p with _ | ⟨c, p⟩
  · cases hp
  rcases q with _ | ⟨d, q⟩
  · cases hq
  dsimp only at hp hq
  split_ifs at hp hq with hc hd
  cases hp
  cases hq
  subst hc hd
  exact ⟨fun hle => hpq.1 (cons_prefix_cons.2 ⟨rfl, hle⟩), fun hle => hpq.2 (cons_prefix_cons.2 ⟨rfl, hle⟩)⟩

/-- Nothing, one value at the root, or only values below it. -/
theorem apart_cases : leaves = [] ∨ (∃ n, leaves = [([], n)]) ∨ ∃ b path n, (b :: path, n) ∈ leaves := by
  match leaves with
  | [] => exact .inl rfl
  | [([], n)] => exact .inr (.inl ⟨n, rfl⟩)
  | (b :: path, n) :: _ => exact .inr (.inr ⟨b, path, n, mem_cons_self⟩)
  | ([], _) :: (q, _) :: _ => exact absurd nil_prefix (rel_of_pairwise_cons h mem_cons_self).1

theorem eq_singleton_of_apart (hn : ([], n) ∈ leaves) : leaves = [([], n)] := by
  obtain ⟨first, rest, rfl⟩ := append_of_mem hn
  have hrest : ∀ leaf ∈ rest, False := fun leaf hleaf =>
    (rel_of_pairwise_cons ((pairwise_append.1 (map_append ▸ h)).2.1) (mem_map_of_mem hleaf)).1 nil_prefix
  have hfirst : ∀ leaf ∈ first, False := fun leaf hleaf =>
    ((pairwise_append.1 (map_append ▸ h)).2.2 leaf.1 (mem_map_of_mem hleaf) [] mem_cons_self).2 nil_prefix
  rw [eq_nil_iff_forall_not_mem.2 hrest, eq_nil_iff_forall_not_mem.2 hfirst, nil_append]

end

theorem foldPaths_succ (h : (b :: path, n) ∈ leaves) (levels : ℕ) : foldPaths pair zero (levels + 1) leaves =
      pair (foldPaths pair zero levels (under false leaves)) (foldPaths pair zero levels (under true leaves)) := by
  match leaves, h with
  | [(_ :: _, _)], _ => rfl
  | ([], _) :: _ :: _, _ => rfl
  | (_ :: _, _) :: _ :: _, _ => rfl

variable {levels : ℕ}

theorem length_le_of_mem_under
    (h : ∀ leaf ∈ leaves, leaf.1.length ≤ levels + 1) : ∀ leaf ∈ under b leaves, leaf.1.length ≤ levels :=
  fun _ hleaf => Nat.le_of_succ_le_succ (h _ (mem_of_mem_under hleaf))

/-- Levels below the deepest value change nothing. -/
theorem foldPaths_levels (h : (leaves.map Prod.fst).Pairwise Apart) {levels' : ℕ}
    (hle : ∀ leaf ∈ leaves, leaf.1.length ≤ levels) (hle' : ∀ leaf ∈ leaves, leaf.1.length ≤ levels') :
    foldPaths pair zero levels leaves = foldPaths pair zero levels' leaves := by
  induction levels generalizing levels' leaves with
  | zero =>
    rcases apart_cases h with rfl | ⟨n, rfl⟩ | ⟨b, path, n, hn⟩
    · rw [foldPaths, foldPaths]
    · rw [foldPaths, foldPaths]
    · exact absurd (hle _ hn) (Nat.not_succ_le_zero _)
  | succ levels ih =>
    rcases apart_cases h with rfl | ⟨n, rfl⟩ | ⟨b, path, n, hn⟩
    · rw [foldPaths, foldPaths]
    · rw [foldPaths, foldPaths]
    obtain ⟨levels', rfl⟩ := Nat.exists_eq_add_of_le' (Nat.one_le_of_lt (hle' _ hn))
    rw [foldPaths_succ pair zero hn, foldPaths_succ pair zero hn]
    congr 1
    · exact ih (apart_under h false) (length_le_of_mem_under hle) (length_le_of_mem_under hle')
    · exact ih (apart_under h true) (length_le_of_mem_under hle) (length_le_of_mem_under hle')

/-! ### What the siblings show -/

variable {Good : N → N → Prop}

/-- One root is reached along a path from one value. -/
theorem climbPath_inj
    (hinj : ∀ a b c d, Good a b → Good c d → pair a b = pair c d → a = c ∧ b = d) {siblings : List N}
    {n' : N} (hn : ClimbGood pair Good path siblings n) (hn' : ClimbGood pair Good path siblings n')
    (h : climbPath pair path siblings n = climbPath pair path siblings n') : n = n' := by
  induction path generalizing siblings with
  | nil => exact h
  | cons b path ih =>
    rcases siblings with _ | ⟨sibling, siblings⟩
    · exact h
    refine ih hn.2 hn'.2 ?_
    cases b with
    | false => exact (hinj _ _ _ _ hn.1 hn'.1 h).1
    | true => exact (hinj _ _ _ _ hn.1 hn'.1 h).2

/-- A fold of good pairs is `zero`, the one value at the root, or a pair of folds. -/
theorem foldPaths_cases (hgood : FoldGood pair zero Good levels leaves) :
    foldPaths pair zero levels leaves = zero ∨
      (∃ n, leaves = [([], n)] ∧ foldPaths pair zero levels leaves = n) ∨
      ∃ l, Good (foldPaths pair zero l (under false leaves)) (foldPaths pair zero l (under true leaves)) ∧
        FoldGood pair zero Good l (under false leaves) ∧ FoldGood pair zero Good l (under true leaves) ∧
        foldPaths pair zero levels leaves =
          pair (foldPaths pair zero l (under false leaves)) (foldPaths pair zero l (under true leaves)) := by
  match levels, leaves, hgood with
  | _, [], _ => exact .inl (by rw [foldPaths])
  | _, [([], n)], _ => exact .inr (.inl ⟨n, rfl, by rw [foldPaths]⟩)
  | 0, [(_ :: _, _)], _ | 0, ([], _) :: _ :: _, _ | 0, (_ :: _, _) :: _ :: _, _ => exact .inl rfl
  | l + 1, [(_ :: _, _)], hgood | l + 1, ([], _) :: _ :: _, hgood | l + 1, (_ :: _, _) :: _ :: _, hgood =>
    exact .inr (.inr ⟨l, hgood.1, hgood.2.1, hgood.2.2, rfl⟩)

/-- What climbs to the root is one of the values, at its path. -/
theorem mem_of_climbPath (hinj : ∀ a b c d, Good a b → Good c d → pair a b = pair c d → a = c ∧ b = d)
    (hzero : ∀ a b, Good a b → pair a b ≠ zero) {n : N} (hn : ∀ a b, Good a b → n ≠ pair a b) (hn0 : n ≠ zero)
    {path : List Bool} {siblings : List N} (hlen : siblings.length = path.length)
    (hclimb : ClimbGood pair Good path siblings n) {levels : ℕ} {leaves : List (List Bool × N)}
    (hleaves : ∀ leaf ∈ leaves, ∀ a b, Good a b → leaf.2 ≠ pair a b) (hfold : FoldGood pair zero Good levels leaves)
    (h : climbPath pair path siblings n = foldPaths pair zero levels leaves) : (path, n) ∈ leaves := by
  induction path generalizing siblings levels leaves with
  | nil =>
    obtain rfl : siblings = [] := length_eq_zero_iff.1 hlen
    have h : n = foldPaths pair zero levels leaves := h
    rcases foldPaths_cases pair zero hfold with he | ⟨m, rfl, he⟩ | ⟨l, hgood, -, -, he⟩
    · exact absurd (h.trans he) hn0
    · exact mem_singleton.2 (by rw [h, he])
    · exact absurd (h.trans he) (hn _ _ hgood)
  | cons b path ih =>
    obtain ⟨sibling, siblings, rfl⟩ := exists_cons_of_length_eq_add_one hlen
    obtain ⟨hgood, hclimb⟩ := hclimb
    -- the climb's last pair is the fold's first
    have hpair : ∃ c d, Good c d ∧ climbPath pair (b :: path) (sibling :: siblings) n = pair c d ∧
        climbPath pair path siblings n = if b then d else c := by
      cases b with
      | false | true => exact ⟨_, _, hgood, rfl, rfl⟩
    obtain ⟨c, d, hcd, hlast, hrest⟩ := hpair
    rw [hlast] at h
    rcases foldPaths_cases pair zero hfold with he | ⟨m, rfl, he⟩ | ⟨l, hlr, hl, hr, he⟩
    · exact absurd (h.trans he) (hzero c d hcd)
    · exact absurd (h.trans he).symm (hleaves _ mem_cons_self c d hcd)
    obtain ⟨rfl, rfl⟩ := hinj _ _ _ _ hcd hlr (h.trans he)
    refine mem_of_mem_under (@ih _ (by simpa using hlen) hclimb l _ (fun leaf hleaf => ?_) ?_ ?_)
    · exact hleaves (b :: leaf.1, leaf.2) (mem_of_mem_under hleaf)
    · cases b
      · exact hl
      · exact hr
    · rw [hrest]
      cases b <;> rfl

end Quil.Schemes
