import Quilibrium.Schemes.Assoc
import Quilibrium.Schemes.Store
import Quilibrium.Provers.AllocationEpochs
import Mathlib.Data.List.SplitLengths

/-! Reward rings by seniority and the allocations that carry their keys (`prover_rings.rs`, `reassignment.rs`). A
    member's ring is its RANK among the members over the ring size, and its rank is a count: how many members rank
    before it. Stability, the bound on a ring and the effect of a departure are facts about that count. -/

namespace Quil.Rings
open Schemes List
open AllocationEpochs (epochForFrame)

abbrev Bytes := List UInt8

/-- What ranks one member of a shard. -/
structure RingKey where
  cohort : ℕ
  seniority : ℕ
deriving DecidableEq, Repr

def RING_GROUP_SIZE : ℕ := 8

/-- Earlier cohorts first unless all are one cohort, then the most senior, then by address. -/
def rank (oneCohort : Bool) (member : Bytes × RingKey) : ℕ ×ₗ ℕᵒᵈ ×ₗ List ℕ :=
  toLex (if oneCohort then 0 else member.2.cohort,
    toLex (OrderDual.toDual member.2.seniority, member.1.map UInt8.toNat))

/-- The members' places, first ranks first. -/
def order (members : List (Bytes × RingKey)) (oneCohort : Bool) : List (Fin members.length) :=
  (List.finRange members.length).insertionSort fun a b =>
    rank oneCohort (members.get a) ≤ rank oneCohort (members.get b)

/-- The ring of each member, in input order. -/
def assign (members : List (Bytes × RingKey)) (oneCohort : Bool) : List ℕ :=
  (List.finRange members.length).map fun i => min ((order members oneCohort).idxOf i / RING_GROUP_SIZE) 255

/-- The children of a split, most valuable first, then by filter. -/
def childrenByValue (children : List Bytes) (size : Bytes → ℕ) : List (Fin children.length) :=
  let value (child : Bytes) : ℕᵒᵈ ×ₗ List ℕ := toLex (OrderDual.toDual (size child), child.map UInt8.toNat)
  (List.finRange children.length).insertionSort fun a b => value (children.get a) ≤ value (children.get b)

/-- A split's provers in groups, the most senior together. -/
def splitGroups {τ : Type} (provers : List (τ × Bytes × RingKey)) (k : ℕ) :
    Except QuilError (List (List τ)) :=
  if k = 0 then .error (.invalidArgument "split has no children")
  else
    let provers := provers.insertionSort fun a b => rank true a.2 ≤ rank true b.2
    let (base, extra) := (provers.length / k, provers.length % k)
    let sizes := (List.range k).map fun group => base + if group < extra then 1 else 0
    .ok (sizes.splitLengths (provers.map (·.1)))

/-! ### Rings -/

/-- The ring by the number of members that rank before. -/
def ringOf (members : List (Bytes × RingKey)) (oneCohort : Bool) (member : Bytes × RingKey) : ℕ :=
  min (members.countP (rank oneCohort · < rank oneCohort member) / RING_GROUP_SIZE) 255

variable {members : List (Bytes × RingKey)} {oneCohort : Bool}

theorem order_perm (members : List (Bytes × RingKey)) (oneCohort : Bool) :
    (order members oneCohort).Perm (.finRange members.length) := perm_insertionSort ..

theorem assign_eq (hdistinct : (members.map (·.1)).Nodup) :
    assign members oneCohort = members.map (ringOf members oneCohort) := by
  have hranks : ((finRange members.length).map fun i => rank oneCohort (members.get i)).Nodup := by
    refine List.Nodup.of_map (fun r => (ofLex (ofLex r).2).2) ?_
    rw [← map_get_finRange members, map_map] at hdistinct
    have := hdistinct.map (map_injective_iff.2 fun a b => UInt8.toNat.inj)
    rwa [map_map] at this ⊢
  have hplace : ∀ i, (order members oneCohort).idxOf i =
      members.countP (rank oneCohort · < rank oneCohort (members.get i)) := by
    intro i
    have hcount : ∀ p : Bytes × RingKey → Bool,
        members.countP p = (finRange members.length).countP (p ∘ members.get) := fun p => by
      rw [← countP_map, map_get_finRange]
    rw [order, idxOf_eq_countP (pairwise_lt_sortBy hranks) ((order_perm ..).mem_iff.2 (mem_finRange i)),
      (perm_insertionSort ..).countP_eq, hcount]
    rfl
  simp only [assign, hplace]
  conv_rhs => enter [2]; rw [← map_get_finRange members]
  rw [map_map]
  rfl

/-- The members with their rings. -/
theorem zip_assign (hdistinct : (members.map (·.1)).Nodup) :
    members.zip (assign members oneCohort) = members.map fun m => (m, ringOf members oneCohort m) := by
  rw [assign_eq hdistinct]
  exact map_prod_left_eq_zip.symm

/-- Eight places share a ring below the last one. -/
theorem count_assign_le (members : List (Bytes × RingKey)) (oneCohort : Bool) {ring : ℕ} (hring : ring < 255) :
    (assign members oneCohort).count ring ≤ RING_GROUP_SIZE := by
  have hnodup : (order members oneCohort).Nodup :=
    (order_perm members oneCohort).nodup_iff.2 (nodup_finRange _)
  have hplaces : (order members oneCohort).map ((order members oneCohort).idxOf ·) =
      range (order members oneCohort).length :=
    ext_getElem (by simp) fun i _ _ => by simp [hnodup.idxOf_getElem]
  have hcount : (assign members oneCohort).count ring =
      (range (order members oneCohort).length).countP fun i => min (i / RING_GROUP_SIZE) 255 == ring := by
    rw [assign, count, countP_map, ← (order_perm members oneCohort).countP_eq, ← hplaces, countP_map]
    rfl
  rw [hcount, countP_eq_length_filter]
  have hplaces : (range' (RING_GROUP_SIZE * ring) RING_GROUP_SIZE).length = RING_GROUP_SIZE :=
    length_range'
  refine ((nodup_range.filter _).subperm fun i hi => ?_).length_le.trans_eq hplaces
  have hi : min (i / RING_GROUP_SIZE) 255 = ring := by simpa using (mem_filter.1 hi).2
  rw [mem_range'_1]
  unfold RING_GROUP_SIZE at hi ⊢
  omega

/-- Later cohorts rank after. -/
theorem ringOf_append {extra : List (Bytes × RingKey)} {member : Bytes × RingKey}
    (hlater : ∀ other ∈ extra, member.2.cohort < other.2.cohort) :
    ringOf (members ++ extra) false member = ringOf members false member := by
  have hnone : extra.countP (rank false · < rank false member) = 0 :=
    countP_eq_zero.2 fun other hother => by
      have hlt : rank false member < rank false other :=
        Prod.Lex.toLex_lt_toLex.2 (.inl (hlater other hother))
      simpa using hlt.le
  rw [ringOf, countP_append, hnone, add_zero, ringOf]

theorem ringOf_mono {kept : List (Bytes × RingKey)} (hkept : kept.Sublist members) (member : Bytes × RingKey) :
    ringOf kept oneCohort member ≤ ringOf members oneCohort member :=
  min_le_min_right _ (Nat.div_le_div_right hkept.countP_le)

/-! ### Splits -/

theorem sum_groupSizes (base extra k : ℕ) :
    ((range k).map fun group => base + if group < extra then 1 else 0).sum = k * base + min k extra := by
  induction k with
  | zero => simp
  | succ k ih =>
    rw [range_succ, map_append, sum_append, ih, Nat.succ_mul]
    simp only [map_cons, map_nil, sum_cons, sum_nil]
    split_ifs <;> omega

theorem splitGroups_ok {τ : Type} (provers : List (τ × Bytes × RingKey)) {k : ℕ} (hk : 0 < k) :
    ∃ groups, splitGroups provers k = .ok groups ∧ groups.length = k ∧
      groups.flatten.Perm (provers.map (·.1)) ∧ ∀ g ∈ groups, ∀ g' ∈ groups, g.length ≤ g'.length + 1 := by
  set sorted := provers.insertionSort fun a b => rank true a.2 ≤ rank true b.2 with hsorted
  have hperm : sorted.Perm provers := perm_insertionSort ..
  set sizes := (range k).map fun group =>
    sorted.length / k + if group < sorted.length % k then 1 else 0 with hsizes
  have hsum : sizes.sum = sorted.length := by
    rw [hsizes, sum_groupSizes, min_eq_right (Nat.mod_lt _ hk).le, Nat.div_add_mod]
  have hlengths := map_splitLengths_length (sorted.map (·.1)) sizes (by simp [hsum])
  refine ⟨sizes.splitLengths (sorted.map (·.1)), ?_, ?_, ?_, ?_⟩
  · rw [splitGroups, if_neg hk.ne']
  · rw [length_splitLengths, hsizes, length_map, length_range]
  · rw [flatten_splitLengths _ _ (by simp [hsum])]
    exact hperm.map _
  have hsize : ∀ g ∈ sizes.splitLengths (sorted.map (·.1)),
      sorted.length / k ≤ g.length ∧ g.length ≤ sorted.length / k + 1 := by
    intro g hg
    have hmem : g.length ∈ sizes := hlengths ▸ mem_map_of_mem hg
    obtain ⟨group, -, hgroup⟩ := mem_map.1 hmem
    split_ifs at hgroup <;> omega
  exact fun g hg g' hg' => (hsize g hg).2.trans (Nat.add_le_add_right (hsize g' hg').1 1)

/-! ### Allocations -/

/-- Of the statuses, those that end an allocation are told apart. -/
inductive Status where
  | live
  | historic
  | kicked
deriving DecidableEq, Repr

/-- A prover's allocation on a shard: the fields a move or an absence writes. -/
structure Allocation where
  confirmationFilter : Bytes
  status : Status
  ringKey : Option RingKey
  absentFrameCount : ℕ
  lastAbsentFrameNumber : ℕ
deriving DecidableEq, Repr

/-- Allocations by public key and address: those of different keys do not meet. -/
abbrev Allocations := Store (Bytes × Bytes) Allocation

/-- Move an allocation to another filter. Every other field is carried over, and the slot it leaves is retired, unless
    both filters have one address: then it is updated in place. -/
def rekeyAllocationWithKey (allocationAddress : Bytes → Bytes → Bytes) (publicKey oldFilter newFilter : Bytes)
    (ringKey : Option RingKey) (s : Allocations) : Allocations :=
  let oldAddr := allocationAddress publicKey oldFilter
  let newAddr := allocationAddress publicKey newFilter
  match s (publicKey, oldAddr) with
  | none => s
  | some old =>
    let s := s.write (publicKey, newAddr)
      { old with confirmationFilter := newFilter, ringKey := ringKey.or old.ringKey }
    if newAddr = oldAddr then s else s.write (publicKey, oldAddr) { old with status := .historic }

end Quil.Rings
