import Quilibrium.Handoff.Sessions
import Quilibrium.Provers.Rings
import Quilibrium.Shards.GridChanges

/-! How a split moves the allocations on its parent, and whom its handoff request authorized
    (`reassign_shard_allocations`, `split_assignment_sized`). Both divide provers by `split_groups`, but at different
    frames: the request over the members ELIGIBLE when it was made, the move over every LIVE allocation when it
    applies. The members of the request's committees follow the request; the others are divided anew, and each leaves
    its old slot RETIRED. -/

namespace Quil.Rings
open Schemes GridChanges Handoff List
open AllocationEpochs (epochForFrame)

/-- An allocation in committed state, with its eligibility for a committee in a frame, strict or lenient. -/
structure Scanned extends Allocation where
  prover : Bytes
  joinConfirmFrameNumber : ℕ
  committeeEligible : ℕ → Bool → Bool

/-- One pass over committed prover state. A prover's address is the hash of its key. -/
structure CommittedProverScan where
  allocations : List Scanned
  addrToPubkey : Bytes → Option Bytes
  seniority : Bytes → ℕ
  hashed : ∀ a b key, addrToPubkey a = some key → addrToPubkey b = some key → a = b

structure Settings where
  epochLength : ℕ+
  isFalcon : Bytes → Bool
  allocationAddress : Bytes → Bytes → Bytes

variable (settings : Settings) (scan : CommittedProverScan)

/-- The key the flag day records for an allocation confirmed before the rule. -/
def preexisting (joinConfirmFrame seniority : ℕ) : RingKey :=
  ⟨if joinConfirmFrame = 0 then 0 else epochForFrame settings.epochLength joinConfirmFrame + 1, seniority⟩

/-- The key of an allocation a topology change moves: a new cohort, its seniority kept. -/
def moved (key : RingKey) (frame : ℕ) : RingKey := ⟨epochForFrame settings.epochLength frame, key.seniority⟩

def ringKeyOf (address filter : Bytes) : RingKey :=
  match scan.allocations.find? fun a => a.prover = address ∧ a.confirmationFilter = filter with
  | some a => a.ringKey.getD (preexisting settings a.joinConfirmFrameNumber (scan.seniority address))
  | none => ⟨u64Max, 0⟩

/-- Public keys and addresses of the chosen allocations on a filter, by address, each once. -/
def onFilter (choose : Scanned → Bool) (filter : Bytes) : List (Bytes × Bytes) :=
  ((scan.allocations.filter fun a => a.confirmationFilter = filter ∧ choose a).filterMap fun a =>
    (scan.addrToPubkey a.prover).map (·, a.prover)).dedup.insertionSort fun a b => a.2 ≤ b.2

def allOnFilter (filter : Bytes) : List (Bytes × Bytes) := onFilter scan (fun a => a.status = .live) filter

def activeOnFilter (filter : Bytes) (frame : ℕ) : List (Bytes × Bytes) :=
  let strict := onFilter scan (·.committeeEligible frame false) filter
  if strict.isEmpty && !filter.isEmpty then onFilter scan (·.committeeEligible frame true) filter else strict

/-- The committees a split's request authorizes, by child. -/
def splitAssignmentSized (change : PendingShardChange) (frame : ℕ) (size : Bytes → ℕ) : List (List Bytes) :=
  let provers := (activeOnFilter scan change.parent frame).filter fun p => settings.isFalcon p.1
  let keyed := provers.map fun p => (p.1, p.2, ringKeyOf settings scan p.2 change.parent)
  match splitGroups keyed change.children.length with
  | .error _ => []
  | .ok groups => (List.finRange change.children.length).map fun i =>
    ((groups.getD ((childrenByValue change.children size).idxOf i) []).insertionSort (· ≤ ·)).dedup

/-- What a handoff pass reads from committed prover state for a topology change. -/
structure Scan where
  /-- The committees a split's provers move to, by child. -/
  splitAssignment : PendingShardChange → List (List Bytes)
  /-- The provers a merge takes from a source. -/
  mergeMembers : Bytes → List Bytes

/-- The committees a change would authorize. -/
def changeTargets (scan : Scan) (change : PendingShardChange) (sources new : List Bytes) :
    List DesiredCommittee :=
  match change.kind with
  | .split =>
    let assigned := scan.splitAssignment change
    new.map fun filter =>
      { filter := filter
        members := if filter ∈ change.children then assigned.getD (change.children.idxOf filter) []
          else [] }
  | .merge =>
    let members := ((sources.flatMap scan.mergeMembers).insertionSort (· ≤ ·)).dedup
    new.map fun filter => { filter := filter, members := members }

/-- The child whose committee the request put a key in. -/
def childOf (change : PendingShardChange) (targets : List DesiredCommittee) (key : Bytes) :
    Option (Fin change.children.length) :=
  (targets.find? (key ∈ ·.members)).bind fun target => change.children.finIdxOf? target.filter

/-- Where a split moves each live allocation on its parent: public key, address and child. -/
def splitMoves (change : PendingShardChange) (targets : List DesiredCommittee) (size : Bytes → ℕ) :
    Except QuilError (List (Bytes × Bytes × Fin change.children.length)) := do
  let provers := allOnFilter scan change.parent
  let members := provers.filterMap fun p => (childOf change targets p.1).map fun i => (p.1, p.2, i)
  let others := provers.filter fun p => (childOf change targets p.1).isNone
  let groups ← splitGroups (others.map fun p => (p, p.2, ringKeyOf settings scan p.2 change.parent))
    change.children.length
  return members ++ (groups.zip (childrenByValue change.children size)).flatMap fun group =>
    group.1.map fun p => (p.1, p.2, group.2)

/-- The allocations after a split. -/
def reassignShardAllocations (change : PendingShardChange) (frame : ℕ) (targets : List DesiredCommittee)
    (size : Bytes → ℕ) (s : Allocations) : Except QuilError Allocations := do
  if change.children = [] then return s
  let moves ← splitMoves settings scan change targets size
  return moves.foldl (fun s move => rekeyAllocationWithKey settings.allocationAddress move.1 change.parent
    (change.children.get move.2.2) (some (moved settings (ringKeyOf settings scan move.2.1 change.parent) frame)) s) s

/-! ### Who moves where -/

variable {settings scan}

theorem nodup_keys (choose : Scanned → Bool) (filter : Bytes) : ((onFilter scan choose filter).map (·.1)).Nodup := by
  refine List.Nodup.map_on ?_ ((perm_insertionSort ..).nodup_iff.2 (nodup_dedup _))
  have hkey : ∀ p ∈ onFilter scan choose filter, scan.addrToPubkey p.2 = some p.1 := by
    intro p hp
    rw [onFilter, (perm_insertionSort ..).mem_iff, mem_dedup, mem_filterMap] at hp
    obtain ⟨a, -, ha⟩ := hp
    obtain ⟨key, hkey, rfl⟩ := Option.map_eq_some_iff.1 ha
    exact hkey
  intro p hp q hq heq
  exact Prod.ext heq (scan.hashed _ _ p.1 (hkey p hp) (heq ▸ hkey q hq))

/-- No key is in two groups. -/
theorem eq_of_mem_groups {α : Type} {groups : List (List α)} (h : groups.flatten.Nodup) {i j : ℕ} {x : α}
    (hi : x ∈ groups.getD i []) (hj : x ∈ groups.getD j []) : i = j := by
  have hget : ∀ {i}, x ∈ groups.getD i [] → ∃ hlt : i < groups.length, x ∈ groups[i] := by
    intro i hx
    by_cases hlt : i < groups.length
    · exact ⟨hlt, by rwa [getD_eq_getElem _ _ hlt] at hx⟩
    · rw [getD_eq_default _ _ (not_lt.1 hlt)] at hx
      cases hx
  obtain ⟨hilt, hi⟩ := hget hi
  obtain ⟨hjlt, hj⟩ := hget hj
  have hapart := pairwise_iff_getElem.1 (nodup_flatten.1 h).2
  rcases lt_trichotomy i j with hij | hij | hij
  · exact absurd hj (hapart i j hilt hjlt hij hi)
  · exact hij
  · exact absurd hi (hapart j i hjlt hilt hij hj)

theorem nodup_activeKeys (filter : Bytes) (frame : ℕ) : ((activeOnFilter scan filter frame).map (·.1)).Nodup := by
  unfold activeOnFilter
  dsimp only
  split <;> exact nodup_keys ..

variable {change : PendingShardChange} {frame : ℕ} {size : Bytes → ℕ} {key : Bytes}

/-- A key is in one committee only. -/
theorem filter_unique {f f' : Bytes} (hf : f ∈ change.children) (hf' : f' ∈ change.children)
    (hkey : key ∈ (splitAssignmentSized settings scan change frame size).getD (change.children.idxOf f) [])
    (hkey' : key ∈ (splitAssignmentSized settings scan change frame size).getD (change.children.idxOf f') []) :
    f = f' := by
  unfold splitAssignmentSized at hkey hkey'
  dsimp only at hkey hkey'
  obtain ⟨groups, hgroups, -, hperm, -⟩ := splitGroups_ok (((activeOnFilter scan change.parent frame).filter
    fun p => settings.isFalcon p.1).map fun p => (p.1, p.2, ringKeyOf settings scan p.2 change.parent))
    (length_pos_of_mem hf)
  have hnodup : groups.flatten.Nodup := by
    rw [hperm.nodup_iff, map_map]
    exact (nodup_activeKeys change.parent frame).sublist (filter_sublist.map _)
  rw [hgroups] at hkey hkey'
  have hgroup : ∀ {f}, f ∈ change.children → key ∈ ((finRange change.children.length).map fun i =>
      ((groups.getD ((childrenByValue change.children size).idxOf i) []).insertionSort (· ≤ ·)).dedup).getD
        (change.children.idxOf f) [] → ∃ i : Fin change.children.length, change.children.get i = f ∧
      key ∈ groups.getD ((childrenByValue change.children size).idxOf i) [] := by
    intro f hf hkey
    have hlt := idxOf_lt_length_of_mem hf
    rw [getD_eq_getElem _ _ (by simpa using hlt), getElem_map, mem_dedup,
      (perm_insertionSort ..).mem_iff, getElem_finRange] at hkey
    exact ⟨_, idxOf_get hlt, hkey⟩
  obtain ⟨i, rfl, hi⟩ := hgroup hf hkey
  obtain ⟨j, rfl, hj⟩ := hgroup hf' hkey'
  rw [(idxOf_inj ((perm_insertionSort ..).mem_iff.2 (mem_finRange i))).1 (eq_of_mem_groups hnodup hi hj)]

variable {passes : Scan} {sources new : List Bytes}

/-- A key is authorized for one filter only, and that filter is a child. -/
theorem target_unique (hsplit : change.kind = .split)
    (hassigned : passes.splitAssignment change = splitAssignmentSized settings scan change frame size)
    {target target' : DesiredCommittee} (ht : target ∈ changeTargets passes change sources new)
    (ht' : target' ∈ changeTargets passes change sources new) (hkey : key ∈ target.members)
    (hkey' : key ∈ target'.members) : target.filter ∈ change.children ∧ target.filter = target'.filter := by
  rw [changeTargets, hsplit] at ht ht'
  obtain ⟨f, -, rfl⟩ := mem_map.1 ht
  obtain ⟨f', -, rfl⟩ := mem_map.1 ht'
  dsimp only at hkey hkey' ⊢
  split_ifs at hkey hkey' with hf hf'
  · rw [hassigned] at hkey hkey'
    exact ⟨hf, filter_unique hf hf' hkey hkey'⟩
  all_goals simp at hkey hkey'

/-- The live provers of the parent that are in no committee. -/
def othersOnParent (scan : CommittedProverScan) (change : PendingShardChange) (targets : List DesiredCommittee) :
    List (Bytes × Bytes) :=
  (allOnFilter scan change.parent).filter fun p => ∀ target ∈ targets, p.1 ∉ target.members

section
variable {targets : List DesiredCommittee} (hsplit : change.kind = .split)
    (hassigned : passes.splitAssignment change = splitAssignmentSized settings scan change frame size)
    (htargets : targets.Perm (changeTargets passes change sources new))
include hsplit hassigned htargets

/-- A member of a committee has a child, its committee's. -/
theorem childOf_eq {target : DesiredCommittee} (ht : target ∈ targets) (hkey : key ∈ target.members) :
    ∃ i, childOf change targets key = some i ∧ change.children.get i = target.filter := by
  obtain ⟨t, hfind⟩ : ∃ t, targets.find? (key ∈ ·.members) = some t :=
    Option.isSome_iff_exists.1 (find?_isSome.2 ⟨target, ht, decide_eq_true hkey⟩)
  have hkey' : key ∈ t.members := by simpa using find?_some hfind
  obtain ⟨hmem, heq⟩ := target_unique hsplit hassigned (htargets.mem_iff.1 (mem_of_find?_eq_some hfind))
    (htargets.mem_iff.1 ht) hkey' hkey
  obtain ⟨i, hi⟩ : ∃ i, change.children.finIdxOf? t.filter = some i := by
    rw [← Option.isSome_iff_exists, isSome_finIdxOf?]
    simpa using hmem
  exact ⟨i, by rw [childOf, hfind, Option.bind_some, hi], (finIdxOf?_eq_some_iff.1 hi).1.trans heq⟩

theorem childOf_isNone :
    (childOf change targets key).isNone = decide (∀ target ∈ targets, key ∉ target.members) := by
  rw [Bool.eq_iff_iff, decide_eq_true_eq]
  constructor
  · intro hnone target ht hkey
    obtain ⟨i, hi, -⟩ := childOf_eq hsplit hassigned htargets ht hkey
    rw [hi] at hnone
    cases hnone
  · intro h
    rw [childOf, find?_eq_none.2 (by simpa using h)]
    rfl

/-- Every live allocation on the parent moves once: a committee's member to the child it is authorized for, the others
    in groups of their own to the children by value. -/
theorem splitMoves_ok {later : CommittedProverScan} {sizes : Bytes → ℕ} (hchildren : change.children ≠ []) :
    ∃ moves groups, splitMoves settings later change targets sizes = .ok moves ∧
      (moves.map fun move => (move.1, move.2.1)).Perm (allOnFilter later change.parent) ∧
      (∀ move ∈ moves, ∀ target ∈ targets, move.1 ∈ target.members →
        change.children.get move.2.2 = target.filter) ∧
      splitGroups ((othersOnParent later change targets).map fun p =>
        (p, p.2, ringKeyOf settings later p.2 change.parent)) change.children.length = .ok groups ∧
      (∀ g ∈ groups, ∀ g' ∈ groups, g.length ≤ g'.length + 1) ∧
      (moves.filter fun move => ∀ target ∈ targets, move.1 ∉ target.members) =
        (groups.zip (childrenByValue change.children sizes)).flatMap fun group =>
          group.1.map fun p => (p.1, p.2, group.2) := by
  have hnone : ∀ key, (childOf change targets key).isNone = decide (∀ target ∈ targets, key ∉ target.members) :=
    fun key => childOf_isNone hsplit hassigned htargets
  obtain ⟨groups, hgroups, hlength, hperm, hsizes⟩ := splitGroups_ok ((othersOnParent later change targets).map
    fun p => (p, p.2, ringKeyOf settings later p.2 change.parent)) (length_pos_iff.2 hchildren)
  have hperm : groups.flatten.Perm (othersOnParent later change targets) := by simpa [Function.comp_def] using hperm
  have hvalue : (childrenByValue change.children sizes).length = change.children.length := by simp [childrenByValue]
  have hmember : ∀ move ∈ (allOnFilter later change.parent).filterMap (fun p =>
      (childOf change targets p.1).map fun i => (p.1, p.2, i)), childOf change targets move.1 = some move.2.2 := by
    intro move hmove
    obtain ⟨p, -, hp⟩ := mem_filterMap.1 hmove
    obtain ⟨i, hi, rfl⟩ := Option.map_eq_some_iff.1 hp
    exact hi
  have hother : ∀ move ∈ (groups.zip (childrenByValue change.children sizes)).flatMap (fun group =>
      group.1.map fun p => (p.1, p.2, group.2)), ∀ target ∈ targets, move.1 ∉ target.members := by
    intro move hmove
    obtain ⟨group, hgroup, hmove⟩ := mem_flatMap.1 hmove
    obtain ⟨p, hp, rfl⟩ := mem_map.1 hmove
    simpa using (mem_filter.1 (hperm.mem_iff.1 (mem_flatten_of_mem (of_mem_zip hgroup).1 hp))).2
  refine ⟨_, groups, by simp only [splitMoves, hnone]; exact bind_eq_ok.2 ⟨groups, hgroups, rfl⟩, ?_,
    fun move hmove target ht hkey => ?_, hgroups, hsizes, ?_⟩
  · rw [map_append, map_filterMap, map_flatMap]
    have hmembers : (allOnFilter later change.parent).filterMap (fun p =>
        ((childOf change targets p.1).map fun i => (p.1, p.2, i)).map fun move => (move.1, move.2.1)) =
        (allOnFilter later change.parent).filter fun p => !decide (∀ target ∈ targets, p.1 ∉ target.members) := by
      rw [← filterMap_eq_filter]
      refine filterMap_congr fun p _ => ?_
      simp only [← hnone]
      cases hchild : childOf change targets p.1 <;> simp [Option.guard, hchild]
    have hothers : ((groups.zip (childrenByValue change.children sizes)).flatMap fun group =>
        (group.1.map fun p => (p.1, p.2, group.2)).map fun move => (move.1, move.2.1)) = groups.flatten := by
      conv_rhs => rw [← map_fst_zip (hlength.trans hvalue.symm).le, ← flatMap_def]
      simp [Function.comp_def]
    rw [hmembers, hothers]
    exact ((hperm.append_left _).trans perm_append_comm).trans (filter_append_perm _ _)
  · rcases mem_append.1 hmove with hmove | hmove
    · obtain ⟨i, hi, htarget⟩ := childOf_eq hsplit hassigned htargets ht hkey
      cases hi.symm.trans (hmember move hmove)
      exact htarget
    · exact absurd hkey (hother move hmove target ht)
  · rw [filter_append, filter_eq_nil_iff.2 fun move hmove => ?_, nil_append,
      filter_eq_self.2 fun move hmove => decide_eq_true (hother move hmove)]
    rw [← hnone, hmember move hmove]
    simp

end

/-- Rings do not depend on the input order, hold eight members below the last one, are kept when later
    cohorts come and get no worse when members go; a split's groups divide its provers evenly; the members of
    the committees its request authorized move to their children, and the others are divided evenly by the same rule. -/
theorem rings_stable_and_split :
    (∀ (members : List (Bytes × RingKey)) (oneCohort : Bool), (members.map (·.1)).Nodup →
      (∀ members', members.Perm members' →
        (members.zip (assign members oneCohort)).Perm (members'.zip (assign members' oneCohort))) ∧
      (∀ ring < 255, (assign members oneCohort).count ring ≤ RING_GROUP_SIZE) ∧
      (∀ later, ((members ++ later).map (·.1)).Nodup → ∀ m ring, (m, ring) ∈ members.zip (assign members false) →
        (∀ other ∈ later, m.2.cohort < other.2.cohort) →
        (m, ring) ∈ (members ++ later).zip (assign (members ++ later) false)) ∧
      ∀ kept : List (Bytes × RingKey), kept.Sublist members → ∀ m ring ring', (m, ring) ∈ kept.zip (assign kept oneCohort) →
        (m, ring') ∈ members.zip (assign members oneCohort) → ring ≤ ring') ∧
    (∀ (τ : Type) (provers : List (τ × Bytes × RingKey)) (k : ℕ), 0 < k →
      ∃ groups, splitGroups provers k = .ok groups ∧ groups.length = k ∧
        groups.flatten.Perm (provers.map (·.1)) ∧ ∀ g ∈ groups, ∀ g' ∈ groups, g.length ≤ g'.length + 1) ∧
    ∀ (settings : Settings) (scan later : CommittedProverScan) (change : PendingShardChange) (frame : ℕ)
      (size sizes : Bytes → ℕ) (passes : Scan) (sources new : List Bytes) (targets : List DesiredCommittee),
      change.kind = .split → change.children ≠ [] →
      passes.splitAssignment change = splitAssignmentSized settings scan change frame size →
      targets.Perm (changeTargets passes change sources new) →
      ∃ moves groups, splitMoves settings later change targets sizes = .ok moves ∧
        (moves.map fun move => (move.1, move.2.1)).Perm (allOnFilter later change.parent) ∧
        (∀ move ∈ moves, ∀ target ∈ targets, move.1 ∈ target.members →
          change.children.get move.2.2 = target.filter) ∧
        splitGroups ((othersOnParent later change targets).map fun p =>
          (p, p.2, ringKeyOf settings later p.2 change.parent)) change.children.length = .ok groups ∧
        (∀ g ∈ groups, ∀ g' ∈ groups, g.length ≤ g'.length + 1) ∧
        (moves.filter fun move => ∀ target ∈ targets, move.1 ∉ target.members) =
          (groups.zip (childrenByValue change.children sizes)).flatMap fun group =>
            group.1.map fun p => (p.1, p.2, group.2) := by
  refine ⟨fun members oneCohort hdistinct => ⟨?_, ?_, ?_, ?_⟩, fun τ provers k => splitGroups_ok provers, ?_⟩
  · intro members' hperm
    rw [zip_assign hdistinct, zip_assign ((hperm.map _).nodup_iff.1 hdistinct)]
    have hring : ringOf members oneCohort = ringOf members' oneCohort :=
      funext fun m => by rw [ringOf, hperm.countP_eq, ringOf]
    rw [hring]
    exact hperm.map _
  · exact fun ring => count_assign_le members oneCohort
  · intro later hall m ring hm hcohorts
    rw [zip_assign hdistinct] at hm
    rw [zip_assign hall]
    obtain ⟨m', hm', heq⟩ := mem_map.1 hm
    cases heq
    exact mem_map.2 ⟨m, mem_append_left _ hm', by rw [ringOf_append hcohorts]⟩
  · intro kept hkept m ring ring' hm hm'
    rw [zip_assign (hdistinct.sublist (hkept.map _))] at hm
    rw [zip_assign hdistinct] at hm'
    obtain ⟨a, -, ha⟩ := mem_map.1 hm
    obtain ⟨b, -, hb⟩ := mem_map.1 hm'
    cases ha
    cases hb
    exact ringOf_mono hkept m
  · intro settings scan later change frame size sizes passes sources new targets hsplit hchildren hassigned htargets
    exact splitMoves_ok hsplit hassigned htargets hchildren

/-! ### Ten members of two cohorts -/

def everyKey : Settings := ⟨⟨720, by decide⟩, fun _ => true, fun _ filter => filter⟩

/-- The first six joined before the others; the later the more senior. -/
def memberKey (i : ℕ) : RingKey := ⟨if i < 6 then 1 else 2, i⟩

def tenMembers : List (Bytes × RingKey) := (range 10).map fun i => ([UInt8.ofNat i], memberKey i)

/-- A member of a later cohort than theirs. -/
def lateMember : Bytes × RingKey := ([20], ⟨3, 50⟩)

/-- Live allocations on shard 1; eligible or not. -/
def liveAllocations (n : ℕ) (eligible : ℕ → Bool) : CommittedProverScan where
  allocations := (range n).map fun i =>
    { confirmationFilter := [1], status := .live, ringKey := some (memberKey i), absentFrameCount := 0,
      lastAbsentFrameNumber := 0, prover := [UInt8.ofNat i], joinConfirmFrameNumber := 0,
      committeeEligible := fun _ _ => eligible i }
  addrToPubkey := some
  seniority := fun _ => 0
  hashed a b key ha hb := by cases ha; cases hb; rfl

def splitInTwo : PendingShardChange := ⟨.split, [1], [[2], [3]], 0, 0⟩

/-- The committees the split's request authorizes. -/
def requested (scan : CommittedProverScan) : List DesiredCommittee :=
  changeTargets ⟨fun change =>
    splitAssignmentSized everyKey scan change 0 fun _ => 0, fun _ => []⟩ splitInTwo [[1]] [[2], [3]]

/-- Every second of ten allocations is eligible. -/
def halfEligible : CommittedProverScan := liveAllocations 10 (· % 2 == 0)

theorem rings_stable_and_split_ten_members :
    (assign tenMembers false).count 0 ≤ 8 ∧
    ((([0] : Bytes), memberKey 0), 0) ∈ (tenMembers ++ [lateMember]).zip (assign (tenMembers ++ [lateMember]) false) ∧
    (∀ m ring ring', (m, ring) ∈ (tenMembers.drop 3).zip (assign (tenMembers.drop 3) false) →
      (m, ring') ∈ tenMembers.zip (assign tenMembers false) → ring ≤ ring') ∧
    ∃ moves, splitMoves everyKey halfEligible splitInTwo (requested halfEligible) (fun _ => 0) = .ok moves ∧
      (moves.map fun move => (move.1, move.2.1)).Perm (allOnFilter halfEligible [1]) ∧
      (moves.filter fun move => ∀ target ∈ requested halfEligible, move.1 ∉ target.members) =
        [([9], [9], ⟨0, by decide⟩), ([7], [7], ⟨0, by decide⟩), ([5], [5], ⟨0, by decide⟩),
          ([3], [3], ⟨1, by decide⟩), ([1], [1], ⟨1, by decide⟩)] := by
  obtain ⟨hrings, -, hsplit⟩ := rings_stable_and_split
  obtain ⟨-, hcount, hlater, hgone⟩ := hrings tenMembers false (by decide)
  obtain ⟨moves, groups, hmoves, hperm, -, hgroups, -, hothers⟩ := hsplit everyKey halfEligible halfEligible splitInTwo 0
    _ _ _ [[1]] _ _ rfl (by decide) rfl (.refl (requested halfEligible))
  have hfound : (splitGroups ((othersOnParent halfEligible splitInTwo (requested halfEligible)).map fun p =>
      (p, p.2, ringKeyOf everyKey halfEligible p.2 [1])) 2).toOption =
      some [[([9], [9]), ([7], [7]), ([5], [5])], [([3], [3]), ([1], [1])]] := by decide +kernel
  have hgroups' := hfound.symm.trans (congrArg Except.toOption hgroups)
  cases hgroups'
  refine ⟨hcount 0 (by decide), hlater _ (by decide) _ 0 (by decide +kernel) (by decide), hgone _ (drop_sublist 3 _),
    moves, hmoves, hperm, hothers.trans (by decide +kernel)⟩

/-- An allocation that was not eligible moves to a child whose committee is empty. -/
theorem ineligible_allocation_moves :
    let scan := liveAllocations 1 fun _ => false
    (requested scan).map (·.members) = [[], []] ∧
    (splitMoves everyKey scan splitInTwo (requested scan) fun _ => 0).toOption = some [([0], [0], ⟨0, by decide⟩)] := by
  decide +kernel

/-! ### The records after a split -/

variable {address : Bytes → Bytes → Bytes}

/-- A move reads and writes the allocations of its own key. -/
theorem rekey_apply (s : Allocations) (key old new k a : Bytes) (ring : Option RingKey) :
    rekeyAllocationWithKey address key old new ring s (k, a) =
      if k = key then rekeyAllocationWithKey address key old new ring (fun p => s (key, p.2)) (k, a) else s (k, a) := by
  rw [rekeyAllocationWithKey, rekeyAllocationWithKey]
  dsimp only
  cases s (key, address key old) <;> dsimp only <;> split_ifs <;> simp_all [Store.write]

/-- Moves of different keys do not meet. -/
theorem foldl_rekey {ι : Type} (old : Bytes) (new : ι → Bytes) (ring : ι → Option RingKey) {moves : List (Bytes × ι)}
    (h : (moves.map (·.1)).Nodup) (s : Allocations) :
    let s' := moves.foldl (fun s m => rekeyAllocationWithKey address m.1 old (new m.2) (ring m.2) s) s
    (∀ k ∉ moves.map (·.1), ∀ a, s' (k, a) = s (k, a)) ∧
      ∀ m ∈ moves, ∀ a, s' (m.1, a) = rekeyAllocationWithKey address m.1 old (new m.2) (ring m.2) s (m.1, a) := by
  induction moves generalizing s with
  | nil => simp
  | cons m moves ih =>
    obtain ⟨hm, h⟩ := nodup_cons.1 h
    obtain ⟨hkeep, hmove⟩ := ih h (rekeyAllocationWithKey address m.1 old (new m.2) (ring m.2) s)
    refine ⟨fun k hk a => ?_, forall_mem_cons.2 ⟨hkeep m.1 hm, fun n hn a => ?_⟩⟩
    · obtain ⟨hne, hk⟩ := not_or.1 (mt mem_cons.2 hk)
      exact (hkeep k hk a).trans (by rw [rekey_apply, if_neg hne])
    · have hne : n.1 ≠ m.1 := fun heq => hm (mem_map.2 ⟨n, hn, heq⟩)
      refine (hmove n hn a).trans ?_
      rw [rekey_apply, rekey_apply s n.1]
      simp only [rekey_apply s m.1, if_neg hne]

/-- A split keeps every live prover of its parent: each moves to ONE child, its committee's if it is a member, as if it
    moved alone; no other prover's allocations change. -/
theorem split_moves_each_once (later : CommittedProverScan) (sizes : Bytes → ℕ) (now : ℕ) (s : Allocations)
    {targets : List DesiredCommittee} (hsplit : change.kind = .split) (hchildren : change.children ≠ [])
    (hassigned : passes.splitAssignment change = splitAssignmentSized settings scan change frame size)
    (htargets : targets.Perm (changeTargets passes change sources new)) :
    ∃ s', reassignShardAllocations settings later change now targets sizes s = .ok s' ∧
      (∀ p ∈ allOnFilter later change.parent, ∃ child ∈ change.children,
        (∀ target ∈ targets, p.1 ∈ target.members → child = target.filter) ∧
        ∀ a, s' (p.1, a) = rekeyAllocationWithKey settings.allocationAddress p.1 change.parent child
          (some (moved settings (ringKeyOf settings later p.2 change.parent) now)) s (p.1, a)) ∧
      ∀ key ∉ (allOnFilter later change.parent).map (·.1), ∀ a, s' (key, a) = s (key, a) := by
  obtain ⟨moves, -, hmoves, hperm, hmember, -⟩ := @splitMoves_ok settings scan change frame size passes
    sources new targets hsplit hassigned htargets later sizes hchildren
  have hkeys := hperm.map Prod.fst
  rw [map_map] at hkeys
  obtain ⟨hkeep, hmove⟩ := foldl_rekey change.parent (fun m => change.children.get m.2)
    (fun m => some (moved settings (ringKeyOf settings later m.1 change.parent) now))
    (hkeys.nodup_iff.2 (nodup_keys _ _)) s
  refine ⟨_, by simp only [reassignShardAllocations, if_neg hchildren, hmoves]; rfl, fun p hp => ?_,
    fun key hkey => hkeep key (mt hkeys.mem_iff.1 hkey)⟩
  obtain ⟨m, hm, rfl⟩ := mem_map.1 (hperm.mem_iff.2 hp)
  exact ⟨_, get_mem _ _, hmember m hm, hmove m hm⟩

/-- Ten live provers, five of them members: each leaves its slot historic, and a prover of another shard keeps its
    allocation there. -/
theorem split_moves_ten_members :
    ∃ s', reassignShardAllocations everyKey halfEligible splitInTwo 0 (requested halfEligible) (fun _ => 0)
        (fun _ => some ⟨[1], .live, none, 0, 0⟩) = .ok s' ∧
      (∀ i < 10, s' ([UInt8.ofNat i], [1]) = some ⟨[1], .historic, none, 0, 0⟩) ∧
      s' ([20], [4]) = some ⟨[1], .live, none, 0, 0⟩ := by
  obtain ⟨s', hok, hmove, hkeep⟩ := split_moves_each_once halfEligible (fun _ => 0) 0 _ rfl (by decide) rfl
    (.refl (requested halfEligible))
  refine ⟨s', hok, fun i hi => ?_, hkeep [20] (by decide +kernel) [4]⟩
  have hlisted : ∀ i < 10, ([UInt8.ofNat i], [UInt8.ofNat i]) ∈ allOnFilter halfEligible [1] := by decide +kernel
  obtain ⟨child, hchild, -, ha⟩ := hmove _ (hlisted i hi)
  refine (ha [1]).trans ?_
  have hne : child ≠ [1] := by rintro rfl; revert hchild; decide
  simp [rekeyAllocationWithKey, everyKey, splitInTwo, hne]

end Quil.Rings
