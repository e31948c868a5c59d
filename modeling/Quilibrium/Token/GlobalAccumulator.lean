import Quilibrium.Token.DeliveryQueues
import Quilibrium.Token.ShardAccumulator

/-! The canonical application roots the global materializer keeps from shard reports
    (`token_intrinsic/global_accumulator.rs`, with the root history of `roots.rs`). Each certified header may carry
    its shard's report. A layer with fewer coins than the recorded one is STALE and ignored; one with the same coins
    and another root is refused with its whole report; any other takes the place of every indexed subtree of its width
    that overlaps it. The index is then folded into the application's root, which is published into its history. -/

namespace Quil.GlobalAccumulator
open Schemes ShardedTree GlobalRecords Orphans List Store
open CoinBlocks hiding invalid
open GlobalCommit hiding invalid MAX_DEPTH
open ShardAccumulator hiding invalid

/-- Subtrees one application's index may hold. -/
def MAX_SUBTREES : ℕ := 4096

def invalid (message : String) : QuilError := .invalidArgument ("global accumulator: " ++ message)

/-- The application's current `(width, shard)` entries. -/
abbrev Index := List (ℕ × List Bool)

variable {Node : Type}

/-- A shard path as `(len, bits left-aligned in a u64)`. -/
def packShard (shard : List Bool) : Except QuilError (ℕ × BitVec 64) :=
  if shard.length > 64 then .error (invalid "shard path longer than 64 bits")
  else .ok (shard.length, packBits 64 shard)

def subtreeAddress (app : Bytes32) (width : ℕ) (shard : List Bool) :
    Except QuilError RecordAddress := do
  let _ ← packShard shard
  return .subtree app width shard

def subtreeOf? : Record Node → Option (Subtree Node)
  | .subtree t => some t
  | _ => none

def indexOf? : Record Node → Option (Bytes32 × Index)
  | .index ctx entries => some (ctx, entries)
  | _ => none

def readSubtree (s : Records Node) (app : Bytes32) (width : ℕ) (shard : List Bool) :
    Except QuilError (Option (Subtree Node)) := do
  read s (← subtreeAddress app width shard) subtreeOf?

def readIndex (s : Records Node) (app : Bytes32) :
    Except QuilError (Option (Bytes32 × Index)) := do
  match ← read s (indexAddress app) indexOf? with
  | none => return none
  | some (ctx, entries) =>
    if entries.length > MAX_SUBTREES then .error (invalid "malformed index")
    else return some (ctx, entries)

/-- The subtree `(width, shard, coins, root)` of an index entry. -/
def entrySubtree (s : Records Node) (app : Bytes32) (entry : ℕ × List Bool) :
    Except QuilError (ℕ × List Bool × ℕ × Node) := do
  match ← readSubtree s app entry.1 entry.2 with
  | none => .error (invalid "indexed subtree has no record")
  | some t => return (entry.1, entry.2, t.coins, t.root)

/-- Every subtree the application's shards have reported. -/
def subtrees (s : Records Node) (app : Bytes32) :
    Except QuilError (List (ℕ × List Bool × ℕ × Node)) := do
  match ← readIndex s app with
  | none => return []
  | some (_, index) => index.mapM (entrySubtree s app)

/-! ### The root history -/

/-- The error of `roots.rs`. -/
def invalidHistory : QuilError := .invalidArgument "coin root: invalid history record"

/-- Retain a digest as the newest; the oldest falls out past the limit. -/
def retain (digests : List Bytes32) (digest : Bytes32) : List Bytes32 :=
  if digests.getLast? = some digest then digests
  else
    let digests := digests.filter (· ≠ digest) ++ [digest]
    if digests.length > HISTORY_LIMIT then digests.tail else digests

/-- Make `current` the current root. -/
def publish (env : Env Node) (history : History Node) (current : RootRecord Node) :
    Except QuilError (History Node) :=
  if current.context ≠ history.current.context then .error invalidHistory
  else
    let digest := env.rootDigest current.context current.depth current.root
    .ok ⟨current, retain history.digests digest⟩

/-- The history to publish into, created when there is none. -/
def openHistory (env : Env Node) (existing : Option (History Node)) (current : RootRecord Node) :
    Except QuilError (History Node) :=
  match existing with
  | some history => decodeHistory env history current.context
  | none => .ok ⟨current, []⟩

/-- Publish `current` into a root history; encoding checks what decoding does. -/
def publishHistory (env : Env Node) (existing : Option (History Node)) (current : RootRecord Node) :
    Except QuilError (History Node) := do
  let history ← openHistory env existing current
  let history ← publish env history current
  decodeHistory env history history.current.context

/-! ### One report -/

/-- Whether one path begins the other. -/
def overlaps (a b : List Bool) : Bool :=
  let n := min a.length b.length
  a.take n == b.take n

/-- Structural check of a header's report: one whose layers the header's shard can own, attesting only
    blocks narrower than the shard whose records it holds. -/
def verifyReport (shard : List Bool) (report : ShardReport Node) : Except QuilError Unit := do
  report.validate
  let _ ← report.subtrees.mapM fun t => subtreePosition t.width shard
  if ∃ a ∈ report.attestations,
      creationWidth a.block ≥ shard.length ∨ ¬ holdsBlockRecords shard a.block then
    .error (invalid "an attestation for a block this shard does not hold")
  else .ok ()

/-- Apply the report's attestations, in order. -/
def applyAttestations (app : Bytes32) :
    Records Node → List BlockAttestation → Except QuilError (Records Node)
  | s, [] => .ok s
  | s, a :: rest => do
    let (_, s) ← applyOrphanAttestation s app a.block a.coins a.escrows
    applyAttestations app s rest

/-- Whether a frozen width is already recorded at an ancestor of the shard. -/
def frozenUnderAncestor (placement : ℕ) (shard : List Bool) (width : ℕ) (index : Index) : Bool :=
  width < placement && index.any fun e => e.1 == width && decide (e.2.length < shard.length) && e.2.isPrefixOf shard

/-- Write a layer's subtree and index it in place of every entry of its width it overlaps. -/
def admitLayer (app ctx : Bytes32) (shard : List Bool) (index : Index) (s : Records Node)
    (t : SubtreeReport Node) : Index × Records Node :=
  (index.filter (fun e => e.1 != t.width || !overlaps e.2 shard) ++ [(t.width, shard)],
    s.write (.subtree app t.width shard) (.subtree ⟨ctx, t.coins, t.root⟩))

/-- Record one layer of a report: the index, the records, and whether anything changed. -/
def recordSubtree [DecidableEq Node] (app ctx : Bytes32) (shard : List Bool)
    (placement : ℕ) (index : Index) (s : Records Node) (t : SubtreeReport Node) :
    Except QuilError (Option (Index × Records Node)) := do
  if frozenUnderAncestor placement shard t.width index then return none
  else
    match ← readSubtree s app t.width shard with
    | none => return some (admitLayer app ctx shard index s t)
    | some existing =>
      if existing.coins > t.coins then return none
      else if existing.coins = t.coins then
        if existing.root ≠ t.root then
          .error (invalid "equivocating report: same coins, different root")
        -- A heartbeat; after a topology change it may have been dropped from the index.
        else if (t.width, shard) ∈ index then return none
        else return some (admitLayer app ctx shard index s t)
      else return some (admitLayer app ctx shard index s t)

/-- Record a report's layers in order. -/
def recordSubtrees [DecidableEq Node] (app ctx : Bytes32) (shard : List Bool)
    (placement : ℕ) : Index → Records Node → Bool → List (SubtreeReport Node) →
      Except QuilError (Index × Records Node × Bool)
  | index, s, changed, [] => .ok (index, s, changed)
  | index, s, changed, t :: rest => do
    match ← recordSubtree app ctx shard placement index s t with
    | none => recordSubtrees app ctx shard placement index s changed rest
    | some (index, s) => recordSubtrees app ctx shard placement index s true rest

/-- The order of the index: width, then path length, then path bits. -/
def sortKey (entry : ℕ × List Bool) : ℕ ×ₗ ℕ ×ₗ ℕ :=
  toLex (entry.1, toLex (entry.2.length, (packBits 64 entry.2).toNat))

/-- The coins of the indexed subtrees, added up, and the subtrees `(width, shard, root)`. -/
def gather (s : Records Node) (app : Bytes32) :
    ℕ → Index → Except QuilError (ℕ × List (ℕ × List Bool × Node))
  | coins, [] => .ok (coins, [])
  | coins, entry :: rest => do
    match ← readSubtree s app entry.1 entry.2 with
    | none => .error (invalid "indexed subtree has no record")
    | some t =>
      if coins + t.coins ≥ 2 ^ 64 then .error (invalid "coin count overflow")
      else
        let (coins, later) ← gather s app (coins + t.coins) rest
        return (coins, (entry.1, entry.2, t.root) :: later)

/-- Store the changed index, sorted, and gather its subtrees. -/
def storeIndex (app ctx : Bytes32) (index : Index) (s : Records Node) :
    Except QuilError (Records Node × ℕ × List (ℕ × List Bool × Node)) := do
  if index.length > MAX_SUBTREES then .error (invalid "too many subtrees for one application")
  else
    let index := index.insertionSort fun a b => sortKey a ≤ sortKey b
    let _ ← index.mapM fun entry => packShard entry.2
    let s := s.write (indexAddress app) (.index ctx index)
    let (coins, subtrees) ← gather s app 0 index
    return (s, coins, subtrees)

/-- Fold the indexed subtrees and publish the root. -/
def publishRoot (m : Membership Node) (env : Env Node) (app ctx : Bytes32) (coins : ℕ)
    (subtrees : List (ℕ × List Bool × Node)) (s : Records Node) : Except QuilError (Records Node) := do
  let root ← foldApplicationRoot m ctx subtrees
  let existing ← readRootHistory s app
  let history ← publishHistory env existing ⟨ctx, DEPTH, coins, root⟩
  return s.write (rootHistoryAddress app) (.rootHistory history)

/-- A verified report up to the fold: its records, and what is to be folded if anything changed. -/
def stageReport [DecidableEq Node] (env : Env Node) (s : Records Node) (frame : ℕ)
    (app : Bytes32) (shard : List Bool) (report : ShardReport Node) :
    Except QuilError (Records Node × Option (ℕ × List (ℕ × List Bool × Node))) := do
  if report.attestations ≠ [] ∧ frame < env.orphanReplacementFrame then
    .error (invalid "block attestations before the orphan re-placement frame")
  else
    let s ← applyAttestations app s report.attestations
    let recorded ← readIndex s app
    let (ctx, index) := recorded.getD (report.context, [])
    if ctx ≠ report.context then
      .error (invalid "report context differs from the application's recorded context")
    else
      let placement ← placementWidth s app
      let (index, s, changed) ←
        recordSubtrees app ctx shard placement index s false report.subtrees
      if ¬ changed then return (s, none)
      else
        let (s, folded) ← storeIndex app ctx index s
        return (s, some folded)

/-- Record one certified header's report for the shard `shard` of `application`, if it carries one;
    returns whether the application's canonical root changed. -/
def materializeReport [DecidableEq Node] (m : Membership Node) (env : Env Node) (s : Records Node)
    (frame : ℕ) (app : Bytes32) (shard : List Bool) (report : Option (ShardReport Node)) :
    Except QuilError (Bool × Records Node) := do
  match report with
  | none => return (false, s)
  | some report =>
    verifyReport shard report
    match ← stageReport env s frame app shard report with
    | (s, none) => return (false, s)
    | (s, some (coins, subtrees)) => return (true, ← publishRoot m env app report.context coins subtrees s)

/-! ### Recording a layer -/

theorem overlaps_iff (a b : List Bool) : overlaps a b = true ↔ a <+: b ∨ b <+: a := by
  rw [overlaps, beq_iff_eq]
  rcases le_total a.length b.length with h | h
  · rw [Nat.min_eq_left h, take_length]
    constructor
    · exact fun he => .inl (he ▸ take_prefix _ _)
    · rintro (hp | hp)
      · exact prefix_iff_eq_take.1 hp
      · rw [hp.eq_of_length (by have := hp.length_le; omega), take_length]
  rw [Nat.min_eq_right h, take_length]
  constructor
  · exact fun he => .inr (he ▸ take_prefix _ _)
  · rintro (hp | hp)
    · rw [hp.eq_of_length (by have := hp.length_le; omega), take_length]
    · exact (prefix_iff_eq_take.1 hp).symm

/-- Whether a layer is not stale: it has no fewer coins than its shard's record. -/
def current (s : Records Node) (app : Bytes32) (shard : List Bool) (t : SubtreeReport Node) :
    Bool :=
  match s (.subtree app t.width shard) with
  | some (.subtree existing) => decide (existing.coins ≤ t.coins)
  | _ => true

/-- Whether a layer is neither stale nor frozen in these records. -/
def fresh (placement : ℕ) (index : Index) (s : Records Node) (app : Bytes32)
    (shard : List Bool) (t : SubtreeReport Node) : Bool :=
  !frozenUnderAncestor placement shard t.width index && current s app shard t

variable {t : SubtreeReport Node} {a : RecordAddress} {changed : Bool} {coins : ℕ}
  {found : List (ℕ × List Bool × Node)} {env : Env Node} {report : ShardReport Node}

section
variable {app ctx : Bytes32} {shard : List Bool} {placement : ℕ}
  {index index' : Index} {s s' : Records Node}

theorem readSubtree_ok {width : ℕ} {r : Option (Subtree Node)} (h : readSubtree s app width shard = .ok r) :
    s (.subtree app width shard) = r.map .subtree := by
  obtain ⟨address, haddress, h⟩ := bind_ok h
  obtain ⟨-, -, haddress⟩ := bind_ok haddress
  cases haddress
  rcases r with _ | t
  · exact read_eq_ok_none.1 h
  obtain ⟨record, hrecord, ht⟩ := read_eq_ok_some.1 h
  cases record <;> simp [subtreeOf?] at ht
  rw [hrecord, ht]
  rfl

/-- What recording a layer does: nothing if it is not fresh or already indexed, else it is admitted. -/
theorem recordSubtree_ok [DecidableEq Node] {r : Option (Index × Records Node)}
    (h : recordSubtree app ctx shard placement index s t = .ok r) :
    fresh placement index s app shard t = false ∧ r = none ∨ fresh placement index s app shard t = true ∧
      (r = none ∧ (t.width, shard) ∈ index ∧
        (∃ c, s (.subtree app t.width shard) = some (.subtree ⟨c, t.coins, t.root⟩)) ∨
      r = some (admitLayer app ctx shard index s t)) := by
  rw [recordSubtree] at h
  rw [fresh, current]
  cases hfrozen : frozenUnderAncestor placement shard t.width index with
  | true =>
    rw [if_pos hfrozen] at h
    cases h
    exact .inl ⟨rfl, rfl⟩
  | false =>
    rw [if_neg (by simp [hfrozen])] at h
    obtain ⟨existing, hread, h⟩ := bind_ok h
    have hstored := readSubtree_ok hread
    rcases existing with _ | existing
    · cases h
      exact .inr ⟨by simp [hstored], .inr rfl⟩
    dsimp only at h
    split_ifs at h with hstale hequal hroot hmem
    · cases h
      exact .inl ⟨by simp [hstored]; omega, rfl⟩
    · cases h
      refine .inr ⟨by simp [hstored]; omega, .inl ⟨rfl, hmem, existing.context, ?_⟩⟩
      rw [hstored, ← hequal, ← not_not.1 hroot]
      rfl
    all_goals
      cases h
      exact .inr ⟨by simp [hstored]; omega, .inr rfl⟩

/-! ### The ledger of fresh layers -/

/-- A layer as a claim on its shard's region of its width. -/
def claimOf (shard : List Bool) (t : SubtreeReport Node) : Region ℕ × ℕ × Node :=
  ((t.width, shard), t.coins, t.root)

/-- The index and the subtree records of an application are what the ledger of its fresh layers says; of all the
    current layers heard, frozen ones too, none covers an indexed subtree after its own. -/
structure Follows (app ctx : Bytes32) (index : Index) (s : Records Node)
    (ledger heard : List (Region ℕ × ℕ × Node)) : Prop where
  mem : ∀ r, r ∈ index ↔ ∃ v, Stands ledger r v
  nodup : index.Nodup
  owned : ∀ r ∈ index, r.1 ∈ widths ∧ r.2.length ≤ r.1
  record : ∀ r v, Stands ledger r v →
    s (.subtree app r.1 r.2) = some (.subtree ⟨ctx, v.1, v.2⟩)
  covered : ∀ r v, Stands ledger r v → lastCovering heard r = some (r, v)
  context : ∀ width path t, s (.subtree app width path) = some (.subtree t) →
    t.context = ctx

theorem mem_admitLayer {r : ℕ × List Bool} : r ∈ (admitLayer app ctx shard index s t).1 ↔
      r = (t.width, shard) ∨ ¬ Overlaps (t.width, shard) r ∧ r ∈ index := by
  have hkept : (r.1 != t.width || !overlaps r.2 shard) = true ↔ ¬ Overlaps (t.width, shard) r := by
    rw [Overlaps, Bool.or_eq_true, bne_iff_ne, Bool.not_eq_true', ← Bool.not_eq_true, overlaps_iff,
      not_and_or, or_comm (a := r.2 <+: shard), ne_comm]
  rw [admitLayer, mem_append, mem_filter, hkept, mem_singleton, or_comm, and_comm]

theorem admitLayer_other (h : a ≠ .subtree app t.width shard) :
    (admitLayer app ctx shard index s t).2 a = s a := write_other h

variable {ledger heard : List (Region ℕ × ℕ × Node)}

section
variable (h : Follows app ctx index s ledger heard)
include h

/-- Admitting a layer appends its claim. -/
theorem Follows.admitLayer
    (hw : t.width ∈ widths) (hd : shard.length ≤ t.width) : Follows app ctx (admitLayer app ctx shard index s t).1
      (admitLayer app ctx shard index s t).2 (ledger ++ [claimOf shard t]) (heard ++ [claimOf shard t]) where
  mem r := by
    rw [mem_admitLayer, h.mem]
    constructor
    · rintro (rfl | ⟨hover, v, hv⟩)
      · exact ⟨_, stands_concat.2 (.inl rfl)⟩
      · exact ⟨v, stands_concat.2 (.inr ⟨hover, hv⟩)⟩
    · rintro ⟨v, hv⟩
      rcases stands_concat.1 hv with heq | ⟨hover, hv⟩
      · exact .inl (congrArg Prod.fst heq).symm
      · exact .inr ⟨hover, v, hv⟩
  nodup := by
    rw [GlobalAccumulator.admitLayer, nodup_append]
    refine ⟨h.nodup.filter _, nodup_singleton _, fun a ha b hb hab => ?_⟩
    rw [mem_singleton] at hb
    subst hb hab
    simp [(overlaps_iff shard shard).2 (.inl (prefix_refl _))] at ha
  owned r hr := by
    rcases mem_admitLayer.1 hr with rfl | ⟨-, hr⟩
    · exact ⟨hw, hd⟩
    · exact h.owned r hr
  record r v hv := by
    rcases stands_concat.1 hv with heq | ⟨hover, hv⟩
    · cases heq
      exact write_same _ _ _
    rw [admitLayer_other, h.record r v hv]
    intro heq
    injection heq with _ hwidth hpath
    exact hover (by rw [show r = (t.width, shard) from Prod.ext hwidth hpath]; exact overlaps_self _)
  covered := lastCovering_of_stands h.covered _
  context width path t' ht' := by
    by_cases heq : RecordAddress.subtree app width path = .subtree app t.width shard
    · rw [heq, GlobalAccumulator.admitLayer] at ht'
      cases (write_same _ _ _).symm.trans ht'
      rfl
    · rw [admitLayer_other heq] at ht'
      exact h.context width path t' ht'

/-- A heartbeat of an indexed layer repeats its claim. -/
theorem Follows.repeat (hmem : (t.width, shard) ∈ index) {c : Bytes32}
    (hrecord : s (.subtree app t.width shard) = some (.subtree ⟨c, t.coins, t.root⟩)) :
    Follows app ctx index s (ledger ++ [claimOf shard t]) (heard ++ [claimOf shard t]) where
  mem r := by
    constructor
    · intro hr
      by_cases heq : r = (t.width, shard)
      · exact ⟨_, stands_concat.2 (.inl (by rw [heq]; rfl))⟩
      obtain ⟨v, hv⟩ := (h.mem r).1 hr
      obtain ⟨v', hv'⟩ := (h.mem _).1 hmem
      exact ⟨v, stands_concat.2 (.inr ⟨fun hover => heq (hv'.eq_of_overlaps hv hover).symm, hv⟩)⟩
    · rintro ⟨v, hv⟩
      rcases stands_concat.1 hv with heq | ⟨-, hv⟩
      · cases heq
        exact hmem
      · exact (h.mem r).2 ⟨v, hv⟩
  nodup := h.nodup
  owned := h.owned
  record r v hv := by
    rcases stands_concat.1 hv with heq | ⟨-, hv⟩
    · cases heq
      obtain rfl : c = ctx := h.context _ _ _ hrecord
      exact hrecord
    · exact h.record r v hv
  covered := lastCovering_of_stands h.covered _
  context := h.context

/-- A frozen layer covers no indexed subtree: its ancestor's is indexed. -/
theorem Follows.frozen
    (hfrozen : frozenUnderAncestor placement shard t.width index = true) :
    Follows app ctx index s ledger (heard ++ [claimOf shard t]) where
  mem := h.mem
  nodup := h.nodup
  owned := h.owned
  record := h.record
  covered r v hv := by
    rw [lastCovering_concat, if_neg, h.covered r v hv]
    rintro ⟨hwidth, hpre⟩
    simp only [frozenUnderAncestor, Bool.and_eq_true, any_eq_true, beq_iff_eq,
      decide_eq_true_eq, isPrefixOf_iff_prefix] at hfrozen
    obtain ⟨-, e, he, ⟨hewidth, helen⟩, hepre⟩ := hfrozen
    obtain ⟨v', hv'⟩ := (h.mem e).1 he
    -- the ancestor and the covered subtree are both indexed and overlap, so they are one
    obtain rfl := hv'.eq_of_overlaps hv ⟨hewidth.trans hwidth, .inl (hepre.trans hpre)⟩
    exact absurd hpre.length_le (not_le.2 helen)
  context := h.context

end

theorem current_admitLayer {t' : SubtreeReport Node} (hne : t'.width ≠ t.width) :
    current (admitLayer app ctx shard index s t).2 app shard t' = current s app shard t' := by
  rw [current, current, admitLayer_other fun heq => by
    injection heq with _ hwidth
    exact hne hwidth]

/-- Admitting a layer of one width leaves the freshness of the others. -/
theorem fresh_admitLayer {t' : SubtreeReport Node} (hne : t'.width ≠ t.width) :
    fresh placement (admitLayer app ctx shard index s t).1 (admitLayer app ctx shard index s t).2 app shard t' =
    fresh placement index s app shard t' := by
  have hfrozen : frozenUnderAncestor placement shard t'.width (admitLayer app ctx shard index s t).1 =
        frozenUnderAncestor placement shard t'.width index := by
    rw [frozenUnderAncestor, frozenUnderAncestor, Bool.eq_iff_iff]
    simp only [Bool.and_eq_true, any_eq_true, mem_admitLayer, beq_iff_eq]
    refine and_congr_right fun _ => exists_congr fun e => ?_
    constructor
    · rintro ⟨rfl | ⟨-, he⟩, hrest⟩
      · exact absurd hrest.1.1.symm hne
      · exact ⟨he, hrest⟩
    · rintro ⟨he, hrest⟩
      exact ⟨.inr ⟨fun hover => hne (hrest.1.1.symm.trans hover.1.symm), he⟩, hrest⟩
  rw [fresh, fresh, current_admitLayer hne, hfrozen]

/-- Recording a report's layers appends the claims of the fresh ones. -/
theorem recordSubtrees_ok [DecidableEq Node] {subtrees : List (SubtreeReport Node)}
    {p q : SubtreeReport Node → Bool} {changed' : Bool} (hdistinct : subtrees.Pairwise fun t t' => t.width ≠ t'.width)
    (howned : ∀ t ∈ subtrees, t.width ∈ widths ∧ shard.length ≤ t.width)
    (hp : ∀ t ∈ subtrees, p t = fresh placement index s app shard t)
    (hq : ∀ t ∈ subtrees, q t = current s app shard t) (hfollows : Follows app ctx index s ledger heard)
    (h : recordSubtrees app ctx shard placement index s changed subtrees = .ok (index', s', changed')) :
    Follows app ctx index' s' (ledger ++ (subtrees.filter p).map (claimOf shard))
        (heard ++ (subtrees.filter q).map (claimOf shard)) ∧
      (changed' = false → index' = index ∧ s' = s) ∧ (changed = true → changed' = true) := by
  induction subtrees generalizing index s changed ledger heard with
  | nil =>
    cases h
    exact ⟨by simpa using hfollows, fun _ => ⟨rfl, rfl⟩, id⟩
  | cons t rest ih =>
    obtain ⟨hne, hdistinct⟩ := pairwise_cons.1 hdistinct
    obtain ⟨hw, hd⟩ := howned t mem_cons_self
    obtain ⟨hpt, hp⟩ := forall_mem_cons.1 hp
    obtain ⟨hqt, hq⟩ := forall_mem_cons.1 hq
    have howned' := fun x hx => howned x (mem_cons_of_mem _ hx)
    have hcurrent : fresh placement index s app shard t = true → current s app shard t = true := by
      rw [fresh, Bool.and_eq_true]
      exact And.right
    obtain ⟨r, hr, h⟩ := bind_ok h
    rcases recordSubtree_ok hr with ⟨hstale, rfl⟩ | ⟨hfresh, hrecorded⟩
    · rw [filter_cons_of_neg (by simp [hpt, hstale])]
      rcases hnow : current s app shard t with _ | _
      · rw [filter_cons_of_neg (by simp [hqt, hnow])]
        exact ih hdistinct howned' hp hq hfollows h
      rw [fresh, hnow, Bool.and_true, Bool.not_eq_false'] at hstale
      rw [filter_cons_of_pos (by simp [hqt, hnow]), map_cons, append_cons heard]
      exact ih hdistinct howned' hp hq (hfollows.frozen hstale) h
    rw [filter_cons_of_pos (by simp [hpt, hfresh]), map_cons, append_cons,
      filter_cons_of_pos (by simp [hqt, hcurrent hfresh]), map_cons, append_cons heard]
    rcases hrecorded with ⟨rfl, hmem, c, hrecord⟩ | rfl
    · exact ih hdistinct howned' hp hq (hfollows.repeat hmem hrecord) h
    obtain ⟨hnew, -, hchanged⟩ := ih hdistinct howned'
      (fun x hx => by rw [hp x hx, fresh_admitLayer (hne x hx).symm])
      (fun x hx => by rw [hq x hx, current_admitLayer (hne x hx).symm])
      (hfollows.admitLayer hw hd) h
    refine ⟨hnew, fun hfalse => ?_, fun _ => hchanged rfl⟩
    rw [hchanged rfl] at hfalse
    cases hfalse

/-- What admitting a layer keeps, recording keeps. -/
theorem recordSubtrees_induction [DecidableEq Node] {subtrees : List (SubtreeReport Node)} {changed' : Bool}
    {I : Index → Records Node → Bool → Prop} (hstart : I index s changed) (hstep : ∀ index s changed t,
      I index s changed → I (admitLayer app ctx shard index s t).1 (admitLayer app ctx shard index s t).2 true)
    (h : recordSubtrees app ctx shard placement index s changed subtrees = .ok (index', s', changed')) :
    I index' s' changed' := by
  induction subtrees generalizing index s changed with
  | nil =>
    cases h
    exact hstart
  | cons t rest ih =>
    obtain ⟨r, hr, h⟩ := bind_ok h
    rcases recordSubtree_ok hr with ⟨-, rfl⟩ | ⟨-, ⟨rfl, -⟩ | rfl⟩
    · exact ih hstart h
    · exact ih hstart h
    · exact ih (hstep _ _ _ _ hstart) h

/-- Recording writes only the shard's subtrees. -/
theorem recordSubtrees_other [DecidableEq Node] {subtrees : List (SubtreeReport Node)}
    {changed' : Bool} (ha : ∀ width, a ≠ .subtree app width shard)
    (h : recordSubtrees app ctx shard placement index s changed subtrees =
      .ok (index', s', changed')) : s' a = s a :=
  recordSubtrees_induction (I := fun _ s' _ => s' a = s a) rfl
    (fun _ _ _ t hs => (write_other (ha t.width)).trans hs) h

/-! ### Publishing the index -/

/-- Gathering reads every indexed subtree and adds up its coins. -/
theorem gather_ok {total : ℕ} (h : gather s app coins index = .ok (total, found)) :
    ∃ list, index.mapM (entrySubtree s app) = .ok list ∧ found = list.map (fun t => (t.1, t.2.1, t.2.2.2)) ∧
      total = coins + (list.map fun t => t.2.2.1).sum := by
  induction index generalizing coins total found with
  | nil =>
    cases h
    exact ⟨[], rfl, rfl, rfl⟩
  | cons entry rest ih =>
    obtain ⟨_ | t, ht, h⟩ := bind_ok h
    · cases h
    dsimp only at h
    split_ifs at h with hover
    obtain ⟨⟨total', later⟩, hlater, h⟩ := bind_ok h
    cases h
    obtain ⟨list, hlist, rfl, rfl⟩ := ih hlater
    refine ⟨(entry.1, entry.2, t.coins, t.root) :: list, ?_, rfl, ?_⟩
    · rw [mapM_cons, entrySubtree, ht, hlist]
      rfl
    rw [map_cons, sum_cons]
    dsimp only
    omega

/-- A published history has the published root as its current one. -/
theorem publishHistory_ok {existing : Option (History Node)} {current : RootRecord Node} {history : History Node}
    (h : publishHistory env existing current = .ok history) : history.current = current := by
  obtain ⟨before, -, h⟩ := bind_ok h
  obtain ⟨after, hafter, h⟩ := bind_ok h
  have hcurrent : after.current = current := by
    rw [publish] at hafter
    split_ifs at hafter
    cases hafter
    rfl
  rw [decodeHistory] at h
  split_ifs at h
  cases h
  exact hcurrent

theorem entrySubtree_congr {entry : ℕ × List Bool}
    (h : s' (.subtree app entry.1 entry.2) = s (.subtree app entry.1 entry.2)) :
    entrySubtree s' app entry = entrySubtree s app entry := by
  have hread : readSubtree s' app entry.1 entry.2 = readSubtree s app entry.1 entry.2 := by
    rw [readSubtree, readSubtree, subtreeAddress]
    cases packShard entry.2 with
    | error e => rfl
    | ok p => exact read_congr _ h
  rw [entrySubtree, entrySubtree, hread]

theorem sortKey_inj {e e' : ℕ × List Bool} (he : e.2.length ≤ 64) (he' : e'.2.length ≤ 64)
    (h : sortKey e = sortKey e') : e = e' := by
  obtain ⟨hwidth, h⟩ := Prod.mk.inj (toLex_inj.1 h)
  obtain ⟨hlen, hbits⟩ := Prod.mk.inj (toLex_inj.1 h)
  refine Prod.ext hwidth (ext_getElem hlen fun i hi hi' => ?_)
  have hmsb : (packBits 64 e.2).getMsbD i = (packBits 64 e'.2).getMsbD i := by rw [BitVec.eq_of_toNat_eq hbits]
  rw [getMsbD_packBits _ he i (by omega), getMsbD_packBits _ he' i (by omega)] at hmsb
  simpa [getD_eq_getElem?_getD, hi, hi'] using hmsb

/-- Sorting an index puts it in strict order. -/
theorem sort_index (hnodup : index.Nodup) (howned : ∀ r ∈ index, r.1 ∈ widths ∧ r.2.length ≤ r.1) :
    index.Perm (index.insertionSort fun a b => sortKey a ≤ sortKey b) ∧
      (index.insertionSort fun a b => sortKey a ≤ sortKey b).Pairwise fun e e' => sortKey e < sortKey e' := by
  have hperm : index.Perm (index.insertionSort fun a b => sortKey a ≤ sortKey b) :=
    (perm_insertionSort _ _).symm
  have : Std.Total fun a b : ℕ × List Bool => sortKey a ≤ sortKey b := ⟨fun a b => le_total _ _⟩
  have : IsTrans (ℕ × List Bool) fun a b => sortKey a ≤ sortKey b := ⟨fun a b c => le_trans⟩
  have hle := pairwise_insertionSort (fun a b : ℕ × List Bool => sortKey a ≤ sortKey b) index
  have hshort : ∀ r ∈ index.insertionSort fun a b => sortKey a ≤ sortKey b, r.2.length ≤ 64 := by
    intro r hr
    obtain ⟨hw, hd⟩ := howned r (hperm.mem_iff.2 hr)
    have : r.1 ≤ 15 := (mem_widths.1 hw).2
    omega
  refine ⟨hperm, (hle.and (hperm.nodup_iff.1 hnodup)).imp_of_mem fun {a b} ha hb hab => ?_⟩
  exact lt_of_le_of_ne hab.1 fun heq => hab.2 (sortKey_inj (hshort a ha) (hshort b hb) heq)

section
variable (h : Follows app ctx index s ledger heard)
include h

theorem Follows.congr
    (hs : ∀ w p, s' (.subtree app w p) = s (.subtree app w p)) : Follows app ctx index s' ledger heard where
  mem := h.mem
  nodup := h.nodup
  owned := h.owned
  record r v hv := by rw [hs, h.record r v hv]
  covered := h.covered
  context w p t ht := h.context w p t (by rw [← hs, ht])

theorem Follows.perm (hperm : index.Perm index') : Follows app ctx index' s ledger heard where
  mem r := by rw [← hperm.mem_iff, h.mem]
  nodup := hperm.nodup_iff.1 h.nodup
  owned r hr := h.owned r (hperm.mem_iff.2 hr)
  record := h.record
  covered := h.covered
  context := h.context

/-- An index that follows a ledger has no two entries that overlap. -/
theorem Follows.disjoint : index.Pairwise fun e e' => ¬ Overlaps e e' := by
  refine h.nodup.imp_of_mem fun {e e'} he he' hne hover => ?_
  obtain ⟨v, hv⟩ := (h.mem e).1 he
  obtain ⟨v', hv'⟩ := (h.mem e').1 he'
  exact hne (hv.eq_of_overlaps hv' hover)

end

/-- The entries of the subtrees read from an index are the index. -/
theorem entries_of_mapM {list : List (ℕ × List Bool × ℕ × Node)} (h : index.mapM (entrySubtree s app) = .ok list) :
    list.map (fun t => (t.1, t.2.1)) = index := by
  induction index generalizing list with
  | nil =>
    cases h
    rfl
  | cons entry rest ih =>
    rw [mapM_cons] at h
    obtain ⟨t, ht, h⟩ := bind_ok h
    obtain ⟨later, hlater, h⟩ := bind_ok h
    cases h
    obtain ⟨_ | record, -, ht⟩ := bind_ok ht
    · cases ht
    cases ht
    rw [map_cons, ih hlater]

/-- So the subtrees read from such an index fold into a root. -/
theorem Follows.folds (h : Follows app ctx index s ledger heard) (m : Membership Node)
    {list : List (ℕ × List Bool × ℕ × Node)} (hlist : index.mapM (entrySubtree s' app) = .ok list) :
    ∃ root, foldApplicationRoot m ctx (list.map fun t => (t.1, t.2.1, t.2.2.2)) = .ok root := by
  have hentries := entries_of_mapM hlist
  refine ⟨_, foldApplicationRoot_ok m ctx ⟨fun t ht => ?_, ?_⟩⟩
  · obtain ⟨u, hu, rfl⟩ := mem_map.1 ht
    exact h.owned (u.1, u.2.1) (hentries ▸ mem_map_of_mem hu)
  have hdisjoint := h.disjoint
  rw [← hentries, pairwise_map] at hdisjoint
  exact pairwise_map.2 hdisjoint

/-- The index as stored: it follows the ledgers, is sorted, and has a record for each entry. -/
structure Staged (s : Records Node) (app ctx : Bytes32) (index : Index)
    (list : List (ℕ × List Bool × ℕ × Node)) (ledger heard : List (Region ℕ × ℕ × Node)) : Prop where
  follows : Follows app ctx index s ledger heard
  indexed : s (.index app) = some (.index ctx index)
  sorted : index.Pairwise fun e e' => sortKey e < sortKey e'
  listed : subtrees s app = .ok list
  entries : index.mapM (entrySubtree s app) = .ok list

/-- What is gathered from the stored index are its records' roots and coins. -/
theorem storeIndex_ok (hfollows : Follows app ctx index s ledger heard)
    (h : storeIndex app ctx index s = .ok (s', coins, found)) :
    ∃ sorted list, Staged s' app ctx sorted list ledger heard ∧ found = list.map (fun t => (t.1, t.2.1, t.2.2.2)) ∧
      coins = (list.map fun t => t.2.2.1).sum := by
  rw [storeIndex] at h
  split_ifs at h with hlen
  obtain ⟨hperm, hsorted⟩ := sort_index hfollows.nodup hfollows.owned
  dsimp only at h
  generalize index.insertionSort (fun a b => sortKey a ≤ sortKey b) = sorted at hperm hsorted h
  obtain ⟨-, -, h⟩ := bind_ok h
  obtain ⟨⟨coins', found'⟩, hgather, h⟩ := bind_ok h
  cases h
  obtain ⟨list, hlist, rfl, rfl⟩ := gather_ok hgather
  have hindex : readIndex (s.write (indexAddress app) (.index ctx sorted)) app = .ok (some (ctx, sorted)) := by
    rw [readIndex, GlobalRecords.read, write_same]
    dsimp only [indexOf?]
    rw [ok_bind]
    dsimp only
    rw [if_neg (by rw [← hperm.length_eq]; exact hlen)]
    rfl
  refine ⟨sorted, list, ⟨?_, write_same _ _ _, hsorted, ?_, hlist⟩, rfl, zero_add _⟩
  · refine (hfollows.perm hperm).congr fun w p => write_other ?_
    rintro ⟨⟩
  · rw [subtrees, hindex, ok_bind, ← hlist]

theorem storeIndex_other (ha : a ≠ .index app)
    (h : storeIndex app ctx index s = .ok (s', coins, found)) : s' a = s a := by
  rw [storeIndex] at h
  split_ifs at h with hlen
  obtain ⟨-, -, h⟩ := bind_ok h
  obtain ⟨⟨coins', found'⟩, -, h⟩ := bind_ok h
  cases h
  exact write_other ha

/-- The stored index with the root history published from it. -/
structure Published (m : Membership Node) (s : Records Node) (app ctx : Bytes32)
    (index : Index) (list : List (ℕ × List Bool × ℕ × Node)) (history : History Node)
    (ledger heard : List (Region ℕ × ℕ × Node)) : Prop
    extends Staged s app ctx index list ledger heard where
  recorded : s (.rootHistory app) = some (.rootHistory history)
  folded : foldApplicationRoot m ctx (list.map fun t => (t.1, t.2.1, t.2.2.2)) =
    .ok history.current.root
  published : history.current =
    ⟨ctx, DEPTH, (list.map fun t => t.2.2.1).sum, history.current.root⟩

theorem publishRoot_ok {m : Membership Node} (h : publishRoot m env app ctx coins found s = .ok s') :
    ∃ history, s' = s.write (.rootHistory app) (.rootHistory history) ∧
      foldApplicationRoot m ctx found = .ok history.current.root ∧
      history.current = ⟨ctx, DEPTH, coins, history.current.root⟩ := by
  obtain ⟨root, hroot, h⟩ := bind_ok h
  obtain ⟨existing, -, h⟩ := bind_ok h
  obtain ⟨history, hpublish, h⟩ := bind_ok h
  cases h
  have hcurrent := publishHistory_ok hpublish
  exact ⟨history, rfl, by rw [hcurrent]; exact hroot, by rw [hcurrent]⟩

/-! ### A whole report -/

/-- The layers of a verified report have distinct widths, and the shard owns their blocks whole. -/
theorem verifyReport_ok (h : verifyReport shard report = .ok ()) :
    (report.subtrees.Pairwise fun t t' => t.width ≠ t'.width) ∧
      ∀ t ∈ report.subtrees, t.width ∈ widths ∧ shard.length ≤ t.width := by
  obtain ⟨⟨⟩, hvalid, h⟩ := bind_ok h
  obtain ⟨positions, hpositions, -⟩ := bind_ok h
  rw [ShardReport.validate] at hvalid
  split_ifs at hvalid with h1 h2 h3 h4
  refine ⟨(pairwise_map.1 h3).imp fun hlt => hlt.ne, fun t ht => ?_⟩
  have hwidth : INITIAL_BLOCK_BITS ≤ t.width ∧ t.width ≤ MAX_BLOCK_BITS := by
    by_contra hnot
    exact h4 ⟨t, ht, .inr hnot⟩
  refine ⟨mem_widths.2 hwidth, ?_⟩
  obtain ⟨position, hposition⟩ := exists_ok_of_mapM hpositions t ht
  rw [subtreePosition] at hposition
  split_ifs at hposition with hdeep
  omega

theorem applyAttestations_other (hd : ∀ lane b i, a ≠ .delivery lane app b i)
    (hs : ∀ lane b, a ≠ .sequence lane app b) (ho : ∀ b, a ≠ .orphan app b) {attestations : List BlockAttestation}
    (h : applyAttestations app s attestations = .ok s') : s' a = s a := by
  induction attestations generalizing s with
  | nil =>
    cases h
    rfl
  | cons x rest ih =>
    obtain ⟨⟨applied, s₁⟩, hx, h⟩ := bind_ok h
    rw [ih h, applyOrphanAttestation_other hx hd hs ho]

/-- The phases of a report up to the fold. -/
theorem stageReport_ok [DecidableEq Node] {frame : ℕ} {folded : Option (ℕ × List (ℕ × List Bool × Node))}
    (h : stageReport env s frame app shard report = .ok (s', folded)) : ∃ s₁ recorded placement index' s₂ changed,
      applyAttestations app s report.attestations = .ok s₁ ∧ readIndex s₁ app = .ok recorded ∧
      (recorded.getD (report.context, [])).1 = report.context ∧ placementWidth s₁ app = .ok placement ∧
      recordSubtrees app report.context shard placement
        (recorded.getD (report.context, [])).2 s₁ false report.subtrees = .ok (index', s₂, changed) ∧
      (changed = false ∧ folded = none ∧ s' = s₂ ∨ changed = true ∧ ∃ coins found, folded = some (coins, found) ∧
        storeIndex app report.context index' s₂ = .ok (s', coins, found)) := by
  rw [stageReport] at h
  split_ifs at h with hframe
  obtain ⟨s₁, hattest, h⟩ := bind_ok h
  obtain ⟨recorded, hindex, h⟩ := bind_ok h
  dsimp only at h
  split_ifs at h with hcontext
  obtain ⟨placement, hplacement, h⟩ := bind_ok h
  obtain ⟨⟨index', s₂, changed⟩, hrecord, h⟩ := bind_ok h
  have hsame : (recorded.getD (report.context, [])).1 = report.context := not_not.1 hcontext
  rw [hsame] at hrecord h
  refine ⟨s₁, recorded, placement, index', s₂, changed, hattest, hindex, hsame, hplacement, hrecord, ?_⟩
  rcases changed with _ | _
  · cases h
    exact .inl ⟨rfl, rfl, rfl⟩
  obtain ⟨⟨s₃, coins, found⟩, hstore, h⟩ := bind_ok h
  cases h
  exact .inr ⟨rfl, coins, found, rfl, hstore⟩

/-- A report that succeeds is staged, and published if anything changed. -/
theorem materializeReport_ok [DecidableEq Node] {m : Membership Node} {frame : ℕ}
    (h : materializeReport m env s frame app shard (some report) = .ok (changed, s')) :
    verifyReport shard report = .ok () ∧ ∃ s₁ folded, stageReport env s frame app shard report = .ok (s₁, folded) ∧
      (folded = none ∧ s' = s₁ ∨ ∃ coins found, folded = some (coins, found) ∧
        publishRoot m env app report.context coins found s₁ = .ok s') := by
  obtain ⟨⟨⟩, hverify, h⟩ := bind_ok h
  obtain ⟨⟨s₁, folded⟩, hstage, h⟩ := bind_ok h
  refine ⟨hverify, s₁, folded, hstage, ?_⟩
  rcases folded with _ | ⟨coins, found⟩
  · cases h
    exact .inl ⟨rfl, rfl⟩
  obtain ⟨s₂, hpublish, h⟩ := bind_ok h
  cases h
  exact .inr ⟨coins, found, rfl, hpublish⟩

end

end Quil.GlobalAccumulator
