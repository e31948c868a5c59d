import Quilibrium.Token.CommitSpec

/-! Blocks a split leaves without a whole owner (`token_intrinsic/global_commit.rs`, `reconcile_orphans` and
    `apply_orphan_attestation`). A topology change MARKS a block with committed items that no registered shard owns
    whole, and RELEASES a marked one that a merge made whole again. The attested counts of a marked block retire it:
    everything committed beyond them MOVES to the blocks the items' addresses select at the current width, the old
    records are overwritten, and the block's own sequence falls back to what it holds. -/

namespace Quil.Orphans
open Schemes GlobalRecords GlobalCommit Store
open CoinBlocks hiding invalid

variable {Node : Type}

/-- The blocks on `shard`'s own path narrower than the shard. -/
def ancestorBlocks (shard : List Bool) : List ℕ :=
  let top := min shard.length (MAX_BLOCK_BITS + 1)
  ((List.range top).filter (INITIAL_BLOCK_BITS ≤ ·)).filterMap fun width =>
    (blockId width (value (shard.take width))).toOption

/-- Mark or release one block against the registered shards. -/
def reconcileBlock (s : Records Node) (frame : ℕ) (app : Bytes32)
    (registered : List (List Bool)) (block : ℕ) : Except QuilError ((ℕ × ℕ) × Records Node) := do
  let owned := registered.any fun shard => shardOwnsBlock shard block
  match ← orphan s app block with
  | some existing =>
    if owned && !existing.moved then
      return ((0, 1), s.clear (orphanAddress app block))
    return ((0, 0), s)
  | none =>
    if owned then return ((0, 0), s)
    if (← blockSequence s app block) + (← escrowSequence s app block) > 0 then
      return ((1, 0), s.write (orphanAddress app block) (.orphan ⟨frame, false, 0, 0⟩))
    return ((0, 0), s)

/-- Reconcile a list of blocks, counting the marked and the released. -/
def reconcileBlocks (frame : ℕ) (app : Bytes32) (registered : List (List Bool)) :
    Records Node → List ℕ → Except QuilError ((ℕ × ℕ) × Records Node)
  | s, [] => .ok ((0, 0), s)
  | s, block :: rest => do
    let (here, s) ← reconcileBlock s frame app registered block
    let (later, s) ← reconcileBlocks frame app registered s rest
    return ((here.1 + later.1, here.2 + later.2), s)

/-- Reconcile orphan records with the registered shards of `application` after a topology change;
    returns `(marked, released)`. -/
def reconcileOrphans (s : Records Node) (frame : ℕ) (app : Bytes32)
    (registered removed : List (List Bool)) : Except QuilError ((ℕ × ℕ) × Records Node) :=
  let candidates := (((registered ++ removed).flatMap ancestorBlocks).dedup).insertionSort (· ≤ ·)
  reconcileBlocks frame app registered s candidates

/-- Move one committed item to the block its address selects at `width`. -/
def moveItem (lane : Lane) (app : Bytes32) (block width : ℕ) (s : Records Node)
    (sequences : Sequences) (seq : ℕ) : Except QuilError (Records Node × Sequences) := do
  match ← laneDelivery lane s app block seq with
  | none => .error (invalid "an orphaned block is missing a committed delivery")
  | some record =>
    let target ← blockForAddress width record.address
    let next ← nextSequence lane s app sequences target
    if next ≥ BLOCK_CAPACITY then .error (invalid "block is full")
    else
      let s := s.write (.delivery lane app target next) (.delivery lane record)
      let s := s.write (.delivery lane app block seq) (.moved lane record.address target next)
      return (s, Function.update sequences target (some (next + 1)))

/-- Move a list of items in order. -/
def moveItems (lane : Lane) (app : Bytes32) (block width : ℕ) :
    Records Node → Sequences → List ℕ → Except QuilError (Records Node × Sequences)
  | s, sequences, [] => .ok (s, sequences)
  | s, sequences, seq :: rest => do
    let (s, sequences) ← moveItem lane app block width s sequences seq
    moveItems lane app block width s sequences rest

/-- The orphaned block ends at what it holds; written LAST, over any count its own items took. -/
def endBlock (sequences : Sequences) (block held committed : ℕ) : Sequences :=
  if held < committed then Function.update sequences block (some held) else sequences

/-- Apply an orphaned block's attested `(coins, escrows)`; returns whether anything was applied. -/
def applyOrphanAttestation (s : Records Node) (app : Bytes32) (block coins escrows : ℕ) :
    Except QuilError (Bool × Records Node) := do
  match ← orphan s app block with
  | none => return (false, s)
  | some existing =>
    if existing.moved then
      if (existing.coins, existing.escrows) ≠ (coins, escrows) then
        .error (invalid "an orphaned block attested with different counts")
      else return (false, s)
    else
      let committed ← blockSequence s app block
      let committedEscrows ← escrowSequence s app block
      if coins > committed ∨ escrows > committedEscrows then
        .error (invalid "an orphaned block attested more than was committed to it")
      else
        let width ← placementWidth s app
        let (s, sequences) ← moveItems .coin app block width s (fun _ => none)
          (List.range' coins (committed - coins))
        let (s, escrowSequences) ← moveItems .escrow app block width s (fun _ => none)
          (List.range' escrows (committedEscrows - escrows))
        let s := writeSequences .coin s app (endBlock sequences block coins committed)
        let s := writeSequences .escrow s app
          (endBlock escrowSequences block escrows committedEscrows)
        let s := s.write (orphanAddress app block)
          (.orphan ⟨existing.since, true, coins, escrows⟩)
        return (true, s)

/-! ### What reconciling and attesting leave alone -/

variable {s s' : Records Node} {frame : ℕ} {app : Bytes32} {registered : List (List Bool)} {block : ℕ} {n : ℕ × ℕ}

/-- The three ways one block is reconciled. -/
theorem reconcileBlock_ok (h : reconcileBlock s frame app registered block = .ok (n, s')) : s' = s ∨
    (∃ o, s (.orphan app block) = some (.orphan o) ∧ o.moved = false ∧ s' = s.clear (.orphan app block)) ∨
    (s (.orphan app block) = none ∧ s' = s.write (.orphan app block) (.orphan ⟨frame, false, 0, 0⟩)) := by
  obtain ⟨o, ho, h⟩ := bind_ok h
  cases o with
  | none =>
    by_cases hown : (registered.any fun shard => shardOwnsBlock shard block) = true
    · simp only [hown, if_true, pure_eq_ok, Except.ok.injEq, Prod.mk.injEq] at h
      exact .inl h.2.symm
    simp only [hown] at h
    obtain ⟨a, -, h⟩ := bind_ok h
    obtain ⟨b, -, h⟩ := bind_ok h
    by_cases hpos : a + b > 0
    · simp only [hpos, if_true, pure_eq_ok, Except.ok.injEq, Prod.mk.injEq] at h
      exact .inr (.inr ⟨read_eq_ok_none.1 ho, h.2.symm⟩)
    · simp only [hpos, if_false, pure_eq_ok, Except.ok.injEq, Prod.mk.injEq] at h
      exact .inl h.2.symm
  | some o =>
    by_cases hown : ((registered.any fun shard => shardOwnsBlock shard block) && !o.moved) = true
    · simp only [hown, if_true, pure_eq_ok, Except.ok.injEq, Prod.mk.injEq] at h
      have hmoved : o.moved = false := by simp at hown; exact hown.2
      exact .inr (.inl ⟨o, orphan_ok_some.1 ho, hmoved, h.2.symm⟩)
    · simp only [hown, Bool.false_eq_true, if_false, pure_eq_ok, Except.ok.injEq, Prod.mk.injEq] at h
      exact .inl h.2.symm

variable {a : RecordAddress}

theorem reconcileBlock_other (h : reconcileBlock s frame app registered block = .ok (n, s'))
    (ha : ∀ b, a ≠ .orphan app b) : s' a = s a := by
  rcases reconcileBlock_ok h with rfl | ⟨o, -, -, rfl⟩ | ⟨-, rfl⟩
  · rfl
  · exact clear_other _ (ha _)
  · exact write_other (ha _)

/-- What holds of the records and survives reconciling one block survives reconciling a list. -/
theorem reconcileBlocks_induction {registered : List (List Bool)} {P : Records Node → Prop}
    (hstep : ∀ s s' block n, P s → reconcileBlock s frame app registered block = .ok (n, s') → P s') :
    ∀ (blocks : List ℕ) {s s' : Records Node} {n : ℕ × ℕ}, P s →
      reconcileBlocks frame app registered s blocks = .ok (n, s') → P s'
  | [], s, s', n, hP, h => by cases h; exact hP
  | block :: rest, s, s', n, hP, h => by
    obtain ⟨⟨here, s₁⟩, h₁, h⟩ := bind_ok h
    obtain ⟨⟨later, s₂⟩, h₂, h⟩ := bind_ok h
    cases h
    exact reconcileBlocks_induction hstep rest (hstep _ _ _ _ hP h₁) h₂

theorem reconcileOrphans_other {removed : List (List Bool)}
    (h : reconcileOrphans s frame app registered removed = .ok (n, s'))
    (ha : ∀ b, a ≠ .orphan app b := by simp) : s' a = s a :=
  reconcileBlocks_induction (P := fun s' => s' a = s a)
    (fun _ _ _ _ hP h => (reconcileBlock_other h ha).trans hP) _ rfl h

theorem moveItem_ok {lane : Lane} {width seq : ℕ} {sequences sequences' : Sequences}
    (h : moveItem lane app block width s sequences seq = .ok (s', sequences')) :
    ∃ record target next, laneDelivery lane s app block seq = .ok (some record) ∧
      blockForAddress width record.address = .ok target ∧
      nextSequence lane s app sequences target = .ok next ∧ next < BLOCK_CAPACITY ∧
      s' = (s.write (.delivery lane app target next) (.delivery lane record)).write
        (.delivery lane app block seq) (.moved lane record.address target next) ∧
      sequences' = Function.update sequences target (some (next + 1)) := by
  obtain ⟨_ | record, hr, h⟩ := bind_ok h
  · simp at h
  obtain ⟨target, ht, h⟩ := bind_ok h
  obtain ⟨next, hn, h⟩ := bind_ok h
  by_cases hfull : next ≥ BLOCK_CAPACITY
  · simp [hfull] at h
  · simp only [hfull, if_false, pure_eq_ok, Except.ok.injEq, Prod.mk.injEq] at h
    exact ⟨record, target, next, hr, ht, hn, not_le.1 hfull, h.1.symm, h.2.symm⟩

theorem moveItems_other {lane : Lane} {block width : ℕ} {a : RecordAddress} (ha : ∀ b i, a ≠ .delivery lane app b i) :
    ∀ (seqs : List ℕ) {s s' : Records Node} {sequences sequences' : Sequences},
      moveItems lane app block width s sequences seqs = .ok (s', sequences') → s' a = s a
  | [], s, s', _, _, h => by cases h; rfl
  | seq :: rest, s, s', _, _, h => by
    obtain ⟨⟨s₁, sq₁⟩, h₁, h⟩ := bind_ok h
    obtain ⟨record, target, next, -, -, -, -, rfl, -⟩ := moveItem_ok h₁
    rw [moveItems_other ha rest h, write_other (ha _ _), write_other (ha _ _)]

/-- The ways an attestation returns: nothing to do, or both lanes moved and the block retired. -/
theorem applyOrphanAttestation_ok {coins escrows : ℕ} {applied : Bool}
    (h : applyOrphanAttestation s app block coins escrows = .ok (applied, s')) : (applied = false ∧ s' = s) ∨
    ∃ existing committed committedEscrows width s₁ s₂ sequences escrowSequences,
      applied = true ∧ s (.orphan app block) = some (.orphan existing) ∧ existing.moved = false ∧
      laneSequence .coin s app block = .ok committed ∧ laneSequence .escrow s app block = .ok committedEscrows ∧
      coins ≤ committed ∧ escrows ≤ committedEscrows ∧ placementWidth s app = .ok width ∧
      moveItems .coin app block width s (fun _ => none)
        (.range' coins (committed - coins)) = .ok (s₁, sequences) ∧
      moveItems .escrow app block width s₁ (fun _ => none)
        (.range' escrows (committedEscrows - escrows)) = .ok (s₂, escrowSequences) ∧
      s' = (writeSequences .escrow (writeSequences .coin s₂ app (endBlock sequences block coins committed)) app
          (endBlock escrowSequences block escrows committedEscrows)).write
        (.orphan app block) (.orphan ⟨existing.since, true, coins, escrows⟩) := by
  obtain ⟨_ | existing, ho, h⟩ := bind_ok h
  · cases h; exact .inl ⟨rfl, rfl⟩
  cases hmoved : existing.moved with
  | true =>
    simp only [hmoved, if_true] at h
    split_ifs at h
    cases h; exact .inl ⟨rfl, rfl⟩
  | false =>
    simp only [hmoved, Bool.false_eq_true, if_false] at h
    obtain ⟨committed, hc, h⟩ := bind_ok h
    obtain ⟨committedEscrows, he, h⟩ := bind_ok h
    split_ifs at h with hmore
    obtain ⟨width, hw, h⟩ := bind_ok h
    obtain ⟨⟨s₁, sq⟩, h₁, h⟩ := bind_ok h
    obtain ⟨⟨s₂, esq⟩, h₂, h⟩ := bind_ok h
    cases h
    exact .inr ⟨existing, committed, committedEscrows, width, s₁, s₂, sq, esq, rfl, orphan_ok_some.1 ho, hmoved,
      hc, he, by omega, by omega, hw, h₁, h₂, rfl⟩

theorem applyOrphanAttestation_other {coins escrows : ℕ} {applied : Bool}
    (h : applyOrphanAttestation s app block coins escrows = .ok (applied, s'))
    (hd : ∀ lane b i, a ≠ .delivery lane app b i := by simp) (hs : ∀ lane b, a ≠ .sequence lane app b := by simp)
    (ho : ∀ b, a ≠ .orphan app b := by simp) : s' a = s a := by
  rcases applyOrphanAttestation_ok h with
    ⟨-, rfl⟩ | ⟨_, _, _, _, s₁, s₂, _, _, -, -, -, -, -, -, -, -, h₁, h₂, rfl⟩
  · rfl
  · rw [write_other (ho _), writeSequences_other _ _ (hs _), writeSequences_other _ _ (hs _),
      moveItems_other (hd _) _ h₂, moveItems_other (hd _) _ h₁]

end Quil.Orphans
