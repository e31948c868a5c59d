import Quilibrium.Token.CommitRun

/-! What a REJECTED spend leaves behind. The decision of one transaction is read by no other call, so records that
    differ only there answer every other call alike, for good (`run_write_decision`). A rejection that writes nothing
    but its decision therefore leaves no trace. `commitEntry` does write more in two cases: it records the context of
    an application that has none BEFORE it checks the entry, and it raises the placement width BEFORE it finds a block
    full. These two cases are all. -/

namespace Quil.Rejection
open Schemes GlobalRecords GlobalCommit Orphans CommitRun Store
open CoinBlocks hiding invalid

variable {Node : Type} {env : Env Node} {s : Records Node}

/-- Steps that commute with a map, in sequence. -/
theorem bind_map {α α' β β' : Type} {x : Except QuilError α} {p : α → α'} {q : β → β'} {f : α → Except QuilError β}
    {f' : α' → Except QuilError β'} (h : ∀ a, f' (p a) = (f a).map q) : (x.map p >>= f') = (x >>= f).map q := by
  cases x with
  | error e => rfl
  | ok a => exact h a

theorem bind_same {α β β' : Type} {x : Except QuilError α} {q : β → β'} {f : α → Except QuilError β}
    {f' : α → Except QuilError β'} (h : ∀ a, f' a = (f a).map q) : (x >>= f') = (x >>= f).map q := by
  cases x with
  | error e => rfl
  | ok a => exact h a

/-- The records with one more decision written. -/
def beside (app txId : Bytes32) (v : Record Node) (s : Records Node) : Records Node :=
  s.write (.decision app txId) v

section
variable (app txId : Bytes32) (v : Record Node) {a : RecordAddress}

theorem beside_other (h : a ≠ .decision app txId) : beside app txId v s a = s a := write_other h

theorem beside_write (r : Record Node) (h : a ≠ .decision app txId) :
    (beside app txId v s).write a r = beside app txId v (s.write a r) :=
  write_comm _ _ _ h

/-! ### Reads that do not see the decision -/

theorem read_beside {α : Type} (kind : Record Node → Option α) (h : a ≠ .decision app txId) :
    read (beside app txId v s) a kind = read s a kind :=
  read_congr kind (beside_other _ _ _ h)

section
variable (a : Bytes32)

@[simp] theorem isConsumed_beside (m : Bytes32) : isConsumed (beside app txId v s) a m = isConsumed s a m := by
  rw [isConsumed, isConsumed, read_beside _ _ _ _ (by simp)]

@[simp] theorem escrow_beside (x : Bytes32) : escrow (beside app txId v s) a x = escrow s a x :=
  read_beside _ _ _ _ (by simp)

@[simp] theorem laneSequence_beside (lane : Lane) (b : ℕ) :
    laneSequence lane (beside app txId v s) a b = laneSequence lane s a b := by
  rw [laneSequence, laneSequence, read_beside _ _ _ _ (by simp)]

@[simp] theorem laneDelivery_beside (lane : Lane) (b i : ℕ) :
    laneDelivery lane (beside app txId v s) a b i = laneDelivery lane s a b i := by
  rw [laneDelivery, laneDelivery, read_beside _ _ _ _ (by simp), beside_other _ _ _ (by simp)]

@[simp] theorem orphan_beside (b : ℕ) : orphan (beside app txId v s) a b = orphan s a b :=
  read_beside _ _ _ _ (by simp)

@[simp] theorem placementWidth_beside : placementWidth (beside app txId v s) a = placementWidth s a :=
  placementWidth_congr (beside_other _ _ _ (by simp))

@[simp] theorem readRootHistory_beside : readRootHistory (beside app txId v s) a = readRootHistory s a :=
  read_beside _ _ _ _ (by simp)

@[simp] theorem nextSequence_beside (lane : Lane) (sequences : Sequences) (b : ℕ) :
    nextSequence lane (beside app txId v s) a sequences b = nextSequence lane s a sequences b := by
  rw [nextSequence, nextSequence, laneSequence_beside]

/-! ### Checks and placement -/

theorem consumptionRejection_beside (markers : List Bytes32) :
    consumptionRejection (beside app txId v s) a markers = consumptionRejection s a markers := by
  induction markers with
  | nil => rfl
  | cons m rest ih => rw [consumptionRejection, consumptionRejection, isConsumed_beside, ih]

@[simp] theorem rejection_beside (frame : ℕ) (entry : SpendEntry) :
    rejection env (beside app txId v s) frame a entry = rejection env s frame a entry := by
  have hclaim : claimRejection (beside app txId v s) frame a entry.escrowClaim =
      claimRejection s frame a entry.escrowClaim := by
    cases entry.escrowClaim <;> simp [claimRejection]
  have hcreate : createRejection (beside app txId v s) a entry.escrowCreate =
      createRejection s a entry.escrowCreate := by
    cases entry.escrowCreate <;> simp [createRejection]
  rw [rejection, rejection, consumptionRejection_beside, hclaim, hcreate]
  simp [rootRejection]

@[simp] theorem placeOutputs_beside (width : ℕ) (sequences : Sequences) (outputs : List Bytes32) :
    placeOutputs (beside app txId v s) a width sequences outputs = placeOutputs s a width sequences outputs := by
  induction outputs generalizing sequences with
  | nil => rfl
  | cons o rest ih => simp only [placeOutputs, nextSequence_beside, ih]

theorem raisePlacementWidth_beside (depth : ℕ) : raisePlacementWidth (beside app txId v s) a depth =
    (raisePlacementWidth s a depth).map (Prod.map id (beside app txId v)) := by
  rw [raisePlacementWidth, raisePlacementWidth, placementWidth_beside]
  refine bind_same fun current => ?_
  dsimp only
  split_ifs
  · rfl
  · simp [Except.map, beside_write]

/-! ### The writes of a commit -/

theorem writeClaim_beside (claim : Option EscrowClaim) :
    writeClaim (beside app txId v s) a claim = (writeClaim s a claim).map (beside app txId v) := by
  rcases claim with _ | c
  · rfl
  rw [writeClaim, writeClaim, escrow_beside]
  refine bind_same fun found => ?_
  cases found with
  | none => rfl
  | some e => simp [Except.map, beside_write]

variable (entry : SpendEntry) (shard : ShardPath)

theorem writeCreate_beside (width : ℕ) : writeCreate (beside app txId v s) a entry shard width =
    (writeCreate s a entry shard width).map (Prod.map id (beside app txId v)) := by
  rw [writeCreate, writeCreate]
  rcases entry.escrowCreate with _ | c
  · rfl
  simp only [escrowSequence]
  rw [beside_write _ _ _ _ (by simp)]
  refine bind_same fun block => ?_
  rw [laneSequence_beside]
  exact bind_same fun seq => by simp [Except.map, beside_write]

theorem writeConsumptions_beside (tx : Bytes32) (markers : List Bytes32) :
    writeConsumptions (beside app txId v s) a tx markers = beside app txId v (writeConsumptions s a tx markers) :=
  writeAll_write_comm _ _ _ fun kv hkv => by obtain ⟨m, -, rfl⟩ := List.mem_map.1 hkv; simp

theorem writeDeliveries_beside (placements : List Placement) :
    writeDeliveries (beside app txId v s) a entry shard placements =
      beside app txId v (writeDeliveries s a entry shard placements) :=
  writeAll_write_comm _ _ _ fun kv hkv => by obtain ⟨p, -, rfl⟩ := List.mem_map.1 hkv; simp

theorem writeSequences_beside (lane : Lane) (sequences : Sequences) :
    writeSequences lane (beside app txId v s) a sequences = beside app txId v (writeSequences lane s a sequences) :=
  overlay_write_comm _ _ _ rfl

theorem writeSettlement_beside (settlement : Option SettlementEntry) :
    writeSettlement (beside app txId v s) settlement = beside app txId v (writeSettlement s settlement) := by
  rcases settlement with _ | e
  · rfl
  rw [writeSettlement, writeSettlement, beside_other _ _ _ (by simp)]
  split_ifs
  · exact beside_write _ _ _ _ (by simp)
  · rfl

section
variable {a entry} (hne : RecordAddress.decision a entry.txId ≠ .decision app txId) (frame : ℕ)
include hne

theorem writeCommit_beside (width : ℕ) (placements : List Placement) (sequences : Sequences) :
    writeCommit (beside app txId v s) frame a entry shard width placements sequences =
      (writeCommit s frame a entry shard width placements sequences).map (Prod.map id (beside app txId v)) := by
  rw [writeCommit, writeCommit, writeConsumptions_beside, writeClaim_beside]
  refine bind_map fun s₁ => ?_
  rw [writeCreate_beside]
  refine bind_map fun r => ?_
  simp only [Except.map, Prod.map, id_eq, pure_eq_ok, writeDeliveries_beside, writeSequences_beside,
    writeSettlement_beside]
  rw [beside_write _ _ _ _ hne]

theorem commitChecked_beside : commitChecked env (beside app txId v s) frame a entry shard =
    (commitChecked env s frame a entry shard).map (Prod.map id (beside app txId v)) := by
  have hreject : ∀ (s : Records Node) reason, reject (beside app txId v s) frame a entry.txId reason =
        Prod.map id (beside app txId v) (reject s frame a entry.txId reason) :=
    fun s reason => by simp only [reject, Prod.map, id_eq, beside_write _ _ _ _ hne]
  rw [commitChecked, commitChecked, rejection_beside]
  refine bind_same fun r => ?_
  cases r with
  | some reason => simp [Except.map, hreject]
  | none =>
    rw [raisePlacementWidth_beside]
    refine bind_map fun ws => ?_
    simp only [Prod.map, id_eq, placeOutputs_beside]
    refine bind_same fun placed => ?_
    cases placed with
    | none => simp only [pure_eq_ok, hreject]; rfl
    | some ps => exact writeCommit_beside _ _ _ _ hne _ _ _ _

/-- A commit of another transaction does not see the decision. -/
theorem commitEntry_beside : commitEntry env (beside app txId v s) frame a entry shard =
    (commitEntry env s frame a entry shard).map (Prod.map id (beside app txId v)) := by
  have hdec : isDecided (beside app txId v s) a entry.txId = isDecided s a entry.txId := by
    rw [isDecided, isDecided, read_beside _ _ _ _ hne]
  rw [commitEntry, commitEntry, hdec, read_beside _ _ _ _ (by simp)]
  refine bind_same fun _ => bind_same fun b => ?_
  cases b with
  | true => rfl
  | false =>
    simp only [Bool.false_eq_true, if_false]
    refine bind_same fun c => ?_
    rcases c with _ | c
    · dsimp only
      rw [beside_write _ _ _ _ (by simp), commitChecked_beside _ _ _ _ hne]
    dsimp only
    split_ifs
    · simp only [reject, pure_eq_ok, Except.map, Prod.map, id_eq]
      rw [beside_write _ _ _ _ hne]
    · rw [commitChecked_beside _ _ _ _ hne]

end

/-! ### Orphans -/

theorem reconcileBlock_beside (frame : ℕ) (registered : List (List Bool)) (block : ℕ) :
    reconcileBlock (beside app txId v s) frame a registered block =
      (reconcileBlock s frame a registered block).map (Prod.map id (beside app txId v)) := by
  have hclear : (beside app txId v s).clear (.orphan a block) = beside app txId v (s.clear (.orphan a block)) :=
    clear_write_comm _ _ (by simp)
  rw [reconcileBlock, reconcileBlock, orphan_beside]
  refine bind_same fun o => ?_
  cases o with
  | some existing =>
    dsimp only
    split_ifs
    · simp [Except.map, hclear]
    · rfl
  | none =>
    simp only [blockSequence, escrowSequence, laneSequence_beside]
    split_ifs
    · rfl
    refine bind_same fun m => bind_same fun n => ?_
    split_ifs
    · simp [Except.map, beside_write]
    · rfl

theorem reconcileBlocks_beside (frame : ℕ) (registered : List (List Bool)) (blocks : List ℕ) :
    ∀ s : Records Node, reconcileBlocks frame a registered (beside app txId v s) blocks =
      (reconcileBlocks frame a registered s blocks).map (Prod.map id (beside app txId v)) := by
  induction blocks with
  | nil => intro s; rfl
  | cons block rest ih =>
    intro s
    rw [reconcileBlocks, reconcileBlocks, reconcileBlock_beside]
    refine bind_map fun r => ?_
    simp only [Prod.map, id_eq, ih]
    exact bind_map fun _ => rfl

theorem moveItem_beside (lane : Lane) (block width : ℕ) (sequences : Sequences) (seq : ℕ) :
    moveItem lane a block width (beside app txId v s) sequences seq =
      (moveItem lane a block width s sequences seq).map (Prod.map (beside app txId v) id) := by
  rw [moveItem, moveItem, laneDelivery_beside]
  refine bind_same fun r => ?_
  rcases r with _ | record
  · rfl
  refine bind_same fun target => ?_
  rw [nextSequence_beside]
  refine bind_same fun next => ?_
  split_ifs
  · rfl
  · simp [Except.map, beside_write]

theorem moveItems_beside (lane : Lane) (block width : ℕ) (seqs : List ℕ) :
    ∀ (s : Records Node) (sequences : Sequences), moveItems lane a block width (beside app txId v s) sequences seqs =
        (moveItems lane a block width s sequences seqs).map (Prod.map (beside app txId v) id) := by
  induction seqs with
  | nil => intro s sequences; rfl
  | cons seq rest ih =>
    intro s sequences
    rw [moveItems, moveItems, moveItem_beside]
    exact bind_map fun r => ih _ _

theorem applyOrphanAttestation_beside (block coins escrows : ℕ) :
    applyOrphanAttestation (beside app txId v s) a block coins escrows =
      (applyOrphanAttestation s a block coins escrows).map (Prod.map id (beside app txId v)) := by
  rw [applyOrphanAttestation, applyOrphanAttestation, orphan_beside]
  refine bind_same fun o => ?_
  rcases o with _ | existing
  · rfl
  simp only [blockSequence, escrowSequence, laneSequence_beside, placementWidth_beside]
  split_ifs
  · rfl
  · rfl
  refine bind_same fun committed => bind_same fun committedEscrows => ?_
  split_ifs
  · rfl
  refine bind_same fun width => ?_
  rw [moveItems_beside]
  refine bind_map fun r => ?_
  simp only [Prod.map, id_eq, moveItems_beside]
  refine bind_map fun r' => ?_
  simp only [Except.map, Prod.map, id_eq, pure_eq_ok, writeSequences_beside]
  rw [beside_write _ _ _ _ (by simp)]

end

/-! ### Runs -/

/-- The call is not about this transaction of this application. -/
def Avoids : Call Node → Prop
  | .commit _ a entry _ => ¬ (a = app ∧ entry.txId = txId)
  | _ => True

theorem settle_beside {α : Type} (reply : α → Reply) (r : Except QuilError (α × Records Node)) :
    settle (beside app txId v s) reply (r.map (Prod.map id (beside app txId v))) =
      Prod.map (beside app txId v) id (settle s reply r) := by
  cases r <;> rfl

theorem step_beside (call : Call Node) (h : Avoids app txId call) : step env (beside app txId v s) call =
      Prod.map (beside app txId v) id (step env s call) := by
  cases call with
  | commit frame a entry shard =>
    have hne : RecordAddress.decision a entry.txId ≠ .decision app txId := fun he => by
      injection he with h1 h2; exact h ⟨h1, h2⟩
    rw [step, commitEntry_beside _ _ _ _ hne, settle_beside]; rfl
  | raise a depth => rw [step, raisePlacementWidth_beside, settle_beside]; rfl
  | reconcile frame a registered removed => rw [step, reconcileOrphans, reconcileBlocks_beside, settle_beside]; rfl
  | attest a block coins escrows => rw [step, applyOrphanAttestation_beside, settle_beside]; rfl
  | publish a history =>
    simp only [step, Prod.map, id_eq]
    rw [beside_write _ _ _ _ (by simp)]

/-- A decision changes no answer to any run of other calls. -/
theorem run_beside (calls : List (Call Node)) (h : ∀ call ∈ calls, Avoids app txId call) :
    ∀ s : Records Node, run (step env) (beside app txId v s) calls =
      Prod.map (beside app txId v) id (run (step env) s calls) := by
  induction calls with
  | nil => intro s; rfl
  | cons call rest ih =>
    intro s
    rw [run_cons, run_cons, step_beside _ _ _ call (h call List.mem_cons_self)]
    simp only [Prod.map, id_eq]
    rw [ih (fun c hc => h c (List.mem_cons_of_mem _ hc))]
    rfl

end

/-! ### When a rejection leaves no trace -/

/-- The records afterwards are those before but for the transaction's decision, and no run of other
    calls is answered differently. -/
def LeavesNoTrace (env : Env Node) (app txId : Bytes32) (s s' : Records Node) : Prop :=
  (∀ a, a ≠ .decision app txId → s' a = s a) ∧
  ∀ calls, (∀ call ∈ calls, Avoids app txId call) →
    (run (step env) s' calls).2 = (run (step env) s calls).2

/-- Nothing is written before the decision: the application's context is recorded, and the call does
    not reach the placement with a shard deeper than the recorded width. -/
def WritesOnlyDecision (env : Env Node) (s : Records Node) (frame : ℕ) (app : Bytes32)
    (entry : SpendEntry) (shard : ShardPath) : Prop :=
  ∃ context, s (.context app) = some (.context context) ∧
    ¬ (context = entry.context ∧ rejection env s frame app entry = .ok none ∧
      ∃ width, placementWidth s app = .ok width ∧
        width < min ((shard.toBits.map List.length).getD 0) MAX_BLOCK_BITS)

theorem leavesNoTrace_write (env : Env Node) (app txId : Bytes32) (s : Records Node) (r : Record Node) :
    LeavesNoTrace env app txId s (s.write (.decision app txId) r) := by
  refine ⟨fun a ha => write_other ha, fun calls hcalls => ?_⟩
  change (run (step env) (beside app txId r s) calls).2 = _
  rw [run_beside _ _ _ calls hcalls]; rfl

variable {s' : Records Node} {frame : ℕ} {app : Bytes32} {entry : SpendEntry}
  {shard : ShardPath} {reason : String}

/-- A checked entry is rejected by a check, or for want of room at the raised width. -/
theorem commitChecked_rejected (h : commitChecked env s frame app entry shard = .ok (.rejected reason, s')) :
    (rejection env s frame app entry = .ok (some reason) ∧
      s' = s.write (.decision app entry.txId) (.decision (.rejected frame reason))) ∨
    (rejection env s frame app entry = .ok none ∧ ∃ width s₁,
      raisePlacementWidth s app ((shard.toBits.map List.length).getD 0) = .ok (width, s₁) ∧
      s' = s₁.write (.decision app entry.txId) (.decision (.rejected frame reason))) := by
  obtain ⟨r, hr, h⟩ := bind_ok h
  cases r with
  | some reason' =>
    cases h
    exact .inl ⟨hr, rfl⟩
  | none =>
    obtain ⟨⟨width, s₁⟩, hraise, h⟩ := bind_ok h
    obtain ⟨placed, -, h⟩ := bind_ok h
    rcases placed with _ | ps
    · cases h
      exact .inr ⟨hr, width, s₁, hraise, rfl⟩
    obtain ⟨_, _, _, -, -, ho, -⟩ := writeCommit_ok h
    cases ho

/-- Raising changes the recorded width exactly when the depth asks for more. -/
theorem raise_write_iff {depth width : ℕ} {s₁ : Records Node}
    (h : raisePlacementWidth s app depth = .ok (width, s₁)) :
    s₁ = s ∨ (∃ current, placementWidth s app = .ok current ∧ current < min depth MAX_BLOCK_BITS) ∧
      s₁ (.placementWidth app) ≠ s (.placementWidth app) := by
  have hraised := placementWidth_raised h
  obtain ⟨current, hcur, hw, hs₁⟩ := raisePlacementWidth_ok h
  split_ifs at hs₁ with hle
  · exact .inl hs₁
  refine .inr ⟨⟨current, hcur, not_le.1 hle⟩, fun heq => ?_⟩
  rw [placementWidth_congr heq, hcur] at hraised
  cases hraised
  omega

/-- CORRECT. A rejection leaves no trace exactly when nothing was written before the decision. -/
theorem rejection_leaves_no_trace_iff
    (h : commitEntry env s frame app entry shard = .ok (.rejected reason, s')) :
    LeavesNoTrace env app entry.txId s s' ↔
      WritesOnlyDecision env s frame app entry shard := by
  obtain ⟨⟨⟩, -, h⟩ := bind_ok h
  obtain ⟨_ | _, -, h⟩ := bind_ok h
  swap
  · simp at h
  simp only [Bool.false_eq_true, if_false] at h
  obtain ⟨c, hc, h⟩ := bind_ok h
  cases c with
  | none =>
    -- the context is recorded before any check, and stays
    have hnone := read_eq_ok_none.1 hc
    have hctx : s' (.context app) = some (.context entry.context) := by
      have hkeep : ∀ (s₁ : Records Node) (r : Record Node),
          s₁.write (.decision app entry.txId) r (.context app) =
            s₁ (.context app) :=
        fun s₁ r => write_other
      rcases commitChecked_rejected h with ⟨-, rfl⟩ | ⟨-, width, s₁, hraise, rfl⟩
      · rw [hkeep]; exact write_same _ _ _
      obtain ⟨current, -, -, rfl⟩ := raisePlacementWidth_ok hraise
      rw [hkeep]
      split_ifs
      · exact write_same _ _ _
      · exact (write_other).trans (write_same _ _ _)
    constructor
    · intro hno
      have := hno.1 (.context app) (by simp)
      rw [hctx, hnone] at this
      cases this
    · rintro ⟨context, hcontext, -⟩
      rw [hnone] at hcontext
      cases hcontext
  | some c =>
    have hsome : s (.context app) = some (.context c) := by simpa using read_eq_ok_some.1 hc
    by_cases hne : c = entry.context
    · simp only [ne_eq, hne, not_true_eq_false, if_false] at h
      rcases commitChecked_rejected h with ⟨hrej, rfl⟩ | ⟨hrej, width, s₁, hraise, rfl⟩
      · refine iff_of_true (leavesNoTrace_write _ _ _ _ _) ⟨c, hsome, fun hbad => ?_⟩
        rw [hrej] at hbad
        exact absurd hbad.2.1 (by simp)
      rcases raise_write_iff hraise with rfl | ⟨hwide, hchanged⟩
      · refine iff_of_true (leavesNoTrace_write _ _ _ _ _) ⟨c, hsome, ?_⟩
        rintro ⟨-, -, current, hcur, hlt⟩
        obtain ⟨current', hcur', hw, -⟩ := raisePlacementWidth_ok hraise
        have hraised := placementWidth_raised hraise
        rw [hcur] at hraised hcur'
        cases hraised; cases hcur'
        omega
      refine iff_of_false (fun hno => hchanged ?_) fun hok => ?_
      · rw [← hno.1 (.placementWidth app) (by simp)]
        exact (write_other).symm
      obtain ⟨context, hcontext, hnot⟩ := hok
      rw [hsome] at hcontext
      cases hcontext
      exact hnot ⟨hne, hrej, hwide⟩
    · simp only [ne_eq, hne, not_false_eq_true, if_true, reject, pure_eq_ok, Except.ok.injEq,
        Prod.mk.injEq, Outcome.rejected.injEq] at h
      obtain ⟨rfl, rfl⟩ := h
      exact iff_of_true (leavesNoTrace_write _ _ _ _ _) ⟨c, hsome, fun hbad => hne hbad.1⟩

/-- An entry whose root nobody published, under context 4. -/
def unknownRootEntry : SpendEntry :=
  { escrowEntry with txId := 2, context := 4, rootDigest := some 11 }

/-- With the context recorded, the rejected entry leaves no trace. -/
theorem no_trace_with_context :
    LeavesNoTrace plainEnv 1 2 (Store.write Store.empty (.context 1) (.context 4))
      ((Store.write Store.empty (.context 1) (.context 4)).write (.decision 1 2)
        (.decision (.rejected 0 "root is not in the application's canonical history"))) := by
  have h : commitEntry plainEnv (Store.write Store.empty (.context 1) (.context 4)) 0 1
      unknownRootEntry .whole = .ok (.rejected _, _) := rfl
  refine (rejection_leaves_no_trace_iff h).2 ⟨4, rfl, ?_⟩
  rintro ⟨-, hpass, -⟩
  exact absurd hpass (by decide)

/-- A rejected first entry pins the application's context: an entry that would have committed is rejected after it. -/
theorem rejected_entry_pins_context :
    ((run (step plainEnv) Store.empty
      [.commit 0 1 unknownRootEntry .whole, .commit 0 1 escrowEntry .whole]).2.map Prod.snd) =
      [.outcome (.rejected "root is not in the application's canonical history"),
        .outcome (.rejected "context differs from the application's")] ∧
    ((run (step plainEnv) Store.empty [.commit 0 1 escrowEntry .whole]).2.map Prod.snd) =
      [.outcome (.committed 0 [] (some ⟨9, 64, 0⟩))] := by
  decide

end Quil.Rejection
