import Quilibrium.Token.GlobalAccumulator

/-! The global accumulator over whole runs: reports of any shards of any applications, in any order and at any depths,
    between any other calls on the GLOBAL records. The LEDGER of an application lists the layers of its successful
    reports that were neither stale nor frozen when they came. The index is exactly the ledger's standing claims, in
    order. -/

namespace Quil.ReportRun
open Schemes ShardedTree GlobalRecords Orphans GlobalAccumulator Store
open CoinBlocks hiding invalid
open GlobalCommit hiding invalid MAX_DEPTH
open ShardAccumulator hiding invalid
open CommitRun (Steps steps_step)

variable {Node : Type}

/-- Whether a call publishes a root history. -/
def publishes : CommitRun.Call Node → Bool
  | .publish _ _ => true
  | _ => false

/-- A call on the GLOBAL records: a header's report, or a call that publishes no root. -/
inductive Call (Node : Type) where
  | report (frame : ℕ) (app : Bytes32) (shard : List Bool)
      (report : Option (ShardReport Node))
  | other (call : { c : CommitRun.Call Node // publishes c = false })

inductive Reply where
  | reported (changed : Bool)
  | other (reply : CommitRun.Reply)
  | failed (e : QuilError)

variable [DecidableEq Node] (m : Membership Node) (env : Env Node)

/-- One call; a failed report leaves the records as they were. -/
def step (s : Records Node) : Call Node → Records Node × Reply
  | .report frame app shard report =>
    match materializeReport m env s frame app shard report with
    | .ok (changed, s') => (s', .reported changed)
    | .error e => (s, .failed e)
  | .other call => ((CommitRun.step env s call.1).1, .other (CommitRun.step env s call.1).2)

/-- The application's index entries. -/
def indexOf (s : Records Node) (app : Bytes32) : Index :=
  match s (.index app) with
  | some (.index _ entries) => entries
  | _ => []

/-- Whether a layer is neither stale — fewer coins than its record — nor frozen under an ancestor. -/
def isFresh (s : Records Node) (app : Bytes32) (shard : List Bool) (t : SubtreeReport Node) :
    Bool :=
  match placementWidth s app with
  | .ok placement => fresh placement (indexOf s app) s app shard t
  | .error _ => false

section
variable (p : Records Node → Bytes32 → List Bool → SubtreeReport Node → Bool)

/-- The layers meeting `p` that a successful call reports for an application. -/
def layersOf (s : Records Node) (app : Bytes32) : Call Node → List (Region ℕ × ℕ × Node)
  | .report frame application' shard (some report) =>
    if application' = app ∧
        (materializeReport m env s frame application' shard (some report)).toBool then
      (report.subtrees.filter (p s app shard)).map (claimOf shard)
    else []
  | _ => []

/-- All such layers of a run, in order. -/
def ledger (app : Bytes32) : Records Node → List (Call Node) → List (Region ℕ × ℕ × Node)
  | _, [] => []
  | s, call :: calls => layersOf m env p s app call ++ ledger app (step m env s call).1 calls

end

/-- The accumulator's records. -/
def IsAccumulator (app : Bytes32) : RecordAddress → Prop
  | .subtree a _ _ => a = app
  | .index a => a = app
  | .rootHistory a => a = app
  | _ => False

/-- Where an application's accumulator stands: nothing reported, or published as its ledgers say. -/
inductive Settled (m : Membership Node) (s : Records Node) (app : Bytes32) :
    List (Region ℕ × ℕ × Node) → List (Region ℕ × ℕ × Node) → Prop where
  | empty {heard} (h : ∀ a, IsAccumulator app a → s a = none) :
      Settled m s app [] heard
  | published {context index list history ledger heard}
      (h : Published m s app context index list history ledger heard) :
      Settled m s app ledger heard

/-! ### What leaves the accumulator alone -/

variable {context : Bytes32} {index : Index} {list : List (ℕ × List Bool × ℕ × Node)} {frame : ℕ}
  {a : RecordAddress}

section
variable {m : Membership Node} {env : Env Node} {s s' : Records Node} {app : Bytes32}
  {ledger heard : List (Region ℕ × ℕ × Node)}

omit [DecidableEq Node] in
theorem staged_congr (h : Staged s app context index list ledger heard)
    (hs : ∀ a, IsAccumulator app a → a ≠ .rootHistory app → s' a = s a) :
    Staged s' app context index list ledger heard := by
  have hindex := hs (.index app) rfl nofun
  have hentry : entrySubtree s' app = entrySubtree s app := funext fun entry =>
    entrySubtree_congr (hs (.subtree app entry.1 entry.2) rfl nofun)
  refine ⟨h.follows.congr fun w p => hs _ rfl nofun, by rw [hindex, h.indexed], h.sorted, ?_, ?_⟩
  · rw [← h.listed, subtrees, subtrees, readIndex, readIndex, read_congr _ hindex, hentry]
  · rw [hentry, h.entries]

omit [DecidableEq Node] in
theorem Settled.congr (h : Settled m s app ledger heard)
    (hs : ∀ a, IsAccumulator app a → s' a = s a) : Settled m s' app ledger heard := by
  cases h with
  | empty h => exact .empty fun a ha => by rw [hs a ha, h a ha]
  | published h =>
    exact .published ⟨staged_congr h.toStaged fun a ha _ => hs a ha,
      by rw [hs (.rootHistory app) rfl, h.recorded], h.folded, h.published⟩

theorem IsAccumulator.ne {b : RecordAddress} (ha : IsAccumulator app a) (hb : ¬ IsAccumulator app b) : a ≠ b := by
  rintro rfl
  exact hb ha

omit [DecidableEq Node] in
/-- A commit touches no accumulator record. -/
theorem commitEntry_accumulator {application' : Bytes32} {entry : SpendEntry} {sourceShard : ShardPath} {o : Outcome}
    (h : commitEntry env s frame application' entry sourceShard = .ok (o, s')) (ha : IsAccumulator app a) :
    s' a = s a := by
  rcases commitEntry_cases h with ⟨-, rfl, -⟩ | ⟨-, -, ⟨reason, s₁, hprep, heq⟩ | hcommit⟩
  · rfl
  · cases heq
    rw [write_other (ha.ne id), hprep a (ha.ne id) (ha.ne id)]
  obtain ⟨-, s₁, width, placements, sequences, hprep, -, -, -, hwrite⟩ := hcommit
  obtain ⟨s₂, s₃, placed, hclaim, hcreate, -, rfl⟩ := writeCommit_ok hwrite
  rw [write_tail_other (fun _ _ => ha.ne id) (fun _ => ha.ne id) (fun _ => ha.ne id) (ha.ne id),
    writeCreate_other hcreate (fun _ _ => ha.ne id) (fun _ _ => ha.ne id) (fun _ => ha.ne id),
    writeClaim_other hclaim (fun _ _ => ha.ne id),
    writeConsumptions_other _ _ (fun _ => ha.ne id), hprep a (ha.ne id) (ha.ne id)]

omit [DecidableEq Node] in
/-- Calls that publish no root touch no accumulator record. -/
theorem other_accumulator {call : CommitRun.Call Node} (hcall : publishes call = false)
    (ha : IsAccumulator app a) : (CommitRun.step env s call).1 a = s a := by
  have h := steps_step env s call
  generalize CommitRun.step env s call = r at h ⊢
  cases h with
  | failed => rfl
  | commit h => exact commitEntry_accumulator h ha
  | raise h => exact raisePlacementWidth_prepared h a (ha.ne id) (ha.ne id)
  | reconcile h => exact reconcileOrphans_other h fun _ => ha.ne id
  | attest h =>
    exact applyOrphanAttestation_other h (fun _ _ _ => ha.ne id) (fun _ _ => ha.ne id)
      fun _ => ha.ne id
  | publish => cases hcall

/-! ### A report adds its fresh layers to the ledger -/

omit [DecidableEq Node] in
/-- Attestations touch neither accumulator records nor the placement width. -/
theorem attestations_accumulator {attestations : List BlockAttestation}
    (h : applyAttestations app s attestations = .ok s') : (∀ a, IsAccumulator app a → s' a = s a) ∧
      s' (.placementWidth app) = s (.placementWidth app) := by
  refine ⟨fun a ha => ?_, applyAttestations_other (by simp) (by simp) (by simp) h⟩
  exact applyAttestations_other (fun _ _ _ => ha.ne id) (fun _ _ => ha.ne id)
    (fun _ => ha.ne id) h

omit [DecidableEq Node] in
/-- A stored index is read in its own context. -/
theorem staged_context (h : Staged s app context index list ledger heard) {recorded : Option (Bytes32 × Index)}
    (hread : readIndex s app = .ok recorded) {c : Bytes32} (hc : (recorded.getD (c, [])).1 = c) :
    context = c ∧ (recorded.getD (c, [])).2 = index := by
  obtain ⟨stored, hstored, hread⟩ := bind_ok hread
  rw [GlobalRecords.read, h.indexed] at hstored
  cases hstored
  dsimp only at hread
  split_ifs at hread
  cases hread
  exact ⟨hc, rfl⟩

omit [DecidableEq Node] in
/-- The index a report starts from follows the ledgers, in the report's context. -/
theorem Settled.start (h : Settled m s app ledger heard) {recorded : Option (Bytes32 × Index)}
    (hread : readIndex s app = .ok recorded) {c : Bytes32} (hc : (recorded.getD (c, [])).1 = c) :
    Follows app c (recorded.getD (c, [])).2 s ledger heard ∧ indexOf s app = (recorded.getD (c, [])).2 := by
  cases h with
  | empty h =>
    obtain ⟨stored, hstored, hrest⟩ := bind_ok hread
    rw [GlobalRecords.read, h (.index app) rfl] at hstored
    cases hstored
    cases hrest
    refine ⟨⟨fun r => ?_, List.nodup_nil, fun r hr => ?_, fun r v hv => ?_, fun r v hv => ?_, fun w p t ht => ?_⟩, ?_⟩
    · simp [not_stands_nil]
    · exact absurd hr List.not_mem_nil
    · exact absurd hv (not_stands_nil r v)
    · exact absurd hv (not_stands_nil r v)
    · rw [h (.subtree app w p) rfl] at ht
      cases ht
    · rw [indexOf, h (.index app) rfl]
      rfl
  | published h =>
    obtain ⟨rfl, hindex⟩ := staged_context h.toStaged hread hc
    exact ⟨hindex ▸ h.follows, by rw [indexOf, h.indexed, hindex]⟩

variable {shard : List Bool}

/-- A staged report adds its fresh layers to the ledger, whether or not anything changed. -/
theorem Settled.stage (h : Settled m s app ledger heard) {report : ShardReport Node}
    {folded : Option (ℕ × List (ℕ × List Bool × Node))} (hverify : verifyReport shard report = .ok ())
    (hstage : stageReport env s frame app shard report = .ok (s', folded)) : folded = none ∧ Settled m s' app
        (ledger ++ (report.subtrees.filter (isFresh s app shard)).map (claimOf shard))
        (heard ++ (report.subtrees.filter (current s app shard)).map (claimOf shard)) ∨
      ∃ coins found sorted list, folded = some (coins, found) ∧ Staged s' app report.context sorted list
          (ledger ++ (report.subtrees.filter (isFresh s app shard)).map (claimOf shard))
          (heard ++ (report.subtrees.filter (current s app shard)).map (claimOf shard)) ∧
        found = list.map (fun t => (t.1, t.2.1, t.2.2.2)) ∧ coins = (list.map fun t => t.2.2.1).sum := by
  obtain ⟨s₁, recorded, placement, index', s₂, changed, hattest, hread, hcontext, hplacement,
    hrecord, hend⟩ := stageReport_ok hstage
  obtain ⟨hdistinct, howned⟩ := verifyReport_ok hverify
  obtain ⟨hsame, hwidth⟩ := attestations_accumulator hattest
  have h₁ := h.congr hsame
  obtain ⟨hfollows, hindex⟩ := h₁.start hread hcontext
  have hcurrent : ∀ t ∈ report.subtrees, current s app shard t = current s₁ app shard t := by
    intro t _
    rw [current, current, hsame (.subtree app t.width shard) rfl]
  have hfresh : ∀ t ∈ report.subtrees, isFresh s app shard t =
      fresh placement (recorded.getD (report.context, [])).2 s₁ app shard t := by
    intro t ht
    rw [isFresh, ← placementWidth_congr hwidth, hplacement]
    dsimp only
    rw [← hindex, indexOf, indexOf, hsame (.index app) rfl, fresh, fresh, hcurrent t ht]
  obtain ⟨hnew, hunchanged, -⟩ :=
    recordSubtrees_ok hdistinct howned hfresh hcurrent hfollows hrecord
  rcases hend with ⟨rfl, rfl, rfl⟩ | ⟨rfl, coins, found, rfl, hstore⟩
  · refine .inl ⟨rfl, ?_⟩
    obtain ⟨rfl, rfl⟩ := hunchanged rfl
    cases h₁ with
    | empty hnone =>
      have hnil := eq_nil_of_not_stands fun r v hv => by
        have := (hnew.mem r).2 ⟨v, hv⟩
        rw [← hindex, indexOf, hnone (.index app) rfl] at this
        exact List.not_mem_nil this
      rw [hnil]
      exact .empty hnone
    | published h₁ =>
      obtain ⟨hsame, hentries⟩ := staged_context h₁.toStaged hread hcontext
      rw [hentries, ← hsame] at hnew
      exact .published ⟨⟨hnew, h₁.indexed, h₁.sorted, h₁.listed, h₁.entries⟩, h₁.recorded, h₁.folded, h₁.published⟩
  · obtain ⟨sorted, list, hstaged, hfound, hcoins⟩ := storeIndex_ok hnew hstore
    exact .inr ⟨coins, found, sorted, list, rfl, hstaged, hfound, hcoins⟩

omit [DecidableEq Node] in
/-- A staged index, folded, is published. -/
theorem staged_publish (h : Staged s app context index list ledger heard) {history : History Node}
    (hpublish : publishRoot m env app context (list.map fun t => t.2.2.1).sum
      (list.map fun t => (t.1, t.2.1, t.2.2.2)) s = .ok (s.write (.rootHistory app) (.rootHistory history))) :
    Published m (s.write (.rootHistory app) (.rootHistory history)) app context index list history ledger heard := by
  obtain ⟨history', heq, hroot, hcurrent⟩ := publishRoot_ok hpublish
  obtain rfl : history = history' := by
    have := congrFun heq (.rootHistory app)
    rw [write_same, write_same] at this
    cases this
    rfl
  exact ⟨staged_congr h fun a _ ha => write_other ha, write_same _ _ _, hroot, hcurrent⟩

/-- A report that succeeds appends its fresh layers to the ledger. -/
theorem Settled.report (h : Settled m s app ledger heard) {frame : ℕ} {report : ShardReport Node}
    {changed : Bool} (hok : materializeReport m env s frame app shard (some report) = .ok (changed, s')) :
    Settled m s' app (ledger ++ (report.subtrees.filter (isFresh s app shard)).map (claimOf shard))
      (heard ++ (report.subtrees.filter (current s app shard)).map (claimOf shard)) := by
  obtain ⟨hverify, s₁, folded, hstage, hend⟩ := materializeReport_ok hok
  rcases h.stage hverify hstage with ⟨rfl, h₁⟩ | ⟨coins, found, sorted, list, rfl, h₁, rfl, rfl⟩
  · rcases hend with ⟨-, rfl⟩ | ⟨coins, found, hsome, -⟩
    · exact h₁
    · cases hsome
  rcases hend with ⟨hnone, -⟩ | ⟨coins', found', hsome, hpublish⟩
  · cases hnone
  cases hsome
  obtain ⟨history, rfl, hroot, hcurrent⟩ := publishRoot_ok hpublish
  exact .published ⟨staged_congr h₁ fun a _ ha => write_other ha, write_same _ _ _, hroot, hcurrent⟩

/-- A report for one application touches no accumulator record of another. -/
theorem report_other {application' : Bytes32} (hne : application' ≠ app) {report : ShardReport Node} {changed : Bool}
    (hok : materializeReport m env s frame application' shard (some report) = .ok (changed, s'))
    (ha : IsAccumulator app a) : s' a = s a := by
  obtain ⟨-, s₁, folded, hstage, hend⟩ := materializeReport_ok hok
  obtain ⟨s₂, recorded, placement, index', s₃, changed, hattest, -, -, -, hrecord, hstaged⟩ :=
    stageReport_ok hstage
  have h₃ : s₃ a = s a := by
    rw [recordSubtrees_other (fun _ => ha.ne hne) hrecord]
    exact applyAttestations_other (fun _ _ _ => ha.ne id) (fun _ _ => ha.ne id)
      (fun _ => ha.ne id) hattest
  have h₁ : s₁ a = s a := by
    rcases hstaged with ⟨-, -, rfl⟩ | ⟨-, coins, found, -, hstore⟩
    · exact h₃
    · rw [storeIndex_other (ha.ne hne) hstore, h₃]
  rcases hend with ⟨-, rfl⟩ | ⟨coins, found, -, hpublish⟩
  · exact h₁
  · obtain ⟨history, rfl, -⟩ := publishRoot_ok hpublish
    rw [write_other (ha.ne (b := .rootHistory application') hne), h₁]

/-! ### Whole runs -/

/-- Every call keeps the accumulator settled, with its fresh layers added to the ledger. -/
theorem settled_step (env : Env Node) (h : Settled m s app ledger heard) (call : Call Node) :
    Settled m (step m env s call).1 app (ledger ++ layersOf m env isFresh s app call)
      (heard ++ layersOf m env current s app call) := by
  rcases call with ⟨frame, application', shard, _ | report⟩ | call
  · simpa [step, layersOf, materializeReport] using h
  · rcases hok : materializeReport m env s frame application' shard (some report) with e | r
    · simpa [step, layersOf, hok, Except.toBool] using h
    obtain ⟨changed, s'⟩ := r
    by_cases happ : application' = app
    · subst happ
      simpa [step, layersOf, hok, Except.toBool] using h.report hok
    · simpa [step, layersOf, hok, happ] using h.congr fun a ha => report_other happ hok ha
  · simpa [step, layersOf] using h.congr fun a ha => other_accumulator call.2 ha

theorem settled_run (calls : List (Call Node)) (h : Settled m s app ledger heard) :
    Settled m (run (step m env) s calls).1 app (ledger ++ ReportRun.ledger m env isFresh app s calls)
      (heard ++ ReportRun.ledger m env current app s calls) := by
  induction calls generalizing s ledger heard with
  | nil => simpa [ReportRun.ledger] using h
  | cons call calls ih =>
    have hrest := ih (settled_step env h call)
    rwa [List.append_assoc, List.append_assoc] at hrest

end

/-- After any calls, an application's accumulator is empty, or its index is sorted, prefix-free in each
    width and lists exactly the fresh layers no later fresh layer overlaps; every entry's record is the
    last layer that covers it and was not stale; the published root and coin count are the index's fold
    and sum; and no further report, whatever it carries, comes to a fold that fails. -/
theorem accumulator_follows_ledger (calls : List (Call Node)) (app : Bytes32) :
    let s := (run (step m env) Store.empty calls).1
    let freshLayers := ledger m env isFresh app Store.empty calls
    let currentLayers := ledger m env current app Store.empty calls
    (freshLayers = [] ∧ (∀ a, IsAccumulator app a → s a = none) ∨ ∃ context index list history,
        s (.index app) = some (.index context index) ∧
        (index.Pairwise fun e e' => sortKey e < sortKey e') ∧
        (index.Pairwise fun e e' => ¬ Overlaps e e') ∧
        (∀ e, e ∈ index ↔ ∃ v, Stands freshLayers e v) ∧
        (∀ e ∈ index, ∃ coins root, lastCovering currentLayers e = some (e, coins, root) ∧
          s (.subtree app e.1 e.2) = some (.subtree ⟨context, coins, root⟩)) ∧
        subtrees s app = .ok list ∧ list.map (fun t => (t.1, t.2.1)) = index ∧
        s (.rootHistory app) = some (.rootHistory history) ∧
        foldApplicationRoot m context (list.map fun t => (t.1, t.2.1, t.2.2.2)) = .ok history.current.root ∧
        history.current = ⟨context, DEPTH, (list.map fun t => t.2.2.1).sum, history.current.root⟩) ∧
    ∀ frame shard report s' coins found, verifyReport shard report = .ok () →
      stageReport env s frame app shard report = .ok (s', some (coins, found)) →
      ∃ root, foldApplicationRoot m report.context found = .ok root := by
  intro s freshLayers currentLayers
  have hsettled : Settled m s app freshLayers currentLayers :=
    @settled_run Node _ m env Store.empty app [] [] calls (.empty fun _ _ => rfl)
  refine ⟨?_, fun frame shard report s' coins found hverify hstage => ?_⟩
  · generalize freshLayers = fresh, currentLayers = heard at hsettled ⊢
    cases hsettled with
    | empty h => exact .inl ⟨rfl, h⟩
    | @published context index list history ledger heard h =>
      refine .inr ⟨context, index, list, history, h.indexed, h.sorted, h.follows.disjoint,
        h.follows.mem, fun e he => ?_, h.listed, entries_of_mapM h.entries, h.recorded, h.folded,
        h.published⟩
      obtain ⟨v, hv⟩ := (h.follows.mem e).1 he
      exact ⟨v.1, v.2, h.follows.covered e v hv, h.follows.record e v hv⟩
  rcases hsettled.stage hverify hstage with ⟨hnone, -⟩ | ⟨_, _, sorted, list, hsome, h, rfl, -⟩
  · cases hnone
  · cases hsome
    exact h.follows.folds m h.entries

end Quil.ReportRun
