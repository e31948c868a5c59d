import Quilibrium.Schemes.Run
import Quilibrium.Token.Orphans

/-! The GLOBAL records as a machine: relayed entries, width raises, topology changes, orphan attestations and
    published roots in any order. A call that fails leaves the records as they were — the caller rolls a failed step
    back. The records only GROW: decisions and markers stay, escrows only become consumed. -/

namespace Quil.CommitRun
open Schemes GlobalRecords GlobalCommit Orphans Store
open CoinBlocks hiding invalid

variable {Node : Type}

/-- A call on the GLOBAL records. -/
inductive Call (Node : Type) where
  | commit (frame : ℕ) (app : Bytes32) (entry : SpendEntry) (sourceShard : ShardPath)
  | raise (app : Bytes32) (shardDepth : ℕ)
  | reconcile (frame : ℕ) (app : Bytes32) (registered removed : List (List Bool))
  | attest (app : Bytes32) (block coins escrows : ℕ)
  /-- The accumulator publishes a root history. -/
  | publish (app : Bytes32) (history : History Node)

/-- What a call answers. -/
inductive Reply where
  | outcome (o : Outcome)
  | width (width : ℕ)
  | reconciled (marked released : ℕ)
  | attested (applied : Bool)
  | published
  | failed (e : QuilError)
deriving DecidableEq

/-- Keep a result, or roll back. -/
def settle {α : Type} (s : Records Node) (reply : α → Reply) :
    Except QuilError (α × Records Node) → Records Node × Reply
  | .ok (a, s') => (s', reply a)
  | .error e => (s, .failed e)

/-- One call. -/
def step (env : Env Node) (s : Records Node) : Call Node → Records Node × Reply
  | .commit frame app entry sourceShard => settle s .outcome (commitEntry env s frame app entry sourceShard)
  | .raise app shardDepth => settle s .width (raisePlacementWidth s app shardDepth)
  | .reconcile frame app registered removed =>
    settle s (fun n => .reconciled n.1 n.2)
      (reconcileOrphans s frame app registered removed)
  | .attest app block coins escrows => settle s .attested (applyOrphanAttestation s app block coins escrows)
  | .publish app history => (s.write (rootHistoryAddress app) (.rootHistory history), .published)

/-- A call with its answer. -/
abbrev Event (Node : Type) := Call Node × Reply

/-- The event decides an entry for an application at a frame: the commit answered `o`. -/
def Decides (ev : Event Node) (frame : ℕ) (app : Bytes32) (entry : SpendEntry)
    (sourceShard : ShardPath) (o : Outcome) : Prop :=
  ev = (.commit frame app entry sourceShard, .outcome o)

/-- The event commits an entry. -/
def IsCommit (ev : Event Node) (frame : ℕ) (app : Bytes32) (entry : SpendEntry)
    (sourceShard : ShardPath) : Prop :=
  ∃ placements placed, Decides ev frame app entry sourceShard
    (.committed entry.fee placements placed)

/-- The decision an outcome records. -/
def recorded (frame : ℕ) : Outcome → Option Decision
  | .alreadyDecided => none
  | .rejected reason => some (.rejected frame reason)
  | .committed _ _ _ => some (.committed frame)

/-- What a call can do: fail and change nothing, or return from its function. -/
inductive Steps (env : Env Node) (s : Records Node) : Call Node → Records Node × Reply → Prop where
  | failed (call : Call Node) (e : QuilError) : Steps env s call (s, .failed e)
  | commit {frame app entry sourceShard o s'}
      (h : commitEntry env s frame app entry sourceShard = .ok (o, s')) :
      Steps env s (.commit frame app entry sourceShard) (s', .outcome o)
  | raise {app shardDepth w s'}
      (h : raisePlacementWidth s app shardDepth = .ok (w, s')) :
      Steps env s (.raise app shardDepth) (s', .width w)
  | reconcile {frame app registered removed n s'}
      (h : reconcileOrphans s frame app registered removed = .ok (n, s')) :
      Steps env s (.reconcile frame app registered removed) (s', .reconciled n.1 n.2)
  | attest {app block coins escrows applied s'}
      (h : applyOrphanAttestation s app block coins escrows = .ok (applied, s')) :
      Steps env s (.attest app block coins escrows) (s', .attested applied)
  | publish (app : Bytes32) (history : History Node) :
      Steps env s (.publish app history)
        (s.write (.rootHistory app) (.rootHistory history), .published)

theorem steps_settle {α : Type} {env : Env Node} {s : Records Node} {call : Call Node} {reply : α → Reply}
    {x : Except QuilError (α × Records Node)} (h : ∀ {a s'}, x = .ok (a, s') → Steps env s call (s', reply a)) :
    Steps env s call (settle s reply x) := by
  cases hx : x with
  | error e => exact .failed _ e
  | ok r => exact h hx

theorem steps_step (env : Env Node) (s : Records Node) (call : Call Node) : Steps env s call (step env s call) := by
  cases call with
  | commit frame app entry sourceShard => exact steps_settle .commit
  | raise app depth => exact steps_settle .raise
  | reconcile frame app registered removed => exact steps_settle .reconcile
  | attest app block coins escrows => exact steps_settle .attest
  | publish app history => exact .publish _ _

/-! ### The records only grow -/

/-- Decisions and markers stay; escrows keep their terms and only become consumed. -/
structure Grows (s s' : Records Node) : Prop where
  decision : ∀ a t r, s (.decision a t) = some r → s' (.decision a t) = some r
  consumed : ∀ a m r, s (.consumed a m) = some r → s' (.consumed a m) = some r
  escrow : ∀ a x e, s (.escrow a x) = some (.escrow e) → ∃ c,
    s' (.escrow a x) = some (.escrow { e with consumed := c }) ∧ (e.consumed = true → c = true)

variable {s s' : Records Node} {env : Env Node} {call : Call Node}

/-- Decisions, markers and escrows: what only a commit writes. -/
def Lasting : RecordAddress → Bool
  | .decision _ _ | .consumed _ _ | .escrow _ _ => true
  | _ => false

/-- Addresses of different families differ. -/
theorem ne_of_family {family : RecordAddress → Bool} {a b : RecordAddress} (ha : family a)
    (hb : family b = false := by rfl) : a ≠ b := by
  rintro rfl
  rw [ha] at hb; cases hb

/-- A call is a commit that returns, or it answers no outcome and keeps what lasts. -/
theorem step_cases (env : Env Node) (s : Records Node) (call : Call Node) :
    (∃ frame app entry shard o s', call = .commit frame app entry shard ∧ step env s call = (s', .outcome o) ∧
      commitEntry env s frame app entry shard = .ok (o, s')) ∨
    (∀ o, (step env s call).2 ≠ .outcome o) ∧ ∀ a, Lasting a → (step env s call).1 a = s a := by
  have h := steps_step env s call
  generalize step env s call = r at h
  cases h with
  | failed => exact .inr ⟨by simp, fun _ _ => rfl⟩
  | commit h => exact .inl ⟨_, _, _, _, _, _, rfl, rfl, h⟩
  | raise h => exact .inr ⟨by simp, fun a ha => raisePlacementWidth_prepared h a (ne_of_family ha) (ne_of_family ha)⟩
  | reconcile h => exact .inr ⟨by simp, fun a ha => reconcileOrphans_other h fun _ => ne_of_family ha⟩
  | attest h =>
    exact .inr ⟨by simp, fun a ha => applyOrphanAttestation_other h (fun _ _ _ => ne_of_family ha)
      (fun _ _ => ne_of_family ha) fun _ => ne_of_family ha⟩
  | publish => exact .inr ⟨by simp, fun a ha => write_other (ne_of_family ha)⟩

/-- Records that agree on what lasts grow trivially. -/
theorem grows_of_eq (h : ∀ a, Lasting a → s' a = s a) : Grows s s' where
  decision a t r hr := by rw [h _ rfl, hr]
  consumed a m r hr := by rw [h _ rfl, hr]
  escrow a x e he := ⟨e.consumed, by rw [h _ rfl, he], id⟩

variable {frame : ℕ} {app : Bytes32} {entry : SpendEntry} {o : Outcome}

theorem grows_rejects (hnone : s (.decision app entry.txId) = none)
    (h : Rejects s frame app entry o s') : Grows s s' := by
  obtain ⟨reason, s₁, hprep, ⟨⟩⟩ := h
  have hkeep : ∀ a, a ≠ .decision app entry.txId → a ≠ .context app → a ≠ .placementWidth app →
      (s₁.write (.decision app entry.txId) (.decision (.rejected frame reason))) a = s a :=
    fun a h1 h2 h3 => (write_other h1).trans (hprep a h2 h3)
  refine ⟨fun a t r h => ?_, fun a m r h => ?_, fun a x e h => ⟨e.consumed, ?_, id⟩⟩
  · have hne : RecordAddress.decision a t ≠ .decision app entry.txId := fun heq => by
      rw [heq, hnone] at h; cases h
    rw [← h]; exact hkeep _ hne (by simp) (by simp)
  · rw [← h]; exact hkeep _ (by simp) (by simp) (by simp)
  · rw [show ({ e with consumed := e.consumed } : Escrow) = e from rfl, ← h]
    exact hkeep _ (by simp) (by simp) (by simp)

/-- A structurally valid entry does not both create and claim an escrow. -/
theorem create_none_of_claim {c : EscrowClaim} (hv : entry.validateAt env frame = .ok ())
    (hc : entry.escrowClaim = some c) : entry.escrowCreate = none := by
  rw [SpendEntry.validateAt] at hv
  split_ifs at hv with h1 h2 h3 h4
  simpa [hc] using h4

theorem grows_commits {sourceShard : ShardPath} (hnone : s (.decision app entry.txId) = none)
    (hv : entry.validateAt env frame = .ok ()) (h : Commits s frame app entry sourceShard o s') : Grows s s' := by
  have heff := h.effect
  refine ⟨fun a t r h' => ?_, fun a m r h' => ?_, fun a x e h' => ?_⟩
  · rw [heff.decision, if_neg, h']
    rintro ⟨rfl, rfl⟩
    rw [hnone] at h'; cases h'
  · rw [heff.consumed, if_neg, h']
    rintro ⟨rfl, hm⟩
    rw [h.1.fresh m hm] at h'; cases h'
  -- an existing escrow is not the created one; it is the claimed one or untouched
  have hcreate : ∀ c, entry.escrowCreate = some c → ¬ (a = app ∧ x = c.address) := by
    rintro c hc ⟨rfl, rfl⟩
    rw [h.1.create c hc] at h'; cases h'
  by_cases hclaim : ∃ c, entry.escrowClaim = some c ∧ a = app ∧ x = c.address
  · obtain ⟨c, hc, rfl, rfl⟩ := hclaim
    obtain ⟨e', he', hs'⟩ := heff.claimed c hc (create_none_of_claim hv hc)
    rw [h'] at he'; cases he'
    exact ⟨true, hs', fun _ => rfl⟩
  · refine ⟨e.consumed, ?_, id⟩
    rw [heff.escrowOther a x hcreate fun c hc hax => hclaim ⟨c, hc, hax⟩, h']

theorem grows_step (env : Env Node) (s : Records Node) (call : Call Node) : Grows s (step env s call).1 := by
  rcases step_cases env s call with ⟨frame, app, entry, shard, o, s', -, hs, h⟩ | ⟨-, h⟩
  · rw [hs]
    rcases commitEntry_cases h with ⟨-, rfl, -⟩ | ⟨hnone, hv, hrej | hcom⟩
    · exact grows_of_eq fun _ _ => rfl
    · exact grows_rejects hnone hrej
    · exact grows_commits hnone hv hcom
  · exact grows_of_eq h

/-! ### The marks a decision leaves -/

/-- What a decided entry leaves in the records, for good. -/
def Mark (ev : Event Node) (s : Records Node) : Prop :=
  ∀ frame app entry sourceShard o,
    Decides ev frame app entry sourceShard o →
    (s (.decision app entry.txId)).isSome = true ∧
    (∀ d, recorded frame o = some d → s (.decision app entry.txId) = some (.decision d)) ∧
    (IsCommit ev frame app entry sourceShard →
      (∀ m ∈ entry.consumptions, (s (.consumed app m)).isSome = true) ∧
      (∀ c, entry.escrowCreate = some c → ∃ b, s (.escrow app c.address) =
        some (.escrow ⟨c.binding, c.refundAfterGlobalFrame, b⟩)) ∧
      ∀ c, entry.escrowClaim = some c → ∃ e, s (.escrow app c.address) =
        some (.escrow e) ∧ e.consumed = true)

theorem Mark.grows {ev : Event Node} (h : Mark ev s) (hg : Grows s s') : Mark ev s' := by
  intro frame app entry sourceShard o hd
  obtain ⟨h1, h2, h3⟩ := h frame app entry sourceShard o hd
  refine ⟨?_, fun d hrec => hg.decision _ _ _ (h2 d hrec), fun hc => ?_⟩
  · obtain ⟨r, hr⟩ := Option.isSome_iff_exists.1 h1
    rw [hg.decision _ _ _ hr]; rfl
  obtain ⟨hm, hcr, hcl⟩ := h3 hc
  refine ⟨fun m hmem => ?_, fun c hc' => ?_, fun c hc' => ?_⟩
  · obtain ⟨r, hr⟩ := Option.isSome_iff_exists.1 (hm m hmem)
    rw [hg.consumed _ _ _ hr]; rfl
  · obtain ⟨b, hb⟩ := hcr c hc'
    obtain ⟨b', hb', -⟩ := hg.escrow _ _ _ hb
    exact ⟨b', hb'⟩
  obtain ⟨e, he, hcons⟩ := hcl c hc'
  obtain ⟨b', hb', himp⟩ := hg.escrow _ _ _ he
  exact ⟨_, hb', himp hcons⟩

/-- An outcome other than a commit commits nothing. -/
theorem not_isCommit {ev : Event Node} {sourceShard : ShardPath} (hd : Decides ev frame app entry sourceShard o)
    (ho : ∀ fee ps p, o ≠ .committed fee ps p) : ¬ IsCommit ev frame app entry sourceShard := by
  rintro ⟨ps, p, hc⟩
  rw [Decides, hd] at hc
  simp only [Prod.mk.injEq, Reply.outcome.injEq, true_and] at hc
  exact ho _ _ _ hc

/-- A call that decides an entry is its commit. -/
theorem Decides.commit {shard : ShardPath} (hd : Decides (call, (step env s call).2) frame app entry shard o) :
    ∃ s', (step env s call).1 = s' ∧ commitEntry env s frame app entry shard = .ok (o, s') := by
  obtain ⟨rfl, hreply⟩ := Prod.mk.inj hd
  rcases step_cases env s (.commit frame app entry shard) with ⟨_, _, _, _, o', s', heq, hs, h⟩ | ⟨hno, -⟩
  · rw [hs] at hreply ⊢
    cases heq
    cases hreply
    exact ⟨s', rfl, h⟩
  · exact absurd hreply (hno o)

theorem mark_step (env : Env Node) (s : Records Node) (call : Call Node) :
    Mark (call, (step env s call).2) (step env s call).1 := by
  intro frame app entry sourceShard o hd
  obtain ⟨s', hs, h⟩ := hd.commit
  rw [hs]
  rcases commitEntry_cases h with ⟨rfl, rfl, hdec⟩ | ⟨hnone, hv, ⟨reason, s₁, hprep, ⟨⟩⟩ | hcom⟩
  · exact ⟨hdec, by simp [recorded], fun hc => absurd hc (not_isCommit hd (by simp))⟩
  · refine ⟨by simp, fun d hrec => ?_, fun hc => absurd hc (not_isCommit hd (by simp))⟩
    cases hrec
    exact write_same _ _ _
  have heff := hcom.effect
  obtain ⟨ps, p, rfl⟩ := hcom.outcome
  refine ⟨by simp [heff.decision], fun d hrec => ?_, fun _ => ⟨fun m hm => ?_, fun c hc => ?_, fun c hc => ?_⟩⟩
  · cases hrec; simp [heff.decision]
  · simp [heff.consumed, hm]
  · exact ⟨false, heff.created c hc⟩
  · obtain ⟨e, -, he⟩ := heff.claimed c hc (create_none_of_claim hv hc)
    exact ⟨_, he, rfl⟩

/-! ### A call on marked records -/

/-- What an earlier event allows a later one: see `consume_and_decide_once`. -/
def Compatible (x y : Event Node) : Prop :=
  ∀ frame frame' app entry entry' shard shard' o o',
    Decides x frame app entry shard o → Decides y frame' app entry' shard' o' →
    (entry.txId = entry'.txId → o' = .alreadyDecided) ∧
    (IsCommit x frame app entry shard → IsCommit y frame' app entry' shard' →
      List.Disjoint entry.consumptions entry'.consumptions ∧
      (∀ c c', entry.escrowCreate = some c → entry'.escrowCreate = some c' →
        c.address ≠ c'.address) ∧
      ∀ c c', entry.escrowClaim = some c → entry'.escrowClaim = some c' → c.address ≠ c'.address)

theorem compatible_step (env : Env Node) (x : Event Node) (s : Records Node) (call : Call Node)
    (hmark : Mark x s) : Compatible x (call, (step env s call).2) := by
  intro frame frame' app entry entry' shard shard' o o' hx hy
  obtain ⟨hdec, -, hcom⟩ := hmark _ _ _ _ _ hx
  obtain ⟨s', -, h⟩ := hy.commit
  rcases commitEntry_cases h with ⟨rfl, -, -⟩ | ⟨hnone, hv, ⟨reason, s₁, -, ⟨⟩⟩ | hc'⟩
  · exact ⟨fun _ => rfl, fun _ hc => absurd hc (not_isCommit hy (by simp))⟩
  · refine ⟨fun htx => ?_, fun _ hc => absurd hc (not_isCommit hy (by simp))⟩
    rw [htx, hnone] at hdec; cases hdec
  refine ⟨fun htx => ?_, fun hxc _ => ?_⟩
  · rw [htx, hnone] at hdec; cases hdec
  obtain ⟨hm, hcr, hcl⟩ := hcom hxc
  refine ⟨fun m hm₁ hm₂ => ?_, fun c c' hc hcc heq => ?_, fun c c' hc hcc heq => ?_⟩
  · have := hm m hm₁
    rw [hc'.1.fresh m hm₂] at this; cases this
  · obtain ⟨b, hb⟩ := hcr c hc
    rw [heq, hc'.1.create c' hcc] at hb; cases hb
  obtain ⟨e, he, hcons⟩ := hcl c hc
  obtain ⟨e', he', hnot, -⟩ := hc'.1.claim c' hcc
  rw [← heq, he] at he'
  cases he'
  rw [hcons] at hnot; cases hnot

/-! ### Where escrows come from -/

/-- The event commits an entry that creates this escrow of the application. -/
def Creates (ev : Event Node) (app : Bytes32) (c : EscrowCreate) : Prop :=
  ∃ frame entry sourceShard, IsCommit ev frame app entry sourceShard ∧
    entry.escrowCreate = some c

/-- Every recorded escrow was created by a commit of the trace, under the recorded terms. -/
def Origin (tr : List (Event Node)) (s : Records Node) : Prop :=
  ∀ a x e, s (.escrow a x) = some (.escrow e) → ∃ ev ∈ tr,
    Creates ev a ⟨x, e.binding, e.refundAfter⟩

/-- Where no escrow record changes, origins stay. -/
theorem Origin.of_eq {tr : List (Event Node)} (h : Origin tr s) (he : ∀ a x, s' (.escrow a x) = s (.escrow a x))
    (ev : Event Node) : Origin (tr ++ [ev]) s' := by
  intro a x e hs
  rw [he] at hs
  obtain ⟨ev', hev', hc⟩ := h a x e hs
  exact ⟨ev', List.mem_append_left _ hev', hc⟩

/-- The created escrow is this commit's; a claimed one keeps its terms; others are untouched. -/
theorem Origin.commits {tr : List (Event Node)} {shard : ShardPath} (h : Origin tr s)
    (hv : entry.validateAt env frame = .ok ()) (hcom : Commits s frame app entry shard o s') :
    Origin (tr ++ [(.commit frame app entry shard, .outcome o)]) s' := by
  intro a x e hs'
  have heff := hcom.effect
  obtain ⟨ps, p, rfl⟩ := hcom.outcome
  by_cases hcreate : ∃ c, entry.escrowCreate = some c ∧ a = app ∧ x = c.address
  · obtain ⟨c, hc, rfl, rfl⟩ := hcreate
    rw [heff.created c hc] at hs'
    cases hs'
    exact ⟨_, List.mem_append_right _ (List.mem_singleton.2 rfl), frame, entry, shard, ⟨ps, p, rfl⟩, hc⟩
  have hnc : ∀ c, entry.escrowCreate = some c → ¬ (a = app ∧ x = c.address) :=
    fun c hc hax => hcreate ⟨c, hc, hax⟩
  have hold : ∃ e₀, s (.escrow a x) = some (.escrow e₀) ∧ e₀.binding = e.binding ∧
      e₀.refundAfter = e.refundAfter := by
    by_cases hclaim : ∃ c, entry.escrowClaim = some c ∧ a = app ∧ x = c.address
    · obtain ⟨c, hc, rfl, rfl⟩ := hclaim
      obtain ⟨e₀, he₀, he₁⟩ := heff.claimed c hc (create_none_of_claim hv hc)
      rw [he₁] at hs'
      cases hs'
      exact ⟨e₀, he₀, rfl, rfl⟩
    · rw [heff.escrowOther a x hnc fun c hc hax => hclaim ⟨c, hc, hax⟩] at hs'
      exact ⟨e, hs', rfl, rfl⟩
  obtain ⟨e₀, he₀, hb, hr⟩ := hold
  obtain ⟨ev', hev', hcr⟩ := h a x e₀ he₀
  rw [hb, hr] at hcr
  exact ⟨ev', List.mem_append_left _ hev', hcr⟩

theorem origin_step (env : Env Node) (tr : List (Event Node)) (s : Records Node) (call : Call Node)
    (h : Origin tr s) : Origin (tr ++ [(call, (step env s call).2)]) (step env s call).1 := by
  rcases step_cases env s call with ⟨frame, app, entry, shard, o, s', rfl, hs, hok⟩ | ⟨-, hkeep⟩
  · rw [hs]
    rcases commitEntry_cases hok with ⟨-, rfl, -⟩ | ⟨hnone, hv, ⟨reason, s₁, hprep, ⟨⟩⟩ | hcom⟩
    · exact h.of_eq (fun _ _ => rfl) _
    · exact h.of_eq (fun _ _ => (write_other).trans (hprep _ (by simp) (by simp))) _
    · exact h.commits hv hcom
  · exact h.of_eq (fun _ _ => hkeep _ rfl) _

/-- An earlier event created the escrow that this commit claims, under the same binding, and its
    refund frame has come if the claim refunds. -/
def ClaimBacked (before : List (Event Node)) (ev : Event Node) : Prop :=
  ∀ frame app entry sourceShard claim, IsCommit ev frame app entry sourceShard →
    entry.escrowClaim = some claim → ∃ ev' ∈ before, ∃ c, Creates ev' app c ∧
      c.address = claim.address ∧ c.binding = claim.binding ∧
      (claim.refund = true → c.refundAfterGlobalFrame ≤ frame)

theorem claimBacked_step (env : Env Node) (tr : List (Event Node)) (s : Records Node)
    (call : Call Node) (h : Origin tr s) : ClaimBacked tr (call, (step env s call).2) := by
  rintro frame app entry sourceShard claim ⟨ps, p, hd⟩ hc
  obtain ⟨s', -, hok⟩ := hd.commit
  rcases commitEntry_cases hok with ⟨⟨⟩, -, -⟩ | ⟨-, -, ⟨_, _, -, ⟨⟩⟩ | hcom⟩
  obtain ⟨e, he, -, hb, hr⟩ := hcom.1.claim claim hc
  obtain ⟨ev', hev', hcr⟩ := h _ _ _ he
  exact ⟨ev', hev', _, hcr, rfl, hb, hr⟩

/-! ### Consume once, decide once -/

/-- CORRECT. In every run from empty records, within each application: no two committed entries consume one marker; a
    transaction id decided once is answered `AlreadyDecided` ever after and its recorded decision stays; no two
    committed entries create, and no two claim, one escrow; and a committed claim follows a commit that created its
    escrow under the same binding, a refund no earlier than the escrow's refund frame. -/
theorem consume_and_decide_once (env : Env Node) (calls : List (Call Node)) :
    ((run (step env) Store.empty calls).2.Pairwise fun x y =>
      ∀ app frame frame' entry entry' shard shard',
        IsCommit x frame app entry shard → IsCommit y frame' app entry' shard' →
          List.Disjoint entry.consumptions entry'.consumptions ∧
          (∀ c c', entry.escrowCreate = some c → entry'.escrowCreate = some c' →
            c.address ≠ c'.address) ∧
          ∀ c c', entry.escrowClaim = some c → entry'.escrowClaim = some c' →
            c.address ≠ c'.address) ∧
    ((run (step env) Store.empty calls).2.Pairwise fun x y =>
      ∀ app frame frame' entry entry' shard shard' o o',
        Decides x frame app entry shard o → Decides y frame' app entry' shard' o' →
          entry.txId = entry'.txId → o' = .alreadyDecided) ∧
    (∀ ev ∈ (run (step env) Store.empty calls).2, ∀ frame app entry shard o d,
      Decides ev frame app entry shard o → recorded frame o = some d →
        (run (step env) Store.empty calls).1 (.decision app entry.txId) =
          some (.decision d)) ∧
    ∀ before ev after, (run (step env) Store.empty calls).2 = before ++ ev :: after →
      ClaimBacked before ev := by
  obtain ⟨hpair, hmark⟩ := run_pairwise (step env) (mark_step env)
    (fun _ s call h => h.grows (grows_step env s call)) (compatible_step env) Store.empty calls
  refine ⟨hpair.imp ?_, hpair.imp ?_, fun ev hev frame app entry shard o d hd hrec => ?_, ?_⟩
  · rintro x y hc app frame frame' entry entry' shard shard' ⟨p, q, hx⟩ ⟨p', q', hy⟩
    exact (hc _ _ _ _ _ _ _ _ _ hx hy).2 ⟨p, q, hx⟩ ⟨p', q', hy⟩
  · intro x y hc app frame frame' entry entry' shard shard' o o' hx hy
    exact (hc _ _ _ _ _ _ _ _ _ hx hy).1
  · exact (hmark ev hev _ _ _ _ _ hd).2.1 d hrec
  · exact run_each (step env) Origin (by intro a x e h; cases h) (origin_step env)
      (claimBacked_step env) calls

/-- A deployment for concrete runs. -/
def plainEnv : Env Unit := ⟨0, 0, fun _ _ _ => 0⟩

/-- An entry that consumes one marker and creates one escrow. -/
def escrowEntry : SpendEntry where
  kind := 0x0514
  txId := 1
  sourceFrame := 0
  context := 3
  rootDigest := none
  consumptions := [7]
  outputs := []
  escrowCreate := some ⟨9, 5, 100⟩
  escrowClaim := none
  fee := 0
  settlement := none

/-- One transaction id is decided, and one escrow created, in each of two applications; and the
    second relay in the first application is answered `AlreadyDecided`, not with the decision. -/
theorem decided_in_each_application :
    ((run (step plainEnv) Store.empty
      [.commit 0 1 escrowEntry .whole, .commit 0 2 escrowEntry .whole,
        .commit 0 1 escrowEntry .whole]).2.map Prod.snd) =
      [.outcome (.committed 0 [] (some ⟨9, 64, 0⟩)), .outcome (.committed 0 [] (some ⟨9, 64, 0⟩)),
        .outcome .alreadyDecided] := by
  decide

/-! ### Relayed again -/

/-- The call relays a transaction that the records have decided. -/
def Again (s : Records Node) : Call Node → Bool
  | .commit _ app entry _ => (s (.decision app entry.txId)).isSome
  | _ => false

theorem again_grows (h : Again s call) (hg : Grows s s') : Again s' call := by
  cases call with
  | commit frame app entry shard =>
    obtain ⟨r, hr⟩ := Option.isSome_iff_exists.1 h
    exact Option.isSome_iff_exists.2 ⟨r, hg.decision _ _ _ hr⟩
  | _ => cases h

theorem again_step (h : Again s call) : (step env s call).1 = s := by
  have hs := steps_step env s call
  generalize step env s call = r at hs
  cases hs with
  | failed => rfl
  | commit hok =>
    rcases commitEntry_cases hok with ⟨-, rfl, -⟩ | ⟨hnone, -⟩
    · rfl
    · rw [Again, hnone] at h
      cases h
  | _ => cases h

/-- Relaying AT LEAST once does what relaying once does: without the relays of the transactions decided at its start,
    a run ends in the same records and answers every other call the same. -/
theorem relayed_again_unseen (env : Env Node) (s : Records Node) (calls : List (Call Node)) :
    run (step env) s (calls.filter (!Again s ·)) =
      ((run (step env) s calls).1, (run (step env) s calls).2.filter (!Again s ·.1)) := by
  -- what was decided at its start stays decided along the run
  suffices hlater : ∀ t, (∀ call, Again s call → Again t call) → run (step env) t (calls.filter (!Again s ·)) =
      ((run (step env) t calls).1, (run (step env) t calls).2.filter (!Again s ·.1)) from hlater s fun _ h => h
  induction calls with
  | nil => exact fun _ _ => rfl
  | cons call calls ih =>
    intro t ht
    rw [run_cons]
    cases hagain : Again s call with
    | true => simp [hagain, again_step (ht call hagain), ih t ht]
    | false =>
      have hnext := ih (step env t call).1 fun c hc => again_grows (ht c hc) (grows_step env t call)
      simp [hagain, run_cons, hnext]

end Quil.CommitRun
