import Quilibrium.Token.DeliveryQueues

/-! No committed output is LOST by re-placement, over every run whose attestations retire blocks narrower than the
    placement width. The invariant ties the trace to the queues: the queues of a lane hold exactly what the commits of
    the trace queued, each item once, and a retired block's queue ends at the attested count and never grows again —
    later items are routed at a wider width. Without the condition an output IS lost: at the maximum width a moved
    item can come back to the retired block, beyond the count that is written last. -/

namespace Quil.Replacement
open Schemes GlobalRecords GlobalCommit Orphans CommitRun DeliveryQueues Store List
open CoinBlocks hiding invalid

variable {Node : Type}

/-- The event commits an entry that queues this item. -/
def QueuesItem (lane : Lane) (app : Bytes32) (ev : Event Node) (d : Delivery) : Prop :=
  ∃ frame entry shard, IsCommit ev frame app entry shard ∧ d ∈ laneItems lane entry shard

/-- A commit of the trace queued this item. -/
def Committed (lane : Lane) (app : Bytes32) (tr : List (Event Node)) (d : Delivery) : Prop :=
  ∃ ev ∈ tr, QueuesItem lane app ev d

/-- The block's attested counts were applied. -/
def Retired (s : Records Node) (app : Bytes32) (block : ℕ) (o : Orphan) : Prop :=
  s (.orphan app block) = some (.orphan o) ∧ o.moved = true

/-- An attestation that would apply names a block narrower than the placement width. -/
def Narrower (s : Records Node) : Call Node → Prop
  | .attest app block _ _ => ∀ o, s (.orphan app block) = some (.orphan o) →
      o.moved = false → ∀ width, placementWidth s app = .ok width →
        creationWidth block < width
  | _ => True

/-- Every committed item has one delivery record; each block's records are those below its sequence;
    and a retired block's are those attested as taken. -/
structure NoOutputLost (tr : List (Event Node)) (s : Records Node) : Prop where
  once : ∀ lane app d, Committed lane app tr d →
    ∃! p : ℕ × ℕ, laneDelivery lane s app p.1 p.2 = .ok (some d)
  gapless : ∀ lane app block, ∃ n, laneSequence lane s app block = .ok n ∧
    (∀ i < n, ∃ d, laneDelivery lane s app block i = .ok (some d) ∧
      Committed lane app tr d) ∧
    ∀ i, n ≤ i → laneDelivery lane s app block i = .ok none
  taken : ∀ lane app block o, Retired s app block o →
    laneSequence lane s app block = .ok (attestedCount lane o.coins o.escrows)

/-! ### The invariant -/

/-- The queues of a lane hold what the trace committed, each item once. -/
structure Queued (lane : Lane) (app : Bytes32) (tr : List (Event Node)) (s : Records Node)
    (q : ℕ → List Delivery) : Prop where
  tracks : Tracks lane app s q
  once : Once q
  held : ∀ d, Held q d ↔ Committed lane app tr d
  retired : ∀ block o, Retired s app block o →
    (q block).length = attestedCount lane o.coins o.escrows

structure Sound (tr : List (Event Node)) (s : Records Node) : Prop where
  widths : ∀ app, ∃ width, placementWidth s app = .ok width
  decided : ∀ lane app d, Committed lane app tr d →
    (s (.decision app d.txId)).isSome = true
  narrow : ∀ app block o width, Retired s app block o →
    placementWidth s app = .ok width → creationWidth block < width
  queues : ∀ lane app, ∃ q, Queued lane app tr s q

theorem Sound.noOutputLost {tr : List (Event Node)} {s : Records Node} (h : Sound tr s) : NoOutputLost tr s where
  once lane app d hd := by
    obtain ⟨q, hq⟩ := h.queues lane app
    have hone := hq.once.existsUnique ((hq.held d).2 hd)
    simpa only [hq.tracks.delivery, Except.ok.injEq] using hone
  gapless lane app block := by
    obtain ⟨q, hq⟩ := h.queues lane app
    refine ⟨_, hq.tracks.counts block, fun i hi => ?_, fun i hi => ?_⟩
    · refine ⟨(q block)[i], ?_, (hq.held _).1 ⟨block, getElem_mem hi⟩⟩
      rw [hq.tracks.delivery, getElem?_eq_getElem hi]
    · rw [hq.tracks.delivery, getElem?_eq_none hi]
  taken lane app block o ho := by
    obtain ⟨q, hq⟩ := h.queues lane app
    rw [hq.tracks.counts, hq.retired block o ho]

variable {lane : Lane} {d : Delivery} {app : Bytes32}

theorem committed_append {tr : List (Event Node)} {ev : Event Node} :
    Committed lane app (tr ++ [ev]) d ↔ Committed lane app tr d ∨ QueuesItem lane app ev d := by
  simp only [Committed, mem_append, mem_singleton, or_and_right, exists_or, exists_eq_left]

theorem sound_empty : Sound ([] : List (Event Node)) .empty where
  widths _ := ⟨INITIAL_BLOCK_BITS, rfl⟩
  decided _ _ _ := by rintro ⟨_, h, _⟩; cases h
  narrow _ _ _ _ := by rintro ⟨h, _⟩; cases h
  queues lane app := by
    refine ⟨fun _ => [], tracks_empty lane app, ⟨by simp, by simp⟩, fun d => ?_, ?_⟩
    · simp [Held, Committed]
    · rintro block o ⟨h, _⟩; cases h

/-! ### Widths only widen -/

/-- Every application's width is kept or raised. -/
def Widens (s s' : Records Node) : Prop :=
  ∀ app width, placementWidth s app = .ok width →
    ∃ width', placementWidth s' app = .ok width' ∧ width ≤ width'

theorem widens_of_eq {s s' : Records Node} (h : ∀ app, s' (.placementWidth app) = s (.placementWidth app)) :
    Widens s s' := fun app width hw =>
  ⟨width, by rw [placementWidth_congr (h app), hw], le_rfl⟩

variable {width : ℕ}

theorem widens_raise {s s' : Records Node} {depth : ℕ}
    (h : raisePlacementWidth s app depth = .ok (width, s')) : Widens s s' := by
  intro a w hw
  by_cases ha : a = app
  · subst ha
    obtain ⟨current, hcur, hmax, -⟩ := raisePlacementWidth_ok h
    rw [hw] at hcur
    cases hcur
    exact ⟨width, placementWidth_raised h, by omega⟩
  · refine ⟨w, ?_, le_rfl⟩
    rw [placementWidth_congr (raisePlacementWidth_prepared h _ (by simp) (by simpa using ha)), hw]

theorem Widens.trans {s s₁ s' : Records Node} (h : Widens s s₁) (h' : Widens s₁ s') : Widens s s' := by
  intro a w hw
  obtain ⟨w₁, hw₁, hle₁⟩ := h a w hw
  obtain ⟨w₂, hw₂, hle₂⟩ := h' a w₁ hw₁
  exact ⟨w₂, hw₂, hle₁.trans hle₂⟩

variable {entry : SpendEntry} {shard : ShardPath} {frame : ℕ}

theorem widens_writeCommit {s s' : Records Node} {placements : List Placement} {sequences : Sequences} {o : Outcome}
    (h : writeCommit s frame app entry shard width placements sequences = .ok (o, s')) : Widens s s' := by
  obtain ⟨s₁, s₂, placed, h₁, h₂, -, rfl⟩ := writeCommit_ok h
  refine widens_of_eq fun a => ?_
  rw [write_tail_other, writeCreate_other h₂, writeClaim_other h₁, writeConsumptions_other _ _]

variable {env : Env Node}

theorem widens_commitChecked {s s' : Records Node} {o : Outcome}
    (h : commitChecked env s frame app entry shard = .ok (o, s')) : Widens s s' := by
  obtain ⟨r, -, h⟩ := bind_ok h
  cases r with
  | some reason =>
    cases h
    exact widens_of_eq fun a => write_other
  | none =>
    obtain ⟨⟨width, s₁⟩, hraise, h⟩ := bind_ok h
    obtain ⟨placed, -, h⟩ := bind_ok h
    refine (widens_raise hraise).trans ?_
    cases placed with
    | none =>
      cases h
      exact widens_of_eq fun a => write_other
    | some ps => exact widens_writeCommit h

theorem widens_commitEntry {s s' : Records Node}
    {o : Outcome} (h : commitEntry env s frame app entry shard = .ok (o, s')) : Widens s s' := by
  obtain ⟨⟨⟩, -, h⟩ := bind_ok h
  obtain ⟨b, -, h⟩ := bind_ok h
  cases b with
  | true => cases h; exact widens_of_eq fun _ => rfl
  | false =>
    obtain ⟨c, -, h⟩ := bind_ok h
    rcases c with _ | c
    · have hcontext : Widens s (s.write (contextAddress app) (.context entry.context)) :=
        widens_of_eq fun a => write_other
      exact hcontext.trans (widens_commitChecked h)
    by_cases hne : c = entry.context
    · exact widens_commitChecked (by simpa [hne] using h)
    simp only [ne_eq, hne, not_false_eq_true, if_true, pure_eq_ok, Except.ok.injEq] at h
    cases h
    exact widens_of_eq fun a => write_other

/-! ### Calls that move nothing -/

variable {tr : List (Event Node)} {s s' : Records Node}

/-- A step that commits nothing, retires nothing and leaves the queues alone keeps the invariant. -/
theorem Sound.of_eq (h : Sound tr s) {ev : Event Node} (hev : ∀ lane app d, ¬ QueuesItem lane app ev d)
    (hwidth : Widens s s') (hgrow : Grows s s') (hretired : ∀ app block o, Retired s' app block o →
      Retired s app block o) (hseq : ∀ lane a b, s' (.sequence lane a b) = s (.sequence lane a b))
    (hdel : ∀ lane a b i, s' (.delivery lane a b i) = s (.delivery lane a b i)) : Sound (tr ++ [ev]) s' := by
  have hcom : ∀ {lane app d}, Committed lane app (tr ++ [ev]) d ↔ Committed lane app tr d := fun {lane app d} => by
    rw [committed_append]
    exact or_iff_left (hev lane app d)
  refine ⟨fun a => ?_, fun lane a d hd => ?_, fun a b o w hr hw => ?_, fun lane a => ?_⟩
  · obtain ⟨w, hw⟩ := h.widths a
    obtain ⟨w', hw', -⟩ := hwidth a w hw
    exact ⟨w', hw'⟩
  · obtain ⟨r, hr⟩ := Option.isSome_iff_exists.1 (h.decided lane a d (hcom.1 hd))
    rw [hgrow.decision _ _ _ hr]; rfl
  · obtain ⟨w₀, hw₀⟩ := h.widths a
    obtain ⟨w', hw', hle⟩ := hwidth a w₀ hw₀
    rw [hw] at hw'
    cases hw'
    exact (h.narrow a b o w₀ (hretired a b o hr) hw₀).trans_le hle
  obtain ⟨q, hq⟩ := h.queues lane a
  exact ⟨q, hq.tracks.congr (hseq lane a) (hdel lane a), hq.once,
    fun d => (hq.held d).trans hcom.symm, fun b o hr => hq.retired b o (hretired a b o hr)⟩

/-- Only a committed outcome queues items. -/
theorem not_queuesItem {call : Call Node} {reply : Reply} (h : ∀ fee ps p, reply ≠ .outcome (.committed fee ps p))
    (lane : Lane) (app : Bytes32) (d : Delivery) : ¬ QueuesItem lane app (call, reply) d := by
  rintro ⟨frame, entry, shard, ⟨ps, p, hd⟩, -⟩
  exact h _ _ _ (Prod.mk.inj hd).2

variable {a : Bytes32} {b : ℕ}

theorem retired_of_eq {o : Orphan} (h : s' (.orphan a b) = s (.orphan a b))
    (hr : Retired s' a b o) : Retired s a b o := by rwa [Retired, h] at hr

/-- The records of the queues: sequences, deliveries and orphans. -/
def Queueing : RecordAddress → Bool
  | .sequence _ _ _ | .delivery _ _ _ _ | .orphan _ _ => true
  | _ => false

/-- A call that commits nothing and keeps the queues' records keeps the invariant. -/
theorem Sound.beside (h : Sound tr s) {call : Call Node} {reply : Reply}
    (hreply : ∀ fee ps p, reply ≠ .outcome (.committed fee ps p)) (hwidth : Widens s s') (hgrow : Grows s s')
    (hs : ∀ a, Queueing a → s' a = s a) : Sound (tr ++ [(call, reply)]) s' :=
  h.of_eq (not_queuesItem hreply) hwidth hgrow (fun _ _ _ => retired_of_eq (hs _ rfl)) (fun _ _ _ => hs _ rfl)
    fun _ _ _ _ => hs _ rfl

/-- Reconciling never touches a retired block, and retires none. -/
theorem reconcileOrphans_retired {registered removed : List (List Bool)} {n : ℕ × ℕ}
    (h : reconcileOrphans s frame app registered removed = .ok (n, s')) {o : Orphan} (ho : Retired s' a b o) :
    Retired s a b o := by
  refine reconcileBlocks_induction (P := fun s' => Retired s' a b o → Retired s a b o)
    (fun s₀ s₁ block n hP hstep hr => hP ?_) _ id h ho
  rcases reconcileBlock_ok hstep with rfl | ⟨o', -, -, rfl⟩ | ⟨-, rfl⟩
  · exact hr
  · by_cases hab : RecordAddress.orphan a b = .orphan app block
    · rw [Retired, hab, clear_same] at hr; exact absurd hr.1 (by simp)
    · rwa [Retired, clear_other _ hab] at hr
  by_cases hab : RecordAddress.orphan a b = .orphan app block
  · rw [Retired, hab, write_same] at hr
    obtain ⟨he, hm⟩ := hr
    cases he; cases hm
  · rwa [Retired, write_other hab] at hr

/-! ### A commit -/

theorem laneItems_txId (h : d ∈ laneItems lane entry shard) : d.txId = entry.txId := by
  cases lane with
  | coin => obtain ⟨a, -, rfl⟩ := mem_map.1 h; rfl
  | escrow => obtain ⟨c, -, rfl⟩ := mem_map.1 h; rfl

/-- A structurally valid entry queues distinct items. -/
theorem laneItems_nodup (lane : Lane) (shard : ShardPath)
    (hv : entry.validateAt env frame = .ok ()) : (laneItems lane entry shard).Nodup := by
  cases lane with
  | coin =>
    rw [SpendEntry.validateAt] at hv
    split_ifs at hv with h1 h2
    push Not at h2
    refine h2.2.map fun a b hab => ?_
    exact congrArg Delivery.address hab
  | escrow => cases hc : entry.escrowCreate <;> simp [laneItems, hc]

variable {o : Outcome}

theorem queuesItem_commit {fee : ℕ} {ps : List Placement} {p : Option Placement} (hfee : fee = entry.fee) :
    QueuesItem lane a ((.commit frame app entry shard, .outcome (.committed fee ps p)) :
      Event Node) d ↔ a = app ∧ d ∈ laneItems lane entry shard := by
  constructor
  · rintro ⟨frame', entry', shard', ⟨ps', p', hd⟩, hmem⟩
    simp only [Decides, Prod.mk.injEq, Call.commit.injEq] at hd
    obtain ⟨⟨-, rfl, rfl, rfl⟩, -⟩ := hd
    exact ⟨rfl, hmem⟩
  · rintro ⟨rfl, hmem⟩
    exact ⟨frame, entry, shard, ⟨ps, p, by rw [Decides, hfee]⟩, hmem⟩

/-- A commit queues its own items at the ends of the application's queues, and changes no others. -/
theorem Commits.tracks (hcom : Commits s frame app entry shard o s') :
    ∃ width, (∀ current, placementWidth s app = .ok current → current ≤ width) ∧
      INITIAL_BLOCK_BITS ≤ width ∧ width ≤ MAX_BLOCK_BITS ∧ ∀ lane a q, Tracks lane a s q → Tracks lane a s'
        (if a = app then enqueue (route width) q (laneItems lane entry shard) else q) := by
  obtain ⟨-, s₁, width, placements, sequences, hprep, hw, hcur, hplace, hwrite⟩ := hcom
  refine ⟨width, hcur, (placementWidth_bounds hw).1, (placementWidth_bounds hw).2, fun lane a q hq => ?_⟩
  have hq₁ : Tracks lane a s₁ q := hq.of_prepared hprep
  split_ifs with ha
  · subst ha
    cases lane with
    | coin => exact writeCommit_tracks_coin hplace hwrite hq₁
    | escrow => exact writeCommit_tracks_escrow hwrite hq₁
  · exact writeCommit_tracks_other ha hwrite hq₁

/-- A commit keeps the invariant: its items are new, since its transaction was undecided. -/
theorem Sound.commits (h : Sound tr s) (hnone : s (.decision app entry.txId) = none)
    (hv : entry.validateAt env frame = .ok ()) (hcom : Commits s frame app entry shard o s') (hwidth : Widens s s')
    (hgrow : Grows s s') : Sound (tr ++ [(.commit frame app entry shard, .outcome o)]) s' := by
  have heff := hcom.effect
  obtain ⟨w₁, hcur, hlo, hhi, htracks⟩ := Commits.tracks hcom
  obtain ⟨ps, p, rfl⟩ := hcom.outcome
  have hretired : ∀ a b x, Retired s' a b x ↔ Retired s a b x := fun a b x => by rw [Retired, Retired, heff.orphan]
  refine ⟨fun a => ?_, fun lane a d hd => ?_, fun a b x w hr hw => ?_, fun lane a => ?_⟩
  · obtain ⟨w, hw⟩ := h.widths a
    obtain ⟨w', hw', -⟩ := hwidth a w hw
    exact ⟨w', hw'⟩
  · rcases committed_append.1 hd with hd | hd
    · obtain ⟨r, hr⟩ := Option.isSome_iff_exists.1 (h.decided lane a d hd)
      rw [hgrow.decision _ _ _ hr]; rfl
    · obtain ⟨rfl, hmem⟩ := (queuesItem_commit rfl).1 hd
      rw [heff.decision, if_pos ⟨rfl, laneItems_txId hmem⟩]; rfl
  · obtain ⟨w₀, hw₀⟩ := h.widths a
    obtain ⟨w', hw', hle⟩ := hwidth a w₀ hw₀
    rw [hw] at hw'
    cases hw'
    exact (h.narrow a b x w₀ ((hretired a b x).1 hr) hw₀).trans_le hle
  · obtain ⟨q, hq⟩ := h.queues lane a
    have hq' := htracks lane a q hq.tracks
    by_cases ha : a = app
    · subst ha
      rw [if_pos rfl] at hq'
      refine ⟨_, hq', ?_, fun d => ?_, fun b x hr => ?_⟩
      · refine hq.once.enqueue _ (laneItems_nodup lane shard hv) fun d hd hheld => ?_
        have hdec := h.decided lane a d ((hq.held d).1 hheld)
        rw [laneItems_txId hd, hnone] at hdec
        cases hdec
      · rw [held_enqueue, hq.held, committed_append, queuesItem_commit rfl]
        simp
      -- no item is routed to a retired block: the width has passed it
      have hr' := (hretired a b x).1 hr
      obtain ⟨w₀, hw₀⟩ := h.widths a
      have hnarrow := (h.narrow a b x w₀ hr' hw₀).trans_le (hcur w₀ hw₀)
      rw [enqueue_other _ _ fun d _ => route_ne hlo hhi hnarrow d, hq.retired b x hr']
    · rw [if_neg ha] at hq'
      refine ⟨q, hq', hq.once, fun d => ?_, fun b x hr => hq.retired b x ((hretired a b x).1 hr)⟩
      rw [hq.held, committed_append, queuesItem_commit rfl]
      simp [ha]

/-! ### An attestation -/

variable {block coins escrows : ℕ}

/-- An applied attestation was awaited, attests no more than was committed, and retires its block. -/
theorem applyOrphanAttestation_retires (h : applyOrphanAttestation s app block coins escrows = .ok (true, s')) :
    ∃ existing, s (.orphan app block) = some (.orphan existing) ∧ existing.moved = false ∧
      (∀ lane n, laneSequence lane s app block = .ok n → attestedCount lane coins escrows ≤ n) ∧
      ∀ a b o, Retired s' a b o → (a = app ∧ b = block ∧
        o = ⟨existing.since, true, coins, escrows⟩) ∨ Retired s a b o := by
  rcases applyOrphanAttestation_ok h with ⟨hf, -⟩ | ⟨existing, committed, committedEscrows, width, s₁,
    s₂, sq, esq, -, ho, hm, hc, he, hcl, hel, -, h₁, h₂, rfl⟩
  · cases hf
  refine ⟨existing, ho, hm, fun lane n hn => ?_, fun a b o hr => ?_⟩
  · cases lane with
    | coin => rw [hc] at hn; cases hn; exact hcl
    | escrow => rw [he] at hn; cases hn; exact hel
  obtain ⟨hs', hmoved⟩ := hr
  by_cases hab : RecordAddress.orphan a b = .orphan app block
  · rw [hab, write_same] at hs'
    cases hab; cases hs'
    exact .inl ⟨rfl, rfl, rfl⟩
  rw [write_other hab, writeSequences_other _ _, writeSequences_other _ _, moveItems_other (by simp) _ h₂,
    moveItems_other (by simp) _ h₁] at hs'
  exact .inr ⟨hs', hmoved⟩

/-- Attesting leaves the queues of other applications alone. -/
theorem applyOrphanAttestation_tracks_other (ha : a ≠ app) {applied : Bool}
    (h : applyOrphanAttestation s app block coins escrows = .ok (applied, s'))
    {q : ℕ → List Delivery} (hq : Tracks lane a s q) : Tracks lane a s' q := by
  refine hq.congr (fun b => ?_) fun b i => ?_
  · refine applyOrphanAttestation_other h (by simp) (fun l b' he => ?_)
    injection he with _ he
    exact ha he
  refine applyOrphanAttestation_other h (fun l b' i' he => ?_)
  injection he with _ he
  exact ha he

/-- The length a retired queue is left with, and every other queue no item is routed to. -/
theorem length_moveTail {q : ℕ → List Delivery} {n : ℕ} (hn : n ≤ (q block).length) (hb : ∀ d, route width d ≠ b) :
    (moveTail (route width) q block n b).length = if b = block then n else (q b).length := by
  rw [moveTail, enqueue_other _ _ fun d _ => hb d]
  by_cases hbb : b = block
  · subst hbb; simp [truncate, hn]
  · simp [truncate, hbb]

/-- Retiring a narrower block keeps the invariant: the tail moves to blocks still in use. -/
theorem Sound.attests (h : Sound tr s) {reply : Reply}
    (hok : applyOrphanAttestation s app block coins escrows = .ok (true, s'))
    (hC : Narrower s (.attest app block coins escrows)) (hgrow : Grows s s')
    (hreply : ∀ fee ps p, reply ≠ .outcome (.committed fee ps p)) :
    Sound (tr ++ [(.attest app block coins escrows, reply)]) s' := by
  obtain ⟨existing, ho, hm, hcounts, hretired⟩ := applyOrphanAttestation_retires hok
  have hwidth : ∀ a, placementWidth s' a = placementWidth s a := fun a =>
    placementWidth_congr (applyOrphanAttestation_other hok)
  have hcom : ∀ {lane a d}, Committed lane a
      (tr ++ [(.attest app block coins escrows, reply)]) d ↔ Committed lane a tr d :=
    fun {lane a d} => by
      rw [committed_append]
      exact or_iff_left (not_queuesItem hreply lane a d)
  have hnarrow : ∀ a b x w, Retired s' a b x → placementWidth s a = .ok w → creationWidth b < w := by
    intro a b x w hr hw
    rcases hretired a b x hr with ⟨rfl, rfl, -⟩ | hr
    · exact hC existing ho hm w hw
    · exact h.narrow a b x w hr hw
  refine ⟨fun a => ?_, fun lane a d hd => ?_, fun a b x w hr hw => ?_, fun lane a => ?_⟩
  · rw [hwidth]; exact h.widths a
  · obtain ⟨r, hr⟩ := Option.isSome_iff_exists.1 (h.decided lane a d (hcom.1 hd))
    rw [hgrow.decision _ _ _ hr]; rfl
  · rw [hwidth] at hw; exact hnarrow a b x w hr hw
  obtain ⟨q, hq⟩ := h.queues lane a
  by_cases ha : a = app
  · subst ha
    obtain ⟨w, hw⟩ := h.widths a
    obtain ⟨hlo, hhi⟩ := placementWidth_bounds hw
    refine ⟨_, applyOrphanAttestation_moveTail hok hw (hC existing ho hm w hw) hq.tracks,
      hq.once.moveTail _ _, fun d => ?_, fun b x hr => ?_⟩
    · rw [held_moveTail, hq.held, hcom]
    rw [length_moveTail (hcounts lane _ (hq.tracks.counts block)) (route_ne hlo hhi (hnarrow a b x w hr hw))]
    rcases hretired a b x hr with ⟨-, rfl, rfl⟩ | hr'
    · rw [if_pos rfl]
    have hne : b ≠ block := by
      rintro rfl
      rw [Retired, ho] at hr'
      obtain ⟨he, hmoved⟩ := hr'
      cases he
      rw [hm] at hmoved
      cases hmoved
    rw [if_neg hne, hq.retired b x hr']
  · refine ⟨q, applyOrphanAttestation_tracks_other ha hok hq.tracks, hq.once,
      fun d => (hq.held d).trans hcom.symm, fun b x hr => ?_⟩
    rcases hretired a b x hr with ⟨rfl, -, -⟩ | hr
    · exact absurd rfl ha
    · exact hq.retired b x hr

/-! ### Every run -/

theorem sound_step (env : Env Node) (tr : List (Event Node)) (s : Records Node) (call : Call Node) (h : Sound tr s)
    (hC : Narrower s call) : Sound (tr ++ [(call, (step env s call).2)]) (step env s call).1 := by
  have hgrow := grows_step env s call
  have hs := steps_step env s call
  generalize step env s call = r at hs hgrow
  obtain ⟨s', reply⟩ := r
  change Grows s s' at hgrow
  change Sound (tr ++ [(call, reply)]) s'
  cases hs with
  | failed _ e => exact h.beside (by simp) (widens_of_eq fun _ => rfl) hgrow fun _ _ => rfl
  | commit hok =>
    have hwidth := widens_commitEntry hok
    rcases commitEntry_cases hok with ⟨rfl, rfl, -⟩ | ⟨hnone, hv, ⟨reason, s₁, hprep, ⟨⟩⟩ | hcom⟩
    · exact h.beside (by simp) hwidth hgrow fun _ _ => rfl
    · exact h.beside (by simp) hwidth hgrow fun a ha =>
        (write_other (ne_of_family ha)).trans (hprep a (ne_of_family ha) (ne_of_family ha))
    · exact h.commits hnone hv hcom hwidth hgrow
  | raise hok =>
    exact h.beside (by simp) (widens_raise hok) hgrow fun a ha =>
      raisePlacementWidth_prepared hok a (ne_of_family ha) (ne_of_family ha)
  | reconcile hok =>
    exact h.of_eq (not_queuesItem (by simp))
      (widens_of_eq fun a => reconcileOrphans_other hok) hgrow
      (fun _ _ _ => reconcileOrphans_retired hok)
      (fun _ _ _ => reconcileOrphans_other hok)
      fun _ _ _ _ => reconcileOrphans_other hok
  | @attest app block coins escrows applied s' hok =>
    cases applied with
    | true => exact h.attests hok hC hgrow (by simp)
    | false =>
      rcases applyOrphanAttestation_ok hok with ⟨-, rfl⟩ | ⟨_, _, _, _, _, _, _, _, hf, _⟩
      · exact h.beside (by simp) (widens_of_eq fun _ => rfl) hgrow fun _ _ => rfl
      · cases hf
  | publish app history =>
    exact h.beside (by simp) (widens_of_eq fun _ => write_other) hgrow fun a ha => write_other (ne_of_family ha)

/-- CORRECT while every applied attestation retires a block narrower than the placement width: every
    committed output and escrow has exactly one delivery record, the records of a block are exactly
    those below its sequence, a retired block's are those attested as taken, and the next such
    attestation moves exactly the undelivered tail of each lane. -/
theorem no_output_lost (env : Env Node) (calls : List (Call Node))
    (h : RunMeets (step env) Narrower Store.empty calls) :
    NoOutputLost (run (step env) Store.empty calls).2 (run (step env) Store.empty calls).1 ∧
    ∀ app block coins escrows,
      Narrower (run (step env) Store.empty calls).1 (.attest app block coins escrows) →
      (step env (run (step env) Store.empty calls).1
        (.attest app block coins escrows)).2 = .attested true →
      ∃ width, placementWidth (run (step env) Store.empty calls).1 app = .ok width ∧
        ∀ lane, ∃ q, Tracks lane app (run (step env) Store.empty calls).1 q ∧
          Tracks lane app (step env (run (step env) Store.empty calls).1
            (.attest app block coins escrows)).1
            (moveTail (route width) q block (attestedCount lane coins escrows)) := by
  have hsound := run_invariant_of (step env) (sound_step env) calls Store.empty [] sound_empty h
  rw [nil_append] at hsound
  generalize (run (step env) Store.empty calls).1 = s at hsound ⊢
  refine ⟨hsound.noOutputLost, fun app block coins escrows hC hreply => ?_⟩
  obtain ⟨width, hwidth⟩ := hsound.widths app
  refine ⟨width, hwidth, fun lane => ?_⟩
  obtain ⟨q, hq⟩ := hsound.queues lane app
  refine ⟨q, hq.tracks, ?_⟩
  have hs := steps_step env s (.attest app block coins escrows)
  generalize step env s (.attest app block coins escrows) = r at hs hreply
  obtain ⟨s', reply⟩ := r
  cases hs with
  | failed _ e => cases hreply
  | attest hok =>
    cases hreply
    obtain ⟨existing, ho, hm, -, -⟩ := applyOrphanAttestation_retires hok
    exact applyOrphanAttestation_moveTail hok hwidth (hC existing ho hm width hwidth) hq.tracks

/-- An entry that consumes one marker and creates one coin. -/
def coinEntry : SpendEntry where
  kind := 0x0512
  txId := 1
  sourceFrame := 0
  context := 3
  rootDigest := none
  consumptions := [7]
  outputs := [9]
  escrowCreate := none
  escrowClaim := none
  fee := 0
  settlement := none

/-- The complete partition that splits the all-zero path down to a depth. -/
def zeroPartition (depth : ℕ) : List (List Bool) :=
  ((List.range depth).map fun i => List.replicate i false ++ [true]) ++ [List.replicate depth false]

/-- A coin committed at width 6, a split to depth 7 that widens placement, and the attestation that
    none of the narrower block was taken. -/
def splitRun : List (Call Unit) :=
  [.commit 0 1 coinEntry .whole, .raise 1 7, .reconcile 1 1 (zeroPartition 7) [[]], .attest 1 64 0 0]

/-- The run meets the condition: its one attestation is for a block of width 6 at width 7, and the
    coin is at the head of block 128 afterwards. -/
theorem no_output_lost_on_split :
    NoOutputLost (run (step plainEnv) Store.empty splitRun).2
      (run (step plainEnv) Store.empty splitRun).1 ∧
    laneDelivery .coin (run (step plainEnv) Store.empty splitRun).1 1 128 0 =
      .ok (some (coinEntry.delivery .whole 9)) := by
  refine ⟨(no_output_lost plainEnv splitRun ⟨trivial, trivial, trivial, ?_, trivial⟩).1, by decide⟩
  intro o _ _ width hwidth
  have hseven : placementWidth (run (step plainEnv) Store.empty (splitRun.take 3)).1 1 = .ok 7 := by decide
  cases hseven.symm.trans hwidth
  decide

/-- A coin committed at the maximum width, a split deeper still, and the same attestation. -/
def deepSplitRun : List (Call Unit) :=
  [.raise 1 16, .commit 0 1 coinEntry .whole, .reconcile 1 1 (zeroPartition 16) [[]],
    .attest 1 (2 ^ 15) 0 0]

/-- At the maximum width the attested block's own item comes back to it and the final count passes
    over it: the record at 1 is beyond the sequence 0. -/
theorem output_lost_at_maximum_width :
    (run (step plainEnv) Store.empty deepSplitRun).2.map Prod.snd =
      [.width 15, .outcome (.committed 0 [⟨9, 2 ^ 15, 0⟩] none), .reconciled 1 0, .attested true] ∧
    ¬ NoOutputLost (run (step plainEnv) Store.empty deepSplitRun).2
      (run (step plainEnv) Store.empty deepSplitRun).1 := by
  refine ⟨by decide +kernel, fun h => ?_⟩
  obtain ⟨n, hn, -, hbeyond⟩ := h.gapless .coin 1 (2 ^ 15)
  have hseq : laneSequence .coin (run (step plainEnv) Store.empty deepSplitRun).1 1 (2 ^ 15) =
      .ok 0 := by decide +kernel
  have hrecord : laneDelivery .coin (run (step plainEnv) Store.empty deepSplitRun).1 1 (2 ^ 15) 1 =
      .ok (some (coinEntry.delivery .whole 9)) := by decide +kernel
  cases hseq.symm.trans hn
  cases hrecord.symm.trans (hbeyond 1 (by omega))

end Quil.Replacement
