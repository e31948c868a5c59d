import Quilibrium.Types

/-! Spend relays that the global chain skipped (`quil-engine/src/relay_reoffer.rs`). Header `N` relays the source
    frames `N-8 ..= N-1`, so when executed tips lie further apart, the frames BETWEEN are relayed by none. A member
    queues them, examines them and offers their undecided bundles again, down to a horizon of 180 frames below the
    tip: over every run, each skipped frame is queued, examined, or counted as expired — once. -/

namespace Quil.RelayReoffer
open Schemes Finset

def RELAY_WINDOW_FRAMES : ℕ := 8
def REOFFER_HORIZON_FRAMES : ℕ := 180

/-- First and last source frame that header `frameNumber` relays. -/
def relayWindow (frameNumber : ℕ) : ℕ × ℕ := (max (frameNumber - RELAY_WINDOW_FRAMES) 1, frameNumber - 1)

/-- The oldest frame still offered again at `tip`. -/
def floor (tip : ℕ) : ℕ := max (tip - REOFFER_HORIZON_FRAMES) 1

/-- First and last source frame that neither the header at `previous` nor the one at `tip` relays. -/
def unrelayedFrames (previous tip : ℕ) : Option (ℕ × ℕ) :=
  let first := max previous 1
  if first < (relayWindow tip).1 then some (first, (relayWindow tip).1 - 1) else none

structure RelayWatch where
  tip : Option ℕ
  queued : Finset ℕ

/-- The executed tip reads `tip`: the watch after it, and the frames that left the horizon unexamined. -/
def RelayWatch.observeTip (watch : RelayWatch) (tip : ℕ) : RelayWatch × ℕ :=
  let previous := watch.tip.getD (floor tip)
  let (queued, expired) := match unrelayedFrames previous tip with
    | some (first, last) =>
      (watch.queued ∪ Icc (max first (floor tip)) last, min (floor tip - first) (last - first + 1))
    | none => (watch.queued, 0)
  let kept := queued.filter (floor tip ≤ ·)
  (⟨some tip, kept⟩, expired + (queued.card - kept.card))

def RelayWatch.examined (watch : RelayWatch) (frame : ℕ) : RelayWatch := { watch with queued := watch.queued.erase frame }

/-! ### Runs -/

inductive Event where
  | observe (tip : ℕ)
  | examine (frame : ℕ)

/-- A watch with the frames examined while queued and the count of those expired. -/
structure Run where
  watch : RelayWatch
  examined : Finset ℕ
  expired : ℕ

def Run.step (s : Run) : Event → Run
  | .observe tip =>
    { s with watch := (s.watch.observeTip tip).1, expired := s.expired + (s.watch.observeTip tip).2 }
  | .examine frame =>
    { s with watch := s.watch.examined frame, examined := s.examined ∪ s.watch.queued.filter (· = frame) }

def run (events : List Event) : Run := events.foldl Run.step ⟨⟨none, ∅⟩, ∅, 0⟩

def tips (events : List Event) : List ℕ :=
  events.filterMap fun
    | .observe tip => some tip
    | .examine _ => none

/-- What a run has to look at: the frames from the first tip's horizon on, below the window of some observed tip and
    relayed by none. -/
def skipped (tips : List ℕ) : Finset ℕ :=
  (tips.toFinset.biUnion fun tip => range (relayWindow tip).1).filter fun frame =>
    floor (tips.headD 0) ≤ frame ∧ ∀ tip ∈ tips, ¬ ((relayWindow tip).1 ≤ frame ∧ frame ≤ (relayWindow tip).2)

/-- The frames one observation adds. -/
def gap (last : Option ℕ) (tip : ℕ) : Finset ℕ :=
  (range (relayWindow tip).1).filter (max (last.getD (floor tip)) 1 ≤ ·)

theorem mem_skipped {tips : List ℕ} {frame : ℕ} : frame ∈ skipped tips ↔
    (∃ tip ∈ tips, frame < (relayWindow tip).1) ∧ floor (tips.headD 0) ≤ frame ∧
      ∀ tip ∈ tips, ¬ ((relayWindow tip).1 ≤ frame ∧ frame ≤ (relayWindow tip).2) := by
  simp [skipped]

theorem mem_gap {last : Option ℕ} {tip frame : ℕ} :
    frame ∈ gap last tip ↔ frame < (relayWindow tip).1 ∧ max (last.getD (floor tip)) 1 ≤ frame := by
  simp [gap]

/-- One observation more: the frames below its window from the last tip on. -/
theorem mem_skipped_concat {tips : List ℕ} {tip : ℕ} (h : (tips ++ [tip]).Pairwise (· ≤ ·)) (frame : ℕ) :
    (frame ∈ skipped (tips ++ [tip]) ↔ frame ∈ skipped tips ∨ frame ∈ gap tips.getLast? tip) ∧
      (frame ∈ skipped tips → frame ∉ gap tips.getLast? tip) := by
  simp only [mem_skipped, mem_gap, floor, relayWindow, REOFFER_HORIZON_FRAMES, RELAY_WINDOW_FRAMES]
  rcases List.eq_nil_or_concat' tips with rfl | ⟨earlier, last, rfl⟩
  · simp only [List.nil_append, List.mem_singleton, List.not_mem_nil, List.headD_cons, List.getLast?_nil,
      Option.getD_none, exists_eq_left, forall_eq, false_and, exists_false, false_or, IsEmpty.forall_iff, and_true]
    omega
  have hlast : last ∈ earlier ++ [last] := by simp
  have hmax : ∀ u ∈ earlier ++ [last], u ≤ last := by
    intro u hu
    rcases List.mem_append.1 hu with hu | hu
    · exact (List.pairwise_append.1 (List.pairwise_append.1 h).1).2.2 u hu last (by simp)
    · exact (List.mem_singleton.1 hu).le
  have htip : last ≤ tip := (List.pairwise_append.1 h).2.2 last hlast tip (by simp)
  obtain ⟨first, hfirst, hhead, hhead'⟩ : ∃ u ∈ earlier ++ [last], (earlier ++ [last]).headD 0 = u ∧
      (earlier ++ [last] ++ [tip]).headD 0 = u := by
    rcases earlier with _ | ⟨u, earlier⟩
    · exact ⟨last, by simp⟩
    · exact ⟨u, by simp⟩
  have hle := hmax first hfirst
  have hget : (earlier ++ [last]).getLast? = some last := by simp
  rw [hhead, hhead', hget, Option.getD_some]
  generalize earlier ++ [last] = seen at *
  refine ⟨⟨?_, ?_⟩, ?_⟩
  · rintro ⟨⟨u, hu, hlt⟩, hfloor, hnone⟩
    by_cases hold : frame < max (last - 8) 1
    · exact .inl ⟨⟨last, hlast, hold⟩, hfloor, fun u hu => hnone u (List.mem_append_left _ hu)⟩
    · have hrelay := hnone last (List.mem_append_left _ hlast)
      have hu : u ≤ tip := by
        rcases List.mem_append.1 hu with hu | hu
        · exact (hmax u hu).trans htip
        · exact (List.mem_singleton.1 hu).le
      exact .inr ⟨by omega, by omega⟩
  · rintro (⟨⟨u, hu, hlt⟩, hfloor, hnone⟩ | ⟨hlt, hge⟩)
    · have hu' := hmax u hu
      refine ⟨⟨u, List.mem_append_left _ hu, hlt⟩, hfloor, List.forall_mem_append.2 ⟨hnone, ?_⟩⟩
      simp only [List.mem_singleton, forall_eq]
      omega
    · refine ⟨⟨tip, by simp, hlt⟩, by omega, List.forall_mem_append.2 ⟨fun u hu => ?_, ?_⟩⟩
      · have hu := hmax u hu
        omega
      · simp only [List.mem_singleton, forall_eq]
        omega
  · rintro ⟨⟨u, hu, hlt⟩, -, -⟩
    have hu := hmax u hu
    omega

/-- What one observation does: it queues the gap down to the horizon, and counts what falls below it. -/
theorem observeTip_spec (watch : RelayWatch) (tip : ℕ) :
    (watch.observeTip tip).1.tip = some tip ∧
    (watch.observeTip tip).1.queued = (watch.queued ∪ gap watch.tip tip).filter (floor tip ≤ ·) ∧
    (Disjoint watch.queued (gap watch.tip tip) →
      (watch.observeTip tip).2 = ((watch.queued ∪ gap watch.tip tip).filter (· < floor tip)).card) := by
  have hgap : gap watch.tip tip = Ico (max (watch.tip.getD (floor tip)) 1) (relayWindow tip).1 := by
    ext frame
    rw [mem_gap, mem_Ico, and_comm]
  have hcount (q : Finset ℕ) : q.card - (q.filter (floor tip ≤ ·)).card = (q.filter (· < floor tip)).card := by
    have hsum := card_filter_add_card_filter_not (s := q) (floor tip ≤ ·)
    simp only [not_le] at hsum
    omega
  simp only [RelayWatch.observeTip, unrelayedFrames, hgap]
  generalize max (watch.tip.getD (floor tip)) 1 = first
  generalize (relayWindow tip).1 = start
  generalize floor tip = low at hcount ⊢
  by_cases hlt : first < start
  · simp only [if_pos hlt]
    refine ⟨trivial, ?_, fun hdisjoint => ?_⟩
    · ext frame
      simp only [mem_filter, mem_union, mem_Icc, mem_Ico]
      grind
    · have hqueued : (watch.queued ∪ Icc (max first low) (start - 1)).filter (· < low) =
          watch.queued.filter (· < low) := by
        ext frame
        simp only [mem_filter, mem_union, mem_Icc]
        grind
      have hbelow : (Ico first start).filter (· < low) = Ico first (min start low) := by
        ext frame
        simp only [mem_filter, mem_Ico]
        omega
      rw [hcount, hqueued, filter_union, card_union_of_disjoint (disjoint_filter_filter hdisjoint), hbelow, Nat.card_Ico]
      omega
  · simp only [if_neg hlt]
    rw [Ico_eq_empty hlt, union_empty, hcount]
    simp

/-- The invariant of a run: every skipped frame is queued, examined, or below the horizon and counted. -/
structure Accounted (s : Run) (tips : List ℕ) : Prop where
  tip : s.watch.tip = tips.getLast?
  queued : s.watch.queued ⊆ skipped tips
  examined : s.examined ⊆ skipped tips
  disjoint : Disjoint s.watch.queued s.examined
  expired : s.expired = (skipped tips \ (s.watch.queued ∪ s.examined)).card
  horizon : ∀ tip, s.watch.tip = some tip → (∀ frame ∈ s.watch.queued, floor tip ≤ frame) ∧
    ∀ frame ∈ skipped tips \ (s.watch.queued ∪ s.examined), frame < floor tip

theorem Accounted.examine {s : Run} {tips : List ℕ} (h : Accounted s tips) (frame : ℕ) :
    Accounted (s.step (.examine frame)) tips := by
  have hunion : (s.step (.examine frame)).watch.queued ∪ (s.step (.examine frame)).examined =
      s.watch.queued ∪ s.examined := by
    ext f
    simp only [Run.step, RelayWatch.examined, mem_union, mem_erase, mem_filter]
    grind
  refine ⟨h.tip, (erase_subset _ _).trans h.queued, union_subset h.examined ((filter_subset _ _).trans h.queued), ?_,
    ?_, ?_⟩
  · rw [disjoint_left]
    have hdisjoint := disjoint_left.1 h.disjoint
    simp only [Run.step, RelayWatch.examined, mem_union, mem_erase, mem_filter]
    grind
  · rw [hunion]
    exact h.expired
  · rw [hunion]
    intro tip htip
    obtain ⟨hqueued, hgone⟩ := h.horizon tip htip
    exact ⟨fun f hf => hqueued f (mem_of_mem_erase hf), hgone⟩

theorem Accounted.observe {s : Run} {tips : List ℕ} (h : Accounted s tips) {tip : ℕ}
    (hsorted : (tips ++ [tip]).Pairwise (· ≤ ·)) : Accounted (s.step (.observe tip)) (tips ++ [tip]) := by
  have hskipped : skipped (tips ++ [tip]) = skipped tips ∪ gap s.watch.tip tip := by
    ext f
    rw [mem_union, h.tip]
    exact (mem_skipped_concat hsorted f).1
  have hnew : Disjoint (skipped tips) (gap s.watch.tip tip) := by
    rw [disjoint_left, h.tip]
    exact fun f => (mem_skipped_concat hsorted f).2
  obtain ⟨htip, hqueued, hexpired⟩ := observeTip_spec s.watch tip
  have hexpired := hexpired (hnew.mono_left h.queued)
  have hQ (f : ℕ) : f ∈ s.watch.queued → f ∈ skipped tips := @h.queued f
  have hE (f : ℕ) : f ∈ s.examined → f ∈ skipped tips := @h.examined f
  have hQE := disjoint_left.1 h.disjoint
  have hSG := disjoint_left.1 hnew
  have hold : ∀ f ∈ skipped tips, f ∉ s.watch.queued → f ∉ s.examined → f < floor tip := by
    intro f hf hq he
    cases hlast : s.watch.tip with
    | none =>
      obtain rfl := List.getLast?_eq_none_iff.1 (h.tip.symm.trans hlast)
      simp [skipped] at hf
    | some last =>
      have hle : last ≤ tip := (List.pairwise_append.1 hsorted).2.2 last
        (List.mem_of_getLast? (h.tip.symm.trans hlast)) tip (by simp)
      have hlt := (h.horizon last hlast).2 f (by simp [hf, hq, he])
      simp only [floor] at hlt ⊢
      omega
  -- What leaves now: queued frames and frames of the gap below the new horizon.
  have hgone : skipped (tips ++ [tip]) \ ((s.watch.observeTip tip).1.queued ∪ s.examined) =
      (skipped tips \ (s.watch.queued ∪ s.examined)) ∪
        (s.watch.queued ∪ gap s.watch.tip tip).filter (· < floor tip) := by
    ext f
    simp only [hskipped, hqueued, mem_sdiff, mem_union, mem_filter]
    grind
  refine ⟨by simp [Run.step, htip], ?_, h.examined.trans (by rw [hskipped]; exact subset_union_left), ?_, ?_, ?_⟩
  · intro f hf
    simp only [Run.step, hqueued, mem_filter, mem_union] at hf
    rw [hskipped, mem_union]
    exact hf.1.imp (hQ f) id
  · rw [disjoint_left]
    intro f hf
    simp only [Run.step, hqueued, mem_filter, mem_union] at hf ⊢
    rcases hf.1 with hf | hf
    · exact hQE hf
    · exact fun he => hSG (hE f he) hf
  · have hapart : Disjoint (skipped tips \ (s.watch.queued ∪ s.examined))
        ((s.watch.queued ∪ gap s.watch.tip tip).filter (· < floor tip)) := by
      rw [disjoint_left]
      simp only [mem_sdiff, mem_union, mem_filter]
      grind
    change s.expired + (s.watch.observeTip tip).2 = _
    rw [show (s.step (.observe tip)).watch = (s.watch.observeTip tip).1 from rfl,
      show (s.step (.observe tip)).examined = s.examined from rfl, hgone, card_union_of_disjoint hapart, h.expired,
      hexpired]
  · rintro tip' htip'
    obtain rfl : tip = tip' := Option.some.inj (htip.symm.trans htip')
    refine ⟨fun f hf => ?_, fun f hf => ?_⟩
    · exact (mem_filter.1 (hqueued ▸ hf)).2
    · rcases mem_union.1 (hgone ▸ hf) with hf | hf
      · simp only [mem_sdiff, mem_union, not_or] at hf
        exact hold f hf.1 hf.2.1 hf.2.2
      · exact (mem_filter.1 hf).2

theorem tips_concat (events : List Event) (e : Event) :
    tips (events ++ [e]) = tips events ++ tips [e] := List.filterMap_append ..

theorem run_concat (events : List Event) (e : Event) : run (events ++ [e]) = (run events).step e := by
  simp [run]

/-- The invariant over every run whose tips do not fall. -/
theorem run_accounted {events : List Event} (h : (tips events).Pairwise (· ≤ ·)) :
    Accounted (run events) (tips events) := by
  induction events using List.reverseRecOn with
  | nil =>
    exact ⟨rfl, by simp [run], by simp [run], by simp [run], by simp [run, skipped, tips], by simp [run]⟩
  | append_singleton events e ih =>
    rw [tips_concat] at h
    have ih := ih (List.pairwise_append.1 h).1
    rw [run_concat, tips_concat]
    cases e with
    | observe tip => exact ih.observe h
    | examine frame => simpa [tips] using ih.examine frame

/-- A frame leaves the queue only by being examined or by falling below the horizon of a new tip. -/
theorem step_keeps {s : Run} {e : Event} {frame : ℕ} (h : frame ∈ s.watch.queued) :
    frame ∈ (s.step e).watch.queued ∨ e = .examine frame ∨ ∃ tip, e = .observe tip ∧ frame < floor tip := by
  cases e with
  | observe tip =>
    rcases lt_or_ge frame (floor tip) with hlt | hge
    · exact .inr (.inr ⟨tip, rfl, hlt⟩)
    · refine .inl ?_
      rw [show (s.step (.observe tip)).watch.queued = _ from (observeTip_spec s.watch tip).2.1]
      simp [h, hge]
  | examine other =>
    by_cases hframe : frame = other
    · exact .inr (.inl (by rw [hframe]))
    · exact .inl (mem_erase.2 ⟨hframe, h⟩)

/-- The frame was in the queue at some time of the run. -/
def EverQueued (events : List Event) (frame : ℕ) : Prop :=
  ∃ before, before <+: events ∧ frame ∈ (run before).watch.queued

/-- The observation that put the frame below its window also put it below its horizon. -/
def ExpiredAtOnce (events : List Event) (frame : ℕ) : Prop :=
  ∃ before tip, before ++ [.observe tip] <+: events ∧ frame ∈ gap (tips before).getLast? tip ∧ frame < floor tip

theorem skipped_concat_mono {before : List Event} {e : Event} (h : (tips (before ++ [e])).Pairwise (· ≤ ·)) {frame : ℕ}
    (hframe : frame ∈ skipped (tips before)) : frame ∈ skipped (tips (before ++ [e])) := by
  rw [tips_concat] at h ⊢
  cases e with
  | observe tip => exact ((mem_skipped_concat h frame).1).2 (.inl hframe)
  | examine other => simpa [tips] using hframe

/-- The skipped frames of a run are those it ever queues, and those that expire as they are found. -/
theorem mem_skipped_iff {events : List Event} (h : (tips events).Pairwise (· ≤ ·)) (frame : ℕ) :
    frame ∈ skipped (tips events) ↔ EverQueued events frame ∨ ExpiredAtOnce events frame := by
  induction events using List.reverseRecOn with
  | nil => simp [EverQueued, ExpiredAtOnce, run, skipped, tips]
  | append_singleton events e ih =>
    have hsorted := h
    rw [tips_concat] at hsorted
    have ih := ih (List.pairwise_append.1 hsorted).1
    have hextend : events <+: events ++ [e] := List.prefix_append _ _
    constructor
    · intro hframe
      have hnew : frame ∈ skipped (tips events) ∨ ∃ tip, e = .observe tip ∧ frame ∈ gap (tips events).getLast? tip := by
        rw [tips_concat] at hframe
        cases e with
        | observe tip => exact ((mem_skipped_concat hsorted frame).1.1 hframe).imp_right fun hgap => ⟨tip, rfl, hgap⟩
        | examine other => exact .inl (by simpa [tips] using hframe)
      rcases hnew with hold | ⟨tip, rfl, hgap⟩
      · rcases ih.1 hold with ⟨before, hbefore, hq⟩ | ⟨before, tip, hbefore, hrest⟩
        · exact .inl ⟨before, hbefore.trans hextend, hq⟩
        · exact .inr ⟨before, tip, hbefore.trans hextend, hrest⟩
      · rcases lt_or_ge frame (floor tip) with hlt | hge
        · exact .inr ⟨events, tip, List.prefix_rfl, hgap, hlt⟩
        · refine .inl ⟨_, List.prefix_rfl, ?_⟩
          rw [run_concat, show ((run events).step (.observe tip)).watch.queued = _ from
            (observeTip_spec (run events).watch tip).2.1, (run_accounted (List.pairwise_append.1 hsorted).1).tip]
          simp [hgap, hge]
    · rintro (⟨before, hbefore, hq⟩ | ⟨before, tip, hbefore, hgap, hlt⟩)
      · rcases List.prefix_concat_iff.1 hbefore with rfl | hbefore
        · exact (run_accounted h).queued hq
        · exact skipped_concat_mono h (ih.2 (.inl ⟨before, hbefore, hq⟩))
      · rcases List.prefix_concat_iff.1 hbefore with heq | hbefore
        · obtain ⟨rfl, rfl⟩ : before = events ∧ .observe tip = e := by simpa using List.append_inj' heq rfl
          rw [tips_concat]
          exact (mem_skipped_concat hsorted frame).1.2 (.inr hgap)
        · exact skipped_concat_mono h (ih.2 (.inr ⟨before, tip, hbefore, hgap, hlt⟩))

/-! ### Bundles offered again -/

/-- What the node reads: the operations a shard frame took into its spend relay, the global decision of one, the
    bundles of a frame, their canonical encoding, and the ids of the operations an encoding holds. -/
structure Reads (Tx Bundle : Type) where
  frameTxIds : ℕ → Except QuilError (List Tx)
  isDecided : Tx → Except QuilError Bool
  requests : ℕ → Except QuilError (List Bundle)
  canonicalBytes : Bundle → Option (List UInt8)
  txIds : List UInt8 → Option (List Tx)

section
variable {Tx Bundle : Type} [DecidableEq Tx] (reads : Reads Tx Bundle)

def undecidedOf : List Tx → Except QuilError (List Tx)
  | [] => .ok []
  | tx :: rest => do
    let decided ← reads.isDecided tx
    let others ← undecidedOf rest
    .ok (if decided then others else tx :: others)

/-- The operations no frame of the list executed. -/
def notExecuted : List ℕ → List Tx → Except QuilError (List Tx)
  | [], undecided => .ok undecided
  | later :: rest, undecided =>
    if undecided = [] then .ok []
    else do
      let ids ← reads.frameTxIds later
      notExecuted rest (undecided.filter (· ∉ ids))

def unrelayedBundles (frame head : ℕ) : Except QuilError (List (List UInt8)) := do
  let executed ← reads.frameTxIds frame
  if executed = [] then .ok []
  else
    let undecided ← undecidedOf reads executed
    let last := min head (saturatingAdd frame REOFFER_HORIZON_FRAMES)
    let first := saturatingAdd frame 1
    let undecided ← notExecuted reads (List.range' first (last + 1 - first)) undecided
    if undecided = [] then .ok []
    else
      let body ← reads.requests frame
      .ok (body.filterMap fun bundle => do
        let canonical ← reads.canonicalBytes bundle
        let ids ← reads.txIds canonical
        if ids ≠ [] ∧ (∀ id ∈ ids, id ∈ executed) ∧ ∃ id ∈ ids, id ∈ undecided then some canonical else none)

variable {reads}

omit [DecidableEq Tx] in
theorem mem_undecidedOf {txs undecided : List Tx} (h : undecidedOf reads txs = .ok undecided) {tx : Tx}
    (htx : tx ∈ undecided) : reads.isDecided tx = .ok false := by
  induction txs generalizing undecided with
  | nil =>
    cases h
    exact absurd htx List.not_mem_nil
  | cons first rest ih =>
    obtain ⟨decided, hdecided, h⟩ := bind_eq_ok.1 h
    obtain ⟨others, hothers, h⟩ := bind_eq_ok.1 h
    cases h
    cases decided with
    | true => exact ih hothers htx
    | false =>
      rcases List.mem_cons.1 htx with rfl | htx
      · exact hdecided
      · exact ih hothers htx

theorem mem_notExecuted {frames : List ℕ} {undecided left : List Tx} (h : notExecuted reads frames undecided = .ok left)
    {tx : Tx} (htx : tx ∈ left) :
    tx ∈ undecided ∧ ∀ later ∈ frames, ∃ ids, reads.frameTxIds later = .ok ids ∧ tx ∉ ids := by
  induction frames generalizing undecided with
  | nil =>
    cases h
    exact ⟨htx, by simp⟩
  | cons first rest ih =>
    rw [notExecuted] at h
    split_ifs at h
    · cases h
      exact absurd htx List.not_mem_nil
    · obtain ⟨ids, hids, h⟩ := bind_eq_ok.1 h
      obtain ⟨hmem, hrest⟩ := ih h
      simp only [List.mem_filter, decide_eq_true_eq] at hmem
      exact ⟨hmem.1, List.forall_mem_cons.2 ⟨⟨ids, hids, hmem.2⟩, hrest⟩⟩

variable (reads) in
/-- The frame executed all of the bundle, and one operation is undecided and was executed by no frame since, through
    the head and within the horizon. -/
def Unsettled (frame head : ℕ) (canonical : List UInt8) : Prop :=
  ∃ ids executed, reads.txIds canonical = some ids ∧ reads.frameTxIds frame = .ok executed ∧
    (∀ id ∈ ids, id ∈ executed) ∧ ∃ id ∈ ids, reads.isDecided id = .ok false ∧
      ∀ later, frame < later → later ≤ min head (saturatingAdd frame REOFFER_HORIZON_FRAMES) →
        ∃ laterIds, reads.frameTxIds later = .ok laterIds ∧ id ∉ laterIds

theorem mem_unrelayedBundles {frame head : ℕ} {bundles : List (List UInt8)}
    (h : unrelayedBundles reads frame head = .ok bundles) {canonical : List UInt8} (hmem : canonical ∈ bundles) :
    Unsettled reads frame head canonical := by
  obtain ⟨executed, hexecuted, h⟩ := bind_eq_ok.1 h
  split_ifs at h
  · cases h
    exact absurd hmem List.not_mem_nil
  obtain ⟨undecided, hundecided, h⟩ := bind_eq_ok.1 h
  obtain ⟨left, hleft, h⟩ := bind_eq_ok.1 h
  split_ifs at h
  · cases h
    exact absurd hmem List.not_mem_nil
  obtain ⟨body, -, h⟩ := bind_eq_ok.1 h
  cases h
  obtain ⟨bundle, -, hbundle⟩ := List.mem_filterMap.1 hmem
  obtain ⟨canonical', -, hbundle⟩ := Option.bind_eq_some_iff.1 hbundle
  obtain ⟨ids, hids, hbundle⟩ := Option.bind_eq_some_iff.1 hbundle
  split_ifs at hbundle with hall
  cases hbundle
  obtain ⟨-, hall, id, hid, hidleft⟩ := hall
  obtain ⟨hidundecided, hlater⟩ := mem_notExecuted hleft hidleft
  refine ⟨ids, executed, hids, hexecuted, hall, id, hid, mem_undecidedOf hundecided hidundecided, ?_⟩
  intro later hlt hle
  refine hlater later (List.mem_range'_1.2 ?_)
  simp only [saturatingAdd] at hle ⊢
  omega

end

/-- A shard whose frames 10 and 191 executed one and the same undecided operation. -/
def sampleReads : Reads ℕ Unit where
  frameTxIds frame := .ok (if frame = 10 ∨ frame = 191 then [1] else [])
  isDecided _ := .ok false
  requests _ := .ok [()]
  canonicalBytes _ := some [7]
  txIds _ := some [1]

end Quil.RelayReoffer
