import Quilibrium.Token.GlobalCommit

/-! What `commitEntry` can do, said once. A call that returns is one of three: the operation was decided
    before and nothing is written; it is rejected, and the decision is written over records that differ
    from the old ones at most in the application's context and placement width; or it commits, and every
    record family is the old one changed in the way the lemmas of `writeCommit` say. Everything proved
    about runs of the commit goes through these lemmas and never through the code again. -/

namespace Quil.GlobalCommit
open Schemes GlobalRecords Store List
open CoinBlocks hiding invalid

variable {Node : Type} {env : Env Node} {s s' : Records Node} {frame : ℕ} {app : Bytes32}
  {entry : SpendEntry} {sourceShard : ShardPath}

/-! ### Reads -/

theorem isDecided_ok {txId : Bytes32} {b : Bool} (h : isDecided s app txId = .ok b) :
    b = (s (.decision app txId)).isSome := by
  obtain ⟨d, hd, hb⟩ := bind_ok h
  cases hb
  exact isSome_of_read_ok hd

theorem isConsumed_ok {marker : Bytes32} {b : Bool} (h : isConsumed s app marker = .ok b) :
    b = (s (.consumed app marker)).isSome := by
  obtain ⟨d, hd, hb⟩ := bind_ok h
  cases hb
  exact isSome_of_read_ok hd

/-! ### The checks -/

/-- What an entry that no check rejects has shown against the records. -/
structure Passed (s : Records Node) (frame : ℕ) (app : Bytes32) (entry : SpendEntry) :
    Prop where
  fresh : ∀ marker ∈ entry.consumptions, s (.consumed app marker) = none
  claim : ∀ c, entry.escrowClaim = some c → ∃ e,
    s (.escrow app c.address) = some (.escrow e) ∧ e.consumed = false ∧
      e.binding = c.binding ∧ (c.refund = true → e.refundAfter ≤ frame)
  create : ∀ c, entry.escrowCreate = some c → s (.escrow app c.address) = none

theorem consumptionRejection_none {markers : List Bytes32} (h : consumptionRejection s app markers = .ok none) :
    ∀ marker ∈ markers, s (.consumed app marker) = none := by
  induction markers with
  | nil => simp
  | cons m rest ih =>
    obtain ⟨_ | _, hb, hrest⟩ := bind_ok h
    swap
    · simp at hrest
    have hnone := isConsumed_ok hb
    intro marker hm
    rcases mem_cons.1 hm with rfl | hm
    · simpa using hnone.symm
    · exact ih (by simpa using hrest) marker hm

theorem claimRejection_none {c : EscrowClaim} (h : claimRejection s frame app (some c) = .ok none) :
    ∃ e, s (.escrow app c.address) = some (.escrow e) ∧ e.consumed = false ∧
      e.binding = c.binding ∧ (c.refund = true → e.refundAfter ≤ frame) := by
  obtain ⟨_ | e, he, hrest⟩ := bind_ok h
  · simp at hrest
  refine ⟨e, escrow_ok_some.1 he, ?_⟩
  simp only at hrest
  split_ifs at hrest with h1 h2 h3 <;> simp_all

theorem createRejection_none {c : EscrowCreate} (h : createRejection s app (some c) = .ok none) :
    s (.escrow app c.address) = none := by
  obtain ⟨oe, he, hrest⟩ := bind_ok h
  cases oe with
  | none => exact escrow_ok_none.1 he
  | some e => simp at hrest

theorem rejection_none (h : rejection env s frame app entry = .ok none) : Passed s frame app entry := by
  obtain ⟨_ | _, h1, h⟩ := bind_ok h
  swap
  · simp at h
  obtain ⟨_ | _, h2, h⟩ := bind_ok h
  swap
  · simp at h
  obtain ⟨_ | _, h3, h⟩ := bind_ok h
  swap
  · simp at h
  refine ⟨consumptionRejection_none h2, fun c hc => ?_, fun c hc => ?_⟩
  · rw [hc] at h3; exact claimRejection_none h3
  · rw [hc] at h; exact createRejection_none h

/-! ### The preparation a call makes before it decides -/

/-- The records before the decision differ from the old ones at most in the application's context and
    placement width. -/
def Prepared (app : Bytes32) (s s' : Records Node) : Prop :=
  ∀ a, a ≠ .context app → a ≠ .placementWidth app → s' a = s a

theorem Prepared.refl (app : Bytes32) (s : Records Node) : Prepared app s s :=
  fun _ _ _ => rfl

variable {depth width : ℕ}

theorem raisePlacementWidth_ok (h : raisePlacementWidth s app depth = .ok (width, s')) :
    ∃ current, placementWidth s app = .ok current ∧ width = max current (min depth MAX_BLOCK_BITS) ∧
      s' = if min depth MAX_BLOCK_BITS ≤ current then s
        else s.write (.placementWidth app) (.placementWidth width) := by
  obtain ⟨current, hc, h⟩ := bind_ok h
  refine ⟨current, hc, ?_⟩
  by_cases hle : min depth MAX_BLOCK_BITS ≤ current
  · simp only [hle, if_true, pure_eq_ok, Except.ok.injEq, Prod.mk.injEq] at h
    exact ⟨by omega, by rw [if_pos hle, h.2]⟩
  simp only [hle, if_false, pure_eq_ok, Except.ok.injEq, Prod.mk.injEq] at h
  obtain ⟨rfl, rfl⟩ := h
  exact ⟨by omega, by rw [if_neg hle]⟩

theorem raisePlacementWidth_prepared (h : raisePlacementWidth s app depth = .ok (width, s')) : Prepared app s s' := by
  obtain ⟨current, -, -, rfl⟩ := raisePlacementWidth_ok h
  intro a _ ha
  split_ifs
  · rfl
  · exact write_other ha

theorem placementWidth_bounds (h : placementWidth s app = .ok width) :
    INITIAL_BLOCK_BITS ≤ width ∧ width ≤ MAX_BLOCK_BITS := by
  obtain ⟨w, -, h⟩ := bind_ok h
  simp only at h
  split_ifs at h with hb
  cases h; omega

/-- After raising, the recorded width is the returned one. -/
theorem placementWidth_raised (h : raisePlacementWidth s app depth = .ok (width, s')) :
    placementWidth s' app = .ok width := by
  obtain ⟨current, hcur, hw, rfl⟩ := raisePlacementWidth_ok h
  have hb := placementWidth_bounds hcur
  split_ifs with hle
  · rw [hcur, hw, max_eq_left hle]
  have hread : read (s.write (.placementWidth app) (.placementWidth width))
      (placementWidthAddress app) Record.placementWidth? = .ok (some width) :=
    read_eq_ok_some.2 ⟨_, write_same _ _ _, rfl⟩
  rw [placementWidth, hread]
  simp only [ok_bind, Option.getD_some]
  rw [if_neg (by omega)]

/-! ### The three ways a call returns -/

/-- Recording the context prepares the records. -/
theorem prepared_write_context (c : Bytes32) : Prepared app s (s.write (contextAddress app) (.context c)) :=
  fun _ ha _ => write_other ha

variable {s₁ : Records Node}

theorem Prepared.trans {s₂ : Records Node} (h : Prepared app s s₁) (h' : Prepared app s₁ s₂) : Prepared app s s₂ :=
  fun a ha ha' => (h' a ha ha').trans (h a ha ha')

/-- Checks read nothing that preparation writes. -/
theorem Passed.of_prepared (h : Prepared app s s₁) (hp : Passed s₁ frame app entry) : Passed s frame app entry where
  fresh m hm := by rw [← hp.fresh m hm]; exact (h _ (by simp) (by simp)).symm
  claim c hc := by
    obtain ⟨e, he, hrest⟩ := hp.claim c hc
    exact ⟨e, by rw [← he]; exact (h _ (by simp) (by simp)).symm, hrest⟩
  create c hc := by rw [← hp.create c hc]; exact (h _ (by simp) (by simp)).symm

/-- The call rejects over prepared records. -/
def Rejects (s : Records Node) (frame : ℕ) (app : Bytes32) (entry : SpendEntry)
    (o : Outcome) (s' : Records Node) : Prop :=
  ∃ reason s₁, Prepared app s s₁ ∧ (o, s') = reject s₁ frame app entry.txId reason

/-- The call commits: the checks passed, and the writes are made over prepared records. -/
def Commits (s : Records Node) (frame : ℕ) (app : Bytes32) (entry : SpendEntry)
    (sourceShard : ShardPath) (o : Outcome) (s' : Records Node) : Prop :=
  Passed s frame app entry ∧
    ∃ s₁ width placements sequences, Prepared app s s₁ ∧
      placementWidth s₁ app = .ok width ∧
      (∀ current, placementWidth s app = .ok current → current ≤ width) ∧
      placeOutputs s₁ app width (fun _ => none) entry.outputs =
        .ok (some (placements, sequences)) ∧
      writeCommit s₁ frame app entry sourceShard width placements sequences = .ok (o, s')

theorem placementWidth_congr (h : s₁ (.placementWidth app) = s (.placementWidth app)) :
    placementWidth s₁ app = placementWidth s app := by
  rw [placementWidth, placementWidth, read_congr _ h]

variable {o : Outcome}

theorem commitChecked_cases {s₀ : Records Node} (hs₀ : Prepared app s s₀)
    (hwidth : s₀ (.placementWidth app) = s (.placementWidth app))
    (h : commitChecked env s₀ frame app entry sourceShard = .ok (o, s')) : Rejects s frame app entry o s' ∨
      Commits s frame app entry sourceShard o s' := by
  obtain ⟨r, hr, h⟩ := bind_ok h
  cases r with
  | some reason => exact .inl ⟨reason, s₀, hs₀, by simpa using h.symm⟩
  | none =>
    obtain ⟨⟨width, s₁⟩, hraise, h⟩ := bind_ok h
    obtain ⟨placed, hplace, h⟩ := bind_ok h
    have hprep := hs₀.trans (raisePlacementWidth_prepared hraise)
    rcases placed with _ | ps
    · exact .inl ⟨"block is full", s₁, hprep, by simpa using h.symm⟩
    refine .inr ⟨(rejection_none hr).of_prepared hs₀, s₁, width, ps.1, ps.2, hprep,
      placementWidth_raised hraise, fun current hcur => ?_, hplace, h⟩
    obtain ⟨current', hcur', hw, -⟩ := raisePlacementWidth_ok hraise
    rw [placementWidth_congr hwidth, hcur] at hcur'
    cases hcur'
    omega

/-- The three ways `commitEntry` returns. -/
theorem commitEntry_cases (h : commitEntry env s frame app entry sourceShard = .ok (o, s')) :
    (o = .alreadyDecided ∧ s' = s ∧ (s (.decision app entry.txId)).isSome = true) ∨
    s (.decision app entry.txId) = none ∧ entry.validateAt env frame = .ok () ∧ (Rejects s frame app entry o s' ∨
        Commits s frame app entry sourceShard o s') := by
  obtain ⟨⟨⟩, hvalid, h⟩ := bind_ok h
  obtain ⟨b, hb, h⟩ := bind_ok h
  have hdec := isDecided_ok hb
  cases b with
  | true =>
    simp only [if_true, pure_eq_ok, Except.ok.injEq, Prod.mk.injEq] at h
    exact .inl ⟨h.1.symm, h.2.symm, hdec.symm⟩
  | false =>
    refine .inr ⟨by simpa using hdec.symm, hvalid, ?_⟩
    obtain ⟨c, hc, h⟩ := bind_ok h
    rcases c with _ | c
    · exact commitChecked_cases (prepared_write_context _) (write_other) h
    by_cases hne : c = entry.context
    · exact commitChecked_cases (.refl _ _) rfl (by simpa [hne] using h)
    · simp only [ne_eq, hne, not_false_eq_true, if_true, pure_eq_ok, Except.ok.injEq] at h
      exact .inl ⟨_, s, .refl _ _, h.symm⟩

/-! ### What a commit writes, family by family -/

theorem writeConsumptions_consumed (txId : Bytes32) (markers : List Bytes32) (a m : Bytes32) :
    writeConsumptions s app txId markers (.consumed a m) =
      if a = app ∧ m ∈ markers then some (.consumed txId) else s (.consumed a m) := by
  split_ifs with h
  · obtain ⟨rfl, hm⟩ := h
    obtain ⟨kv, hkv, -, hv⟩ := s.writeAll_mem
      (markers.map fun marker => (consumedAddress a marker, Record.consumed txId))
      ⟨_, mem_map_of_mem hm, rfl⟩
    obtain ⟨_, -, rfl⟩ := mem_map.1 hkv
    exact hv
  refine writeAll_other _ _ fun kv hkv hk => h ?_
  obtain ⟨marker, hm, rfl⟩ := mem_map.1 hkv
  simp only [RecordAddress.consumed.injEq] at hk
  exact ⟨hk.1.symm, hk.2 ▸ hm⟩

variable {a : RecordAddress}

theorem writeConsumptions_other (txId : Bytes32) (markers : List Bytes32) (h : ∀ m, a ≠ .consumed app m := by simp) :
    writeConsumptions s app txId markers a = s a := by
  refine writeAll_other _ _ fun kv hkv hk => ?_
  obtain ⟨marker, -, rfl⟩ := mem_map.1 hkv
  exact h marker hk.symm

theorem writeClaim_ok {claim : Option EscrowClaim} (h : writeClaim s app claim = .ok s') :
    (claim = none ∧ s' = s) ∨ ∃ c e, claim = some c ∧ s (.escrow app c.address) = some (.escrow e) ∧
      s' = s.write (.escrow app c.address) (.escrow { e with consumed := true }) := by
  rcases claim with _ | c
  · cases h; exact .inl ⟨rfl, rfl⟩
  obtain ⟨_ | e, he, h⟩ := bind_ok h
  · simp at h
  cases h
  exact .inr ⟨c, e, rfl, escrow_ok_some.1 he, rfl⟩

theorem laneSequence_congr {lane : Lane} {block : ℕ}
    (h : s₁ (.sequence lane app block) = s (.sequence lane app block)) :
    laneSequence lane s₁ app block = laneSequence lane s app block := by
  rw [laneSequence, laneSequence, read_congr _ h]

theorem writeCreate_ok {placed : Option Placement}
    (h : writeCreate s app entry sourceShard width = .ok (placed, s')) :
    (entry.escrowCreate = none ∧ placed = none ∧ s' = s) ∨
    ∃ c block seq, entry.escrowCreate = some c ∧ blockForAddress width c.address = .ok block ∧
      laneSequence .escrow s app block = .ok seq ∧ placed = some ⟨c.address, block, seq⟩ ∧
      s' = ((s.write (.escrow app c.address) (.escrow ⟨c.binding, c.refundAfterGlobalFrame, false⟩)).write
        (.delivery .escrow app block seq) (.delivery .escrow (entry.delivery sourceShard c.address))).write
        (.sequence .escrow app block) (.sequence .escrow (seq + 1)) := by
  rw [writeCreate] at h
  rcases hc : entry.escrowCreate with _ | c
  · rw [hc] at h
    cases h
    exact .inl ⟨rfl, rfl, rfl⟩
  rw [hc] at h
  obtain ⟨block, hb, h⟩ := bind_ok h
  obtain ⟨seq, hs, h⟩ := bind_ok h
  cases h
  refine .inr ⟨c, block, seq, rfl, hb, ?_, rfl, rfl⟩
  rw [← hs]
  exact (laneSequence_congr (write_other)).symm

theorem writeDeliveries_other (placements : List Placement) (h : ∀ b i, a ≠ .delivery .coin app b i := by simp) :
    writeDeliveries s app entry sourceShard placements a = s a := by
  refine writeAll_other _ _ fun kv hkv hk => ?_
  obtain ⟨p, -, rfl⟩ := mem_map.1 hkv
  exact h p.block p.seq hk.symm

@[simp] theorem writeSequences_sequence (lane lane' : Lane) (sequences : Sequences) (a : Bytes32) (block : ℕ) :
    writeSequences lane s app sequences (.sequence lane' a block) = if lane' = lane ∧ a = app then
        ((sequences block).map (.sequence lane)).or (s (.sequence lane' a block))
      else s (.sequence lane' a block) := by
  simp only [writeSequences, overlay]
  split_ifs <;> simp

theorem writeSequences_other (lane : Lane) (sequences : Sequences)
    (h : ∀ block, a ≠ .sequence lane app block := by simp) : writeSequences lane s app sequences a = s a := by
  cases a with
  | sequence l a b =>
    rw [writeSequences_sequence, if_neg]
    rintro ⟨rfl, rfl⟩
    exact h b rfl
  | _ => rfl

theorem writeSettlement_other (settlement : Option SettlementEntry)
    (h : ∀ r, a ≠ .receipt r := by simp) : writeSettlement s settlement a = s a := by
  rcases settlement with _ | e
  · rfl
  rw [writeSettlement]
  split_ifs
  · exact write_other (h _)
  · rfl

variable {placements : List Placement} {sequences : Sequences}

theorem writeCommit_ok (h : writeCommit s frame app entry sourceShard width placements sequences = .ok (o, s')) :
    ∃ s₁ s₂ placed, writeClaim (writeConsumptions s app entry.txId entry.consumptions) app
        entry.escrowClaim = .ok s₁ ∧ writeCreate s₁ app entry sourceShard width = .ok (placed, s₂) ∧
      o = .committed entry.fee placements placed ∧
      s' = (writeSettlement (writeSequences .coin (writeDeliveries s₂ app entry sourceShard
        placements) app sequences) entry.settlement).write
          (.decision app entry.txId) (.decision (.committed frame)) := by
  obtain ⟨s₁, h₁, h⟩ := bind_ok h
  obtain ⟨⟨placed, s₂⟩, h₂, h⟩ := bind_ok h
  cases h
  exact ⟨s₁, s₂, placed, h₁, h₂, rfl, rfl⟩

/-- After the escrow phases a commit only queues, counts, records a receipt and decides. -/
theorem write_tail_other {s₂ : Records Node} (hd : ∀ b i, a ≠ .delivery .coin app b i := by simp)
    (hs : ∀ b, a ≠ .sequence .coin app b := by simp) (hr : ∀ r, a ≠ .receipt r := by simp)
    (hdec : a ≠ .decision app entry.txId := by simp) :
    ((writeSettlement (writeSequences .coin (writeDeliveries s₂ app entry sourceShard
      placements) app sequences) entry.settlement).write
        (.decision app entry.txId) (.decision (.committed frame))) a = s₂ a := by
  rw [write_other hdec, writeSettlement_other _ hr, writeSequences_other _ _ hs, writeDeliveries_other _ hd]

/-- What a commit changes among decisions, markers, escrows and orphans. -/
structure Effect (s : Records Node) (frame : ℕ) (app : Bytes32) (entry : SpendEntry)
    (s' : Records Node) : Prop where
  decision : ∀ a t, s' (.decision a t) = if a = app ∧ t = entry.txId then
    some (.decision (.committed frame)) else s (.decision a t)
  consumed : ∀ a m, s' (.consumed a m) = if a = app ∧ m ∈ entry.consumptions then
    some (.consumed entry.txId) else s (.consumed a m)
  created : ∀ c, entry.escrowCreate = some c → s' (.escrow app c.address) =
    some (.escrow ⟨c.binding, c.refundAfterGlobalFrame, false⟩)
  claimed : ∀ c, entry.escrowClaim = some c → entry.escrowCreate = none → ∃ e,
    s (.escrow app c.address) = some (.escrow e) ∧
      s' (.escrow app c.address) = some (.escrow { e with consumed := true })
  escrowOther : ∀ a x, (∀ c, entry.escrowCreate = some c → ¬ (a = app ∧ x = c.address)) →
    (∀ c, entry.escrowClaim = some c → ¬ (a = app ∧ x = c.address)) →
    s' (.escrow a x) = s (.escrow a x)
  orphan : ∀ a b, s' (.orphan a b) = s (.orphan a b)

theorem writeClaim_other {claim : Option EscrowClaim} (h : writeClaim s app claim = .ok s')
    (ha : ∀ c, claim = some c → a ≠ .escrow app c.address := by simp) : s' a = s a := by
  rcases writeClaim_ok h with ⟨-, rfl⟩ | ⟨c, e, hc, -, rfl⟩
  · rfl
  · exact write_other (ha c hc)

theorem writeCreate_other {placed : Option Placement}
    (h : writeCreate s app entry sourceShard width = .ok (placed, s'))
    (ha : ∀ c, entry.escrowCreate = some c → a ≠ .escrow app c.address := by simp)
    (hd : ∀ b i, a ≠ .delivery .escrow app b i := by simp) (hs : ∀ b, a ≠ .sequence .escrow app b := by simp) :
    s' a = s a := by
  rcases writeCreate_ok h with ⟨-, -, rfl⟩ | ⟨c, block, seq, hc, -, -, -, rfl⟩
  · rfl
  · rw [write_other (hs _), write_other (hd _ _), write_other (ha c hc)]

theorem writeCommit_effect (h : writeCommit s frame app entry sourceShard width placements sequences = .ok (o, s')) :
    Effect s frame app entry s' := by
  obtain ⟨s₁, s₂, placed, h₁, h₂, -, rfl⟩ := writeCommit_ok h
  -- a family other than escrows reaches the end of the claim and create phases unchanged
  have through : ∀ a : RecordAddress, (∀ x, a ≠ .escrow app x) →
      (∀ b i, a ≠ .delivery .escrow app b i) → (∀ b, a ≠ .sequence .escrow app b) →
      s₂ a = writeConsumptions s app entry.txId entry.consumptions a := fun a he hd hs =>
    (writeCreate_other h₂ (fun c _ => he c.address) hd hs).trans
      (writeClaim_other h₁ fun c _ => he c.address)
  refine ⟨fun a t => ?_, fun a m => ?_, fun c hc => ?_, fun c hc hnone => ?_, fun a x hcr hcl => ?_, fun a b => ?_⟩
  · split_ifs with hat
    · rw [hat.1, hat.2, write_same]
    · rw [write_tail_other (by simp) (by simp) (by simp) (by simpa using hat),
        through _ (by simp) (by simp) (by simp), writeConsumptions_other _ _]
  · rw [write_tail_other,
      through _ (by simp) (by simp) (by simp), writeConsumptions_consumed]
  · rw [write_tail_other]
    rcases writeCreate_ok h₂ with ⟨hno, -, -⟩ | ⟨c', block, seq, hc', -, -, -, rfl⟩
    · rw [hno] at hc; cases hc
    · rw [hc'] at hc; cases hc
      rw [write_other, write_other, write_same]
  · rw [write_tail_other,
      writeCreate_other h₂ (by simp [hnone])]
    rcases writeClaim_ok h₁ with ⟨hno, -⟩ | ⟨c', e, hc', he, rfl⟩
    · rw [hno] at hc; cases hc
    rw [hc'] at hc; cases hc
    rw [writeConsumptions_other _ _] at he
    exact ⟨e, he, write_same _ _ _⟩
  · have hne : ∀ {y : Bytes32}, ¬ (a = app ∧ x = y) →
        RecordAddress.escrow a x ≠ .escrow app y := fun hn heq => by
      cases heq; exact hn ⟨rfl, rfl⟩
    rw [write_tail_other,
      writeCreate_other h₂ (fun c hc => hne (hcr c hc)),
      writeClaim_other h₁ (fun c hc => hne (hcl c hc)), writeConsumptions_other _ _]
  · rw [write_tail_other,
      through _ (by simp) (by simp) (by simp), writeConsumptions_other _ _]

/-- Preparation changes none of the families an effect speaks of. -/
theorem Effect.of_prepared (hp : Prepared app s s₁)
    (h : Effect s₁ frame app entry s') : Effect s frame app entry s' where
  decision a t := by rw [h.decision, hp _ (by simp) (by simp)]
  consumed a m := by rw [h.consumed, hp _ (by simp) (by simp)]
  created := h.created
  claimed c hc hn := by
    obtain ⟨e, he, h'⟩ := h.claimed c hc hn
    exact ⟨e, by rw [← he]; exact (hp _ (by simp) (by simp)).symm, h'⟩
  escrowOther a x hcr hcl := by rw [h.escrowOther a x hcr hcl, hp _ (by simp) (by simp)]
  orphan a b := by rw [h.orphan, hp _ (by simp) (by simp)]

theorem Commits.effect (h : Commits s frame app entry sourceShard o s') : Effect s frame app entry s' := by
  obtain ⟨-, s₁, w, ps, sq, hprep, -, -, -, hw⟩ := h
  exact (writeCommit_effect hw).of_prepared hprep

theorem Commits.outcome (h : Commits s frame app entry sourceShard o s') :
    ∃ placements placed, o = .committed entry.fee placements placed := by
  obtain ⟨-, s₁, w, ps, sq, -, -, -, -, hw⟩ := h
  obtain ⟨-, -, placed, -, -, ho, -⟩ := writeCommit_ok hw
  exact ⟨ps, placed, ho⟩

end Quil.GlobalCommit
