import Quilibrium.Schemes.Queues
import Quilibrium.Token.CommitRun

/-! The delivery records of an application ARE a family of queues, one per block and lane: the sequence
    record is the length, the record at `seq` the item (`Tracks`). Under that view the code's loops are
    the queue operations of the library: placing an entry's outputs routes them to the ends of the
    queues their addresses select, and an attestation that retires a block NARROWER than the placement
    width is `moveTail`. The width matters: at the placement width itself an item's target can be the
    retired block, whose final count then overwrites the count its own items took. -/

namespace Quil.DeliveryQueues
open Schemes GlobalRecords GlobalCommit Orphans CommitRun List Store
open CoinBlocks hiding invalid

variable {Node : Type} {s s' : Records Node} {app : Bytes32} {lane : Lane}

/-- The records of a lane hold these queues' items, and nothing beyond their ends. -/
structure Holds (lane : Lane) (app : Bytes32) (s : Records Node) (q : ℕ → List Delivery) :
    Prop where
  item : ∀ b i d, (q b)[i]? = some d → s (.delivery lane app b i) = some (.delivery lane d)
  beyond : ∀ b i, (q b).length ≤ i → s (.delivery lane app b i) = none ∨
    ∃ a t n, s (.delivery lane app b i) = some (.moved lane a t n)

/-- The lane's sequence numbers, under pending counts, are these queues' lengths. -/
def Counts (lane : Lane) (app : Bytes32) (s : Records Node) (sequences : Sequences)
    (q : ℕ → List Delivery) : Prop :=
  ∀ b, nextSequence lane s app sequences b = .ok (q b).length

/-- The records of a lane are these queues. -/
structure Tracks (lane : Lane) (app : Bytes32) (s : Records Node)
    (q : ℕ → List Delivery) : Prop where
  counts : ∀ b, laneSequence lane s app b = .ok (q b).length
  holds : Holds lane app s q

variable {q : ℕ → List Delivery}

/-- Reading a delivery is indexing its queue. -/
theorem Tracks.delivery (h : Tracks lane app s q) (b i : ℕ) : laneDelivery lane s app b i = .ok (q b)[i]? := by
  rw [laneDelivery]
  cases hi : (q b)[i]? with
  | some d =>
    have hd := h.holds.item b i d hi
    rw [hd]
    exact read_eq_ok_some.2 ⟨_, hd, by simp⟩
  | none =>
    rcases h.holds.beyond b i (getElem?_eq_none_iff.1 hi) with hn | ⟨a, t, n, hm⟩
    · rw [hn]; exact read_eq_ok_none.2 hn
    · rw [hm]; simp

/-- The lane's records determine the queues. -/
theorem Tracks.unique {q' : ℕ → List Delivery} (h : Tracks lane app s q) (h' : Tracks lane app s q') : q = q' := by
  funext b
  refine ext_getElem? fun i => ?_
  have := h.delivery b i
  rw [h'.delivery b i] at this
  exact (Except.ok.inj this).symm

theorem Holds.congr (h : Holds lane app s q)
    (hdel : ∀ b i, s' (.delivery lane app b i) = s (.delivery lane app b i)) : Holds lane app s' q :=
  ⟨fun b i d hi => by rw [hdel]; exact h.item b i d hi, fun b i hi => by rw [hdel]; exact h.beyond b i hi⟩

/-- Queues depend on the lane's own records only. -/
theorem Tracks.congr (h : Tracks lane app s q) (hseq : ∀ b, s' (.sequence lane app b) = s (.sequence lane app b))
    (hdel : ∀ b i, s' (.delivery lane app b i) = s (.delivery lane app b i)) : Tracks lane app s' q where
  counts b := by rw [laneSequence_congr (hseq b), h.counts]
  holds := h.holds.congr hdel

/-- Empty records are empty queues. -/
theorem tracks_empty (lane : Lane) (app : Bytes32) : Tracks lane app (.empty : Records Node) fun _ => [] where
  counts b := rfl
  holds := ⟨by simp, fun b i _ => .inl rfl⟩

/-! ### One item at the end of a queue -/

theorem getElem?_push {k b i : ℕ} {d d' : Delivery} (h : (push q k d b)[i]? = some d') :
    (q b)[i]? = some d' ∨ (b = k ∧ i = (q k).length ∧ d' = d) := by
  by_cases hb : b = k
  · subst hb
    simp only [push, if_true] at h
    rcases lt_or_ge i (q b).length with hi | hi
    · rw [getElem?_append_left hi] at h; exact .inl h
    rw [getElem?_append_right hi] at h
    obtain ⟨h0, hd⟩ := List.getElem?_eq_some_iff.1 h
    simp only [length_singleton] at h0
    exact .inr ⟨rfl, by omega, by simp at hd; exact hd.symm⟩
  · simp only [push, hb, if_false] at h; exact .inl h

theorem length_push (q : ℕ → List Delivery) (k b : ℕ) (d : Delivery) :
    (push q k d b).length = if b = k then (q k).length + 1 else (q b).length := by
  by_cases hb : b = k
  · subst hb; simp [push]
  · simp [push, hb]

/-- Writing an item at a queue's length puts it at the end. -/
theorem Holds.push (h : Holds lane app s q) (k : ℕ) (d : Delivery) : Holds lane app
      (s.write (.delivery lane app k (q k).length) (.delivery lane d)) (push q k d) where
  item b i d' hi := by
    rcases getElem?_push hi with hold | ⟨rfl, rfl, rfl⟩
    · rw [write_other ?_]
      · exact h.item b i d' hold
      · rintro ⟨⟩
        exact absurd (List.getElem?_eq_some_iff.1 hold).1 (lt_irrefl _)
    · exact write_same _ _ _
  beyond b i hi := by
    rw [length_push] at hi
    rw [write_other ?_]
    · refine h.beyond b i ?_
      split_ifs at hi with hb
      · subst hb; omega
      · exact hi
    · rintro ⟨⟩
      simp at hi

/-- Taking a sequence number counts one more item. -/
theorem nextSequence_push {sequences : Sequences} (k : ℕ) (d : Delivery) {b : ℕ}
    (h : nextSequence lane s app sequences b = .ok (q b).length) :
    nextSequence lane s app (Function.update sequences k (some ((q k).length + 1))) b = .ok (push q k d b).length := by
  rw [length_push]
  by_cases hb : b = k
  · subst hb; simp [nextSequence]
  simp only [nextSequence, Function.update_of_ne hb, if_neg hb] at h ⊢
  exact h

theorem laneSequence_writeSequences (sequences : Sequences) (b : ℕ) :
    laneSequence lane (writeSequences lane s app sequences) app b = nextSequence lane s app sequences b := by
  rw [nextSequence, laneSequence]
  rcases hb : sequences b with _ | n
  · rw [laneSequence, read_congr (Record.sequence? lane)
      (show writeSequences lane s app sequences (.sequence lane app b) = _ by
        simp [hb]; rfl)]
  have hread : read (writeSequences lane s app sequences)
      (.sequence lane app b) (Record.sequence? lane) = .ok (some n) :=
    read_eq_ok_some.2 ⟨.sequence lane n, by simp [hb], by simp⟩
  rw [hread]; rfl

/-! ### Placing an entry's outputs -/

/-- The block an address selects at a width. -/
def blockAt (width : ℕ) (address : Bytes32) : ℕ := 2 ^ width + value (leadingBits address width)

variable {a : Bytes32} {block : ℕ}

theorem blockForAddress_eq {width : ℕ} (h : blockForAddress width a = .ok block) : block = blockAt width a := by
  obtain ⟨hlo, hhi, -, -⟩ := blockForAddress_spec h
  rw [blockForAddress_ok a hlo hhi] at h
  exact (Except.ok.inj h).symm

/-- Deliveries are routed by address. -/
def route (width : ℕ) (d : Delivery) : ℕ := blockAt width d.address

section
variable {width : ℕ} {sequences final : Sequences} {placements : List Placement}

/-- The first output takes the next place of the block its address selects, which has room. -/
theorem placeOutputs_cons {rest : List Bytes32} (hc : Counts .coin app s sequences q)
    (h : placeOutputs s app width sequences (a :: rest) = .ok (some (placements, final))) :
    ∃ ps, placements = ⟨a, blockAt width a, (q (blockAt width a)).length⟩ :: ps ∧
      (q (blockAt width a)).length < BLOCK_CAPACITY ∧
      placeOutputs s app width (Function.update sequences (blockAt width a)
        (some ((q (blockAt width a)).length + 1))) rest = .ok (some (ps, final)) := by
  obtain ⟨block, hb, h⟩ := bind_ok h
  obtain ⟨next, hn, h⟩ := bind_ok h
  obtain rfl := blockForAddress_eq hb
  rw [hc] at hn
  cases hn
  split_ifs at h with hfull
  · cases h
  obtain ⟨_ | ⟨ps, fin⟩, hr, h⟩ := bind_ok h
  · cases h
  cases h
  exact ⟨ps, rfl, not_le.1 hfull, hr⟩

end

/-- Placed outputs, once queued, are at the ends of the queues their addresses select. -/
theorem placeOutputs_enqueue {width : ℕ} (entry : SpendEntry) (shard : ShardPath) (outputs : List Bytes32) :
    ∀ {sequences final : Sequences} {placements : List Placement} {q : ℕ → List Delivery} {t : Records Node},
      placeOutputs s app width sequences outputs = .ok (some (placements, final)) →
      Counts .coin app s sequences q → Holds .coin app t q → Counts .coin app s final
        (enqueue (route width) q (outputs.map (entry.delivery shard))) ∧
      Holds .coin app (writeDeliveries t app entry shard placements)
        (enqueue (route width) q (outputs.map (entry.delivery shard))) := by
  induction outputs with
  | nil =>
    intro sequences final placements q t h hc hh
    cases h
    exact ⟨hc, hh⟩
  | cons a rest ih =>
    intro sequences final placements q t h hc hh
    obtain ⟨ps, rfl, -, hrest⟩ := placeOutputs_cons hc h
    have hafter := ih hrest (fun b => nextSequence_push _ (entry.delivery shard a) (hc b))
      (hh.push _ (entry.delivery shard a))
    exact hafter

/-! ### A commit -/

/-- What an entry queues in a lane: its outputs, or the escrow it creates. -/
def laneItems (lane : Lane) (entry : SpendEntry) (shard : ShardPath) : List Delivery :=
  match lane with
  | .coin => entry.outputs.map (entry.delivery shard)
  | .escrow => entry.escrowCreate.toList.map fun c => entry.delivery shard c.address

theorem nextSequence_congr {sequences : Sequences} {b : ℕ}
    (h : s' (.sequence lane app b) = s (.sequence lane app b)) :
    nextSequence lane s' app sequences b = nextSequence lane s app sequences b := by
  rw [nextSequence, nextSequence, laneSequence_congr h]

variable {frame width : ℕ} {entry : SpendEntry} {shard : ShardPath} {o : Outcome}
  {placements : List Placement} {sequences : Sequences}

/-- A commit's writes queue the placed outputs. -/
theorem writeCommit_tracks_coin (hplace : placeOutputs s app width (fun _ => none) entry.outputs =
      .ok (some (placements, sequences)))
    (hw : writeCommit s frame app entry shard width placements sequences = .ok (o, s'))
    (hq : Tracks .coin app s q) :
    Tracks .coin app s' (enqueue (route width) q (laneItems .coin entry shard)) := by
  obtain ⟨s₁, s₂, placed, h₁, h₂, -, rfl⟩ := writeCommit_ok hw
  -- the escrow phases leave the coin lane alone
  have hsame : ∀ a : RecordAddress, (∀ m, a ≠ .consumed app m) →
      (∀ x, a ≠ .escrow app x) → (∀ b i, a ≠ .delivery .escrow app b i) →
      (∀ b, a ≠ .sequence .escrow app b) → s₂ a = s a := fun a hc he hd hs =>
    ((writeCreate_other h₂ (fun c _ => he c.address) hd hs).trans
      (writeClaim_other h₁ fun c _ => he c.address)).trans (writeConsumptions_other _ _ hc)
  have hholds : Holds .coin app s₂ q :=
    hq.holds.congr fun b i => hsame _ (by simp) (by simp) (by simp) (by simp)
  obtain ⟨hcounts, hafter⟩ := placeOutputs_enqueue entry shard entry.outputs
    hplace hq.counts hholds
  refine ⟨fun b => ?_, hafter.congr fun b i => ?_⟩
  · rw [laneSequence_congr ((write_other).trans (writeSettlement_other _)), laneSequence_writeSequences,
      nextSequence_congr ((writeDeliveries_other _).trans (hsame _ (by simp) (by simp) (by simp) (by simp)))]
    exact hcounts b
  · rw [write_other, writeSettlement_other _, writeSequences_other _ _]

/-- Creating an escrow queues it. -/
theorem writeCreate_tracks {placed : Option Placement} (h : writeCreate s app entry shard width = .ok (placed, s'))
    (hq : Tracks .escrow app s q) :
    Tracks .escrow app s' (enqueue (route width) q (laneItems .escrow entry shard)) := by
  rcases writeCreate_ok h with ⟨hnone, -, rfl⟩ | ⟨c, block, seq, hc, hb, hs, -, rfl⟩
  · simpa [laneItems, hnone, enqueue] using hq
  have hblock : block = route width (entry.delivery shard c.address) := blockForAddress_eq hb
  rw [hq.counts] at hs
  cases hs
  have hesc : Holds .escrow app (s.write (.escrow app c.address)
      (.escrow ⟨c.binding, c.refundAfterGlobalFrame, false⟩)) q :=
    hq.holds.congr fun b i => write_other
  simp only [laneItems, hc, Option.toList_some, map_cons, map_nil, enqueue, ← hblock]
  refine ⟨fun b => ?_, (hesc.push block _).congr fun b i => write_other⟩
  rw [length_push]
  split_ifs with hbk
  · subst hbk
    rw [laneSequence, read_eq_ok_some.2 ⟨_, write_same _ _ _, by simp; rfl⟩]; rfl
  · rw [laneSequence_congr ((write_other (by simpa using hbk)).trans
      ((write_other).trans write_other)), hq.counts]

/-- A commit's writes queue the created escrow. -/
theorem writeCommit_tracks_escrow (hw : writeCommit s frame app entry shard width placements sequences = .ok (o, s'))
    (hq : Tracks .escrow app s q) :
    Tracks .escrow app s' (enqueue (route width) q (laneItems .escrow entry shard)) := by
  obtain ⟨s₁, s₂, placed, h₁, h₂, -, rfl⟩ := writeCommit_ok hw
  have hs₁ : Tracks .escrow app s₁ q :=
    hq.congr (fun b => (writeClaim_other h₁).trans (writeConsumptions_other _ _))
      fun b i => (writeClaim_other h₁).trans (writeConsumptions_other _ _)
  exact (writeCreate_tracks h₂ hs₁).congr (fun b => write_tail_other)
    fun b i => write_tail_other

/-- A commit leaves the queues of other applications alone. -/
theorem writeCommit_tracks_other (ha : a ≠ app)
    (hw : writeCommit s frame app entry shard width placements sequences = .ok (o, s'))
    (hq : Tracks lane a s q) : Tracks lane a s' q := by
  obtain ⟨s₁, s₂, placed, h₁, h₂, -, rfl⟩ := writeCommit_ok hw
  have hseq : ∀ l l' b b', RecordAddress.sequence l a b ≠ .sequence l' app b' := by
    intro l l' b b' h; injection h with _ h; exact ha h
  have hdel : ∀ l l' b i b' i', RecordAddress.delivery l a b i ≠ .delivery l' app b' i' := by
    intro l l' b i b' i' h; injection h with _ h; exact ha h
  refine hq.congr (fun b => ?_) fun b i => ?_
  · rw [write_tail_other (by simp) (fun _ => hseq _ _ _ _),
      writeCreate_other h₂ (by simp) (by simp) (fun _ => hseq _ _ _ _),
      writeClaim_other h₁, writeConsumptions_other _ _]
  · rw [write_tail_other (fun _ _ => hdel _ _ _ _ _ _), writeCreate_other h₂ (by simp) (fun _ _ => hdel _ _ _ _ _ _),
      writeClaim_other h₁, writeConsumptions_other _ _]

/-- Preparation leaves every queue alone. -/
theorem Tracks.of_prepared (hq : Tracks lane a s q) (h : Prepared app s s') : Tracks lane a s' q :=
  hq.congr (fun _ => h _ (by simp) (by simp)) fun _ _ => h _ (by simp) (by simp)

/-! ### Moving the tail of a retired block -/

/-- The records midway through a move: the queues without the items still to be moved, which sit
    beyond the end of the retired block's queue. -/
structure Moving (lane : Lane) (app : Bytes32) (s : Records Node) (q : ℕ → List Delivery)
    (block : ℕ) (pending : List (ℕ × Delivery)) : Prop where
  item : ∀ b i d, (q b)[i]? = some d → s (.delivery lane app b i) = some (.delivery lane d)
  waiting : ∀ p ∈ pending, s (.delivery lane app block p.1) = some (.delivery lane p.2)
  beyond : ∀ b i, (q b).length ≤ i → (b = block ∧ i ∈ pending.map Prod.fst) ∨
    s (.delivery lane app b i) = none ∨
    ∃ a t n, s (.delivery lane app b i) = some (.moved lane a t n)
  above : ∀ p ∈ pending, (q block).length ≤ p.1
  nodup : (pending.map Prod.fst).Nodup

/-- Moving one item puts it at the end of the queue it is routed to. -/
theorem Moving.step {seq target : ℕ} {d : Delivery} {rest : List (ℕ × Delivery)}
    (h : Moving lane app s q block ((seq, d) :: rest)) (hne : target ≠ block) : Moving lane app
      ((s.write (.delivery lane app target (q target).length) (.delivery lane d)).write
        (.delivery lane app block seq) (.moved lane d.address target (q target).length))
      (push q target d) block rest := by
  have habove : (q block).length ≤ seq := h.above _ mem_cons_self
  have hnd := h.nodup
  rw [map_cons, nodup_cons] at hnd
  have hpush : (push q target d) block = q block := by simp [push, hne.symm]
  have hold : ∀ b i, ¬ (b = block ∧ i = seq) → ¬ (b = target ∧ i = (q target).length) →
      ((s.write (.delivery lane app target (q target).length) (.delivery lane d)).write
        (.delivery lane app block seq) (.moved lane d.address target (q target).length))
        (.delivery lane app b i) = s (.delivery lane app b i) := fun b i h₁ h₂ => by
    rw [write_other (by simpa using h₁), write_other (by simpa using h₂)]
  refine ⟨fun b i d' hi => ?_, fun p hp => ?_, fun b i hi => ?_, fun p hp => ?_, hnd.2⟩
  · rcases getElem?_push hi with hq | ⟨rfl, rfl, rfl⟩
    · have hlt := (List.getElem?_eq_some_iff.1 hq).1
      rw [hold, h.item b i d' hq]
      · rintro ⟨rfl, rfl⟩; omega
      · rintro ⟨rfl, rfl⟩; omega
    · rw [write_other (by simp [hne]), write_same]
  · rw [hold, h.waiting p (mem_cons_of_mem _ hp)]
    · rintro ⟨-, he⟩
      have hmem : p.1 ∈ rest.map Prod.fst := mem_map_of_mem hp
      exact hnd.1 (he ▸ hmem)
    · rintro ⟨he, -⟩; exact hne he.symm
  · by_cases hat : b = block ∧ i = seq
    · obtain ⟨rfl, rfl⟩ := hat
      exact .inr (.inr ⟨_, _, _, write_same _ _ _⟩)
    rw [length_push] at hi
    have hlen : (q b).length ≤ i := by split_ifs at hi with hb <;> [(subst hb; omega); exact hi]
    rw [hold b i hat (by rintro ⟨rfl, rfl⟩; simp at hi)]
    rcases h.beyond b i hlen with ⟨hb, hm⟩ | hrest
    · rcases mem_cons.1 hm with he | hm
      · exact absurd ⟨hb, he⟩ hat
      · exact .inl ⟨hb, hm⟩
    · exact .inr hrest
  · rw [hpush]; exact h.above p (mem_cons_of_mem _ hp)

/-- Moving all pending items routes them, and takes a sequence number for each. -/
theorem moveItems_enqueue (hroute : ∀ d, route width d ≠ block) (pending : List (ℕ × Delivery)) :
    ∀ {s s' : Records Node} {sequences final : Sequences} {q : ℕ → List Delivery},
      moveItems lane app block width s sequences (pending.map Prod.fst) = .ok (s', final) →
      Moving lane app s q block pending → (∀ b, b ≠ block → nextSequence lane s app sequences b = .ok (q b).length) →
      sequences block = none → Holds lane app s' (enqueue (route width) q (pending.map Prod.snd)) ∧
      (∀ b, b ≠ block → nextSequence lane s app final b =
        .ok (enqueue (route width) q (pending.map Prod.snd) b).length) ∧
      final block = none ∧ enqueue (route width) q (pending.map Prod.snd) block = q block := by
  induction pending with
  | nil =>
    intro s s' sequences final q h hm hc hn
    cases h
    refine ⟨⟨hm.item, fun b i hi => (hm.beyond b i hi).resolve_left (by simp)⟩, hc, hn, rfl⟩
  | cons p rest ih =>
    obtain ⟨seq, d⟩ := p
    intro s s' sequences final q h hm hc hn
    obtain ⟨⟨s₁, sq₁⟩, h₁, h⟩ := bind_ok h
    obtain ⟨record, target, next, hrec, htarget, hnext, -, rfl, rfl⟩ := moveItem_ok h₁
    have hd := hm.waiting _ mem_cons_self
    have hrec' : record = d := by
      rw [laneDelivery, hd] at hrec
      obtain ⟨r, hr, hk⟩ := read_eq_ok_some.1 hrec
      rw [hd] at hr
      cases hr
      exact ((Record.delivery.inj (Record.delivery?_eq_some.1 hk)).2).symm
    subst hrec'
    have ht : target = route width record := blockForAddress_eq htarget
    have hne : target ≠ block := ht ▸ hroute record
    rw [hc target hne] at hnext
    cases hnext
    obtain ⟨hholds, hfinal, hnone, hblock⟩ := ih h (hm.step hne)
      (fun b hb => (nextSequence_congr ((write_other).trans write_other)).trans (nextSequence_push target record (hc b hb)))
      (by rw [Function.update_of_ne hne.symm, hn])
    rw [map_cons, enqueue, ← ht]
    refine ⟨hholds, fun b hb => ?_, hnone, hblock.trans (by simp [push, hne.symm])⟩
    rw [← hfinal b hb]
    exact (nextSequence_congr ((write_other).trans write_other)).symm

/-- Once a block is cut, the items beyond are pending, with the positions they move from. -/
theorem Tracks.moving {n : ℕ} (hq : Tracks lane app s q) (hn : n ≤ (q block).length) :
    ∃ pending : List (ℕ × Delivery), pending.map Prod.fst = range' n ((q block).length - n) ∧
      pending.map Prod.snd = (q block).drop n ∧ Moving lane app s (truncate q block n) block pending := by
  set pending := (range' n ((q block).length - n)).zip ((q block).drop n) with hpending
  have hpos : pending.map Prod.fst = range' n ((q block).length - n) := map_fst_zip (by simp)
  have hat : ∀ p ∈ pending, (q block)[p.1]? = some p.2 := by
    rintro ⟨i, d⟩ hp
    obtain ⟨j, hj⟩ := mem_iff_getElem?.1 hp
    rw [hpending, getElem?_zip_eq_some] at hj
    obtain ⟨hj', hi⟩ := List.getElem?_eq_some_iff.1 hj.1
    rw [getElem_range', one_mul] at hi
    rw [← hi, ← hj.2, getElem?_drop]
  refine ⟨pending, hpos, map_snd_zip (by simp), fun b i d hi => ?_, fun p hp => hq.holds.item _ _ _ (hat p hp),
    fun b i hi => ?_, fun p hp => ?_, by rw [hpos]; exact nodup_range'⟩
  · refine hq.holds.item b i d ?_
    by_cases hb : b = block
    · subst hb
      simp only [truncate, if_true, getElem?_take] at hi
      split_ifs at hi
      exact hi
    · simpa [truncate, hb] using hi
  · by_cases hb : b = block
    · subst hb
      simp only [truncate, if_true, length_take, Nat.min_eq_left hn] at hi
      rcases lt_or_ge i (q b).length with hlt | hge
      · refine .inl ⟨rfl, ?_⟩
        rw [hpos, mem_range'_1]
        omega
      · exact .inr (hq.holds.beyond b i hge)
    · simp only [truncate, hb, if_false] at hi
      exact .inr (hq.holds.beyond b i hi)
  · have hmem : p.1 ∈ pending.map Prod.fst := mem_map_of_mem hp
    rw [hpos, mem_range'_1] at hmem
    simp only [truncate, if_true, length_take]
    omega

/-- Cutting a block and moving what lies beyond is `moveTail`, when no item is routed back to it. -/
theorem moveItems_moveTail {n : ℕ} {final : Sequences}
    (hroute : ∀ d, route width d ≠ block) (hq : Tracks lane app s q) (hn : n ≤ (q block).length)
    (h : moveItems lane app block width s (fun _ => none) (range' n ((q block).length - n)) = .ok (s', final)) :
    Holds lane app s' (moveTail (route width) q block n) ∧
      ∀ b, nextSequence lane s app (endBlock final block n (q block).length) b =
        .ok (moveTail (route width) q block n b).length := by
  obtain ⟨pending, hpos, hitems, hmoving⟩ := hq.moving hn
  rw [← hpos] at h
  obtain ⟨hholds, hcounts, hnone, hblock⟩ := moveItems_enqueue hroute pending h hmoving
    (fun b hb => by simpa [nextSequence, truncate, hb] using hq.counts b) rfl
  rw [hitems] at hholds hcounts hblock
  refine ⟨hholds, fun b => ?_⟩
  by_cases hb : b = block
  · subst hb
    have hlen : (moveTail (route width) q b n b).length = n := by
      rw [moveTail, hblock]
      simp [truncate, hn]
    rw [hlen, endBlock]
    split_ifs with hlt
    · simp [nextSequence]
    have := hq.counts b
    simp only [nextSequence, hnone]
    rw [this, le_antisymm hn (not_lt.1 hlt)]
  rw [← moveTail] at hcounts
  rw [← hcounts b hb, endBlock]
  split_ifs
  · simp only [nextSequence, Function.update_of_ne hb]
  · rfl

/-- At a wider placement width no item is routed to the block. -/
theorem route_ne (hlo : INITIAL_BLOCK_BITS ≤ width) (hhi : width ≤ MAX_BLOCK_BITS)
    (hw : creationWidth block < width) (d : Delivery) : route width d ≠ block := by
  intro he
  have hspec := (blockForAddress_spec (blockForAddress_ok d.address hlo hhi)).2.2.1
  rw [← he, route, blockAt, hspec] at hw
  exact lt_irrefl _ hw

/-- The count an attestation gives for a lane. -/
def attestedCount (lane : Lane) (coins escrows : ℕ) : ℕ :=
  match lane with
  | .coin => coins
  | .escrow => escrows

/-- Attesting a block narrower than the placement width moves exactly its undelivered tail. -/
theorem applyOrphanAttestation_moveTail {coins escrows : ℕ}
    (h : applyOrphanAttestation s app block coins escrows = .ok (true, s'))
    (hwidth : placementWidth s app = .ok width) (hnarrow : creationWidth block < width) (hq : Tracks lane app s q) :
    Tracks lane app s' (moveTail (route width) q block (attestedCount lane coins escrows)) := by
  rcases applyOrphanAttestation_ok h with ⟨hf, -⟩ | ⟨_, committed, committedEscrows, width', s₁, s₂,
    sq, esq, -, -, -, hc, he, hcl, hel, hw', h₁, h₂, rfl⟩
  · cases hf
  rw [hwidth] at hw'
  cases hw'
  obtain ⟨hlo, hhi⟩ := placementWidth_bounds hwidth
  have hroute := route_ne hlo hhi hnarrow
  cases lane with
  | coin =>
    rw [hq.counts] at hc
    cases hc
    obtain ⟨hholds, hcounts⟩ := moveItems_moveTail hroute hq hcl h₁
    refine ⟨fun b => ?_, hholds.congr fun b i => ?_⟩
    · rw [laneSequence_congr ((write_other).trans (writeSequences_other _ _)), laneSequence_writeSequences,
        nextSequence_congr ((moveItems_other (by simp) _ h₂).trans (moveItems_other (by simp) _ h₁))]
      exact hcounts b
    · rw [write_other, writeSequences_other _ _, writeSequences_other _ _, moveItems_other (by simp) _ h₂]
  | escrow =>
    rw [hq.counts] at he
    cases he
    have hq₁ : Tracks .escrow app s₁ q :=
      hq.congr (fun b => moveItems_other (by simp) _ h₁) fun b i => moveItems_other (by simp) _ h₁
    obtain ⟨hholds, hcounts⟩ := moveItems_moveTail hroute hq₁ hel h₂
    refine ⟨fun b => ?_, hholds.congr fun b i => ?_⟩
    · rw [laneSequence_congr write_other, laneSequence_writeSequences,
        nextSequence_congr ((writeSequences_other _ _).trans (moveItems_other (by simp) _ h₂))]
      exact hcounts b
    · rw [write_other, writeSequences_other _ _, writeSequences_other _ _]

/-! ### When a move succeeds -/

/-- Moving succeeds when every queue has room for what it gets. -/
theorem moveItems_of_room (hlo : INITIAL_BLOCK_BITS ≤ width) (hhi : width ≤ MAX_BLOCK_BITS)
    (hroute : ∀ d, route width d ≠ block) (pending : List (ℕ × Delivery)) :
    ∀ {s : Records Node} {sequences : Sequences} {q : ℕ → List Delivery},
      Moving lane app s q block pending → (∀ b, b ≠ block → nextSequence lane s app sequences b = .ok (q b).length) →
      (∀ d ∈ pending.map Prod.snd,
        (enqueue (route width) q (pending.map Prod.snd) (route width d)).length ≤ BLOCK_CAPACITY) →
      ∃ r, moveItems lane app block width s sequences (pending.map Prod.fst) = .ok r := by
  induction pending with
  | nil => exact fun _ _ _ => ⟨_, rfl⟩
  | cons p rest ih =>
    obtain ⟨seq, d⟩ := p
    intro s sequences q hm hc hroom
    have hd := hm.waiting _ mem_cons_self
    have hread : laneDelivery lane s app block seq = .ok (some d) := by
      rw [laneDelivery, hd]
      exact read_eq_ok_some.2 ⟨_, hd, by simp⟩
    have hfree : (q (route width d)).length < BLOCK_CAPACITY := by
      have hfull := hroom d (by simp)
      rw [map_cons, enqueue, length_enqueue, length_push, if_pos rfl] at hfull
      dsimp only at hfull
      omega
    have hitem : moveItem lane app block width s sequences seq =
        .ok ((s.write (.delivery lane app (route width d) (q (route width d)).length) (.delivery lane d)).write
            (.delivery lane app block seq) (.moved lane d.address (route width d) (q (route width d)).length),
          Function.update sequences (route width d) (some ((q (route width d)).length + 1))) := by
      rw [moveItem, hread, ok_bind]
      dsimp only
      rw [blockForAddress_ok d.address hlo hhi, ok_bind]
      change (nextSequence lane s app sequences (route width d) >>= _) = _
      rw [hc _ (hroute d), ok_bind, if_neg (not_le.2 hfree)]
      rfl
    rw [map_cons, moveItems, hitem, ok_bind]
    exact ih (hm.step (hroute d)) (fun b hb => (nextSequence_congr ((write_other).trans write_other)).trans
      (nextSequence_push _ d (hc b hb))) fun d' hd' => hroom d' (mem_cons_of_mem _ hd')

/-- An attestation of a marked block is applied when what it attests was committed and every queue has room. -/
theorem applyOrphanAttestation_of_room {coins escrows : ℕ} {o : Orphan} {q : Lane → ℕ → List Delivery}
    (ho : s (.orphan app block) = some (.orphan o)) (hmarked : o.moved = false)
    (hwidth : placementWidth s app = .ok width) (hnarrow : creationWidth block < width)
    (hq : ∀ lane, Tracks lane app s (q lane))
    (hcount : ∀ lane, attestedCount lane coins escrows ≤ (q lane block).length)
    (hroom : ∀ lane, ∀ d ∈ (q lane block).drop (attestedCount lane coins escrows),
      (moveTail (route width) (q lane) block (attestedCount lane coins escrows) (route width d)).length ≤
        BLOCK_CAPACITY) :
    ∃ s', applyOrphanAttestation s app block coins escrows = .ok (true, s') := by
  obtain ⟨hlo, hhi⟩ := placementWidth_bounds hwidth
  have hroute := route_ne hlo hhi hnarrow
  have hmove : ∀ lane {s : Records Node}, Tracks lane app s (q lane) →
      ∃ r, moveItems lane app block width s (fun _ => none) (range' (attestedCount lane coins escrows)
        ((q lane block).length - attestedCount lane coins escrows)) = .ok r := by
    intro lane s hq
    obtain ⟨pending, hpos, hitems, hmoving⟩ := hq.moving (hcount lane)
    rw [← hpos]
    refine moveItems_of_room hlo hhi hroute pending hmoving
      (fun b hb => by simpa [nextSequence, truncate, hb] using hq.counts b) ?_
    rw [hitems]
    exact hroom lane
  obtain ⟨⟨s₁, sequences⟩, h₁⟩ := hmove .coin (hq .coin)
  obtain ⟨⟨s₂, escrowSequences⟩, h₂⟩ := hmove .escrow (s := s₁) ((hq .escrow).congr
    (fun b => moveItems_other (by simp) _ h₁) fun b i => moveItems_other (by simp) _ h₁)
  have hcoins := hcount .coin
  have hescrows := hcount .escrow
  dsimp only [attestedCount] at h₁ h₂ hcoins hescrows
  rw [applyOrphanAttestation, orphan_ok_some.2 ho, ok_bind]
  dsimp only
  rw [if_neg (by simp [hmarked]), blockSequence, (hq .coin).counts, ok_bind, escrowSequence, (hq .escrow).counts,
    ok_bind, if_neg (by omega), hwidth, ok_bind, h₁, ok_bind]
  dsimp only
  rw [h₂]
  exact ⟨_, rfl⟩

end Quil.DeliveryQueues
