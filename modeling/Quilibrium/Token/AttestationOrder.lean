import Quilibrium.Token.GlobalAccumulator

/-! Attestations of one application's orphaned blocks, in any order. An attestation of a MARKED block retires it with
    its counts; every later one with the same counts changes nothing, and one with other counts is refused. What the
    retired blocks move goes to wider blocks, which are not retired themselves, so the attestations do not meet except
    in the room of their targets. -/

namespace Quil.AttestationOrder
open Schemes GlobalRecords GlobalCommit Orphans DeliveryQueues GlobalAccumulator List Store
open CoinBlocks hiding invalid
open ShardAccumulator (BlockAttestation)

variable {Node : Type}

/-- Whether a block is marked and not yet retired. -/
def isMarked (s : Records Node) (app : Bytes32) (block : ℕ) : Bool :=
  match s (.orphan app block) with
  | some (.orphan o) => !o.moved
  | _ => false

/-- The attestations of marked blocks. -/
def retiring (s : Records Node) (app : Bytes32) (attestations : List BlockAttestation) : Finset BlockAttestation :=
  (attestations.filter fun a => isMarked s app a.block).toFinset

/-- What an attestation says a lane of its block received. -/
def received (lane : Lane) (a : BlockAttestation) : ℕ := attestedCount lane a.coins a.escrows

/-- How many items of a lane an attestation moves to a block. -/
def share (lane : Lane) (width : ℕ) (q : ℕ → List Delivery) (target : ℕ) (a : BlockAttestation) : ℕ :=
  ((q a.block).drop (received lane a)).countP (route width · = target)

/-- Queues that the attestations of marked blocks cut below the placement width, with room for all that moves. -/
structure Retirable (lane : Lane) (app : Bytes32) (s : Records Node) (width : ℕ) (attested : Finset BlockAttestation)
    (q : ℕ → List Delivery) : Prop where
  tracks : Tracks lane app s q
  committed : ∀ a ∈ attested, received lane a ≤ (q a.block).length
  room : ∀ target, ∑ a ∈ attested, share lane width q target a ≠ 0 →
    (q target).length + ∑ a ∈ attested, share lane width q target a ≤ BLOCK_CAPACITY

/-- Attestations these records take: a retired block is attested as it was retired, and a marked one, narrower than
    the placement width, with one pair of counts that was committed. -/
structure Attestable (s : Records Node) (app : Bytes32) (width : ℕ) (attestations : List BlockAttestation) : Prop where
  orphan : ∀ a ∈ attestations, s (.orphan app a.block) = none ∨
    ∃ o, s (.orphan app a.block) = some (.orphan o) ∧ (o.moved = true → o.coins = a.coins ∧ o.escrows = a.escrows)
  agree : ∀ a ∈ retiring s app attestations, ∀ a' ∈ retiring s app attestations, a.block = a'.block → a = a'
  narrow : ∀ a ∈ retiring s app attestations, creationWidth a.block < width
  queues : (retiring s app attestations).Nonempty →
    ∀ lane, ∃ q, Retirable lane app s width (retiring s app attestations) q

/-- Where the records stand after some of the attestations: `done` are those that retired a block. -/
structure Attested (start : Records Node) (app : Bytes32) (width : ℕ) (attestations : List BlockAttestation)
    (s : Records Node) (done : Finset BlockAttestation) : Prop where
  placement : placementWidth s app = .ok width
  subset : done ⊆ retiring start app attestations
  retired : ∀ a ∈ done, ∃ since, s (.orphan app a.block) = some (.orphan ⟨since, true, a.coins, a.escrows⟩)
  kept : ∀ b, (∀ a ∈ done, a.block ≠ b) → s (.orphan app b) = start (.orphan app b)
  queues : ∀ lane q, Tracks lane app start q → ∃ q', Tracks lane app s q' ∧
    (∀ a ∈ retiring start app attestations, a ∉ done → q' a.block = q a.block) ∧
    ∀ b, (q' b).length ≤ (q b).length + ∑ a ∈ done, share lane width q b a

variable {start s s' : Records Node} {app : Bytes32} {width : ℕ} {attestations : List BlockAttestation}
  {done : Finset BlockAttestation} {a : BlockAttestation}

theorem mem_retiring : a ∈ retiring s app attestations ↔ a ∈ attestations ∧ isMarked s app a.block = true := by
  rw [retiring, mem_toFinset, mem_filter]

theorem isMarked_iff {block : ℕ} :
    isMarked s app block = true ↔ ∃ o, s (.orphan app block) = some (.orphan o) ∧ o.moved = false := by
  rw [isMarked]
  split
  · next o ho => simp [ho]
  · next hno =>
    refine ⟨nofun, ?_⟩
    rintro ⟨o, ho, -⟩
    exact absurd ho (hno o)

theorem attested_start (hwidth : placementWidth start app = .ok width) (attestations : List BlockAttestation) :
    Attested start app width attestations start ∅ where
  placement := hwidth
  subset := Finset.empty_subset _
  retired := by simp
  kept _ _ := rfl
  queues _ q hq := ⟨q, hq, fun _ _ _ => rfl, by simp⟩

/-- Only the deliveries, the orphans and the placement width matter. -/
theorem Attested.congr (h : Attested start app width attestations s done)
    (hwidth : s' (.placementWidth app) = s (.placementWidth app)) (horphan : ∀ b, s' (.orphan app b) = s (.orphan app b))
    (hseq : ∀ lane b, s' (.sequence lane app b) = s (.sequence lane app b))
    (hdel : ∀ lane b i, s' (.delivery lane app b i) = s (.delivery lane app b i)) :
    Attested start app width attestations s' done where
  placement := (placementWidth_congr hwidth).trans h.placement
  subset := h.subset
  retired a ha := by rw [horphan]; exact h.retired a ha
  kept b hb := by rw [horphan]; exact h.kept b hb
  queues lane q hq := by
    obtain ⟨q', hq', hrest⟩ := h.queues lane q hq
    exact ⟨q', hq'.congr (hseq lane) (hdel lane), hrest⟩

section
variable (hstart : Attestable start app width attestations) (h : Attested start app width attestations s done)
include hstart h

/-- Retiring one more block routes its share and leaves the blocks still to be retired. -/
theorem Attested.retire (ha : a ∈ retiring start app attestations) (hdone : a ∉ done)
    (hok : applyOrphanAttestation s app a.block a.coins a.escrows = .ok (true, s')) :
    Attested start app width attestations s' (insert a done) := by
  obtain ⟨hlo, hhi⟩ := placementWidth_bounds h.placement
  have hother : ∀ a' ∈ retiring start app attestations, a' ≠ a → a'.block ≠ a.block :=
    fun a' ha' hne heq => hne (hstart.agree a' ha' a ha heq)
  have horphan : (∃ since, s' (.orphan app a.block) = some (.orphan ⟨since, true, a.coins, a.escrows⟩)) ∧
      ∀ b, b ≠ a.block → s' (.orphan app b) = s (.orphan app b) := by
    rcases applyOrphanAttestation_ok hok with ⟨hf, -⟩ | ⟨o, _, _, _, s₁, s₂, _, _, -, -, -, -, -, -, -, -, h₁, h₂, rfl⟩
    · cases hf
    refine ⟨⟨o.since, write_same _ _ _⟩, fun b hb => ?_⟩
    rw [write_other (by simpa using hb), writeSequences_other _ _, writeSequences_other _ _,
      moveItems_other (by simp) _ h₂, moveItems_other (by simp) _ h₁]
  refine ⟨?_, Finset.insert_subset ha h.subset, fun a' ha' => ?_, fun b hb => ?_, fun lane q hq => ?_⟩
  · rw [placementWidth_congr (applyOrphanAttestation_other hok), h.placement]
  · rcases Finset.mem_insert.1 ha' with rfl | ha'
    · exact horphan.1
    · rw [horphan.2 _ (hother a' (h.subset ha') fun heq => hdone (heq ▸ ha'))]
      exact h.retired a' ha'
  · rw [horphan.2 b (hb a (Finset.mem_insert_self _ _)).symm]
    exact h.kept b fun a' ha' => hb a' (Finset.mem_insert_of_mem ha')
  obtain ⟨q', hq', hwaiting, hlength⟩ := h.queues lane q hq
  refine ⟨_, applyOrphanAttestation_moveTail hok h.placement (hstart.narrow a ha) hq', fun a' ha' hnot => ?_, fun b => ?_⟩
  · -- nothing is routed to a block that is still to be retired
    have hne : a' ≠ a := fun heq => hnot (heq ▸ Finset.mem_insert_self _ _)
    rw [moveTail, enqueue_other _ _ fun d _ => route_ne hlo hhi (hstart.narrow a' ha') d, truncate,
      if_neg (hother a' ha' hne), hwaiting a' ha' fun hmem => hnot (Finset.mem_insert_of_mem hmem)]
  · have hcut : (truncate q' a.block (received lane a) b).length ≤ (q' b).length := by
      rw [truncate]
      split_ifs with hb
      · subst hb
        exact (take_sublist _ _).length_le
      · exact le_rfl
    have hshare : ((q' a.block).drop (received lane a)).countP (route width · = b) = share lane width q b a := by
      rw [hwaiting a ha hdone, share]
    rw [moveTail, length_enqueue, Finset.sum_insert hdone, ← hshare]
    have := hlength b
    unfold received at hcut ⊢
    omega

/-- Every attestation is accepted. -/
theorem Attested.step (ha : a ∈ attestations) :
    ∃ applied s' done', applyOrphanAttestation s app a.block a.coins a.escrows = .ok (applied, s') ∧
      Attested start app width attestations s' done' := by
  by_cases hnew : a ∈ retiring start app attestations ∧ a ∉ done
  · obtain ⟨hmem, hdone⟩ := hnew
    obtain ⟨o, ho, hmarked⟩ := isMarked_iff.1 (mem_retiring.1 hmem).2
    rw [← h.kept a.block fun a' ha' heq => hdone (hstart.agree a' (h.subset ha') a hmem heq ▸ ha')] at ho
    choose q hq using hstart.queues ⟨a, hmem⟩
    choose q' hq' hwaiting hlength using fun lane => h.queues lane (q lane) (hq lane).tracks
    have hblock : ∀ lane, q' lane a.block = q lane a.block := fun lane => hwaiting lane a hmem hdone
    obtain ⟨s', hs'⟩ := applyOrphanAttestation_of_room ho hmarked h.placement (hstart.narrow a hmem) hq'
      (fun lane => (hblock lane).symm ▸ (hq lane).committed a hmem) fun lane d hd => by
        -- what the others moved and what this one moves fits together
        have hshare : 0 < share lane width (q lane) (route width d) a := by
          rw [hblock] at hd
          exact countP_pos_iff.2 ⟨d, hd, by simp⟩
        have hle : ∑ x ∈ insert a done, share lane width (q lane) (route width d) x ≤
            ∑ x ∈ retiring start app attestations, share lane width (q lane) (route width d) x :=
          Finset.sum_le_sum_of_subset (Finset.insert_subset hmem h.subset)
        rw [Finset.sum_insert hdone] at hle
        have hroom := (hq lane).room (route width d) (by omega)
        have hnow := hlength lane (route width d)
        obtain ⟨hlo, hhi⟩ := placementWidth_bounds h.placement
        rw [moveTail, length_enqueue, truncate, if_neg (route_ne hlo hhi (hstart.narrow a hmem) d), hblock]
        unfold share received at *
        omega
    exact ⟨true, s', _, hs', h.retire hstart hmem hdone hs'⟩
  · -- nothing to retire: no orphan, or one retired with these counts
    refine ⟨false, s, done, ?_, h⟩
    have hsettled : s (.orphan app a.block) = none ∨ ∃ o, s (.orphan app a.block) = some (.orphan o) ∧
        o.moved = true ∧ o.coins = a.coins ∧ o.escrows = a.escrows := by
      by_cases hdone : a ∈ done
      · obtain ⟨since, hs⟩ := h.retired a hdone
        exact .inr ⟨_, hs, rfl, rfl, rfl⟩
      have hunmarked : ¬ isMarked start app a.block = true := fun hm => hnew ⟨mem_retiring.2 ⟨ha, hm⟩, hdone⟩
      rw [h.kept a.block fun a' ha' heq => hunmarked (heq ▸ (mem_retiring.1 (h.subset ha')).2)]
      refine (hstart.orphan a ha).imp_right ?_
      rintro ⟨o, ho, hcounts⟩
      have hmoved : o.moved = true := by
        by_contra hnot
        exact hunmarked (isMarked_iff.2 ⟨o, ho, by simpa using hnot⟩)
      exact ⟨o, ho, hmoved, hcounts hmoved⟩
    rw [applyOrphanAttestation]
    rcases hsettled with hnone | ⟨o, ho, hmoved, hcoins, hescrows⟩
    · rw [GlobalRecords.orphan, read_eq_ok_none.2 hnone]
      rfl
    · rw [orphan_ok_some.2 ho, ok_bind]
      dsimp only
      rw [if_pos hmoved, if_neg (by simp [hcoins, hescrows])]
      rfl

/-- So are all attestations of a report. -/
theorem Attested.run {reported : List BlockAttestation} (hsub : reported ⊆ attestations) :
    ∃ s' done', applyAttestations app s reported = .ok s' ∧ Attested start app width attestations s' done' := by
  induction reported generalizing s done with
  | nil => exact ⟨s, done, rfl, h⟩
  | cons a rest ih =>
    obtain ⟨ha, hrest⟩ := cons_subset.1 hsub
    obtain ⟨applied, s₁, done₁, hok, h₁⟩ := h.step hstart ha
    obtain ⟨s', done', hs', h'⟩ := ih h₁ hrest
    exact ⟨s', done', by rw [applyAttestations, hok, ok_bind]; exact hs', h'⟩

end

end Quil.AttestationOrder
