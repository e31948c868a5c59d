import Quilibrium.Token.RootsFold

/-! Published roots over whole sequences of frames. A refresh folds every coin that is not folded yet, so the root
    it publishes is the one of the whole tree: the summary tree folds the rebuilt blocks' roots, which are the
    whole tree's nodes over the blocks. -/

namespace Quil.Roots
open Schemes ShardedTree List
open CoinBlocks hiding invalid
open SummaryTree (Holds BlockSummary setBlocks mem_setBlocks total)
open AccumulatorRecords (LEVELS)

variable {Node Commitment : Type}

/-! ### What the summary holds -/

section
variable {m : Membership Node} {ctx : Bytes32} {blocks : List (ℕ × ℕ × Node)}
  {stored : SummaryTree.Nodes Node}

theorem readTop (h : Holds m ctx blocks stored) :
    SummaryTree.top stored = .ok (stored (LEVELS, 0)) := h.wellStored.readNode le_rfl (by simp)

theorem top_coins (h : Holds m ctx blocks stored) : ((stored (LEVELS, 0)).map (·.coins)).getD 0 = total blocks := by
  rw [h.stored_eq, if_pos le_rfl, ← SummaryTree.sum_leafNodes]
  exact SummaryTree.top_sum h.carried _ (fun _ _ => rfl) rfl

theorem eq_nil_of_top (h : Holds m ctx blocks stored) (htop : stored (LEVELS, 0) = none) : blocks = [] := by
  have htotal := top_coins h
  rw [htop] at htotal
  refine eq_nil_iff_forall_not_mem.2 fun e he => ?_
  have hle : e.2.1 ≤ total blocks := single_le_sum (by simp) _ (mem_map_of_mem he)
  have hpos := h.carried.held e he
  simp only [Option.map_none, Option.getD_none] at htotal
  omega

end

/-! ### Written blocks -/

variable {records : List (CoinRecord Commitment)} {block : ℕ}

theorem mem_touchedBlocks : block ∈ touchedBlocks records ↔ ∃ coin ∈ records, (locate coin.position).1 = block := by
  rw [touchedBlocks, mem_insertionSort, mem_dedup, mem_map]

theorem nodup_touchedBlocks (records : List (CoinRecord Commitment)) : (touchedBlocks records).Nodup :=
  (perm_insertionSort _ _).nodup_iff.2 (nodup_dedup _)

/-- The state after the blocks are written. -/
def written (s : State Node Commitment) (folded : List (ℕ × Frontier Node × Node)) (nodes : SummaryTree.Nodes Node) :
    State Node Commitment :=
  { s with
    frontiers := s.frontiers.writeAll (folded.map fun b => (b.1, b.2.1))
    roots := s.roots.writeAll (folded.map fun b => (b.1, b.2.2))
    summary := { s.summary with nodes := nodes }
    placed := [] }

section
variable {s : State Node Commitment} {folded : List (ℕ × Frontier Node × Node)} {nodes : SummaryTree.Nodes Node}

theorem written_of_mem (hnodup : (folded.map Prod.fst).Nodup) {b : ℕ × Frontier Node × Node} (hb : b ∈ folded) :
    (written s folded nodes).frontiers b.1 = some b.2.1 ∧ (written s folded nodes).roots b.1 = some b.2.2 :=
  ⟨Store.writeAll_map_of_mem _ _ hnodup hb, Store.writeAll_map_of_mem _ _ hnodup hb⟩

theorem written_other (hblock : block ∉ folded.map Prod.fst) :
    (written s folded nodes).frontiers block = s.frontiers block ∧
      (written s folded nodes).roots block = s.roots block :=
  ⟨Store.writeAll_map_other _ _ hblock, Store.writeAll_map_other _ _ hblock⟩

end

/-! ### The summary of the block records -/

theorem Recorded.unique {s : State Node Commitment} {b : ℕ} {x y : ℕ × Node} (hx : Recorded s (b, x)) (hy : Recorded s (b, y)) : x = y := by
  obtain ⟨-, f, hf, hcount, hroot⟩ := hx
  obtain ⟨-, f', hf', hcount', hroot'⟩ := hy
  cases hf.symm.trans hf'
  exact Prod.ext (hcount.symm.trans hcount') (Option.some.inj (hroot.symm.trans hroot'))

variable {summary : BlockSummary Node}

theorem mem_putBlock {final : BlockSummary Node} {entry : ℕ × ℕ × Node} (h : putBlock summary entry = .ok final)
    (e : ℕ × ℕ × Node) : e ∈ final.blocks ↔ e = entry ∨ e ∈ summary.blocks ∧ e.1 ≠ entry.1 := by
  rw [putBlock] at h
  split at h
  · next hold =>
    cases h
    dsimp only
    rw [mem_map]
    constructor
    · rintro ⟨x, hx, rfl⟩
      split
      · exact .inl rfl
      · next hne => exact .inr ⟨hx, hne⟩
    · rintro (rfl | ⟨he, hne⟩)
      · obtain ⟨v, hv⟩ := Option.isSome_iff_exists.1 hold
        exact ⟨_, mem_of_lookup hv, if_pos rfl⟩
      · exact ⟨e, he, if_neg hne⟩
  · next hnew =>
    split at h
    · cases h
    cases h
    dsimp only
    rw [mem_orderedInsert]
    refine or_congr_right ⟨fun he => ⟨he, ?_⟩, And.left⟩
    exact lookup_eq_none.1 (Option.not_isSome_iff_eq_none.1 hnew) e he

variable {shard : List Bool} {blocks : List (ℕ × ℕ × Node)} {root : RootRecord Node}
  {s' : State Node Commitment} {limits : SnapshotLimits} {f : Frames Node Commitment}

section
variable {m : Membership Node} {ctx : Bytes32} {s : State Node Commitment}

theorem mem_addBlockRecords [DecidableEq Node] {final : BlockSummary Node}
    (hsummary : ∀ e ∈ summary.blocks, Recorded s e)
    (h : addBlockRecords m ctx s summary block = .ok final) (e : ℕ × ℕ × Node) :
    e ∈ final.blocks ↔ e ∈ summary.blocks ∨ e.1 = block ∧ Recorded s e := by
  obtain ⟨loaded, hloaded, h⟩ := bind_ok h
  obtain rfl := loadBlockFrontier_eq_ok hloaded
  split at h
  · next hfrontier hroot =>
    cases h
    refine ⟨.inl, fun h => h.resolve_right ?_⟩
    rintro ⟨rfl, -, f, hf, -⟩
    cases hfrontier.symm.trans hf
  · next frontier root hfrontier hroot =>
    obtain ⟨record, -, h⟩ := bind_ok h
    split at h
    · cases h
    split at h
    · next hpos =>
      have hentry : Recorded s (block, frontier.count, root) := ⟨hpos, frontier, hfrontier, rfl, hroot⟩
      rw [mem_putBlock h]
      obtain ⟨b, x⟩ := e
      constructor
      · rintro (heq | ⟨he, -⟩)
        · cases heq
          exact .inr ⟨rfl, hentry⟩
        · exact .inl he
      · intro he
        by_cases hb : b = block
        · subst hb
          have hx : Recorded s (b, x) := he.elim (hsummary _) And.right
          exact .inl (by rw [hx.unique hentry])
        · exact .inr ⟨he.resolve_right fun hright => hb hright.1, hb⟩
    · next hzero =>
      cases h
      refine ⟨.inl, fun h => h.resolve_right ?_⟩
      rintro ⟨rfl, hpos, f, hf, hcount, -⟩
      cases hfrontier.symm.trans hf
      omega
  · cases h

/-- The summary from records lists the owned blocks with coins. -/
theorem mem_blockSummaryFromRecords [DecidableEq Node] (h : blockSummaryFromRecords m ctx s shard = .ok summary)
    (e : ℕ × ℕ × Node) :
    e ∈ summary.blocks ↔ e.1 ∈ ownedBlocks shard MAX_BLOCK_BITS ∧ Recorded s e := by
  have hfold : ∀ (blocks : List ℕ) (start final : BlockSummary Node), (∀ e ∈ start.blocks, Recorded s e) →
      blocks.foldlM (addBlockRecords m ctx s) start = .ok final →
      ∀ e, e ∈ final.blocks ↔ e ∈ start.blocks ∨ e.1 ∈ blocks ∧ Recorded s e := by
    intro blocks
    induction blocks with
    | nil =>
      rintro start _ - ⟨⟩ e
      simp
    | cons block blocks ih =>
      intro start final hstart hfinal e
      rw [foldlM_cons] at hfinal
      obtain ⟨next, hnext, hfinal⟩ := bind_ok hfinal
      have hmem := mem_addBlockRecords hstart hnext
      rw [ih next final (fun e he => ((hmem e).1 he).elim (hstart e) And.right) hfinal, hmem, mem_cons,
        or_assoc, ← or_and_right]
  rw [hfold _ _ _ (fun e he => absurd he not_mem_nil) h]
  exact or_iff_right not_mem_nil

/-- A replacement by the summary from records holds the blocks with coins that are owned. -/
theorem summarised_of_replace [DecidableEq Node] {nodes : SummaryTree.Nodes Node}
    (h : Holds m ctx blocks s.summary.nodes)
    (hsummary : blockSummaryFromRecords m ctx s shard = .ok summary)
    (howned : ∀ e, Recorded s e → e.1 ∈ ownedBlocks shard MAX_BLOCK_BITS)
    (hreplace : SummaryTree.replace m ctx s.summary.nodes summary.blocks = .ok nodes) :
    Summarised m ctx { s with summary := { s.summary with nodes := nodes } } := by
  refine ⟨_, (h.replace _).holds hreplace, fun e => ?_⟩
  rw [mem_setBlocks, mem_blockSummaryFromRecords hsummary]
  constructor
  · rintro (⟨he, -⟩ | ⟨⟨-, he⟩, -⟩)
    · exact absurd he not_mem_nil
    · exact he
  · exact fun he => .inr ⟨⟨howned e he, he⟩, he.1⟩

/-! ### Preparing a fold -/

theorem shape_eq_ok {bits : ℕ} {found : Shape} (h : shape bits = .ok found) :
    found = ⟨BLOCK_INDEX_BITS, SUBTREE_BITS⟩ := by
  rw [shape] at h
  split at h
  · cases h
  · cases h
    rfl

variable {key : MembershipKey Node Commitment} (h : Kept key ctx s)
include h

theorem Kept.withHistory (history : Option (RootRecord Node)) :
    Kept key ctx { s with history := history } :=
  ⟨h.addresses, h.staged, h.unfolded, h.allocated, h.blocks, h.summary, h.tree⟩

theorem Kept.withNodes {nodes : SummaryTree.Nodes Node}
    (hnodes : Summarised key.toMembership ctx { s with summary := { s.summary with nodes := nodes } }) :
    Kept key ctx { s with summary := { s.summary with nodes := nodes } } :=
  ⟨h.addresses, h.staged, h.unfolded, h.allocated, h.blocks, hnodes, h.tree⟩

/-- Only the summary's nodes change, and they hold the same blocks. -/
theorem Kept.prepare [DecidableEq Node] {rebuild : Option (List Bool)}
    (hprepare : prepare key.toMembership ctx s rebuild limits = .ok s') :
    checkDepth limits = .ok () ∧
      ∃ nodes, s' = { s with summary := { s.summary with nodes := nodes } } ∧ Kept key ctx s' := by
  obtain ⟨⟨⟩, hdepth, hprepare⟩ := bind_ok hprepare
  obtain ⟨-, -, hprepare⟩ := bind_ok hprepare
  obtain ⟨⟨converted, summary⟩, hupgrade, hprepare⟩ := bind_ok hprepare
  rw [SummaryTree.upgrade, h.tree] at hupgrade
  cases hupgrade
  dsimp only at hprepare
  rw [Bool.or_false] at hprepare
  change rebuildMissing key.toMembership ctx s rebuild = .ok s' at hprepare
  refine ⟨hdepth, ?_⟩
  rcases rebuild with _ | scope
  · cases hprepare
    exact ⟨_, rfl, h⟩
  obtain ⟨blocks, hholds, hblocks⟩ := h.summary
  obtain ⟨top, htop, hprepare⟩ := bind_ok hprepare
  cases (readTop hholds).symm.trans htop
  split at hprepare
  · cases hprepare
    exact ⟨_, rfl, h⟩
  next hnone =>
  obtain ⟨summary, hsummary, hprepare⟩ := bind_ok hprepare
  obtain ⟨nodes, hnodes, hprepare⟩ := bind_ok hprepare
  cases hprepare
  -- No coin is folded yet, so whatever the scope there is no block to find.
  have hempty := eq_nil_of_top hholds (Option.not_isSome_iff_eq_none.1 hnone)
  have hnever : ∀ e, ¬ Recorded s e := fun e he => by
    rw [← hblocks, hempty] at he
    exact not_mem_nil he
  exact ⟨nodes, rfl, h.withNodes (summarised_of_replace hholds hsummary (fun e he => absurd he (hnever e)) hnodes)⟩

theorem Kept.allocated_of_recorded {e : ℕ × ℕ × Node} (he : Recorded s e) :
    isAllocatedWidth MAX_BLOCK_BITS e.1 = true := by
  obtain ⟨hpos, frontier, hfrontier, hcount, -⟩ := he
  have hlength := (h.blocks e.1).count_eq
  rw [hfrontier] at hlength
  simp only [Option.map_some, Option.getD_some] at hlength
  obtain ⟨coin, hcoin⟩ := exists_mem_of_length_pos (l := blockCoins (foldedCoins s) e.1) (by omega)
  obtain ⟨hfolded, hblock⟩ := mem_blockCoins.1 hcoin
  rw [← hblock]
  exact h.allocated coin hfolded

/-- A block without recorded coins has no records. -/
theorem Kept.unrecorded (hblock : ∀ x, ¬ Recorded s (block, x)) :
    s.frontiers block = none ∧ s.roots block = none := by
  have hrebuilt := h.blocks block
  have hnil : blockCoins (foldedCoins s) block = [] := by
    by_contra hne
    obtain ⟨x, hx⟩ := hrebuilt.recorded hne
    exact hblock x hx
  rw [hnil] at hrebuilt
  generalize s.frontiers block = frontier, s.roots block = root at hrebuilt
  cases hrebuilt with
  | empty => exact ⟨rfl, rfl⟩
  | folded hne => exact absurd rfl hne

omit h in
theorem blockSummaryFromRecords_none [DecidableEq Node] (h : ∀ block, s.frontiers block = none ∧ s.roots block = none)
    (shard : List Bool) : blockSummaryFromRecords m ctx s shard = .ok emptySummary := by
  have hadd : ∀ block summary, addBlockRecords m ctx s summary block = .ok summary := by
    intro block summary
    rw [addBlockRecords, loadBlockFrontier, (h block).1, ok_bind, (h block).2]
  rw [blockSummaryFromRecords]
  induction ownedBlocks shard MAX_BLOCK_BITS with
  | nil => rfl
  | cons block blocks ih => rw [foldlM_cons, hadd, ok_bind, ih]

/-- Valid limits and a width of the accumulator's range are all it needs. -/
theorem Kept.prepare_ok [DecidableEq Node] (hdepth : checkDepth limits = .ok ()) {found : Shape}
    (hshape : shape s.blockWidth = .ok found) (rebuild : Option (List Bool)) :
    ∃ s', Roots.prepare key.toMembership ctx s rebuild limits = .ok s' := by
  rw [Roots.prepare, hdepth, ok_bind, hshape, ok_bind, SummaryTree.upgrade, h.tree, ok_bind]
  dsimp only
  rw [Bool.or_false]
  change ∃ s', rebuildMissing key.toMembership ctx s rebuild = .ok s'
  rcases rebuild with _ | scope
  · exact ⟨_, rfl⟩
  obtain ⟨blocks, hholds, hblocks⟩ := h.summary
  dsimp only [rebuildMissing]
  rw [readTop hholds, ok_bind]
  split
  · exact ⟨_, rfl⟩
  next hnone =>
  have hempty := eq_nil_of_top hholds (Option.not_isSome_iff_eq_none.1 hnone)
  rw [blockSummaryFromRecords_none fun block => h.unrecorded fun x hx => by
    rw [← hblocks, hempty] at hx
    exact not_mem_nil hx, ok_bind]
  rcases hholds.replace [] with ⟨nodes, hnodes, -⟩ | ⟨-, -, hrefused⟩
  · exact ⟨_, by rw [show emptySummary.blocks = ([] : List (ℕ × ℕ × Node)) from rfl, hnodes]; rfl⟩
  · exact absurd ⟨by simp, by simp, zero_le, by simp [setBlocks, total]⟩ hrefused

/-! ### Counting -/

/-- The blocks' counts add up to the folded coins. -/
theorem Kept.total_eq (hholds : Holds key.toMembership ctx blocks s.summary.nodes)
    (hblocks : ∀ entry, entry ∈ blocks ↔ Recorded s entry) : total blocks = (foldedCoins s).length := by
  have hcount : ∀ e ∈ blocks, e.2.1 = ((foldedCoins s).filter fun coin => (locate coin.position).1 = e.1).length := by
    intro e he
    obtain ⟨-, frontier, hfrontier, hn, -⟩ := (hblocks e).1 he
    have := (h.blocks e.1).count_eq
    rw [hfrontier, blockCoins, length_insertionSort] at this
    rw [← hn, ← this]
    rfl
  rw [total, map_congr_left hcount]
  refine length_by_class blocks (fun e (coin : CoinRecord Commitment) => (locate coin.position).1 = e.1)
    fun coin hcoin => ?_
  obtain ⟨x, hx⟩ := (h.blocks (locate coin.position).1).recorded (ne_nil_of_mem (mem_blockCoins.2 ⟨hcoin, rfl⟩))
  have hone := countP_eq_one (p := fun k => decide ((locate coin.position).1 = k)) hholds.carried.ascending.keyed
    (mem_map_of_mem ((hblocks _).2 hx)) fun k _ => by rw [decide_eq_true_eq, eq_comm]
  rwa [countP_map] at hone

theorem Kept.heldCoins : heldCoins s = .ok (foldedCoins s).length := by
  obtain ⟨blocks, hholds, hblocks⟩ := h.summary
  rw [Roots.heldCoins, readTop hholds, ok_bind, top_coins hholds, h.total_eq hholds hblocks]
  rfl

/-! ### Folding every block -/

/-- The folded blocks are the touched ones, each rebuilt over all of its coins. -/
theorem Kept.foldBlocks (hrecords : Fresh s records)
    {touched : List (ℕ × Frontier Node × List (CoinRecord Commitment))} {folded : List (ℕ × Frontier Node × Node)}
    (htouched : (touchedBlocks records).mapM (freshCoins ctx s records) = .ok touched)
    (hfolded : touched.mapM (foldBlock key) = .ok folded) :
    folded.map Prod.fst = touchedBlocks records ∧ ∀ b ∈ folded,
      Rebuilt key ctx (blockCoins s.coins b.1) (some b.2.1) (some b.2.2) := by
  have hkeys : touched.map Prod.fst = touchedBlocks records := by
    refine map_of_mapM htouched fun block t ht => ?_
    obtain ⟨loaded, -, ht⟩ := bind_ok ht
    obtain ⟨frontier, -, ht⟩ := bind_ok ht
    cases ht
    rfl
  refine ⟨?_, fun b hb => ?_⟩
  · rw [← hkeys]
    refine map_eq_of_mapM hfolded fun t b hb => ?_
    obtain ⟨frontier, -, hb⟩ := bind_ok hb
    obtain ⟨record, -, hb⟩ := bind_ok hb
    cases hb
    rfl
  obtain ⟨t, ht, htb⟩ := mem_of_mapM hfolded hb
  obtain ⟨block, hblock, hbt⟩ := mem_of_mapM htouched ht
  obtain ⟨hb, hrebuilt⟩ := h.rebuilt_of_fold hrecords (mem_touchedBlocks.1 hblock) hbt htb
  rwa [hb]

/-- Every unfolded coin is counted once among the new ones. -/
theorem Kept.incoming (hrecords : Fresh s records) {touched : List (ℕ × Frontier Node × List (CoinRecord Commitment))}
    (htouched : (touchedBlocks records).mapM (freshCoins ctx s records) = .ok touched) :
    (foldedCoins s).length + (touched.map fun t => t.2.2.length).sum = s.coins.length := by
  have hlengths : (touched.map fun t => t.2.2.length) = (touchedBlocks records).map fun block =>
      ((records.filter (¬ IsFolded s ·)).filter fun coin => (locate coin.position).1 = block).length := by
    refine map_eq_of_mapM htouched fun block t ht => ?_
    obtain ⟨loaded, hloaded, ht⟩ := bind_ok ht
    obtain ⟨frontier, hfrontier, ht⟩ := bind_ok ht
    cases ht
    obtain rfl := loadBlockFrontier_eq_ok hloaded
    have hcount : frontierCount s block = frontier.count := by
      rw [frontierCount, (h.blocks block).count_eq, ((h.blocks block).appended hfrontier).1]
    dsimp only
    rw [blockCoins, ((perm_insertionSort _ _).filter _).length_eq, filter_filter, filter_filter]
    refine congrArg _ (filter_congr fun coin _ => ?_)
    by_cases hb : (locate coin.position).1 = block
    · simp [hb, IsFolded, hcount]
    · simp [hb]
  have hperm : (records.filter (¬ IsFolded s ·)).Perm (s.coins.filter (¬ IsFolded s ·)) := by
    refine (perm_ext_iff_of_nodup ((List.Nodup.of_map _ hrecords.taken.addresses).filter _)
      ((List.Nodup.of_map _ h.addresses).filter _)).2 fun coin => ?_
    simp only [mem_filter, decide_eq_true_eq]
    exact ⟨fun hc => ⟨hrecords.taken.live coin hc.1, hc.2⟩, fun hc => ⟨hrecords.unfolded coin hc.1 hc.2, hc.2⟩⟩
  have hclass := length_by_class (touchedBlocks records)
    (fun block (coin : CoinRecord Commitment) => (locate coin.position).1 = block)
    (l := records.filter (¬ IsFolded s ·)) fun coin hcoin =>
      countP_eq_one (nodup_touchedBlocks records)
        (mem_touchedBlocks.2 ⟨coin, (mem_filter.1 hcoin).1, rfl⟩) fun block _ => by rw [decide_eq_true_eq, eq_comm]
  rw [hlengths, hclass, hperm.length_eq, foldedCoins]
  simp only [decide_not]
  exact (length_eq_length_filter_add _).symm

section
variable {folded : List (ℕ × Frontier Node × Node)}
  {nodes : SummaryTree.Nodes Node}

/-- Every block's records, touched or not, are those of a rebuild over all of its coins. -/
theorem Kept.rebuilt_written (hrecords : Fresh s records) (hkeys : folded.map Prod.fst = touchedBlocks records)
    (hfolded : ∀ b ∈ folded, Rebuilt key ctx (blockCoins s.coins b.1) (some b.2.1) (some b.2.2)) (block : ℕ) :
    Rebuilt key ctx (blockCoins s.coins block) ((written s folded nodes).frontiers block)
      ((written s folded nodes).roots block) := by
  have hnodup : (folded.map Prod.fst).Nodup := hkeys ▸ nodup_touchedBlocks records
  by_cases hblock : block ∈ folded.map Prod.fst
  · obtain ⟨b, hb, rfl⟩ := mem_map.1 hblock
    rw [(written_of_mem hnodup hb).1, (written_of_mem hnodup hb).2]
    exact hfolded b hb
  rw [(written_other hblock).1, (written_other hblock).2]
  refine h.untouched hrecords fun coin hcoin hb => hblock ?_
  rw [hkeys]
  exact mem_touchedBlocks.2 ⟨coin, hcoin, hb⟩

/-- The blocks set in the summary are those recorded after the write. -/
theorem Kept.summarised_written [DecidableEq Node] (hnodup : (folded.map Prod.fst).Nodup)
    (hnodes : SummaryTree.update key.toMembership ctx s.summary.nodes
      (folded.map fun b => (b.1, b.2.1.count, b.2.2)) = .ok nodes) :
    Summarised key.toMembership ctx (written s folded nodes) := by
  obtain ⟨blocks, hholds, hblocks⟩ := h.summary
  refine ⟨_, (hholds.update _).holds hnodes, fun e => ?_⟩
  have hlookup : (folded.map fun b => (b.1, b.2.1.count, b.2.2)).lookup e.1 = none ↔ e.1 ∉ folded.map Prod.fst := by
    rw [lookup_eq_none, mem_map]
    constructor
    · rintro hnot ⟨b, hb, hbe⟩
      exact hnot _ (mem_map_of_mem hb) hbe
    · rintro hnot x hx hxe
      obtain ⟨b, hb, rfl⟩ := mem_map.1 hx
      exact hnot ⟨b, hb, hxe⟩
  rw [mem_setBlocks, hblocks, hlookup]
  by_cases hblock : e.1 ∈ folded.map Prod.fst
  · obtain ⟨b, hb, hbe⟩ := mem_map.1 hblock
    obtain ⟨hfrontier, hroot⟩ := @written_of_mem _ _ s folded nodes hnodup b hb
    rw [hbe] at hfrontier hroot
    rw [Recorded, Recorded, hfrontier, hroot]
    constructor
    · rintro (⟨-, hnot⟩ | ⟨he, hpos⟩)
      · exact absurd hblock hnot
      obtain ⟨b', hb', rfl⟩ := mem_map.1 he
      cases inj_on_of_nodup_map hnodup hb hb' hbe
      exact ⟨hpos, b.2.1, rfl, rfl, rfl⟩
    · rintro ⟨hpos, f, hf, hcount, hr⟩
      cases hf
      exact .inr ⟨mem_map.2 ⟨b, hb, Prod.ext hbe (Prod.ext hcount (Option.some.inj hr))⟩, hpos⟩
  · rw [Recorded, Recorded, (written_other hblock).1, (written_other hblock).2]
    refine ⟨fun he => he.elim And.left fun hin => absurd ?_ hblock, fun he => .inl ⟨he, hblock⟩⟩
    obtain ⟨b, hb, rfl⟩ := mem_map.1 hin.1
    exact mem_map_of_mem hb

/-- After the blocks are written every coin is folded. -/
theorem Kept.written [DecidableEq Node] (hrecords : Fresh s records)
    (hallocated : ∀ coin ∈ records, isAllocatedWidth MAX_BLOCK_BITS (locate coin.position).1 = true)
    (hkeys : folded.map Prod.fst = touchedBlocks records)
    (hfolded : ∀ b ∈ folded, Rebuilt key ctx (blockCoins s.coins b.1) (some b.2.1) (some b.2.2))
    (hnodes : SummaryTree.update key.toMembership ctx s.summary.nodes
      (folded.map fun b => (b.1, b.2.1.count, b.2.2)) = .ok nodes) :
    Kept key ctx (written s folded nodes) ∧ ∀ coin ∈ s.coins, IsFolded (written s folded nodes) coin := by
  have hrebuilt : ∀ block, Rebuilt key ctx (blockCoins s.coins block)
      ((Roots.written s folded nodes).frontiers block) ((Roots.written s folded nodes).roots block) :=
    h.rebuilt_written hrecords hkeys hfolded
  have hall : ∀ coin ∈ s.coins, IsFolded (Roots.written s folded nodes) coin := fun coin hcoin =>
    isFolded_of_rebuilt (s := Roots.written s folded nodes) hrebuilt hcoin
  refine ⟨⟨h.addresses, h.staged, fun coin hcoin hnot => absurd (hall coin hcoin) hnot, fun coin hcoin => ?_,
    fun block => ?_, h.summarised_written (hkeys ▸ nodup_touchedBlocks records) hnodes, h.tree⟩, hall⟩
  · have hlive := (mem_foldedCoins.1 hcoin).1
    by_cases hold : IsFolded s coin
    · exact h.allocated coin (mem_foldedCoins.2 ⟨hlive, hold⟩)
    · exact hallocated coin (hrecords.unfolded coin hlive hold)
  · rw [foldedCoins_eq hall]
    exact hrebuilt block

end

/-! ### The published root -/

/-- Coins that are all folded make a tree. -/
theorem Kept.buildable (hall : ∀ coin ∈ s.coins, IsFolded s coin) :
    Buildable ⟨BLOCK_INDEX_BITS, SUBTREE_BITS⟩ s.coins := by
  obtain ⟨blocks, hholds, hblocks⟩ := h.summary
  have hrebuilt := h.blocks
  simp only [foldedCoins_eq hall] at hrebuilt
  refine ⟨rfl, fun coin hcoin => ?_, ?_, h.addresses⟩
  · obtain ⟨x, hx⟩ := (hrebuilt (locate coin.position).1).recorded (ne_nil_of_mem (mem_blockCoins.2 ⟨hcoin, rfl⟩))
    have hlt := hholds.carried.range _ ((hblocks _).2 hx)
    rw [locate_eq] at hlt
    exact (Nat.div_lt_iff_lt_mul (Nat.two_pow_pos _)).1 hlt
  refine (List.Nodup.of_map _ h.addresses).map_on fun a ha b hb heq => ?_
  have hdistinct : ((blockCoins s.coins (locate b.position).1).map fun coin => (locate coin.position).2).Nodup := by
    rw [(hrebuilt _).locals]
    exact nodup_range
  exact inj_on_of_nodup_map hdistinct (mem_blockCoins.2 ⟨ha, by rw [heq]⟩) (mem_blockCoins.2 ⟨hb, rfl⟩)
    (by rw [heq])

/-- The recorded roots are those of the shards of the whole tree. -/
theorem Kept.shardRoots (hall : ∀ coin ∈ s.coins, IsFolded s coin)
    (hholds : Holds key.toMembership ctx blocks s.summary.nodes)
    (hblocks : ∀ entry, entry ∈ blocks ↔ Recorded s entry) :
    ShardRoots key ctx ⟨BLOCK_INDEX_BITS, SUBTREE_BITS⟩ s.coins (blocks.map fun e => (e.1, e.2.2)) := by
  have hbuildable := h.buildable hall
  have hrebuilt := h.blocks
  simp only [foldedCoins_eq hall] at hrebuilt
  refine ⟨?_, fun x hx => ?_, fun x hx => ?_, fun coin hcoin => ?_⟩
  · rw [Keyed, map_map]
    exact hholds.carried.ascending.keyed
  · obtain ⟨e, he, rfl⟩ := mem_map.1 hx
    exact hholds.carried.range e he
  · obtain ⟨e, he, rfl⟩ := mem_map.1 hx
    obtain ⟨hpos, f, hf, hcount, hroot⟩ := (hblocks e).1 he
    have hblock := hrebuilt e.1
    have hne : blockCoins s.coins e.1 ≠ [] := by
      have := hblock.count_eq
      rw [hf] at this
      simp only [Option.map_some, Option.getD_some] at this
      exact length_pos_iff.1 (by omega)
    obtain ⟨f', record, -, hroot', hrebuild, -⟩ := hblock.records hne
    rw [subtreeRoot_ok key ctx hbuildable]
    rw [← (rebuildBlock_root hbuildable.positions hblock.locals hrebuild).2.2,
      Option.some.inj (hroot.symm.trans hroot')]
  · obtain ⟨x, hx⟩ := (hrebuilt (locate coin.position).1).recorded (ne_nil_of_mem (mem_blockCoins.2 ⟨hcoin, rfl⟩))
    exact ⟨_, mem_map_of_mem ((hblocks _).2 hx), rfl⟩

omit h in
theorem publishTop_eq_ok {m : Membership Node} (h : publishTop m ctx s = .ok (root, s')) :
    s' = { s with history := some root } ∧ ∃ found coins node, shape s.blockWidth = .ok found ∧
      heldCoins s = .ok coins ∧ SummaryTree.root m ctx s.summary.nodes = .ok node ∧
      root = ⟨ctx, found.depth, coins, node⟩ := by
  obtain ⟨coins, hcoins, h⟩ := bind_ok h
  obtain ⟨node, hnode, h⟩ := bind_ok h
  obtain ⟨found, hshape, h⟩ := bind_ok h
  split at h
  · cases h
  · cases h
    exact ⟨rfl, found, coins, node, hshape, hcoins, hnode, rfl⟩

/-- With every coin folded, the top of the summary is the root of the whole tree. -/
theorem Kept.publishTop (hall : ∀ coin ∈ s.coins, IsFolded s coin)
    (hpublish : publishTop key.toMembership ctx s = .ok (root, s')) :
    s' = { s with history := some root } ∧ (∃ found, shape s.blockWidth = .ok found) ∧
      root = ⟨ctx, DEPTH, s.coins.length, coinNode key ctx s.coins DEPTH 0⟩ := by
  obtain ⟨hnext, found, coins, node, hshape, hcoins, hnode, hroot⟩ := publishTop_eq_ok hpublish
  refine ⟨hnext, ⟨found, hshape⟩, ?_⟩
  rw [h.heldCoins, foldedCoins_eq hall] at hcoins
  cases hcoins
  obtain ⟨blocks, hholds, hblocks⟩ := h.summary
  have hroots := h.shardRoots hall hholds hblocks
  obtain ⟨node', hnode', hfold⟩ := hholds.root
  cases hnode.symm.trans hnode'
  have hshards : (⟨LEVELS, SUBTREE_BITS⟩ : Shape).validate = .ok () := rfl
  have hfull := foldSubtreeRoots_ok key.toMembership ctx hshards hroots.keyed hroots.range
  cases hfull.symm.trans hfold
  rw [hroot, shape_eq_ok hshape]
  exact congrArg (RootRecord.mk ctx DEPTH s.coins.length)
    (full_shardRoots key ctx (h.buildable hall) hroots BLOCK_INDEX_BITS 0)

omit h in
theorem build_fields {shape : Shape} {coins : List (CoinRecord Commitment)} {tree : ShardedCoinTree Node}
    (h : ShardedCoinTree.build key ctx shape coins = .ok tree) :
    tree.shape = shape ∧ tree.index.length = coins.length := by
  obtain ⟨⟨⟩, -, h⟩ := bind_ok h
  split at h
  · cases h
  obtain ⟨sorted, -, h⟩ := bind_ok h
  obtain ⟨index, hindex, h⟩ := bind_ok h
  cases h
  refine ⟨rfl, ?_⟩
  rw [addressIndex] at hindex
  split at hindex
  · cases hindex
  · cases hindex
    rw [length_insertionSort, length_map]

omit h in
/-- The cross-check rebuilds the tree over every live coin. -/
theorem fullRebuildRoot_eq (hbuildable : Buildable ⟨BLOCK_INDEX_BITS, SUBTREE_BITS⟩ s.coins)
    (hdepth : checkDepth limits = .ok ()) (hcap : s.coins.length ≤ limits.maxCoins)
    {found : Shape} (hshape : shape s.blockWidth = .ok found) : fullRebuildRoot key ctx s limits =
      .ok ⟨ctx, DEPTH, s.coins.length, coinNode key ctx s.coins DEPTH 0⟩ := by
  obtain rfl := shape_eq_ok hshape
  have hperm := perm_insertionSort (fun a b : CoinRecord Commitment => a.address.toNat ≤ b.address.toNat) s.coins
  have hsorted : Buildable ⟨BLOCK_INDEX_BITS, SUBTREE_BITS⟩
      (s.coins.insertionSort fun a b => a.address.toNat ≤ b.address.toNat) :=
    ⟨rfl, fun coin hcoin => hbuildable.range coin (hperm.mem_iff.1 hcoin),
      (hperm.map _).nodup_iff.2 hbuildable.positions, (hperm.map _).nodup_iff.2 hbuildable.addresses⟩
  obtain ⟨tree, htree, hroot, -⟩ := build_ok key ctx hsorted
  obtain ⟨htreeShape, hlength⟩ := build_fields htree
  rw [fullRebuildRoot, hdepth, ok_bind, collectLiveRecords, if_neg (by omega), ok_bind, hshape, ok_bind, htree,
    orInvalid, ok_bind, ShardedCoinTree.rootAtDepth, htreeShape, if_neg (by simp), hlength,
    length_insertionSort, hroot, coinNode_perm hbuildable.positions hperm.symm]
  rfl

/-! ### A refresh -/

/-- What a refresh leaves: the same coins, each folded, and the root of a full rebuild published. -/
theorem Kept.refresh [DecidableEq Node] {rebuild : Option (List Bool)}
    (hrefresh : refresh key ctx s rebuild limits = .ok (root, s')) :
    Kept key ctx s' ∧ s'.coins = s.coins ∧
      (∀ block, Rebuilt key ctx (blockCoins s'.coins block) (s'.frontiers block) (s'.roots block)) ∧
      s'.history = some root ∧ fullRebuildRoot key ctx s' limits = .ok root := by
  obtain ⟨t, hprepare, hrefresh⟩ := bind_ok hrefresh
  obtain ⟨hdepth, ready, heq, ht⟩ := h.prepare hprepare
  have hcoins : t.coins = s.coins := by rw [heq]
  obtain ⟨records, hrecords, hrefresh⟩ := bind_ok hrefresh
  obtain ⟨htaken, hnew⟩ := newRecords_eq_ok ht.addresses ht.staged hrecords
  have hfresh : Fresh t records := ⟨htaken, fun coin hcoin hnot => hnew coin hcoin (ht.unfolded coin hcoin hnot)⟩
  split at hrefresh
  · cases hrefresh
  next hallocated =>
  have hallocated : ∀ coin ∈ records, isAllocatedWidth MAX_BLOCK_BITS (locate coin.position).1 = true := by
    simpa using hallocated
  obtain ⟨held, hheld, hrefresh⟩ := bind_ok hrefresh
  obtain ⟨touched, htouched, hrefresh⟩ := bind_ok hrefresh
  obtain ⟨⟨⟩, hcap, hrefresh⟩ := bind_ok hrefresh
  obtain ⟨folded, hfolded, hrefresh⟩ := bind_ok hrefresh
  obtain ⟨nodes, hnodes, hpublish⟩ := bind_ok hrefresh
  obtain ⟨hkeys, hrebuilt⟩ := ht.foldBlocks hfresh htouched hfolded
  obtain ⟨hkept, hall⟩ := ht.written hfresh hallocated hkeys hrebuilt hnodes
  obtain ⟨rfl, ⟨found, hshape⟩, hroot⟩ := hkept.publishTop hall hpublish
  -- The cap was checked against the folded coins and the new ones, which are all.
  have hlength : t.coins.length ≤ limits.maxCoins := by
    cases ht.heldCoins.symm.trans hheld
    rw [checkCoinCap, ht.incoming hfresh htouched] at hcap
    split at hcap
    · cases hcap
    · omega
  refine ⟨hkept.withHistory _, hcoins, fun block => ?_, rfl, ?_⟩
  · have hblock := hkept.blocks block
    rwa [foldedCoins_eq hall] at hblock
  · rw [hroot]
    exact fullRebuildRoot_eq (hkept.buildable hall) hdepth hlength hshape

/-- A refresh leaves nothing placed, and the width. -/
theorem Kept.refresh_placed [DecidableEq Node] {rebuild : Option (List Bool)}
    (hrefresh : Roots.refresh key ctx s rebuild limits = .ok (root, s')) : s'.placed = [] ∧ s'.width = s.width := by
  obtain ⟨t, hprepare, hrefresh⟩ := bind_ok hrefresh
  obtain ⟨-, ready, rfl, -⟩ := h.prepare hprepare
  obtain ⟨records, -, hrefresh⟩ := bind_ok hrefresh
  split at hrefresh
  · cases hrefresh
  obtain ⟨held, -, hrefresh⟩ := bind_ok hrefresh
  obtain ⟨touched, -, hrefresh⟩ := bind_ok hrefresh
  obtain ⟨⟨⟩, -, hrefresh⟩ := bind_ok hrefresh
  obtain ⟨folded, -, hrefresh⟩ := bind_ok hrefresh
  obtain ⟨nodes, -, hpublish⟩ := bind_ok hrefresh
  obtain ⟨rfl, -⟩ := publishTop_eq_ok hpublish
  exact ⟨rfl, rfl⟩

/-! ### Placement and staging -/

section
variable {coin : CoinRecord Commitment} (haddress : ∀ other ∈ s.coins, other.address ≠ coin.address)
include haddress

omit h in
theorem coins_setCoin : (setCoin s coin).coins = s.coins ++ [coin] := by
  rw [setCoin, insertRecord, filter_eq_self.2 fun other hother => by simpa using haddress other hother]

variable (hnew : ¬ IsFolded s coin)
include hnew

omit h in
theorem foldedCoins_setCoin : foldedCoins (setCoin s coin) = foldedCoins s := by
  have hnone : [coin].filter (IsFolded (setCoin s coin) ·) = [] := by
    rw [filter_singleton, decide_eq_false (show ¬ IsFolded (setCoin s coin) coin from hnew)]
    rfl
  rw [foldedCoins, coins_setCoin haddress, filter_append, hnone, append_nil]
  rfl

/-- A coin at a new address and beyond its block's frontier leaves what is folded. -/
theorem Kept.setCoin : Kept key ctx (setCoin s coin) := by
  have hcoins := coins_setCoin haddress
  have hfolded := foldedCoins_setCoin haddress hnew
  refine ⟨addresses_insertRecord h.addresses coin, fun other hother => ?_, fun other hother hnot => ?_, ?_,
    fun block => ?_, h.summary, h.tree⟩
  · rw [hcoins, mem_append]
    exact (mem_append.1 hother).imp_left (h.staged other)
  · rw [hcoins, mem_append, mem_singleton] at hother
    rcases hother with hother | rfl
    · exact (h.unfolded other hother hnot).imp_left (mem_append_left _)
    · exact .inl (mem_append_right _ (mem_singleton_self _))
  · rw [hfolded]
    exact h.allocated
  · rw [hfolded]
    exact h.blocks block

end

variable [DecidableEq Node]

theorem Kept.addPlaced {address : Bytes32} {scope : List Bool}
    (hplaced : addPlaced key.toMembership ctx s block address scope limits = .ok s') : Kept key ctx s' := by
  obtain ⟨t, ht, hplaced⟩ := bind_ok hplaced
  have ht : Kept key ctx t := by
    rw [prepareFirst] at ht
    split at ht
    · obtain ⟨-, nodes, -, ht⟩ := h.prepare ht
      exact ht
    · cases ht
      exact h
  obtain ⟨held, -, hplaced⟩ := bind_ok hplaced
  obtain ⟨⟨⟩, -, hplaced⟩ := bind_ok hplaced
  cases hplaced
  exact ⟨ht.addresses, ht.staged, fun coin hcoin hnot => (ht.unfolded coin hcoin hnot).imp_right
    fun ⟨b, hb⟩ => ⟨b, mem_append_left _ hb⟩, ht.allocated, ht.blocks, ht.summary, ht.tree⟩

/-- A placement writes at the block's count, beyond the frontier. -/
theorem Kept.placeCommitted {address : Bytes32} {owner : List UInt8}
    {commitment : Commitment} {seq : ℕ} {scope : List Bool}
    (hplace : placeCommitted key.toMembership ctx s address owner commitment block seq scope limits = .ok s') :
    Kept key ctx s' := by
  obtain ⟨count, hcount, hplace⟩ := bind_ok hplace
  split at hplace
  · cases hplace
  next hseq =>
  split at hplace
  · cases hplace
  next habsent =>
  obtain ⟨selected, -, hplace⟩ := bind_ok hplace
  split at hplace
  · cases hplace
  obtain ⟨found, hfound, hplace⟩ := bind_ok hplace
  refine (h.setCoin (coinAt_eq_none.1 (Option.not_isSome_iff_eq_none.1 habsent)) ?_).addPlaced hplace
  have := blockCount_eq_ok hcount
  rw [IsFolded, locate_position hfound]
  dsimp only
  omega

/-- A coin with a free address that sits in its block and below the cap is placed at the block's count. -/
theorem Kept.placeCommitted_ok (hdepth : checkDepth limits = .ok ()) {found : Shape}
    (hshape : shape s.blockWidth = .ok found) {coin : CoinRecord Commitment} {seq : ℕ}
    (hseq : frontierCount s block + s.placed.countP (·.1 == block) = seq)
    (hfree : ∀ other ∈ s.coins, other.address ≠ coin.address)
    (hblock : blockForAddress (creationWidth block) coin.address = .ok block)
    (hposition : position MAX_BLOCK_BITS block seq = .ok coin.position)
    (hcap : checkCoinCap (foldedCoins s).length (s.placed.length + 1) limits = .ok ()) (scope : List Bool) :
    ∃ nodes, Roots.placeCommitted key.toMembership ctx s coin.address coin.owner coin.commitment block seq scope limits =
      .ok { Roots.setCoin s coin with
        summary := { s.summary with nodes := nodes }, placed := s.placed ++ [(block, coin.address)] } := by
  have hnew : ¬ IsFolded s coin := by
    rw [IsFolded, locate_position hposition]
    dsimp only
    omega
  have hset := h.setCoin hfree hnew
  obtain ⟨nodes, hprepare, hready⟩ : ∃ nodes, prepareFirst key.toMembership ctx (Roots.setCoin s coin) scope limits =
      .ok { Roots.setCoin s coin with summary := { s.summary with nodes := nodes } } ∧
      Kept key ctx { Roots.setCoin s coin with summary := { s.summary with nodes := nodes } } := by
    rw [prepareFirst]
    split
    · obtain ⟨s', hs'⟩ := hset.prepare_ok hdepth hshape (some scope)
      obtain ⟨-, nodes, rfl, hready⟩ := hset.prepare hs'
      exact ⟨nodes, hs', hready⟩
    · exact ⟨s.summary.nodes, rfl, hset⟩
  have hheld := hready.heldCoins
  rw [show foldedCoins { Roots.setCoin s coin with summary := { s.summary with nodes := nodes } } = foldedCoins s from
    foldedCoins_setCoin hfree hnew] at hheld
  refine ⟨nodes, ?_⟩
  rw [Roots.placeCommitted, h.blockCount, hseq, ok_bind, if_neg (by simp), coinAt_eq_none.2 hfree, if_neg (by simp),
    hblock, ok_bind, if_neg (by simp), hposition, ok_bind, Roots.addPlaced, hprepare, ok_bind, hheld, ok_bind]
  dsimp only
  rw [show (Roots.setCoin s coin).placed = s.placed from rfl, hcap]
  rfl

/-- A rebuild from the records of a shard that owns every block with coins keeps the summary. -/
theorem Kept.rebuildBlockSummary (howned : ∀ block, s.frontiers block ≠ none → shardOwnsBlock shard block = true)
    (hrebuild : rebuildBlockSummary key.toMembership ctx s shard = .ok s') : Kept key ctx s' := by
  obtain ⟨summary, hsummary, hrebuild⟩ := bind_ok hrebuild
  obtain ⟨top, -, hrebuild⟩ := bind_ok hrebuild
  split at hrebuild
  · cases hrebuild
    exact h
  rw [h.tree, Option.isSome_none, if_neg Bool.false_ne_true] at hrebuild
  obtain ⟨nodes, hnodes, hrebuild⟩ := bind_ok hrebuild
  obtain ⟨⟨root, t⟩, hpublish, hrebuild⟩ := bind_ok hrebuild
  cases hrebuild
  obtain ⟨rfl, -⟩ := publishTop_eq_ok hpublish
  obtain ⟨blocks, hholds, -⟩ := h.summary
  refine (h.withNodes (summarised_of_replace hholds hsummary (fun e he => ?_) hnodes)).withHistory _
  obtain ⟨-, frontier, hfrontier, -⟩ := id he
  exact (mem_ownedBlocks _ _ _).2 ⟨h.allocated_of_recorded he, howned e.1 (by rw [hfrontier]; exact Option.some_ne_none _)⟩

/-! ### Whole runs -/

omit h

/-- What a frame's operations must meet: a staged coin has an address of its own and an index not yet folded; a
    frame that commits has folded or placed every coin it staged; a rebuild is over a shard that owns the blocks. -/
def Allowed (f : Frames Node Commitment) : Operation Commitment → Prop
  | .stage coin => (∀ other ∈ f.working.coins, other.address ≠ coin.address) ∧
      frontierCount f.working (locate coin.position).1 ≤ (locate coin.position).2
  | .commit => ∀ coin ∈ f.working.pending,
      (locate coin.position).2 < frontierCount f.working (locate coin.position).1 ∨
        ∃ block, (block, coin.address) ∈ f.working.placed
  | .rebuild shard => ∀ block, f.working.frontiers block ≠ none → shardOwnsBlock shard block = true
  | _ => True

/-- The state worked on and the one committed both keep what the operations keep. -/
def KeptFrames (key : MembershipKey Node Commitment) (ctx : Bytes32) (f : Frames Node Commitment) : Prop :=
  Kept key ctx f.working ∧ Kept key ctx f.committed

omit [DecidableEq Node] in
theorem Kept.commit (h : Kept key ctx s) (hcommit : ∀ coin ∈ s.pending, IsFolded s coin ∨
    ∃ block, (block, coin.address) ∈ s.placed) : Kept key ctx { s with pending := [] } := by
  refine ⟨h.addresses, fun coin hcoin => absurd hcoin not_mem_nil, fun coin hcoin hnot => .inr ?_,
    h.allocated, h.blocks, h.summary, h.tree⟩
  rcases h.unfolded coin hcoin hnot with hpending | hplaced
  · exact (hcommit coin hpending).resolve_left hnot
  · exact hplaced

/-- A refresh or a fold that publishes is a refresh of the state worked on. -/
theorem refresh_of_step {operation : Operation Commitment}
    (hoperation : operation = .refresh limits ∨ operation = .fold limits)
    (h : (step key ctx f operation).2 = .ok (some root)) : ∃ rebuild, refresh key ctx f.working rebuild limits =
      .ok (root, (step key ctx f operation).1.working) := by
  rw [step] at h ⊢
  rcases hperform : perform key ctx f operation with error | result
  · rw [hperform] at h
    cases h
  obtain ⟨answer, next⟩ := result
  rw [hperform] at h
  cases h
  dsimp only
  rcases hoperation with rfl | rfl
  · obtain ⟨⟨found, t⟩, ht, hperform⟩ := bind_ok hperform
    cases hperform
    exact ⟨_, ht⟩
  obtain ⟨⟨found, t⟩, ht, hperform⟩ := bind_ok hperform
  cases hperform
  rw [foldPlaced] at ht
  split at ht
  · cases ht
  obtain ⟨⟨found, t⟩, hrefresh, ht⟩ := bind_ok ht
  cases ht
  exact ⟨_, hrefresh⟩

theorem KeptFrames.step (h : KeptFrames key ctx f) (operation : Operation Commitment)
    (hallowed : Allowed f operation) : KeptFrames key ctx (step key ctx f operation).1 := by
  rw [Roots.step]
  rcases hperform : perform key ctx f operation with error | result
  · exact h
  obtain ⟨answer, next⟩ := result
  dsimp only
  cases operation with
  | stage coin =>
    cases hperform
    exact ⟨h.1.setCoin hallowed.1 (not_lt.2 hallowed.2), h.2⟩
  | place address owner commitment block seq scope limits =>
    obtain ⟨t, ht, hperform⟩ := bind_ok hperform
    cases hperform
    exact ⟨h.1.placeCommitted ht, h.2⟩
  | refresh limits =>
    obtain ⟨⟨root, t⟩, ht, hperform⟩ := bind_ok hperform
    cases hperform
    exact ⟨(h.1.refresh ht).1, h.2⟩
  | fold limits =>
    obtain ⟨⟨root, t⟩, ht, hperform⟩ := bind_ok hperform
    cases hperform
    rw [foldPlaced] at ht
    split at ht
    · cases ht
      exact h
    obtain ⟨⟨root, t⟩, hrefresh, ht⟩ := bind_ok ht
    cases ht
    exact ⟨(h.1.refresh hrefresh).1, h.2⟩
  | rebuild shard =>
    obtain ⟨t, ht, hperform⟩ := bind_ok hperform
    cases hperform
    exact ⟨h.1.rebuildBlockSummary hallowed ht, h.2⟩
  | commit =>
    cases hperform
    exact ⟨h.1.commit hallowed, h.1.commit hallowed⟩
  | abort =>
    cases hperform
    exact ⟨h.2, h.2⟩

/-- A placement at another index than the block's count is refused, and nothing changes. -/
theorem place_refused {seq : ℕ} (h : blockCount ctx f.working block ≠ .ok seq)
    (address : Bytes32) (owner : List UInt8) (commitment : Commitment) (scope : List Bool) (limits : SnapshotLimits) :
    ∃ error, step key ctx f (.place address owner commitment block seq scope limits) = (f, .error error) := by
  have hplace : ∃ error, placeCommitted key.toMembership ctx f.working address owner commitment block seq scope
      limits = .error error := by
    rw [placeCommitted]
    rcases hcount : blockCount ctx f.working block with error | count
    · exact ⟨error, rfl⟩
    rw [ok_bind, if_pos fun heq => h (by rw [hcount, heq])]
    exact ⟨_, rfl⟩
  obtain ⟨error, herror⟩ := hplace
  refine ⟨error, ?_⟩
  rw [step, perform, herror]
  rfl

end

/-- ROOTS: in every run of frames that meets `Allowed`, each block's frontier and root are those of a rebuild over
    its folded coins, which take the indices `0 ..`; whenever a refresh or a fold publishes a root, every coin of
    the block is folded and the root is the one a full rebuild gives; and a placement whose index is not the
    block's count is refused without a change. -/
theorem published_roots_rebuilt [DecidableEq Node] (key : MembershipKey Node Commitment) (ctx : Bytes32)
    (width : Option ℕ) (operations : List (Operation Commitment))
    (h : RunMeets (step key ctx) Allowed (Frames.start width) operations) :
    let f := (run (step key ctx) (Frames.start width) operations).1
    (∀ block, Rebuilt key ctx (blockCoins (foldedCoins f.working) block) (f.working.frontiers block)
      (f.working.roots block)) ∧
    (∀ operation limits root, operation = .refresh limits ∨ operation = .fold limits →
      (step key ctx f operation).2 = .ok (some root) →
      let s := (step key ctx f operation).1.working
      s.coins = f.working.coins ∧
      (∀ block, Rebuilt key ctx (blockCoins s.coins block) (s.frontiers block) (s.roots block)) ∧
      s.history = some root ∧ fullRebuildRoot key ctx s limits = .ok root) ∧
    ∀ address owner commitment block seq scope limits, blockCount ctx f.working block ≠ .ok seq →
      ∃ error, step key ctx f (.place address owner commitment block seq scope limits) = (f, .error error) := by
  have hkept := run_invariant_of (step key ctx) (C := Allowed) (I := fun _ f => KeptFrames key ctx f)
    (fun _ _ operation hf hallowed => hf.step operation hallowed) operations (Frames.start width) []
    ⟨kept_empty key ctx width, kept_empty key ctx width⟩ h
  refine ⟨hkept.1.blocks, fun operation limits root hoperation hanswer => ?_, ?_⟩
  · obtain ⟨rebuild, hrefresh⟩ := refresh_of_step hoperation hanswer
    exact (hkept.1.refresh hrefresh).2
  · exact fun address owner commitment block seq scope limits hne =>
      place_refused hne address owner commitment scope limits

/-- A coin placed, folded and committed, then one more staged behind it in the same block. -/
def oneBlock : List (Operation ℕ) :=
  let limits : SnapshotLimits := ⟨4, 32⟩
  [.place 0 [5] 7 (2 ^ 15) 0 (List.replicate 15 false) limits, .fold limits, .commit,
    .stage ⟨1, [6], 8, 2 ^ 15 * 2 ^ 16 + 1⟩]

/-- The next refresh folds the staged coin and publishes the root of both. -/
theorem published_roots_rebuilt_staged :
    RunMeets (step pairingKey 0) Allowed (Frames.start none) oneBlock ∧
    fullRebuildRoot pairingKey 0
      (step pairingKey 0 (run (step pairingKey 0) (Frames.start none) oneBlock).1 (.refresh ⟨4, 32⟩)).1.working
      ⟨4, 32⟩ = .ok ⟨0, 32, 2, 5820766092371090422752⟩ := by
  have hmeets : RunMeets (step pairingKey 0) Allowed (Frames.start none) oneBlock := by
    refine ⟨trivial, trivial, fun coin hcoin => .inl ?_, ?_, trivial⟩
    · revert coin
      decide +kernel
    exact (by decide +kernel : (∀ other ∈ (run (step pairingKey 0) (Frames.start none) (oneBlock.take 3)).1.working.coins,
      other.address ≠ 1) ∧ frontierCount (run (step pairingKey 0) (Frames.start none) (oneBlock.take 3)).1.working
        (locate (2 ^ 15 * 2 ^ 16 + 1)).1 ≤ (locate (2 ^ 15 * 2 ^ 16 + 1)).2)
  exact ⟨hmeets, ((published_roots_rebuilt pairingKey 0 none oneBlock hmeets).2.1 (.refresh ⟨4, 32⟩) _ _ (.inl rfl)
    (by decide +kernel)).2.2.2⟩

/-- A coin staged at an index folded before is not refused: the refresh takes it for folded and publishes the root
    without it. So does a refresh after a commit that did not fold it. A coin staged but not folded does not count
    for a placement, which takes its index again. -/
theorem staged_indices_reused :
    let limits : SnapshotLimits := ⟨4, 32⟩
    let first : Operation ℕ := .place 0 [5] 7 (2 ^ 15) 0 (List.replicate 15 false) limits
    let again : Operation ℕ := .stage ⟨1, [6], 8, 2 ^ 15 * 2 ^ 16⟩
    let after := run (step pairingKey 0) (Frames.start none)
    let counts (operations : List (Operation ℕ)) :=
      (after operations).2.map fun a => a.2.toOption.map (·.map (·.coins))
    let rebuilt (operations : List (Operation ℕ)) := fullRebuildRoot pairingKey 0 (after operations).1.working limits
    counts [first, .fold limits, again, .refresh limits] = [some none, some (some 1), some none, some (some 1)] ∧
    rebuilt [first, .fold limits, again, .refresh limits] = .error invalid ∧
    (counts (oneBlock ++ [.commit, .refresh limits])).getLast? = some (some (some 1)) ∧
    (rebuilt (oneBlock ++ [.commit, .refresh limits])).toOption.map (·.coins) = some 2 ∧
    counts [again, first] = [some none, some none] := by
  decide +kernel

end Quil.Roots
