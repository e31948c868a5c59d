import Quilibrium.Token.FrontierRoots
import Quilibrium.Token.Roots

/-! Folding a block's coins, compared with REBUILDING the block. A block's folded coins are those below its frontier;
    what every operation keeps says that they take the indices `0 ..` without a gap, that the block's frontier and
    root are those of a rebuild over them, that the summary holds exactly these blocks, and that every other coin is
    still to be folded. -/

namespace Quil.Roots
open Schemes ShardedTree List
open CoinBlocks hiding invalid
open SummaryTree (Holds)

variable {Node Commitment : Type}

/-! ### Rebuilding a block -/

/-- A block's frontier and root from its coins in index order. -/
def rebuildBlock (key : MembershipKey Node Commitment) (ctx : Bytes32)
    (coins : List (CoinRecord Commitment)) : Except TreeError (Frontier Node × RootRecord Node) := do
  let frontier ← Frontier.new ctx SUBTREE_BITS
  let (_, frontier) ← appendCoins key frontier coins
  let record ← frontier.rootAtDepth key.toMembership SUBTREE_BITS
  return (frontier, record)

/-- A block's records are those of a rebuild over coins that take the indices from zero without a gap; a block
    without coins has none. -/
inductive Rebuilt (key : MembershipKey Node Commitment) (ctx : Bytes32) :
    List (CoinRecord Commitment) → Option (Frontier Node) → Option Node → Prop
  | empty : Rebuilt key ctx [] none none
  | folded {coins : List (CoinRecord Commitment)} {frontier : Frontier Node} {record : RootRecord Node} :
      coins ≠ [] → (coins.map fun coin => (locate coin.position).2) = List.range coins.length →
      rebuildBlock key ctx coins = .ok (frontier, record) → frontier.count = coins.length →
      Rebuilt key ctx coins (some frontier) (some record.root)

theorem orInvalid_eq_ok {α : Type} {x : Except TreeError α} {a : α} : orInvalid x = .ok a ↔ x = .ok a := by
  cases x <;> simp [orInvalid]

theorem locate_eq (position : ℕ) : locate position = (position / 2 ^ SUBTREE_BITS, position % 2 ^ SUBTREE_BITS) :=
  splitPosition_eq (by decide)

variable {frontier : Frontier Node} {coins : List (CoinRecord Commitment)} {block : ℕ}
  {coin : CoinRecord Commitment}

section
variable {key : MembershipKey Node Commitment} {ctx : Bytes32}

theorem append_eq_ok {next : Frontier Node} {owner : List UInt8} {commitment : Commitment} {position : ℕ}
    (h : frontier.append key owner commitment = .ok (position, next)) :
    position = frontier.count ∧ next.count = frontier.count + 1 ∧ next.context = frontier.context ∧
      next.maxDepth = frontier.maxDepth := by
  rw [Frontier.append] at h
  split at h
  · cases h
  · cases h
    exact ⟨rfl, rfl, rfl, rfl⟩

theorem appendCoins_span {final : Frontier Node} {positions : List ℕ}
    (h : appendCoins key frontier coins = .ok (positions, final)) :
    final.context = frontier.context ∧ final.maxDepth = frontier.maxDepth := by
  induction coins generalizing frontier positions with
  | nil =>
    cases h
    exact ⟨rfl, rfl⟩
  | cons coin coins ih =>
    obtain ⟨⟨position, next⟩, hnext, h⟩ := bind_ok h
    obtain ⟨⟨rest, last⟩, hlast, h⟩ := bind_ok h
    cases h
    obtain ⟨-, -, hcontext, hdepth⟩ := append_eq_ok hnext
    rw [← hcontext, ← hdepth]
    exact ih hlast

/-- What is appended continues the block's indices. -/
theorem appendFresh_eq_ok {final : Frontier Node} (h : appendFresh key frontier coins = .ok final) :
    (∃ positions, appendCoins key frontier coins = .ok (positions, final)) ∧
      (coins.map fun coin => (locate coin.position).2) = range' frontier.count coins.length ∧
      final.count = frontier.count + coins.length := by
  induction coins generalizing frontier with
  | nil =>
    cases h
    exact ⟨⟨_, rfl⟩, rfl, rfl⟩
  | cons coin coins ih =>
    rw [appendFresh] at h
    split at h
    · cases h
    next hlocal =>
    obtain ⟨⟨position, next⟩, hnext, h⟩ := bind_ok h
    rw [orInvalid_eq_ok] at hnext
    obtain ⟨-, hcount, -⟩ := append_eq_ok hnext
    obtain ⟨⟨positions, happend⟩, hlocals, hfinal⟩ := ih h
    refine ⟨⟨position :: positions, ?_⟩, ?_, by rw [hfinal, hcount, length_cons]; omega⟩
    · rw [appendCoins, hnext, ok_bind]
      dsimp only
      rw [happend]
      rfl
    · rw [map_cons, hlocals, not_not.1 hlocal, hcount, length_cons, range'_succ]

theorem appendCoins_append {middle final : Frontier Node} {more : List (CoinRecord Commitment)}
    {positions later : List ℕ} (h : appendCoins key frontier coins = .ok (positions, middle))
    (hmore : appendCoins key middle more = .ok (later, final)) :
    appendCoins key frontier (coins ++ more) = .ok (positions ++ later, final) := by
  induction coins generalizing frontier positions with
  | nil =>
    cases h
    exact hmore
  | cons coin coins ih =>
    obtain ⟨⟨position, next⟩, hnext, h⟩ := bind_ok h
    obtain ⟨⟨rest, last⟩, hlast, h⟩ := bind_ok h
    cases h
    rw [cons_append, appendCoins, hnext, ok_bind]
    dsimp only
    rw [ih hlast]
    rfl

/-- Positions are not read by an append. -/
theorem appendCoins_map {f : CoinRecord Commitment → CoinRecord Commitment}
    (hf : ∀ coin, (f coin).owner = coin.owner ∧ (f coin).commitment = coin.commitment) :
    appendCoins key frontier (coins.map f) = appendCoins key frontier coins := by
  induction coins generalizing frontier with
  | nil => rfl
  | cons coin coins ih =>
    rw [map_cons, appendCoins, appendCoins, (hf coin).1, (hf coin).2]
    simp only [ih]

theorem rebuildBlock_eq_ok {record : RootRecord Node} : rebuildBlock key ctx coins = .ok (frontier, record) ↔
      ∃ start positions, Frontier.new ctx SUBTREE_BITS = .ok start ∧
        appendCoins key start coins = .ok (positions, frontier) ∧
        frontier.rootAtDepth key.toMembership SUBTREE_BITS = .ok record := by
  constructor
  · intro h
    obtain ⟨start, hstart, h⟩ := bind_ok h
    obtain ⟨⟨positions, final⟩, hfinal, h⟩ := bind_ok h
    obtain ⟨root, hroot, h⟩ := bind_ok h
    cases h
    exact ⟨start, positions, hstart, hfinal, hroot⟩
  · rintro ⟨start, positions, hstart, hfinal, hroot⟩
    rw [rebuildBlock, hstart, ok_bind, hfinal, ok_bind]
    dsimp only
    rw [hroot]
    rfl

/-! ### A rebuilt block's root -/

theorem coinNode_perm {coins' : List (CoinRecord Commitment)} (h : (coins.map (·.position)).Nodup)
    (hperm : coins.Perm coins') : coinNode key ctx coins' = coinNode key ctx coins := by
  have hkeyed := (keyed_coinLeaves key ctx).2 h
  rw [coinNode, coinNode, coinLeaves, leaves_perm hkeyed (hperm.map _)]

theorem blockCoins_perm (coins : List (CoinRecord Commitment)) (block : ℕ) :
    (blockCoins coins block).Perm (coinsUnder SUBTREE_BITS block coins) := perm_insertionSort _ _

theorem mem_blockCoins : coin ∈ blockCoins coins block ↔ coin ∈ coins ∧ (locate coin.position).1 = block := by
  rw [(blockCoins_perm coins block).mem_iff, coinsUnder, mem_filter]
  simp [locate]

/-- Indices without a gap fit the block. -/
theorem length_le_of_locals (h : (coins.map fun coin => (locate coin.position).2) = .range coins.length) :
    coins.length ≤ 2 ^ SUBTREE_BITS := by
  by_contra hlong
  have hmem : 2 ^ SUBTREE_BITS ∈ coins.map fun coin => (locate coin.position).2 := by
    rw [h, mem_range]
    omega
  obtain ⟨coin, -, hcoin⟩ := mem_map.1 hmem
  rw [locate_eq] at hcoin
  exact (Nat.mod_lt coin.position (Nat.two_pow_pos SUBTREE_BITS)).ne hcoin

/-- The rebuilt frontier spans the block, and its root is the whole tree's node over it. -/
theorem rebuildBlock_root {record : RootRecord Node} (hpositions : (coins.map (·.position)).Nodup)
    (hlocals : ((blockCoins coins block).map fun coin => (locate coin.position).2) =
      .range (blockCoins coins block).length)
    (h : rebuildBlock key ctx (blockCoins coins block) = .ok (frontier, record)) :
    frontier.context = ctx ∧ frontier.maxDepth = SUBTREE_BITS ∧
      record.root = coinNode key ctx coins SUBTREE_BITS block := by
  obtain ⟨start, positions, hstart, happend, hroot⟩ := rebuildBlock_eq_ok.1 h
  let atLocal := fun coin : CoinRecord Commitment => { coin with position := (locate coin.position).2 }
  let order := (blockCoins coins block).map atLocal
  have hlength : order.length = (blockCoins coins block).length := length_map _
  have horder : InOrder order := by
    rw [InOrder, hlength, ← hlocals, map_map]
    rfl
  have hsame : coinNode key ctx order = coinNode key ctx (localCoins SUBTREE_BITS block coins) :=
    coinNode_perm (nodup_localCoins (by decide) block hpositions) ((blockCoins_perm coins block).map atLocal).symm
  obtain ⟨start', hstart', hfollows⟩ :=
    follows_new (coinNode key ctx order) ctx (show depthAllowed SUBTREE_BITS = true from rfl)
  cases hstart.symm.trans hstart'
  obtain ⟨final, hfinal, hfollows⟩ := hfollows.appendCoins horder (hlength ▸ length_le_of_locals hlocals) drop_zero
  rw [← appendCoins_map (f := atLocal) fun coin => ⟨rfl, rfl⟩] at happend
  cases (appendCoins_of_withNodes hfinal).symm.trans happend
  rw [zero_add] at hfollows
  rw [hfollows.rootAtDepth horder] at hroot
  split at hroot
  · cases hroot
  cases hroot
  refine ⟨hfollows.context_eq, hfollows.maxDepth_eq, ?_⟩
  rw [← coinNode_localCoins key ctx (by decide) block hpositions, ← hsame]

end

/-! ### Coins by address -/

section
variable {records : List (CoinRecord Commitment)}

theorem mem_insertRecord {other : CoinRecord Commitment} :
    other ∈ insertRecord records coin ↔ other = coin ∨ other ∈ records ∧ other.address ≠ coin.address := by
  rw [insertRecord, mem_append, mem_filter, mem_singleton]
  simp [or_comm]

theorem addresses_insertRecord (h : (records.map (·.address)).Nodup)
    (coin : CoinRecord Commitment) : ((insertRecord records coin).map (·.address)).Nodup := by
  rw [insertRecord, map_append, nodup_append]
  refine ⟨h.sublist (filter_sublist.map _), nodup_singleton _, fun a ha b hb hab => ?_⟩
  obtain ⟨other, hother, rfl⟩ := mem_map.1 ha
  rw [map_singleton, mem_singleton] at hb
  simpa [hab, hb] using (mem_filter.1 hother).2

variable {address : Bytes32}

theorem coinAt_eq_none : coinAt coins address = none ↔ ∀ coin ∈ coins, coin.address ≠ address := by
  simp [coinAt]

theorem coinAt_eq_some (h : coinAt coins address = some coin) : coin ∈ coins ∧ coin.address = address :=
  ⟨mem_of_find?_eq_some h, by simpa using find?_some h⟩

/-- Records of live coins, none twice. -/
structure Taken (coins records : List (CoinRecord Commitment)) : Prop where
  live : ∀ coin ∈ records, coin ∈ coins
  addresses : (records.map (·.address)).Nodup

theorem Taken.insertRecord (h : Taken coins records)
    (hcoin : coin ∈ coins) : Taken coins (insertRecord records coin) := by
  refine ⟨fun other hother => ?_, addresses_insertRecord h.addresses coin⟩
  rcases mem_insertRecord.1 hother with rfl | ⟨hother, -⟩
  · exact hcoin
  · exact h.live other hother

/-- Some record has the address. -/
def Names (records : List (CoinRecord Commitment)) (address : Bytes32) : Prop :=
  ∃ coin ∈ records, coin.address = address

/-- An insertion keeps every address and adds its own. -/
theorem names_insertRecord (h : coin.address = address ∨ Names records address) :
    Names (insertRecord records coin) address := by
  by_cases heq : coin.address = address
  · exact ⟨coin, mem_insertRecord.2 (.inl rfl), heq⟩
  · obtain ⟨other, hother, rfl⟩ := h.resolve_left heq
    exact ⟨other, mem_insertRecord.2 (.inr ⟨hother, fun h => heq h.symm⟩), rfl⟩

theorem taken_pending {pending : List (CoinRecord Commitment)} (h : Taken coins records)
    (hpending : ∀ coin ∈ pending, coin ∈ coins) : Taken coins (pending.foldl insertRecord records) ∧
      (∀ address, Names records address → Names (pending.foldl insertRecord records) address) ∧
      ∀ coin ∈ pending, Names (pending.foldl insertRecord records) coin.address := by
  induction pending generalizing records with
  | nil => exact ⟨h, fun _ => id, fun coin hcoin => absurd hcoin not_mem_nil⟩
  | cons coin pending ih =>
    obtain ⟨htaken, hkept, hadded⟩ := ih (h.insertRecord (hpending coin mem_cons_self))
      fun other hother => hpending other (mem_cons_of_mem _ hother)
    refine ⟨htaken, fun address haddress => hkept _ (names_insertRecord (.inr haddress)),
      forall_mem_cons.2 ⟨hkept _ (names_insertRecord (.inl rfl)), hadded⟩⟩

theorem taken_placed {s : State Node Commitment} {placed : List (ℕ × Bytes32)} {final : List (CoinRecord Commitment)}
    (h : Taken s.coins records) (hfinal : placed.foldlM (takePlaced s) records = .ok final) :
    Taken s.coins final ∧ (∀ address, Names records address → Names final address) ∧
      ∀ entry ∈ placed, Names final entry.2 := by
  induction placed generalizing records with
  | nil =>
    cases hfinal
    exact ⟨h, fun _ => id, fun entry hentry => absurd hentry not_mem_nil⟩
  | cons entry placed ih =>
    rw [foldlM_cons] at hfinal
    obtain ⟨next, hnext, hfinal⟩ := bind_ok hfinal
    obtain ⟨htaken, hkept, hadded⟩ : Taken s.coins next ∧ (∀ address, Names records address → Names next address) ∧
        Names next entry.2 := by
      rw [takePlaced] at hnext
      split at hnext
      · next hsome =>
        cases hnext
        obtain ⟨coin, hcoin⟩ := Option.isSome_iff_exists.1 hsome
        exact ⟨h, fun _ => id, coin, coinAt_eq_some hcoin⟩
      split at hnext
      · next coin hcoin =>
        cases hnext
        obtain ⟨hlive, haddress⟩ := coinAt_eq_some hcoin
        exact ⟨h.insertRecord hlive, fun address ha => names_insertRecord (.inr ha),
          names_insertRecord (.inl haddress)⟩
      · cases hnext
    obtain ⟨hlast, hkept', hadded'⟩ := ih htaken hfinal
    exact ⟨hlast, fun address ha => hkept' _ (hkept _ ha), forall_mem_cons.2 ⟨hkept' _ hadded, hadded'⟩⟩

/-- The records taken are live coins, those of the changeset and the placed ones among them. -/
theorem newRecords_eq_ok {s : State Node Commitment} (haddresses : (s.coins.map (·.address)).Nodup)
    (hpending : ∀ coin ∈ s.pending, coin ∈ s.coins) (h : newRecords s = .ok records) : Taken s.coins records ∧
      ∀ coin ∈ s.coins, coin ∈ s.pending ∨ (∃ block, (block, coin.address) ∈ s.placed) → coin ∈ records := by
  obtain ⟨hfirst, -, hstaged⟩ := taken_pending
    (show Taken s.coins [] from ⟨fun coin hcoin => absurd hcoin not_mem_nil, nodup_nil⟩) hpending
  obtain ⟨htaken, hkept, hplaced⟩ := taken_placed hfirst h
  refine ⟨htaken, fun coin hcoin hnew => ?_⟩
  have hnames : Names records coin.address := by
    rcases hnew with hnew | ⟨block, hnew⟩
    · exact hkept _ (hstaged coin hnew)
    · exact hplaced _ hnew
  obtain ⟨other, hother, heq⟩ := hnames
  rwa [← inj_on_of_nodup_map haddresses (htaken.live other hother) hcoin heq]

/-! ### Folded coins -/

/-- Coins the block's frontier holds. -/
def frontierCount (s : State Node Commitment) (block : ℕ) : ℕ := ((s.frontiers block).map (·.count)).getD 0

/-- The coin lies below its block's frontier. -/
def IsFolded (s : State Node Commitment) (coin : CoinRecord Commitment) : Prop :=
  (locate coin.position).2 < frontierCount s (locate coin.position).1

instance (s : State Node Commitment) (coin : CoinRecord Commitment) : Decidable (IsFolded s coin) :=
  inferInstanceAs (Decidable (_ < _))

def foldedCoins (s : State Node Commitment) : List (CoinRecord Commitment) := s.coins.filter (IsFolded s ·)

/-- A block with coins, their number and its root, as its records say. -/
def Recorded (s : State Node Commitment) (entry : ℕ × ℕ × Node) : Prop :=
  0 < entry.2.1 ∧ ∃ frontier, s.frontiers entry.1 = some frontier ∧ frontier.count = entry.2.1 ∧
    s.roots entry.1 = some entry.2.2

/-- The summary tree holds exactly the blocks with coins. -/
def Summarised (m : Membership Node) (ctx : Bytes32) (s : State Node Commitment) : Prop :=
  ∃ blocks, Holds m ctx blocks s.summary.nodes ∧ ∀ entry, entry ∈ blocks ↔ Recorded s entry

/-- What the operations keep. -/
structure Kept (key : MembershipKey Node Commitment) (ctx : Bytes32) (s : State Node Commitment) : Prop where
  addresses : (s.coins.map (·.address)).Nodup
  staged : ∀ coin ∈ s.pending, coin ∈ s.coins
  /-- A coin not folded yet is of the changeset or placed. -/
  unfolded : ∀ coin ∈ s.coins, ¬ IsFolded s coin →
    coin ∈ s.pending ∨ ∃ block, (block, coin.address) ∈ s.placed
  allocated : ∀ coin ∈ foldedCoins s, isAllocatedWidth MAX_BLOCK_BITS (locate coin.position).1 = true
  blocks : ∀ block, Rebuilt key ctx (blockCoins (foldedCoins s) block) (s.frontiers block) (s.roots block)
  summary : Summarised key.toMembership ctx s
  tree : s.summary.flat = none

end

variable {root : Option Node}

section
variable {key : MembershipKey Node Commitment} {ctx : Bytes32} {s : State Node Commitment}

theorem mem_foldedCoins : coin ∈ foldedCoins s ↔ coin ∈ s.coins ∧ IsFolded s coin := by
  rw [foldedCoins, mem_filter, decide_eq_true_eq]

theorem foldedCoins_eq (h : ∀ coin ∈ s.coins, IsFolded s coin) : foldedCoins s = s.coins :=
  filter_eq_self.2 fun coin hcoin => by simpa using h coin hcoin

theorem Rebuilt.count_eq {frontier : Option (Frontier Node)} (h : Rebuilt key ctx coins frontier root) :
    (frontier.map (·.count)).getD 0 = coins.length := by
  cases h with
  | empty => rfl
  | folded _ _ _ hcount => exact hcount

theorem Rebuilt.locals {frontier : Option (Frontier Node)} (h : Rebuilt key ctx coins frontier root) :
    (coins.map fun coin => (locate coin.position).2) = .range coins.length := by
  cases h with
  | empty => rfl
  | folded _ hlocals _ _ => exact hlocals

/-- A block with coins has both records. -/
theorem Rebuilt.records {frontier : Option (Frontier Node)} (h : Rebuilt key ctx coins frontier root)
    (hne : coins ≠ []) :
    ∃ f record, frontier = some f ∧ root = some record.root ∧ rebuildBlock key ctx coins = .ok (f, record) ∧
      f.count = coins.length := by
  cases h with
  | empty => exact absurd rfl hne
  | folded _ _ hrebuild hcount => exact ⟨_, _, rfl, rfl, hrebuild, hcount⟩

/-- A folded coin's block is recorded. -/
theorem Rebuilt.recorded (h : Rebuilt key ctx coins (s.frontiers block) (s.roots block)) (hne : coins ≠ []) :
    ∃ x, Recorded s (block, x) := by
  obtain ⟨f, record, hfrontier, hroot, -, hcount⟩ := h.records hne
  exact ⟨(f.count, record.root), hcount ▸ length_pos_iff.2 hne, f, hfrontier, rfl, hroot⟩

theorem kept_empty (key : MembershipKey Node Commitment) (ctx : Bytes32) (width : Option ℕ) :
    Kept key ctx (.empty width) := by
  refine ⟨nodup_nil, fun _ h => h, fun coin hcoin => absurd hcoin not_mem_nil,
    fun coin hcoin => absurd hcoin not_mem_nil, fun block => .empty,
    ⟨[], SummaryTree.holds_empty _ _, fun entry => ?_⟩, rfl⟩
  simp [Recorded, State.empty, Store.empty]

/-- Positions in one block ascend with the indices. -/
theorem ascending_of_locals {n : ℕ} (hblock : ∀ coin ∈ coins, (locate coin.position).1 = block)
    (hlocals : (coins.map fun coin => (locate coin.position).2) = .range n) :
    coins.Pairwise fun a b => a.position < b.position := by
  have hpair := pairwise_lt_range (n := n)
  rw [← hlocals, pairwise_map] at hpair
  refine hpair.imp_of_mem fun {a b} ha hb hab => ?_
  have ha := hblock a ha
  have hb := hblock b hb
  rw [locate_eq] at ha hb hab
  rw [locate_eq] at hab
  dsimp only at ha hb hab
  rw [← Nat.div_add_mod a.position (2 ^ SUBTREE_BITS), ← Nat.div_add_mod b.position (2 ^ SUBTREE_BITS), ha, hb]
  omega

/-- A block's coins in position order are any ascending list of them. -/
theorem blockCoins_eq {order : List (CoinRecord Commitment)}
    (hperm : (coinsUnder SUBTREE_BITS block coins).Perm order)
    (horder : order.Pairwise fun a b => a.position < b.position) : blockCoins coins block = order := by
  have hall := (blockCoins_perm coins block).trans hperm
  have hsorted : (blockCoins coins block).Pairwise fun a b => a.position ≤ b.position :=
    pairwise_sortBy (fun coin : CoinRecord Commitment => coin.position) _
  have hdistinct : ((blockCoins coins block).map (·.position)).Nodup := by
    rw [(hall.map _).nodup_iff, List.Nodup, pairwise_map]
    exact horder.imp ne_of_lt
  rw [List.Nodup, pairwise_map] at hdistinct
  exact eq_of_ascending (f := fun coin : CoinRecord Commitment => coin.position)
    ((hsorted.and hdistinct).imp fun hab => lt_of_le_of_ne hab.1 hab.2) horder fun _ => hall.mem_iff

/-! ### Folding a block -/

theorem loadBlockFrontier_eq_ok {frontier : Option (Frontier Node)}
    (h : loadBlockFrontier ctx s block = .ok frontier) : frontier = s.frontiers block := by
  rw [loadBlockFrontier] at h
  split at h
  · next hnone =>
    cases h
    exact hnone.symm
  next f hsome =>
  split at h
  · cases h
  · cases h
    exact hsome.symm

/-- A rebuilt block's frontier is in the application's context and spans the block. -/
theorem Rebuilt.loadBlockFrontier (h : Rebuilt key ctx coins (s.frontiers block) root) :
    loadBlockFrontier ctx s block = .ok (s.frontiers block) := by
  rw [Roots.loadBlockFrontier]
  generalize s.frontiers block = loaded at h
  cases h with
  | empty => rfl
  | folded _ _ hrebuild _ =>
    obtain ⟨start, positions, hstart, happend, -⟩ := rebuildBlock_eq_ok.1 hrebuild
    obtain ⟨hcontext, hdepth⟩ := appendCoins_span happend
    rw [Frontier.new, dif_pos (by decide)] at hstart
    cases hstart
    dsimp only
    rw [hcontext, hdepth, if_neg (by simp)]

theorem Kept.blockCount (h : Kept key ctx s) (block : ℕ) :
    blockCount ctx s block = .ok (frontierCount s block + s.placed.countP (·.1 == block)) := by
  rw [Roots.blockCount, (h.blocks block).loadBlockFrontier]
  rfl

theorem blockCount_eq_ok {count : ℕ} (h : blockCount ctx s block = .ok count) :
    count = frontierCount s block + s.placed.countP (·.1 == block) := by
  obtain ⟨loaded, hloaded, h⟩ := bind_ok h
  cases h
  rw [loadBlockFrontier_eq_ok hloaded, frontierCount]

theorem locate_position {bits index found : ℕ} (h : position bits block index = .ok found) :
    locate found = (block, index) := by
  rw [position] at h
  split at h
  · cases h
  split at h
  · cases h
  next hindex =>
  cases h
  rw [locate_eq, mul_comm, Nat.mul_add_div (Nat.two_pow_pos _), Nat.mul_add_mod,
    Nat.div_eq_of_lt (by omega), Nat.mod_eq_of_lt (by omega), add_zero]

/-- A rebuilt block's frontier comes from appending its coins. -/
theorem Rebuilt.appended {loaded : Option (Frontier Node)} (h : Rebuilt key ctx coins loaded root)
    (hfrontier : startFrontier ctx loaded = .ok frontier) :
    frontier.count = coins.length ∧ ∃ start positions, Frontier.new ctx SUBTREE_BITS = .ok start ∧
      appendCoins key start coins = .ok (positions, frontier) := by
  cases h with
  | empty =>
    rw [startFrontier, orInvalid_eq_ok] at hfrontier
    refine ⟨?_, frontier, [], hfrontier, rfl⟩
    rw [Frontier.new, dif_pos (by decide)] at hfrontier
    cases hfrontier
    rfl
  | folded _ _ hrebuild hcount =>
    cases hfrontier
    obtain ⟨start, positions, hstart, happend, -⟩ := rebuildBlock_eq_ok.1 hrebuild
    exact ⟨hcount, start, positions, hstart, happend⟩

/-- Coins that hold every unfolded one. -/
structure Fresh (s : State Node Commitment) (records : List (CoinRecord Commitment)) : Prop where
  taken : Taken s.coins records
  unfolded : ∀ coin ∈ s.coins, ¬ IsFolded s coin → coin ∈ records

/-- Folding a block's new coins rebuilds it over all of its coins. -/
theorem Kept.rebuilt_of_fold (h : Kept key ctx s)
    (hrecords : Fresh s records) (hblock : ∃ coin ∈ records, (locate coin.position).1 = block)
    {touched : ℕ × Frontier Node × List (CoinRecord Commitment)} {folded : ℕ × Frontier Node × Node}
    (htouched : freshCoins ctx s records block = .ok touched) (hfolded : foldBlock key touched = .ok folded) :
    folded.1 = block ∧ Rebuilt key ctx (blockCoins s.coins block) (some folded.2.1) (some folded.2.2) := by
  obtain ⟨loaded, hloaded, htouched⟩ := bind_ok htouched
  obtain ⟨frontier, hfrontier, htouched⟩ := bind_ok htouched
  cases htouched
  obtain ⟨final, hfinal, hfolded⟩ := bind_ok hfolded
  obtain ⟨record, hrecord, hfolded⟩ := bind_ok hfolded
  cases hfolded
  rw [orInvalid_eq_ok] at hrecord
  dsimp only at hfinal
  obtain rfl := loadBlockFrontier_eq_ok hloaded
  have hold := h.blocks block
  obtain ⟨hcount, start, positions, hstart, happend⟩ := hold.appended hfrontier
  set old := blockCoins (foldedCoins s) block with hold_def
  set fresh := (blockCoins records block).filter fun coin => (locate coin.position).2 ≥ frontier.count
    with hfresh_def
  obtain ⟨⟨later, hlater⟩, hlocals, htotal⟩ := appendFresh_eq_ok hfinal
  have hfrontierCount : frontierCount s block = frontier.count := by rw [frontierCount, hold.count_eq, hcount]
  have hmem_old : ∀ coin, coin ∈ old ↔ coin ∈ s.coins ∧ IsFolded s coin ∧ (locate coin.position).1 = block := by
    intro coin
    rw [hold_def, mem_blockCoins, mem_foldedCoins, and_assoc]
  have hmem_fresh : ∀ coin, coin ∈ fresh ↔ coin ∈ s.coins ∧ ¬ IsFolded s coin ∧ (locate coin.position).1 = block := by
    intro coin
    rw [hfresh_def, mem_filter, mem_blockCoins, decide_eq_true_eq, IsFolded, not_lt]
    constructor
    · rintro ⟨⟨hcoin, rfl⟩, hge⟩
      exact ⟨hrecords.taken.live coin hcoin, hfrontierCount ▸ hge, rfl⟩
    · rintro ⟨hcoin, hge, rfl⟩
      exact ⟨⟨hrecords.unfolded coin hcoin (not_lt.2 hge), rfl⟩, hfrontierCount ▸ hge⟩
  have hall : ((old ++ fresh).map fun coin => (locate coin.position).2) = range (old ++ fresh).length := by
    rw [map_append, hold.locals, hlocals, hcount, length_append, range_eq_range',
      range_eq_range', range'_append_1.symm]
    simp
  have hblocks : ∀ coin ∈ old ++ fresh, (locate coin.position).1 = block := fun coin hcoin => by
    rcases mem_append.1 hcoin with hcoin | hcoin
    · exact ((hmem_old coin).1 hcoin).2.2
    · exact ((hmem_fresh coin).1 hcoin).2.2
  have hascending := ascending_of_locals hblocks hall
  have hnodup : (coinsUnder SUBTREE_BITS block s.coins).Nodup := (List.Nodup.of_map _ h.addresses).filter _
  have hperm : (coinsUnder SUBTREE_BITS block s.coins).Perm (old ++ fresh) := by
    refine (perm_ext_iff_of_nodup hnodup (hascending.imp fun hab heq => by simp [heq] at hab)).2 fun coin => ?_
    rw [mem_append, hmem_old, hmem_fresh, ← (blockCoins_perm s.coins block).mem_iff, mem_blockCoins]
    by_cases hfolded : IsFolded s coin
    · simp [hfolded]
    · simp [hfolded]
  have heq := blockCoins_eq hperm hascending
  obtain ⟨coin, hcoin, hlocated⟩ := hblock
  have hne : blockCoins s.coins block ≠ [] :=
    ne_nil_of_mem (mem_blockCoins.2 ⟨hrecords.taken.live coin hcoin, hlocated⟩)
  refine ⟨rfl, .folded hne (heq ▸ hall) ?_ ?_⟩
  · rw [heq]
    exact rebuildBlock_eq_ok.2 ⟨start, _, hstart, appendCoins_append happend hlater, hrecord⟩
  · rw [htotal, hcount, heq, length_append]

/-- A block without new coins is rebuilt over all of its coins already. -/
theorem Kept.untouched (h : Kept key ctx s)
    (hrecords : Fresh s records) (hblock : ∀ coin ∈ records, (locate coin.position).1 ≠ block) :
    Rebuilt key ctx (blockCoins s.coins block) (s.frontiers block) (s.roots block) := by
  have heq : blockCoins s.coins block = blockCoins (foldedCoins s) block := by
    rw [blockCoins, blockCoins, foldedCoins, filter_filter]
    refine congrArg _ (filter_congr fun coin hcoin => ?_)
    by_cases hb : (locate coin.position).1 = block
    · have hfolded : IsFolded s coin := by
        by_contra hnot
        exact hblock coin (hrecords.unfolded coin hcoin hnot) hb
      simp [hb, hfolded]
    · simp [hb]
  rw [heq]
  exact h.blocks block

/-- Records of blocks rebuilt over all coins leave no coin unfolded. -/
theorem isFolded_of_rebuilt (h : ∀ block, Rebuilt key ctx (blockCoins s.coins block) (s.frontiers block)
      (s.roots block)) (hcoin : coin ∈ s.coins) : IsFolded s coin := by
  have hblock := h (locate coin.position).1
  have hmem := mem_map_of_mem (f := fun coin : CoinRecord Commitment => (locate coin.position).2)
    (mem_blockCoins.2 ⟨hcoin, rfl⟩)
  rw [hblock.locals, mem_range] at hmem
  rwa [IsFolded, frontierCount, hblock.count_eq]

end

end Quil.Roots
