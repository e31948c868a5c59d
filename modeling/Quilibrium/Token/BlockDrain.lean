import Quilibrium.Token.Delivery
import Quilibrium.Token.Replacement
import Quilibrium.Token.SpendEntries

/-! Both sides of a commit together: shards relay operations, GLOBAL commits them, owning shards take the committed
    items. An output's address is its identity, and the identity is of the FRAME NUMBER and the output only. So every
    block drains as long as no two operations of an application repeat an output in equally numbered frames; two that
    do are both committed, and the second coin blocks its block for good. -/

namespace Quil.BlockDrain
open Schemes GlobalRecords GlobalCommit Orphans CommitRun DeliveryQueues Replacement SpendEntries List Store
open AccumulatorRecords
open CoinBlocks hiding invalid
open Delivery (Deliverable Take Drain Venue Placed drain)

variable {Node Commitment : Type}

/-! ### Relays -/

/-- An operation executed at `sourceFrame` of a shard and relayed to global frame `frame`. -/
structure Relay where
  frame : ℕ
  application : Bytes32
  tp : ℕ
  bytes : Bytes
  sourceFrame : ℕ
  sourceShard : ShardPath

/-- What happens at GLOBAL: relays, and what comes between them. -/
inductive Act (Node : Type) where
  | relay (r : Relay)
  | raise (app : Bytes32) (shardDepth : ℕ)
  | reconcile (frame : ℕ) (app : Bytes32) (registered removed : List (List Bool))
  | publish (app : Bytes32) (history : History Node)

variable (p : Primitives Node) (env : Env Node) (network : Bytes32)

/-- The entry a relay carries. -/
def Relay.entry (r : Relay) : Except QuilError SpendEntry :=
  spendEntry p env network r.application r.tp r.bytes r.sourceFrame

/-- The outputs its operation creates. -/
def Relay.outputs (r : Relay) : Except QuilError (List Output) :=
  operationOutputs p network r.application r.tp r.bytes

/-- The call an act makes; an operation without an entry is not relayed. -/
def Act.call : Act Node → Option (Call Node)
  | .relay r => match r.entry p env network with
    | .ok entry => some (.commit r.frame r.application entry r.sourceShard)
    | .error _ => none
  | .raise app shardDepth => some (.raise app shardDepth)
  | .reconcile frame app registered removed => some (.reconcile frame app registered removed)
  | .publish app history => some (.publish app history)

def calls (acts : List (Act Node)) : List (Call Node) := acts.filterMap (Act.call p env network)

/-- Two operations of one application create a common output in equally numbered frames. -/
def Repeats (r r' : Relay) : Prop :=
  r.application = r'.application ∧ r.bytes ≠ r'.bytes ∧ r.sourceFrame = r'.sourceFrame ∧
    ∃ outputs outputs', r.outputs p network = .ok outputs ∧ r'.outputs p network = .ok outputs' ∧
      ∃ o ∈ outputs, o ∈ outputs'

/-- No two relays of the run repeat an output. -/
def NoRepeat (acts : List (Act Node)) : Prop :=
  acts.Pairwise fun x y => ∀ r r', x = .relay r → y = .relay r' → ¬ Repeats p network r r'

/-- The hashes do not collide on what the run relays: coins of one application have different
    identities, no escrow has a coin's address, and no item has the address of an accumulator record. -/
structure CollisionFree (acts : List (Act Node)) : Prop where
  coins : ∀ r r' outputs outputs', .relay r ∈ acts → .relay r' ∈ acts →
    r.application = r'.application → r.outputs p network = .ok outputs →
    r'.outputs p network = .ok outputs' → ∀ o ∈ outputs, ∀ o' ∈ outputs', ∀ a,
      p.coinIdentity (p.parameterContext network r.application) r.sourceFrame o = .ok a →
      p.coinIdentity (p.parameterContext network r'.application) r'.sourceFrame o' = .ok a →
      r.sourceFrame = r'.sourceFrame ∧ o = o'
  apart : ∀ r r' entry entry' c, .relay r ∈ acts → .relay r' ∈ acts →
    r.application = r'.application → r.entry p env network = .ok entry →
    r'.entry p env network = .ok entry' → entry'.escrowCreate = some c → c.address ∉ entry.outputs
  plain : ∀ r entry, .relay r ∈ acts → r.entry p env network = .ok entry →
    (∀ a ∈ entry.outputs, isAccumulatorRecord a = false) ∧
    ∀ c, entry.escrowCreate = some c → isAccumulatorRecord c.address = false

variable {p env network} {app : Bytes32} {entry : SpendEntry}

/-- A commit call is a relay's. -/
theorem call_eq_commit {act : Act Node} {frame : ℕ}
    {shard : ShardPath} (h : act.call p env network = some (.commit frame app entry shard)) :
    ∃ r, act = .relay r ∧ r.entry p env network = .ok entry ∧ r.frame = frame ∧
      r.application = app ∧ r.sourceShard = shard := by
  cases act with
  | relay r =>
    rw [Act.call] at h
    rcases hr : r.entry p env network with _ | e
    · rw [hr] at h; cases h
    rw [hr] at h; cases h; exact ⟨r, rfl, hr, rfl, rfl, rfl⟩
  | raise => cases h
  | reconcile => cases h
  | publish => cases h

/-- No act attests an orphan. -/
def NotAttest : Call Node → Prop
  | .attest _ _ _ _ => False
  | _ => True

theorem calls_notAttest (acts : List (Act Node)) : ∀ c ∈ calls p env network acts, NotAttest c := by
  intro c hc
  obtain ⟨act, -, hcall⟩ := mem_filterMap.1 hc
  cases act with
  | relay r =>
    rw [Act.call] at hcall
    rcases hr : r.entry p env network with _ | e
    · rw [hr] at hcall; cases hcall
    rw [hr] at hcall; cases hcall; trivial
  | raise | reconcile | publish => cases hcall; trivial

variable {s : Records Node}

theorem narrower_of_notAttest {c : Call Node} (h : NotAttest c) : Narrower s c := by
  cases c with
  | attest => exact h.elim
  | _ => trivial

/-! ### Items sit in their blocks -/

/-- Every queued item sits in the block its address selects, and no block holds more coins than it has positions. -/
def Routed (s : Records Node) : Prop :=
  ∀ lane app q, Tracks lane app s q →
    (∀ b, ∀ d ∈ q b, blockForAddress (creationWidth b) d.address = .ok b) ∧
    (lane = .coin → ∀ b, (q b).length ≤ BLOCK_CAPACITY)

theorem placeOutputs_capacity {width : ℕ} (entry : SpendEntry) (shard : ShardPath) (outputs : List Bytes32) :
    ∀ {sequences final : Sequences} {placements : List Placement} {q : ℕ → List Delivery},
      placeOutputs s app width sequences outputs = .ok (some (placements, final)) →
      Counts .coin app s sequences q → (∀ b, (q b).length ≤ BLOCK_CAPACITY) →
      ∀ b, (enqueue (route width) q (outputs.map (entry.delivery shard)) b).length ≤ BLOCK_CAPACITY := by
  induction outputs with
  | nil => intro sequences final placements q _ _ hcap; exact hcap
  | cons a rest ih =>
    intro sequences final placements q h hc hcap
    obtain ⟨ps, -, hroom, hrest⟩ := placeOutputs_cons hc h
    refine ih hrest (fun b => nextSequence_push _ (entry.delivery shard a) (hc b)) fun b => ?_
    rw [length_push]
    split_ifs
    · exact hroom
    · exact hcap b

/-- An item routed at an allocated width sits in its block. -/
theorem blockForAddress_route {width : ℕ} (hlo : INITIAL_BLOCK_BITS ≤ width) (hhi : width ≤ MAX_BLOCK_BITS)
    (d : Delivery) : blockForAddress (creationWidth (route width d)) d.address = .ok (route width d) := by
  have hok := blockForAddress_ok d.address hlo hhi
  have hwidth := (blockForAddress_spec hok).2.2.1
  rw [route, blockAt, hwidth, hok]

variable {lane : Lane}

/-- Apart from attestations, a call leaves the queues of a lane or routes items to their ends. -/
theorem step_tracks (env : Env Node) (s : Records Node) {call : Call Node} (hcall : NotAttest call)
    {a : Bytes32} {q : ℕ → List Delivery} (hq : Tracks lane a s q) :
    Tracks lane a (step env s call).1 q ∨ ∃ width items, INITIAL_BLOCK_BITS ≤ width ∧
      width ≤ MAX_BLOCK_BITS ∧ Tracks lane a (step env s call).1 (enqueue (route width) q items) ∧
      (lane = .coin → (∀ b, (q b).length ≤ BLOCK_CAPACITY) →
        ∀ b, (enqueue (route width) q items b).length ≤ BLOCK_CAPACITY) := by
  have hs := steps_step env s call
  generalize step env s call = r at hs
  obtain ⟨s', reply⟩ := r
  change Tracks lane a s' q ∨ ∃ width items, INITIAL_BLOCK_BITS ≤ width ∧ width ≤ MAX_BLOCK_BITS ∧
    Tracks lane a s' (enqueue (route width) q items) ∧ _
  cases hs with
  | failed _ e => exact .inl hq
  | @commit frame app entry shard o s' hok =>
    rcases commitEntry_cases hok with ⟨-, rfl, -⟩ | ⟨-, -, ⟨reason, s₁, hprep, ⟨⟩⟩ | hcom⟩
    · exact .inl hq
    · exact .inl ((hq.of_prepared hprep).congr (fun _ => write_other) fun _ _ => write_other)
    obtain ⟨-, s₁, width, placements, sequences, hprep, hw, -, hplace, hwrite⟩ := hcom
    have hq₁ : Tracks lane a s₁ q := hq.of_prepared hprep
    obtain ⟨hlo, hhi⟩ := placementWidth_bounds hw
    by_cases ha : a = app
    · subst ha
      refine .inr ⟨width, laneItems lane entry shard, hlo, hhi, ?_⟩
      cases lane with
      | coin =>
        exact ⟨writeCommit_tracks_coin hplace hwrite hq₁, fun _ =>
          placeOutputs_capacity entry shard entry.outputs hplace hq₁.counts⟩
      | escrow => exact ⟨writeCommit_tracks_escrow hwrite hq₁, fun h => by cases h⟩
    · exact .inl (writeCommit_tracks_other ha hwrite hq₁)
  | raise hok => exact .inl (hq.of_prepared (raisePlacementWidth_prepared hok))
  | reconcile hok => exact .inl (hq.congr (fun _ => reconcileOrphans_other hok) fun _ _ => reconcileOrphans_other hok)
  | attest => exact hcall.elim
  | publish app history => exact .inl (hq.congr (fun _ => write_other) fun _ _ => write_other)

theorem routed_empty : Routed (empty : Records Node) := by
  intro lane app q hq
  have hnil : q = fun _ => [] := hq.unique (tracks_empty lane app)
  subst hnil
  exact ⟨by simp, fun _ b => by simp⟩

theorem routed_step (env : Env Node) {tr : List (Event Node)} {call : Call Node}
    (hcall : NotAttest call) (hsound : Sound tr s) (h : Routed s) : Routed (step env s call).1 := by
  intro lane app q' hq'
  obtain ⟨q, hq⟩ := hsound.queues lane app
  obtain ⟨hin, hcap⟩ := h lane app q hq.tracks
  rcases step_tracks env s hcall hq.tracks with hsame | ⟨width, items, hlo, hhi, hnew, hroom⟩
  · rw [hq'.unique hsame]; exact ⟨hin, hcap⟩
  rw [hq'.unique hnew]
  refine ⟨fun b d hd => ?_, fun hl => hroom hl (hcap hl)⟩
  rcases (mem_enqueue items q).1 hd with hd | ⟨-, rfl⟩
  · exact hin b d hd
  · exact blockForAddress_route hlo hhi d

theorem run_routed (p : Primitives Node) (env : Env Node) (network : Bytes32) (acts : List (Act Node)) :
    Sound (run (step env) empty (calls p env network acts)).2 (run (step env) empty (calls p env network acts)).1 ∧
    Routed (run (step env) empty (calls p env network acts)).1 := by
  have h := run_invariant_of (step env) (C := fun _ c => NotAttest c)
    (fun tr s c (h : Sound tr s ∧ Routed s) hc =>
      ⟨sound_step env tr s c h.1 (narrower_of_notAttest hc), routed_step env hc h.1 h.2⟩)
    (calls p env network acts) empty [] ⟨sound_empty, routed_empty⟩
    (runMeets_of_forall (step env) _ (calls_notAttest acts) _)
  rwa [nil_append] at h

/-! ### Queued addresses are different -/

/-- What two events queue for one application has different addresses, or is one item. -/
def AddressesApart (x y : Event Node) : Prop :=
  ∀ app lane lane' d d', QueuesItem lane app x d →
    QueuesItem lane' app y d' → d.address = d'.address → lane = lane' ∧ d = d'

instance : Std.Symm (@AddressesApart Node) where
  symm x y h app lane lane' d d' hd hd' ha := by
    obtain ⟨hl, he⟩ := h app lane' lane d' d hd' hd ha.symm
    exact ⟨hl.symm, he.symm⟩

variable {d : Delivery}

theorem mem_laneItems {shard : ShardPath} : d ∈ laneItems lane entry shard ↔ d = entry.delivery shard d.address ∧
      match lane with
      | .coin => d.address ∈ entry.outputs
      | .escrow => ∃ c, entry.escrowCreate = some c ∧ c.address = d.address := by
  cases lane with
  | coin =>
    constructor
    · intro h
      obtain ⟨a, ha, rfl⟩ := mem_map.1 h
      exact ⟨rfl, ha⟩
    · rintro ⟨hd, ha⟩
      exact mem_map.2 ⟨_, ha, hd.symm⟩
  | escrow =>
    constructor
    · intro h
      obtain ⟨c, hc, rfl⟩ := mem_map.1 h
      exact ⟨rfl, c, by simpa using hc, rfl⟩
    · rintro ⟨hd, c, hc, ha⟩
      exact mem_map.2 ⟨c, by simpa using hc, by rw [ha]; exact hd.symm⟩

variable {acts : List (Act Node)}

/-- An item of the run comes from a relay of the run. -/
theorem relay_of_queuesItem {ev : Event Node} (hev : ev.1 ∈ calls p env network acts) (h : QueuesItem lane app ev d) :
    ∃ r entry, .relay r ∈ acts ∧ r.entry p env network = .ok entry ∧ r.application = app ∧
      IsCommit ev r.frame app entry r.sourceShard ∧ d ∈ laneItems lane entry r.sourceShard := by
  obtain ⟨frame, entry, shard, hcommit, hd⟩ := h
  obtain ⟨ps, pl, hdec⟩ := id hcommit
  rw [Decides] at hdec
  rw [hdec] at hev
  obtain ⟨act, hact, hcall⟩ := mem_filterMap.1 hev
  obtain ⟨r, rfl, hentry, rfl, rfl, rfl⟩ := call_eq_commit hcall
  exact ⟨r, entry, hact, hentry, rfl, hcommit, hd⟩

/-- A coin and an escrow of one application never share an address. -/
theorem coin_ne_escrow (hfree : CollisionFree p env network acts) {x y : Event Node}
    (hx : x.1 ∈ calls p env network acts) (hy : y.1 ∈ calls p env network acts) {d' : Delivery}
    (hd : QueuesItem .coin app x d) (hd' : QueuesItem .escrow app y d') : d.address ≠ d'.address := by
  intro ha
  obtain ⟨r, entry, hr, hentry, rfl, -, hmem⟩ := relay_of_queuesItem hx hd
  obtain ⟨r', entry', hr', hentry', happ, -, hmem'⟩ := relay_of_queuesItem hy hd'
  obtain ⟨c, hc, hca⟩ := (mem_laneItems.1 hmem').2
  have hout : d.address ∈ entry.outputs := (mem_laneItems.1 hmem).2
  rw [ha, ← hca] at hout
  exact hfree.apart r r' entry entry' c hr hr' happ.symm hentry hentry' hc hout

/-- The coins of two relays that do not repeat an output have different addresses. -/
theorem outputs_disjoint (hfree : CollisionFree p env network acts) {r r' : Relay}
    {entry' : SpendEntry} (hr : .relay r ∈ acts) (hr' : .relay r' ∈ acts)
    (happ : r.application = r'.application) (hentry : r.entry p env network = .ok entry)
    (hentry' : r'.entry p env network = .ok entry') (htx : entry.txId ≠ entry'.txId)
    (hrepeat : ¬ Repeats p network r r') : List.Disjoint entry.outputs entry'.outputs := by
  intro a ha ha'
  have hb := spendEntry_built hentry
  have hb' := spendEntry_built hentry'
  obtain ⟨outputs, hout, haddr⟩ := hb.outputs
  obtain ⟨outputs', hout', haddr'⟩ := hb'.outputs
  obtain ⟨o, ho, hid⟩ := mem_outputAddresses haddr a ha
  obtain ⟨o', ho', hid'⟩ := mem_outputAddresses haddr' a ha'
  obtain ⟨hframe, rfl⟩ := hfree.coins r r' outputs outputs' hr hr' happ hout hout' o ho o' ho' a hid hid'
  refine hrepeat ⟨happ, fun hbytes => htx ?_, hframe, outputs, outputs', hout, hout', o, ho, ho'⟩
  rw [hb.txId, hb'.txId, hbytes]

/-- Two calls of one application with different transactions create different coins. -/
def CoinsApart (c c' : Call Node) : Prop :=
  ∀ frame frame' app entry entry' shard shard',
    c = .commit frame app entry shard → c' = .commit frame' app entry' shard' →
    entry.txId ≠ entry'.txId → List.Disjoint entry.outputs entry'.outputs

section
variable (hfree : CollisionFree p env network acts)
include hfree

theorem calls_coinsApart (hrepeat : NoRepeat p network acts) : (calls p env network acts).Pairwise CoinsApart := by
  rw [calls, pairwise_filterMap]
  refine hrepeat.imp_of_mem ?_
  intro x y hx hy hxy c hc c' hc' frame frame' app entry entry' shard shard' he he' htx
  subst he he'
  obtain ⟨r, rfl, hentry, -, rfl, -⟩ := call_eq_commit hc
  obtain ⟨r', rfl, hentry', -, happ, -⟩ := call_eq_commit hc'
  exact outputs_disjoint hfree hx hy happ.symm hentry hentry' htx (hxy r r' rfl rfl)

/-- All that a run queues for an application has different addresses. -/
theorem run_addressesApart (hrepeat : NoRepeat p network acts) :
    ∀ x ∈ (run (step env) empty (calls p env network acts)).2,
      ∀ y ∈ (run (step env) empty (calls p env network acts)).2, AddressesApart x y := by
  have hcompatible := (run_pairwise (step env) (mark_step env)
    (fun _ s call h => h.grows (grows_step env s call)) (compatible_step env) empty
    (calls p env network acts)).1
  have hcoins := calls_coinsApart hfree hrepeat
  rw [← run_calls (step env) empty (calls p env network acts), pairwise_map] at hcoins
  have hmem : ∀ x ∈ (run (step env) empty (calls p env network acts)).2, x.1 ∈ calls p env network acts :=
    fun _ => mem_of_mem_run _
  generalize (run (step env) empty (calls p env network acts)).2 = tr at *
  -- items of different lanes never clash; two of one lane are compared below
  have hlanes : ∀ x ∈ tr, ∀ y ∈ tr, (∀ app lane d d', QueuesItem lane app x d →
      QueuesItem lane app y d' → d.address = d'.address → d = d') → AddressesApart x y := by
    intro x hx y hy hsame app lane lane' d d' hd hd' ha
    cases lane <;> cases lane'
    · exact ⟨rfl, hsame _ _ _ _ hd hd' ha⟩
    · exact absurd ha (coin_ne_escrow hfree (hmem x hx) (hmem y hy) hd hd')
    · exact absurd ha.symm (coin_ne_escrow hfree (hmem y hy) (hmem x hx) hd' hd)
    · exact ⟨rfl, hsame _ _ _ _ hd hd' ha⟩
  refine List.Pairwise.forall_of_forall (fun x hx => hlanes x hx x hx ?_)
    ((hcompatible.and hcoins).imp_of_mem ?_)
  · -- one event: the entry's delivery of the address
    rintro app lane d d' ⟨frame, entry, shard, ⟨ps, pl, hdec⟩, hd⟩
      ⟨frame', entry', shard', ⟨ps', pl', hdec'⟩, hd'⟩ ha
    rw [Decides] at hdec hdec'
    rw [hdec] at hdec'
    simp only [Prod.mk.injEq, Call.commit.injEq] at hdec'
    obtain ⟨⟨-, -, rfl, rfl⟩, -⟩ := hdec'
    rw [(mem_laneItems.1 hd).1, (mem_laneItems.1 hd').1, ha]
  -- two events: different transactions, so different coins and different escrows
  rintro x y hx hy ⟨hcompat, hcoin⟩
  refine hlanes x hx y hy ?_
  rintro app lane d d' ⟨frame, entry, shard, hcx, hd⟩ ⟨frame', entry', shard', hcy, hd'⟩ ha
  obtain ⟨ps, pl, hdx⟩ := id hcx
  obtain ⟨ps', pl', hdy⟩ := id hcy
  obtain ⟨htx, hcreate⟩ := hcompat _ _ _ _ _ _ _ _ _ hdx hdy
  have hne : entry.txId ≠ entry'.txId := fun he => by cases htx he
  cases lane with
  | coin =>
    have hdisjoint := hcoin frame frame' app entry entry' shard shard'
      (congrArg Prod.fst hdx) (congrArg Prod.fst hdy) hne
    exact absurd (ha ▸ (mem_laneItems.1 hd').2) (hdisjoint (mem_laneItems.1 hd).2)
  | escrow =>
    obtain ⟨c, hc, hca⟩ := (mem_laneItems.1 hd).2
    obtain ⟨c', hc', hca'⟩ := (mem_laneItems.1 hd').2
    exact absurd (hca.trans (ha.trans hca'.symm)) ((hcreate hcx hcy).2.1 c c' hc hc')

/-! ### Every block drains -/

/-- An item of the run is at no accumulator record's address. -/
theorem plain_of_queuesItem {ev : Event Node} (hev : ev.1 ∈ calls p env network acts) (h : QueuesItem lane app ev d) :
    isAccumulatorRecord d.address = false := by
  obtain ⟨r, entry, hr, hentry, -, -, hd⟩ := relay_of_queuesItem hev h
  obtain ⟨hcoins, hescrow⟩ := hfree.plain r entry hr hentry
  cases lane with
  | coin => exact hcoins _ (mem_laneItems.1 hd).2
  | escrow =>
    obtain ⟨c, hc, ha⟩ := (mem_laneItems.1 hd).2
    rw [← ha]
    exact hescrow c hc

/-- The queues a run leaves to an application can be taken to the end. -/
theorem run_deliverable (hrepeat : NoRepeat p network acts) (app : Bytes32) : ∃ q, (∀ lane, Tracks lane app
      (run (step env) empty (calls p env network acts)).1 (q lane)) ∧ Deliverable q := by
  obtain ⟨hsound, hrouted⟩ := run_routed p env network acts
  have hapart := run_addressesApart hfree hrepeat
  have hmem : ∀ x ∈ (run (step env) empty (calls p env network acts)).2, x.1 ∈ calls p env network acts :=
    fun _ => mem_of_mem_run _
  generalize (run (step env) empty (calls p env network acts)).1 = s at *
  generalize (run (step env) empty (calls p env network acts)).2 = tr at *
  choose q hq using fun lane => hsound.queues lane app
  have hin : ∀ lane b, ∀ d ∈ q lane b, blockForAddress (creationWidth b) d.address = .ok b :=
    fun lane => (hrouted lane app _ (hq lane).tracks).1
  have hcommitted : ∀ lane b, ∀ d ∈ q lane b, Committed lane app tr d := fun lane b d hd =>
    ((hq lane).held d).1 ⟨b, hd⟩
  refine ⟨q, fun lane => (hq lane).tracks, fun lane b hne => ?_, hin .coin, ?_, ?_, ?_⟩
  · obtain ⟨d, hd⟩ := exists_mem_of_ne_nil _ hne
    obtain ⟨hlo, hhi, -, -⟩ := blockForAddress_spec (hin lane b d hd)
    have hpos : b ≠ 0 := by
      rintro rfl
      simp [creationWidth, INITIAL_BLOCK_BITS, Nat.log2_zero] at hlo
    simp [isAllocatedWidth, hlo, hhi, Nat.pos_of_ne_zero hpos]
  · exact (hrouted .coin app _ (hq .coin).tracks).2 rfl
  · intro lane lane' b b' i i' d d' hd hd' ha
    obtain ⟨x, hx, hdx⟩ := hcommitted lane b d (mem_iff_getElem?.2 ⟨i, hd⟩)
    obtain ⟨y, hy, hdy⟩ := hcommitted lane' b' d' (mem_iff_getElem?.2 ⟨i', hd'⟩)
    obtain ⟨rfl, rfl⟩ := hapart x hx y hy app lane lane' d d' hdx hdy ha
    have hheld : Held (q lane) d := ⟨b, mem_iff_getElem?.2 ⟨i, hd⟩⟩
    have heq : (b, i) = (b', i') := ((hq lane).once.existsUnique hheld).unique hd hd'
    exact ⟨rfl, congrArg Prod.fst heq, congrArg Prod.snd heq⟩
  · intro lane b d hd
    obtain ⟨x, hx, hdx⟩ := hcommitted lane b d hd
    exact plain_of_queuesItem hfree (hmem x hx) hdx

end

/-- Hashes and decoders for concrete runs: a mint claim is its receipt and the memo of its one output,
    and a coin's identity is its frame and memo. -/
def samplePrimitives : Primitives ℕ where
  parameterContext _ _ := 3
  txId bytes := BitVec.ofNat 256 (bytes.foldl (fun n b => 256 * n + b.toNat) 1)
  rootDigest _ _ _ := 0
  markerAddress _ _ _ := .ok 0
  keyImageSpentAddress a := .ok a
  coinIdentity _ frame o := .ok (BitVec.ofNat 256 (o.memo.foldl (fun n b => 256 * n + b.toNat) frame))
  createEscrow _ _ _ _ _ := .ok 0
  escrowBinding _ _ _ _ _ _ := 0
  receiptAddress _ := .ok 0
  paymentAddress _ := .ok 0
  claimantAddress _ _ := .ok 0
  decodeTransfer _ _ _ := none
  decodePendingCreate _ _ _ := none
  decodePendingClaim _ _ _ := none
  decodeShield _ _ _ := none
  decodeMintClaim bytes _ _ := match bytes with
    | [] => none
    | receipt :: memo => some ⟨BitVec.ofNat 256 receipt.toNat, 0, [⟨[], [], memo⟩]⟩
  decodeSettlement _ _ _ := none

def sampleEnv : Env ℕ := ⟨0, 0, fun _ _ _ => 0⟩

/-- Two mint claims executed in frames numbered 5 of two shards, with these memos. -/
def twoClaims (memo memo' : UInt8) : List (Act ℕ) :=
  [.relay ⟨0, 1, TYPE_LATTICE_MINT_CLAIM, [1, memo], 5, .fromBits [false]⟩,
    .relay ⟨0, 1, TYPE_LATTICE_MINT_CLAIM, [2, memo'], 5, .fromBits [true]⟩]

theorem twoClaims_collisionFree (memo memo' : UInt8)
    (h : isAccumulatorRecord (BitVec.ofNat 256 (256 * 5 + memo.toNat)) = false)
    (h' : isAccumulatorRecord (BitVec.ofNat 256 (256 * 5 + memo'.toNat)) = false) :
    CollisionFree samplePrimitives sampleEnv 0 (twoClaims memo memo') := by
  -- equal identities have equal memos
  have hmemo : ∀ {m m' : UInt8} {a : Bytes32},
      (.ok (BitVec.ofNat 256 (256 * 5 + m.toNat)) : Except QuilError Bytes32) = .ok a →
      (.ok (BitVec.ofNat 256 (256 * 5 + m'.toNat)) : Except QuilError Bytes32) = .ok a → m = m' := by
    intro m m' a hm hm'
    have heq := congrArg BitVec.toNat (Except.ok.inj (hm.trans hm'.symm))
    rw [BitVec.toNat_ofNat, BitVec.toNat_ofNat] at heq
    have := m.toNat_lt
    have := m'.toNat_lt
    exact UInt8.toNat_inj.1 (by omega)
  refine ⟨fun r r' outputs outputs' hr hr' _ ho ho' => ?_,
    fun r r' entry entry' c hr hr' _ he he' hc => ?_, fun r entry hr he => ?_⟩
  · simp only [twoClaims, mem_cons, Act.relay.injEq, not_mem_nil, or_false] at hr hr'
    rcases hr with rfl | rfl <;> rcases hr' with rfl | rfl <;> cases ho <;> cases ho' <;>
      (intro o ho o' ho' a ha ha'
       rw [mem_singleton] at ho ho'
       subst ho ho'
       rw [hmemo ha ha']
       exact ⟨rfl, rfl⟩)
  · simp only [twoClaims, mem_cons, Act.relay.injEq, not_mem_nil, or_false] at hr'
    rcases hr' with rfl | rfl <;> cases he' <;> cases hc
  simp only [twoClaims, mem_cons, Act.relay.injEq, not_mem_nil, or_false] at hr
  rcases hr with rfl | rfl <;> cases he <;> refine ⟨fun a ha => ?_, by rintro c ⟨⟩⟩
  · rw [mem_singleton.1 ha]; exact h
  · rw [mem_singleton.1 ha]; exact h'

/-- A store that covers the first of the narrowest blocks. -/
def sampleVenue : Venue ℕ ℕ where
  key := ShardedTree.pairingKey
  context := 0
  scope := replicate 6 false
  limits := ⟨2 ^ 32, 32⟩
  content address := ([5], address.toNat)
  depth_allowed := rfl
  coins_allowed := le_rfl

end Quil.BlockDrain
