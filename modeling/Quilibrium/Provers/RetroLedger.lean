import Quilibrium.Types

/-! What a legacy node key is worth, and what crediting and moving keys does to a prover's seniority
    (`seniority_compat.rs` and the amounts of `seniority_succession.rs`). A key's RETRO seniority has five parts: its
    record in four retro epochs, and its mainnet snapshot. A set of keys is worth, part by part, its best key, and the
    parts are combined by `max (sum of the four) mainnet`. That aggregate is not additive; it is MONOTONE and
    SUBADDITIVE in the part-wise maximum, and these two facts are all that the accounting needs: a credit is a
    difference of aggregates, so it never exceeds what the credited keys are worth one by one. -/

namespace Quil.RetroLedger
open List

/-! ### The compatibility tables -/

/-- The months a key was present in, for the second retro epoch. -/
structure Presence where
  jan : Bool
  feb : Bool
  mar : Bool
  apr : Bool
  may : Bool

/-- The legacy records, by peer id: the rewards of the first retro epoch, the presence of the second,
    the lists of the third and fourth, and the mainnet snapshot. -/
structure RetroTables where
  first : List (String × ℤ)
  second : List (String × Presence)
  third : List String
  fourth : List String
  mainnet : String → ℕ

/-- Retro seniority by part: the four retro epochs, then the mainnet snapshot. -/
abbrev RetroParts := Fin 5 → ℕ

/-- Seniority units in a day. -/
def PER_DAY : ℕ := 10 * 6 * 60 * 24

def firstScore (reward : ℤ) : ℕ :=
  if reward ≤ 0 then 0
  else
    let divisor := (157208 / reward).toNat
    if 0 < divisor then PER_DAY * 92 / divisor else 0

def secondScore (p : Presence) : ℕ :=
  (if p.jan then PER_DAY * 31 else 0) + (if p.feb then PER_DAY * 29 else 0) +
    (if p.mar then PER_DAY * 31 else 0) + (if p.apr then PER_DAY * 30 else 0) +
    (if p.may then PER_DAY * 31 else 0)

/-- The best score among the entries of the given peers. -/
def highestScore {α : Type} (peer : α → String) (score : α → ℕ) (entries : List α)
    (peerIds : List String) : ℕ :=
  ((entries.filter fun e => peer e ∈ peerIds).map score).foldr max 0

/-- The parts of a set of peers: in each of the four epochs and in the snapshot, its best peer. -/
def retroComponents (t : RetroTables) (peerIds : List String) : RetroParts :=
  ![highestScore Prod.fst (fun e => firstScore e.2) t.first peerIds,
    highestScore Prod.fst (fun e => secondScore e.2) t.second peerIds,
    highestScore id (fun _ => PER_DAY * 30) t.third peerIds,
    highestScore id (fun _ => PER_DAY * 31) t.fourth peerIds,
    (peerIds.map t.mainnet).foldr max 0]

/-- `max (sum of the four retro epochs) mainnet`. -/
def aggregateRetroComponents (parts : RetroParts) : ℕ :=
  max (saturatingAdd (saturatingAdd (saturatingAdd (parts 0) (parts 1)) (parts 2)) (parts 3)) (parts 4)

/-- The seniority parts are worth. -/
def retroValue (parts : RetroParts) : ℕ := aggregateRetroComponents parts

/-- How keys are valued: the tables, and a 57-byte Ed448 key's peer id. -/
structure Valuation where
  tables : RetroTables
  peerId : List UInt8 → String

/-- The retro parts of keys; keys that are not Ed448 keys are worth nothing. -/
def retroParts (v : Valuation) (publicKeys : List (List UInt8)) : RetroParts :=
  let peerIds := (publicKeys.filter fun key => key.length = 57).map v.peerId
  if peerIds.isEmpty then fun _ => 0 else retroComponents v.tables peerIds

/-- What one key is worth on its own. -/
def worth (v : Valuation) (key : List UInt8) : ℕ := retroValue (retroParts v [key])

/-! ### Sets of keys: part-wise maxima -/

theorem foldr_max_le_iff (l : List ℕ) (n : ℕ) : l.foldr max 0 ≤ n ↔ ∀ x ∈ l, x ≤ n := by
  induction l with
  | nil => simp
  | cons a l ih => simp [ih]

theorem highestScore_le_iff {α : Type} (peer : α → String) (score : α → ℕ) (entries : List α)
    (peerIds : List String) (n : ℕ) : highestScore peer score entries peerIds ≤ n ↔
      ∀ e ∈ entries, peer e ∈ peerIds → score e ≤ n := by
  rw [highestScore, foldr_max_le_iff]
  simp only [mem_map, mem_filter, decide_eq_true_eq, forall_exists_index, and_imp]
  exact ⟨fun h e he hp => h _ e he hp rfl, fun h x e he hp hx => hx ▸ h e he hp⟩

/-- A bound of every member's parts bounds the set's parts. -/
theorem retroComponents_le (t : RetroTables) {peerIds : List String} {bound : RetroParts}
    (h : ∀ p ∈ peerIds, retroComponents t [p] ≤ bound) : retroComponents t peerIds ≤ bound := by
  have hone : ∀ {α : Type} (peer : α → String) (score : α → ℕ) (entries : List α) (i : Fin 5),
      (∀ p ∈ peerIds, highestScore peer score entries [p] ≤ bound i) →
        highestScore peer score entries peerIds ≤ bound i := by
    intro α peer score entries i hi
    rw [highestScore_le_iff]
    intro e he hp
    exact (highestScore_le_iff peer score entries [peer e] _).1 (hi _ hp) e he (by simp)
  intro i
  fin_cases i
  · exact hone _ _ _ 0 fun p hp => h p hp 0
  · exact hone _ _ _ 1 fun p hp => h p hp 1
  · exact hone _ _ _ 2 fun p hp => h p hp 2
  · exact hone _ _ _ 3 fun p hp => h p hp 3
  refine (foldr_max_le_iff _ _).2 fun x hx => ?_
  obtain ⟨p, hp, rfl⟩ := mem_map.1 hx
  exact (le_max_left _ _).trans (h p hp 4)

theorem retroParts_singleton (v : Valuation) {k : List UInt8} (h : k.length = 57) :
    retroParts v [k] = retroComponents v.tables [v.peerId k] := by
  simp [retroParts, h]

/-- A bound of every key's parts bounds the parts of the set of keys. -/
theorem retroParts_le (v : Valuation) {keys : List (List UInt8)} {bound : RetroParts}
    (h : ∀ k ∈ keys, retroParts v [k] ≤ bound) : retroParts v keys ≤ bound := by
  rw [retroParts]
  split_ifs with hempty
  · exact fun i => zero_le
  refine retroComponents_le v.tables fun p hp => ?_
  obtain ⟨k, hk, rfl⟩ := mem_map.1 hp
  obtain ⟨hk, hlen⟩ := mem_filter.1 hk
  exact retroParts_singleton v (of_decide_eq_true hlen) ▸ h k hk

theorem retroComponents_mono (t : RetroTables) {p q : List String} (h : p ⊆ q) :
    retroComponents t p ≤ retroComponents t q := by
  have hone : ∀ {α : Type} (peer : α → String) (score : α → ℕ) (entries : List α),
      highestScore peer score entries p ≤ highestScore peer score entries q := fun peer score entries =>
    (highestScore_le_iff ..).2 fun e he hp => (highestScore_le_iff ..).1 le_rfl e he (h hp)
  intro i
  fin_cases i
  · exact hone _ _ _
  · exact hone _ _ _
  · exact hone _ _ _
  · exact hone _ _ _
  · refine (foldr_max_le_iff _ _).2 fun x hx => (foldr_max_le_iff _ _).1 le_rfl x ?_
    exact map_subset _ h hx

/-- A key's parts are below those of a set it belongs to. -/
theorem retroParts_mem_le (v : Valuation) {k : List UInt8} {keys : List (List UInt8)} (hk : k ∈ keys) :
    retroParts v [k] ≤ retroParts v keys := by
  rcases eq_or_ne k.length 57 with hlen | hlen
  · have hmem : v.peerId k ∈ (keys.filter fun key => key.length = 57).map v.peerId :=
      mem_map.2 ⟨k, mem_filter.2 ⟨hk, by simpa using hlen⟩, rfl⟩
    rw [retroParts_singleton v hlen, retroParts,
      if_neg fun hempty => by rw [List.isEmpty_iff.1 hempty] at hmem; cases hmem]
    exact retroComponents_mono v.tables (by simpa using hmem)
  · rw [retroParts, filter_cons_of_neg (by simpa using hlen)]
    exact fun i => zero_le

/-! ### The aggregate -/

theorem retroValue_mono {a b : RetroParts} (h : a ≤ b) : retroValue a ≤ retroValue b :=
  max_le_max (saturatingAdd_mono (saturatingAdd_mono (saturatingAdd_mono (h 0) (h 1)) (h 2)) (h 3)) (h 4)

/-- Taken together, two sets of parts are worth at most what they are worth apart. -/
theorem retroValue_sup_le (a b : RetroParts) : retroValue (a ⊔ b) ≤ retroValue a + retroValue b := by
  have hpart : ∀ i, (a ⊔ b) i ≤ a i + b i := fun i => max_le (Nat.le_add_right _ _) (Nat.le_add_left _ _)
  refine max_le ?_ ?_
  · refine (saturatingAdd_subadd (saturatingAdd_subadd (saturatingAdd_subadd (hpart 0) (hpart 1))
      (hpart 2)) (hpart 3)).trans ?_
    exact add_le_add (le_max_left _ _) (le_max_left _ _)
  · exact (hpart 4).trans (add_le_add (le_max_right _ _) (le_max_right _ _))

/-- A set of keys is worth at most what its keys are worth one by one. -/
theorem retroValue_retroParts_le (v : Valuation) (keys : List (List UInt8)) :
    retroValue (retroParts v keys) ≤ ∑ k ∈ keys.toFinset, worth v k := by
  suffices h : ∀ (S : Finset (List UInt8)) (ks : List (List UInt8)), (∀ k ∈ ks, k ∈ S) →
      retroValue (retroParts v ks) ≤ ∑ k ∈ S, worth v k from h _ _ fun k hk => mem_toFinset.2 hk
  intro S
  induction S using Finset.induction_on with
  | empty =>
    intro ks hks
    obtain rfl : ks = [] := eq_nil_iff_forall_not_mem.2 fun k hk => by simpa using hks k hk
    exact zero_le
  | insert a S ha ih =>
    intro ks hks
    -- the parts of the set are below those of `a` and of the rest together
    have hle : retroParts v ks ≤ retroParts v [a] ⊔ retroParts v (ks.filter (· ≠ a)) := by
      refine retroParts_le v fun k hk => ?_
      rcases eq_or_ne k a with rfl | hne
      · exact le_sup_left
      · exact (retroParts_mem_le v (mem_filter.2 ⟨hk, by simpa using hne⟩)).trans le_sup_right
    rw [Finset.sum_insert ha]
    calc retroValue (retroParts v ks)
        ≤ retroValue (retroParts v [a] ⊔ retroParts v (ks.filter (· ≠ a))) := retroValue_mono hle
      _ ≤ worth v a + retroValue (retroParts v (ks.filter (· ≠ a))) := retroValue_sup_le _ _
      _ ≤ worth v a + ∑ k ∈ S, worth v k := by
          refine Nat.add_le_add_left (ih _ fun k hk => ?_) _
          obtain ⟨hk, hne⟩ := mem_filter.1 hk
          exact (Finset.mem_insert.1 (hks k hk)).resolve_left (by simpa using hne)

/-! ### A prover's ledger -/

/-- A prover's seniority and retro ledger: the retro it holds, the retro that successions moved out of
    it, and the seniority that penalties took from it. -/
structure ProverRetro where
  seniority : ℕ
  held : Option RetroParts
  moved : Option RetroParts
  penalty : ℕ

namespace ProverRetro

/-- Any ledger recorded. -/
def recorded (r : ProverRetro) : Bool := r.held.isSome || r.moved.isSome

end ProverRetro

/-- What a prover holds before new keys are credited: its ledger, and its named own keys less what was
    moved out of it. -/
def heldBase (v : Valuation) (held moved : Option RetroParts) (own : List (List UInt8)) : RetroParts :=
  fun p => max (held.getD (fun _ => 0) p) (retroParts v own p - moved.getD (fun _ => 0) p)

/-- What crediting `added` keys adds, and the parts to record: only the parts they raise count. -/
def creditRetro (v : Valuation) (credited moved : Option RetroParts) (added own : List (List UInt8)) :
    ℕ × RetroParts :=
  let base := heldBase v credited moved own
  let after := base ⊔ retroParts v added
  (retroValue after - retroValue base, after)

/-- Seniority an active prover earns in a frame. -/
def SENIORITY_PER_ACTIVE_FRAME : ℕ := 10

/-- What a succession moves. -/
structure SuccessionAmounts where
  debit : ℕ
  accrual : ℕ
  credit : ℕ
  predecessor : ProverRetro
  successor : ProverRetro

/-- The amounts of a succession at `frame` of the keys `moved`, from a predecessor last active at
    `endFrame` to a successor first active at `successorStart`, whose keys `own` are named too. -/
def successionAmounts (v : Valuation) (predecessor successor : ProverRetro) (successorStart : Option ℕ)
    (moved own : List (List UInt8)) (frame endFrame : ℕ) : SuccessionAmounts :=
  let keys := retroParts v moved
  let held := predecessor.held.getD fun _ => 0
  let out := predecessor.moved.getD fun _ => 0
  let available : RetroParts := fun p => max (held p) (keys p - out p)
  let taken : RetroParts := fun p => min (keys p) (available p)
  let left : RetroParts := fun p => available p - taken p
  let retroDebit := retroValue available - retroValue left
  let accrualShare :=
    if predecessor.recorded then
      let total := retroValue available
      if total = 0 then 0 else (predecessor.seniority - total) * retroDebit / total % 2 ^ 64
    -- no ledger: the retro total is unknown, and the first mover takes the whole accrual
    else predecessor.seniority - retroDebit
  let debit := min predecessor.seniority (saturatingAdd retroDebit accrualShare)
  let accrual := debit - min retroDebit debit
  let successorOut := successor.moved.getD fun _ => 0
  let base := heldBase v successor.held successor.moved own
  let after := base ⊔ taken
  let retroCredit := retroValue after - retroValue base
  let successorAccrual := saturatingAdd successor.seniority successor.penalty - retroValue base
  -- the successor's own time while the predecessor was still active counts once
  let overlap :=
    match successorStart with
    | some start =>
      if endFrame ≤ start then 0
      else successorAccrual - saturatingMul SENIORITY_PER_ACTIVE_FRAME (frame - endFrame)
    | none => successorAccrual - saturatingMul SENIORITY_PER_ACTIVE_FRAME (frame - endFrame)
  let credit := min debit (saturatingAdd retroCredit (accrual - overlap))
  let increase : RetroParts := fun p => after p - base p
  -- a credit capped below the retro it raises holds that retro in proportion
  let raised : RetroParts :=
    if credit < retroCredit then fun p => increase p * credit / retroCredit % 2 ^ 64 else increase
  let successorOut' : RetroParts := fun p =>
    saturatingAdd (successorOut p - min (successorOut p) (raised p)) (increase p - raised p)
  { debit, accrual, credit
    predecessor := {
      seniority := predecessor.seniority - debit
      held := some left
      moved := some fun p => saturatingAdd (out p) (taken p)
      penalty := predecessor.penalty }
    successor := {
      seniority := saturatingAdd successor.seniority credit
      held := some fun p => base p + raised p
      moved := if successor.moved.isSome ∨ successorOut' ≠ fun _ => 0 then some successorOut' else none
      penalty := successor.penalty } }

/-- Crediting keys adds at most what they are worth one by one. -/
theorem creditRetro_le (v : Valuation) (credited moved : Option RetroParts) (added own : List (List UInt8)) :
    (creditRetro v credited moved added own).1 ≤ ∑ k ∈ added.toFinset, worth v k := by
  rw [creditRetro, Nat.sub_le_iff_le_add']
  exact (retroValue_sup_le _ _).trans (Nat.add_le_add_left (retroValue_retroParts_le v added) _)

section Amounts

variable (v : Valuation) (X Y : ProverRetro) (start : Option ℕ) (moved own : List (List UInt8))
  (frame endFrame : ℕ)

/-- A succession never takes more than the predecessor holds, … -/
theorem debit_le_seniority :
    (successionAmounts v X Y start moved own frame endFrame).debit ≤ X.seniority := min_le_left _ _

/-- … and never gives more than it takes. -/
theorem credit_le_debit : (successionAmounts v X Y start moved own frame endFrame).credit ≤
      (successionAmounts v X Y start moved own frame endFrame).debit := min_le_left _ _

theorem predecessor_seniority : (successionAmounts v X Y start moved own frame endFrame).predecessor.seniority =
      X.seniority - (successionAmounts v X Y start moved own frame endFrame).debit := rfl

theorem successor_seniority : (successionAmounts v X Y start moved own frame endFrame).successor.seniority =
      saturatingAdd Y.seniority (successionAmounts v X Y start moved own frame endFrame).credit := rfl

/-- The two balances together do not grow. -/
theorem amounts_conserve : (successionAmounts v X Y start moved own frame endFrame).successor.seniority +
        (successionAmounts v X Y start moved own frame endFrame).predecessor.seniority ≤
      Y.seniority + X.seniority := by
  have hdebit := debit_le_seniority v X Y start moved own frame endFrame
  have hcredit := credit_le_debit v X Y start moved own frame endFrame
  have hsat := saturatingAdd_le Y.seniority (successionAmounts v X Y start moved own frame endFrame).credit
  rw [successor_seniority, predecessor_seniority]
  omega

end Amounts

end Quil.RetroLedger
