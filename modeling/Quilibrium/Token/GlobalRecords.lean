import Quilibrium.Schemes.Store
import Quilibrium.Token.CoinBlocks

/-! The GLOBAL records of the token intrinsic (`token_intrinsic/global_commit.rs`,
    `global_accumulator.rs`). A record lives at the hash of a family tag, the application and the
    record's own key; that hash is taken to be COLLISION-FREE, so an address is modelled as the tuple
    it hashes. A record carries its kind, and reading it as another kind is an error. A record that was
    never written and one that was cleared (an empty blob) both read as absent. -/

namespace Quil.GlobalRecords
open Schemes

/-! ### What the records hold -/

/-- The two delivery lanes of a block: committed outputs and committed escrows. -/
inductive Lane where
  | coin | escrow
deriving DecidableEq, Repr

/-- The application's published root (`coin_tree::RootRecord`). -/
structure RootRecord (Node : Type) where
  context : Bytes32
  depth : ℕ
  coins : ℕ
  root : Node
deriving DecidableEq

/-- The application's retained roots: the current one and the digests, oldest first. -/
structure History (Node : Type) where
  current : RootRecord Node
  digests : List Bytes32
deriving DecidableEq

/-- What the global materializer writes for one settlement. -/
structure SettlementEntry where
  receipt : Bytes32
  parameterContext : Bytes32
  destination : Bytes32
  context : Bytes32
  settlement : ℕ
  paymentAddress : Bytes32
  payment : ℕ
  claimant : Bytes32
deriving DecidableEq, Repr

/-- The global commit's decision on one operation; either is final. -/
inductive Decision where
  | committed (frame : ℕ)
  | rejected (frame : ℕ) (reason : String)
deriving DecidableEq, Repr

/-- A committed output or escrow awaiting delivery to the shard that owns its block. -/
structure Delivery where
  address : Bytes32
  sourceFrame : ℕ
  txId : Bytes32
  sourceShard : ShardPath
deriving DecidableEq, Repr

/-- A block split deeper than its width while outputs committed to it were undelivered. -/
structure Orphan where
  since : ℕ
  moved : Bool
  coins : ℕ
  escrows : ℕ
deriving DecidableEq, Repr

/-- An escrow: what a claim must present, when a refund opens, and whether it is spent. -/
structure Escrow where
  binding : Bytes32
  refundAfter : ℕ
  consumed : Bool
deriving DecidableEq, Repr

/-- A shard's reported subtree of one width. -/
structure Subtree (Node : Type) where
  context : Bytes32
  coins : ℕ
  root : Node
deriving DecidableEq

/-- The preimage of a record's address. -/
inductive RecordAddress where
  | context (app : Bytes32)
  | consumed (app marker : Bytes32)
  | decision (app txId : Bytes32)
  | escrow (app escrow : Bytes32)
  | sequence (lane : Lane) (app : Bytes32) (block : ℕ)
  | delivery (lane : Lane) (app : Bytes32) (block seq : ℕ)
  | placementWidth (app : Bytes32)
  | orphan (app : Bytes32) (block : ℕ)
  | subtree (app : Bytes32) (width : ℕ) (shard : List Bool)
  | index (app : Bytes32)
  | rootHistory (app : Bytes32)
  | receipt (address : Bytes32)
deriving DecidableEq

/-- A record: its kind and its fields. -/
inductive Record (Node : Type) where
  | context (context : Bytes32)
  | consumed (txId : Bytes32)
  | decision (decision : Decision)
  | escrow (escrow : Escrow)
  | sequence (lane : Lane) (next : ℕ)
  | delivery (lane : Lane) (delivery : Delivery)
  | moved (lane : Lane) (address : Bytes32) (target next : ℕ)
  | placementWidth (width : ℕ)
  | orphan (orphan : Orphan)
  | subtree (subtree : Subtree Node)
  | index (context : Bytes32) (entries : List (ℕ × List Bool))
  | rootHistory (history : History Node)
  | settlement (entry : SettlementEntry)
deriving DecidableEq

/-- The GLOBAL records. -/
abbrev Records (Node : Type) := Store RecordAddress (Record Node)

/-! ### Addresses, under the source's names -/

abbrev contextAddress := RecordAddress.context
abbrev consumedAddress := RecordAddress.consumed
abbrev decisionAddress := RecordAddress.decision
abbrev escrowAddress := RecordAddress.escrow
abbrev deliveryAddress := RecordAddress.delivery .coin
abbrev escrowSequenceAddress := RecordAddress.sequence .escrow
abbrev escrowDeliveryAddress := RecordAddress.delivery .escrow
abbrev placementWidthAddress := RecordAddress.placementWidth
abbrev orphanAddress := RecordAddress.orphan
abbrev indexAddress := RecordAddress.index
abbrev rootHistoryAddress := RecordAddress.rootHistory

/-! ### Reading -/

variable {Node : Type}

/-- What `read_record` raises when the stored kind is not the expected one. -/
def wrongKind : QuilError :=
  .invalidArgument "global accumulator: record of another kind at an accumulator address"

/-- Read a record through the projection of the expected kind. -/
def read {α : Type} (s : Records Node) (address : RecordAddress) (kind : Record Node → Option α) :
    Except QuilError (Option α) :=
  match s address with
  | none => .ok none
  | some record =>
    match kind record with
    | some fields => .ok (some fields)
    | none => .error wrongKind

variable {α : Type} {s : Records Node} {address : RecordAddress} {kind : Record Node → Option α}

theorem read_eq_ok_none : read s address kind = .ok none ↔ s address = none := by
  rw [read]
  cases h : s address with
  | none => simp
  | some r => cases hk : kind r <;> simp [hk]

theorem read_eq_ok_some {a : α} : read s address kind = .ok (some a) ↔ ∃ r, s address = some r ∧ kind r = some a := by
  rw [read]
  cases h : s address with
  | none => simp
  | some r => cases hk : kind r <;> simp [hk]

/-- A successful read says whether the record is there. -/
theorem isSome_of_read_ok {a : Option α} (h : read s address kind = .ok a) : a.isSome = (s address).isSome := by
  cases a with
  | none => rw [read_eq_ok_none.1 h]; rfl
  | some a => obtain ⟨r, hr, -⟩ := read_eq_ok_some.1 h; rw [hr]; rfl

/-- Reading sees only the record at its address. -/
theorem read_congr {s' : Records Node} (kind : Record Node → Option α) (h : s address = s' address) :
    read s address kind = read s' address kind := by rw [read, read, h]

def Record.context? : Record Node → Option Bytes32
  | .context c => some c
  | _ => none

def Record.consumed? : Record Node → Option Bytes32
  | .consumed tx => some tx
  | _ => none

def Record.decision? : Record Node → Option Decision
  | .decision d => some d
  | _ => none

def Record.escrow? : Record Node → Option Escrow
  | .escrow e => some e
  | _ => none

def Record.sequence? (lane : Lane) : Record Node → Option ℕ
  | .sequence l n => if l = lane then some n else none
  | _ => none

def Record.delivery? (lane : Lane) : Record Node → Option Delivery
  | .delivery l d => if l = lane then some d else none
  | _ => none

def Record.placementWidth? : Record Node → Option ℕ
  | .placementWidth w => some w
  | _ => none

def Record.orphan? : Record Node → Option Orphan
  | .orphan o => some o
  | _ => none

def Record.rootHistory? : Record Node → Option (History Node)
  | .rootHistory h => some h
  | _ => none

variable {r : Record Node}

@[simp] theorem Record.context?_eq_some {c : Bytes32} :
    r.context? = some c ↔ r = .context c := by cases r <;> simp [Record.context?]

@[simp] theorem Record.escrow?_eq_some {e : Escrow} :
    r.escrow? = some e ↔ r = .escrow e := by cases r <;> simp [Record.escrow?]

@[simp] theorem Record.sequence?_eq_some {lane : Lane} {n : ℕ} :
    r.sequence? lane = some n ↔ r = .sequence lane n := by
  cases r <;> simp [Record.sequence?]

@[simp] theorem Record.delivery?_eq_some {lane : Lane} {d : Delivery} :
    r.delivery? lane = some d ↔ r = .delivery lane d := by
  cases r <;> simp [Record.delivery?]

@[simp] theorem Record.orphan?_eq_some {o : Orphan} :
    r.orphan? = some o ↔ r = .orphan o := by cases r <;> simp [Record.orphan?]

/-- Whether the global commit has decided operation `tx_id` of `application`. -/
def isDecided (s : Records Node) (app txId : Bytes32) : Except QuilError Bool :=
  return (← read s (decisionAddress app txId) Record.decision?).isSome

/-- Whether `marker` is consumed in `application`. -/
def isConsumed (s : Records Node) (app marker : Bytes32) : Except QuilError Bool :=
  return (← read s (consumedAddress app marker) Record.consumed?).isSome

/-- An escrow's record. -/
def escrow (s : Records Node) (app address : Bytes32) :
    Except QuilError (Option Escrow) :=
  read s (escrowAddress app address) Record.escrow?

/-- The next sequence of a lane of `block`; a block never written to starts at zero. -/
def laneSequence (lane : Lane) (s : Records Node) (app : Bytes32) (block : ℕ) :
    Except QuilError ℕ :=
  return (← read s (.sequence lane app block) (Record.sequence? lane)).getD 0

/-- How many outputs have been committed to `block`. -/
def blockSequence (s : Records Node) := laneSequence .coin s

/-- How many escrows have been committed into `block`. -/
def escrowSequence (s : Records Node) := laneSequence .escrow s

/-- A committed item of a lane; a moved item's old record no longer names a delivery. -/
def laneDelivery (lane : Lane) (s : Records Node) (app : Bytes32) (block seq : ℕ) :
    Except QuilError (Option Delivery) :=
  match s (.delivery lane app block seq) with
  | some (.moved l _ _ _) => if l = lane then .ok none else .error wrongKind
  | _ => read s (.delivery lane app block seq) (Record.delivery? lane)

/-- The block's orphan record. -/
def orphan (s : Records Node) (app : Bytes32) (block : ℕ) :
    Except QuilError (Option Orphan) :=
  read s (orphanAddress app block) Record.orphan?

/-- The block width new coins and escrows of `application` are placed at. -/
def placementWidth (s : Records Node) (app : Bytes32) : Except QuilError ℕ := do
  let width := (← read s (placementWidthAddress app) Record.placementWidth?).getD
    CoinBlocks.INITIAL_BLOCK_BITS
  if width < CoinBlocks.INITIAL_BLOCK_BITS ∨ CoinBlocks.MAX_BLOCK_BITS < width then
    .error (.store "placement width record outside the accumulator's range")
  else .ok width

/-- The application's root history. -/
def readRootHistory (s : Records Node) (app : Bytes32) :
    Except QuilError (Option (History Node)) :=
  read s (rootHistoryAddress app) Record.rootHistory?

variable {app : Bytes32}

theorem escrow_ok_some {address : Bytes32} {e : Escrow} : escrow s app address = .ok (some e) ↔
      s (.escrow app address) = some (.escrow e) := by
  simp [escrow, read_eq_ok_some]

theorem escrow_ok_none {address : Bytes32} : escrow s app address = .ok none ↔ s (.escrow app address) = none :=
  read_eq_ok_none

theorem orphan_ok_some {block : ℕ} {o : Orphan} : orphan s app block = .ok (some o) ↔
      s (.orphan app block) = some (.orphan o) := by
  simp [orphan, read_eq_ok_some]

end Quil.GlobalRecords
