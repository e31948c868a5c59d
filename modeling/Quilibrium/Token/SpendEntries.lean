import Quilibrium.Token.GlobalCommit

/-! The spend entry an executing shard relays for each confidential operation (`token_intrinsic/spend_entries.rs`). An
    entry is built from the operation's bytes alone; the hashes and decoders of the lattice library are PARAMETERS
    here (`Primitives`). What matters downstream: an output's address is `coin_identity` of the application's context,
    the EXECUTING frame's number and the output itself — neither the operation nor the shard takes part. -/

namespace Quil.SpendEntries
open Schemes GlobalRecords GlobalCommit

/-! ### Operations -/

abbrev Bytes := List UInt8

/-- A coin an operation creates. -/
structure Output where
  commitment : Bytes
  owner : Bytes
  memo : Bytes
deriving DecidableEq, Repr

variable {Node : Type}

/-- The spend of existing coins. -/
structure TransferStatement (Node : Type) where
  network : Bytes32
  application : Bytes32
  depth : ℕ
  root : Node
  images : List Bytes
  outputs : List Output
  fee : ℕ

structure EscrowPolicy where
  recipient : Bytes
  refund : Bytes
  refundAfterGlobalFrame : ℕ

structure EscrowRecoveryMemo where
  owner : Bytes
  ciphertext : Bytes

structure PendingCreateStatement (Node : Type) where
  funding : TransferStatement Node
  policy : EscrowPolicy
  refundRecovery : EscrowRecoveryMemo

inductive ClaimBranch where
  | recipient
  | refund
deriving DecidableEq

structure PendingClaimStatement where
  escrowAddress : Bytes32
  source : Bytes
  policy : EscrowPolicy
  branch : ClaimBranch
  fee : ℕ
  outputs : List Output

/-- A single or a batch shield: its legacy sources, outputs and fee. -/
structure AnyShield where
  sources : List Bytes32
  outputs : List Output
  fee : ℕ

structure MintClaim where
  receipt : Bytes32
  fee : ℕ
  outputs : List Output

structure SettlementStatement (Node : Type) where
  funding : TransferStatement Node
  fee : ℕ
  settlement : ℕ
  destination : Bytes32
  context : Bytes32
  /-- Key type and public key. -/
  claimant : Option (ℕ × Bytes)
  /-- Encoded payee and value. -/
  payment : Option (Bytes × ℕ)

/-- Hashes and decoders. -/
structure Primitives (Node : Type) where
  parameterContext : Bytes32 → Bytes32 → Bytes32
  txId : Bytes → Bytes32
  rootDigest : Bytes32 → ℕ → Node → Bytes32
  markerAddress : Bytes32 → Bytes32 → Bytes → Except QuilError Bytes32
  keyImageSpentAddress : Bytes32 → Except QuilError Bytes32
  coinIdentity : Bytes32 → ℕ → Output → Except QuilError Bytes32
  createEscrow : Bytes32 → ℕ → Output → EscrowPolicy → EscrowRecoveryMemo → Except QuilError Bytes32
  escrowBinding : Bytes32 → Bytes32 → Bytes → Bytes → Bytes → ℕ → Bytes32
  receiptAddress : SettlementStatement Node → Except QuilError Bytes32
  paymentAddress : Bytes → Except QuilError Bytes32
  claimantAddress : ℕ → Bytes → Except QuilError Bytes32
  decodeTransfer : Bytes → Bytes32 → Bytes32 → Option (TransferStatement Node)
  decodePendingCreate : Bytes → Bytes32 → Bytes32 → Option (PendingCreateStatement Node)
  decodePendingClaim : Bytes → Bytes32 → Bytes32 → Option PendingClaimStatement
  decodeShield : Bytes → Bytes32 → Bytes32 → Option AnyShield
  decodeMintClaim : Bytes → Bytes32 → Bytes32 → Option MintClaim
  decodeSettlement : Bytes → Bytes32 → Bytes32 → Option (SettlementStatement Node)

def TYPE_LATTICE_TRANSACTION : ℕ := 0x0512
def TYPE_LATTICE_PENDING : ℕ := 0x0514
def TYPE_LATTICE_PENDING_CLAIM : ℕ := 0x0515
def TYPE_LATTICE_MINT_CLAIM : ℕ := 0x0517
def TYPE_LATTICE_SETTLEMENT : ℕ := 0x0518
def MAX_PRIVATE_COINS : ℕ := 128

/-! ### Building an entry -/

variable (p : Primitives Node)

def decoded {α : Type} : Option α → Except QuilError α
  | some a => .ok a
  | none => .error (invalid "invalid operation encoding or context")

def outputAddresses (context : Bytes32) (frame : ℕ) (outputs : List Output) :
    Except QuilError (List Bytes32) :=
  outputs.mapM (p.coinIdentity context frame)

def base (tp : ℕ) (bytes : Bytes) (frame : ℕ) (context : Bytes32) : SpendEntry where
  kind := tp
  txId := p.txId bytes
  sourceFrame := frame
  context := context
  rootDigest := none
  consumptions := []
  outputs := []
  escrowCreate := none
  escrowClaim := none
  fee := 0
  settlement := none

/-- The part every spend of existing coins shares: its root and its images. -/
def funding (entry : SpendEntry) (s : TransferStatement Node) (outputs : List Output) :
    Except QuilError SpendEntry := do
  if s.images.isEmpty ∨ s.images.length > MAX_PRIVATE_COINS ∨ ¬ s.images.Nodup then
    .error (invalid "invalid image set")
  else
    let consumptions ← s.images.mapM (p.markerAddress s.network s.application)
    let addresses ← outputAddresses p entry.context entry.sourceFrame outputs
    return { entry with
      rootDigest := some (p.rootDigest entry.context s.depth s.root)
      consumptions := consumptions
      outputs := addresses }

/-- The escrowed output and the change of a pending create. -/
def splitOutputs (s : PendingCreateStatement Node) : Except QuilError (Output × List Output) :=
  match s.funding.outputs with
  | [] => .error (invalid "missing escrow output")
  | escrowed :: change => .ok (escrowed, change)

/-- The relay entry of a settlement (`settlement_record::entry`). -/
def settlementEntry (s : SettlementStatement Node) : Except QuilError SettlementEntry := do
  let receipt ← p.receiptAddress s
  let paymentAddress ← match s.payment with
    | some payment => p.paymentAddress payment.1
    | none => .ok 0
  let claimant ← match s.claimant with
    | some claimant => p.claimantAddress claimant.1 claimant.2
    | none => .ok 0
  return ⟨receipt, p.parameterContext s.funding.network s.funding.application, s.destination,
    s.context, s.settlement, paymentAddress, (s.payment.map Prod.snd).getD 0, claimant⟩

def transferEntry (entry : SpendEntry) (s : TransferStatement Node) : Except QuilError SpendEntry := do
  let entry ← funding p entry s s.outputs
  return { entry with fee := s.fee }

def pendingEntry (entry : SpendEntry) (s : PendingCreateStatement Node) :
    Except QuilError SpendEntry := do
  let (escrowed, change) ← splitOutputs s
  let entry ← funding p entry s.funding change
  let address ← p.createEscrow entry.context entry.sourceFrame escrowed s.policy s.refundRecovery
  return { entry with
    escrowCreate := some ⟨address, p.escrowBinding entry.context address escrowed.commitment
      s.policy.recipient s.policy.refund s.policy.refundAfterGlobalFrame,
      s.policy.refundAfterGlobalFrame⟩
    fee := s.funding.fee }

def pendingClaimEntry (entry : SpendEntry) (s : PendingClaimStatement) :
    Except QuilError SpendEntry := do
  let addresses ← outputAddresses p entry.context entry.sourceFrame s.outputs
  return { entry with
    outputs := addresses
    escrowClaim := some ⟨s.escrowAddress, p.escrowBinding entry.context s.escrowAddress s.source
      s.policy.recipient s.policy.refund s.policy.refundAfterGlobalFrame, s.branch == .refund⟩
    fee := s.fee }

/-- One consumption marker per legacy source: a batch commits all of them or none. -/
def shieldEntry (entry : SpendEntry) (tx : AnyShield) : Except QuilError SpendEntry := do
  let consumptions ← tx.sources.mapM p.keyImageSpentAddress
  let addresses ← outputAddresses p entry.context entry.sourceFrame tx.outputs
  return { entry with consumptions := consumptions, outputs := addresses, fee := tx.fee }

def mintClaimEntry (entry : SpendEntry) (claim : MintClaim) : Except QuilError SpendEntry := do
  let addresses ← outputAddresses p entry.context entry.sourceFrame claim.outputs
  return { entry with consumptions := [claim.receipt], outputs := addresses, fee := claim.fee }

def settlementSpend (entry : SpendEntry) (s : SettlementStatement Node) :
    Except QuilError SpendEntry := do
  let entry ← funding p entry s.funding s.funding.outputs
  let settlement ← settlementEntry p s
  return { entry with fee := s.fee, settlement := some settlement }

/-- The entry of an operation, by its type, before the relay's own bounds. -/
def operationEntry (network app : Bytes32) (tp : ℕ) (bytes : Bytes) (entry : SpendEntry) :
    Except QuilError SpendEntry := do
  if tp = TYPE_LATTICE_TRANSACTION then
    transferEntry p entry (← decoded (p.decodeTransfer bytes network app))
  else if tp = TYPE_LATTICE_PENDING then
    pendingEntry p entry (← decoded (p.decodePendingCreate bytes network app))
  else if tp = TYPE_LATTICE_PENDING_CLAIM then
    pendingClaimEntry p entry (← decoded (p.decodePendingClaim bytes network app))
  else if tp = TYPE_LATTICE_SHIELD then
    shieldEntry p entry (← decoded (p.decodeShield bytes network app))
  else if tp = TYPE_LATTICE_MINT_CLAIM then
    mintClaimEntry p entry (← decoded (p.decodeMintClaim bytes network app))
  else if tp = TYPE_LATTICE_SETTLEMENT then
    settlementSpend p entry (← decoded (p.decodeSettlement bytes network app))
  else .error (invalid "operation is not relayed through the global commit")

/-- The spend entry of one verified confidential operation, executed at `frame` of a shard of `application`. -/
def spendEntry (env : Env Node) (network app : Bytes32) (tp : ℕ) (bytes : Bytes)
    (frame : ℕ) : Except QuilError SpendEntry := do
  let entry ← operationEntry p network app tp bytes
    (base p tp bytes frame (p.parameterContext network app))
  entry.validateAt env (2 ^ 64 - 1)
  return entry

/-- The outputs a relayed operation creates, in the order its spend entry lists their addresses. -/
def operationOutputs (network app : Bytes32) (tp : ℕ) (bytes : Bytes) :
    Except QuilError (List Output) := do
  if tp = TYPE_LATTICE_TRANSACTION then
    return (← decoded (p.decodeTransfer bytes network app)).outputs
  else if tp = TYPE_LATTICE_PENDING then
    return (← splitOutputs (← decoded (p.decodePendingCreate bytes network app))).2
  else if tp = TYPE_LATTICE_PENDING_CLAIM then
    return (← decoded (p.decodePendingClaim bytes network app)).outputs
  else if tp = TYPE_LATTICE_SHIELD then
    return (← decoded (p.decodeShield bytes network app)).outputs
  else if tp = TYPE_LATTICE_MINT_CLAIM then
    return (← decoded (p.decodeMintClaim bytes network app)).outputs
  else if tp = TYPE_LATTICE_SETTLEMENT then
    return (← decoded (p.decodeSettlement bytes network app)).funding.outputs
  else .error (invalid "operation is not relayed through the global commit")

/-! ### What an entry says of its operation -/

variable {p} {frame : ℕ}

theorem mem_outputAddresses {context : Bytes32} {outputs : List Output} :
    ∀ {addresses : List Bytes32}, outputAddresses p context frame outputs = .ok addresses →
      ∀ a ∈ addresses, ∃ o ∈ outputs, p.coinIdentity context frame o = .ok a := by
  induction outputs with
  | nil =>
    intro addresses h a ha
    cases h
    cases ha
  | cons o rest ih =>
    intro addresses h a ha
    rw [outputAddresses, List.mapM_cons] at h
    obtain ⟨b, hb, h⟩ := bind_ok h
    obtain ⟨bs, hbs, h⟩ := bind_ok h
    cases h
    rcases List.mem_cons.1 ha with rfl | ha
    · exact ⟨o, List.mem_cons_self, hb⟩
    · obtain ⟨o', ho', hid⟩ := ih hbs a ha
      exact ⟨o', List.mem_cons_of_mem _ ho', hid⟩

/-- What a relayed entry keeps of the operation it was built from. -/
structure Built (p : Primitives Node) (network app : Bytes32) (tp : ℕ) (bytes : Bytes)
    (frame : ℕ) (entry : SpendEntry) : Prop where
  txId : entry.txId = p.txId bytes
  sourceFrame : entry.sourceFrame = frame
  outputs : ∃ outputs, operationOutputs p network app tp bytes = .ok outputs ∧
    outputAddresses p (p.parameterContext network app) frame outputs = .ok entry.outputs
  escrow : ∀ c, entry.escrowCreate = some c → ∃ output policy recovery,
    p.createEscrow (p.parameterContext network app) frame output policy recovery =
      .ok c.address

variable {entry : SpendEntry}

/-- Funding sets the root, the markers and the outputs, and nothing else. -/
theorem funding_ok {entry' : SpendEntry} {s : TransferStatement Node} {outputs : List Output}
    (h : funding p entry s outputs = .ok entry') : ∃ digest markers addresses,
      outputAddresses p entry.context entry.sourceFrame outputs = .ok addresses ∧
      entry' = { entry with rootDigest := digest, consumptions := markers, outputs := addresses } := by
  rw [funding] at h
  split_ifs at h
  obtain ⟨markers, -, h⟩ := bind_ok h
  obtain ⟨addresses, ha, h⟩ := bind_ok h
  cases h
  exact ⟨_, markers, addresses, ha, rfl⟩

theorem operationEntry_built {network app : Bytes32} {tp : ℕ} {bytes : Bytes}
    (h : operationEntry p network app tp bytes (base p tp bytes frame (p.parameterContext network app)) = .ok entry) :
    Built p network app tp bytes frame entry := by
  rw [operationEntry] at h
  split_ifs at h with h1 h2 h3 h4 h5 h6
  all_goals obtain ⟨s, hs, h⟩ := bind_ok h
  · obtain ⟨e, he, h⟩ := bind_ok h
    obtain ⟨digest, markers, addresses, ha, rfl⟩ := funding_ok he
    cases h
    exact ⟨rfl, rfl, ⟨s.outputs, by rw [operationOutputs, if_pos h1, hs]; rfl, ha⟩, by simp [base]⟩
  · obtain ⟨⟨escrowed, change⟩, hsplit, h⟩ := bind_ok h
    obtain ⟨e, he, h⟩ := bind_ok h
    obtain ⟨digest, markers, addresses, ha, rfl⟩ := funding_ok he
    obtain ⟨address, haddress, h⟩ := bind_ok h
    cases h
    refine ⟨rfl, rfl, ⟨change, ?_, ha⟩, ?_⟩
    · rw [operationOutputs, if_neg h1, if_pos h2, hs, ok_bind, hsplit]; rfl
    · rintro c ⟨⟩
      exact ⟨escrowed, s.policy, s.refundRecovery, haddress⟩
  · obtain ⟨addresses, ha, h⟩ := bind_ok h
    cases h
    refine ⟨rfl, rfl, ⟨s.outputs, ?_, ha⟩, by simp [base]⟩
    rw [operationOutputs, if_neg h1, if_neg h2, if_pos h3, hs]; rfl
  · obtain ⟨markers, -, h⟩ := bind_ok h
    obtain ⟨addresses, ha, h⟩ := bind_ok h
    cases h
    refine ⟨rfl, rfl, ⟨s.outputs, ?_, ha⟩, by simp [base]⟩
    rw [operationOutputs, if_neg h1, if_neg h2, if_neg h3, if_pos h4, hs]; rfl
  · obtain ⟨addresses, ha, h⟩ := bind_ok h
    cases h
    refine ⟨rfl, rfl, ⟨s.outputs, ?_, ha⟩, by simp [base]⟩
    rw [operationOutputs, if_neg h1, if_neg h2, if_neg h3, if_neg h4, if_pos h5, hs]; rfl
  · obtain ⟨e, he, h⟩ := bind_ok h
    obtain ⟨digest, markers, addresses, ha, rfl⟩ := funding_ok he
    obtain ⟨settlement, -, h⟩ := bind_ok h
    cases h
    refine ⟨rfl, rfl, ⟨s.funding.outputs, ?_, ha⟩, by simp [base]⟩
    rw [operationOutputs, if_neg h1, if_neg h2, if_neg h3, if_neg h4, if_neg h5, if_pos h6, hs]; rfl

theorem spendEntry_built {env : Env Node} {network app : Bytes32} {tp : ℕ} {bytes : Bytes}
    (h : spendEntry p env network app tp bytes frame = .ok entry) : Built p network app tp bytes frame entry := by
  obtain ⟨e, he, h⟩ := bind_ok h
  obtain ⟨⟨⟩, -, h⟩ := bind_ok h
  cases h
  exact operationEntry_built he

end Quil.SpendEntries
