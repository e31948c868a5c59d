import Quilibrium.Token.GlobalCommit
import Quilibrium.Token.SettlementRecords

/-! The bytes of a spend entry (`token_intrinsic/global_commit.rs`, `SpendEntry::encode` and `decode_at`) and of
    the relay of entries a header carries (`token_intrinsic/spend_relay.rs`). An entry is validated on BOTH sides:
    the encoder under the largest bounds any frame allows, the decoder under those of the frame it is relayed
    into. A relay's frames ascend, lie in the header's window and each carry something. -/

namespace Quil.SpendEncoding
open Schemes GlobalRecords GlobalCommit List ReadsIn SpendEntry Reads
open SettlementRecords (ENTRY_BYTES Canonical InRange encodeEntries decodeEntries putEntry reads_entry
  length_putEntry decodeEntries_eq_ok encodeEntries_eq_ok sorted)

/-! ### Entries -/

def ENTRY_VERSION : List UInt8 := [0x51, 0x43, 0x54, 0x33, 0x53, 0x45, 0x00, 0x01]

/-- A list after its count in one byte. -/
def listBytes (list : List Bytes32) : List UInt8 := toBeBytes 1 list.length ++ list.flatMap bytes32

def createBytes (create : EscrowCreate) : List UInt8 :=
  bytes32 create.address ++ (bytes32 create.binding ++ toBeBytes 8 create.refundAfterGlobalFrame)

def claimBytes (claim : EscrowClaim) : List UInt8 :=
  bytes32 claim.address ++ (bytes32 claim.binding ++ flagBytes claim.refund)

/-- The settlement of an entry, as a list of one. -/
def settlementBytes : Option SettlementEntry → Except QuilError (List UInt8)
  | none => .ok (flagBytes false)
  | some entry => do return flagBytes true ++ (← encodeEntries [entry])

section
variable {Node : Type} (env : Env Node)

def encode (entry : SpendEntry) : Except QuilError (List UInt8) := do
  entry.validateAt env u64Max
  let settlement ← settlementBytes entry.settlement
  return ENTRY_VERSION ++ (toBeBytes 4 entry.kind ++ (bytes32 entry.txId ++ (toBeBytes 8 entry.sourceFrame ++
    (bytes32 entry.context ++ (optionBytes bytes32 entry.rootDigest ++ (listBytes entry.consumptions ++
    (listBytes entry.outputs ++ (optionBytes createBytes entry.escrowCreate ++
    (optionBytes claimBytes entry.escrowClaim ++ (toBeBytes 16 entry.fee ++ settlement))))))))))

end

def readFlag : Reader QuilError Bool := Reader.flag (invalid "truncated") (invalid "noncanonical flag")

def readOption {α : Type} (r : Reader QuilError α) : Reader QuilError (Option α) :=
  Reader.optional (invalid "truncated") (invalid "noncanonical flag") r

def readList (max : ℕ) : Reader QuilError (List Bytes32) := do
  let n ← Reader.be (invalid "truncated") 1
  if n > max then throw (invalid "list too long") else (readArray32 (invalid "truncated")).times n

def readCreate : Reader QuilError EscrowCreate := do
  let address ← readArray32 (invalid "truncated")
  let binding ← readArray32 (invalid "truncated")
  let refundAfterGlobalFrame ← Reader.be (invalid "truncated") 8
  return ⟨address, binding, refundAfterGlobalFrame⟩

def readClaim : Reader QuilError EscrowClaim := do
  let address ← readArray32 (invalid "truncated")
  let binding ← readArray32 (invalid "truncated")
  let refund ← readFlag
  return ⟨address, binding, refund⟩

/-- The last of the entries read, which are one. -/
def decodeSettlement (bytes : List UInt8) : Except QuilError SettlementEntry := do
  match (← decodeEntries bytes).getLast? with
  | some entry => return entry
  | none => .error (invalid "empty settlement")

def readSettlement : Reader QuilError SettlementEntry :=
  (Reader.take (invalid "truncated") ENTRY_BYTES).decode decodeSettlement

section
variable {Node : Type} (env : Env Node)

def reader (frame : ℕ) : Reader QuilError SpendEntry := do
  let version ← Reader.take (invalid "truncated") 8
  if version ≠ ENTRY_VERSION then throw (invalid "version")
  else do
    let kind ← Reader.be (invalid "truncated") 4
    let txId ← readArray32 (invalid "truncated")
    let sourceFrame ← Reader.be (invalid "truncated") 8
    let context ← readArray32 (invalid "truncated")
    let rootDigest ← readOption (readArray32 (invalid "truncated"))
    let consumptions ← readList (maxConsumptions env kind frame)
    let outputs ← readList MAX_OUTPUTS
    let escrowCreate ← readOption readCreate
    let escrowClaim ← readOption readClaim
    let fee ← Reader.be (invalid "truncated") 16
    let settlement ← readOption readSettlement
    return ⟨kind, txId, sourceFrame, context, rootDigest, consumptions, outputs, escrowCreate, escrowClaim, fee,
      settlement⟩

/-- An entry relayed into GLOBAL frame `frame`, under that frame's bounds. -/
def decodeAt (bytes : List UInt8) (frame : ℕ) : Except QuilError SpendEntry := do
  let entry ← (reader env frame).whole (invalid "trailing bytes") bytes
  entry.validateAt env frame
  return entry

end

/-- The numbers of an entry are those the machine holds. -/
structure EntryInRange (entry : SpendEntry) : Prop where
  kind : entry.kind < 2 ^ 32
  sourceFrame : entry.sourceFrame < 2 ^ 64
  refund : ∀ create ∈ entry.escrowCreate, create.refundAfterGlobalFrame < 2 ^ 64
  fee : entry.fee < 2 ^ 128
  settlement : ∀ settlement ∈ entry.settlement, InRange settlement

/-! ### What is read of an entry -/

theorem reads_list (max : ℕ) : Reads (readList max) listBytes fun list => list.length < 256 ∧ list.length ≤ max := by
  have hfields : ReadsIn (readList max) (fun list => toBeBytes 1 list.length ++ list.flatMap bytes32)
      (fun _ => True) fun list => list.length < 256 ^ 1 ∧ ¬ list.length > max ∧ True :=
    field (be _ 1) length fun n _ =>
      check (d := fun list => list.length > max) (fun list h => by rw [h.2]) fun _ =>
        ((reads_array32 _).times n).iff fun list => by simp
  exact hfields.reads.congr (fun list => by simp) fun _ _ => rfl

theorem reads_create : Reads readCreate createBytes fun create => create.refundAfterGlobalFrame < 2 ^ 64 := by
  have hfields : ReadsIn readCreate _ (fun _ => True) _ :=
    field (reads_array32 _) EscrowCreate.address fun _ _ =>
    field (reads_array32 _) EscrowCreate.binding fun _ _ =>
    field (be _ 8) EscrowCreate.refundAfterGlobalFrame fun _ _ =>
    done fun create => by cases create; simp [and_assoc]
  exact hfields.reads.congr (fun create => by simp) fun _ _ => by simp only [createBytes, append_nil]

theorem reads_claim : Reads readClaim claimBytes fun _ => True := by
  have hfields : ReadsIn readClaim _ (fun _ => True) _ :=
    field (reads_array32 _) EscrowClaim.address fun _ _ =>
    field (reads_array32 _) EscrowClaim.binding fun _ _ =>
    field (flag _ _) EscrowClaim.refund fun _ _ =>
    done fun claim => by cases claim; simp [and_assoc]
  exact hfields.reads.congr (fun claim => by simp) fun _ _ => by simp only [claimBytes, append_nil]

variable {bytes : List UInt8}

theorem decodeSettlement_eq_ok {entry : SettlementEntry} (hbytes : bytes.length = ENTRY_BYTES) :
    decodeSettlement bytes = .ok entry ↔ (InRange entry ∧ Canonical [entry]) ∧ putEntry entry = bytes := by
  rw [decodeSettlement, bind_eq_ok]
  constructor
  · rintro ⟨entries, hentries, h⟩
    obtain ⟨hrange, hcanonical, rfl⟩ := decodeEntries_eq_ok.1 hentries
    have hlength : entries.length = 1 := by
      rw [length_flatMap_of_length fun e _ => length_putEntry e] at hbytes
      exact Nat.eq_of_mul_eq_mul_right (by decide) (hbytes.trans (one_mul _).symm)
    obtain ⟨only, rfl⟩ := length_eq_one_iff.1 hlength
    cases h
    exact ⟨⟨hrange _ mem_cons_self, hcanonical⟩, by simp⟩
  · rintro ⟨⟨hrange, hcanonical⟩, rfl⟩
    exact ⟨[entry], decodeEntries_eq_ok.2 ⟨forall_mem_singleton.2 hrange, hcanonical, by simp⟩, rfl⟩

theorem reads_settlement : Reads readSettlement putEntry fun entry => InRange entry ∧ Canonical [entry] :=
  (take _ ENTRY_BYTES).decode (fun _ _ => decodeSettlement_eq_ok) fun entry _ => length_putEntry entry

variable {frame : ℕ} {entry : SpendEntry}

section
variable {Node : Type} {env : Env Node}

/-- What follows the version. -/
def body (entry : SpendEntry) : List UInt8 :=
  toBeBytes 4 entry.kind ++ (bytes32 entry.txId ++ (toBeBytes 8 entry.sourceFrame ++
    (bytes32 entry.context ++ (optionBytes bytes32 entry.rootDigest ++ (listBytes entry.consumptions ++
    (listBytes entry.outputs ++ (optionBytes createBytes entry.escrowCreate ++
    (optionBytes claimBytes entry.escrowClaim ++ (toBeBytes 16 entry.fee ++
    optionBytes putEntry entry.settlement)))))))))

/-- The settlement of an entry is one that may be recorded. -/
def CanonicalSettlement (entry : SpendEntry) : Prop := ∀ settlement ∈ entry.settlement, Canonical [settlement]

theorem reads_spendEntry (frame : ℕ) : Reads (reader env frame) (fun entry => ENTRY_VERSION ++ body entry) fun entry =>
    EntryInRange entry ∧ CanonicalSettlement entry ∧
      (entry.consumptions.length < 256 ∧ entry.consumptions.length ≤ maxConsumptions env entry.kind frame) ∧
      entry.outputs.length < 256 ∧ entry.outputs.length ≤ MAX_OUTPUTS := by
  have hfields : ReadsIn (reader env frame) _ (fun _ => True) _ :=
    field (take _ 8) (fun _ => ENTRY_VERSION) fun version _ =>
    check (d := fun _ => False) (fun _ h => by simp [← h.2]) fun hversion =>
    field (be _ 4) kind fun kind _ =>
    field (reads_array32 _) txId fun _ _ =>
    field (be _ 8) sourceFrame fun _ _ =>
    field (reads_array32 _) context fun _ _ =>
    field ((reads_array32 _).optional _ _) rootDigest fun _ _ =>
    fieldOf (reads_list (maxConsumptions env kind frame)) consumptions
      (R := fun entry => entry.consumptions.length < 256 ∧
        entry.consumptions.length ≤ maxConsumptions env entry.kind frame)
      (fun entry h => by rw [h.1.1.1.1.2]) fun _ _ =>
    field (reads_list MAX_OUTPUTS) outputs fun _ _ =>
    field (reads_create.optional _ _) escrowCreate fun _ _ =>
    field (reads_claim.optional _ _) escrowClaim fun _ _ =>
    field (be _ 16) fee fun _ _ =>
    field (reads_settlement.optional _ _) settlement fun _ _ =>
    done fun entry => by cases entry; simp [and_assoc, not_not.1 hversion]
  refine hfields.reads.congr (fun entry => ?_) fun entry _ => by simp only [body, append_nil, id]
  simp only [not_false_eq_true, true_and, and_true, implies_true]
  constructor
  · rintro ⟨hrange, hcanonical, hconsumptions, houtputs⟩
    exact ⟨rfl, hrange.kind, hrange.sourceFrame, hconsumptions, houtputs, hrange.refund, hrange.fee,
      fun settlement h => ⟨hrange.settlement settlement h, hcanonical settlement h⟩⟩
  · rintro ⟨-, hkind, hsource, hconsumptions, houtputs, hrefund, hfee, hsettlement⟩
    exact ⟨⟨hkind, hsource, hrefund, hfee, fun settlement h => (hsettlement settlement h).1⟩,
      fun settlement h => (hsettlement settlement h).2, hconsumptions, houtputs⟩

theorem settlementBytes_eq_ok {settlement : Option SettlementEntry} : settlementBytes settlement = .ok bytes ↔
      (∀ entry ∈ settlement, Canonical [entry]) ∧ bytes = optionBytes putEntry settlement := by
  rcases settlement with _ | entry
  · rw [settlementBytes, Except.ok.injEq]
    exact ⟨fun h => ⟨fun _ h => absurd h (by simp), h.symm⟩, fun h => h.2.symm⟩
  have hone : sorted [entry] = [entry] := rfl
  rw [settlementBytes, bind_eq_ok]
  simp only [encodeEntries_eq_ok, hone, flatMap_singleton]
  constructor
  · rintro ⟨written, ⟨hcanonical, rfl⟩, h⟩
    cases h
    refine ⟨fun e he => ?_, rfl⟩
    rwa [← Option.mem_some_iff.1 he]
  · rintro ⟨hcanonical, rfl⟩
    exact ⟨_, ⟨hcanonical entry rfl, rfl⟩, rfl⟩

/-- What `validate_at` asks of an entry. -/
theorem validateAt_eq_ok : entry.validateAt env frame = .ok () ↔
    (entry.consumptions.length ≤ maxConsumptions env entry.kind frame ∧ entry.outputs.length ≤ MAX_OUTPUTS) ∧
      (entry.consumptions.Nodup ∧ entry.outputs.Nodup) ∧ ¬ (entry.consumptions.isEmpty ∧ entry.escrowClaim.isNone) ∧
      ¬ (entry.escrowCreate.isSome ∧ entry.escrowClaim.isSome) := by
  rw [validateAt, guard_eq_ok, guard_eq_ok, guard_eq_ok, guard_eq_ok, not_or, not_lt, not_lt, not_or, not_not, not_not]
  simp only [and_true]

/-- No frame allows more than the last one. -/
theorem maxConsumptions_le (kind : ℕ) (h : frame ≤ u64Max) :
    maxConsumptions env kind frame ≤ maxConsumptions env kind u64Max := by
  have hle : MAX_CONSUMPTIONS ≤ MAX_SHIELD_SOURCES := by decide
  rw [maxConsumptions, maxConsumptions]
  split
  · next hshield => rw [if_pos ⟨hshield.1, hshield.2.trans h⟩]
  split
  · exact hle
  · exact le_rfl

theorem maxConsumptions_lt (kind frame : ℕ) : maxConsumptions env kind frame < 256 := by
  rw [maxConsumptions]
  split <;> decide

theorem validateAt_last (hframe : frame ≤ u64Max)
    (h : entry.validateAt env frame = .ok ()) : entry.validateAt env u64Max = .ok () := by
  rw [validateAt_eq_ok] at h ⊢
  exact ⟨⟨h.1.1.trans (maxConsumptions_le _ hframe), h.1.2⟩, h.2⟩

theorem encode_eq_ok : encode env entry = .ok bytes ↔
    entry.validateAt env u64Max = .ok () ∧ CanonicalSettlement entry ∧ bytes = ENTRY_VERSION ++ body entry := by
  rw [encode, bind_eq_ok]
  simp only [bind_eq_ok, settlementBytes_eq_ok]
  constructor
  · rintro ⟨⟨⟩, hvalid, -, ⟨hcanonical, rfl⟩, h⟩
    cases h
    exact ⟨hvalid, hcanonical, rfl⟩
  · rintro ⟨hvalid, hcanonical, rfl⟩
    exact ⟨(), hvalid, _, ⟨hcanonical, rfl⟩, rfl⟩

/-- An entry is read into a frame exactly from the one string the encoder gives, when the frame's bounds hold. -/
theorem decodeAt_eq_ok (hframe : frame ≤ u64Max) : decodeAt env bytes frame = .ok entry ↔
      EntryInRange entry ∧ entry.validateAt env frame = .ok () ∧ encode env entry = .ok bytes := by
  rw [decodeAt, bind_eq_ok]
  simp only [bind_eq_ok, (reads_spendEntry frame).whole_iff, encode_eq_ok]
  constructor
  · rintro ⟨entry', ⟨⟨hrange, hcanonical, -⟩, rfl⟩, ⟨⟩, hvalid, h⟩
    cases h
    exact ⟨hrange, hvalid, validateAt_last hframe hvalid, hcanonical, rfl⟩
  · rintro ⟨hrange, hvalid, -, hcanonical, rfl⟩
    obtain ⟨⟨hconsumptions, houtputs⟩, -⟩ := validateAt_eq_ok.1 hvalid
    exact ⟨entry, ⟨⟨hrange, hcanonical, ⟨hconsumptions.trans_lt (maxConsumptions_lt _ _), hconsumptions⟩,
      houtputs.trans_lt (by decide), houtputs⟩, rfl⟩, (), hvalid, rfl⟩

end

/-! ### Relays -/

/-- Frames every header re-carries. -/
def RELAY_WINDOW_FRAMES : ℕ := 8
/-- Relayed operations one shard frame may carry. -/
def MAX_ENTRIES_PER_FRAME : ℕ := 64
/-- Longest one encoded entry may be. -/
def MAX_ENTRY_BYTES : ℕ := 4096

def invalidRelay (message : String) : QuilError := .invalidArgument ("spend relay: " ++ message)

/-- A frame with its encoded entries. -/
abbrev RelayedFrame := ℕ × List (List UInt8)

/-- Source frames the header of `frameNumber` relays; never frame 0. -/
def InWindow (frameNumber frame : ℕ) : Prop :=
  max (frameNumber - RELAY_WINDOW_FRAMES) 1 ≤ frame ∧ frame ≤ frameNumber - 1

instance (frameNumber frame : ℕ) : Decidable (InWindow frameNumber frame) :=
  inferInstanceAs (Decidable (_ ∧ _))

/-- Sizes an encoded entry may have. -/
def EntrySize (len : ℕ) : Prop := len ≠ 0 ∧ len ≤ MAX_ENTRY_BYTES

instance : DecidablePred EntrySize := fun _ => inferInstanceAs (Decidable (_ ∧ _))

def entryBytes (entry : List UInt8) : List UInt8 := toBeBytes 2 entry.length ++ entry

def encodeFrameEntries (entries : List (List UInt8)) : Except QuilError (List UInt8) :=
  if entries.length > MAX_ENTRIES_PER_FRAME then .error (invalidRelay "too many entries in a frame")
  else do
    let written ← entries.mapM fun entry =>
      if ¬ EntrySize entry.length then .error (invalidRelay "entry size") else .ok (entryBytes entry)
    return toBeBytes 2 entries.length ++ written.flatten

def encodeRelay (frames : List RelayedFrame) : Except QuilError (List UInt8) :=
  if ¬ (frames.map Prod.fst).IsChain (· < ·) then .error (invalidRelay "frames out of order")
  else do
    let written ← frames.mapM fun frame => do
      if frame.2 = [] then .error (invalidRelay "a relayed frame carries entries")
      else return toBeBytes 8 frame.1 ++ (← encodeFrameEntries frame.2)
    return written.flatten

def readFrameEntries : Reader QuilError (List (List UInt8)) := do
  let count ← Reader.be (invalidRelay "truncated") 2
  if count > MAX_ENTRIES_PER_FRAME then throw (invalidRelay "too many entries in a frame")
  else (Reader.sized (invalidRelay "truncated") (invalidRelay "entry size") 2 EntrySize).times count

/-- One frame of a relay after those up to `last`. -/
def readFrame (headerFrame : ℕ) (last : Option ℕ) : Reader QuilError RelayedFrame := do
  let frame ← Reader.be (invalidRelay "truncated") 8
  if ¬ InWindow headerFrame frame ∨ ∃ l ∈ last, l ≥ frame then
    throw (invalidRelay "frame outside the window or out of order")
  else do
    let entries ← readFrameEntries
    if entries = [] then throw (invalidRelay "a relayed frame carries entries") else return (frame, entries)

/-- The loop over the frames of a relay; `fuel` bounds the frames left, of which each takes a byte at least. -/
def readFrames (headerFrame : ℕ) : ℕ → List RelayedFrame → List UInt8 → Except QuilError (List RelayedFrame)
  | _, frames, [] => .ok frames
  | 0, _, _ => .error (invalidRelay "truncated")
  | fuel + 1, frames, bytes => do
    let (frame, rest) ← readFrame headerFrame (frames.getLast?.map Prod.fst) bytes
    readFrames headerFrame fuel (frames ++ [frame]) rest

def decodeRelay (headerFrame : ℕ) (bytes : List UInt8) : Except QuilError (List RelayedFrame) :=
  readFrames headerFrame bytes.length [] bytes

/-! ### What is read of a relay -/

def frameEntriesBytes (entries : List (List UInt8)) : List UInt8 :=
  toBeBytes 2 entries.length ++ entries.flatMap entryBytes

def frameBytes (frame : RelayedFrame) : List UInt8 := toBeBytes 8 frame.1 ++ frameEntriesBytes frame.2

/-- Entries one frame may carry. -/
def FrameEntries (entries : List (List UInt8)) : Prop :=
  entries.length ≤ MAX_ENTRIES_PER_FRAME ∧ ∀ entry ∈ entries, EntrySize entry.length

theorem reads_frameEntries : Reads readFrameEntries frameEntriesBytes FrameEntries := by
  have hfields : ReadsIn readFrameEntries
      (fun entries => toBeBytes 2 entries.length ++ entries.flatMap entryBytes) (fun _ => True)
      fun entries => entries.length < 256 ^ 2 ∧ ¬ entries.length > MAX_ENTRIES_PER_FRAME ∧
        ∀ entry ∈ entries, entry.length < 256 ^ 2 ∧ EntrySize entry.length :=
    field (be _ 2) length fun count _ =>
      check (d := fun entries => entries.length > MAX_ENTRIES_PER_FRAME) (fun list h => by rw [h.2]) fun _ =>
        ((sized _ _ 2 EntrySize).times count).iff fun entries => by rw [true_and]
  refine hfields.reads.congr (fun entries => ?_) fun _ _ => rfl
  rw [FrameEntries, not_lt]
  constructor
  · rintro ⟨hcount, hsizes⟩
    exact ⟨hcount.trans_lt (by decide), hcount,
      fun entry h => ⟨(hsizes entry h).2.trans_lt (by decide), hsizes entry h⟩⟩
  · rintro ⟨-, hcount, hsizes⟩
    exact ⟨hcount, fun entry h => (hsizes entry h).2⟩

/-- What a frame of a relay must meet. -/
structure FrameOk (headerFrame : ℕ) (frame : RelayedFrame) : Prop where
  number : frame.1 < 2 ^ 64
  window : InWindow headerFrame frame.1
  entries : FrameEntries frame.2
  filled : frame.2 ≠ []

theorem reads_frame (headerFrame : ℕ) (last : Option ℕ) : Reads (readFrame headerFrame last) frameBytes fun frame =>
    FrameOk headerFrame frame ∧ ∀ l ∈ last, l < frame.1 := by
  have hfields : ReadsIn (readFrame headerFrame last) _ (fun _ => True) _ :=
    field (be _ 8) Prod.fst fun number _ =>
    check (d := fun frame => ¬ InWindow headerFrame frame.1 ∨ ∃ l ∈ last, l ≥ frame.1)
      (fun frame h => by rw [h.2]) fun _ =>
    field reads_frameEntries Prod.snd fun entries _ =>
    check (d := fun frame : RelayedFrame => frame.2 = []) (fun frame h => by rw [h.2]) fun _ =>
    done fun frame => by rw [true_and, Prod.ext_iff]
  refine hfields.reads.congr (fun frame => ?_) fun frame _ => by simp only [frameBytes, append_nil]
  simp only [not_or, not_not, not_exists, not_and, not_le, and_true]
  constructor
  · rintro ⟨⟨hnumber, hwindow, hentries, hfilled⟩, hlast⟩
    exact ⟨hnumber, ⟨hwindow, hlast⟩, hentries, hfilled⟩
  · rintro ⟨hnumber, ⟨hwindow, hlast⟩, hentries, hfilled⟩
    exact ⟨⟨hnumber, hwindow, hentries, hfilled⟩, hlast⟩

theorem frameBytes_ne_nil (frame : RelayedFrame) : frameBytes frame ≠ [] := by
  intro h
  have := congrArg length h
  simp [frameBytes] at this

variable {headerFrame : ℕ} {frames : List RelayedFrame}

/-- The loop reads the frames that follow, in order after those read before. -/
theorem readFrames_sound {fuel : ℕ} {before : List RelayedFrame}
    (hbefore : before.IsChain fun a b => a.1 < b.1) (h : readFrames headerFrame fuel before bytes = .ok frames) :
    ∃ after, frames = before ++ after ∧ frames.IsChain (fun a b => a.1 < b.1) ∧
      (∀ frame ∈ after, FrameOk headerFrame frame) ∧ bytes = after.flatMap frameBytes := by
  induction fuel generalizing before bytes with
  | zero =>
    cases bytes with
    | nil =>
      cases h
      exact ⟨[], (append_nil _).symm, hbefore, forall_mem_nil _, rfl⟩
    | cons byte bytes => cases h
  | succ fuel ih =>
    rcases bytes with _ | ⟨byte, bytes⟩
    · cases h
      exact ⟨[], (append_nil _).symm, hbefore, forall_mem_nil _, rfl⟩
    obtain ⟨⟨frame, rest⟩, hread, h⟩ := bind_ok h
    obtain ⟨⟨hframe, hlast⟩, hbytes⟩ := (reads_frame headerFrame _).of_read hread
    have hnext : (before ++ [frame]).IsChain fun a b => a.1 < b.1 := by
      refine isChain_append.2 ⟨hbefore, isChain_singleton _, fun x hx y hy => ?_⟩
      rw [head?_cons, Option.mem_some_iff] at hy
      rw [← hy]
      exact hlast x.1 (Option.mem_map_of_mem _ hx)
    obtain ⟨after, rfl, hchain, hafter, rfl⟩ := ih hnext h
    exact ⟨frame :: after, by rw [append_assoc]; rfl, hchain, forall_mem_cons.2 ⟨hframe, hafter⟩, hbytes⟩

/-- Frames in order are read, with fuel for each. -/
theorem readFrames_complete (fuel : ℕ) (before : List RelayedFrame) {after : List RelayedFrame}
    (hchain : (before ++ after).IsChain fun a b => a.1 < b.1) (hafter : ∀ frame ∈ after, FrameOk headerFrame frame)
    (hfuel : after.length ≤ fuel) :
    readFrames headerFrame fuel before (after.flatMap frameBytes) = .ok (before ++ after) := by
  induction after generalizing before fuel with
  | nil =>
    rw [flatMap_nil, append_nil]
    cases fuel <;> rfl
  | cons frame after ih =>
    obtain ⟨fuel, rfl⟩ := Nat.exists_eq_add_of_le' (Nat.zero_lt_of_lt (show 0 < fuel from
      (Nat.succ_pos _).trans_le hfuel))
    rw [forall_mem_cons] at hafter
    have hlast : ∀ l ∈ before.getLast?.map Prod.fst, l < frame.1 := by
      intro l hl
      obtain ⟨x, hx, rfl⟩ := Option.mem_map.1 hl
      exact (isChain_append.1 hchain).2.2 x hx frame rfl
    have hread := (reads_frame headerFrame (before.getLast?.map Prod.fst)).read_write frame
      (after.flatMap frameBytes) ⟨hafter.1, hlast⟩
    have hrest := ih fuel (before ++ [frame]) (by rwa [append_assoc]) hafter.2
      (Nat.le_of_succ_le_succ hfuel)
    rw [append_assoc] at hrest
    rw [flatMap_cons]
    rcases hbytes : frameBytes frame ++ after.flatMap frameBytes with _ | ⟨byte, bytes⟩
    · exact absurd (append_eq_nil_iff.1 hbytes).1 (frameBytes_ne_nil frame)
    rw [readFrames, ← hbytes, hread, ok_bind]
    · exact hrest
    · simp

theorem length_le_flatMap_frameBytes (frames : List RelayedFrame) :
    frames.length ≤ (frames.flatMap frameBytes).length := by
  induction frames with
  | nil => exact le_rfl
  | cons frame frames ih =>
    have := length_pos_iff.2 (frameBytes_ne_nil frame)
    rw [flatMap_cons, length_append, length_cons]
    omega

/-- A relay is read exactly from the bytes of its frames, which ascend. -/
theorem decodeRelay_eq_ok : decodeRelay headerFrame bytes = .ok frames ↔ frames.IsChain (fun a b => a.1 < b.1) ∧
      (∀ frame ∈ frames, FrameOk headerFrame frame) ∧ bytes = frames.flatMap frameBytes := by
  constructor
  · intro h
    obtain ⟨after, rfl, hrest⟩ := readFrames_sound isChain_nil h
    exact hrest
  · rintro ⟨hchain, hframes, rfl⟩
    exact readFrames_complete _ [] hchain hframes (length_le_flatMap_frameBytes frames)

theorem encodeFrameEntries_eq_ok {entries : List (List UInt8)} :
    encodeFrameEntries entries = .ok bytes ↔ FrameEntries entries ∧ bytes = frameEntriesBytes entries := by
  have heach : ∀ entry written : List UInt8,
      (if ¬ EntrySize entry.length then Except.error (invalidRelay "entry size") else .ok (entryBytes entry)) =
        .ok written ↔ EntrySize entry.length ∧ written = entryBytes entry := by
    intro entry written
    rw [guard_eq_ok, Except.ok.injEq, not_not, eq_comm (a := written)]
  rw [encodeFrameEntries, FrameEntries, guard_eq_ok, bind_eq_ok, not_lt]
  constructor
  · rintro ⟨hcount, written, hwritten, h⟩
    obtain ⟨hsizes, rfl⟩ := (mapM_eq_ok heach).1 hwritten
    cases h
    exact ⟨⟨hcount, hsizes⟩, rfl⟩
  · rintro ⟨⟨hcount, hsizes⟩, rfl⟩
    exact ⟨hcount, _, (mapM_eq_ok heach).2 ⟨hsizes, rfl⟩, rfl⟩

/-- A relay is written exactly of frames in order, each with something to carry. -/
theorem encodeRelay_eq_ok : encodeRelay frames = .ok bytes ↔
    frames.IsChain (fun a b => a.1 < b.1) ∧ (∀ frame ∈ frames, FrameEntries frame.2 ∧ frame.2 ≠ []) ∧
      bytes = frames.flatMap frameBytes := by
  have heach : ∀ (frame : RelayedFrame) (written : List UInt8),
      (if frame.2 = [] then .error (invalidRelay "a relayed frame carries entries")
        else do return toBeBytes 8 frame.1 ++ (← encodeFrameEntries frame.2)) = .ok written ↔
      (FrameEntries frame.2 ∧ frame.2 ≠ []) ∧ written = frameBytes frame := by
    intro frame written
    rw [guard_eq_ok, bind_eq_ok]
    constructor
    · rintro ⟨h, entries, hentries, hwritten⟩
      obtain ⟨hall, rfl⟩ := encodeFrameEntries_eq_ok.1 hentries
      cases hwritten
      exact ⟨⟨hall, h⟩, rfl⟩
    · rintro ⟨⟨hall, h⟩, rfl⟩
      exact ⟨h, _, encodeFrameEntries_eq_ok.2 ⟨hall, rfl⟩, rfl⟩
  rw [encodeRelay, ← isChain_map Prod.fst, guard_eq_ok, bind_eq_ok, not_not]
  constructor
  · rintro ⟨hchain, written, hwritten, h⟩
    obtain ⟨hframes, rfl⟩ := (mapM_eq_ok heach).1 hwritten
    cases h
    exact ⟨hchain, hframes, rfl⟩
  · rintro ⟨hchain, hframes, rfl⟩
    exact ⟨hchain, _, (mapM_eq_ok heach).2 ⟨hframes, rfl⟩, rfl⟩

/-! ### One string for each entry and each relay -/

section
variable {Node : Type} {env : Env Node}

/-- Nothing may follow an entry. -/
theorem nothing_after_entry {extra : List UInt8} {entry' : SpendEntry} (h : decodeAt env bytes frame = .ok entry)
    (h' : decodeAt env (bytes ++ extra) frame = .ok entry') : extra = [] := by
  obtain ⟨read, hread, -⟩ := bind_ok h
  obtain ⟨read', hread', -⟩ := bind_ok h'
  obtain ⟨hall, rfl⟩ := (reads_spendEntry frame).whole_iff.1 hread
  obtain ⟨⟨first, rest⟩, hfirst, hrest⟩ := bind_ok hread'
  rw [(reads_spendEntry frame).read_write _ _ hall] at hfirst
  cases hfirst
  dsimp only at hrest
  split at hrest
  · cases hrest
  · next hempty => exact not_not.1 hempty

/-- Every entry within a frame's bounds, with a canonical settlement if any, is written and read back into that
    frame. What is read into a frame, as an entry or as a relay, is written back to the same bytes: no other
    string gives it, nothing follows an entry, and nothing in it is repeated or out of order. -/
theorem spend_encodings_canonical (env : Env Node) :
    (∀ frame ≤ u64Max, ∀ entry : SpendEntry, EntryInRange entry → entry.validateAt env frame = .ok () →
      CanonicalSettlement entry → ∃ bytes, encode env entry = .ok bytes ∧ decodeAt env bytes frame = .ok entry) ∧
    (∀ frame ≤ u64Max, ∀ (bytes : List UInt8) (entry : SpendEntry), decodeAt env bytes frame = .ok entry →
      encode env entry = .ok bytes ∧ entry.consumptions.Nodup ∧ entry.outputs.Nodup ∧
      (∀ frame' ≤ u64Max, ∀ bytes', decodeAt env bytes' frame' = .ok entry → bytes' = bytes) ∧
      ∀ extra entry', decodeAt env (bytes ++ extra) frame = .ok entry' → extra = []) ∧
    ∀ (headerFrame : ℕ) (bytes : List UInt8) (frames : List RelayedFrame),
      decodeRelay headerFrame bytes = .ok frames →
      encodeRelay frames = .ok bytes ∧ (frames.map Prod.fst).Pairwise (· < ·) ∧
      ∀ headerFrame' bytes', decodeRelay headerFrame' bytes' = .ok frames → bytes' = bytes := by
  refine ⟨fun frame hframe entry hrange hvalid hcanonical => ?_, fun frame hframe bytes entry h => ?_,
    fun headerFrame bytes frames h => ?_⟩
  · have hencode := encode_eq_ok.2 ⟨validateAt_last hframe hvalid, hcanonical, rfl⟩
    exact ⟨_, hencode, (decodeAt_eq_ok hframe).2 ⟨hrange, hvalid, hencode⟩⟩
  · obtain ⟨-, hvalid, hencode⟩ := (decodeAt_eq_ok hframe).1 h
    obtain ⟨-, ⟨hconsumptions, houtputs⟩, -⟩ := validateAt_eq_ok.1 hvalid
    refine ⟨hencode, hconsumptions, houtputs, fun frame' hframe' bytes' h' => ?_,
      fun extra entry' h' => nothing_after_entry h h'⟩
    have hencode' := ((decodeAt_eq_ok hframe').1 h').2.2
    exact Except.ok.inj (hencode'.symm.trans hencode)
  obtain ⟨hchain, hframes, hbytes⟩ := decodeRelay_eq_ok.1 h
  refine ⟨encodeRelay_eq_ok.2 ⟨hchain, fun frame hframe => ?_, hbytes⟩, ?_, fun headerFrame' bytes' h' => ?_⟩
  · exact ⟨(hframes frame hframe).entries, (hframes frame hframe).filled⟩
  · rwa [← isChain_iff_pairwise, isChain_map]
  · exact (decodeRelay_eq_ok.1 h').2.2.trans hbytes.symm

end

/-- A deployment whose batch shields start at frame 100. -/
def sampleEnv : Env Unit := ⟨100, 0, fun _ _ _ => 0⟩

/-- A transfer of two coins into one, paying `amount` to another domain. -/
def sampleSpend (amount : ℕ) : SpendEntry :=
  ⟨1, 2, 3, 4, some 5, [6, 7], [8], none, none, 9, some ⟨10, 11, 12, 13, amount, 0, 0, 0⟩⟩

theorem spend_encodings_canonical_sample :
    (encode sampleEnv (sampleSpend 1) >>= (decodeAt sampleEnv · 0)) = .ok (sampleSpend 1) := by
  obtain ⟨hwritten, -⟩ := spend_encodings_canonical sampleEnv
  have hcanonical : CanonicalSettlement (sampleSpend 1) := by
    intro settlement h
    cases h
    decide
  have hrange : EntryInRange (sampleSpend 1) := by
    refine ⟨by decide, by decide, by decide, by decide, fun settlement h => ?_⟩
    cases h
    decide
  obtain ⟨bytes, hencode, hdecode⟩ := hwritten 0 (by decide) (sampleSpend 1) hrange (by decide +kernel) hcanonical
  rw [hencode, ok_bind, hdecode]

/-- An entry with a settlement of nothing is within the bounds and is not written. -/
theorem settlement_of_nothing_refused :
    (sampleSpend 0).validateAt sampleEnv 0 = .ok () ∧
      encode sampleEnv (sampleSpend 0) = .error (SettlementRecords.invalid "noncanonical frame entries") := by
  decide +kernel

end Quil.SpendEncoding
