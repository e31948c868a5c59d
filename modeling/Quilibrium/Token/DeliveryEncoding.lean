import Quilibrium.Token.SettlementClaims

/-! The delivery of a committed output or escrow into its block (`token_intrinsic/delivery.rs`) and its bytes,
    with the amount commitment of an output (`quil-lattice-ct/src/confidential.rs`) and the path of the executing
    shard (`quil-types/src/execution.rs`). Each part REJECTS what it would have to reduce: a coefficient beyond
    the modulus, a path with bits past its length. So does the whole, and a delivery has one string. -/

namespace Quil.DeliveryEncoding
open Schemes SettlementClaims List

/-! ### Amount commitments -/

/-- Residues packed into nine bytes a pair are below this. -/
def Q : ℕ := 68719476713
/-- Pairs of coefficients in one polynomial. -/
def POLY_PAIRS : ℕ := 128
def PACKED_POLY_BYTES : ℕ := 1152
/-- Polynomials of a commitment. -/
def POLYS : ℕ := 9
def COMMITMENT_BYTES : ℕ := POLYS * PACKED_POLY_BYTES

/-- Two adjacent coefficients, each reduced. -/
def Reduced (pair : ℕ × ℕ) : Prop := pair.1 < Q ∧ pair.2 < Q

instance (pair : ℕ × ℕ) : Decidable (Reduced pair) := inferInstanceAs (Decidable (_ ∧ _))

/-- The polynomials of a commitment as one list of adjacent coefficients. -/
structure AmountCommitment where
  t : List (ℕ × ℕ)
  length_t : t.length = POLYS * POLY_PAIRS
  reduced : ∀ pair ∈ t, Reduced pair
deriving DecidableEq

/-- A pair in nine bytes. -/
def packPair (pair : ℕ × ℕ) : List UInt8 := leBytes 9 (pair.1 ||| pair.2 <<< 36)

def unpackPair (bytes : List UInt8) : ℕ × ℕ :=
  let packed := ofLeBytes bytes
  (packed &&& (2 ^ 36 - 1), packed >>> 36)

namespace AmountCommitment

def toBytes (commitment : AmountCommitment) : List UInt8 := commitment.t.flatMap packPair

def fromBytes (bytes : List UInt8) : Option AmountCommitment :=
  let pairs := (chunksExact 9 bytes).map unpackPair
  if h : bytes.length = COMMITMENT_BYTES ∧ ∀ pair ∈ pairs, Reduced pair then
    some ⟨pairs, by
      rw [List.length_map, length_chunksExact, h.1]
      rfl, h.2⟩
  else none

end AmountCommitment

/-- Nine bytes hold a pair of 36-bit numbers, and each such pair. -/
def pairReader : Reader Unit (ℕ × ℕ) := (fun packed => (packed &&& (2 ^ 36 - 1), packed >>> 36)) <$> Reader.le () 9

theorem reads_pair : Reads pairReader packPair fun pair => pair.1 < 2 ^ 36 ∧ pair.2 < 2 ^ 36 := by
  refine ((Reads.le () 9).map _ (fun pair : ℕ × ℕ => pair.1 ||| pair.2 <<< 36) fun packed h => ?_).iff fun pair => ?_
  · rw [or_shiftLeft_of_lt _ (by dsimp only; rw [Nat.and_two_pow_sub_one_eq_mod]; exact Nat.mod_lt _ (by decide))]
    dsimp only
    rw [Nat.and_two_pow_sub_one_eq_mod, Nat.shiftRight_eq_div_pow, Nat.div_add_mod]
  constructor
  · rintro ⟨hfirst, hsecond⟩
    rw [or_shiftLeft_of_lt _ hfirst, Nat.and_two_pow_sub_one_eq_mod, Nat.shiftRight_eq_div_pow]
    refine ⟨Prod.ext ?_ ?_, ?_⟩
    · dsimp only
      omega
    · dsimp only
      omega
    · omega
  · rintro ⟨hpair, hlt⟩
    rw [← hpair, Nat.and_two_pow_sub_one_eq_mod, Nat.shiftRight_eq_div_pow]
    exact ⟨Nat.mod_lt _ (by decide), Nat.div_lt_of_lt_mul (hlt.trans_eq (by norm_num))⟩

theorem length_packPair (pair : ℕ × ℕ) : (packPair pair).length = 9 := length_leBytes _ _

theorem lt_of_reduced {pair : ℕ × ℕ} (h : Reduced pair) : pair.1 < 2 ^ 36 ∧ pair.2 < 2 ^ 36 :=
  ⟨h.1.trans (by decide), h.2.trans (by decide)⟩

variable {bytes : List UInt8}

/-- A commitment is read from its own bytes and no others. -/
theorem AmountCommitment.fromBytes_eq_some {commitment : AmountCommitment} :
    fromBytes bytes = some commitment ↔ commitment.toBytes = bytes := by
  have hchunks := reads_pair.chunksExact_eq_iff (n := 9) (by decide) (fun pair _ => length_packPair pair)
    (fun c rest => map_le_append ()) bytes fun pair hpair => lt_of_reduced (commitment.reduced pair hpair)
  rw [commitment.length_t] at hchunks
  rw [fromBytes, toBytes, ← hchunks]
  constructor
  · intro h
    split at h
    · next hall =>
      cases h
      exact ⟨hall.1, rfl⟩
    · cases h
  · rintro ⟨hlength, hpairs⟩
    obtain ⟨t, ht, hreduced⟩ := commitment
    subst hpairs
    exact dif_pos ⟨hlength, hreduced⟩

theorem AmountCommitment.length_toBytes (commitment : AmountCommitment) :
    commitment.toBytes.length = COMMITMENT_BYTES := by
  rw [toBytes, length_flatMap_of_length fun pair _ => length_packPair pair, commitment.length_t]
  rfl

end Quil.DeliveryEncoding

/-! ### Paths of shards -/

namespace Quil.ShardPath
open Schemes List

/-- The bits a path of a length may set. -/
def usedBits (len : ℕ) : BitVec 64 := if len = 0 then 0 else BitVec.allOnes 64 <<< (64 - len)

/-- Length, then bits. -/
def toBytes (self : ShardPath) : List UInt8 := toBeBytes 1 self.len ++ toBeBytes 8 self.bits.toNat

@[simp] theorem length_toBytes (self : ShardPath) : self.toBytes.length = 9 := by simp [toBytes]

def fromBytes (bytes : List UInt8) : Option ShardPath :=
  if bytes.length ≠ 9 then none
  else
    let len := ofBeBytes (bytes.take 1)
    let bits := BitVec.ofNat 64 (ofBeBytes (bytes.drop 1))
    if len > maxBits then if len = 255 ∧ bits = 0 then some unknown else none
    else if bits &&& ~~~ usedBits len = 0 then some ⟨bits, len⟩ else none

/-- What the constructors build: a path within the word that sets its own bits only, or `unknown`. -/
def WellFormed (self : ShardPath) : Prop :=
  self = unknown ∨ self.len ≤ maxBits ∧ self.bits &&& ~~~ usedBits self.len = 0

instance (self : ShardPath) : Decidable self.WellFormed := inferInstanceAs (Decidable (_ ∨ _ ∧ _))

/-- A path is read from its own bytes and no others. -/
theorem fromBytes_eq_some {path : ShardPath} (hbytes : bytes.length = 9) :
    fromBytes bytes = some path ↔ path.WellFormed ∧ path.toBytes = bytes := by
  have hlen : toBeBytes 1 (ofBeBytes (bytes.take 1)) = bytes.take 1 := by
    have := toBeBytes_ofBeBytes (bytes.take 1)
    rwa [length_take, hbytes] at this
  have hbits : toBeBytes 8 (BitVec.ofNat 64 (ofBeBytes (bytes.drop 1))).toNat = bytes.drop 1 := by
    have hlt := ofBeBytes_lt (bytes.drop 1)
    have := toBeBytes_ofBeBytes (bytes.drop 1)
    rw [length_drop, hbytes] at hlt this
    rwa [BitVec.toNat_ofNat, Nat.mod_eq_of_lt (hlt.trans_eq (by norm_num))]
  rw [fromBytes, if_neg (not_not.2 hbytes)]
  dsimp only
  constructor
  · intro h
    split at h
    · split at h
      · next hunknown =>
        cases h
        rw [hunknown.1] at hlen
        rw [hunknown.2] at hbits
        exact ⟨Or.inl rfl, (congrArg₂ (· ++ ·) hlen hbits).trans (take_append_drop 1 bytes)⟩
      · cases h
    next hle =>
    split at h
    · next hused =>
      cases h
      exact ⟨Or.inr ⟨not_lt.1 hle, hused⟩, (congrArg₂ (· ++ ·) hlen hbits).trans (take_append_drop 1 bytes)⟩
    · cases h
  · rintro ⟨hpath, rfl⟩
    have htake : path.toBytes.take 1 = toBeBytes 1 path.len := take_left' (length_toBeBytes _ _)
    have hdrop : path.toBytes.drop 1 = toBeBytes 8 path.bits.toNat := drop_left' (length_toBeBytes _ _)
    have hlt : path.len < 256 ^ 1 := by
      rcases hpath with rfl | ⟨hle, -⟩
      · decide
      · exact hle.trans_lt (by decide)
    rw [htake, hdrop, ofBeBytes_toBeBytes hlt, ofBeBytes_toBeBytes (path.bits.isLt.trans_eq (by norm_num)),
      BitVec.ofNat_toNat, BitVec.setWidth_eq]
    rcases hpath with rfl | ⟨hle, hused⟩
    · rfl
    · rw [if_neg (not_lt.2 hle), if_pos hused]

end Quil.ShardPath

/-! ### Deliveries -/

namespace Quil.DeliveryEncoding
open Schemes SettlementRecords SettlementClaims List

def TYPE_COIN_DELIVERY : ℕ := 0x051A
def DELIVERY_VERSION : List UInt8 := [0x51, 0x43, 0x54, 0x33, 0x44, 0x4c, 0x00, 0x01]
/-- The same envelope with an escrow record instead of a coin. -/
def ESCROW_DELIVERY_VERSION : List UInt8 := [0x51, 0x43, 0x54, 0x33, 0x44, 0x45, 0x00, 0x01]
def HEADER_BYTES : ℕ := 4 + 8 + 32 + 32 + 8 + 32 + 8 + 8 + 8 + 32 + 9
def IDENTITY_BYTES : ℕ := 3648
def MEMO_BYTES : ℕ := 1115
def MAX_ESCROW_BLOB_BYTES : ℕ := 64 * 1024

def invalid (message : String) : QuilError := .invalidArgument ("coin delivery: " ++ message)

structure Output where
  owner : {bytes : List UInt8 // bytes.length = IDENTITY_BYTES}
  commitment : AmountCommitment
  memo : {bytes : List UInt8 // bytes.length = MEMO_BYTES}
deriving DecidableEq

/-- What a delivery places. -/
inductive Delivered where
  | coin (output : Output)
  | escrow (blob : List UInt8)
deriving DecidableEq

structure CoinDelivery where
  network : Bytes32
  application : Bytes32
  citedGlobalFrame : BitVec 64
  globalRoot : Bytes32
  block : BitVec 64
  seq : BitVec 64
  sourceFrame : BitVec 64
  txId : Bytes32
  sourceShard : {path : ShardPath // path.WellFormed}
  delivered : Delivered
  forestProof : List UInt8
deriving DecidableEq

/-- Sizes an escrow record may have. -/
def EscrowSize (len : ℕ) : Prop := len ≠ 0 ∧ len ≤ MAX_ESCROW_BLOB_BYTES

instance : DecidablePred EscrowSize := fun _ => inferInstanceAs (Decidable (_ ∧ _))

namespace Output

def bytes (output : Output) : List UInt8 := output.owner.1 ++ (output.commitment.toBytes ++ output.memo.1)

def reader : Reader QuilError Output := do
  let owner ← Reader.array (invalid "truncated") IDENTITY_BYTES
  let commitment ← Reader.parse (invalid "malformed commitment") AmountCommitment.fromBytes
    (Reader.take (invalid "truncated") COMMITMENT_BYTES)
  let memo ← Reader.array (invalid "truncated") MEMO_BYTES
  return ⟨owner, commitment, memo⟩

theorem reads : Reads reader bytes fun _ => True := by
  have hcommitment := (Reads.take (invalid "truncated") COMMITMENT_BYTES).parse (invalid "malformed commitment")
    (p := AmountCommitment.fromBytes) (f := AmountCommitment.toBytes) (Q := fun _ => True)
    (fun _ _ _ => AmountCommitment.fromBytes_eq_some.trans (iff_of_eq (true_and _)).symm)
    fun commitment _ => commitment.length_toBytes
  have hfields : ReadsIn reader _ (fun _ => True) _ :=
    ReadsIn.field (Reads.array _ _) owner fun _ _ =>
    ReadsIn.field hcommitment commitment fun _ _ =>
    ReadsIn.field (Reads.array _ _) memo fun _ _ =>
    ReadsIn.done fun output => by cases output; simp [and_assoc]
  exact hfields.reads.congr (fun output => by simp) fun output _ => by simp only [bytes, append_nil, id]

end Output

namespace Delivered

def isEscrow : Delivered → Bool
  | coin _ => false
  | escrow _ => true

def bytes : Delivered → List UInt8
  | coin output => output.bytes
  | escrow blob => toBeBytes 4 blob.length ++ blob

/-- An escrow record has an allowed size. -/
def Sized : Delivered → Prop
  | coin _ => True
  | escrow blob => EscrowSize blob.length

instance : DecidablePred Sized
  | coin _ => inferInstanceAs (Decidable True)
  | escrow _ => inferInstanceAs (Decidable (EscrowSize _))

def reader (isEscrow : Bool) : Reader QuilError Delivered :=
  if isEscrow then escrow <$> Reader.sized (invalid "truncated") (invalid "escrow record size") 4 EscrowSize
  else coin <$> Output.reader

theorem reads (b : Bool) : Reads (reader b) bytes fun delivered => delivered.isEscrow = b ∧ delivered.Sized := by
  rcases b with _ | _
  · refine (Output.reads.image coin fun _ _ => rfl).iff fun delivered => ?_
    cases delivered with
    | coin output => simp [isEscrow, Sized]
    | escrow blob => simp [isEscrow]
  refine ((Reads.sized _ _ 4 EscrowSize).image escrow fun _ _ => rfl).iff fun delivered => ?_
  cases delivered with
  | coin output => simp [isEscrow]
  | escrow blob =>
    simp only [isEscrow, Sized, true_and, escrow.injEq, exists_eq_left]
    exact ⟨fun h => ⟨h.2.trans_lt (by decide), h⟩, And.right⟩

end Delivered

namespace CoinDelivery

def version (delivery : CoinDelivery) : List UInt8 :=
  if delivery.delivered.isEscrow then ESCROW_DELIVERY_VERSION else DELIVERY_VERSION

/-- What follows the envelope. -/
def body (delivery : CoinDelivery) : List UInt8 :=
  bytes32 delivery.network ++ (bytes32 delivery.application ++ (toBeBytes 8 delivery.citedGlobalFrame.toNat ++
    (bytes32 delivery.globalRoot ++ (toBeBytes 8 delivery.block.toNat ++ (toBeBytes 8 delivery.seq.toNat ++
    (toBeBytes 8 delivery.sourceFrame.toNat ++ (bytes32 delivery.txId ++ (delivery.sourceShard.1.toBytes ++
    (delivery.delivered.bytes ++ (toBeBytes 4 delivery.forestProof.length ++ delivery.forestProof))))))))))

def encode (delivery : CoinDelivery) : Except QuilError (List UInt8) :=
  if delivery.forestProof.length > MAX_REWARD_PROOF_BYTES then .error (invalid "oversized proof")
  else if ¬ delivery.delivered.Sized then .error (invalid "escrow record size")
  else .ok (toBeBytes 4 TYPE_COIN_DELIVERY ++ (delivery.version ++ delivery.body))

def readShard : Reader QuilError {path : ShardPath // path.WellFormed} :=
  Reader.parse (invalid "malformed executing shard")
    (fun bytes => (ShardPath.fromBytes bytes).bind fun path => if h : path.WellFormed then some ⟨path, h⟩ else none)
    (Reader.take (invalid "truncated") 9)

def reader (network app : Bytes32) (isEscrow : Bool) : Reader QuilError CoinDelivery := do
  let decodedNetwork ← readArray32 (invalid "truncated")
  let decodedApplication ← readArray32 (invalid "truncated")
  if decodedNetwork ≠ network ∨ decodedApplication ≠ app then
    throw (invalid "delivery for another network or application")
  else do
    let citedGlobalFrame ← Reader.word (invalid "truncated") 8
    let globalRoot ← readArray32 (invalid "truncated")
    let block ← Reader.word (invalid "truncated") 8
    let seq ← Reader.word (invalid "truncated") 8
    let sourceFrame ← Reader.word (invalid "truncated") 8
    let txId ← readArray32 (invalid "truncated")
    let sourceShard ← readShard
    let delivered ← Delivered.reader isEscrow
    let forestProof ← Reader.sized (invalid "truncated") (invalid "invalid proof length") 4
      (· ≤ MAX_REWARD_PROOF_BYTES)
    return ⟨decodedNetwork, decodedApplication, citedGlobalFrame, globalRoot, block, seq, sourceFrame, txId,
      sourceShard, delivered, forestProof⟩

def decode (bytes : List UInt8) (network app : Bytes32) : Except QuilError CoinDelivery :=
  if bytes.length < HEADER_BYTES ∨ bytes.extract 0 4 ≠ toBeBytes 4 TYPE_COIN_DELIVERY then
    .error (invalid "invalid envelope")
  else if bytes.extract 4 12 = DELIVERY_VERSION then
    (reader network app false).whole (invalid "trailing bytes") (bytes.drop 12)
  else if bytes.extract 4 12 = ESCROW_DELIVERY_VERSION then
    (reader network app true).whole (invalid "trailing bytes") (bytes.drop 12)
  else .error (invalid "invalid envelope")

theorem reads_shard : Reads readShard (fun path => path.1.toBytes) fun _ => True := by
  refine (Reads.take _ 9).parse _ (fun bytes path hbytes => ?_) fun path _ => ?_
  · rw [Option.bind_eq_some_iff, true_and]
    constructor
    · rintro ⟨path', hpath, h⟩
      split at h
      · cases h
        exact ((ShardPath.fromBytes_eq_some hbytes).1 hpath).2
      · cases h
    · intro h
      exact ⟨path.1, (ShardPath.fromBytes_eq_some hbytes).2 ⟨path.2, h⟩, dif_pos path.2⟩
  · exact path.1.length_toBytes

theorem reads (network app : Bytes32) (isEscrow : Bool) : Reads (reader network app isEscrow) body fun delivery =>
      delivery.network = network ∧ delivery.application = app ∧ delivery.delivered.isEscrow = isEscrow ∧
      delivery.delivered.Sized ∧ delivery.forestProof.length ≤ MAX_REWARD_PROOF_BYTES := by
  have hfields : ReadsIn (reader network app isEscrow) _ (fun _ => True) _ :=
    ReadsIn.field (reads_array32 _) CoinDelivery.network fun _ _ =>
    ReadsIn.field (reads_array32 _) CoinDelivery.application fun _ _ =>
    ReadsIn.check (d := fun d => d.network ≠ network ∨ d.application ≠ app)
      (fun d hd => by rw [hd.1.2, hd.2]) fun _ =>
    ReadsIn.field (Reads.word _ 8) citedGlobalFrame fun _ _ =>
    ReadsIn.field (reads_array32 _) globalRoot fun _ _ =>
    ReadsIn.field (Reads.word _ 8) block fun _ _ =>
    ReadsIn.field (Reads.word _ 8) seq fun _ _ =>
    ReadsIn.field (Reads.word _ 8) sourceFrame fun _ _ =>
    ReadsIn.field (reads_array32 _) txId fun _ _ =>
    ReadsIn.field reads_shard sourceShard fun _ _ =>
    ReadsIn.field (Delivered.reads isEscrow) delivered fun _ _ =>
    ReadsIn.field (Reads.sized _ _ 4 (· ≤ MAX_REWARD_PROOF_BYTES)) forestProof fun _ _ =>
    ReadsIn.done fun d => by cases d; simp [and_assoc]
  refine hfields.reads.congr (fun d => ?_) fun d _ => by simp only [body, append_nil]
  have hproof : d.forestProof.length ≤ MAX_REWARD_PROOF_BYTES → d.forestProof.length < 256 ^ 4 :=
    fun h => h.trans_lt (by decide)
  simp only [ne_eq, not_or, not_not, true_and, and_true, and_assoc]
  exact ⟨fun h => ⟨h.1, h.2.1, h.2.2.1, h.2.2.2.1, hproof h.2.2.2.2, h.2.2.2.2⟩,
    fun h => ⟨h.1, h.2.1, h.2.2.1, h.2.2.2.1, h.2.2.2.2.2⟩⟩

theorem encode_eq_ok_iff {delivery : CoinDelivery} : delivery.encode = .ok bytes ↔
    delivery.delivered.Sized ∧ delivery.forestProof.length ≤ MAX_REWARD_PROOF_BYTES ∧
      bytes = toBeBytes 4 TYPE_COIN_DELIVERY ++ (delivery.version ++ delivery.body) := by
  rw [encode, guard_eq_ok, guard_eq_ok, Except.ok.injEq, not_lt, not_not]
  exact ⟨fun h => ⟨h.2.1, h.1, h.2.2.symm⟩, fun h => ⟨h.2.1, h.1, h.2.2.symm⟩⟩

theorem length_version (delivery : CoinDelivery) : delivery.version.length = 8 := by
  rw [version]
  split <;> rfl

theorem length_body (delivery : CoinDelivery) : HEADER_BYTES - 12 ≤ delivery.body.length := by
  simp [body, HEADER_BYTES]
  omega

/-- A version names the reader of what follows it. -/
theorem decode_of_version {network app : Bytes32} {isEscrow : Bool}
    (hlength : HEADER_BYTES ≤ bytes.length) (htype : bytes.extract 0 4 = toBeBytes 4 TYPE_COIN_DELIVERY)
    (hversion : bytes.extract 4 12 = if isEscrow then ESCROW_DELIVERY_VERSION else DELIVERY_VERSION) :
    decode bytes network app = (reader network app isEscrow).whole (invalid "trailing bytes") (bytes.drop 12) := by
  rw [decode, if_neg (by rw [not_or, not_lt, not_not]; exact ⟨hlength, htype⟩), hversion]
  cases isEscrow <;> rfl

/-- A delivery is read, for its own network and application, exactly from the one string the encoder gives. -/
theorem decode_eq_ok {network app : Bytes32} {delivery : CoinDelivery} : decode bytes network app = .ok delivery ↔
      delivery.network = network ∧ delivery.application = app ∧ delivery.encode = .ok bytes := by
  rw [encode_eq_ok_iff]
  constructor
  · intro h
    have henvelope : HEADER_BYTES ≤ bytes.length ∧ bytes.extract 0 4 = toBeBytes 4 TYPE_COIN_DELIVERY ∧
        ∃ isEscrow : Bool, bytes.extract 4 12 = if isEscrow then ESCROW_DELIVERY_VERSION else DELIVERY_VERSION := by
      rw [decode] at h
      split at h
      · cases h
      next hstart =>
      rw [not_or, not_lt, not_not] at hstart
      refine ⟨hstart.1, hstart.2, ?_⟩
      split at h
      · next hversion => exact ⟨false, hversion⟩
      split at h
      · next hversion => exact ⟨true, hversion⟩
      · cases h
    obtain ⟨hlength, htype, isEscrow, hversion⟩ := henvelope
    rw [decode_of_version hlength htype hversion, (reads network app isEscrow).whole_iff] at h
    obtain ⟨⟨hnetwork, happlication, rfl, hsized, hproof⟩, hbody⟩ := h
    refine ⟨hnetwork, happlication, hsized, hproof, ?_⟩
    rw [version, ← hbody, ← htype, ← hversion, extract_append_drop _ (by decide), extract_append_drop _ (by decide),
      drop_zero]
  · rintro ⟨hnetwork, happlication, hsized, hproof, hbytes⟩
    obtain ⟨htype, hafter⟩ := extract_of_drop (i := 0) hbytes
    obtain ⟨hversion, hbody⟩ := extract_of_drop hafter
    rw [length_toBeBytes, length_version] at hversion hbody
    have hlength : HEADER_BYTES ≤ bytes.length := by
      have hfour : (toBeBytes 4 TYPE_COIN_DELIVERY).length = 4 := length_toBeBytes _ _
      have hheader : HEADER_BYTES = 181 := rfl
      have := length_body delivery
      rw [hbytes, length_append, length_append, hfour, length_version]
      omega
    rw [decode_of_version hlength htype hversion, (reads _ _ _).whole_iff]
    exact ⟨⟨hnetwork, happlication, rfl, hsized, hproof⟩, hbody⟩

end CoinDelivery

/-! ### Encoders and decoders together -/

/-- Every string a decoder accepts is the encoding of what it returns; and what an encoder writes is read back: a
    claim that names what a claim must name, a delivery for its own network and application, a list of entries in
    its order, and a relay of frames in the carrying header's window, without its empty frames. -/
theorem settlement_codecs_agree :
    (∀ (claim : SettlementClaim) (bytes : List UInt8),
      SettlementClaim.decode bytes = .ok claim ↔ claim.Admissible ∧ claim.encode = .ok bytes) ∧
    (∀ (delivery : CoinDelivery) (bytes : List UInt8) (network app : Bytes32),
      CoinDelivery.decode bytes network app = .ok delivery ↔
        delivery.network = network ∧ delivery.application = app ∧ delivery.encode = .ok bytes) ∧
    (∀ (entries : List GlobalRecords.SettlementEntry) (bytes : List UInt8),
      ((∀ e ∈ entries, InRange e) → encodeEntries entries = .ok bytes →
        decodeEntries bytes = .ok (sorted entries)) ∧
      (decodeEntries bytes = .ok entries → sorted entries = entries ∧ encodeEntries entries = .ok bytes)) ∧
    ∀ (headerFrame : ℕ) (frames : Relay) (bytes : List UInt8),
      ((∀ r ∈ entriesOf frames, RelayedInRange r ∧ InWindow headerFrame r.1) → encodeRelay frames = .ok bytes →
        decodeRelay headerFrame bytes = .ok (relayed frames)) ∧
      (decodeRelay headerFrame bytes = .ok frames →
        relayed frames = frames ∧ encodeRelay frames = .ok bytes) := by
  refine ⟨fun claim bytes => SettlementClaim.decode_eq_ok,
    fun delivery bytes network app => CoinDelivery.decode_eq_ok, fun entries bytes => ⟨?_, ?_⟩,
    fun headerFrame frames bytes => ⟨?_, ?_⟩⟩
  · intro hrange h
    obtain ⟨hcanonical, rfl⟩ := encodeEntries_eq_ok.1 h
    exact decodeEntries_eq_ok.2 ⟨fun e he => hrange e (mem_sorted.1 he), hcanonical, rfl⟩
  · intro h
    obtain ⟨-, hcanonical, rfl⟩ := decodeEntries_eq_ok.1 h
    have hsorted := sorted_of_canonical hcanonical
    exact ⟨hsorted, encodeEntries_eq_ok.2 ⟨hsorted.symm ▸ hcanonical, by rw [hsorted]⟩⟩
  · intro hrange h
    exact decodeRelay_of_encodeRelay hrange h
  · intro h
    exact encodeRelay_of_decodeRelay h

/-- A claim of a settlement that names a bundle of `application`. -/
def claimOn (app : Bytes32) : SettlementClaim :=
  ⟨1, app, 7, 2, 3, 5, 4, 0, 0, 0, [], [], [0xaa]⟩

/-- A settlement of `amount` with `receipt` that names a bundle. -/
def settled (receipt : Bytes32) (amount : ℕ) : GlobalRecords.SettlementEntry :=
  ⟨receipt, 1, 2, 3, amount, 0, 0, 0⟩

/-- The delivery of an escrow record from the whole shard. -/
def escrowOf (blob : List UInt8) : CoinDelivery :=
  ⟨1, 2, 9, 3, 64, 0, 8, 4, ⟨⟨0, 0⟩, by decide⟩, .escrow blob, [7, 7]⟩

theorem settlement_codecs_agree_sample :
    CoinDelivery.decode ((escrowOf [5, 6]).encode.toOption.getD []) 1 2 = .ok (escrowOf [5, 6]) ∧
    SettlementClaim.decode ((claimOn 9).encode.toOption.getD []) = .ok (claimOn 9) ∧
    decodeEntries ((encodeEntries [settled 8 1, settled 6 2]).toOption.getD []) = .ok [settled 6 2, settled 8 1] ∧
    decodeRelay 9 ((encodeRelay [(7, []), (8, [settled 8 1, settled 6 2])]).toOption.getD []) =
      .ok [(8, [settled 6 2, settled 8 1])] := by
  obtain ⟨hclaim, hdelivery, hentries, hrelay⟩ := settlement_codecs_agree
  refine ⟨(hdelivery _ _ _ _).2 ⟨rfl, rfl, by decide +kernel⟩, (hclaim _ _).2 ⟨⟨by decide, by decide, by decide, by decide, by decide, by decide⟩, by decide +kernel⟩,
    ((hentries [settled 8 1, settled 6 2] _).1 (by decide +kernel) (by decide +kernel)).trans (by decide +kernel),
    ((hrelay 9 [(7, []), (8, [settled 8 1, settled 6 2])] _).1 (by decide +kernel) (by decide +kernel)).trans
      (by decide +kernel)⟩

/-- A claim on the QUIL token itself is written and not read, and entries come back in another order. -/
theorem written_not_read_back :
    (claimOn QUIL_TOKEN).encode.isOk = true ∧
    ((claimOn QUIL_TOKEN).encode >>= SettlementClaim.decode) =
      .error (SettlementClaims.invalid "zero settlement or invalid destination") ∧
    (encodeEntries [settled 8 1, settled 6 2] >>= decodeEntries) = .ok [settled 6 2, settled 8 1] := by
  decide +kernel

end Quil.DeliveryEncoding
