import Quilibrium.Token.FrontierEncoding
import Quilibrium.Token.NodeEncoding
import Quilibrium.Token.ShardAccumulator

/-! The bytes of a shard's accumulator report (`token_intrinsic/shard_accumulator.rs`). A report without
    attestations has the first version and one with them the second, so neither can be written as the other. The
    decoder reads layers and attestations as pieces of one length each, by counts that must give EXACTLY the
    length of the string, and both sides validate the report. -/

namespace Quil.ShardAccumulator
open Schemes List ReadsIn
open CoinBlocks (MAX_BLOCK_BITS INITIAL_BLOCK_BITS)
open ShardedTree (NodeCodec)

def REPORT_VERSION : List UInt8 := [0x51, 0x43, 0x54, 0x33, 0x41, 0x52, 0x00, 0x01]
/-- A report with attestations. -/
def ATTESTING_REPORT_VERSION : List UInt8 := [0x51, 0x43, 0x54, 0x33, 0x41, 0x52, 0x00, 0x02]
def ATTESTATION_BYTES : ℕ := 8 + 8 + 8

def attestationBytes (a : BlockAttestation) : List UInt8 :=
  toBeBytes 8 a.block ++ (toBeBytes 8 a.coins ++ toBeBytes 8 a.escrows)

def readAttestation (entry : List UInt8) : BlockAttestation where
  block := ofBeBytes (entry.extract 0 8)
  coins := ofBeBytes (entry.extract 8 16)
  escrows := ofBeBytes (entry.extract 16 24)

variable {as : List BlockAttestation}

section
variable {Node : Type} (codec : NodeCodec Node)

/-- Bytes of one width layer. -/
def LAYER_BYTES : ℕ := 1 + 8 + codec.nodeBytes

/-- Longest a report can be. -/
def MAX_REPORT_BYTES : ℕ := 8 + 32 + 1 + MAX_LAYERS * LAYER_BYTES codec + 1 + MAX_LAYERS * ATTESTATION_BYTES

def layerBytes (subtree : SubtreeReport Node) : List UInt8 :=
  toBeBytes 1 subtree.width ++ (toBeBytes 8 subtree.coins ++ codec.toBytes subtree.root)

def readLayer (layer : List UInt8) : Except QuilError (SubtreeReport Node) :=
  match codec.fromBytes (layer.drop 9) with
  | some root => .ok ⟨ofBeBytes (layer.extract 0 1), ofBeBytes (layer.extract 1 9), root⟩
  | none => .error (invalid "malformed root")

namespace ShardReport

/-- What follows the layers: nothing, or the attestations after their count. -/
def attestationsBytes (attestations : List BlockAttestation) : List UInt8 :=
  if attestations.isEmpty then []
  else toBeBytes 1 attestations.length ++ attestations.flatMap attestationBytes

def version (report : ShardReport Node) : List UInt8 :=
  if report.attestations.isEmpty then REPORT_VERSION else ATTESTING_REPORT_VERSION

/-- The bytes of a report. -/
def bytes (report : ShardReport Node) : List UInt8 :=
  report.version ++ (bytes32 report.context ++ (toBeBytes 1 report.subtrees.length ++
    (report.subtrees.flatMap (layerBytes codec) ++ attestationsBytes report.attestations)))

def encode (report : ShardReport Node) : Except QuilError (List UInt8) := do
  report.validate
  return report.bytes codec

/-- The attestations after the layers of a report with the second version. -/
def readAttestations (bytes : List UInt8) (layersEnd : ℕ) : Except QuilError (List BlockAttestation) :=
  if bytes.length ≤ layersEnd then .error (invalid "length does not match its layer count")
  else
    let count := ofBeBytes (bytes.extract layersEnd (layersEnd + 1))
    if count = 0 ∨ bytes.length ≠ layersEnd + 1 + count * ATTESTATION_BYTES then
      .error (invalid "length does not match its attestation count")
    else .ok ((chunksExact ATTESTATION_BYTES (bytes.drop (layersEnd + 1))).map readAttestation)

/-- What follows the layers, by the version of the report. -/
def readTail (bytes : List UInt8) (layersEnd : ℕ) : Except QuilError (List BlockAttestation) :=
  if bytes.extract 0 8 = ATTESTING_REPORT_VERSION then readAttestations bytes layersEnd
  else if bytes.length ≠ layersEnd then .error (invalid "length does not match its layer count")
  else .ok []

def decode (bytes : List UInt8) : Except QuilError (ShardReport Node) :=
  if bytes.length < 8 + 32 + 1 ∨ bytes.length > MAX_REPORT_BYTES codec ∨
      (bytes.extract 0 8 ≠ REPORT_VERSION ∧ bytes.extract 0 8 ≠ ATTESTING_REPORT_VERSION) then
    .error (invalid "malformed envelope")
  else
    let context := array32 (bytes.extract 8 40)
    let layers := ofBeBytes (bytes.extract 40 41)
    let layersEnd := 41 + layers * LAYER_BYTES codec
    do
      let attestations ← readTail bytes layersEnd
      let subtrees ← (chunksExact (LAYER_BYTES codec) (bytes.extract 41 layersEnd)).mapM (readLayer codec)
      let report : ShardReport Node := ⟨context, subtrees, attestations⟩
      report.validate
      return report

end ShardReport

/-! ### Pieces -/

def LayerInRange (subtree : SubtreeReport Node) : Prop := subtree.width < 2 ^ 8 ∧ subtree.coins < 2 ^ 64

instance (subtree : SubtreeReport Node) : Decidable (LayerInRange subtree) := inferInstanceAs (Decidable (_ ∧ _))

def AttestationInRange (a : BlockAttestation) : Prop := a.block < 2 ^ 64 ∧ a.coins < 2 ^ 64 ∧ a.escrows < 2 ^ 64

instance (a : BlockAttestation) : Decidable (AttestationInRange a) := inferInstanceAs (Decidable (_ ∧ _ ∧ _))

/-- The numbers of a report are those the machine holds. -/
structure ReportInRange (report : ShardReport Node) : Prop where
  layers : ∀ subtree ∈ report.subtrees, LayerInRange subtree
  attestations : ∀ a ∈ report.attestations, AttestationInRange a

theorem length_layerBytes (subtree : SubtreeReport Node) : (layerBytes codec subtree).length = LAYER_BYTES codec := by
  simp [layerBytes, LAYER_BYTES, codec.length_toBytes]
  omega

theorem length_attestationBytes (a : BlockAttestation) : (attestationBytes a).length = ATTESTATION_BYTES := by
  simp [attestationBytes, ATTESTATION_BYTES]

def layerReader : Reader QuilError (SubtreeReport Node) := do
  let width ← Reader.be (invalid "malformed root") 1
  let coins ← Reader.be (invalid "malformed root") 8
  let root ← Reader.parse (invalid "malformed root") codec.fromBytes
    (Reader.take (invalid "malformed root") codec.nodeBytes)
  return ⟨width, coins, root⟩

theorem reads_layer : Reads (layerReader codec) (layerBytes codec) LayerInRange := by
  have hroot := (Reads.take (invalid "malformed root") codec.nodeBytes).parse (invalid "malformed root")
    (p := codec.fromBytes) (f := codec.toBytes) (Q := fun _ => True)
    (fun bytes node _ => by
      rw [true_and]
      exact ⟨codec.toBytes_fromBytes bytes node, fun h => h ▸ codec.fromBytes_toBytes node⟩)
    fun node _ => codec.length_toBytes node
  have hfields : ReadsIn (layerReader codec) _ (fun _ => True) _ :=
    field (Reads.be _ 1) SubtreeReport.width fun _ _ =>
    field (Reads.be _ 8) SubtreeReport.coins fun _ _ =>
    field hroot SubtreeReport.root fun _ _ =>
    done fun subtree => by cases subtree; simp [and_assoc]
  exact hfields.reads.congr (fun subtree => by simp [LayerInRange]) fun subtree _ => by
    simp only [layerBytes, append_nil, id]

theorem layerReader_append (c rest : List UInt8) (h : c.length = LAYER_BYTES codec) :
    layerReader codec (c ++ rest) = (·, rest) <$> readLayer codec c := by
  rw [LAYER_BYTES] at h
  have hend : c.drop (9 + codec.nodeBytes) = [] := drop_eq_nil_of_le (by omega)
  have hroot : c.extract 9 (9 + codec.nodeBytes) = c.drop 9 := by
    rw [extract_eq_take_drop, Nat.add_sub_cancel_left, take_of_length_le (by rw [length_drop]; omega)]
  rw [← drop_zero (l := c)]
  simp (disch := omega) only [layerReader, Reader.parse, Reader.decode, Reader.bind_apply, be_drop_append,
    take_drop_append, ok_bind, Nat.reduceAdd, hend, hroot, nil_append]
  rw [drop_zero, readLayer]
  cases codec.fromBytes (c.drop 9) <;> rfl

def attestationReader : Reader Unit BlockAttestation := do
  let block ← Reader.be () 8
  let coins ← Reader.be () 8
  let escrows ← Reader.be () 8
  return ⟨block, coins, escrows⟩

theorem reads_attestation : Reads attestationReader attestationBytes AttestationInRange := by
  have hfields : ReadsIn attestationReader _ (fun _ => True) _ :=
    field (Reads.be _ 8) BlockAttestation.block fun _ _ =>
    field (Reads.be _ 8) BlockAttestation.coins fun _ _ =>
    field (Reads.be _ 8) BlockAttestation.escrows fun _ _ =>
    done fun a => by cases a; simp [and_assoc]
  exact hfields.reads.congr (fun a => by simp [AttestationInRange]) fun a _ => by
    simp only [attestationBytes, append_nil]

theorem attestationReader_append (c rest : List UInt8) (h : c.length = ATTESTATION_BYTES) :
    attestationReader (c ++ rest) = .ok (readAttestation c, rest) := by
  rw [ATTESTATION_BYTES] at h
  have hend : c.drop 24 = [] := drop_eq_nil_of_le h.le
  rw [← drop_zero (l := c)]
  simp (disch := omega) only [attestationReader, Reader.bind_apply, be_drop_append, ok_bind, Reader.pure_apply,
    Nat.reduceAdd, hend, nil_append]
  rfl

/-! ### Whole reports -/

theorem length_flatMap_attestationBytes (as : List BlockAttestation) :
    (as.flatMap attestationBytes).length = as.length * ATTESTATION_BYTES :=
  length_flatMap_of_length fun a _ => length_attestationBytes a

theorem length_flatMap_layerBytes (subtrees : List (SubtreeReport Node)) :
    (subtrees.flatMap (layerBytes codec)).length = subtrees.length * LAYER_BYTES codec :=
  length_flatMap_of_length fun t _ => length_layerBytes codec t

variable {bytes : List UInt8}

/-- The byte at a position, as a number, is the one that stands there. -/
theorem toBeBytes_byteAt {i : ℕ} (h : i < bytes.length) :
    toBeBytes 1 (ofBeBytes (bytes.extract i (i + 1))) = bytes.extract i (i + 1) ∧
      ofBeBytes (bytes.extract i (i + 1)) < 2 ^ 8 := by
  have hone : (bytes.extract i (i + 1)).length = 1 := by
    rw [length_extract_of_le (Nat.add_one_le_iff.2 h), Nat.add_sub_cancel_left]
  have hback := toBeBytes_ofBeBytes (bytes.extract i (i + 1))
  have hlt := ofBeBytes_lt (bytes.extract i (i + 1))
  rw [hone] at hback hlt
  exact ⟨hback, hlt⟩

namespace ShardReport

theorem readAttestations_eq_ok {layersEnd : ℕ} :
    readAttestations bytes layersEnd = .ok as ↔ as ≠ [] ∧ as.length < 2 ^ 8 ∧ (∀ a ∈ as, AttestationInRange a) ∧
      bytes.drop layersEnd = toBeBytes 1 as.length ++ as.flatMap attestationBytes := by
  have hchunks := reads_attestation.chunksExact_iff (n := ATTESTATION_BYTES) (by decide)
    (fun a _ => length_attestationBytes a) attestationReader_append (bytes.drop (layersEnd + 1)) as
  rw [readAttestations]
  constructor
  · intro h
    split at h
    · cases h
    next hstart =>
    rw [not_le] at hstart
    obtain ⟨hbyte, hlt⟩ := toBeBytes_byteAt hstart
    dsimp only at h
    generalize ofBeBytes (bytes.extract layersEnd (layersEnd + 1)) = count at h hbyte hlt
    split at h
    · cases h
    next hcount =>
    rw [not_or, not_not] at hcount
    have hlength : (bytes.drop (layersEnd + 1)).length = count * ATTESTATION_BYTES := by
      rw [length_drop, hcount.2, Nat.add_sub_cancel_left]
    obtain ⟨hrange, hbytes⟩ := hchunks.1 ⟨by rw [hlength, Nat.mul_mod_left], Except.ok.inj h⟩
    have has : as.length = count := by
      rw [hbytes, length_flatMap_attestationBytes] at hlength
      exact Nat.eq_of_mul_eq_mul_right (by decide) hlength
    refine ⟨fun hempty => hcount.1 ?_, has.trans_lt hlt, hrange, ?_⟩
    · rw [← has, hempty]
      rfl
    · rw [← extract_append_drop bytes (Nat.le_succ layersEnd), ← hbytes, has, hbyte]
  · rintro ⟨hfilled, hcount, hrange, hdrop⟩
    obtain ⟨hbyte, hrest⟩ := extract_of_drop hdrop
    rw [length_toBeBytes] at hbyte hrest
    have hlength := congrArg length hdrop
    rw [length_append, length_drop, length_toBeBytes, length_flatMap_attestationBytes] at hlength
    have hpos := length_pos_iff.2 hfilled
    rw [if_neg (by omega), hbyte, ofBeBytes_toBeBytes hcount]
    dsimp only
    rw [if_neg (by omega), (hchunks.2 ⟨hrange, hrest⟩).2]

/-- What follows the layers is read as nothing by the first version and as attestations by the second. -/
theorem readTail_eq_ok {layersEnd : ℕ} :
    readTail bytes layersEnd = .ok as ↔ (bytes.extract 0 8 = ATTESTING_REPORT_VERSION ↔ as ≠ []) ∧
      as.length < 2 ^ 8 ∧ (∀ a ∈ as, AttestationInRange a) ∧ layersEnd ≤ bytes.length ∧
      bytes.drop layersEnd = attestationsBytes as := by
  rw [readTail]
  split
  · next h =>
    rw [readAttestations_eq_ok, iff_true_left h, attestationsBytes]
    constructor
    · rintro ⟨hfilled, hcount, hrange, hdrop⟩
      refine ⟨hfilled, hcount, hrange, ?_, by rw [hdrop, if_neg (by simpa using hfilled)]⟩
      by_contra hshort
      rw [drop_eq_nil_of_le (by omega)] at hdrop
      have hnone := congrArg length hdrop
      rw [length_append, length_toBeBytes, length_nil] at hnone
      omega
    · rintro ⟨hfilled, hcount, hrange, -, hdrop⟩
      exact ⟨hfilled, hcount, hrange, by rw [hdrop, if_neg (by simpa using hfilled)]⟩
  · next h =>
    rw [iff_false_left h, not_not, guard_eq_ok, not_not, Except.ok.injEq]
    constructor
    · rintro ⟨hlength, rfl⟩
      exact ⟨rfl, by decide, forall_mem_nil _, hlength.ge, drop_eq_nil_of_le hlength.le⟩
    · rintro ⟨rfl, -, -, hle, hdrop⟩
      exact ⟨le_antisymm (drop_eq_nil_iff.1 hdrop) hle, rfl⟩

/-- What a valid report has of layers and attestations. -/
theorem lengths_of_validate {report : ShardReport Node} (h : report.validate = .ok ()) :
    report.subtrees.length ≤ MAX_LAYERS ∧ report.attestations.length ≤ MAX_LAYERS := by
  rw [validate, guard_eq_ok, guard_eq_ok, not_or, not_or, not_lt, not_lt] at h
  exact ⟨h.1.2, h.2.1.1⟩

theorem length_version (report : ShardReport Node) : report.version.length = 8 := by
  rw [version]
  split <;> rfl

theorem length_bytes (report : ShardReport Node) : (report.bytes codec).length =
    41 + report.subtrees.length * LAYER_BYTES codec + (attestationsBytes report.attestations).length := by
  rw [bytes, length_append, length_append, length_append, length_append, length_version, length_bytes32,
    length_toBeBytes, length_flatMap_layerBytes]
  omega

theorem length_attestationsBytes_le (h : as.length ≤ MAX_LAYERS) :
    (attestationsBytes as).length ≤ 1 + MAX_LAYERS * ATTESTATION_BYTES := by
  rw [attestationsBytes]
  split
  · exact zero_le
  · rw [length_append, length_toBeBytes, length_flatMap_attestationBytes]
    exact Nat.add_le_add_left (Nat.mul_le_mul_right _ h) _

/-- A report is read exactly from its own bytes, and only if it is valid. -/
theorem decode_eq_ok {report : ShardReport Node} : decode codec bytes = .ok report ↔
    ReportInRange report ∧ report.validate = .ok () ∧ bytes = report.bytes codec := by
  have hpos : 0 < LAYER_BYTES codec := by rw [LAYER_BYTES]; omega
  rw [decode]
  dsimp only
  constructor
  · intro h
    split at h
    · cases h
    next henvelope =>
    simp only [not_or, not_and, not_not, not_lt, ne_eq] at henvelope
    obtain ⟨hstart, -, hversion⟩ := henvelope
    obtain ⟨hbyte, -⟩ := toBeBytes_byteAt (show 40 < bytes.length by omega)
    have hcontext := bytes32_array32 (l := bytes.extract 8 40) (length_extract_of_le (by omega))
    generalize array32 (bytes.extract 8 40) = context at h hcontext
    generalize ofBeBytes (bytes.extract 40 (40 + 1)) = layers at h hbyte
    obtain ⟨as, has, h⟩ := bind_ok h
    obtain ⟨subtrees, hsubtrees, h⟩ := bind_ok h
    obtain ⟨⟨⟩, hvalid, h⟩ := bind_ok h
    cases h
    obtain ⟨hattesting, -, hrange, hend, htail⟩ := readTail_eq_ok.1 has
    have hlength : (bytes.extract 41 (41 + layers * LAYER_BYTES codec)).length = layers * LAYER_BYTES codec := by
      rw [length_extract_of_le hend, Nat.add_sub_cancel_left]
    obtain ⟨hlayers, hbytes⟩ := ((reads_layer codec).chunksExact_mapM_iff hpos (fun t _ => length_layerBytes codec t)
      (layerReader_append codec) _ _).1 ⟨by rw [hlength, Nat.mul_mod_left], hsubtrees⟩
    have hcount : subtrees.length = layers := by
      rw [hbytes, length_flatMap_layerBytes] at hlength
      exact Nat.eq_of_mul_eq_mul_right hpos hlength
    refine ⟨⟨hlayers, hrange⟩, hvalid, ?_⟩
    have hstarts : version ⟨context, subtrees, as⟩ = bytes.extract 0 8 := by
      rw [version]
      cases as with
      | nil => exact (by_contra fun hother => hattesting.1 (hversion (Ne.symm hother)) rfl)
      | cons a as => exact (hattesting.2 (cons_ne_nil _ _)).symm
    rw [ShardReport.bytes, hstarts, hcontext, hcount, hbyte, ← hbytes, ← htail,
      extract_append_drop _ (Nat.le_add_right _ _), extract_append_drop _ (by decide),
      extract_append_drop _ (by decide), extract_append_drop _ (by decide), drop_zero]
  · rintro ⟨⟨hlayers, hrange⟩, hvalid, hbytes⟩
    obtain ⟨hmost, hattested⟩ := lengths_of_validate hvalid
    have hlength := (congrArg List.length hbytes).trans (length_bytes codec report)
    obtain ⟨hversion, hafter⟩ := extract_of_drop (i := 0) hbytes
    rw [length_version] at hversion hafter
    obtain ⟨hcontext, hafter⟩ := extract_of_drop hafter
    obtain ⟨hcount, hafter⟩ := extract_of_drop hafter
    obtain ⟨hsubtrees, htail⟩ := extract_of_drop hafter
    simp only [length_bytes32, length_toBeBytes, length_flatMap_layerBytes, Nat.reduceAdd]
      at hversion hcontext hcount hsubtrees htail
    have hmax : bytes.length ≤ MAX_REPORT_BYTES codec := by
      have hlayersMax := Nat.mul_le_mul_right (LAYER_BYTES codec) hmost
      have htailMax := length_attestationsBytes_le hattested
      rw [hlength, MAX_REPORT_BYTES]
      omega
    have htailOk : readTail bytes (41 + report.subtrees.length * LAYER_BYTES codec) = .ok report.attestations := by
      refine readTail_eq_ok.2 ⟨?_, hattested.trans_lt (by decide), hrange, by omega, htail⟩
      rw [hversion, version, ne_eq, ← List.isEmpty_iff]
      cases report.attestations.isEmpty <;> decide
    have hlayersOk := (((reads_layer codec).chunksExact_mapM_iff hpos (fun t _ => length_layerBytes codec t)
      (layerReader_append codec) _ _).2 ⟨hlayers, hsubtrees⟩).2
    have hversions : report.version = REPORT_VERSION ∨ report.version = ATTESTING_REPORT_VERSION := by
      rw [version]
      split
      · exact .inl rfl
      · exact .inr rfl
    rw [hcontext, hcount, ofBeBytes_toBeBytes (hmost.trans_lt (by decide)), array32_bytes32, htailOk, ok_bind, hlayersOk,
      ok_bind, if_neg]
    · exact bind_eq_ok.2 ⟨(), hvalid, rfl⟩
    rintro (hshort | hlong | ⟨hfirst, hsecond⟩)
    · omega
    · omega
    · rw [hversion] at hfirst hsecond
      exact hversions.elim hfirst hsecond

/-- The reports that are valid are exactly those that have bytes, each one string: what is encoded is decoded to
    the same report, and what is decoded is valid and is encoded to the same string. -/
theorem report_encoding_canonical :
    (∀ report : ShardReport Node, ReportInRange report → report.validate = .ok () →
      (report.encode codec >>= decode codec) = .ok report) ∧
    ∀ (bytes : List UInt8) (report : ShardReport Node), decode codec bytes = .ok report →
      report.validate = .ok () ∧ report.encode codec = .ok bytes := by
  refine ⟨fun report hrange hvalid => ?_, fun bytes report h => ?_⟩
  · have hencode : report.encode codec = .ok (report.bytes codec) := bind_eq_ok.2 ⟨(), hvalid, rfl⟩
    rw [hencode, ok_bind, decode_eq_ok]
    exact ⟨hrange, hvalid, rfl⟩
  · obtain ⟨-, hvalid, rfl⟩ := (decode_eq_ok codec).1 h
    exact ⟨hvalid, bind_eq_ok.2 ⟨(), hvalid, rfl⟩⟩

end ShardReport

end

open NodeEncoding (Node)

/-- A report of two layers that attests two blocks. -/
def sampleReport : ShardReport Node := ⟨5, [⟨8, 3, .zero⟩, ⟨9, 1, .zero⟩], [⟨64, 2, 1⟩, ⟨66, 0, 3⟩]⟩

theorem report_encoding_canonical_sample :
    (sampleReport.encode Node.codec >>= ShardReport.decode Node.codec) = .ok sampleReport ∧
      sampleReport.encode Node.codec = .ok (sampleReport.bytes Node.codec) := by
  obtain ⟨hread, hwritten⟩ := ShardReport.report_encoding_canonical Node.codec
  have hvalid : sampleReport.validate = .ok () := by decide +kernel
  have hdecode := hread sampleReport ⟨by decide +kernel, by decide +kernel⟩ hvalid
  refine ⟨hdecode, (hwritten _ _ ?_).2⟩
  rwa [ShardReport.encode, hvalid, ok_bind, pure_bind] at hdecode

end Quil.ShardAccumulator
