import Quilibrium.Token.SettlementRecords

/-! The claim that spends a settlement record (`token_intrinsic/settlement_claim.rs`) and its bytes: a part of
    FIXED length read at its positions, then the claimant's key, its signature and the membership proof, whose
    lengths the fixed part gives. The encoder checks the sizes and the amount; the decoder also what a claim has
    to name, so a claim is read back exactly when it names a destination, a payment and ONE binding. -/

namespace Quil.SettlementClaims
open Schemes ReadsIn

def TYPE_SETTLEMENT_CLAIM : ℕ := 0x0519
def VERSION : List UInt8 := [0x51, 0x43, 0x54, 0x33, 0x53, 0x43, 0x00, 0x02]
/-- Bytes of the fixed part, the envelope included. -/
def FIXED_BYTES : ℕ := 4 + 8 + 32 + 32 + 8 + 32 + 32 + 16 + 32 + 32 + 16 + 4 + 2 + 2 + 4
def MAX_REWARD_PROOF_BYTES : ℕ := 32 * 1024
def MAX_CLAIMANT_KEY_BYTES : ℕ := 1024
def MAX_CLAIMANT_SIGNATURE_BYTES : ℕ := 1024

/-- The application of the QUIL token. -/
def QUIL_TOKEN : Bytes32 := 0x11558584af7017a9bfd1ff1864302d643fbe58c62dcf90cbcd8fde74a26794d9#256
/-- The address of global state. -/
def GLOBAL : Bytes32 := BitVec.allOnes 256

def invalid (message : String) : QuilError := .invalidArgument ("settlement claim: " ++ message)

structure SettlementClaim where
  network : Bytes32
  application : Bytes32
  citedGlobalFrame : BitVec 64
  globalRoot : Bytes32
  receipt : Bytes32
  settlement : BitVec 128
  context : Bytes32
  paymentAddress : Bytes32
  payment : BitVec 128
  claimantKeyType : BitVec 32
  claimantPublicKey : List UInt8
  claimantSignature : List UInt8
  forestProof : List UInt8
deriving DecidableEq, Repr

namespace SettlementClaim

/-- Whether the claim names a pre-funded settlement's claimant key. -/
def isPrefunded (claim : SettlementClaim) : Bool := !claim.claimantPublicKey.isEmpty

/-- The fixed part after the envelope. -/
def fixedBytes (claim : SettlementClaim) : List UInt8 :=
  bytes32 claim.network ++ (bytes32 claim.application ++ (leBytes 8 claim.citedGlobalFrame.toNat ++
    (bytes32 claim.globalRoot ++ (bytes32 claim.receipt ++ (leBytes 16 claim.settlement.toNat ++
    (bytes32 claim.context ++ (bytes32 claim.paymentAddress ++ (leBytes 16 claim.payment.toNat ++
    (leBytes 4 claim.claimantKeyType.toNat ++ (leBytes 2 claim.claimantPublicKey.length ++
    (leBytes 2 claim.claimantSignature.length ++ leBytes 4 claim.forestProof.length)))))))))))

def encode (claim : SettlementClaim) : Except QuilError (List UInt8) :=
  if claim.forestProof.length > MAX_REWARD_PROOF_BYTES ∨ claim.settlement = 0 then
    .error (invalid "oversized proof or zero settlement")
  else if claim.claimantPublicKey.length > MAX_CLAIMANT_KEY_BYTES ∨
      claim.claimantSignature.length > MAX_CLAIMANT_SIGNATURE_BYTES then
    .error (invalid "oversized claimant")
  else
    .ok (toBeBytes 4 TYPE_SETTLEMENT_CLAIM ++ (VERSION ++ (claim.fixedBytes ++
      (claim.claimantPublicKey ++ (claim.claimantSignature ++ claim.forestProof)))))

/-- The decoder's checks of what a claim names. -/
def checkNamed (claim : SettlementClaim) : Except QuilError SettlementClaim :=
  if claim.settlement = 0 ∨ claim.application = QUIL_TOKEN ∨ claim.application = GLOBAL ∨
      ¬ (claim.payment = 0 ↔ claim.paymentAddress = 0) then
    .error (invalid "zero settlement or invalid destination")
  else if ¬ (claim.context = 0 ↔ claim.isPrefunded) ∨ (claim.isPrefunded ∧ claim.claimantSignature = []) ∨
      (¬ claim.isPrefunded ∧ (claim.claimantKeyType ≠ 0 ∨ claim.claimantSignature ≠ [])) then
    .error (invalid "a claim binds either a context or a claimant")
  else .ok claim

def decode (bytes : List UInt8) : Except QuilError SettlementClaim :=
  if bytes.length < FIXED_BYTES ∨ bytes.extract 0 4 ≠ toBeBytes 4 TYPE_SETTLEMENT_CLAIM ∨
      bytes.extract 4 12 ≠ VERSION then
    .error (invalid "invalid envelope")
  else
    let keyLen := ofLeBytes (bytes.extract 248 250)
    let signatureLen := ofLeBytes (bytes.extract 250 252)
    let proofLen := ofLeBytes (bytes.extract (FIXED_BYTES - 4) FIXED_BYTES)
    if proofLen > MAX_REWARD_PROOF_BYTES ∨ keyLen > MAX_CLAIMANT_KEY_BYTES ∨
        signatureLen > MAX_CLAIMANT_SIGNATURE_BYTES ∨
        bytes.length ≠ FIXED_BYTES + keyLen + signatureLen + proofLen then
      .error (invalid "invalid proof length")
    else
      let keyAt := FIXED_BYTES
      let signatureAt := keyAt + keyLen
      let proofAt := signatureAt + signatureLen
      let claim : SettlementClaim :=
        { network := array32 (bytes.extract 12 44)
          application := array32 (bytes.extract 44 76)
          citedGlobalFrame := BitVec.ofNat 64 (ofLeBytes (bytes.extract 76 84))
          globalRoot := array32 (bytes.extract 84 116)
          receipt := array32 (bytes.extract 116 148)
          settlement := BitVec.ofNat 128 (ofLeBytes (bytes.extract 148 164))
          context := array32 (bytes.extract 164 196)
          paymentAddress := array32 (bytes.extract 196 228)
          payment := BitVec.ofNat 128 (ofLeBytes (bytes.extract 228 244))
          claimantKeyType := BitVec.ofNat 32 (ofLeBytes (bytes.extract 244 248))
          claimantPublicKey := bytes.extract keyAt signatureAt
          claimantSignature := bytes.extract signatureAt proofAt
          forestProof := bytes.drop proofAt }
      claim.checkNamed

/-- What the decoder asks of a claim beyond what the encoder asks: a destination other than the QUIL token and
    global state, a payment exactly with its address, and either a context or a claimant with a signature. -/
structure Admissible (claim : SettlementClaim) : Prop where
  not_token : claim.application ≠ QUIL_TOKEN
  not_global : claim.application ≠ GLOBAL
  payment : claim.payment = 0 ↔ claim.paymentAddress = 0
  one_binding : claim.context = 0 ↔ claim.isPrefunded
  signed : claim.isPrefunded → claim.claimantSignature ≠ []
  unclaimed : ¬ claim.isPrefunded → claim.claimantKeyType = 0 ∧ claim.claimantSignature = []

/-! ### The fixed part -/

/-- The fixed part, with the lengths of the rest. -/
structure Fixed where
  network : Bytes32
  application : Bytes32
  citedGlobalFrame : BitVec 64
  globalRoot : Bytes32
  receipt : Bytes32
  settlement : BitVec 128
  context : Bytes32
  paymentAddress : Bytes32
  payment : BitVec 128
  claimantKeyType : BitVec 32
  keyLen : ℕ
  signatureLen : ℕ
  proofLen : ℕ

/-- The fixed part of a claim. -/
def fixed (claim : SettlementClaim) : Fixed :=
  ⟨claim.network, claim.application, claim.citedGlobalFrame, claim.globalRoot, claim.receipt, claim.settlement,
    claim.context, claim.paymentAddress, claim.payment, claim.claimantKeyType, claim.claimantPublicKey.length,
    claim.claimantSignature.length, claim.forestProof.length⟩

namespace Fixed

/-- The lengths are those the bytes have room for. -/
def InRange (fixed : Fixed) : Prop :=
  fixed.keyLen < 256 ^ 2 ∧ fixed.signatureLen < 256 ^ 2 ∧ fixed.proofLen < 256 ^ 4

def bytes (fixed : Fixed) : List UInt8 :=
  bytes32 fixed.network ++ (bytes32 fixed.application ++ (leBytes 8 fixed.citedGlobalFrame.toNat ++
    (bytes32 fixed.globalRoot ++ (bytes32 fixed.receipt ++ (leBytes 16 fixed.settlement.toNat ++
    (bytes32 fixed.context ++ (bytes32 fixed.paymentAddress ++ (leBytes 16 fixed.payment.toNat ++
    (leBytes 4 fixed.claimantKeyType.toNat ++ (leBytes 2 fixed.keyLen ++ (leBytes 2 fixed.signatureLen ++
    leBytes 4 fixed.proofLen)))))))))))

/-- What a string holds at the positions of the fixed part. -/
def ofBytes (bytes : List UInt8) : Fixed where
  network := array32 (bytes.extract 12 44)
  application := array32 (bytes.extract 44 76)
  citedGlobalFrame := BitVec.ofNat 64 (ofLeBytes (bytes.extract 76 84))
  globalRoot := array32 (bytes.extract 84 116)
  receipt := array32 (bytes.extract 116 148)
  settlement := BitVec.ofNat 128 (ofLeBytes (bytes.extract 148 164))
  context := array32 (bytes.extract 164 196)
  paymentAddress := array32 (bytes.extract 196 228)
  payment := BitVec.ofNat 128 (ofLeBytes (bytes.extract 228 244))
  claimantKeyType := BitVec.ofNat 32 (ofLeBytes (bytes.extract 244 248))
  keyLen := ofLeBytes (bytes.extract 248 250)
  signatureLen := ofLeBytes (bytes.extract 250 252)
  proofLen := ofLeBytes (bytes.extract (FIXED_BYTES - 4) FIXED_BYTES)

def reader : Reader Unit Fixed := do
  let network ← readArray32 ()
  let application ← readArray32 ()
  let citedGlobalFrame ← Reader.wordLe () 8
  let globalRoot ← readArray32 ()
  let receipt ← readArray32 ()
  let settlement ← Reader.wordLe () 16
  let context ← readArray32 ()
  let paymentAddress ← readArray32 ()
  let payment ← Reader.wordLe () 16
  let claimantKeyType ← Reader.wordLe () 4
  let keyLen ← Reader.le () 2
  let signatureLen ← Reader.le () 2
  let proofLen ← Reader.le () 4
  return ⟨network, application, citedGlobalFrame, globalRoot, receipt, settlement, context, paymentAddress,
    payment, claimantKeyType, keyLen, signatureLen, proofLen⟩

theorem reads : Reads reader bytes InRange := by
  have hfields : ReadsIn reader _ (fun _ => True) _ :=
    field (reads_array32 ()) network fun _ _ =>
    field (reads_array32 ()) application fun _ _ =>
    field (Reads.wordLe () 8) citedGlobalFrame fun _ _ =>
    field (reads_array32 ()) globalRoot fun _ _ =>
    field (reads_array32 ()) receipt fun _ _ =>
    field (Reads.wordLe () 16) settlement fun _ _ =>
    field (reads_array32 ()) context fun _ _ =>
    field (reads_array32 ()) paymentAddress fun _ _ =>
    field (Reads.wordLe () 16) payment fun _ _ =>
    field (Reads.wordLe () 4) claimantKeyType fun _ _ =>
    field (Reads.le () 2) keyLen fun _ _ =>
    field (Reads.le () 2) signatureLen fun _ _ =>
    field (Reads.le () 4) proofLen fun _ _ =>
    done fun fixed => by cases fixed; simp [and_assoc]
  refine hfields.reads.congr (fun fixed => ?_) fun fixed _ => by simp only [bytes, List.append_nil]
  simp [InRange]

theorem reader_drop (bytes : List UInt8) (h : FIXED_BYTES ≤ bytes.length) :
    reader (bytes.drop 12) = .ok (ofBytes bytes, bytes.drop FIXED_BYTES) := by
  rw [FIXED_BYTES] at h ⊢
  have hread : reader (bytes.drop 12 ++ []) = .ok (ofBytes bytes, bytes.drop 256 ++ []) := by
    simp (disch := omega) only [reader, Reader.bind_apply, array32_drop_append, le_drop_append, wordLe_drop_append,
      ok_bind, Reader.pure_apply, Nat.reduceAdd]
    rfl
  simpa only [List.append_nil] using hread

/-- The claim of a fixed part and what follows it. -/
def claim (fixed : Fixed) (bytes : List UInt8) : SettlementClaim where
  network := fixed.network
  application := fixed.application
  citedGlobalFrame := fixed.citedGlobalFrame
  globalRoot := fixed.globalRoot
  receipt := fixed.receipt
  settlement := fixed.settlement
  context := fixed.context
  paymentAddress := fixed.paymentAddress
  payment := fixed.payment
  claimantKeyType := fixed.claimantKeyType
  claimantPublicKey := bytes.extract FIXED_BYTES (FIXED_BYTES + fixed.keyLen)
  claimantSignature := bytes.extract (FIXED_BYTES + fixed.keyLen) (FIXED_BYTES + fixed.keyLen + fixed.signatureLen)
  forestProof := bytes.drop (FIXED_BYTES + fixed.keyLen + fixed.signatureLen)

/-- The sizes the fixed part gives are allowed and those of the string. -/
def Sized (fixed : Fixed) (bytes : List UInt8) : Prop :=
  fixed.proofLen ≤ MAX_REWARD_PROOF_BYTES ∧ fixed.keyLen ≤ MAX_CLAIMANT_KEY_BYTES ∧
    fixed.signatureLen ≤ MAX_CLAIMANT_SIGNATURE_BYTES ∧
    bytes.length = FIXED_BYTES + fixed.keyLen + fixed.signatureLen + fixed.proofLen

variable {bytes : List UInt8}

/-- The claim's own sizes are those it was read by. -/
theorem lengths_claim {fixed : Fixed} (h : fixed.Sized bytes) :
    (fixed.claim bytes).claimantPublicKey.length = fixed.keyLen ∧
      (fixed.claim bytes).claimantSignature.length = fixed.signatureLen ∧
      (fixed.claim bytes).forestProof.length = fixed.proofLen := by
  obtain ⟨-, -, -, hlength⟩ := h
  dsimp only [claim]
  rw [length_extract_of_le (by omega), length_extract_of_le (by omega), List.length_drop]
  omega

theorem fixed_claim {fixed : Fixed} (h : fixed.Sized bytes) : (fixed.claim bytes).fixed = fixed := by
  obtain ⟨hkey, hsignature, hproof⟩ := lengths_claim h
  rw [SettlementClaim.fixed, hkey, hsignature, hproof]
  rfl

@[simp] theorem length_bytes (fixed : Fixed) : fixed.bytes.length = 244 := by simp [bytes]

end Fixed

/-- The envelope of a claim. -/
def Enveloped (bytes : List UInt8) : Prop :=
  FIXED_BYTES ≤ bytes.length ∧ bytes.extract 0 4 = toBeBytes 4 TYPE_SETTLEMENT_CLAIM ∧ bytes.extract 4 12 = VERSION

variable {claim : SettlementClaim}

theorem checkNamed_eq_ok {claim' : SettlementClaim} :
    claim.checkNamed = .ok claim' ↔ claim' = claim ∧ claim.settlement ≠ 0 ∧ claim.Admissible := by
  rw [checkNamed, guard_eq_ok, guard_eq_ok, Except.ok.injEq]
  simp only [not_or, not_and, not_not]
  constructor
  · rintro ⟨⟨hsettlement, htoken, hglobal, hpayment⟩, h, rfl⟩
    exact ⟨rfl, hsettlement, htoken, hglobal, hpayment, h.1, h.2.1, h.2.2⟩
  · rintro ⟨rfl, hsettlement, h⟩
    exact ⟨⟨hsettlement, h.not_token, h.not_global, h.payment⟩, ⟨h.one_binding, h.signed, h.unclaimed⟩, rfl⟩

theorem decode_eq_ok_iff : decode bytes = .ok claim ↔
    Enveloped bytes ∧ (Fixed.ofBytes bytes).Sized bytes ∧ claim = (Fixed.ofBytes bytes).claim bytes ∧
      claim.settlement ≠ 0 ∧ claim.Admissible := by
  rw [decode, guard_eq_ok]
  dsimp only
  rw [guard_eq_ok, checkNamed_eq_ok]
  simp only [not_or, not_lt, not_not]
  constructor
  all_goals
    rintro ⟨henvelope, hsizes, rfl, hnamed⟩
    exact ⟨henvelope, hsizes, rfl, hnamed⟩

/-- The bytes of a claim within the sizes. -/
theorem encode_eq_ok_iff : claim.encode = .ok bytes ↔
    claim.forestProof.length ≤ MAX_REWARD_PROOF_BYTES ∧ claim.settlement ≠ 0 ∧
      claim.claimantPublicKey.length ≤ MAX_CLAIMANT_KEY_BYTES ∧
      claim.claimantSignature.length ≤ MAX_CLAIMANT_SIGNATURE_BYTES ∧
      bytes = toBeBytes 4 TYPE_SETTLEMENT_CLAIM ++ (VERSION ++ (claim.fixed.bytes ++
        (claim.claimantPublicKey ++ (claim.claimantSignature ++ claim.forestProof)))) := by
  rw [encode, guard_eq_ok, guard_eq_ok, Except.ok.injEq]
  simp only [not_or, not_lt, and_assoc, eq_comm]
  rfl

/-- A claim is read exactly from the one string the encoder gives for it. -/
theorem decode_eq_ok : decode bytes = .ok claim ↔ claim.Admissible ∧ claim.encode = .ok bytes := by
  rw [decode_eq_ok_iff, encode_eq_ok_iff]
  constructor
  · rintro ⟨⟨hlength, htype, hversion⟩, hsized, rfl, hsettlement, hadmissible⟩
    have hfixed := Fixed.fixed_claim hsized
    have hbytes := (Fixed.reads.of_read (Fixed.reader_drop _ hlength)).2
    obtain ⟨hkey, hsignature, hproof⟩ := Fixed.lengths_claim hsized
    refine ⟨hadmissible, hproof ▸ hsized.1, hsettlement, hkey ▸ hsized.2.1, hsignature ▸ hsized.2.2.1, ?_⟩
    · rw [hfixed, ← htype, ← hversion]
      dsimp only [Fixed.claim]
      rw [extract_append_drop _ (Nat.le_add_right _ _), extract_append_drop _ (Nat.le_add_right _ _), ← hbytes,
        extract_append_drop _ (by decide), extract_append_drop _ (by decide), List.drop_zero]
  · rintro ⟨hadmissible, hproof, hsettlement, hkey, hsignature, hbytes⟩
    have htype := extract_of_drop (i := 0) hbytes
    have hversion := extract_of_drop (i := 4) htype.2
    have hrange : claim.fixed.InRange := by
      refine ⟨?_, ?_, ?_⟩ <;> dsimp only [fixed, MAX_CLAIMANT_KEY_BYTES, MAX_CLAIMANT_SIGNATURE_BYTES,
        MAX_REWARD_PROOF_BYTES] at * <;> omega
    have hlength : bytes.length = FIXED_BYTES + claim.claimantPublicKey.length + claim.claimantSignature.length +
        claim.forestProof.length := by
      rw [hbytes]
      simp [VERSION, FIXED_BYTES]
      omega
    have hread := Fixed.reader_drop bytes (by omega)
    have hdrop : bytes.drop 12 = _ := hversion.2
    rw [hdrop, Fixed.reads.read_write _ _ hrange] at hread
    obtain ⟨hfixed, hrest⟩ := Prod.mk.inj (Except.ok.inj hread)
    have hkeyAt := extract_of_drop hrest.symm
    have hsignatureAt := extract_of_drop hkeyAt.2
    have hclaim : claim.fixed.claim bytes = claim := by
      dsimp only [Fixed.claim, fixed]
      rw [hkeyAt.1, hsignatureAt.1, hsignatureAt.2]
    rw [← hfixed]
    exact ⟨⟨by omega, htype.1, hversion.1⟩, ⟨hproof, hkey, hsignature, hlength⟩, hclaim.symm, hsettlement,
      hadmissible⟩

end SettlementClaim
end Quil.SettlementClaims
