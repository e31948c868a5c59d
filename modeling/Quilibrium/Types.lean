import Quilibrium.Schemes.BitPath
import Quilibrium.Schemes.Codec

/-! The shared types of the execution layer: 32-byte strings, the error type, and the data-address bit path of the
    shard a frame executes on (`quil-types/src/execution.rs`). A 32-byte string is a 256-bit vector read big-endian,
    so byte `i` is bits `8 i .. 8 i + 8` counted from the most significant one, and "the leading bits of an address"
    are its most significant bits. A `u64` is a natural number, and the operations of it that saturate say so. -/

namespace Quil
open Schemes List

/-- A `[u8; 32]`, big-endian: an application, an address, a marker, a transaction id. -/
abbrev Bytes32 := BitVec 256

/-- The errors the modelled functions raise, by the variant of the source's enum. -/
inductive QuilError where
  | store (message : String)
  | execution (message : String)
  | executionUnavailable (message : String)
  | serialization (message : String)
  | invalidArgument (message : String)
  | notFound (message : String)
  | internal (message : String)
  | invalidSignature (message : String)
deriving DecidableEq, Repr

/-- An error as it is shown. -/
def QuilError.display : QuilError → String
  | .store message => s!"store error: {message}"
  | .execution message => s!"execution error: {message}"
  | .executionUnavailable message => s!"execution unavailable: {message}"
  | .serialization message => s!"serialization error: {message}"
  | .invalidArgument message => s!"invalid argument: {message}"
  | .notFound message => s!"not found: {message}"
  | .internal message => s!"internal error: {message}"
  | .invalidSignature message => s!"invalid signature: {message}"

/-! ### 32-byte strings as bytes -/

/-- The bytes of a 32-byte string. -/
def bytes32 (a : Bytes32) : List UInt8 := toBeBytes 32 a.toNat

/-- The 32-byte string of 32 bytes. -/
def array32 (bytes : List UInt8) : Bytes32 := BitVec.ofNat 256 (ofBeBytes bytes)

@[simp] theorem length_bytes32 (a : Bytes32) : (bytes32 a).length = 32 := length_toBeBytes _ _

theorem array32_bytes32 (a : Bytes32) : array32 (bytes32 a) = a := by
  rw [array32, bytes32, ofBeBytes_toBeBytes (a.isLt.trans_eq (by norm_num)), BitVec.ofNat_toNat, BitVec.setWidth_eq]

theorem bytes32_array32 {l : List UInt8} (h : l.length = 32) : bytes32 (array32 l) = l := by
  have hlt := ofBeBytes_lt l
  have hback := toBeBytes_ofBeBytes l
  rw [h] at hlt hback
  rw [bytes32, array32, BitVec.toNat_ofNat, Nat.mod_eq_of_lt (hlt.trans_eq (by norm_num)), hback]

section
variable {ε : Type} (e : ε)

/-- The next 32 bytes. -/
def readArray32 : Reader ε Bytes32 := Reader.word e 32

theorem reads_array32 : Reads (readArray32 e) bytes32 fun _ => True := Reads.word e 32

theorem array32_drop_append {l m : List UInt8} {i : ℕ} (h : i + 32 ≤ l.length) :
    readArray32 e (l.drop i ++ m) = .ok (array32 (l.extract i (i + 32)), l.drop (i + 32) ++ m) :=
  word_drop_append e h

end

/-! ### Leading bits -/

/-- The leading `n` bits of an address. -/
def leadingBits {w : ℕ} (a : BitVec w) (n : ℕ) : List Bool := (List.range n).map a.getMsbD

variable {w : ℕ}

@[simp] theorem length_leadingBits (a : BitVec w) (n : ℕ) : (leadingBits a n).length = n := by simp [leadingBits]

/-- A path begins an address exactly when the address's bits are the path's. -/
theorem prefix_leadingBits (p : List Bool) (a : BitVec w) (n : ℕ) (hn : p.length ≤ n) :
    p <+: leadingBits a n ↔ ∀ i < p.length, a.getMsbD i = p.getD i false := by
  rw [prefix_iff_eq_take]
  constructor
  · intro h i hi
    rw [h, getD_eq_getElem?_getD, getElem?_take, if_pos hi]
    simp [leadingBits, show i < n by omega]
  · intro h
    refine ext_getElem (by simp [hn]) fun i hi hi' => ?_
    have := h i hi
    simp only [getD_eq_getElem?_getD, getElem?_eq_getElem hi, Option.getD_some] at this
    simp [leadingBits, this]

/-! ### Saturating 64-bit arithmetic -/

def u64Max : ℕ := 2 ^ 64 - 1

def saturatingAdd (a b : ℕ) : ℕ := min (a + b) u64Max

def saturatingMul (a b : ℕ) : ℕ := min (a * b) u64Max

theorem saturatingAdd_le (a b : ℕ) : saturatingAdd a b ≤ a + b := min_le_left _ _

/-- Saturation only helps an upper bound by parts. -/
theorem saturatingAdd_subadd {a b a₁ a₂ b₁ b₂ : ℕ} (ha : a ≤ a₁ + a₂) (hb : b ≤ b₁ + b₂) :
    saturatingAdd a b ≤ saturatingAdd a₁ b₁ + saturatingAdd a₂ b₂ := by
  unfold saturatingAdd
  omega

theorem saturatingAdd_mono {a b c d : ℕ} (h : a ≤ c) (h' : b ≤ d) :
    saturatingAdd a b ≤ saturatingAdd c d := min_le_min_right _ (add_le_add h h')

/-! ### Packing a path into the top of a word -/

/-- The bits of a path left-aligned in a `w`-bit word. -/
def packBits (w : ℕ) (bits : List Bool) : BitVec w :=
  bits.zipIdx.foldl (fun acc bi => if bi.1 then acc ||| (1#w <<< (w - 1 - bi.2)) else acc) 0

theorem packBits_concat (w : ℕ) (p : List Bool) (b : Bool) : packBits w (p ++ [b]) =
      if b then packBits w p ||| (1#w <<< (w - 1 - p.length)) else packBits w p := by
  simp [packBits, zipIdx_append, foldl_append]

theorem getMsbD_one_shiftLeft {n i : ℕ} (hn : n < w) (hi : i < w) :
    (1#w <<< (w - 1 - n)).getMsbD i = decide (i = n) := by
  rw [BitVec.getMsbD_eq_getLsbD, BitVec.getLsbD_shiftLeft, BitVec.getLsbD_one]
  rcases Nat.lt_trichotomy i n with h | h | h
  · simp [hi, ne_of_lt h]; omega
  · subst h; simp [hi]; omega
  · simp [hi, ne_of_gt h]; omega

/-- The word holds the path's bits in order. -/
theorem getMsbD_packBits (p : List Bool) (hp : p.length ≤ w) (i : ℕ) (hi : i < w) :
    (packBits w p).getMsbD i = p.getD i false := by
  induction p using reverseRecOn with
  | nil => simp [packBits]
  | append_singleton p b ih =>
    rw [length_append, length_singleton] at hp
    have hlast : (p ++ [b]).getD i false = (p.getD i false || (b && decide (i = p.length))) := by
      rcases Nat.lt_trichotomy i p.length with h | h | h
      · simp [getElem?_append_left h, ne_of_lt h]
      · simp [h]
      · simp [getElem?_append_right h.le, ne_of_gt h, Nat.sub_ne_zero_of_lt h, getElem?_eq_none h.le]
    rw [packBits_concat, hlast, ← ih (by omega)]
    cases b with
    | false => simp
    | true => simp [getMsbD_one_shiftLeft (show p.length < w by omega) hi]

/-! ### Shard paths -/

/-- The bit path of a shard, left-aligned in a 64-bit word. -/
structure ShardPath where
  bits : BitVec 64
  len : ℕ
deriving DecidableEq, Repr

namespace ShardPath

/-- Longest path a shard can carry. -/
def maxBits : ℕ := 64

/-- A shard holding the whole application. -/
def whole : ShardPath := ⟨0, 0⟩

/-- A shard whose filter could not be decoded. -/
def unknown : ShardPath := ⟨0, 255⟩

/-- The path of `bits`; `unknown` if it is longer than can be held. -/
def fromBits (bits : List Bool) : ShardPath :=
  if bits.length > maxBits then unknown else ⟨packBits 64 bits, bits.length⟩

/-- Whether `address` lies in this shard's range: its leading bits are the path. -/
def covers {w : ℕ} (self : ShardPath) (address : BitVec w) : Bool :=
  if self.len > maxBits ∨ w < self.len then false
  else (List.range self.len).all fun i => address.getMsbD i == self.bits.getMsbD i

/-- The path's bits, or `none` for `unknown`. -/
def toBits (self : ShardPath) : Option (List Bool) :=
  if self.len > maxBits then none else some ((List.range self.len).map self.bits.getMsbD)

/-- A shard covers exactly the addresses that begin with its path. -/
theorem covers_fromBits (p : List Bool) (hp : p.length ≤ 64) (a : BitVec w) (n : ℕ) (hpn : p.length ≤ n)
    (hw : p.length ≤ w) : (fromBits p).covers a = true ↔ p <+: leadingBits a n := by
  have hlen : ¬ p.length > maxBits := by simp [maxBits]; omega
  rw [prefix_leadingBits p a n hpn, fromBits, if_neg hlen, covers, if_neg (by simp; omega), all_eq_true]
  simp only [mem_range, beq_iff_eq]
  refine forall₂_congr fun i hi => ?_
  rw [getMsbD_packBits p hp i (by omega)]

end ShardPath
end Quil
