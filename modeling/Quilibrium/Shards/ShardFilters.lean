import Quilibrium.Shards.ShardPaths

/-! A shard's filter on the wire (`quil-forest/src/lib.rs`): the bare application address for a root shard,
    `app ‖ bit_len ‖ packed bits` for a bit path, and `app ‖ level bytes` for a legacy row. The packed form
    is canonical: what is encoded decodes to itself. Also the children a split used to propose
    (`quil-engine/src/shard_rebalancer.rs`): marker bytes appended to the parent's filter. -/

namespace Quil.ShardFilters
open Schemes ShardPaths List

abbrev Bytes := List UInt8

/-- Membership of a filter in a list of filters is decided through this. -/
instance lawfulBEq_bytes : LawfulBEq Bytes := List.instLawfulBEq

/-- Bit `i` of packed bytes, most significant first. -/
def packedBit (packed : Bytes) (i : ℕ) : Bool := (packed.getD (i / 8) 0).toNat.testBit (7 - i % 8)

/-- A bit path in whole bytes, zero-padded. -/
def packBitPath (bitPath : List Bool) : Bytes :=
  (List.range ((bitPath.length + 7) / 8)).map fun j =>
    UInt8.ofNat (value ((List.range 8).map fun k => bitPath.getD (8 * j + k) false))

def encodeShardBitPath (app : Bytes) (bitPath : List Bool) : Bytes :=
  app ++ [UInt8.ofNat (bitPath.length / 256), UInt8.ofNat bitPath.length] ++ packBitPath bitPath

/-- The application and bit path of an encoded filter; `none` when the length does not fit or a padding bit is set. -/
def decodeShardBitPath (filter : Bytes) (appLen : ℕ) : Option (Bytes × List Bool) :=
  if filter.length < appLen + 2 then none
  else
    let n := (filter.getD appLen 0).toNat * 256 + (filter.getD (appLen + 1) 0).toNat
    let nBytes := (n + 7) / 8
    if filter.length ≠ appLen + 2 + nBytes then none
    else
      let packed := filter.drop (appLen + 2)
      if (List.range' n (nBytes * 8 - n)).any (packedBit packed) then none
      else some (filter.take appLen, (List.range n).map (packedBit packed))

def bitPathStartsWith (child parent : List Bool) : Bool :=
  parent.length ≤ child.length ∧ child.take parent.length = parent

/-- A bare application is the root shard, one more byte a genesis shard of six bits a level. -/
def decodeShardFilterOrRoot (filter : Bytes) (appLen : ℕ) : Option (Bytes × List Bool) :=
  if filter.length = appLen then some (filter, [])
  else if appLen < filter.length ∧ filter.length < appLen + 2 then
    some (filter.take appLen, prefixToBits ((filter.drop appLen).map UInt8.toNat) 6)
  else decodeShardBitPath filter appLen

/-- The child is of the same application and its path extends the parent's. -/
def shardFilterExtends (childFilter parentFilter : Bytes) (appLen : ℕ) : Bool :=
  match decodeShardFilterOrRoot childFilter appLen, decodeShardFilterOrRoot parentFilter appLen with
  | some (ca, cb), some (pa, pb) => ca = pa ∧ bitPathStartsWith cb pb
  | _, _ => false

/-- A row's filter. -/
def shardPrefixToFilter (l2 : Bytes) (levels : Levels) : Bytes :=
  match shardBitPathFromPrefix levels with
  | some bits => encodeShardBitPath l2 bits
  | none => l2 ++ levels.map UInt8.ofNat

/-- The markers a split into `factor` children appends. -/
def splitSuffixes (factor : ℕ) : List Bytes :=
  match factor with
  | 4 => [[0x00], [0x40], [0x80], [0xC0]]
  | 8 => [[0x00, 0x00], [0x20, 0x00], [0x40, 0x00], [0x60, 0x00], [0x80, 0x00], [0xA0, 0x00],
      [0xC0, 0x00], [0xE0, 0x00]]
  | _ => [[0x00], [0x80]]

def computeProposedShards (filter : Bytes) (factor : ℕ) : List Bytes :=
  (splitSuffixes factor).map (filter ++ ·)

/-! ### Encoded filters decode -/

theorem bitPathStartsWith_iff {child parent : List Bool} :
    bitPathStartsWith child parent = true ↔ parent <+: child := by
  rw [bitPathStartsWith, decide_eq_true_eq, prefix_iff_eq_take]
  exact ⟨fun h => h.2.symm, fun h => ⟨by rw [h]; exact length_take_le' .., h.symm⟩⟩

theorem packedBit_packBitPath (bitPath : List Bool) {i : ℕ} (hi : i < (bitPath.length + 7) / 8 * 8) :
    packedBit (packBitPath bitPath) i = bitPath.getD i false := by
  have hj : i / 8 < (bitPath.length + 7) / 8 := Nat.div_lt_of_lt_mul (by omega)
  have hk : i % 8 < 8 := Nat.mod_lt _ (by norm_num)
  set byte := (range 8).map fun k => bitPath.getD (8 * (i / 8) + k) false with hbyte
  have hlen : byte.length = 8 := by simp [hbyte]
  have hget : (packBitPath bitPath).getD (i / 8) 0 = UInt8.ofNat (value byte) := by
    simp [packBitPath, getElem?_map, getElem?_range hj, hbyte]
  have hsmall : value byte < 2 ^ 8 := hlen ▸ value_lt byte
  have hnat : (UInt8.ofNat (value byte)).toNat = value byte := by
    rw [UInt8.toNat_ofNat']
    exact Nat.mod_eq_of_lt hsmall
  have hbits := pathOf_value byte hlen
  have hbit : (pathOf 8 (value byte))[i % 8]? = byte[i % 8]? := by rw [hbits]
  rw [packedBit, hget, hnat]
  rw [getElem?_eq_getElem (by simpa using hk), getElem?_eq_getElem (by omega),
    Option.some_inj, getElem_pathOf] at hbit
  rw [show 7 - i % 8 = 8 - 1 - i % 8 by omega, hbit]
  simp only [hbyte, getElem_map, getElem_range]
  rw [Nat.div_add_mod]

@[simp] theorem length_packBitPath (bitPath : List Bool) :
    (packBitPath bitPath).length = (bitPath.length + 7) / 8 := by simp [packBitPath]

theorem length_encode (app : Bytes) (bitPath : List Bool) :
    (encodeShardBitPath app bitPath).length = app.length + 2 + (bitPath.length + 7) / 8 := by
  simp only [encodeShardBitPath, length_append, length_cons, length_nil, length_packBitPath]

/-- The length field holds the path's length in 16 bits. -/
theorem lengthField_encode (app : Bytes) (bitPath : List Bool) :
    ((encodeShardBitPath app bitPath).getD app.length 0).toNat * 256 +
      ((encodeShardBitPath app bitPath).getD (app.length + 1) 0).toNat = bitPath.length % 2 ^ 16 := by
  have hhead : ∀ i, i < 2 → (encodeShardBitPath app bitPath).getD (app.length + i) 0 =
      [.ofNat (bitPath.length / 256), .ofNat bitPath.length].getD i 0 := by
    intro i hi
    simp only [encodeShardBitPath, append_assoc, getD_eq_getElem?_getD]
    rw [getElem?_append_right (by omega), Nat.add_sub_cancel_left, getElem?_append_left (by simpa using hi)]
  have h0 := hhead 0 (by norm_num)
  have h1 := hhead 1 (by norm_num)
  rw [add_zero] at h0
  rw [h0, h1]
  simp only [getD_cons_zero, getD_cons_succ, UInt8.toNat_ofNat']
  omega

/-- An encoded filter decodes to its application and its path. -/
theorem decode_encode {app : Bytes} {bitPath : List Bool} (hlen : bitPath.length < 2 ^ 16) :
    decodeShardBitPath (encodeShardBitPath app bitPath) app.length = some (app, bitPath) := by
  have htotal := length_encode app bitPath
  have hdrop : (encodeShardBitPath app bitPath).drop (app.length + 2) = packBitPath bitPath := by
    rw [encodeShardBitPath, drop_append_of_le_length (by simp), drop_eq_nil_of_le (by simp), nil_append]
  have htake : (encodeShardBitPath app bitPath).take app.length = app := by simp [encodeShardBitPath]
  rw [decodeShardBitPath, if_neg (by omega)]
  simp only [lengthField_encode, Nat.mod_eq_of_lt hlen, hdrop, htake]
  rw [if_neg (by omega), if_neg]
  · refine congrArg (fun p => some (app, p)) (ext_getElem (by simp) fun i hi hi' => ?_)
    rw [getElem_map, getElem_range, packedBit_packBitPath bitPath (by omega), getD_eq_getElem _ _ hi']
  simp only [any_eq_true, not_exists, not_and, Bool.not_eq_true]
  intro i hi
  obtain ⟨hle, hlt⟩ := mem_range'_1.1 hi
  rw [packedBit_packBitPath bitPath (by omega), getD_eq_default _ _ hle]

theorem mapM_levelBit (bits : List Bool) : (bits.map Bool.toNat).mapM levelBit = some bits := by
  induction bits with
  | nil => rfl
  | cons b bits ih => rw [map_cons, mapM_cons, ih]; cases b <;> rfl

@[simp] theorem shardBitPathFromPrefix_bitPath (bits : List Bool) :
    shardBitPathFromPrefix (bitPathToPrefix bits) = some bits := by
  rw [bitPathToPrefix, shardBitPathFromPrefix, if_neg (by simp), mapM_levelBit]

theorem bitPathToPrefix_injective : Function.Injective bitPathToPrefix := fun p q h =>
  Option.some.inj (by rw [← shardBitPathFromPrefix_bitPath p, h, shardBitPathFromPrefix_bitPath])

end Quil.ShardFilters
