import Quilibrium.Shards.Grids

/-! A shard's filter as its NAME (`quil-forest/src/lib.rs`). The filter's bytes are told apart by length and marker
    alone: a bare application, one level byte, or a length field and packed bits. The reader returns the canonical
    path of the root shard, of the 64-way root grid and of every grid of bit paths; of the other legacy grids it does
    not. -/

namespace Quil.FilterNames
open Schemes ShardPaths ShardFilters Grids List UInt8

/-! ### Packed bits -/

theorem uint8_ext {a b : UInt8} (h : ∀ k < 8, a.toNat.testBit (7 - k) = b.toNat.testBit (7 - k)) : a = b := by
  refine UInt8.toNat_inj.1 (Nat.eq_of_testBit_eq fun i => ?_)
  by_cases hi : i < 8
  · have hk := h (7 - i) (by omega)
    rwa [show 7 - (7 - i) = i by omega] at hk
  have hsmall : ∀ c : UInt8, c.toNat.testBit i = false := fun c =>
    Nat.testBit_eq_false_of_lt (c.toNat_lt.trans_le (Nat.pow_le_pow_right (by norm_num) (not_lt.1 hi)))
  rw [hsmall, hsmall]

/-- Packed bytes are their bits. -/
theorem packed_ext {packed packed' : Bytes} (hlen : packed.length = packed'.length)
    (h : ∀ i < packed.length * 8, packedBit packed i = packedBit packed' i) : packed = packed' := by
  refine ext_getElem hlen fun j hj hj' => uint8_ext fun k hk => ?_
  have hbit := h (8 * j + k) (by omega)
  rwa [packedBit, packedBit, show (8 * j + k) / 8 = j by omega, show (8 * j + k) % 8 = k by omega,
    getD_eq_getElem _ _ hj, getD_eq_getElem _ _ hj'] at hbit

/-- A path that the length field cannot count is written and not read. -/
theorem decode_encode_long {app : Bytes} {bitPath : List Bool} (hlen : 2 ^ 16 ≤ bitPath.length) :
    decodeShardBitPath (encodeShardBitPath app bitPath) app.length = none := by
  have htotal := length_encode app bitPath
  have hmod := Nat.mod_lt bitPath.length (show 2 ^ 16 > 0 by norm_num)
  rw [decodeShardBitPath, if_neg (by omega)]
  simp only [lengthField_encode]
  rw [if_pos (by omega)]

/-- What decodes is the encoding of what it decodes to. -/
theorem encode_of_decode {filter app : Bytes} {appLen : ℕ} {bitPath : List Bool}
    (h : decodeShardBitPath filter appLen = some (app, bitPath)) :
    app.length = appLen ∧ bitPath.length < 2 ^ 16 ∧ encodeShardBitPath app bitPath = filter := by
  rw [decodeShardBitPath] at h
  split_ifs at h with hshort
  dsimp only at h
  set n := (filter.getD appLen 0).toNat * 256 + (filter.getD (appLen + 1) 0).toNat with hn
  split_ifs at h with hlen hpad
  cases h
  have hhigh := (filter.getD appLen 0).toNat_lt
  have hlow := (filter.getD (appLen + 1) 0).toNat_lt
  refine ⟨by rw [length_take]; omega, by rw [length_map, length_range]; omega, ?_⟩
  have hfield : [ofNat (n / 256), ofNat n] = (filter.drop appLen).take 2 := by
    have hdrop : filter.drop appLen =
        filter.getD appLen 0 :: filter.getD (appLen + 1) 0 :: filter.drop (appLen + 2) := by
      rw [getD_eq_getElem _ _ (by omega), getD_eq_getElem _ _ (by omega),
        drop_eq_getElem_cons (by omega), drop_eq_getElem_cons (by omega)]
    rw [hdrop, take_succ_cons, take_succ_cons, take_zero]
    congr 1
    · refine UInt8.toNat_inj.1 ?_
      rw [UInt8.toNat_ofNat']
      omega
    congr 1
    refine UInt8.toNat_inj.1 ?_
    rw [UInt8.toNat_ofNat']
    omega
  have hpacked : packBitPath ((range n).map (packedBit (filter.drop (appLen + 2)))) =
      filter.drop (appLen + 2) := by
    have hwidth : (packBitPath ((range n).map (packedBit (filter.drop (appLen + 2))))).length =
        (n + 7) / 8 := by rw [length_packBitPath, length_map, length_range]
    refine packed_ext (by rw [hwidth, length_drop]; omega) fun i hi => ?_
    rw [hwidth] at hi
    rw [packedBit_packBitPath _ (by rw [length_map, length_range]; omega)]
    by_cases hin : i < n
    · rw [getD_eq_getElem _ _ (by rw [length_map, length_range]; exact hin),
        getElem_map, getElem_range]
    -- the padding was checked to be zero
    rw [getD_eq_default _ _ (by rw [length_map, length_range]; omega)]
    simp only [any_eq_true, not_exists, not_and, Bool.not_eq_true] at hpad
    exact (hpad i (mem_range'_1.2 (by omega))).symm
  rw [encodeShardBitPath, hpacked, length_map, length_range, hfield, append_assoc,
    ← drop_drop, take_append_drop, take_append_drop]

/-- Two paths never share an encoding, whatever their lengths. -/
theorem encodeShardBitPath_injective (app : Bytes) : Function.Injective (encodeShardBitPath app) := by
  intro p q h
  rw [encodeShardBitPath, encodeShardBitPath, append_assoc, append_assoc, append_cancel_left_eq] at h
  obtain ⟨hfield, hpacked⟩ := append_inj h rfl
  have hbytes : (p.length + 7) / 8 = (q.length + 7) / 8 := by rw [← length_packBitPath, hpacked, length_packBitPath]
  have hlow : p.length % 2 ^ 8 = q.length % 2 ^ 8 := by
    rw [← toNat_ofNat', ← toNat_ofNat', (cons.inj (cons.inj hfield).2).1]
  refine ext_getElem (by omega) fun i hi hi' => ?_
  have hbit := packedBit_packBitPath p (show i < (p.length + 7) / 8 * 8 by omega)
  rw [hpacked, packedBit_packBitPath q (by omega), getD_eq_getElem _ _ hi, getD_eq_getElem _ _ hi'] at hbit
  exact hbit.symm

/-! ### Rows of one stored form -/

/-- All rows are level bytes, or all are bit paths. -/
def OneForm (rows : List Levels) : Prop :=
  (∀ row ∈ rows, ∀ v ∈ row, v < 256) ∨ ∃ paths : List (List Bool), rows = paths.map bitPathToPrefix

theorem shardPrefixToFilter_small (l2 : Bytes) {row : Levels} (h : ∀ v ∈ row, v < 256) :
    shardPrefixToFilter l2 row = l2 ++ row.map ofNat := by
  rw [shardPrefixToFilter, shardBitPathFromPrefix_small h]

@[simp] theorem shardPrefixToFilter_bitPath (l2 : Bytes) (bits : List Bool) :
    shardPrefixToFilter l2 (bitPathToPrefix bits) = encodeShardBitPath l2 bits := by
  rw [shardPrefixToFilter, shardBitPathFromPrefix_bitPath]

theorem map_ofNat_inj {p q : Levels} (hp : ∀ v ∈ p, v < 256) (hq : ∀ v ∈ q, v < 256)
    (h : p.map ofNat = q.map ofNat) : p = q := by
  have hback : ∀ r : Levels, (∀ v ∈ r, v < 256) → (r.map ofNat).map toNat = r := by
    intro r hr
    rw [map_map]
    refine (map_congr_left fun v hv => ?_).trans (map_id r)
    exact toNat_ofNat_of_lt' (hr v hv)
  rw [← hback p hp, h, hback q hq]

/-- No two rows share a filter. -/
theorem filters_nodup (l2 : Bytes) {rows : List Levels} (hnodup : rows.Nodup) (hform : OneForm rows) :
    (rows.map (shardPrefixToFilter l2)).Nodup := by
  refine hnodup.map_on ?_
  intro p hp q hq h
  rcases hform with hsmall | ⟨paths, rfl⟩
  · rw [shardPrefixToFilter_small l2 (hsmall p hp), shardPrefixToFilter_small l2 (hsmall q hq),
      append_cancel_left_eq] at h
    exact map_ofNat_inj (hsmall p hp) (hsmall q hq) h
  obtain ⟨bits, -, rfl⟩ := mem_map.1 hp
  obtain ⟨bits', -, rfl⟩ := mem_map.1 hq
  rw [shardPrefixToFilter_bitPath, shardPrefixToFilter_bitPath] at h
  rw [encodeShardBitPath_injective l2 h]

/-! ### Reading a filter -/

/-- The grids whose filters the reader is written for: the root shard, the intact 64-way grid of level bytes
    in any order, and complete prefix-free bit paths of lengths that the field can count. -/
inductive ReadGrid : List Levels → Prop
  | root : ReadGrid [[]]
  | ways64 {rows : List Levels} (perm : rows.Perm ((List.range 64).map fun i => [i])) : ReadGrid rows
  | bitPaths {paths : List (List Bool)} (complete : Partition paths)
      (counted : ∀ p ∈ paths, p.length < 2 ^ 16) : ReadGrid (paths.map bitPathToPrefix)

theorem decode_root (l2 : Bytes) : decodeShardFilterOrRoot (shardPrefixToFilter l2 []) l2.length = some (l2, []) := by
  rw [shardPrefixToFilter_small l2 (by simp), decodeShardFilterOrRoot, map_nil, append_nil, if_pos rfl]

theorem decode_levelByte (l2 : Bytes) {i : ℕ} (hi : i < 256) :
    decodeShardFilterOrRoot (shardPrefixToFilter l2 [i]) l2.length = some (l2, pathOf 6 i) := by
  rw [shardPrefixToFilter_small l2 (by simpa using hi), decodeShardFilterOrRoot, if_neg (by simp), if_pos (by simp)]
  simp [prefixToBits, Nat.mod_eq_of_lt hi]

theorem decode_bitPath (l2 : Bytes) {bits : List Bool} (h : bits.length < 2 ^ 16) :
    decodeShardFilterOrRoot (shardPrefixToFilter l2 (bitPathToPrefix bits)) l2.length = some (l2, bits) := by
  have hlen := length_encode l2 bits
  rw [shardPrefixToFilter_bitPath, decodeShardFilterOrRoot, if_neg (by omega), if_neg (by omega), decode_encode h]

/-- Each filter is read as its row's canonical path. -/
theorem ReadGrid.decode {rows : List Levels} (h : ReadGrid rows) (l2 : Bytes) :
    rows.map (fun row => decodeShardFilterOrRoot (shardPrefixToFilter l2 row) l2.length) =
      (canonicalShardBitPaths rows).map fun path => some (l2, path) := by
  cases h with
  | root => exact congrArg (fun x => [x]) (decode_root l2)
  | ways64 perm =>
    rw [canonicalShardBitPaths_eq, map_map]
    refine map_congr_left fun row hrow => ?_
    obtain ⟨i, hi, rfl⟩ := mem_map.1 (perm.mem_iff.1 hrow)
    rw [Function.comp_apply, canonicalPath_congr (fun q => perm.mem_iff), canonicalPath_ways64,
      decode_levelByte l2 ((mem_range.1 hi).trans (by norm_num))]
  | bitPaths complete counted =>
    rw [canonical_bitPaths complete, map_map]
    exact map_congr_left fun p hp => decode_bitPath l2 (counted p hp)

/-- Paths that the length field counts and accepted byte strings are in bijection, rows of one stored form
    have pairwise different filters, and the reader returns the canonical paths of the grids it is for. -/
theorem filters_name_shards :
    (∀ (app : Bytes) (bitPath : List Bool), bitPath.length < 2 ^ 16 →
      decodeShardBitPath (encodeShardBitPath app bitPath) app.length = some (app, bitPath)) ∧
    (∀ (filter app : Bytes) (appLen : ℕ) (bitPath : List Bool),
      decodeShardBitPath filter appLen = some (app, bitPath) →
        app.length = appLen ∧ bitPath.length < 2 ^ 16 ∧ encodeShardBitPath app bitPath = filter) ∧
    (∀ (l2 : Bytes) (rows : List Levels), rows.Nodup → OneForm rows →
      (rows.map (shardPrefixToFilter l2)).Nodup) ∧
    ∀ (l2 : Bytes) (rows : List Levels), ReadGrid rows →
      rows.map (fun row => decodeShardFilterOrRoot (shardPrefixToFilter l2 row) l2.length) =
        (canonicalShardBitPaths rows).map fun path => some (l2, path) := by
  refine ⟨fun app bitPath h => decode_encode h, fun filter app appLen bitPath h => encode_of_decode h,
    fun l2 rows hnodup hform => filters_nodup l2 hnodup hform, fun l2 rows h => h.decode l2⟩

/-- A grid split once and then on one side: written, told apart and read back. -/
theorem filters_name_shards_sample :
    let app : Bytes := replicate 32 0xAB
    let paths := [[true, true], [false], [true, false]]
    decodeShardBitPath (encodeShardBitPath app [true, false]) 32 = some (app, [true, false]) ∧
      encodeShardBitPath app [true] = app ++ [0, 1, 128] ∧
      ((paths.map bitPathToPrefix).map (shardPrefixToFilter app)).Nodup ∧
      (paths.map bitPathToPrefix).map (fun row => decodeShardFilterOrRoot (shardPrefixToFilter app row) 32) =
        paths.map fun path => some (app, path) := by
  intro app paths
  obtain ⟨hread, hwrite, hnodup, hgrid⟩ := filters_name_shards
  have hpaths : Partition paths := partition_coPath [true, true]
  refine ⟨hread app _ (by decide), (hwrite (app ++ [0, 1, 128]) app 32 [true] (by decide +kernel)).2.2,
    hnodup app _ (by decide +kernel) (Or.inr ⟨paths, rfl⟩), ?_⟩
  have hdecode := hgrid app _ (.bitPaths hpaths (by decide +kernel))
  rwa [canonical_bitPaths hpaths] at hdecode

/-- What the reader is not for. A path of 65536 bits does not fit the length field. The rows of a two-way split are
    read by six bits; of an eight-way split the first is read as the root and the others are refused. -/
theorem filters_misread :
    let app : Bytes := replicate 32 0xAB
    let reread := fun (rows : List Levels) =>
      rows.map fun row => decodeShardFilterOrRoot (shardPrefixToFilter app row) 32
    decodeShardBitPath (encodeShardBitPath app (replicate 65536 true)) 32 = none ∧
      (Marked (suffixLevels 2) ∧ canonicalShardBitPaths (suffixLevels 2) = [[false], [true]] ∧
        reread (suffixLevels 2) = [some (app, replicate 6 false), some (app, replicate 6 false)]) ∧
      Marked (suffixLevels 8) ∧ canonicalShardBitPaths (suffixLevels 8) = (range 8).map (pathOf 3) ∧
        reread (suffixLevels 8) = some (app, []) :: replicate 7 none := by
  refine ⟨?_, ⟨marked_suffixLevels (by decide), by decide +kernel, by decide +kernel⟩,
    marked_suffixLevels (by decide), by decide +kernel, by decide +kernel⟩
  exact decode_encode_long (by rw [length_replicate]; norm_num)

end Quil.FilterNames
