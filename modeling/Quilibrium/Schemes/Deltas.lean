import Quilibrium.Schemes.Codec

/-! Numbers stored as DIFFERENCES from those before them: a reader of a list whose items are read relative to the
    one before, the minimal base-128 string of a 64-bit number (seven bits a byte, least significant first, the
    high bit on every byte but the last), and the zigzag order of signed words, in which small steps either way
    are small numbers. Each reads what it writes and nothing else. -/

namespace Quil.Schemes
open List Reader Nat

variable {ε α σ : Type}

/-! ### Items read relative to the one before -/

/-- One value after another, each read in the state the one before leaves. -/
def Reader.linked (r : σ → Reader ε α) (next : α → σ) : ℕ → σ → Reader ε (List α)
  | 0, _ => pure []
  | n + 1, s => do
    let a ← r s
    let rest ← Reader.linked r next n (next a)
    return a :: rest

/-- The items as they are written, each in the state the one before leaves. -/
def linkedBytes (write : σ → α → List UInt8) (next : α → σ) : σ → List α → List UInt8
  | _, [] => []
  | s, a :: as => write s a ++ linkedBytes write next (next a) as

/-- Each item meets the condition in the state the one before leaves. -/
def Linked (P : σ → α → Prop) (next : α → σ) : σ → List α → Prop
  | _, [] => True
  | s, a :: as => P s a ∧ Linked P next (next a) as

theorem linked_concat {P : σ → α → Prop} {next : α → σ} {as : List α} {a : α} {s : σ} :
    Linked P next s (as ++ [a]) ↔ Linked P next s as ∧ P ((as.getLast?.map next).getD s) a := by
  induction as generalizing s with
  | nil => simp [Linked]
  | cons b as ih =>
    rw [cons_append, Linked, ih, Linked, and_assoc]
    cases hlast : as.getLast? <;> simp [getLast?_cons, hlast]

theorem Reads.linked {r : σ → Reader ε α} {write : σ → α → List UInt8} {P : σ → α → Prop} {next : α → σ}
    (h : ∀ s, Reads (r s) (write s) (P s)) (n : ℕ) (s : σ) :
    Reads (.linked r next n s) (linkedBytes write next s) fun as => as.length = n ∧ Linked P next s as := by
  induction n generalizing s with
  | zero => exact Reads.nil rfl trivial
  | succ n ih =>
    refine ((h s).cons (fun a => ih (next a)) fun _ _ => rfl).iff fun as => ?_
    cases as <;> simp [Linked]
    tauto

/-! ### Base 128 -/

/-- The bytes of a number, at most `more` of them with one to follow. -/
def varintBytesFrom : ℕ → ℕ → List UInt8
  | 0, value => [UInt8.ofNat value]
  | more + 1, value =>
    if 0x80 ≤ value then (UInt8.ofNat value ||| 0x80) :: varintBytesFrom more (value >>> 7) else [UInt8.ofNat value]

/-- The bytes of a 64-bit number: one to ten. -/
def varintBytes (value : ℕ) : List UInt8 := varintBytesFrom 9 value

/-- The `i`-th byte and those after it, with what the bytes before them give. -/
def Reader.varintFrom (e : ε) : ℕ → ℕ → ℕ → Reader ε ℕ
  | 0, _, _ => throw e
  | left + 1, i, value => do
    let byte ← Reader.be e 1
    if i = 9 ∧ 1 < byte then throw e
    else
      let value := value ||| (byte &&& 0x7F) <<< (7 * i)
      if byte &&& 0x80 = 0 then if byte ≠ 0 ∨ i = 0 then pure value else throw e
      else Reader.varintFrom e left (i + 1) value

/-- A minimal number of at most ten bytes. -/
def Reader.varint (e : ε) : Reader ε ℕ := Reader.varintFrom e 10 0 0

theorem and_high_eq_zero {byte : ℕ} (h : byte < 256) : byte &&& 0x80 = 0 ↔ byte < 128 := by
  have hall : ∀ b : Fin 256, b.val &&& 0x80 = 0 ↔ b.val < 128 := by decide +kernel
  exact hall ⟨byte, h⟩

theorem or_shift {value n : ℕ} (low : ℕ) (h : value < 2 ^ n) : value ||| low <<< n = value + 2 ^ n * low := by
  rw [Nat.or_comm, ← shiftLeft_add_eq_or_of_lt h, shiftLeft_eq, mul_comm, add_comm]

/-- A byte with the high bit set. -/
theorem ofNat_or_high (value : ℕ) : UInt8.ofNat value ||| 0x80 = UInt8.ofNat (value % 128 + 128) := by
  have hall : ∀ b : Fin 256, UInt8.ofNat b.val ||| 0x80 = UInt8.ofNat (b.val % 128 + 128) := by decide +kernel
  have hmod : UInt8.ofNat value = UInt8.ofNat (value % 256) := UInt8.toNat_inj.1 (by simp)
  have hlow : value % 256 % 128 = value % 128 := by omega
  have hbyte := hall ⟨value % 256, mod_lt _ (by decide)⟩
  dsimp only at hbyte
  rw [hmod, hbyte, hlow]

/-- The first byte of a number's string, and whether it is the last. -/
def firstByte (value : ℕ) : ℕ := if value < 128 then value else value % 128 + 128

theorem firstByte_lt (value : ℕ) : firstByte value < 256 := by
  unfold firstByte
  split <;> omega

theorem firstByte_eq_of_lt {value byte : ℕ} (hbyte : byte < 128) : firstByte value = byte ↔ value = byte := by
  unfold firstByte
  split <;> omega

theorem firstByte_eq_of_ge {value byte : ℕ} (hbyte : 128 ≤ byte) (hlt : byte < 256) :
    firstByte value = byte ↔ 128 ≤ value ∧ value % 128 = byte % 128 := by
  unfold firstByte
  split <;> omega

theorem varintBytesFrom_succ (more value : ℕ) : varintBytesFrom (more + 1) value =
    toBeBytes 1 (firstByte value) ++ if value < 128 then [] else varintBytesFrom more (value / 128) := by
  rw [varintBytesFrom, firstByte]
  by_cases h : value < 128
  · rw [if_pos h, if_pos h, if_neg (by omega)]
    rfl
  · rw [if_neg h, if_neg h, if_pos (by omega), ofNat_or_high, shiftRight_eq_div_pow]
    rfl

theorem varintBytesFrom_zero {value : ℕ} (h : value < 128) : varintBytesFrom 0 value = toBeBytes 1 (firstByte value) := by
  rw [varintBytesFrom, firstByte, if_pos h]
  rfl

/-- Nothing is read. -/
theorem Reads.throw {e : ε} {write : α → List UInt8} {P : α → Prop} (h : ∀ a, ¬ P a) :
    Reads (MonadExcept.throw e : Reader ε α) write P :=
  ⟨fun a _ ha => absurd ha (h a), fun hread => by cases hread⟩

/-- What the bytes from the `i`-th on can add to `value`. -/
structure VarintFrom (i value v : ℕ) : Prop where
  low : v % 2 ^ (7 * i) = value
  lt : v < 2 ^ 64
  minimal : i ≠ 0 → 2 ^ (7 * i) ≤ v

section
variable {i value : ℕ}

/-- The last byte fixes the number. -/
theorem varintFrom_last {byte v : ℕ} (hvalue : value < 2 ^ (7 * i)) (hbyte : byte < 128) (hi : i ≤ 9)
    (hlast : i = 9 → byte ≤ 1) (hmin : byte ≠ 0 ∨ i = 0) :
    firstByte (v / 2 ^ (7 * i)) = byte ∧ VarintFrom i value v ↔ v = value + 2 ^ (7 * i) * byte := by
  have hpos : 0 < 2 ^ (7 * i) := by positivity
  rw [firstByte_eq_of_lt hbyte]
  constructor
  · rintro ⟨hdiv, hlow, -, -⟩
    rw [← mod_add_div v (2 ^ (7 * i)), hlow, hdiv]
  · rintro rfl
    have hdiv : (value + 2 ^ (7 * i) * byte) / 2 ^ (7 * i) = byte := by
      rw [add_mul_div_left _ _ hpos, div_eq_of_lt hvalue, zero_add]
    refine ⟨hdiv, ?_, ?_, fun hne => ?_⟩
    · rw [add_mul_mod_self_left, mod_eq_of_lt hvalue]
    · have hbound : 2 ^ (7 * i) * (byte + 1) ≤ 2 ^ 64 := by
        rcases hi.lt_or_eq with hlt | rfl
        · calc 2 ^ (7 * i) * (byte + 1) ≤ 2 ^ (7 * 8) * 2 ^ 7 :=
                Nat.mul_le_mul (Nat.pow_le_pow_right (by decide) (by omega)) (by omega)
            _ ≤ 2 ^ 64 := by norm_num
        · calc 2 ^ (7 * 9) * (byte + 1) ≤ 2 ^ (7 * 9) * 2 := mul_le_mul_left _ (by have := hlast rfl; omega)
            _ ≤ 2 ^ 64 := by norm_num
      rw [Nat.mul_add_one] at hbound
      omega
    · have hone : 1 ≤ byte := one_le_iff_ne_zero.2 (hmin.resolve_right hne)
      exact (Nat.le_mul_of_pos_right _ hone).trans (le_add_left _ _)

/-- A byte before the last adds its seven bits. -/
theorem varintFrom_more {byte v : ℕ} (hvalue : value < 2 ^ (7 * i)) (hbyte : 128 ≤ byte) (hlt : byte < 256) :
    firstByte (v / 2 ^ (7 * i)) = byte ∧ VarintFrom i value v ↔
      VarintFrom (i + 1) (value + 2 ^ (7 * i) * (byte % 128)) v := by
  have hpos : 0 < 2 ^ (7 * i) := by positivity
  have hpow : 2 ^ (7 * (i + 1)) = 2 ^ (7 * i) * 128 := by rw [mul_add, pow_add]; norm_num
  have hmod : v % 2 ^ (7 * (i + 1)) = v % 2 ^ (7 * i) + 2 ^ (7 * i) * (v / 2 ^ (7 * i) % 128) := by rw [hpow, mod_mul]
  rw [firstByte_eq_of_ge hbyte hlt, le_div_iff_mul_le hpos]
  constructor
  · rintro ⟨⟨hge, hseven⟩, hlow, hbound, -⟩
    refine ⟨by rw [hmod, hlow, hseven], hbound, fun _ => ?_⟩
    rwa [hpow, mul_comm]
  · rintro ⟨hlow, hbound, hge⟩
    have hge := hge (succ_ne_zero i)
    rw [hmod] at hlow
    have hrest : v % 2 ^ (7 * i) = value := by
      have := congrArg (· % 2 ^ (7 * i)) hlow
      simpa [add_mul_mod_self_left, mod_eq_of_lt hvalue] using this
    rw [hrest] at hlow
    refine ⟨⟨?_, Nat.eq_of_mul_eq_mul_left hpos (add_left_cancel hlow)⟩, hrest, hbound, fun _ => ?_⟩
    · rwa [hpow, mul_comm] at hge
    · exact (Nat.le_mul_of_pos_right _ (by decide)).trans (hpow ▸ hge)

/-- A byte that would leave the string longer than it has to be is not read. -/
theorem not_varintFrom_zero {v : ℕ} (hi : i ≠ 0) : ¬ (firstByte (v / 2 ^ (7 * i)) = 0 ∧ VarintFrom i value v) := by
  rintro ⟨hfirst, hcont⟩
  rw [firstByte_eq_of_lt (by decide), Nat.div_eq_zero_iff] at hfirst
  have hpos : 0 < 2 ^ (7 * i) := by positivity
  have := hcont.minimal hi
  omega

end

/-- The tenth byte has room for one bit. -/
theorem firstByte_tenth {value v : ℕ} (h : VarintFrom 9 value v) : firstByte (v / 2 ^ (7 * 9)) ≤ 1 := by
  have hdiv : v / 2 ^ (7 * 9) ≤ 1 := Nat.lt_succ_iff.1 (Nat.div_lt_of_lt_mul (h.lt.trans_eq (by norm_num)))
  rwa [firstByte, if_pos (by omega)]

/-- What a loop reads after a byte that ends the string, or one too many. -/
theorem reads_varint_last (e : ε) {i value byte : ℕ} (hi : i ≤ 9) (hvalue : value < 2 ^ (7 * i)) (hbyte : byte < 128)
    (hlast : ¬ (i = 9 ∧ 1 < byte)) :
    Reads (if byte ≠ 0 ∨ i = 0 then pure (value ||| (byte &&& 0x7F) <<< (7 * i)) else throw e : Reader ε ℕ) (fun _ => [])
      fun v => firstByte (v / 2 ^ (7 * i)) = byte ∧ VarintFrom i value v := by
  rw [or_shift _ hvalue, and_two_pow_sub_one_eq_mod byte 7, mod_eq_of_lt hbyte]
  split
  · next hmin =>
    exact Reads.pure fun v => varintFrom_last hvalue hbyte hi (fun h => not_lt.1 fun hlt => hlast ⟨h, hlt⟩) hmin
  next hmin =>
  rw [not_or, not_not] at hmin
  obtain ⟨rfl, hne⟩ := hmin
  exact Reads.throw fun v => not_varintFrom_zero hne

theorem reads_varintFrom (e : ε) {more i value : ℕ} (hi : i + more = 9) (hvalue : value < 2 ^ (7 * i)) :
    Reads (varintFrom e (more + 1) i value) (fun v => varintBytesFrom more (v / 2 ^ (7 * i)))
      (VarintFrom i value) := by
  induction more generalizing i value with
  | zero =>
    obtain rfl : i = 9 := hi
    have hfields : ReadsIn (varintFrom e 1 9 value) (fun v => toBeBytes 1 (firstByte (v / 2 ^ (7 * 9))) ++ [])
        (fun _ => True) fun v => True ∧ VarintFrom 9 value v := by
      refine ReadsIn.fieldOf (Reads.be e 1) (fun v => firstByte (v / 2 ^ (7 * 9)))
        (fun v _ => ⟨fun _ => firstByte_lt _, fun _ => trivial⟩) fun byte hbyte => ?_
      unfold ReadsIn
      simp only [true_and]
      split
      · next hlast =>
        refine Reads.throw ?_
        rintro v ⟨rfl, hcont⟩
        exact absurd (firstByte_tenth hcont) (not_le.2 hlast)
      next hlast =>
      rw [if_pos ((and_high_eq_zero hbyte).2 (by omega))]
      exact reads_varint_last e le_rfl hvalue (by omega) (by simpa using hlast)
    refine hfields.reads.congr (fun v => (and_iff_right trivial).symm) fun v hv => ?_
    have hdiv : v / 2 ^ (7 * 9) ≤ 1 := Nat.lt_succ_iff.1 (Nat.div_lt_of_lt_mul (hv.2.lt.trans_eq (by norm_num)))
    rw [append_nil, varintBytesFrom_zero (by omega)]
  | succ more ih =>
    have hfields : ReadsIn (varintFrom e (more + 1 + 1) i value)
        (fun v => toBeBytes 1 (firstByte (v / 2 ^ (7 * i))) ++
          if v / 2 ^ (7 * i) < 128 then [] else varintBytesFrom more (v / 2 ^ (7 * i) / 128))
        (fun _ => True) fun v => True ∧ VarintFrom i value v := by
      refine ReadsIn.fieldOf (Reads.be e 1) (fun v => firstByte (v / 2 ^ (7 * i)))
        (fun v _ => ⟨fun _ => firstByte_lt _, fun _ => trivial⟩) fun byte hbyte => ?_
      unfold ReadsIn
      simp only [true_and]
      rw [if_neg (by omega)]
      by_cases hlow : byte < 128
      · rw [if_pos ((and_high_eq_zero hbyte).2 hlow)]
        refine (reads_varint_last e (by omega) hvalue hlow (by omega)).congr (fun _ => Iff.rfl) fun v hv => ?_
        rw [if_pos]
        exact ((firstByte_eq_of_lt hlow).1 hv.1).trans_lt hlow
      rw [if_neg (mt (and_high_eq_zero hbyte).1 hlow), or_shift _ hvalue, and_two_pow_sub_one_eq_mod byte 7]
      have hpow : 2 ^ (7 * (i + 1)) = 2 ^ (7 * i) * 128 := by rw [mul_add, pow_add]; norm_num
      have hmore : value + 2 ^ (7 * i) * (byte % 2 ^ 7) < 2 ^ (7 * (i + 1)) := by
        have : 2 ^ (7 * i) * (byte % 2 ^ 7 + 1) ≤ 2 ^ (7 * i) * 128 := mul_le_mul_left _ (by omega)
        rw [Nat.mul_add_one] at this
        omega
      refine (ih (by omega) hmore).congr (fun v => varintFrom_more hvalue (by omega) hbyte) fun v hv => ?_
      have hge := hv.minimal (succ_ne_zero i)
      rw [hpow, mul_comm, ← le_div_iff_mul_le (by positivity)] at hge
      rw [if_neg (not_lt.2 hge), hpow, Nat.div_div_eq_div_mul]
    refine hfields.reads.congr (fun v => (and_iff_right trivial).symm) fun v _ => ?_
    rw [varintBytesFrom_succ]

/-- A 64-bit number is read from its minimal string and no other. -/
theorem reads_varint (e : ε) : Reads (varint e) varintBytes (· < 2 ^ 64) := by
  refine (@reads_varintFrom _ e 9 0 0 rfl (by decide)).congr (fun v => ?_) fun v _ => ?_
  · exact ⟨fun h => ⟨mod_one v, h, fun h => absurd rfl h⟩, VarintFrom.lt⟩
  · rw [mul_zero, pow_zero, Nat.div_one]
    rfl

/-! ### Zigzag -/

/-- A signed word with its sign in the lowest bit. -/
def zigzag {w : ℕ} (value : BitVec w) : BitVec w := (value <<< 1) ^^^ value.sshiftRight (w - 1)

/-- The signed word of a zigzag one. -/
def unzigzag {w : ℕ} (value : BitVec w) : BitVec w := (value >>> 1) ^^^ -(value &&& 1)

variable {w : ℕ}

theorem neg_and_one (value : BitVec w) : -(value &&& 1) = if value.getLsbD 0 then .allOnes w else 0 := by
  have hbit : value &&& 1 = if value.getLsbD 0 then 1 else 0 := by
    refine BitVec.eq_of_getLsbD_eq fun i hi => ?_
    cases i with
    | zero => cases h : value.getLsbD 0 <;> simp [h]
    | succ i => cases h : value.getLsbD 0 <;> simp
  rw [hbit]
  split
  · exact BitVec.neg_one_eq_allOnes
  · exact BitVec.neg_zero w

theorem getLsbD_zigzag (value : BitVec w) {i : ℕ} (hi : i < w) :
    (zigzag value).getLsbD i = ((decide (0 < i) && value.getLsbD (i - 1)) ^^ value.msb) := by
  have htop : w - 1 + i < w ↔ i = 0 := by omega
  rw [zigzag, BitVec.getLsbD_xor, BitVec.getLsbD_shiftLeft, BitVec.getLsbD_sshiftRight]
  cases i with
  | zero => simp [hi, ne_of_gt hi, BitVec.msb_eq_getLsbD_last]
  | succ i => simp [hi, htop]

theorem getLsbD_unzigzag (value : BitVec w) {i : ℕ} (hi : i < w) :
    (unzigzag value).getLsbD i = (value.getLsbD (i + 1) ^^ value.getLsbD 0) := by
  rw [unzigzag, neg_and_one, BitVec.getLsbD_xor, BitVec.getLsbD_ushiftRight, add_comm 1 i]
  cases value.getLsbD 0 <;> simp [hi]

theorem unzigzag_zigzag (value : BitVec w) : unzigzag (zigzag value) = value := by
  refine BitVec.eq_of_getLsbD_eq fun i hi => ?_
  have hsign : (zigzag value).getLsbD 0 = value.msb := by
    rw [getLsbD_zigzag _ (by omega)]
    simp
  rw [getLsbD_unzigzag _ hi, hsign]
  rcases lt_or_ge (i + 1) w with hlt | hge
  · rw [getLsbD_zigzag _ hlt]
    simp
  have hlast : i = w - 1 := by omega
  rw [BitVec.getLsbD_of_ge _ _ hge, BitVec.msb_eq_getLsbD_last, hlast]
  simp

theorem zigzag_unzigzag (value : BitVec w) : zigzag (unzigzag value) = value := by
  refine BitVec.eq_of_getLsbD_eq fun i hi => ?_
  have hmsb : (unzigzag value).msb = value.getLsbD 0 := by
    rw [BitVec.msb_eq_getLsbD_last, getLsbD_unzigzag _ (by omega), BitVec.getLsbD_of_ge _ _ (by omega)]
    simp
  rw [getLsbD_zigzag _ hi, hmsb]
  cases i with
  | zero => simp
  | succ i =>
    rw [Nat.add_sub_cancel, getLsbD_unzigzag _ (by omega)]
    simp

end Quil.Schemes
