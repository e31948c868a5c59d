import Mathlib.Tactic

/-! Numbers as little-endian byte strings of a fixed length, and reading a string back. The big-endian
    strings are these reversed. -/

namespace Quil.Schemes
open List

/-- The first `len` bytes of a number, the lowest first. -/
def leBytes : (len n : ℕ) → List UInt8
  | 0, _ => []
  | len + 1, n => UInt8.ofNat n :: leBytes len (n / 256)

/-- The number a byte string is. -/
def ofLeBytes : List UInt8 → ℕ
  | [] => 0
  | byte :: bytes => byte.toNat + 256 * ofLeBytes bytes

@[simp] theorem length_leBytes (len n : ℕ) : (leBytes len n).length = len := by
  induction len generalizing n with
  | zero => rfl
  | succ len ih => rw [leBytes, length_cons, ih]

theorem ofLeBytes_leBytes {len n : ℕ} (h : n < 256 ^ len) : ofLeBytes (leBytes len n) = n := by
  induction len generalizing n with
  | zero =>
    rw [pow_zero] at h
    rw [leBytes, ofLeBytes]
    omega
  | succ len ih =>
    rw [leBytes, ofLeBytes, ih (by rw [pow_succ] at h; omega), UInt8.toNat_ofNat']
    omega

theorem leBytes_ofLeBytes (bytes : List UInt8) : leBytes bytes.length (ofLeBytes bytes) = bytes := by
  induction bytes with
  | nil => rfl
  | cons byte bytes ih =>
    have hlt := byte.toNat_lt
    rw [ofLeBytes, length_cons, leBytes, show (byte.toNat + 256 * ofLeBytes bytes) / 256 =
      ofLeBytes bytes by omega, ih]
    congr 1
    refine UInt8.toNat_inj.1 ?_
    rw [UInt8.toNat_ofNat']
    omega

theorem ofLeBytes_lt (bytes : List UInt8) : ofLeBytes bytes < 256 ^ bytes.length := by
  induction bytes with
  | nil => simp [ofLeBytes]
  | cons byte bytes ih =>
    have hlt := byte.toNat_lt
    rw [ofLeBytes, length_cons, pow_succ]
    omega

/-- A number above the bits of another. -/
theorem or_shiftLeft_of_lt {a k : ℕ} (b : ℕ) (h : a < 2 ^ k) : a ||| b <<< k = 2 ^ k * b + a := by
  rw [Nat.or_comm, ← Nat.shiftLeft_add_eq_or_of_lt h, Nat.shiftLeft_eq, mul_comm]

/-! ### Big-endian -/

/-- The first `len` bytes of a number, the highest first. -/
def toBeBytes (len n : ℕ) : List UInt8 := (leBytes len n).reverse

/-- The number a byte string is, its highest byte first. -/
def ofBeBytes (bytes : List UInt8) : ℕ := ofLeBytes bytes.reverse

@[simp] theorem length_toBeBytes (len n : ℕ) : (toBeBytes len n).length = len := by
  rw [toBeBytes, length_reverse, length_leBytes]

theorem ofBeBytes_toBeBytes {len n : ℕ} (h : n < 256 ^ len) : ofBeBytes (toBeBytes len n) = n := by
  rw [ofBeBytes, toBeBytes, reverse_reverse, ofLeBytes_leBytes h]

theorem toBeBytes_ofBeBytes (bytes : List UInt8) : toBeBytes bytes.length (ofBeBytes bytes) = bytes := by
  rw [toBeBytes, ofBeBytes, ← length_reverse, leBytes_ofLeBytes, reverse_reverse]

theorem ofBeBytes_lt (bytes : List UInt8) : ofBeBytes bytes < 256 ^ bytes.length := by
  rw [ofBeBytes, ← length_reverse]
  exact ofLeBytes_lt _

end Quil.Schemes
