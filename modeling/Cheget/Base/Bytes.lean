-- SUMMARY: Byte strings: little-endian encodings of machine words, UTF-8, and the 64-bit FNV-1a mixer.
import Mathlib.Algebra.Group.Nat.Defs
import Mathlib.Data.List.Basic

abbrev Bytes := List UInt8

namespace Bytes

/-! ## Encodings -/

/-- `u16::to_le_bytes`. -/
def le16 (x : UInt16) : Bytes := [x.toUInt8, (x >>> 8).toUInt8]

/-- `u32::to_le_bytes`. -/
def le32 (x : UInt32) : Bytes :=
  [x.toUInt8, (x >>> 8).toUInt8, (x >>> 16).toUInt8, (x >>> 24).toUInt8]

/-- `u64::to_le_bytes`. -/
def le64 (x : UInt64) : Bytes :=
  [x.toUInt8, (x >>> 8).toUInt8, (x >>> 16).toUInt8, (x >>> 24).toUInt8,
    (x >>> 32).toUInt8, (x >>> 40).toUInt8, (x >>> 48).toUInt8, (x >>> 56).toUInt8]

/-- The UTF-8 bytes of a string. -/
def utf8 (s : String) : Bytes := s.toUTF8.data.toList

/-! ## FNV-1a -/

def fnvOffset : UInt64 := 0xcbf29ce484222325

def fnvPrime : UInt64 := 0x00000100000001b3

/-- Mix a byte string into an FNV-1a state: xor each byte in, then multiply,
    wrapping at 64 bits. -/
def fnvMix (h : UInt64) (bytes : Bytes) : UInt64 :=
  bytes.foldl (fun h b => (h ^^^ b.toUInt64) * fnvPrime) h

/-- Two byte strings that the hash does not tell apart. -/
def FnvCollision (xs ys : Bytes) : Prop :=
  xs ≠ ys ∧ fnvMix fnvOffset xs = fnvMix fnvOffset ys

/-- The inverse of the prime modulo `2^64`. -/
def fnvPrimeInv : UInt64 := 0xce965057aff6957b

theorem fnvPrime_mul_inv : fnvPrime * fnvPrimeInv = 1 := by decide

theorem mul_fnvPrime_injective {x y : UInt64} (h : x * fnvPrime = y * fnvPrime) : x = y := by
  have hinv := congrArg (· * fnvPrimeInv) h
  simpa [UInt64.mul_assoc, fnvPrime_mul_inv] using hinv

/-- Mixing the same bytes in keeps different states apart. -/
theorem fnvMix_injective (bytes : Bytes) {h h' : UInt64} (heq : fnvMix h bytes = fnvMix h' bytes) :
    h = h' := by
  induction bytes generalizing h h' with
  | nil => exact heq
  | cons b bytes ih =>
      have hxor := mul_fnvPrime_injective (ih heq)
      exact UInt64.xor_left_inj _ |>.mp hxor

/-- A byte only reaches the low byte of the state that it is mixed into. -/
theorem xor_byte_div (x : UInt64) (b : UInt8) : (x ^^^ b.toUInt64).toNat / 256 = x.toNat / 256 := by
  have hb : b.toNat / 256 = 0 := Nat.div_eq_of_lt b.toNat_lt
  have hdiv := Nat.xor_div_two_pow (a := x.toNat) (b := b.toNat) (n := 8)
  rw [UInt64.toNat_xor, UInt8.toNat_toUInt64]
  rw [show 2 ^ 8 = 256 from rfl, hb, Nat.xor_zero] at hdiv
  exact hdiv

private theorem mul_prime_div_ne {y d : Nat} (hpos : 0 < d) (hlt : d < 256) :
    (y + d) * 1099511628211 % 2 ^ 64 / 256 ≠ y * 1099511628211 % 2 ^ 64 / 256 := by
  have hsum : (y + d) * 1099511628211 % 2 ^ 64 =
      (y * 1099511628211 % 2 ^ 64 + d * 1099511628211) % 2 ^ 64 := by
    rw [Nat.add_mul, Nat.mod_add_mod]
  have hbound : y * 1099511628211 % 2 ^ 64 < 2 ^ 64 := Nat.mod_lt _ (by decide)
  rw [hsum]
  clear hsum
  generalize y * 1099511628211 % 2 ^ 64 = product at hbound ⊢
  by_cases hwrap : product + d * 1099511628211 < 2 ^ 64
  · rw [Nat.mod_eq_of_lt hwrap]
    omega
  · rw [Nat.mod_eq_sub_mod (Nat.not_lt.mp hwrap), Nat.mod_eq_of_lt (by omega)]
    omega

/-- States that differ in their low byte differ above it once multiplied. -/
theorem mul_fnvPrime_div {x y : UInt64} (hlow : x.toNat / 256 = y.toNat / 256)
    (hmul : (x * fnvPrime).toNat / 256 = (y * fnvPrime).toNat / 256) : x = y := by
  have hprime : fnvPrime.toNat = 1099511628211 := rfl
  rw [UInt64.toNat_mul, UInt64.toNat_mul, hprime] at hmul
  apply UInt64.toNat_inj.mp
  rcases Nat.lt_trichotomy x.toNat y.toNat with hlt | heq | hlt
  · have hsplit : y.toNat = x.toNat + (y.toNat - x.toNat) := by omega
    rw [hsplit] at hmul
    exact absurd hmul.symm (mul_prime_div_ne (by omega) (by omega))
  · exact heq
  · have hsplit : x.toNat = y.toNat + (x.toNat - y.toNat) := by omega
    rw [hsplit] at hmul
    exact absurd hmul (mul_prime_div_ne (by omega) (by omega))

/-- Two bytes are told apart by the state that they are mixed into. -/
theorem fnvMix_pair_injective {h : UInt64} {a b a' b' : UInt8}
    (heq : fnvMix h [a, b] = fnvMix h [a', b']) : a = a' ∧ b = b' := by
  have hlast : (h ^^^ a.toUInt64) * fnvPrime ^^^ b.toUInt64 = (h ^^^ a'.toUInt64) * fnvPrime ^^^ b'.toUInt64 :=
    mul_fnvPrime_injective heq
  have hdiv := congrArg (fun x : UInt64 => x.toNat / 256) hlast
  simp only [xor_byte_div] at hdiv
  have hfirst := mul_fnvPrime_div ((xor_byte_div h a).trans (xor_byte_div h a').symm) hdiv
  rw [hfirst] at hlast
  exact ⟨UInt8.toUInt64_inj.mp (UInt64.xor_right_inj _ |>.mp hfirst),
    UInt8.toUInt64_inj.mp (UInt64.xor_right_inj _ |>.mp hlast)⟩

/-! ## Words apart -/

/-- The `k` low bytes of a number, least significant first. -/
def littleEndian : Nat → Nat → Bytes
  | 0, _ => []
  | k + 1, n => UInt8.ofNat n :: littleEndian k (n / 256)

theorem littleEndian_injective (k : Nat) {m n : Nat} (hm : m < 256 ^ k) (hn : n < 256 ^ k)
    (h : littleEndian k m = littleEndian k n) : m = n := by
  induction k generalizing m n with
  | zero =>
      simp only [Nat.pow_zero] at hm hn
      omega
  | succ k ih =>
      obtain ⟨hlow, hrest⟩ := List.cons.inj h
      have hbyte : m % 256 = n % 256 := congrArg UInt8.toNat hlow
      have hhigh : m / 256 = n / 256 := by
        apply ih _ _ hrest
        · exact Nat.div_lt_of_lt_mul (by rwa [Nat.mul_comm, ← Nat.pow_succ])
        · exact Nat.div_lt_of_lt_mul (by rwa [Nat.mul_comm, ← Nat.pow_succ])
      omega

theorem le16_eq (x : UInt16) : le16 x = littleEndian 2 x.toNat := by
  simp [le16, littleEndian, ← UInt8.toNat_inj, UInt16.toNat_shiftRight, Nat.shiftRight_eq_div_pow]

theorem le32_eq (x : UInt32) : le32 x = littleEndian 4 x.toNat := by
  simp [le32, littleEndian, ← UInt8.toNat_inj, UInt32.toNat_shiftRight, Nat.shiftRight_eq_div_pow,
    Nat.div_div_eq_div_mul]

theorem le64_eq (x : UInt64) : le64 x = littleEndian 8 x.toNat := by
  simp [le64, littleEndian, ← UInt8.toNat_inj, UInt64.toNat_shiftRight, Nat.shiftRight_eq_div_pow,
    Nat.div_div_eq_div_mul]

theorem le16_injective {x y : UInt16} (h : le16 x = le16 y) : x = y := by
  rw [le16_eq, le16_eq] at h
  exact UInt16.toNat_inj.mp (littleEndian_injective 2 x.toNat_lt y.toNat_lt h)

theorem le32_injective {x y : UInt32} (h : le32 x = le32 y) : x = y := by
  rw [le32_eq, le32_eq] at h
  exact UInt32.toNat_inj.mp (littleEndian_injective 4 x.toNat_lt y.toNat_lt h)

theorem le64_injective {x y : UInt64} (h : le64 x = le64 y) : x = y := by
  rw [le64_eq, le64_eq] at h
  exact UInt64.toNat_inj.mp (littleEndian_injective 8 x.toNat_lt y.toNat_lt h)

end Bytes
