import Mathlib.Data.List.Basic
import Mathlib.Tactic

/-!
# Big-endian encodings

An integer of `n` bytes in two's complement, its most significant byte first.
-/

namespace Carthage

def bigEndian : ℕ → ℤ → List UInt8
  | 0, _ => []
  | n + 1, v => .ofInt (v / 256 ^ n) :: bigEndian n v

def ofBigEndian : List UInt8 → ℕ
  | [] => 0
  | b :: bs => b.toNat * 256 ^ bs.length + ofBigEndian bs

variable {n : ℕ} {v : ℤ} {b : UInt8} {bs : List UInt8}

@[simp] theorem length_bigEndian (n : ℕ) (v : ℤ) : (bigEndian n v).length = n := by
  induction n with
  | zero => rfl
  | succ n ih => rw [bigEndian, List.length_cons, ih]

theorem toNat_ofInt (x : ℤ) : ((UInt8.ofInt x).toNat : ℤ) = x % 256 := by
  unfold UInt8.ofInt
  rw [UInt8.toNat_ofNat']
  omega

theorem ofInt_congr {x y : ℤ} (h : x % 2 ^ 8 = y % 2 ^ 8) : UInt8.ofInt x = UInt8.ofInt y := by
  unfold UInt8.ofInt
  rw [h]

theorem ofBigEndian_bigEndian (n : ℕ) (v : ℤ) : (ofBigEndian (bigEndian n v) : ℤ) = v % 256 ^ n := by
  induction n with
  | zero =>
      rw [pow_zero, Int.emod_one]
      rfl
  | succ n ih =>
      rw [bigEndian, ofBigEndian, length_bigEndian]
      push_cast
      have hdiv : v / (256 ^ n * 256) = v / 256 ^ n / 256 :=
        (Int.ediv_ediv_of_nonneg (by positivity)).symm
      rw [ih, toNat_ofInt, pow_succ 256, Int.emod_def, Int.emod_def v, Int.emod_def v, hdiv]
      ring

end Carthage
