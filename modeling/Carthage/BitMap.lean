import Mathlib.Data.Nat.Bitwise
import Carthage.BlockBytes

/-!
# Maps of bits

Bit `n` of a map of bytes is bit `n % 8` of byte `n / 8`.
-/

namespace Carthage

/-- `1 << (n & 7)` in a byte. -/
def bitMask (n : ℕ) : UInt8 := .ofNat (2 ^ (n % 8))

theorem byte_eq_iff {b b' : UInt8} : b = b' ↔ ∀ j < 8, b.toNat.testBit j = b'.toNat.testBit j := by
  refine ⟨fun h j _ => h ▸ rfl, fun h => UInt8.toNat_inj.mp (Nat.eq_of_testBit_eq fun j => ?_)⟩
  by_cases hj : j < 8
  · exact h j hj
  · have hbig : ∀ b : UInt8, b.toNat < 2 ^ j := fun b =>
      b.toNat_lt.trans_le (Nat.pow_le_pow_right (by norm_num) (not_lt.mp hj))
    rw [Nat.testBit_lt_two_pow (hbig b), Nat.testBit_lt_two_pow (hbig b')]

namespace Bytes

variable (map : Bytes) (n m : ℕ)

def setBit : Bytes := Function.update map (n / 8) (map (n / 8) ||| bitMask n)

def testBit : Bool := map (n / 8) &&& bitMask n ≠ 0

variable {map n m}

theorem toNat_bitMask : (bitMask n).toNat = 2 ^ (n % 8) := by
  have hlt : 2 ^ (n % 8) < 2 ^ 8 := Nat.pow_lt_pow_right (by norm_num) (Nat.mod_lt n (by norm_num))
  rw [bitMask, UInt8.toNat_ofNat', Nat.mod_eq_of_lt hlt]

theorem testBit_not_bitMask {j : ℕ} (hj : j < 8) :
    (~~~ bitMask n).toNat.testBit j = !decide (j = n % 8) := by
  have hsmall : ∀ r < 8, (~~~ UInt8.ofNat (2 ^ r)).toNat.testBit j = !decide (j = r) := by
    revert j
    decide
  exact hsmall (n % 8) (Nat.mod_lt n (by norm_num))

theorem testBit_eq : map.testBit n = (map (n / 8)).toNat.testBit (n % 8) := by
  have hiff : map (n / 8) &&& bitMask n = 0 ↔ (map (n / 8)).toNat.testBit (n % 8) = false := by
    rw [← UInt8.toNat_inj, UInt8.toNat_and, toNat_bitMask, Nat.and_two_pow]
    cases (map (n / 8)).toNat.testBit (n % 8) <;> simp
  unfold testBit
  cases hbit : (map (n / 8)).toNat.testBit (n % 8) with
  | false => exact decide_eq_false (not_not.mpr (hiff.mpr hbit))
  | true => exact decide_eq_true fun hzero => by simp [hiff.mp hzero] at hbit

theorem testBit_setBit : (map.setBit n).testBit m = (decide (m = n) || map.testBit m) := by
  rw [testBit_eq, testBit_eq]
  unfold setBit
  rcases eq_or_ne (m / 8) (n / 8) with hbyte | hbyte
  · rw [hbyte, Function.update_self, UInt8.toNat_or, toNat_bitMask, Nat.testBit_or,
      Nat.testBit_two_pow, Bool.or_comm]
    congr 1
    rw [decide_eq_decide]
    constructor
    · intro hmod
      rw [← Nat.div_add_mod m 8, ← Nat.div_add_mod n 8, hbyte, hmod]
    · rintro rfl
      rfl
  · have hne : m ≠ n := fun heq => hbyte (congrArg (· / 8) heq)
    rw [Function.update_of_ne hbyte, decide_eq_false hne, Bool.false_or]

end Bytes

end Carthage
