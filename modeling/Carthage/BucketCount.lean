import Mathlib.Data.Nat.Bitwise
import Mathlib.Data.Nat.Log
import Mathlib.Tactic

/-!
# Rounding a bucket count up to a power of two

`nbucketRoundup` is the bit-smearing function that the hash table, the bag, the
set and the cache share. Bucket indices are computed by masking a hash with the
bucket count minus one, so everything below relies on the count being a power of
two.
-/

namespace Carthage

/-- `y` has exactly the bits that lie at most `w - 1` places below a bit of `x`. -/
def SmearsBelow (w x y : ℕ) : Prop :=
  ∀ i, y.testBit i = true ↔ ∃ j < w, x.testBit (i + j) = true

theorem smearsBelow_self (x : ℕ) : SmearsBelow 1 x x := by
  intro i
  constructor
  · intro h
    exact ⟨0, Nat.one_pos, h⟩
  · rintro ⟨j, hj, h⟩
    obtain rfl : j = 0 := by omega
    exact h

theorem SmearsBelow.double {w x y : ℕ} (h : SmearsBelow w x y) :
    SmearsBelow (w + w) x (y ||| y >>> w) := by
  intro i
  rw [Nat.testBit_or, Nat.testBit_shiftRight, Bool.or_eq_true, h i, h (w + i)]
  constructor
  · rintro (⟨j, hj, hx⟩ | ⟨j, hj, hx⟩)
    · exact ⟨j, by omega, hx⟩
    · exact ⟨w + j, by omega, by rwa [show i + (w + j) = w + i + j by omega]⟩
  · rintro ⟨j, hj, hx⟩
    by_cases hw : j < w
    · exact Or.inl ⟨j, hw, hx⟩
    · exact Or.inr ⟨j - w, by omega, by rwa [show w + i + (j - w) = i + j by omega]⟩

theorem SmearsBelow.eq_allOnes {w x y : ℕ} (h : SmearsBelow w x y) (hx : x ≠ 0)
    (hw : x < 2 ^ w) : y = 2 ^ (x.log2 + 1) - 1 := by
  have hlog : x.log2 < w := (Nat.log2_lt hx).mpr hw
  apply Nat.eq_of_testBit_eq
  intro i
  rw [Nat.testBit_two_pow_sub_one, Bool.eq_iff_iff, h i, decide_eq_true_iff]
  constructor
  · rintro ⟨j, _, hj⟩
    by_contra hi
    have hlt : x < 2 ^ (i + j) :=
      (Nat.lt_log2_self (n := x)).trans_le (Nat.pow_le_pow_right Nat.two_pos (by omega))
    rw [Nat.testBit_lt_two_pow hlt] at hj
    cases hj
  · intro hi
    refine ⟨x.log2 - i, by omega, ?_⟩
    rw [show i + (x.log2 - i) = x.log2 by omega, Nat.testBit_log2 hx]

/-- `__nbucket_roundup` on an LP64 machine, where `size_t` has 64 bits. -/
def nbucketRoundup (size : ℕ) : ℕ :=
  if size < 8 then 8
  else
    let size := size - 1
    let size := size ||| size >>> 1
    let size := size ||| size >>> 2
    let size := size ||| size >>> 4
    let size := size ||| size >>> 8
    let size := size ||| size >>> 16
    let size := size ||| size >>> 32
    (size + 1) % 2 ^ 64

theorem nbucketRoundup_of_lt {size : ℕ} (h : size < 8) : nbucketRoundup size = 8 :=
  if_pos h

theorem nbucketRoundup_of_le {size : ℕ} (h : 8 ≤ size) (hs : size ≤ 2 ^ 63) :
    nbucketRoundup size = 2 ^ ((size - 1).log2 + 1) := by
  have hne : size - 1 ≠ 0 := by omega
  have hbits := ((((((smearsBelow_self (size - 1)).double).double).double).double).double).double
  have hones := hbits.eq_allOnes hne (by omega)
  have hlog : (size - 1).log2 + 1 ≤ 63 := (Nat.log2_lt hne).mpr (by omega)
  have hle : 2 ^ ((size - 1).log2 + 1) ≤ 2 ^ 63 := Nat.pow_le_pow_right Nat.two_pos hlog
  have hpos : 0 < 2 ^ ((size - 1).log2 + 1) := by positivity
  rw [nbucketRoundup, if_neg (by omega)]
  dsimp only
  norm_num only at hones
  rw [hones]
  omega

theorem nbucketRoundup_spec {size : ℕ} (hs : size ≤ 2 ^ 63) :
    ∃ e, nbucketRoundup size = 2 ^ e ∧ 3 ≤ e ∧ size ≤ 2 ^ e ∧
      ∀ e', 3 ≤ e' → size ≤ 2 ^ e' → e ≤ e' := by
  by_cases h : size < 8
  · exact ⟨3, nbucketRoundup_of_lt h, le_rfl, by omega, fun _ h _ => h⟩
  have hne : size - 1 ≠ 0 := by omega
  refine ⟨_, nbucketRoundup_of_le (by omega) hs, ?_, ?_, ?_⟩
  · have : 2 < (size - 1).log2 + 1 := by
      by_contra hc
      have : size - 1 < 2 ^ 2 := (Nat.log2_lt hne).mp (by omega)
      omega
    omega
  · have : size - 1 < 2 ^ ((size - 1).log2 + 1) := Nat.lt_log2_self
    omega
  · intro e' _ he'
    have : (size - 1).log2 < e' := (Nat.log2_lt hne).mpr (by omega)
    omega

theorem nbucketRoundup_lt {size : ℕ} (h : size ≤ 2 ^ 28) : nbucketRoundup size < 2 ^ 29 := by
  obtain ⟨e, he, -, -, hmin⟩ := nbucketRoundup_spec (h.trans (by norm_num) : size ≤ 2 ^ 63)
  have h28 : e ≤ 28 := hmin 28 (by norm_num) h
  rw [he]
  exact Nat.pow_lt_pow_right (by norm_num) (by omega)

theorem and_mask_lt (hash e : ℕ) : hash &&& (2 ^ e - 1) < 2 ^ e := by
  rw [Nat.and_two_pow_sub_one_eq_mod]
  exact Nat.mod_lt _ (by positivity)

end Carthage
