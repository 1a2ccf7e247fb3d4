import Carthage.UintxCompare

/-!
# Zero

`uintx_is_zero` goes through the bytes below the last one. A number whose only byte that is not
zero is the last one is taken for zero.
-/

namespace Carthage

open Storage

variable {x : Storage} {mem : Bytes} {n k p stack : ℕ}

theorem uintxIsZeroLoop_eq (hx : p + k ≤ x.size) : uintxIsZeroLoop x mem k p =
    some (if ∀ i < k, mem (x.addr + (p + i)) = 0 then 1 else 0) := by
  induction k generalizing p with
  | zero => simp [uintxIsZeroLoop]
  | succ k ih =>
      rw [uintxIsZeroLoop, byte_eq (by omega), ih (by omega)]
      simp only [Option.bind_eq_bind, Option.bind_some]
      by_cases hzero : mem (x.addr + p) = 0
      · have hall : (∀ i < k, mem (x.addr + (p + 1 + i)) = 0) ↔
            ∀ i < k + 1, mem (x.addr + (p + i)) = 0 := by
          have hfirst : mem (x.addr + (p + 0)) = 0 := hzero
          rw [Nat.forall_lt_succ_left, and_iff_right hfirst]
          simp only [Nat.add_assoc, Nat.add_comm 1]
        simp only [hzero, ne_eq, not_true_eq_false, if_false, hall]
      · rw [if_pos hzero, if_neg fun hall => hzero (hall 0 (Nat.succ_pos k))]
        rfl

theorem val_eq_zero_iff : x.val mem (8 * k) = 0 ↔ ∀ i < k, mem (x.addr + i) = 0 := by
  induction k with
  | zero => exact ⟨fun _ i hi => absurd hi (Nat.not_lt_zero i), fun _ => rfl⟩
  | succ k ih =>
      rw [val_byte, Nat.add_eq_zero_iff, ih, Nat.forall_lt_succ_right,
        Nat.mul_eq_zero, or_iff_left (Nat.two_pow_pos _).ne', ← UInt8.toNat_inj]
      rfl

theorem numOrder_zero_iff (A : ℕ) : numOrder A 0 = 0 ↔ A = 0 := by
  unfold numOrder
  split_ifs <;> omega

theorem uintxCompare64_zero (hn : n % 8 = 0) (hx : uintxNbytes n ≤ x.size)
    (hapart : x.Apart ⟨stack, 8⟩) :
    uintxCompare64 stack mem x n 0 = some (numOrder (x.val mem n) 0) := by
  obtain ⟨mem₁, hwith, hval, hvalue, -⟩ := withU64_eq uintxCompare hapart hx mem 0
  have hpad : ∀ (y : Storage) w, w % 8 = 0 → uintxNbytes w ≤ y.size → Padded y mem₁ w :=
    fun y w hw hroom => ⟨hroom, fun i h1 h2 => by
      unfold uintxNbytes at h2
      omega⟩
  have hvalue' : Storage.val ⟨stack, 8⟩ mem₁ 64 = 0 := hvalue
  have hwide := hpad ⟨stack, 8⟩ 64 (by norm_num) (le_refl 8)
  rw [uintxCompare64, hwith]
  rcases Nat.eq_zero_or_pos n with rfl | hpos
  · have hnone : ¬ ExcessSeen 0 64 (Storage.val ⟨stack, 8⟩ mem₁ 64) := by
      rw [hvalue']
      decide
    unfold uintxCompare
    rw [if_neg (by norm_num), if_pos (by norm_num), uintxExcess_eq hwide (by norm_num),
      decide_eq_false hnone]
    rfl
  · have hiff := uintxCompare_iff (show 1 ≤ n from hpos) (by norm_num) (hpad x n hn hx) hwide
    rw [hval, hvalue'] at hiff
    refine hiff.mpr (comparesRight_of_aligned ?_ (by omega) (x.val_lt mem n) (Nat.two_pow_pos 64))
    exact ⟨Or.inl (by omega), Or.inl (by omega)⟩

/-- For numbers of whole bytes, `uintx_is_zero` is right unless just the last byte is not zero. -/
theorem uintxIsZero_iff (hn : n % 8 = 0) (hx : uintxNbytes n ≤ x.size)
    (hapart : x.Apart ⟨stack, 8⟩) (mem : Bytes) :
    ∃ zero order, uintxIsZero mem x n = some zero ∧ uintxCompare64 stack mem x n 0 = some order ∧
      ((zero = 1 ↔ order = 0) ↔
        (n = 0 ∨ mem (x.addr + (uintxNbytes n - 1)) = 0 ∨
          ∃ i < uintxNbytes n - 1, mem (x.addr + i) ≠ 0)) := by
  refine ⟨_, _, uintxIsZeroLoop_eq (by omega), uintxCompare64_zero hn hx hapart, ?_⟩
  rw [numOrder_zero_iff]
  rcases Nat.eq_zero_or_pos n with rfl | hpos
  · simp [uintxNbytes, val]
  · obtain ⟨k, rfl⟩ : ∃ k, n = 8 * (k + 1) := ⟨n / 8 - 1, by omega⟩
    have hbytes : uintxNbytes (8 * (k + 1)) = k + 1 := by
      unfold uintxNbytes
      omega
    rw [hbytes, val_eq_zero_iff, Nat.forall_lt_succ_right, Nat.add_sub_cancel]
    simp only [Nat.zero_add]
    by_cases hall : ∀ i < k, mem (x.addr + i) = 0
    · have hnone : ¬ ∃ i < k, mem (x.addr + i) ≠ 0 := by
        rintro ⟨i, hi, hne⟩
        exact hne (hall i hi)
      rw [if_pos hall, and_iff_right hall, or_iff_left hnone, or_iff_right hpos.ne']
      exact ⟨fun h => h.mp rfl, fun h => iff_of_true rfl h⟩
    · have hsome : ∃ i < k, mem (x.addr + i) ≠ 0 := by
        push Not at hall
        exact hall
      simp [hall, hsome]

/-- The number 256 of two bytes. -/
theorem uintxIsZero_iff_sixteen :
    ∃ zero order, uintxIsZero (fun i => if i = 1 then 1 else 0) ⟨0, 2⟩ 16 = some zero ∧
      uintxCompare64 2 (fun i => if i = 1 then 1 else 0) ⟨0, 2⟩ 16 0 = some order ∧
      ((zero = 1 ↔ order = 0) ↔
        (16 = 0 ∨ (if 0 + (uintxNbytes 16 - 1) = 1 then (1 : UInt8) else 0) = 0 ∨
          ∃ i < uintxNbytes 16 - 1, (if 0 + i = 1 then (1 : UInt8) else 0) ≠ 0)) :=
  uintxIsZero_iff (by decide) (by decide) (Or.inl (by decide)) _

/-- The number 1 of one byte is taken for zero. -/
theorem uintxIsZero_misses_byte :
    uintxCompare64 1 (fun i => if i = 0 then 1 else 0) ⟨0, 1⟩ 8 0 = some 1 ∧
      ¬ (uintxIsZero (fun i => if i = 0 then 1 else 0) ⟨0, 1⟩ 8 = some 1 ↔
        uintxCompare64 1 (fun i => if i = 0 then 1 else 0) ⟨0, 1⟩ 8 0 = some 0) := by
  decide

end Carthage
