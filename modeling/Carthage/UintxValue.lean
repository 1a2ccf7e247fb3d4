import Carthage.Uintx
import Mathlib.Tactic

/-!
# The number in an array of bytes

The value of the low bits of an array, what setting one bit leaves of the memory, and the number
that an array starts with.
-/

namespace Carthage

namespace Bytes

variable {map map' : Bytes} {n m k v : ℕ}

theorem toNat_bitVmask : (bitVmask n v).toNat = if v ≠ 0 then 2 ^ (n % 8) else 0 := by
  unfold bitVmask
  split_ifs with hv
  · exact toNat_bitMask
  · rfl

theorem testBit_vsetBit :
    (map.vsetBit n v).testBit m = if m = n then decide (v ≠ 0) else map.testBit m := by
  have hj : m % 8 < 8 := Nat.mod_lt m (by norm_num)
  rw [testBit_eq, testBit_eq]
  unfold vsetBit
  by_cases hbyte : m / 8 = n / 8
  · rw [if_pos hbyte, UInt8.toNat_or, UInt8.toNat_and, toNat_bitVmask, Nat.testBit_or,
      Nat.testBit_and, testBit_not_bitMask hj]
    have hiff : m = n ↔ m % 8 = n % 8 := by
      rw [← Nat.div_add_mod m 8, ← Nat.div_add_mod n 8, hbyte]
      omega
    by_cases hmn : m % 8 = n % 8
    · by_cases hv : v = 0 <;> simp [hiff, hmn, hv]
    · have hne : n % 8 ≠ m % 8 := fun h => hmn h.symm
      by_cases hv : v = 0 <;> simp [hiff, hmn, hv, hne]
  · have hne : m ≠ n := fun heq => hbyte (congrArg (· / 8) heq)
    rw [if_neg hbyte, if_neg hne]

theorem eq_of_testBit (h : ∀ j < 8, map'.testBit (8 * k + j) = map.testBit (8 * k + j)) :
    map' k = map k := by
  rw [byte_eq_iff]
  intro j hj
  have hbit := h j hj
  rwa [testBit_eq, testBit_eq, Nat.mul_add_div (by norm_num), Nat.div_eq_of_lt hj,
    Nat.add_zero, Nat.mul_add_mod, Nat.mod_eq_of_lt hj] at hbit

end Bytes

namespace Storage

variable {x y : Storage} {mem mem' mem'' : Bytes} {i j k m n v : ℕ}

/-- The number in the low `n` bits. -/
def val (x : Storage) (mem : Bytes) : ℕ → ℕ
  | 0 => 0
  | n + 1 => x.val mem n + (mem.testBit (x.bitAddr n)).toNat * 2 ^ n

theorem val_lt (x : Storage) (mem : Bytes) (n : ℕ) : x.val mem n < 2 ^ n := by
  induction n with
  | zero => exact Nat.one_pos
  | succ n ih =>
      have hbit := Bool.toNat_le (mem.testBit (x.bitAddr n))
      have hmul := Nat.mul_le_mul_right (2 ^ n) hbit
      rw [val, pow_succ]
      omega

theorem testBit_val (x : Storage) (mem : Bytes) (n i : ℕ) :
    (x.val mem n).testBit i = (decide (i < n) && mem.testBit (x.bitAddr i)) := by
  induction n with
  | zero => simp [val]
  | succ n ih =>
      rw [val, Nat.add_comm, Nat.mul_comm, Nat.testBit_two_pow_mul_add _ (x.val_lt mem n), ih]
      rcases Nat.lt_trichotomy i n with hi | rfl | hi
      · simp [hi, hi.trans (Nat.lt_succ_self n)]
      · cases mem.testBit (x.bitAddr i) <;> simp
      · have hbit : (mem.testBit (x.bitAddr n)).toNat < 2 ^ (i - n) :=
          (Bool.toNat_le _).trans_lt (Nat.one_lt_two_pow (by omega))
        have hlarge : ¬ i < n ∧ ¬ i < n + 1 := by omega
        simp [hlarge, Nat.testBit_lt_two_pow hbit]

theorem val_congr (h : ∀ i < n, mem'.testBit (y.bitAddr i) = mem.testBit (x.bitAddr i)) :
    y.val mem' n = x.val mem n := by
  induction n with
  | zero => rfl
  | succ n ih =>
      rw [val, val, h n (Nat.lt_succ_self n), ih fun i hi => h i (hi.trans (Nat.lt_succ_self n))]

theorem val_mod (h : m ≤ n) : x.val mem n % 2 ^ m = x.val mem m := by
  apply Nat.eq_of_testBit_eq
  intro i
  rw [Nat.testBit_mod_two_pow, testBit_val, testBit_val]
  by_cases hi : i < m
  · simp [hi, hi.trans_le h]
  · simp [hi]

theorem val_mono (x : Storage) (mem : Bytes) (h : m ≤ n) : x.val mem m ≤ x.val mem n := by
  rw [← val_mod h]
  exact Nat.mod_le _ _

/-- No bits but the first `n` of an array are changed. -/
def Outside (x : Storage) (n : ℕ) (mem mem' : Bytes) : Prop :=
  ∀ j, (j < x.bitAddr 0 ∨ x.bitAddr n ≤ j) → mem'.testBit j = mem.testBit j

theorem Outside.refl (x : Storage) (n : ℕ) (mem : Bytes) : x.Outside n mem mem := fun _ _ => rfl

theorem Outside.trans (h : x.Outside n mem mem') (h' : x.Outside n mem' mem'') :
    x.Outside n mem mem'' := fun j hj => (h' j hj).trans (h j hj)

theorem Outside.mono (h : x.Outside m mem mem') (hle : m ≤ n) : x.Outside n mem mem' := by
  refine fun j hj => h j ?_
  unfold bitAddr at hj ⊢
  omega

theorem Outside.byte (h : x.Outside n mem mem') (hn : uintxNbytes n ≤ x.size)
    (hk : k < x.addr ∨ x.addr + x.size ≤ k) : mem' k = mem k := by
  refine Bytes.eq_of_testBit fun j hj => h _ ?_
  unfold uintxNbytes at hn
  unfold bitAddr
  omega

/-- Two arrays without a common byte. -/
def Apart (x y : Storage) : Prop := x.addr + x.size ≤ y.addr ∨ y.addr + y.size ≤ x.addr

theorem div_lt_size (hi : i < n) (hn : uintxNbytes n ≤ x.size) : i / 8 < x.size := by
  unfold uintxNbytes at hn
  omega

theorem Outside.apart (h : x.Outside n mem mem') (hxy : x.Apart y) (hn : uintxNbytes n ≤ x.size)
    (hi : i / 8 < y.size) : mem'.testBit (y.bitAddr i) = mem.testBit (y.bitAddr i) := by
  refine h _ ?_
  unfold uintxNbytes at hn
  unfold Apart at hxy
  unfold bitAddr
  omega

theorem Outside.val_apart (h : x.Outside n mem mem') (hxy : x.Apart y)
    (hn : uintxNbytes n ≤ x.size) (hm : uintxNbytes m ≤ y.size) :
    y.val mem' m = y.val mem m :=
  val_congr fun _ hi => h.apart hxy hn (div_lt_size hi hm)

/-! ## Single bits -/

theorem bit_eq (hi : i / 8 < x.size) : x.bit mem i = some (mem.testBit (x.bitAddr i)) := if_pos hi

theorem vset_eq (hi : i / 8 < x.size) : x.vset mem i v = some (mem.vsetBit (x.bitAddr i) v) :=
  if_pos hi

theorem testBit_vset : (mem.vsetBit (x.bitAddr i) v).testBit (x.bitAddr j) =
    if j = i then decide (v ≠ 0) else mem.testBit (x.bitAddr j) := by
  rw [Bytes.testBit_vsetBit]
  unfold bitAddr
  simp only [Nat.add_left_cancel_iff]

theorem outside_vset (hi : i < n) : x.Outside n mem (mem.vsetBit (x.bitAddr i) v) := by
  intro j hj
  rw [Bytes.testBit_vsetBit, if_neg]
  unfold bitAddr at *
  omega

theorem val_vset_low (hn : n ≤ i) : x.val (mem.vsetBit (x.bitAddr i) v) n = x.val mem n :=
  val_congr fun j hj => by rw [testBit_vset, if_neg (by omega)]

theorem val_vset_succ :
    x.val (mem.vsetBit (x.bitAddr i) v) (i + 1) = x.val mem i + (decide (v ≠ 0)).toNat * 2 ^ i := by
  rw [val, val_vset_low le_rfl, testBit_vset, if_pos rfl]

theorem val_zeros (hm : m ≤ n)
    (h : ∀ j, m ≤ j → j < n → mem.testBit (x.bitAddr j) = false) : x.val mem n = x.val mem m := by
  induction n with
  | zero => rw [Nat.le_zero.mp hm]
  | succ n ih =>
      rcases Nat.eq_or_lt_of_le hm with rfl | hlt
      · rfl
      · rw [val, h n (Nat.lt_succ_iff.mp hlt) (Nat.lt_succ_self n), Bool.toNat_false, Nat.zero_mul,
          Nat.add_zero, ih (Nat.lt_succ_iff.mp hlt) fun j h1 h2 => h j h1 (h2.trans (Nat.lt_succ_self n))]

/-! ## Numbers to start with -/

theorem testBit_clear (hj : j < 8 * n) :
    (mem.write x.addr (List.replicate n 0)).testBit (x.bitAddr j) = false := by
  have hbyte : x.bitAddr j / 8 = x.addr + j / 8 := by
    unfold bitAddr
    omega
  have hlt : j / 8 < n := by omega
  rw [Bytes.testBit_eq, hbyte, Bytes.write, if_pos (Nat.le_add_right _ _),
    Nat.add_sub_cancel_left]
  simp [hlt]

theorem outside_clear : x.Outside (8 * n) mem (mem.write x.addr (List.replicate n 0)) := by
  intro j hj
  have hbyte : mem.write x.addr (List.replicate n 0) (j / 8) = mem (j / 8) := by
    unfold bitAddr at hj
    by_cases hlow : j / 8 < x.addr
    · exact Bytes.write_of_lt hlow
    · exact Bytes.write_of_ge (by rw [List.length_replicate]; omega)
  rw [Bytes.testBit_eq, Bytes.testBit_eq, hbyte]

end Storage

theorem toNat_bit (c : ℕ) : (decide (c % 2 ≠ 0)).toNat = c % 2 := by
  rcases Nat.mod_two_eq_zero_or_one c with h0 | h1
  · rw [h0]
    rfl
  · rw [h1]
    rfl

theorem uintxFromU64Loop_spec {x : Storage} {n : ℕ} (mem : Bytes) (i value fuel : ℕ)
    (hn : uintxNbytes n ≤ x.size) (hi : i ≤ n) (hvalue : value * 2 ^ i < 2 ^ n)
    (hfuel : value < 2 ^ fuel) (h : ∀ j, i ≤ j → j < n → mem.testBit (x.bitAddr j) = false) :
    ∃ mem', uintxFromU64Loop x (fuel + 1) mem i value = some mem' ∧
      x.val mem' n = x.val mem i + value * 2 ^ i ∧ x.Outside n mem mem' := by
  induction fuel generalizing mem i value with
  | zero =>
      obtain rfl : value = 0 := Nat.lt_one_iff.mp hfuel
      exact ⟨mem, rfl, by rw [Storage.val_zeros hi h, Nat.zero_mul, Nat.add_zero], .refl x n mem⟩
  | succ fuel ih =>
      rw [uintxFromU64Loop]
      by_cases hzero : value = 0
      · refine ⟨mem, if_neg (not_not.mpr hzero), ?_, .refl x n mem⟩
        rw [Storage.val_zeros hi h, hzero, Nat.zero_mul, Nat.add_zero]
      · have hlt : i < n := by
          by_contra hge
          have hle : 1 * 2 ^ n ≤ value * 2 ^ i :=
            Nat.mul_le_mul (Nat.pos_of_ne_zero hzero)
              (Nat.pow_le_pow_right (by norm_num) (not_lt.mp hge))
          omega
        have hhalf : value % 2 * 2 ^ i + value / 2 * 2 ^ (i + 1) = value * 2 ^ i := by
          conv_rhs => rw [← Nat.mod_add_div value 2]
          ring
        obtain ⟨mem', hrun, hval, hout⟩ := ih (mem.vsetBit (x.bitAddr i) (value % 2))
          (i + 1) (value / 2) hlt (by omega)
          (by rw [pow_succ] at hfuel; omega) fun j h1 h2 => by
            rw [Storage.testBit_vset, if_neg (by omega)]
            exact h j (by omega) h2
        refine ⟨mem', ?_, ?_, (Storage.outside_vset hlt).trans hout⟩
        · rw [if_pos hzero, Storage.vset_eq (Storage.div_lt_size hlt hn)]
          exact hrun
        · rw [hval, Storage.val_vset_succ, toNat_bit, Nat.add_assoc, hhalf]

theorem uintxFromU64_spec {x : Storage} (mem : Bytes) (value : UInt64) (hx : 8 ≤ x.size) :
    ∃ mem', uintxFromU64 mem x 64 value = some mem' ∧ x.val mem' 64 = value.toNat ∧
      x.Outside 64 mem mem' := by
  obtain ⟨mem', hrun, hval, hout⟩ := uintxFromU64Loop_spec (x := x) (n := 64)
    (mem.write x.addr (List.replicate 8 0)) 0 value.toNat 64 hx (Nat.zero_le 64)
    (by rw [pow_zero, Nat.mul_one]; exact value.toNat_lt) value.toNat_lt
    fun j _ hj => Storage.testBit_clear hj
  refine ⟨mem', ?_, ?_, (Storage.outside_clear (n := 8)).trans hout⟩
  · unfold uintxFromU64
    rw [show uintxNbytes 64 = 8 from rfl, Storage.clear, if_pos hx]
    exact hrun
  · rw [hval, pow_zero, Nat.mul_one]
    exact Nat.zero_add _

end Carthage
