import Carthage.UintxValue

/-!
# Increment and decrement

Both go from byte to byte as long as there is a carry or a borrow. Where they stop tells
`uintx_inc` whether there is a carry left, but `uintx_dec` not whether there is a borrow.
-/

namespace Carthage

open Storage

section Bytes

variable {x : Storage} {mem mem' : Bytes} {k m p q : ℕ} {v : UInt8}

theorem val_byte (x : Storage) (mem : Bytes) (k : ℕ) :
    x.val mem (8 * (k + 1)) = x.val mem (8 * k) + (mem (x.addr + k)).toNat * 2 ^ (8 * k) := by
  apply Nat.eq_of_testBit_eq
  intro i
  rw [Nat.add_comm (x.val mem _), Nat.mul_comm _ (2 ^ _), Nat.testBit_two_pow_mul_add _ (x.val_lt mem _),
    testBit_val, testBit_val]
  by_cases hlow : i < 8 * k
  · simp [hlow, show i < 8 * (k + 1) by omega]
  · obtain ⟨j, rfl⟩ := Nat.exists_eq_add_of_le (not_lt.mp hlow)
    rw [if_neg hlow, Nat.add_sub_cancel_left]
    by_cases hj : j < 8
    · have hbyte : x.bitAddr (8 * k + j) / 8 = x.addr + k ∧ x.bitAddr (8 * k + j) % 8 = j := by
        unfold bitAddr
        omega
      rw [Bytes.testBit_eq, hbyte.1, hbyte.2, decide_eq_true (by omega), Bool.true_and]
    · have hbig : (mem (x.addr + k)).toNat < 2 ^ j :=
        (mem (x.addr + k)).toNat_lt.trans_le (Nat.pow_le_pow_right (by norm_num) (not_lt.mp hj))
      rw [Nat.testBit_lt_two_pow hbig, decide_eq_false (by omega), Bool.false_and]

variable (x mem) in
theorem val_store (hk : k < m) (v : UInt8) :
    x.val (Function.update mem (x.addr + k) v) (8 * m) + (mem (x.addr + k)).toNat * 2 ^ (8 * k) =
      x.val mem (8 * m) + v.toNat * 2 ^ (8 * k) := by
  induction m with
  | zero => omega
  | succ m ih =>
      rw [val_byte, val_byte]
      rcases Nat.lt_succ_iff_lt_or_eq.mp hk with hlt | rfl
      · rw [Function.update_of_ne (by omega)]
        have hrest := ih hlt
        omega
      · have hlow : x.val (Function.update mem (x.addr + k) v) (8 * k) = x.val mem (8 * k) := by
          refine val_congr fun i hi => ?_
          have hne : x.bitAddr i / 8 ≠ x.addr + k := by
            unfold bitAddr
            omega
          rw [Bytes.testBit_eq, Bytes.testBit_eq, Function.update_of_ne hne]
        rw [hlow, Function.update_self]
        omega

theorem outside_store (hk : k < m) : x.Outside (8 * m) mem (Function.update mem (x.addr + k) v) := by
  intro j hj
  have hne : j / 8 ≠ x.addr + k := by
    unfold bitAddr at hj
    omega
  rw [Bytes.testBit_eq, Bytes.testBit_eq, Function.update_of_ne hne]

theorem byte_eq (hk : k < x.size) : x.byte mem k = some (mem (x.addr + k)) := if_pos hk

theorem store_eq (hk : k < x.size) :
    x.store mem k v = some (Function.update mem (x.addr + k) v) := if_pos hk

theorem uintxNbytes_mul (m : ℕ) : uintxNbytes (8 * m) = m := by
  unfold uintxNbytes
  omega

end Bytes

/-! ## The loops -/

section Loops

variable {x : Storage} {mem : Bytes} {m p : ℕ}

/-- What a loop that starts at byte `p` leaves, when it stops at byte `q`. -/
structure StopsAt (x : Storage) (m : ℕ) (mem mem' : Bytes) (p q : ℕ) : Prop where
  from_start : p ≤ q
  inside : q < m
  outside : x.Outside (8 * m) mem mem'

theorem pow_byte (p : ℕ) : 2 ^ (8 * (p + 1)) = 256 * 2 ^ (8 * p) := by
  rw [Nat.mul_succ, pow_add]
  ring

theorem inc_eq_zero_iff (v : UInt8) : v + 1 = 0 ↔ v.toNat = 255 := by
  have hlt := v.toNat_lt
  have hadd : (v + 1).toNat = (v.toNat + 1) % 256 := UInt8.toNat_add v 1
  rw [← UInt8.toNat_inj, hadd, UInt8.toNat_zero]
  omega

theorem toNat_inc {v : UInt8} (h : v + 1 ≠ 0) : (v + 1).toNat = v.toNat + 1 := by
  have hlt := v.toNat_lt
  have hadd : (v + 1).toNat = (v.toNat + 1) % 256 := UInt8.toNat_add v 1
  rw [Ne, inc_eq_zero_iff] at h
  omega

theorem toNat_dec {v : UInt8} (h : v ≠ 0) : (v - 1).toNat + 1 = v.toNat := by
  have hback := toNat_inc (v := v - 1) (by rwa [UInt8.sub_add_cancel])
  rwa [UInt8.sub_add_cancel, eq_comm] at hback

theorem toNat_dec_zero {v : UInt8} (h : v = 0) : (v - 1).toNat = 255 := by
  rw [h]
  rfl

theorem val_carry (hp : p < m) (h : mem (x.addr + p) + 1 = 0) :
    x.val (Function.update mem (x.addr + p) (mem (x.addr + p) + 1)) (8 * m) + 2 ^ (8 * (p + 1)) =
      x.val mem (8 * m) + 2 ^ (8 * p) := by
  have hstore := val_store x mem hp (mem (x.addr + p) + 1)
  have hzero : (mem (x.addr + p) + 1).toNat = 0 := congrArg UInt8.toNat h
  rw [(inc_eq_zero_iff _).mp h, hzero] at hstore
  rw [pow_byte]
  omega

theorem val_inc (hp : p < m) (h : mem (x.addr + p) + 1 ≠ 0) :
    x.val (Function.update mem (x.addr + p) (mem (x.addr + p) + 1)) (8 * m) =
      x.val mem (8 * m) + 2 ^ (8 * p) := by
  have hstore := val_store x mem hp (mem (x.addr + p) + 1)
  rw [toNat_inc h, Nat.add_mul] at hstore
  omega

theorem val_borrow (hp : p < m) (h : mem (x.addr + p) = 0) :
    x.val (Function.update mem (x.addr + p) (mem (x.addr + p) - 1)) (8 * m) + 2 ^ (8 * p) =
      x.val mem (8 * m) + 2 ^ (8 * (p + 1)) := by
  have hstore := val_store x mem hp (mem (x.addr + p) - 1)
  have hzero : (mem (x.addr + p)).toNat = 0 := congrArg UInt8.toNat h
  rw [toNat_dec_zero h, hzero] at hstore
  rw [pow_byte]
  omega

theorem val_dec (hp : p < m) (h : mem (x.addr + p) ≠ 0) :
    x.val (Function.update mem (x.addr + p) (mem (x.addr + p) - 1)) (8 * m) + 2 ^ (8 * p) =
      x.val mem (8 * m) := by
  have hstore := val_store x mem hp (mem (x.addr + p) - 1)
  rw [← toNat_dec h, Nat.add_mul] at hstore
  omega

theorem val_byte_eq_iff : x.val mem (8 * (p + 1)) = x.val mem (8 * p) ↔ mem (x.addr + p) = 0 := by
  have hpos := Nat.two_pow_pos (8 * p)
  rw [val_byte, ← UInt8.toNat_inj, UInt8.toNat_zero]
  constructor
  · intro h
    have hzero : (mem (x.addr + p)).toNat * 2 ^ (8 * p) = 0 := by omega
    exact (Nat.mul_eq_zero.mp hzero).resolve_right hpos.ne'
  · intro h
    rw [h, Nat.zero_mul, Nat.add_zero]

theorem StopsAt.cons {mem' : Bytes} {q : ℕ} {v : UInt8} (hp : p < m)
    (h : StopsAt x m (Function.update mem (x.addr + p) v) mem' (p + 1) q) :
    StopsAt x m mem mem' p q :=
  ⟨Nat.le_of_succ_le h.from_start, h.inside, (outside_store hp).trans h.outside⟩

theorem StopsAt.here {v : UInt8} (hp : p < m) :
    StopsAt x m mem (Function.update mem (x.addr + p) v) p p :=
  ⟨le_rfl, hp, outside_store hp⟩

theorem uintxIncLoop_spec (hm : m ≤ x.size) (hp : p < m) (fuel : ℕ) (hfuel : m < fuel + p)
    (mem : Bytes) : ∃ mem' q, uintxIncLoop x m fuel mem p = some (mem', q) ∧
      StopsAt x m mem mem' p q ∧
      x.val mem' (8 * m) + (if q + 1 = m ∧ mem' (x.addr + q) = 0 then 2 ^ (8 * m) else 0) =
        x.val mem (8 * m) + 2 ^ (8 * p) := by
  induction fuel generalizing mem p with
  | zero => omega
  | succ fuel ih =>
      rw [uintxIncLoop, byte_eq (hp.trans_le hm)]
      simp only [Option.bind_eq_bind, Option.bind_some, store_eq (hp.trans_le hm)]
      by_cases hzero : mem (x.addr + p) + 1 = 0
      · by_cases hmore : p + 1 < m
        · obtain ⟨mem', q, hrun, hstop, hval⟩ := ih hmore (by omega)
            (Function.update mem (x.addr + p) (mem (x.addr + p) + 1))
          refine ⟨mem', q, (if_pos ⟨hzero, hmore⟩).trans hrun, hstop.cons hp, ?_⟩
          rw [hval, val_carry hp hzero]
        · obtain rfl : p + 1 = m := by omega
          refine ⟨_, p, if_neg fun h => hmore h.2, .here hp, ?_⟩
          rw [Function.update_self, if_pos ⟨rfl, hzero⟩, val_carry hp hzero]
      · refine ⟨_, p, if_neg fun h => hzero h.1, .here hp, ?_⟩
        rw [Function.update_self, if_neg fun h => hzero h.2, val_inc hp hzero, Nat.add_zero]

theorem val_one_iff (hp : p < m) (hne : mem (x.addr + p) ≠ 0) :
    p + 1 = m ∧ (mem (x.addr + p)).toNat = 1 ↔
      x.val mem (8 * m) = x.val mem (8 * p) + 2 ^ (8 * (m - 1)) := by
  have hbyte := val_byte x mem p
  have hpos := Nat.two_pow_pos (8 * p)
  have hv : 0 < (mem (x.addr + p)).toNat := by
    rw [Nat.pos_iff_ne_zero]
    exact fun h => hne (UInt8.toNat_inj.mp h)
  have hpv := Nat.mul_pos hv hpos
  by_cases hlast : p + 1 = m
  · subst hlast
    rw [Nat.add_sub_cancel, hbyte]
    constructor
    · rintro ⟨-, hone⟩
      rw [hone, Nat.one_mul]
    · intro heq
      have hone : (mem (x.addr + p)).toNat * 2 ^ (8 * p) = 1 * 2 ^ (8 * p) := by omega
      exact ⟨rfl, Nat.eq_of_mul_eq_mul_right hpos hone⟩
  · -- the last byte does not reach down to byte `p`
    refine iff_of_false (fun h => hlast h.1) fun heq => ?_
    have hle : 8 * (p + 1) ≤ 8 * m := by omega
    have hle' : 8 * (p + 1) ≤ 8 * (m - 1) := by omega
    have hlow : x.val mem (8 * (p + 1)) = x.val mem (8 * p) := by
      rw [← val_mod hle, heq, ← Nat.add_sub_of_le hle', pow_add, Nat.add_mul_mod_self_left]
      exact Nat.mod_eq_of_lt ((x.val_lt mem _).trans_le (Nat.pow_le_pow_right (by norm_num)
        (by omega)))
    omega

/-- The loop takes one off at byte `p`; it stops at a last byte that has become zero when the
number from byte `p` on was one in its last byte. -/
theorem uintxDecLoop_spec (hm : m ≤ x.size) (hp : p < m) (fuel : ℕ) (hfuel : m < fuel + p)
    (mem : Bytes) : ∃ mem' q, uintxDecLoop x m fuel mem p = some (mem', q) ∧
      StopsAt x m mem mem' p q ∧
      x.val mem' (8 * m) + 2 ^ (8 * p) = x.val mem (8 * m) +
        (if x.val mem (8 * m) = x.val mem (8 * p) then 2 ^ (8 * m) else 0) ∧
      (q + 1 = m ∧ mem' (x.addr + q) = 0 ↔
        x.val mem (8 * m) = x.val mem (8 * p) + 2 ^ (8 * (m - 1))) := by
  induction fuel generalizing mem p with
  | zero => omega
  | succ fuel ih =>
      rw [uintxDecLoop, byte_eq (hp.trans_le hm)]
      simp only [Option.bind_eq_bind, Option.bind_some, store_eq (hp.trans_le hm)]
      by_cases hzero : mem (x.addr + p) = 0
      · have hsame := val_byte_eq_iff.mpr hzero
        have hborrow := val_borrow hp hzero
        by_cases hmore : p + 1 < m
        · obtain ⟨mem', q, hrun, hstop, hval, hflag⟩ := ih hmore (by omega)
            (Function.update mem (x.addr + p) (mem (x.addr + p) - 1))
          refine ⟨mem', q, (if_pos ⟨hzero, hmore⟩).trans hrun, hstop.cons hp, ?_⟩
          -- the bytes up to `p` have grown by as much as the whole number
          have hlow := val_borrow (Nat.lt_add_one p) hzero
          constructor
          · split_ifs at hval ⊢ <;> omega
          · rw [hflag]
            omega
        · obtain rfl : p + 1 = m := by omega
          refine ⟨_, p, if_neg fun h => hmore h.2, .here hp, ?_⟩
          rw [Function.update_self]
          constructor
          · rw [if_pos hsame, hborrow]
          · have hpos := Nat.two_pow_pos (8 * (p + 1 - 1))
            have hones := toNat_dec_zero hzero
            refine iff_of_false (fun h => ?_) (by omega)
            rw [h.2, UInt8.toNat_zero] at hones
            omega
      · refine ⟨_, p, if_neg fun h => hzero h.1, .here hp, ?_⟩
        rw [Function.update_self]
        have hdec := toNat_dec hzero
        have hlow := x.val_mono mem (show 8 * p ≤ 8 * (p + 1) by omega)
        have hhigh := x.val_mono mem (show 8 * (p + 1) ≤ 8 * m by omega)
        have hne : x.val mem (8 * (p + 1)) ≠ x.val mem (8 * p) := fun h =>
          hzero (val_byte_eq_iff.mp h)
        constructor
        · rw [val_dec hp hzero, if_neg (by omega), Nat.add_zero]
        · rw [← val_one_iff hp hzero, ← UInt8.toNat_inj, UInt8.toNat_zero]
          omega

/-! ## Whole numbers -/

theorem uintxOverflow_eq {q : ℕ} (hq : q < x.size) (mem : Bytes) :
    uintxOverflow x m mem q = some (if q + 1 = m ∧ mem (x.addr + q) = 0 then 1 else 0) := by
  unfold uintxOverflow
  by_cases hlast : q + 1 = m
  · rw [if_pos hlast, byte_eq hq]
    by_cases hzero : mem (x.addr + q) = 0 <;> simp [hlast, hzero]
  · rw [if_neg hlast, if_neg fun h => hlast h.1]

theorem uintxInc_spec (hm : m ≤ x.size) (hpos : 0 < m) (mem : Bytes) :
    ∃ mem', uintxInc mem x (8 * m) =
        some (mem', if x.val mem (8 * m) = 2 ^ (8 * m) - 1 then 1 else 0) ∧
      x.val mem' (8 * m) = (x.val mem (8 * m) + 1) % 2 ^ (8 * m) ∧ x.Outside (8 * m) mem mem' := by
  obtain ⟨mem', q, hrun, hstop, hval⟩ := uintxIncLoop_spec hm hpos (m + 1) (by omega) mem
  have hlt := x.val_lt mem (8 * m)
  have hlt' := x.val_lt mem' (8 * m)
  rw [Nat.mul_zero, pow_zero] at hval
  have hflag : q + 1 = m ∧ mem' (x.addr + q) = 0 ↔ x.val mem (8 * m) = 2 ^ (8 * m) - 1 := by
    split_ifs at hval with h
    · exact iff_of_true h (by omega)
    · exact iff_of_false h (by omega)
  refine ⟨mem', ?_, ?_, hstop.outside⟩
  · unfold uintxInc
    rw [uintxNbytes_mul, hrun]
    simp only [Option.bind_eq_bind, Option.bind_some,
      uintxOverflow_eq (hstop.inside.trans_le hm), hflag]
    rfl
  · simp only [hflag] at hval
    split_ifs at hval with h
    · have htotal : x.val mem (8 * m) + 1 = 2 ^ (8 * m) := by omega
      rw [htotal, Nat.mod_self]
      omega
    · rw [Nat.mod_eq_of_lt (by omega)]
      omega

theorem uintxDec_spec (hm : m ≤ x.size) (hpos : 0 < m) (mem : Bytes) :
    ∃ mem', uintxDec mem x (8 * m) =
        some (mem', if x.val mem (8 * m) = 2 ^ (8 * m - 8) then 1 else 0) ∧
      x.val mem' (8 * m) = (x.val mem (8 * m) + 2 ^ (8 * m) - 1) % 2 ^ (8 * m) ∧
      x.Outside (8 * m) mem mem' := by
  obtain ⟨mem', q, hrun, hstop, hval, hflag⟩ := uintxDecLoop_spec hm hpos (m + 1) (by omega) mem
  have hlt := x.val_lt mem (8 * m)
  have hlt' := x.val_lt mem' (8 * m)
  have hzero : x.val mem (8 * 0) = 0 := rfl
  have hlast : 8 * (m - 1) = 8 * m - 8 := by omega
  rw [hzero, Nat.zero_add, hlast] at hflag
  rw [hzero, Nat.mul_zero, pow_zero] at hval
  refine ⟨mem', ?_, ?_, hstop.outside⟩
  · unfold uintxDec
    rw [uintxNbytes_mul, hrun]
    simp only [Option.bind_eq_bind, Option.bind_some,
      uintxOverflow_eq (hstop.inside.trans_le hm), hflag]
    rfl
  · split_ifs at hval with h
    · rw [h, Nat.zero_add, Nat.mod_eq_of_lt (by omega)]
      omega
    · have hback : x.val mem (8 * m) + 2 ^ (8 * m) - 1 = x.val mem' (8 * m) + 2 ^ (8 * m) := by
        omega
      rw [hback, Nat.add_mod_right, Nat.mod_eq_of_lt hlt']

theorem Storage.Outside.eq_of_val {n : ℕ} {mem' : Bytes} (h : x.Outside n mem mem')
    (hval : x.val mem' n = x.val mem n) : mem' = mem := by
  funext k
  refine Bytes.eq_of_testBit fun j _ => ?_
  by_cases hin : 8 * k + j < x.bitAddr 0 ∨ x.bitAddr n ≤ 8 * k + j
  · exact h _ hin
  · obtain ⟨i, hi, hlt⟩ : ∃ i, 8 * k + j = x.bitAddr i ∧ i < n := by
      unfold bitAddr at hin ⊢
      exact ⟨8 * k + j - 8 * x.addr, by omega, by omega⟩
    have hbit := congrArg (Nat.testBit · i) hval
    simp only [testBit_val, hlt, decide_true, Bool.true_and] at hbit
    rw [hi, hbit]

/-- Increment and decrement count modulo `2 ^ n`, tell when they wrap around and undo each
other. -/
structure Counts (mem : Bytes) (x : Storage) (n : ℕ) : Prop where
  inc : ∃ mem', uintxInc mem x n = some (mem', if x.val mem n = 2 ^ n - 1 then 1 else 0) ∧
    x.val mem' n = (x.val mem n + 1) % 2 ^ n ∧ ∃ r, uintxDec mem' x n = some (mem, r)
  dec : ∃ mem', uintxDec mem x n = some (mem', if x.val mem n = 0 then 1 else 0) ∧
    x.val mem' n = (x.val mem n + 2 ^ n - 1) % 2 ^ n ∧ ∃ r, uintxInc mem' x n = some (mem, r)

theorem uintxDec_zero {mem' : Bytes} {r : ℤ} (h : uintxDec mem x (8 * 0) = some (mem', r)) :
    r = 0 := by
  unfold uintxDec at h
  simp only [Option.bind_eq_bind, Option.bind_eq_some_iff] at h
  obtain ⟨⟨mem₁, q⟩, -, r', hover, hr⟩ := h
  have hnone : ¬ q + 1 = uintxNbytes (8 * 0) := by
    rw [uintxNbytes_mul]
    omega
  rw [uintxOverflow, if_neg hnone] at hover
  obtain rfl := Option.some.inj hover
  exact (congrArg Prod.snd (Option.some.inj hr)).symm

theorem mod_succ_pred {X N : ℕ} (h : X < N) : ((X + 1) % N + N - 1) % N = X := by
  rcases Nat.eq_or_lt_of_le (Nat.succ_le_of_lt h) with hN | hN
  · rw [← hN, Nat.mod_self, Nat.zero_add]
    exact Nat.mod_eq_of_lt (Nat.lt_succ_self X)
  · rw [Nat.mod_eq_of_lt hN, show X + 1 + N - 1 = X + N by omega, Nat.add_mod_right,
      Nat.mod_eq_of_lt h]

theorem mod_pred_succ {X N : ℕ} (h : X < N) : ((X + N - 1) % N + 1) % N = X := by
  rw [Nat.mod_add_mod, show X + N - 1 + 1 = X + N by omega, Nat.add_mod_right, Nat.mod_eq_of_lt h]

/-- Counting is right but for what `uintx_dec` returns at zero and at one in the last byte. -/
theorem uintx_counts_iff {n : ℕ} (hn : 8 ∣ n) (hx : uintxNbytes n ≤ x.size) (mem : Bytes) :
    Counts mem x n ↔ x.val mem n ≠ 0 ∧ x.val mem n ≠ 2 ^ (n - 8) := by
  obtain ⟨m, rfl⟩ := hn
  rw [uintxNbytes_mul] at hx
  have hlt := x.val_lt mem (8 * m)
  rcases Nat.eq_zero_or_pos m with rfl | hpos
  · refine iff_of_false (fun h => ?_) fun h => h.1 rfl
    obtain ⟨mem', hrun, -⟩ := h.dec
    exact absurd (uintxDec_zero hrun) one_ne_zero
  constructor
  · intro h
    obtain ⟨mem₁, hrun₁, -⟩ := h.dec
    obtain ⟨mem₂, hrun₂, -⟩ := uintxDec_spec hx hpos mem
    have hflag := congrArg (Option.map Prod.snd) (hrun₁.symm.trans hrun₂)
    have hpow := Nat.two_pow_pos (8 * m - 8)
    constructor
    · intro hzero
      rw [Option.map_some, Option.map_some, if_pos hzero, if_neg (by omega)] at hflag
      cases hflag
    · intro hone
      rw [Option.map_some, Option.map_some, if_pos hone, if_neg (by omega)] at hflag
      cases hflag
  · rintro ⟨hzero, hone⟩
    obtain ⟨up, hinc, hvalUp, houtUp⟩ := uintxInc_spec hx hpos mem
    obtain ⟨down, hdec, hvalDown, houtDown⟩ := uintxDec_spec hx hpos mem
    obtain ⟨mem₁, hback₁, hval₁, hout₁⟩ := uintxDec_spec hx hpos up
    obtain ⟨mem₂, hback₂, hval₂, hout₂⟩ := uintxInc_spec hx hpos down
    rw [hvalUp, mod_succ_pred hlt] at hval₁
    rw [hvalDown, mod_pred_succ hlt] at hval₂
    rw [(houtUp.trans hout₁).eq_of_val hval₁] at hback₁
    rw [(houtDown.trans hout₂).eq_of_val hval₂] at hback₂
    refine ⟨⟨up, hinc, hvalUp, _, hback₁⟩, ⟨down, ?_, hvalDown, _, hback₂⟩⟩
    rw [hdec, if_neg hone, if_neg hzero]

/-- A number of 16 bits with a carry into its second byte. -/
theorem uintx_counts_two : Counts (Bytes.write (fun _ => 0) 0 [255, 1]) ⟨0, 2⟩ 16 ↔
    Storage.val ⟨0, 2⟩ (Bytes.write (fun _ => 0) 0 [255, 1]) 16 ≠ 0 ∧
      Storage.val ⟨0, 2⟩ (Bytes.write (fun _ => 0) 0 [255, 1]) 16 ≠ 2 ^ (16 - 8) :=
  uintx_counts_iff (by decide) (by decide) _

/-- Zero wraps around, and `uintx_dec` returns 0. -/
theorem uintxDec_wraps : ¬ Counts (fun _ => 0) ⟨0, 1⟩ 8 := by
  intro h
  obtain ⟨mem', hrun, -⟩ := h.dec
  have hreturn : (uintxDec (fun _ => 0) ⟨0, 1⟩ 8).map Prod.snd = some 0 := by decide
  rw [hrun, Option.map_some, if_pos (by decide)] at hreturn
  cases hreturn

end Loops

end Carthage
