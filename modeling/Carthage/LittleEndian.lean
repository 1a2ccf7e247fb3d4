import Mathlib.Data.List.Basic
import Mathlib.Data.List.GetD
import Mathlib.Tactic

/-!
# Little-endian encodings

The number in a list of bytes, its least significant byte first; how its bytes are combined
with those of another number, and the test for a zero among them.
-/

namespace Carthage

def littleEndian : ℕ → ℕ → List UInt8
  | 0, _ => []
  | n + 1, x => .ofNat x :: littleEndian n (x / 256)

def ofLittleEndian : List UInt8 → ℕ
  | [] => 0
  | b :: bs => b.toNat + 256 * ofLittleEndian bs

variable {n x i : ℕ} {b c : UInt8} {as bs : List UInt8}

@[simp] theorem length_littleEndian (n x : ℕ) : (littleEndian n x).length = n := by
  induction n generalizing x with
  | zero => rfl
  | succ n ih => rw [littleEndian, List.length_cons, ih]

theorem getElem_littleEndian (h : i < (littleEndian n x).length) :
    (littleEndian n x)[i] = .ofNat (x / 256 ^ i) := by
  induction n generalizing x i with
  | zero => exact absurd h (Nat.not_lt_zero i)
  | succ n ih =>
      cases i with
      | zero => simp [littleEndian]
      | succ i =>
          have hi : i < (littleEndian n (x / 256)).length := Nat.lt_of_succ_lt_succ h
          have hcons : (littleEndian (n + 1) x)[i + 1] = (littleEndian n (x / 256))[i] := rfl
          rw [hcons, ih hi, Nat.div_div_eq_div_mul, pow_succ']

theorem littleEndian_zero (n : ℕ) : littleEndian n 0 = List.replicate n 0 := by
  induction n with
  | zero => rfl
  | succ n ih =>
      rw [littleEndian, List.replicate_succ, Nat.zero_div, ih]
      rfl

theorem ofLittleEndian_lt (bs : List UInt8) : ofLittleEndian bs < 256 ^ bs.length := by
  induction bs with
  | nil => exact Nat.one_pos
  | cons b bs ih =>
      have hb : b.toNat < 256 := b.toNat_lt
      rw [ofLittleEndian, List.length_cons, pow_succ]
      omega

theorem ofLittleEndian_inj (hlen : as.length = bs.length) :
    ofLittleEndian as = ofLittleEndian bs ↔ as = bs := by
  refine ⟨fun h => ?_, congrArg ofLittleEndian⟩
  induction as generalizing bs with
  | nil => exact (List.length_eq_zero_iff.mp hlen.symm).symm
  | cons a as ih =>
      cases bs with
      | nil => cases hlen
      | cons b bs =>
          have ha : a.toNat < 256 := a.toNat_lt
          have hb : b.toNat < 256 := b.toNat_lt
          rw [ofLittleEndian, ofLittleEndian] at h
          have hhead : a = b := UInt8.toNat_inj.mp (by omega)
          rw [hhead, ih (Nat.succ.inj hlen) (by omega)]

theorem ofLittleEndian_div (b : UInt8) (bs : List UInt8) :
    ofLittleEndian (b :: bs) / 2 ^ 8 = ofLittleEndian bs := by
  have hb : b.toNat < 256 := b.toNat_lt
  rw [ofLittleEndian]
  omega

theorem ofLittleEndian_mod (b : UInt8) (bs : List UInt8) :
    ofLittleEndian (b :: bs) % 2 ^ 8 = b.toNat := by
  have hb : b.toNat < 256 := b.toNat_lt
  rw [ofLittleEndian]
  omega

theorem ofLittleEndian_xor (hlen : as.length = bs.length) :
    ofLittleEndian as ^^^ ofLittleEndian bs = ofLittleEndian (List.zipWith (· ^^^ ·) as bs) := by
  induction as generalizing bs with
  | nil =>
      rw [List.length_eq_zero_iff.mp hlen.symm]
      rfl
  | cons a as ih =>
      cases bs with
      | nil => cases hlen
      | cons b bs =>
          rw [List.zipWith_cons_cons, ← Nat.div_add_mod (_ ^^^ _) (2 ^ 8), Nat.xor_div_two_pow,
            Nat.xor_mod_two_pow, ofLittleEndian_div, ofLittleEndian_div, ofLittleEndian_mod,
            ofLittleEndian_mod, ih (Nat.succ.inj hlen), ofLittleEndian, UInt8.toNat_xor]
          omega

/-! ## Zero bytes -/

/-- `(x - 0x01..01) & ~x & 0x80..80` on numbers of `k` bytes, with `n` bytes `01` and `80`. -/
def zeroTest (k n x : ℕ) : ℕ :=
  (x + 256 ^ k - ofLittleEndian (List.replicate n 0x01)) % 256 ^ k &&& (256 ^ k - 1 - x) &&&
    ofLittleEndian (List.replicate n 0x80)

theorem exists_borrow {k : ℕ} (hk : bs.length ≤ k) (hzero : (0 : UInt8) ∈ bs) :
    ∃ i < bs.length, bs.getD i 0 = 0 ∧
      ((ofLittleEndian bs + 256 ^ k - ofLittleEndian (List.replicate bs.length 0x01)) %
        256 ^ k).testBit (8 * i + 7) = true := by
  induction bs generalizing k with
  | nil => cases hzero
  | cons b bs ih =>
      obtain ⟨k, rfl⟩ : ∃ l, k = l + 1 := ⟨k - 1, by rw [List.length_cons] at hk; omega⟩
      have hk' : bs.length ≤ k := Nat.le_of_succ_le_succ hk
      have hones : ofLittleEndian (List.replicate bs.length 0x01) < 256 ^ k := by
        have hlt := ofLittleEndian_lt (List.replicate bs.length 0x01)
        rw [List.length_replicate] at hlt
        exact hlt.trans_le (Nat.pow_le_pow_right (by norm_num) hk')
      have hone : (0x01 : UInt8).toNat = 1 := rfl
      have hb : b.toNat < 256 := b.toNat_lt
      rw [List.length_cons, List.replicate_succ, ofLittleEndian, ofLittleEndian, hone, pow_succ']
      by_cases hbz : b = 0
      · refine ⟨0, Nat.succ_pos _, hbz, ?_⟩
        have hlow := Nat.mod_mul_right_mod (b.toNat + 256 * ofLittleEndian bs + 256 * 256 ^ k -
          (1 + 256 * ofLittleEndian (List.replicate bs.length 0x01))) 256 (256 ^ k)
        have hbn : b.toNat = 0 := congrArg UInt8.toNat hbz
        rw [Nat.testBit_eq_decide_div_mod_eq, decide_eq_true_iff]
        omega
      · have hmem : (0 : UInt8) ∈ bs := (List.mem_cons.mp hzero).resolve_left fun h => hbz h.symm
        have hpos : b.toNat ≠ 0 := fun h => hbz (UInt8.toNat_inj.mp h)
        obtain ⟨i, hi, hbyte, hbit⟩ := ih hk' hmem
        refine ⟨i + 1, Nat.succ_lt_succ hi, hbyte, ?_⟩
        have hsplit : b.toNat + 256 * ofLittleEndian bs + 256 * 256 ^ k -
            (1 + 256 * ofLittleEndian (List.replicate bs.length 0x01)) = b.toNat - 1 +
              256 * (ofLittleEndian bs + 256 ^ k -
                ofLittleEndian (List.replicate bs.length 0x01)) := by omega
        have hdiv : ∀ z, (b.toNat - 1 + 256 * z) % (256 * 256 ^ k) / 2 ^ 8 = z % 256 ^ k := by
          intro z
          rw [Nat.mod_mul]
          have h1 : (b.toNat - 1 + 256 * z) % 256 = b.toNat - 1 := by omega
          have h2 : (b.toNat - 1 + 256 * z) / 256 = z := by omega
          rw [h1, h2]
          omega
        have hindex : 8 * (i + 1) + 7 = 8 * i + 7 + 8 := by omega
        rw [hsplit, hindex, ← Nat.testBit_div_two_pow, hdiv, hbit]

theorem testBit_ofLittleEndian (bs : List UInt8) (i j : ℕ) (hj : j < 8) :
    (ofLittleEndian bs).testBit (8 * i + j) = (bs.getD i 0).toNat.testBit j := by
  induction bs generalizing i with
  | nil => simp [ofLittleEndian]
  | cons b bs ih =>
      cases i with
      | zero =>
          rw [Nat.mul_zero, Nat.zero_add, List.getD_cons_zero, ← ofLittleEndian_mod b bs,
            Nat.testBit_mod_two_pow, decide_eq_true hj, Bool.true_and]
      | succ i =>
          have hindex : 8 * (i + 1) + j = 8 * i + j + 8 := by omega
          rw [hindex, ← Nat.testBit_div_two_pow, ofLittleEndian_div, ih, List.getD_cons_succ]

theorem zeroTest_ne_zero {k : ℕ} (hk : bs.length ≤ k) (hzero : (0 : UInt8) ∈ bs) :
    zeroTest k bs.length (ofLittleEndian bs) ≠ 0 := by
  obtain ⟨i, hi, hbyte, hborrow⟩ := exists_borrow hk hzero
  have hlt : ofLittleEndian bs < 2 ^ (8 * k) := by
    rw [Nat.pow_mul]
    exact (ofLittleEndian_lt bs).trans_le (Nat.pow_le_pow_right (by norm_num) hk)
  have hclear : (ofLittleEndian bs).testBit (8 * i + 7) = false := by
    rw [testBit_ofLittleEndian bs i 7 (by norm_num), hbyte]
    rfl
  have hnot : (256 ^ k - 1 - ofLittleEndian bs).testBit (8 * i + 7) = true := by
    have hpow : 256 ^ k - 1 - ofLittleEndian bs = 2 ^ (8 * k) - (ofLittleEndian bs + 1) := by
      rw [Nat.pow_mul, Nat.sub_sub, Nat.add_comm 1]
    rw [hpow, Nat.testBit_two_pow_sub_succ hlt, hclear, decide_eq_true (by omega)]
    rfl
  have hhigh : (ofLittleEndian (List.replicate bs.length 0x80)).testBit (8 * i + 7) = true := by
    rw [testBit_ofLittleEndian _ i 7 (by norm_num), List.getD_eq_getElem?_getD,
      List.getElem?_replicate, if_pos hi]
    rfl
  intro h
  have hbit : (zeroTest k bs.length (ofLittleEndian bs)).testBit (8 * i + 7) = true := by
    rw [zeroTest, Nat.testBit_and, Nat.testBit_and, hborrow, hnot, hhigh]
    rfl
  rw [h, Nat.zero_testBit] at hbit
  exact nomatch hbit

theorem UInt8.toNat_pred (hb : b ≠ 0) : (b - 1).toNat + 1 = b.toNat := by
  have hpos : b.toNat ≠ 0 := fun hz => hb (UInt8.toNat_inj.mp hz)
  have hle : 1 ≤ b := UInt8.le_iff_toNat_le.mpr (Nat.one_le_iff_ne_zero.mpr hpos)
  have hsub : (b - 1).toNat = b.toNat - 1 := UInt8.toNat_sub_of_le b 1 hle
  omega

theorem ofLittleEndian_pred (h : (0 : UInt8) ∉ bs) :
    ofLittleEndian (bs.map (· - 1)) + ofLittleEndian (List.replicate bs.length 0x01) =
      ofLittleEndian bs := by
  induction bs with
  | nil => rfl
  | cons b bs ih =>
      have hrest := ih fun hmem => h (List.mem_cons_of_mem b hmem)
      have hpred := UInt8.toNat_pred fun hb : b = 0 => h (hb ▸ List.mem_cons_self)
      have hone : (0x01 : UInt8).toNat = 1 := rfl
      rw [List.map_cons, List.length_cons, List.replicate_succ, ofLittleEndian, ofLittleEndian,
        ofLittleEndian, hone]
      omega

theorem highBit_pred (hb : b ≠ 0) (hhigh : (b - 1).toNat.testBit 7 = true) :
    b.toNat.testBit 7 = true := by
  have hpred := UInt8.toNat_pred hb
  have hlt : b.toNat < 256 := b.toNat_lt
  rw [Nat.testBit_eq_decide_div_mod_eq, decide_eq_true_iff] at hhigh ⊢
  omega

theorem zeroTest_eq_zero {k : ℕ} (hk : bs.length ≤ k) (h : (0 : UInt8) ∉ bs) :
    zeroTest k bs.length (ofLittleEndian bs) = 0 := by
  have hpred := ofLittleEndian_pred h
  have hlt : ofLittleEndian bs < 2 ^ (8 * k) := by
    rw [Nat.pow_mul]
    exact (ofLittleEndian_lt bs).trans_le (Nat.pow_le_pow_right (by norm_num) hk)
  have hpow : 256 ^ k = 2 ^ (8 * k) := by
    rw [Nat.pow_mul]
  have hsub : (ofLittleEndian bs + 256 ^ k - ofLittleEndian (List.replicate bs.length 0x01)) %
      256 ^ k = ofLittleEndian (bs.map (· - 1)) := by
    have hwrap : ofLittleEndian bs + 256 ^ k - ofLittleEndian (List.replicate bs.length 0x01) =
        ofLittleEndian (bs.map (· - 1)) + 256 ^ k := by omega
    rw [hwrap, Nat.add_mod_right, Nat.mod_eq_of_lt (by omega)]
  have hnot : 256 ^ k - 1 - ofLittleEndian bs = 2 ^ (8 * k) - (ofLittleEndian bs + 1) := by
    rw [hpow, Nat.sub_sub, Nat.add_comm 1]
  apply Nat.eq_of_testBit_eq
  intro j
  obtain ⟨i, r, hr, rfl⟩ : ∃ i r, r < 8 ∧ j = 8 * i + r := ⟨j / 8, j % 8, by omega, by omega⟩
  rw [zeroTest, hsub, hnot, Nat.testBit_and, Nat.testBit_and, Nat.testBit_two_pow_sub_succ hlt,
    testBit_ofLittleEndian _ i r hr, testBit_ofLittleEndian _ i r hr,
    testBit_ofLittleEndian _ i r hr, Nat.zero_testBit]
  by_cases hi : i < bs.length
  · have hbyte : bs[i] ≠ 0 := fun hz => h (hz ▸ List.getElem_mem hi)
    rcases eq_or_ne r 7 with rfl | hne
    · rw [List.getD_eq_getElem _ _ (by simpa using hi), List.getElem_map,
        List.getD_eq_getElem _ _ hi]
      cases hhigh : (bs[i] - 1).toNat.testBit 7 with
      | false => rw [Bool.false_and, Bool.false_and]
      | true => rw [highBit_pred hbyte hhigh, Bool.not_true, Bool.and_false, Bool.and_false,
          Bool.false_and]
    · rw [List.getD_replicate _ hi]
      have hbit : (0x80 : UInt8).toNat.testBit r = false := by
        interval_cases r <;> first | rfl | exact absurd rfl hne
      rw [hbit, Bool.and_false]
  · rw [List.getD_eq_default (List.replicate bs.length 0x80) 0
      (by rw [List.length_replicate]; omega)]
    exact (congrArg _ (Nat.zero_testBit r)).trans (Bool.and_false _)

theorem and_byte_eq_zero (bs : List UInt8) (i : ℕ) :
    ofLittleEndian bs &&& (0xff <<< (8 * i)) = 0 ↔ bs.getD i 0 = 0 := by
  have hmask : ∀ j, (0xff : ℕ).testBit j = decide (j < 8) :=
    fun j => Nat.testBit_two_pow_sub_one 8 j
  constructor
  · intro h
    apply UInt8.toNat_inj.mp
    apply Nat.eq_of_testBit_eq
    intro j
    rw [UInt8.toNat_zero, Nat.zero_testBit]
    rcases Nat.lt_or_ge j 8 with hj | hj
    · have hbit := congrArg (fun x => x.testBit (8 * i + j)) h
      simp only [Nat.testBit_and, Nat.testBit_shiftLeft, hmask, Nat.zero_testBit] at hbit
      rw [testBit_ofLittleEndian bs i j hj, Nat.add_sub_cancel_left, decide_eq_true hj,
        decide_eq_true (Nat.le_add_right _ _)] at hbit
      simpa using hbit
    · exact Nat.testBit_lt_two_pow ((bs.getD i 0).toNat_lt.trans_le
        (Nat.pow_le_pow_right Nat.two_pos hj))
  · intro h
    apply Nat.eq_of_testBit_eq
    intro j
    rw [Nat.testBit_and, Nat.testBit_shiftLeft, hmask, Nat.zero_testBit]
    by_cases hj : 8 * i ≤ j ∧ j - 8 * i < 8
    · obtain ⟨r, rfl⟩ := Nat.exists_eq_add_of_le hj.1
      rw [testBit_ofLittleEndian bs i r (by omega), h, UInt8.toNat_zero, Nat.zero_testBit,
        Bool.false_and]
    · have hout : (decide (j ≥ 8 * i) && decide (j - 8 * i < 8)) = false := by
        rw [← Bool.decide_and]
        exact decide_eq_false hj
      rw [hout, Bool.and_false]

end Carthage
