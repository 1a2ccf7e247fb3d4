import Carthage.UintxCount
import Carthage.UintxLogic

/-!
# Comparing numbers

`uintx_compare` looks at whole bytes as long as 8 bits are left to look at, and at single bits
from then on. It counts 8 bits for the top byte too, which has fewer when the width is not a
multiple of 8, so that some bits below are in no byte found equal and not looked at either.
-/

namespace Carthage

open Storage

/-- The bits of an array above its width are zeros. -/
structure Padded (x : Storage) (mem : Bytes) (n : ℕ) : Prop where
  room : uintxNbytes n ≤ x.size
  padding : ∀ i, n ≤ i → i < 8 * uintxNbytes n → mem.testBit (x.bitAddr i) = false

/-- What a comparison of two numbers should return. -/
def numOrder (A B : ℕ) : ℤ := if A < B then -1 else if B < A then 1 else 0

section Bits

variable {a b x : Storage} {mem : Bytes} {n m d k : ℕ} {A B : ℕ}

theorem numOrder_of_lt (h : A < B) : numOrder A B = -1 := if_pos h

theorem numOrder_of_gt (h : B < A) : numOrder A B = 1 := by
  rw [numOrder, if_neg h.le.not_gt, if_pos h]

theorem numOrder_neg_iff : numOrder A B = -1 ↔ A < B := by
  refine ⟨fun h => ?_, numOrder_of_lt⟩
  by_contra hle
  rw [numOrder, if_neg hle] at h
  split_ifs at h

theorem numOrder_pos_iff : numOrder A B = 1 ↔ B < A := by
  refine ⟨fun h => ?_, numOrder_of_gt⟩
  by_contra hle
  rw [numOrder, if_neg hle] at h
  split_ifs at h
  cases h

theorem numOrder_add (A B c : ℕ) : numOrder (A + c) (B + c) = numOrder A B := by
  unfold numOrder
  simp only [Nat.add_lt_add_iff_right]

theorem Padded.val_eq (h : Padded x mem n) (hn : n ≤ m) (hm : m ≤ 8 * uintxNbytes n) :
    x.val mem m = x.val mem n :=
  val_zeros hn fun i h1 h2 => h.padding i h1 (h2.trans_le hm)

theorem uintxCompareBits_eq (ha : uintxNbytes n ≤ a.size) (hb : uintxNbytes n ≤ b.size) :
    uintxCompareBits mem a b n = some (numOrder (a.val mem n) (b.val mem n)) := by
  induction n with
  | zero => rfl
  | succ n ih =>
      have hlow : uintxNbytes n ≤ a.size ∧ uintxNbytes n ≤ b.size := by
        unfold uintxNbytes at *
        omega
      rw [uintxCompareBits, bit_eq (div_lt_size (Nat.lt_succ_self n) ha),
        bit_eq (div_lt_size (Nat.lt_succ_self n) hb), ih hlow.1 hlow.2]
      simp only [Option.bind_eq_bind, Option.bind_some, val]
      have hA := a.val_lt mem n
      have hB := b.val_lt mem n
      cases mem.testBit (a.bitAddr n) <;> cases mem.testBit (b.bitAddr n)
      · simp
      · have hless : a.val mem n < b.val mem n + 2 ^ n := by omega
        simp [numOrder, hless]
      · have hmore : ¬ a.val mem n + 2 ^ n < b.val mem n ∧ b.val mem n < a.val mem n + 2 ^ n := by
          omega
        simp [numOrder, hmore]
      · simp [numOrder_add]

theorem uintxExcessBits_eq (hx : uintxNbytes (m + d) ≤ x.size) :
    uintxExcessBits x mem m d = some (decide (2 ^ m ≤ x.val mem (m + d))) := by
  induction d with
  | zero => simp [uintxExcessBits, x.val_lt mem m]
  | succ d ih =>
      have hlow : uintxNbytes (m + d) ≤ x.size := by
        unfold uintxNbytes at *
        omega
      rw [uintxExcessBits, bit_eq (div_lt_size (show m + d < m + (d + 1) by omega) hx), ih hlow]
      simp only [Option.bind_eq_bind, Option.bind_some]
      rw [← Nat.add_assoc, val]
      cases mem.testBit (x.bitAddr (m + d))
      · simp
      · have hle : 2 ^ m ≤ x.val mem (m + d) + 2 ^ (m + d) :=
          (Nat.pow_le_pow_right (by norm_num) (Nat.le_add_right m d)).trans (Nat.le_add_left _ _)
        simp [hle]

variable (mem) in
theorem uintxExcessBytes_eq (hk : k ≤ x.size) (hd : d / 8 ≤ k) :
    ∃ left, uintxExcessBytes x mem d (k - 1) =
        some (decide (2 ^ (8 * (k - d / 8)) ≤ x.val mem (8 * k)), left) ∧
      (x.val mem (8 * k) < 2 ^ (8 * (k - d / 8)) → left = d % 8) := by
  induction d using Nat.strong_induction_on generalizing k with
  | _ d ih =>
      by_cases hfew : d < 8
      · have hdiv : d / 8 = 0 := Nat.div_eq_of_lt hfew
        refine ⟨d, ?_, fun _ => (Nat.mod_eq_of_lt hfew).symm⟩
        rw [hdiv, Nat.sub_zero, decide_eq_false (not_le.mpr (x.val_lt mem _)), uintxExcessBytes]
        omega
      · obtain ⟨d, rfl⟩ : ∃ e, d = e + 8 := ⟨d - 8, by omega⟩
        obtain ⟨k, rfl⟩ : ∃ l, k = l + 1 := ⟨k - 1, by omega⟩
        have hsub : k + 1 - (d + 8) / 8 = k - d / 8 := by omega
        have hbyte := val_byte x mem k
        rw [uintxExcessBytes, Nat.add_sub_cancel, byte_eq hk, hsub]
        simp only [Option.bind_eq_bind, Option.bind_some]
        by_cases hzero : mem (x.addr + k) = 0
        · have hsame : x.val mem (8 * (k + 1)) = x.val mem (8 * k) := by simpa [hzero] using hbyte
          obtain ⟨left, hrun, hleft⟩ := ih d (by omega) (k := k) (by omega) (by omega)
          refine ⟨left, ?_, fun h => ?_⟩
          · rw [if_neg (not_not.mpr hzero), hrun, hsame]
          · rw [hleft (hsame ▸ h), Nat.add_mod_right]
        · have hpos : 1 ≤ (mem (x.addr + k)).toNat := by
            rw [Nat.one_le_iff_ne_zero]
            exact fun h => hzero (UInt8.toNat_inj.mp h)
          have hlarge : 2 ^ (8 * (k - d / 8)) ≤ x.val mem (8 * (k + 1)) := by
            have hle := Nat.mul_le_mul_right (2 ^ (8 * k)) hpos
            have hpow : 2 ^ (8 * (k - d / 8)) ≤ 2 ^ (8 * k) :=
              Nat.pow_le_pow_right (by norm_num) (by omega)
            omega
          refine ⟨d + 8, ?_, fun h => absurd hlarge (not_le.mpr h)⟩
          rw [if_pos hzero, decide_eq_true hlarge]
          rfl

/-- The bits from `m` on that are looked at in a number of `n` bits: bytes from the top as long as
8 bits are left, and then those up to where the count stands. -/
def ExcessSeen (m n A : ℕ) : Prop :=
  2 ^ (8 * uintxNbytes (m + (n - m) % 8)) ≤ A ∨ 2 ^ m ≤ A % 2 ^ (m + (n - m) % 8)

instance (m n A : ℕ) : Decidable (ExcessSeen m n A) := inferInstanceAs (Decidable (_ ∨ _))

theorem uintxExcess_eq (h : Padded x mem n) (hm : m ≤ n) :
    uintxExcess x mem m n = some (decide (ExcessSeen m n (x.val mem n))) := by
  have hroom := h.room
  have hd : (n - m) / 8 ≤ uintxNbytes n := by
    unfold uintxNbytes
    omega
  obtain ⟨left, hrun, hleft⟩ := uintxExcessBytes_eq mem h.room hd
  have hbytes : uintxNbytes n - (n - m) / 8 = uintxNbytes (m + (n - m) % 8) := by
    unfold uintxNbytes
    omega
  have hwhole : x.val mem (8 * uintxNbytes n) = x.val mem n := by
    refine h.val_eq ?_ le_rfl
    unfold uintxNbytes
    omega
  rw [hbytes, hwhole] at hrun hleft
  unfold uintxExcess
  rw [hrun]
  simp only [Option.bind_eq_bind, Option.bind_some]
  by_cases hseen : 2 ^ (8 * uintxNbytes (m + (n - m) % 8)) ≤ x.val mem n
  · have hor : ExcessSeen m n (x.val mem n) := Or.inl hseen
    rw [decide_eq_true hseen, decide_eq_true hor]
    rfl
  · have hor : ExcessSeen m n (x.val mem n) ↔ 2 ^ m ≤ x.val mem n % 2 ^ (m + (n - m) % 8) :=
      or_iff_right hseen
    have hlow : uintxNbytes (m + (n - m) % 8) ≤ x.size := by
      unfold uintxNbytes at *
      omega
    rw [hleft (not_le.mp hseen), uintxExcessBits_eq hlow, decide_eq_false hseen,
      ← val_mod (show m + (n - m) % 8 ≤ n by omega), decide_eq_decide.mpr hor]
    rfl

/-- The low bits that are compared one by one: up to the place in the highest byte with a
difference that the width has in its own top byte. -/
def comparedBits (w A B : ℕ) : ℕ := 8 * ((A ^^^ B).log2 / 8) + ((w + 7) % 8 + 1)

theorem val_div_byte (x : Storage) (mem : Bytes) (k : ℕ) :
    x.val mem (8 * (k + 1)) / 2 ^ (8 * k) = (mem (x.addr + k)).toNat := by
  rw [val_byte, Nat.add_mul_div_right _ _ (Nat.two_pow_pos _), Nat.div_eq_of_lt (x.val_lt mem _),
    Nat.zero_add]

theorem log2_xor_byte (hne : mem (a.addr + k) ≠ mem (b.addr + k)) :
    (a.val mem (8 * (k + 1)) ^^^ b.val mem (8 * (k + 1))).log2 / 8 = k := by
  have hlt := Nat.xor_lt_two_pow (a.val_lt mem (8 * (k + 1))) (b.val_lt mem (8 * (k + 1)))
  have hge : 2 ^ (8 * k) ≤ a.val mem (8 * (k + 1)) ^^^ b.val mem (8 * (k + 1)) := by
    by_contra hsmall
    have hdiv := Nat.div_eq_of_lt (not_le.mp hsmall)
    rw [Nat.xor_div_two_pow, val_div_byte, val_div_byte, Nat.xor_eq_zero_iff] at hdiv
    exact hne (UInt8.toNat_inj.mp hdiv)
  have hpos : a.val mem (8 * (k + 1)) ^^^ b.val mem (8 * (k + 1)) ≠ 0 := by
    have := Nat.two_pow_pos (8 * k)
    omega
  have h1 := (Nat.le_log2 hpos).mpr hge
  have h2 := (Nat.log2_lt hpos).mpr hlt
  omega

theorem xor_byte (heq : mem (a.addr + k) = mem (b.addr + k)) :
    a.val mem (8 * (k + 1)) ^^^ b.val mem (8 * (k + 1)) =
      a.val mem (8 * k) ^^^ b.val mem (8 * k) := by
  apply Nat.eq_of_testBit_eq
  intro i
  have hsplit : ∀ (x : Storage), x.val mem (8 * (k + 1)) =
      2 ^ (8 * k) * (mem (x.addr + k)).toNat + x.val mem (8 * k) := fun x => by
    rw [val_byte, Nat.add_comm, Nat.mul_comm]
  rw [hsplit a, hsplit b, heq, Nat.testBit_xor, Nat.testBit_xor,
    Nat.testBit_two_pow_mul_add _ (a.val_lt mem _), Nat.testBit_two_pow_mul_add _ (b.val_lt mem _)]
  split_ifs with hi
  · rfl
  · rw [Bool.xor_self, testBit_val, testBit_val, decide_eq_false hi]
    rfl

/-- Where the loop over equal bytes stops. -/
theorem uintxEqualBytes_eq (ha : uintxNbytes n ≤ a.size) (hb : uintxNbytes n ≤ b.size) :
    ∃ t, uintxEqualBytes mem a b n (uintxNbytes n - 1) = some t ∧ t ≤ n ∧
      (a.val mem (8 * uintxNbytes n) = b.val mem (8 * uintxNbytes n) ∨
        t = comparedBits n (a.val mem (8 * uintxNbytes n)) (b.val mem (8 * uintxNbytes n))) := by
  induction n using Nat.strong_induction_on with
  | _ n ih =>
      by_cases hfew : n < 8
      · refine ⟨n, ?_, le_rfl, ?_⟩
        · rw [uintxEqualBytes]
          omega
        · rcases Nat.eq_zero_or_pos n with rfl | hpos
          · exact Or.inl rfl
          · have hbytes : uintxNbytes n = 1 := by
              unfold uintxNbytes
              omega
            rw [hbytes]
            by_cases hsame : mem (a.addr + 0) = mem (b.addr + 0)
            · left
              rw [val_byte, val_byte, hsame]
              rfl
            · right
              unfold comparedBits
              rw [log2_xor_byte (k := 0) hsame]
              omega
      · obtain ⟨n, rfl⟩ : ∃ e, n = e + 8 := ⟨n - 8, by omega⟩
        have hbytes : uintxNbytes (n + 8) = uintxNbytes n + 1 := by
          unfold uintxNbytes
          omega
        rw [hbytes] at ha hb ⊢
        rw [uintxEqualBytes, Nat.add_sub_cancel, byte_eq ha, byte_eq hb]
        simp only [Option.bind_eq_bind, Option.bind_some]
        by_cases hsame : mem (a.addr + uintxNbytes n) = mem (b.addr + uintxNbytes n)
        · obtain ⟨t, hrun, hle, hend⟩ := ih n (by omega) (by omega) (by omega)
          refine ⟨t, ?_, by omega, ?_⟩
          · rw [if_neg (not_not.mpr hsame), hrun]
          · rcases hend with heq | hbits
            · left
              rw [val_byte, val_byte, hsame, heq]
            · right
              rw [hbits]
              unfold comparedBits
              rw [xor_byte hsame]
              omega
        · refine ⟨n + 8, ?_, le_rfl, Or.inr ?_⟩
          · rw [if_pos hsame]
            rfl
          · unfold comparedBits
            rw [log2_xor_byte hsame]
            unfold uintxNbytes
            omega

end Bits

/-! ## Whole numbers -/

section Compare

variable {a b : Storage} {mem : Bytes} {an bn A B t : ℕ}

def tailBits (an bn A B : ℕ) : ℕ :=
  comparedBits (min an bn) (A % 2 ^ (8 * uintxNbytes (min an bn)))
    (B % 2 ^ (8 * uintxNbytes (min an bn)))

theorem Padded.room_le {x : Storage} {n w : ℕ} (h : Padded x mem n) (hw : w ≤ n) :
    uintxNbytes w ≤ x.size := by
  have hroom := h.room
  unfold uintxNbytes at *
  omega

theorem Padded.val_bytes {x : Storage} {n w : ℕ} (h : Padded x mem n) (hw : w ≤ n) :
    x.val mem (8 * uintxNbytes w) = x.val mem n % 2 ^ (8 * uintxNbytes w) := by
  have hle : 8 * uintxNbytes w ≤ 8 * uintxNbytes n := by
    unfold uintxNbytes
    omega
  have hwhole : x.val mem (8 * uintxNbytes n) = x.val mem n := by
    refine h.val_eq ?_ le_rfl
    unfold uintxNbytes
    omega
  rw [← val_mod hle, hwhole]

/-- What `uintx_compare` returns. -/
theorem uintxCompare_eq (han : 1 ≤ an) (hbn : 1 ≤ bn) (ha : Padded a mem an) (hb : Padded b mem bn) :
    uintxCompare mem a an b bn = some
      (if bn < an ∧ ExcessSeen bn an (a.val mem an) then 1
      else if an < bn ∧ ExcessSeen an bn (b.val mem bn) then -1
      else numOrder (a.val mem an % 2 ^ tailBits an bn (a.val mem an) (b.val mem bn))
        (b.val mem bn % 2 ^ tailBits an bn (a.val mem an) (b.val mem bn))) := by
  have hcommon : (do
      let n ← uintxEqualBytes mem a b (min an bn) (uintxNbytes (min an bn) - 1)
      uintxCompareBits mem a b n) =
      some (numOrder (a.val mem an % 2 ^ tailBits an bn (a.val mem an) (b.val mem bn))
        (b.val mem bn % 2 ^ tailBits an bn (a.val mem an) (b.val mem bn))) := by
    have htail : tailBits an bn (a.val mem an) (b.val mem bn) = comparedBits (min an bn)
        (a.val mem an % 2 ^ (8 * uintxNbytes (min an bn)))
        (b.val mem bn % 2 ^ (8 * uintxNbytes (min an bn))) := rfl
    obtain ⟨t, hrun, hle, hend⟩ := uintxEqualBytes_eq (ha.room_le (min_le_left an bn))
      (hb.room_le (min_le_right an bn))
    have hroomA : uintxNbytes t ≤ a.size := ha.room_le (by omega)
    have hroomB : uintxNbytes t ≤ b.size := hb.room_le (by omega)
    rw [hrun]
    simp only [Option.bind_eq_bind, Option.bind_some, uintxCompareBits_eq hroomA hroomB]
    congr 1
    rw [← ha.val_bytes (min_le_left an bn), ← hb.val_bytes (min_le_right an bn)] at htail
    rcases hend with heq | hbits
    · have hsame : ∀ s ≤ min an bn, a.val mem s = b.val mem s := fun s hs => by
        have hs' : s ≤ 8 * uintxNbytes (min an bn) := by
          unfold uintxNbytes
          omega
        rw [← val_mod hs', heq, val_mod hs']
      have hlow : tailBits an bn (a.val mem an) (b.val mem bn) ≤ min an bn := by
        rw [htail, heq]
        unfold comparedBits
        rw [Nat.xor_self, Nat.log2_zero]
        omega
      rw [val_mod (hlow.trans (min_le_left an bn)), val_mod (hlow.trans (min_le_right an bn)),
        hsame t hle, hsame _ hlow]
      unfold numOrder
      simp
    · rw [htail, ← hbits, val_mod (by omega), val_mod (by omega)]
  unfold uintxCompare
  rcases lt_trichotomy an bn with hlt | heq | hgt
  · rw [if_neg hlt.le.not_gt, if_pos hlt, uintxExcess_eq hb hlt.le]
    by_cases hseen : ExcessSeen an bn (b.val mem bn)
    · simp [hlt, hlt.le.not_gt, hseen]
    · simpa [hlt, hlt.le.not_gt, hseen] using hcommon
  · simpa [heq] using hcommon
  · rw [if_pos hgt, if_neg hgt.le.not_gt, uintxExcess_eq ha hgt.le]
    by_cases hseen : ExcessSeen bn an (a.val mem an)
    · simp [hgt, hseen]
    · simpa [hgt, hgt.le.not_gt, hseen] using hcommon

/-- When a comparison can be right: a bit of the longer number above the width of the other one is
looked at, or the numbers differ in their tails only, or their tails happen to be ordered as they
are. -/
def ComparesRight (an bn A B : ℕ) : Prop :=
  (bn < an ∧ ExcessSeen bn an A) ∨ (an < bn ∧ ExcessSeen an bn B) ∨
    A / 2 ^ tailBits an bn A B = B / 2 ^ tailBits an bn A B ∨
    (A < B ∧ A % 2 ^ tailBits an bn A B < B % 2 ^ tailBits an bn A B) ∨
    (B < A ∧ B % 2 ^ tailBits an bn A B < A % 2 ^ tailBits an bn A B)

theorem ExcessSeen.le {m n : ℕ} (h : ExcessSeen m n A) : 2 ^ m ≤ A := by
  rcases h with h | h
  · refine le_trans (Nat.pow_le_pow_right (by norm_num) ?_) h
    unfold uintxNbytes
    omega
  · exact h.trans (Nat.mod_le _ _)

theorem numOrder_mod_iff (A B t : ℕ) : numOrder (A % 2 ^ t) (B % 2 ^ t) = numOrder A B ↔
    A / 2 ^ t = B / 2 ^ t ∨ (A < B ∧ A % 2 ^ t < B % 2 ^ t) ∨
      (B < A ∧ B % 2 ^ t < A % 2 ^ t) := by
  have hA := Nat.div_add_mod A (2 ^ t)
  have hB := Nat.div_add_mod B (2 ^ t)
  constructor
  · intro h
    rcases Nat.lt_trichotomy A B with hlt | rfl | hgt
    · right; left
      rw [numOrder_of_lt hlt] at h
      exact ⟨hlt, numOrder_neg_iff.mp h⟩
    · exact Or.inl rfl
    · right; right
      rw [numOrder_of_gt hgt] at h
      exact ⟨hgt, numOrder_pos_iff.mp h⟩
  · rintro (heq | ⟨hlt, htail⟩ | ⟨hgt, htail⟩)
    · rw [heq] at hA
      unfold numOrder
      have h1 : A % 2 ^ t < B % 2 ^ t ↔ A < B := by omega
      have h2 : B % 2 ^ t < A % 2 ^ t ↔ B < A := by omega
      simp only [h1, h2]
    · rw [numOrder_of_lt hlt, numOrder_of_lt htail]
    · rw [numOrder_of_gt hgt, numOrder_of_gt htail]

theorem uintxCompare_iff (han : 1 ≤ an) (hbn : 1 ≤ bn) (ha : Padded a mem an) (hb : Padded b mem bn) :
    uintxCompare mem a an b bn = some (numOrder (a.val mem an) (b.val mem bn)) ↔
      ComparesRight an bn (a.val mem an) (b.val mem bn) := by
  rw [uintxCompare_eq han hbn ha hb, Option.some_inj]
  unfold ComparesRight
  rw [← numOrder_mod_iff]
  have hA := a.val_lt mem an
  have hB := b.val_lt mem bn
  split_ifs with hgreater hless
  · exact iff_of_true (numOrder_of_gt (hB.trans_le hgreater.2.le)).symm (Or.inl hgreater)
  · exact iff_of_true (numOrder_of_lt (hA.trans_le hless.2.le)).symm (Or.inr (Or.inl hless))
  · rw [or_iff_right hgreater, or_iff_right hless]

/-- Widths whose numbers are always compared right: the shorter one is of whole bytes, or of one
byte, and so is the longer one, or it has less than 8 bits more. -/
def AlignedWidths (an bn : ℕ) : Prop :=
  (min an bn % 8 = 0 ∨ min an bn < 8) ∧
    (max an bn % 8 = 0 ∨ max an bn - min an bn < 8)

theorem excessSeen_of_aligned {m n : ℕ} (hm : m ≤ n) (h : n % 8 = 0 ∨ n - m < 8) (hA : A < 2 ^ n)
    (hexcess : 2 ^ m ≤ A) : ExcessSeen m n A := by
  rcases h with h | h
  · have hbytes : 8 * uintxNbytes (m + (n - m) % 8) = m + (n - m) % 8 := by
      unfold uintxNbytes
      omega
    by_cases hbig : 2 ^ (m + (n - m) % 8) ≤ A
    · left
      rwa [hbytes]
    · right
      rwa [Nat.mod_eq_of_lt (not_le.mp hbig)]
  · right
    have hwhole : m + (n - m) % 8 = n := by omega
    rwa [hwhole, Nat.mod_eq_of_lt hA]

theorem div_eq_of_xor_lt (h : A ^^^ B < 2 ^ t) : A / 2 ^ t = B / 2 ^ t := by
  have hzero := Nat.div_eq_of_lt h
  rwa [Nat.xor_div_two_pow, Nat.xor_eq_zero_iff] at hzero

theorem tailBits_of_lt {w : ℕ} (hw : w = min an bn) (hA : A < 2 ^ w) (hB : B < 2 ^ w) :
    tailBits an bn A B = comparedBits w A B := by
  have hle : 2 ^ w ≤ 2 ^ (8 * uintxNbytes w) := by
    refine Nat.pow_le_pow_right (by norm_num) ?_
    unfold uintxNbytes
    omega
  unfold tailBits
  rw [← hw, Nat.mod_eq_of_lt (hA.trans_le hle), Nat.mod_eq_of_lt (hB.trans_le hle)]

theorem comparesRight_of_aligned (h : AlignedWidths an bn) (hpos : 1 ≤ min an bn)
    (hA : A < 2 ^ an) (hB : B < 2 ^ bn) : ComparesRight an bn A B := by
  obtain ⟨hshort, hlong⟩ := h
  by_cases hexcessA : 2 ^ min an bn ≤ A
  · by_cases hlt : bn < an
    · rw [min_eq_right hlt.le] at hexcessA hlong
      rw [max_eq_left hlt.le] at hlong
      exact Or.inl ⟨hlt, excessSeen_of_aligned hlt.le hlong hA hexcessA⟩
    · rw [min_eq_left (not_lt.mp hlt)] at hexcessA
      omega
  by_cases hexcessB : 2 ^ min an bn ≤ B
  · by_cases hlt : an < bn
    · rw [min_eq_left hlt.le] at hexcessB hlong
      rw [max_eq_right hlt.le] at hlong
      exact Or.inr (Or.inl ⟨hlt, excessSeen_of_aligned hlt.le hlong hB hexcessB⟩)
    · rw [min_eq_right (not_lt.mp hlt)] at hexcessB
      omega
  · rw [not_le] at hexcessA hexcessB
    refine Or.inr (Or.inr (Or.inl ?_))
    rw [tailBits_of_lt rfl hexcessA hexcessB]
    have hxor := Nat.xor_lt_two_pow hexcessA hexcessB
    refine div_eq_of_xor_lt ((Nat.lt_log2_self).trans_le (Nat.pow_le_pow_right (by norm_num) ?_))
    have hlog : (A ^^^ B).log2 < min an bn := by
      rcases Nat.eq_zero_or_pos (A ^^^ B) with hzero | hne
      · rw [hzero, Nat.log2_zero]
        omega
      · exact (Nat.log2_lt hne.ne').mpr hxor
    unfold comparedBits
    omega

theorem comparedBits_le {w : ℕ} (hw : 1 ≤ w) (hA : A < 2 ^ (8 * uintxNbytes w))
    (hB : B < 2 ^ (8 * uintxNbytes w)) : comparedBits w A B ≤ w := by
  have hxor := Nat.xor_lt_two_pow hA hB
  have hlog : (A ^^^ B).log2 < 8 * uintxNbytes w := by
    rcases Nat.eq_zero_or_pos (A ^^^ B) with hzero | hne
    · rw [hzero, Nat.log2_zero]
      unfold uintxNbytes
      omega
    · exact (Nat.log2_lt hne.ne').mpr hxor
  unfold uintxNbytes at hlog
  unfold comparedBits
  omega

theorem not_comparesRight_pow {e : ℕ} (hexcess : bn < an → ¬ ExcessSeen bn an (2 ^ e))
    (htail : tailBits an bn (2 ^ e) 0 ≤ e) : ¬ ComparesRight an bn (2 ^ e) 0 := by
  have hmod : 2 ^ e % 2 ^ tailBits an bn (2 ^ e) 0 = 0 :=
    Nat.mod_eq_zero_of_dvd (pow_dvd_pow 2 htail)
  have hdiv : 0 < 2 ^ e / 2 ^ tailBits an bn (2 ^ e) 0 :=
    Nat.div_pos (Nat.pow_le_pow_right (by norm_num) htail) (Nat.two_pow_pos _)
  rintro (h | h | h | h | h)
  · exact hexcess h.1 h.2
  · exact absurd h.2.le (not_le.mpr (Nat.two_pow_pos an))
  · rw [Nat.zero_div] at h
    omega
  · exact absurd h.1 (Nat.not_lt_zero _)
  · rw [hmod, Nat.zero_mod] at h
    exact absurd h.2 (lt_irrefl 0)

theorem tailBits_comm (an bn A B : ℕ) : tailBits an bn A B = tailBits bn an B A := by
  unfold tailBits comparedBits
  rw [min_comm, Nat.xor_comm]

theorem ComparesRight.symm (h : ComparesRight an bn A B) : ComparesRight bn an B A := by
  unfold ComparesRight at h ⊢
  rw [tailBits_comm bn an B A]
  rcases h with h | h | h | h | h
  · exact Or.inr (Or.inl h)
  · exact Or.inl h
  · exact Or.inr (Or.inr (Or.inl h.symm))
  · exact Or.inr (Or.inr (Or.inr (Or.inr h)))
  · exact Or.inr (Or.inr (Or.inr (Or.inl h)))

theorem tailBits_le (h : 1 ≤ min an bn) (A B : ℕ) : tailBits an bn A B ≤ min an bn :=
  comparedBits_le h (Nat.mod_lt _ (Nat.two_pow_pos _)) (Nat.mod_lt _ (Nat.two_pow_pos _))

theorem not_comparesRight_gap (hbn : 1 ≤ bn) (hgap : an % 8 ≠ 0) (hlong : 8 ≤ an - bn) :
    ¬ ComparesRight an bn (2 ^ (bn + (an - bn) % 8)) 0 := by
  refine not_comparesRight_pow (fun _ h => ?_) ?_
  · rcases h with h | h
    · rw [Nat.pow_le_pow_iff_right (by norm_num)] at h
      unfold uintxNbytes at h
      omega
    · rw [Nat.mod_self] at h
      exact absurd h (not_le.mpr (Nat.two_pow_pos bn))
  · have hle : tailBits an bn (2 ^ (bn + (an - bn) % 8)) 0 ≤ min an bn :=
      tailBits_le (by omega) _ 0
    omega

theorem exists_not_comparesRight (han : 1 ≤ an) (hbn : 1 ≤ bn) (h : ¬ AlignedWidths an bn) :
    ∃ A B, A < 2 ^ an ∧ B < 2 ^ bn ∧ ¬ ComparesRight an bn A B := by
  by_cases hshort : min an bn % 8 = 0 ∨ min an bn < 8
  · have hlong : ¬ (max an bn % 8 = 0 ∨ max an bn - min an bn < 8) := fun hl => h ⟨hshort, hl⟩
    rcases Nat.le_total bn an with hle | hle
    · rw [max_eq_left hle, min_eq_right hle] at hlong
      refine ⟨_, 0, ?_, Nat.two_pow_pos bn, not_comparesRight_gap hbn (by omega) (by omega)⟩
      exact Nat.pow_lt_pow_right (by norm_num) (by omega)
    · rw [max_eq_right hle, min_eq_left hle] at hlong
      refine ⟨0, _, Nat.two_pow_pos an, ?_,
        fun hr => not_comparesRight_gap han (by omega) (by omega) hr.symm⟩
      exact Nat.pow_lt_pow_right (by norm_num) (by omega)
  · -- the bit above the tail in the lowest byte
    have hlt : min an bn % 8 < min an bn := by omega
    have hpow : 2 ^ (min an bn % 8) < 2 ^ min an bn := Nat.pow_lt_pow_right (by norm_num) hlt
    refine ⟨2 ^ (min an bn % 8), 0, ?_, Nat.two_pow_pos bn, not_comparesRight_pow ?_ ?_⟩
    · exact hpow.trans_le (Nat.pow_le_pow_right (by norm_num) (min_le_left an bn))
    · intro _ hseen
      have hle := hpow.trans_le (Nat.pow_le_pow_right (by norm_num) (min_le_right an bn))
      exact absurd hseen.le (not_le.mpr hle)
    · rw [tailBits_of_lt rfl hpow (Nat.two_pow_pos _)]
      unfold comparedBits
      rw [Nat.xor_zero, Nat.log2_two_pow]
      omega

/-! ## Numbers in memory -/

def sideBySide (an A B : ℕ) : Bytes := fun k =>
  if k < uintxNbytes an then UInt8.ofNat (A / 2 ^ (8 * k))
  else UInt8.ofNat (B / 2 ^ (8 * (k - uintxNbytes an)))

theorem padded_of_bytes {x : Storage} {n : ℕ} (hA : A < 2 ^ n) (hx : x.size = uintxNbytes n)
    (hbytes : ∀ k < x.size, mem (x.addr + k) = UInt8.ofNat (A / 2 ^ (8 * k))) :
    Padded x mem n ∧ x.val mem n = A := by
  have hbit : ∀ i < 8 * uintxNbytes n, mem.testBit (x.bitAddr i) = A.testBit i := by
    intro i hi
    have hdiv : x.bitAddr i / 8 = x.addr + i / 8 ∧ x.bitAddr i % 8 = i % 8 := by
      unfold bitAddr
      omega
    rw [Bytes.testBit_eq, hdiv.1, hdiv.2, hbytes _ (by omega), UInt8.toNat_ofNat',
      Nat.testBit_mod_two_pow, Nat.testBit_div_two_pow, Nat.mod_add_div]
    simp [Nat.mod_lt i (by norm_num : 0 < 8)]
  have hroom : n ≤ 8 * uintxNbytes n := by
    unfold uintxNbytes
    omega
  refine ⟨⟨hx.ge, fun i h1 h2 => ?_⟩, Nat.eq_of_testBit_eq fun i => ?_⟩
  · rw [hbit i h2]
    exact Nat.testBit_lt_two_pow (hA.trans_le (Nat.pow_le_pow_right (by norm_num) h1))
  · rw [testBit_val]
    by_cases hi : i < n
    · rw [hbit i (by omega), decide_eq_true hi, Bool.true_and]
    · rw [decide_eq_false hi, Bool.false_and, Nat.testBit_lt_two_pow]
      exact hA.trans_le (Nat.pow_le_pow_right (by norm_num) (not_lt.mp hi))

theorem sideBySide_padded (hA : A < 2 ^ an) (hB : B < 2 ^ bn) :
    (Padded ⟨0, uintxNbytes an⟩ (sideBySide an A B) an ∧
      Storage.val ⟨0, uintxNbytes an⟩ (sideBySide an A B) an = A) ∧
    Padded ⟨uintxNbytes an, uintxNbytes bn⟩ (sideBySide an A B) bn ∧
      Storage.val ⟨uintxNbytes an, uintxNbytes bn⟩ (sideBySide an A B) bn = B := by
  refine ⟨padded_of_bytes hA rfl fun k hk => ?_, padded_of_bytes hB rfl fun k hk => ?_⟩
  · rw [Nat.zero_add]
    exact if_pos hk
  · have hnext : ¬ uintxNbytes an + k < uintxNbytes an := by omega
    change sideBySide an A B (uintxNbytes an + k) = _
    rw [sideBySide, if_neg hnext, Nat.add_sub_cancel_left]

/-- `uintx_compare` is right exactly when the numbers differ in what it looks at, or agree there
with their order by chance; all numbers of two widths are compared right exactly when the widths
are aligned. -/
theorem uintxCompare_orders (han : 1 ≤ an) (hbn : 1 ≤ bn) :
    (∀ mem a b, Padded a mem an → Padded b mem bn →
      (uintxCompare mem a an b bn = some (numOrder (a.val mem an) (b.val mem bn)) ↔
        ComparesRight an bn (a.val mem an) (b.val mem bn))) ∧
    (∀ mem x stack (value : UInt64), Padded x mem an → x.Apart ⟨stack, 8⟩ →
      (uintxCompare64 stack mem x an value = some (numOrder (x.val mem an) value.toNat) ↔
        ComparesRight an 64 (x.val mem an) value.toNat)) ∧
    ((∀ mem a b, Padded a mem an → Padded b mem bn →
      uintxCompare mem a an b bn = some (numOrder (a.val mem an) (b.val mem bn))) ↔
      AlignedWidths an bn) := by
  refine ⟨fun mem a b ha hb => uintxCompare_iff han hbn ha hb, ?_, ?_⟩
  · intro mem x stack value hx hapart
    obtain ⟨mem₁, hwith, hval, hvalue, hout⟩ := withU64_eq uintxCompare hapart hx.room mem value
    have hx₁ : Padded x mem₁ an := by
      refine ⟨hx.room, fun i h1 h2 => ?_⟩
      have hlt : i / 8 < x.size := div_lt_size h2 ((uintxNbytes_mul _).trans_le hx.room)
      rw [hout.apart hapart.symm room64 hlt]
      exact hx.padding i h1 h2
    have hvalue₁ : Padded ⟨stack, 8⟩ mem₁ 64 :=
      ⟨room64, fun i h1 h2 => absurd h2 (not_lt.mpr h1)⟩
    have hiff := uintxCompare_iff han (by norm_num) hx₁ hvalue₁
    rwa [hval, hvalue, ← hwith] at hiff
  · constructor
    · intro hall
      by_contra hnot
      obtain ⟨A, B, hA, hB, hwrong⟩ := exists_not_comparesRight han hbn hnot
      obtain ⟨⟨ha, hvalA⟩, hb, hvalB⟩ := sideBySide_padded hA hB
      have hright := (uintxCompare_iff han hbn ha hb).mp (hall _ _ _ ha hb)
      rw [hvalA, hvalB] at hright
      exact hwrong hright
    · intro haligned mem a b ha hb
      exact (uintxCompare_iff han hbn ha hb).mpr
        (comparesRight_of_aligned haligned (by omega) (a.val_lt mem an) (b.val_lt mem bn))

end Compare

theorem padded_twelve (l : List UInt8) (addr : ℕ)
    (h : ∀ i < 16, 12 ≤ i → (Bytes.write (fun _ => 0) 0 l).testBit (8 * addr + i) = false) :
    Padded ⟨addr, 2⟩ (Bytes.write (fun _ => 0) 0 l) 12 :=
  ⟨le_refl 2, fun i h1 h2 => h i h2 h1⟩

/-- Numbers of 12 bits that differ in their top byte. -/
theorem uintxCompare_orders_twelve :
    uintxCompare (Bytes.write (fun _ => 0) 0 [16, 1, 0, 2]) ⟨0, 2⟩ 12 ⟨2, 2⟩ 12 =
        some (numOrder (Storage.val ⟨0, 2⟩ (Bytes.write (fun _ => 0) 0 [16, 1, 0, 2]) 12)
          (Storage.val ⟨2, 2⟩ (Bytes.write (fun _ => 0) 0 [16, 1, 0, 2]) 12)) ↔
      ComparesRight 12 12 (Storage.val ⟨0, 2⟩ (Bytes.write (fun _ => 0) 0 [16, 1, 0, 2]) 12)
        (Storage.val ⟨2, 2⟩ (Bytes.write (fun _ => 0) 0 [16, 1, 0, 2]) 12) :=
  (uintxCompare_orders (by decide) (by decide)).1 _ ⟨0, 2⟩ ⟨2, 2⟩
    (padded_twelve _ 0 (by decide)) (padded_twelve _ 2 (by decide))

/-- The numbers 16 and 0 of 12 bits are compared as equal. -/
theorem uintxCompare_misses_bit :
    uintxCompare (Bytes.write (fun _ => 0) 0 [16, 0, 0, 0]) ⟨0, 2⟩ 12 ⟨2, 2⟩ 12 = some 0 ∧
      ¬ uintxCompare (Bytes.write (fun _ => 0) 0 [16, 0, 0, 0]) ⟨0, 2⟩ 12 ⟨2, 2⟩ 12 =
        some (numOrder (Storage.val ⟨0, 2⟩ (Bytes.write (fun _ => 0) 0 [16, 0, 0, 0]) 12)
          (Storage.val ⟨2, 2⟩ (Bytes.write (fun _ => 0) 0 [16, 0, 0, 0]) 12)) := by
  decide

end Carthage
