import Carthage.BitMap
import Carthage.MemWords

/-!
# Filling memory

`memset` fills words with a pattern and the bytes that are left with the character. The functions
for one width fill words only. The pattern of `memset` is made of the whole `int`, whose higher
bytes show up in the lanes above them.
-/

namespace Carthage.MmUtils

/-- The conversion of an `int` to an unsigned type of `w` bytes. -/
def toUnsigned (w : ℕ) (c : ℤ) : ℕ := (c % 256 ^ w).toNat

/-- `pattern |= c << s` for the shifts of a list. -/
def fillPattern (w : ℕ) (c : ℤ) (shifts : List ℕ) : ℕ :=
  shifts.foldl (fun pattern s => pattern ||| toUnsigned w c <<< s % 256 ^ w) (toUnsigned w c)

section Model

variable (e : Endian)

/-- `*p++ = pattern`, for `k` words of `w` bytes; where the pointer is left. -/
def memsetWords (w pattern : ℕ) : ℕ → Bytes → ℕ → Bytes × ℕ
  | 0, mem, p => (mem, p)
  | k + 1, mem, p => memsetWords w pattern k (mem.storeWord e p w pattern) (p + w)

/-- `__memset`. -/
def memsetFill (w : ℕ) (c : ℤ) (pattern : ℕ) (mem : Bytes) (dest n : ℕ) : Bytes :=
  let (mem, p) := memsetWords e w pattern (n / w) mem dest
  (memsetWords e 1 (toUnsigned 1 c) (n % w) mem p).1

/-- `__memset_sized`. -/
def memsetSized (w pattern : ℕ) (mem : Bytes) (dest n : ℕ) : Bytes :=
  (memsetWords e w pattern (n / w) mem dest).1

def memset (long : Width) (c : ℤ) (mem : Bytes) (dest n : ℕ) : Bytes :=
  match long with
  | .b32 => memsetFill e 4 c (fillPattern 4 c [8, 16, 24]) mem dest n
  | .b64 => memsetFill e 8 c (fillPattern 8 c [8, 16, 24, 32, 40, 48, 56]) mem dest n
  | _ => memsetSized e 1 (toUnsigned 1 c) mem dest n

def memset8 (c : UInt8) (mem : Bytes) (dest n : ℕ) : Bytes := memsetSized e 1 c.toNat mem dest n

/-- The pattern that is made here is not used. -/
def memset16 (c : UInt8) (mem : Bytes) (dest n : ℕ) : Bytes := memsetSized e 2 c.toNat mem dest n

def memset32 (c : UInt8) (mem : Bytes) (dest n : ℕ) : Bytes :=
  memsetSized e 4 (fillPattern 4 c.toNat [8, 16, 24]) mem dest n

def memset64 (c : UInt8) (mem : Bytes) (dest n : ℕ) : Bytes :=
  memsetSized e 8 (fillPattern 8 c.toNat [8, 16, 24, 32, 40, 48, 56]) mem dest n

/-- The case of 2 bytes falls through to the one of 4, with the bytes that are left. -/
def memzero (long : Width) (mem : Bytes) (dest n : ℕ) : Bytes :=
  match long with
  | .b16 => memsetSized e 4 0 (memsetSized e 2 0 mem dest n) dest (n % 2)
  | .b32 => memsetSized e 4 0 mem dest n
  | .b64 => memsetSized e 8 0 mem dest n
  | .b8 => memsetSized e 1 0 mem dest n

end Model

variable {e : Endian} {w k n p dest pattern : ℕ} {mem mem' : Bytes} {b : UInt8} {c : ℤ}

/-! ## Words of a pattern -/

def patternBytes (e : Endian) (w pattern : ℕ) : List UInt8 := e.order (littleEndian w pattern)

@[simp] theorem length_patternBytes (e : Endian) (w pattern : ℕ) :
    (patternBytes e w pattern).length = w := by simp [patternBytes]

theorem memsetWords_snd (e : Endian) (w pattern k : ℕ) (mem : Bytes) (p : ℕ) :
    (memsetWords e w pattern k mem p).2 = p + k * w := by
  induction k generalizing mem p with
  | zero => simp [memsetWords]
  | succ k ih => rw [memsetWords, ih, Nat.succ_mul, Nat.add_assoc, Nat.add_comm w]

theorem memsetWords_outside {i : ℕ} (h : i < p ∨ p + k * w ≤ i) :
    (memsetWords e w pattern k mem p).1 i = mem i := by
  induction k generalizing mem p with
  | zero => rfl
  | succ k ih =>
      have hlen : (patternBytes e w pattern).length = w := length_patternBytes e w pattern
      rw [Nat.succ_mul] at h
      rw [memsetWords, ih (by omega)]
      rcases h with h | h
      · exact Bytes.write_of_lt h
      · exact Bytes.write_of_ge (by rw [← patternBytes, hlen]; omega)

theorem memsetWords_inside (e : Endian) (pattern : ℕ) (mem : Bytes) (p : ℕ) {j t : ℕ} (hj : j < k)
    (ht : t < w) :
    (memsetWords e w pattern k mem p).1 (p + j * w + t) = (patternBytes e w pattern).getD t 0 := by
  induction k generalizing mem p j with
  | zero => exact absurd hj (Nat.not_lt_zero j)
  | succ k ih =>
      rw [memsetWords]
      cases j with
      | zero =>
          rw [memsetWords_outside (by omega), Nat.zero_mul, Nat.add_zero, Bytes.storeWord,
            Bytes.write, if_pos (by omega), Nat.add_sub_cancel_left, ← patternBytes,
            List.getD_eq_getElem?_getD, List.getD_eq_getElem?_getD,
            List.getElem?_eq_getElem (by simpa using ht)]
          rfl
      | succ j =>
          have hnext : p + (j + 1) * w + t = p + w + j * w + t := by
            rw [Nat.succ_mul]
            omega
          rw [hnext, ih _ _ (by omega)]

/-- The bytes of a range have the value, all others are as before. -/
def Filled (mem mem' : Bytes) (dest n : ℕ) (b : UInt8) : Prop :=
  (∀ t < n, mem' (dest + t) = b) ∧ ∀ i, (i < dest ∨ dest + n ≤ i) → mem' i = mem i

theorem Filled.unique {mem'' : Bytes} (h : Filled mem mem' dest n b)
    (h' : Filled mem mem'' dest n b) : mem' = mem'' := by
  funext i
  by_cases hi : dest ≤ i ∧ i < dest + n
  · obtain ⟨t, rfl⟩ := Nat.exists_eq_add_of_le hi.1
    rw [h.1 t (by omega), h'.1 t (by omega)]
  · rw [h.2 i (by omega), h'.2 i (by omega)]

theorem Filled.append {mem'' : Bytes} {m : ℕ} (h : Filled mem mem' dest n b)
    (h' : Filled mem' mem'' (dest + n) m b) : Filled mem mem'' dest (n + m) b := by
  refine ⟨fun t ht => ?_, fun i hi => ?_⟩
  · by_cases hlow : t < n
    · rw [h'.2 _ (by omega), h.1 t hlow]
    · obtain ⟨s, rfl⟩ := Nat.exists_eq_add_of_le (not_lt.mp hlow)
      rw [← Nat.add_assoc, h'.1 s (by omega)]
  · rw [h'.2 i (by omega), h.2 i (by omega)]

theorem memsetWords_filled_iff (e : Endian) (pattern : ℕ) (mem : Bytes) (p k : ℕ) (b : UInt8)
    (hw : 0 < w) :
    Filled mem (memsetWords e w pattern k mem p).1 p (k * w) b ↔
      k = 0 ∨ littleEndian w pattern = List.replicate w b := by
  have hrep : littleEndian w pattern = List.replicate w b ↔
      ∀ t < w, (patternBytes e w pattern).getD t 0 = b := by
    rw [← e.order_inj, e.order_replicate, ← patternBytes]
    constructor
    · intro h t ht
      rw [h, List.getD_eq_getElem?_getD, List.getElem?_replicate, if_pos ht]
      rfl
    · intro h
      refine List.ext_getElem (by simp) fun t h1 h2 => ?_
      have ht := h t (by simpa using h1)
      rw [List.getD_eq_getElem?_getD, List.getElem?_eq_getElem h1] at ht
      rw [List.getElem_replicate]
      exact ht
  rw [hrep]
  constructor
  · intro h
    rcases Nat.eq_zero_or_pos k with hk | hk
    · exact Or.inl hk
    · refine Or.inr fun t ht => ?_
      have hle : w ≤ k * w := Nat.le_mul_of_pos_left w hk
      have hin := memsetWords_inside e pattern mem p hk ht
      rw [Nat.zero_mul, Nat.add_zero] at hin
      rw [← hin, h.1 t (by omega)]
  · intro h
    refine ⟨fun t ht => ?_, fun i hi => memsetWords_outside hi⟩
    have hj : t / w < k := Nat.div_lt_of_lt_mul (by rwa [Nat.mul_comm])
    have hin := memsetWords_inside e pattern mem p hj (Nat.mod_lt t hw)
    rw [Nat.add_assoc, Nat.div_add_mod'] at hin
    rw [hin]
    exact (h.resolve_left fun hk => absurd hj (hk ▸ Nat.not_lt_zero _)) _ (Nat.mod_lt t hw)

/-! ## The pattern -/

/-- Byte `i` of an `int` as an unsigned number of `w` bytes. -/
def intByte (w : ℕ) (c : ℤ) (i : ℕ) : UInt8 := .ofNat (toUnsigned w c / 256 ^ i)

theorem testBit_ofNat_div (x i : ℕ) {j : ℕ} (hj : j < 8) :
    (UInt8.ofNat (x / 256 ^ i)).toNat.testBit j = x.testBit (8 * i + j) := by
  have hpow : 256 ^ i = 2 ^ (8 * i) := by rw [Nat.pow_mul]
  rw [UInt8.toNat_ofNat', Nat.testBit_mod_two_pow, decide_eq_true hj, Bool.true_and, hpow,
    Nat.testBit_div_two_pow, Nat.add_comm]

theorem testBit_fillPattern (w : ℕ) (c : ℤ) (shifts : List ℕ) {m : ℕ} (hm : m < 8 * w) :
    (fillPattern w c shifts).testBit m = ((toUnsigned w c).testBit m ||
      shifts.any fun s => decide (s ≤ m) && (toUnsigned w c).testBit (m - s)) := by
  have hpow : 256 ^ w = 2 ^ (8 * w) := by rw [Nat.pow_mul]
  have hfold : ∀ x, (shifts.foldl (fun pattern s => pattern ||| toUnsigned w c <<< s % 256 ^ w)
      x).testBit m = (x.testBit m ||
        shifts.any fun s => decide (s ≤ m) && (toUnsigned w c).testBit (m - s)) := by
    induction shifts with
    | nil => exact fun x => (Bool.or_false _).symm
    | cons s shifts ih =>
        intro x
        rw [List.foldl_cons, ih, List.any_cons, ← Bool.or_assoc, Nat.testBit_or, hpow,
          Nat.testBit_mod_two_pow, decide_eq_true hm, Bool.true_and, Nat.testBit_shiftLeft]
  exact hfold _

def ShiftsOf (w : ℕ) (shifts : List ℕ) : Prop :=
  (∀ s ∈ shifts, s % 8 = 0) ∧ ∀ i < w, 0 < i → 8 * i ∈ shifts

instance (w : ℕ) (shifts : List ℕ) : Decidable (ShiftsOf w shifts) :=
  inferInstanceAs (Decidable (_ ∧ _))

/-- A pattern repeats the lowest byte exactly when the other bytes have no further bits. -/
theorem fillPattern_eq_iff {shifts : List ℕ} (h : ShiftsOf w shifts) :
    littleEndian w (fillPattern w c shifts) = List.replicate w (intByte w c 0) ↔
      ∀ i < w, intByte w c i ||| intByte w c 0 = intByte w c 0 := by
  have hlow : ∀ j < 8, (intByte w c 0).toNat.testBit j = (toUnsigned w c).testBit j := by
    intro j hj
    rw [intByte, testBit_ofNat_div _ _ hj, Nat.mul_zero, Nat.zero_add]
  have hbytes : littleEndian w (fillPattern w c shifts) = List.replicate w (intByte w c 0) ↔
      ∀ i < w, ∀ j < 8, (fillPattern w c shifts).testBit (8 * i + j) =
        (toUnsigned w c).testBit j := by
    constructor
    · intro heq i hi j hj
      have hget := getElem_littleEndian (n := w) (x := fillPattern w c shifts) (by simpa using hi)
      simp only [heq, List.getElem_replicate] at hget
      rw [← testBit_ofNat_div _ _ hj, ← hget, hlow j hj]
    · intro hbit
      refine List.ext_getElem (by simp) fun i h1 h2 => ?_
      rw [getElem_littleEndian, List.getElem_replicate, byte_eq_iff]
      intro j hj
      rw [testBit_ofNat_div _ _ hj, hbit i (by simpa using h1) j hj, hlow j hj]
  have hcover : (∀ i < w, intByte w c i ||| intByte w c 0 = intByte w c 0) ↔
      ∀ i < w, ∀ j < 8, (toUnsigned w c).testBit (8 * i + j) = true →
        (toUnsigned w c).testBit j = true := by
    refine forall₂_congr fun i _ => ?_
    rw [byte_eq_iff]
    refine forall₂_congr fun j hj => ?_
    rw [UInt8.toNat_or, Nat.testBit_or, hlow j hj, intByte, testBit_ofNat_div _ _ hj]
    cases (toUnsigned w c).testBit (8 * i + j) <;> simp
  rw [hbytes, hcover]
  constructor
  · intro hall i hi j hj hbit
    rw [← hall i hi j hj, testBit_fillPattern w c shifts (by omega), hbit, Bool.true_or]
  · intro hall i hi j hj
    rw [testBit_fillPattern w c shifts (by omega), Bool.eq_iff_iff, Bool.or_eq_true,
      List.any_eq_true]
    constructor
    · rintro (hbit | ⟨s, hs, hbit⟩)
      · exact hall i hi j hj hbit
      · rw [Bool.and_eq_true, decide_eq_true_iff] at hbit
        have hs8 := h.1 s hs
        have hindex : 8 * i + j - s = 8 * (i - s / 8) + j := by omega
        rw [hindex] at hbit
        exact hall _ (by omega) j hj hbit.2
    · intro hbit
      rcases Nat.eq_zero_or_pos i with rfl | hpos
      · left
        rwa [Nat.mul_zero, Nat.zero_add]
      · refine Or.inr ⟨8 * i, h.2 i hi hpos, ?_⟩
        rw [Nat.add_sub_cancel_left, hbit, decide_eq_true (Nat.le_add_right _ _)]
        rfl

theorem intByte_zero (hw : 0 < w) (c : ℤ) : intByte w c 0 = intByte 1 c 0 := by
  have hdvd : (256 : ℤ) ∣ 256 ^ w := dvd_pow_self 256 hw.ne'
  have hmod : (c % 256 ^ w).toNat % 256 = (c % 256 ^ 1).toNat % 256 := by
    have hpos : 0 ≤ c % 256 ^ w := Int.emod_nonneg c (by positivity)
    have hcast := Int.emod_emod_of_dvd c hdvd
    rw [pow_one]
    omega
  apply UInt8.toNat_inj.mp
  unfold intByte toUnsigned
  rw [pow_zero, Nat.div_one, Nat.div_one, UInt8.toNat_ofNat', UInt8.toNat_ofNat']
  exact hmod

theorem intByte_char (hw : 0 < w) (c : UInt8) {i : ℕ} :
    intByte w c.toNat i = if i = 0 then c else 0 := by
  have hc : c.toNat < 256 := c.toNat_lt
  have hlt : c.toNat < 256 ^ w := hc.trans_le (Nat.le_self_pow hw.ne' 256)
  have hval : toUnsigned w c.toNat = c.toNat := by
    unfold toUnsigned
    have hcast : ((c.toNat : ℤ) % 256 ^ w) = ((c.toNat % 256 ^ w : ℕ) : ℤ) := by push_cast; rfl
    rw [hcast, Int.toNat_natCast, Nat.mod_eq_of_lt hlt]
  unfold intByte
  rw [hval]
  split_ifs with hi
  · rw [hi, pow_zero, Nat.div_one, UInt8.ofNat_toNat]
  · rw [Nat.div_eq_of_lt (hc.trans_le (Nat.le_self_pow hi 256))]
    rfl

/-! ## Filling with a character -/

theorem memsetSized_filled_iff (hw : 0 < w) (hn : n % w = 0) :
    Filled mem (memsetSized e w pattern mem dest n) dest n b ↔
      n = 0 ∨ littleEndian w pattern = List.replicate w b := by
  have hwhole : n / w * w = n := Nat.div_mul_cancel (Nat.dvd_of_mod_eq_zero hn)
  have hiff := memsetWords_filled_iff e pattern mem dest (n / w) b hw
  rw [hwhole] at hiff
  have hzero : n / w = 0 ↔ n = 0 := by
    constructor
    · intro h
      rw [← hwhole, h, Nat.zero_mul]
    · intro h
      rw [h, Nat.zero_div]
  rw [← hzero]
  exact hiff

theorem memsetFill_filled_iff (hw : 0 < w) {shifts : List ℕ} (h : ShiftsOf w shifts) :
    Filled mem (memsetFill e w c (fillPattern w c shifts) mem dest n) dest n (intByte 1 c 0) ↔
      n < w ∨ ∀ i < w, intByte w c i ||| intByte 1 c 0 = intByte 1 c 0 := by
  have hwords := memsetWords_filled_iff e (fillPattern w c shifts) mem dest (n / w)
    (intByte 1 c 0) hw
  have hpos : n / w = 0 ↔ n < w := Nat.div_eq_zero_iff_lt hw
  rw [← intByte_zero hw, fillPattern_eq_iff h, intByte_zero hw, hpos] at hwords
  rw [← hwords]
  unfold memsetFill
  simp only [memsetWords_snd]
  have hout : ∀ i, (i < dest ∨ dest + n / w * w ≤ i) →
      (memsetWords e w (fillPattern w c shifts) (n / w) mem dest).1 i = mem i :=
    fun i hi => memsetWords_outside hi
  generalize (memsetWords e w (fillPattern w c shifts) (n / w) mem dest).1 = mem₁ at *
  have htail := (memsetWords_filled_iff e (toUnsigned 1 c) mem₁ (dest + n / w * w) (n % w)
    (intByte 1 c 0) Nat.one_pos).mpr (Or.inr (by simp [littleEndian, intByte]))
  rw [Nat.mul_one] at htail
  have hsum : n / w * w + n % w = n := Nat.div_add_mod' n w
  constructor
  · intro hall
    refine ⟨fun t ht => ?_, hout⟩
    rw [← htail.2 (dest + t) (by omega), hall.1 t (by omega)]
  · intro hfill
    have happ := hfill.append htail
    rwa [hsum] at happ

/-- `memset` fills with the low byte exactly when it fills no words, or the higher bytes of its
`int` have no bits that this one has not. -/
theorem memset_fills_iff (e : Endian) (long : Width) (c : ℤ) (mem : Bytes) (dest n : ℕ) :
    Filled mem (memset e long c mem dest n) dest n (intByte 1 c 0) ↔
      n < long.bytes ∨ long.bytes < 4 ∨
        ∀ i < long.bytes, intByte long.bytes c i ||| intByte 1 c 0 = intByte 1 c 0 := by
  have hbytes : Filled mem (memsetSized e 1 (toUnsigned 1 c) mem dest n) dest n (intByte 1 c 0) :=
    (memsetSized_filled_iff Nat.one_pos (Nat.mod_one n)).mpr
      (Or.inr (by simp [littleEndian, intByte]))
  cases long with
  | b8 => exact iff_of_true hbytes (Or.inr (Or.inl (by decide)))
  | b16 => exact iff_of_true hbytes (Or.inr (Or.inl (by decide)))
  | b32 =>
      have hshort : ¬ Width.b32.bytes < 4 := by decide
      rw [or_iff_right hshort]
      exact memsetFill_filled_iff (by decide) (by decide)
  | b64 =>
      have hshort : ¬ Width.b64.bytes < 4 := by decide
      rw [or_iff_right hshort]
      exact memsetFill_filled_iff (by decide) (by decide)

/-- The second byte of 256 is left in the second lane of the words. -/
theorem memset_leaks :
    memset .little .b64 256 (fun _ => 7) 0 8 1 = 1 ∧
      ¬ Filled (fun _ => 7) (memset .little .b64 256 (fun _ => 7) 0 8) 0 8 (intByte 1 256 0) :=
  ⟨by decide, fun h => absurd (h.1 1 (by decide)) (by decide)⟩

/-! ## Zeros and words -/

theorem memset8_filled (e : Endian) (c : UInt8) (mem : Bytes) (dest n : ℕ) :
    Filled mem (memset8 e c mem dest n) dest n c :=
  (memsetSized_filled_iff Nat.one_pos (Nat.mod_one n)).mpr (Or.inr (by simp [littleEndian]))

theorem eq_memset8_iff {c : UInt8} :
    mem' = memset8 e c mem dest n ↔ Filled mem mem' dest n c :=
  ⟨fun h => h ▸ memset8_filled e c mem dest n, fun h => h.unique (memset8_filled e c mem dest n)⟩

theorem fillPattern_char (hw : 0 < w) {shifts : List ℕ} (h : ShiftsOf w shifts) (c : UInt8) :
    littleEndian w (fillPattern w c.toNat shifts) = List.replicate w c := by
  have hlow : intByte w c.toNat 0 = c := by rw [intByte_char hw, if_pos rfl]
  have hall := (fillPattern_eq_iff (c := (c.toNat : ℤ)) h).mpr fun i _ => by
    rw [hlow, intByte_char hw]
    split_ifs
    · exact UInt8.or_self
    · exact UInt8.zero_or
  rwa [hlow] at hall

theorem memset16_eq_iff (c : UInt8) (hn : n % 2 = 0) :
    memset16 e c mem dest n = memset8 e c mem dest n ↔ n = 0 ∨ c = 0 := by
  rw [eq_memset8_iff]
  unfold memset16
  rw [memsetSized_filled_iff (by norm_num) hn]
  have hc : c.toNat < 256 := c.toNat_lt
  have hword : littleEndian 2 c.toNat = [c, 0] := by
    simp [littleEndian, Nat.div_eq_of_lt hc]
  rw [hword]
  refine or_congr_right ⟨fun h => ?_, fun h => by rw [h]; rfl⟩
  exact (List.cons.inj (List.cons.inj h).2).1.symm

theorem memsetSized_zero (e : Endian) (hw : 0 < w) (mem : Bytes) (dest n : ℕ) :
    Filled mem (memsetSized e w 0 mem dest n) dest (n / w * w) 0 :=
  (memsetWords_filled_iff e 0 mem dest (n / w) 0 hw).mpr (Or.inr (littleEndian_zero w))

theorem filled_words_iff (h : Filled mem mem' dest (n / w * w) 0) :
    Filled mem mem' dest n 0 ↔ ∀ t, n - n % w ≤ t → t < n → mem (dest + t) = 0 := by
  have hsum : n / w * w + n % w = n := Nat.div_add_mod' n w
  constructor
  · intro hall t h1 h2
    rw [← h.2 (dest + t) (by omega), hall.1 t h2]
  · intro hrest
    refine ⟨fun t ht => ?_, fun i hi => h.2 i (by omega)⟩
    by_cases hlow : t < n / w * w
    · exact h.1 t hlow
    · rw [h.2 (dest + t) (by omega), hrest t (by omega) ht]

theorem memzero_words (e : Endian) (long : Width) (mem : Bytes) (dest n : ℕ) :
    Filled mem (memzero e long mem dest n) dest (n / long.bytes * long.bytes) 0 := by
  cases long with
  | b8 => exact memsetSized_zero e (by norm_num) mem dest n
  | b16 =>
      have hfew : n % 2 / 4 = 0 := by omega
      have hrest : memzero e .b16 mem dest n = memsetSized e 2 0 mem dest n := by
        unfold memzero memsetSized
        simp only [hfew, memsetWords]
      rw [hrest]
      exact memsetSized_zero e (by norm_num) mem dest n
  | b32 => exact memsetSized_zero e (by norm_num) mem dest n
  | b64 => exact memsetSized_zero e (by norm_num) mem dest n

/-- `memzero` clears a buffer exactly when the bytes behind its last whole word are zeros already,
and `memset16` does what `memset8` does exactly for no bytes or the character 0; `memset32` and
`memset64` always do. -/
theorem memzero_memset_iff (e : Endian) (long : Width) (c : UInt8) (mem : Bytes) (dest n : ℕ) :
    (Filled mem (memzero e long mem dest n) dest n 0 ↔
      ∀ t, n - n % long.bytes ≤ t → t < n → mem (dest + t) = 0) ∧
    (n % 2 = 0 → (memset16 e c mem dest n = memset8 e c mem dest n ↔ n = 0 ∨ c = 0)) ∧
    (n % 4 = 0 → memset32 e c mem dest n = memset8 e c mem dest n) ∧
    (n % 8 = 0 → memset64 e c mem dest n = memset8 e c mem dest n) := by
  refine ⟨filled_words_iff (memzero_words e long mem dest n), memset16_eq_iff c, fun hn => ?_,
    fun hn => ?_⟩
  · rw [eq_memset8_iff]
    exact (memsetSized_filled_iff (by norm_num) hn).mpr
      (Or.inr (fillPattern_char (by norm_num) (by decide) c))
  · rw [eq_memset8_iff]
    exact (memsetSized_filled_iff (by norm_num) hn).mpr
      (Or.inr (fillPattern_char (by norm_num) (by decide) c))

/-- Eight bytes. -/
theorem memzero_memset_iff_eight :
    (Filled (fun _ => 7) (memzero .little .b64 (fun _ => 7) 0 8) 0 8 0 ↔
      ∀ t, 8 - 8 % Width.b64.bytes ≤ t → t < 8 → (7 : UInt8) = 0) ∧
    (memset16 .little 5 (fun _ => 7) 0 8 = memset8 .little 5 (fun _ => 7) 0 8 ↔
      8 = 0 ∨ (5 : UInt8) = 0) ∧
    memset32 .little 5 (fun _ => 7) 0 8 = memset8 .little 5 (fun _ => 7) 0 8 ∧
    memset64 .little 5 (fun _ => 7) 0 8 = memset8 .little 5 (fun _ => 7) 0 8 := by
  obtain ⟨hzero, h16, h32, h64⟩ := memzero_memset_iff .little .b64 5 (fun _ => 7) 0 8
  exact ⟨hzero, h16 (by decide), h32 (by decide), h64 (by decide)⟩

/-- One byte is not cleared, and two bytes are not both set to 1. -/
theorem memzero_leaves_tail :
    memzero .little .b64 (fun _ => 7) 0 1 0 = 7 ∧
      ¬ Filled (fun _ => 7) (memzero .little .b64 (fun _ => 7) 0 1) 0 1 0 ∧
      memset16 .little 1 (fun _ => 7) 0 2 1 = 0 ∧
      ¬ memset16 .little 1 (fun _ => 7) 0 2 = memset8 .little 1 (fun _ => 7) 0 2 :=
  ⟨by decide, fun h => absurd (h.1 0 (by decide)) (by decide), by decide,
    fun h => absurd (congrFun h 1) (by decide)⟩

end Carthage.MmUtils
