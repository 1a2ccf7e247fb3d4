import Carthage.Bitarray

/-!
# Searching an array of bits

`__bit_find_first` scans the rest of the first byte, skips bytes, and scans one byte. It takes the
size, a number of bytes, for a number of bits, so that the scan ends too early, or not at all when
the first whole byte is past the size. A zero is looked for in one whole byte only, because no
byte is like the pattern `-1`.
-/

namespace Carthage

variable {map : Bytes} {value : Bool} {lo hi k n m p q size nbytes offset : ℕ} {r : ℤ}
  {array : Bitarray}

/-! ## Scanning bits -/

/-- The index of the first bit with the value, or -1. -/
def IsFirst (map : Bytes) (value : Bool) (lo hi : ℕ) (r : ℤ) : Prop :=
  (∃ m : ℕ, r = m ∧ lo ≤ m ∧ m < hi ∧ map.testBit m = value ∧
    ∀ j, lo ≤ j → j < m → map.testBit j ≠ value) ∨
  (r = -1 ∧ ∀ j, lo ≤ j → j < hi → map.testBit j ≠ value)

theorem bitFindBits_some (h : bitFindBits map value k n = some m) : n ≤ m ∧ m < n + k ∧
    map.testBit m = value ∧ ∀ j, n ≤ j → j < m → map.testBit j ≠ value := by
  induction k generalizing n with
  | zero => cases h
  | succ k ih =>
      rw [bitFindBits] at h
      split_ifs at h with hbit
      · obtain rfl := Option.some.inj h
        exact ⟨le_refl n, by omega, hbit, fun j h1 h2 => absurd h1 (not_le.mpr h2)⟩
      · obtain ⟨h1, h2, h3, hmin⟩ := ih h
        refine ⟨by omega, by omega, h3, fun j hj hlt => ?_⟩
        rcases Nat.eq_or_lt_of_le hj with rfl | hj
        · exact hbit
        · exact hmin j hj hlt

theorem bitFindBits_none (h : bitFindBits map value k n = none) :
    ∀ j, n ≤ j → j < n + k → map.testBit j ≠ value := by
  induction k generalizing n with
  | zero => exact fun j h1 h2 => absurd h1 (not_le.mpr h2)
  | succ k ih =>
      rw [bitFindBits] at h
      split_ifs at h with hbit
      intro j hj hlt
      rcases Nat.eq_or_lt_of_le hj with rfl | hj
      · exact hbit
      · exact ih h j hj (by omega)

theorem bitFindBits_of_bit (h1 : n ≤ m) (h2 : m < n + k) (hbit : map.testBit m = value) :
    ∃ i, bitFindBits map value k n = some i := by
  cases hfind : bitFindBits map value k n with
  | some i => exact ⟨i, rfl⟩
  | none => exact absurd hbit (bitFindBits_none hfind m h1 h2)

theorem isFirst_of_some (h : bitFindBits map value k n = some m) (hn : lo ≤ n) (hk : n + k ≤ hi)
    (hlow : ∀ j, lo ≤ j → j < n → map.testBit j ≠ value) : IsFirst map value lo hi m := by
  obtain ⟨h1, h2, h3, hmin⟩ := bitFindBits_some h
  refine Or.inl ⟨m, rfl, hn.trans h1, by omega, h3, fun j hj hlt => ?_⟩
  rcases Nat.lt_or_ge j n with hjn | hjn
  · exact hlow j hj hjn
  · exact hmin j hjn hlt

theorem isFirst_skip (hn : lo ≤ n)
    (hlow : ∀ j, lo ≤ j → j < n → map.testBit j ≠ value) :
    IsFirst map value lo hi r ↔ IsFirst map value n hi r := by
  constructor
  · rintro (⟨m, rfl, h1, h2, hbit, hmin⟩ | ⟨rfl, hnone⟩)
    · have hnm : n ≤ m := not_lt.mp fun hlt => hlow m h1 hlt hbit
      exact Or.inl ⟨m, rfl, hnm, h2, hbit, fun j hj => hmin j (hn.trans hj)⟩
    · exact Or.inr ⟨rfl, fun j hj => hnone j (hn.trans hj)⟩
  · rintro (⟨m, rfl, h1, h2, hbit, hmin⟩ | ⟨rfl, hnone⟩)
    · refine Or.inl ⟨m, rfl, hn.trans h1, h2, hbit, fun j hj hlt => ?_⟩
      rcases Nat.lt_or_ge j n with hjn | hjn
      · exact hlow j hj hjn
      · exact hmin j hjn hlt
    · refine Or.inr ⟨rfl, fun j hj hlt => ?_⟩
      rcases Nat.lt_or_ge j n with hjn | hjn
      · exact hlow j hj hjn
      · exact hnone j hjn hlt

/-! ## Skipping bytes -/

/-- `*p == pattern[value]`. -/
def LikePattern (map : Bytes) (value : Bool) (p : ℕ) : Prop :=
  ((map p).toNat : ℤ) = bitPattern value

theorem bitSkipBytes_cases (nbytes : ℕ) (map : Bytes) (value : Bool) (k p : ℕ) :
    (∃ q, bitSkipBytes nbytes map value k p = some (some q) ∧ p ≤ q ∧ q < p + k ∧ q < nbytes ∧
      ¬ LikePattern map value q ∧ ∀ j, p ≤ j → j < q → LikePattern map value j) ∨
    (bitSkipBytes nbytes map value k p = some none ∧ (k = 0 ∨ p + k ≤ nbytes) ∧
      ∀ j, p ≤ j → j < p + k → LikePattern map value j) ∨
    (bitSkipBytes nbytes map value k p = none ∧ nbytes < p + k ∧
      ∀ j, p ≤ j → j < nbytes → LikePattern map value j) := by
  induction k generalizing p with
  | zero => exact Or.inr (Or.inl ⟨rfl, Or.inl rfl, fun j h1 h2 => absurd h1 (not_le.mpr h2)⟩)
  | succ k ih =>
      rw [bitSkipBytes]
      by_cases hp : p < nbytes
      · rw [if_pos hp]
        by_cases hlike : ((map p).toNat : ℤ) = bitPattern value
        · have hfirst : ∀ {P : ℕ → Prop}, (∀ j, p + 1 ≤ j → P j → LikePattern map value j) →
              ∀ j, p ≤ j → P j → LikePattern map value j := by
            intro P h j hj hP
            rcases Nat.eq_or_lt_of_le hj with rfl | hj
            · exact hlike
            · exact h j hj hP
          rw [if_pos hlike]
          rcases ih (p + 1) with ⟨q, hrun, h1, h2, h3, hq, hall⟩ | ⟨hrun, hk, hall⟩ |
            ⟨hrun, hk, hall⟩
          · exact Or.inl ⟨q, hrun, by omega, by omega, h3, hq, hfirst hall⟩
          · refine Or.inr (Or.inl ⟨hrun, Or.inr (by omega), hfirst fun j h1 h2 => ?_⟩)
            exact hall j h1 (by omega)
          · exact Or.inr (Or.inr ⟨hrun, by omega, hfirst hall⟩)
        · rw [if_neg hlike]
          exact Or.inl ⟨p, rfl, le_refl p, by omega, hp, hlike,
            fun j h1 h2 => absurd h1 (not_le.mpr h2)⟩
      · rw [if_neg hp]
        exact Or.inr (Or.inr ⟨rfl, by omega, fun j h1 h2 => absurd h2 (by omega)⟩)

/-- Where a scan from byte `c` ends: at the byte with the number of bits that the size is taken
for, or that many bytes past all addresses when `c` is past the size in bits. -/
def scanEnd (size c : ℕ) : ℕ := if 8 * c ≤ size then (size + 7) / 8 else 2 ^ 61 + (size + 7) / 8

theorem bitBytesLeft_eq (size : ℕ) (hp : p ≤ 2 ^ 61) :
    p + bitBytesLeft size p = scanEnd size p := by
  unfold bitBytesLeft sub64 scanEnd
  simp only []
  split_ifs <;> omega

theorem bitFindBytes_eq (nbytes : ℕ) (map : Bytes) (value : Bool) (size p : ℕ) :
    bitFindBytes nbytes map value size p =
      (bitSkipBytes nbytes map value (bitBytesLeft size p) p).map fun found =>
        (found.bind fun q =>
          (bitFindBits map value 8 (8 * q)).map (Nat.cast : ℕ → ℤ)).getD (-1) := by
  unfold bitFindBytes
  split_ifs with hleft
  · rcases bitSkipBytes nbytes map value (bitBytesLeft size p) p with _ | _ | q <;> rfl
  · rw [Nat.eq_zero_of_not_pos hleft]
    rfl

theorem rest_of_byte (h : offset % 8 ≠ 0) :
    8 - offset % 8 = 8 * ((offset + 7) / 8) - offset ∧ (offset + 7) / 8 = offset / 8 + 1 := by
  omega

theorem bitFindFirst_some (hin : offset % 8 = 0 ∨ offset / 8 < nbytes)
    (h : bitFindBits map value (8 * ((offset + 7) / 8) - offset) offset = some n) :
    bitFindFirst nbytes map value size offset = some (n : ℤ) := by
  unfold bitFindFirst
  by_cases hwhole : offset % 8 = 0
  · obtain ⟨h1, h2, -⟩ := bitFindBits_some h
    omega
  · rw [← (rest_of_byte hwhole).1] at h
    simp only [hwhole, ne_eq, not_false_eq_true, if_true, hin.resolve_left hwhole, h]

theorem bitFindFirst_none (hin : offset % 8 = 0 ∨ offset / 8 < nbytes)
    (h : bitFindBits map value (8 * ((offset + 7) / 8) - offset) offset = none) :
    bitFindFirst nbytes map value size offset =
      bitFindBytes nbytes map value size ((offset + 7) / 8) := by
  unfold bitFindFirst
  by_cases hwhole : offset % 8 = 0
  · have hceil : (offset + 7) / 8 = offset / 8 := by omega
    simp only [hwhole, ne_eq, not_true_eq_false, if_false, hceil]
  · obtain ⟨hrest, hceil⟩ := rest_of_byte hwhole
    rw [← hrest] at h
    simp only [hwhole, ne_eq, not_false_eq_true, if_true, hin.resolve_left hwhole, h, hceil]

theorem bitFindBits_byte_none
    (h : bitFindBits map value (8 * ((offset + 7) / 8) - offset) offset = none) :
    ∀ j, offset ≤ j → j < 8 * ((offset + 7) / 8) → map.testBit j ≠ value :=
  fun j h1 h2 => bitFindBits_none h j h1 (by omega)

/-! ## Set bits -/

theorem likePattern_true_iff : LikePattern map true p ↔ map p = 0 := by
  unfold LikePattern bitPattern
  rw [if_pos rfl, Nat.cast_eq_zero, ← UInt8.toNat_inj]
  rfl

theorem byte_zero_iff : map p = 0 ↔ ∀ j, 8 * p ≤ j → j < 8 * p + 8 → map.testBit j ≠ true := by
  constructor
  · intro h j h1 h2
    have hbyte : j / 8 = p := by omega
    rw [Bytes.testBit_eq, hbyte, h]
    exact Bool.eq_false_iff.mp (Nat.zero_testBit _)
  · intro h
    have hbits : ∀ j < 8, map.testBit (8 * p + j) = Bytes.testBit (fun _ => 0) (8 * p + j) := by
      intro j hj
      rw [Bool.eq_false_iff.mpr (h (8 * p + j) (by omega) (by omega)), Bytes.testBit_eq]
      exact (Nat.zero_testBit _).symm
    exact Bytes.eq_of_testBit hbits

theorem bitFindBits_of_byte (map : Bytes) (h : map p ≠ 0) :
    ∃ i, bitFindBits map true 8 (8 * p) = some i := by
  have hbit : ∃ j, 8 * p ≤ j ∧ j < 8 * p + 8 ∧ map.testBit j = true := by
    by_contra hno
    exact h (byte_zero_iff.mpr fun j h1 h2 hj => hno ⟨j, h1, h2, hj⟩)
  obtain ⟨j, h1, h2, hj⟩ := hbit
  exact bitFindBits_of_bit h1 h2 hj

theorem bytes_zero_iff : (∀ j, p ≤ j → j < q → map j = 0) ↔
    ∀ j, 8 * p ≤ j → j < 8 * q → map.testBit j ≠ true := by
  constructor
  · intro h j h1 h2
    exact byte_zero_iff.mp (h (j / 8) (by omega) (by omega)) j (by omega) (by omega)
  · intro h j h1 h2
    exact byte_zero_iff.mpr fun i hi1 hi2 => h i (by omega) (by omega)

/-- The bytes that the scan reaches hold a set bit, or there is none at all and the scan ends. -/
def ScanFinds (map : Bytes) (size c : ℕ) : Prop :=
  (∃ j, c ≤ j ∧ j < scanEnd size c ∧ j < size ∧ map j ≠ 0) ∨
    (scanEnd size c ≤ size ∧ ∀ j, c ≤ j → j < size → map j = 0)

theorem bitFindBytes_iff (map : Bytes) (hp : p ≤ size) (hp' : p ≤ 2 ^ 61) :
    (∃ r, bitFindBytes size map true size p = some r ∧ IsFirst map true (8 * p) (8 * size) r) ↔
      ScanFinds map size p := by
  have hend := bitBytesLeft_eq size hp'
  rw [bitFindBytes_eq]
  unfold ScanFinds
  rcases bitSkipBytes_cases size map true (bitBytesLeft size p) p with
    ⟨q, hskip, h1, h2, h3, hq, hall⟩ | ⟨hskip, hk, hall⟩ | ⟨hskip, hk, hall⟩
  · have hne : map q ≠ 0 := fun h => hq (likePattern_true_iff.mpr h)
    refine iff_of_true ?_ (Or.inl ⟨q, h1, by omega, h3, hne⟩)
    obtain ⟨i, hi⟩ := bitFindBits_of_byte map hne
    refine ⟨i, by rw [hskip, Option.map_some, Option.bind_some, hi]; rfl, ?_⟩
    refine isFirst_of_some hi (by omega) (by omega) (bytes_zero_iff.mp fun j hj1 hj2 => ?_)
    exact likePattern_true_iff.mp (hall j hj1 hj2)
  · have hzero : ∀ j, p ≤ j → j < scanEnd size p → map j = 0 := fun j hj1 hj2 =>
      likePattern_true_iff.mp (hall j hj1 (by omega))
    have hnone : ¬ ∃ j, p ≤ j ∧ j < scanEnd size p ∧ j < size ∧ map j ≠ 0 :=
      fun ⟨j, hj1, hj2, _, hj⟩ => hj (hzero j hj1 hj2)
    rw [hskip, or_iff_right hnone, and_iff_right (by omega), bytes_zero_iff]
    constructor
    · rintro ⟨r, hr, ⟨m, rfl, -⟩ | ⟨-, h⟩⟩
      · have hneg : (m : ℤ) = -1 := (Option.some.inj hr).symm
        omega
      · exact h
    · exact fun h => ⟨-1, rfl, Or.inr ⟨rfl, h⟩⟩
  · rw [hskip]
    refine iff_of_false (fun ⟨r, hr, _⟩ => (nomatch hr)) ?_
    rintro (⟨j, hj1, -, hj2, hj⟩ | ⟨hle, -⟩)
    · exact hj (likePattern_true_iff.mp (hall j hj1 hj2))
    · omega

/-- A set bit is found right exactly when it is in the rest of the first byte, or the scan of the
bytes that follow finds it. -/
theorem bitarrayFindSet_iff (array : Bitarray) (offset : ℕ) (h : offset < 8 * array.size)
    (hoffset : offset < 2 ^ 64) :
    (∃ r, bitarrayFindSet array.size array offset = some r ∧
        IsFirst array.map true offset (8 * array.size) r) ↔
      (∃ n, offset ≤ n ∧ n < 8 * ((offset + 7) / 8) ∧ array.map.testBit n = true) ∨
        ScanFinds array.map array.size ((offset + 7) / 8) := by
  have hin : offset % 8 = 0 ∨ offset / 8 < array.size := Or.inr (by omega)
  unfold bitarrayFindSet
  cases hfind : bitFindBits array.map true (8 * ((offset + 7) / 8) - offset) offset with
  | some n =>
      obtain ⟨h1, h2, hbit, -⟩ := bitFindBits_some hfind
      rw [bitFindFirst_some hin hfind]
      refine iff_of_true ⟨n, rfl, ?_⟩ (Or.inl ⟨n, h1, by omega, hbit⟩)
      exact isFirst_of_some hfind (le_refl _) (by omega) fun j h1 h2 => absurd h1 (not_le.mpr h2)
  | none =>
      have hlow := bitFindBits_byte_none hfind
      have hnone : ¬ ∃ n, offset ≤ n ∧ n < 8 * ((offset + 7) / 8) ∧
          array.map.testBit n = true := by
        rintro ⟨n, h1, h2, hbit⟩
        exact hlow n h1 h2 hbit
      simp only [isFirst_skip (show offset ≤ 8 * ((offset + 7) / 8) by omega) hlow]
      rw [bitFindFirst_none hin hfind, or_iff_right hnone,
        bitFindBytes_iff array.map (by omega) (by omega)]

/-- The second of four bytes is past the end of the scan from bit 0. -/
theorem bitarrayFindSet_iff_four :
    (∃ r, bitarrayFindSet 4 ⟨fun i => if i = 1 then 1 else 0, 4⟩ 0 = some r ∧
        IsFirst (fun i => if i = 1 then 1 else 0) true 0 (8 * 4) r) ↔
      (∃ n, 0 ≤ n ∧ n < 8 * ((0 + 7) / 8) ∧
        Bytes.testBit (fun i => if i = 1 then 1 else 0) n = true) ∨
        ScanFinds (fun i => if i = 1 then 1 else 0) 4 ((0 + 7) / 8) :=
  bitarrayFindSet_iff ⟨fun i => if i = 1 then 1 else 0, 4⟩ 0 (by decide) (by decide)

theorem bitarrayFindSet_misses :
    bitarrayFindSet 4 ⟨fun i => if i = 1 then 1 else 0, 4⟩ 0 = some (-1) ∧
      ¬ ∃ r, bitarrayFindSet 4 ⟨fun i => if i = 1 then 1 else 0, 4⟩ 0 = some r ∧
        IsFirst (fun i => if i = 1 then 1 else 0) true 0 (8 * 4) r := by
  have hrun : bitarrayFindSet 4 ⟨fun i => if i = 1 then 1 else 0, 4⟩ 0 = some (-1) := by decide
  refine ⟨hrun, ?_⟩
  rintro ⟨r, hr, ⟨m, rfl, -⟩ | ⟨-, hnone⟩⟩
  · have hneg : (-1 : ℤ) = m := Option.some.inj (hrun.symm.trans hr)
    omega
  · exact hnone 8 (by decide) (by decide) (by decide)

/-! ## Zero bits -/

/-- The bitwise complement. -/
def Bitarray.compl (array : Bitarray) : Bitarray := { array with map := fun i => ~~~ array.map i }

theorem testBit_compl (map : Bytes) (n : ℕ) :
    Bytes.testBit (fun i => ~~~ map i) n = !map.testBit n := by
  have hlt : (map (n / 8)).toNat < 2 ^ 8 := UInt8.toNat_lt _
  have hnot : UInt8.size - 1 - (map (n / 8)).toNat = 2 ^ 8 - ((map (n / 8)).toNat + 1) :=
    (Nat.sub_sub 256 1 _).trans (congrArg (256 - ·) (Nat.add_comm 1 _))
  have hn : n % 8 < 8 := Nat.mod_lt n (by norm_num)
  rw [Bytes.testBit_eq, Bytes.testBit_eq, UInt8.toNat_not, hnot, Nat.testBit_two_pow_sub_succ hlt,
    decide_eq_true hn, Bool.true_and]

theorem bitFindBits_compl (map : Bytes) (k n : ℕ) :
    bitFindBits (fun i => ~~~ map i) true k n = bitFindBits map false k n := by
  induction k generalizing n with
  | zero => rfl
  | succ k ih =>
      rw [bitFindBits, bitFindBits, ih, testBit_compl]
      cases map.testBit n <;> rfl

theorem not_likePattern_false (map : Bytes) (p : ℕ) : ¬ LikePattern map false p := by
  unfold LikePattern bitPattern
  intro h
  have hneg : ((map p).toNat : ℤ) = -1 := h
  omega

theorem likePattern_compl_iff : LikePattern (fun i => ~~~ map i) true p ↔ map p = 255 := by
  rw [likePattern_true_iff]
  constructor
  · intro h
    rw [← UInt8.not_not (a := map p), h]
    rfl
  · intro h
    rw [h]
    rfl

/-- A zero in the first byte, or in the first whole byte, or in none of the bytes that the scan
may reach. -/
def ZeroNear (map : Bytes) (size offset : ℕ) : Prop :=
  (∃ n, offset ≤ n ∧ n < 8 * ((offset + 7) / 8) ∧ map.testBit n = false) ∨
    map ((offset + 7) / 8) ≠ 255 ∨
    ∀ j, (offset + 7) / 8 < j → j < scanEnd size ((offset + 7) / 8) → map j = 255

theorem bitFindBytes_compl_iff (hp : p ≤ 2 ^ 61)
    (hin : ∃ r, bitFindBytes nbytes (fun i => ~~~ map i) true size p = some r) :
    bitFindBytes nbytes map false size p = bitFindBytes nbytes (fun i => ~~~ map i) true size p ↔
      map p ≠ 255 ∨ ∀ j, p < j → j < scanEnd size p → map j = 255 := by
  have hend := bitBytesLeft_eq size hp
  rw [bitFindBytes_eq] at hin
  rw [bitFindBytes_eq, bitFindBytes_eq]
  cases hleft : bitBytesLeft size p with
  | zero => exact iff_of_true rfl (Or.inr fun j h1 h2 => by omega)
  | succ k =>
      rw [hleft] at hin hend
      have hpn : p < nbytes := by
        by_contra hout
        rw [bitSkipBytes, if_neg hout] at hin
        exact nomatch hin
      have hzero : bitSkipBytes nbytes map false (k + 1) p = some (some p) := by
        rw [bitSkipBytes, if_pos hpn]
        exact if_neg (not_likePattern_false map p)
      rw [hzero]
      by_cases hff : map p = 255
      · have hones : bitFindBits map false 8 (8 * p) = none := by
          rw [← bitFindBits_compl]
          cases hfind : bitFindBits (fun i => ~~~ map i) true 8 (8 * p) with
          | none => rfl
          | some m =>
              obtain ⟨h1, h2, hbit, -⟩ := bitFindBits_some hfind
              have hbyte := likePattern_true_iff.mp (likePattern_compl_iff.mpr hff)
              exact absurd hbit (byte_zero_iff.mp hbyte m h1 h2)
        have hmiss : (Option.map (fun found => (found.bind fun q =>
            (bitFindBits map false 8 (8 * q)).map (Nat.cast : ℕ → ℤ)).getD (-1))
              (some (some p))) = some (-1) := by
          rw [Option.map_some, Option.bind_some, hones]
          rfl
        rw [hmiss, or_iff_right (not_not.mpr hff)]
        rcases bitSkipBytes_cases nbytes (fun i => ~~~ map i) true (k + 1) p with
          ⟨q, hskip, h1, h2, -, hq, -⟩ | ⟨hskip, -, hall⟩ | ⟨hskip, -⟩
        · have hne : map q ≠ 255 := fun h => hq (likePattern_compl_iff.mpr h)
          have hpq : p ≠ q := fun h => hne (h ▸ hff)
          obtain ⟨i, hi⟩ := bitFindBits_of_byte (fun i => ~~~ map i)
            fun h => hq (likePattern_true_iff.mpr h)
          rw [hskip, Option.map_some, Option.bind_some, hi]
          refine iff_of_false (fun h => ?_) fun h => hne (h q (by omega) (by omega))
          have hneg : (-1 : ℤ) = i := Option.some.inj h
          omega
        · rw [hskip]
          exact iff_of_true rfl fun j h1 h2 =>
            likePattern_compl_iff.mp (hall j (by omega) (by omega))
        · rw [hskip] at hin
          exact nomatch hin
      · have hset : bitSkipBytes nbytes (fun i => ~~~ map i) true (k + 1) p = some (some p) := by
          rw [bitSkipBytes, if_pos hpn]
          exact if_neg fun h => hff (likePattern_compl_iff.mp h)
        rw [hset]
        refine iff_of_true ?_ (Or.inl hff)
        simp only [bitFindBits_compl]

/-- Searching a zero is searching a set bit in the complement exactly when there is a zero near,
or none that the scan may reach. -/
theorem bitarrayFindZero_iff (array : Bitarray) (offset : ℕ) (hoffset : offset < 2 ^ 64)
    (hin : ∃ r, bitarrayFindSet nbytes array.compl offset = some r) :
    bitarrayFindZero nbytes array offset = bitarrayFindSet nbytes array.compl offset ↔
      ZeroNear array.map array.size offset := by
  have hbyte : offset % 8 = 0 ∨ offset / 8 < nbytes := by
    by_contra hout
    obtain ⟨hwhole, hout⟩ := not_or.mp hout
    obtain ⟨r, hr⟩ := hin
    unfold bitarrayFindSet bitFindFirst at hr
    simp only [hwhole, ne_eq, not_false_eq_true, if_true, if_neg hout] at hr
    cases hr
  unfold bitarrayFindZero bitarrayFindSet Bitarray.compl ZeroNear at *
  cases hfind : bitFindBits array.map false (8 * ((offset + 7) / 8) - offset) offset with
  | some n =>
      obtain ⟨h1, h2, hbit, -⟩ := bitFindBits_some hfind
      have hset := (bitFindBits_compl array.map _ offset).trans hfind
      rw [bitFindFirst_some hbyte hfind, bitFindFirst_some hbyte hset]
      exact iff_of_true rfl (Or.inl ⟨n, h1, by omega, hbit⟩)
  | none =>
      have hlow := bitFindBits_byte_none hfind
      have hset := (bitFindBits_compl array.map _ offset).trans hfind
      have hnone : ¬ ∃ n, offset ≤ n ∧ n < 8 * ((offset + 7) / 8) ∧
          array.map.testBit n = false := by
        rintro ⟨n, h1, h2, hbit⟩
        exact hlow n h1 h2 hbit
      rw [bitFindFirst_none hbyte hset] at hin
      rw [bitFindFirst_none hbyte hfind, bitFindFirst_none hbyte hset, or_iff_right hnone]
      exact bitFindBytes_compl_iff (by omega) hin

/-- The only zeros of two bytes are in the second one. -/
theorem bitarrayFindZero_iff_two :
    bitarrayFindZero 2 ⟨fun i => if i = 0 then 255 else 0, 16⟩ 0 =
        bitarrayFindSet 2 (Bitarray.compl ⟨fun i => if i = 0 then 255 else 0, 16⟩) 0 ↔
      ZeroNear (fun i => if i = 0 then 255 else 0) 16 0 :=
  bitarrayFindZero_iff ⟨fun i => if i = 0 then 255 else 0, 16⟩ 0 (by decide)
    ⟨8, by decide⟩

theorem bitarrayFindZero_misses :
    bitarrayFindSet 2 (Bitarray.compl ⟨fun i => if i = 0 then 255 else 0, 16⟩) 0 = some 8 ∧
      bitarrayFindZero 2 ⟨fun i => if i = 0 then 255 else 0, 16⟩ 0 = some (-1) ∧
      ¬ bitarrayFindZero 2 ⟨fun i => if i = 0 then 255 else 0, 16⟩ 0 =
        bitarrayFindSet 2 (Bitarray.compl ⟨fun i => if i = 0 then 255 else 0, 16⟩) 0 := by
  decide

end Carthage
