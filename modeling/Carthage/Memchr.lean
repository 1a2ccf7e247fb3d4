import Carthage.MemWords

/-!
# Searching memory

`memchr` skips words without the character, which it finds with a test for a zero byte, and
searches the rest by bytes. The buffer ends at some address; a read outside it gives `none`.
-/

namespace Carthage.MmUtils

def mask16 (x : ℕ) : ℕ := (x <<< 8) + x

def mask32 (x : ℕ) : ℕ := (x <<< 24) + (x <<< 16) + mask16 x

def mask48 (x : ℕ) : ℕ := (x <<< 40) + (x <<< 32) + mask32 x

def mask64 (x : ℕ) : ℕ := (x <<< 56) + (x <<< 48) + mask48 x

/-- `(x - 0x0101U) & ~x & 0x8080U`, which is made in 32 bits. -/
def test16 (x : ℕ) : ℕ := (x + 2 ^ 32 - 0x0101) % 2 ^ 32 &&& (2 ^ 32 - 1 - x) &&& 0x8080

def test32 (x : ℕ) : ℕ := (x + 2 ^ 32 - 0x01010101) % 2 ^ 32 &&& (2 ^ 32 - 1 - x) &&& 0x80808080

def test64 (x : ℕ) : ℕ :=
  (x + 2 ^ 64 - 0x0101010101010101) % 2 ^ 64 &&& (2 ^ 64 - 1 - x) &&& 0x8080808080808080

section Model

variable (e : Endian) (mem : Bytes) (lo hi : ℕ)

/-- The word of `w` bytes at `p`, between `lo` and `hi`. -/
def readWord (w p : ℕ) : Option ℕ :=
  if lo ≤ p ∧ p + w ≤ hi then some (mem.loadWord e p w) else none

def readByte (p : ℕ) : Option UInt8 := if lo ≤ p ∧ p < hi then some (mem p) else none

/-- The loop over bytes: the address of the first that is the character, if there is one. -/
def memchrBytes (c : UInt8) : ℕ → ℕ → Option (Option ℕ)
  | 0, _ => some none
  | n + 1, p => do
      if (← readByte mem lo hi p) = c then return some p
      memchrBytes c n (p + 1)

/-- The loop over words, for `k` of them at most; the bytes that are left and where they are. -/
def memchrWords (w mask : ℕ) (test : ℕ → ℕ) : ℕ → ℕ → ℕ → Option (ℕ × ℕ)
  | 0, n, p => some (n, p)
  | k + 1, n, p => do
      let x := (← readWord e mem lo hi w p) ^^^ mask
      if test x ≠ 0 then return (n, p)
      memchrWords w mask test k (n - w) (p + w)

def memchrBy (w mask : ℕ) (test : ℕ → ℕ) (s : ℕ) (c : UInt8) (n : ℕ) : Option (Option ℕ) := do
  let (n, p) ← memchrWords e mem lo hi w mask test (n / w) n s
  memchrBytes mem lo hi c n p

def memchr8 (s : ℕ) (c : UInt8) (n : ℕ) : Option (Option ℕ) := memchrBytes mem lo hi c n s

def memchr16 (s : ℕ) (c : UInt8) (n : ℕ) : Option (Option ℕ) :=
  memchrBy e mem lo hi 2 (mask16 c.toNat) test16 s c n

def memchr32 (s : ℕ) (c : UInt8) (n : ℕ) : Option (Option ℕ) :=
  memchrBy e mem lo hi 4 (mask32 c.toNat) test32 s c n

def memchr64 (s : ℕ) (c : UInt8) (n : ℕ) : Option (Option ℕ) :=
  memchrBy e mem lo hi 8 (mask64 c.toNat) test64 s c n

def memchr (long : Width) (s : ℕ) (c : UInt8) (n : ℕ) : Option (Option ℕ) :=
  match if n < long.bytes then n else long.bytes with
  | 8 => memchr64 e mem lo hi s c n
  | 4 => memchr32 e mem lo hi s c n
  | 2 => memchr16 e mem lo hi s c n
  | _ => memchr8 mem lo hi s c n

end Model

variable {e : Endian} {mem : Bytes} {lo hi p n k w mask : ℕ} {test : ℕ → ℕ} {c : UInt8}

/-! ## Bytes -/

/-- The address of the first of `n` bytes that is the character. -/
def FirstByte (mem : Bytes) (c : UInt8) (s n : ℕ) (r : Option ℕ) : Prop :=
  (∃ i < n, r = some (s + i) ∧ mem (s + i) = c ∧ ∀ j < i, mem (s + j) ≠ c) ∨
    (r = none ∧ ∀ i < n, mem (s + i) ≠ c)

theorem readByte_eq (h1 : lo ≤ p) (h2 : p < hi) : readByte mem lo hi p = some (mem p) :=
  if_pos ⟨h1, h2⟩

theorem memchrBytes_first (hlo : lo ≤ p) (hhi : p + n ≤ hi) :
    ∃ r, memchrBytes mem lo hi c n p = some r ∧ FirstByte mem c p n r := by
  induction n generalizing p with
  | zero => exact ⟨none, rfl, Or.inr ⟨rfl, fun i hi => absurd hi (Nat.not_lt_zero i)⟩⟩
  | succ n ih =>
      rw [memchrBytes, readByte_eq hlo (by omega)]
      simp only [Option.bind_eq_bind, Option.bind_some]
      by_cases hbyte : mem p = c
      · rw [if_pos hbyte]
        exact ⟨some p, rfl, Or.inl ⟨0, Nat.succ_pos n, rfl, hbyte,
          fun j hj => absurd hj (Nat.not_lt_zero j)⟩⟩
      · rw [if_neg hbyte]
        obtain ⟨r, hrun, hr⟩ := ih (p := p + 1) (by omega) (by omega)
        have hcons : ∀ {l}, (∀ j < l, mem (p + 1 + j) ≠ c) → ∀ j < l + 1, mem (p + j) ≠ c := by
          intro l h
          refine Nat.forall_lt_succ_left.mpr ⟨hbyte, fun j hj => ?_⟩
          simpa only [Nat.add_assoc, Nat.add_comm 1] using h j hj
        refine ⟨r, hrun, ?_⟩
        rcases hr with ⟨i, hi, hr, hc, hmin⟩ | ⟨hr, hnone⟩
        · rw [Nat.add_assoc, Nat.add_comm 1] at hr hc
          exact Or.inl ⟨i + 1, Nat.succ_lt_succ hi, hr, hc, hcons hmin⟩
        · exact Or.inr ⟨hr, hcons hnone⟩

theorem memchrBytes_skip (hlo : lo ≤ p) (hhi : p + (k + n) ≤ hi) (h : ∀ i < k, mem (p + i) ≠ c) :
    memchrBytes mem lo hi c (k + n) p = memchrBytes mem lo hi c n (p + k) := by
  induction k generalizing p with
  | zero => rw [Nat.zero_add, Nat.add_zero]
  | succ k ih =>
      have hsucc : k + 1 + n = k + n + 1 := by omega
      have hfirst : mem p ≠ c := h 0 (Nat.succ_pos k)
      have hrest : ∀ i < k, mem (p + 1 + i) ≠ c := fun i hi => by
        rw [Nat.add_assoc, Nat.add_comm 1]
        exact h (i + 1) (Nat.succ_lt_succ hi)
      rw [hsucc, memchrBytes, readByte_eq hlo (by omega)]
      simp only [Option.bind_eq_bind, Option.bind_some, if_neg hfirst]
      rw [ih (by omega) (by omega) hrest, Nat.add_assoc, Nat.add_comm 1]

/-! ## Words -/

def FindsZero (w : ℕ) (test : ℕ → ℕ) : Prop :=
  ∀ bs : List UInt8, bs.length = w → (test (ofLittleEndian bs) ≠ 0 ↔ (0 : UInt8) ∈ bs)

theorem findsZero_zeroTest {k : ℕ} (hk : w ≤ k) : FindsZero w (zeroTest k w) := by
  rintro bs rfl
  constructor
  · intro htest
    by_contra hzero
    exact htest (zeroTest_eq_zero hk hzero)
  · exact zeroTest_ne_zero hk

theorem findsZero16 : FindsZero 2 test16 := findsZero_zeroTest (k := 4) (by norm_num)

theorem findsZero32 : FindsZero 4 test32 := findsZero_zeroTest (k := 4) le_rfl

theorem findsZero64 : FindsZero 8 test64 := findsZero_zeroTest (k := 8) le_rfl

/-- The mask repeats the character, and the test does not miss a zero byte. -/
structure FindsChar (w mask : ℕ) (test : ℕ → ℕ) (c : UInt8) : Prop where
  mask_eq : mask = ofLittleEndian (List.replicate w c)
  test_zero : ∀ bs : List UInt8, bs.length = w → (0 : UInt8) ∈ bs → test (ofLittleEndian bs) ≠ 0

theorem FindsChar.no_char (h : FindsChar w mask test c)
    (htest : test (mem.loadWord e p w ^^^ mask) = 0) : ∀ i < w, mem (p + i) ≠ c := by
  intro i hi hbyte
  have hlen : (e.order (mem.read p w)).length = w := by simp
  rw [Bytes.loadWord, h.mask_eq, ofLittleEndian_xor (by simp)] at htest
  refine h.test_zero _ (by simp) ?_ htest
  have hmem : c ∈ e.order (mem.read p w) := by
    rw [e.mem_order, Bytes.read, List.mem_map]
    exact ⟨i, List.mem_range.mpr hi, hbyte⟩
  obtain ⟨j, hj, hc⟩ := List.getElem_of_mem hmem
  refine List.mem_iff_getElem.mpr ⟨j, by simpa using hj, ?_⟩
  rw [List.getElem_zipWith, hc, List.getElem_replicate, UInt8.xor_self]

theorem memchrWords_spec (e : Endian) (mem : Bytes) (h : FindsChar w mask test c) (hlo : lo ≤ p)
    (hhi : p + n ≤ hi) (hk : k * w ≤ n) :
    ∃ d, memchrWords e mem lo hi w mask test k n p = some (n - d, p + d) ∧
      d ≤ n ∧ ∀ i < d, mem (p + i) ≠ c := by
  induction k generalizing n p with
  | zero => exact ⟨0, rfl, Nat.zero_le n, fun i hi => absurd hi (Nat.not_lt_zero i)⟩
  | succ k ih =>
      rw [Nat.succ_mul] at hk
      have hread : readWord e mem lo hi w p = some (mem.loadWord e p w) := if_pos ⟨hlo, by omega⟩
      rw [memchrWords, hread]
      simp only [Option.bind_eq_bind, Option.bind_some]
      by_cases htest : test (mem.loadWord e p w ^^^ mask) = 0
      · have hword := h.no_char htest
        obtain ⟨d, hrun, hd, hrest⟩ := ih (n := n - w) (p := p + w) (by omega) (by omega) (by omega)
        refine ⟨w + d, ?_, by omega, fun i hi => ?_⟩
        · rw [if_neg (not_not.mpr htest), hrun, Nat.sub_sub, Nat.add_assoc]
        · rcases Nat.lt_or_ge i w with hlow | hhigh
          · exact hword i hlow
          · obtain ⟨j, rfl⟩ := Nat.exists_eq_add_of_le hhigh
            rw [← Nat.add_assoc]
            exact hrest j (by omega)
      · rw [if_pos htest]
        exact ⟨0, rfl, Nat.zero_le n, fun i hi => absurd hi (Nat.not_lt_zero i)⟩

theorem memchrBy_eq (h : FindsChar w mask test c) (hlo : lo ≤ p) (hhi : p + n ≤ hi) :
    memchrBy e mem lo hi w mask test p c n = memchr8 mem lo hi p c n := by
  obtain ⟨d, hrun, hd, hskip⟩ := memchrWords_spec e mem h hlo hhi (Nat.div_mul_le_self n w)
  obtain ⟨m, rfl⟩ := Nat.exists_eq_add_of_le hd
  unfold memchrBy memchr8
  rw [hrun, memchrBytes_skip hlo hhi hskip, Nat.add_sub_cancel_left]
  rfl

theorem findsChar16 (c : UInt8) : FindsChar 2 (mask16 c.toNat) test16 c where
  mask_eq := by
    simp only [mask16, ofLittleEndian, List.replicate, Nat.shiftLeft_eq]
    omega
  test_zero bs hlen hzero := (findsZero16 bs hlen).mpr hzero

theorem findsChar32 (c : UInt8) : FindsChar 4 (mask32 c.toNat) test32 c where
  mask_eq := by
    simp only [mask32, mask16, ofLittleEndian, List.replicate, Nat.shiftLeft_eq]
    omega
  test_zero bs hlen hzero := (findsZero32 bs hlen).mpr hzero

theorem findsChar64 (c : UInt8) : FindsChar 8 (mask64 c.toNat) test64 c where
  mask_eq := by
    simp only [mask64, mask48, mask32, mask16, ofLittleEndian, List.replicate, Nat.shiftLeft_eq]
    omega
  test_zero bs hlen hzero := (findsZero64 bs hlen).mpr hzero

/-- All searches find the first byte that is the character, and read no byte outside those
searched. -/
theorem memchr_eq_memchr8 (e : Endian) (long : Width) (mem : Bytes) (s : ℕ) (c : UInt8) (n : ℕ) :
    (∃ r, memchr8 mem s (s + n) s c n = some r ∧ FirstByte mem c s n r) ∧
    memchr16 e mem s (s + n) s c n = memchr8 mem s (s + n) s c n ∧
    memchr32 e mem s (s + n) s c n = memchr8 mem s (s + n) s c n ∧
    memchr64 e mem s (s + n) s c n = memchr8 mem s (s + n) s c n ∧
    memchr e mem s (s + n) long s c n = memchr8 mem s (s + n) s c n := by
  have h16 : memchr16 e mem s (s + n) s c n = memchr8 mem s (s + n) s c n :=
    memchrBy_eq (findsChar16 c) le_rfl le_rfl
  have h32 : memchr32 e mem s (s + n) s c n = memchr8 mem s (s + n) s c n :=
    memchrBy_eq (findsChar32 c) le_rfl le_rfl
  have h64 : memchr64 e mem s (s + n) s c n = memchr8 mem s (s + n) s c n :=
    memchrBy_eq (findsChar64 c) le_rfl le_rfl
  refine ⟨memchrBytes_first le_rfl le_rfl, h16, h32, h64, ?_⟩
  unfold memchr
  split
  · exact h64
  · exact h32
  · exact h16
  · rfl

end Carthage.MmUtils
