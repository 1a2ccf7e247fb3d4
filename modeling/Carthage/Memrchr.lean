import Carthage.Memchr

/-!
# Searching memory backwards

`memrchr` starts its words one byte too low, and its loop over bytes takes the pointer to the last
word for the start of the buffer. Pointers are integers here, since they can leave the buffer
downwards.
-/

namespace Carthage.MmUtils

section Model

variable (e : Endian) (mem : Bytes) (lo hi : ℕ)

def readWordAt (w : ℕ) (p : ℤ) : Option ℕ :=
  if p < 0 then none else readWord e mem lo hi w p.toNat

def readByteAt (p : ℤ) : Option UInt8 := if p < 0 then none else readByte mem lo hi p.toNat

/-- The loop over bytes, which goes down to `p`. -/
def memrchrBytes (c : UInt8) (p : ℤ) : ℕ → Option (Option ℕ)
  | 0 => some none
  | n + 1 => do
      if (← readByteAt mem lo hi (p + n)) = c then return some (p + n).toNat
      memrchrBytes c p n

/-- The loop over words, for `k` of them at most; the bytes that are left and the pointer. -/
def memrchrWords (w mask : ℕ) (test : ℕ → ℕ) : ℕ → ℕ → ℤ → Option (ℕ × ℤ)
  | 0, n, ip => some (n, ip)
  | k + 1, n, ip => do
      let x := (← readWordAt e mem lo hi w ip) ^^^ mask
      if test x ≠ 0 then return (n, ip)
      memrchrWords w mask test k (n - w) (ip - w)

def memrchrBy (w mask : ℕ) (test : ℕ → ℕ) (s : ℕ) (c : UInt8) (n : ℕ) : Option (Option ℕ) := do
  let (n, p) ← memrchrWords e mem lo hi w mask test (n / w) n (s + n - 1 - w)
  memrchrBytes mem lo hi c p n

def memrchr8 (s : ℕ) (c : UInt8) (n : ℕ) : Option (Option ℕ) := memrchrBytes mem lo hi c s n

def memrchr16 (s : ℕ) (c : UInt8) (n : ℕ) : Option (Option ℕ) :=
  memrchrBy e mem lo hi 2 (mask16 c.toNat) test16 s c n

def memrchr32 (s : ℕ) (c : UInt8) (n : ℕ) : Option (Option ℕ) :=
  memrchrBy e mem lo hi 4 (mask32 c.toNat) test32 s c n

def memrchr64 (s : ℕ) (c : UInt8) (n : ℕ) : Option (Option ℕ) :=
  memrchrBy e mem lo hi 8 (mask64 c.toNat) test64 s c n

def memrchr (long : Width) (s : ℕ) (c : UInt8) (n : ℕ) : Option (Option ℕ) :=
  match if n < long.bytes then n else long.bytes with
  | 8 => memrchr64 e mem lo hi s c n
  | 4 => memrchr32 e mem lo hi s c n
  | 2 => memrchr16 e mem lo hi s c n
  | _ => memrchr8 mem lo hi s c n

end Model

variable {e : Endian} {mem : Bytes} {lo hi s n m t k w mask : ℕ} {test : ℕ → ℕ} {c : UInt8}
  {p : ℤ} {r : Option ℕ}

/-! ## Bytes -/

/-- The address of the last of `n` bytes that is the character. -/
def LastByte (mem : Bytes) (c : UInt8) (s n : ℕ) (r : Option ℕ) : Prop :=
  (∃ i < n, r = some (s + i) ∧ mem (s + i) = c ∧ ∀ j < n, i < j → mem (s + j) ≠ c) ∨
    (r = none ∧ ∀ i < n, mem (s + i) ≠ c)

theorem readByteAt_eq {b : UInt8} : readByteAt mem lo hi p = some b ↔
    lo ≤ p ∧ p < hi ∧ b = mem p.toNat := by
  unfold readByteAt readByte
  split_ifs with h1 h2
  · exact iff_of_false (fun h => by cases h) (by omega)
  · rw [Option.some.injEq]
    constructor
    · rintro rfl
      exact ⟨by omega, by omega, rfl⟩
    · rintro ⟨-, -, rfl⟩
      rfl
  · exact iff_of_false (fun h => by cases h) (by omega)

theorem memrchrBytes_cases (h : memrchrBytes mem lo hi c p n = some r) :
    (∃ k < n, r = some (p + k).toNat ∧ lo ≤ p + k ∧ p + n ≤ hi ∧ mem (p + k).toNat = c ∧
      ∀ j < n, k < j → mem (p + j).toNat ≠ c) ∨
    (r = none ∧ (n = 0 ∨ (lo ≤ p ∧ p + n ≤ hi)) ∧ ∀ j < n, mem (p + j).toNat ≠ c) := by
  induction n generalizing r with
  | zero =>
      cases h
      exact Or.inr ⟨rfl, Or.inl rfl, fun j hj => absurd hj (Nat.not_lt_zero j)⟩
  | succ n ih =>
      rw [memrchrBytes] at h
      obtain ⟨b, hread, h⟩ := Option.bind_eq_some_iff.mp h
      obtain ⟨hlo, hhi, rfl⟩ := readByteAt_eq.mp hread
      by_cases hbyte : mem (p + n).toNat = c
      · rw [if_pos hbyte] at h
        cases h
        exact Or.inl ⟨n, Nat.lt_succ_self n, rfl, hlo, by omega, hbyte, fun j hj hnj => by omega⟩
      · rw [if_neg hbyte] at h
        have hlast : ∀ j < n + 1, (j < n → mem (p + j).toNat ≠ c) → mem (p + j).toNat ≠ c := by
          intro j hj hlow
          rcases Nat.lt_succ_iff_lt_or_eq.mp hj with hlt | rfl
          · exact hlow hlt
          · exact hbyte
        rcases ih h with ⟨k, hk, hr, hklo, -, hc, hmax⟩ | ⟨hr, hin, hnone⟩
        · exact Or.inl ⟨k, by omega, hr, hklo, by omega, hc,
            fun j hj hkj => hlast j hj fun hlt => hmax j hlt hkj⟩
        · refine Or.inr ⟨hr, Or.inr ?_, fun j hj => hlast j hj (hnone j)⟩
          rcases hin with rfl | ⟨hplo, -⟩
          · rw [Nat.cast_zero, add_zero] at hlo
            exact ⟨hlo, by omega⟩
          · exact ⟨hplo, by omega⟩

theorem memrchrBytes_found (hk : k < n) (hlo : lo ≤ p + k) (hhi : p + n ≤ hi)
    (hc : mem (p + k).toNat = c) (hmax : ∀ j < n, k < j → mem (p + j).toNat ≠ c) :
    memrchrBytes mem lo hi c p n = some (some (p + k).toNat) := by
  induction n with
  | zero => exact absurd hk (Nat.not_lt_zero k)
  | succ n ih =>
      have hread : readByteAt mem lo hi (p + n) = some (mem (p + n).toNat) :=
        readByteAt_eq.mpr ⟨by omega, by omega, rfl⟩
      rw [memrchrBytes, hread]
      simp only [Option.bind_eq_bind, Option.bind_some]
      rcases Nat.lt_succ_iff_lt_or_eq.mp hk with hlt | rfl
      · rw [if_neg (hmax n (Nat.lt_succ_self n) hlt)]
        exact ih hlt (by omega) fun j hj => hmax j (by omega)
      · rw [if_pos hc]
        rfl

theorem memrchrBytes_none (hlo : lo ≤ p) (hhi : p + n ≤ hi)
    (hnone : ∀ j < n, mem (p + j).toNat ≠ c) : memrchrBytes mem lo hi c p n = some none := by
  induction n with
  | zero => rfl
  | succ n ih =>
      have hread : readByteAt mem lo hi (p + n) = some (mem (p + n).toNat) :=
        readByteAt_eq.mpr ⟨by omega, by omega, rfl⟩
      rw [memrchrBytes, hread]
      simp only [Option.bind_eq_bind, Option.bind_some]
      rw [if_neg (hnone n (Nat.lt_succ_self n))]
      exact ih (by omega) fun j hj => hnone j (by omega)

theorem exists_lastByte (mem : Bytes) (c : UInt8) (s n : ℕ) : ∃ r, LastByte mem c s n r := by
  induction n with
  | zero => exact ⟨none, Or.inr ⟨rfl, fun i hi => absurd hi (Nat.not_lt_zero i)⟩⟩
  | succ n ih =>
      by_cases hbyte : mem (s + n) = c
      · exact ⟨_, Or.inl ⟨n, Nat.lt_succ_self n, rfl, hbyte, fun j hj hnj => by omega⟩⟩
      · have hlast : ∀ j < n + 1, (j < n → mem (s + j) ≠ c) → mem (s + j) ≠ c := by
          intro j hj hlow
          rcases Nat.lt_succ_iff_lt_or_eq.mp hj with hlt | rfl
          · exact hlow hlt
          · exact hbyte
        obtain ⟨r, ⟨i, hi, hr, hc, hmax⟩ | ⟨hr, hnone⟩⟩ := ih
        · exact ⟨r, Or.inl ⟨i, by omega, hr, hc,
            fun j hj hij => hlast j hj fun hlt => hmax j hlt hij⟩⟩
        · exact ⟨r, Or.inr ⟨hr, fun j hj => hlast j hj (hnone j)⟩⟩

theorem memrchr8_eq (h : LastByte mem c s n r) : memrchr8 mem s (s + n) s c n = some r := by
  have hptr : ∀ j : ℕ, ((s : ℤ) + j).toNat = s + j := by omega
  unfold memrchr8
  rcases h with ⟨i, hi, rfl, hc, hmax⟩ | ⟨rfl, hnone⟩
  · rw [memrchrBytes_found hi (by omega) (by omega) ((hptr i).symm ▸ hc), hptr]
    intro j hj hij
    rw [hptr]
    exact hmax j hj hij
  · refine memrchrBytes_none le_rfl (by omega) fun j hj => ?_
    rw [hptr]
    exact hnone j hj

/-! ## Words -/

/-- None of the bytes that the words from `n` down to `t` hold is the character: these are the
bytes from `t - 1` to `n - 2`. -/
def Passed (mem : Bytes) (c : UInt8) (s t n : ℕ) : Prop :=
  ∀ i, t ≤ i + 1 → i + 1 < n → mem (s + i) ≠ c

/-- The words end with `t` bytes left: fewer than a word has, or with the character in the next
word, which must be inside the buffer. -/
structure WordsLeave (mem : Bytes) (c : UInt8) (w s n t : ℕ) : Prop where
  le : t ≤ n
  rem : t % w = n % w
  passed : Passed mem c s t n
  stop : t < w ∨ (w < t ∧ ∃ i, t ≤ i + 1 + w ∧ i + 1 < t ∧ mem (s + i) = c)

theorem Passed.trans (h : Passed mem c s t m) (h' : Passed mem c s m n) : Passed mem c s t n := by
  intro i hi hin
  rcases Nat.lt_or_ge (i + 1) m with hlt | hge
  · exact h i hi hlt
  · exact h' i hge hin

theorem word_passed_iff (e : Endian) (mem : Bytes) (s : ℕ) (hf : FindsChar w mask test c)
    (hz : FindsZero w test) (hn : w < n) : test (mem.loadWord e (s + n - 1 - w) w ^^^ mask) = 0 ↔
      Passed mem c s (n - w) n := by
  constructor
  · intro htest i hi hin
    have hbyte := hf.no_char htest (i - (n - 1 - w)) (by omega)
    rwa [show s + n - 1 - w + (i - (n - 1 - w)) = s + i by omega] at hbyte
  · intro hpassed
    by_contra htest
    rw [Bytes.loadWord, hf.mask_eq, ofLittleEndian_xor (by simp)] at htest
    have hzero := (hz _ (by simp)).mp htest
    obtain ⟨j, hj, hxor⟩ := List.getElem_of_mem hzero
    have hj' : j < (e.order (mem.read (s + n - 1 - w) w)).length := by
      rw [List.length_zipWith] at hj
      omega
    rw [List.getElem_zipWith, List.getElem_replicate, UInt8.xor_eq_zero_iff] at hxor
    have hmem : c ∈ mem.read (s + n - 1 - w) w := by
      rw [← e.mem_order, ← hxor]
      exact List.getElem_mem hj'
    obtain ⟨i, hi, hbyte⟩ := List.mem_map.mp hmem
    rw [List.mem_range] at hi
    refine hpassed (n - 1 - w + i) (by omega) (by omega) ?_
    rw [← hbyte]
    congr 1
    omega

theorem div_succ (hw : 0 < w) (hk : n / w = k + 1) : w ≤ n ∧ (n - w) / w = k := by
  have hle : w ≤ n := by
    by_contra hlt
    rw [Nat.div_eq_of_lt (not_le.mp hlt)] at hk
    cases hk
  have hdiv := Nat.div_eq_sub_div hw hle
  exact ⟨hle, by omega⟩

theorem readWordAt_below (e : Endian) (mem : Bytes) (s hi : ℕ) (hn : w < n) (hhi : s + n ≤ hi) :
    readWordAt e mem s hi w (s + n - 1 - w) = some (mem.loadWord e (s + n - 1 - w) w) := by
  have hptr : ((s : ℤ) + n - 1 - w).toNat = s + n - 1 - w := by omega
  unfold readWordAt readWord
  rw [if_neg (by omega), hptr, if_pos (by omega)]

theorem memrchrWords_cases {ip : ℤ} (hf : FindsChar w mask test c) (hz : FindsZero w test)
    (hw : 0 < w) (hk : n / w = k) (hhi : s + n ≤ hi)
    (h : memrchrWords e mem s hi w mask test k n (s + n - 1 - w) = some (t, ip)) :
    ip = s + t - 1 - w ∧ WordsLeave mem c w s n t ∧ (t = 0 → n = 0) := by
  induction k generalizing n with
  | zero =>
      obtain ⟨rfl, rfl⟩ := Prod.mk.inj (Option.some.inj h)
      have hlt : n < w := (Nat.div_eq_zero_iff.mp hk).resolve_left hw.ne'
      exact ⟨rfl, ⟨le_rfl, rfl, fun i hi hin => by omega, Or.inl hlt⟩, id⟩
  | succ k ih =>
      obtain ⟨hle, hdiv⟩ := div_succ hw hk
      rw [memrchrWords] at h
      obtain ⟨x, hread, h⟩ := Option.bind_eq_some_iff.mp h
      have hn : w < n := by
        unfold readWordAt readWord at hread
        split_ifs at hread
        omega
      rw [readWordAt_below e mem s hi hn hhi, Option.some.injEq] at hread
      subst hread
      have hword := word_passed_iff e mem s hf hz hn
      by_cases htest : test (mem.loadWord e (s + n - 1 - w) w ^^^ mask) = 0
      · have hptr : (s : ℤ) + n - 1 - w - w = s + (n - w : ℕ) - 1 - w := by omega
        simp only [htest, ne_eq, not_true, if_false, hptr] at h
        obtain ⟨hip, hleave, hzero⟩ := ih hdiv (by omega) h
        refine ⟨hip, ⟨hleave.le.trans (Nat.sub_le n w), ?_, ?_, hleave.stop⟩, fun ht => ?_⟩
        · rw [hleave.rem, ← Nat.mod_eq_sub_mod hle]
        · exact hleave.passed.trans (hword.mp htest)
        · have := hzero ht
          omega
      · simp only [if_pos htest] at h
        obtain ⟨rfl, rfl⟩ := Prod.mk.inj (Option.some.inj h)
        have hchar : ¬ Passed mem c s (n - w) n := fun hp => htest (hword.mpr hp)
        unfold Passed at hchar
        push Not at hchar
        obtain ⟨i, hi, hin, hc⟩ := hchar
        exact ⟨rfl, ⟨le_rfl, rfl, fun i hi hin => by omega, Or.inr ⟨hn, i, by omega, hin, hc⟩⟩, id⟩

theorem memrchrWords_eq (e : Endian) (hf : FindsChar w mask test c) (hz : FindsZero w test)
    (hw : 0 < w) (hk : n / w = k) (hhi : s + n ≤ hi) (h : WordsLeave mem c w s n t) (ht : 0 < t) :
    memrchrWords e mem s hi w mask test k n (s + n - 1 - w) = some (t, (s : ℤ) + t - 1 - w) := by
  induction k generalizing n with
  | zero =>
      have hlt : n < w := (Nat.div_eq_zero_iff.mp hk).resolve_left hw.ne'
      have hrem := h.rem
      rw [Nat.mod_eq_of_lt hlt, Nat.mod_eq_of_lt (h.le.trans_lt hlt)] at hrem
      rw [hrem]
      rfl
  | succ k ih =>
      obtain ⟨hle, hdiv⟩ := div_succ hw hk
      rcases h.le.eq_or_lt with rfl | hlt
      · obtain ⟨hn, i, hti, hit, hc⟩ := h.stop.resolve_left (by omega)
        have hword := word_passed_iff e mem s hf hz hn
        have htest : test (mem.loadWord e (s + t - 1 - w) w ^^^ mask) ≠ 0 :=
          fun htest => hword.mp htest i (by omega) hit hc
        rw [memrchrWords, readWordAt_below e mem s hi hn hhi]
        simp only [Option.bind_eq_bind, Option.bind_some, if_pos htest]
        rfl
      · have hdvd : w ∣ n - t := Nat.dvd_of_mod_eq_zero (Nat.sub_mod_eq_zero_of_mod_eq h.rem.symm)
        have hstep : w ≤ n - t := Nat.le_of_dvd (by omega) hdvd
        have hn : w < n := by omega
        have hword := word_passed_iff e mem s hf hz hn
        have htest := hword.mpr fun i hi hin => h.passed i (by omega) hin
        have hptr : (s : ℤ) + n - 1 - w - w = s + (n - w : ℕ) - 1 - w := by omega
        have hrest : WordsLeave mem c w s (n - w) t :=
          ⟨by omega, by rw [h.rem, Nat.mod_eq_sub_mod hle],
            fun i hi hin => h.passed i hi (by omega), h.stop⟩
        rw [memrchrWords, readWordAt_below e mem s hi hn hhi]
        simp only [Option.bind_eq_bind, Option.bind_some, htest, ne_eq, not_true, if_false, hptr]
        exact ih hdiv (by omega) hrest

/-! ## Results -/

/-- The loop over bytes, which reads the offsets from `2t - 2 - w` down to `t - 1 - w`, starts
inside the buffer and not below the last byte that is the character. -/
def ScansRight (mem : Bytes) (c : UInt8) (w s n : ℕ) : Prop :=
  n = 0 ∨ ∃ q < n, mem (s + q) = c ∧ (∀ j < n, q < j → mem (s + j) ≠ c) ∧
    ∃ t, WordsLeave mem c w s n t ∧ q + w + 2 ≤ 2 * t ∧ 2 * t ≤ n + w + 1

theorem ScansRight.memrchrBy_eq (e : Endian) (hf : FindsChar w mask test c)
    (hz : FindsZero w test) (hw : 0 < w) (h : ScansRight mem c w s n) :
    memrchrBy e mem s (s + n) w mask test s c n = memrchr8 mem s (s + n) s c n := by
  rcases h with rfl | ⟨q, hq, hc, hmax, t, hleave, hlow, hhigh⟩
  · rw [memrchrBy, Nat.zero_div]
    rfl
  · have hoff : ∀ j : ℕ, t ≤ j + 1 + w →
        ((s : ℤ) + t - 1 - w + ((j + 1 + w - t : ℕ) : ℤ)).toNat = s + j := by omega
    have hqt : t ≤ q + 1 + w := by
      rcases hleave.stop with hfew | ⟨hmany, i, hi, hit, hci⟩
      · omega
      · by_contra hlt
        exact hmax i (by have := hleave.le; omega) (by omega) hci
    have hfound : mem ((s : ℤ) + t - 1 - w + ((q + 1 + w - t : ℕ) : ℤ)).toNat = c := by
      rwa [hoff q hqt]
    have hlater : ∀ j < t, q + 1 + w - t < j → mem ((s : ℤ) + t - 1 - w + j).toNat ≠ c := by
      intro j hj hkj
      obtain ⟨i, rfl⟩ : ∃ i, j = i + 1 + w - t := ⟨j + t - 1 - w, by omega⟩
      rw [hoff i (by omega)]
      exact hmax i (by omega) (by omega)
    have hbytes : memrchrBytes mem s (s + n) c (s + t - 1 - w) t =
        some (some ((s : ℤ) + t - 1 - w + ((q + 1 + w - t : ℕ) : ℤ)).toNat) :=
      memrchrBytes_found (by omega) (by omega) (by omega) hfound hlater
    have hwords := memrchrWords_eq e hf hz hw rfl (le_refl (s + n)) hleave (by omega)
    rw [memrchr8_eq (Or.inl ⟨q, hq, rfl, hc, hmax⟩), memrchrBy, hwords]
    simp only [Option.bind_eq_bind, Option.bind_some]
    rw [hbytes, hoff q hqt]

theorem scansRight_of_eq (hf : FindsChar w mask test c) (hz : FindsZero w test) (hw : 0 < w)
    (h : memrchrBy e mem s (s + n) w mask test s c n = memrchr8 mem s (s + n) s c n) :
    ScansRight mem c w s n := by
  obtain ⟨r, hr⟩ := exists_lastByte mem c s n
  rw [memrchr8_eq hr] at h
  obtain ⟨⟨t, ip⟩, hwords, hbytes⟩ := Option.bind_eq_some_iff.mp h
  obtain ⟨rfl, hleave, hzero⟩ := memrchrWords_cases hf hz hw rfl le_rfl hwords
  rcases memrchrBytes_cases hbytes with ⟨k, hk, hrk, hlo, hhi, hc, -⟩ | ⟨rfl, hin, hnone⟩
  · rcases hr with ⟨q, hq, hrq, hcq, hmax⟩ | ⟨hrq, -⟩
    · rw [hrk, Option.some.injEq] at hrq
      exact Or.inr ⟨q, hq, hcq, hmax, t, hleave, by omega, by omega⟩
    · rw [hrk] at hrq
      cases hrq
  · rcases Nat.eq_zero_or_pos t with rfl | hpos
    · exact Or.inl (hzero rfl)
    · -- a word with the character is scanned again, and found
      obtain ⟨hlo, hhi⟩ := hin.resolve_left hpos.ne'
      obtain ⟨hmany, i, hi, hit, hci⟩ := hleave.stop.resolve_left (by omega)
      have hoff : ((s : ℤ) + t - 1 - w + ((i + 1 + w - t : ℕ) : ℤ)).toNat = s + i := by omega
      exact absurd (hoff ▸ hci) (hnone (i + 1 + w - t) (by omega))

theorem memrchrBy_eq_iff (e : Endian) (hf : FindsChar w mask test c) (hz : FindsZero w test)
    (hw : 0 < w) : memrchrBy e mem s (s + n) w mask test s c n = memrchr8 mem s (s + n) s c n ↔
      ScansRight mem c w s n :=
  ⟨scansRight_of_eq hf hz hw, fun h => h.memrchrBy_eq e hf hz hw⟩

/-- The search by bytes finds the last byte that is the character. Those by words do so, and stay
inside the buffer, only where the loop over bytes happens to start at the right place. -/
theorem memrchr_eq_memrchr8_iff (e : Endian) (long : Width) (mem : Bytes) (s : ℕ) (c : UInt8)
    (n : ℕ) :
    (∃ r, memrchr8 mem s (s + n) s c n = some r ∧ LastByte mem c s n r) ∧
    (memrchr16 e mem s (s + n) s c n = memrchr8 mem s (s + n) s c n ↔ ScansRight mem c 2 s n) ∧
    (memrchr32 e mem s (s + n) s c n = memrchr8 mem s (s + n) s c n ↔ ScansRight mem c 4 s n) ∧
    (memrchr64 e mem s (s + n) s c n = memrchr8 mem s (s + n) s c n ↔ ScansRight mem c 8 s n) ∧
    (memrchr e mem s (s + n) long s c n = memrchr8 mem s (s + n) s c n ↔
      ∀ w ∈ [2, 4, 8], min n long.bytes = w → ScansRight mem c w s n) := by
  have h16 : memrchr16 e mem s (s + n) s c n = memrchr8 mem s (s + n) s c n ↔
      ScansRight mem c 2 s n := memrchrBy_eq_iff e (findsChar16 c) findsZero16 (by norm_num)
  have h32 : memrchr32 e mem s (s + n) s c n = memrchr8 mem s (s + n) s c n ↔
      ScansRight mem c 4 s n := memrchrBy_eq_iff e (findsChar32 c) findsZero32 (by norm_num)
  have h64 : memrchr64 e mem s (s + n) s c n = memrchr8 mem s (s + n) s c n ↔
      ScansRight mem c 8 s n := memrchrBy_eq_iff e (findsChar64 c) findsZero64 (by norm_num)
  obtain ⟨r, hr⟩ := exists_lastByte mem c s n
  refine ⟨⟨r, memrchr8_eq hr, hr⟩, h16, h32, h64, ?_⟩
  have hmin : (if n < long.bytes then n else long.bytes) = min n long.bytes := by
    split_ifs <;> omega
  unfold memrchr
  rw [hmin]
  split
  · rename_i h
    rw [h64, h]
    simp
  · rename_i h
    rw [h32, h]
    simp
  · rename_i h
    rw [h16, h]
    simp
  · rename_i h8 h4 h2
    refine iff_of_true rfl fun w hmem hw => ?_
    simp only [List.mem_cons, List.not_mem_nil, or_false] at hmem
    rcases hmem with rfl | rfl | rfl
    · exact absurd hw h2
    · exact absurd hw h4
    · exact absurd hw h8

/-- Two bytes: the word before the second one begins outside the buffer. -/
theorem memrchr16_outside : memrchr16 .little (fun _ => 1) 8 10 8 1 2 = none ∧
    memrchr8 (fun _ => 1) 8 10 8 1 2 = some (some 9) := by decide

end Carthage.MmUtils
