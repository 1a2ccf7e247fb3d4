import Carthage.Memchr

/-!
# Lengths of strings

`strlen` reads bytes up to an aligned address and words from there on, with the test for a zero
byte that `memchr` has. The last word ends behind the terminator.
-/

namespace Carthage.MmUtils

section Model

variable (e : Endian) (mem : Bytes) (lo hi : ℕ)

def strlenBytes : ℕ → ℕ → ℕ → Option ℕ
  | 0, _, _ => none
  | fuel + 1, str, length => do
      if (← readByte mem lo hi str) = 0 then return length
      strlenBytes fuel (str + 1) (length + 1)

/-- A loop that goes on for `hi` bytes has left the memory. -/
def strlen8 (str : ℕ) : Option ℕ := strlenBytes mem lo hi (hi + 1) str 0

/-- The index of the first of `k + 1` bytes of a word that is zero, from the `i`-th on; the last
one is not looked at. -/
def zeroLane (x : ℕ) : ℕ → ℕ → ℕ
  | 0, i => i
  | k + 1, i => if x &&& (0xff <<< (8 * i)) = 0 then i else zeroLane x k (i + 1)

def strlenWords (w : ℕ) (test : ℕ → ℕ) : ℕ → ℕ → ℕ → Option ℕ
  | 0, _, _ => none
  | fuel + 1, p, length => do
      let x ← readWord e mem lo hi w p
      if test x ≠ 0 then return length + zeroLane x (w - 1) 0
      strlenWords w test fuel (p + w) (length + w)

/-- The bytes before the first aligned address, then words. -/
def strlenAlign (w : ℕ) (test : ℕ → ℕ) : ℕ → ℕ → ℕ → Option ℕ
  | 0, _, _ => none
  | fuel + 1, str, length =>
      if str % w ≠ 0 then do
        if (← readByte mem lo hi str) = 0 then return length
        strlenAlign w test fuel (str + 1) (length + 1)
      else strlenWords e mem lo hi w test (hi + 1) str length

def strlenBy (w : ℕ) (test : ℕ → ℕ) (str : ℕ) : Option ℕ :=
  strlenAlign e mem lo hi w test w str 0

def strlen16 (str : ℕ) : Option ℕ := strlenBy e mem lo hi 2 test16 str

def strlen32 (str : ℕ) : Option ℕ := strlenBy e mem lo hi 4 test32 str

def strlen64 (str : ℕ) : Option ℕ := strlenBy e mem lo hi 8 test64 str

end Model

/-- A string without its terminator, at an address. -/
structure StringAt (mem : Bytes) (s : ℕ) (bs : List UInt8) : Prop where
  bytes : mem.read s bs.length = bs
  nonzero : (0 : UInt8) ∉ bs
  terminator : mem (s + bs.length) = 0

/-- The end of the aligned word that an address is in. -/
def wordEnd (w p : ℕ) : ℕ := (p / w + 1) * w

variable {mem : Bytes} {lo hi s p k w n : ℕ} {test : ℕ → ℕ} {b : UInt8} {bs : List UInt8}

/-! ## Strings -/

theorem StringAt.drop (h : StringAt mem s bs) (hk : k ≤ bs.length) :
    StringAt mem (s + k) (bs.drop k) := by
  refine ⟨?_, fun hmem => h.nonzero (List.mem_of_mem_drop hmem), ?_⟩
  · rw [List.length_drop, ← Bytes.read_drop, h.bytes]
  · rw [List.length_drop, Nat.add_assoc, Nat.add_sub_cancel' hk]
    exact h.terminator

theorem StringAt.getElem (h : StringAt mem s bs) {i : ℕ} (hi : i < bs.length) :
    mem (s + i) = bs[i] := by
  have hread : (mem.read s bs.length)[i]? = bs[i]? := congrArg (fun l => l[i]?) h.bytes
  rw [List.getElem?_eq_getElem hi, List.getElem?_eq_getElem (by simpa using hi)] at hread
  rw [← Option.some.inj hread]
  simp [Bytes.read]

theorem StringAt.ne_zero (h : StringAt mem s bs) {i : ℕ} (hi : i < bs.length) :
    mem (s + i) ≠ 0 := by
  rw [h.getElem hi]
  exact fun hz => h.nonzero (hz ▸ List.getElem_mem hi)

theorem strlenBytes_spec {fuel : ℕ} (h : StringAt mem s bs) (hlo : lo ≤ s)
    (hhi : s + bs.length < hi) (hfuel : bs.length < fuel) (n : ℕ) :
    strlenBytes mem lo hi fuel s n = some (n + bs.length) := by
  induction fuel generalizing s bs n with
  | zero => omega
  | succ fuel ih =>
      rw [strlenBytes, readByte_eq hlo (by omega)]
      simp only [Option.bind_eq_bind, Option.bind_some]
      rcases Nat.eq_zero_or_pos bs.length with hnil | hpos
      · have hterm := h.terminator
        rw [hnil, Nat.add_zero] at hterm
        rw [if_pos hterm, hnil]
        rfl
      · have hrest := ih (h.drop (k := 1) hpos) (by omega) (by rw [List.length_drop]; omega)
          (by rw [List.length_drop]; omega) (n + 1)
        rw [if_neg (show mem s ≠ 0 from h.ne_zero (i := 0) hpos), hrest, List.length_drop]
        congr 1
        omega

theorem strlen8_eq (h : StringAt mem s bs) (hlo : lo ≤ s) (hhi : s + bs.length < hi) :
    strlen8 mem lo hi s = some bs.length :=
  (strlenBytes_spec h hlo hhi (by omega) 0).trans (congrArg some (Nat.zero_add _))

/-! ## Words -/

theorem zeroLane_eq {i : ℕ} (hzero : bs.getD n 0 = 0) (hfirst : ∀ j < n, bs.getD j 0 ≠ 0)
    (hi : i ≤ n) (hn : n ≤ i + k) : zeroLane (ofLittleEndian bs) k i = n := by
  induction k generalizing i with
  | zero =>
      rw [zeroLane]
      omega
  | succ k ih =>
      rw [zeroLane]
      rcases hi.eq_or_lt with rfl | hlt
      · rw [if_pos ((and_byte_eq_zero bs i).mpr hzero)]
      · rw [if_neg fun hbyte => hfirst i hlt ((and_byte_eq_zero bs i).mp hbyte)]
        exact ih hlt (by omega)

theorem readWord_eq (e : Endian) (hlo : lo ≤ p) (hhi : p + w ≤ hi) :
    readWord e mem lo hi w p = some (mem.loadWord e p w) := if_pos ⟨hlo, hhi⟩

theorem getD_read {i : ℕ} (hi : i < w) : (mem.read p w).getD i 0 = mem (p + i) := by
  rw [List.getD_eq_getElem _ _ (by simpa using hi)]
  simp [Bytes.read]

/-- The words from an aligned address on. -/
theorem strlenWords_spec {fuel : ℕ} (htest : FindsZero w test) (hw : 0 < w)
    (h : StringAt mem s bs) (halign : s % w = 0) (hlo : lo ≤ s)
    (hhi : wordEnd w (s + bs.length) ≤ hi) (hfuel : bs.length < fuel) (n : ℕ) :
    strlenWords .little mem lo hi w test fuel s n = some (n + bs.length) := by
  have hpos : s = s / w * w := (Nat.div_mul_cancel (Nat.dvd_of_mod_eq_zero halign)).symm
  induction fuel generalizing s bs n with
  | zero => omega
  | succ fuel ih =>
      have hword : s + w ≤ hi := by
        have hdiv : s / w ≤ (s + bs.length) / w := Nat.div_le_div_right (Nat.le_add_right _ _)
        have hmul := Nat.mul_le_mul_right w (Nat.add_le_add_right hdiv 1)
        have hsucc := Nat.add_one_mul (s / w) w
        unfold wordEnd at hhi
        omega
      rw [strlenWords, readWord_eq .little hlo hword]
      simp only [Option.bind_eq_bind, Option.bind_some]
      have hload : mem.loadWord .little s w = ofLittleEndian (mem.read s w) := rfl
      rcases Nat.lt_or_ge bs.length w with hlast | hfull
      · have hzero : (mem.read s w).getD bs.length 0 = 0 := (getD_read hlast).trans h.terminator
        have hmem : (0 : UInt8) ∈ mem.read s w := by
          rw [← hzero, List.getD_eq_getElem _ _ (by simpa using hlast)]
          exact List.getElem_mem _
        have hlane := zeroLane_eq (i := 0) (k := w - 1) hzero (fun j hj => by
          rw [getD_read (hj.trans hlast)]
          exact h.ne_zero hj) (Nat.zero_le _) (by omega)
        rw [hload, if_pos ((htest _ Bytes.length_read).mpr hmem), hlane]
        rfl
      · have hbytes : mem.read s w = bs.take w := by
          rw [← Bytes.read_take hfull, h.bytes]
        have hnone : (0 : UInt8) ∉ mem.read s w := by
          rw [hbytes]
          exact fun hmem => h.nonzero (List.mem_of_mem_take hmem)
        have hend : s + w + (bs.drop w).length = s + bs.length := by
          rw [List.length_drop]
          omega
        have hrest := ih (h.drop hfull) (by rw [Nat.add_mod_right, halign]) (by omega)
          (by rwa [hend]) (by rw [List.length_drop]; omega) (n + w)
          (Nat.div_mul_cancel (Nat.dvd_of_mod_eq_zero (by rw [Nat.add_mod_right, halign]))).symm
        rw [hload, if_neg fun hne => hnone ((htest _ Bytes.length_read).mp hne), hrest,
          List.length_drop]
        congr 1
        omega

theorem lt_wordEnd (hw : 0 < w) (p : ℕ) : p < wordEnd w p := by
  have hsplit := Nat.div_add_mod' p w
  have hmod := Nat.mod_lt p hw
  rw [wordEnd, Nat.add_one_mul]
  omega

theorem strlenAlign_spec {fuel : ℕ} (htest : FindsZero w test) (hw : 0 < w)
    (h : StringAt mem s bs) (hlo : lo ≤ s) (hhi : wordEnd w (s + bs.length) ≤ hi)
    (halign : (s + k) % w = 0) (hfuel : k < fuel) (n : ℕ) :
    strlenAlign .little mem lo hi w test fuel s n = some (n + bs.length) := by
  have hin := (lt_wordEnd hw (s + bs.length)).trans_le hhi
  induction fuel generalizing s bs n k with
  | zero => omega
  | succ fuel ih =>
      rw [strlenAlign]
      by_cases hfirst : s % w = 0
      · rw [if_neg (not_not.mpr hfirst)]
        exact strlenWords_spec htest hw h hfirst hlo hhi (by omega) n
      · rw [if_pos hfirst, readByte_eq hlo (by omega)]
        simp only [Option.bind_eq_bind, Option.bind_some]
        rcases Nat.eq_zero_or_pos bs.length with hnil | hpos
        · have hterm := h.terminator
          rw [hnil, Nat.add_zero] at hterm
          rw [if_pos hterm, hnil]
          rfl
        · obtain ⟨k, rfl⟩ : ∃ l, k = l + 1 := ⟨k - 1, by
            rcases Nat.eq_zero_or_pos k with rfl | hk
            · exact absurd halign hfirst
            · omega⟩
          have hend : s + 1 + (bs.drop 1).length = s + bs.length := by
            rw [List.length_drop]
            omega
          have hrest := ih (k := k) (h.drop (k := 1) hpos) (by omega) (by rwa [hend])
            (by rwa [Nat.add_assoc, Nat.add_comm 1]) (by omega) (n + 1) (by rwa [hend])
          rw [if_neg (show mem s ≠ 0 from h.ne_zero (i := 0) hpos), hrest, List.length_drop]
          congr 1
          omega

theorem strlenBy_eq (htest : FindsZero w test) (hw : 0 < w) (h : StringAt mem s bs) :
    strlenBy .little mem s (wordEnd w (s + bs.length)) w test s = some bs.length := by
  have hrun : ∀ k < w, (s + k) % w = 0 →
      strlenBy .little mem s (wordEnd w (s + bs.length)) w test s = some bs.length :=
    fun k hk halign => (strlenAlign_spec htest hw h le_rfl le_rfl halign hk 0).trans
      (congrArg some (Nat.zero_add _))
  have hsplit := Nat.div_add_mod' s w
  have hmod := Nat.mod_lt s hw
  rcases Nat.eq_zero_or_pos (s % w) with hzero | hpos
  · exact hrun 0 hw hzero
  · have hnext : s + (w - s % w) = (s / w + 1) * w := by
      rw [Nat.add_one_mul]
      omega
    exact hrun (w - s % w) (by omega) (by rw [hnext, Nat.mul_mod_left])

/-- On a little-endian machine the lengths by words are those by bytes, whatever follows the
terminator in the last word; nothing else is read. -/
theorem strlen_eq_strlen8 (h : StringAt mem s bs) :
    strlen8 mem s (s + bs.length + 1) s = some bs.length ∧
    strlen16 .little mem s (wordEnd 2 (s + bs.length)) s = some bs.length ∧
    strlen32 .little mem s (wordEnd 4 (s + bs.length)) s = some bs.length ∧
    strlen64 .little mem s (wordEnd 8 (s + bs.length)) s = some bs.length := by
  refine ⟨?_, strlenBy_eq findsZero16 (by norm_num) h, strlenBy_eq findsZero32 (by norm_num) h,
    strlenBy_eq findsZero64 (by norm_num) h⟩
  exact strlen8_eq h le_rfl (Nat.lt_succ_self _)

/-- One byte at an odd address, with high bytes behind the terminator. -/
theorem strlen_eq_strlen8_one :
    strlen8 (fun i => if i = 8 then 0 else 0x80) 7 (7 + [(0x80 : UInt8)].length + 1) 7 = some 1 ∧
    strlen16 .little (fun i => if i = 8 then 0 else 0x80) 7
      (wordEnd 2 (7 + [(0x80 : UInt8)].length)) 7 = some 1 ∧
    strlen32 .little (fun i => if i = 8 then 0 else 0x80) 7
      (wordEnd 4 (7 + [(0x80 : UInt8)].length)) 7 = some 1 ∧
    strlen64 .little (fun i => if i = 8 then 0 else 0x80) 7
      (wordEnd 8 (7 + [(0x80 : UInt8)].length)) 7 = some 1 :=
  have h : StringAt (fun i => if i = 8 then 0 else 0x80) 7 [0x80] :=
    ⟨by decide, by decide, by decide⟩
  strlen_eq_strlen8 h

end Carthage.MmUtils
