import Carthage.Memchr
import Carthage.Memcmp

/-!
# Searching memory for memory

`memmem` and `memrmem` compare the first byte of the needle, and then the others by `memcmp`, whose
reads of the haystack are followed here: a read outside the memory it may use gives `none`.
`memmem` tries one position more than there are.
-/

namespace Carthage.MmUtils

section Model

variable (e : Endian) (mem : Bytes) (lo hi : ℕ)

/-- The loop of `memcmp` over words, with the words of the first operand read in bounds. -/
def memcmpWordsIn (long : Width) : ℕ → ℕ → ℕ → Option (Except ℤ (ℕ × ℕ))
  | 0, m1, m2 => some (.ok (m1, m2))
  | k + 1, m1, m2 => do
      let x ← readWord e mem lo hi long.bytes m1
      if x ≠ mem.loadWord e m2 long.bytes then
        if let .error r := cmpSwitch mem long m1 m2 then return .error r
      memcmpWordsIn long k (m1 + long.bytes) (m2 + long.bytes)

def memcmpBytesIn : ℕ → ℕ → ℕ → Option ℤ
  | _, _, 0 => some 0
  | m1, m2, n + 1 => do
      let b ← readByte mem lo hi m1
      if b ≠ mem m2 then return b.toNat - (mem m2).toNat
      memcmpBytesIn (m1 + 1) (m2 + 1) n

/-- `memcmp` with the reads of its first operand in bounds. -/
def memcmpIn (long : Width) (m1 m2 n : ℕ) : Option ℤ := do
  match ← memcmpWordsIn e mem lo hi long (n / long.bytes) m1 m2 with
  | .error r => return r
  | .ok (m1, m2) => memcmpBytesIn mem lo hi m1 m2 (n % long.bytes)

/-- The test of the loops at `ph`; `c` is the first byte of the needle, `pn` where the other
`len` are. -/
def memmemAt (long : Width) (c : UInt8) (pn len ph : ℕ) : Option Bool := do
  if (← readByte mem lo hi ph) = c then
    return (← memcmpIn e mem lo hi long (ph + 1) pn len) = 0
  else return false

/-- `k` positions from `ph` on. -/
def memmemLoop (found : ℕ → Option Bool) : ℕ → ℕ → Option (Option ℕ)
  | 0, _ => some none
  | k + 1, ph => do
      if ← found ph then return some ph
      memmemLoop found k (ph + 1)

/-- `k` positions down to `pend`. -/
def memrmemLoop (found : ℕ → Option Bool) (pend : ℕ) : ℕ → Option (Option ℕ)
  | 0 => some none
  | k + 1 => do
      if ← found (pend + k) then return some (pend + k)
      memrmemLoop found pend k

def memmem (long : Width) (haystack haystackLen needle needleLen : ℕ) : Option (Option ℕ) :=
  if haystackLen < needleLen ∨ needleLen = 0 then some none
  else
    let needleLen := needleLen - 1
    let found := memmemAt e mem lo hi long (mem needle) (needle + 1) needleLen
    let pend := haystack + haystackLen - needleLen
    memmemLoop found (pend + 1 - haystack) haystack

def memrmem (long : Width) (haystack haystackLen needle needleLen : ℕ) : Option (Option ℕ) :=
  if haystackLen < needleLen ∨ needleLen = 0 then some none
  else
    let needleLen := needleLen - 1
    let found := memmemAt e mem lo hi long (mem needle) (needle + 1) needleLen
    let ph := haystack + haystackLen - needleLen - 1
    memrmemLoop found haystack (ph + 1 - haystack)

end Model

variable {e : Endian} {mem : Bytes} {lo hi m1 m2 n m k w s nd h : ℕ} {long : Width}

/-! ## Comparing in bounds -/

theorem memcmp8_eq_zero_iff (mem : Bytes) (m1 m2 n : ℕ) :
    memcmp8 mem m1 m2 n = 0 ↔ mem.read m1 n = mem.read m2 n := by
  rw [Bytes.read_eq_iff]
  rcases memcmp8_first mem m1 m2 n with ⟨i, hi, -, hne, hr⟩ | ⟨hsame, hr⟩
  · rw [hr]
    refine iff_of_false (fun hzero => hne (UInt8.toNat_inj.mp (by omega))) fun hall => ?_
    exact hne (hall i hi)
  · exact iff_of_true hr hsame

theorem memcmpWords_ok (h : mem.read m1 (k * w) = mem.read m2 (k * w))
    (step : ℕ → ℕ → Except ℤ Unit) :
    memcmpWords e mem w step k m1 m2 = .ok (m1 + k * w, m2 + k * w) := by
  induction k generalizing m1 m2 with
  | zero => simp [memcmpWords]
  | succ k ih =>
      have hsucc : (k + 1) * w = w + k * w := by rw [Nat.succ_mul, Nat.add_comm]
      rw [hsucc, Bytes.read_add, Bytes.read_add] at h
      obtain ⟨hone, hrest⟩ := List.append_inj h (by simp)
      rw [memcmpWords, if_neg (not_not.mpr ((loadWord_inj e).mpr hone)), hsucc, ← Nat.add_assoc,
        ← Nat.add_assoc]
      exact ih hrest

theorem memcmpWords_cases (e : Endian) (mem : Bytes) (long : Width) (k m1 m2 : ℕ) :
    (∃ r, r ≠ 0 ∧ memcmpWords e mem long.bytes (cmpSwitch mem long) k m1 m2 = .error r ∧
      mem.read m1 (k * long.bytes) ≠ mem.read m2 (k * long.bytes)) ∨
    (memcmpWords e mem long.bytes (cmpSwitch mem long) k m1 m2 =
        .ok (m1 + k * long.bytes, m2 + k * long.bytes) ∧
      mem.read m1 (k * long.bytes) = mem.read m2 (k * long.bytes)) := by
  by_cases hread : mem.read m1 (k * long.bytes) = mem.read m2 (k * long.bytes)
  · exact Or.inr ⟨memcmpWords_ok hread _, hread⟩
  · rcases memcmpWords_spec (e := e) (cmpSwitch_step mem long) k m1 m2 with
      ⟨r, hrun, hr⟩ | ⟨-, hrest⟩
    · refine Or.inl ⟨r, fun hzero => hread ?_, hrun, hread⟩
      exact (memcmp8_eq_zero_iff mem m1 m2 _).mp ((hr 0).trans hzero)
    · exact absurd ((memcmp8_eq_zero_iff mem m1 m2 _).mp (hrest 0)) hread

theorem memcmpWordsIn_eq (e : Endian) (mem : Bytes) (long : Width) (m2 : ℕ) (hlo : lo ≤ m1)
    (hhi : m1 + k * long.bytes ≤ hi) : memcmpWordsIn e mem lo hi long k m1 m2 =
      some (memcmpWords e mem long.bytes (cmpSwitch mem long) k m1 m2) := by
  induction k generalizing m1 m2 with
  | zero => rfl
  | succ k ih =>
      rw [Nat.succ_mul] at hhi
      have hread : readWord e mem lo hi long.bytes m1 = some (mem.loadWord e m1 long.bytes) :=
        if_pos ⟨hlo, by omega⟩
      rw [memcmpWordsIn, memcmpWords, hread]
      simp only [Option.bind_eq_bind, Option.bind_some]
      rw [ih _ (by omega) (by omega)]
      split_ifs with hne
      · cases cmpSwitch mem long m1 m2 <;> rfl
      · rfl

theorem memcmpWordsIn_out (e : Endian) (mem : Bytes) (m2 : ℕ) (hlo : lo ≤ m1)
    (hin : m1 + k * long.bytes ≤ hi) (hout : hi < m1 + (k + 1) * long.bytes) :
    memcmpWordsIn e mem lo hi long (k + 1) m1 m2 =
      match memcmpWords e mem long.bytes (cmpSwitch mem long) k m1 m2 with
      | .error r => some (.error r)
      | .ok _ => none := by
  induction k generalizing m1 m2 with
  | zero =>
      have hread : readWord e mem lo hi long.bytes m1 = none := by
        rw [Nat.zero_add, Nat.one_mul] at hout
        exact if_neg (by omega)
      rw [memcmpWordsIn, hread]
      rfl
  | succ k ih =>
      rw [Nat.succ_mul] at hin
      rw [Nat.succ_mul (k + 1)] at hout
      have hread : readWord e mem lo hi long.bytes m1 = some (mem.loadWord e m1 long.bytes) :=
        if_pos ⟨hlo, by omega⟩
      rw [memcmpWordsIn, memcmpWords, hread]
      simp only [Option.bind_eq_bind, Option.bind_some]
      rw [ih _ (by omega) (by omega) (by omega)]
      split_ifs with hne
      · cases cmpSwitch mem long m1 m2 <;> rfl
      · rfl

theorem memcmpBytesIn_eq (mem : Bytes) (m2 : ℕ) (hlo : lo ≤ m1) (hhi : m1 + n ≤ hi) :
    memcmpBytesIn mem lo hi m1 m2 n = some (memcmp8 mem m1 m2 n) := by
  induction n generalizing m1 m2 with
  | zero => rfl
  | succ n ih =>
      rw [memcmpBytesIn, memcmp8, readByte_eq hlo (by omega)]
      simp only [Option.bind_eq_bind, Option.bind_some]
      rw [ih _ (by omega) (by omega)]
      split_ifs <;> rfl

theorem memcmpBytesIn_out (mem : Bytes) (m2 : ℕ) (hlo : lo ≤ m1) (hhi : m1 + n = hi) :
    memcmpBytesIn mem lo hi m1 m2 (n + 1) =
      if memcmp8 mem m1 m2 n = 0 then none else some (memcmp8 mem m1 m2 n) := by
  induction n generalizing m1 m2 with
  | zero =>
      have hread : readByte mem lo hi m1 = none := if_neg (by omega)
      rw [memcmpBytesIn, hread]
      rfl
  | succ n ih =>
      rw [memcmpBytesIn, memcmp8, readByte_eq hlo (by omega)]
      simp only [Option.bind_eq_bind, Option.bind_some]
      rw [ih _ (by omega) (by omega)]
      by_cases hne : mem m1 = mem m2
      · rw [if_neg (not_not.mpr hne), if_neg (not_not.mpr hne)]
      · have hdiff : ((mem m1).toNat : ℤ) - (mem m2).toNat ≠ 0 :=
          fun hzero => hne (UInt8.toNat_inj.mp (by omega))
        rw [if_pos hne, if_pos hne, if_neg hdiff]
        rfl

theorem memcmpIn_eq (e : Endian) (mem : Bytes) (long : Width) (m2 : ℕ) (hlo : lo ≤ m1)
    (hhi : m1 + n ≤ hi) :
    memcmpIn e mem lo hi long m1 m2 n = some (memcmp8 mem m1 m2 n) := by
  have hsum : n / long.bytes * long.bytes + n % long.bytes = n := Nat.div_add_mod' n long.bytes
  rw [← (memcmp_eq_memcmp8 e long mem m1 m2 n).1, memcmp, memcmpIn,
    memcmpWordsIn_eq e mem long m2 hlo (by omega)]
  simp only [Option.bind_eq_bind, Option.bind_some]
  rcases memcmpWords_cases e mem long (n / long.bytes) m1 m2 with ⟨r, -, hrun, -⟩ | ⟨hrun, -⟩
  · rw [hrun]
    rfl
  · rw [hrun]
    exact memcmpBytesIn_eq mem _ (by omega) (by omega)

/-- How many of `n` bytes `memcmp` compares before it reads the last one: all but the last word or
the last byte. -/
def comparedBefore (long : Width) (n : ℕ) : ℕ :=
  if n % long.bytes = 0 then n - long.bytes else n - 1

theorem memcmpIn_out (e : Endian) (mem : Bytes) (long : Width) (m2 : ℕ) (hlo : lo ≤ m1)
    (hn : 0 < n) (hhi : m1 + n = hi + 1) :
    (memcmpIn e mem lo hi long m1 m2 n = none ∧
      mem.read m1 (comparedBefore long n) = mem.read m2 (comparedBefore long n)) ∨
    (∃ v, v ≠ 0 ∧ memcmpIn e mem lo hi long m1 m2 n = some v ∧
      mem.read m1 (comparedBefore long n) ≠ mem.read m2 (comparedBefore long n)) := by
  have hsum : n / long.bytes * long.bytes + n % long.bytes = n := Nat.div_add_mod' n long.bytes
  have hw := long.bytes_pos
  unfold memcmpIn comparedBefore
  rcases Nat.eq_zero_or_pos (n % long.bytes) with hrem | hrem
  · obtain ⟨k, hk⟩ : ∃ k, n / long.bytes = k + 1 := ⟨n / long.bytes - 1, by
      have := Nat.div_pos (Nat.le_of_dvd hn (Nat.dvd_of_mod_eq_zero hrem)) hw
      omega⟩
    have hsucc := Nat.add_one_mul k long.bytes
    rw [hk] at hsum
    have hbefore : n - long.bytes = k * long.bytes := by omega
    rw [if_pos hrem, hk, memcmpWordsIn_out e mem m2 hlo (by omega) (by omega), hbefore]
    rcases memcmpWords_cases e mem long k m1 m2 with ⟨r, hr, hrun, hread⟩ | ⟨hrun, hread⟩
    · rw [hrun]
      exact Or.inr ⟨r, hr, rfl, hread⟩
    · rw [hrun]
      exact Or.inl ⟨rfl, hread⟩
  · obtain ⟨l, hl⟩ : ∃ l, n % long.bytes = l + 1 := ⟨n % long.bytes - 1, by omega⟩
    have hbefore : n - 1 = n / long.bytes * long.bytes + l := by omega
    rw [if_neg hrem.ne', memcmpWordsIn_eq e mem long m2 hlo (by omega), hbefore, Bytes.read_add,
      Bytes.read_add]
    simp only [Option.bind_eq_bind, Option.bind_some]
    rcases memcmpWords_cases e mem long (n / long.bytes) m1 m2 with
      ⟨r, hr, hrun, hread⟩ | ⟨hrun, hread⟩
    · rw [hrun]
      exact Or.inr ⟨r, hr, rfl, fun happ => hread (List.append_inj_left happ (by simp))⟩
    · rw [hrun, hl, hread]
      simp only [ne_eq, List.append_cancel_left_eq]
      rw [memcmpBytesIn_out mem _ (by omega) (by omega), ← memcmp8_eq_zero_iff]
      by_cases hzero : memcmp8 mem (m1 + n / long.bytes * long.bytes)
          (m2 + n / long.bytes * long.bytes) l = 0
      · exact Or.inl ⟨if_pos hzero, hzero⟩
      · exact Or.inr ⟨_, hzero, if_neg hzero, hzero⟩

/-! ## One position -/

/-- The needle at a position. -/
def Occurs (mem : Bytes) (nd m p : ℕ) : Prop := mem.read p m = mem.read nd m

instance (mem : Bytes) (nd m p : ℕ) : Decidable (Occurs mem nd m p) :=
  inferInstanceAs (Decidable (_ = _))

theorem occurs_succ {p : ℕ} : Occurs mem nd (m + 1) p ↔
    mem p = mem nd ∧ mem.read (p + 1) m = mem.read (nd + 1) m := by
  rw [Occurs, Bytes.read_succ, Bytes.read_succ, List.cons.injEq]

theorem memmemAt_eq (e : Endian) (long : Width) {p : ℕ} (hlo : lo ≤ p) (hhi : p + (m + 1) ≤ hi) :
    memmemAt e mem lo hi long (mem nd) (nd + 1) m p = some (decide (Occurs mem nd (m + 1) p)) := by
  rw [memmemAt, readByte_eq hlo (by omega)]
  simp only [Option.bind_eq_bind, Option.bind_some, occurs_succ]
  by_cases hfirst : mem p = mem nd
  · rw [if_pos hfirst, memcmpIn_eq e mem long _ (by omega) (by omega)]
    simp only [Option.bind_some, hfirst, true_and, memcmp8_eq_zero_iff]
    rfl
  · rw [if_neg hfirst, decide_eq_false fun h => hfirst h.1]
    rfl

theorem memmemAt_out (e : Endian) (mem : Bytes) (long : Width) (nd : ℕ) {p : ℕ} (hlo : lo ≤ p)
    (hhi : p + m = hi) :
    (memmemAt e mem lo hi long (mem nd) (nd + 1) m p = none ∧
      (m = 0 ∨ Occurs mem nd (comparedBefore long m + 1) p)) ∨
    (memmemAt e mem lo hi long (mem nd) (nd + 1) m p = some false ∧
      ¬ (m = 0 ∨ Occurs mem nd (comparedBefore long m + 1) p)) := by
  rcases Nat.eq_zero_or_pos m with rfl | hm
  · have hread : readByte mem lo hi p = none := if_neg (by omega)
    refine Or.inl ⟨?_, Or.inl rfl⟩
    rw [memmemAt, hread]
    rfl
  · rw [memmemAt, readByte_eq hlo (by omega), or_iff_right hm.ne', occurs_succ]
    simp only [Option.bind_eq_bind, Option.bind_some]
    by_cases hfirst : mem p = mem nd
    · rw [if_pos hfirst]
      simp only [hfirst, true_and]
      have hnext : lo ≤ p + 1 := by omega
      have hend : p + 1 + m = hi + 1 := by omega
      rcases memcmpIn_out e mem long (nd + 1) hnext hm hend with
        ⟨hrun, hread⟩ | ⟨v, hv, hrun, hread⟩
      · rw [hrun]
        exact Or.inl ⟨rfl, hread⟩
      · rw [hrun]
        refine Or.inr ⟨?_, hread⟩
        simp [hv]
    · rw [if_neg hfirst]
      exact Or.inr ⟨rfl, fun h => hfirst h.1⟩

/-! ## The positions -/

section Loops

variable {found : ℕ → Option Bool} {P : ℕ → Prop} [DecidablePred P] {p l : ℕ}

theorem memmemLoop_skip (hf : ∀ j < k, found (p + j) = some false) :
    memmemLoop found (k + l) p = memmemLoop found l (p + k) := by
  induction k generalizing p with
  | zero => rw [Nat.zero_add, Nat.add_zero]
  | succ k ih =>
      have hsucc : k + 1 + l = k + l + 1 := by omega
      have hfirst : found p = some false := hf 0 (Nat.succ_pos k)
      rw [hsucc, memmemLoop, hfirst, Nat.add_comm k 1, ← Nat.add_assoc]
      refine ih fun j hj => ?_
      rw [Nat.add_assoc, Nat.add_comm 1]
      exact hf (j + 1) (Nat.succ_lt_succ hj)

theorem memmemLoop_first {i : ℕ} (hf : ∀ j ≤ i, found (p + j) = some (decide (P (p + j))))
    (hi : P (p + i)) (hmin : ∀ j < i, ¬ P (p + j)) (hk : i < k) :
    memmemLoop found k p = some (some (p + i)) := by
  obtain ⟨l, rfl⟩ : ∃ l, k = i + (l + 1) := ⟨k - i - 1, by omega⟩
  rw [memmemLoop_skip fun j hj => by rw [hf j hj.le, decide_eq_false (hmin j hj)], memmemLoop,
    hf i le_rfl, decide_eq_true hi]
  rfl

theorem memrmemLoop_none (hf : ∀ j < k, found (p + j) = some (decide (P (p + j))))
    (hnone : ∀ j < k, ¬ P (p + j)) : memrmemLoop found p k = some none := by
  induction k with
  | zero => rfl
  | succ k ih =>
      rw [memrmemLoop, hf k (Nat.lt_succ_self k), decide_eq_false (hnone k (Nat.lt_succ_self k))]
      exact ih (fun j hj => hf j (by omega)) fun j hj => hnone j (by omega)

theorem memrmemLoop_last {i : ℕ} (hf : ∀ j < k, found (p + j) = some (decide (P (p + j))))
    (hi : P (p + i)) (hmax : ∀ j < k, i < j → ¬ P (p + j)) (hk : i < k) :
    memrmemLoop found p k = some (some (p + i)) := by
  induction k with
  | zero => exact absurd hk (Nat.not_lt_zero i)
  | succ k ih =>
      rw [memrmemLoop, hf k (Nat.lt_succ_self k)]
      rcases Nat.lt_succ_iff_lt_or_eq.mp hk with hlt | rfl
      · rw [decide_eq_false (hmax k (Nat.lt_succ_self k) hlt)]
        exact ih (fun j hj => hf j (by omega)) (fun j hj => hmax j (by omega)) hlt
      · rw [decide_eq_true hi]
        rfl

end Loops

/-- The address of the first position at which the needle occurs. -/
def FirstOccurrence (mem : Bytes) (s h nd m : ℕ) (r : Option ℕ) : Prop :=
  (∃ i, i + m ≤ h ∧ r = some (s + i) ∧ Occurs mem nd m (s + i) ∧
    ∀ j < i, ¬ Occurs mem nd m (s + j)) ∨
  (r = none ∧ ∀ i, i + m ≤ h → ¬ Occurs mem nd m (s + i))

def LastOccurrence (mem : Bytes) (s h nd m : ℕ) (r : Option ℕ) : Prop :=
  (∃ i, i + m ≤ h ∧ r = some (s + i) ∧ Occurs mem nd m (s + i) ∧
    ∀ j, j + m ≤ h → i < j → ¬ Occurs mem nd m (s + j)) ∨
  (r = none ∧ ∀ i, i + m ≤ h → ¬ Occurs mem nd m (s + i))

/-! ## Results -/

theorem memmem_positions (e : Endian) (mem : Bytes) (lo hi : ℕ) (long : Width) (s nd : ℕ)
    (hm : m + 1 ≤ h) : memmem e mem lo hi long s h nd (m + 1) =
      memmemLoop (memmemAt e mem lo hi long (mem nd) (nd + 1) m) (h - m + 1) s := by
  have hcount : s + h - m + 1 - s = h - m + 1 := by omega
  rw [memmem, if_neg (by omega)]
  simp only [Nat.add_sub_cancel, hcount]

theorem memmem_present (e : Endian) (long : Width) (hlo : lo ≤ s) (hhi : s + h ≤ hi)
    (hany : ∃ i, i + (m + 1) ≤ h ∧ Occurs mem nd (m + 1) (s + i)) :
    ∃ r, memmem e mem lo hi long s h nd (m + 1) = some r ∧
      FirstOccurrence mem s h nd (m + 1) r := by
  obtain ⟨hle, hocc⟩ := Nat.find_spec hany
  have hmin : ∀ j < Nat.find hany, ¬ Occurs mem nd (m + 1) (s + j) :=
    fun j hj hoccj => Nat.find_min hany hj ⟨by omega, hoccj⟩
  refine ⟨some (s + Nat.find hany), ?_, Or.inl ⟨Nat.find hany, hle, rfl, hocc, hmin⟩⟩
  rw [memmem_positions e mem lo _ long s nd (by omega)]
  exact memmemLoop_first (P := Occurs mem nd (m + 1))
    (fun j hj => memmemAt_eq e long (by omega) (by omega)) hocc hmin (by omega)

theorem memmem_absent (e : Endian) (long : Width) (hlo : lo ≤ s) (hhi : s + h ≤ hi)
    (hm : m + 1 ≤ h) (hnone : ∀ i, i + (m + 1) ≤ h → ¬ Occurs mem nd (m + 1) (s + i)) :
    memmem e mem lo hi long s h nd (m + 1) =
      memmemLoop (memmemAt e mem lo hi long (mem nd) (nd + 1) m) 1 (s + (h - m)) := by
  rw [memmem_positions e mem lo _ long s nd hm]
  apply memmemLoop_skip
  intro j hj
  rw [memmemAt_eq e long (by omega) (by omega), decide_eq_false (hnone j (by omega))]

theorem memrmem_last (e : Endian) (mem : Bytes) (long : Width) (nd : ℕ) (hlo : lo ≤ s)
    (hhi : s + h ≤ hi) (hm : 0 < m) :
    ∃ r, memrmem e mem lo hi long s h nd m = some r ∧ LastOccurrence mem s h nd m r := by
  obtain ⟨m, rfl⟩ : ∃ l, m = l + 1 := ⟨m - 1, by omega⟩
  rcases Nat.lt_or_ge h (m + 1) with hlt | hge
  · exact ⟨none, if_pos (Or.inl hlt), Or.inr ⟨rfl, fun i hi => by omega⟩⟩
  · have hcount : s + h - m - 1 + 1 - s = h - m := by omega
    have hrun : memrmem e mem lo hi long s h nd (m + 1) =
        memrmemLoop (memmemAt e mem lo hi long (mem nd) (nd + 1) m) s (h - m) := by
      rw [memrmem, if_neg (by omega)]
      simp only [Nat.add_sub_cancel, hcount]
    have hat : ∀ j < h - m, memmemAt e mem lo hi long (mem nd) (nd + 1) m (s + j) =
        some (decide (Occurs mem nd (m + 1) (s + j))) :=
      fun j hj => memmemAt_eq e long (by omega) (by omega)
    by_cases hany : ∃ i < h - m, Occurs mem nd (m + 1) (s + i)
    · obtain ⟨i, ⟨hi, hocc⟩, hmax⟩ : ∃ i, (i < h - m ∧ Occurs mem nd (m + 1) (s + i)) ∧
          ∀ j, i < j → ¬ (j < h - m ∧ Occurs mem nd (m + 1) (s + j)) := by
        obtain ⟨l, hl⟩ := hany
        let P := fun j => j < h - m ∧ Occurs mem nd (m + 1) (s + j)
        exact ⟨_, Nat.findGreatest_spec (P := P) hl.1.le hl, fun j hj hocc =>
          absurd (Nat.le_findGreatest (P := P) hocc.1.le hocc) (not_le.mpr hj)⟩
      refine ⟨some (s + i), ?_, Or.inl ⟨i, by omega, rfl, hocc, fun j hj hij hoccj => ?_⟩⟩
      · rw [hrun]
        exact memrmemLoop_last hat hocc (fun j hj hij hoccj => hmax j hij ⟨hj, hoccj⟩) hi
      · exact hmax j hij ⟨by omega, hoccj⟩
    · refine ⟨none, ?_, Or.inr ⟨rfl, fun i hi hocc => hany ⟨i, by omega, hocc⟩⟩⟩
      rw [hrun]
      exact memrmemLoop_none hat fun j hj hocc => hany ⟨j, hj, hocc⟩

/-- `memrmem` finds the last occurrence of a needle. `memmem` finds the first one; without one it
reads the byte behind the haystack, unless the bytes from the position behind the last on differ
from those of the needle before. -/
theorem memmem_first_iff (e : Endian) (long : Width) (mem : Bytes) (s h nd m : ℕ) (hm : 0 < m) :
    ((∃ r, memmem e mem s (s + h) long s h nd m = some r ∧ FirstOccurrence mem s h nd m r) ↔
      h < m ∨ (∃ i, i + m ≤ h ∧ Occurs mem nd m (s + i)) ∨
        (1 < m ∧ ¬ Occurs mem nd (comparedBefore long (m - 1) + 1) (s + (h - m + 1)))) ∧
    ∃ r, memrmem e mem s (s + h) long s h nd m = some r ∧ LastOccurrence mem s h nd m r := by
  refine ⟨?_, memrmem_last e mem long nd le_rfl le_rfl hm⟩
  obtain ⟨m, rfl⟩ : ∃ l, m = l + 1 := ⟨m - 1, by omega⟩
  rcases Nat.lt_or_ge h (m + 1) with hlt | hge
  · exact iff_of_true ⟨none, if_pos (Or.inl hlt), Or.inr ⟨rfl, fun i hi => by omega⟩⟩
      (Or.inl hlt)
  rw [or_iff_right (not_lt.mpr hge)]
  by_cases hany : ∃ i, i + (m + 1) ≤ h ∧ Occurs mem nd (m + 1) (s + i)
  · exact iff_of_true (memmem_present e long le_rfl le_rfl hany) (Or.inl hany)
  · have hnone : ∀ i, i + (m + 1) ≤ h → ¬ Occurs mem nd (m + 1) (s + i) :=
      fun i hi hocc => hany ⟨i, hi, hocc⟩
    have hpos : h - (m + 1) + 1 = h - m := by omega
    rw [or_iff_right hany, memmem_absent e long le_rfl le_rfl hge hnone, hpos, Nat.add_sub_cancel]
    have hlast : s ≤ s + (h - m) := Nat.le_add_right _ _
    have hend : s + (h - m) + m = s + h := by omega
    rcases memmemAt_out e mem long nd hlast hend with ⟨hrun, hread⟩ | ⟨hrun, hread⟩
    · rw [memmemLoop, hrun]
      refine iff_of_false ?_ ?_
      · rintro ⟨r, hr, -⟩
        cases hr
      · rintro ⟨hone, hocc⟩
        exact hocc (hread.resolve_left (by omega))
    · rw [memmemLoop, hrun]
      rw [not_or] at hread
      exact iff_of_true ⟨none, rfl, Or.inr ⟨rfl, hnone⟩⟩ ⟨by omega, hread.2⟩

theorem memmem_first_iff_two :
    ((∃ r, memmem .little (fun i => UInt8.ofNat i) 5 (5 + 4) .b64 5 4 7 2 = some r ∧
        FirstOccurrence (fun i => UInt8.ofNat i) 5 4 7 2 r) ↔
      4 < 2 ∨ (∃ i, i + 2 ≤ 4 ∧ Occurs (fun i => UInt8.ofNat i) 7 2 (5 + i)) ∨
        (1 < 2 ∧ ¬ Occurs (fun i => UInt8.ofNat i) 7 (comparedBefore .b64 (2 - 1) + 1)
          (5 + (4 - 2 + 1)))) ∧
    ∃ r, memrmem .little (fun i => UInt8.ofNat i) 5 (5 + 4) .b64 5 4 7 2 = some r ∧
      LastOccurrence (fun i => UInt8.ofNat i) 5 4 7 2 r :=
  memmem_first_iff .little .b64 (fun i => UInt8.ofNat i) 5 4 7 2 (by norm_num)

/-- One byte looked for in another: the byte behind it is read, and found when it is the one. -/
theorem memmem_beyond :
    memmem .little (fun i => UInt8.ofNat i) 5 6 .b64 5 1 6 1 = none ∧
    memmem .little (fun i => UInt8.ofNat i) 5 7 .b64 5 1 6 1 = some (some 6) := by decide

end Carthage.MmUtils
