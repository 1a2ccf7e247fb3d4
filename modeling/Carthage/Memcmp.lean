import Carthage.MemWords

/-!
# Comparing memory

`memcmp` compares words, and the bytes of the first words that differ. In whatever order a machine
keeps the bytes of a word, words differ when some of their bytes do.
-/

namespace Carthage.MmUtils

section Model

variable (e : Endian) (mem : Bytes)

/-- `__cmp8_step`, `__cmp16_step`, `__cmp32_step` and `__cmp64_step`, for 1, 2, 4 and 8 bytes. A
`return` inside a loop is an error here. -/
def cmpStep : ℕ → ℕ → ℕ → Except ℤ Unit
  | 0, _, _ => .ok ()
  | k + 1, m1, m2 =>
      if mem m1 ≠ mem m2 then .error ((mem m1).toNat - (mem m2).toNat)
      else cmpStep k (m1 + 1) (m2 + 1)

/-- The loop over `k` words; where the pointers are left. -/
def memcmpWords (w : ℕ) (step : ℕ → ℕ → Except ℤ Unit) : ℕ → ℕ → ℕ → Except ℤ (ℕ × ℕ)
  | 0, m1, m2 => .ok (m1, m2)
  | k + 1, m1, m2 => do
      if mem.loadWord e m1 w ≠ mem.loadWord e m2 w then step m1 m2
      memcmpWords w step k (m1 + w) (m2 + w)

def memcmp8 : ℕ → ℕ → ℕ → ℤ
  | _, _, 0 => 0
  | m1, m2, n + 1 =>
      if mem m1 ≠ mem m2 then (mem m1).toNat - (mem m2).toNat else memcmp8 (m1 + 1) (m2 + 1) n

/-- The `switch` on the size of a word. The case of 1 byte falls through to the one of 2. -/
def cmpSwitch (long : Width) (m1 m2 : ℕ) : Except ℤ Unit :=
  match long with
  | .b8 => do
      cmpStep mem 1 m1 m2
      cmpStep mem 2 m1 m2
  | .b16 => cmpStep mem 2 m1 m2
  | .b32 => cmpStep mem 4 m1 m2
  | .b64 => cmpStep mem 8 m1 m2

/-- The bytes that are left are compared as in `memcmp8`. -/
def memcmp (long : Width) (m1 m2 n : ℕ) : ℤ :=
  match memcmpWords e mem long.bytes (cmpSwitch mem long) (n / long.bytes) m1 m2 with
  | .error r => r
  | .ok (m1, m2) => memcmp8 mem m1 m2 (n % long.bytes)

/-- A comparison by words of `w` bytes only. -/
def memcmpSized (w : ℕ) (m1 m2 n : ℕ) : ℤ :=
  match memcmpWords e mem w (cmpStep mem w) (n / w) m1 m2 with
  | .error r => r
  | .ok _ => 0

def memcmp16 : ℕ → ℕ → ℕ → ℤ := memcmpSized e mem 2

def memcmp32 : ℕ → ℕ → ℕ → ℤ := memcmpSized e mem 4

def memcmp64 : ℕ → ℕ → ℕ → ℤ := memcmpSized e mem 8

end Model

variable {e : Endian} {mem : Bytes} {m1 m2 n k w : ℕ}

/-- The difference of the first bytes that differ, or 0. -/
def FirstDifference (mem : Bytes) (m1 m2 n : ℕ) (r : ℤ) : Prop :=
  (∃ i < n, (∀ j < i, mem (m1 + j) = mem (m2 + j)) ∧ mem (m1 + i) ≠ mem (m2 + i) ∧
    r = (mem (m1 + i)).toNat - (mem (m2 + i)).toNat) ∨
  ((∀ i < n, mem (m1 + i) = mem (m2 + i)) ∧ r = 0)

theorem memcmp8_first (mem : Bytes) (m1 m2 n : ℕ) :
    FirstDifference mem m1 m2 n (memcmp8 mem m1 m2 n) := by
  induction n generalizing m1 m2 with
  | zero => exact Or.inr ⟨fun i hi => absurd hi (Nat.not_lt_zero i), rfl⟩
  | succ n ih =>
      rw [memcmp8]
      split_ifs with hne
      · exact Or.inl ⟨0, Nat.succ_pos n, fun j hj => absurd hj (Nat.not_lt_zero j), hne, rfl⟩
      · have hcons : ∀ {l}, (∀ j < l, mem (m1 + 1 + j) = mem (m2 + 1 + j)) →
            ∀ j < l + 1, mem (m1 + j) = mem (m2 + j) := by
          intro l h
          refine Nat.forall_lt_succ_left.mpr ⟨not_not.mp hne, fun j hj => ?_⟩
          simpa only [Nat.add_assoc, Nat.add_comm 1] using h j hj
        rcases ih (m1 + 1) (m2 + 1) with ⟨i, hi, hsame, hdiff, hr⟩ | ⟨hsame, hr⟩
        · simp only [Nat.add_assoc, Nat.add_comm 1 i] at hdiff hr
          exact Or.inl ⟨i + 1, Nat.succ_lt_succ hi, hcons hsame, hdiff, hr⟩
        · exact Or.inr ⟨hcons hsame, hr⟩

theorem memcmp8_skip (h : mem.read m1 k = mem.read m2 k) (n : ℕ) :
    memcmp8 mem m1 m2 (k + n) = memcmp8 mem (m1 + k) (m2 + k) n := by
  induction k generalizing m1 m2 with
  | zero => rw [Nat.zero_add, Nat.add_zero, Nat.add_zero]
  | succ k ih =>
      rw [Nat.add_comm k 1, Bytes.read_add, Bytes.read_add] at h
      obtain ⟨hone, hrest⟩ := List.append_inj h (by simp)
      have hhead : mem m1 = mem m2 := (List.cons.inj hone).1
      have hsucc : k + 1 + n = k + n + 1 := by omega
      rw [hsucc, memcmp8, if_neg (not_not.mpr hhead), ih hrest, Nat.add_assoc, Nat.add_assoc,
        Nat.add_comm 1 k]

theorem cmpStep_cases (mem : Bytes) (k m1 m2 : ℕ) :
    (∃ r, cmpStep mem k m1 m2 = .error r ∧ ∀ n, memcmp8 mem m1 m2 (k + n) = r) ∨
      (cmpStep mem k m1 m2 = .ok () ∧ mem.read m1 k = mem.read m2 k) := by
  induction k generalizing m1 m2 with
  | zero => exact Or.inr ⟨rfl, rfl⟩
  | succ k ih =>
      have hsucc : ∀ n, k + 1 + n = k + n + 1 := by omega
      rw [cmpStep]
      split_ifs with hne
      · exact Or.inl ⟨_, rfl, fun n => by rw [hsucc, memcmp8, if_pos hne]⟩
      · rcases ih (m1 + 1) (m2 + 1) with ⟨r, hrun, hr⟩ | ⟨hrun, hread⟩
        · exact Or.inl ⟨r, hrun, fun n => by rw [hsucc, memcmp8, if_neg hne, hr]⟩
        · refine Or.inr ⟨hrun, ?_⟩
          rw [Nat.add_comm k 1, Bytes.read_add, Bytes.read_add, hread]
          congr 1
          exact congrArg (fun b => [b]) (not_not.mp hne)

/-- A step on words of `w` bytes that differ is one of `w` bytes. -/
def StepOf (mem : Bytes) (w : ℕ) (step : ℕ → ℕ → Except ℤ Unit) : Prop :=
  ∀ m1 m2, mem.read m1 w ≠ mem.read m2 w → step m1 m2 = cmpStep mem w m1 m2

theorem cmpSwitch_step (mem : Bytes) (long : Width) :
    StepOf mem long.bytes (cmpSwitch mem long) := by
  intro m1 m2 hne
  cases long with
  | b8 =>
      rcases cmpStep_cases mem 1 m1 m2 with ⟨r, hrun, -⟩ | ⟨-, hread⟩
      · change (do cmpStep mem 1 m1 m2; cmpStep mem 2 m1 m2) = cmpStep mem 1 m1 m2
        rw [hrun]
        rfl
      · exact absurd hread hne
  | b16 => rfl
  | b32 => rfl
  | b64 => rfl

theorem memcmpWords_spec {step : ℕ → ℕ → Except ℤ Unit} (hstep : StepOf mem w step) (k m1 m2 : ℕ) :
    (∃ r, memcmpWords e mem w step k m1 m2 = .error r ∧
      ∀ n, memcmp8 mem m1 m2 (k * w + n) = r) ∨
    (memcmpWords e mem w step k m1 m2 = .ok (m1 + k * w, m2 + k * w) ∧
      ∀ n, memcmp8 mem m1 m2 (k * w + n) = memcmp8 mem (m1 + k * w) (m2 + k * w) n) := by
  induction k generalizing m1 m2 with
  | zero => exact Or.inr ⟨by simp [memcmpWords], fun n => by simp⟩
  | succ k ih =>
      have hsucc : ∀ n, (k + 1) * w + n = w + (k * w + n) := fun n => by
        rw [Nat.succ_mul]
        omega
      have hptr : ∀ p, p + (k + 1) * w = p + w + k * w := fun p => by
        rw [Nat.succ_mul]
        omega
      by_cases hread : mem.read m1 w = mem.read m2 w
      · have hword := (loadWord_inj e).mpr hread
        have hrun : memcmpWords e mem w step (k + 1) m1 m2 =
            memcmpWords e mem w step k (m1 + w) (m2 + w) := by
          rw [memcmpWords, if_neg (not_not.mpr hword)]
        simp only [hrun, hsucc, hptr, memcmp8_skip hread]
        exact ih (m1 + w) (m2 + w)
      · have hword : mem.loadWord e m1 w ≠ mem.loadWord e m2 w :=
          fun h => hread ((loadWord_inj e).mp h)
        rcases cmpStep_cases mem w m1 m2 with ⟨r, hrun, hr⟩ | ⟨-, hsame⟩
        · refine Or.inl ⟨r, ?_, fun n => by rw [hsucc, hr]⟩
          rw [memcmpWords, if_pos hword, hstep m1 m2 hread, hrun]
          rfl
        · exact absurd hsame hread

theorem memcmpSized_eq (e : Endian) (mem : Bytes) (m1 m2 : ℕ) (hn : n % w = 0) :
    memcmpSized e mem w m1 m2 n = memcmp8 mem m1 m2 n := by
  have hwhole : n / w * w + 0 = n := Nat.div_mul_cancel (Nat.dvd_of_mod_eq_zero hn)
  unfold memcmpSized
  rcases memcmpWords_spec (e := e) (fun _ _ _ => rfl) (n / w) m1 m2 with
    ⟨r, hrun, hr⟩ | ⟨hrun, hrest⟩
  · rw [hrun, ← hr 0, hwhole]
  · rw [hrun, ← hwhole, hrest 0]
    rfl

/-- All comparisons are the one by bytes, those by words of one width for lengths that are
multiples of it. -/
theorem memcmp_eq_memcmp8 (e : Endian) (long : Width) (mem : Bytes) (m1 m2 n : ℕ) :
    memcmp e mem long m1 m2 n = memcmp8 mem m1 m2 n ∧
    FirstDifference mem m1 m2 n (memcmp8 mem m1 m2 n) ∧
    (n % 2 = 0 → memcmp16 e mem m1 m2 n = memcmp8 mem m1 m2 n) ∧
    (n % 4 = 0 → memcmp32 e mem m1 m2 n = memcmp8 mem m1 m2 n) ∧
    (n % 8 = 0 → memcmp64 e mem m1 m2 n = memcmp8 mem m1 m2 n) := by
  refine ⟨?_, memcmp8_first mem m1 m2 n, memcmpSized_eq e mem m1 m2, memcmpSized_eq e mem m1 m2,
    memcmpSized_eq e mem m1 m2⟩
  have hsum : n / long.bytes * long.bytes + n % long.bytes = n := Nat.div_add_mod' n long.bytes
  unfold memcmp
  rcases memcmpWords_spec (e := e) (cmpSwitch_step mem long) (n / long.bytes) m1 m2 with
    ⟨r, hrun, hr⟩ | ⟨hrun, hrest⟩
  · rw [hrun, ← hr (n % long.bytes), hsum]
  · rw [hrun]
    exact (hrest _).symm.trans (congrArg _ hsum)

/-- Two words that differ in their sixth byte. -/
theorem memcmp_eq_memcmp8_eight :
    memcmp .little (fun i => if i = 13 then 1 else 0) .b64 0 8 8 =
        memcmp8 (fun i => if i = 13 then 1 else 0) 0 8 8 ∧
    FirstDifference (fun i => if i = 13 then 1 else 0) 0 8 8
      (memcmp8 (fun i => if i = 13 then 1 else 0) 0 8 8) ∧
    memcmp16 .little (fun i => if i = 13 then 1 else 0) 0 8 8 =
        memcmp8 (fun i => if i = 13 then 1 else 0) 0 8 8 ∧
    memcmp32 .little (fun i => if i = 13 then 1 else 0) 0 8 8 =
        memcmp8 (fun i => if i = 13 then 1 else 0) 0 8 8 ∧
    memcmp64 .little (fun i => if i = 13 then 1 else 0) 0 8 8 =
        memcmp8 (fun i => if i = 13 then 1 else 0) 0 8 8 := by
  obtain ⟨h, hfirst, h16, h32, h64⟩ :=
    memcmp_eq_memcmp8 .little .b64 (fun i => if i = 13 then 1 else 0) 0 8 8
  exact ⟨h, hfirst, h16 (by decide), h32 (by decide), h64 (by decide)⟩

end Carthage.MmUtils
