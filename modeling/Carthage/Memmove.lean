import Carthage.MemWords

/-!
# Moving bytes

`memmove` copies words and then the bytes that are left, upwards when the destination is below
the source, and downwards otherwise. Downwards it starts one past the last byte. Memory has a byte
at every address, so an access outside of the two ranges is no failure: it shows in what is
written.
-/

namespace Carthage.MmUtils

section Model

variable (w : ℕ)

/-- `*idst++ = *isrc++`, for `k` words; where the pointers are left. -/
def copyUp : ℕ → Bytes → ℕ → ℕ → Bytes × ℕ × ℕ
  | 0, mem, dst, src => (mem, dst, src)
  | k + 1, mem, dst, src => copyUp k (mem.copy dst src w) (dst + w) (src + w)

/-- `*idst-- = *isrc--`. -/
def copyDown : ℕ → Bytes → ℕ → ℕ → Bytes × ℕ × ℕ
  | 0, mem, dst, src => (mem, dst, src)
  | k + 1, mem, dst, src => copyDown k (mem.copy dst src w) (dst - w) (src - w)

/-- `__memcpy_forward`, with words of `w` bytes. -/
def memcpyForward (mem : Bytes) (dst src n : ℕ) : Bytes :=
  let (mem, dst, src) := copyUp w (n / w) mem dst src
  (copyUp 1 (n % w) mem dst src).1

/-- `__memcpy_backward`. -/
def memcpyBackward (mem : Bytes) (dst src n : ℕ) : Bytes :=
  let (mem, dst, src) := copyDown w (n / w) mem (dst + n) (src + n)
  (copyDown 1 (n % w) mem dst src).1

end Model

def memmove (w : Width) (mem : Bytes) (dest src n : ℕ) : Bytes :=
  if dest < src then memcpyForward w.bytes mem dest src n
  else memcpyBackward w.bytes mem dest src n

variable {w k m n dst src dest : ℕ} {mem mem' : Bytes}

/-! ## Copies in a row -/

theorem copy_copy_up (h : dst ≤ src) (mem : Bytes) (m n : ℕ) :
    (mem.copy dst src m).copy (dst + m) (src + m) n = mem.copy dst src (m + n) := by
  funext i
  simp only [Bytes.copy]
  split_ifs <;> first | rfl | omega | (congr 1; omega)

theorem copy_copy_down (h : src ≤ dst) (mem : Bytes) (m n : ℕ) :
    (mem.copy (dst + m) (src + m) n).copy dst src m = mem.copy dst src (m + n) := by
  funext i
  simp only [Bytes.copy]
  split_ifs <;> first | rfl | omega | (congr 1; omega)

theorem copyUp_eq (h : dst ≤ src) (w k : ℕ) (mem : Bytes) :
    copyUp w k mem dst src = (mem.copy dst src (k * w), dst + k * w, src + k * w) := by
  induction k generalizing mem dst src with
  | zero => rw [copyUp, Nat.zero_mul, Bytes.copy_zero, Nat.add_zero, Nat.add_zero]
  | succ k ih =>
      rw [copyUp, ih (Nat.add_le_add_right h w), copy_copy_up h, Nat.succ_mul, Nat.add_comm w,
        Nat.add_assoc, Nat.add_assoc, Nat.add_comm w]

theorem copyDown_eq (h : src ≤ dst) (w k : ℕ) (mem : Bytes) :
    copyDown w k mem (dst + k * w) (src + k * w) =
      (mem.copy (dst + w) (src + w) (k * w), dst, src) := by
  induction k generalizing mem with
  | zero => rw [copyDown, Nat.zero_mul, Bytes.copy_zero, Nat.add_zero, Nat.add_zero]
  | succ k ih =>
      have hdown : ∀ p, p + (k + 1) * w - w = p + k * w := fun p => by
        rw [Nat.succ_mul, ← Nat.add_assoc, Nat.add_sub_cancel]
      have hup : ∀ p, p + (k + 1) * w = p + w + k * w := fun p => by
        rw [Nat.succ_mul, Nat.add_assoc, Nat.add_comm w]
      rw [copyDown, hdown, hdown, ih, hup, hup, copy_copy_down (Nat.add_le_add_right h w),
        Nat.succ_mul]

theorem memcpyForward_eq (h : dst ≤ src) (w : ℕ) (mem : Bytes) (n : ℕ) :
    memcpyForward w mem dst src n = mem.copy dst src n := by
  unfold memcpyForward
  rw [copyUp_eq h]
  simp only []
  rw [copyUp_eq (Nat.add_le_add_right h _), copy_copy_up h, Nat.mul_one, Nat.mul_comm,
    Nat.div_add_mod]

/-- The offsets of the bytes that are copied downwards: the words end one past the last byte,
and the bytes at the first. -/
def CopiedDown (w n t : ℕ) : Prop := (1 ≤ t ∧ t ≤ n % w) ∨ (n % w + w ≤ t ∧ t < n + w)

instance (w n t : ℕ) : Decidable (CopiedDown w n t) := inferInstanceAs (Decidable (_ ∨ _))

theorem memcpyBackward_eq (h : src ≤ dst) (w : ℕ) (mem : Bytes) (n : ℕ) :
    memcpyBackward w mem dst src n = fun i =>
      if dst ≤ i ∧ CopiedDown w n (i - dst) then mem (i - dst + src) else mem i := by
  have hn : n = n % w + n / w * w := by rw [Nat.mul_comm, Nat.mod_add_div]
  have hwords : ∀ p, p + n = p + n % w + n / w * w := by omega
  have hbytes := copyDown_eq h 1 (n % w)
  rw [Nat.mul_one] at hbytes
  unfold memcpyBackward
  rw [hwords dst, hwords src, copyDown_eq (Nat.add_le_add_right h _)]
  simp only []
  rw [hbytes]
  funext i
  unfold CopiedDown
  simp only [Bytes.copy]
  obtain ⟨r, hr⟩ : ∃ r, r = n % w := ⟨_, rfl⟩
  obtain ⟨l, hl⟩ : ∃ l, l = n / w * w := ⟨_, rfl⟩
  simp only [← hr, ← hl] at hn ⊢
  split_ifs <;> first | rfl | omega | (congr 1; omega)

/-! ## Moving -/

/-- The destination gets what the source held before, and nothing else changes. -/
def Moves (mem mem' : Bytes) (dest src n : ℕ) : Prop :=
  (∀ t < n, mem' (dest + t) = mem (src + t)) ∧
    ∀ i, (i < dest ∨ dest + n ≤ i) → mem' i = mem i

theorem copy_moves (mem : Bytes) (dest src n : ℕ) : Moves mem (mem.copy dest src n) dest src n := by
  refine ⟨fun t ht => ?_, fun i hi => if_neg (by omega)⟩
  rw [Bytes.copy, if_pos (by omega)]
  congr 1
  omega

/-- The offsets that a copy downwards leaves out or copies past the end: the first byte, those
between the bytes and the words, and a word, or a byte when there are no words, at the end. -/
def Skewed (w n t : ℕ) : Prop :=
  t = 0 ∨ (n < w ∧ t = n) ∨ (w ≤ n ∧ ((n % w < t ∧ t < n % w + w) ∨ (n ≤ t ∧ t < n + w)))

theorem skewed_iff {t : ℕ} (hw : 0 < w) (hn : 0 < n) :
    Skewed w n t ↔ (t < n ∧ ¬ CopiedDown w n t) ∨ (n ≤ t ∧ CopiedDown w n t) := by
  unfold Skewed CopiedDown
  obtain ⟨r, hr⟩ : ∃ r, n % w = r := ⟨_, rfl⟩
  have hlt : r < w := hr ▸ Nat.mod_lt n hw
  rw [hr]
  rcases Nat.lt_or_ge n w with hfew | hmany
  · have hrest : r = n := hr ▸ Nat.mod_eq_of_lt hfew
    omega
  · have hrest : r + w ≤ n := by
      have hmod := Nat.mod_le (n - w) w
      rw [← Nat.mod_eq_sub_mod hmany, hr] at hmod
      omega
    omega

theorem memcpyBackward_moves_iff (h : src ≤ dest) (hw : 0 < w) (hn : 0 < n) :
    Moves mem (memcpyBackward w mem dest src n) dest src n ↔
      ∀ t, Skewed w n t → mem (dest + t) = mem (src + t) := by
  have hat : ∀ t, memcpyBackward w mem dest src n (dest + t) =
      if CopiedDown w n t then mem (src + t) else mem (dest + t) := by
    intro t
    rw [memcpyBackward_eq h]
    simp only [Nat.le_add_right, true_and, Nat.add_sub_cancel_left, Nat.add_comm t src]
  simp only [skewed_iff hw hn]
  constructor
  · rintro ⟨hin, hout⟩ t (⟨hlt, hcopied⟩ | ⟨hle, hcopied⟩)
    · rw [← hin t hlt, hat, if_neg hcopied]
    · rw [← hout (dest + t) (by omega), hat, if_pos hcopied]
  · intro hsame
    refine ⟨fun t hlt => ?_, fun i hi => ?_⟩
    · rw [hat]
      split_ifs with hcopied
      · rfl
      · exact hsame t (Or.inl ⟨hlt, hcopied⟩)
    · rcases hi with hlow | hhigh
      · rw [memcpyBackward_eq h]
        exact if_neg (by omega)
      · obtain ⟨t, rfl⟩ := Nat.exists_eq_add_of_le (show dest ≤ i by omega)
        rw [hat]
        split_ifs with hcopied
        · exact (hsame t (Or.inr ⟨by omega, hcopied⟩)).symm
        · rfl

/-- `memmove` is right exactly for a destination that is not above the source, or when the bytes
that it takes for others are the same as these. -/
theorem memmove_moves_iff (w : Width) (mem : Bytes) (dest src n : ℕ) :
    Moves mem (memmove w mem dest src n) dest src n ↔
      n = 0 ∨ dest ≤ src ∨ ∀ t, Skewed w.bytes n t → mem (dest + t) = mem (src + t) := by
  unfold memmove
  by_cases hlt : dest < src
  · rw [if_pos hlt, memcpyForward_eq hlt.le]
    exact iff_of_true (copy_moves mem dest src n) (Or.inr (Or.inl hlt.le))
  · rw [if_neg hlt]
    rcases Nat.eq_zero_or_pos n with rfl | hn
    · refine iff_of_true ?_ (Or.inl rfl)
      have hnone : memcpyBackward w.bytes mem dest src 0 = mem := by
        rw [memcpyBackward_eq (not_lt.mp hlt)]
        funext i
        refine if_neg fun h => ?_
        have hcopied := h.2
        unfold CopiedDown at hcopied
        rw [Nat.zero_mod] at hcopied
        omega
      rw [hnone]
      exact ⟨fun t ht => absurd ht (Nat.not_lt_zero t), fun i _ => rfl⟩
    · rw [memcpyBackward_moves_iff (not_lt.mp hlt) w.bytes_pos hn, or_iff_right hn.ne']
      constructor
      · exact Or.inr
      · rintro (hle | h)
        · intro t _
          rw [le_antisymm hle (not_lt.mp hlt)]
        · exact h

/-- One byte moved up by one: the byte behind it is moved instead. -/
theorem memmove_skews :
    memmove .b64 (fun i => UInt8.ofNat i) 6 5 1 6 = 6 ∧
      memmove .b64 (fun i => UInt8.ofNat i) 6 5 1 7 = 6 ∧
      ¬ Moves (fun i => UInt8.ofNat i) (memmove .b64 (fun i => UInt8.ofNat i) 6 5 1) 6 5 1 :=
  ⟨by decide, by decide, fun h => absurd (h.1 0 Nat.one_pos) (by decide)⟩

end Carthage.MmUtils
