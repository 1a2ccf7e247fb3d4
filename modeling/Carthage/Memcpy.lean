import Carthage.Memmove

/-!
# Copying bytes

The other copies of `memcpy.c`. `memcpy` copies everything; those that go by words of one size
leave out the bytes after the last word upwards, and downwards they stop with a word to go and
write a word beyond the end. As for `memmove`, an access outside of the ranges is no failure.
-/

namespace Carthage.MmUtils

section Model

variable (mem : Bytes) (dest src n : ℕ)

def memcpy (w : Width) : Bytes := memcpyForward w.bytes mem dest src n

def membcpy (w : Width) : Bytes := memcpyBackward w.bytes mem dest src n

/-- `__memcpy_forward_sized`, with words of `u` bytes. -/
def memcpySized (u : ℕ) : Bytes := (copyUp u (n / u) mem dest src).1

def memcpy8 : Bytes := memcpySized mem dest src n 1
def memcpy16 : Bytes := memcpySized mem dest src n 2
def memcpy32 : Bytes := memcpySized mem dest src n 4
def memcpy64 : Bytes := memcpySized mem dest src n 8

/-- `__memcpy_backward_sized`; it goes on while more than a word is left. -/
def membcpySized (u : ℕ) : Bytes := (copyDown u ((n - 1) / u) mem (dest + n) (src + n)).1

def membcpy8 : Bytes := membcpySized mem dest src n 1
def membcpy16 : Bytes := membcpySized mem dest src n 2
def membcpy32 : Bytes := membcpySized mem dest src n 4
def membcpy64 : Bytes := membcpySized mem dest src n 8

def memmoveSized (u : ℕ) : Bytes :=
  if dest < src then memcpySized mem dest src n u else membcpySized mem dest src n u

def memmove8 : Bytes := memmoveSized mem dest src n 1
def memmove16 : Bytes := memmoveSized mem dest src n 2
def memmove32 : Bytes := memmoveSized mem dest src n 4

/-- Both branches copy upwards. -/
def memmove64 : Bytes :=
  if dest < src then memcpySized mem dest src n 8 else memcpySized mem dest src n 8

end Model

variable {mem : Bytes} {dest src n u k l : ℕ}

/-- Regions of which a copy upwards reads nothing that it wrote. -/
def Upwards (dest src n : ℕ) : Prop := dest ≤ src ∨ src + n ≤ dest

theorem copy_copy_upwards (h : Upwards dest src (k + l)) (mem : Bytes) :
    (mem.copy dest src k).copy (dest + k) (src + k) l = mem.copy dest src (k + l) := by
  unfold Upwards at h
  funext i
  simp only [Bytes.copy]
  split_ifs <;> first | rfl | omega | (congr 1; omega)

theorem copyUp_upwards (h : Upwards dest src (k * u)) (mem : Bytes) :
    copyUp u k mem dest src = (mem.copy dest src (k * u), dest + k * u, src + k * u) := by
  induction k generalizing mem dest src with
  | zero => rw [copyUp, Nat.zero_mul, Bytes.copy_zero, Nat.add_zero, Nat.add_zero]
  | succ k ih =>
      rw [Nat.succ_mul, Nat.add_comm] at h
      have hrest : Upwards (dest + u) (src + u) (k * u) := by
        unfold Upwards at h ⊢
        omega
      rw [copyUp, ih hrest, copy_copy_upwards h, Nat.succ_mul, Nat.add_comm u, Nat.add_assoc,
        Nat.add_assoc, Nat.add_comm u]

theorem Upwards.fewer (h : Upwards dest src n) (hl : l ≤ n) : Upwards dest src l :=
  h.imp_right (Nat.add_le_add_left hl src).trans

theorem copy_moves_iff (mem : Bytes) (dest src n a l : ℕ) :
    Moves mem (mem.copy (dest + a) (src + a) l) dest src n ↔
      ∀ t, (t < n ∧ ¬ (a ≤ t ∧ t < a + l)) ∨ (n ≤ t ∧ a ≤ t ∧ t < a + l) →
        mem (dest + t) = mem (src + t) := by
  have hat : ∀ t, mem.copy (dest + a) (src + a) l (dest + t) =
      if a ≤ t ∧ t < a + l then mem (src + t) else mem (dest + t) := fun t => by
    simp only [Bytes.copy]
    split_ifs <;> first | rfl | omega | (congr 1; omega)
  constructor
  · rintro ⟨hin, hout⟩ t (⟨hlt, hno⟩ | ⟨hle, hyes⟩)
    · rw [← hin t hlt, hat, if_neg hno]
    · rw [← hout (dest + t) (Or.inr (by omega)), hat, if_pos hyes]
  · intro hsame
    refine ⟨fun t hlt => ?_, fun i hi => ?_⟩
    · rw [hat]
      split_ifs with hcopied
      · rfl
      · exact hsame t (Or.inl ⟨hlt, hcopied⟩)
    · rcases Nat.lt_or_ge i dest with hbelow | hfrom
      · simp only [Bytes.copy]
        exact if_neg (by omega)
      · obtain ⟨t, rfl⟩ := Nat.exists_eq_add_of_le hfrom
        rw [hat]
        split_ifs with hcopied
        · exact (hsame t (Or.inr ⟨by omega, hcopied⟩)).symm
        · rfl

/-- The offsets that a copy by words leaves out or writes past the end. -/
def LeftUp (u n t : ℕ) : Prop := n / u * u ≤ t ∧ t < n

def LeftDown (u n t : ℕ) : Prop :=
  (t < n ∧ t < n - (n - 1) / u * u + u) ∨ (u < n ∧ n ≤ t ∧ t < n + u)

theorem memcpySized_moves_iff (h : Upwards dest src n) :
    Moves mem (memcpySized mem dest src n u) dest src n ↔
      ∀ t, LeftUp u n t → mem (dest + t) = mem (src + t) := by
  have hle : n / u * u ≤ n := Nat.div_mul_le_self n u
  have hcopy := copy_moves_iff mem dest src n 0 (n / u * u)
  rw [memcpySized, copyUp_upwards (h.fewer hle)]
  refine hcopy.trans (forall_congr' fun t => imp_congr_left ?_)
  unfold LeftUp
  omega

theorem membcpySized_moves_iff (h : src ≤ dest) (hu : 0 < u) :
    Moves mem (membcpySized mem dest src n u) dest src n ↔
      ∀ t, LeftDown u n t → mem (dest + t) = mem (src + t) := by
  obtain ⟨k, hk⟩ : ∃ k, k = (n - 1) / u := ⟨_, rfl⟩
  have hle : k * u ≤ n - 1 := hk ▸ Nat.div_mul_le_self (n - 1) u
  have hmany : u < n → u ≤ k * u := fun hun => by
    have hpos : 0 < k := hk ▸ Nat.div_pos (by omega) hu
    exact Nat.le_mul_of_pos_left u hpos
  have hfew : n ≤ u → k * u = 0 := fun hnu => by
    rw [hk, Nat.div_eq_zero_iff.mpr (Or.inr (by omega)), Nat.zero_mul]
  have hend : ∀ p, p + n = p + (n - k * u) + k * u := fun p => by omega
  have hcopy := copy_moves_iff mem dest src n (n - k * u + u) (k * u)
  rw [membcpySized, ← hk, hend dest, hend src, copyDown_eq (Nat.add_le_add_right h _),
    Nat.add_assoc, Nat.add_assoc]
  refine hcopy.trans (forall_congr' fun t => imp_congr_left ?_)
  unfold LeftDown
  rw [← hk]
  omega

theorem memcpy_eq (w : Width) (h : Upwards dest src n) (mem : Bytes) :
    memcpy mem dest src n w = mem.copy dest src n := by
  obtain ⟨l, hl⟩ : ∃ l, l = n / w.bytes * w.bytes := ⟨_, rfl⟩
  have hn : l + n % w.bytes = n := by rw [hl, Nat.mul_comm, Nat.div_add_mod]
  have hwords : Upwards dest src (n / w.bytes * w.bytes) := h.fewer (Nat.div_mul_le_self n w.bytes)
  have hrest : Upwards (dest + l) (src + l) (n % w.bytes * 1) := by
    unfold Upwards at h ⊢
    omega
  rw [memcpy, memcpyForward, copyUp_upwards hwords, ← hl]
  simp only []
  rw [copyUp_upwards hrest, Nat.mul_one, copy_copy_upwards (by rw [hn]; exact h), hn]

/-- `memcpy` copies everything where a copy upwards may; the copies by words of one size do so
exactly when the bytes that they leave out, or write beyond the end, are the same. `memmove64` is a
copy upwards. -/
theorem memcpy_moves_iff (mem : Bytes) (dest src n : ℕ) {u : ℕ} (hu : 0 < u) :
    (Upwards dest src n →
      (∀ w, Moves mem (memcpy mem dest src n w) dest src n) ∧
      (Moves mem (memcpySized mem dest src n u) dest src n ↔
        ∀ t, LeftUp u n t → mem (dest + t) = mem (src + t)) ∧
      (Moves mem (memmove64 mem dest src n) dest src n ↔
        ∀ t, LeftUp 8 n t → mem (dest + t) = mem (src + t))) ∧
    (Moves mem (memmoveSized mem dest src n u) dest src n ↔
      ∀ t, (if dest < src then LeftUp u n t else LeftDown u n t) →
        mem (dest + t) = mem (src + t)) := by
  refine ⟨fun h => ⟨fun w => ?_, memcpySized_moves_iff h, ?_⟩, ?_⟩
  · rw [memcpy_eq w h]
    exact copy_moves mem dest src n
  · rw [memmove64, ite_self]
    exact memcpySized_moves_iff h
  · unfold memmoveSized
    by_cases hlt : dest < src
    · simp only [if_pos hlt]
      exact memcpySized_moves_iff (Or.inl hlt.le)
    · simp only [if_neg hlt]
      exact membcpySized_moves_iff (not_lt.mp hlt) hu

/-- Three bytes moved down by two, by words of two bytes. -/
theorem memcpy_moves_iff_three :
    (Upwards 0 2 3 →
      (∀ w, Moves (fun i => UInt8.ofNat i) (memcpy (fun i => UInt8.ofNat i) 0 2 3 w) 0 2 3) ∧
      (Moves (fun i => UInt8.ofNat i) (memcpySized (fun i => UInt8.ofNat i) 0 2 3 2) 0 2 3 ↔
        ∀ t, LeftUp 2 3 t → UInt8.ofNat (0 + t) = UInt8.ofNat (2 + t)) ∧
      (Moves (fun i => UInt8.ofNat i) (memmove64 (fun i => UInt8.ofNat i) 0 2 3) 0 2 3 ↔
        ∀ t, LeftUp 8 3 t → UInt8.ofNat (0 + t) = UInt8.ofNat (2 + t))) ∧
    (Moves (fun i => UInt8.ofNat i) (memmoveSized (fun i => UInt8.ofNat i) 0 2 3 2) 0 2 3 ↔
      ∀ t, (if 0 < 2 then LeftUp 2 3 t else LeftDown 2 3 t) →
        UInt8.ofNat (0 + t) = UInt8.ofNat (2 + t)) :=
  memcpy_moves_iff (fun i => UInt8.ofNat i) 0 2 3 Nat.two_pos

end Carthage.MmUtils
