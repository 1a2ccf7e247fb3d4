import Mathlib.Data.List.Basic
import Mathlib.Tactic

/-!
# Bytes of a block

Copies within a block of memory, restricted to a window `[lo, hi)` of it, and what a read
of some range sees after them. Unsigned sums and differences are here as well.
-/

namespace Carthage

def add32 (a b : ℕ) : ℕ := (a + b) % 2 ^ 32

def sub32 (a b : ℕ) : ℕ := (a + 2 ^ 32 - b % 2 ^ 32) % 2 ^ 32

def add64 (a b : ℕ) : ℕ := if a + b < 2 ^ 64 then a + b else a + b - 2 ^ 64

def sub64 (a b : ℕ) : ℕ := if b ≤ a then a - b else a + 2 ^ 64 - b

theorem add32_eq {a b : ℕ} (h : a + b < 2 ^ 32) : add32 a b = a + b := Nat.mod_eq_of_lt h

theorem add64_eq {a b : ℕ} (h : a + b < 2 ^ 64) : add64 a b = a + b := if_pos h

theorem sub64_eq {a b : ℕ} (h : b ≤ a) : sub64 a b = a - b := if_pos h

theorem add64_mod {b : ℕ} (h : b < 2 ^ 64) (a : ℕ) : add64 (a % 2 ^ 64) b = (a + b) % 2 ^ 64 := by
  unfold add64
  split_ifs <;> omega

theorem sub64_mod {b : ℕ} (h : b < 2 ^ 64) (a : ℕ) : sub64 ((a + b) % 2 ^ 64) b = a % 2 ^ 64 := by
  unfold sub64
  split_ifs <;> omega

theorem sub32_eq {a b : ℕ} (ha : a < 2 ^ 32) (h : b ≤ a) : sub32 a b = a - b := by
  have hb : b % 2 ^ 32 = b := Nat.mod_eq_of_lt (by omega)
  rw [sub32, hb]
  omega

/-- `__align_up` for a power of two. -/
def alignUp (x align : ℕ) : ℕ := add64 x (align - 1) - add64 x (align - 1) % align

abbrev Bytes := ℕ → UInt8

/-- `granted n` is the outcome of the `n`-th request for memory, `uninit n` what the memory
holds that it delivers. -/
structure Allocator where
  granted : ℕ → Bool
  uninit : ℕ → Bytes

namespace Bytes

/-- The bytes `[src, src + n)` copied to `dst`; the ranges may overlap. -/
def copy (mem : Bytes) (dst src n : ℕ) : Bytes := fun i =>
  if dst ≤ i ∧ i < dst + n then mem (i - dst + src) else mem i

def write (mem : Bytes) (dst : ℕ) (value : List UInt8) : Bytes := fun i =>
  if dst ≤ i then value.getD (i - dst) (mem i) else mem i

def read (mem : Bytes) (off n : ℕ) : List UInt8 := (List.range n).map (fun i => mem (off + i))

/-- A copy between `lo` and `hi`; a copy of no bytes touches nothing. -/
def memmove (lo hi : ℕ) (mem : Bytes) (dst src n : ℕ) : Option Bytes :=
  if n = 0 then some mem
  else if lo ≤ src ∧ src + n ≤ hi ∧ lo ≤ dst ∧ dst + n ≤ hi then some (mem.copy dst src n)
  else none

def memcpy (lo hi : ℕ) (mem : Bytes) (dst : ℕ) (value : List UInt8) : Option Bytes :=
  if value.length = 0 then some mem
  else if lo ≤ dst ∧ dst + value.length ≤ hi then some (mem.write dst value)
  else none

variable {mem : Bytes} {dst src off n m : ℕ} {value : List UInt8} {lo hi : ℕ}

@[simp] theorem length_read : (mem.read off n).length = n := by simp [read]

theorem read_min : mem.read off (min m n) = (mem.read off n).take m := by
  simp only [read, ← List.map_take, List.take_range]

theorem read_add : mem.read off (m + n) = mem.read off m ++ mem.read (off + m) n := by
  unfold read
  rw [List.range_add, List.map_append, List.map_map]
  congr 2
  funext i
  rw [Function.comp_apply, Nat.add_assoc]

theorem read_take (h : m ≤ n) : (mem.read off n).take m = mem.read off m := by
  rw [← read_min, min_eq_left h]

theorem read_drop : (mem.read off n).drop m = mem.read (off + m) (n - m) := by
  rcases Nat.le_total m n with h | h
  · obtain ⟨k, rfl⟩ := Nat.exists_eq_add_of_le h
    rw [read_add, List.drop_left' length_read, Nat.add_sub_cancel_left]
  · rw [List.drop_of_length_le (by rw [length_read]; exact h), Nat.sub_eq_zero_of_le h]
    rfl

theorem read_congr {mem' : Bytes} (h : ∀ i < n, mem' (off + i) = mem (off + i)) :
    mem'.read off n = mem.read off n := by
  simp only [read]
  exact List.map_congr_left fun i hi => h i (List.mem_range.mp hi)

theorem read_copy_inside (h1 : dst ≤ off) (h2 : off + n ≤ dst + m) :
    (mem.copy dst src m).read off n = mem.read (off - dst + src) n := by
  simp only [read]
  refine List.map_congr_left fun i hi => ?_
  have hin : i < n := List.mem_range.mp hi
  rw [copy, if_pos ⟨by omega, by omega⟩]
  congr 1
  omega

theorem read_copy_outside (h : off + n ≤ dst ∨ dst + m ≤ off) :
    (mem.copy dst src m).read off n = mem.read off n := by
  refine read_congr fun i hi => ?_
  rw [copy, if_neg (by omega)]

theorem read_write_self (mem : Bytes) (dst : ℕ) (value : List UInt8) :
    (mem.write dst value).read dst value.length = value := by
  apply List.ext_getElem
  · simp
  · intro i h1 h2
    simp [read, write, List.getD_eq_getElem?_getD, List.getElem?_eq_getElem h2]

theorem read_write_outside (h : off + n ≤ dst ∨ dst + value.length ≤ off) :
    (mem.write dst value).read off n = mem.read off n := by
  refine read_congr fun i hi => ?_
  rw [write]
  split_ifs with hd
  · have hlen : value.length ≤ off + i - dst := by omega
    rw [List.getD_eq_getElem?_getD, List.getElem?_eq_none hlen]
    rfl
  · rfl

theorem read_update (h : off + n ≤ m) (b : UInt8) :
    Bytes.read (Function.update mem m b) off n = mem.read off n := by
  apply read_congr
  intro i hi
  exact Function.update_of_ne (by omega) _ _

theorem write_nil (dst : ℕ) : mem.write dst [] = mem := by
  funext i
  simp [write]

theorem copy_zero (dst src : ℕ) : mem.copy dst src 0 = mem := by
  funext i
  rw [copy, if_neg (by omega)]

theorem write_of_lt {i : ℕ} (h : i < dst) : mem.write dst value i = mem i := by
  rw [write, if_neg (by omega)]

theorem write_of_ge {i : ℕ} (h : dst + value.length ≤ i) : mem.write dst value i = mem i := by
  rw [write, if_pos (by omega), List.getD_eq_getElem?_getD, List.getElem?_eq_none (by omega),
    Option.getD_none]

theorem write_read_self (mem : Bytes) (dst n : ℕ) : mem.write dst (mem.read dst n) = mem := by
  funext i
  by_cases h : dst ≤ i ∧ i < dst + n
  · obtain ⟨j, rfl⟩ := Nat.exists_eq_add_of_le h.1
    have hj : j < n := by omega
    rw [write, if_pos h.1, Nat.add_sub_cancel_left, List.getD_eq_getElem?_getD, read,
      List.getElem?_map, List.getElem?_range hj]
    rfl
  · by_cases hlt : i < dst
    · exact write_of_lt hlt
    · exact write_of_ge (by rw [length_read]; omega)

theorem memmove_eq (h : lo ≤ src ∧ src + n ≤ hi ∧ lo ≤ dst ∧ dst + n ≤ hi) :
    memmove lo hi mem dst src n = some (mem.copy dst src n) := by
  rw [memmove, if_pos h]
  split_ifs with hn
  · congr 1
    funext i
    rw [copy, if_neg (by omega)]
  · rfl

theorem memcpy_eq (h : lo ≤ dst ∧ dst + value.length ≤ hi) :
    memcpy lo hi mem dst value = some (mem.write dst value) := by
  rw [memcpy, if_pos h]
  split_ifs with hn
  · congr 1
    funext i
    rw [write, List.length_eq_zero_iff.mp hn]
    simp
  · rfl

end Bytes

end Carthage
