import Carthage.Strbuf
import Mathlib.Data.Vector.Defs

/-!
# Sorting in place

`sort.c`: heapsort of an array of objects, by their byte offsets, with a given comparison and
exchange, and the same with `memcmp` and an exchange by words. Offsets are unsigned 64-bit
numbers, and the index of both phases is a signed one. A result `none` is an access outside
the array, or a loop that does not end.
-/

namespace Carthage

/-- The object of `size` bytes at an offset. -/
def Bytes.object (mem : Bytes) (size off : ℕ) : List.Vector UInt8 size :=
  ⟨mem.read off size, Bytes.length_read⟩

/-- A conversion to `long`. -/
def toLong (x : ℤ) : ℤ := x.bmod (2 ^ 64)

section Objects

variable {size : ℕ} (cmp : List.Vector UInt8 size → List.Vector UInt8 size → ℤ)
  (swp : Bytes → ℕ → ℕ → ℕ → Bytes) (total : ℕ)

/-- `cmp_func` on two objects of an array of `total` bytes. -/
def cmpFunc (mem : Bytes) (a b : ℕ) : Option ℤ :=
  if a + size ≤ total ∧ b + size ≤ total then some (cmp (mem.object size a) (mem.object size b))
  else none

/-- `swp_func` on two objects. -/
def swpFunc (size : ℕ) (mem : Bytes) (a b : ℕ) : Option Bytes :=
  if a + size ≤ total ∧ b + size ≤ total then some (swp mem a b size) else none

/-- The child to compare with, when the left one is at `c`. -/
def sortChild (n : ℕ) (mem : Bytes) (c : ℕ) : Option ℕ :=
  if c < sub64 n size then do
    let order ← cmpFunc cmp total mem c (add64 c size)
    return if order < 0 then add64 c size else c
  else some c

/-- The inner loop of both phases, for the objects before offset `n`. -/
def sortSift (n : ℕ) : ℕ → ℕ → Bytes → Option Bytes
  | 0, _, _ => none
  | fuel + 1, r, mem =>
      if add64 (2 * r % 2 ^ 64) size < n then do
        let c ← sortChild cmp total n mem (add64 (2 * r % 2 ^ 64) size)
        let order ← cmpFunc cmp total mem r c
        if order ≥ 0 then return mem
        let mem ← swpFunc swp total size mem r c
        sortSift n fuel c mem
      else some mem

/-- The loop that makes the array a heap. -/
def sortHeapify (nitems : ℕ) : ℕ → ℤ → Bytes → Option Bytes
  | 0, _, _ => none
  | fuel + 1, i, mem =>
      if 0 ≤ i then do
        let mem ← sortSift cmp swp total (nitems * size % 2 ^ 64) (nitems + 1) i.toNat mem
        sortHeapify nitems fuel (toLong (i - size)) mem
      else some mem

/-- The loop that moves the root behind the heap. -/
def sortEmpty (nitems : ℕ) : ℕ → ℤ → Bytes → Option Bytes
  | 0, _, _ => none
  | fuel + 1, i, mem =>
      if 0 < i then do
        let mem ← swpFunc swp total size mem 0 i.toNat
        let mem ← sortSift cmp swp total i.toNat (nitems + 1) 0 mem
        sortEmpty nitems fuel (toLong (i - size)) mem
      else some mem

def sort (mem : Bytes) (nitems : ℕ) : Option Bytes := do
  let total := nitems * size
  let n := nitems * size % 2 ^ 64
  let i := toLong (sub64 (nitems / 2) 1 * size : ℕ)
  let mem ← sortHeapify cmp swp total nitems (nitems + 1) i mem
  sortEmpty cmp swp total nitems (nitems + 1) (toLong (sub64 n size)) mem

end Objects

/-! ## Bytes -/

/-- The loop of `__memswap` over words; what it leaves to swap. -/
def memswapWords : ℕ → Bytes → ℕ → ℕ → ℕ × Bytes × ℕ × ℕ
  | n + 8, mem, a, b =>
      memswapWords n ((mem.write a (mem.read b 8)).write b (mem.read a 8)) (a + 8) (b + 8)
  | n, mem, a, b => (n, mem, a, b)

def memswapBytes : ℕ → Bytes → ℕ → ℕ → Bytes
  | 0, mem, _, _ => mem
  | n + 1, mem, a, b =>
      memswapBytes n (Function.update (Function.update mem a (mem b)) b (mem a)) (a + 1) (b + 1)

def memswap (mem : Bytes) (a b n : ℕ) : Bytes :=
  let (n, mem, a, b) := memswapWords n mem a b
  memswapBytes n mem a b

section Mmsort

variable (total size : ℕ)

def mmsortCmp (mem : Bytes) (a b : ℕ) : Option ℤ :=
  if a + size ≤ total ∧ b + size ≤ total then some (memcmp (mem.read a size) (mem.read b size))
  else none

def mmsortSwap (mem : Bytes) (a b : ℕ) : Option Bytes :=
  if a + size ≤ total ∧ b + size ≤ total then some (memswap mem a b size) else none

/-- The inner loop of `mmsort`, for the objects before offset `n`. -/
def mmsortSift (n : ℕ) : ℕ → ℕ → Bytes → Option Bytes
  | 0, _, _ => none
  | fuel + 1, r, mem =>
      let c := add64 (2 * r % 2 ^ 64) size
      if c < n then do
        let right ← if c < sub64 n size then
            (mmsortCmp total size mem c (add64 c size)).map fun order => decide (order < 0)
          else some false
        let c := if right then add64 c size else c
        let order ← mmsortCmp total size mem r c
        if order ≥ 0 then return mem
        let mem ← mmsortSwap total size mem r c
        mmsortSift n fuel c mem
      else some mem

def mmsortHeapify (nitems : ℕ) : ℕ → ℤ → Bytes → Option Bytes
  | 0, _, _ => none
  | fuel + 1, i, mem =>
      if 0 ≤ i then do
        let mem ← mmsortSift total size (nitems * size % 2 ^ 64) (nitems + 1) i.toNat mem
        mmsortHeapify nitems fuel (toLong (i - size)) mem
      else some mem

def mmsortEmpty (nitems : ℕ) : ℕ → ℤ → Bytes → Option Bytes
  | 0, _, _ => none
  | fuel + 1, i, mem =>
      if 0 < i then do
        let mem ← mmsortSwap total size mem 0 i.toNat
        let mem ← mmsortSift total size i.toNat (nitems + 1) 0 mem
        mmsortEmpty nitems fuel (toLong (i - size)) mem
      else some mem

def mmsort (mem : Bytes) (nitems size : ℕ) : Option Bytes := do
  let total := nitems * size
  let n := nitems * size % 2 ^ 64
  let i := toLong (sub64 (nitems / 2) 1 * size : ℕ)
  let mem ← mmsortHeapify total size nitems (nitems + 1) i mem
  mmsortEmpty total size nitems (nitems + 1) (toLong (sub64 n size)) mem

end Mmsort

end Carthage
