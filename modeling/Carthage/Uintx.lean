import Carthage.BitMap

/-!
# Unsigned integers of a given width

`uintx.c`: a number of `n` bits is kept in the low `n` bits of an array of bytes, bit `i` in bit
`i % 8` of byte `i / 8`. An access outside the array gives `none`. Widths are far below `2 ^ 64`,
so that no count of bits wraps around.
-/

namespace Carthage

/-- `!!v << (n & 7)` in a byte. -/
def bitVmask (n v : ℕ) : UInt8 := if v ≠ 0 then bitMask n else 0

/-- Clear bit `n`, then set it when `v` is not zero. -/
def Bytes.vsetBit (map : Bytes) (n v : ℕ) : Bytes := fun k =>
  if k = n / 8 then (map k &&& ~~~ bitMask n) ||| bitVmask n v else map k

/-- An array of bytes in memory. -/
structure Storage where
  addr : ℕ
  size : ℕ

namespace Storage

variable (x : Storage) (mem : Bytes) (i : ℕ)

/-- Bit `i` of the array is this bit of the memory. -/
def bitAddr : ℕ := 8 * x.addr + i

/-- `__bit_test`. -/
def bit : Option Bool := if i / 8 < x.size then some (mem.testBit (x.bitAddr i)) else none

/-- `__bit_vset`. -/
def vset (v : ℕ) : Option Bytes :=
  if i / 8 < x.size then some (mem.vsetBit (x.bitAddr i) v) else none

/-- `__bit_set`. -/
def set : Option Bytes := if i / 8 < x.size then some (mem.setBit (x.bitAddr i)) else none

/-- `*(x + i)`. -/
def byte : Option UInt8 := if i < x.size then some (mem (x.addr + i)) else none

def store (v : UInt8) : Option Bytes :=
  if i < x.size then some (Function.update mem (x.addr + i) v) else none

/-- `memset(x, 0, n)`. -/
def clear (n : ℕ) : Option Bytes :=
  if n ≤ x.size then some (mem.write x.addr (List.replicate n 0)) else none

end Storage

/-- `__uintx_nbytes`. -/
def uintxNbytes (bits : ℕ) : ℕ := (bits + 7) / 8

def uintxFromU64Loop (x : Storage) : ℕ → Bytes → ℕ → ℕ → Option Bytes
  | 0, _, _, _ => none
  | fuel + 1, mem, bit, value =>
      if value ≠ 0 then do
        let mem ← x.vset mem bit (value % 2)
        uintxFromU64Loop x fuel mem (bit + 1) (value / 2)
      else some mem

def uintxFromU64 (mem : Bytes) (x : Storage) (n : ℕ) (value : UInt64) : Option Bytes := do
  let mem ← x.clear mem (uintxNbytes n)
  uintxFromU64Loop x 65 mem 0 value.toNat

/-- The `k` bytes from byte `p` on, up to the last byte, which is not looked at. -/
def uintxIsZeroLoop (x : Storage) (mem : Bytes) : ℕ → ℕ → Option ℤ
  | 0, _ => some 1
  | k + 1, p => do
      if (← x.byte mem p) ≠ 0 then return 0
      uintxIsZeroLoop x mem k (p + 1)

def uintxIsZero (mem : Bytes) (x : Storage) (n : ℕ) : Option ℤ :=
  uintxIsZeroLoop x mem (uintxNbytes n - 1) 0

/-! ## Increment and decrement -/

def uintxIncLoop (x : Storage) (nbytes : ℕ) : ℕ → Bytes → ℕ → Option (Bytes × ℕ)
  | 0, _, _ => none
  | fuel + 1, mem, p => do
      let v ← x.byte mem p
      let mem ← x.store mem p (v + 1)
      if v + 1 = 0 ∧ p + 1 < nbytes then uintxIncLoop x nbytes fuel mem (p + 1)
      else some (mem, p)

def uintxDecLoop (x : Storage) (nbytes : ℕ) : ℕ → Bytes → ℕ → Option (Bytes × ℕ)
  | 0, _, _ => none
  | fuel + 1, mem, p => do
      let v ← x.byte mem p
      let mem ← x.store mem p (v - 1)
      if v = 0 ∧ p + 1 < nbytes then uintxDecLoop x nbytes fuel mem (p + 1)
      else some (mem, p)

/-- `p == pe && *p == 0`, where `pe` is the last byte. -/
def uintxOverflow (x : Storage) (nbytes : ℕ) (mem : Bytes) (p : ℕ) : Option ℤ :=
  if p + 1 = nbytes then do
    let v ← x.byte mem p
    return if v = 0 then 1 else 0
  else some 0

def uintxInc (mem : Bytes) (x : Storage) (n : ℕ) : Option (Bytes × ℤ) := do
  let (mem, p) ← uintxIncLoop x (uintxNbytes n) (uintxNbytes n + 1) mem 0
  return (mem, ← uintxOverflow x (uintxNbytes n) mem p)

def uintxDec (mem : Bytes) (x : Storage) (n : ℕ) : Option (Bytes × ℤ) := do
  let (mem, p) ← uintxDecLoop x (uintxNbytes n) (uintxNbytes n + 1) mem 0
  return (mem, ← uintxOverflow x (uintxNbytes n) mem p)

/-! ## Addition -/

/-- A loop of `uintx_add`, for `n` bits from bit `i` on. What it adds to the carry is `digit`. -/
def uintxAddLoop (a : Storage) (digit : Bytes → ℕ → Option ℕ) :
    ℕ → Bytes → ℕ → ℕ → Option (Bytes × ℕ × ℕ)
  | 0, mem, i, carry => some (mem, i, carry)
  | n + 1, mem, i, carry => do
      let d := (← digit mem i) + carry
      let mem ← a.vset mem i (d % 2)
      uintxAddLoop a digit n mem (i + 1) (d / 2)

def uintxAdd (mem : Bytes) (a : Storage) (an : ℕ) (b : Storage) (bn : ℕ) : Option Bytes := do
  let bitOf (x : Storage) (mem : Bytes) (i : ℕ) : Option ℕ := (x.bit mem i).map Bool.toNat
  let both (mem : Bytes) (i : ℕ) : Option ℕ := return (← bitOf a mem i) + (← bitOf b mem i)
  let (mem, i, carry) ← uintxAddLoop a both (min an bn) mem 0 0
  let (mem, i, carry) ← uintxAddLoop a (bitOf a) (an - i) mem i carry
  let (mem, i, carry) ← uintxAddLoop a (bitOf b) (bn - i) mem i carry
  if carry ≠ 0 then a.set mem i else some mem

/-! ## Logic -/

/-- The loop of `uintx_and`, `uintx_xor` and `uintx_or`, for `n` bits from bit `i` on. -/
def uintxLogicLoop (op : Bool → Bool → Bool) (a b : Storage) : ℕ → Bytes → ℕ → Option Bytes
  | 0, mem, _ => some mem
  | n + 1, mem, i => do
      let v := op (← a.bit mem i) (← b.bit mem i)
      let mem ← a.vset mem i v.toNat
      uintxLogicLoop op a b n mem (i + 1)

def uintxAnd (mem : Bytes) (a : Storage) (an : ℕ) (b : Storage) (bn : ℕ) : Option Bytes :=
  uintxLogicLoop and a b (min an bn) mem 0

def uintxXor (mem : Bytes) (a : Storage) (an : ℕ) (b : Storage) (bn : ℕ) : Option Bytes :=
  uintxLogicLoop xor a b (min an bn) mem 0

def uintxOr (mem : Bytes) (a : Storage) (an : ℕ) (b : Storage) (bn : ℕ) : Option Bytes :=
  uintxLogicLoop or a b (min an bn) mem 0

/-! ## Comparison -/

/-- The first `d` bits to look at for excess, by bytes from byte `p` down: whether one is set, or
how many are left to look at. -/
def uintxExcessBytes (x : Storage) (mem : Bytes) : ℕ → ℕ → Option (Bool × ℕ)
  | d + 8, p => do
      if (← x.byte mem p) ≠ 0 then return (true, d + 8)
      uintxExcessBytes x mem d (p - 1)
  | d, _ => some (false, d)

/-- Whether one of the `d` bits from bit `m` on is set. -/
def uintxExcessBits (x : Storage) (mem : Bytes) (m : ℕ) : ℕ → Option Bool
  | 0 => some false
  | d + 1 => do
      if ← x.bit mem (m + d) then return true
      uintxExcessBits x mem m d

/-- The bits from `m` on of the longer operand, which has `n`. -/
def uintxExcess (x : Storage) (mem : Bytes) (m n : ℕ) : Option Bool := do
  let (found, d) ← uintxExcessBytes x mem (n - m) (uintxNbytes n - 1)
  if found then return true
  uintxExcessBits x mem m d

/-- Skip equal bytes, from byte `p` down; the number of bits left. -/
def uintxEqualBytes (mem : Bytes) (a b : Storage) : ℕ → ℕ → Option ℕ
  | n + 8, p => do
      if (← a.byte mem p) ≠ (← b.byte mem p) then return n + 8
      uintxEqualBytes mem a b n (p - 1)
  | n, _ => some n

def uintxCompareBits (mem : Bytes) (a b : Storage) : ℕ → Option ℤ
  | 0 => some 0
  | n + 1 => do
      let v ← a.bit mem n
      if v ≠ (← b.bit mem n) then return if v then 1 else -1
      uintxCompareBits mem a b n

def uintxCompare (mem : Bytes) (a : Storage) (an : ℕ) (b : Storage) (bn : ℕ) : Option ℤ := do
  let greater ← if bn < an then uintxExcess a mem bn an else some false
  if greater then return 1
  let less ← if an < bn then uintxExcess b mem an bn else some false
  if less then return -1
  let n ← uintxEqualBytes mem a b (min an bn) (uintxNbytes (min an bn) - 1)
  uintxCompareBits mem a b n

/-! ## Numbers of 64 bits -/

section U64

variable {R : Type} (op : Bytes → Storage → ℕ → Storage → ℕ → Option R) (stack : ℕ) (mem : Bytes)
  (x : Storage) (n : ℕ) (value : UInt64)

/-- An operation with the number in the local array `x64`, which is at address `stack`. -/
def withU64 : Option R := do
  let mem ← uintxFromU64 mem ⟨stack, 8⟩ 64 value
  op mem x n ⟨stack, 8⟩ 64

def uintxAdd64 : Option Bytes := withU64 uintxAdd stack mem x n value

def uintxAnd64 : Option Bytes := withU64 uintxAnd stack mem x n value

def uintxXor64 : Option Bytes := withU64 uintxXor stack mem x n value

def uintxOr64 : Option Bytes := withU64 uintxOr stack mem x n value

def uintxCompare64 : Option ℤ := withU64 uintxCompare stack mem x n value

end U64

end Carthage
