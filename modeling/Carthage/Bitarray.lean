import Carthage.UintxValue

/-!
# Arrays of bits

`bitarray.c`. The size of an array is the number of bytes of its map, of which there are far
fewer than `2 ^ 60`, so that an index never wraps around.
-/

namespace Carthage

structure Bitarray where
  map : Bytes
  size : ℕ

/-- `*p |= __BITMASK(n)`. -/
def orBitmask (b : UInt8) (n : ℕ) : UInt8 := b ||| bitMask n

/-- `*p &= ~__BITMASK(n)`. -/
def andNotBitmask (b : UInt8) (n : ℕ) : UInt8 := b &&& ~~~ bitMask n

section Change

variable (op : UInt8 → ℕ → UInt8)

/-- `bit_set` and `bit_clear`. -/
def changeBit (map : Bytes) (n : ℕ) : Bytes := Function.update map (n / 8) (op (map (n / 8)) n)

/-- `bit_test`. -/
def Bitarray.bit (array : Bitarray) (n : ℕ) : ℤ := ((array.map (n / 8) &&& bitMask n).toNat : ℤ)

def bitarrayChange (array : Bitarray) (n : ℕ) : ℤ × Bitarray :=
  (array.bit n, { array with map := changeBit op array.map n })

def changeByte (b : UInt8) (start : ℕ) : UInt8 :=
  op (op (op (op (op (op (op (op b start) (start + 1)) (start + 2)) (start + 3)) (start + 4))
    (start + 5)) (start + 6)) (start + 7)

/-- The loop over bytes; what it leaves of the range. -/
def changeBytes : ℕ → Bytes → ℕ → ℕ → Bytes × ℕ × ℕ
  | count + 8, map, p, start =>
      changeBytes count (Function.update map p (changeByte op (map p) start)) (p + 1) (start + 8)
  | count, map, _, start => (map, start, count)

def changeRest : ℕ → Bytes → ℕ → Bytes
  | 0, map, _ => map
  | count + 1, map, start => changeRest count (changeBit op map start) (start + 1)

def bitarrayChangeBits (array : Bitarray) (start count : ℕ) : Bitarray :=
  let (map, start, count) := changeBytes op count array.map (start / 8) start
  { array with map := changeRest op count map start }

end Change

def bitarraySet : Bitarray → ℕ → ℤ × Bitarray := bitarrayChange orBitmask

def bitarrayClear : Bitarray → ℕ → ℤ × Bitarray := bitarrayChange andNotBitmask

def bitarraySetBits : Bitarray → ℕ → ℕ → Bitarray := bitarrayChangeBits orBitmask

def bitarrayClearBits : Bitarray → ℕ → ℕ → Bitarray := bitarrayChangeBits andNotBitmask

/-- A loop of `bitarray_set` or `bitarray_clear` over `count` bits. -/
def bitarrayEach (step : Bitarray → ℕ → ℤ × Bitarray) : ℕ → Bitarray → ℕ → Bitarray
  | 0, array, _ => array
  | count + 1, array, start => bitarrayEach step count (step array start).2 (start + 1)

/-! ## Search -/

/-- `pattern[value]`, a plain `char` that is signed: `0xff` is negative. -/
def bitPattern (value : Bool) : ℤ := if value then 0 else -1

/-- The first of the `k` bits from bit `n` on that has the value. -/
def bitFindBits (map : Bytes) (value : Bool) : ℕ → ℕ → Option ℕ
  | 0, _ => none
  | k + 1, n => if map.testBit n = value then some n else bitFindBits map value k (n + 1)

section Search

variable (nbytes : ℕ) (map : Bytes) (value : Bool)

/-- Skip bytes like the pattern, `size` at most; the byte to look at. A read outside the `nbytes`
bytes of the map gives `none`. -/
def bitSkipBytes : ℕ → ℕ → Option (Option ℕ)
  | 0, _ => some none
  | size + 1, p =>
      if p < nbytes then
        if ((map p).toNat : ℤ) = bitPattern value then bitSkipBytes size (p + 1)
        else some (some p)
      else none

/-- The bytes that are left to scan from byte `p` on, with the size taken for a number of bits. -/
def bitBytesLeft (size p : ℕ) : ℕ :=
  let size := sub64 size (8 * p)
  size / 8 + if size % 8 > 0 then 1 else 0

def bitFindBytes (size p : ℕ) : Option ℤ := do
  if bitBytesLeft size p > 0 then
    match ← bitSkipBytes nbytes map value (bitBytesLeft size p) p with
    | none => return -1
    | some p => return ((bitFindBits map value 8 (8 * p)).map (Nat.cast : ℕ → ℤ)).getD (-1)
  else return -1

/-- `__bit_find_first`, on a map of `nbytes` bytes. -/
def bitFindFirst (size offset : ℕ) : Option ℤ :=
  let p := offset / 8
  if offset % 8 ≠ 0 then
    if p < nbytes then
      match bitFindBits map value (8 - offset % 8) offset with
      | some n => some (n : ℤ)
      | none => bitFindBytes nbytes map value size (p + 1)
    else none
  else bitFindBytes nbytes map value size p

end Search

def bitarrayFindSet (nbytes : ℕ) (array : Bitarray) (offset : ℕ) : Option ℤ :=
  bitFindFirst nbytes array.map true array.size offset

def bitarrayFindZero (nbytes : ℕ) (array : Bitarray) (offset : ℕ) : Option ℤ :=
  bitFindFirst nbytes array.map false array.size offset

/-! ## Bits of a byte that changes -/

variable {op : UInt8 → ℕ → UInt8} {v : Bool} {map : Bytes} {n p j : ℕ} {b : UInt8}

theorem Bytes.testBit_update (map : Bytes) (p : ℕ) (b : UInt8) (n : ℕ) :
    Bytes.testBit (Function.update map p b) n =
      if n / 8 = p then b.toNat.testBit (n % 8) else map.testBit n := by
  rw [Bytes.testBit_eq]
  split_ifs with hbyte
  · rw [hbyte, Function.update_self]
  · rw [Function.update_of_ne hbyte, ← Bytes.testBit_eq]

def Turns (op : UInt8 → ℕ → UInt8) (v : Bool) : Prop :=
  ∀ b n, ∀ j < 8, (op b n).toNat.testBit j = if j = n % 8 then v else b.toNat.testBit j

theorem orBitmask_turns : Turns orBitmask true := by
  intro b n j _
  unfold orBitmask
  rw [UInt8.toNat_or, Bytes.toNat_bitMask, Nat.testBit_or, Nat.testBit_two_pow]
  by_cases hj : n % 8 = j
  · simp [hj]
  · simp [hj, Ne.symm hj]

theorem andNotBitmask_turns : Turns andNotBitmask false := by
  intro b n j hj
  unfold andNotBitmask
  rw [UInt8.toNat_and, Nat.testBit_and, Bytes.testBit_not_bitMask hj]
  by_cases hjn : j = n % 8 <;> simp [hjn]

theorem Turns.changeByte (h : Turns op v) (b : UInt8) (start : ℕ) {j : ℕ} (hj : j < 8) :
    (changeByte op b start).toNat.testBit j = v := by
  unfold Carthage.changeByte
  simp only [h _ _ j hj]
  split_ifs <;> first | rfl | omega

theorem Turns.testBit_change (h : Turns op v) (map : Bytes) (n m : ℕ) :
    (changeBit op map n).testBit m = if m = n then v else map.testBit m := by
  have hm : m % 8 < 8 := Nat.mod_lt m (by norm_num)
  unfold changeBit
  rw [Bytes.testBit_update, h _ _ _ hm]
  by_cases hbyte : m / 8 = n / 8
  · have hiff : m = n ↔ m % 8 = n % 8 := by omega
    rw [if_pos hbyte, ← hbyte, ← Bytes.testBit_eq]
    simp only [hiff]
  · have hne : m ≠ n := fun heq => hbyte (congrArg (· / 8) heq)
    rw [if_neg hbyte, if_neg hne]

end Carthage
