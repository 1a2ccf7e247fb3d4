import Carthage.BlockBytes
import Carthage.Runs

/-!
# String buffers

`strbuf.c`: a block of bytes with a capacity and a length, edited in place and grown by
reallocation. Sources are given by the bytes that the copy delivers. A result `none` is a
copy outside the block, or an access through a null pointer or to a block that has been given
back. Terminators are stored without such a check; whether one fell outside the block is
recorded.
-/

namespace Carthage

structure Strbuf where
  blob : Option Bytes
  blksz : ℕ
  size : ℕ
  /-- Number of reallocations asked for so far. -/
  requests : ℕ
  /-- Some terminator was stored at an index of `blksz` or more. -/
  overrun : Bool
  /-- Without a block: the pointer is not null, but to a block that has been given back. -/
  freed : Bool

/-- The rounding of sizes in `__strbuf_realloc`. -/
def strbufCapacity (size : ℕ) : ℕ :=
  if size < 32 then alignUp size 8
  else if size < 128 then alignUp size 16
  else if size < 512 then alignUp size 64
  else alignUp size 1024

/-- `isspace` in the C locale. -/
def isSpace (b : UInt8) : Bool := b = 32 ∨ 9 ≤ b ∧ b ≤ 13

namespace Strbuf

variable (env : Allocator) (s : Strbuf)

/-- `realloc` to `n` bytes, with the result code of the caller. -/
def resize (n : ℕ) : Option (ℤ × Strbuf) :=
  if s.blob.isNone ∧ s.freed then none
  -- `realloc` of a block to no bytes is `free`, and gives a null pointer
  else if s.blob.isSome ∧ n = 0 then
    some (-1, { s with blob := none, freed := true, requests := s.requests + 1 })
  else if env.granted s.requests then
    let old := s.blob.getD (env.uninit s.requests)
    some (0, { s with
      blob := some fun i => if i < min s.blksz n then old i else env.uninit s.requests i,
      blksz := n, requests := s.requests + 1 })
  else some (-1, { s with requests := s.requests + 1 })

/-- Grow the block when `n` bytes do not fit. -/
def reserve (n : ℕ) : Option (ℤ × Strbuf) :=
  if n > s.blksz then s.resize env (strbufCapacity n) else some (0, s)

/-- `memcpy` into the block. -/
def store (dst : ℕ) (bytes : List UInt8) : Option Strbuf :=
  if bytes.length = 0 then some s
  else do
    let mem ← (← s.blob).memcpy 0 s.blksz dst bytes
    return { s with blob := some mem }

/-- `memmove` within the block. -/
def move (dst src n : ℕ) : Option Strbuf :=
  if n = 0 then some s
  else do
    let mem ← (← s.blob).memmove 0 s.blksz dst src n
    return { s with blob := some mem }

/-- Store the terminator at the length `n`, and set the length. -/
def terminate (n : ℕ) : Option Strbuf := do
  let mem ← s.blob
  return { s with
    blob := some (Function.update mem n 0), size := n, overrun := s.overrun || s.blksz ≤ n }

end Strbuf

def strbufAlloc : Strbuf := ⟨none, 0, 0, 0, false, false⟩

variable (env : Allocator)

def strbufMmsqueeze (s : Strbuf) : Option (ℤ × Strbuf) := s.resize env s.size

def strbufMmreserve (s : Strbuf) (n : ℕ) : Option (ℤ × Strbuf) := s.reserve env n

def strbufSet (s : Strbuf) (blob : List UInt8) : Option (ℤ × Strbuf) := do
  let (rc, s) ← s.reserve env blob.length
  if rc ≠ 0 then return (-1, s)
  let s ← s.store 0 blob
  let s ← s.terminate blob.length
  return (0, s)

def strbufAppend (s : Strbuf) (blob : List UInt8) : Option (ℤ × Strbuf) := do
  let size := add64 s.size blob.length
  let (rc, s) ← s.reserve env size
  if rc ≠ 0 then return (-1, s)
  let s ← s.store s.size blob
  let s ← s.terminate size
  return (0, s)

def strbufPrepend (s : Strbuf) (blob : List UInt8) : Option (ℤ × Strbuf) := do
  let size := add64 s.size blob.length
  let (rc, s) ← s.reserve env size
  if rc ≠ 0 then return (-1, s)
  let s ← s.move blob.length 0 s.size
  let s ← s.store 0 blob
  let s ← s.terminate size
  return (0, s)

def strbufInsert (s : Strbuf) (index : ℕ) (blob : List UInt8) : Option (ℤ × Strbuf) := do
  let size := add64 s.size blob.length
  let size := if index > s.size then add64 size (index - s.size) else size
  let (rc, s) ← s.reserve env size
  if rc ≠ 0 then return (-1, s)
  let s ← if index > s.size then do
      let s ← s.store s.size (List.replicate (index - s.size) 32)
      s.store index blob
    else do
      let s ← s.move (index + blob.length) index (s.size - index)
      s.store index blob
  let s ← s.terminate size
  return (0, s)

def strbufTruncate (s : Strbuf) (n : ℕ) : Option (ℤ × Strbuf) :=
  if n ≥ s.size then some (-1, s)
  else do
    let s ← s.terminate n
    return (0, s)

def strbufRemove (s : Strbuf) (index n : ℕ) : Option (ℤ × Strbuf) :=
  if index ≥ s.size ∨ n = 0 then some (-1, s)
  else if add64 index n ≥ s.size then do
    let s ← s.terminate index
    return (0, s)
  else do
    let s ← s.move index (add64 index n) (sub64 (sub64 s.size index) n)
    let s ← s.terminate (sub64 s.size n)
    return (0, s)

/-- What is removed is as long as the replacement, whatever `size` is. -/
def strbufReplace (s : Strbuf) (index size : ℕ) (blob : List UInt8) : Option (ℤ × Strbuf) :=
  if size = blob.length ∧ add64 index blob.length ≤ s.size then do
    let s ← s.store index blob
    return (0, s)
  else do
    let (_, s) ← strbufRemove s index blob.length
    let (rc, s) ← strbufInsert env s index blob
    return (if rc ≠ 0 then -3 else 0, s)

/-- The first index from `start` on that holds no space, at most `size`. -/
def ltrimLoop (mem : Bytes) (size : ℕ) : ℕ → ℕ → ℕ
  | 0, start => start
  | fuel + 1, start =>
      if isSpace (mem start) ∧ start < size then ltrimLoop mem size fuel (start + 1) else start

def strbufLtrim (s : Strbuf) : Option (ℤ × Strbuf) := do
  let mem ← s.blob
  let start := ltrimLoop mem s.size (s.size + 1) 0
  if start > 0 then
    let s ← s.move 0 start (s.size - start)
    let s ← s.terminate (s.size - start)
    return (0, s)
  else return (0, s)

def rtrimLoop (mem : Bytes) : ℕ → ℕ
  | 0 => 0
  | n + 1 => if isSpace (mem n) then rtrimLoop mem n else n + 1

def strbufRtrim (s : Strbuf) : Option (ℤ × Strbuf) := do
  let mem ← s.blob
  let s ← s.terminate (rtrimLoop mem s.size)
  return (0, s)

def strbufTrim (s : Strbuf) : Option (ℤ × Strbuf) := do
  let (_, s) ← strbufRtrim s
  let (_, s) ← strbufLtrim s
  return (0, s)

/-- `memcmp` on the length of the shorter: the difference of the first bytes that differ. -/
def memcmp : List UInt8 → List UInt8 → ℤ
  | a :: as, b :: bs => if a = b then memcmp as bs else (a.toNat : ℤ) - b.toNat
  | _, _ => 0

/-- The first `n` bytes, for `memcmp`. -/
def Strbuf.firstBytes (s : Strbuf) (n : ℕ) : Option (List UInt8) :=
  if n = 0 then some []
  else do
    let mem ← s.blob
    if n ≤ s.blksz then some (mem.read 0 n) else none

def strbufEqual (s : Strbuf) (blob : List UInt8) : Option ℤ :=
  if s.size ≠ blob.length then some 0
  else do
    let bytes ← s.firstBytes blob.length
    return if memcmp bytes blob = 0 then 1 else 0

def strbufCompare (s : Strbuf) (blob : List UInt8) : Option ℤ := do
  let n := if s.size < blob.length then s.size else blob.length
  let bytes ← s.firstBytes n
  return memcmp bytes (blob.take n)

inductive StrbufOp
  | set (blob : List UInt8)
  | append (blob : List UInt8)
  | prepend (blob : List UInt8)
  | insert (index : ℕ) (blob : List UInt8)
  | replace (index size : ℕ) (blob : List UInt8)
  | truncate (n : ℕ)
  | remove (index n : ℕ)
  | ltrim
  | rtrim
  | trim
  | mmreserve (n : ℕ)
  | mmsqueeze

def strbufStep (s : Strbuf) : StrbufOp → Option (ℤ × Strbuf)
  | .set blob => strbufSet env s blob
  | .append blob => strbufAppend env s blob
  | .prepend blob => strbufPrepend env s blob
  | .insert index blob => strbufInsert env s index blob
  | .replace index size blob => strbufReplace env s index size blob
  | .truncate n => strbufTruncate s n
  | .remove index n => strbufRemove s index n
  | .ltrim => strbufLtrim s
  | .rtrim => strbufRtrim s
  | .trim => strbufTrim s
  | .mmreserve n => strbufMmreserve env s n
  | .mmsqueeze => strbufMmsqueeze env s

end Carthage
