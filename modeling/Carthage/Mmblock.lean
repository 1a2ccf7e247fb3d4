import Carthage.BlockBytes
import Carthage.NodeStore
import Carthage.Runs

/-!
# Shared blocks

`mmblock.c`: handles on blocks of bytes with reference counts. Copying a handle shares its
block, and writing through a handle that is not the only one detaches a block of its own
first. A result `none` is an access outside a block, through a handle that is not live or to a
block that was freed, a copy of a negative number of bytes, or an overflow of the count.
-/

namespace Carthage

structure Mmiblock where
  data : Bytes
  size : ℕ
  ref : ℤ

/-- All handles and the blocks they point to. A handle that was freed is not live. -/
structure Mmblocks where
  handles : ℕ → Option ℕ
  blocks : NodeStore Mmiblock
  requests : ℕ

variable (env : Allocator)

/-- `sizeof(mmiblock_t)`. -/
def mmiblockHead : ℕ := 16

/-- The size that is asked for has 32 bits; the head is written behind a block that is smaller. -/
def mmiblockAlloc (m : Mmblocks) (n : ℕ) : Option (Option ℕ × Mmblocks) :=
  match m.blocks.take (env.granted m.requests) ⟨env.uninit m.requests, n, 1⟩ with
  | none => some (none, { m with requests := m.requests + 1 })
  | some (b, blocks) =>
      if add32 mmiblockHead n < mmiblockHead then none
      else some (some b, { m with blocks := blocks, requests := m.requests + 1 })

/-- Give up one reference to a block, and free it with the last one. -/
def mmiblockRelease (m : Mmblocks) (b : ℕ) : Option Mmblocks := do
  let d ← m.blocks.nodes b
  if d.ref - 1 = 0 then return { m with blocks := m.blocks.give false b }
  else return { m with blocks := m.blocks.put b { d with ref := d.ref - 1 } }

/-- The new block has the bytes before `offset` and from `offset + n` on. -/
def mmiblockDetach (m : Mmblocks) (h b : ℕ) (d : Mmiblock) (offset n : ℕ) :
    Option (Option ℕ × Mmblocks) := do
  let (b', m) ← mmiblockAlloc env m d.size
  match b' with
  | none => return (none, m)
  | some b' => do
      let x ← m.blocks.nodes b'
      let ne := add32 offset n
      if offset > d.size ∨ ne > d.size then none
      else
        let data : Bytes := fun i => if i < offset ∨ ne ≤ i then d.data i else x.data i
        let m := { m with
          blocks := m.blocks.put b' { x with data := data }
          handles := Function.update m.handles h (some b') }
        let m ← mmiblockRelease m b
        return (some b', m)

/-- The result is -1 for `NULL`. -/
def mmblockAlloc (m : Mmblocks) (h n : ℕ) : Option (ℤ × Mmblocks) := do
  let (b, m) ← mmiblockAlloc env m n
  return (if b = none then -1 else 0, { m with handles := Function.update m.handles h b })

def mmblockFree (m : Mmblocks) (h : ℕ) : Option Mmblocks := do
  let b ← m.handles h
  let m ← mmiblockRelease m b
  return { m with handles := Function.update m.handles h none }

def mmblockCopy (m : Mmblocks) (dest src : ℕ) : Option Mmblocks := do
  let b ← m.handles src
  let d ← m.blocks.nodes b
  if d.ref + 1 ≥ 2 ^ 31 then none
  else return { m with
    blocks := m.blocks.put b { d with ref := d.ref + 1 }
    handles := Function.update m.handles dest (some b) }

/-- The result and the bytes that are delivered; -14 is `-EFAULT`. -/
def mmblockRead (m : Mmblocks) (h offset n : ℕ) : Option (ℤ × List UInt8) := do
  let b ← m.handles h
  let d ← m.blocks.nodes b
  if offset > d.size then return (-14, [])
  else
    let rn := if d.size - offset < n then d.size - offset else n
    -- `rn` is an `int32_t` and becomes the length of `memcpy`
    if rn ≥ 2 ^ 31 then none else return (rn, d.data.read offset rn)

/-- The count of bytes written; -12 is `-ENOMEM`. -/
def mmblockWrite (m : Mmblocks) (h offset : ℕ) (buf : List UInt8) : Option (ℤ × Mmblocks) := do
  let b ← m.handles h
  let d ← m.blocks.nodes b
  if offset > d.size then return (-14, m)
  else
    let wn := if d.size - offset < buf.length then d.size - offset else buf.length
    if wn = 0 then return (0, m)
    else do
      let (b, m) ← if d.ref ≠ 1 then mmiblockDetach env m h b d offset buf.length
        else some (some b, m)
      match b with
      | none => return (-12, m)
      | some b => do
          let d ← m.blocks.nodes b
          if wn ≥ 2 ^ 31 then none
          else do
            let data ← d.data.memcpy 0 d.size offset (buf.take wn)
            return (wn, { m with blocks := m.blocks.put b { d with data := data } })

inductive MmblockOp
  | alloc (h n : ℕ)
  | copy (dest src : ℕ)
  | write (h offset : ℕ) (buf : List UInt8)
  | read (h offset n : ℕ)
  | free (h : ℕ)

/-- The result of a call, 0 where it has none but succeeds, and what it delivers. -/
def mmblockStep (m : Mmblocks) : MmblockOp → Option ((ℤ × List UInt8) × Mmblocks)
  | .alloc h n => do
      let (r, m) ← mmblockAlloc env m h n
      return ((r, []), m)
  | .copy dest src => do
      let m ← mmblockCopy m dest src
      return ((0, []), m)
  | .write h offset buf => do
      let (r, m) ← mmblockWrite env m h offset buf
      return ((r, []), m)
  | .read h offset n => do
      let (r, out) ← mmblockRead m h offset n
      return ((r, out), m)
  | .free h => do
      let m ← mmblockFree m h
      return ((0, []), m)

/-- No handle is live yet. -/
def mmblocksInit : Mmblocks := ⟨fun _ => none, .empty _, 0⟩

end Carthage
