import Carthage.Tiling
import Carthage.Runs

/-!
# Memory pools

`mpool.c`: a region of memory cut into chunks behind headers of four bytes. Blocks are given
by their offset in the region. A result `none` is a header or a copy outside the region, or
a walk that does not end.
-/

namespace Carthage

structure Mpool where
  mem : Bytes
  size : ℕ
  free : ℕ

namespace Mpool

variable (m : Mpool) (p : ℕ)

def header : Option ℕ := if p + 4 ≤ m.size then some (m.mem.get32 p) else none

def setHeader (h : ℕ) : Option Mpool :=
  if p + 4 ≤ m.size then some { m with mem := m.mem.put32 p h } else none

end Mpool

/-- `size | 0x80000000`. -/
def markUsed (size : ℕ) : ℕ := word true (size % 2 ^ 31)

/-- `(n - size - 4) & 0x7fffffff`, for `size` at most `n`. -/
def leftover (n size : ℕ) : ℕ :=
  if size + 4 ≤ n then n - size - 4 else n + 2 ^ 31 - size - 4

def mpoolInit (mem : Bytes) (size : ℕ) : Mpool :=
  ⟨mem.put32 0 (wordSize (sub32 size 4)), size, sub32 size 4⟩

/-- How the merging of free chunks ends: with enough space, at a chunk in use, behind which
the scan goes on, or at the end of the region. -/
inductive MpoolScan
  | fits (n : ℕ)
  | next (p : ℕ)
  | full

/-- Merge free chunks into the one at `p`, of `n` bytes, until it holds `size`. -/
def mpoolMerge (size p : ℕ) : ℕ → Mpool → ℕ → Option (MpoolScan × Mpool)
  | 0, _, _ => none
  | fuel + 1, m, n =>
      if n < size then
        let q := p + n + 4
        if q < m.size then do
          let h ← m.header q
          if wordUsed h then return (.next (q + wordSize h + 4), m)
          else do
            let h' ← m.header p
            let m ← m.setHeader p (add32 h' (h + 4))
            mpoolMerge size p fuel { m with free := add32 m.free 4 } (wordSize (add32 h' (h + 4)))
        else return (.full, m)
      else return (.fits n, m)

def mpoolAllocLoop (size : ℕ) : ℕ → Mpool → ℕ → Option (Option ℕ × Mpool)
  | 0, _, _ => none
  | fuel + 1, m, p =>
      if p < m.size then do
        let h ← m.header p
        if wordUsed h then mpoolAllocLoop size fuel m (p + wordSize h + 4)
        else do
          let (r, m) ← mpoolMerge size p m.size m (wordSize h)
          match r with
          | .next q => mpoolAllocLoop size fuel m q
          | .full => return (none, m)
          | .fits n => do
              let m ← m.setHeader p (markUsed size)
              if n > size then do
                let m ← m.setHeader (p + 4 + size) (leftover n size)
                return (some (p + 4), { m with free := sub32 (sub32 m.free 4) size })
              else return (some (p + 4), { m with free := sub32 m.free size })
      else return (none, m)

/-- There are no more chunks than bytes. -/
def mpoolAlloc (m : Mpool) (size : ℕ) : Option (Option ℕ × Mpool) :=
  mpoolAllocLoop size (m.size + 1) m 0

def mpoolFree (m : Mpool) : Option ℕ → Option Mpool
  | none => some m
  | some block => do
      let h ← m.header (block - 4)
      let n := wordSize h
      let m ← m.setHeader (block - 4) n
      let m := { m with free := add32 m.free n }
      let o ← m.header (block + n)
      if wordUsed o then return m
      else do
        let m ← m.setHeader (block - 4) (add32 n (o + 4))
        return { m with free := add32 m.free 4 }

def mpoolRealloc (m : Mpool) (block : Option ℕ) (size : ℕ) : Option (Option ℕ × Mpool) :=
  match block with
  | none => mpoolAlloc m size
  | some block =>
      if size = 0 then do
        let m ← mpoolFree m (some block)
        return (none, m)
      else do
        let h ← m.header (block - 4)
        let n := wordSize h
        if size < n then
          if n - size ≤ 8 then return (some block, m)
          else do
            let m ← m.setHeader (block + size) (leftover n size)
            let m ← m.setHeader (block - 4) (markUsed size)
            return (some block, { m with free := add32 m.free (n - size - 4) })
        else do
          let o ← m.header (block + n)
          if wordUsed o ∨ size - n ≥ o + 4 then do
            match ← mpoolAlloc m size with
            | (none, m) => return (none, m)
            | (some nblock, m) => do
                -- the length is the whole header of the old block, its top bit included
                let h ← m.header (block - 4)
                let mem ← m.mem.memmove 0 m.size nblock block h
                let m ← mpoolFree { m with mem := mem } (some block)
                return (some nblock, m)
          else do
            let h' := add32 h (o + 4)
            let m ← m.setHeader (block - 4) h'
            let left := wordSize h' - size
            if left ≤ 8 then
              return (some block, { m with free := sub32 (sub32 m.free (size - n)) 4 })
            else do
              let m ← m.setHeader (block + size) (leftover (wordSize h') size)
              let m ← m.setHeader (block - 4) (markUsed size)
              return (some block, { m with free := sub32 m.free (size - n) })

/-- A pool and the blocks that its user holds, with the sizes asked for. -/
structure MpoolState where
  pool : Mpool
  live : List (ℕ × ℕ)

/-- Besides calling the pool, its user stores bytes in blocks. -/
inductive MpoolOp
  | alloc (size : ℕ)
  | free (block : ℕ)
  | realloc (block : Option ℕ) (size : ℕ)
  | store (block off : ℕ) (bytes : List UInt8)

def dropBlock (live : List (ℕ × ℕ)) (block : ℕ) : List (ℕ × ℕ) :=
  live.filter fun x => x.1 ≠ block

def mpoolStep (s : MpoolState) : MpoolOp → Option (Option ℕ × MpoolState)
  | .alloc size => do
      let (r, m) ← mpoolAlloc s.pool size
      match r with
      | none => return (none, ⟨m, s.live⟩)
      | some b => return (some b, ⟨m, (b, size) :: s.live⟩)
  | .free block => do
      let m ← mpoolFree s.pool (some block)
      return (none, ⟨m, dropBlock s.live block⟩)
  | .realloc block size => do
      let (r, m) ← mpoolRealloc s.pool block size
      let rest := match block with
        | none => s.live
        | some b => dropBlock s.live b
      match r with
      | some b => return (some b, ⟨m, (b, size) :: rest⟩)
      | none => return (none, ⟨m, if size = 0 then rest else s.live⟩)
  | .store block off bytes =>
      some (none, ⟨{ s.pool with mem := s.pool.mem.write (block + off) bytes }, s.live⟩)

end Carthage
