import Carthage.BlockBytes
import Carthage.NodeStore
import Carthage.Runs

/-!
# Chunk queues

`chunkq.c`: bytes in a list of nodes with `chunk` bytes each. The head node may be partly
read, the tail node partly filled. A result `none` is a copy outside the data of a node, an
access to a node that is not in the queue, or a walk that does not end.
-/

namespace Carthage

structure Chunkn where
  next : Option ℕ
  data : Bytes
  offset : ℕ
  size : ℕ

def Chunkn.link : LinkField ℕ Chunkn where
  get := Chunkn.next
  set q n := { n with next := q }
  get_set _ _ := rfl

structure Chunkq where
  head : Option ℕ
  tail : Option ℕ
  store : NodeStore Chunkn
  psize : ℕ
  chunk : ℕ
  size : ℕ
  /-- Number of nodes asked for so far. -/
  requests : ℕ

variable (env : Allocator)

/-- A node from the pool still holds what it held when it was freed. -/
def chunknAlloc (q : Chunkq) : Option ℕ × Chunkq :=
  match q.store.take (env.granted q.requests) ⟨none, env.uninit q.requests, 0, 0⟩ with
  | none => (none, { q with requests := q.requests + 1 })
  | some (a, store) =>
      let psize := if q.store.pool = [] then q.psize else sub32 q.psize 1
      (some a, { q with store := store, psize := psize, requests := q.requests + 1 })

def chunknFree (q : Chunkq) (a : ℕ) : Chunkq :=
  { q with store := q.store.give (q.psize ≤ 8) a }

def chunknRoom (q : Chunkq) (node : Chunkn) : ℕ :=
  if node.offset + node.size ≤ q.chunk then q.chunk - (node.offset + node.size)
  else q.chunk + 2 ^ 32 - (node.offset + node.size)

/-- Copy `n` bytes from the data of a node. -/
def chunknLoad (q : Chunkq) (node : Chunkn) (off n : ℕ) : Option (List UInt8) :=
  if off + n ≤ q.chunk then some (node.data.read off n) else none

def chunkqAlloc (chunk : ℕ) : Chunkq := ⟨none, none, .empty _, 0, chunk, 0, 0⟩

/-- `__chunkq_free`: free the nodes from `p` on. -/
def chunkqFreeLoop : ℕ → Chunkq → Option ℕ → Option Chunkq
  | _, q, none => some q
  | 0, _, some _ => none
  | fuel + 1, q, some a => do
      let n ← q.store.nodes a
      chunkqFreeLoop fuel (chunknFree q a) n.next

def chunkqClear (q : Chunkq) : Option Chunkq := do
  let q ← chunkqFreeLoop (q.size + 1) q q.head
  return { q with head := none, tail := none, size := 0 }

/-- The node in which the bytes at `offset` lie, with the number of bytes up to its end. -/
def chunknAtOffset (q : Chunkq) (offset : ℕ) : ℕ → Option ℕ → ℕ → Option (Option ℕ × ℕ)
  | _, none, n => some (none, n)
  | 0, some _, _ => none
  | fuel + 1, some a, n => do
      let node ← q.store.nodes a
      if n + node.size > offset then return (some a, n + node.size)
      else chunknAtOffset q offset fuel node.next (n + node.size)

/-- `rem` is what is left of the size, `out` what was read so far. -/
def chunkqReadLoop : ℕ → Chunkq → ℕ → ℕ → List UInt8 → Option (List UInt8 × Chunkq)
  | 0, _, _, _, _ => none
  | fuel + 1, q, a, rem, out =>
      if rem = 0 then some (out, q)
      else do
        let n ← q.store.nodes a
        let bksize := if n.size < rem then n.size else rem
        let bytes ← chunknLoad q n n.offset bksize
        let out := out ++ bytes
        let n := { n with offset := n.offset + bksize, size := n.size - bksize }
        let q := { q with store := q.store.put a n, size := q.size - bksize }
        if n.size = 0 then
          let tail := if n.next = none then none else q.tail
          let q := chunknFree { q with head := n.next, tail := tail } a
          match q.head with
          | none => return (out, q)
          | some b => chunkqReadLoop fuel q b (rem - bksize) out
        else chunkqReadLoop fuel q a (rem - bksize) out

/-- The result, what is delivered, and the queue. -/
def chunkqRead (q : Chunkq) (size : ℕ) : Option (ℤ × List UInt8 × Chunkq) :=
  match q.head with
  | none => some (-1, [], q)
  | some a => do
      let (out, q) ← chunkqReadLoop (size + 1) q a size []
      return (out.length, out, q)

/-- Fill the node `a`, which has room for `bksize` bytes, from `p`. -/
def chunkqFill (q : Chunkq) (a bksize : ℕ) (p : List UInt8) : Option (ℕ × Chunkq) := do
  let n ← q.store.nodes a
  let bksize := if p.length < bksize then p.length else bksize
  let data ← n.data.memcpy 0 q.chunk (n.offset + n.size) (p.take bksize)
  let n := { n with data := data, size := n.size + bksize }
  return (bksize, { q with store := q.store.put a n, size := q.size + bksize })

/-- `p` is what is left of the buffer, `wr` what was written so far. -/
def chunkqAppendLoop : ℕ → Chunkq → ℕ → List UInt8 → ℕ → Option (ℤ × Chunkq)
  | 0, _, _, _, _ => none
  | fuel + 1, q, a, p, wr =>
      if p = [] then some (wr, q)
      else do
        let n ← q.store.nodes a
        let bksize := chunknRoom q n
        if bksize = 0 then
          match chunknAlloc env q with
          | (none, q) => return (wr, q)
          | (some b, q) => do
              let t ← q.tail
              let m ← q.store.nodes t
              let store := q.store.put t { m with next := some b }
              let (k, q) ← chunkqFill { q with store := store, tail := some b } b q.chunk p
              chunkqAppendLoop fuel q b (p.drop k) (wr + k)
        else do
          let (k, q) ← chunkqFill q a bksize p
          chunkqAppendLoop fuel q a (p.drop k) (wr + k)

def chunkqAppend (q : Chunkq) (buffer : List UInt8) : Option (ℤ × Chunkq) :=
  match q.tail with
  | some a => chunkqAppendLoop env (buffer.length + 1) q a buffer 0
  | none =>
      match chunknAlloc env q with
      | (none, q) => some (-1, q)
      | (some a, q) =>
          chunkqAppendLoop env (buffer.length + 1) { q with tail := some a, head := some a } a
            buffer 0

/-- The nodes behind the first one are read from the start of their data. -/
def chunkqPeekLoop (q : Chunkq) : ℕ → Option ℕ → ℕ → List UInt8 → Option (List UInt8)
  | 0, _, _, _ => none
  | fuel + 1, p, rem, out =>
      if rem = 0 then some out
      else
        match p with
        | none => some out
        | some a => do
            let node ← q.store.nodes a
            let bksize := if node.size < rem then node.size else rem
            let bytes ← chunknLoad q node 0 bksize
            chunkqPeekLoop q fuel node.next (rem - bksize) (out ++ bytes)

def chunkqPeek (q : Chunkq) (offset size : ℕ) : Option (ℤ × List UInt8) := do
  match ← chunknAtOffset q offset (offset + 2) q.head 0 with
  | (none, _) => return (-1, [])
  | (some a, x) => do
      let node ← q.store.nodes a
      let offset := offset - (x - node.size)
      let bksize := if node.size - offset > size then size else node.size - offset
      let bytes ← chunknLoad q node (node.offset + offset) bksize
      let out ← chunkqPeekLoop q (size + 1) node.next (size - bksize) bytes
      return (out.length, out)

/-! ## Searching -/

/-- `struct chunkq_search`, with the needle from `search->needle` on. -/
structure ChunkqSearch where
  offset : ℕ
  rd : ℕ
  state : Bool
  needle : List UInt8
  needleLen : ℕ

def ChunkqSearch.restart (s : ChunkqSearch) (needle : List UInt8) : ChunkqSearch :=
  { s with needle := needle, needleLen := needle.length % 2 ^ 32, state := false }

/-- The inner loop: whether the needle was found, and the data from the first byte on that
differs. That byte was counted already, and will be counted again. -/
def chunknSearchMatch (needle : List UInt8) :
    List UInt8 → ChunkqSearch → Option (Bool × ChunkqSearch × List UInt8)
  | [], s => some (false, s, [])
  | b :: data, s => do
      let s := { s with rd := s.rd + 1 }
      let c ← s.needle.head?
      if b ≠ c then return (false, s.restart needle, b :: data)
      else
        let s := { s with needleLen := sub32 s.needleLen 1 }
        if s.needleLen = 0 then return (true, s, b :: data)
        else chunknSearchMatch needle data { s with needle := s.needle.tail }

/-- The outer loop; `index` is negative as long as `memchr` has found nothing. -/
def chunknSearchLoop (needle : List UInt8) :
    ℕ → ChunkqSearch → List UInt8 → ℤ → Option (Bool × ChunkqSearch)
  | 0, _, _, _ => none
  | fuel + 1, s, data, index => do
      let c ← s.needle.head?
      match data.idxOf? c with
      | none => return (false, if index < 0 then { s with rd := s.rd + data.length } else s)
      | some p =>
          if p + 1 > 1 ∧ s.state then chunknSearchLoop needle fuel (s.restart needle) data (p + 1)
          else
            let s := { s with rd := s.rd + (p + 1) }
            let s := if s.state then s else { s with offset := s.rd - 1, state := true }
            let s := { s with needleLen := sub32 s.needleLen 1 }
            if s.needleLen = 0 then return (true, s)
            else
              let (found, s, data) ←
                chunknSearchMatch needle (data.drop (p + 1)) { s with needle := s.needle.tail }
              if found ∨ data = [] then return (found, s)
              else chunknSearchLoop needle fuel s data (p + 1)

def chunknSearchStep (needle : List UInt8) (s : ChunkqSearch) (data : List UInt8) :
    Option (Bool × ChunkqSearch) :=
  chunknSearchLoop needle (2 * data.length + 2) s data (-1)

def chunkqIndexofLoop (q : Chunkq) (needle : List UInt8) : ℕ → Option ℕ → ChunkqSearch → Option ℤ
  | _, none, _ => some (-1)
  | 0, some _, _ => none
  | fuel + 1, some a, s => do
      let node ← q.store.nodes a
      let data ← chunknLoad q node 0 node.size
      let (found, s) ← chunknSearchStep needle s data
      if found then return s.offset else chunkqIndexofLoop q needle fuel node.next s

def chunkqIndexof (q : Chunkq) (offset : ℕ) (needle : List UInt8) : Option ℤ := do
  match ← chunknAtOffset q offset (offset + 2) q.head 0 with
  | (none, _) => return -1
  | (some a, x) => do
      let node ← q.store.nodes a
      let s : ChunkqSearch := ⟨0, offset, false, needle, needle.length % 2 ^ 32⟩
      let offset := offset - (x - node.size)
      let data ← chunknLoad q node (node.offset + offset) (node.size - offset)
      let (found, s) ← chunknSearchStep needle s data
      if found then return s.offset else chunkqIndexofLoop q needle (q.size + 1) node.next s

inductive ChunkqOp
  | append (buffer : List UInt8)
  | read (size : ℕ)
  | peek (offset size : ℕ)
  | clear

/-- The result of a call, 0 for `clear`, and the bytes that it delivers. -/
def chunkqStep (q : Chunkq) : ChunkqOp → Option ((ℤ × List UInt8) × Chunkq)
  | .append buffer => do
      let (r, q) ← chunkqAppend env q buffer
      return ((r, []), q)
  | .read size => do
      let (r, out, q) ← chunkqRead q size
      return ((r, out), q)
  | .peek offset size => do
      let (r, out) ← chunkqPeek q offset size
      return ((r, out), q)
  | .clear => do
      let q ← chunkqClear q
      return ((0, []), q)

end Carthage
