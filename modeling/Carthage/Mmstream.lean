import Carthage.BlockBytes
import Carthage.NodeStore
import Carthage.Runs

/-!
# Memory streams

`mmstream.c`: a stream of bytes in blocks of 512, 64 of them in an extent, the extents in a
list linked both ways. A result `none` is an access through a null or dangling pointer, or
outside a block.
-/

namespace Carthage

structure MmExtent where
  next : Option ℕ
  prev : Option ℕ
  blocks : ℕ → Option Bytes

structure Mmstream where
  store : NodeStore MmExtent
  head : Option ℕ
  tail : Option ℕ
  extent : ℕ
  /-- Number of allocations asked for so far. -/
  requests : ℕ

structure MmLocation where
  extent : Option ℕ
  extNr : ℕ
  extOff : ℕ
  blkOff : ℕ
  blkAvail : ℕ

/-- `__align_down` to the size of a block. -/
def alignDown (x align : ℕ) : ℕ := x / align * align

def mmstreamAlloc : Mmstream := ⟨.empty _, none, none, 0, 0⟩

/-! ## Extents -/

section Extents

variable (granted : ℕ → Bool)

def mmblkAlloc (s : Mmstream) : Option Bytes × Mmstream :=
  (if granted s.requests then some fun _ => 0 else none, { s with requests := s.requests + 1 })

def mmextentAlloc (s : Mmstream) : Option ℕ × Mmstream :=
  match s.store.take (granted s.requests) ⟨none, none, fun _ => none⟩ with
  | none => (none, { s with requests := s.requests + 1 })
  | some (a, store) => (some a, { s with store := store, requests := s.requests + 1 })

/-- The loop of `__mmextent_resize`; the flag is cleared when there is no memory. -/
def mmextentGrow : ℕ → Mmstream → Option (Bool × Mmstream)
  | 0, s => some (true, s)
  | extNr + 1, s =>
      match mmextentAlloc granted s with
      | (none, s) => some (false, s)
      | (some a, s) => do
          let s ← match s.tail with
            | some t => do
                let n ← s.store.nodes t
                pure { s with store := s.store.put t { n with next := some a } }
            | none => pure (if s.head = none then { s with head := some a } else s)
          let e ← s.store.nodes a
          mmextentGrow extNr { s with
            store := s.store.put a { e with prev := s.tail }
            tail := some a
            extent := s.extent + 1 }

def mmextentResize (s : Mmstream) (size : ℕ) : Option (Bool × Mmstream) :=
  let extNr := 1 + alignUp size 512 / 2 ^ 9 / 2 ^ 6
  if s.extent < extNr then mmextentGrow granted (extNr - s.extent) s else some (true, s)

end Extents

/-- Follow a link `k` times. -/
def mmextentWalk (s : Mmstream) (link : MmExtent → Option ℕ) : ℕ → Option ℕ → Option (Option ℕ)
  | 0, p => some p
  | k + 1, p => do
      let a ← p
      let n ← s.store.nodes a
      mmextentWalk s link k (link n)

def mmextentAt (s : Mmstream) (index : ℕ) : Option (Option ℕ) :=
  if index = 0 then some s.head
  else if index = sub64 s.extent 1 then some s.tail
  else if sub64 s.extent index < s.extent / 2 then
    mmextentWalk s MmExtent.prev (sub64 s.extent index) s.tail
  else mmextentWalk s MmExtent.next index s.head

/-! ## Locations -/

def mmlocationCompute (s : Mmstream) (offset : ℕ) : Option MmLocation := do
  let blkNr := offset / 2 ^ 9
  let avail := sub64 (alignUp offset 512) offset % 2 ^ 16
  let extent ← mmextentAt s (blkNr / 2 ^ 6)
  return ⟨extent, blkNr / 2 ^ 6, blkNr - alignDown blkNr 64, offset - alignDown offset 512,
    if avail = 0 then 512 else avail⟩

/-- The flag says that there is no extent left. -/
def mmlocationNext (s : Mmstream) (l : MmLocation) : Option (Bool × MmLocation) :=
  if l.extOff + 1 = 64 then do
    let a ← l.extent
    let n ← s.store.nodes a
    return (n.next = none, ⟨n.next, l.extNr + 1, 0, 0, 512⟩)
  else some (l.extent = none, ⟨l.extent, l.extNr, l.extOff + 1, 0, 512⟩)

/-! ## Reading and writing -/

/-- The loop of `mmstream_read`, from `n` bytes on, to the bytes read. -/
def mmstreamReadLoop (s : Mmstream) (size : ℕ) : ℕ → MmLocation → ℕ → Option (List UInt8)
  | 0, _, _ => none
  | fuel + 1, l, n =>
      if n < size then do
        let a ← l.extent
        let e ← s.store.nodes a
        match e.blocks l.extOff with
        | none => return []
        | some block =>
            let fetchz := min (size - n) l.blkAvail
            if fetchz = 0 then return []
            else if l.blkOff + fetchz ≤ 512 then do
              let (stop, l') ← mmlocationNext s l
              (if stop then some [] else mmstreamReadLoop s size fuel l' (n + fetchz)).map
                (block.read l.blkOff fetchz ++ ·)
            else none
      else some []

/-- The number of bytes read, and the bytes. -/
def mmstreamRead (s : Mmstream) (offset size : ℕ) : Option (ℕ × List UInt8) := do
  let size := size % 2 ^ 31
  let l ← mmlocationCompute s offset
  let bytes ← mmstreamReadLoop s size (size + 1) l 0
  return (bytes.length, bytes)

section Write

variable (granted : ℕ → Bool)

/-- The block of a location, a new one if there is none; `none` when there is no memory. -/
def mmstreamBlock (s : Mmstream) (e : MmExtent) (extOff : ℕ) : Option Bytes × Mmstream :=
  match e.blocks extOff with
  | some block => (some block, s)
  | none => mmblkAlloc granted s

/-- The loop of `mmstream_write`, from `n` bytes on, to the number of bytes written. -/
def mmstreamWriteLoop (buffer : List UInt8) (offset size : ℕ) :
    ℕ → Mmstream → MmLocation → ℕ → Option (ℕ × Mmstream)
  | 0, _, _, _ => none
  | fuel + 1, s, l, n =>
      if n < size then
        let fetchz := min (size - n) l.blkAvail
        if fetchz = 0 then some (n, s)
        else do
          let a ← l.extent
          let e ← s.store.nodes a
          match mmstreamBlock granted s e l.extOff with
          | (none, s) => return (n, s)
          | (some block, s) => do
              let block ← block.memcpy 0 512 l.blkOff ((buffer.drop n).take fetchz)
              let blocks := Function.update e.blocks l.extOff (some block)
              let s := { s with store := s.store.put a { e with blocks := blocks } }
              let (ok, s) ← mmextentResize granted s (add64 offset (n + fetchz))
              if ok then do
                let (stop, l) ← mmlocationNext s l
                if stop then return (n + fetchz, s)
                else mmstreamWriteLoop buffer offset size fuel s l (n + fetchz)
              else return (n + fetchz, s)
      else some (n, s)

/-- `buffer` holds the bytes that the caller gives, at least `size` of them. -/
def mmstreamWrite (s : Mmstream) (buffer : List UInt8) (offset size : ℕ) :
    Option (ℤ × Mmstream) :=
  let size := size % 2 ^ 31
  if size = 0 then some (0, s)
  else do
    let (ok, s) ← mmextentResize granted s offset
    if ok then do
      let l ← mmlocationCompute s offset
      let (n, s) ← mmstreamWriteLoop granted buffer offset size (size + 1) s l 0
      return (n, s)
    else return (-1, s)

end Write

/-! ## Truncating -/

/-- Free the extents from `p` on, one less in the count for each. -/
def mmextentFreeLoop : ℕ → Mmstream → Option ℕ → Option Mmstream
  | _, s, none => some s
  | 0, _, some _ => none
  | fuel + 1, s, some a => do
      let e ← s.store.nodes a
      mmextentFreeLoop fuel
        { s with store := s.store.give false a, extent := sub64 s.extent 1 } e.next

def mmstreamClear (s : Mmstream) : Option Mmstream := do
  let s ← mmextentFreeLoop s.extent s s.head
  return { s with head := none, tail := none, extent := 0 }

/-- Clear the rest of the block of a location, as far as there is one. -/
def mmstreamZeroBlock (s : Mmstream) (e : MmExtent) (a : ℕ) (l : MmLocation) : Option Mmstream :=
  match e.blocks l.extOff with
  | none => some s
  | some block => do
      let block ← block.memcpy 0 512 l.blkOff (List.replicate l.blkAvail 0)
      let blocks := Function.update e.blocks l.extOff (some block)
      return { s with store := s.store.put a { e with blocks := blocks } }

/-- Clear blocks from a location on until the extent `root` is left. -/
def mmstreamZeroLoop (root : Option ℕ) : ℕ → Mmstream → MmLocation → Option (MmLocation × Mmstream)
  | 0, _, _ => none
  | fuel + 1, s, l => do
      let a ← l.extent
      let e ← s.store.nodes a
      let s ← mmstreamZeroBlock s e a l
      let (_, l) ← mmlocationNext s l
      if l.extent = root then mmstreamZeroLoop root fuel s l else return (l, s)

/-- What `mmstream_truncate` does last with `root`, the first extent that it freed. -/
def mmstreamSetTail (s : Mmstream) (root : Option ℕ) : Option Mmstream :=
  match root with
  | none => some s
  | some r => do
      let e ← s.store.nodes r
      let s ← match e.prev with
        | none => pure s
        | some p => do
            let n ← s.store.nodes p
            pure { s with store := s.store.put p { n with next := none } }
      return { s with tail := some r }

def mmstreamZeroFrom (s : Mmstream) (l : MmLocation) : Option (MmLocation × Mmstream) :=
  if l.blkOff > 0 ∨ l.extOff > 0 then mmstreamZeroLoop l.extent 64 s l else some (l, s)

def mmstreamTruncate (s : Mmstream) (size : ℕ) : Option Mmstream := do
  let l ← mmlocationCompute s size
  let (l, s) ← mmstreamZeroFrom s l
  let root := l.extent
  let s ← mmextentFreeLoop s.extent s root
  mmstreamSetTail s root

inductive MmstreamCall
  | write (buffer : List UInt8) (offset size : ℕ)
  | truncate (size : ℕ)
  | clear

/-- Reads leave the stream as it is. -/
def mmstreamCall (granted : ℕ → Bool) (s : Mmstream) : MmstreamCall → Option (ℤ × Mmstream)
  | .write buffer offset size => mmstreamWrite granted s buffer offset size
  | .truncate size => (mmstreamTruncate s size).map fun s => (0, s)
  | .clear => (mmstreamClear s).map fun s => (0, s)

structure MmstreamOp where
  buffer : List UInt8
  offset : ℕ

def mmstreamStep (granted : ℕ → Bool) (s : Mmstream) (op : MmstreamOp) : Option (ℤ × Mmstream) :=
  mmstreamWrite granted s op.buffer op.offset op.buffer.length

end Carthage
