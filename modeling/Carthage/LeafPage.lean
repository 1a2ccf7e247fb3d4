import Carthage.BinarySearch
import Carthage.BlockBytes

/-!
# Leaf pages

A leaf block starts with the item heads, in key order, and has the bodies of the items at
its end. The heads are kept as a list of slots; the bodies are bytes. A result `none` is
an access outside the block, to a slot that does not exist, or a body that would run into
the heads.
-/

namespace Carthage

/-- The fields of the super-block that fix the shape of the nodes. -/
structure Geometry where
  blockSize : ℕ
  prefixSize : ℕ
  keySize : ℕ
  fanout : ℕ

structure SuperBlock extends Geometry where
  magic : ℕ
  nodeMagic : ℕ
  height : ℕ
  itemCount : ℕ
  nodeCount : ℕ
  storedData : ℕ
  root : ℕ
  rootCrc : ℕ
  rootSize : ℕ

namespace Geometry

def nodeSpace (g : Geometry) : ℕ := g.blockSize - 16

def itemSize (g : Geometry) : ℕ := g.keySize + 8

/-- `__item_needed_size`, before it is stored in 32 bits. -/
def itemNeeded (g : Geometry) (size : ℕ) : ℕ := g.keySize + 8 + size

def twigNeeded (g : Geometry) : ℕ := g.prefixSize + 16

/-- Where the bodies may start in a leaf with `n` items. -/
def bodyStart (g : Geometry) (n : ℕ) : ℕ := 16 + n * g.itemSize

/-- The item heads that move when item `index` of `n` goes are those behind it and one more, which
the block has room for. -/
def HeadsMove (g : Geometry) (n index : ℕ) : Prop :=
  index + 1 < n → g.bodyStart (n + 1) ≤ g.blockSize

instance (g : Geometry) (n index : ℕ) : Decidable (g.HeadsMove n index) :=
  inferInstanceAs (Decidable (_ → _))

end Geometry

/-- A key with its item head. -/
structure LeafSlot (K : Type) where
  key : K
  offset : ℕ
  size : ℕ

structure LeafPage (K : Type) where
  slots : List (LeafSlot K)
  free : ℕ
  mem : Bytes

namespace LeafPage

variable {K : Type} (g : Geometry)

def bodySize (p : LeafPage K) (i j : ℕ) : ℕ :=
  (((p.slots.drop i).take (j - i)).map LeafSlot.size).sum % 2 ^ 32

/-- `__leaf_move_offsets`, up to the last item as in all its calls. -/
def moveOffsets (slots : List (LeafSlot K)) (move : ℕ → ℕ) : List (LeafSlot K) :=
  slots.map fun s => { s with offset := move s.offset }

def insert (p : LeafPage K) (index : ℕ) (key : K) (value : List UInt8) : Option (LeafPage K) :=
  let n := p.slots.length
  let lo := g.bodyStart (n + 1)
  let free := sub32 p.free (g.itemSize + value.length)
  if index < n then do
    let size := p.bodySize index n
    let last ← p.slots[n - 1]?
    if last.offset < value.length then none
    let dst := last.offset - value.length
    let mem ← p.mem.memmove lo g.blockSize dst last.offset size
    let mem ← mem.memcpy lo g.blockSize (dst + size) value
    let moved := moveOffsets (p.slots.drop index) (fun o => sub32 o value.length)
    return ⟨p.slots.take index ++ ⟨key, dst + size, value.length⟩ :: moved, free, mem⟩
  else if index = n then do
    let offset := add32 (sub32 p.free value.length) (g.bodyStart n)
    let mem ← p.mem.memcpy lo g.blockSize offset value
    return ⟨p.slots ++ [⟨key, offset, value.length⟩], free, mem⟩
  else none

def remove (p : LeafPage K) (index : ℕ) : Option (LeafPage K) := do
  let n := p.slots.length
  let slot ← p.slots[index]?
  let free := add32 p.free (g.itemSize + slot.size)
  if index + 1 < n then
    let last ← p.slots[n - 1]?
    let size := p.bodySize (index + 1) n
    let mem ← p.mem.memmove (g.bodyStart n) g.blockSize (last.offset + slot.size) last.offset size
    let moved := moveOffsets (p.slots.drop (index + 1)) (fun o => add32 o slot.size)
    -- `n - index` heads move, which reads the slot behind the last item
    if g.bodyStart (n + 1) ≤ g.blockSize then some ⟨p.slots.take index ++ moved, free, mem⟩
    else none
  else return ⟨p.slots.take index, free, p.mem⟩

/-- The bodies of the right half in the page they move to. They end with that of the last item. -/
def splitBodies (left right : LeafPage K) (count size : ℕ) : Option Bytes := do
  let last ← left.slots[left.slots.length - 1]?
  if last.offset + size > g.blockSize then none
  else
    right.mem.memcpy (g.bodyStart count) g.blockSize (g.blockSize - size)
      (left.mem.read last.offset size)

/-- The right half of the items moves to a new page. -/
def split (left right : LeafPage K) : Option (LeafPage K × LeafPage K) := do
  let n := left.slots.length
  let leftKey := n / 2
  let rightKey := n - leftKey
  let size := left.bodySize leftKey n
  let mem ← left.splitBodies g right rightKey size
  let moved := moveOffsets (left.slots.drop leftKey) (fun o => add32 o (left.bodySize 0 leftKey))
  let heads := rightKey * g.itemSize
  return (⟨left.slots.take leftKey, add32 (add32 left.free heads) size, left.mem⟩,
    ⟨moved, sub32 (sub32 right.free heads) size, mem⟩)

/-- `__leaf_replace` moves bodies and offsets, but writes neither the value nor `ih_size`,
and it adds to `nh_free` what the new value is larger. -/
def replace (p : LeafPage K) (index : ℕ) (size : ℕ) : Option (LeafPage K) := do
  let n := p.slots.length
  let slot ← p.slots[index]?
  let diff := sub32 size slot.size
  let mem ← p.mem.memmove (g.bodyStart n) g.blockSize (slot.offset + slot.size)
    (slot.offset + size) (p.bodySize index (n - 1))
  let moved := moveOffsets (p.slots.drop index) (fun o => add32 o diff)
  return ⟨p.slots.take index ++ moved, add32 p.free diff, mem⟩

def inlineReplace (p : LeafPage K) (index : ℕ) (value : List UInt8) : Option (LeafPage K) := do
  let slot ← p.slots[index]?
  let mem ← p.mem.memcpy (g.bodyStart p.slots.length) g.blockSize slot.offset value
  return { p with mem := mem }

def keys (p : LeafPage K) : List K := p.slots.map LeafSlot.key

def body (p : LeafPage K) (slot : LeafSlot K) : List UInt8 := p.mem.read slot.offset slot.size

def search [LinearOrder K] (p : LeafPage K) (key : K) : Option (Bool × ℕ) :=
  indexSearch p.keys key

end LeafPage

end Carthage
