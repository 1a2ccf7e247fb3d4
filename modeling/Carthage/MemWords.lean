import Carthage.BlockBytes
import Carthage.LittleEndian

/-!
# Words in memory

`mm-utils` goes through memory by words of some width, in the byte order of the machine, and by
bytes at the end.
-/

namespace Carthage

/-- The widths of unsigned integers; `unsigned long` has one of them. -/
inductive Width
  | b8
  | b16
  | b32
  | b64

def Width.bytes : Width → ℕ
  | .b8 => 1
  | .b16 => 2
  | .b32 => 4
  | .b64 => 8

inductive Endian
  | little
  | big

/-- The bytes of a word in memory, from its least significant byte on, or the other way. -/
def Endian.order : Endian → List UInt8 → List UInt8
  | little, bs => bs
  | big, bs => bs.reverse

namespace Bytes

/-- The word of `w` bytes at `p`. -/
def loadWord (e : Endian) (mem : Bytes) (p w : ℕ) : ℕ := ofLittleEndian (e.order (mem.read p w))

def storeWord (e : Endian) (mem : Bytes) (p w x : ℕ) : Bytes :=
  mem.write p (e.order (littleEndian w x))

end Bytes

variable {mem : Bytes} {p q w n x : ℕ} {as bs : List UInt8}

theorem Width.bytes_pos (w : Width) : 0 < w.bytes := by cases w <;> decide

@[simp] theorem Endian.length_order (e : Endian) (bs : List UInt8) :
    (e.order bs).length = bs.length := by
  cases e
  · rfl
  · exact List.length_reverse

theorem Endian.order_inj (e : Endian) : e.order as = e.order bs ↔ as = bs := by
  cases e
  · exact Iff.rfl
  · exact List.reverse_inj

@[simp] theorem Endian.mem_order (e : Endian) {b : UInt8} : b ∈ e.order bs ↔ b ∈ bs := by
  cases e
  · exact Iff.rfl
  · exact List.mem_reverse

@[simp] theorem Endian.order_replicate (e : Endian) (b : UInt8) :
    e.order (List.replicate n b) = List.replicate n b := by
  cases e
  · rfl
  · exact List.reverse_replicate

theorem Bytes.read_succ (mem : Bytes) (p n : ℕ) :
    mem.read p (n + 1) = mem p :: mem.read (p + 1) n := by
  rw [Nat.add_comm n, Bytes.read_add]
  rfl

theorem Bytes.read_eq_iff : mem.read p n = mem.read q n ↔ ∀ i < n, mem (p + i) = mem (q + i) := by
  simp [Bytes.read]

theorem loadWord_inj (e : Endian) :
    mem.loadWord e p w = mem.loadWord e q w ↔ mem.read p w = mem.read q w := by
  unfold Bytes.loadWord
  rw [ofLittleEndian_inj (by simp), e.order_inj]

end Carthage
