import Carthage.BigEndian
import Carthage.Runs

/-!
# Streams of typed integers

`stream.c`: integers of several widths, signed and unsigned, written to a stream most
significant byte first and read back. What moves the bytes is the plug of the stream.
-/

namespace Carthage

/-! ## Types of integers -/

inductive StreamType
  | int8
  | uint8
  | int16
  | uint16
  | int32
  | uint32
  | int64
  | uint64
  deriving DecidableEq

namespace StreamType

def bytes : StreamType → ℕ
  | int8 => 1
  | uint8 => 1
  | int16 => 2
  | uint16 => 2
  | int32 => 4
  | uint32 => 4
  | int64 => 8
  | uint64 => 8

def signed : StreamType → Bool
  | int8 => true
  | int16 => true
  | int32 => true
  | int64 => true
  | _ => false

def bits (t : StreamType) : ℕ := 8 * t.bytes

/-- The conversion of a value to a type. -/
def conv (t : StreamType) (x : ℤ) : ℤ := if t.signed then x.bmod (2 ^ t.bits) else x % 2 ^ t.bits

/-- Sums of narrow types are computed in `int`, sums with the unsigned type of a wide type in
that type. -/
def arith (t : StreamType) (x : ℤ) : ℤ := if t.bits < 32 then x else x % 2 ^ t.bits

end StreamType

/-- A value of its type. -/
structure StreamValue where
  type : StreamType
  val : ℤ
  fits : type.conv val = val

/-! ## Plugs -/

/-- The functions that move bytes, over the states of a stream. -/
structure StreamPlug (S : Type) where
  /-- The number of bytes read, and the bytes. -/
  read : S → ℕ → ℤ × List UInt8 × S
  write : S → List UInt8 → ℤ × S
  seek : S → ℕ → ℤ × S

section Model

variable {S : Type} (plug : StreamPlug S)

def streamSeek (s : S) (offset : ℕ) : ℤ × S := plug.seek s offset

/-- `buffer[i] = v >> shift`, in a buffer of elements `elem`. -/
def streamEncode (elem : StreamType) (shifts : List ℕ) (v : ℤ) : List UInt8 :=
  shifts.map fun k : ℕ => .ofInt (elem.conv (v >>> k))

/-- `v += buffer[i] << shift`. -/
def streamAccumulate (t : StreamType) (acc : ℤ) (x : UInt8 × ℕ) : ℤ :=
  t.conv (t.arith (t.arith acc + t.arith ((x.1.toNat <<< x.2 : ℕ) : ℤ)))

def streamDecode (t : StreamType) : List (UInt8 × ℕ) → ℤ
  | [] => 0
  | (b, k) :: rest =>
      rest.foldl (streamAccumulate t) (t.conv (t.arith ((b.toNat <<< k : ℕ) : ℤ)))

def streamPut (elem : StreamType) (shifts : List ℕ) (s : S) (v : ℤ) : ℤ × S :=
  plug.write s (streamEncode elem shifts v)

def streamGet (t : StreamType) (shifts : List ℕ) (s : S) : (ℤ × Option ℤ) × S :=
  let (rc, buffer, s) := plug.read s shifts.length
  if rc ≠ shifts.length then ((-1, none), s)
  else ((0, some (streamDecode t (buffer.zip shifts))), s)

def streamWriteInt8 : S → ℤ → ℤ × S := streamPut plug .int8 [0]
def streamReadInt8 : S → (ℤ × Option ℤ) × S := streamGet plug .int8 [0]
def streamWriteUint8 : S → ℤ → ℤ × S := streamPut plug .uint8 [0]
def streamReadUint8 : S → (ℤ × Option ℤ) × S := streamGet plug .uint8 [0]

def streamWriteInt16 : S → ℤ → ℤ × S := streamPut plug .uint8 [8, 0]
def streamReadInt16 : S → (ℤ × Option ℤ) × S := streamGet plug .int16 [8, 0]
def streamWriteUint16 : S → ℤ → ℤ × S := streamPut plug .uint8 [8, 0]
def streamReadUint16 : S → (ℤ × Option ℤ) × S := streamGet plug .uint16 [8, 0]

def streamWriteInt32 : S → ℤ → ℤ × S := streamPut plug .uint8 [24, 16, 8, 0]
def streamReadInt32 : S → (ℤ × Option ℤ) × S := streamGet plug .int32 [24, 16, 8, 0]
def streamWriteUint32 : S → ℤ → ℤ × S := streamPut plug .uint8 [24, 16, 8, 0]
def streamReadUint32 : S → (ℤ × Option ℤ) × S := streamGet plug .uint32 [24, 16, 8, 0]

/-- The buffer is one of `int8_t`. -/
def streamWriteInt64 : S → ℤ → ℤ × S := streamPut plug .int8 [56, 48, 40, 32, 24, 16, 8, 0]
def streamReadInt64 : S → (ℤ × Option ℤ) × S := streamGet plug .int64 [56, 48, 40, 32, 24, 16, 8, 0]
def streamWriteUint64 : S → ℤ → ℤ × S := streamPut plug .uint8 [56, 48, 40, 32, 24, 16, 8, 0]
def streamReadUint64 : S → (ℤ × Option ℤ) × S :=
  streamGet plug .uint64 [56, 48, 40, 32, 24, 16, 8, 0]

/-- The write call of a type. -/
def streamWriteValue (s : S) (v : StreamValue) : ℤ × S :=
  match v.type with
  | .int8 => streamWriteInt8 plug s v.val
  | .uint8 => streamWriteUint8 plug s v.val
  | .int16 => streamWriteInt16 plug s v.val
  | .uint16 => streamWriteUint16 plug s v.val
  | .int32 => streamWriteInt32 plug s v.val
  | .uint32 => streamWriteUint32 plug s v.val
  | .int64 => streamWriteInt64 plug s v.val
  | .uint64 => streamWriteUint64 plug s v.val

/-- The read call of a type. -/
def streamReadValue (s : S) : StreamType → (ℤ × Option ℤ) × S
  | .int8 => streamReadInt8 plug s
  | .uint8 => streamReadUint8 plug s
  | .int16 => streamReadInt16 plug s
  | .uint16 => streamReadUint16 plug s
  | .int32 => streamReadInt32 plug s
  | .uint32 => streamReadUint32 plug s
  | .int64 => streamReadInt64 plug s
  | .uint64 => streamReadUint64 plug s

/-- Calls one after the other, with what they return. -/
def streamCalls {Op R : Type} (call : S → Op → R × S) : S → List Op → List R × S
  | s, [] => ([], s)
  | s, op :: ops =>
      let (r, s) := call s op
      let (rs, s) := streamCalls call s ops
      (r :: rs, s)

end Model

end Carthage
