import Carthage.Stream

/-!
# Values written to a stream are read back

The encoders are all the big-endian one, and the decoders its inverse up to the conversion to
their type.
-/

namespace Carthage

variable {S : Type} {plug : StreamPlug S} {t : StreamType} {n k : ℕ} {x y v : ℤ}

/-! ## Conversions -/

namespace StreamType

theorem conv_emod (t : StreamType) (x : ℤ) : t.conv x % 2 ^ t.bits = x % 2 ^ t.bits := by
  unfold conv
  split_ifs
  · have hbmod : x.bmod (2 ^ t.bits) % ((2 ^ t.bits : ℕ) : ℤ) = x % ((2 ^ t.bits : ℕ) : ℤ) :=
      Int.bmod_emod
    push_cast at hbmod
    exact hbmod
  · exact Int.emod_emod_of_dvd x (dvd_refl _)

theorem conv_congr (h : x % 2 ^ t.bits = y % 2 ^ t.bits) : t.conv x = t.conv y := by
  unfold conv
  split_ifs
  · have hcast : ((2 ^ t.bits : ℕ) : ℤ) = 2 ^ t.bits := by push_cast; rfl
    rw [← Int.emod_bmod x, ← Int.emod_bmod y, hcast, h]
  · exact h

theorem arith_emod (t : StreamType) (x : ℤ) : t.arith x % 2 ^ t.bits = x % 2 ^ t.bits := by
  unfold arith
  split_ifs
  · rfl
  · exact Int.emod_emod_of_dvd x (dvd_refl _)

theorem conv_arith (t : StreamType) (x : ℤ) : t.conv (t.arith x) = t.conv x :=
  conv_congr (t.arith_emod x)

theorem conv_add (t : StreamType) (x y : ℤ) :
    t.conv (t.arith (t.arith (t.conv x) + t.arith y)) = t.conv (x + y) := by
  rw [conv_arith]
  apply conv_congr
  rw [Int.add_emod, arith_emod, conv_emod, arith_emod, ← Int.add_emod]

end StreamType

/-! ## Encoders and decoders -/

/-- The shifts of an encoder of `n` bytes. -/
def byteShifts : ℕ → List ℕ
  | 0 => []
  | n + 1 => 8 * n :: byteShifts n

theorem length_byteShifts (n : ℕ) : (byteShifts n).length = n := by
  induction n with
  | zero => rfl
  | succ n ih => rw [byteShifts, List.length_cons, ih]

theorem pow_eight (n : ℕ) : (2 : ℤ) ^ (8 * n) = 256 ^ n := by
  rw [pow_mul]
  norm_num

theorem streamEncode_eq {elem : StreamType} (helem : elem.bytes = 1) (n : ℕ) (v : ℤ) :
    streamEncode elem (byteShifts n) v = bigEndian n v := by
  induction n with
  | zero => rfl
  | succ n ih =>
      have hbits : elem.bits = 8 := by rw [StreamType.bits, helem]
      have hbyte : UInt8.ofInt (elem.conv (v >>> (8 * n))) = .ofInt (v / 256 ^ n) := by
        have hmod := elem.conv_emod (v >>> (8 * n))
        rw [hbits] at hmod
        rw [ofInt_congr hmod, Int.shiftRight_eq_div_pow]
        push_cast
        rw [pow_eight]
      rw [bigEndian, ← ih, ← hbyte]
      unfold streamEncode
      rw [byteShifts, List.map_cons]

def shiftedSum (xs : List (UInt8 × ℕ)) : ℤ := (xs.map fun x => ((x.1.toNat <<< x.2 : ℕ) : ℤ)).sum

theorem streamAccumulate_foldl (t : StreamType) (x : ℤ) (rest : List (UInt8 × ℕ)) :
    rest.foldl (streamAccumulate t) (t.conv x) = t.conv (x + shiftedSum rest) := by
  induction rest generalizing x with
  | nil =>
      change t.conv x = t.conv (x + 0)
      rw [add_zero]
  | cons y rest ih =>
      rw [List.foldl_cons, streamAccumulate, t.conv_add, ih, shiftedSum, shiftedSum,
        List.map_cons, List.sum_cons, add_assoc]

theorem shiftedSum_zip (bs : List UInt8) :
    shiftedSum (bs.zip (byteShifts bs.length)) = ofBigEndian bs := by
  induction bs with
  | nil => rfl
  | cons b bs ih =>
      have hshift : ((b.toNat <<< (8 * bs.length) : ℕ) : ℤ) = b.toNat * 256 ^ bs.length := by
        rw [Nat.shiftLeft_eq]
        push_cast
        rw [pow_eight]
      rw [List.length_cons, byteShifts, List.zip_cons_cons, shiftedSum, List.map_cons,
        List.sum_cons, hshift, ofBigEndian]
      push_cast
      rw [← ih]
      rfl

theorem streamDecode_eq (t : StreamType) (bs : List UInt8) :
    streamDecode t (bs.zip (byteShifts bs.length)) = t.conv (ofBigEndian bs) := by
  rw [← shiftedSum_zip]
  cases bs with
  | nil =>
      change (0 : ℤ) = t.conv 0
      unfold StreamType.conv
      split_ifs
      · exact Int.zero_bmod.symm
      · exact (Int.zero_emod _).symm
  | cons b bs =>
      rw [List.length_cons, byteShifts, List.zip_cons_cons, streamDecode, t.conv_arith,
        streamAccumulate_foldl, shiftedSum, shiftedSum, List.map_cons, List.sum_cons]

/-! ## Calls through a plug -/

/-- A plug over a stream of bytes that moves all it is asked to: it overwrites from the
position on, and reads what is there. -/
structure StreamPlug.Transfers (plug : StreamPlug S) (contents : S → List UInt8) (pos : S → ℕ) :
    Prop where
  write : ∀ s buf, pos s ≤ (contents s).length → (plug.write s buf).1 = buf.length ∧
    contents (plug.write s buf).2 =
      (contents s).take (pos s) ++ buf ++ (contents s).drop (pos s + buf.length) ∧
    pos (plug.write s buf).2 = pos s + buf.length
  read : ∀ s n, pos s + n ≤ (contents s).length → (plug.read s n).1 = n ∧
    (plug.read s n).2.1 = ((contents s).drop (pos s)).take n ∧
    contents (plug.read s n).2.2 = contents s ∧ pos (plug.read s n).2.2 = pos s + n
  seek : ∀ s offset, contents (plug.seek s offset).2 = contents s ∧
    pos (plug.seek s offset).2 = offset

variable {contents : S → List UInt8} {pos : S → ℕ} {s : S}

theorem streamWriteValue_eq (plug : StreamPlug S) (s : S) (v : StreamValue) :
    streamWriteValue plug s v = plug.write s (bigEndian v.type.bytes v.val) := by
  obtain ⟨t, val, fits⟩ := v
  unfold streamWriteValue
  cases t with
  | int8 => exact congrArg (plug.write s) (streamEncode_eq rfl 1 val)
  | uint8 => exact congrArg (plug.write s) (streamEncode_eq rfl 1 val)
  | int16 => exact congrArg (plug.write s) (streamEncode_eq rfl 2 val)
  | uint16 => exact congrArg (plug.write s) (streamEncode_eq rfl 2 val)
  | int32 => exact congrArg (plug.write s) (streamEncode_eq rfl 4 val)
  | uint32 => exact congrArg (plug.write s) (streamEncode_eq rfl 4 val)
  | int64 => exact congrArg (plug.write s) (streamEncode_eq rfl 8 val)
  | uint64 => exact congrArg (plug.write s) (streamEncode_eq rfl 8 val)

theorem streamReadValue_eq (plug : StreamPlug S) (s : S) (t : StreamType) :
    streamReadValue plug s t = streamGet plug t (byteShifts t.bytes) s := by
  cases t <;> rfl

theorem streamReadValue_spec (h : plug.Transfers contents pos) {v : ℤ} {rest : List UInt8}
    (hbytes : (contents s).drop (pos s) = bigEndian t.bytes v ++ rest) :
    (streamReadValue plug s t).1 = (0, some (t.conv v)) ∧
      contents (streamReadValue plug s t).2 = contents s ∧
      pos (streamReadValue plug s t).2 = pos s + t.bytes := by
  have hlen := congrArg List.length hbytes
  rw [List.length_drop, List.length_append, length_bigEndian] at hlen
  have hpos : 0 < t.bytes := by cases t <;> decide
  obtain ⟨hrc, hbuf, hcont, hpos'⟩ := h.read s t.bytes (by omega)
  have htake : (plug.read s t.bytes).2.1 = bigEndian t.bytes v := by
    rw [hbuf, hbytes, List.take_left' (length_bigEndian _ _)]
  have hzip : (bigEndian t.bytes v).zip (byteShifts t.bytes) =
      (bigEndian t.bytes v).zip (byteShifts (bigEndian t.bytes v).length) := by
    rw [length_bigEndian]
  have hval : t.conv (ofBigEndian (bigEndian t.bytes v)) = t.conv v := by
    apply StreamType.conv_congr
    rw [ofBigEndian_bigEndian, StreamType.bits, pow_eight]
    exact Int.emod_emod_of_dvd v (dvd_refl _)
  rw [streamReadValue_eq]
  unfold streamGet
  rw [length_byteShifts]
  simp only [hrc, htake, ne_eq, not_true_eq_false, if_false]
  refine ⟨?_, hcont, hpos'⟩
  rw [hzip, streamDecode_eq, hval]

/-! ## Sequences of calls -/

/-- The encodings of values in order. -/
def bigEndians (vals : List StreamValue) : List UInt8 :=
  vals.flatMap fun v => bigEndian v.type.bytes v.val

theorem overwritten_twice {α : Type} {c : List α} {p : ℕ} (hp : p ≤ c.length) (a b : List α) :
    (c.take p ++ a ++ c.drop (p + a.length)).take (p + a.length) ++ b ++
        (c.take p ++ a ++ c.drop (p + a.length)).drop (p + a.length + b.length) =
      c.take p ++ (a ++ b) ++ c.drop (p + (a ++ b).length) := by
  have hhead : (c.take p ++ a).length = p + a.length := by
    rw [List.length_append, List.length_take, min_eq_left hp]
  have hskip : p + a.length + (p + a.length + b.length - (p + a.length)) =
      p + (a ++ b).length := by
    rw [List.length_append]
    omega
  rw [List.take_left' hhead, List.drop_append, List.drop_drop, hhead, hskip,
    List.drop_eq_nil_of_le (by rw [hhead]; omega), List.nil_append, List.append_assoc (c.take p)]

theorem streamWriteValues_spec (h : plug.Transfers contents pos)
    (hpos : pos s ≤ (contents s).length) (vals : List StreamValue) :
    (streamCalls (streamWriteValue plug) s vals).1 = vals.map (fun v => (v.type.bytes : ℤ)) ∧
      contents (streamCalls (streamWriteValue plug) s vals).2 = (contents s).take (pos s) ++
        bigEndians vals ++ (contents s).drop (pos s + (bigEndians vals).length) := by
  induction vals generalizing s with
  | nil =>
      refine ⟨rfl, ?_⟩
      change contents s = (contents s).take (pos s) ++ [] ++ (contents s).drop (pos s + 0)
      rw [List.append_nil, Nat.add_zero, List.take_append_drop]
  | cons v vals ih =>
      obtain ⟨hrc, hcont, hpos₁⟩ := h.write s (bigEndian v.type.bytes v.val) hpos
      rw [← streamWriteValue_eq] at hrc hcont hpos₁
      let s₁ := (streamWriteValue plug s v).2
      have htake : ((contents s).take (pos s)).length = pos s := by
        rw [List.length_take, min_eq_left hpos]
      have hpos₂ : pos s₁ ≤ (contents s₁).length := by
        rw [hpos₁, hcont, List.length_append, List.length_append, htake]
        omega
      obtain ⟨hrcs, hconts⟩ := ih hpos₂
      refine ⟨?_, ?_⟩
      · rw [length_bigEndian] at hrc
        exact congrArg₂ List.cons hrc hrcs
      · have hcons : bigEndians (v :: vals) = bigEndian v.type.bytes v.val ++ bigEndians vals :=
          List.flatMap_cons
        change contents (streamCalls (streamWriteValue plug) s₁ vals).2 = _
        rw [hconts, hpos₁, hcont, hcons]
        exact overwritten_twice hpos _ _

theorem streamReadValues_spec (h : plug.Transfers contents pos) {vals : List StreamValue}
    {types : List StreamType} (htypes : List.Forall₂ (fun t v => t.bytes = v.type.bytes) types vals)
    {rest : List UInt8} (hbytes : (contents s).drop (pos s) = bigEndians vals ++ rest) :
    (streamCalls (streamReadValue plug) s types).1 =
      (types.zip vals).map fun x => (0, some (x.1.conv x.2.val)) := by
  induction htypes generalizing s with
  | nil => rfl
  | @cons t v types vals ht _ ih =>
      have hcons : bigEndians (v :: vals) = bigEndian t.bytes v.val ++ bigEndians vals := by
        rw [ht]
        exact List.flatMap_cons
      rw [hcons, List.append_assoc] at hbytes
      obtain ⟨hval, hcont, hpos⟩ := streamReadValue_spec h hbytes
      have hnext : (contents (streamReadValue plug s t).2).drop (pos (streamReadValue plug s t).2) =
          bigEndians vals ++ rest := by
        rw [hcont, hpos, ← List.drop_drop, hbytes, List.drop_left' (length_bigEndian _ _)]
      exact congrArg₂ List.cons hval (ih hnext)

/-- Values written from the start of a stream are there in big-endian encoding, and reading
them back gives each one converted to the type it is read with, which is itself for its own. -/
theorem stream_round_trip (plug : StreamPlug S) (contents : S → List UInt8) (pos : S → ℕ)
    (h : plug.Transfers contents pos) (s : S) (hstart : pos s = 0) (vals : List StreamValue) :
    contents (streamCalls (streamWriteValue plug) s vals).2 =
        bigEndians vals ++ (contents s).drop (bigEndians vals).length ∧
      (streamCalls (streamReadValue plug)
        (streamSeek plug (streamCalls (streamWriteValue plug) s vals).2 0).2
        (vals.map StreamValue.type)).1 = vals.map (fun v => (0, some v.val)) ∧
      ∀ types, List.Forall₂ (fun t v => t.bytes = v.type.bytes) types vals →
        (streamCalls (streamReadValue plug)
          (streamSeek plug (streamCalls (streamWriteValue plug) s vals).2 0).2 types).1 =
          (types.zip vals).map fun x => (0, some (x.1.conv x.2.val)) := by
  obtain ⟨-, hcont⟩ := streamWriteValues_spec h (hstart ▸ Nat.zero_le _) vals
  rw [hstart, List.take_zero, List.nil_append, Nat.zero_add] at hcont
  have hread : ∀ types, List.Forall₂ (fun t v => t.bytes = v.type.bytes) types vals →
      (streamCalls (streamReadValue plug)
        (streamSeek plug (streamCalls (streamWriteValue plug) s vals).2 0).2 types).1 =
        (types.zip vals).map fun x => (0, some (x.1.conv x.2.val)) := by
    intro types htypes
    obtain ⟨hsame, hzero⟩ := h.seek (streamCalls (streamWriteValue plug) s vals).2 0
    apply streamReadValues_spec h htypes
    rw [streamSeek, hsame, hzero, List.drop_zero, hcont]
  refine ⟨hcont, ?_, hread⟩
  have hzip : (vals.map StreamValue.type).zip vals = vals.map fun v => (v.type, v) := by
    conv => lhs; rw [← List.map_id vals, List.map_map]
    exact List.zip_map'
  rw [hread (vals.map StreamValue.type) (List.forall₂_map_left_iff.mpr
    (List.forall₂_same.mpr fun _ _ => rfl)), hzip, List.map_map]
  refine List.map_congr_left fun v _ => ?_
  rw [Function.comp_apply, v.fits]

/-- A stream kept in memory. -/
def memoryPlug : StreamPlug (List UInt8 × ℕ) where
  read s n := (((s.1.drop s.2).take n).length, (s.1.drop s.2).take n, s.1, s.2 + n)
  write s buf := (buf.length,
    s.1.take s.2 ++ buf ++ s.1.drop (s.2 + buf.length), s.2 + buf.length)
  seek s offset := (0, s.1, offset)

theorem memoryPlug_transfers : memoryPlug.Transfers Prod.fst Prod.snd where
  write _ _ _ := ⟨rfl, rfl, rfl⟩
  read s n h := by
    have hlen : ((s.1.drop s.2).take n).length = n := by
      rw [List.length_take, List.length_drop]
      omega
    exact ⟨congrArg Nat.cast hlen, rfl, rfl, rfl⟩
  seek _ _ := ⟨rfl, rfl⟩

theorem stream_round_trip_two :
    let vals : List StreamValue := [⟨.int16, -32563, rfl⟩, ⟨.uint8, 213, rfl⟩]
    (streamCalls (streamWriteValue memoryPlug) ([], 0) vals).2.1 =
        bigEndians vals ++ [].drop (bigEndians vals).length ∧
      (streamCalls (streamReadValue memoryPlug)
        (streamSeek memoryPlug (streamCalls (streamWriteValue memoryPlug) ([], 0) vals).2 0).2
        (vals.map StreamValue.type)).1 = vals.map (fun v => (0, some v.val)) ∧
      ∀ types, List.Forall₂ (fun t v => t.bytes = v.type.bytes) types vals →
        (streamCalls (streamReadValue memoryPlug)
          (streamSeek memoryPlug (streamCalls (streamWriteValue memoryPlug) ([], 0) vals).2 0).2
          types).1 = (types.zip vals).map fun x => (0, some (x.1.conv x.2.val)) :=
  stream_round_trip memoryPlug Prod.fst Prod.snd memoryPlug_transfers ([], 0) rfl _

end Carthage
