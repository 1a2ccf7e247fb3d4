import Carthage.Bitarray

/-!
# Ranges of bits

`bitarray_set_bits` and `bitarray_clear_bits` change whole bytes as long as 8 bits are left, from
the byte of the first bit on. Unless the range starts with a byte, the bits that they change are
shifted towards the beginning of that byte.
-/

namespace Carthage

variable {op : UInt8 → ℕ → UInt8} {v : Bool} {map map' : Bytes} {start count n p : ℕ}
  {array array' : Bitarray}

/-- The bits of a range have the value, all others are as before. -/
def RangeIs (v : Bool) (start count : ℕ) (map map' : Bytes) : Prop :=
  ∀ n, map'.testBit n = if start ≤ n ∧ n < start + count then v else map.testBit n

theorem RangeIs.unique {map'' : Bytes} (h : RangeIs v start count map map')
    (h' : RangeIs v start count map map'') : map' = map'' :=
  funext fun _ => Bytes.eq_of_testBit fun _ _ => (h _).trans (h' _).symm

theorem changeRest_range (hop : Turns op v) (count : ℕ) (map : Bytes) (start : ℕ) :
    RangeIs v start count map (changeRest op count map start) := by
  induction count generalizing map start with
  | zero => exact fun n => (if_neg (by omega)).symm
  | succ count ih =>
      intro n
      rw [changeRest, ih, hop.testBit_change]
      split_ifs <;> first | rfl | omega

theorem changeBytes_range (hop : Turns op v) (count : ℕ) (map : Bytes) (p start : ℕ) :
    ∃ map', changeBytes op count map p start = (map', start + 8 * (count / 8), count % 8) ∧
      RangeIs v (8 * p) (8 * (count / 8)) map map' := by
  induction count using Nat.strong_induction_on generalizing map p start with
  | _ count ih =>
      by_cases hfew : count < 8
      · have hdiv : count / 8 = 0 := Nat.div_eq_of_lt hfew
        refine ⟨map, ?_, fun n => ?_⟩
        · rw [hdiv, Nat.mod_eq_of_lt hfew, changeBytes]
          · rfl
          · omega
        · rw [hdiv]
          exact (if_neg (by omega)).symm
      · obtain ⟨count, rfl⟩ : ∃ k, count = k + 8 := ⟨count - 8, by omega⟩
        obtain ⟨map', hrun, hbits⟩ := ih count (by omega)
          (Function.update map p (changeByte op (map p) start)) (p + 1) (start + 8)
        have hdiv : (count + 8) / 8 = count / 8 + 1 := Nat.add_div_right count (by norm_num)
        refine ⟨map', ?_, fun n => ?_⟩
        · rw [changeBytes, hrun, hdiv, Nat.add_mod_right, Nat.mul_succ]
          congr 2
          omega
        · have hn : n % 8 < 8 := Nat.mod_lt n (by norm_num)
          rw [hbits, Bytes.testBit_update, hop.changeByte _ _ hn, hdiv]
          split_ifs <;> first | rfl | omega

/-- The bits that the bytes of a range add to it, before its start, and leave out, before the
rest, have the value already. -/
def ShiftUnseen (v : Bool) (map : Bytes) (start count : ℕ) : Prop :=
  count < 8 ∨ ∀ n, (8 * (start / 8) ≤ n ∧ n < start) ∨
    (8 * (start / 8) + 8 * (count / 8) ≤ n ∧ n < start + 8 * (count / 8)) → map.testBit n = v

theorem bitarrayChangeBits_range_iff (hop : Turns op v) (array : Bitarray) (start count : ℕ) :
    RangeIs v start count array.map (bitarrayChangeBits op array start count).map ↔
      ShiftUnseen v array.map start count := by
  obtain ⟨map', hrun, hbytes⟩ := changeBytes_range hop count array.map (start / 8) start
  have hrest := changeRest_range hop (count % 8) map' (start + 8 * (count / 8))
  have hmap : (bitarrayChangeBits op array start count).map =
      changeRest op (count % 8) map' (start + 8 * (count / 8)) := by
    unfold bitarrayChangeBits
    rw [hrun]
  rw [hmap]
  constructor
  · intro h
    by_cases hfew : count < 8
    · exact Or.inl hfew
    · refine Or.inr fun n hn => ?_
      have hbit := h n
      rw [hrest n, hbytes n] at hbit
      split_ifs at hbit <;> first | exact hbit | exact hbit.symm | omega
  · intro h n
    rw [hrest n, hbytes n]
    rcases h with hfew | h
    · have hdiv : count / 8 = 0 := Nat.div_eq_of_lt hfew
      split_ifs <;> first | rfl | omega
    · have hn := h n
      split_ifs <;> first | rfl | exact hn (by omega) | exact (hn (by omega)).symm

theorem bitarrayEach_map (op : UInt8 → ℕ → UInt8) (count : ℕ) (array : Bitarray) (start : ℕ) :
    bitarrayEach (bitarrayChange op) count array start =
      { array with map := changeRest op count array.map start } := by
  induction count generalizing array start with
  | zero => rfl
  | succ count ih =>
      rw [bitarrayEach, ih]
      rfl

theorem bitarrayChangeBits_eq_each_iff (hop : Turns op v) :
    bitarrayChangeBits op array start count = bitarrayEach (bitarrayChange op) count array start ↔
      RangeIs v start count array.map (bitarrayChangeBits op array start count).map := by
  have heach := changeRest_range hop count array.map start
  rw [bitarrayEach_map]
  constructor
  · intro h
    rw [h]
    exact heach
  · intro h
    exact congrArg (fun map => { array with map }) (h.unique heach)

/-- Ranges are set and cleared right, and as bit by bit, exactly when their bytes add and leave
out only bits that have the value already. -/
theorem bitarray_ranges (array : Bitarray) (start count : ℕ) :
    ((RangeIs true start count array.map (bitarraySetBits array start count).map ∧
        bitarraySetBits array start count = bitarrayEach bitarraySet count array start) ↔
      ShiftUnseen true array.map start count) ∧
    ((RangeIs false start count array.map (bitarrayClearBits array start count).map ∧
        bitarrayClearBits array start count = bitarrayEach bitarrayClear count array start) ↔
      ShiftUnseen false array.map start count) := by
  have hset := bitarrayChangeBits_range_iff orBitmask_turns array start count
  have hclear := bitarrayChangeBits_range_iff andNotBitmask_turns array start count
  refine ⟨⟨fun h => hset.mp h.1, fun h => ?_⟩, ⟨fun h => hclear.mp h.1, fun h => ?_⟩⟩
  · exact ⟨hset.mpr h, (bitarrayChangeBits_eq_each_iff orBitmask_turns).mpr (hset.mpr h)⟩
  · exact ⟨hclear.mpr h, (bitarrayChangeBits_eq_each_iff andNotBitmask_turns).mpr (hclear.mpr h)⟩

/-- Setting 8 bits from bit 1 on sets bit 0, and not bit 8. -/
theorem bitarraySetBits_shifts :
    (bitarraySetBits ⟨fun _ => 0, 2⟩ 1 8).map.testBit 0 = true ∧
      (bitarraySetBits ⟨fun _ => 0, 2⟩ 1 8).map.testBit 8 = false ∧
      ¬ RangeIs true 1 8 (fun _ => 0) (bitarraySetBits ⟨fun _ => 0, 2⟩ 1 8).map := by
  refine ⟨by decide, by decide, fun h => absurd (h 0) (by decide)⟩

end Carthage
