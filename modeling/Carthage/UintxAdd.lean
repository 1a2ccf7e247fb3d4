import Carthage.UintxValue

/-!
# Adding numbers

The three loops of `uintx_add` carry on one addition: what is written and the carry together are
the sum of the bits read so far.
-/

namespace Carthage

open Storage

section Loops

variable {a b : Storage} {mem₀ mem : Bytes} {an bn i carry n m : ℕ}

/-- What bit `i` adds. -/
def digitSum (mem₀ : Bytes) (a : Storage) (an : ℕ) (b : Storage) (bn i : ℕ) : ℕ :=
  (if i < an then (mem₀.testBit (a.bitAddr i)).toNat else 0) +
    if i < bn then (mem₀.testBit (b.bitAddr i)).toNat else 0

/-- The addition of the first `i` bits is done. -/
structure AddedUpTo (mem₀ : Bytes) (a : Storage) (an : ℕ) (b : Storage) (bn : ℕ) (mem : Bytes)
    (i carry : ℕ) : Prop where
  carry_le : carry ≤ 1
  sum : a.val mem i + carry * 2 ^ i = a.val mem₀ (min i an) + b.val mem₀ (min i bn)
  outside : a.Outside i mem₀ mem

theorem val_min_succ (x : Storage) (mem : Bytes) (i n : ℕ) : x.val mem (min (i + 1) n) =
    x.val mem (min i n) + (if i < n then (mem.testBit (x.bitAddr i)).toNat else 0) * 2 ^ i := by
  split_ifs with hi
  · rw [min_eq_left hi, min_eq_left hi.le, val]
  · have h1 : min (i + 1) n = n := min_eq_right (by omega)
    have h2 : min i n = n := min_eq_right (not_lt.mp hi)
    rw [h1, h2, Nat.zero_mul, Nat.add_zero]

theorem AddedUpTo.step (h : AddedUpTo mem₀ a an b bn mem i carry) :
    AddedUpTo mem₀ a an b bn
      (mem.vsetBit (a.bitAddr i) ((digitSum mem₀ a an b bn i + carry) % 2)) (i + 1)
      ((digitSum mem₀ a an b bn i + carry) / 2) := by
  have hdigit : ∀ (p : Prop) [Decidable p] (v : Bool), (if p then v.toNat else 0) ≤ 1 := by
    intro p _ v
    split_ifs
    · exact Bool.toNat_le v
    · exact Nat.zero_le 1
  have hcarry := h.carry_le
  refine ⟨?_, ?_, ?_⟩
  · have h1 := hdigit (i < an) (mem₀.testBit (a.bitAddr i))
    have h2 := hdigit (i < bn) (mem₀.testBit (b.bitAddr i))
    unfold digitSum
    omega
  · rw [val_vset_succ, toNat_bit, val_min_succ, val_min_succ]
    calc a.val mem i + (digitSum mem₀ a an b bn i + carry) % 2 * 2 ^ i +
          (digitSum mem₀ a an b bn i + carry) / 2 * 2 ^ (i + 1) =
        a.val mem i + ((digitSum mem₀ a an b bn i + carry) % 2 +
          2 * ((digitSum mem₀ a an b bn i + carry) / 2)) * 2 ^ i := by ring
      _ = (a.val mem i + carry * 2 ^ i) + digitSum mem₀ a an b bn i * 2 ^ i := by
          rw [Nat.mod_add_div]
          ring
      _ = _ := by
          rw [h.sum, digitSum]
          ring
  · exact (h.outside.mono (Nat.le_succ i)).trans (outside_vset (Nat.lt_succ_self i))

theorem uintxAddLoop_spec (digit : Bytes → ℕ → Option ℕ) (ha : uintxNbytes m ≤ a.size)
    (h : AddedUpTo mem₀ a an b bn mem i carry) (hm : i + n ≤ m)
    (hdigit : ∀ mem' j, i ≤ j → j < i + n → a.Outside j mem₀ mem' →
      digit mem' j = some (digitSum mem₀ a an b bn j)) :
    ∃ mem' carry', uintxAddLoop a digit n mem i carry = some (mem', i + n, carry') ∧
      AddedUpTo mem₀ a an b bn mem' (i + n) carry' := by
  induction n generalizing mem i carry with
  | zero => exact ⟨mem, carry, rfl, h⟩
  | succ n ih =>
      obtain ⟨mem', carry', hrun, hadded⟩ := ih h.step (by omega)
        fun mem' j h1 h2 => hdigit mem' j (by omega) (by omega)
      have hi : i + 1 + n = i + (n + 1) := by omega
      rw [hi] at hrun hadded
      refine ⟨mem', carry', ?_, hadded⟩
      have hlt : i < m := by omega
      rw [uintxAddLoop, hdigit mem i le_rfl (by omega) h.outside]
      simp only [Option.bind_eq_bind, Option.bind_some, vset_eq (div_lt_size hlt ha)]
      exact hrun

theorem bit_unchanged {x : Storage} (hx : uintxNbytes n ≤ x.size) (hi : i < n)
    (h : mem.testBit (x.bitAddr i) = mem₀.testBit (x.bitAddr i)) :
    (x.bit mem i).map Bool.toNat = some (mem₀.testBit (x.bitAddr i)).toNat := by
  rw [bit_eq (div_lt_size hi hx), h]
  rfl

theorem uintxAdd_spec (ha : uintxNbytes (max an bn) ≤ a.size) (hb : uintxNbytes bn ≤ b.size)
    (hab : a.Apart b) (mem : Bytes) :
    ∃ mem' carry, AddedUpTo mem a an b bn mem' (max an bn) carry ∧
      uintxAdd mem a an b bn = if carry ≠ 0 then a.set mem' (max an bn) else some mem' := by
  have hbitA : ∀ mem' j, j < an → a.Outside j mem mem' →
      (a.bit mem' j).map Bool.toNat = some (mem.testBit (a.bitAddr j)).toNat := by
    intro mem' j hj hout
    exact bit_unchanged ha (lt_max_of_lt_left hj) (hout _ (Or.inr le_rfl))
  have hbitB : ∀ mem' j, j < bn → a.Outside j mem mem' →
      (b.bit mem' j).map Bool.toNat = some (mem.testBit (b.bitAddr j)).toNat := by
    intro mem' j hj hout
    exact bit_unchanged hb hj ((hout.mono (lt_max_of_lt_right hj).le).apart hab ha
      (div_lt_size hj hb))
  have hstart : AddedUpTo mem a an b bn mem 0 0 :=
    ⟨Nat.zero_le 1, by simp [val], .refl a 0 mem⟩
  obtain ⟨mem₁, carry₁, hrun₁, h₁⟩ := uintxAddLoop_spec
    (fun mem i => do return (← (a.bit mem i).map Bool.toNat) + (← (b.bit mem i).map Bool.toNat))
    ha hstart (n := min an bn) (by omega) fun mem' j _ hj hout => by
      rw [hbitA mem' j (by omega) hout, hbitB mem' j (by omega) hout, digitSum,
        if_pos (by omega), if_pos (by omega)]
      rfl
  obtain ⟨mem₂, carry₂, hrun₂, h₂⟩ := uintxAddLoop_spec (fun mem i => (a.bit mem i).map Bool.toNat)
    ha h₁ (n := an - (0 + min an bn)) (by omega) fun mem' j h1 h2 hout => by
      rw [hbitA mem' j (by omega) hout, digitSum, if_pos (by omega), if_neg (by omega)]
      rfl
  obtain ⟨mem₃, carry₃, hrun₃, h₃⟩ := uintxAddLoop_spec (fun mem i => (b.bit mem i).map Bool.toNat)
    ha h₂ (n := bn - (0 + min an bn + (an - (0 + min an bn)))) (by omega)
    fun mem' j h1 h2 hout => by
      rw [hbitB mem' j (by omega) hout, digitSum, if_neg (by omega), if_pos (by omega), Nat.zero_add]
  have hend : 0 + min an bn + (an - (0 + min an bn)) +
      (bn - (0 + min an bn + (an - (0 + min an bn)))) = max an bn := by omega
  rw [hend] at hrun₃ h₃
  refine ⟨mem₃, carry₃, h₃, ?_⟩
  unfold uintxAdd
  simp only [Option.bind_eq_bind] at hrun₁ ⊢
  rw [hrun₁, Option.bind_some, hrun₂, Option.bind_some, hrun₃, Option.bind_some]

theorem uintxAdd_eq (ha : uintxNbytes (max an bn) ≤ a.size) (hb : uintxNbytes bn ≤ b.size)
    (hab : a.Apart b) (hsum : a.val mem an + b.val mem bn < 2 ^ max an bn) :
    ∃ mem', uintxAdd mem a an b bn = some mem' ∧
      a.val mem' (max an bn) = a.val mem an + b.val mem bn ∧ a.Outside (max an bn) mem mem' := by
  obtain ⟨mem', carry, hadded, hrun⟩ := uintxAdd_spec ha hb hab mem
  have htotal := hadded.sum
  rw [min_eq_right (le_max_left an bn), min_eq_right (le_max_right an bn)] at htotal
  have hcarry : carry = 0 := by
    by_contra hne
    have hle : 1 * 2 ^ max an bn ≤ carry * 2 ^ max an bn :=
      Nat.mul_le_mul_right _ (Nat.pos_of_ne_zero hne)
    omega
  rw [hcarry, Nat.zero_mul, Nat.add_zero] at htotal
  refine ⟨mem', ?_, htotal, hadded.outside⟩
  rw [hrun, hcarry, if_neg (not_not.mpr rfl)]

/-- `uintx_add` leaves the sum in the low bits of `a`, and everything else as it was. -/
theorem uintxAdd_adds (ha : uintxNbytes (max an bn) ≤ a.size) (hb : uintxNbytes bn ≤ b.size)
    (hab : a.Apart b) (hsum : a.val mem an + b.val mem bn < 2 ^ max an bn) :
    ∃ mem', uintxAdd mem a an b bn = some mem' ∧
      a.val mem' (max an bn) = a.val mem an + b.val mem bn ∧
      (∀ i, max an bn ≤ i → mem'.testBit (a.bitAddr i) = mem.testBit (a.bitAddr i)) ∧
      (∀ k < b.size, mem' (b.addr + k) = mem (b.addr + k)) ∧
      ∀ k, k < a.addr ∨ a.addr + a.size ≤ k → mem' k = mem k := by
  obtain ⟨mem', hrun, hval, hout⟩ := uintxAdd_eq ha hb hab hsum
  refine ⟨mem', hrun, hval, fun i hi => hout _ (Or.inr (Nat.add_le_add_left hi _)),
    fun k hk => hout.byte ha ?_, fun k hk => hout.byte ha hk⟩
  unfold Storage.Apart at hab
  omega

/-- Five bits added to twelve. -/
theorem uintxAdd_adds_twelve : ∃ mem',
    uintxAdd (Bytes.write (fun _ => 0) 0 [0xff, 0xf3, 0x1f]) ⟨0, 2⟩ 12 ⟨2, 1⟩ 5 = some mem' ∧
      Storage.val ⟨0, 2⟩ mem' 12 =
        Storage.val ⟨0, 2⟩ (Bytes.write (fun _ => 0) 0 [0xff, 0xf3, 0x1f]) 12 +
          Storage.val ⟨2, 1⟩ (Bytes.write (fun _ => 0) 0 [0xff, 0xf3, 0x1f]) 5 ∧
      (∀ i, 12 ≤ i → mem'.testBit (Storage.bitAddr ⟨0, 2⟩ i) =
        (Bytes.write (fun _ => 0) 0 [0xff, 0xf3, 0x1f]).testBit (Storage.bitAddr ⟨0, 2⟩ i)) ∧
      (∀ k < 1, mem' (2 + k) = Bytes.write (fun _ => 0) 0 [0xff, 0xf3, 0x1f] (2 + k)) ∧
      ∀ k, k < 0 ∨ 0 + 2 ≤ k → mem' k = Bytes.write (fun _ => 0) 0 [0xff, 0xf3, 0x1f] k :=
  uintxAdd_adds (by decide) (by decide) (Or.inl (by decide)) (by decide)

end Loops

end Carthage
