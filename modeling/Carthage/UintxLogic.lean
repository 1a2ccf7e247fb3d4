import Carthage.UintxAdd

/-!
# Combining numbers bit by bit

`uintx_and`, `uintx_or` and `uintx_xor` stop at the shorter operand, which leaves the bits of a
longer first operand as they are, as if the second one had ones there for `uintx_and`. With a
number of 64 bits they stay inside the array, and `uintx_add64` does so when its array has 8 bytes.
-/

namespace Carthage

open Storage

section Logic

variable {a b : Storage} {mem : Bytes} {an bn i n m : ℕ}

theorem uintxLogicLoop_spec (op : Bool → Bool → Bool) (ha : uintxNbytes m ≤ a.size)
    (hb : uintxNbytes m ≤ b.size) (hab : a.Apart b) (mem : Bytes) (hm : i + n ≤ m) :
    ∃ mem', uintxLogicLoop op a b n mem i = some mem' ∧ a.Outside m mem mem' ∧
      ∀ j, mem'.testBit (a.bitAddr j) = if i ≤ j ∧ j < i + n then
        op (mem.testBit (a.bitAddr j)) (mem.testBit (b.bitAddr j)) else mem.testBit (a.bitAddr j) := by
  induction n generalizing mem i with
  | zero => exact ⟨mem, rfl, .refl a m mem, fun j => (if_neg (by omega)).symm⟩
  | succ n ih =>
      have hi : i < m := by omega
      have hset : ∀ v : Bool, decide (v.toNat ≠ 0) = v := by decide
      have hone : ∀ v, a.Outside m mem (mem.vsetBit (a.bitAddr i) v) := fun v => outside_vset hi
      obtain ⟨mem', hrun, hout, hbits⟩ := ih (mem.vsetBit (a.bitAddr i)
        (op (mem.testBit (a.bitAddr i)) (mem.testBit (b.bitAddr i))).toNat) (i := i + 1) (by omega)
      refine ⟨mem', ?_, (hone _).trans hout, fun j => ?_⟩
      · rw [uintxLogicLoop, bit_eq (div_lt_size hi ha), bit_eq (div_lt_size hi hb)]
        simp only [Option.bind_eq_bind, Option.bind_some, vset_eq (div_lt_size hi ha)]
        exact hrun
      · rw [hbits, testBit_vset, hset]
        by_cases hj : i + 1 ≤ j ∧ j < i + 1 + n
        · have hjb : j / 8 < b.size := div_lt_size (by omega) hb
          rw [if_pos hj, if_neg (by omega), (hone _).apart hab ha hjb, if_pos (by omega)]
        · rw [if_neg hj]
          by_cases hji : j = i
          · rw [if_pos hji, if_pos (by omega), hji]
          · rw [if_neg hji, if_neg (by omega)]

theorem uintxLogicLoop_val (op : Bool → Bool → Bool) (hn : bn ≤ an) (ha : uintxNbytes an ≤ a.size)
    (hb : uintxNbytes bn ≤ b.size) (hab : a.Apart b) (mem : Bytes) :
    ∃ mem', uintxLogicLoop op a b (min an bn) mem 0 = some mem' ∧ a.Outside bn mem mem' ∧
      ∀ i, (a.val mem' an).testBit i = if i < bn then
        op ((a.val mem an).testBit i) ((b.val mem bn).testBit i)
        else (a.val mem an).testBit i := by
  have ha' : uintxNbytes bn ≤ a.size := by
    unfold uintxNbytes at ha ⊢
    omega
  obtain ⟨mem', hrun, hout, hbits⟩ := uintxLogicLoop_spec op (i := 0) (n := bn) ha' hb hab mem
    (by omega)
  refine ⟨mem', by rw [min_eq_right hn, hrun], hout, fun i => ?_⟩
  rw [testBit_val, testBit_val, testBit_val, hbits]
  by_cases hi : i < bn
  · simp [hi, hi.trans_le hn]
  · simp [hi]

/-- The first number becomes the combination of the two, as integers. -/
def Combines (f : Bytes → Storage → ℕ → Storage → ℕ → Option Bytes) (g : ℕ → ℕ → ℕ) (mem : Bytes)
    (a : Storage) (an : ℕ) (b : Storage) (bn : ℕ) : Prop :=
  ∃ mem', f mem a an b bn = some mem' ∧ a.val mem' an = g (a.val mem an) (b.val mem bn)

theorem val_lt_iff (x : Storage) (mem : Bytes) (n m : ℕ) :
    x.val mem n < 2 ^ m ↔ ∀ i, m ≤ i → (x.val mem n).testBit i = false :=
  ⟨fun h i hi => Nat.testBit_lt_two_pow (h.trans_le (Nat.pow_le_pow_right (by norm_num) hi)),
    fun h => Nat.lt_pow_two_of_testBit _ h⟩

section Operations

variable (hn : bn ≤ an) (ha : uintxNbytes an ≤ a.size) (hb : uintxNbytes bn ≤ b.size)
  (hab : a.Apart b) (mem : Bytes)

include hn ha hb hab

theorem combines_of_neutral (op : Bool → Bool → Bool) (g : ℕ → ℕ → ℕ)
    (hg : ∀ x y i, (g x y).testBit i = op (x.testBit i) (y.testBit i))
    (hop : ∀ v, op v false = v) :
    Combines (fun mem a an b bn => uintxLogicLoop op a b (min an bn) mem 0) g mem a an b bn := by
  obtain ⟨mem', hrun, -, hbits⟩ := uintxLogicLoop_val op hn ha hb hab mem
  refine ⟨mem', hrun, Nat.eq_of_testBit_eq fun i => ?_⟩
  rw [hbits, hg]
  split_ifs with hi
  · rfl
  · rw [testBit_val b, decide_eq_false hi, Bool.false_and, hop]

theorem combines_or : Combines uintxOr (· ||| ·) mem a an b bn :=
  combines_of_neutral hn ha hb hab mem or _ Nat.testBit_or Bool.or_false

theorem combines_xor : Combines uintxXor (· ^^^ ·) mem a an b bn :=
  combines_of_neutral hn ha hb hab mem xor _ Nat.testBit_xor Bool.xor_false

theorem combines_and_iff : Combines uintxAnd (· &&& ·) mem a an b bn ↔ a.val mem an < 2 ^ bn := by
  obtain ⟨mem', hrun, -, hbits⟩ := uintxLogicLoop_val and hn ha hb hab mem
  rw [val_lt_iff]
  constructor
  · rintro ⟨mem₁, hrun₁, hval⟩ i hi
    obtain rfl := Option.some.inj (hrun.symm.trans hrun₁)
    have hbit := hbits i
    rw [hval, Nat.testBit_and, if_neg (not_lt.mpr hi), testBit_val b,
      decide_eq_false (not_lt.mpr hi), Bool.false_and, Bool.and_false] at hbit
    exact hbit.symm
  · intro hsmall
    refine ⟨mem', hrun, Nat.eq_of_testBit_eq fun i => ?_⟩
    rw [hbits, Nat.testBit_and]
    split_ifs with hi
    · rfl
    · rw [hsmall i (not_lt.mp hi), Bool.false_and]

end Operations

end Logic

/-! ## Numbers of 64 bits -/

section U64

variable {stack n : ℕ} {x : Storage} {value : UInt64}

theorem room64 : uintxNbytes 64 ≤ 8 := by decide

theorem withU64_eq {R : Type} (op : Bytes → Storage → ℕ → Storage → ℕ → Option R)
    (hx : x.Apart ⟨stack, 8⟩) (hn : uintxNbytes n ≤ x.size) (mem : Bytes) (value : UInt64) :
    ∃ mem₁, withU64 op stack mem x n value = op mem₁ x n ⟨stack, 8⟩ 64 ∧
      x.val mem₁ n = x.val mem n ∧ Storage.val ⟨stack, 8⟩ mem₁ 64 = value.toNat ∧
      Storage.Outside ⟨stack, 8⟩ 64 mem mem₁ := by
  obtain ⟨mem₁, hrun, hval, hout⟩ := uintxFromU64_spec (x := ⟨stack, 8⟩) mem value le_rfl
  refine ⟨mem₁, ?_, hout.val_apart hx.symm room64 hn, hval, hout⟩
  unfold withU64
  rw [hrun]
  rfl

/-- The number becomes its combination with one of 64 bits. -/
def Combines64 (f : ℕ → Bytes → Storage → ℕ → UInt64 → Option Bytes) (g : ℕ → ℕ → ℕ) (stack : ℕ)
    (mem : Bytes) (x : Storage) (n : ℕ) (value : UInt64) : Prop :=
  ∃ mem', f stack mem x n value = some mem' ∧ x.val mem' n = g (x.val mem n) value.toNat

variable (value) in
theorem combines64_iff (op : Bytes → Storage → ℕ → Storage → ℕ → Option Bytes) (g : ℕ → ℕ → ℕ)
    {P : ℕ → Prop} (hx : x.Apart ⟨stack, 8⟩) (hn : uintxNbytes n ≤ x.size)
    (hop : ∀ mem, Combines op g mem x n ⟨stack, 8⟩ 64 ↔ P (x.val mem n)) (mem : Bytes) :
    Combines64 (withU64 op) g stack mem x n value ↔ P (x.val mem n) := by
  obtain ⟨mem₁, hwith, hval, hvalue, -⟩ := withU64_eq op hx hn mem value
  have hiff := hop mem₁
  unfold Combines at hiff
  unfold Combines64
  rwa [hwith, ← hval, ← hvalue]

/-- `uintx_or` and `uintx_xor` combine the numbers, and `uintx_and` does so exactly when the first
one has no bits above the width of the second. -/
theorem uintxLogic_combines {a b : Storage} {an bn : ℕ} (hn : bn ≤ an)
    (ha : uintxNbytes an ≤ a.size) (hb : uintxNbytes bn ≤ b.size) (hab : a.Apart b) (mem : Bytes) :
    (Combines uintxAnd (· &&& ·) mem a an b bn ∧ Combines uintxOr (· ||| ·) mem a an b bn ∧
      Combines uintxXor (· ^^^ ·) mem a an b bn ↔ a.val mem an < 2 ^ bn) ∧
    ∀ (stack : ℕ) (value : UInt64), 64 ≤ an → a.Apart ⟨stack, 8⟩ →
      (Combines64 uintxAnd64 (· &&& ·) stack mem a an value ∧
        Combines64 uintxOr64 (· ||| ·) stack mem a an value ∧
        Combines64 uintxXor64 (· ^^^ ·) stack mem a an value ↔ a.val mem an < 2 ^ 64) := by
  constructor
  · rw [combines_and_iff hn ha hb hab mem]
    exact and_iff_left ⟨combines_or hn ha hb hab mem, combines_xor hn ha hb hab mem⟩
  · intro stack value hwide hapart
    have hand := combines64_iff value (P := (· < 2 ^ 64)) uintxAnd _ hapart ha
      (fun mem => combines_and_iff hwide ha room64 hapart mem) mem
    have hor := combines64_iff value (P := fun _ => True) uintxOr _ hapart ha
      (fun mem => iff_of_true (combines_or hwide ha room64 hapart mem) trivial) mem
    have hxor := combines64_iff value (P := fun _ => True) uintxXor _ hapart ha
      (fun mem => iff_of_true (combines_xor hwide ha room64 hapart mem) trivial) mem
    exact ⟨fun h => hand.mp h.1, fun h => ⟨hand.mpr h, hor.mpr trivial, hxor.mpr trivial⟩⟩

/-- Eight and nine bits. -/
theorem uintxLogic_combines_nine :
    Combines uintxAnd (· &&& ·) (Bytes.write (fun _ => 0) 0 [7, 0, 5]) ⟨0, 2⟩ 9 ⟨2, 1⟩ 8 ∧
      Combines uintxOr (· ||| ·) (Bytes.write (fun _ => 0) 0 [7, 0, 5]) ⟨0, 2⟩ 9 ⟨2, 1⟩ 8 ∧
      Combines uintxXor (· ^^^ ·) (Bytes.write (fun _ => 0) 0 [7, 0, 5]) ⟨0, 2⟩ 9 ⟨2, 1⟩ 8 ↔
        Storage.val ⟨0, 2⟩ (Bytes.write (fun _ => 0) 0 [7, 0, 5]) 9 < 2 ^ 8 :=
  (uintxLogic_combines (by decide) (by decide) (by decide) (Or.inl (by decide)) _).1

/-- Nine bits, the highest of which is set, and a zero of eight bits. -/
theorem uintxAnd_keeps_bit : ¬ Combines uintxAnd (· &&& ·) (Bytes.write (fun _ => 0) 0 [0, 1, 0])
    ⟨0, 2⟩ 9 ⟨2, 1⟩ 8 := by
  have hval : Storage.val ⟨0, 2⟩ (Bytes.write (fun _ => 0) 0 [0, 1, 0]) 9 = 256 := by decide
  rw [combines_and_iff (by decide) (by decide) (by decide) (Or.inl (by decide)), hval]
  decide

/-! ## What is touched -/

/-- An operation ends, without an access outside the two arrays, and leaves the memory next to
them as it was. -/
def Inside (f : ℕ → Bytes → Storage → ℕ → UInt64 → Option Bytes) (stack : ℕ) (mem : Bytes)
    (x : Storage) (n : ℕ) (value : UInt64) : Prop :=
  ∃ mem', f stack mem x n value = some mem' ∧ ∀ k, (k < x.addr ∨ x.addr + x.size ≤ k) →
    (k < stack ∨ stack + 8 ≤ k) → mem' k = mem k

theorem inside_of_op {op : Bytes → Storage → ℕ → Storage → ℕ → Option Bytes} {m : ℕ}
    (hx : x.Apart ⟨stack, 8⟩) (hn : uintxNbytes n ≤ x.size) (hm : uintxNbytes m ≤ x.size)
    (mem : Bytes) (hop : ∀ mem₁, x.val mem₁ n = x.val mem n →
      Storage.val ⟨stack, 8⟩ mem₁ 64 = value.toNat →
      ∃ mem', op mem₁ x n ⟨stack, 8⟩ 64 = some mem' ∧ x.Outside m mem₁ mem') :
    Inside (withU64 op) stack mem x n value := by
  obtain ⟨mem₁, hwith, hval, hvalue, hout⟩ := withU64_eq op hx hn mem value
  obtain ⟨mem', hrun, hout'⟩ := hop mem₁ hval hvalue
  refine ⟨mem', hwith.trans hrun, fun k hk hk' => ?_⟩
  rw [hout'.byte hm hk, hout.byte room64 hk']

theorem logic_inside (op : Bool → Bool → Bool) (hx : x.Apart ⟨stack, 8⟩)
    (hn : uintxNbytes n ≤ x.size) (mem : Bytes) :
    Inside (withU64 fun mem a an b bn => uintxLogicLoop op a b (min an bn) mem 0) stack mem x n
      value := by
  have hmin : uintxNbytes (min n 64) ≤ x.size ∧ uintxNbytes (min n 64) ≤ 8 := by
    unfold uintxNbytes at hn ⊢
    omega
  refine inside_of_op hx hn hmin.1 mem fun mem₁ _ _ => ?_
  obtain ⟨mem', hrun, hout, -⟩ := uintxLogicLoop_spec op (b := ⟨stack, 8⟩) (i := 0) (n := min n 64)
    hmin.1 hmin.2 hx mem₁ (by omega)
  exact ⟨mem', hrun, hout⟩

theorem uintxAddLoop_inside {a : Storage} {digit : Bytes → ℕ → Option ℕ} {n i carry : ℕ}
    {mem : Bytes} {r : Bytes × ℕ × ℕ} (h : uintxAddLoop a digit n mem i carry = some r) :
    r.2.1 = i + n ∧ ∀ j, i ≤ j → j < i + n → j / 8 < a.size := by
  induction n generalizing mem i carry with
  | zero =>
      obtain rfl := Option.some.inj h
      exact ⟨rfl, fun j h1 h2 => by omega⟩
  | succ n ih =>
      rw [uintxAddLoop] at h
      simp only [Option.bind_eq_bind, Option.bind_eq_some_iff] at h
      obtain ⟨d, -, mem₁, hset, hrest⟩ := h
      obtain ⟨hend, hin⟩ := ih hrest
      refine ⟨by omega, fun j h1 h2 => ?_⟩
      rcases Nat.eq_or_lt_of_le h1 with rfl | hlt
      · by_contra hout
        rw [Storage.vset, if_neg hout] at hset
        cases hset
      · exact hin j hlt (by omega)

theorem uintxAdd_inside {a b : Storage} {an bn : ℕ} {mem mem' : Bytes}
    (h : uintxAdd mem a an b bn = some mem') {j : ℕ} (hj : j < max an bn) : j / 8 < a.size := by
  unfold uintxAdd at h
  simp only [Option.bind_eq_bind, Option.bind_eq_some_iff] at h
  obtain ⟨⟨mem₁, i₁, c₁⟩, h₁, ⟨mem₂, i₂, c₂⟩, h₂, ⟨mem₃, i₃, c₃⟩, h₃, -⟩ := h
  obtain ⟨hend₁, hin₁⟩ := uintxAddLoop_inside h₁
  obtain ⟨hend₂, hin₂⟩ := uintxAddLoop_inside h₂
  obtain ⟨-, hin₃⟩ := uintxAddLoop_inside h₃
  simp only at hend₁ hend₂
  rcases Nat.lt_or_ge j i₁ with h1 | h1
  · exact hin₁ j (Nat.zero_le j) (by omega)
  rcases Nat.lt_or_ge j i₂ with h2 | h2
  · exact hin₂ j h1 (by omega)
  · exact hin₃ j h2 (by omega)

theorem Inside.room {mem : Bytes} (h : Inside uintxAdd64 stack mem x n value)
    (hx : x.Apart ⟨stack, 8⟩) (hn : uintxNbytes n ≤ x.size) : 8 ≤ x.size := by
  obtain ⟨mem', hrun, -⟩ := h
  obtain ⟨mem₁, hwith, -⟩ := withU64_eq uintxAdd hx hn mem value
  have hlast := uintxAdd_inside (hwith.symm.trans hrun) (lt_max_of_lt_right (Nat.lt_succ_self 63))
  omega

/-- The operations stay inside a number's bytes exactly when these are as many as those of 64
bits. -/
theorem uintx64_inside (hx : x.Apart ⟨stack, 8⟩) (hn : x.size = uintxNbytes n) (mem : Bytes)
    (hsum : x.val mem n + value.toNat < 2 ^ n) :
    (Inside uintxAdd64 stack mem x n value ∧ Inside uintxAnd64 stack mem x n value ∧
      Inside uintxOr64 stack mem x n value ∧ Inside uintxXor64 stack mem x n value) ↔ 57 ≤ n := by
  constructor
  · rintro ⟨hadd, -⟩
    have hroom := hadd.room hx hn.ge
    unfold uintxNbytes at hn
    omega
  · intro hwide
    have hmax : uintxNbytes (max n 64) ≤ x.size := by
      rw [hn]
      unfold uintxNbytes
      omega
    refine ⟨inside_of_op hx hn.ge hmax mem fun mem₁ hval hvalue => ?_,
      logic_inside and hx hn.ge mem, logic_inside or hx hn.ge mem, logic_inside xor hx hn.ge mem⟩
    have hfits : x.val mem₁ n + Storage.val ⟨stack, 8⟩ mem₁ 64 < 2 ^ max n 64 := by
      rw [hval, hvalue]
      exact hsum.trans_le (Nat.pow_le_pow_right (by norm_num) (le_max_left n 64))
    obtain ⟨mem', hrun, -, hout⟩ := uintxAdd_eq hmax room64 hx hfits
    exact ⟨mem', hrun, hout⟩

/-- A number of 57 bits. -/
theorem uintx64_inside_wide :
    (Inside uintxAdd64 8 (fun _ => 0) ⟨0, 8⟩ 57 5 ∧ Inside uintxAnd64 8 (fun _ => 0) ⟨0, 8⟩ 57 5 ∧
      Inside uintxOr64 8 (fun _ => 0) ⟨0, 8⟩ 57 5 ∧
      Inside uintxXor64 8 (fun _ => 0) ⟨0, 8⟩ 57 5) ↔ 57 ≤ 57 :=
  uintx64_inside (Or.inl (by decide)) (by decide) _ (by decide)

/-- A number of 8 bits, and the byte behind it. -/
theorem uintxAdd64_narrow : ¬ Inside uintxAdd64 8 (fun _ => 0) ⟨0, 1⟩ 8 1 := by
  intro h
  exact absurd (h.room (Or.inl (by decide)) (by decide)) (by decide)

end U64

end Carthage
