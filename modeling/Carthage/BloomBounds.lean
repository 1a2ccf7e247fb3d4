import Carthage.Bloom

/-!
# The bytes of a Bloom filter

`bloom_alloc` rounds the number of bits down to bytes, in 32 bits, while the bits of the last
slice are counted from all the bits before it. What a filter accesses is inside its map for all
hashes exactly when the bits fill whole bytes and are fewer than `2 ^ 32`.
-/

namespace Carthage

variable {K : Type} {b b' : Bloom K} {map : Bytes} {hashes : ℕ → ℕ} {hi offset i : ℕ} {key : K}

def Bloom.BitInside (b : Bloom K) (n : ℕ) : Prop := n % 2 ^ 32 / 8 < b.nbytes

theorem sliceBit_mod (b : Bloom K) (hashes : ℕ → ℕ) (offset hi i : ℕ) :
    sliceBit b hashes (offset % 2 ^ 32) hi i % 2 ^ 32 = sliceBit b hashes offset hi i % 2 ^ 32 := by
  unfold sliceBit
  omega

theorem bitInside_succ : (∀ i < hi + 1, b.BitInside (sliceBit b hashes offset (hi + 1) i)) ↔
    b.BitInside (offset + hashes hi) ∧
      ∀ i < hi, b.BitInside (sliceBit b hashes (add32 offset b.bitsPerSlice) hi i) := by
  have hnext : ∀ i < hi, (b.BitInside (sliceBit b hashes offset (hi + 1) i) ↔
      b.BitInside (sliceBit b hashes (add32 offset b.bitsPerSlice) hi i)) := by
    intro i hlt
    unfold Bloom.BitInside add32
    rw [sliceBit_mod, sliceBit_succ hlt]
  rw [Nat.forall_lt_succ_right, sliceBit_last, and_comm]
  exact and_congr_right fun _ => forall₂_congr hnext

theorem bloomAddLoop_some_iff (map : Bytes) :
    (∃ map', bloomAddLoop b hashes hi offset map = some map') ↔
      ∀ i < hi, b.BitInside (sliceBit b hashes offset hi i) := by
  induction hi generalizing offset map with
  | zero => exact iff_of_true ⟨map, rfl⟩ fun i hi => absurd hi (Nat.not_lt_zero i)
  | succ hi ih =>
      rw [bitInside_succ, bloomAddLoop]
      by_cases hin : add32 offset (hashes hi) / 8 < b.nbytes
      · have hbit : b.BitInside (offset + hashes hi) := hin
        rw [and_iff_right hbit, ← ih (map.setBit _), Bloom.bitSet, if_pos hin]
        rfl
      · rw [Bloom.bitSet, if_neg hin]
        refine iff_of_false ?_ fun h => hin h.1
        rintro ⟨_, h⟩
        cases h

theorem bloomContainsLoop_some (h : ∀ i < hi, b.BitInside (sliceBit b hashes offset hi i)) :
    ∃ r, bloomContainsLoop b hashes hi offset = some r := by
  induction hi generalizing offset with
  | zero => exact ⟨1, rfl⟩
  | succ hi ih =>
      obtain ⟨hbit, hrest⟩ := bitInside_succ.mp h
      have hin : add32 offset (hashes hi) / 8 < b.nbytes := hbit
      rw [bloomContainsLoop, Bloom.bitTest, if_pos hin]
      simp only [Option.bind_eq_bind, Option.bind_some]
      split_ifs
      · exact ih hrest
      · exact ⟨0, rfl⟩

/-- The bits of a key that are accessed are inside: the one of the last hash, which is the first
slice, and the others as well unless nothing can be added. -/
def Bloom.KeyInside (b : Bloom K) (key : K) : Prop :=
  (b.hashFunc key b.numSlices b.bitsPerSlice).1 = 0 → ∀ i < b.numSlices,
    i + 1 = b.numSlices ∨ 0 < b.capacity → b.BitInside
      (sliceBit b (b.hashFunc key b.numSlices b.bitsPerSlice).2 0 b.numSlices i)

/-- In every run of additions, and for every key looked up after it, no byte outside the map is
accessed. -/
def Bloom.RunsInside (b : Bloom K) : Prop :=
  ∀ keys, ∃ rcs b', runAll bloomAdd b keys = some (rcs, b') ∧
    ∀ key, ∃ r, bloomContains b' key = some r

/-- What additions leave: all but the map and the count, and these as well when nothing can be
added. -/
structure Bloom.Reached (b b' : Bloom K) : Prop where
  shape : b.SameShape b'
  capacity : b'.capacity = b.capacity
  full : b.capacity = 0 → b'.bitarray = b.bitarray

theorem Bloom.Reached.refl (b : Bloom K) : b.Reached b := ⟨⟨rfl, rfl, rfl⟩, rfl, fun _ => rfl⟩

theorem Bloom.Reached.trans {b'' : Bloom K} (h : b.Reached b') (h' : b'.Reached b'') :
    b.Reached b'' := by
  obtain ⟨⟨h1, h2, h3⟩, hcap, hfull⟩ := h
  obtain ⟨⟨h1', h2', h3'⟩, hcap', hfull'⟩ := h'
  exact ⟨⟨h1'.trans h1, h2'.trans h2, h3'.trans h3⟩, hcap'.trans hcap,
    fun h => (hfull' (hcap.trans h)).trans (hfull h)⟩

theorem Bloom.Reached.inside (h : b.Reached b') (hkey : b.KeyInside key) : b'.KeyInside key := by
  obtain ⟨⟨h1, h2, h3⟩, hcap, -⟩ := h
  unfold Bloom.KeyInside Bloom.BitInside Bloom.nbytes sliceBit at hkey ⊢
  rw [h1, h2, h3, hcap]
  exact hkey

theorem bloomAdd_reached (h : b.KeyInside key) :
    ∃ rc b', bloomAdd b key = some (rc, b') ∧ b.Reached b' := by
  unfold bloomAdd
  by_cases hfull : b.count ≥ b.capacity
  · rw [if_pos hfull]
    exact ⟨1, b, rfl, .refl b⟩
  · rw [if_neg hfull]
    by_cases hrc : (b.hashFunc key b.numSlices b.bitsPerSlice).1 = 0
    · obtain ⟨map, hloop⟩ := (bloomAddLoop_some_iff b.bitarray).mpr
        fun i hlt => h hrc i hlt (Or.inr (by omega))
      refine ⟨0, { b with bitarray := map, count := b.count + 1 }, ?_, ⟨⟨rfl, rfl, rfl⟩, rfl, ?_⟩⟩
      · simp only [hrc, ne_eq, not_true_eq_false, if_false, hloop, Option.bind_eq_bind,
          Option.bind_some, Option.pure_def]
      · exact fun hzero => absurd (Nat.zero_le b.count) (hzero ▸ hfull)
    · exact ⟨-1, b, if_pos hrc, .refl b⟩

theorem bloomRun_reached (h : ∀ key, b.KeyInside key) (keys : List K) :
    ∃ rcs b', runAll bloomAdd b keys = some (rcs, b') ∧ b.Reached b' := by
  induction keys generalizing b with
  | nil => exact ⟨[], b, rfl, .refl b⟩
  | cons key keys ih =>
      obtain ⟨rc, b₁, hadd, h₁⟩ := bloomAdd_reached (h key)
      obtain ⟨rcs, b', hrun, h'⟩ := ih fun key => h₁.inside (h key)
      refine ⟨rc :: rcs, b', ?_, h₁.trans h'⟩
      rw [runAll_cons, hadd, Option.bind_some, hrun]
      rfl

theorem bloomContainsLoop_empty (hempty : b.bitarray = fun _ => 0)
    (h : b.BitInside (offset + hashes hi)) :
    bloomContainsLoop b hashes (hi + 1) offset = some 0 := by
  have hin : add32 offset (hashes hi) / 8 < b.nbytes := h
  have hclear : b.bitarray.testBit (add32 offset (hashes hi)) = false := by
    rw [Bytes.testBit_eq, hempty]
    exact Nat.zero_testBit _
  rw [bloomContainsLoop, Bloom.bitTest, if_pos hin]
  simp only [Option.bind_eq_bind, Option.bind_some, hclear, Bool.false_eq_true, if_false]

theorem bloomContainsLoop_first {r : ℤ} (h : bloomContainsLoop b hashes (hi + 1) offset = some r) :
    b.BitInside (offset + hashes hi) := by
  by_contra hout
  have hbyte : ¬ add32 offset (hashes hi) / 8 < b.nbytes := hout
  rw [bloomContainsLoop, Bloom.bitTest, if_neg hbyte] at h
  cases h

theorem bloomContains_some (h : b.KeyInside key)
    (hempty : b.capacity = 0 → b.bitarray = fun _ => 0) :
    ∃ r, bloomContains b key = some r := by
  unfold bloomContains
  by_cases hrc : (b.hashFunc key b.numSlices b.bitsPerSlice).1 = 0
  · simp only [hrc, ne_eq, not_true_eq_false, if_false]
    by_cases hcap : b.capacity = 0
    · have hfirst := h hrc
      cases hslices : b.numSlices with
      | zero => exact ⟨1, rfl⟩
      | succ hi =>
          have hbit := hfirst hi (by omega) (Or.inl hslices.symm)
          rw [hslices, sliceBit_last] at hbit
          exact ⟨0, bloomContainsLoop_empty (hempty hcap) hbit⟩
    · exact bloomContainsLoop_some fun i hlt => h hrc i hlt (Or.inr (Nat.pos_of_ne_zero hcap))
  · exact ⟨-1, if_pos hrc⟩

theorem runsInside_iff (hcount : b.count = 0) (hempty : b.bitarray = fun _ => 0) :
    b.RunsInside ↔ ∀ key, b.KeyInside key := by
  constructor
  · intro h key hrc i hlt hfirst
    rcases Nat.eq_zero_or_pos b.capacity with hcap | hcap
    · -- nothing can be added, but the key can be looked up
      obtain ⟨rcs, b', hrun, hcontains⟩ := h []
      obtain rfl : b = b' := (Prod.mk.inj (Option.some.inj hrun)).2
      obtain ⟨r, hr⟩ := hcontains key
      have hlast : i + 1 = b.numSlices := by omega
      unfold bloomContains at hr
      simp only [hrc, ne_eq, not_true_eq_false, if_false] at hr
      generalize (b.hashFunc key b.numSlices b.bitsPerSlice).2 = hashes at hr ⊢
      rw [← hlast] at hr ⊢
      rw [sliceBit_last]
      exact bloomContainsLoop_first hr
    · obtain ⟨rcs, b', hrun, -⟩ := h [key]
      have hroom : ¬ b.count ≥ b.capacity := by omega
      rw [runAll_cons] at hrun
      unfold bloomAdd at hrun
      simp only [hroom, hrc, ne_eq, not_true_eq_false, if_false] at hrun
      refine (bloomAddLoop_some_iff b.bitarray).mp ?_ i hlt
      cases hloop : bloomAddLoop b (b.hashFunc key b.numSlices b.bitsPerSlice).2 b.numSlices 0
          b.bitarray with
      | some map => exact ⟨map, rfl⟩
      | none =>
          rw [hloop] at hrun
          cases hrun
  · intro h keys
    obtain ⟨rcs, b', hrun, hb⟩ := bloomRun_reached h keys
    exact ⟨rcs, b', hrun, fun key => bloomContains_some (hb.inside (h key)) fun hcap =>
      (hb.full (hb.capacity ▸ hcap)).trans hempty⟩

/-- The hashes of a key are below the bits of a slice. -/
def HashesBelow (hashFunc : K → ℕ → ℕ → ℤ × (ℕ → ℕ)) (numSlices bitsPerSlice : ℕ) : Prop :=
  ∀ key, (hashFunc key numSlices bitsPerSlice).1 = 0 →
    ∀ i < numSlices, (hashFunc key numSlices bitsPerSlice).2 i < bitsPerSlice

variable {numSlices bitsPerSlice n : ℕ}

/-- The slices have whole bytes, counted in 32 bits. -/
def WholeSlices (numSlices bitsPerSlice : ℕ) : Prop :=
  numSlices * bitsPerSlice % 8 = 0 ∧ numSlices * bitsPerSlice < 2 ^ 32

theorem exists_bit_outside (hpos : 0 < numSlices * bitsPerSlice)
    (h : ¬ WholeSlices numSlices bitsPerSlice) : ∃ n < numSlices * bitsPerSlice,
      ¬ n % 2 ^ 32 / 8 < bloomBytes numSlices bitsPerSlice := by
  unfold bloomBytes
  unfold WholeSlices at h
  generalize numSlices * bitsPerSlice = bits at *
  by_cases hsmall : bits < 2 ^ 32
  · refine ⟨bits - 1, by omega, ?_⟩
    omega
  · refine ⟨2 ^ 32 - 1, by omega, ?_⟩
    omega

theorem WholeSlices.bit_inside (h : WholeSlices numSlices bitsPerSlice)
    (hn : n < numSlices * bitsPerSlice) : n % 2 ^ 32 / 8 < bloomBytes numSlices bitsPerSlice := by
  obtain ⟨hwhole, hsmall⟩ := h
  unfold bloomBytes
  generalize numSlices * bitsPerSlice = bits at *
  omega

theorem sliceBit_lt (hhash : hashes i < b.bitsPerSlice) (hi : i < b.numSlices) :
    sliceBit b hashes 0 b.numSlices i < b.numSlices * b.bitsPerSlice := by
  have hle : (b.numSlices - 1 - i + 1) * b.bitsPerSlice ≤ b.numSlices * b.bitsPerSlice :=
    Nat.mul_le_mul_right _ (by omega)
  rw [Nat.succ_mul] at hle
  unfold sliceBit
  omega

theorem sliceBit_eq (hashes : ℕ → ℕ) (hn : n < b.numSlices * b.bitsPerSlice)
    (hhash : hashes (b.numSlices - 1 - n / b.bitsPerSlice) = n % b.bitsPerSlice) :
    b.numSlices - 1 - n / b.bitsPerSlice < b.numSlices ∧
      sliceBit b hashes 0 b.numSlices (b.numSlices - 1 - n / b.bitsPerSlice) = n := by
  have hdiv : n / b.bitsPerSlice < b.numSlices := Nat.div_lt_of_lt_mul (by rwa [Nat.mul_comm])
  have hslice : ∀ s < b.numSlices, b.numSlices - 1 - s < b.numSlices ∧
      b.numSlices - 1 - (b.numSlices - 1 - s) = s := by omega
  refine ⟨(hslice _ hdiv).1, ?_⟩
  unfold sliceBit
  rw [(hslice _ hdiv).2, hhash, Nat.zero_add, Nat.mul_comm, Nat.div_add_mod]

def oneHash (i value : ℕ) : K → ℕ → ℕ → ℤ × (ℕ → ℕ) :=
  fun _ _ _ => (0, fun j => if j = i then value else 0)

theorem oneHash_below {value : ℕ} (h : value < bitsPerSlice) :
    HashesBelow (oneHash i value : K → ℕ → ℕ → ℤ × (ℕ → ℕ)) numSlices bitsPerSlice := by
  intro _ _ j _
  unfold oneHash
  simp only []
  split_ifs
  · exact h
  · exact Nat.zero_lt_of_lt h

/-- A filter for one key, which has the bit `n` in one of its slices. -/
def bitFilter (numSlices bitsPerSlice n : ℕ) : Bloom K :=
  ⟨oneHash (numSlices - 1 - n / bitsPerSlice) (n % bitsPerSlice), bitsPerSlice, numSlices, 1, 0,
    fun _ => 0⟩

theorem bitFilter_inside (hn : n < numSlices * bitsPerSlice)
    (h : (bitFilter numSlices bitsPerSlice n : Bloom K).KeyInside key) :
    n % 2 ^ 32 / 8 < bloomBytes numSlices bitsPerSlice := by
  obtain ⟨hlt, hbit⟩ := sliceBit_eq (b := (bitFilter numSlices bitsPerSlice n : Bloom K))
    ((bitFilter numSlices bitsPerSlice n : Bloom K).hashFunc key numSlices bitsPerSlice).2 hn
    (if_pos rfl)
  have hin := h rfl _ hlt (Or.inr Nat.one_pos)
  unfold Bloom.BitInside at hin
  exact hbit ▸ hin

/-- What a filter accesses is inside the map that was allocated for it exactly when the bits of
all its keys are; for all hash functions it is so exactly when the slices have no bits, or whole
bytes that 32 bits can count. -/
theorem bloom_inside_iff (hslices : numSlices ≤ 8) (key : K) :
    (∀ granted capacity hashFunc (b : Bloom K),
      bloomAlloc granted capacity numSlices bitsPerSlice hashFunc = (0, some b) →
        (b.RunsInside ↔ ∀ key, b.KeyInside key)) ∧
    ((∀ granted capacity hashFunc (b : Bloom K),
      bloomAlloc granted capacity numSlices bitsPerSlice hashFunc = (0, some b) →
        HashesBelow hashFunc numSlices bitsPerSlice → b.RunsInside) ↔
      numSlices * bitsPerSlice = 0 ∨ WholeSlices numSlices bitsPerSlice) := by
  have hiff : ∀ granted capacity hashFunc (b : Bloom K),
      bloomAlloc granted capacity numSlices bitsPerSlice hashFunc = (0, some b) →
        (b.RunsInside ↔ ∀ key, b.KeyInside key) := by
    intro granted capacity hashFunc b halloc
    obtain rfl := bloomAlloc_inv halloc
    exact runsInside_iff rfl rfl
  refine ⟨hiff, fun hall => ?_, fun hwhole granted capacity hashFunc b halloc hbelow => ?_⟩
  · by_contra hnot
    obtain ⟨hpos, hnot⟩ := not_or.mp hnot
    obtain ⟨n, hn, hout⟩ := exists_bit_outside (Nat.pos_of_ne_zero hpos) hnot
    have hbits : 0 < bitsPerSlice := Nat.pos_of_ne_zero fun h => hpos (by rw [h, Nat.mul_zero])
    have halloc : bloomAlloc true 1 numSlices bitsPerSlice
        (oneHash (numSlices - 1 - n / bitsPerSlice) (n % bitsPerSlice)) =
          (0, some (bitFilter numSlices bitsPerSlice n : Bloom K)) := by
      unfold bloomAlloc
      rw [if_neg (not_lt.mpr hslices), if_pos rfl]
      rfl
    have hruns := hall _ _ _ _ halloc (oneHash_below (Nat.mod_lt n hbits))
    exact hout (bitFilter_inside hn ((hiff _ _ _ _ halloc).mp hruns key))
  · rw [hiff granted capacity hashFunc b halloc]
    obtain rfl := bloomAlloc_inv halloc
    intro key hrc i hlt _
    have hbits := sliceBit_lt (b := ⟨hashFunc, bitsPerSlice, numSlices, capacity, 0, fun _ => 0⟩)
      (hbelow key hrc i hlt) hlt
    rcases hwhole with hzero | hwhole
    · exact absurd (hbits.trans_eq hzero) (Nat.not_lt_zero _)
    · exact hwhole.bit_inside hbits

/-- Two slices of 50 bits. -/
theorem bloom_inside_iff_fifty :
    (∀ granted capacity hashFunc (b : Bloom ℕ),
      bloomAlloc granted capacity 2 50 hashFunc = (0, some b) →
        (b.RunsInside ↔ ∀ key, b.KeyInside key)) ∧
    ((∀ granted capacity hashFunc (b : Bloom ℕ),
      bloomAlloc granted capacity 2 50 hashFunc = (0, some b) →
        HashesBelow hashFunc 2 50 → b.RunsInside) ↔ 2 * 50 = 0 ∨ WholeSlices 2 50) :=
  bloom_inside_iff (by norm_num) 0

/-- The 100 bits of two slices get 12 bytes, and a key with the last bit is added in the 13th. -/
theorem bloomAdd_overruns :
    ∃ b : Bloom ℕ, bloomAlloc true 20 2 50 (fun _ _ _ => (0, fun i => 49 - i)) = (0, some b) ∧
      HashesBelow b.hashFunc 2 50 ∧ b.nbytes = 12 ∧ bloomAdd b 0 = none :=
  ⟨_, rfl, fun _ _ i _ => Nat.lt_succ_of_le (Nat.sub_le 49 i), rfl, rfl⟩

end Carthage
