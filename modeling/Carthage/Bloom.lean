import Carthage.BitMap
import Carthage.Runs

/-!
# Bloom filters

`bloom.c`: keys are hashed to one bit in each slice of a map. A key that was added is found
for ever after. A result `none` is a bit outside the map.
-/

namespace Carthage

structure Bloom (K : Type) where
  /-- Fills the hashes, of which there are as many as slices, each below the third argument. -/
  hashFunc : K → ℕ → ℕ → ℤ × (ℕ → ℕ)
  bitsPerSlice : ℕ
  numSlices : ℕ
  capacity : ℕ
  count : ℕ
  bitarray : Bytes

section Model

variable {K : Type}

def bloomBytes (numSlices bitsPerSlice : ℕ) : ℕ := numSlices * bitsPerSlice % 2 ^ 32 / 8

def bloomAlloc (granted : Bool) (capacity numSlices bitsPerSlice : ℕ)
    (hashFunc : K → ℕ → ℕ → ℤ × (ℕ → ℕ)) : ℤ × Option (Bloom K) :=
  if numSlices > 8 then (-1, none)
  else if granted then
    (0, some ⟨hashFunc, bitsPerSlice, numSlices, capacity, 0, fun _ => 0⟩)
  else (-2, none)

namespace Bloom

variable (b : Bloom K)

def nbytes : ℕ := bloomBytes b.numSlices b.bitsPerSlice

def bitSet (map : Bytes) (n : ℕ) : Option Bytes :=
  if n / 8 < b.nbytes then some (map.setBit n) else none

def bitTest (map : Bytes) (n : ℕ) : Option Bool :=
  if n / 8 < b.nbytes then some (map.testBit n) else none

end Bloom

def bloomAddLoop (b : Bloom K) (hashes : ℕ → ℕ) : ℕ → ℕ → Bytes → Option Bytes
  | 0, _, map => some map
  | hi + 1, offset, map => do
      let map ← b.bitSet map (add32 offset (hashes hi))
      bloomAddLoop b hashes hi (add32 offset b.bitsPerSlice) map

def bloomAdd (b : Bloom K) (key : K) : Option (ℤ × Bloom K) :=
  if b.count ≥ b.capacity then some (1, b)
  else
    let (rc, hashes) := b.hashFunc key b.numSlices b.bitsPerSlice
    if rc ≠ 0 then some (-1, b)
    else do
      let map ← bloomAddLoop b hashes b.numSlices 0 b.bitarray
      return (0, { b with bitarray := map, count := b.count + 1 })

def bloomContainsLoop (b : Bloom K) (hashes : ℕ → ℕ) : ℕ → ℕ → Option ℤ
  | 0, _ => some 1
  | hi + 1, offset => do
      let bit ← b.bitTest b.bitarray (add32 offset (hashes hi))
      if bit then bloomContainsLoop b hashes hi (add32 offset b.bitsPerSlice) else some 0

def bloomContains (b : Bloom K) (key : K) : Option ℤ :=
  let (rc, hashes) := b.hashFunc key b.numSlices b.bitsPerSlice
  if rc ≠ 0 then some (-1) else bloomContainsLoop b hashes b.numSlices 0

end Model

/-! ## No false negatives -/

variable {K : Type} {b b' : Bloom K} {map map' : Bytes} {hashes : ℕ → ℕ} {hi offset n : ℕ} {key : K}

/-- A filter whose map has a byte for every bit, and whose hashes stay inside a slice. -/
structure Bloom.Sound (b : Bloom K) : Prop where
  whole : b.numSlices * b.bitsPerSlice % 8 = 0
  small : b.numSlices * b.bitsPerSlice < 2 ^ 32
  hash : ∀ key, (b.hashFunc key b.numSlices b.bitsPerSlice).1 = 0 ∧
    ∀ i < b.numSlices, (b.hashFunc key b.numSlices b.bitsPerSlice).2 i < b.bitsPerSlice

def sliceBit (b : Bloom K) (hashes : ℕ → ℕ) (offset hi i : ℕ) : ℕ :=
  offset + (hi - 1 - i) * b.bitsPerSlice + hashes i

def Bloom.Has (b : Bloom K) (map : Bytes) (hashes : ℕ → ℕ) (offset hi : ℕ) : Prop :=
  ∀ i < hi, map.testBit (sliceBit b hashes offset hi i) = true

theorem sliceBit_last (b : Bloom K) (hashes : ℕ → ℕ) (offset hi : ℕ) :
    sliceBit b hashes offset (hi + 1) hi = offset + hashes hi := by
  unfold sliceBit
  rw [Nat.add_sub_cancel, Nat.sub_self, Nat.zero_mul, Nat.add_zero]

theorem sliceBit_succ {i : ℕ} (h : i < hi) : sliceBit b hashes offset (hi + 1) i =
    sliceBit b hashes (offset + b.bitsPerSlice) hi i := by
  have hsub : hi + 1 - 1 - i = (hi - 1 - i) + 1 := by omega
  unfold sliceBit
  rw [hsub, Nat.succ_mul]
  omega

theorem Bloom.has_succ : b.Has map hashes offset (hi + 1) ↔
    map.testBit (offset + hashes hi) = true ∧ b.Has map hashes (offset + b.bitsPerSlice) hi := by
  constructor
  · intro h
    refine ⟨?_, fun i hlt => ?_⟩
    · rw [← sliceBit_last b]
      exact h hi (Nat.lt_succ_self hi)
    · rw [← sliceBit_succ hlt]
      exact h i (Nat.lt_succ_of_lt hlt)
  · rintro ⟨hlast, hrest⟩ i hlt
    rcases Nat.lt_succ_iff_lt_or_eq.mp hlt with hlt | rfl
    · rw [sliceBit_succ hlt]
      exact hrest i hlt
    · rwa [sliceBit_last]

theorem Bloom.Has.mono (h : b.Has map hashes offset hi)
    (hmap : ∀ n, map.testBit n = true → map'.testBit n = true) : b.Has map' hashes offset hi :=
  fun i hlt => hmap _ (h i hlt)

theorem Bloom.Sound.inside (h : b.Sound) (hn : n < b.numSlices * b.bitsPerSlice) :
    n / 8 < b.nbytes := by
  have hwhole := h.whole
  have hmod : b.numSlices * b.bitsPerSlice % 2 ^ 32 = b.numSlices * b.bitsPerSlice :=
    Nat.mod_eq_of_lt h.small
  unfold Bloom.nbytes bloomBytes
  rw [hmod]
  omega

theorem Bloom.Sound.slice (h : b.Sound) (hhash : hashes hi < b.bitsPerSlice)
    (hend : offset + (hi + 1) * b.bitsPerSlice = b.numSlices * b.bitsPerSlice) :
    add32 offset (hashes hi) = offset + hashes hi ∧ (offset + hashes hi) / 8 < b.nbytes ∧
      add32 offset b.bitsPerSlice = offset + b.bitsPerSlice ∧
      offset + b.bitsPerSlice + hi * b.bitsPerSlice = b.numSlices * b.bitsPerSlice := by
  have hsmall := h.small
  rw [Nat.succ_mul] at hend
  refine ⟨add32_eq (by omega), h.inside (by omega), add32_eq (by omega), by omega⟩

theorem bloomAddLoop_spec (h : b.Sound) (hhash : ∀ i < hi, hashes i < b.bitsPerSlice)
    (hend : offset + hi * b.bitsPerSlice = b.numSlices * b.bitsPerSlice) (map : Bytes) :
    ∃ map', bloomAddLoop b hashes hi offset map = some map' ∧ b.Has map' hashes offset hi ∧
      ∀ n, map.testBit n = true → map'.testBit n = true := by
  induction hi generalizing offset map with
  | zero => exact ⟨map, rfl, fun i hi => absurd hi (Nat.not_lt_zero i), fun _ h => h⟩
  | succ hi ih =>
      obtain ⟨hbit, hin, hnext, hend'⟩ := h.slice (hhash hi (Nat.lt_succ_self hi)) hend
      have hset : ∀ n, (map.setBit (offset + hashes hi)).testBit n = true ↔
          n = offset + hashes hi ∨ map.testBit n = true := by
        intro n
        rw [Bytes.testBit_setBit, Bool.or_eq_true, decide_eq_true_iff]
      obtain ⟨map', hloop, hhas, hmono⟩ := ih (fun i hlt => hhash i (Nat.lt_succ_of_lt hlt)) hend'
        (map.setBit (offset + hashes hi))
      refine ⟨map', ?_, Bloom.has_succ.mpr ⟨?_, hhas⟩, fun n hn => ?_⟩
      · simp only [bloomAddLoop, Bloom.bitSet, hbit, if_pos hin, hnext, hloop,
          Option.bind_eq_bind, Option.bind_some]
      · exact hmono _ ((hset _).mpr (Or.inl rfl))
      · exact hmono n ((hset n).mpr (Or.inr hn))

theorem bloomContainsLoop_spec (h : b.Sound) (hhash : ∀ i < hi, hashes i < b.bitsPerSlice)
    (hend : offset + hi * b.bitsPerSlice = b.numSlices * b.bitsPerSlice) :
    bloomContainsLoop b hashes hi offset = some 1 ↔ b.Has b.bitarray hashes offset hi := by
  induction hi generalizing offset with
  | zero => exact ⟨fun _ i hi => absurd hi (Nat.not_lt_zero i), fun _ => rfl⟩
  | succ hi ih =>
      obtain ⟨hbit, hin, hnext, hend'⟩ := h.slice (hhash hi (Nat.lt_succ_self hi)) hend
      rw [Bloom.has_succ, ← ih (fun i hlt => hhash i (Nat.lt_succ_of_lt hlt)) hend']
      simp only [bloomContainsLoop, Bloom.bitTest, hbit, if_pos hin, hnext, Option.bind_eq_bind,
        Option.bind_some]
      by_cases hset : b.bitarray.testBit (offset + hashes hi) = true
      · rw [if_pos hset]
        exact ⟨fun hloop => ⟨hset, hloop⟩, fun hboth => hboth.2⟩
      · rw [if_neg hset]
        refine ⟨fun hzero => ?_, fun hboth => absurd hboth.1 hset⟩
        exact absurd (Option.some.inj hzero) (by norm_num)

/-- The bits of a key in a filter. -/
def Bloom.Holds (b : Bloom K) (key : K) : Prop :=
  b.Has b.bitarray (b.hashFunc key b.numSlices b.bitsPerSlice).2 0 b.numSlices

theorem bloomContains_iff (h : b.Sound) (key : K) : bloomContains b key = some 1 ↔ b.Holds key := by
  obtain ⟨hrc, hhash⟩ := h.hash key
  unfold bloomContains Bloom.Holds
  simp only [hrc, ne_eq, not_true_eq_false, if_false]
  exact bloomContainsLoop_spec h hhash (Nat.zero_add _)

def Bloom.SameShape (b b' : Bloom K) : Prop :=
  b'.hashFunc = b.hashFunc ∧ b'.bitsPerSlice = b.bitsPerSlice ∧ b'.numSlices = b.numSlices

/-- After an operation, keys found before are found still. -/
structure Bloom.Later (b b' : Bloom K) : Prop where
  shape : b.SameShape b'
  keeps : ∀ n, b.bitarray.testBit n = true → b'.bitarray.testBit n = true

theorem Bloom.Later.refl (b : Bloom K) : b.Later b := ⟨⟨rfl, rfl, rfl⟩, fun _ h => h⟩

theorem Bloom.Later.trans {b'' : Bloom K} (h : b.Later b') (h' : b'.Later b'') : b.Later b'' := by
  obtain ⟨⟨h1, h2, h3⟩, hk⟩ := h
  obtain ⟨⟨h1', h2', h3'⟩, hk'⟩ := h'
  exact ⟨⟨h1'.trans h1, h2'.trans h2, h3'.trans h3⟩, fun n hn => hk' n (hk n hn)⟩

theorem Bloom.Later.sound (h : b.Later b') (hs : b.Sound) : b'.Sound := by
  obtain ⟨⟨h1, h2, h3⟩, -⟩ := h
  refine ⟨?_, ?_, ?_⟩
  · rw [h2, h3]
    exact hs.whole
  · rw [h2, h3]
    exact hs.small
  · rw [h1, h2, h3]
    exact hs.hash

theorem Bloom.Later.holds (h : b.Later b') (hk : b.Holds key) : b'.Holds key := by
  obtain ⟨⟨h1, h2, h3⟩, hmap⟩ := h
  unfold Bloom.Holds Bloom.Has sliceBit
  rw [h1, h2, h3]
  exact hk.mono hmap

theorem bloomAdd_spec (h : b.Sound) (key : K) : ∃ rc b', bloomAdd b key = some (rc, b') ∧
    b.Later b' ∧ (rc = 0 → b'.Holds key) := by
  obtain ⟨hrc, hhash⟩ := h.hash key
  unfold bloomAdd
  by_cases hfull : b.count ≥ b.capacity
  · rw [if_pos hfull]
    exact ⟨1, b, rfl, .refl b, fun hone => absurd hone (by norm_num)⟩
  · obtain ⟨map', hloop, hhas, hmono⟩ := bloomAddLoop_spec h hhash (Nat.zero_add _) b.bitarray
    refine ⟨0, { b with bitarray := map', count := b.count + 1 }, ?_, ⟨⟨rfl, rfl, rfl⟩, hmono⟩,
      fun _ => hhas⟩
    rw [if_neg hfull]
    simp only [hrc, ne_eq, not_true_eq_false, if_false, hloop, Option.bind_eq_bind,
      Option.bind_some, Option.pure_def]

theorem bloomRun_spec (h : b.Sound) (keys : List K) :
    ∃ rcs b', runAll bloomAdd b keys = some (rcs, b') ∧ b.Later b' ∧
      ∀ x ∈ keys.zip rcs, x.2 = 0 → b'.Holds x.1 := by
  induction keys generalizing b with
  | nil => exact ⟨[], b, rfl, .refl b, fun _ hx => (nomatch hx)⟩
  | cons key keys ih =>
      obtain ⟨rc, b₁, hadd, h₁, hkey⟩ := bloomAdd_spec h key
      obtain ⟨rcs, b', hrun, h', hkeys⟩ := ih (h₁.sound h)
      refine ⟨rc :: rcs, b', ?_, h₁.trans h', fun x hx => ?_⟩
      · rw [runAll_cons, hadd, Option.bind_some, hrun]
        rfl
      · rcases List.mem_cons.mp hx with rfl | hx
        · exact fun hzero => h'.holds (hkey hzero)
        · exact hkeys x hx

theorem bloomAlloc_inv {granted : Bool} {capacity numSlices bitsPerSlice : ℕ}
    {hashFunc : K → ℕ → ℕ → ℤ × (ℕ → ℕ)}
    (h : bloomAlloc granted capacity numSlices bitsPerSlice hashFunc = (0, some b)) :
    b = ⟨hashFunc, bitsPerSlice, numSlices, capacity, 0, fun _ => 0⟩ := by
  unfold bloomAlloc at h
  split_ifs at h
  · cases h
  · exact (Option.some.inj (Prod.mk.inj h).2).symm
  · cases h

theorem bloomAlloc_sound {capacity numSlices bitsPerSlice : ℕ} {granted : Bool}
    {hashFunc : K → ℕ → ℕ → ℤ × (ℕ → ℕ)}
    (halloc : bloomAlloc granted capacity numSlices bitsPerSlice hashFunc = (0, some b))
    (hwhole : numSlices * bitsPerSlice % 8 = 0) (hsmall : numSlices * bitsPerSlice < 2 ^ 32)
    (hhash : ∀ key, (hashFunc key numSlices bitsPerSlice).1 = 0 ∧
      ∀ i < numSlices, (hashFunc key numSlices bitsPerSlice).2 i < bitsPerSlice) : b.Sound := by
  obtain rfl := bloomAlloc_inv halloc
  exact ⟨hwhole, hsmall, hhash⟩

/-- A key whose `bloom_add` returned 0 is found by every later `bloom_contains`, and a key
that is found stays found. -/
theorem bloom_no_false_negatives (granted : Bool) (capacity numSlices bitsPerSlice : ℕ)
    (hashFunc : K → ℕ → ℕ → ℤ × (ℕ → ℕ)) (b : Bloom K)
    (halloc : bloomAlloc granted capacity numSlices bitsPerSlice hashFunc = (0, some b))
    (hwhole : numSlices * bitsPerSlice % 8 = 0) (hsmall : numSlices * bitsPerSlice < 2 ^ 32)
    (hhash : ∀ key, (hashFunc key numSlices bitsPerSlice).1 = 0 ∧
      ∀ i < numSlices, (hashFunc key numSlices bitsPerSlice).2 i < bitsPerSlice)
    (keys keys' : List K) :
    ∃ rcs b₁ rcs' b₂, runAll bloomAdd b keys = some (rcs, b₁) ∧
      runAll bloomAdd b₁ keys' = some (rcs', b₂) ∧ rcs.length = keys.length ∧
      (∀ x ∈ keys.zip rcs, x.2 = 0 → bloomContains b₂ x.1 = some 1) ∧
      ∀ key, bloomContains b₁ key = some 1 → bloomContains b₂ key = some 1 := by
  have h := bloomAlloc_sound halloc hwhole hsmall hhash
  obtain ⟨rcs, b₁, hrun, h₁, hkeys⟩ := bloomRun_spec h keys
  obtain ⟨rcs', b₂, hrun', h₂, -⟩ := bloomRun_spec (h₁.sound h) keys'
  have hs₁ := h₁.sound h
  have hs₂ := h₂.sound hs₁
  refine ⟨rcs, b₁, rcs', b₂, hrun, hrun', runAll_length hrun, fun x hx hzero => ?_, fun key hkey => ?_⟩
  · rw [bloomContains_iff hs₂]
    exact h₂.holds (hkeys x hx hzero)
  · rw [bloomContains_iff hs₁] at hkey
    rw [bloomContains_iff hs₂]
    exact h₂.holds hkey

theorem bloom_no_false_negatives_two :
    ∃ rcs b₁ rcs' b₂,
      runAll bloomAdd ⟨fun key _ max => (0, fun i => (key + i) % max), 4, 2, 20, 0, fun _ => 0⟩
        [1, 2] = some (rcs, b₁) ∧
      runAll bloomAdd b₁ [3] = some (rcs', b₂) ∧ rcs.length = [1, 2].length ∧
      (∀ x ∈ [1, 2].zip rcs, x.2 = 0 → bloomContains b₂ x.1 = some 1) ∧
      ∀ key, bloomContains b₁ key = some 1 → bloomContains b₂ key = some 1 :=
  bloom_no_false_negatives true 20 2 4 (fun key _ max => (0, fun i => (key + i) % max)) _ rfl
    (by norm_num) (by norm_num) (fun _ => ⟨rfl, fun _ _ => Nat.mod_lt _ (by norm_num)⟩) [1, 2] [3]

end Carthage
