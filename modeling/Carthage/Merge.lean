import Carthage.Interleaving
import Carthage.SortOrder

/-!
# Merging arrays

`merge.c`: two arrays of objects are merged into a third one, as far as that has room, with a
given comparison and copy, or with `memcmp` and `memcpy`. Arrays are at addresses of one memory,
and the sizes of arrays in bytes are unsigned 64-bit numbers.
-/

namespace Carthage

section Objects

variable {size : ℕ} (cmp : List.Vector UInt8 size → List.Vector UInt8 size → ℤ)
  (cpy : Bytes → ℕ → ℕ → ℕ → Bytes)

/-- The loop while both arrays have objects; the memory and the cursors it ends with. -/
def mergeBoth (ae be re : ℕ) : ℕ → Bytes → ℕ → ℕ → ℕ → Option (Bytes × ℕ × ℕ × ℕ)
  | 0, _, _, _, _ => none
  | fuel + 1, mem, a, b, r =>
      if a < ae ∧ b < be ∧ r < re then
        if cmp (mem.object size a) (mem.object size b) < 0 then
          mergeBoth ae be re fuel (cpy mem r a size) (a + size) b (r + size)
        else mergeBoth ae be re fuel (cpy mem r b size) a (b + size) (r + size)
      else some (mem, a, b, r)

/-- The loop over what is left of one array. -/
def mergeRest (size pe re : ℕ) : ℕ → Bytes → ℕ → ℕ → Option (Bytes × ℕ)
  | 0, _, _, _ => none
  | fuel + 1, mem, p, r =>
      if p < pe ∧ r < re then mergeRest size pe re fuel (cpy mem r p size) (p + size) (r + size)
      else some (mem, r)

def merge (mem : Bytes) (r rs a as b bs : ℕ) : Option Bytes := do
  let ae := a + as * size % 2 ^ 64
  let be := b + bs * size % 2 ^ 64
  let re := r + rs * size % 2 ^ 64
  let (mem, a, b, r) ← mergeBoth cmp cpy ae be re (as + bs + 1) mem a b r
  let (mem, r) ← mergeRest cpy size ae re (as + 1) mem a r
  let (mem, _) ← mergeRest cpy size be re (bs + 1) mem b r
  return mem

end Objects

/-- The first loop of `mmmerge`. -/
def mmmergeBoth (size : ℕ) (ae be re : ℕ) : ℕ → Bytes → ℕ → ℕ → ℕ → Option (Bytes × ℕ × ℕ × ℕ) :=
  mergeBoth (@objectMemcmp size) Bytes.copy ae be re

/-- The copy of what is left of one array, in one block. -/
def mmmergeRest (pe re : ℕ) (mem : Bytes) (p r : ℕ) : Bytes × ℕ :=
  if p < pe ∧ r < re then
    let n := if pe - p < re - r then pe - p else re - r
    (mem.copy r p n, r + n)
  else (mem, r)

def mmmerge (mem : Bytes) (r rs a as b bs size : ℕ) : Option Bytes := do
  let ae := a + as * size % 2 ^ 64
  let be := b + bs * size % 2 ^ 64
  let re := r + rs * size % 2 ^ 64
  let (mem, a, b, r) ← mmmergeBoth size ae be re (as + bs + 1) mem a b r
  let (mem, r) := mmmergeRest ae re mem a r
  let (mem, _) := mmmergeRest be re mem b r
  return mem

/-! ## Copies -/

/-- A function that copies an object. -/
structure Copies (cpy : Bytes → ℕ → ℕ → ℕ → Bytes) (size : ℕ) : Prop where
  copied : ∀ mem dst src, Apart dst src size →
    (cpy mem dst src size).read dst size = mem.read src size
  others : ∀ mem dst src i, Apart dst src size → (i < dst ∨ dst + size ≤ i) →
    cpy mem dst src size i = mem i

theorem Copies.eq_copy {cpy : Bytes → ℕ → ℕ → ℕ → Bytes} {size dst src : ℕ} (h : Copies cpy size)
    (mem : Bytes) (hapart : Apart dst src size) :
    cpy mem dst src size = mem.copy dst src size := by
  funext i
  rw [Bytes.copy]
  split_ifs with hi
  · obtain ⟨k, rfl⟩ := Nat.exists_eq_add_of_le hi.1
    have hbyte := List.map_inj_left.mp (h.copied mem dst src hapart) k
      (List.mem_range.mpr (by omega))
    rw [hbyte, Nat.add_sub_cancel_left, Nat.add_comm]
  · exact h.others mem dst src i hapart (by omega)

theorem copy_copies (size : ℕ) : Copies Bytes.copy size where
  copied mem dst src _ := by
    rw [Bytes.read_copy_inside le_rfl le_rfl, Nat.sub_self, Nat.zero_add]
  others mem dst src i _ hi := by rw [Bytes.copy, if_neg (by omega)]

/-- Two ranges without a common byte. -/
def Clear (p m q n : ℕ) : Prop := p + m ≤ q ∨ q + n ≤ p

theorem Bytes.copy_add {mem : Bytes} {dst src m n : ℕ} (h : Clear src (m + n) dst (m + n)) :
    (mem.copy dst src m).copy (dst + m) (src + m) n = mem.copy dst src (m + n) := by
  unfold Clear at h
  funext i
  by_cases hlow : dst ≤ i ∧ i < dst + m
  · simp only [Bytes.copy]
    rw [if_neg (by omega), if_pos hlow, if_pos (by omega)]
  · by_cases hhigh : dst + m ≤ i ∧ i < dst + m + n
    · simp only [Bytes.copy]
      rw [if_pos hhigh, if_neg (by omega), if_pos (by omega)]
      congr 1
      omega
    · simp only [Bytes.copy]
      rw [if_neg hhigh, if_neg hlow, if_neg (by omega)]

/-- The `n` objects at an address. -/
def Bytes.arrayAt (mem : Bytes) (size : ℕ) : ℕ → ℕ → List (List.Vector UInt8 size)
  | 0, _ => []
  | n + 1, p => mem.object size p :: mem.arrayAt size n (p + size)

section Arrays

variable {size m n p r : ℕ} {mem mem' mem'' : Bytes}

@[simp] theorem Bytes.length_arrayAt : (mem.arrayAt size n p).length = n := by
  induction n generalizing p with
  | zero => rfl
  | succ n ih => rw [Bytes.arrayAt, List.length_cons, ih]

theorem Bytes.arrayAt_congr (h : ∀ i < n * size, mem' (r + i) = mem (p + i)) :
    mem'.arrayAt size n r = mem.arrayAt size n p := by
  induction n generalizing r p with
  | zero => rfl
  | succ n ih =>
      rw [Nat.succ_mul] at h
      have hobj : mem'.object size r = mem.object size p :=
        Subtype.ext (List.map_congr_left fun i hi => h i (by
          have := List.mem_range.mp hi
          omega))
      have hrest := ih (r := r + size) (p := p + size) fun i hi => by
        rw [Nat.add_assoc, Nat.add_assoc]
        exact h (size + i) (by omega)
      rw [Bytes.arrayAt, Bytes.arrayAt, hobj, hrest]

theorem Bytes.arrayAt_add :
    mem.arrayAt size (m + n) p = mem.arrayAt size m p ++ mem.arrayAt size n (p + m * size) := by
  induction m generalizing p with
  | zero => simp [Bytes.arrayAt]
  | succ m ih =>
      rw [Nat.succ_add, Bytes.arrayAt, Bytes.arrayAt, ih, List.cons_append, Nat.succ_mul,
        Nat.add_comm (m * size), Nat.add_assoc]

theorem Bytes.arrayAt_take :
    (mem.arrayAt size n p).take m = mem.arrayAt size (min n m) p := by
  rcases Nat.le_total n m with h | h
  · rw [min_eq_left h, List.take_of_length_le (by simpa using h)]
  · obtain ⟨k, rfl⟩ := Nat.exists_eq_add_of_le h
    rw [min_eq_right h, Bytes.arrayAt_add, List.take_left' Bytes.length_arrayAt]

/-- The objects `out` written at `r`, and nothing else changed. -/
structure Writes (mem mem' : Bytes) (r : ℕ) (out : List (List.Vector UInt8 size)) : Prop where
  objects : mem'.arrayAt size out.length r = out
  others : ∀ i, (i < r ∨ r + out.length * size ≤ i) → mem' i = mem i

theorem Writes.nil (mem : Bytes) (r : ℕ) :
    Writes mem mem r ([] : List (List.Vector UInt8 size)) :=
  ⟨rfl, fun _ _ => rfl⟩

theorem Writes.append {out out' : List (List.Vector UInt8 size)} (h : Writes mem mem' r out)
    (h' : Writes mem' mem'' (r + out.length * size) out') : Writes mem mem'' r (out ++ out') := by
  constructor
  · rw [List.length_append, Bytes.arrayAt_add, h'.objects]
    congr 1
    rw [← h.objects]
    simp only [Bytes.length_arrayAt]
    exact Bytes.arrayAt_congr fun i hi => h'.others _ (by omega)
  · intro i hi
    rw [List.length_append, Nat.add_mul] at hi
    rw [h'.others i (by omega), h.others i (by omega)]

theorem writes_copy (mem : Bytes) (n r p : ℕ) :
    Writes mem (mem.copy r p (n * size)) r (mem.arrayAt size n p) := by
  constructor
  · rw [Bytes.length_arrayAt]
    refine Bytes.arrayAt_congr fun i hi => ?_
    rw [Bytes.copy, if_pos (by omega), Nat.add_sub_cancel_left, Nat.add_comm]
  · intro i hi
    rw [Bytes.length_arrayAt] at hi
    rw [Bytes.copy, if_neg (by omega)]

theorem Writes.arrayAt {out : List (List.Vector UInt8 size)} (h : Writes mem mem' r out)
    (hclear : Clear p (n * size) r (out.length * size)) :
    mem'.arrayAt size n p = mem.arrayAt size n p := by
  unfold Clear at hclear
  exact Bytes.arrayAt_congr fun i hi => h.others _ (by omega)

end Arrays

/-! ## The loops -/

section Loops

variable {size : ℕ} {cmp : List.Vector UInt8 size → List.Vector UInt8 size → ℤ}
  {cpy : Bytes → ℕ → ℕ → ℕ → Bytes} {mem : Bytes} {i j k p r : ℕ}

theorem mergeRest_eq (hcpy : Copies cpy size) (hsize : 1 ≤ size)
    (hclear : Clear p (i * size) r (k * size)) {fuel : ℕ} (hfuel : i < fuel) :
    mergeRest cpy size (p + i * size) (r + k * size) fuel mem p r =
      some (mem.copy r p (min i k * size), r + min i k * size) := by
  induction fuel generalizing mem i k p r with
  | zero => omega
  | succ fuel ih =>
      rw [mergeRest]
      by_cases hend : i = 0 ∨ k = 0
      · have hmin : min i k = 0 := by omega
        rw [hmin, Nat.zero_mul, Bytes.copy_zero, if_neg]
        · rfl
        · rcases hend with rfl | rfl <;> omega
      · obtain ⟨i, rfl⟩ : ∃ n, i = n + 1 := ⟨i - 1, by omega⟩
        obtain ⟨k, rfl⟩ : ∃ n, k = n + 1 := ⟨k - 1, by omega⟩
        have hi : p + (i + 1) * size = p + size + i * size := by ring
        have hk : r + (k + 1) * size = r + size + k * size := by ring
        have hapart : Apart r p size ∧ Clear (p + size) (i * size) (r + size) (k * size) := by
          unfold Clear at hclear
          unfold Apart Clear
          omega
        have hblock : Clear p (size + min i k * size) r (size + min i k * size) := by
          have h1 : min i k * size ≤ i * size := Nat.mul_le_mul_right size (min_le_left i k)
          have h2 : min i k * size ≤ k * size := Nat.mul_le_mul_right size (min_le_right i k)
          unfold Clear at hclear ⊢
          omega
        have hmin : min (i + 1) (k + 1) * size = size + min i k * size := by
          rw [Nat.succ_min_succ, Nat.succ_mul, Nat.add_comm]
        rw [hi, hk, if_pos ⟨by omega, by omega⟩, hcpy.eq_copy mem hapart.1,
          ih hapart.2 (by omega), Bytes.copy_add hblock, hmin, Nat.add_assoc]

/-- How far the first loop gets: to the end of one array, with the first objects of the merge
written and the others still to be merged. -/
structure MergedUpTo (cmp : List.Vector UInt8 size → List.Vector UInt8 size → ℤ)
    (mem mem' : Bytes) (r : ℕ) (a a' b b' : ℕ) (i i' j j' k k' : ℕ)
    (out : List (List.Vector UInt8 size)) : Prop where
  first : a' + i' * size = a + i * size ∧ a ≤ a'
  second : b' + j' * size = b + j * size ∧ b ≤ b'
  output : out.length + k' = k
  ended : i' = 0 ∨ j' = 0 ∨ k' = 0
  written : Writes mem mem' r out
  merged : mergeLists cmp (mem.arrayAt size i a) (mem.arrayAt size j b) =
    out ++ mergeLists cmp (mem'.arrayAt size i' a') (mem'.arrayAt size j' b')

theorem MergedUpTo.cons {mem₁ mem' : Bytes} {a₁ a a' b₁ b b' i₁ i i' j₁ j j' k k' p : ℕ}
    {out : List (List.Vector UInt8 size)}
    (h : MergedUpTo cmp mem₁ mem' (r + size) a₁ a' b₁ b' i₁ i' j₁ j' k k' out)
    (hmem : mem₁ = mem.copy r p size)
    (ha : a₁ + i₁ * size = a + i * size ∧ a ≤ a₁) (hb : b₁ + j₁ * size = b + j * size ∧ b ≤ b₁)
    (hclear : Clear a (i * size) r ((k + 1) * size)) (hclear' : Clear b (j * size) r ((k + 1) * size))
    (hnext : mergeLists cmp (mem.arrayAt size i a) (mem.arrayAt size j b) =
      mem.object size p :: mergeLists cmp (mem.arrayAt size i₁ a₁) (mem.arrayAt size j₁ b₁)) :
    MergedUpTo cmp mem mem' r a a' b b' i i' j j' (k + 1) k' (mem.object size p :: out) := by
  have hone : Writes mem mem₁ r [mem.object size p] := by
    have hcopy : Writes mem _ r (mem.arrayAt size 1 p) := writes_copy mem 1 r p
    rwa [Nat.one_mul, ← hmem] at hcopy
  have hkeep : ∀ q n q₁ n₁, q₁ + n₁ * size = q + n * size → q ≤ q₁ →
      Clear q (n * size) r ((k + 1) * size) → mem.arrayAt size n₁ q₁ = mem₁.arrayAt size n₁ q₁ := by
    intro q n q₁ n₁ hq hle hqr
    refine (hone.arrayAt ?_).symm
    rw [List.length_singleton, Nat.one_mul]
    unfold Clear at hqr ⊢
    rw [Nat.succ_mul] at hqr
    omega
  refine ⟨⟨h.first.1.trans ha.1, ha.2.trans h.first.2⟩,
    ⟨h.second.1.trans hb.1, hb.2.trans h.second.2⟩, ?_, h.ended, ?_, ?_⟩
  · rw [List.length_cons, Nat.succ_add, h.output]
  · refine hone.append ?_
    rw [List.length_singleton, Nat.one_mul]
    exact h.written
  · rw [hnext, hkeep a i a₁ i₁ ha.1 ha.2 hclear, hkeep b j b₁ j₁ hb.1 hb.2 hclear', h.merged,
      List.cons_append]

variable (cmp mem) in
/-- The first loop writes the first objects of the merge. -/
theorem mergeBoth_spec (hcpy : Copies cpy size) (hsize : 1 ≤ size) {a b i j k r : ℕ}
    (ha : Clear a (i * size) r (k * size)) (hb : Clear b (j * size) r (k * size)) (fuel : ℕ)
    (hfuel : i + j < fuel) :
    ∃ mem' a' b' i' j' k' out,
      mergeBoth cmp cpy (a + i * size) (b + j * size) (r + k * size) fuel mem a b r =
        some (mem', a', b', r + out.length * size) ∧
      MergedUpTo cmp mem mem' r a a' b b' i i' j j' k k' out := by
  induction fuel generalizing mem a b i j k r with
  | zero => omega
  | succ fuel ih =>
      rw [mergeBoth]
      by_cases hend : i = 0 ∨ j = 0 ∨ k = 0
      · refine ⟨mem, a, b, i, j, k, [], ?_, ⟨rfl, le_rfl⟩, ⟨rfl, le_rfl⟩, Nat.zero_add k, hend,
          Writes.nil mem r, rfl⟩
        rw [if_neg]
        · simp
        · rcases hend with rfl | rfl | rfl <;> omega
      · obtain ⟨i, rfl⟩ : ∃ n, i = n + 1 := ⟨i - 1, by omega⟩
        obtain ⟨j, rfl⟩ : ∃ n, j = n + 1 := ⟨j - 1, by omega⟩
        obtain ⟨k, rfl⟩ : ∃ n, k = n + 1 := ⟨k - 1, by omega⟩
        have hi : a + (i + 1) * size = a + size + i * size := by ring
        have hj : b + (j + 1) * size = b + size + j * size := by ring
        have hk : r + (k + 1) * size = r + size + k * size := by ring
        rw [if_pos ⟨by omega, by omega, by omega⟩]
        by_cases hless : cmp (mem.object size a) (mem.object size b) < 0
        · have hapart : Apart r a size ∧ Clear (a + size) (i * size) (r + size) (k * size) ∧
              Clear b ((j + 1) * size) (r + size) (k * size) := by
            unfold Clear at ha hb
            unfold Apart Clear
            omega
          obtain ⟨mem', a', b', i', j', k', out, hrun, hmerged⟩ := ih (cpy mem r a size)
            hapart.2.1 hapart.2.2 (by omega)
          rw [hcpy.eq_copy mem hapart.1] at hmerged
          refine ⟨mem', a', b', i', j', k', _, ?_, hmerged.cons rfl ⟨hi.symm, by omega⟩
            ⟨rfl, le_rfl⟩ ha hb ?_⟩
          · rw [if_pos hless, hi, hk, hrun, List.length_cons, Nat.succ_mul, Nat.add_assoc,
              Nat.add_comm size]
          · exact List.cons_merge_cons_pos _ _ _ (decide_eq_true hless)
        · have hapart : Apart r b size ∧ Clear a ((i + 1) * size) (r + size) (k * size) ∧
              Clear (b + size) (j * size) (r + size) (k * size) := by
            unfold Clear at ha hb
            unfold Apart Clear
            omega
          obtain ⟨mem', a', b', i', j', k', out, hrun, hmerged⟩ := ih (cpy mem r b size)
            hapart.2.1 hapart.2.2 (by omega)
          rw [hcpy.eq_copy mem hapart.1] at hmerged
          refine ⟨mem', a', b', i', j', k', _, ?_, hmerged.cons rfl ⟨rfl, le_rfl⟩
            ⟨hj.symm, by omega⟩ ha hb ?_⟩
          · rw [if_neg hless, hj, hk, hrun, List.length_cons, Nat.succ_mul, Nat.add_assoc,
              Nat.add_comm size]
          · refine List.cons_merge_cons_neg _ _ _ ?_
            simpa using not_lt.mp hless

variable {rs na nb a b : ℕ}

theorem MergedUpTo.rest {mem₁ : Bytes} {a' b' i' j' k' : ℕ} {out : List (List.Vector UInt8 size)}
    (h : MergedUpTo cmp mem mem₁ r a a' b b' i i' j j' k k' out)
    (ha : Clear a (i * size) r (k * size)) (hb : Clear b (j * size) r (k * size)) :
    Clear a' (i' * size) (r + out.length * size) (k' * size) ∧
    Clear b' (j' * size) (r + out.length * size + min i' k' * size) ((k' - min i' k') * size) ∧
    r + k * size = r + out.length * size + k' * size ∧
    r + k * size = r + out.length * size + min i' k' * size + (k' - min i' k') * size ∧
    ∀ mem₂ mem₃, mem₂ = mem₁.copy (r + out.length * size) a' (min i' k' * size) →
      mem₃ = mem₂.copy (r + out.length * size + min i' k' * size) b'
        (min j' (k' - min i' k') * size) →
      Writes mem mem₃ r
        ((mergeLists cmp (mem.arrayAt size i a) (mem.arrayAt size j b)).take k) := by
  have hout : k * size = out.length * size + k' * size := by rw [← h.output, Nat.add_mul]
  have hk : k' * size = min i' k' * size + (k' - min i' k') * size := by
    rw [← Nat.add_mul, Nat.add_sub_cancel' (min_le_right i' k')]
  have hfirst := h.first
  have hsecond := h.second
  unfold Clear at ha hb ⊢
  refine ⟨by omega, by omega, by omega, by omega, ?_⟩
  rintro mem₂ mem₃ hmem₂ rfl
  have hwrites : Writes mem mem₂ r (out ++ mem₁.arrayAt size (min i' k') a') := by
    rw [hmem₂]
    exact h.written.append (writes_copy mem₁ _ _ a')
  have hend : out ++ mem₁.arrayAt size (min i' k') a' ++
        mem₂.arrayAt size (min j' (k' - min i' k')) b' =
      (mergeLists cmp (mem.arrayAt size i a) (mem.arrayAt size j b)).take k := by
    rw [h.merged, ← h.output, List.take_length_add_append, List.append_assoc]
    congr 1
    rcases h.ended with rfl | rfl | rfl
    · rw [Nat.zero_min, Nat.zero_mul, Bytes.copy_zero] at hmem₂
      rw [hmem₂, Nat.zero_min, Nat.sub_zero, ← Bytes.arrayAt_take]
      simp [Bytes.arrayAt, mergeLists]
    · rw [Nat.zero_min, ← Bytes.arrayAt_take]
      simp [Bytes.arrayAt, mergeLists]
    · simp [Bytes.arrayAt]
  rw [← hend]
  refine hwrites.append ?_
  rw [List.length_append, Bytes.length_arrayAt, Nat.add_mul, ← Nat.add_assoc]
  exact writes_copy mem₂ _ _ b'

variable (cmp) in
theorem merge_blocks (hcpy : Copies cpy size) (hsize : 1 ≤ size) (hna : na * size < 2 ^ 64)
    (hnb : nb * size < 2 ^ 64) (hrs : rs * size < 2 ^ 64) (ha : Clear a (na * size) r (rs * size))
    (hb : Clear b (nb * size) r (rs * size)) (mem : Bytes) :
    ∃ mem₁ a' b' i' j' k' out,
      mergeBoth cmp cpy (a + na * size) (b + nb * size) (r + rs * size) (na + nb + 1) mem a b r =
        some (mem₁, a', b', r + out.length * size) ∧
      MergedUpTo cmp mem mem₁ r a a' b b' na i' nb j' rs k' out ∧
      merge cmp cpy mem r rs a na b nb =
        some ((mem₁.copy (r + out.length * size) a' (min i' k' * size)).copy
          (r + out.length * size + min i' k' * size) b' (min j' (k' - min i' k') * size)) := by
  obtain ⟨mem₁, a', b', i', j', k', out, hrun, hmerged⟩ := mergeBoth_spec cmp mem hcpy hsize ha hb
    (na + nb + 1) (by omega)
  obtain ⟨hclear, hclear', hre, hre', -⟩ := hmerged.rest ha hb
  refine ⟨mem₁, a', b', i', j', k', out, hrun, hmerged, ?_⟩
  have hi : i' ≤ na := by
    have hle : i' * size ≤ na * size := by
      have hfirst := hmerged.first
      omega
    exact Nat.le_of_mul_le_mul_right hle hsize
  have hj : j' ≤ nb := by
    have hle : j' * size ≤ nb * size := by
      have hsecond := hmerged.second
      omega
    exact Nat.le_of_mul_le_mul_right hle hsize
  unfold merge
  rw [Nat.mod_eq_of_lt hna, Nat.mod_eq_of_lt hnb, Nat.mod_eq_of_lt hrs]
  simp only [Option.bind_eq_bind, hrun, Option.bind_some]
  rw [← hmerged.first.1, ← hmerged.second.1, hre, mergeRest_eq hcpy hsize hclear (by omega),
    Option.bind_some, ← hre, hre', mergeRest_eq hcpy hsize hclear' (by omega), Option.bind_some]
  rfl

theorem merge_empty {cmp : List.Vector UInt8 0 → List.Vector UInt8 0 → ℤ} (mem : Bytes) :
    merge cmp cpy mem r rs a na b nb = some mem := by
  simp [merge, mergeBoth, mergeRest]

variable (cmp) in
theorem merge_writes (hcpy : Copies cpy size) (hna : na * size < 2 ^ 64)
    (hnb : nb * size < 2 ^ 64) (hrs : rs * size < 2 ^ 64) (ha : Clear a (na * size) r (rs * size))
    (hb : Clear b (nb * size) r (rs * size)) (mem : Bytes) :
    ∃ mem', merge cmp cpy mem r rs a na b nb = some mem' ∧
      Writes mem mem' r ((mergeLists cmp (mem.arrayAt size na a) (mem.arrayAt size nb b)).take rs) := by
  rcases Nat.eq_zero_or_pos size with rfl | hsize
  · refine ⟨mem, merge_empty mem, ?_, fun _ _ => rfl⟩
    have hsame : ∀ x y : List.Vector UInt8 0, x = y := fun x y =>
      x.eq_nil.trans y.eq_nil.symm
    exact List.ext_getElem Bytes.length_arrayAt fun i h1 h2 => hsame _ _
  · obtain ⟨mem₁, a', b', i', j', k', out, -, hmerged, hmerge⟩ :=
      merge_blocks cmp hcpy hsize hna hnb hrs ha hb mem
    exact ⟨_, hmerge, (hmerged.rest ha hb).2.2.2.2 _ _ rfl rfl⟩

/-- Merging writes the beginning of a sorted interleaving, and nothing else. -/
theorem merge_interleaves (hcmp : TotalPreorder cmp) (hcpy : Copies cpy size)
    (hna : na * size < 2 ^ 64) (hnb : nb * size < 2 ^ 64) (hrs : rs * size < 2 ^ 64)
    (ha : Clear a (na * size) r (rs * size)) (hb : Clear b (nb * size) r (rs * size)) (mem : Bytes)
    (hA : (mem.arrayAt size na a).Pairwise fun x y => cmp x y ≤ 0)
    (hB : (mem.arrayAt size nb b).Pairwise fun x y => cmp x y ≤ 0) :
    ∃ mem' T, merge cmp cpy mem r rs a na b nb = some mem' ∧
      Interleaves cmp (mem.arrayAt size na a) (mem.arrayAt size nb b) T ∧
      mem'.arrayAt size (min rs (na + nb)) r = (T.map entry).take rs ∧
      (∀ i, i < r ∨ r + min rs (na + nb) * size ≤ i → mem' i = mem i) ∧
      (na + nb ≤ rs →
        (mem'.arrayAt size (na + nb) r).Perm
          (mem.arrayAt size na a ++ mem.arrayAt size nb b) ∧
        (mem'.arrayAt size (na + nb) r).Pairwise fun x y => cmp x y ≤ 0) := by
  obtain ⟨mem', hrun, hwrites⟩ := merge_writes cmp hcpy hna hnb hrs ha hb mem
  obtain ⟨T, hT, hmap⟩ := mergeLists_interleaves hcmp hA hB
  have hlen : (mergeLists cmp (mem.arrayAt size na a) (mem.arrayAt size nb b)).length = na + nb := by
    rw [mergeLists_length, Bytes.length_arrayAt, Bytes.length_arrayAt]
  have hobjects := hwrites.objects
  have hothers := hwrites.others
  rw [List.length_take, hlen] at hobjects hothers
  refine ⟨mem', T, hrun, hT, hmap ▸ hobjects, hothers, fun hroom => ?_⟩
  rw [min_eq_right hroom, List.take_of_length_le (hlen.trans_le hroom)] at hobjects
  rw [hobjects]
  exact ⟨mergeLists_perm cmp _ _, mergeLists_pairwise hT hmap⟩

end Loops

/-- Two arrays with an equal object, and room for two of the three objects. -/
theorem merge_interleaves_two : ∃ mem' T,
    merge (@objectMemcmp 1) Bytes.copy (Bytes.write (fun _ => 0) 0 [1, 5, 5]) 8 2 0 2 2 1 =
        some mem' ∧
      Interleaves objectMemcmp ((Bytes.write (fun _ => 0) 0 [1, 5, 5]).arrayAt 1 2 0)
        ((Bytes.write (fun _ => 0) 0 [1, 5, 5]).arrayAt 1 1 2) T ∧
      mem'.arrayAt 1 (min 2 (2 + 1)) 8 = (T.map entry).take 2 ∧
      (∀ i, i < 8 ∨ 8 + min 2 (2 + 1) * 1 ≤ i →
        mem' i = Bytes.write (fun _ => 0) 0 [1, 5, 5] i) ∧
      (2 + 1 ≤ 2 → (mem'.arrayAt 1 (2 + 1) 8).Perm
          ((Bytes.write (fun _ => 0) 0 [1, 5, 5]).arrayAt 1 2 0 ++
            (Bytes.write (fun _ => 0) 0 [1, 5, 5]).arrayAt 1 1 2) ∧
        (mem'.arrayAt 1 (2 + 1) 8).Pairwise fun x y => objectMemcmp x y ≤ 0) :=
  merge_interleaves (objectMemcmp_totalPreorder 1) (copy_copies 1) (by decide) (by decide)
    (by decide) (Or.inl (by decide)) (Or.inl (by decide)) _ (by decide) (by decide)

/-! ## Merging by bytes -/

section Mmmerge

variable {size rs na nb a b r i k p : ℕ}

theorem mmmergeRest_eq (mem : Bytes) : mmmergeRest (p + i * size) (r + k * size) mem p r =
    (mem.copy r p (min i k * size), r + min i k * size) := by
  unfold mmmergeRest
  rw [← Nat.mul_min_mul_right]
  split_ifs with hmore hless
  · rw [min_eq_left (by omega), Nat.add_sub_cancel_left]
  · rw [min_eq_right (by omega), Nat.add_sub_cancel_left]
  · have hnone : min (i * size) (k * size) = 0 := by omega
    rw [hnone, Bytes.copy_zero, Nat.add_zero]

/-- `mmmerge` writes what `merge` writes with `memcmp` and `memcpy`, which asks for disjoint
ranges. -/
theorem mmmerge_eq_merge (hsize : 1 ≤ size) (hna : na * size < 2 ^ 64) (hnb : nb * size < 2 ^ 64)
    (hrs : rs * size < 2 ^ 64) (ha : Clear a (na * size) r (rs * size))
    (hb : Clear b (nb * size) r (rs * size)) (mem : Bytes) :
    ∃ mem', mmmerge mem r rs a na b nb size = some mem' ∧
      merge (@objectMemcmp size) Bytes.copy mem r rs a na b nb = some mem' := by
  obtain ⟨mem₁, a', b', i', j', k', out, hrun, hmerged, hmerge⟩ :=
    merge_blocks (@objectMemcmp size) (copy_copies size) hsize hna hnb hrs ha hb mem
  refine ⟨_, ?_, hmerge⟩
  obtain ⟨-, -, hre, hre', -⟩ := hmerged.rest ha hb
  unfold mmmerge
  rw [Nat.mod_eq_of_lt hna, Nat.mod_eq_of_lt hnb, Nat.mod_eq_of_lt hrs]
  simp only [Option.bind_eq_bind, mmmergeBoth, hrun, Option.bind_some]
  rw [← hmerged.first.1, ← hmerged.second.1, hre, mmmergeRest_eq]
  simp only
  rw [← hre, hre', mmmergeRest_eq]
  rfl

theorem mmmerge_eq_merge_two : ∃ mem',
    mmmerge (Bytes.write (fun _ => 0) 0 [5, 1, 5]) 8 2 0 2 2 1 1 = some mem' ∧
      merge (@objectMemcmp 1) Bytes.copy (Bytes.write (fun _ => 0) 0 [5, 1, 5]) 8 2 0 2 2 1 =
        some mem' :=
  mmmerge_eq_merge (by decide) (by decide) (by decide) (by decide) (Or.inl (by decide))
    (Or.inl (by decide)) _

end Mmmerge

end Carthage
