import Carthage.BinaryHeap
import Carthage.SortUtils
import Carthage.StrbufOrder

/-!
# What sorting does

The loops of `sort` at byte offsets are those of heapsort on the objects of the array.
-/

namespace Carthage

/-- Two objects without a common byte. -/
def Apart (a b size : ℕ) : Prop := a + size ≤ b ∨ b + size ≤ a

/-- A function that exchanges two objects. -/
structure Exchanges (swp : Bytes → ℕ → ℕ → ℕ → Bytes) (size : ℕ) : Prop where
  first : ∀ mem a b, Apart a b size → (swp mem a b size).read a size = mem.read b size
  second : ∀ mem a b, Apart a b size → (swp mem a b size).read b size = mem.read a size
  others : ∀ mem a b i, Apart a b size → (i < a ∨ a + size ≤ i) → (i < b ∨ b + size ≤ i) →
    swp mem a b size i = mem i

/-! ## Exchanging by words -/

/-- The `n` bytes at `a` and at `b` exchanged, and the others as they were. -/
structure Swapped (mem mem' : Bytes) (a b n : ℕ) : Prop where
  first : ∀ i < n, mem' (a + i) = mem (b + i)
  second : ∀ i < n, mem' (b + i) = mem (a + i)
  others : ∀ i, (i < a ∨ a + n ≤ i) → (i < b ∨ b + n ≤ i) → mem' i = mem i

theorem Swapped.append {mem mem₁ mem' : Bytes} {a b m n : ℕ} (h : Swapped mem mem₁ a b m)
    (h' : Swapped mem₁ mem' (a + m) (b + m) n) (hapart : Apart a b (n + m)) :
    Swapped mem mem' a b (n + m) := by
  unfold Apart at hapart
  refine ⟨fun i hi => ?_, fun i hi => ?_, fun i ha hb => ?_⟩
  · by_cases him : i < m
    · rw [h'.others _ (by omega) (by omega), h.first i him]
    · obtain ⟨j, rfl⟩ := Nat.exists_eq_add_of_le (not_lt.mp him)
      rw [← Nat.add_assoc, h'.first j (by omega), h.others _ (by omega) (by omega), Nat.add_assoc]
  · by_cases him : i < m
    · rw [h'.others _ (by omega) (by omega), h.second i him]
    · obtain ⟨j, rfl⟩ := Nat.exists_eq_add_of_le (not_lt.mp him)
      rw [← Nat.add_assoc, h'.second j (by omega), h.others _ (by omega) (by omega), Nat.add_assoc]
  · rw [h'.others i (by omega) (by omega), h.others i (by omega) (by omega)]

theorem Bytes.write_read {mem mem' : Bytes} {dst src n i : ℕ} (h : i < n) :
    mem.write dst (mem'.read src n) (dst + i) = mem' (src + i) := by
  rw [Bytes.write, if_pos (Nat.le_add_right dst i), Nat.add_sub_cancel_left]
  simp [Bytes.read, h]

theorem swapped_word (mem : Bytes) {a b n : ℕ} (h : Apart a b n) :
    Swapped mem ((mem.write a (mem.read b n)).write b (mem.read a n)) a b n := by
  unfold Apart at h
  have hlen : ∀ off, (mem.read off n).length = n := fun off => Bytes.length_read
  refine ⟨fun i hi => ?_, fun i hi => Bytes.write_read hi, fun i ha hb => ?_⟩
  · rcases h with h | h
    · rw [Bytes.write_of_lt (by omega), Bytes.write_read hi]
    · rw [Bytes.write_of_ge (by rw [hlen]; omega), Bytes.write_read hi]
  · have hkeep : ∀ (mem' : Bytes) dst src, i < dst ∨ dst + n ≤ i →
        mem'.write dst (mem.read src n) i = mem' i := fun mem' dst src hi => by
      rcases hi with hi | hi
      · exact Bytes.write_of_lt hi
      · exact Bytes.write_of_ge (by rwa [hlen])
    rw [hkeep _ _ _ hb, hkeep _ _ _ ha]

theorem memswapBytes_swapped (mem : Bytes) {a b n : ℕ} (h : Apart a b n) :
    Swapped mem (memswapBytes n mem a b) a b n := by
  induction n generalizing mem a b with
  | zero => exact ⟨fun i hi => by omega, fun i hi => by omega, fun _ _ _ => rfl⟩
  | succ n ih =>
      have hapart : Apart (a + 1) (b + 1) n ∧ a ≠ b := by
        unfold Apart at h ⊢
        omega
      refine Swapped.append (m := 1) ⟨fun i hi => ?_, fun i hi => ?_, fun i ha hb => ?_⟩
        (ih _ hapart.1) h
      · obtain rfl : i = 0 := by omega
        rw [Nat.add_zero, Nat.add_zero, Function.update_of_ne hapart.2, Function.update_self]
      · obtain rfl : i = 0 := by omega
        rw [Nat.add_zero, Nat.add_zero, Function.update_self]
      · rw [Function.update_of_ne (by omega), Function.update_of_ne (by omega)]

theorem memswap_swapped (mem : Bytes) {a b n : ℕ} (h : Apart a b n) :
    Swapped mem (memswap mem a b n) a b n := by
  induction n using Nat.strong_induction_on generalizing mem a b with
  | _ n ih =>
      by_cases hword : n < 8
      · have htail : memswapWords n mem a b = (n, mem, a, b) := by
          rw [memswapWords]
          omega
        rw [memswap, htail]
        exact memswapBytes_swapped mem h
      · obtain ⟨k, rfl⟩ : ∃ k, n = k + 8 := ⟨n - 8, by omega⟩
        have hapart : Apart a b 8 ∧ Apart (a + 8) (b + 8) k := by
          unfold Apart at h ⊢
          omega
        exact (swapped_word mem hapart.1).append (ih k (by omega) _ hapart.2) h

theorem Swapped.read_first {mem mem' : Bytes} {a b n : ℕ} (h : Swapped mem mem' a b n) :
    mem'.read a n = mem.read b n :=
  List.map_congr_left fun i hi => h.first i (List.mem_range.mp hi)

theorem Swapped.read_second {mem mem' : Bytes} {a b n : ℕ} (h : Swapped mem mem' a b n) :
    mem'.read b n = mem.read a n :=
  List.map_congr_left fun i hi => h.second i (List.mem_range.mp hi)

theorem memswap_exchanges (size : ℕ) : Exchanges memswap size where
  first mem _ _ h := (memswap_swapped mem h).read_first
  second mem _ _ h := (memswap_swapped mem h).read_second
  others mem _ _ _ h := (memswap_swapped mem h).others _

/-! ## Comparing objects of a size -/

theorem memcmp_le_iff {x y : List UInt8} (h : x.length = y.length) : memcmp x y ≤ 0 ↔ x ≤ y := by
  have hneg : memcmp y x < 0 ↔ y < x :=
    memcmp_neg_iff (fun hp => hp.eq_of_length h.symm) fun hp => hp.eq_of_length h
  rw [memcmp_swap] at hneg
  rw [← List.not_lt, ← hneg]
  omega

/-- `memcmp` on the bytes of two objects. -/
def objectMemcmp {size : ℕ} (x y : List.Vector UInt8 size) : ℤ := memcmp x.1 y.1

theorem objectMemcmp_le_iff {size : ℕ} (x y : List.Vector UInt8 size) :
    objectMemcmp x y ≤ 0 ↔ x.1 ≤ y.1 := memcmp_le_iff (x.2.trans y.2.symm)

theorem objectMemcmp_totalPreorder (size : ℕ) : TotalPreorder (@objectMemcmp size) where
  flip x y := by
    unfold objectMemcmp
    rw [memcmp_swap x.1 y.1]
    omega
  trans x y z hxy hyz := by
    rw [objectMemcmp_le_iff] at hxy hyz ⊢
    exact List.le_trans hxy hyz

/-! ## The loops -/

def Bytes.objects (mem : Bytes) (size : ℕ) (k : ℕ) : List.Vector UInt8 size :=
  mem.object size (k * size)

theorem toLong_eq {x : ℤ} (h : -2 ^ 63 ≤ x) (h' : x < 2 ^ 63) : toLong x = x := by
  apply Int.bmod_eq_of_le_mul_two <;> omega

section Loops

variable {size nitems : ℕ} {cmp : List.Vector UInt8 size → List.Vector UInt8 size → ℤ}
  {swp : Bytes → ℕ → ℕ → ℕ → Bytes} {mem mem' : Bytes} {j k n r : ℕ}

variable (size) in
theorem apart_of_ne (h : j ≠ k) : Apart (j * size) (k * size) size := by
  rcases Nat.lt_or_gt_of_ne h with hjk | hkj
  · left
    rw [← Nat.succ_mul]
    exact Nat.mul_le_mul_right size hjk
  · right
    rw [← Nat.succ_mul]
    exact Nat.mul_le_mul_right size hkj

variable (size) in
theorem object_inside (h : k < n) : k * size + size ≤ n * size := by
  rw [← Nat.succ_mul]
  exact Nat.mul_le_mul_right size h

/-- What the loops leave of an array: its objects, and nothing else changed. -/
structure Reordered (size nitems : ℕ) (mem mem' : Bytes) (a : ℕ → List.Vector UInt8 size) :
    Prop where
  objects : mem'.objects size = a
  outside : ∀ i, nitems * size ≤ i → mem' i = mem i

theorem cmpFunc_objects (hj : j < nitems) (hk : k < nitems) :
    cmpFunc cmp (nitems * size) mem (j * size) (k * size) =
      some (cmp (mem.objects size j) (mem.objects size k)) :=
  if_pos ⟨object_inside size hj, object_inside size hk⟩

variable (mem) in
theorem swpFunc_objects (hswp : Exchanges swp size) (hj : j < nitems) (hk : k < nitems)
    (hjk : j ≠ k) : ∃ mem', swpFunc swp (nitems * size) size mem (j * size) (k * size) = some mem' ∧
      Reordered size nitems mem mem' (mem.objects size ∘ Equiv.swap j k) := by
  have hapart := apart_of_ne size hjk
  refine ⟨_, if_pos ⟨object_inside size hj, object_inside size hk⟩, funext fun m => ?_, fun i hi => ?_⟩
  · apply Subtype.ext
    change (swp mem (j * size) (k * size) size).read (m * size) size =
      mem.read (Equiv.swap j k m * size) size
    rcases eq_or_ne m j with rfl | hmj
    · rw [Equiv.swap_apply_left]
      exact hswp.first mem _ _ hapart
    rcases eq_or_ne m k with rfl | hmk
    · rw [Equiv.swap_apply_right]
      exact hswp.second mem _ _ hapart
    rw [Equiv.swap_apply_of_ne_of_ne hmj hmk]
    refine Bytes.read_congr fun i hi => hswp.others mem _ _ _ hapart ?_ ?_
    · rcases apart_of_ne size hmj with h | h
      · exact Or.inl (by omega)
      · exact Or.inr (by omega)
    · rcases apart_of_ne size hmk with h | h
      · exact Or.inl (by omega)
      · exact Or.inr (by omega)
  · have hjn := object_inside size hj
    have hkn := object_inside size hk
    exact hswp.others mem _ _ i hapart (Or.inr (by omega)) (Or.inr (by omega))

theorem Reordered.trans {a b : ℕ → List.Vector UInt8 size} {mem'' : Bytes}
    (h : Reordered size nitems mem mem' a) (h' : Reordered size nitems mem' mem'' b) :
    Reordered size nitems mem mem'' b :=
  ⟨h'.objects, fun i hi => (h'.outside i hi).trans (h.outside i hi)⟩

theorem sift_child (hsize : 1 ≤ size) (hn : n * size < 2 ^ 63) (hr : r < n) :
    add64 (2 * (r * size) % 2 ^ 64) size = (2 * r + 1) * size ∧
      ((2 * r + 1) * size < n * size ↔ 2 * r + 1 < n) := by
  have hrn := object_inside size hr
  have hmul : (2 * r + 1) * size = 2 * (r * size) + size := by ring
  constructor
  · rw [Nat.mod_eq_of_lt (by omega), add64_eq (by omega), hmul]
  · exact Nat.mul_lt_mul_right hsize

theorem sortChild_objects (hsize : 1 ≤ size) (hn : n * size < 2 ^ 63) (hle : n ≤ nitems)
    (hr : 2 * r + 1 < n) : sortChild cmp (nitems * size) (n * size) mem ((2 * r + 1) * size) =
      some (largerChild cmp n r (mem.objects size) * size) := by
  have hlast : sub64 (n * size) size = (n - 1) * size := by
    rw [sub64_eq, Nat.sub_mul, Nat.one_mul]
    exact Nat.le_mul_of_pos_left size (by omega)
  have hiff : (2 * r + 1) * size < (n - 1) * size ↔ 2 * r + 2 < n := by
    rw [Nat.mul_lt_mul_right hsize]
    omega
  have hnext : (2 * r + 1) * size + size = (2 * r + 2) * size := by ring
  unfold sortChild largerChild
  rw [hlast]
  simp only [hiff]
  by_cases hright : 2 * r + 2 < n
  · have hin := object_inside size hright
    rw [if_pos hright, add64_eq (by omega), hnext, cmpFunc_objects (by omega) (by omega)]
    by_cases hless : cmp (mem.objects size (2 * r + 1)) (mem.objects size (2 * r + 2)) < 0
    · simp [hright, hless]
    · simp [hright, hless]
  · simp [hright]

variable (cmp mem) in
theorem sortSift_objects (hswp : Exchanges swp size) (hsize : 1 ≤ size)
    (hn : n * size < 2 ^ 63) (hle : n ≤ nitems) (hr : r < n) (fuel fuel' : ℕ)
    (hfuel : n ≤ fuel + r) (hfuel' : n ≤ fuel' + r) :
    ∃ mem', sortSift cmp swp (nitems * size) (n * size) fuel (r * size) mem = some mem' ∧
      Reordered size nitems mem mem' (siftDown cmp n fuel' r (mem.objects size)) := by
  induction fuel generalizing fuel' r mem with
  | zero => omega
  | succ fuel ih =>
      obtain ⟨fuel', rfl⟩ : ∃ f, fuel' = f + 1 := ⟨fuel' - 1, by omega⟩
      obtain ⟨hchild, hiff⟩ := sift_child hsize hn hr
      rw [sortSift, siftDown, hchild]
      simp only [hiff]
      by_cases hleaf : 2 * r + 1 < n
      swap
      · exact ⟨mem, if_neg hleaf, (if_neg hleaf).symm, fun _ _ => rfl⟩
      rw [if_pos hleaf, if_pos hleaf, sortChild_objects hsize hn hle hleaf]
      have hc := largerChild_lt cmp hleaf (mem.objects size)
      have hrc : r < largerChild cmp n r (mem.objects size) := by
        have hchild := largerChild_childOf cmp n r (mem.objects size)
        unfold ChildOf at hchild
        omega
      generalize largerChild cmp n r (mem.objects size) = c at hc hrc
      simp only [Option.bind_eq_bind, Option.bind_some,
        cmpFunc_objects (hr.trans_le hle) (hc.trans_le hle)]
      by_cases hstop : 0 ≤ cmp (mem.objects size r) (mem.objects size c)
      · exact ⟨mem, if_pos hstop, (if_pos hstop).symm, fun _ _ => rfl⟩
      · obtain ⟨mem₁, hswap, harr⟩ := swpFunc_objects mem hswp (hr.trans_le hle)
          (hc.trans_le hle) hrc.ne
        obtain ⟨mem', hrun, harr'⟩ := ih mem₁ hc fuel' (by omega) (by omega)
        rw [harr.objects] at harr'
        refine ⟨mem', ?_, ?_⟩
        · rw [if_neg hstop, hswap, Option.bind_some, hrun]
        · rw [if_neg hstop]
          exact harr.trans harr'

variable (cmp mem) in
theorem sortHeapify_objects (hswp : Exchanges swp size) (hsize : 1 ≤ size)
    (htotal : nitems * size < 2 ^ 63) {i : ℕ} (hi : i ≤ nitems) (fuel : ℕ) (hfuel : i < fuel) :
    ∃ mem', sortHeapify cmp swp (nitems * size) nitems fuel (i * size - size : ℤ) mem = some mem' ∧
      Reordered size nitems mem mem' (buildHeap cmp nitems i (mem.objects size)) := by
  induction i generalizing fuel mem with
  | zero =>
      obtain ⟨fuel, rfl⟩ : ∃ f, fuel = f + 1 := ⟨fuel - 1, by omega⟩
      refine ⟨mem, ?_, rfl, fun _ _ => rfl⟩
      rw [sortHeapify, if_neg]
      push_cast
      omega
  | succ i ih =>
      obtain ⟨fuel, rfl⟩ : ∃ f, fuel = f + 1 := ⟨fuel - 1, by omega⟩
      have hin := object_inside size hi
      have hindex : (((i + 1 : ℕ) : ℤ) * size - size) = ((i * size : ℕ) : ℤ) := by
        push_cast
        ring
      obtain ⟨mem₁, hsift, harr⟩ := sortSift_objects cmp mem hswp hsize htotal le_rfl hi
        (nitems + 1) nitems (by omega) (by omega)
      obtain ⟨mem', hrun, harr'⟩ := ih mem₁ (by omega) fuel (by omega)
      rw [harr.objects] at harr'
      refine ⟨mem', ?_, harr.trans harr'⟩
      have hnext : toLong (((i * size : ℕ) : ℤ) - size) = (i : ℤ) * size - size := by
        rw [toLong_eq (by omega) (by omega)]
        push_cast
        rfl
      rw [sortHeapify, hindex, if_pos (by omega), Int.toNat_natCast, Nat.mod_eq_of_lt (by omega),
        hsift, hnext]
      exact hrun

variable (cmp mem) in
theorem sortEmpty_objects (hswp : Exchanges swp size) (hsize : 1 ≤ size)
    (htotal : nitems * size < 2 ^ 63) {i : ℕ} (hi : i < nitems) (fuel : ℕ) (hfuel : i < fuel) :
    ∃ mem', sortEmpty cmp swp (nitems * size) nitems fuel (i * size : ℤ) mem = some mem' ∧
      Reordered size nitems mem mem' (emptyHeap cmp i (mem.objects size)) := by
  induction i generalizing fuel mem with
  | zero =>
      obtain ⟨fuel, rfl⟩ : ∃ f, fuel = f + 1 := ⟨fuel - 1, by omega⟩
      refine ⟨mem, ?_, rfl, fun _ _ => rfl⟩
      rw [sortEmpty, if_neg]
      push_cast
      omega
  | succ i ih =>
      obtain ⟨fuel, rfl⟩ : ∃ f, fuel = f + 1 := ⟨fuel - 1, by omega⟩
      have hin := object_inside size hi
      have hindex : (((i + 1 : ℕ) : ℤ) * size) = (((i + 1) * size : ℕ) : ℤ) := by
        push_cast
        rfl
      have hpos : size ≤ (i + 1) * size := Nat.le_mul_of_pos_left size (Nat.succ_pos i)
      obtain ⟨mem₁, hswap, harr⟩ := swpFunc_objects mem hswp (j := 0) (k := i + 1)
        (by omega) hi (by omega)
      rw [Nat.zero_mul] at hswap
      obtain ⟨mem₂, hsift, harr₂⟩ := sortSift_objects cmp mem₁ (n := i + 1) (r := 0) hswp hsize
        (by omega) hi.le (by omega) (nitems + 1) (i + 1) (by omega) (by omega)
      rw [Nat.zero_mul] at hsift
      rw [harr.objects] at harr₂
      obtain ⟨mem', hrun, harr'⟩ := ih mem₂ (by omega) fuel (by omega)
      rw [harr₂.objects] at harr'
      refine ⟨mem', ?_, (harr.trans harr₂).trans harr'⟩
      have hnext : toLong ((((i + 1) * size : ℕ) : ℤ) - size) = (i : ℤ) * size := by
        rw [toLong_eq (by omega) (by omega)]
        push_cast
        ring
      rw [sortEmpty, hindex, if_pos (by omega), Int.toNat_natCast, hswap, hnext]
      simp only [Option.bind_eq_bind, Option.bind_some, hsift]
      exact hrun

theorem toLong_lastParent (hobj : size < 2 ^ 63) (htotal : nitems * size < 2 ^ 63) :
    toLong (sub64 (nitems / 2) 1 * size : ℕ) = ((nitems / 2 : ℕ) : ℤ) * size - size := by
  have hle : nitems / 2 * size ≤ nitems * size := Nat.mul_le_mul_right size (Nat.div_le_self _ _)
  by_cases hfew : nitems / 2 = 0
  · have hwrap : ((sub64 0 1 * size : ℕ) : ℤ) = -(size : ℤ) + ((2 ^ 64 : ℕ) : ℤ) * size := by
      rw [sub64, if_neg (by omega)]
      push_cast
      ring
    rw [hfew, hwrap, toLong, Int.add_mul_bmod_self_left, Int.bmod_eq_of_le_mul_two (by omega)
      (by omega)]
    push_cast
    ring
  · have hpos : size ≤ nitems / 2 * size := Nat.le_mul_of_pos_left size (by omega)
    rw [sub64_eq (by omega), Nat.sub_mul, Nat.one_mul, toLong_eq (by omega) (by omega)]
    push_cast [hpos]
    rfl

theorem toLong_lastObject (hobj : size < 2 ^ 63) (htotal : nitems * size < 2 ^ 63) :
    toLong (sub64 (nitems * size) size : ℕ) = nitems * size - size := by
  rcases Nat.eq_zero_or_pos nitems with rfl | hpos
  · have hwrap : sub64 (0 * size) size = 2 ^ 64 - size ∨ size = 0 := by
      unfold sub64
      split_ifs <;> omega
    rcases hwrap with hwrap | rfl
    · have hcast : ((2 ^ 64 - size : ℕ) : ℤ) = -(size : ℤ) + ((2 ^ 64 : ℕ) : ℤ) * 1 := by
        omega
      rw [hwrap, hcast, toLong, Int.add_mul_bmod_self_left, Int.bmod_eq_of_le_mul_two (by omega)
        (by omega)]
      push_cast
      ring
    · rfl
  · have hle : size ≤ nitems * size := Nat.le_mul_of_pos_left size hpos
    rw [sub64_eq hle, toLong_eq (by omega) (by omega)]
    push_cast [hle]
    rfl

variable (cmp) in
theorem sort_objects (hswp : Exchanges swp size) (hsize : 1 ≤ size) (hobj : size < 2 ^ 63)
    (htotal : nitems * size < 2 ^ 63) (mem : Bytes) :
    ∃ mem', sort cmp swp mem nitems = some mem' ∧
      Reordered size nitems mem mem' (heapSort cmp nitems (mem.objects size)) := by
  obtain ⟨mem₁, hbuild, harr⟩ := sortHeapify_objects cmp mem (i := nitems / 2) hswp hsize
    htotal (Nat.div_le_self _ _) (nitems + 1) (by omega)
  obtain ⟨mem₂, hempty, harr₂⟩ : ∃ mem₂, sortEmpty cmp swp (nitems * size) nitems (nitems + 1)
      (nitems * size - size : ℤ) mem₁ = some mem₂ ∧
      Reordered size nitems mem₁ mem₂ (emptyHeap cmp (nitems - 1) (mem₁.objects size)) := by
    rcases Nat.eq_zero_or_pos nitems with rfl | hpos
    · refine ⟨mem₁, ?_, rfl, fun _ _ => rfl⟩
      rw [sortEmpty, if_neg]
      push_cast
      omega
    · have hlast : (nitems * size - size : ℤ) = ((nitems - 1 : ℕ) : ℤ) * size := by
        push_cast [hpos]
        ring
      rw [hlast]
      exact sortEmpty_objects cmp mem₁ hswp hsize htotal (by omega) _ (by omega)
  rw [harr.objects] at harr₂
  refine ⟨mem₂, ?_, harr.trans harr₂⟩
  unfold sort
  have hmod : nitems * size % 2 ^ 64 = nitems * size := Nat.mod_eq_of_lt (by omega)
  simp only [toLong_lastParent hobj htotal, hmod, toLong_lastObject hobj htotal,
    Option.bind_eq_bind, hbuild, Option.bind_some]
  exact hempty

/-- The objects of an array. -/
def Bytes.array (mem : Bytes) (size nitems : ℕ) : List (List.Vector UInt8 size) :=
  (List.range nitems).map (mem.objects size)

theorem Reordered.ordered (hcmp : TotalPreorder cmp)
    (h : Reordered size nitems mem mem' (heapSort cmp nitems (mem.objects size))) :
    (mem'.array size nitems).Perm (mem.array size nitems) ∧
      (mem'.array size nitems).Pairwise (fun x y => cmp x y ≤ 0) ∧
      ∀ i, nitems * size ≤ i → mem' i = mem i := by
  unfold Bytes.array
  rw [h.objects]
  exact ⟨(heapSort_rearranges nitems (mem.objects size)).perm,
    heapSort_pairwise hcmp nitems (mem.objects size), h.outside⟩

/-- Sorting ends and leaves the objects in order, whatever the comparison and the exchange. -/
theorem sort_sorts (hcmp : TotalPreorder cmp) (hswp : Exchanges swp size) (hsize : 1 ≤ size)
    (hobj : size < 2 ^ 63) (htotal : nitems * size < 2 ^ 63) (mem : Bytes) :
    ∃ mem', sort cmp swp mem nitems = some mem' ∧
      (mem'.array size nitems).Perm (mem.array size nitems) ∧
      (mem'.array size nitems).Pairwise (fun x y => cmp x y ≤ 0) ∧
      ∀ i, nitems * size ≤ i → mem' i = mem i := by
  obtain ⟨mem', hsort, harr⟩ := sort_objects cmp hswp hsize hobj htotal mem
  exact ⟨mem', hsort, harr.ordered hcmp⟩

end Loops

/-- Four objects of two bytes, two of them the same. -/
theorem sort_sorts_four : ∃ mem', sort (@objectMemcmp 2) memswap
    (Bytes.write (fun _ => 7) 0 [3, 1, 0, 2, 3, 1, 0, 9]) 4 = some mem' ∧
      (mem'.array 2 4).Perm ((Bytes.write (fun _ => 7) 0 [3, 1, 0, 2, 3, 1, 0, 9]).array 2 4) ∧
      (mem'.array 2 4).Pairwise (fun x y => objectMemcmp x y ≤ 0) ∧
      ∀ i, 4 * 2 ≤ i → mem' i = Bytes.write (fun _ => 7) 0 [3, 1, 0, 2, 3, 1, 0, 9] i :=
  sort_sorts (objectMemcmp_totalPreorder 2) (memswap_exchanges 2) (by decide) (by decide)
    (by decide) _

end Carthage
