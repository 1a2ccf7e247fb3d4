import Carthage.SortOrder

/-!
# Sorting by bytes

`mmsort` repeats the loops of `sort`, with `memcmp` and the exchange by words in place of the
functions it is given. Which exchange `sort` is given does not show in what it leaves.
-/

namespace Carthage

section Loops

variable {total size nitems n r c : ℕ} {mem : Bytes}

theorem mmsortCmp_eq (a b : ℕ) :
    mmsortCmp total size mem a b = cmpFunc (@objectMemcmp size) total mem a b := rfl

theorem mmsortSwap_eq (a b : ℕ) :
    mmsortSwap total size mem a b = swpFunc memswap total size mem a b := rfl

theorem mmsortSift_eq (fuel : ℕ) : mmsortSift total size n fuel r mem =
    sortSift (@objectMemcmp size) memswap total n fuel r mem := by
  induction fuel generalizing r mem with
  | zero => rfl
  | succ fuel ih =>
      rw [mmsortSift, sortSift, sortChild]
      by_cases hright : add64 (2 * r % 2 ^ 64) size < sub64 n size
      · rw [if_pos hright, if_pos hright, ← mmsortCmp_eq]
        cases mmsortCmp total size mem (add64 (2 * r % 2 ^ 64) size)
            (add64 (add64 (2 * r % 2 ^ 64) size) size) with
        | none => rfl
        | some order => simp [mmsortCmp_eq, mmsortSwap_eq, ih]
      · rw [if_neg hright, if_neg hright]
        simp [mmsortCmp_eq, mmsortSwap_eq, ih]

theorem mmsortHeapify_eq (fuel : ℕ) (i : ℤ) : mmsortHeapify total size nitems fuel i mem =
    sortHeapify (@objectMemcmp size) memswap total nitems fuel i mem := by
  induction fuel generalizing i mem with
  | zero => rfl
  | succ fuel ih =>
      rw [mmsortHeapify, sortHeapify]
      simp only [mmsortSift_eq, ih]

theorem mmsortEmpty_eq (fuel : ℕ) (i : ℤ) : mmsortEmpty total size nitems fuel i mem =
    sortEmpty (@objectMemcmp size) memswap total nitems fuel i mem := by
  induction fuel generalizing i mem with
  | zero => rfl
  | succ fuel ih =>
      rw [mmsortEmpty, sortEmpty]
      simp only [mmsortSift_eq, mmsortSwap_eq, ih]

theorem mmsort_eq (mem : Bytes) (nitems size : ℕ) :
    mmsort mem nitems size = sort (@objectMemcmp size) memswap mem nitems := by
  unfold mmsort sort
  simp only [mmsortHeapify_eq, mmsortEmpty_eq]

end Loops

/-! ## Exchanges -/

variable {size nitems : ℕ}

theorem Reordered.unique {mem mem₁ mem₂ : Bytes} {a : ℕ → List.Vector UInt8 size}
    (hsize : 1 ≤ size) (h : Reordered size nitems mem mem₁ a)
    (h' : Reordered size nitems mem mem₂ a) : mem₁ = mem₂ := by
  funext i
  have hobj : mem₁.objects size (i / size) = mem₂.objects size (i / size) := by
    rw [h.objects, h'.objects]
  have hread : mem₁.read (i / size * size) size = mem₂.read (i / size * size) size :=
    congrArg Subtype.val hobj
  have hbyte := List.map_inj_left.mp hread (i % size) (List.mem_range.mpr (Nat.mod_lt i hsize))
  rwa [Nat.div_add_mod'] at hbyte

theorem sort_swap_congr {cmp : List.Vector UInt8 size → List.Vector UInt8 size → ℤ}
    {swp swp' : Bytes → ℕ → ℕ → ℕ → Bytes} (hswp : Exchanges swp size)
    (hswp' : Exchanges swp' size) (hsize : 1 ≤ size) (hobj : size < 2 ^ 63)
    (htotal : nitems * size < 2 ^ 63) (mem : Bytes) :
    sort cmp swp mem nitems = sort cmp swp' mem nitems := by
  obtain ⟨mem₁, hsort₁, harr₁⟩ := sort_objects cmp hswp hsize hobj htotal mem
  obtain ⟨mem₂, hsort₂, harr₂⟩ := sort_objects cmp hswp' hsize hobj htotal mem
  rw [hsort₁, hsort₂, harr₁.unique hsize harr₂]

/-- `mmsort` is `sort` with `memcmp` and an exchange of bytes, and sorts by the bytes. -/
theorem mmsort_eq_sort (mem : Bytes) (nitems size : ℕ) :
    (∀ n, Exchanges memswap n) ∧
    mmsort mem nitems size = sort (@objectMemcmp size) memswap mem nitems ∧
    (1 ≤ size → size < 2 ^ 63 → nitems * size < 2 ^ 63 →
      (∀ swp, Exchanges swp size →
        mmsort mem nitems size = sort (@objectMemcmp size) swp mem nitems) ∧
      ∃ mem', mmsort mem nitems size = some mem' ∧
        (mem'.array size nitems).Perm (mem.array size nitems) ∧
        (mem'.array size nitems).Pairwise (fun x y => x.1 ≤ y.1) ∧
        ∀ i, nitems * size ≤ i → mem' i = mem i) := by
  refine ⟨memswap_exchanges, mmsort_eq mem nitems size, fun hsize hobj htotal => ⟨?_, ?_⟩⟩
  · intro swp hswp
    rw [mmsort_eq]
    exact sort_swap_congr (memswap_exchanges size) hswp hsize hobj htotal mem
  · obtain ⟨mem', hsort, harr⟩ := sort_objects (@objectMemcmp size)
      (memswap_exchanges size) hsize hobj htotal mem
    simp only [mmsort_eq, ← objectMemcmp_le_iff]
    exact ⟨mem', hsort, harr.ordered (objectMemcmp_totalPreorder size)⟩

/-- Three objects of nine bytes, a word and one more. -/
theorem mmsort_eq_sort_three :
    ∃ mem', mmsort (fun i => UInt8.ofNat (100 - i)) 3 9 = some mem' ∧
      (mem'.array 9 3).Perm (Bytes.array (fun i => UInt8.ofNat (100 - i)) 9 3) ∧
      (mem'.array 9 3).Pairwise (fun x y => x.1 ≤ y.1) ∧
      ∀ i, 3 * 9 ≤ i → mem' i = UInt8.ofNat (100 - i) :=
  ((mmsort_eq_sort (fun i => UInt8.ofNat (100 - i)) 3 9).2.2 (by decide) (by decide)
    (by decide)).2

end Carthage
