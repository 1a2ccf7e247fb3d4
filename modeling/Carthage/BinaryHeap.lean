import Mathlib.Data.List.Nodup
import Mathlib.Data.List.Range
import Mathlib.Logic.Equiv.Basic
import Mathlib.Order.Basic
import Mathlib.Tactic

/-!
# Heapsort

Binary heaps in arrays under a three-way comparison. An array is a function from indices, of
which the first so many count, and is changed by exchanges only. The heap is built from the
last parent down to the root, and emptied from the end.
-/

namespace Carthage

variable {α : Type}

/-- A three-way comparison that is a total preorder. -/
structure TotalPreorder (cmp : α → α → ℤ) : Prop where
  flip : ∀ x y, cmp x y < 0 ↔ 0 < cmp y x
  trans : ∀ x y z, cmp x y ≤ 0 → cmp y z ≤ 0 → cmp x z ≤ 0

namespace TotalPreorder

variable {cmp : α → α → ℤ}

theorem flip_le (h : TotalPreorder cmp) (x y : α) : 0 ≤ cmp x y ↔ cmp y x ≤ 0 := by
  rw [← not_lt, h.flip, not_lt]

theorem refl (h : TotalPreorder cmp) (x : α) : cmp x x ≤ 0 := by
  have hflip := h.flip x x
  omega

end TotalPreorder

/-! ## Rearrangements -/

/-- The first `n` entries of an array in another order, and the others as they were. -/
def Rearranges (n : ℕ) (a b : ℕ → α) : Prop :=
  ∃ σ : Equiv.Perm ℕ, b = a ∘ σ ∧ ∀ j, n ≤ j → σ j = j

namespace Rearranges

variable {n m : ℕ} {a b c : ℕ → α}

theorem refl (n : ℕ) (a : ℕ → α) : Rearranges n a a := ⟨Equiv.refl ℕ, rfl, fun _ _ => rfl⟩

theorem swap {i j : ℕ} (hi : i < n) (hj : j < n) : Rearranges n a (a ∘ Equiv.swap i j) :=
  ⟨Equiv.swap i j, rfl, fun k hk => Equiv.swap_apply_of_ne_of_ne (by omega) (by omega)⟩

theorem trans (h : Rearranges n a b) (h' : Rearranges n b c) : Rearranges n a c := by
  obtain ⟨σ, rfl, hσ⟩ := h
  obtain ⟨τ, rfl, hτ⟩ := h'
  refine ⟨τ.trans σ, rfl, fun j hj => ?_⟩
  rw [Equiv.trans_apply, hτ j hj, hσ j hj]

theorem mono (h : Rearranges m a b) (hle : m ≤ n) : Rearranges n a b := by
  obtain ⟨σ, hb, hσ⟩ := h
  exact ⟨σ, hb, fun j hj => hσ j (hle.trans hj)⟩

theorem outside (h : Rearranges n a b) {j : ℕ} (hj : n ≤ j) : b j = a j := by
  obtain ⟨σ, rfl, hσ⟩ := h
  rw [Function.comp_apply, hσ j hj]

theorem source (h : Rearranges n a b) {j : ℕ} (hj : j < n) : ∃ i < n, b j = a i := by
  obtain ⟨σ, rfl, hσ⟩ := h
  refine ⟨σ j, ?_, rfl⟩
  by_contra hge
  have hfix : σ j = j := σ.injective (hσ (σ j) (not_lt.mp hge))
  omega

theorem perm (h : Rearranges n a b) : ((List.range n).map b).Perm ((List.range n).map a) := by
  obtain ⟨σ, rfl, hσ⟩ := h
  have hrange : ((List.range n).map σ).Perm (List.range n) := by
    rw [List.perm_ext_iff_of_nodup (List.nodup_range.map σ.injective) List.nodup_range]
    intro i
    have hback : ∀ k, n ≤ σ k ↔ n ≤ k := fun k =>
      ⟨fun hk => (σ.injective (hσ _ hk)).le.trans' hk, fun hk => (hσ k hk).symm ▸ hk⟩
    simp only [List.mem_map, List.mem_range]
    constructor
    · rintro ⟨k, hk, rfl⟩
      have := hback k
      omega
    · intro hi
      refine ⟨σ.symm i, ?_, σ.apply_symm_apply i⟩
      have := hback (σ.symm i)
      rw [σ.apply_symm_apply] at this
      omega
  rw [← List.map_map]
  exact hrange.map a

end Rearranges

/-! ## Heaps -/

variable (cmp : α → α → ℤ)

/-- The larger child of `r`, which has one. -/
def largerChild (n r : ℕ) (a : ℕ → α) : ℕ :=
  if 2 * r + 2 < n ∧ cmp (a (2 * r + 1)) (a (2 * r + 2)) < 0 then 2 * r + 2 else 2 * r + 1

/-- Sift the entry at `r` down in a heap of `n` entries. -/
def siftDown (n : ℕ) : ℕ → ℕ → (ℕ → α) → ℕ → α
  | 0, _, a => a
  | fuel + 1, r, a =>
      if 2 * r + 1 < n then
        if 0 ≤ cmp (a r) (a (largerChild cmp n r a)) then a
        else siftDown n fuel (largerChild cmp n r a) (a ∘ Equiv.swap r (largerChild cmp n r a))
      else a

/-- Make parents from `i - 1` down to the root heaps. -/
def buildHeap (n : ℕ) : ℕ → (ℕ → α) → ℕ → α
  | 0, a => a
  | i + 1, a => buildHeap n i (siftDown cmp n n i a)

/-- Move the largest entry behind the others, for ends from `i` down to 1. -/
def emptyHeap : ℕ → (ℕ → α) → ℕ → α
  | 0, a => a
  | i + 1, a => emptyHeap i (siftDown cmp (i + 1) (i + 1) 0 (a ∘ Equiv.swap 0 (i + 1)))

def heapSort (n : ℕ) (a : ℕ → α) : ℕ → α := emptyHeap cmp (n - 1) (buildHeap cmp n (n / 2) a)

/-- `c` is a child of `p`. -/
def ChildOf (c p : ℕ) : Prop := c = 2 * p + 1 ∨ c = 2 * p + 2

/-- From index `lo` on, children are not larger than their parents, but perhaps those of `hole`. -/
structure HeapBut (n lo hole : ℕ) (a : ℕ → α) : Prop where
  edges : ∀ p c, lo ≤ p → p ≠ hole → ChildOf c p → c < n → cmp (a c) (a p) ≤ 0
  across : ∀ p c, lo ≤ p → ChildOf hole p → ChildOf c hole → c < n → cmp (a c) (a p) ≤ 0

/-- From index `lo` on, children are not larger than their parents. -/
def HeapFrom (n lo : ℕ) (a : ℕ → α) : Prop :=
  ∀ p c, lo ≤ p → ChildOf c p → c < n → cmp (a c) (a p) ≤ 0

variable {cmp} {n lo r c : ℕ} {a : ℕ → α}

theorem HeapBut.finish (h : HeapBut cmp n lo r a)
    (hr : ∀ c, ChildOf c r → c < n → cmp (a c) (a r) ≤ 0) : HeapFrom cmp n lo a := by
  intro p c hp hc hcn
  by_cases hpr : p = r
  · subst hpr
    exact hr c hc hcn
  · exact h.edges p c hp hpr hc hcn

/-- The hole moves down to the larger child. -/
theorem HeapBut.move (h : HeapBut cmp n lo r a) (hlo : lo ≤ r) (hc : ChildOf c r) (hcn : c < n)
    (hmax : ∀ d, ChildOf d r → d < n → cmp (a d) (a c) ≤ 0) (hlt : cmp (a r) (a c) ≤ 0) :
    HeapBut cmp n lo c (a ∘ Equiv.swap r c) := by
  have hrc : r < c := by
    unfold ChildOf at hc
    omega
  have hleft : (a ∘ Equiv.swap r c) r = a c := by simp
  have hright : (a ∘ Equiv.swap r c) c = a r := by simp
  have hother : ∀ d, d ≠ r → d ≠ c → (a ∘ Equiv.swap r c) d = a d := fun d h1 h2 => by
    rw [Function.comp_apply, Equiv.swap_apply_of_ne_of_ne h1 h2]
  constructor
  · intro p d hp hpc hd hdn
    by_cases hpr : p = r
    · subst hpr
      rw [hleft]
      by_cases hdc : d = c
      · rw [hdc, hright]
        exact hlt
      · have hdp : d ≠ p := by
          unfold ChildOf at hd
          omega
        rw [hother d hdp hdc]
        exact hmax d hd hdn
    · have hdc : d ≠ c := by
        unfold ChildOf at hd hc
        omega
      rw [hother p hpr hpc]
      by_cases hdr : d = r
      · rw [hdr, hleft]
        exact h.across p c hp (hdr ▸ hd) hc hcn
      · rw [hother d hdr hdc]
        exact h.edges p d hp hpr hd hdn
  · intro p d hp hcp hd hdn
    have hpr : p = r := by
      unfold ChildOf at hcp hc
      omega
    have hdr : d ≠ r ∧ d ≠ c := by
      unfold ChildOf at hd
      omega
    rw [hpr, hleft, hother d hdr.1 hdr.2]
    exact h.edges c d (hlo.trans hrc.le) hrc.ne' hd hdn

variable (cmp) in
theorem largerChild_childOf (n r : ℕ) (a : ℕ → α) : ChildOf (largerChild cmp n r a) r := by
  unfold largerChild
  split_ifs
  · exact Or.inr rfl
  · exact Or.inl rfl

variable (cmp) in
theorem largerChild_lt (h : 2 * r + 1 < n) (a : ℕ → α) : largerChild cmp n r a < n := by
  unfold largerChild
  split_ifs with hright
  · exact hright.1
  · exact h

theorem largerChild_max (hcmp : TotalPreorder cmp) (h : ChildOf c r) (hc : c < n) (a : ℕ → α) :
    cmp (a c) (a (largerChild cmp n r a)) ≤ 0 := by
  unfold largerChild
  split_ifs with hright
  · rcases h with rfl | rfl
    · exact hright.2.le
    · exact hcmp.refl _
  · rcases h with rfl | rfl
    · exact hcmp.refl _
    · have hle : ¬ cmp (a (2 * r + 1)) (a (2 * r + 2)) < 0 := fun hlt => hright ⟨hc, hlt⟩
      exact (hcmp.flip_le _ _).mp (not_lt.mp hle)

variable (cmp) in
theorem siftDown_rearranges (n fuel r : ℕ) (a : ℕ → α) :
    Rearranges n a (siftDown cmp n fuel r a) := by
  induction fuel generalizing r a with
  | zero => exact .refl n a
  | succ fuel ih =>
      rw [siftDown]
      split_ifs with hleaf
      · exact .refl n a
      · exact (Rearranges.swap (by omega) (largerChild_lt cmp hleaf a)).trans (ih _ _)
      · exact .refl n a

theorem siftDown_heap (hcmp : TotalPreorder cmp) {fuel : ℕ} (hfuel : n ≤ fuel + r) (hlo : lo ≤ r)
    (h : HeapBut cmp n lo r a) : HeapFrom cmp n lo (siftDown cmp n fuel r a) := by
  induction fuel generalizing r a with
  | zero =>
      refine h.finish fun c hc hcn => ?_
      unfold ChildOf at hc
      omega
  | succ fuel ih =>
      rw [siftDown]
      by_cases hleaf : 2 * r + 1 < n
      swap
      · rw [if_neg hleaf]
        refine h.finish fun c hc hcn => ?_
        unfold ChildOf at hc
        omega
      rw [if_pos hleaf]
      have hc : ChildOf (largerChild cmp n r a) r := largerChild_childOf cmp n r a
      have hcn := largerChild_lt cmp hleaf a
      have hmax : ∀ d, ChildOf d r → d < n → cmp (a d) (a (largerChild cmp n r a)) ≤ 0 :=
        fun d hd hdn => largerChild_max hcmp hd hdn a
      generalize largerChild cmp n r a = c at hc hcn hmax
      by_cases hstop : 0 ≤ cmp (a r) (a c)
      · rw [if_pos hstop]
        refine h.finish fun d hd hdn => ?_
        exact hcmp.trans _ _ _ (hmax d hd hdn) ((hcmp.flip_le _ _).mp hstop)
      · rw [if_neg hstop]
        have hrc : r < c := by
          unfold ChildOf at hc
          omega
        exact ih (by omega) (hlo.trans hrc.le)
          (h.move hlo hc hcn hmax (not_le.mp hstop).le)

/-! ## The two phases -/

theorem buildHeap_rearranges (n i : ℕ) (a : ℕ → α) : Rearranges n a (buildHeap cmp n i a) := by
  induction i generalizing a with
  | zero => exact .refl n a
  | succ i ih => exact (siftDown_rearranges cmp n n i a).trans (ih _)

theorem buildHeap_heap (hcmp : TotalPreorder cmp) {i : ℕ} (h : HeapFrom cmp n i a) :
    HeapFrom cmp n 0 (buildHeap cmp n i a) := by
  induction i generalizing a with
  | zero => exact h
  | succ i ih =>
      refine ih (siftDown_heap hcmp (Nat.le_add_right n i) le_rfl ⟨?_, ?_⟩)
      · exact fun p c hp hne => h p c (by omega)
      · intro p c hp hchild
        unfold ChildOf at hchild
        omega

theorem HeapFrom.root (hcmp : TotalPreorder cmp) (h : HeapFrom cmp n 0 a) {j : ℕ} (hj : j < n) :
    cmp (a j) (a 0) ≤ 0 := by
  induction j using Nat.strong_induction_on with
  | _ j ih =>
      rcases Nat.eq_zero_or_pos j with rfl | hpos
      · exact hcmp.refl _
      · have hchild : ChildOf j ((j - 1) / 2) := by
          unfold ChildOf
          omega
        exact hcmp.trans _ _ _ (h _ j (Nat.zero_le _) hchild hj) (ih _ (by omega) (by omega))

/-- What is left of a heap of the first `i` entries, with the others sorted behind it. -/
structure Emptying (cmp : α → α → ℤ) (n i : ℕ) (a : ℕ → α) : Prop where
  heap : HeapFrom cmp i 0 a
  tail : ∀ j k, i ≤ j → j ≤ k → k < n → cmp (a j) (a k) ≤ 0
  below : ∀ j k, j < i → i ≤ k → k < n → cmp (a j) (a k) ≤ 0

theorem Emptying.step (hcmp : TotalPreorder cmp) {i : ℕ} (h : Emptying cmp n (i + 2) a) :
    Emptying cmp n (i + 1) (siftDown cmp (i + 1) (i + 1) 0 (a ∘ Equiv.swap 0 (i + 1))) := by
  let b := a ∘ Equiv.swap 0 (i + 1)
  have hend : b (i + 1) = a 0 := by simp [b]
  have hroot : b 0 = a (i + 1) := by simp [b]
  have hother : ∀ j, j ≠ 0 → j ≠ i + 1 → b j = a j := fun j h1 h2 => by
    simp only [b, Function.comp_apply, Equiv.swap_apply_of_ne_of_ne h1 h2]
  have hre := siftDown_rearranges cmp (i + 1) (i + 1) 0 b
  -- Whatever was in the heap is not larger than the root was, and smaller than what is behind.
  have hbig : ∀ j < i + 1, ∃ k < i + 2, siftDown cmp (i + 1) (i + 1) 0 b j = a k := by
    intro j hj
    obtain ⟨k, hk, heq⟩ := hre.source hj
    rw [heq]
    by_cases hk0 : k = 0
    · exact ⟨i + 1, by omega, by rw [hk0, hroot]⟩
    · exact ⟨k, by omega, hother k hk0 (by omega)⟩
  have hout : ∀ k, i + 1 < k → siftDown cmp (i + 1) (i + 1) 0 b k = a k := fun k hk => by
    rw [hre.outside (by omega), hother k (by omega) (by omega)]
  have hlast : siftDown cmp (i + 1) (i + 1) 0 b (i + 1) = a 0 := by
    rw [hre.outside le_rfl, hend]
  refine ⟨?_, fun j k hj hjk hk => ?_, fun j k hj hk hkn => ?_⟩
  · refine siftDown_heap hcmp (a := b) (Nat.le_add_right _ _) le_rfl
      ⟨fun p c _ hp hc hcn => ?_, ?_⟩
    · have hc' : c ≠ 0 ∧ p ≠ i + 1 := by
        unfold ChildOf at hc
        omega
      rw [hother c hc'.1 (by omega), hother p hp hc'.2]
      exact h.heap p c (Nat.zero_le p) hc (by omega)
    · intro p c _ hp
      unfold ChildOf at hp
      omega
  · rcases Nat.eq_or_lt_of_le hj with rfl | hj
    · rw [hlast]
      rcases Nat.eq_or_lt_of_le hjk with rfl | hjk
      · rw [hlast]
        exact hcmp.refl _
      · rw [hout k hjk]
        exact h.below 0 k (by omega) hjk hk
    · rw [hout j hj, hout k (by omega)]
      exact h.tail j k hj hjk hk
  · obtain ⟨m, hm, heq⟩ := hbig j hj
    rw [heq]
    rcases Nat.eq_or_lt_of_le hk with rfl | hk
    · rw [hlast]
      exact h.heap.root hcmp hm
    · rw [hout k hk]
      exact h.below m k hm hk hkn

theorem emptyHeap_rearranges {i : ℕ} (hi : i < n) (a : ℕ → α) :
    Rearranges n a (emptyHeap cmp i a) := by
  induction i generalizing a with
  | zero => exact .refl n a
  | succ i ih =>
      have hsift := siftDown_rearranges cmp (i + 1) (i + 1) 0 (a ∘ Equiv.swap 0 (i + 1))
      exact ((Rearranges.swap (by omega) hi).trans (hsift.mono hi.le)).trans (ih (by omega) _)

theorem emptyHeap_sorted (hcmp : TotalPreorder cmp) {i : ℕ} (hi : i < n)
    (h : Emptying cmp n (i + 1) a) : Emptying cmp n 1 (emptyHeap cmp i a) := by
  induction i generalizing a with
  | zero => exact h
  | succ i ih => exact ih (by omega) (h.step hcmp)

theorem heapSort_rearranges (n : ℕ) (a : ℕ → α) : Rearranges n a (heapSort cmp n a) := by
  cases n with
  | zero => exact .refl 0 a
  | succ n =>
      exact (buildHeap_rearranges _ _ a).trans (emptyHeap_rearranges (Nat.lt_succ_self n) _)

theorem heapSort_sorted (hcmp : TotalPreorder cmp) (n : ℕ) (a : ℕ → α) {j k : ℕ} (hjk : j ≤ k)
    (hk : k < n) : cmp (heapSort cmp n a j) (heapSort cmp n a k) ≤ 0 := by
  obtain ⟨m, rfl⟩ : ∃ m, n = m + 1 := ⟨n - 1, by omega⟩
  have hleaves : HeapFrom cmp (m + 1) ((m + 1) / 2) a := by
    intro p c hp hc hcn
    unfold ChildOf at hc
    omega
  have hstart : Emptying cmp (m + 1) (m + 1) (buildHeap cmp (m + 1) ((m + 1) / 2) a) :=
    ⟨buildHeap_heap hcmp hleaves, fun j k h1 h2 h3 => by omega, fun j k h1 h2 h3 => by omega⟩
  have hdone := emptyHeap_sorted hcmp (Nat.lt_succ_self m) hstart
  rcases Nat.eq_zero_or_pos j with rfl | hj
  · rcases Nat.eq_zero_or_pos k with rfl | hk0
    · exact hcmp.refl _
    · exact hdone.below 0 k Nat.zero_lt_one hk0 hk
  · exact hdone.tail j k hj hjk hk

theorem heapSort_pairwise (hcmp : TotalPreorder cmp) (n : ℕ) (a : ℕ → α) :
    ((List.range n).map (heapSort cmp n a)).Pairwise fun x y => cmp x y ≤ 0 := by
  rw [List.pairwise_map]
  refine List.pairwise_lt_range.imp_of_mem fun {j k} _ hk hjk => ?_
  exact heapSort_sorted hcmp n a hjk.le (List.mem_range.mp hk)

end Carthage
