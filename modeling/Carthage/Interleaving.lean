import Carthage.BinaryHeap
import Mathlib.Data.List.Basic

/-!
# Merging two sorted lists

A merge is a list of entries that say which list they come from. It keeps the order of each
list, and an entry of the second list stands before the equal ones of the first.
-/

namespace Carthage

variable {α : Type}

/-- The entry, whichever list it is from. -/
def entry : α ⊕ α → α := Sum.elim id id

/-- `x` may stand before `y` in a merge. -/
def Before (cmp : α → α → ℤ) (x y : α ⊕ α) : Prop :=
  cmp (entry x) (entry y) ≤ 0 ∧ (x.isLeft → y.isRight → cmp (entry x) (entry y) < 0)

instance (cmp : α → α → ℤ) : DecidableRel (Before cmp) := fun _ _ =>
  inferInstanceAs (Decidable (_ ∧ _))

/-- A sorted interleaving of `A` and `B`, with the entries of `B` first among equals. -/
structure Interleaves (cmp : α → α → ℤ) (A B : List α) (T : List (α ⊕ α)) : Prop where
  left : T.filterMap Sum.getLeft? = A
  right : T.filterMap Sum.getRight? = B
  ordered : T.Pairwise (Before cmp)

variable {cmp : α → α → ℤ} {A B : List α} {T : List (α ⊕ α)}

theorem Before.trans (hcmp : TotalPreorder cmp) {x y z : α ⊕ α} (h : Before cmp x y)
    (h' : Before cmp y z) : Before cmp x z := by
  refine ⟨hcmp.trans _ _ _ h.1 h'.1, fun hx hz => ?_⟩
  by_contra hle
  have hzx : cmp (entry z) (entry x) ≤ 0 := (hcmp.flip_le _ _).mp (not_lt.mp hle)
  -- all three are equal, and `y` is on the wrong side of `x` or of `z`
  have hyx := hcmp.trans _ _ _ h'.1 hzx
  have hzy := hcmp.trans _ _ _ hzx h.1
  rw [← hcmp.flip_le] at hyx hzy
  cases y with
  | inl y => exact absurd (h'.2 rfl hz) (not_lt.mpr hzy)
  | inr y => exact absurd (h.2 hx rfl) (not_lt.mpr hyx)

theorem Before.total (hcmp : TotalPreorder cmp) (x y : α ⊕ α) :
    Before cmp x y ∨ Before cmp y x := by
  unfold Before
  rcases lt_trichotomy (cmp (entry x) (entry y)) 0 with hlt | heq | hgt
  · exact Or.inl ⟨hlt.le, fun _ _ => hlt⟩
  · have hback : cmp (entry y) (entry x) ≤ 0 := (hcmp.flip_le _ _).mp heq.ge
    cases x with
    | inl x => exact Or.inr ⟨hback, fun _ hr => by simp at hr⟩
    | inr x => exact Or.inl ⟨heq.le, fun hl => by simp at hl⟩
  · have hback : cmp (entry y) (entry x) < 0 := (hcmp.flip _ _).mpr hgt
    exact Or.inr ⟨hback.le, fun _ _ => hback⟩

theorem filterMap_merge_left {β γ : Type} {f : β → Option γ} {s : β → β → Bool} {xs ys : List β}
    (h : ∀ y ∈ ys, f y = none) : (xs.merge ys s).filterMap f = xs.filterMap f := by
  induction xs generalizing ys with
  | nil =>
      rw [List.nil_merge]
      exact List.filterMap_eq_nil_iff.mpr h
  | cons x xs ihx =>
      induction ys with
      | nil => rw [List.merge_right]
      | cons y ys ihy =>
          have hys : ∀ z ∈ ys, f z = none := fun z hz => h z (List.mem_cons_of_mem y hz)
          rw [List.cons_merge_cons]
          split_ifs with hxy
          · rw [List.filterMap_cons, List.filterMap_cons, ihx h]
          · rw [List.filterMap_cons_none (h y List.mem_cons_self), ihy hys]

theorem filterMap_merge_right {β γ : Type} {f : β → Option γ} {s : β → β → Bool} {xs ys : List β}
    (h : ∀ x ∈ xs, f x = none) : (xs.merge ys s).filterMap f = ys.filterMap f := by
  induction xs generalizing ys with
  | nil => rw [List.nil_merge]
  | cons x xs ihx =>
      have hxs : ∀ z ∈ xs, f z = none := fun z hz => h z (List.mem_cons_of_mem x hz)
      induction ys with
      | nil =>
          rw [List.merge_right]
          exact List.filterMap_eq_nil_iff.mpr h
      | cons y ys ihy =>
          rw [List.cons_merge_cons]
          split_ifs with hxy
          · rw [List.filterMap_cons_none (h x List.mem_cons_self), ihx hxs]
          · rw [List.filterMap_cons, List.filterMap_cons, ihy]

/-- The merge that takes an entry of `A` when it is less than the one of `B`. -/
def mergeLists (cmp : α → α → ℤ) (A B : List α) : List α :=
  A.merge B fun x y => decide (cmp x y < 0)

theorem mergeLists_interleaves (hcmp : TotalPreorder cmp) (hA : A.Pairwise fun x y => cmp x y ≤ 0)
    (hB : B.Pairwise fun x y => cmp x y ≤ 0) :
    ∃ T, Interleaves cmp A B T ∧ T.map entry = mergeLists cmp A B := by
  let le : α ⊕ α → α ⊕ α → Bool := fun x y => decide (Before cmp x y)
  have hmapA : (A.map Sum.inl).map entry = A := by simp [entry, Function.comp_def]
  have hmapB : (B.map Sum.inr).map entry = B := by simp [entry, Function.comp_def]
  refine ⟨(A.map Sum.inl).merge (B.map Sum.inr) le, ⟨?_, ?_, ?_⟩, ?_⟩
  · rw [filterMap_merge_left fun y hy => ?_]
    · simp [List.filterMap_map, Function.comp_def]
    · obtain ⟨b, -, rfl⟩ := List.mem_map.mp hy
      rfl
  · rw [filterMap_merge_right fun x hx => ?_]
    · simp [List.filterMap_map, Function.comp_def]
    · obtain ⟨a, -, rfl⟩ := List.mem_map.mp hx
      rfl
  · suffices hsorted : ((A.map Sum.inl).merge (B.map Sum.inr) le).Pairwise (le · ·) from
      hsorted.imp fun h => of_decide_eq_true h
    refine List.pairwise_merge (fun x y z hxy hyz => ?_) (fun x y => ?_) _ _ ?_ ?_
    · exact decide_eq_true ((of_decide_eq_true hxy).trans hcmp (of_decide_eq_true hyz))
    · simpa [le] using Before.total hcmp x y
    · rw [List.pairwise_map]
      exact hA.imp fun h => decide_eq_true ⟨h, fun _ hr => by simp at hr⟩
    · rw [List.pairwise_map]
      exact hB.imp fun h => decide_eq_true ⟨h, fun hl => by simp at hl⟩
  · rw [List.map_merge (s := fun x y => decide (cmp x y < 0)), hmapA, hmapB, mergeLists]
    intro x hx y hy
    obtain ⟨a, -, rfl⟩ := List.mem_map.mp hx
    obtain ⟨b, -, rfl⟩ := List.mem_map.mp hy
    refine decide_eq_decide.mpr ⟨fun h => h.2 rfl rfl, fun h => ⟨h.le, fun _ _ => h⟩⟩

theorem mergeLists_perm (cmp : α → α → ℤ) (A B : List α) : (mergeLists cmp A B).Perm (A ++ B) :=
  List.merge_perm_append _

theorem mergeLists_length (cmp : α → α → ℤ) (A B : List α) :
    (mergeLists cmp A B).length = A.length + B.length := List.length_merge _ A B

theorem mergeLists_pairwise (h : Interleaves cmp A B T) (hT : T.map entry = mergeLists cmp A B) :
    (mergeLists cmp A B).Pairwise fun x y => cmp x y ≤ 0 := by
  rw [← hT, List.pairwise_map]
  exact h.ordered.imp fun hxy => hxy.1

end Carthage
