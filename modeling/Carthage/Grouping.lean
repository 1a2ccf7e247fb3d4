import Mathlib.Data.List.Nodup
import Mathlib.Data.List.Pairwise
import Mathlib.Order.Lattice

/-!
# Grouping a sorted sequence

A sequence is cut into non-empty groups, each of which has a name and is labelled with the
key of its last element. The labels of a sequence with increasing keys increase, and a
search by labels finds the group that a key belongs to.
-/

namespace Carthage

/-- Keys increase strictly. -/
def Rising {α K : Type*} [LT K] (key : α → K) (xs : List α) : Prop :=
  xs.Pairwise fun a b => key a < key b

/-- `ys` names and labels the groups of `xs`, where `P y c` holds when `y` names group `c`. -/
inductive Grouped {α ι K : Type*} (P : ι → List α → Prop) (key : α → K) :
    List α → List (ι × K) → Prop
  | nil : Grouped P key [] []
  | cons {y : ι} {c xs : List α} {ys : List (ι × K)} {z : α} : P y c → c.getLast? = some z →
      Grouped P key xs ys → Grouped P key (c ++ xs) ((y, key z) :: ys)

namespace Grouped

variable {α ι K : Type*} {P Q : ι → List α → Prop} {key : α → K} {xs c A B : List α}
  {ys U V : List (ι × K)} {u : ι × K} {w : α}

theorem single {y : ι} (h : P y c) (hw : c.getLast? = some w) : Grouped P key c [(y, key w)] := by
  have hcons : Grouped P key (c ++ []) ((y, key w) :: []) := .cons h hw .nil
  rwa [List.append_nil] at hcons

theorem sublist (h : Grouped P key xs ys) : (ys.map Prod.snd).Sublist (xs.map key) := by
  induction h with
  | nil => exact List.Sublist.refl _
  | @cons y c xs ys z hc hz _ ih =>
      rw [List.map_append, List.map_cons]
      have hlast : [key z].Sublist (c.map key) :=
        List.singleton_sublist.mpr (List.mem_map_of_mem (List.mem_of_getLast? hz))
      exact hlast.append ih

theorem append (h : Grouped P key A U) (h' : Grouped P key B V) :
    Grouped P key (A ++ B) (U ++ V) := by
  induction h with
  | nil => exact h'
  | cons hc hz _ ih =>
      rw [List.append_assoc]
      exact .cons hc hz ih

theorem split_upper (h : Grouped P key xs ys) (hys : ys = U ++ u :: V) :
    ∃ A c B w, xs = A ++ c ++ B ∧ P u.1 c ∧ c.getLast? = some w ∧ key w = u.2 ∧
      Grouped P key A U ∧ Grouped P key B V := by
  induction h generalizing U with
  | nil => simp at hys
  | @cons y c xs ys z hc hz hrest ih =>
      cases U with
      | nil =>
          obtain ⟨rfl, rfl⟩ := List.cons.inj hys
          exact ⟨[], c, xs, z, rfl, hc, hz, rfl, .nil, hrest⟩
      | cons v U =>
          obtain ⟨rfl, rfl⟩ := List.cons.inj hys
          obtain ⟨A, c', B, w, rfl, h1, h2, h3, h4, h5⟩ := ih rfl
          exact ⟨c ++ A, c', B, w, by simp, h1, h2, h3, .cons hc hz h4, h5⟩

theorem split_append (h : Grouped P key xs (U ++ V)) :
    ∃ A B, xs = A ++ B ∧ Grouped P key A U ∧ Grouped P key B V := by
  induction U generalizing xs with
  | nil => exact ⟨[], xs, rfl, .nil, h⟩
  | cons u U ih =>
      obtain ⟨A, c, B, w, rfl, hc, hw, hwu, hA, hB⟩ := h.split_upper (U := []) rfl
      cases hA
      obtain ⟨A', B', rfl, hA', hB'⟩ := ih hB
      refine ⟨c ++ A', B', by simp, ?_, hB'⟩
      have hcons := Grouped.cons hc hw hA'
      rwa [hwu] at hcons

theorem last (h : Grouped P key xs ys) (hu : ys.getLast? = some u) :
    ∃ w, xs.getLast? = some w ∧ key w = u.2 := by
  obtain ⟨U, rfl⟩ := List.getLast?_eq_some_iff.mp hu
  obtain ⟨A, c, B, w, rfl, -, hw, hwu, -, hB⟩ := h.split_upper rfl
  cases hB
  refine ⟨w, ?_, hwu⟩
  rw [List.append_nil, List.getLast?_append, hw]
  rfl

theorem unique {xs' : List α} (h : Grouped P key xs ys) (h' : Grouped Q key xs' ys)
    (hPQ : ∀ y c c', P y c → Q y c' → c = c') : xs = xs' := by
  induction h generalizing xs' with
  | nil =>
      cases h'
      rfl
  | @cons y c xs ys z hc hz _ ih =>
      obtain ⟨A, c', B, w, rfl, hc', -, -, hA, hB⟩ := h'.split_upper (U := []) rfl
      cases hA
      rw [hPQ y c c' hc hc', ih hB, List.nil_append]

theorem eq_nil (h : Grouped P key xs []) : xs = [] := by
  cases h
  rfl

theorem mono (h : Grouped P key xs ys) (hmono : ∀ y ∈ ys, ∀ c, P y.1 c → Q y.1 c) :
    Grouped Q key xs ys := by
  induction h with
  | nil => exact .nil
  | cons hc hz _ ih =>
      exact .cons (hmono _ List.mem_cons_self _ hc) hz
        (ih fun y hy => hmono y (List.mem_cons_of_mem _ hy))

theorem compose {κ : Type*} {R : κ → List (ι × K) → Prop} {zs : List (κ × K)}
    (h : Grouped P key xs ys) (h' : Grouped R Prod.snd ys zs) :
    Grouped (fun z c => ∃ cs, R z cs ∧ Grouped P key c cs) key xs zs := by
  induction h' generalizing xs with
  | nil =>
      rw [h.eq_nil]
      exact .nil
  | @cons y c ys zs z hc hz _ ih =>
      obtain ⟨A, B, rfl, hA, hB⟩ := h.split_append
      obtain ⟨w, hw, hwz⟩ := hA.last hz
      rw [← hwz]
      exact .cons ⟨c, hc, hA⟩ hw (ih hB)

theorem group (h : Grouped P key xs ys) (hu : u ∈ ys) :
    ∃ c w, P u.1 c ∧ c.getLast? = some w ∧ key w = u.2 ∧ ∀ x ∈ c, x ∈ xs := by
  obtain ⟨U, V, hys⟩ := List.append_of_mem hu
  obtain ⟨A, c, B, w, rfl, h1, h2, h3, -, -⟩ := h.split_upper hys
  exact ⟨c, w, h1, h2, h3, fun x hx => by simp [hx]⟩

theorem covers (h : Grouped P key xs ys) {x : α} (hx : x ∈ xs) :
    ∃ u ∈ ys, ∃ c, P u.1 c ∧ x ∈ c := by
  induction h with
  | nil => exact (List.not_mem_nil hx).elim
  | @cons y c xs ys z hc hz _ ih =>
      rcases List.mem_append.mp hx with hx | hx
      · exact ⟨_, List.mem_cons_self, c, hc, hx⟩
      · obtain ⟨u, hu, d, hd, hxd⟩ := ih hx
        exact ⟨u, List.mem_cons_of_mem _ hu, d, hd, hxd⟩

end Grouped

section Order

variable {α ι K : Type*} [LinearOrder K] {P : ι → List α → Prop} {key : α → K} {xs c : List α}
  {ys U V : List (ι × K)} {u : ι × K} {w : α} {q : K}

theorem rising_map : Rising key xs ↔ (xs.map key).Pairwise (· < ·) := List.pairwise_map.symm

theorem Rising.inj (hs : Rising key xs) {a b : α} (ha : a ∈ xs) (hb : b ∈ xs)
    (hab : key a = key b) : a = b :=
  List.inj_on_of_nodup_map ((rising_map.mp hs).imp fun h => ne_of_lt h) ha hb hab

theorem Rising.le_last (hs : Rising key c) (hw : c.getLast? = some w) {x : α} (hx : x ∈ c) :
    key x ≤ key w := by
  obtain ⟨init, rfl⟩ := List.getLast?_eq_some_iff.mp hw
  rcases List.mem_append.mp hx with hx | hx
  · exact ((List.pairwise_append.mp hs).2.2 x hx w (by simp)).le
  · rw [List.mem_singleton.mp hx]

theorem Rising.head_le (hs : Rising key c) (hw : c.head? = some w) {x : α} (hx : x ∈ c) :
    key w ≤ key x := by
  obtain ⟨d, rfl⟩ := List.head?_eq_some_iff.mp hw
  rcases List.mem_cons.mp hx with rfl | hx
  · exact le_rfl
  · exact ((List.pairwise_cons.mp hs).1 x hx).le

/-- Position `z` of `pre ++ z :: post` is where a search for `q` by labels leads. -/
structure Locates (ys : List (ι × K)) (q : K) (U : List (ι × K)) (u : ι × K)
    (V : List (ι × K)) : Prop where
  split : ys = U ++ u :: V
  before : ∀ x ∈ U, x.2 < q
  stop : q ≤ u.2 ∨ V = []

theorem Locates.not_prefix {ys U V U' V' : List (ι × K)} {u u' : ι × K} {a : List (ι × K)}
    {q : K} (h : Locates ys q U u V) (h' : Locates ys q U' u' V') (ha : U' = U ++ a) : a = [] := by
  cases a with
  | nil => rfl
  | cons b a =>
      have heq := h.split.symm.trans h'.split
      rw [ha, List.append_assoc, List.append_cancel_left_eq, List.cons_append] at heq
      obtain ⟨rfl, rfl⟩ := List.cons_eq_cons.mp heq
      rcases h.stop with hle | hnil
      · exact absurd (h'.before u (by simp [ha])) (not_lt.mpr hle)
      · simp at hnil

theorem Locates.unique {ys U V U' V' : List (ι × K)} {u u' : ι × K} {q : K}
    (h : Locates ys q U u V) (h' : Locates ys q U' u' V') : U = U' ∧ u = u' ∧ V = V' := by
  have hU : U = U' := by
    rcases List.append_eq_append_iff.mp (h.split.symm.trans h'.split) with ⟨a, ha, -⟩ | ⟨a, ha, -⟩
    · rw [ha, h.not_prefix h' ha, List.append_nil]
    · rw [ha, h'.not_prefix h ha, List.append_nil]
  subst hU
  have heq := h.split.symm.trans h'.split
  rw [List.append_cancel_left_eq] at heq
  exact ⟨rfl, List.cons_eq_cons.mp heq⟩

namespace Grouped

theorem rising (h : Grouped P key xs ys) (hs : Rising key xs) : Rising Prod.snd ys :=
  rising_map.mpr ((rising_map.mp hs).sublist h.sublist)

theorem le_upper (h : Grouped P key xs ys) (hs : Rising key xs) :
    ∀ x ∈ xs, ∃ y ∈ ys, key x ≤ y.2 := by
  induction h with
  | nil => exact fun x hx => (List.not_mem_nil hx).elim
  | @cons y c xs ys z hc hz _ ih =>
      intro x hx
      obtain ⟨hsc, hsx, -⟩ := List.pairwise_append.mp hs
      rcases List.mem_append.mp hx with hx | hx
      · exact ⟨_, List.mem_cons_self, Rising.le_last hsc hz hx⟩
      · obtain ⟨w, hw, hle⟩ := ih hsx x hx
        exact ⟨w, List.mem_cons_of_mem _ hw, hle⟩

theorem located (h : Grouped P key xs ys) (hs : Rising key xs) (hu : Locates ys q U u V) :
    ∃ A c B w, xs = A ++ c ++ B ∧ P u.1 c ∧ c.getLast? = some w ∧ key w = u.2 ∧
      Grouped P key A U ∧ Grouped P key B V ∧ Rising key c ∧ (∀ x ∈ A, key x < q) ∧
      ∀ x ∈ B, q < key x ∧ u.2 < key x := by
  obtain ⟨A, c, B, w, rfl, hc, hw, hwu, hA, hB⟩ := h.split_upper hu.split
  obtain ⟨hAc, -, hcross⟩ := List.pairwise_append.mp hs
  obtain ⟨hAs, hcs, -⟩ := List.pairwise_append.mp hAc
  refine ⟨A, c, B, w, rfl, hc, hw, hwu, hA, hB, hcs, fun x hx => ?_, fun x hx => ?_⟩
  · obtain ⟨y, hy, hle⟩ := hA.le_upper hAs x hx
    exact hle.trans_lt (hu.before y hy)
  · have hwx : u.2 < key x :=
      hwu ▸ hcross w (List.mem_append_right _ (List.mem_of_getLast? hw)) x hx
    rcases hu.stop with hle | hV
    · exact ⟨hle.trans_lt hwx, hwx⟩
    · subst hV
      rw [hB.eq_nil] at hx
      exact (List.not_mem_nil hx).elim

theorem label_unique (h : Grouped P key xs ys)
    (hP : ∀ y c c', P y c → P y c' → c = c') (hs : Rising key xs) {v : ι × K} (hu : u ∈ ys)
    (hv : v ∈ ys) (huv : u.1 = v.1) : u = v := by
  obtain ⟨c, w, hc, hw, hwu, -⟩ := h.group hu
  obtain ⟨c', w', hc', hw', hwv, -⟩ := h.group hv
  obtain rfl := hP _ _ _ (huv ▸ hc) hc'
  refine (h.rising hs).inj hu hv ?_
  rw [← hwu, ← hwv, Option.some.inj (hw.symm.trans hw')]

theorem group_unique (h : Grouped P key xs ys) (hP : ∀ y c c', P y c → P y c' → c = c')
    (hs : Rising key xs) {v : ι × K} {d : List α} {z : α} (hu : u ∈ ys) (hv : v ∈ ys)
    (hc : P u.1 c) (hd : P v.1 d) (hzc : z ∈ c) (hzd : z ∈ d) : u = v := by
  obtain ⟨U, V, rfl⟩ := List.append_of_mem hu
  obtain ⟨A, c', B, w, rfl, hc', -, -, hA, hB⟩ := h.split_upper rfl
  obtain rfl := hP _ _ _ hc hc'
  obtain ⟨hAc, -, hcross⟩ := List.pairwise_append.mp hs
  obtain ⟨-, -, hcross'⟩ := List.pairwise_append.mp hAc
  rcases List.mem_append.mp hv with hv | hv
  · obtain ⟨d', -, hd', -, -, hsub⟩ := hA.group hv
    obtain rfl := hP _ _ _ hd hd'
    exact absurd (hcross' z (hsub z hzd) z hzc) (lt_irrefl _)
  · rcases List.mem_cons.mp hv with rfl | hv
    · rfl
    · obtain ⟨d', -, hd', -, -, hsub⟩ := hB.group hv
      obtain rfl := hP _ _ _ hd hd'
      exact absurd (hcross z (List.mem_append_right _ hzc) z (hsub z hzd)) (lt_irrefl _)

theorem names_ne (h : Grouped P key xs (U ++ u :: V)) (hP : ∀ y c c', P y c → P y c' → c = c')
    (hs : Rising key xs) : ∀ v ∈ U ++ V, v.1 ≠ u.1 := by
  intro v hv hvu
  have hmem : v ∈ U ++ u :: V := by
    rcases List.mem_append.mp hv with hv | hv
    · exact List.mem_append_left _ hv
    · exact List.mem_append_right _ (List.mem_cons_of_mem _ hv)
  have hvu' := h.label_unique hP hs hmem (by simp) hvu
  obtain ⟨-, h2, hcross⟩ := List.pairwise_append.mp (h.rising hs)
  obtain ⟨hV, -⟩ := List.pairwise_cons.mp h2
  rw [hvu'] at hv
  rcases List.mem_append.mp hv with hv | hv
  · exact lt_irrefl _ (hcross u hv u List.mem_cons_self)
  · exact lt_irrefl _ (hV u hv)

end Grouped

end Order

end Carthage
