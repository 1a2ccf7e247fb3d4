import Carthage.BtreeHeap
import Carthage.Grouping

/-!
# The index over a level

The nodes of one level in order, each with its last key, and the levels above them, each
grouping the nodes below under twigs. A search for a key at a level finds the first node
of the level whose last key is not smaller, or the last node.
-/

namespace Carthage

namespace Btree

variable {K D : Type} {s s' : Btree K D} {E : Prop} {level : ℕ}
  {xs ys pre post cs U V : List (ℕ × K)} {above : List (List (ℕ × K))} {q : K} {z u : ℕ × K}

/-- The nodes `ys` of a level are twigs whose children are, in order, the nodes `xs`. -/
def Groups (E : Prop) (s : Btree K D) (level : ℕ) : List (ℕ × K) → List (ℕ × K) → Prop :=
  Grouped (fun y cs => TwigAt E s y level cs) Prod.snd

/-- The levels `above` the nodes `xs`, up to the root. -/
def Index (E : Prop) (s : Btree K D) : ℕ → List (ℕ × K) → List (List (ℕ × K)) → Prop
  | _, xs, [] => ∃ z, xs = [z] ∧ s.root = some z.1
  | level, xs, ys :: above => Groups E s (level + 1) xs ys ∧ Index E s (level + 1) ys above

theorem Index.mono (h : Index E s level xs above) (hroot : s'.root = s.root)
    (hmono : ∀ y l cs, level < l → TwigAt E s y l cs → TwigAt E s' y l cs) :
    Index E s' level xs above := by
  induction above generalizing level xs with
  | nil => rwa [Index, hroot]
  | cons ys above ih =>
      refine ⟨h.1.mono fun y _ cs => hmono y.1 _ cs (Nat.lt_succ_self _), ih h.2 ?_⟩
      exact fun y l cs hl => hmono y l cs (Nat.lt_of_succ_lt hl)

theorem Index.root (h : Index E s level xs above) : ∃ r, s.root = some r := by
  induction above generalizing level xs with
  | nil =>
      obtain ⟨z, -, hroot⟩ := h
      exact ⟨z.1, hroot⟩
  | cons ys above ih => exact ih h.2

theorem Index.nonempty (h : Index E s level xs above) : xs ≠ [] := by
  induction above generalizing level xs with
  | nil =>
      obtain ⟨z, rfl, -⟩ := h
      exact List.cons_ne_nil _ _
  | cons ys above ih =>
      have hys := ih h.2
      intro hnil
      subst hnil
      obtain ⟨cs, w, -, hw, -, hsub⟩ := h.1.group (List.head_mem hys)
      exact List.not_mem_nil (hsub w (List.mem_of_getLast? hw))

/-! ## Order -/

variable [LinearOrder K]

def childIndex {ι : Type} (cs : List (ι × K)) (q : K) : ℕ :=
  let i := rank (cs.map Prod.snd) q
  if i ≥ cs.length then sub32 i 1 else i

theorem split_rank {α : Type} {key : α → K} {as : List α} (hs : Rising key as) (q : K) :
    ∃ A B, as = A ++ B ∧ (∀ x ∈ A, key x < q) ∧ (∀ x ∈ B, q ≤ key x) ∧
      rank (as.map key) q = A.length := by
  have hsplit : ∃ A B, as = A ++ B ∧ (∀ x ∈ A, key x < q) ∧ ∀ x ∈ B, q ≤ key x := by
    induction as with
    | nil => exact ⟨[], [], rfl, by simp, by simp⟩
    | cons x as ih =>
        obtain ⟨hx, hs'⟩ := List.pairwise_cons.mp hs
        by_cases hxq : key x < q
        · obtain ⟨A, B, rfl, h1, h2⟩ := ih hs'
          exact ⟨x :: A, B, rfl, List.forall_mem_cons.mpr ⟨hxq, h1⟩, h2⟩
        · refine ⟨[], x :: as, rfl, by simp, List.forall_mem_cons.mpr ⟨not_lt.mp hxq, ?_⟩⟩
          exact fun y hy => (not_lt.mp hxq).trans (hx y hy).le
  obtain ⟨A, B, rfl, h1, h2⟩ := hsplit
  refine ⟨A, B, rfl, h1, h2, ?_⟩
  rw [List.map_append, rank_split, List.length_map]
  · exact List.forall_mem_map.mpr h1
  · exact List.forall_mem_map.mpr h2

theorem rank_of_mem {α : Type} {key : α → K} {as : List α} (hs : Rising key as) {a : α}
    (ha : a ∈ as) : ∃ A B, as = A ++ a :: B ∧ rank (as.map key) (key a) = A.length := by
  obtain ⟨A, B, rfl, hA, hB, hrank⟩ := split_rank hs (key a)
  cases B with
  | nil =>
      rw [List.append_nil] at ha
      exact absurd (hA a ha) (lt_irrefl _)
  | cons b B =>
      have hba : b = a := by
        rcases List.mem_append.mp ha with ha | ha
        · exact absurd (hA a ha) (lt_irrefl _)
        · rcases List.mem_cons.mp ha with rfl | ha
          · rfl
          · have hlt := (List.pairwise_cons.mp (List.pairwise_append.mp hs).2.1).1 a ha
            exact absurd hlt (not_lt.mpr (hB b List.mem_cons_self))
      exact ⟨A, B, by rw [hba], hrank⟩

theorem getElem?_childIndex {ι : Type} {cs : List (ι × K)} (hs : Rising Prod.snd cs)
    (hne : cs ≠ []) (hlen : cs.length < 2 ^ 16) (q : K) :
    ∃ c1 z c2, cs = c1 ++ z :: c2 ∧ cs[childIndex cs q]? = some z ∧ (∀ x ∈ c1, x.2 < q) ∧
      (q ≤ z.2 ∨ c2 = [] ∧ z.2 < q) := by
  obtain ⟨c1, c2, rfl, h1, h2, hrank⟩ := split_rank hs q
  rw [childIndex, hrank]
  cases c2 with
  | cons z c2 =>
      have hlt : ¬ c1.length ≥ (c1 ++ z :: c2).length := by simp
      refine ⟨c1, z, c2, rfl, ?_, h1, Or.inl (h2 z List.mem_cons_self)⟩
      rw [if_neg hlt, List.getElem?_append_right (Nat.le_refl _)]
      simp
  | nil =>
      rw [List.append_nil] at hne hlen ⊢
      obtain ⟨init, z, rfl⟩ : ∃ init z, c1 = init ++ [z] :=
        ⟨c1.dropLast, c1.getLast hne, (List.dropLast_append_getLast hne).symm⟩
      have hpos : (init ++ [z]).length = init.length + 1 := by simp
      have hsub : sub32 (init ++ [z]).length 1 = init.length := by
        rw [sub32_eq (by omega) (by omega), hpos, Nat.add_sub_cancel]
      refine ⟨init, z, [], rfl, ?_, fun x hx => h1 x (by simp [hx]), ?_⟩
      · rw [if_pos (Nat.le_refl _), hsub, List.getElem?_append_right (Nat.le_refl _)]
        simp
      · exact Or.inr ⟨rfl, h1 z (by simp)⟩

theorem descend_group {children : List (ℕ × K)} (hu : Locates ys q U u V)
    (hg : Groups E s level xs ys) (hs : Rising Prod.snd xs) (hc : TwigAt E s u.1 level children) :
    ∃ pre z post, Locates xs q pre z post ∧ children[childIndex children q]? = some z := by
  obtain ⟨A, cs, B, w, rfl, hc', hw, hwu, hA, hB, hcs, hbefore, -⟩ := hg.located hs hu
  obtain rfl := (hc.unique hc').2
  have hne : children ≠ [] := by
    rintro rfl
    simp at hw
  obtain ⟨c1, z, c2, rfl, hget, hbefore', hstop⟩ := getElem?_childIndex hcs hne hc.length_lt q
  refine ⟨A ++ c1, z, c2 ++ B, ⟨by simp, fun x hx => ?_, ?_⟩, hget⟩
  · rcases List.mem_append.mp hx with hx | hx
    · exact hbefore x hx
    · exact hbefore' x hx
  · rcases hstop with hle | ⟨rfl, hlt⟩
    · exact Or.inl hle
    · have hzw : w = z := by simpa using hw.symm
      rcases hu.stop with hqu | hV
      · rw [← hwu, hzw] at hqu
        exact absurd hqu (not_le.mpr hlt)
      · subst hV
        exact Or.inr (by rw [hB.eq_nil, List.append_nil])

end Btree

end Carthage
