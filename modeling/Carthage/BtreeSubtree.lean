import Carthage.BtreePages
import Mathlib.Data.List.ReduceOption

/-!
# Subtrees

A tree seen from a node downwards: the items under the node, and the addresses of the nodes that
are reached through the pointers in memory. No node is reached twice.
-/

namespace Carthage

namespace Btree

variable {K D : Type} {s s' : Btree K D} {E : Prop} {level x y : ℕ}
  {L I : List (K × List UInt8)} {cs xs : List (ℕ × K)} {above : List (List (ℕ × K))}

/-- A node whose leaves hold, in order, the items `L`. -/
def Subtree (s : Btree K D) : ℕ → ℕ → List (K × List UInt8) → Prop
  | 0, _, _ => False
  | 1, x, L => LeafAt s x L
  | level + 2, x, L => ∃ cs, TwigAt False s x (level + 2) cs ∧
      Grouped (Subtree s (level + 1)) Prod.fst L cs

def childNodes (s : Btree K D) (x : ℕ) : List ℕ :=
  (((s.heap x).bind BtNode.pointers).getD []).reduceOption

/-- A node and all nodes that are reached from it. -/
def nodes (s : Btree K D) : ℕ → ℕ → List ℕ
  | 0, _ => []
  | 1, x => [x]
  | level + 2, x => x :: (s.childNodes x).flatMap (nodes s (level + 1))

def Tidy (s : Btree K D) : Prop :=
  ∀ x page, s.page x = some page → (s.childNodes x).length ≤ page.entries.length

theorem nodes_congr_on (h : ∀ y ∈ s.nodes level x, s'.childNodes y = s.childNodes y) :
    s'.nodes level x = s.nodes level x := by
  induction level using Nat.strong_induction_on generalizing x with
  | _ level ih =>
      match level with
      | 0 => rfl
      | 1 => rfl
      | level + 2 =>
          rw [nodes] at h
          rw [nodes, nodes, h x List.mem_cons_self]
          congr 1
          refine List.flatMap_congr fun y hy => ih (level + 1) (by omega) fun z hz => ?_
          exact h z (List.mem_cons_of_mem x (List.mem_flatMap.mpr ⟨y, hy, hz⟩))

theorem nodes_congr (h : ∀ y, s'.childNodes y = s.childNodes y) :
    s'.nodes level x = s.nodes level x :=
  nodes_congr_on fun y _ => h y

theorem mem_nodes_self (h : Subtree s level x L) : x ∈ s.nodes level x := by
  match level, h with
  | 1, _ => exact List.mem_singleton_self x
  | level + 2, _ => exact List.mem_cons_self

theorem Subtree.page (h : Subtree s level x L) :
    ∃ page, s.page x = some page ∧ page.level = level := by
  match level, h with
  | 1, h =>
      obtain ⟨page, hp, hpl, -⟩ := LeafAt.page_items h
      exact ⟨page, hp, hpl⟩
  | level + 2, ⟨cs, hc, _⟩ =>
      obtain ⟨page, hp, hpl, -⟩ := hc.page_items
      exact ⟨page, hp, hpl⟩

theorem Subtree.items_unique {L' : List (K × List UInt8)} (h : Subtree s level x L)
    (h' : Subtree s level x L') : L = L' := by
  induction level using Nat.strong_induction_on generalizing x L L' with
  | _ level ih =>
      match level, h, h' with
      | 1, h, h' => exact LeafAt.unique h h'
      | level + 2, ⟨cs, hc, hg⟩, ⟨cs', hc', hg'⟩ =>
          obtain rfl := (hc.unique hc').2
          exact hg.unique hg' fun y c c' hy hy' => ih (level + 1) (by omega) hy hy'

theorem Subtree.unique {level' : ℕ} {L' : List (K × List UInt8)} (h : Subtree s level x L)
    (h' : Subtree s level' x L') : level = level' ∧ L = L' := by
  obtain ⟨page, hp, hpl⟩ := h.page
  obtain ⟨page', hp', hpl'⟩ := h'.page
  obtain rfl := Option.some.inj (hp.symm.trans hp')
  obtain rfl := hpl.symm.trans hpl'
  exact ⟨rfl, h.items_unique h'⟩

theorem Subtree.resident (h : Subtree s level x L) : ResidentAt s x := by
  match level, h with
  | 1, h => exact LeafAt.resident h
  | level + 2, ⟨cs, hc, _⟩ => exact hc.resident

/-! ## The nodes under a node -/

theorem Tidy.leaf (ht : Tidy s) (h : LeafAt s x L) : s.childNodes x = [] := by
  obtain ⟨crc, leaf, hp, -⟩ := h.page
  exact List.eq_nil_of_length_eq_zero (Nat.le_zero.mp (ht x _ hp))

theorem Tidy.twig (ht : Tidy s) (h : TwigAt E s x level cs) : s.childNodes x = cs.map Prod.fst := by
  obtain ⟨crc, twig, hp, hk, -⟩ := h.page
  have hlen := ht x _ hp
  have hk' : twig.entries.length = cs.length := by simpa using congrArg List.length hk
  obtain ⟨node, hx, ⟨t⟩⟩ := h
  have hsome : (cs.map fun z => some z.1).reduceOption = cs.map Prod.fst := by
    have hmap : (cs.map fun z => some z.1) = (cs.map Prod.fst).map some := by
      rw [List.map_map]
      rfl
    rw [hmap, List.reduceOption, List.filterMap_map]
    exact List.filterMap_some
  have hsplit : s.childNodes x = cs.map Prod.fst ++ (t.pointers.drop cs.length).reduceOption := by
    have hlinks : s.childNodes x = t.pointers.reduceOption := by
      simp only [childNodes, hx, Option.bind_some, t.array, Option.getD_some]
    rw [hlinks, ← hsome, ← t.linked, ← List.reduceOption_append, List.take_append_drop]
  have hcount : (s.childNodes x).length ≤ cs.length := hk' ▸ hlen
  rw [hsplit, List.length_append, List.length_map] at hcount
  have hnil := List.eq_nil_of_length_eq_zero (by omega :
    (t.pointers.drop cs.length).reduceOption.length = 0)
  rw [hsplit, hnil, List.append_nil]

theorem Tidy.nodes_twig (ht : Tidy s) (h : TwigAt E s x (level + 2) cs) :
    s.nodes (level + 2) x = x :: cs.flatMap fun c => s.nodes (level + 1) c.1 := by
  rw [nodes, ht.twig h, List.flatMap_map]

theorem Subtree.reached (h : Subtree s level x L) (ht : Tidy s) (hL : L ≠ [])
    (hy : y ∈ s.nodes level x) :
    ∃ l I, Subtree s l y I ∧ I ≠ [] ∧ (∀ e ∈ I, e ∈ L) ∧ (y = x ∧ l = level ∨ l < level) := by
  induction level using Nat.strong_induction_on generalizing x L with
  | _ level ih =>
      match level, h with
      | 1, h =>
          obtain rfl := List.mem_singleton.mp hy
          exact ⟨1, L, h, hL, fun _ => id, Or.inl ⟨rfl, rfl⟩⟩
      | level + 2, ⟨cs, hc, hg⟩ =>
          rw [ht.nodes_twig hc] at hy
          rcases List.mem_cons.mp hy with rfl | hy
          · exact ⟨level + 2, L, ⟨cs, hc, hg⟩, hL, fun _ => id, Or.inl ⟨rfl, rfl⟩⟩
          · obtain ⟨c, hc, hy⟩ := List.mem_flatMap.mp hy
            obtain ⟨J, w, hJ, hw, -, hsub⟩ := hg.group hc
            have hJne : J ≠ [] := by
              rintro rfl
              cases hw
            obtain ⟨l, I, hI, hne, hIJ, hl⟩ := ih (level + 1) (by omega) hJ hJne hy
            exact ⟨l, I, hI, hne, fun e he => hsub e (hIJ e he), Or.inr (by omega)⟩

theorem Subtree.frame (h : Subtree s level x L) (ht : Tidy s) (hc : s'.config = s.config)
    (hh : ∀ y ∈ s.nodes level x, s'.heap y = s.heap y) : Subtree s' level x L := by
  induction level using Nat.strong_induction_on generalizing x L with
  | _ level ih =>
      match level, h with
      | 1, h => exact LeafAt.frame h hc (hh x (List.mem_singleton_self x))
      | level + 2, ⟨cs, htwig, hg⟩ =>
          rw [ht.nodes_twig htwig] at hh
          refine ⟨cs, htwig.frame hc (hh x List.mem_cons_self), hg.mono fun c hmem I hI => ?_⟩
          refine ih (level + 1) (by omega) hI fun y hy => hh y (List.mem_cons_of_mem x ?_)
          exact List.mem_flatMap.mpr ⟨c, hmem, hy⟩

section Order

variable [LinearOrder K]

theorem Subtree.children_disjoint (hg : Grouped (Subtree s level) Prod.fst L cs) (ht : Tidy s)
    (hs : Rising Prod.fst L) :
    cs.Pairwise fun b c => List.Disjoint (s.nodes level b.1) (s.nodes level c.1) := by
  have hcs : cs.Nodup := (hg.rising hs).imp fun hlt heq => hlt.ne (congrArg Prod.snd heq)
  have hP : ∀ (y : ℕ) (c c' : List (K × List UInt8)), Subtree s level y c → Subtree s level y c' →
      c = c' := fun _ _ _ h h' => (h.unique h').2
  refine hcs.pairwise_of_forall_ne fun b hb c hc hne y hyb hyc => hne ?_
  obtain ⟨I, w, hI, hw, -⟩ := hg.group hb
  obtain ⟨J, w', hJ, hw', -⟩ := hg.group hc
  have hIne : I ≠ [] := by
    rintro rfl
    cases hw
  have hJne : J ≠ [] := by
    rintro rfl
    cases hw'
  obtain ⟨l, A, hA, hAne, hAI, -⟩ := hI.reached ht hIne hyb
  obtain ⟨l', A', hA', -, hAJ, -⟩ := hJ.reached ht hJne hyc
  obtain ⟨-, rfl⟩ := hA.unique hA'
  obtain ⟨e, he⟩ := List.exists_mem_of_ne_nil A hAne
  exact hg.group_unique hP hs hb hc hI hJ (hAI e he) (hAJ e he)

theorem Subtree.nodup (h : Subtree s level x L) (ht : Tidy s) (hs : Rising Prod.fst L) :
    (s.nodes level x).Nodup := by
  induction level using Nat.strong_induction_on generalizing x L with
  | _ level ih =>
      match level, h with
      | 1, h => exact List.nodup_singleton x
      | level + 2, ⟨cs, hc, hg⟩ =>
          rw [ht.nodes_twig hc, List.nodup_cons, List.nodup_flatMap]
          refine ⟨fun hmem => ?_, fun c hmem => ?_, Subtree.children_disjoint hg ht hs⟩
          · obtain ⟨c, hmem, hx⟩ := List.mem_flatMap.mp hmem
            obtain ⟨I, w, hI, hw, -⟩ := hg.group hmem
            have hIne : I ≠ [] := by
              rintro rfl
              cases hw
            obtain ⟨l, A, hA, -, -, hl⟩ := hI.reached ht hIne hx
            have hx : Subtree s (level + 2) x L := ⟨cs, hc, hg⟩
            have hxlevel := (hA.unique hx).1
            omega
          · obtain ⟨U, V, hsplit⟩ := List.append_of_mem hmem
            obtain ⟨A, I, B, w, rfl, hI, -⟩ := hg.split_upper hsplit
            refine ih (level + 1) (by omega) hI ?_
            exact (List.pairwise_append.mp (List.pairwise_append.mp hs).1).2.1

/-! ## From the levels of a tree -/

omit [LinearOrder K] in
theorem Index.subtree (h : Index E s level xs above) (hl : 1 ≤ level)
    (hg : Grouped (Subtree s level) Prod.fst L xs) :
    ∃ r, s.root = some r ∧ Subtree s (level + above.length) r L := by
  induction above generalizing level xs with
  | nil =>
      obtain ⟨z, rfl, hroot⟩ := h
      obtain ⟨A, I, B, w, rfl, hI, -, -, hA, hB⟩ := hg.split_upper (U := []) rfl
      rw [hA.eq_nil, hB.eq_nil, List.nil_append, List.append_nil]
      exact ⟨z.1, hroot, hI⟩
  | cons ys above ih =>
      obtain ⟨hgroups, hi⟩ := h
      obtain ⟨l, rfl⟩ : ∃ l, level = l + 1 := ⟨level - 1, by omega⟩
      have hup : Grouped (Subtree s (l + 1 + 1)) Prod.fst L ys :=
        (hg.compose hgroups).mono fun y _ I hI => by
          obtain ⟨cs, hc, hI⟩ := hI
          exact ⟨cs, hc.weaken, hI⟩
      obtain ⟨r, hroot, hr⟩ := ih hi (by omega) hup
      refine ⟨r, hroot, ?_⟩
      rwa [List.length_cons, ← Nat.add_assoc, Nat.add_right_comm]

theorem Tree.subtree (h : Tree E s L xs above) :
    ∃ r, s.root = some r ∧ Subtree s (1 + above.length) r L :=
  h.index.subtree le_rfl h.leaves

end Order

end Btree

end Carthage
